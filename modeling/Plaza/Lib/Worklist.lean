import Mathlib.Algebra.BigOperators.Group.Finset.Basic
import Mathlib.Data.Finmap
import Mathlib.Data.Finset.Basic
import Mathlib.Data.Set.Function
import Plaza.Lib.Execution

-- The traversal of a finite graph, possibly with cycles, by a stack of the nodes to be visited. A visit pushes a
-- node's successors and puts something out.
structure Worklist (α β : Type*) where
  nodes : Finset α
  next  : α → List α
  emit  : α → List β

namespace Worklist

variable {α β : Type*} [DecidableEq α]

structure State (α β : Type*) where
  queue : List α
  found : Finset α
  out   : List β

def start (roots : List α) : State α β where
  queue := roots
  found := ∅
  out   := []

def loop (w : Worklist α β) : Loop (State α β) where
  body s :=
    match s.queue with
    | []         => none
    | a :: queue =>
      if a ∈ w.nodes ∧ a ∉ s.found then
        some { queue := (w.next a).reverse ++ queue, found := insert a s.found, out := s.out ++ w.emit a }
      else
        some { s with queue }

-- The least set that has the roots and all successors of its members, as far as these are nodes.
inductive Reach (w : Worklist α β) (roots : List α) : α → Prop
  | root {a} : (a ∈ roots) → (a ∈ w.nodes) → Reach w roots a
  | next {a b} : (Reach w roots a) → (b ∈ w.next a) → (b ∈ w.nodes) → Reach w roots b

variable {w : Worklist α β} {roots : List α} {s s' : State α β} {a : α} {b : β}

-- A round drops the node on top, or visits it.
theorem body_cases (h : w.loop.body s = some s') :
    ∃ a queue, s.queue = a :: queue ∧
      (¬(a ∈ w.nodes ∧ a ∉ s.found) ∧ s' = { s with queue } ∨
        a ∈ w.nodes ∧ a ∉ s.found ∧
          s' = { queue := (w.next a).reverse ++ queue, found := insert a s.found, out := s.out ++ w.emit a }) := by
  cases hq : s.queue <;> simp only [loop, hq, reduceCtorEq] at h
  case cons a queue =>
    refine ⟨a, queue, rfl, ?_⟩
    split at h
    case isTrue hn  => exact .inr ⟨hn.left, hn.right, (Option.some.inj h).symm⟩
    case isFalse hn => exact .inl ⟨hn, (Option.some.inj h).symm⟩

-- What is left to be done at most: the nodes on the stack, and the successors of those not visited yet.
def left (w : Worklist α β) (s : State α β) : Nat :=
  s.queue.length + ∑ a ∈ w.nodes \ s.found, (w.next a).length

theorem left_body (h : w.loop.body s = some s') : w.left s' < w.left s := by
  obtain ⟨a, queue, hq, ⟨_, rfl⟩ | ⟨hn, hf, rfl⟩⟩ := body_cases h
  case inl => simp [left, hq]
  case inr =>
    have hm : a ∈ w.nodes \ s.found := Finset.mem_sdiff.mpr ⟨hn, hf⟩
    have he : w.nodes \ insert a s.found = (w.nodes \ s.found).erase a := by
      ext
      simp only [Finset.mem_sdiff, Finset.mem_insert, Finset.mem_erase]
      tauto
    have := Finset.add_sum_erase _ (fun a => (w.next a).length) hm
    simp only [left, hq, List.length_append, List.length_reverse, List.length_cons, he]
    omega

-- Everything found can be reached, and what can be reached is found or still to be visited from something that is.
structure Sound (w : Worklist α β) (roots : List α) (s : State α β) : Prop where
  found   : ∀ a ∈ s.found, w.Reach roots a
  queue   : ∀ a ∈ s.queue, a ∈ w.nodes → w.Reach roots a
  roots   : ∀ a ∈ roots, a ∈ w.nodes → a ∈ s.found ∨ a ∈ s.queue
  closed  : ∀ a ∈ s.found, ∀ b ∈ w.next a, b ∈ w.nodes → b ∈ s.found ∨ b ∈ s.queue
  out     : ∀ b, b ∈ s.out ↔ ∃ a ∈ s.found, b ∈ w.emit a

omit [DecidableEq α] in
theorem sound_start : w.Sound roots (start roots) where
  found  := by simp [start]
  queue  := fun _ hq hn => .root hq hn
  roots  := fun _ hr _ => .inr hr
  closed := by simp [start]
  out    := by simp [start]

theorem Sound.body (h : w.Sound roots s) (hb : w.loop.body s = some s') : w.Sound roots s' := by
  obtain ⟨a, queue, hq, ⟨hn, rfl⟩ | ⟨hn, hf, rfl⟩⟩ := body_cases hb
  case inl =>
    -- A node that is dropped was found before, or is none.
    have hd : ∀ b, b ∈ w.nodes → b ∈ s.found ∨ b ∈ s.queue → b ∈ s.found ∨ b ∈ queue := by
      intro b hb ho
      rw [hq, List.mem_cons] at ho
      match ho with
      | .inl hs          => exact .inl hs
      | .inr (.inr hs)   => exact .inr hs
      | .inr (.inl rfl)  => exact .inl <| by_contra fun hf => hn ⟨hb, hf⟩
    exact {
      h with
      queue  := fun b hb => h.queue b (hq ▸ List.mem_cons_of_mem a hb)
      roots  := fun b hb hn => hd b hn (h.roots b hb hn)
      closed := fun b hb c hc hn => hd c hn (h.closed b hb c hc hn)
    }
  case inr =>
    have hr : w.Reach roots a := h.queue a (hq ▸ List.mem_cons_self) hn
    have hd : ∀ b, b ∈ s.found ∨ b ∈ s.queue → b ∈ insert a s.found ∨ b ∈ (w.next a).reverse ++ queue := by
      intro b ho
      rw [hq, List.mem_cons] at ho
      simp only [Finset.mem_insert, List.mem_append]
      tauto
    exact {
      found  := by
        intro b hb
        cases Finset.mem_insert.mp hb
        case inl he => exact he ▸ hr
        case inr hb => exact h.found b hb
      queue  := by
        intro b hb hn
        cases List.mem_append.mp hb
        case inl hb => exact .next hr (List.mem_reverse.mp hb) hn
        case inr hb => exact h.queue b (hq ▸ List.mem_cons_of_mem a hb) hn
      roots  := fun b hb hn => hd b (h.roots b hb hn)
      closed := by
        intro b hb c hc hn
        cases Finset.mem_insert.mp hb
        case inl he => exact .inr (List.mem_append_left _ (List.mem_reverse.mpr (he ▸ hc)))
        case inr hb => exact hd c (h.closed b hb c hc hn)
      out    := by
        intro b
        simp only [List.mem_append, h.out, Finset.mem_insert]
        aesop
    }

theorem sound_of_ends (h : w.loop.Ends (start roots) s) : w.Sound roots s :=
  h.preserves Sound.body sound_start

-- The rule for worklists: what is found is the least set, and what is put out is what its members put out.
theorem mem_found_iff (h : w.loop.Ends (start roots) s) : a ∈ s.found ↔ w.Reach roots a := by
  have hs := sound_of_ends h
  have hq : s.queue = [] := by
    have hl := h.left
    cases hq : s.queue
    case nil  => rfl
    case cons => simp [loop, hq] at hl; split at hl <;> contradiction
  constructor
  case mp  => exact hs.found a
  case mpr =>
    intro hr
    induction hr
    case root hr hn    => simpa [hq] using hs.roots _ hr hn
    case next hb hn ih => simpa [hq] using hs.closed _ ih _ hb hn

theorem mem_out_iff (h : w.loop.Ends (start roots) s) : b ∈ s.out ↔ ∃ a, w.Reach roots a ∧ b ∈ w.emit a := by
  simp [(sound_of_ends h).out, mem_found_iff h]

end Worklist

-- The expansion of nodes into a table, each under a key, with a node's own dependencies expanded before it is entered
-- for good. A node whose key is taken counts as expanded.
structure Memo (α β κ : Type*) where
  key         : α → κ
  placeholder : β
  unfolds     : α → β → List α → Prop

namespace Memo

variable {α β κ : Type*} [DecidableEq κ]

abbrev Table (β κ : Type*) :=
  Finmap fun _ : κ => β

inductive Loads (m : Memo α β κ) : List α → Table β κ → Table β κ → Prop
  | nil {t} : Loads m [] t t
  | known {a as t t'} : (m.key a ∈ t) → (Loads m as t t') → Loads m (a :: as) t t'
  | fresh {a as t t₁ t₂ b deps} :
    (m.key a ∉ t) → (m.unfolds a b deps) → (Loads m deps (t.insert (m.key a) m.placeholder) t₁) →
    (Loads m as (t₁.insert (m.key a) b) t₂) → Loads m (a :: as) t t₂

-- What can be reached from the given nodes through dependencies.
inductive Reach (m : Memo α β κ) (as : List α) : α → Prop
  | root {a} : (a ∈ as) → Reach m as a
  | next {a b c deps} : (Reach m as a) → (m.unfolds a b deps) → (c ∈ deps) → Reach m as c

variable {m : Memo α β κ} {as as' : List α} {a c : α} {b : β} {t t' : Table β κ} {k : κ}

omit [DecidableEq κ] in
theorem Reach.mono (hs : ∀ a ∈ as, m.Reach as' a) (h : m.Reach as c) : m.Reach as' c := by
  induction h
  case root h          => exact hs _ h
  case next hu hc h    => exact .next h hu hc

namespace Loads

theorem append {as₁ as₂ : List α} {t₁ t₂ t₃ : Table β κ} (h₁ : m.Loads as₁ t₁ t₂) (h₂ : m.Loads as₂ t₂ t₃) :
    m.Loads (as₁ ++ as₂) t₁ t₃ := by
  induction h₁
  case nil                     => exact h₂
  case known hk _ ih           => exact .known hk (ih h₂)
  case fresh hk hu hd _ _ ih   => exact .fresh hk hu hd (ih h₂)

-- No entry is replaced but the placeholder of a node in the making.
theorem lookup_eq (h : m.Loads as t t') (hk : k ∈ t) : t'.lookup k = t.lookup k := by
  induction h
  case nil           => rfl
  case known _ _ ih  => exact ih hk
  case fresh a _ t t₁ t₂ _ _ hn _ _ _ ih₁ ih₂ =>
    have hne : k ≠ m.key a := fun he => hn (he ▸ hk)
    have hk₁ : t₁.lookup k = t.lookup k := by
      rw [ih₁ (Finmap.mem_insert.mpr (.inr hk)), Finmap.lookup_insert_of_ne _ hne]
    have hm : k ∈ t₁.insert (m.key a) ‹β› := by
      have : k ∈ t₁ := by rwa [←Finmap.lookup_isSome, hk₁, Finmap.lookup_isSome]
      exact Finmap.mem_insert.mpr (.inr this)
    rw [ih₂ hm, Finmap.lookup_insert_of_ne _ hne, hk₁]

theorem mem (h : m.Loads as t t') (hk : k ∈ t) : k ∈ t' := by
  rw [←Finmap.lookup_isSome, h.lookup_eq hk, Finmap.lookup_isSome]
  exact hk

theorem loaded (h : m.Loads as t t') (ha : a ∈ as) : m.key a ∈ t' := by
  induction h
  case nil => cases ha
  case known hk hl ih =>
    cases ha
    case head      => exact hl.mem hk
    case tail _ ha => exact ih ha
  case fresh hl _ ih =>
    cases ha
    case head      => exact hl.mem (Finmap.mem_insert.mpr (.inl rfl))
    case tail _ ha => exact ih ha

-- A new entry belongs to a node that was reached, and those it depends on have an entry as well.
theorem entry (h : m.Loads as t t') (hn : k ∉ t) (hk : t'.lookup k = some b) :
    ∃ a deps, m.Reach as a ∧ m.key a = k ∧ m.unfolds a b deps ∧ ∀ c ∈ deps, m.key c ∈ t' := by
  induction h
  case nil => exact absurd (Finmap.mem_of_lookup_eq_some hk) hn
  case known ih =>
    have ⟨a, deps, hr, h⟩ := ih hn hk
    exact ⟨a, deps, hr.mono fun c hc => .root (List.mem_cons_of_mem _ hc), h⟩
  case fresh a as t t₁ t₂ b' deps _ hu hd hl ih₁ ih₂ =>
    by_cases hin : k ∈ t₁.insert (m.key a) b'
    case neg =>
      have ⟨a, deps, hr, h⟩ := ih₂ hin hk
      exact ⟨a, deps, hr.mono fun c hc => .root (List.mem_cons_of_mem _ hc), h⟩
    case pos =>
      rw [hl.lookup_eq hin] at hk
      have hm c (hc : m.key c ∈ t₁) : m.key c ∈ t₂ := hl.mem (Finmap.mem_insert.mpr (.inr hc))
      by_cases hka : k = m.key a
      case pos =>
        subst hka
        rw [Finmap.lookup_insert, Option.some.injEq] at hk
        exact ⟨a, deps, .root List.mem_cons_self, rfl, hk ▸ hu, fun c hc => hm c (hd.loaded hc)⟩
      case neg =>
        rw [Finmap.lookup_insert_of_ne _ hka] at hk
        have hn' : k ∉ t.insert (m.key a) m.placeholder := by
          rw [Finmap.mem_insert, not_or]
          exact ⟨hka, hn⟩
        have ⟨a', deps', hr, he, hu', hc⟩ := ih₁ hn' hk
        refine ⟨a', deps', hr.mono fun c hc => ?_, he, hu', fun c h => hm c (hc c h)⟩
        exact .next (.root List.mem_cons_self) hu hc

end Loads

-- The rule for tables: when no two nodes that can be reached have one key, each of them has its own entry.
theorem complete (hd : ∀ {a b b' deps deps'}, m.unfolds a b deps → m.unfolds a b' deps' → b = b' ∧ deps = deps')
    (hk : Set.InjOn m.key {a | m.Reach as a}) (h : m.Loads as ∅ t) (ha : m.Reach as a) :
    ∃ b deps, m.unfolds a b deps ∧ t.lookup (m.key a) = some b := by
  have hm : m.key a ∈ t := by
    induction ha
    case root ha            => exact h.loaded ha
    case next a b c deps hr hu hc ih =>
      have ⟨b', hb⟩ := Option.isSome_iff_exists.mp (Finmap.lookup_isSome.mpr ih)
      have ⟨a', deps', hr', he, hu', hc'⟩ := h.entry Finmap.notMem_empty hb
      obtain rfl := hk hr' hr he
      obtain ⟨rfl, rfl⟩ := hd hu hu'
      exact hc' c hc
  have ⟨b, hb⟩ := Option.isSome_iff_exists.mp (Finmap.lookup_isSome.mpr hm)
  have ⟨a', deps, hr, he, hu, _⟩ := h.entry Finmap.notMem_empty hb
  obtain rfl := hk hr ha he
  exact ⟨b, deps, hu, hb⟩

end Memo
