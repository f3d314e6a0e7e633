import Mathlib.Data.Finset.Basic
import Mathlib.Data.List.AList
import Mathlib.Data.Multiset.MapFold

-- Maps which hold the same, under different names for their keys and values.
namespace AList

variable {α α' β β' γ : Type*} {f : α → α'} {g : β → β'} {s : AList fun _ : α => β}
  {t : AList fun _ : α' => β'} {a : α} {b : β} {le : α → α → Bool} {le' : α' → α' → Bool}

def rename (f : α → α') (g : β → β') (e : Σ _ : α, β) : Σ _ : α', β' :=
  ⟨f e.fst, g e.snd⟩

-- `t` holds under `f a` what `s` holds under `a`, read through `g`, and nothing else.
def Renames (f : α → α') (g : β → β') (s : AList fun _ : α => β) (t : AList fun _ : α' => β') : Prop :=
  t.entries = s.entries.map (rename f g)

namespace Renames

theorem empty : Renames f g ∅ ∅ :=
  rfl

theorem mergeSort_eq (h : Renames f g s t) (hl : ∀ a b, le a b = le' (f a) (f b)) :
    t.entries.mergeSort (fun x y => le' x.fst y.fst) =
      (s.entries.mergeSort fun x y => le x.fst y.fst).map (rename f g) := by
  rw [h]
  exact (List.map_mergeSort (f := rename f g) fun x _ y _ => hl x.fst y.fst).symm

variable [DecidableEq α] [DecidableEq α'] (hf : f.Injective)

include hf

theorem lookup (h : Renames f g s t) : t.lookup (f a) = (s.lookup a).map g := by
  rw [AList.lookup, h]
  exact @List.dlookup_map α α' (fun _ => β) (fun _ => β') _ _ s.entries f hf (fun _ => g) a

theorem kerase (h : Renames f g s t) :
    t.entries.kerase (f a) = (s.entries.kerase a).map (rename f g) := by
  have hp : (fun e : Σ _ : α, β => decide (f a = f e.fst)) = fun e => decide (a = e.fst) := by
    simp [hf.eq_iff]
  rw [h, List.kerase, List.kerase, List.eraseP_map, ←hp]
  rfl

theorem erase (h : Renames f g s t) : Renames f g (s.erase a) (t.erase (f a)) :=
  h.kerase hf

theorem insert (h : Renames f g s t) : Renames f g (s.insert a b) (t.insert (f a) (g b)) := by
  simp only [Renames, entries_insert, h.kerase hf]
  rfl

end Renames

variable [DecidableEq α]

theorem lookup_of_mem {e : Σ _ : α, β} (h : e ∈ s.entries) : s.lookup e.fst = some e.snd :=
  mem_lookup_iff.mpr h

-- Sorting the keys and looking each of them up is reading the entries in order.
theorem filterMap_mergeSort_keys {k : α → β → γ} :
    (s.keys.mergeSort le).filterMap (fun a => (s.lookup a).map (k a)) =
      (s.entries.mergeSort fun x y => le x.fst y.fst).map fun e => k e.fst e.snd := by
  have hk : s.keys.mergeSort le = (s.entries.mergeSort fun x y => le x.fst y.fst).map Sigma.fst := by
    rw [List.map_mergeSort (s := le) fun _ _ _ _ => rfl]
    rfl
  rw [hk, List.filterMap_map, ←List.filterMap_eq_map]
  apply List.filterMap_congr
  intro e he
  simp [lookup_of_mem (List.mem_mergeSort.mp he)]

theorem lookup_foldl_erase {l : List α} :
    (l.foldl (fun s a => s.erase a) s).lookup a = if a ∈ l then none else s.lookup a := by
  induction l generalizing s
  case nil => rfl
  case cons a' l ih =>
    rw [List.foldl_cons, ih]
    by_cases h : a = a'
    case pos =>
      subst h
      simp
    case neg => simp [h, lookup_erase_ne h]

omit [DecidableEq α] in
theorem sublist_keys_filterMap {f : α → β → Option β} {l : List (Σ _ : α, β)} :
    (l.filterMap fun e => (f e.fst e.snd).map fun b => (⟨e.fst, b⟩ : Σ _ : α, β)).keys.Sublist l.keys := by
  induction l
  case nil => exact .slnil
  case cons e l ih =>
    cases h : f e.fst e.snd
    case none   => simpa [List.filterMap_cons, h] using ih.cons e.fst
    case some b => simpa [List.filterMap_cons, h] using ih.cons_cons e.fst

-- What is left of a map by a function which says of each entry what becomes of it.
def retain (f : α → β → Option β) (s : AList fun _ : α => β) : AList fun _ : α => β where
  entries   := s.entries.filterMap fun e => (f e.fst e.snd).map (⟨e.fst, ·⟩)
  nodupKeys := List.Nodup.sublist sublist_keys_filterMap s.nodupKeys

theorem lookup_retain {f : α → β → Option β} : (s.retain f).lookup a = (s.lookup a).bind (f a) := by
  ext b
  rw [Option.bind_eq_some_iff, ← Option.mem_def, mem_lookup_iff, retain, List.mem_filterMap]
  constructor
  case mp =>
    rintro ⟨e, he, h⟩
    obtain ⟨b', hb, h⟩ := Option.map_eq_some_iff.mp h
    cases h
    exact ⟨e.snd, lookup_of_mem he, hb⟩
  case mpr =>
    rintro ⟨b', hl, hb⟩
    exact ⟨⟨a, b'⟩, mem_lookup_iff.mp hl, by simp [hb]⟩

-- Of all entries, one key has at most one.
theorem filterMap_entries {g : β → Option γ} :
    (s.entries.filterMap fun e => if e.fst = a then g e.snd else none) = ((s.lookup a).bind g).toList := by
  have (l : List (Σ _ : α, β)) (hl : l.NodupKeys) :
      (l.filterMap fun e => if e.fst = a then g e.snd else none) = ((l.dlookup a).bind g).toList := by
    induction l
    case nil => rfl
    case cons e l ih =>
      obtain ⟨hn, hl⟩ := List.nodupKeys_cons.mp hl
      by_cases h : e.fst = a
      case pos =>
        subst h
        have hz : (l.filterMap fun e' => if e'.fst = e.fst then g e'.snd else none) = [] := by
          rw [ih hl, List.dlookup_eq_none.mpr hn]
          rfl
        have he : (e :: l).dlookup e.fst = some e.snd := List.dlookup_cons_eq l e.fst e.snd
        cases hg : g e.snd <;> simp [hg, hz, he]
      case neg => simp [h, ih hl, List.dlookup_cons_ne l e (Ne.symm h)]
  exact this s.entries s.nodupKeys

end AList

namespace Multiset

variable {α σ : Type*} {f : σ → α → σ} [RightCommutative f] {Q : σ → Prop} {R : α → Prop} {s : σ}
variable {as : Multiset α} {a : α}

def soleOf : List α → Option α
  | [a] => some a
  | _   => none

-- The rules for a loop over a collection whose order is left open: what one round adds to `Q` or
-- takes from it, the loop adds or takes once for every member.
theorem foldl_or_iff (h : ∀ s a, Q (f s a) ↔ Q s ∨ R a) : Q (as.foldl f s) ↔ Q s ∨ ∃ a ∈ as, R a := by
  induction as using Multiset.induction generalizing s
  case empty =>
    rw [foldl_zero]
    simp
  case cons _ hi =>
    rw [foldl_cons, hi, h, or_assoc]
    simp

theorem foldl_and_iff (h : ∀ s a, Q (f s a) ↔ Q s ∧ R a) : Q (as.foldl f s) ↔ Q s ∧ ∀ a ∈ as, R a := by
  induction as using Multiset.induction generalizing s
  case empty =>
    rw [foldl_zero]
    simp
  case cons _ hi =>
    rw [foldl_cons, hi, h, and_assoc]
    simp

theorem foldl_preserves (h : ∀ s a, a ∈ as → Q s → Q (f s a)) (hs : Q s) : Q (as.foldl f s) := by
  induction as using Multiset.induction generalizing s
  case empty     => exact hs
  case cons _ hi =>
    rw [foldl_cons]
    exact hi (fun s a ha => h s a (mem_cons_of_mem ha)) (h _ _ (mem_cons_self ..) hs)

theorem soleOf_eq_of_perm {as₁ as₂ : List α} (h : as₁.Perm as₂) : soleOf as₁ = soleOf as₂ := by
  match as₁, as₂, h.length_eq with
  | [], [], _            => rfl
  | [_], [_], _          => simpa [soleOf] using h
  | _ :: _ :: _, _ :: _ :: _, _ => rfl

-- The one member of a collection of one.
def sole (as : Multiset α) : Option α :=
  Quot.liftOn as soleOf fun _ _ => soleOf_eq_of_perm

theorem sole_eq_some_iff : as.sole = some a ↔ as = {a} := by
  induction as using Quotient.inductionOn
  case h as =>
    rw [quot_mk_to_coe, coe_eq_singleton]
    change soleOf as = some a ↔ as = [a]
    match as with
    | []          => simp [soleOf]
    | [_]         => simp [soleOf]
    | _ :: _ :: _ => simp [soleOf]

end Multiset

-- A map from keys to finite sets.
def Multimap (α β : Type*) :=
  α → Option (Finset β)

namespace Multimap

variable {α β : Type*}

-- The set at a key, where no entry reads as the empty set.
def get (m : Multimap α β) (a : α) : Finset β :=
  (m a).getD ∅

def empty : Multimap α β :=
  fun _ => none

-- No key has an entry for the empty set.
def Tight (m : Multimap α β) : Prop :=
  ∀ a, m a ≠ some ∅

section

variable [DecidableEq α] [DecidableEq β]

def put (m : Multimap α β) (a : α) (entry : Option (Finset β)) : Multimap α β :=
  fun x => if x = a then entry else m x

def insert (m : Multimap α β) (a : α) (b : β) : Multimap α β :=
  m.put a <| some <| Insert.insert b (m.get a)

-- The entry that keeps a set. No entry is kept for the empty set.
def entry (set : Finset β) : Option (Finset β) :=
  if set = ∅ then none else some set

def erase (m : Multimap α β) (a : α) (b : β) : Multimap α β :=
  m.put a <| (m a).bind fun set => entry (set.erase b)

def remove (m : Multimap α β) (a : α) : Multimap α β :=
  m.put a none

end

variable {m : Multimap α β} {a a₁ a₂ : α} {b b₁ b₂ : β} {set : Finset β}

variable [DecidableEq α] [DecidableEq β]

theorem get_entry : (entry set).getD ∅ = set := by
  by_cases h : set = ∅ <;> simp [entry, h]

theorem entry_ne_some_empty : entry set ≠ some ∅ := by
  by_cases h : set = ∅ <;> simp [entry, h]

theorem entry_erase_erase :
    (entry (set.erase b₁)).bind (fun set => entry (set.erase b₂)) = entry ((set.erase b₁).erase b₂) := by
  by_cases h : set.erase b₁ = ∅ <;> simp [entry, h]

omit [DecidableEq α] [DecidableEq β] in
@[simp]
theorem get_empty : (empty : Multimap α β).get a = ∅ :=
  rfl

@[simp]
theorem get_insert : (m.insert a₁ b).get a₂ = if a₂ = a₁ then Insert.insert b (m.get a₁) else m.get a₂ := by
  by_cases h : a₂ = a₁ <;> simp [get, insert, put, h]

@[simp]
theorem get_erase : (m.erase a₁ b).get a₂ = if a₂ = a₁ then (m.get a₁).erase b else m.get a₂ := by
  by_cases h : a₂ = a₁
  case neg => simp [get, erase, put, h]
  case pos => cases hm : m a₁ <;> simp [get, erase, put, h, hm, get_entry]

omit [DecidableEq β] in
@[simp]
theorem get_remove : (m.remove a₁).get a₂ = if a₂ = a₁ then ∅ else m.get a₂ := by
  by_cases h : a₂ = a₁ <;> simp [get, remove, put, h]

namespace Tight

omit [DecidableEq α] [DecidableEq β] in
protected theorem empty : (empty : Multimap α β).Tight :=
  nofun

omit [DecidableEq β] in
protected theorem put {entry : Option (Finset β)} (h : m.Tight) (he : entry ≠ some ∅) :
    (m.put a entry).Tight := by
  intro x
  by_cases hx : x = a <;> simp [put, hx, h x, he]

protected theorem insert (h : m.Tight) : (m.insert a b).Tight :=
  h.put <| by simp

protected theorem erase (h : m.Tight) : (m.erase a b).Tight :=
  h.put <| by cases m a <;> simp [entry_ne_some_empty]

omit [DecidableEq β] in
protected theorem remove (h : m.Tight) : (m.remove a).Tight :=
  h.put nofun

end Tight

theorem insert_comm : (m.insert a₁ b₁).insert a₂ b₂ = (m.insert a₂ b₂).insert a₁ b₁ := by
  funext x
  by_cases h : a₁ = a₂
  case pos =>
    subst h
    by_cases hx : x = a₁ <;> simp [insert, put, get, hx, Finset.insert_comm b₁]
  case neg =>
    by_cases h₁ : x = a₁ <;> by_cases h₂ : x = a₂ <;> simp_all [insert, put, get, eq_comm]

theorem erase_comm : (m.erase a₁ b₁).erase a₂ b₂ = (m.erase a₂ b₂).erase a₁ b₁ := by
  funext x
  by_cases h : a₁ = a₂
  case pos =>
    subst h
    by_cases hx : x = a₁
    case neg => simp [erase, put, hx]
    case pos => cases hm : m a₁ <;> simp [erase, put, hx, hm, entry_erase_erase, Finset.erase_right_comm]
  case neg =>
    by_cases h₁ : x = a₁ <;> by_cases h₂ : x = a₂ <;> simp_all [erase, put, eq_comm]

instance {b : β} : RightCommutative fun (m : Multimap α β) (a : α) => m.erase a b :=
  ⟨fun _ _ _ => erase_comm⟩

theorem mem_get_erase : b₂ ∈ (m.erase a₁ b₁).get a₂ ↔ b₂ ∈ m.get a₂ ∧ ¬(a₂ = a₁ ∧ b₂ = b₁) := by
  by_cases h : a₂ = a₁ <;> simp [h, and_comm]

theorem mem_get_eraseAll {as : Multiset α} :
    b₂ ∈ (as.foldl (·.erase · b₁) m).get a ↔ b₂ ∈ m.get a ∧ ¬(a ∈ as ∧ b₂ = b₁) := by
  rw [Multiset.foldl_and_iff (Q := fun m : Multimap α β => b₂ ∈ m.get a)
    (R := fun x => ¬(a = x ∧ b₂ = b₁)) fun _ _ => mem_get_erase]
  grind

theorem Tight.eraseAll {as : Multiset α} (h : m.Tight) : (as.foldl (·.erase · b) m).Tight :=
  Multiset.foldl_preserves (fun _ _ _ h => h.erase) h

omit [DecidableEq α] [DecidableEq β] in
theorem Tight.eq_none (h : m.Tight) (hg : m.get a = ∅) : m a = none := by
  have h := h a
  cases hm : m a <;> simp_all [get]

end Multimap
