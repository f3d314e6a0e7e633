import Mathlib.Data.Prod.Lex
import Plaza.Core.EventScheduler
import Plaza.Lib.Execution
import Plaza.Lib.Ordered

open Rust

namespace Plaza.Core

variable {T α ω : Type}

-- The queue prefers what is due earlier, and of that the greater id.
theorem ScheduledItem.compare_isLE_iff [LinearOrder T] {a b : ScheduledItem T α} :
    (compare b a).isLE ↔ a.triggerAt < b.triggerAt ∨ a.triggerAt = b.triggerAt ∧ b.id ≤ a.id := by
  have hc : compare b a = (compare a.triggerAt b.triggerAt).then (compare b.id a.id) := rfl
  have hi : (compare b.id a.id).isLE ↔ b.id ≤ a.id :=
    isLE_compareOfLessAndEq BitVec.le_antisymm BitVec.not_le BitVec.le_total
  rw [hc, Ordering.isLE_then_iff_or, compare_lt_iff_lt, compare_eq_iff_eq, hi]

theorem ScheduledItem.pairwise_mergeSort [LinearOrder T] {l : List (ScheduledItem T α)} :
    (l.mergeSort fun a b => (compare b a).isLE).Pairwise fun a b => (compare b a).isLE := by
  refine List.pairwise_mergeSort (fun a b c => ?trans) (fun a b => ?total) l
  all_goals simp only [compare_isLE_iff, Bool.or_eq_true]
  case trans =>
    rintro (hab | hab) (hbc | hbc)
    · exact .inl (hab.trans hbc)
    · exact .inl (hbc.left ▸ hab)
    · exact .inl (hab.left ▸ hbc)
    · exact .inr ⟨hab.left.trans hbc.left, BitVec.le_trans hbc.right hab.right⟩
  case total =>
    cases lt_trichotomy a.triggerAt b.triggerAt
    case inl h => exact .inl (.inl h)
    case inr h =>
      cases h
      case inl h => exact (BitVec.le_total b.id a.id).imp (.inr ⟨h, ·⟩) (.inr ⟨h.symm, ·⟩)
      case inr h => exact .inr (.inl h)

namespace Scheduler

variable [RepeatingInstant T] {fire : ScheduledItem T α → ω → α × ω} {now interval t t' : T} {rounds : Nat}
variable {choices : List Nat} {items toReschedule sorted : List (ScheduledItem T α)} {world world' : ω}
variable {left : Option (List (ScheduledItem T α))}

theorem nextTrigger_add {k : Nat} (h : nextTrigger now interval rounds t = some t') :
    nextTrigger now interval (rounds + k) t = some t' := by
  induction rounds generalizing t
  case zero => cases h
  case succ rounds ih =>
    rw [Nat.add_right_comm]
    simp only [nextTrigger] at *
    split at h
    case isTrue hle  => rw [if_pos hle, ih h]
    case isFalse hle => rw [if_neg hle, h]

theorem lt_of_nextTrigger (h : nextTrigger now interval rounds t = some t') : now < t' := by
  induction rounds generalizing t
  case zero => cases h
  case succ rounds ih =>
    rw [nextTrigger] at h
    split at h
    case isTrue     => exact ih h
    case isFalse hn => exact Option.some.inj h ▸ not_le.mp hn

-- What firing the items in this order makes of the world.
def fold (fire : ScheduledItem T α → ω → α × ω) (due : List (ScheduledItem T α)) (world : ω) : ω :=
  due.foldl (fun world item => (fire item world).snd) world

-- One round of the loop.
theorem fireDue_cons {i : Nat} {item : ScheduledItem T α} {rest : List (ScheduledItem T α)}
    (hp : Heap.pop items i = some (item, rest)) :
    fireDue fire now rounds (i :: choices) items toReschedule world =
      if now < item.triggerAt then
        some (some (items ++ toReschedule), world)
      else
        match item.repeatInterval with
        | none => fireDue fire now rounds choices rest toReschedule (fire item world).snd
        | some interval =>
          match nextTrigger now interval rounds (SchedulerInstant.addInterval item.triggerAt interval) with
          | none           => some (none, (fire item world).snd)
          | some triggerAt =>
            fireDue fire now rounds choices rest
              (toReschedule ++ [{ item with payload := (fire item world).fst, triggerAt }]) (fire item world).snd := by
  cases items
  case nil  => simp [Heap.pop] at hp
  case cons =>
    simp only [fireDue, hp]
    rfl

-- The trigger of the item, if it repeats, comes within so many rounds.
def Advances (now : T) (rounds : Nat) (item : ScheduledItem T α) : Prop :=
  ∀ interval, item.repeatInterval = some interval →
    (nextTrigger now interval rounds (SchedulerInstant.addInterval item.triggerAt interval)).isSome

-- The next trigger of an item, if it repeats.
def again (now : T) (rounds : Nat) (item : ScheduledItem T α) : Option T :=
  item.repeatInterval.bind fun interval =>
    nextTrigger now interval rounds (SchedulerInstant.addInterval item.triggerAt interval)

-- What a round can do: nothing that is in the queue is due, or the next item is fired. After that the loop is stuck,
-- or it goes on with the item, if that repeats, among those to put back.
theorem fireDue_round {i : Nat}
    (h : fireDue fire now rounds (i :: choices) items toReschedule world = some (left, world')) :
    (∀ a ∈ items, now < a.triggerAt) ∧ left = some (items ++ toReschedule) ∧ world' = world ∨
    ∃ item rest, Heap.pop items i = some (item, rest) ∧ item.triggerAt ≤ now ∧
      (¬Advances now rounds item ∧ left = none ∧ world' = (fire item world).snd ∨
      Advances now rounds item ∧
        fireDue fire now rounds choices rest
          (toReschedule ++ (again now rounds item).toList.map ({ item with payload := (fire item world).fst, triggerAt := · }))
          (fire item world).snd = some (left, world')) := by
  cases hi : items
  case nil =>
    subst hi
    simp only [fireDue, Option.some.injEq, Prod.mk.injEq] at h
    exact .inl ⟨by simp, h.left.symm, h.right.symm⟩
  case cons =>
    rw [← hi]
    cases hp : Heap.pop items i
    case none =>
      subst hi
      simp [fireDue, hp] at h
    case some p =>
      rw [fireDue_cons hp] at h
      split at h
      case isTrue hd =>
        simp only [Option.some.injEq, Prod.mk.injEq] at h
        refine .inl ⟨fun a ha => ?_, h.left.symm, h.right.symm⟩
        have := ScheduledItem.compare_isLE_iff.mp (Heap.pop_greatest hp ha)
        exact this.elim hd.trans fun h => h.left ▸ hd
      case isFalse hd =>
        refine .inr ⟨p.fst, p.snd, rfl, not_lt.mp hd, ?_⟩
        cases hn : p.fst.repeatInterval <;> rw [hn] at h
        case none =>
          refine .inr ⟨fun interval hi => ?_, ?_⟩
          · cases hn.symm.trans hi
          · simpa [again, hn] using h
        case some interval =>
          dsimp only at h
          split at h
          case h_1 ht =>
            simp only [Option.some.injEq, Prod.mk.injEq] at h
            refine .inl ⟨fun ha => ?_, h.left.symm, h.right.symm⟩
            have := ha interval hn
            rw [ht] at this
            cases this
          case h_2 triggerAt ht =>
            refine .inr ⟨fun interval' hi => ?_, ?_⟩
            · cases hn.symm.trans hi
              exact ht ▸ rfl
            · simpa [again, hn, ht] using h

-- What firing does to a part of the world, it does regardless of the rest.
theorem fireDue_map {ω' : Type} {fire' : ScheduledItem T α → ω' → α × ω'} (f : ω' → ω) (world : ω')
    (hf : ∀ item world, fire item (f world) = ((fire' item world).fst, f (fire' item world).snd)) :
    fireDue fire now rounds choices items toReschedule (f world) =
      (fireDue fire' now rounds choices items toReschedule world).map fun r => (r.fst, f r.snd) := by
  induction choices generalizing items toReschedule world
  case nil => cases items <;> rfl
  case cons i choices ih =>
    cases items
    case nil => rfl
    case cons a l =>
      cases hp : Heap.pop (a :: l) i
      case none   => simp [fireDue, hp]
      case some p =>
        rw [fireDue_cons hp, fireDue_cons hp, hf]
        split
        case isTrue  => rfl
        case isFalse =>
          cases p.fst.repeatInterval
          case none          => exact ih _
          case some interval =>
            dsimp only
            cases nextTrigger now interval rounds (SchedulerInstant.addInterval p.fst.triggerAt interval)
            case none => rfl
            case some => exact ih _

-- What a loop has fired so far, it has taken from the queue in the order of the queue.
theorem fireDue_fires (h : fireDue fire now rounds choices items toReschedule world = some (left, world')) :
    ∃ due rest, items.Perm (due ++ rest) ∧ (due.Pairwise fun a b => (compare b a).isLE) ∧
      (∀ a ∈ due, a.triggerAt ≤ now) ∧ world' = fold fire due world := by
  induction choices generalizing items toReschedule world
  case nil =>
    have hw : world' = world := by
      cases items <;> simp only [fireDue, Option.some.injEq, Prod.mk.injEq] at h <;> exact h.right.symm
    exact ⟨[], items, .rfl, .nil, by simp, hw⟩
  case cons i choices ih =>
    cases fireDue_round h
    case inl h => exact ⟨[], items, .rfl, .nil, by simp, h.right.right⟩
    case inr h =>
      obtain ⟨item, rest, hp, hd, h⟩ := h
      have hm := Heap.pop_perm hp
      cases h
      case inl h => exact ⟨[item], rest, hm, List.pairwise_singleton .., by simpa using hd, h.right.right⟩
      case inr h =>
        have ⟨due, rest', hr, ho, hn, hw⟩ := ih h.right
        refine ⟨item :: due, rest', hm.trans (hr.cons item), List.pairwise_cons.mpr ⟨fun b hb => ?_, ho⟩, ?_, hw⟩
        case refine_1 =>
          have hb := hr.mem_iff.mpr <| List.mem_append_left rest' hb
          exact Heap.pop_greatest hp <| hm.mem_iff.mpr <| .tail _ hb
        case refine_2 => simpa using ⟨hd, hn⟩

-- A loop that ends has fired just what is due, and puts back what of it repeats, as far as firing leaves an item as
-- it is.
theorem fireDue_completes {β : Type*} (key : ScheduledItem T α → β)
    (hk : ∀ (item : ScheduledItem T α) world triggerAt,
      key { item with payload := (fire item world).fst, triggerAt } = key { item with triggerAt })
    {items' : List (ScheduledItem T α)}
    (h : fireDue fire now rounds choices items toReschedule world = some (some items', world')) :
    ∃ due rest, items.Perm (due ++ rest) ∧ (∀ a ∈ due, a.triggerAt ≤ now ∧ Advances now rounds a) ∧
      (∀ a ∈ rest, now < a.triggerAt) ∧ world' = fold fire due world ∧
      items'.map key = (rest ++ toReschedule).map key ++
        due.flatMap fun a => (again now rounds a).toList.map fun triggerAt => key { a with triggerAt } := by
  induction choices generalizing items toReschedule world
  case nil =>
    cases items <;> simp only [fireDue, Option.some.injEq, Prod.mk.injEq, reduceCtorEq, false_and] at h
    exact ⟨[], [], .nil, by simp, by simp, h.right.symm, by simp [h.left]⟩
  case cons i choices ih =>
    cases fireDue_round h
    case inl h =>
      obtain ⟨hg, h, hw⟩ := h
      cases h
      exact ⟨[], items, .refl _, by simp, hg, hw, by simp⟩
    case inr h =>
      obtain ⟨item, rest, hp, hd, h⟩ := h
      have ⟨ha, h⟩ := h.resolve_left (by simp)
      have ⟨due, rest', hr, hl, hg, hw, he⟩ := ih h
      refine ⟨item :: due, rest', (Heap.pop_perm hp).trans (hr.cons item), ?_, hg, hw, he.trans ?_⟩
      · exact List.forall_mem_cons.mpr ⟨⟨hd, ha⟩, hl⟩
      · simp [hk, Function.comp_def]

-- What is in the queue afterwards was in it before, as far as neither firing nor a new trigger changes an item.
theorem fireDue_keeps {β : Type*} (key : ScheduledItem T α → β)
    (hk : ∀ item world triggerAt, key { item with payload := (fire item world).fst, triggerAt } = key item)
    (ht : ∀ (item : ScheduledItem T α) triggerAt, key { item with triggerAt } = key item) {items' : List (ScheduledItem T α)}
    (h : fireDue fire now rounds choices items [] world = some (some items', world')) :
    (items'.map key).Subperm (items.map key) := by
  have ⟨due, rest, hp, _, _, _, he⟩ :=
    fireDue_completes key (fun item world triggerAt => (hk item world triggerAt).trans (ht item triggerAt).symm) h
  have hs (l : List (ScheduledItem T α)) : (l.flatMap fun a => (again now rounds a).toList.map fun triggerAt =>
      key { a with triggerAt }).Sublist (l.map key) := by
    induction l
    case nil => exact .refl _
    case cons a l ih =>
      show List.Sublist (_ ++ _) ([key a] ++ l.map key)
      refine .append ?_ ih
      dsimp only
      cases again now rounds a
      case none => exact List.nil_sublist _
      case some => simp [ht]
  have hp := (hp.trans List.perm_append_comm).map key
  rw [he, List.append_nil]
  rw [List.map_append] at hp
  exact ((hs due).append_left _).subperm.trans hp.symm.subperm

-- Of items that do not repeat a loop takes those that are due, and leaves the others.
theorem fireDue_splits {items' : List (ScheduledItem T α)} (hr : ∀ item ∈ items, item.repeatInterval = none)
    (h : fireDue fire now rounds choices items toReschedule world = some (some items', world')) :
    ∃ due rest, items.Perm (due ++ rest) ∧ (∀ a ∈ due, a.triggerAt ≤ now) ∧ (∀ a ∈ rest, now < a.triggerAt) ∧
      items' = rest ++ toReschedule ∧ world' = fold fire due world := by
  induction choices generalizing items world
  case nil =>
    cases items <;> simp only [fireDue, Option.some.injEq, Prod.mk.injEq, reduceCtorEq, false_and] at h
    exact ⟨[], [], .nil, by simp, by simp, h.left.symm, h.right.symm⟩
  case cons i choices ih =>
    cases fireDue_round h
    case inl h =>
      obtain ⟨hg, h, hw⟩ := h
      cases h
      exact ⟨[], items, .refl _, by simp, hg, rfl, hw⟩
    case inr h =>
      obtain ⟨item, rest, hp, hd, h⟩ := h
      have ⟨_, h⟩ := h.resolve_left (by simp)
      have hm := Heap.pop_perm hp
      have ⟨hn, hr⟩ := List.forall_mem_cons.mp fun a ha => hr a (hm.mem_iff.mpr ha)
      simp only [again, hn, Option.bind_none, Option.toList_none, List.map_nil, List.append_nil] at h
      have ⟨due, rest', hp, hl, hg, he, hw⟩ := ih hr h
      exact ⟨item :: due, rest', hm.trans (hp.cons item), List.forall_mem_cons.mpr ⟨hd, hl⟩, hg, he, hw⟩

-- With a choice for each item the loop ends, if every item that is due gets beyond `now`.
theorem fireDue_ends (hl : items.length ≤ choices.length)
    (ha : ∀ item ∈ items, item.triggerAt ≤ now → Advances now rounds item)
    (h : fireDue fire now rounds choices items toReschedule world = some (left, world')) : left.isSome := by
  induction choices generalizing items toReschedule world
  case nil =>
    cases List.length_eq_zero_iff.mp (Nat.le_zero.mp hl)
    cases h
    rfl
  case cons i choices ih =>
    cases fireDue_round h
    case inl h => exact h.right.left ▸ rfl
    case inr h =>
      obtain ⟨item, rest, hp, hd, h⟩ := h
      have hm := Heap.pop_perm hp
      have ⟨hi, ha⟩ := List.forall_mem_cons.mp fun a hr => ha a (hm.mem_iff.mpr hr)
      have ⟨_, h⟩ := h.resolve_left fun h => h.left (hi hd)
      have hl := hm.length_eq ▸ hl
      exact ih (Nat.le_of_succ_le_succ hl) ha h

theorem isLE_head {item : ScheduledItem T α} (hp : items.Perm (item :: sorted))
    (hg : ∀ b ∈ sorted, (compare b item).isLE) : ∀ b ∈ items, (compare b item).isLE := by
  intro b hb
  cases hp.mem_iff.mp hb
  case head      => exact ScheduledItem.compare_isLE_iff.mpr <| .inr ⟨rfl, BitVec.le_refl _⟩
  case tail _ hb => exact hg b hb

-- An item that is due and does not get beyond `now` keeps the loop running, however many choices there are.
theorem exists_stuck (n : Nat) (hp : items.Perm sorted) (hs : sorted.Pairwise fun a b => (compare b a).isLE)
    (ha : ∃ item ∈ sorted, item.triggerAt ≤ now ∧ ¬Advances now rounds item) :
    ∃ choices world', n ≤ choices.length ∧
      fireDue fire now rounds choices items toReschedule world = some (none, world') := by
  induction sorted generalizing items toReschedule world
  case nil => simp at ha
  case cons item sorted ih =>
    have ⟨hg, hs⟩ := List.pairwise_cons.mp hs
    have hd : item.triggerAt ≤ now := by
      obtain ⟨bad, hm, hd, _⟩ := ha
      cases hm
      case head      => exact hd
      case tail _ hm =>
        exact (ScheduledItem.compare_isLE_iff.mp (hg bad hm)).elim (fun h => h.le.trans hd) fun h => h.left ▸ hd
    have ⟨i, rest, hpop, hr⟩ := Heap.exists_pop hp <| isLE_head hp hg
    have go (h : Advances now rounds item) (again : List (ScheduledItem T α)) :
        ∃ choices world', n ≤ choices.length ∧
          fireDue fire now rounds choices rest again (fire item world).snd = some (none, world') := by
      refine ih hr hs ?_
      obtain ⟨bad, hm, hb⟩ := ha
      cases hm
      case head      => exact absurd h hb.right
      case tail _ hm => exact ⟨bad, hm, hb⟩
    cases hi : item.repeatInterval
    case none =>
      have ⟨choices, world', hl, h⟩ := go (fun _ h => by cases hi.symm.trans h) toReschedule
      refine ⟨i :: choices, world', Nat.le_succ_of_le hl, ?_⟩
      rw [fireDue_cons hpop, if_neg (not_lt.mpr hd), hi]
      exact h
    case some interval =>
      cases ht : nextTrigger now interval rounds (SchedulerInstant.addInterval item.triggerAt interval)
      case none =>
        refine ⟨i :: List.replicate n 0, (fire item world).snd, by simp, ?_⟩
        rw [fireDue_cons hpop, if_neg (not_lt.mpr hd), hi]
        simp only [ht]
      case some triggerAt =>
        have ⟨choices, world', hl, h⟩ := go (fun _ h => by cases hi.symm.trans h; exact ht ▸ rfl)
          (toReschedule ++ [{ item with payload := (fire item world).fst, triggerAt }])
        refine ⟨i :: choices, world', Nat.le_succ_of_le hl, ?_⟩
        rw [fireDue_cons hpop, if_neg (not_lt.mpr hd), hi]
        simp only [ht]
        exact hi ▸ h

theorem Advances.add {item : ScheduledItem T α} (h : Advances now rounds item) (k : Nat) :
    Advances now (rounds + k) item := by
  intro interval hi
  have ⟨_, h⟩ := Option.isSome_iff_exists.mp <| h interval hi
  exact nextTrigger_add h ▸ rfl

theorem exists_rounds {l : List (ScheduledItem T α)} (h : ∀ item ∈ l, ∃ rounds, Advances now rounds item) :
    ∃ rounds, ∀ item ∈ l, Advances now rounds item := by
  induction l
  case nil => exact ⟨0, by simp⟩
  case cons a l ih =>
    have ⟨ha, hl⟩ := List.forall_mem_cons.mp h
    have ⟨k₁, h₁⟩ := ha
    have ⟨k₂, h₂⟩ := ih hl
    exact ⟨k₁ + k₂, List.forall_mem_cons.mpr ⟨h₁.add k₂, fun b hb => Nat.add_comm k₁ k₂ ▸ (h₂ b hb).add k₁⟩⟩

-- The queue can hand out its items in each order which has the greater ones first.
theorem exists_fireDue (hp : items.Perm sorted) (hs : sorted.Pairwise fun a b => (compare b a).isLE)
    (ha : ∀ item ∈ sorted, item.triggerAt ≤ now → Advances now rounds item) :
    ∃ choices items', fireDue fire now rounds choices items toReschedule world =
      some (some items', fold fire (sorted.takeWhile (·.triggerAt ≤ now)) world) := by
  induction sorted generalizing items toReschedule world
  case nil =>
    cases hp.eq_nil
    exact ⟨[], toReschedule, rfl⟩
  case cons item sorted ih =>
    have ⟨hg, hs⟩ := List.pairwise_cons.mp hs
    have ⟨hi, ha⟩ := List.forall_mem_cons.mp ha
    have ⟨i, rest, hpop, hr⟩ := Heap.exists_pop hp <| isLE_head hp hg
    by_cases hn : item.triggerAt ≤ now
    case neg =>
      refine ⟨[i], items ++ toReschedule, ?_⟩
      rw [fireDue_cons hpop, if_pos (not_le.mp hn), List.takeWhile_cons_of_neg (by simpa using hn)]
      rfl
    case pos =>
      rw [List.takeWhile_cons_of_pos (by simpa using hn)]
      have go again : ∃ choices items', fireDue fire now rounds choices rest again (fire item world).snd =
          some (some items', fold fire (sorted.takeWhile (·.triggerAt ≤ now)) (fire item world).snd) :=
        ih hr hs ha
      cases hri : item.repeatInterval
      case none =>
        have ⟨choices, items', h⟩ := go toReschedule
        refine ⟨i :: choices, items', ?_⟩
        rw [fireDue_cons hpop, if_neg (not_lt.mpr hn), hri]
        exact h
      case some interval =>
        have ⟨triggerAt, ht⟩ := Option.isSome_iff_exists.mp <| hi hn interval hri
        have ⟨choices, items', h⟩ :=
          go (toReschedule ++ [{ item with payload := (fire item world).fst, triggerAt }])
        refine ⟨i :: choices, items', ?_⟩
        rw [fireDue_cons hpop, if_neg (not_lt.mpr hn), hri]
        simp only [ht]
        exact hri ▸ h

section

variable {max : Nat} {now interval t t' : Fin (max + 1)}

theorem val_addInterval : (SchedulerInstant.addInterval t interval).val = min (t.val + interval.val) max := by
  simp only [SchedulerInstant.addInterval, Fin.ofNat]
  exact Nat.mod_eq_of_lt (by omega)

-- Whole intervals lead to the next trigger, as far as there is room for them.
theorem val_nextTrigger (h : nextTrigger now interval rounds t = some t') :
    ∃ k, t'.val = min (t.val + k * interval.val) max := by
  induction rounds generalizing t
  case zero => cases h
  case succ rounds ih =>
    rw [nextTrigger] at h
    split at h
    case isTrue =>
      have ⟨k, hk⟩ := ih h
      refine ⟨k + 1, ?_⟩
      rw [hk, val_addInterval, Nat.succ_mul]
      omega
    case isFalse =>
      cases h
      refine ⟨0, ?_⟩
      omega

-- Below the end of the axis the triggers get beyond every time.
theorem exists_nextTrigger (hi : 0 < interval.val) (hn : now.val < max) :
    ∃ rounds, (nextTrigger now interval rounds t).isSome := by
  refine ⟨now.val + 1 - t.val + 1, ?_⟩
  generalize hm : now.val + 1 - t.val = m
  induction m using Nat.strong_induction_on generalizing t
  case h m ih =>
    rw [nextTrigger]
    split
    case isFalse    => rfl
    case isTrue hle =>
      have hle : t.val ≤ now.val := hle
      have ha := @val_addInterval max interval t
      have hs := ih (now.val + 1 - (SchedulerInstant.addInterval t interval).val) (by omega) rfl
      have ⟨t', ht⟩ := Option.isSome_iff_exists.mp hs
      have hk : now.val + 1 - (SchedulerInstant.addInterval t interval).val + 1 ≤ m := by omega
      obtain ⟨k, rfl⟩ := Nat.exists_eq_add_of_le hk
      rw [nextTrigger_add ht]
      rfl

end

end Scheduler
end Plaza.Core
