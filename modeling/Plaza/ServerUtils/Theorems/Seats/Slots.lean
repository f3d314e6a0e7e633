import Plaza.ServerUtils.Seats.Slots

namespace Plaza.ServerUtils.SeatSlots

variable {Key : Type} {s : SeatSlots Key} {key key' : Key} {i j : Nat} {x y : Slot Key}

-- Whose seat it is, be they present or not.
def occupant (s : SeatSlots Key) (seat : Nat) : Option Key :=
  s.slots[seat]?.bind Slot.key

-- The index says of every key where it sits, and of no other seat.
def Inverse (s : SeatSlots Key) : Prop :=
  ∀ key seat, s.index key = some seat ↔ s.occupant seat = some key

theorem occupant_of_slot (h : s.slots[i]? = some x) : s.occupant i = x.key := by
  simp [occupant, h]

-- The seat of a key is either held for it or it sits there.
theorem slot_of_occupant (h : s.occupant i = some key) :
    s.slots[i]? = some (.human key) ∨ s.slots[i]? = some (.held key) := by
  simp only [occupant, Option.bind_eq_some_iff] at h
  have ⟨x, hs, hk⟩ := h
  cases x <;> simp_all [Slot.key]

theorem occupant_set {index : Key → Option Nat} (h : s.slots[i]? = some x) :
    occupant { slots := s.slots.set i y, index } j = if j = i then y.key else s.occupant j := by
  have ⟨hlt, _⟩ := List.getElem?_eq_some_iff.mp h
  by_cases hs : j = i
  case pos => subst hs; simp [occupant, hlt]
  case neg => simp [occupant, hs, List.getElem?_set_ne (Ne.symm hs)]

theorem slot_of_firstOpen (h : s.firstOpen = some i) : s.slots[i]? = some .open' := by
  simp only [firstOpen, List.findIdx?_eq_some_iff_getElem] at h
  have ⟨hlt, ho, _⟩ := h
  rw [List.getElem?_eq_getElem hlt]
  cases hs : s.slots[i] <;> simp_all [Slot.isOpen]

theorem firstOpen_eq_none : s.firstOpen = none ↔ .open' ∉ s.slots := by
  simp only [firstOpen, List.findIdx?_eq_none_iff]
  constructor
  case mp => exact fun h hm => absurd (h _ hm) (by simp [Slot.isOpen])
  case mpr =>
    intro h x hm
    cases x
    case open' => contradiction
    all_goals rfl

@[simp]
theorem index_hold : (s.hold key).index = s.index := by
  simp only [hold]
  split
  case h_1 => rfl
  case h_2 => split <;> rfl

@[simp]
theorem index_resume : (s.resume key).index = s.index := by
  simp only [resume]
  split
  case h_1 => rfl
  case h_2 => split <;> rfl

theorem index_open' [DecidableEq Key] :
    (s.open' key).index key' = if key' = key then none else s.index key' := by
  simp only [open']
  split
  case h_1 => split <;> simp_all
  case h_2 => simp only [Function.update_apply]

theorem index_seat [DecidableEq Key] :
    (s.seat key i).index key' = if key' = key then some i else s.index key' :=
  Function.update_apply ..

namespace Inverse

protected theorem new {capacity : Nat} : (new capacity : SeatSlots Key).Inverse := by
  intro key i
  simp only [SeatSlots.new, occupant, List.getElem?_replicate]
  split <;> simp [Slot.key]

theorem slot_of_index (hi : s.Inverse) (h : s.index key = some i) :
    s.slots[i]? = some (.human key) ∨ s.slots[i]? = some (.held key) :=
  slot_of_occupant <| (hi key i).mp h

theorem index_of_slot (hi : s.Inverse) (h : s.slots[i]? = some x) (hk : x.key = some key) :
    s.index key = some i :=
  (hi key i).mpr <| (occupant_of_slot h).trans hk

theorem isHeld_iff (hi : s.Inverse) : s.isHeld key ↔ ∃ i : Nat, s.slots[i]? = some (.held key) := by
  simp only [isHeld, Option.any_eq_true]
  constructor
  case mp =>
    intro ⟨i, hs, hh⟩
    cases hi.slot_of_index hs
    case inl h => simp [h] at hh
    case inr h => exact ⟨i, h⟩
  case mpr => exact fun ⟨i, hs⟩ => ⟨i, hi.index_of_slot hs rfl, by simp [hs]⟩

-- Somebody's coming or going leaves the seat theirs.
theorem set_same (hi : s.Inverse) (h : s.slots[i]? = some x) (hk : y.key = x.key) :
    Inverse { s with slots := s.slots.set i y } := by
  intro key j
  rw [occupant_set h]
  split
  case isTrue hs => rw [hk, ← occupant_of_slot h, ← hs]; exact hi key j
  case isFalse   => exact hi key j

theorem key_of_slot (hi : s.Inverse) (hk : s.index key = some i) (h : s.slots[i]? = some x) :
    x.key = some key :=
  (occupant_of_slot h).symm.trans ((hi key i).mp hk)

protected theorem hold (hi : s.Inverse) : (s.hold key).Inverse := by
  simp only [SeatSlots.hold]
  split
  case h_1      => exact hi
  case h_2 i hk =>
    split
    case h_1 hs => exact hi.set_same hs (hi.key_of_slot hk hs).symm
    case h_2    => exact hi

protected theorem resume (hi : s.Inverse) : (s.resume key).Inverse := by
  simp only [SeatSlots.resume]
  split
  case h_1      => exact hi
  case h_2 i hk =>
    split
    case h_1 hs => exact hi.set_same hs (hi.key_of_slot hk hs).symm
    case h_2    => exact hi

variable [DecidableEq Key]

protected theorem seat (hi : s.Inverse) (ho : s.slots[i]? = some .open') (hk : s.index key = none) :
    (s.seat key i).Inverse := by
  intro key' j
  have h := hi key' j
  have hn := occupant_of_slot ho
  simp only [SeatSlots.seat, occupant_set ho, Slot.key, Function.update_apply]
  split
  case isTrue he =>
    subst he
    split
    case isTrue hj  => simp [hj]
    case isFalse hj => simpa [Ne.symm hj, hk] using h
  case isFalse he =>
    split
    case isTrue hj  => simpa [hj, hn, Slot.key, Ne.symm he] using h
    case isFalse hj => exact h

protected theorem open' (hi : s.Inverse) : (s.open' key).Inverse := by
  simp only [SeatSlots.open']
  split
  case h_1      => exact hi
  case h_2 i hk =>
    intro key' j
    have h := hi key' j
    have ho := (hi key i).mp hk
    have ⟨x, hx, _⟩ := Option.bind_eq_some_iff.mp ho
    simp only [occupant_set hx, Slot.key, Function.update_apply]
    split
    case isTrue he =>
      subst he
      split
      case isTrue hj  => simp
      case isFalse hj => simpa [hk, Ne.symm hj] using h
    case isFalse he =>
      split
      case isTrue hj  => simpa [hj, ho, Ne.symm he] using h
      case isFalse hj => exact h

end Inverse

end Plaza.ServerUtils.SeatSlots

namespace Plaza.ServerUtils

variable {Key : Type} {e e₁ e₂ e₃ : Entry Key} {key : Key} {rank : Nat} {q : RankedQueue Key}

theorem Entry.Before.trans (h₁ : e₁.Before e₂) (h₂ : e₂.Before e₃) : e₁.Before e₃ := by
  simp only [Before] at *
  omega

theorem Entry.Before.rank_le (h : e₁.Before e₂) : e₁.rank ≤ e₂.rank := by
  simp only [Before] at h
  omega

namespace RankedQueue

-- In order, and nobody waits twice. The next arrival comes after all.
structure Sorted (q : RankedQueue Key) : Prop where
  ordered  : q.entries.Pairwise Entry.Before
  distinct : (q.entries.map Entry.key).Nodup
  latest   : ∀ e ∈ q.entries, e.seq < q.nextSeq

theorem entries_push : (q.push key rank).fst.entries =
    q.entries.insertBefore Entry.Before { key, rank, seq := q.nextSeq } :=
  rfl

theorem push_perm : (q.push key rank).fst.entries.Perm ({ key, rank, seq := q.nextSeq } :: q.entries) :=
  List.insertBefore_perm

namespace Sorted

protected theorem new : (new : RankedQueue Key).Sorted where
  ordered  := .nil
  distinct := .nil
  latest   := nofun

protected theorem push (h : q.Sorted) (hk : ∀ e ∈ q.entries, e.key ≠ key) : (q.push key rank).fst.Sorted where
  ordered := by
    refine h.ordered.insertBefore .trans fun e he => ?_
    have := h.latest e he
    simp only [Entry.Before]
    omega
  distinct := by
    rw [(push_perm.map Entry.key).nodup_iff, List.map_cons, List.nodup_cons]
    refine ⟨fun hm => ?_, h.distinct⟩
    have ⟨e, he, hek⟩ := List.mem_map.mp hm
    exact hk e he hek
  latest e he := by
    rw [push_perm.mem_iff, List.mem_cons] at he
    cases he
    case inl he => exact he ▸ Nat.lt_succ_self _
    case inr he => exact Nat.lt_succ_of_lt (h.latest e he)

theorem sublist {entries : List (Entry Key)} (h : q.Sorted) (hs : entries.Sublist q.entries) :
    Sorted { q with entries } where
  ordered    := h.ordered.sublist hs
  distinct   := h.distinct.sublist (hs.map _)
  latest e he := h.latest e (hs.subset he)

end Sorted

variable [DecidableEq Key]

theorem position_eq_none : q.position key = none ↔ ∀ e ∈ q.entries, e.key ≠ key := by
  simp [position, List.findIdx?_eq_none_iff]

theorem remove_cases (q : RankedQueue Key) (key : Key) :
    (∃ entries, entries.Sublist q.entries ∧ q.remove key = ({ q with entries }, true)) ∨
    q.remove key = (q, false) := by
  simp only [remove]
  split
  case h_1 => exact .inl ⟨_, List.eraseIdx_sublist .., rfl⟩
  case h_2 => exact .inr rfl

end RankedQueue

end Plaza.ServerUtils
