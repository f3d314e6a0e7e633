import Mathlib.Data.List.Basic
import Mathlib.Data.List.Rotate
import Mathlib.Data.Nat.ModEq
import Mathlib.Logic.Function.Iterate

-- A window onto a sequence of which only an unbroken stretch is known: the items from index `base`
-- on.
structure Window (α : Type*) where
  base  : Nat
  items : List α
  deriving DecidableEq, Repr

namespace Window

variable {α : Type*} {w : Window α} {i j n : Nat} {a : α}

-- One past the newest index.
def stop (w : Window α) : Nat :=
  w.base + w.items.length

def get? (w : Window α) (i : Nat) : Option α :=
  if i < w.base then none else w.items[i - w.base]?

def single (i : Nat) (a : α) : Window α where
  base  := i
  items := [a]

def push (w : Window α) (a : α) : Window α :=
  { w with items := w.items ++ [a] }

def set (w : Window α) (i : Nat) (a : α) : Window α :=
  { w with items := w.items.set (i - w.base) a }

-- Extends the window up to index `i`.
def pad (w : Window α) (i : Nat) (a : α) : Window α :=
  { w with items := w.items ++ .replicate (i - w.stop) a }

-- Drops the oldest items until at most `n` are left.
def keep (w : Window α) (n : Nat) : Window α where
  base  := w.base + (w.items.length - n)
  items := w.items.drop (w.items.length - n)

def map {β : Type*} (f : α → β) (w : Window α) : Window β where
  base  := w.base
  items := w.items.map f

theorem get?_of_mem (hl : w.base ≤ i) : w.get? i = w.items[i - w.base]? :=
  if_neg <| Nat.not_lt_of_le hl

theorem get?_eq_none (h : i < w.base ∨ w.stop ≤ i) : w.get? i = none := by
  cases h
  case inl h => exact if_pos h
  case inr h =>
    simp only [stop] at h
    rw [get?_of_mem (by omega), List.getElem?_eq_none (by omega)]

theorem get?_isSome_iff : (w.get? i).isSome ↔ w.base ≤ i ∧ i < w.stop := by
  by_cases hl : w.base ≤ i
  case neg => simp [get?_eq_none (.inl <| Nat.lt_of_not_le hl), hl]
  case pos =>
    rw [get?_of_mem hl, stop]
    simp
    omega

theorem bounds_of_get? (h : w.get? i = some a) : w.base ≤ i ∧ i < w.stop :=
  get?_isSome_iff.mp <| Option.isSome_of_mem h

@[simp]
theorem base_single : (single i a).base = i :=
  rfl

@[simp]
theorem stop_single : (single i a).stop = i + 1 :=
  rfl

@[simp]
theorem base_push : (w.push a).base = w.base :=
  rfl

@[simp]
theorem stop_push : (w.push a).stop = w.stop + 1 := by
  simp [stop, push, Nat.add_assoc]

@[simp]
theorem base_set : (w.set i a).base = w.base :=
  rfl

@[simp]
theorem stop_set : (w.set i a).stop = w.stop := by
  simp [stop, set]

@[simp]
theorem base_pad : (w.pad i a).base = w.base :=
  rfl

@[simp]
theorem stop_pad : (w.pad i a).stop = max w.stop i := by
  simp only [stop, pad, List.length_append, List.length_replicate]
  omega

theorem base_keep : (w.keep n).base = max w.base (w.stop - n) := by
  simp only [keep, stop]
  omega

@[simp]
theorem stop_keep : (w.keep n).stop = w.stop := by
  simp only [keep, stop, List.length_drop]
  omega

theorem length_keep : (w.keep n).items.length ≤ n := by
  simp only [keep, List.length_drop]
  omega

theorem get?_single : (single i a).get? j = if j = i then some a else none := by
  by_cases h : j = i
  case pos => simp [h, get?, single]
  case neg =>
    rw [if_neg h]
    exact get?_eq_none <| by simp; omega

theorem get?_push : (w.push a).get? i = if i = w.stop then some a else w.get? i := by
  simp only [get?, push, stop]
  by_cases hl : i < w.base
  case pos => simp [hl]; omega
  case neg =>
    simp only [hl, ↓reduceIte, List.getElem?_append]
    split
    case isTrue  => rw [if_neg (by omega)]
    case isFalse =>
      split
      case isTrue h  => simp [h]
      case isFalse h => exact List.getElem?_eq_none (by simp; omega) |>.trans <|
        (List.getElem?_eq_none (by omega)).symm

theorem get?_set (hl : w.base ≤ i) (hu : i < w.stop) :
    (w.set i a).get? j = if j = i then some a else w.get? j := by
  simp only [stop] at hu
  simp only [get?, set, List.getElem?_set]
  by_cases hj : j = i
  case pos => simp [hj, Nat.not_lt_of_le hl]; omega
  case neg =>
    simp only [hj, ↓reduceIte]
    split <;> [rfl; rw [if_neg (by omega)]]

theorem get?_pad : (w.pad i a).get? j = if w.stop ≤ j ∧ j < i then some a else w.get? j := by
  simp only [get?, pad, stop]
  by_cases hl : j < w.base
  case pos => simp [hl]; omega
  case neg =>
    simp only [hl, ↓reduceIte, List.getElem?_append, List.getElem?_replicate]
    split
    case isTrue  => rw [if_neg (by omega)]
    case isFalse h =>
      rw [List.getElem?_eq_none (Nat.le_of_not_lt h)]
      split <;> split <;> first | rfl | omega

theorem get?_keep : (w.keep n).get? i = if i < (w.keep n).base then none else w.get? i := by
  by_cases hl : i < (w.keep n).base
  case pos => rw [if_pos hl, get?_eq_none (.inl hl)]
  case neg =>
    rw [if_neg hl, get?_of_mem (Nat.le_of_not_lt hl)]
    simp only [keep, Nat.not_lt] at hl ⊢
    rw [get?_of_mem (by omega), List.getElem?_drop]
    congr 1
    omega

theorem get?_map {β : Type*} {f : α → β} : (w.map f).get? i = (w.get? i).map f := by
  simp only [get?, map, List.getElem?_map]
  split <;> rfl

theorem map_keep {β : Type*} {f : α → β} : (w.keep n).map f = (w.map f).keep n := by
  simp [map, keep]

theorem map_push {β : Type*} {f : α → β} : (w.push a).map f = (w.map f).push (f a) := by
  simp [map, push]

theorem map_set {β : Type*} {f : α → β} : (w.set i a).map f = (w.map f).set i (f a) := by
  simp [map, set]

theorem keep_of_le (h : w.items.length ≤ n) : w.keep n = w := by
  simp [keep, Nat.sub_eq_zero_of_le h]

-- To drop what is too old before each push is to drop it once at the end.
theorem keep_push : ((w.keep n).push a).keep n = (w.push a).keep n := by
  by_cases h : w.items.length ≤ n
  case pos => rw [keep_of_le h]
  case neg =>
    have hp : (w.keep n).push a =
        { base := w.base + (w.items.length - n), items := (w.items ++ [a]).drop (w.items.length - n) } := by
      rw [List.drop_append_of_le_length (Nat.sub_le ..)]
      rfl
    have hl : (w.items ++ [a]).length - (w.items.length - n) = n + 1 := by simp; omega
    rw [hp, keep, keep, push, List.length_drop, hl, List.drop_drop, List.length_append, List.length_singleton]
    congr 1
    case e_base  => simp; omega
    case e_items => congr 1; omega

theorem pad_stop (w : Window α) (a : α) : w.pad w.stop a = w := by
  simp [pad]

theorem pad_succ (h : w.stop ≤ i) : w.pad (i + 1) a = (w.pad i a).push a := by
  simp [pad, push, Nat.succ_sub h, List.replicate_succ']

-- A gap as wide as the window leaves nothing of what was there.
theorem keep_pad_push {b : α} (hi : w.stop ≤ i) (hn : 0 < n) (h : n ≤ i - w.stop + 1) :
    ((w.pad i b).push a).keep n = { base := i + 1 - n, items := .replicate (n - 1) b ++ [a] } := by
  have hl : (w.items ++ List.replicate (i - w.stop) b ++ [a]).length - n = w.items.length + (i - w.stop + 1 - n) := by
    simp
    omega
  have hr : i - w.stop - (i - w.stop + 1 - n) = n - 1 := by omega
  simp only [pad, push, keep, hl]
  clear hl
  congr 1
  case e_base  => rw [stop] at *; omega
  case e_items =>
    rw [List.append_assoc, List.drop_append, List.drop_append_of_le_length (by simp; omega)]
    simp [hr]

end Window

-- A window that is kept in a fixed number of slots. These are used in a circle, `len` of them from `start` on, and
-- the first of them has the index `base`.
structure RingBuffer (α : Type*) where
  slots    : List α
  start    : Nat
  len      : Nat
  base     : Nat
  start_lt : start < slots.length
  len_le   : len ≤ slots.length

namespace RingBuffer

variable {α : Type*} {r : RingBuffer α} {a b : α} {i j n : Nat}

def new (capacity : Nat) (a : α) (h : 0 < capacity) : RingBuffer α where
  slots    := .replicate capacity a
  start    := 0
  len      := 0
  base     := 0
  start_lt := by simpa
  len_le   := Nat.zero_le _

-- The slot of the item that has `i` items before it.
def slot (r : RingBuffer α) (i : Nat) : Nat :=
  (r.start + i) % r.slots.length

def get? (r : RingBuffer α) (i : Nat) : Option α :=
  if r.len = 0 ∨ i < r.base then none
  else if r.len ≤ i - r.base then none
  else r.slots[r.slot (i - r.base)]?

def set (r : RingBuffer α) (i : Nat) (a : α) : RingBuffer α :=
  { r with
    slots    := r.slots.set (r.slot (i - r.base)) a
    start_lt := by simpa using r.start_lt
    len_le   := by simpa using r.len_le }

-- A full ring gives up its oldest item.
def push (r : RingBuffer α) (a : α) : RingBuffer α :=
  if h : r.len = r.slots.length then
    { slots    := r.slots.set r.start a
      start    := (r.start + 1) % r.slots.length
      len      := r.len
      base     := r.base + 1
      start_lt := by simpa using Nat.mod_lt _ (Nat.zero_lt_of_lt r.start_lt)
      len_le   := by simpa using r.len_le }
  else
    { r with
      slots    := r.slots.set (r.slot r.len) a
      len      := r.len + 1
      start_lt := by simpa using r.start_lt
      len_le   := (Nat.lt_of_le_of_ne r.len_le h).trans_eq List.length_set.symm }

-- The first item of an empty ring.
def first (r : RingBuffer α) (i : Nat) (a : α) : RingBuffer α :=
  { r with
    slots    := r.slots.set r.start a
    len      := 1
    base     := i
    start_lt := by simpa using r.start_lt
    len_le   := (Nat.zero_lt_of_lt r.start_lt).trans_eq List.length_set.symm }

-- One item takes the place of all others.
def restart (r : RingBuffer α) (i : Nat) (a : α) : RingBuffer α where
  slots    := r.slots.set 0 a
  start    := 0
  len      := 1
  base     := i
  start_lt := by simpa using Nat.zero_lt_of_lt r.start_lt
  len_le   := (Nat.zero_lt_of_lt r.start_lt).trans_eq List.length_set.symm

-- The ring becomes full at once, with `a` at its newest index `i` and `b` everywhere else.
def jump (r : RingBuffer α) (i : Nat) (a b : α) : RingBuffer α where
  slots    := (List.replicate r.slots.length b).set (r.slots.length - 1) a
  start    := 0
  len      := r.slots.length
  base     := i - r.slots.length + 1
  start_lt := by simpa using Nat.zero_lt_of_lt r.start_lt
  len_le   := by simp

-- What the ring stands for.
def window (r : RingBuffer α) : Window α where
  base  := r.base
  items := (r.slots.rotate r.start).take r.len

theorem slots_pos (r : RingBuffer α) : 0 < r.slots.length :=
  Nat.zero_lt_of_lt r.start_lt

theorem slot_lt (r : RingBuffer α) (i : Nat) : r.slot i < r.slots.length :=
  Nat.mod_lt _ r.slots_pos

theorem slot_inj (hi : i < r.slots.length) (hj : j < r.slots.length) : r.slot i = r.slot j ↔ i = j := by
  constructor
  case mp  => exact fun h => Nat.ModEq.eq_of_lt_of_lt (Nat.ModEq.add_left_cancel' r.start h) hi hj
  case mpr => exact congrArg r.slot

theorem slot_zero (r : RingBuffer α) : r.slot 0 = r.start :=
  Nat.mod_eq_of_lt r.start_lt

theorem slot_length (r : RingBuffer α) : r.slot r.slots.length = r.slot 0 :=
  Nat.add_mod_right ..

@[simp]
theorem length_window (r : RingBuffer α) : r.window.items.length = r.len := by
  simp [window, r.len_le]

theorem getElem?_window : r.window.items[i]? = if i < r.len then r.slots[r.slot i]? else none := by
  rw [window, List.getElem?_take]
  split
  case isFalse   => rfl
  case isTrue hi => rw [List.getElem?_rotate (hi.trans_le r.len_le), slot, Nat.add_comm]

theorem get?_window (r : RingBuffer α) (i : Nat) : r.window.get? i = r.get? i := by
  have hb : r.window.base = r.base := rfl
  rw [Window.get?, get?, getElem?_window, hb]
  by_cases hl : i < r.base
  case pos => simp [hl]
  case neg =>
    by_cases hu : i - r.base < r.len
    case pos => simp [hl, hu, Nat.ne_zero_of_lt hu]
    case neg => simp [hl, hu]

@[simp]
theorem length_slots_set : (r.set i a).slots.length = r.slots.length :=
  List.length_set ..

@[simp]
theorem length_slots_push : (r.push a).slots.length = r.slots.length := by
  unfold push
  split <;> exact List.length_set ..

@[simp]
theorem length_slots_first : (r.first i a).slots.length = r.slots.length :=
  List.length_set ..

@[simp]
theorem length_slots_restart : (r.restart i a).slots.length = r.slots.length :=
  List.length_set ..

@[simp]
theorem length_slots_jump : (r.jump i a b).slots.length = r.slots.length := by
  simp [jump]

-- What a write to the slot of one item does to the others.
theorem getElem?_set_slot (hi : i < r.slots.length) (hj : j < r.slots.length) :
    (r.slots.set (r.slot i) a)[r.slot j]? = if i = j then some a else r.slots[r.slot j]? := by
  simp only [List.getElem?_set, slot_inj hi hj, r.slot_lt, ↓reduceIte]

theorem window_set (hl : r.base ≤ i) (hu : i < r.base + r.len) : (r.set i a).window = r.window.set i a := by
  have he : (r.set i a).window.items = r.window.items.set (i - r.base) a := by
    apply List.ext_getElem?
    intro j
    have hs : (r.set i a).slot j = r.slot j := by simp [slot, set]
    have hi : i - r.base < r.len := by omega
    rw [getElem?_window, List.getElem?_set, getElem?_window, length_window, hs]
    by_cases hj : j < r.len
    case pos => simp [set, hj, hi, getElem?_set_slot (hi.trans_le r.len_le) (hj.trans_le r.len_le)]
    case neg =>
      have hn : i - r.base ≠ j := by omega
      simp [set, hj, hn]
  exact congrArg (Window.mk r.base) he

theorem window_eq_iff {w : Window α} :
    r.window = w ↔ r.base = w.base ∧ ∀ i : Nat, r.window.items[i]? = w.items[i]? := by
  constructor
  case mp =>
    intro h
    exact ⟨congrArg Window.base h, fun _ => h ▸ rfl⟩
  case mpr =>
    intro ⟨hb, hi⟩
    exact congrArg₂ Window.mk hb (List.ext_getElem? hi)

-- The slot of the oldest item is the one after the newest.
theorem window_push_full (h : r.len = r.slots.length) :
    (r.push a).window = { base := r.base + 1, items := (r.window.items ++ [a]).drop 1 } := by
  have hb : (r.push a).base = r.base + 1 := by simp [push, h]
  have hl : (r.push a).len = r.len := by simp [push, h]
  have hn : (r.push a).slots = r.slots.set (r.slot 0) a := by simp [push, h, slot_zero]
  have hs j : (r.push a).slot j = r.slot (j + 1) := by simp [slot, push, h, Nat.add_assoc, Nat.add_comm 1]
  refine window_eq_iff.mpr ⟨hb, fun j => ?_⟩
  rw [getElem?_window, hs, hl, hn, List.getElem?_drop, List.getElem?_append, getElem?_window, length_window,
    Nat.add_comm 1]
  by_cases hj : j + 1 < r.len
  case pos =>
    rw [getElem?_set_slot r.slots_pos (hj.trans_le r.len_le)]
    simp [hj, Nat.lt_of_succ_lt hj]
  case neg =>
    by_cases he : j + 1 = r.len
    case pos =>
      have hc : r.slot (j + 1) = r.slot 0 := by rw [he, h, slot_length]
      simp [hc, r.slot_lt, ←he]
    case neg =>
      have hj : r.len ≤ j := by omega
      have hj' : j + 1 - r.len ≠ 0 := by omega
      simp [Nat.not_lt_of_le hj, Nat.not_lt_of_le (Nat.le_succ_of_le hj), hj']

theorem window_push_room (h : r.len ≠ r.slots.length) : (r.push a).window = r.window.push a := by
  have hp : r.len < r.slots.length := Nat.lt_of_le_of_ne r.len_le h
  have hb : (r.push a).base = r.base := by simp [push, h]
  have hl : (r.push a).len = r.len + 1 := by simp [push, h]
  have hn : (r.push a).slots = r.slots.set (r.slot r.len) a := by simp [push, h]
  have hs j : (r.push a).slot j = r.slot j := by simp [slot, push, h]
  refine window_eq_iff.mpr ⟨hb, fun j => ?_⟩
  rw [Window.push, getElem?_window, hs, hl, hn, List.getElem?_append, getElem?_window, length_window]
  by_cases hj : j < r.len
  case pos =>
    rw [getElem?_set_slot hp (hj.trans hp)]
    simp [hj, Nat.lt_succ_of_lt hj, Nat.ne_of_gt hj]
  case neg =>
    by_cases he : j = r.len
    case pos => simp [he, r.slot_lt]
    case neg =>
      have hj' : j - r.len ≠ 0 := by omega
      have hn : ¬j < r.len + 1 := by omega
      simp [hj, hj', hn]

theorem window_push (r : RingBuffer α) (a : α) : (r.push a).window = (r.window.push a).keep r.slots.length := by
  have hl := r.len_le
  by_cases h : r.len = r.slots.length
  case pos =>
    rw [window_push_full h, Window.keep, Window.push]
    simp [h, window]
  case neg =>
    have hz : r.len + 1 - r.slots.length = 0 := by omega
    rw [window_push_room h, Window.keep, Window.push]
    simp [hz]

theorem window_eq_single (hb : r.base = i) (hl : r.len = 1) (ha : r.slots[r.start]? = some a) :
    r.window = .single i a := by
  refine window_eq_iff.mpr ⟨hb, fun j => ?_⟩
  rw [getElem?_window, hl]
  cases j <;> simp [Window.single, slot_zero, ha]

theorem window_first : (r.first i a).window = .single i a :=
  window_eq_single rfl rfl <| List.getElem?_set_self r.start_lt

theorem window_restart : (r.restart i a).window = .single i a :=
  window_eq_single rfl rfl <| List.getElem?_set_self r.slots_pos

theorem window_iterate_push (r : RingBuffer α) (a : α) (n : Nat) :
    ((·.push a)^[n] r).window = (r.window.pad (r.window.stop + n) a).keep r.slots.length ∧
    ((·.push a)^[n] r).slots.length = r.slots.length := by
  induction n
  case zero => exact ⟨by simp [Window.pad_stop, Window.keep_of_le, r.len_le], rfl⟩
  case succ n hi =>
    rw [Function.iterate_succ_apply', length_slots_push, window_push, hi.left, hi.right, Window.keep_push,
      ←Nat.add_assoc, Window.pad_succ (Nat.le_add_right ..)]
    exact ⟨rfl, rfl⟩

-- A jump leaves what pushing a gap of such a width would leave.
theorem window_jump (hs : r.window.stop ≤ i) (hp : 0 < r.window.stop) (h : r.slots.length ≤ i - r.window.stop + 1) :
    (r.jump i a b).window = ((r.window.pad i b).push a).keep r.slots.length := by
  have hb : i - r.slots.length + 1 = i + 1 - r.slots.length := by omega
  rw [Window.keep_pad_push hs r.slots_pos h, ←hb]
  have ⟨n, hn⟩ := Nat.exists_eq_succ_of_ne_zero (Nat.ne_of_gt r.slots_pos)
  have hl : (List.replicate (n + 1) b).set n a = .replicate n b ++ [a] := by
    rw [List.replicate_succ', List.set_append]
    simp
  simp [window, jump, hn, hl]

end RingBuffer
