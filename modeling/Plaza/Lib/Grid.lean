import Mathlib.Algebra.Order.Floor.Ring
import Mathlib.Data.BitVec
import Mathlib.Data.List.Nodup
import Mathlib.Data.List.Perm.Basic
import Mathlib.Logic.Function.Basic
import Mathlib.Tactic.Linarith

-- Words whose bits stand apart, so that the bits of another word fit between them.
namespace Interleave

-- Of every two blocks of `s` bits the upper one is clear, and the lower ones are the blocks of `x` in their order.
def Spread {n : Nat} (s : Nat) (x v : BitVec n) : Prop :=
  ∀ i < n, v.getLsbD i = (decide (i % (2 * s) < s) && x.getLsbD (i / (2 * s) * s + i % (2 * s)))

variable {n s : Nat} {x v m : BitVec n}

-- The upper half of each block moves up into the clear block above.
theorem Spread.halve (h : Spread (2 * s) x v) (hs : s ∈ [16, 8, 4, 2, 1])
    (hm : ∀ i < n, m.getLsbD i = decide (i % (2 * s) < s)) : Spread s x ((v ||| v <<< s) &&& m) := by
  intro i hi
  have hv := h i hi
  have hw := h (i - s) (by omega)
  simp only [List.mem_cons, List.not_mem_nil, or_false] at hs
  simp only [BitVec.getLsbD_and, BitVec.getLsbD_or, BitVec.getLsbD_shiftLeft, hm i hi, hv, hw]
  by_cases hb : i % (2 * s) < s
  case neg => simp [hb]
  case pos =>
    simp only [hb, decide_true, Bool.and_true, Bool.true_and]
    by_cases he : i % (2 * (2 * s)) < 2 * s
    -- The bit is in a lower half and stays where it is.
    case pos =>
      have hp : i / (2 * (2 * s)) * (2 * s) + i % (2 * (2 * s)) = i / (2 * s) * s + i % (2 * s) := by
        rcases hs with rfl | rfl | rfl | rfl | rfl <;> omega
      have hw : ¬(s ≤ i ∧ (i - s) % (2 * (2 * s)) < 2 * s) := by
        rcases hs with rfl | rfl | rfl | rfl | rfl <;> omega
      rw [hp]
      by_cases hl : i < s
      case pos => simp [hl, he]
      case neg =>
        have hc : ¬(i - s) % (2 * (2 * s)) < 2 * s := fun hc => hw ⟨by omega, hc⟩
        simp [he, hc]
    case neg =>
      have hp : (i - s) / (2 * (2 * s)) * (2 * s) + (i - s) % (2 * (2 * s)) = i / (2 * s) * s + i % (2 * s) := by
        rcases hs with rfl | rfl | rfl | rfl | rfl <;> omega
      have hw : s ≤ i ∧ (i - s) % (2 * (2 * s)) < 2 * s := by
        rcases hs with rfl | rfl | rfl | rfl | rfl <;> omega
      have hl : ¬i < s := by omega
      rw [hp]
      simp [he, hw.right, hi, hl]

-- With the blocks down to single bits, `x` is at the even places.
theorem Spread.even {i : Nat} (h : Spread 1 x v) (hi : 2 * i < n) : v.getLsbD (2 * i) = x.getLsbD i := by
  rw [h _ hi, show 2 * i / (2 * 1) * 1 + 2 * i % (2 * 1) = i by omega]
  simp

theorem Spread.odd {i : Nat} (h : Spread 1 x v) (hi : 2 * i + 1 < n) : v.getLsbD (2 * i + 1) = false := by
  rw [h _ hi, show ¬(2 * i + 1) % (2 * 1) < 1 by omega |> decide_eq_false]
  simp

end Interleave

-- A line which is cut into cells of equal width.
namespace Cells

variable {K : Type*} [Field K] [LinearOrder K] [IsStrictOrderedRing K] [FloorRing K] {c x y r : K}

theorem floor_div_mono (hc : 0 < c) (h : x ≤ y) : ⌊x / c⌋ ≤ ⌊y / c⌋ :=
  Int.floor_mono (div_le_div_of_nonneg_right h hc.le)

-- What is at most `r` further is at most as many cells further as begin on a way of that length.
theorem floor_div_le_add (hc : 0 < c) (h : x ≤ y + r) : ⌊x / c⌋ ≤ ⌊y / c⌋ + ⌈r / c⌉ := by
  calc ⌊x / c⌋
    _ ≤ ⌊(y + r) / c⌋            := floor_div_mono hc h
    _ ≤ ⌊y / c + (⌈r / c⌉ : K)⌋ := by
      rw [add_div]
      exact Int.floor_mono (by linarith [Int.le_ceil (r / c)])
    _ = ⌊y / c⌋ + ⌈r / c⌉       := Int.floor_add_intCast _ _

end Cells

-- Items which are filed in buckets under a key.
namespace Buckets

variable {α β κ : Type*} [DecidableEq κ]

-- Every bucket holds what its items are filed as, in the order in which they came.
def Files (key : α → κ) (f : α → β) (bucket : κ → List β) (items : List α) : Prop :=
  ∀ k, bucket k = (items.filter (key · = k)).map f

variable {key : α → κ} {f : α → β} {bucket bucket' : κ → List β} {items : List α}
variable {keys : List κ} {k : κ} {a : α} {b : β}

theorem Files.nil (h : ∀ k, bucket k = []) : Files key f bucket [] := by
  intro k
  rw [h, List.filter_nil, List.map_nil]

-- Another item goes to the end of its bucket.
theorem Files.push (h : Files key f bucket items) (hk : bucket' (key a) = bucket (key a) ++ [f a])
    (ho : ∀ k, k ≠ key a → bucket' k = bucket k) : Files key f bucket' (items ++ [a]) := by
  intro k
  rw [List.filter_append, List.map_append, ← h k]
  by_cases hka : k = key a
  case pos =>
    subst hka
    simp [hk]
  case neg => simp [ho k hka, Ne.symm hka]

theorem Files.mem_iff (h : Files key f bucket items) : b ∈ bucket k ↔ ∃ a ∈ items, key a = k ∧ f a = b := by
  rw [h k]
  simp [and_assoc]

-- From buckets under different keys every item is gathered which is filed under one of them, and it once.
theorem Files.gather (h : Files key f bucket items) (hn : keys.Nodup) :
    (keys.flatMap bucket).Perm ((items.filter (key · ∈ keys)).map f) := by
  induction keys
  case nil => simp
  case cons k keys hi =>
    rw [List.flatMap_cons, h k]
    refine (hi (List.nodup_cons.mp hn).right).append_left _ |>.trans ?_
    rw [← List.map_append]
    refine List.Perm.map f ?_
    have hd := List.filter_append_perm (key · = k) (items.filter (key · ∈ k :: keys))
    rw [List.filter_filter, List.filter_filter] at hd
    refine List.Perm.trans (List.Perm.of_eq ?_) hd
    have hk := (List.nodup_cons.mp hn).left
    congr 1
    all_goals
      refine List.filter_congr fun a _ => ?_
      by_cases ha : key a = k <;> simp [ha, hk]

end Buckets
