import Mathlib.Algebra.Order.Ring.Int
import Plaza.Flutter.Saturating

namespace Plaza.Flutter.Saturating

open Dart Word

variable {a b : Word}

-- The nearest integer which a word holds.
def clamped (z : Int) : Int := max (-2 ^ 63) (min z (2 ^ 63 - 1))

-- An integer, if a word holds it.
def fitted (z : Int) : Option Int := if -2 ^ 63 ≤ z ∧ z < 2 ^ 63 then some z else none

theorem toInt_intMax : intMax.toInt = 2 ^ 63 - 1 := by decide

theorem toInt_intMin : intMin.toInt = -2 ^ 63 := by decide

theorem toInt_zero : (0 : Word).toInt = 0 := by decide

theorem toInt_ne_zero (h : a ≠ 0) : a.toInt ≠ 0 :=
  fun hz => h <| BitVec.toInt_inj.mp <| hz.trans toInt_zero.symm

theorem toInt_saturatingSub : (saturatingSub a b).toInt = max 0 (min (a.toInt - b.toInt) (2 ^ 63 - 1)) := by
  obtain ⟨k, hk⟩ := toInt_sub_turns a b
  have hr := (a - b).neg_le_toInt
  have hr' := (a - b).toInt_lt
  have ha := a.toInt_lt
  have hb := b.neg_le_toInt
  simp only [saturatingSub, le_iff, lt_iff, toInt_zero]
  split
  case isTrue h  => rw [toInt_zero]; omega
  case isFalse h =>
    split
    case isTrue hn  => rw [toInt_intMax]; omega
    case isFalse hn => omega

-- How the functions handle a result which wraps on either side: by the nearest word, or by none.
section

variable {high low : Prop} [Decidable high] [Decidable low] {r : Word} {z : Int}

theorem toInt_of_fits (hr : ∃ k, r.toInt = z + 2 ^ 64 * k) (hl : -2 ^ 63 ≤ z) (hh : z < 2 ^ 63) : r.toInt = z := by
  obtain ⟨k, hk⟩ := hr
  have hs := And.intro r.neg_le_toInt r.toInt_lt
  omega

theorem toInt_saturated (hr : ∃ k, r.toInt = z + 2 ^ 64 * k) (hh : high ↔ 2 ^ 63 ≤ z) (hl : low ↔ z < -2 ^ 63) :
    (if high then intMax else if low then intMin else r).toInt = clamped z := by
  simp only [hh, hl, clamped]
  split
  case isTrue hh  => rw [toInt_intMax]; omega
  case isFalse hh =>
    split
    case isTrue hl  => rw [toInt_intMin]; omega
    case isFalse hl => rw [toInt_of_fits hr (by omega) (by omega)]; omega

theorem toInt_checked (hr : ∃ k, r.toInt = z + 2 ^ 64 * k) (hh : high ↔ 2 ^ 63 ≤ z) (hl : low ↔ z < -2 ^ 63) :
    (if high then none else if low then none else some r).map BitVec.toInt = fitted z := by
  simp only [hh, hl, fitted]
  split
  case isTrue hh  => rw [if_neg (by omega)]; rfl
  case isFalse hh =>
    split
    case isTrue hl  => rw [if_neg (by omega)]; rfl
    case isFalse hl =>
      rw [if_pos (by omega)]
      exact congrArg some (toInt_of_fits hr (by omega) (by omega))

end

-- The signs tell when a sum has wrapped, and on which side.
theorem add_high : (Word.lt 0 a ∧ Word.lt 0 b ∧ (a + b).lt 0) ↔ 2 ^ 63 ≤ a.toInt + b.toInt := by
  obtain ⟨k, hk⟩ := toInt_add_turns a b
  have hs := And.intro (a + b).neg_le_toInt (a + b).toInt_lt
  have ha := And.intro a.neg_le_toInt a.toInt_lt
  have hb := And.intro b.neg_le_toInt b.toInt_lt
  simp only [lt_iff, toInt_zero]
  omega

theorem add_low : (a.lt 0 ∧ b.lt 0 ∧ Word.le 0 (a + b)) ↔ a.toInt + b.toInt < -2 ^ 63 := by
  obtain ⟨k, hk⟩ := toInt_add_turns a b
  have hs := And.intro (a + b).neg_le_toInt (a + b).toInt_lt
  have ha := And.intro a.neg_le_toInt a.toInt_lt
  have hb := And.intro b.neg_le_toInt b.toInt_lt
  simp only [lt_iff, le_iff, toInt_zero]
  omega

theorem toInt_saturatingAdd : (saturatingAdd a b).toInt = clamped (a.toInt + b.toInt) :=
  toInt_saturated (toInt_add_turns a b) add_high add_low

theorem toInt_checkedAdd : (checkedAdd a b).map BitVec.toInt = fitted (a.toInt + b.toInt) :=
  toInt_checked (toInt_add_turns a b) add_high add_low

-- So they do for a difference.
theorem sub_high : (Word.le 0 a ∧ b.lt 0 ∧ (a - b).lt 0) ↔ 2 ^ 63 ≤ a.toInt - b.toInt := by
  obtain ⟨k, hk⟩ := toInt_sub_turns a b
  have hs := And.intro (a - b).neg_le_toInt (a - b).toInt_lt
  have ha := And.intro a.neg_le_toInt a.toInt_lt
  have hb := And.intro b.neg_le_toInt b.toInt_lt
  simp only [lt_iff, le_iff, toInt_zero]
  omega

theorem sub_low : (a.lt 0 ∧ Word.lt 0 b ∧ Word.lt 0 (a - b)) ↔ a.toInt - b.toInt < -2 ^ 63 := by
  obtain ⟨k, hk⟩ := toInt_sub_turns a b
  have hs := And.intro (a - b).neg_le_toInt (a - b).toInt_lt
  have ha := And.intro a.neg_le_toInt a.toInt_lt
  have hb := And.intro b.neg_le_toInt b.toInt_lt
  simp only [lt_iff, toInt_zero]
  omega

theorem toInt_saturatingSubSigned : (saturatingSubSigned a b).toInt = clamped (a.toInt - b.toInt) :=
  toInt_saturated (toInt_sub_turns a b) sub_high sub_low

theorem toInt_checkedSub : (checkedSub a b).map BitVec.toInt = fitted (a.toInt - b.toInt) :=
  toInt_checked (toInt_sub_turns a b) sub_high sub_low

-- A product which has wrapped is off by more than what the division forgets.
theorem divides_back (hb : b ≠ 0) (hm : ¬(a = intMin ∧ b = -1)) :
    (a * b).quot b = a ↔ -2 ^ 63 ≤ a.toInt * b.toInt ∧ a.toInt * b.toInt < 2 ^ 63 := by
  have hne : a * b ≠ BitVec.intMin 64 ∨ b ≠ -1 := by
    by_contra! h
    obtain ⟨h, rfl⟩ := h
    rw [mul_neg, mul_one, neg_eq_iff_eq_neg] at h
    exact hm ⟨h, rfl⟩
  have hs := And.intro (a * b).neg_le_toInt (a * b).toInt_lt
  obtain ⟨k, hk⟩ := toInt_mul_turns a b
  rw [← BitVec.toInt_inj, toInt_quot hne]
  constructor
  case mp =>
    intro hq
    have hr := Int.tmod_add_mul_tdiv (a * b).toInt b.toInt
    have hlt : ((a * b).toInt.tmod b.toInt).natAbs < b.toInt.natAbs := by
      rw [Int.natAbs_tmod]
      exact Nat.mod_lt _ <| Int.natAbs_pos.mpr <| toInt_ne_zero hb
    have hb := And.intro b.neg_le_toInt b.toInt_lt
    rw [hq, mul_comm b.toInt] at hr
    omega
  case mpr =>
    rintro ⟨hl, hh⟩
    rw [toInt_of_fits ⟨k, hk⟩ hl hh]
    exact Int.mul_tdiv_cancel _ <| toInt_ne_zero hb

theorem same_sign_iff (ha : a ≠ 0) (hb : b ≠ 0) : Word.lt 0 a = Word.lt 0 b ↔ 0 < a.toInt * b.toInt := by
  have ha := toInt_ne_zero ha
  have hb := toInt_ne_zero hb
  rw [Bool.eq_iff_iff, lt_iff, lt_iff, toInt_zero, mul_pos_iff]
  omega

theorem toInt_saturatingMul (hm : ¬(a = intMin ∧ b = -1)) :
    (saturatingMul a b).toInt = clamped (a.toInt * b.toInt) := by
  rw [saturatingMul]
  split
  case isTrue h0 =>
    cases h0
    case inl h0 => simp [h0, clamped]
    case inr h0 => simp [h0, clamped]
  case isFalse h0 =>
    obtain ⟨ha, hb⟩ := not_or.mp h0
    simp only [ne_eq, divides_back hb hm, clamped]
    split
    case isTrue ho =>
      split
      case isTrue hs =>
        have := (same_sign_iff ha hb).mp hs
        rw [toInt_intMax]
        omega
      case isFalse hs =>
        have := (same_sign_iff ha hb).not.mp hs
        rw [toInt_intMin]
        omega
    case isFalse ho =>
      obtain ⟨hl, hh⟩ := not_not.mp ho
      rw [toInt_of_fits (toInt_mul_turns a b) hl hh]
      omega

-- Only that product is not the one of 64-bit integers in Rust.
theorem saturates_iff :
    ((saturatingAdd a b).toInt = clamped (a.toInt + b.toInt) ∧
      (saturatingSubSigned a b).toInt = clamped (a.toInt - b.toInt) ∧
      (saturatingMul a b).toInt = clamped (a.toInt * b.toInt) ∧
      (checkedAdd a b).map BitVec.toInt = fitted (a.toInt + b.toInt) ∧
      (checkedSub a b).map BitVec.toInt = fitted (a.toInt - b.toInt) ∧
      (saturatingSub a b).toInt = max 0 (min (a.toInt - b.toInt) (2 ^ 63 - 1))) ↔
    ¬(a = intMin ∧ b = -1) := by
  constructor
  case mp =>
    rintro ⟨_, _, h, _⟩ ⟨rfl, rfl⟩
    exact absurd h (by decide)
  case mpr =>
    intro h
    exact ⟨toInt_saturatingAdd, toInt_saturatingSubSigned, toInt_saturatingMul h, toInt_checkedAdd,
      toInt_checkedSub, toInt_saturatingSub⟩

-- The lowest word by -1: the division wraps as well, back to the word itself.
theorem saturatingMul_wraps : (saturatingMul intMin (-1)).toInt ≠ clamped (intMin.toInt * (-1 : Word).toInt) := by
  decide

end Plaza.Flutter.Saturating
