import Mathlib.Data.Rat.Floor
import Mathlib.Tactic.FieldSimp
import Mathlib.Tactic.Linarith
import Plaza.ClientUtils.Fixed
import Plaza.Lib.Newton

open Rust

namespace Plaza.ClientUtils

-- The number that a fixed-point one stands for.
def Fx.value (a : Fx) : ℚ :=
  a.raw.toInt / Fx.one

namespace P

-- The range that the module promises.
def Documented (p : P) : Prop :=
  |p.x.value| ≤ 8000000 ∧ |p.y.value| ≤ 8000000

def trueSq (a b : P) : ℚ :=
  (a.x.value - b.x.value) ^ 2 + (a.y.value - b.y.value) ^ 2

-- The squared distance in steps of the resolution, either square rounded down, and in a word without bound.
def steps (a b : P) : Int :=
  ⌊(a.x.value - b.x.value) ^ 2 * Fx.one⌋ + ⌊(a.y.value - b.y.value) ^ 2 * Fx.one⌋

-- What a check of a range relies on that compares squares.
structure Ranks (a b c : P) : Prop where
  far_nonneg  : .zero ≤ a.distSq b
  near_nonneg : .zero ≤ a.distSq c
  ordered     : a.trueSq c + 2 / 256 ≤ a.trueSq b → a.distSq c ≤ a.distSq b

end P

namespace Fx

variable {a b : Fx}

theorem toInt_mul : (a.mul b).raw.toInt = (a.raw.toInt * b.raw.toInt / one).bmod (2 ^ 32) := by
  rw [mul, I32.toInt_setWidth, BitVec.toInt_sshiftRight, I32.toInt_mul_signExtend, Int.shiftRight_eq_div_pow]
  rfl

theorem floor_sq_value_sub :
    ⌊(a.value - b.value) ^ 2 * one⌋ = (a.raw.toInt - b.raw.toInt) * (a.raw.toInt - b.raw.toInt) / one := by
  have h : (a.value - b.value) ^ 2 * (one : ℚ) =
      (((a.raw.toInt - b.raw.toInt) * (a.raw.toInt - b.raw.toInt) : Int) : ℚ) / ((256 : Nat) : ℚ) := by
    simp only [value, one_eq]
    push_cast
    ring
  rw [h, Rat.floor_intCast_div_natCast]
  rfl

-- A difference whose square fits into the word fits itself.
theorem toInt_sub (h : ⌊(a.value - b.value) ^ 2 * one⌋ < 2 ^ 32) :
    (a - b).raw.toInt = a.raw.toInt - b.raw.toInt := by
  rw [floor_sq_value_sub, one_eq] at h
  have h : (a.raw.toInt - b.raw.toInt) * (a.raw.toInt - b.raw.toInt) < 2 ^ 40 := by
    omega
  exact I32.toInt_sub (by nlinarith) (by nlinarith)

theorem toInt_mul_sub (h : ⌊(a.value - b.value) ^ 2 * one⌋ < 2 ^ 32) :
    ((a - b).mul (a - b)).raw.toInt = ⌊(a.value - b.value) ^ 2 * one⌋.bmod (2 ^ 32) := by
  rw [toInt_mul, toInt_sub h, floor_sq_value_sub]

end Fx

namespace P

variable {a b c : P}

theorem floor_nonneg {q : ℚ} : 0 ≤ ⌊q ^ 2 * Fx.one⌋ :=
  Int.floor_nonneg.mpr <| mul_nonneg (sq_nonneg q) (by simp [Fx.one_eq])

theorem steps_nonneg : 0 ≤ a.steps b :=
  add_nonneg floor_nonneg floor_nonneg

-- Rounding loses less than the margin.
theorem steps_lt (h : a.trueSq c + 2 / 256 ≤ a.trueSq b) : a.steps c < a.steps b := by
  have hx := Int.floor_le ((a.x.value - c.x.value) ^ 2 * Fx.one)
  have hy := Int.floor_le ((a.y.value - c.y.value) ^ 2 * Fx.one)
  have hx' := Int.lt_floor_add_one ((a.x.value - b.x.value) ^ 2 * Fx.one)
  have hy' := Int.lt_floor_add_one ((a.y.value - b.y.value) ^ 2 * Fx.one)
  simp only [trueSq] at h
  have hs : (a.steps c : ℚ) < a.steps b := by
    simp only [steps, Fx.one_eq] at *
    push_cast at *
    linarith
  exact_mod_cast hs

theorem toInt_distSq (h : a.steps b < 2 ^ 32) : (a.distSq b).raw.toInt = (a.steps b).bmod (2 ^ 32) := by
  have hx := @floor_nonneg (a.x.value - b.x.value)
  have hy := @floor_nonneg (a.y.value - b.y.value)
  simp only [steps] at h
  rw [distSq, Fx.raw_add, BitVec.toInt_add, Fx.toInt_mul_sub (by omega), Fx.toInt_mul_sub (by omega),
    Int.bmod_add_bmod, Int.add_bmod_bmod]
  rfl

theorem toInt_distSq_of_near (h : a.steps b < 2 ^ 31) : (a.distSq b).raw.toInt = a.steps b := by
  have hn := @steps_nonneg a b
  rw [toInt_distSq (by omega), Int.bmod_eq_of_le] <;> omega

-- Past half of the word the sign bit is set.
theorem distSq_neg (hl : 2 ^ 31 ≤ a.steps b) (hr : a.steps b < 2 ^ 32) : ¬.zero ≤ a.distSq b := by
  rw [Fx.le_def, toInt_distSq hr, show Fx.zero.raw.toInt = 0 by decide, Int.bmod]
  omega

theorem ranks_of_near (hb : a.steps b < 2 ^ 31) (hc : a.steps c < 2 ^ 31) : Ranks a b c where
  far_nonneg  := by
    rw [Fx.le_def, toInt_distSq_of_near hb]
    exact steps_nonneg
  near_nonneg := by
    rw [Fx.le_def, toInt_distSq_of_near hc]
    exact steps_nonneg
  ordered h   := by
    rw [Fx.le_def, toInt_distSq_of_near hb, toInt_distSq_of_near hc]
    exact (steps_lt h).le

theorem documented_iff :
    a.Documented ↔ |a.x.raw.toInt| ≤ 8000000 * Fx.one ∧ |a.y.raw.toInt| ≤ 8000000 * Fx.one := by
  have h (x : Fx) : |x.value| ≤ 8000000 ↔ |x.raw.toInt| ≤ 8000000 * Fx.one := by
    rw [Fx.value, Fx.one_eq, abs_div, div_le_iff₀ (by norm_num)]
    norm_num
    exact_mod_cast Iff.rfl
  rw [Documented, h, h]

-- Wherever in the range, some point of it is as far away as the sign bit reaches.
theorem exists_distSq_neg (h : a.Documented) :
    ∃ c : P, c.Documented ∧ 2 ^ 31 ≤ a.steps c ∧ a.steps c < 2 ^ 32 := by
  have hx := documented_iff.mp h |>.left
  obtain ⟨x, hx', hd⟩ : ∃ x : Fx, |x.raw.toInt| ≤ 8000000 * Fx.one ∧ (a.x.raw.toInt - x.raw.toInt) ^ 2 = 750000 ^ 2 := by
    rw [Fx.one_eq, abs_le] at *
    by_cases hs : 0 ≤ a.x.raw.toInt
    · refine ⟨⟨.ofInt 32 (a.x.raw.toInt - 750000)⟩, ?_⟩
      rw [I32.toInt_ofInt (by omega) (by omega), abs_le]
      exact ⟨by omega, by ring⟩
    · refine ⟨⟨.ofInt 32 (a.x.raw.toInt + 750000)⟩, ?_⟩
      rw [I32.toInt_ofInt (by omega) (by omega), abs_le]
      exact ⟨by omega, by ring⟩
  refine ⟨⟨x, a.y⟩, documented_iff.mpr ⟨hx', documented_iff.mp h |>.right⟩, ?_⟩
  rw [steps, Fx.floor_sq_value_sub, ← sq, hd]
  simp [Fx.one_eq]

-- A range check is right for all that is no farther than some point iff its distance leaves the sign bit alone.
theorem ranks_iff (ha : a.Documented) (hb : b.Documented) :
    ((∀ c : P, c.Documented → a.steps c ≤ a.steps b → Ranks a b c) ↔ a.steps b < 2 ^ 31) ∧
      ∀ c : P, a.steps b < 2 ^ 31 → a.steps c < 2 ^ 31 → Ranks a b c := by
  refine ⟨⟨fun h => ?_, fun h c _ hc => ranks_of_near h (by omega)⟩, fun c hb hc => ranks_of_near hb hc⟩
  by_contra! hs
  by_cases hr : a.steps b < 2 ^ 32
  · exact distSq_neg hs hr (h b hb le_rfl).far_nonneg
  · obtain ⟨c, hc, hl, hr⟩ := exists_distSq_neg ha
    exact distSq_neg hl hr (h c hc (by omega)).near_nonneg

theorem ranks_iff_of_corners :
    (fromInts 0 0).Documented ∧ (fromInts 2000 2000).Documented ∧
      ∀ c : P, c.Documented → (fromInts 0 0).steps c ≤ (fromInts 0 0).steps (fromInts 2000 2000) →
        Ranks (fromInts 0 0) (fromInts 2000 2000) c := by
  have ha : (fromInts 0 0).Documented := documented_iff.mpr (by decide)
  have hb : (fromInts 2000 2000).Documented := documented_iff.mpr (by decide)
  refine ⟨ha, hb, ranks_iff ha hb |>.left.mpr ?_⟩
  rw [steps, Fx.floor_sq_value_sub, Fx.floor_sq_value_sub]
  decide

-- A point at three thousand units is less than nothing away, and one at four thousand and two hundred counts
-- as nearer than one at two thousand.
theorem far_points_wrap :
    (fromInts 0 0).Documented ∧ (fromInts 3000 0).Documented ∧ ¬.zero ≤ (fromInts 0 0).distSq (fromInts 3000 0) ∧
      (fromInts 2000 0).Documented ∧ (fromInts 4200 0).Documented ∧
      ¬Ranks (fromInts 0 0) (fromInts 4200 0) (fromInts 2000 0) := by
  simp only [documented_iff]
  refine ⟨by decide, by decide, by decide, by decide, by decide, fun h => ?_⟩
  have ho := h.ordered (by decide +kernel)
  revert ho
  decide

end P

namespace Fx

variable {a b : Fx} {q : ℚ}

-- The number of the steps of the resolution to which a number is cut toward zero.
def truncated (q : ℚ) : Int :=
  if 0 ≤ q then ⌊q * one⌋ else ⌈q * one⌉

-- The numbers between the least and the greatest of the type.
def Fits (q : ℚ) : Prop :=
  (⟨.intMin 32⟩ : Fx).value ≤ q ∧ q ≤ (⟨.intMax 32⟩ : Fx).value

-- An operation at two operands does not mind where the sign is, as far as its exact results fit.
structure OddAt (op : Fx → Fx → Fx) (exact : ℚ → ℚ → ℚ) (a b : Fx) : Prop where
  left  : ∀ a' : Fx, a'.value = -a.value → Fits (exact a'.value b.value) → (op a' b).value = -(op a b).value
  right : ∀ b' : Fx, b'.value = -b.value → Fits (exact a.value b'.value) → (op a b').value = -(op a b).value

-- What the product and the quotient of two numbers share, where the exact ones fit.
structure RoundsAlike (a b : Fx) : Prop where
  mul     : Fits (a.value * b.value) → (a.mul b).raw.toInt = truncated (a.value * b.value)
  div     : b.value ≠ 0 → Fits (a.value / b.value) → (a.div b).raw.toInt = truncated (a.value / b.value)
  mul_odd : Fits (a.value * b.value) → OddAt Fx.mul (· * ·) a b
  div_odd : b.value ≠ 0 → Fits (a.value / b.value) → OddAt Fx.div (· / ·) a b
  back    : b.value ≠ 0 → Fits (a.value / b.value) → |((a.div b).mul b).value| ≤ |a.value|

theorem truncated_neg : truncated (-q) = -truncated q := by
  rcases lt_trichotomy q 0 with h | rfl | h
  · simp only [truncated]
    rw [if_pos (by linarith), if_neg (by linarith), neg_mul, Int.floor_neg]
  · simp [truncated]
  · simp only [truncated]
    rw [if_neg (by linarith), if_pos (by linarith), neg_mul, Int.ceil_neg]

theorem truncated_natCast_div {m n : Nat} : truncated (m / n / one) = m / n := by
  have h : (0 : ℚ) ≤ m / n / one := by
    rw [one_eq]
    positivity
  rw [truncated, if_pos h, div_mul_cancel₀ _ (by simp [one_eq])]
  simpa using Rat.floor_intCast_div_natCast (m : Int) n

theorem truncated_intCast_div {m n : Int} : truncated (m / n / one) = m.tdiv n := by
  obtain ⟨m, rfl | rfl⟩ := m.eq_nat_or_neg <;> obtain ⟨n, rfl | rfl⟩ := n.eq_nat_or_neg <;>
    simp [neg_div, div_neg, truncated_neg, truncated_natCast_div, Int.neg_tdiv, Int.tdiv_neg]

theorem fits_iff : Fits q ↔ -2 ^ 31 ≤ q * one ∧ q * one ≤ 2 ^ 31 - 1 := by
  have hl : (⟨.intMin 32⟩ : Fx).value = -2 ^ 31 / 256 := by rw [value]; rfl
  have hr : (⟨.intMax 32⟩ : Fx).value = (2 ^ 31 - 1) / 256 := by
    rw [value, show (⟨.intMax 32⟩ : Fx).raw.toInt = 2 ^ 31 - 1 by decide, one_eq]
    norm_num
  rw [Fits, hl, hr, div_le_iff₀ (by norm_num), le_div_iff₀ (by norm_num)]
  rfl

-- What fits is not cut off at the ends.
theorem truncated_bmod (h : Fits q) : (truncated q).bmod (2 ^ 32) = truncated q := by
  obtain ⟨hl, hr⟩ := fits_iff.mp h
  have hf := Int.floor_le (q * one)
  have hc := Int.ceil_lt_add_one (q * one)
  have h : -2 ^ 31 ≤ truncated q ∧ truncated q < 2 ^ 31 := by
    rw [truncated]
    split
    case isTrue =>
      refine ⟨Int.le_floor.mpr (by exact_mod_cast hl), ?_⟩
      exact_mod_cast (by linarith : (⌊q * one⌋ : ℚ) < 2 ^ 31)
    case isFalse =>
      refine ⟨?_, ?_⟩
      · exact_mod_cast hl.trans (Int.le_ceil _)
      · exact_mod_cast (by linarith : (⌈q * one⌉ : ℚ) < 2 ^ 31)
  rw [Int.bmod_eq_of_le] <;> omega

theorem toInt_widened : (a.raw.signExtend 64 <<< fracBits).toInt = a.raw.toInt * one := by
  have hl := @BitVec.le_toInt 32 a.raw
  have hr := @BitVec.toInt_lt 32 a.raw
  rw [BitVec.shiftLeft_eq_mul_twoPow, BitVec.toInt_mul, BitVec.toInt_signExtend_of_le (by decide),
    show (BitVec.twoPow 64 fracBits).toInt = one by decide, one_eq, Int.bmod_eq_of_le] <;> omega

theorem toInt_div : (a.div b).raw.toInt = ((a.raw.toInt * one).tdiv b.raw.toInt).bmod (2 ^ 32) := by
  rw [div]
  split
  case isTrue h => simp [h]
  case isFalse =>
    have h := @Int.bmod_bmod_of_dvd ((a.raw.toInt * one).tdiv b.raw.toInt) (2 ^ 32) (2 ^ 64) (by decide)
    rw [I32.toInt_setWidth, BitVec.toInt_sdiv, toInt_widened, BitVec.toInt_signExtend_of_le (by decide)]
    exact h

theorem truncated_mul : truncated (a.value * b.value) = (a.raw.toInt * b.raw.toInt).tdiv one := by
  rw [← truncated_intCast_div]
  simp only [value]
  push_cast
  ring_nf

theorem truncated_div : truncated (a.value / b.value) = (a.raw.toInt * one).tdiv b.raw.toInt := by
  rw [← truncated_intCast_div]
  simp only [value, one_eq]
  push_cast
  congr 1
  by_cases h : (b.raw.toInt : ℚ) = 0
  · simp [h]
  · field_simp

theorem div_truncates (h : Fits (a.value / b.value)) : (a.div b).raw.toInt = truncated (a.value / b.value) := by
  rw [← truncated_bmod h, toInt_div, truncated_div]

-- The shift leaves the next lower number, which is the truncated one up to zero and where nothing is lost.
theorem mul_truncates_iff (h : Fits (a.value * b.value)) :
    (a.mul b).raw.toInt = truncated (a.value * b.value) ↔
      0 ≤ a.raw.toInt * b.raw.toInt ∨ one ∣ a.raw.toInt * b.raw.toInt := by
  have hb := truncated_bmod h
  rw [truncated_mul] at hb
  rw [toInt_mul, truncated_mul]
  by_cases hp : 0 ≤ a.raw.toInt * b.raw.toInt ∨ one ∣ a.raw.toInt * b.raw.toInt
  case pos =>
    rw [Int.tdiv_eq_ediv, if_pos hp, add_zero] at *
    exact iff_of_true hb hp
  case neg =>
    refine iff_of_false (fun h => ?_) hp
    rw [Int.tdiv_eq_ediv, if_neg hp] at h
    have h := congrArg (· % ((2 ^ 32 : Nat) : Int)) h
    simp only [Int.bmod_emod, one_eq, show Int.sign 256 = 1 from rfl] at h
    omega

theorem value_eq_neg_iff : a.value = -b.value ↔ a.raw.toInt = -b.raw.toInt := by
  rw [value, value, ← neg_div, div_left_inj' (by simp [one_eq])]
  exact_mod_cast Iff.rfl

theorem odd_div (h : Fits (a.value / b.value)) : OddAt Fx.div (· / ·) a b where
  left a' ha hf  := by
    rw [value_eq_neg_iff, div_truncates hf, div_truncates h, ha, neg_div, truncated_neg]
  right b' hb hf := by
    rw [value_eq_neg_iff, div_truncates hf, div_truncates h, hb, div_neg, truncated_neg]

theorem mul_tdiv_self_nonneg {m n : Int} (h : 0 ≤ m) : 0 ≤ n * m.tdiv n := by
  rcases le_total 0 n with hn | hn
  · exact mul_nonneg hn (Int.tdiv_nonneg h hn)
  · have hs := mul_nonneg (neg_nonneg.mpr hn) (Int.tdiv_nonneg h (neg_nonneg.mpr hn))
    rwa [Int.tdiv_neg, neg_mul_neg] at hs

-- What is cut off the quotient is missing from the product, on the side of zero.
theorem mul_tdiv_self_between {m n : Int} :
    0 ≤ n * m.tdiv n ∧ n * m.tdiv n ≤ m ∨ m ≤ n * m.tdiv n ∧ n * m.tdiv n ≤ 0 := by
  rcases le_total 0 m with h | h
  case inl => exact .inl ⟨mul_tdiv_self_nonneg h, Int.mul_tdiv_self_le h⟩
  case inr =>
    have hl := @mul_tdiv_self_nonneg (-m) n (by omega)
    have hr := @Int.mul_tdiv_self_le (-m) n (by omega)
    rw [Int.neg_tdiv, mul_neg] at hl hr
    exact .inr ⟨by omega, by omega⟩

theorem abs_value_le_iff : |a.value| ≤ |b.value| ↔ |a.raw.toInt| ≤ |b.raw.toInt| := by
  rw [value, value, abs_div, abs_div, div_le_div_iff_of_pos_right (by simp [one_eq])]
  exact_mod_cast Iff.rfl

theorem abs_back (h : Fits (a.value / b.value)) : |((a.div b).mul b).value| ≤ |a.value| := by
  have hl := @BitVec.le_toInt 32 a.raw
  have hr := @BitVec.toInt_lt 32 a.raw
  have hb := @mul_tdiv_self_between (a.raw.toInt * one) b.raw.toInt
  rw [abs_value_le_iff, toInt_mul, div_truncates h, truncated_div, mul_comm _ b.raw.toInt]
  generalize b.raw.toInt * (a.raw.toInt * one).tdiv b.raw.toInt = p at *
  rw [one_eq] at *
  rw [Int.bmod_eq_of_le, Int.abs_eq_natAbs, Int.abs_eq_natAbs] <;> omega

theorem odd_mul (h : Fits (a.value * b.value)) (hd : one ∣ a.raw.toInt * b.raw.toInt) : OddAt Fx.mul (· * ·) a b where
  left a' ha hf  := by
    have hd' : one ∣ a'.raw.toInt * b.raw.toInt := by rwa [value_eq_neg_iff.mp ha, neg_mul, Int.dvd_neg]
    rw [value_eq_neg_iff, mul_truncates_iff hf |>.mpr <| .inr hd', mul_truncates_iff h |>.mpr <| .inr hd, ha, neg_mul,
      truncated_neg]
  right b' hb hf := by
    have hd' : one ∣ a.raw.toInt * b'.raw.toInt := by rwa [value_eq_neg_iff.mp hb, mul_neg, Int.dvd_neg]
    rw [value_eq_neg_iff, mul_truncates_iff hf |>.mpr <| .inr hd', mul_truncates_iff h |>.mpr <| .inr hd, hb, mul_neg,
      truncated_neg]

-- A product which loses something is cut to the lower side whatever its sign, so not to that of zero for both.
theorem dvd_of_odd (h : Fits (a.value * b.value)) (hp : 0 ≤ a.raw.toInt * b.raw.toInt) (ho : OddAt Fx.mul (· * ·) a b) :
    one ∣ a.raw.toInt * b.raw.toInt := by
  have hl := @BitVec.le_toInt 32 a.raw
  have hr := @BitVec.toInt_lt 32 a.raw
  by_cases hm : a.raw.toInt = -2 ^ 31
  · exact hm ▸ Dvd.dvd.mul_right (by decide) _
  have ha : value ⟨-a.raw⟩ = -a.value := by
    rw [value_eq_neg_iff, BitVec.toInt_neg, Int.bmod_eq_of_le] <;> omega
  have hn : 0 ≤ a.value * b.value * one := by
    rw [value, value, div_mul_div_comm, one_eq]
    exact mul_nonneg (div_nonneg (by exact_mod_cast hp) (by norm_num)) (by norm_num)
  have hf : Fits (value ⟨-a.raw⟩ * b.value) := by
    rw [fits_iff] at *
    rw [ha, neg_mul, neg_mul]
    exact ⟨by linarith, by linarith⟩
  have h' := ho.left _ ha hf
  rw [value_eq_neg_iff, mul_truncates_iff h |>.mpr <| .inl hp, ← truncated_neg, ← neg_mul, ← ha,
    mul_truncates_iff hf, value_eq_neg_iff.mp ha, neg_mul, Int.dvd_neg] at h'
  cases h'
  case inl h' => exact ⟨0, by omega⟩
  case inr h' => exact h'

-- Products and quotients round alike iff the product of the two does not fit or has no more digits than the type.
theorem roundsAlike_iff : RoundsAlike a b ↔ (Fits (a.value * b.value) → one ∣ a.raw.toInt * b.raw.toInt) := by
  constructor
  case mp =>
    intro h hf
    cases mul_truncates_iff hf |>.mp <| h.mul hf
    case inl hp => exact dvd_of_odd hf hp <| h.mul_odd hf
    case inr hd => exact hd
  case mpr =>
    intro h
    exact {
      mul hf       := mul_truncates_iff hf |>.mpr <| .inr <| h hf
      div _ hf     := div_truncates hf
      mul_odd hf   := odd_mul hf <| h hf
      div_odd _ hf := odd_div hf
      back _ hf    := abs_back hf
    }

-- The least step times one and a half of its opposite is one step and a half below zero, and comes out as two.
theorem product_rounds_down : Fits (value ⟨-1⟩ * value ⟨384⟩) ∧ ¬RoundsAlike ⟨-1⟩ ⟨384⟩ := by
  constructor
  case left =>
    rw [fits_iff]
    decide +kernel
  case right =>
    intro h
    have hm := h.mul (by rw [fits_iff]; decide +kernel)
    revert hm
    decide +kernel

variable {n x : Nat}

theorem newton_body : (newton n).body x = ((Newton.descent n).body x).map (↑) := by
  have hx : ((x : Int) + (n : Int).tdiv x).tdiv 2 = Newton.next n x := rfl
  simp only [newton, Newton.descent, hx, Int.ofNat_le]
  split <;> rfl

-- Where the product fits there is nothing to be saturated.
theorem saturatingMul_natCast (h : x ≤ 2 ^ 31) : saturatingMul x x = (x * x : Nat) := by
  have := Nat.mul_le_mul h h
  rw [saturatingMul]
  push_cast
  omega

-- At the root each of the loops is left at once.
theorem loops_left (hl : 0 < n) (hr : n.sqrt < 2 ^ 20) :
    (newton n).body n.sqrt = none ∧ (lower n).body n.sqrt = none ∧ (raise n).body n.sqrt = none := by
  refine ⟨?_, ?_, ?_⟩
  case refine_1 =>
    rw [newton_body, Newton.body_eq_none_iff (Nat.sqrt_pos.mpr hl) le_rfl |>.mpr rfl]
    rfl
  case refine_2 =>
    refine if_neg fun h => absurd h.right ?_
    rw [saturatingMul_natCast (by omega), Int.ofNat_lt, Nat.not_lt]
    exact Nat.sqrt_le n
  case refine_3 =>
    have hs : saturatingMul (n.sqrt + 1) (n.sqrt + 1) = ((n.sqrt + 1) * (n.sqrt + 1) : Nat) :=
      saturatingMul_natCast (x := n.sqrt + 1) (by omega)
    simp only [raise, hs, Int.ofNat_le, ite_eq_right_iff, reduceCtorEq, imp_false, Nat.not_le]
    exact Nat.lt_succ_sqrt n

-- The root is reached so soon that a round is left for the exit test, and it is the one of the definition.
theorem sqrt_isGreatest (a : Fx) (h : 0 < a.raw.toInt) :
    let n := a.raw.toInt * 256
    let x := (newton n).run 31 (max n 1)
    (newton n).body x = none ∧ (lower n).body x = none ∧ (raise n).body x = none ∧ a.sqrt.raw.toInt = x ∧
      IsGreatest {r | r * r ≤ n} a.sqrt.raw.toInt := by
  have ht := @BitVec.toInt_lt 32 a.raw
  obtain ⟨n, hn⟩ := Int.eq_ofNat_of_zero_le (show 0 ≤ a.raw.toInt * 256 by omega)
  have hm : max (n : Int) 1 = n := by omega
  have hl : 16 ≤ n.sqrt := Nat.le_sqrt.mpr (by omega)
  have hr : n.sqrt + 2 ≤ 2 ^ 20 := by
    have := Nat.sqrt_lt (m := n) (n := 2 ^ 20 - 2) |>.mpr (by omega)
    omega
  have hx (k : Nat) : (newton n).run (26 + k) n = n.sqrt :=
    (Loop.run_map fun _ => newton_body).trans <| congrArg Nat.cast <| Newton.run_eq_sqrt hl hr
  obtain ⟨hb, hb₁, hb₂⟩ := @loops_left n (by omega) (by omega)
  have hs : a.sqrt.raw.toInt = n.sqrt := by
    have hs : a.raw.toInt <<< fracBits = n := by
      rw [← hn]
      exact Int.shiftLeft_eq ..
    simp only [sqrt, if_neg (Int.not_le.mpr h), hs, hm, hx 6, Loop.run_of_left hb₁, Loop.run_of_left hb₂]
    exact I32.toInt_ofInt (by omega) (by omega)
  intro m x
  have hxs : x = n.sqrt := by
    simp only [x, m, hn, hm]
    exact hx 5
  simp only [hxs, m, hn, hs]
  refine ⟨hb, hb₁, hb₂, trivial, ?_, fun r hr => ?_⟩
  case refine_1 =>
    have := Nat.sqrt_le n
    exact Set.mem_ofPred.mpr <| by exact_mod_cast this
  case refine_2 =>
    have hr : r * r ≤ n := hr
    rw [← Int.natAbs_mul_self] at hr
    have := Nat.le_sqrt.mpr (Int.ofNat_le.mp hr)
    omega

theorem sqrt_isGreatest_two : IsGreatest {r : Int | r * r ≤ 512 * 256} (sqrt ⟨512⟩).raw.toInt := by
  obtain ⟨_, _, _, _, h⟩ := sqrt_isGreatest ⟨512⟩ (by decide)
  exact h

end Fx
end Plaza.ClientUtils
