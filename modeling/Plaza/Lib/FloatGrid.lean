import Mathlib.Algebra.Order.Field.Rat
import Mathlib.Data.Int.Log
import Mathlib.Data.Rat.Floor
import Mathlib.Tactic.Linarith
import Plaza.Lib.Rust

-- The integer next to a number, and the even one of two which are as near.
def roundEven (x : ℚ) : Int :=
  let below := ⌊x⌋
  if x - below < 1 / 2 ∨ x - below = 1 / 2 ∧ Even below then below else below + 1

-- The integer next to a number, and the one farther from zero of two which are as near.
def roundAway (x : ℚ) : Int :=
  if 0 ≤ x then ⌊x + 1 / 2⌋ else -⌊-x + 1 / 2⌋

section

variable {x y : ℚ} {n : Int}

theorem roundEven_intCast : roundEven n = n := by
  simp [roundEven]

theorem roundAway_intCast : roundAway n = n := by
  rw [roundAway]
  split
  · rw [Int.floor_eq_iff]
    constructor <;> linarith
  · rw [neg_eq_iff_eq_neg, Int.floor_eq_iff]
    push_cast
    constructor <;> linarith

theorem floor_le_roundEven : ⌊x⌋ ≤ roundEven x := by
  simp only [roundEven]
  split <;> omega

theorem roundEven_le : roundEven x ≤ ⌊x⌋ + 1 := by
  simp only [roundEven]
  split <;> omega

theorem roundEven_mono (h : x ≤ y) : roundEven x ≤ roundEven y := by
  rcases (Int.floor_mono h).lt_or_eq with hlt | heq
  case inl =>
    have hx := @roundEven_le x
    have hy := @floor_le_roundEven y
    omega
  case inr =>
    simp only [roundEven, heq]
    split
    case isTrue  => split <;> omega
    case isFalse hx =>
      -- Above the same integer, what rounds up takes all with it that is greater.
      rw [if_neg fun hy => hx ?_]
      rcases hy with hy | ⟨hy, he⟩
      · exact .inl (by linarith)
      · rcases h.lt_or_eq with h | h
        · exact .inl (by linarith)
        · exact .inr ⟨by linarith, he⟩

theorem roundEven_neg : roundEven (-x) = -roundEven x := by
  by_cases hx : (⌊x⌋ : ℚ) = x
  case pos =>
    rw [← hx, ← Int.cast_neg, roundEven_intCast, roundEven_intCast]
  case neg =>
    have hl := lt_of_le_of_ne (Int.floor_le x) hx
    have hf : ⌊-x⌋ = -⌊x⌋ - 1 := by
      rw [Int.floor_eq_iff]
      have := Int.lt_floor_add_one x
      push_cast
      exact ⟨by linarith, by linarith⟩
    have he : Even (-⌊x⌋ - 1) ↔ ¬Even ⌊x⌋ := by
      rw [Int.even_sub_one, even_neg]
    simp only [roundEven, hf, he]
    push_cast
    rcases lt_trichotomy (x - ⌊x⌋) (1 / 2) with h | h | h
    · rw [if_neg, if_pos (.inl h)]
      · ring
      · rintro (h' | h')
        · linarith
        · linarith [h'.left]
    · have h' : -x - (-(⌊x⌋ : ℚ) - 1) = 1 / 2 := by linarith
      by_cases he : Even ⌊x⌋
      · simp [h, h', he]
      · simp [h, h', he]
        ring
    · rw [if_pos (.inl (by linarith)), if_neg]
      · ring
      · rintro (h' | h')
        · linarith
        · linarith [h'.left]

end

-- The numbers with so many binary digits, the last of which is in no place below the least one.
structure FloatGrid where
  digits     : Nat
  digits_pos : 0 < digits
  least      : Int

namespace FloatGrid

variable (g : FloatGrid) (x y : ℚ)

-- The place of the last digit that a number of this size has.
def place : Int :=
  max (Int.log 2 |x| + 1 - g.digits) g.least

def ulp : ℚ :=
  2 ^ g.place x

-- The number next to `x`.
def round : ℚ :=
  roundEven (x / g.ulp x) * g.ulp x

-- A number which is on the grid.
def Holds : Prop :=
  g.round x = x

instance : Decidable (g.Holds x) :=
  inferInstanceAs <| Decidable (_ = _)

variable {g x y} {n : Int} {e : Int}

theorem ulp_pos : 0 < g.ulp x :=
  zpow_pos (by norm_num) _

theorem least_le_place : g.least ≤ g.place x :=
  le_max_right ..

theorem ulp_neg : g.ulp (-x) = g.ulp x := by
  rw [ulp, ulp, place, abs_neg, place]

theorem round_neg : g.round (-x) = -g.round x := by
  rw [round, ulp_neg, neg_div, roundEven_neg, round]
  push_cast
  ring

theorem Holds.neg (h : g.Holds x) : g.Holds (-x) := by
  rw [Holds, round_neg, h]

-- The places above the last one are counted in it.
theorem exists_pow_eq (h : g.place x ≤ e) : ∃ n : Int, (2 : ℚ) ^ e = n * g.ulp x := by
  obtain ⟨k, hk⟩ := Int.eq_ofNat_of_zero_le (Int.sub_nonneg_of_le h)
  refine ⟨2 ^ k, ?_⟩
  push_cast
  rw [ulp, ← zpow_natCast, ← zpow_add₀ (by norm_num)]
  congr 1
  omega

-- What fills only places from the last one up is on the grid.
theorem holds_of_place_le (h : g.place (n * 2 ^ e) ≤ e) : g.Holds (n * 2 ^ e) := by
  obtain ⟨m, hm⟩ := exists_pow_eq h
  have hd : (n * 2 ^ e : ℚ) / g.ulp (n * 2 ^ e) = (n * m : Int) := by
    rw [div_eq_iff ulp_pos.ne']
    push_cast
    rw [mul_assoc, ← hm]
  rw [Holds, round, hd, roundEven_intCast]
  push_cast
  rw [mul_assoc, ← hm]

theorem abs_lt : |x| < 2 ^ (g.place x + g.digits) := by
  have h := Int.lt_zpow_succ_log_self (by decide : 1 < 2) |x|
  refine h.trans_le <| zpow_le_zpow_right₀ (by norm_num) ?_
  rw [place]
  omega

theorem place_le_of_abs_lt (hx : x ≠ 0) (h : |x| < 2 ^ (e + g.digits)) (he : g.least ≤ e) :
    g.place x ≤ e := by
  have h := Int.lt_zpow_iff_log_lt (by decide : 1 < 2) (abs_pos.mpr hx) |>.mp h
  rw [place]
  omega

theorem holds_zero : g.Holds 0 := by
  simp [Holds, round, roundEven]

-- A number of no more digits is on the grid.
theorem holds_of_abs_lt (hn : |n| < 2 ^ g.digits) (he : g.least ≤ e) : g.Holds (n * 2 ^ e) := by
  by_cases hz : (n * 2 ^ e : ℚ) = 0
  case pos => exact hz ▸ holds_zero
  case neg =>
    refine holds_of_place_le <| place_le_of_abs_lt hz ?_ he
    rw [abs_mul, abs_of_pos (zpow_pos (by norm_num : (0 : ℚ) < 2) e), add_comm, zpow_add₀ (by norm_num), zpow_natCast]
    refine mul_lt_mul_of_pos_right ?_ (zpow_pos (by norm_num) e)
    exact_mod_cast hn

theorem holds_pow (he : g.least ≤ e) : g.Holds (2 ^ e) := by
  rw [← one_mul (2 ^ e : ℚ), ← Int.cast_one]
  have hd := g.digits_pos
  exact holds_of_abs_lt (by simpa using one_lt_pow₀ (by decide : (1 : Int) < 2) hd.ne') he

-- Rounding does not pass a multiple of the last place.
theorem round_le_of_le (h : x ≤ n * g.ulp x) : g.round x ≤ n * g.ulp x := by
  have h := roundEven_mono <| div_le_iff₀ ulp_pos |>.mpr h
  rw [roundEven_intCast] at h
  exact mul_le_mul_of_nonneg_right (by exact_mod_cast h) ulp_pos.le

theorem le_round_of_le (h : n * g.ulp x ≤ x) : n * g.ulp x ≤ g.round x := by
  have h := roundEven_mono <| le_div_iff₀ ulp_pos |>.mpr h
  rw [roundEven_intCast] at h
  exact mul_le_mul_of_nonneg_right (by exact_mod_cast h) ulp_pos.le

theorem round_nonneg (h : 0 ≤ x) : 0 ≤ g.round x := by
  simpa using @le_round_of_le g x 0 (by simpa using h)

theorem round_nonpos (h : x ≤ 0) : g.round x ≤ 0 := by
  simpa using @round_le_of_le g x 0 (by simpa using h)

theorem round_le_pow (he : g.place x ≤ e) (h : x ≤ 2 ^ e) : g.round x ≤ 2 ^ e := by
  obtain ⟨n, hn⟩ := exists_pow_eq he
  rw [hn] at h ⊢
  exact round_le_of_le h

theorem pow_le_round (he : g.place x ≤ e) (h : 2 ^ e ≤ x) : 2 ^ e ≤ g.round x := by
  obtain ⟨n, hn⟩ := exists_pow_eq he
  rw [hn] at h ⊢
  exact le_round_of_le h

theorem round_mono_of_pos (hx : 0 < x) (h : x ≤ y) : g.round x ≤ g.round y := by
  have hl : Int.log 2 |x| ≤ Int.log 2 |y| :=
    Int.log_mono_right (abs_pos_of_pos hx) (abs_le_abs_of_nonneg hx.le h)
  rcases (show g.place x ≤ g.place y by simp only [place]; omega).lt_or_eq with hlt | heq
  case inr =>
    have hu : g.ulp x = g.ulp y := by rw [ulp, heq, ulp]
    rw [round, round, hu]
    refine mul_le_mul_of_nonneg_right ?_ ulp_pos.le
    exact_mod_cast roundEven_mono <| div_le_div_of_nonneg_right h ulp_pos.le
  case inl =>
    -- There is a power of two from `x` to `y`, which has a place on the grid at either size.
    have hy := hx.trans_le h
    have hd := g.digits_pos
    simp only [place, abs_of_pos hx, abs_of_pos hy] at hl hlt
    have hle := Int.zpow_log_le_self (by decide : 1 < 2) hy
    have hlt := Int.lt_zpow_iff_log_lt (by decide : 1 < 2) hx |>.mpr (by omega : Int.log 2 x < Int.log 2 y)
    refine (round_le_pow ?_ hlt.le).trans (pow_le_round ?_ hle) <;> simp only [place, abs_of_pos hx, abs_of_pos hy] <;>
      omega

theorem round_mono (h : x ≤ y) : g.round x ≤ g.round y := by
  rcases lt_or_ge 0 x with hx | hx
  · exact round_mono_of_pos hx h
  rcases lt_or_ge y 0 with hy | hy
  · have h := @round_mono_of_pos g _ _ (neg_pos.mpr hy) (neg_le_neg h)
    rwa [round_neg, round_neg, neg_le_neg_iff] at h
  · exact (round_nonpos hx).trans (round_nonneg hy)

theorem Holds.round_le (hy : g.Holds y) (h : x ≤ y) : g.round x ≤ y :=
  hy ▸ round_mono h

theorem Holds.le_round (hx : g.Holds x) (h : x ≤ y) : x ≤ g.round y :=
  hx ▸ round_mono h

-- A multiple of a power of two which has a place is rounded to a multiple of it.
theorem exists_round_eq : ∃ m : Int, g.round (n * 2 ^ e) = m * 2 ^ e := by
  rcases le_total (g.place (n * 2 ^ e)) e with h | h
  · exact ⟨n, holds_of_place_le h⟩
  · obtain ⟨k, hk⟩ := Int.eq_ofNat_of_zero_le (Int.sub_nonneg_of_le h)
    refine ⟨roundEven (n * 2 ^ e / g.ulp (n * 2 ^ e)) * 2 ^ k, ?_⟩
    push_cast
    rw [round, mul_assoc, ← zpow_natCast, ← zpow_add₀ (by norm_num), ulp]
    congr 2
    omega

theorem abs_roundEven_lt (h : |g.round x| < 2 ^ (g.place x + g.digits)) :
    |roundEven (x / g.ulp x)| < 2 ^ g.digits := by
  rw [round, abs_mul, abs_of_pos ulp_pos, add_comm, zpow_add₀ (by norm_num), zpow_natCast] at h
  exact_mod_cast lt_of_mul_lt_mul_right h ulp_pos.le

theorem Holds.exists_eq (h : g.Holds x) : ∃ n : Int, |n| < 2 ^ g.digits ∧ x = n * 2 ^ g.place x :=
  ⟨roundEven (x / g.ulp x), abs_roundEven_lt (h.symm ▸ abs_lt), h.symm⟩

theorem holds_round_of_nonneg (h : 0 ≤ x) : g.Holds (g.round x) := by
  have hlt := @abs_lt g x
  rw [abs_of_nonneg h] at hlt
  have hle : g.round x ≤ 2 ^ (g.place x + g.digits) := round_le_pow (by omega) hlt.le
  have hl := @least_le_place g x
  rcases hle.lt_or_eq with hlt | heq
  case inr =>
    rw [heq]
    exact holds_pow (by omega)
  case inl =>
    rw [← abs_of_nonneg (round_nonneg h)] at hlt
    exact holds_of_abs_lt (abs_roundEven_lt hlt) hl

theorem holds_round : g.Holds (g.round x) := by
  rcases le_total 0 x with h | h
  · exact holds_round_of_nonneg h
  · have h := @holds_round_of_nonneg g _ (neg_nonneg.mpr h)
    rw [round_neg] at h
    exact neg_neg (g.round x) ▸ h.neg

-- The natural numbers on the grid, if it reaches down to the units.
theorem holds_natCast_iff {n : Nat} (hl : g.least ≤ 0) :
    g.Holds n ↔ ∃ m k : Nat, m < 2 ^ g.digits ∧ n = m * 2 ^ k := by
  constructor
  case mp =>
    intro h
    obtain ⟨m, hm, hn⟩ := h.exists_eq
    rcases le_total 0 (g.place n) with hp | hp
    case inl =>
      obtain ⟨k, hk⟩ := Int.eq_ofNat_of_zero_le hp
      rw [hk, zpow_natCast] at hn
      have hn : (n : Int) = m * 2 ^ k := by exact_mod_cast hn
      have h0 : 0 ≤ m := by
        by_contra! hneg
        have := mul_neg_of_neg_of_pos hneg (pow_pos (by decide : (0 : Int) < 2) k)
        omega
      obtain ⟨m, rfl⟩ := Int.eq_ofNat_of_zero_le h0
      exact ⟨m, k, by rw [Nat.abs_cast] at hm; exact_mod_cast hm, by exact_mod_cast hn⟩
    case inr =>
      refine ⟨n, 0, ?_, by simp⟩
      have hlt := (@abs_lt g n).trans_le (zpow_le_zpow_right₀ (by norm_num) (by omega : _ ≤ (g.digits : Int)))
      rw [Nat.abs_cast, zpow_natCast] at hlt
      exact_mod_cast hlt
  case mpr =>
    rintro ⟨m, k, hm, rfl⟩
    have h := @holds_of_abs_lt g m k (by rw [Nat.abs_cast]; exact_mod_cast hm) (by omega)
    exact_mod_cast h

theorem place_mono_of_pos (hx : 0 < x) (h : x ≤ y) : g.place x ≤ g.place y := by
  have := Int.log_mono_right (b := 2) (abs_pos_of_pos hx) (abs_le_abs_of_nonneg hx.le h)
  simp only [place]
  omega

-- Where the difference of two numbers on the grid is rounded up, the greater one less the rounded difference is on
-- the grid again: it has the places of the lesser one and is below it.
theorem Holds.sub_round (hx : g.Holds x) (hy : g.Holds y) (h0 : 0 ≤ x) (h : x ≤ y) (hr : y - x < g.round (y - x)) :
    g.Holds (y - g.round (y - x)) := by
  rcases h0.eq_or_lt with rfl | h0
  · rw [sub_zero, hy] at hr
    exact absurd hr (lt_irrefl y)
  obtain ⟨n, _, hn⟩ := hx.exists_eq
  obtain ⟨m, _, hm⟩ := hy.exists_eq
  obtain ⟨k, hk⟩ := @exists_pow_eq g x _ <| place_mono_of_pos h0 h
  have hs : y - x = (m * k - n : Int) * 2 ^ g.place x := by
    rw [hk, ulp] at hm
    push_cast
    linarith
  obtain ⟨d, hd⟩ := @exists_round_eq g (m * k - n) (g.place x)
  rw [← hs] at hd
  have hl : y - g.round (y - x) = (m * k - d : Int) * 2 ^ g.place x := by
    rw [hd]
    rw [hk, ulp] at hm
    push_cast
    linarith
  have hlt := @abs_lt g x
  have hle := hy.round_le (by linarith : y - x ≤ y)
  rw [abs_of_pos h0, add_comm, zpow_add₀ (by norm_num), zpow_natCast] at hlt
  have hp : (0 : ℚ) < 2 ^ g.place x := ulp_pos
  rw [hl]
  refine holds_of_abs_lt ?_ least_le_place
  have hc : |((m * k - d : Int) : ℚ)| < 2 ^ g.digits := by
    refine lt_of_mul_lt_mul_right ?_ hp.le
    rw [← abs_of_pos hp, ← abs_mul, abs_of_pos hp, ← hl, abs_of_nonneg (by linarith)]
    linarith
  exact_mod_cast hc

-- A number on the grid. What an operation gives is rounded to the next one.
@[ext]
structure Number (g : FloatGrid) where
  val   : ℚ
  holds : g.Holds val

namespace Number

instance : LinearOrder g.Number :=
  LinearOrder.lift' val fun _ _ => Number.ext

protected def of (x : ℚ) : g.Number where
  val   := g.round x
  holds := holds_round

instance : Add g.Number where
  add x y := .of (x.val + y.val)

instance : Sub g.Number where
  sub x y := .of (x.val - y.val)

instance : Mul g.Number where
  mul x y := .of (x.val * y.val)

instance : Div g.Number where
  div x y := .of (x.val / y.val)

instance : Neg g.Number where
  neg x := ⟨-x.val, x.holds.neg⟩

instance {n : Nat} : OfNat g.Number n where
  ofNat := .of n

def clamp (x low high : g.Number) : g.Number :=
  max low (min x high)

protected def round (x : g.Number) : g.Number :=
  .of (roundAway x.val)

variable {a b c : g.Number}

theorem le_def : a ≤ b ↔ a.val ≤ b.val := .rfl

theorem lt_def : a < b ↔ a.val < b.val := .rfl

theorem val_add : (a + b).val = g.round (a.val + b.val) := rfl

theorem val_sub : (a - b).val = g.round (a.val - b.val) := rfl

theorem val_mul : (a * b).val = g.round (a.val * b.val) := rfl

theorem of_val : .of a.val = a :=
  Number.ext a.holds

theorem add_part_self : a + (a - a) * c = a := by
  refine Number.ext ?_
  rw [val_add, val_mul, val_sub, sub_self, show g.round 0 = 0 from holds_zero, zero_mul,
    show g.round 0 = 0 from holds_zero, add_zero, a.holds]

-- A part of the way from one number to another does not lead past either, if the way is not rounded up.
theorem part_between (hs : 0 ≤ c.val ∧ c.val ≤ 1) (h : g.round |b.val - a.val| ≤ |b.val - a.val|) :
    min a b ≤ a + (b - a) * c ∧ a + (b - a) * c ≤ max a b := by
  rcases le_total a b with hab | hab
  case inl =>
    have hle := le_def.mp hab
    rw [abs_of_nonneg (sub_nonneg.mpr hle), ← val_sub] at h
    have h0 : 0 ≤ (b - a).val := round_nonneg (sub_nonneg.mpr hle)
    have hl : 0 ≤ ((b - a) * c).val := round_nonneg (mul_nonneg h0 hs.left)
    have hr := (b - a).holds.round_le (mul_le_of_le_one_right h0 hs.right)
    rw [← val_mul] at hr
    rw [min_eq_left hab, max_eq_right hab]
    exact ⟨a.holds.le_round (by linarith), b.holds.round_le (by linarith)⟩
  case inr =>
    have hle := le_def.mp hab
    rw [abs_of_nonpos (sub_nonpos.mpr hle), round_neg, neg_le_neg_iff, ← val_sub] at h
    have h0 : (b - a).val ≤ 0 := round_nonpos (sub_nonpos.mpr hle)
    have hr : ((b - a) * c).val ≤ 0 := round_nonpos (mul_nonpos_of_nonpos_of_nonneg h0 hs.left)
    have hl := (b - a).holds.le_round (by nlinarith : (b - a).val ≤ (b - a).val * c.val)
    rw [← val_mul] at hl
    rw [min_eq_right hab, max_eq_left hab]
    exact ⟨b.holds.le_round (by linarith), a.holds.round_le (by linarith)⟩

-- The whole way does, if it is.
theorem whole_val (h0 : 0 ≤ a.val) (hab : a ≤ b) (hc : c.val = 1) (hr : b.val - a.val < g.round (b.val - a.val)) :
    (b + (a - b) * c).val = b.val - g.round (b.val - a.val) := by
  rw [val_add, val_mul, hc, mul_one, (a - b).holds, val_sub, ← neg_sub, round_neg, ← sub_eq_add_neg]
  exact a.holds.sub_round b.holds h0 hab hr

theorem clamp_of_mem (hb : b ≤ a) (hc : a ≤ c) : a.clamp b c = a := by
  rw [clamp, min_eq_left hc, max_eq_right hb]

theorem round_of_intCast (h : a.val = n) : a.round = a := by
  rw [Number.round, h, roundAway_intCast, ← h, of_val]

end Number
end FloatGrid

namespace Rust

-- The floats of 32 bits. Whatever is too great for them is not taken to be infinite.
def f32 : FloatGrid where
  digits     := 24
  digits_pos := by decide
  least      := -149

abbrev F32 :=
  f32.Number

namespace F32

-- The cast of a word.
def ofU64 (x : U64) : F32 :=
  .of x.toNat

-- The cast to a word, which cuts off the fraction and takes what is out of range to the next end of it.
def toU64 (x : F32) : U64 :=
  .ofNat 64 (min ⌊x.val⌋.toNat (2 ^ 64 - 1))

end F32
end Rust
