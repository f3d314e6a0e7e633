import Mathlib.Data.BitVec
import Mathlib.Data.List.Nodup

-- The integers of Rust, which have a fixed width. Whether a result that does not fit into its word panics or
-- loses its high bits is up to the build.
namespace Rust

inductive Overflow
  | panics
  | wraps
  deriving DecidableEq, Repr

-- The outcome of an operation of whose result only `low` may fit.
def Overflow.outcome {α : Type*} (o : Overflow) (fits : Prop) [Decidable fits] (low : α) : Option α :=
  if fits ∨ o = .wraps then some low else none

abbrev U32 := BitVec 32

abbrev U64 := BitVec 64

abbrev I32 := BitVec 32

namespace U32

def add (o : Overflow) (x y : U32) : Option U32 :=
  o.outcome (x.toNat + y.toNat < 2 ^ 32) (x + y)

-- The word nearest to an integer: what a cast from a wider range of numbers answers.
def saturating (z : Int) : U32 :=
  .ofNat 32 (min z.toNat (2 ^ 32 - 1))

def saturatingAdd (x y : U32) : U32 :=
  saturating (x.toNat + y.toNat)

def saturatingSub (x y : U32) : U32 :=
  saturating (x.toNat - y.toNat)

def lesser (x y : U32) : U32 :=
  if x ≤ y then x else y

-- The words from `x` up to `y`, both included.
def inclusive (x y : U32) : List U32 :=
  List.range' x.toNat (y.toNat + 1 - x.toNat) |>.map (.ofNat 32)

end U32

namespace U64

def add (o : Overflow) (x y : U64) : Option U64 :=
  o.outcome (x.toNat + y.toNat < 2 ^ 64) (x + y)

def sub (o : Overflow) (x y : U64) : Option U64 :=
  o.outcome (y.toNat ≤ x.toNat) (x - y)

def mul (o : Overflow) (x y : U64) : Option U64 :=
  o.outcome (x.toNat * y.toNat < 2 ^ 64) (x * y)

def saturatingAdd (x y : U64) : U64 :=
  .ofNat 64 (min (x.toNat + y.toNat) (2 ^ 64 - 1))

def saturatingMul (x y : U64) : U64 :=
  .ofNat 64 (min (x.toNat * y.toNat) (2 ^ 64 - 1))

def lesser (x y : U64) : U64 :=
  if x ≤ y then x else y

-- The difference of the words as signed ones.
def subSigned (o : Overflow) (x y : U64) : Option U64 :=
  o.outcome (-2 ^ 63 ≤ x.toInt - y.toInt ∧ x.toInt - y.toInt < 2 ^ 63) (x - y)

end U64

namespace I32

-- The sum of the words as signed ones.
def add (o : Overflow) (x y : I32) : Option I32 :=
  o.outcome (-2 ^ 31 ≤ x.toInt + y.toInt ∧ x.toInt + y.toInt < 2 ^ 31) (x + y)

def neg (o : Overflow) (x : I32) : Option I32 :=
  o.outcome (-x.toInt < 2 ^ 31) (-x)

def saturating (z : Int) : I32 :=
  .ofInt 32 (max (-2 ^ 31) (min z (2 ^ 31 - 1)))

-- The signed words from `x` up to `y`, both included.
def inclusive (x y : I32) : List I32 :=
  List.range (y.toInt + 1 - x.toInt).toNat |>.map fun n : Nat => .ofInt 32 (x.toInt + n)

end I32

variable {α : Type*} {o : Overflow} {fits : Prop} [Decidable fits] {low a : α} {x y z : U64}

theorem Overflow.outcome_of_fits (h : fits) : o.outcome fits low = some low := by
  simp [outcome, h]

-- A build that panics has an outcome only where nothing overflows.
theorem Overflow.outcome_panics_iff : panics.outcome fits low = some a ↔ fits ∧ low = a := by
  simp [outcome]

theorem Overflow.eq_low_of_outcome (h : o.outcome fits low = some a) : a = low := by
  simp only [outcome, Option.ite_none_right_eq_some, Option.some.injEq] at h
  exact h.right.symm

namespace U32

variable {x y z : U32} {m n : Int}

theorem eq_of_add (h : add o x y = some z) : z = x + y :=
  Overflow.eq_low_of_outcome h

theorem toNat_saturating : (saturating n).toNat = min n.toNat (2 ^ 32 - 1) := by
  rw [saturating, BitVec.toNat_ofNat]
  omega

theorem saturating_mono (h : m ≤ n) : saturating m ≤ saturating n := by
  rw [BitVec.le_def, toNat_saturating, toNat_saturating]
  omega

@[simp]
theorem toNat_saturatingAdd : (saturatingAdd x y).toNat = min (x.toNat + y.toNat) (2 ^ 32 - 1) := by
  rw [saturatingAdd, toNat_saturating]
  omega

@[simp]
theorem toNat_saturatingSub : (saturatingSub x y).toNat = x.toNat - y.toNat := by
  rw [saturatingSub, toNat_saturating]
  omega

@[simp]
theorem toNat_lesser : (lesser x y).toNat = min x.toNat y.toNat := by
  simp only [lesser, BitVec.le_def]
  split <;> omega

theorem mem_inclusive : z ∈ inclusive x y ↔ x.toNat ≤ z.toNat ∧ z.toNat ≤ y.toNat := by
  simp only [inclusive, List.mem_map, List.mem_range'_1]
  constructor
  case mp =>
    rintro ⟨n, hn, rfl⟩
    rw [BitVec.toNat_ofNat]
    omega
  case mpr => exact fun h => ⟨z.toNat, by omega, by simp⟩

theorem nodup_inclusive : (inclusive x y).Nodup := by
  refine List.Nodup.map_on ?_ List.nodup_range'
  intro m hm n hn h
  have h := congrArg BitVec.toNat h
  rw [List.mem_range'_1] at hm hn
  rw [BitVec.toNat_ofNat, BitVec.toNat_ofNat] at h
  omega

end U32

namespace U64

theorem add_of_fits (h : x.toNat + y.toNat < 2 ^ 64) : add o x y = some (x + y) :=
  Overflow.outcome_of_fits h

theorem add_panics_iff : add .panics x y = some z ↔ x.toNat + y.toNat < 2 ^ 64 ∧ x + y = z :=
  Overflow.outcome_panics_iff

theorem eq_of_add (h : add o x y = some z) : z = x + y :=
  Overflow.eq_low_of_outcome h

theorem add_one_of_msb (h : (x + 1).msb = x.msb) : x.toNat + 1 < 2 ^ 64 := by
  have hx := BitVec.msb_eq_decide x
  have hy := BitVec.msb_eq_decide (x + 1)
  rw [h, hx, BitVec.toNat_add] at hy
  simp at hy
  omega

theorem sub_of_fits (h : y.toNat ≤ x.toNat) : sub o x y = some (x - y) :=
  Overflow.outcome_of_fits h

theorem eq_of_sub (h : sub o x y = some z) : z = x - y :=
  Overflow.eq_low_of_outcome h

theorem mul_of_fits (h : x.toNat * y.toNat < 2 ^ 64) : mul o x y = some (x * y) :=
  Overflow.outcome_of_fits h

@[simp]
theorem toNat_saturatingAdd : (saturatingAdd x y).toNat = min (x.toNat + y.toNat) (2 ^ 64 - 1) := by
  rw [saturatingAdd, BitVec.toNat_ofNat]
  omega

@[simp]
theorem toNat_saturatingMul : (saturatingMul x y).toNat = min (x.toNat * y.toNat) (2 ^ 64 - 1) := by
  rw [saturatingMul, BitVec.toNat_ofNat]
  omega

@[simp]
theorem toNat_lesser : (lesser x y).toNat = min x.toNat y.toNat := by
  simp only [lesser, BitVec.le_def]
  split <;> omega

theorem toNat_add_of_fits (h : x.toNat + y.toNat < 2 ^ 64) : (x + y).toNat = x.toNat + y.toNat := by
  rw [BitVec.toNat_add, Nat.mod_eq_of_lt h]

theorem toNat_mul_of_fits (h : x.toNat * y.toNat < 2 ^ 64) : (x * y).toNat = x.toNat * y.toNat := by
  rw [BitVec.toNat_mul, Nat.mod_eq_of_lt h]

theorem toNat_sub_of_fits (h : y.toNat ≤ x.toNat) : (x - y).toNat = x.toNat - y.toNat :=
  BitVec.toNat_sub_of_le h

theorem subSigned_of_fits (h : -2 ^ 63 ≤ x.toInt - y.toInt ∧ x.toInt - y.toInt < 2 ^ 63) :
    subSigned o x y = some (x - y) :=
  Overflow.outcome_of_fits h

theorem subSigned_panics_iff :
    subSigned .panics x y = some z ↔
      (-2 ^ 63 ≤ x.toInt - y.toInt ∧ x.toInt - y.toInt < 2 ^ 63) ∧ x - y = z :=
  Overflow.outcome_panics_iff

end U64

namespace I32

variable {x y z : I32} {n : Int}

theorem eq_of_add (h : add o x y = some z) : z = x + y :=
  Overflow.eq_low_of_outcome h

theorem add_of_fits (h : o = .panics → -2 ^ 31 ≤ x.toInt + y.toInt ∧ x.toInt + y.toInt < 2 ^ 31) :
    add o x y = some (x + y) := by
  cases o
  case panics => exact Overflow.outcome_of_fits (h rfl)
  case wraps  => simp [add, Overflow.outcome]

theorem add_panics_iff :
    add .panics x y = some z ↔ (-2 ^ 31 ≤ x.toInt + y.toInt ∧ x.toInt + y.toInt < 2 ^ 31) ∧ x + y = z :=
  Overflow.outcome_panics_iff

theorem neg_of_nonneg (h : 0 ≤ x.toInt) : neg o x = some (-x) :=
  Overflow.outcome_of_fits (by omega)

theorem toInt_neg (h : 0 ≤ x.toInt) : (-x).toInt = -x.toInt := by
  have hx := @BitVec.toInt_lt 32 x
  rw [BitVec.toInt_neg, Int.bmod_eq_of_le] <;> omega

theorem toInt_ofInt (hl : -2 ^ 31 ≤ n) (hr : n < 2 ^ 31) : (.ofInt 32 n : I32).toInt = n := by
  rw [BitVec.toInt_ofInt, Int.bmod_eq_of_le] <;> omega

theorem toInt_sub (hl : -2 ^ 31 ≤ x.toInt - y.toInt) (hr : x.toInt - y.toInt < 2 ^ 31) :
    (x - y).toInt = x.toInt - y.toInt := by
  rw [BitVec.toInt_sub, Int.bmod_eq_of_le] <;> omega

-- Twice the bits hold every product.
theorem toInt_mul_signExtend : (x.signExtend 64 * y.signExtend 64).toInt = x.toInt * y.toInt := by
  have hl := @BitVec.le_toInt_mul_toInt 32 x y
  have hr := @BitVec.toInt_mul_toInt_le 32 x y
  rw [BitVec.toInt_mul, BitVec.toInt_signExtend_of_le (by decide), BitVec.toInt_signExtend_of_le (by decide),
    Int.bmod_eq_of_le] <;> omega

-- A cast to half the bits keeps the lower ones.
theorem toInt_setWidth {w : U64} : (w.setWidth 32).toInt = w.toInt.bmod (2 ^ 32) := by
  rw [← BitVec.signExtend_eq_setWidth_of_le _ (by decide), BitVec.toInt_signExtend_eq_toInt_bmod_of_le _ (by decide)]

theorem toInt_saturating : (saturating n).toInt = max (-2 ^ 31) (min n (2 ^ 31 - 1)) :=
  toInt_ofInt (by omega) (by omega)

theorem mem_inclusive : z ∈ inclusive x y ↔ x.toInt ≤ z.toInt ∧ z.toInt ≤ y.toInt := by
  have hx := @BitVec.le_toInt 32 x
  have hy := @BitVec.toInt_lt 32 y
  simp only [inclusive, List.mem_map, List.mem_range]
  constructor
  case mp =>
    rintro ⟨n, hn, rfl⟩
    rw [toInt_ofInt] <;> omega
  case mpr =>
    intro h
    refine ⟨(z.toInt - x.toInt).toNat, by omega, BitVec.eq_of_toInt_eq ?_⟩
    rw [toInt_ofInt] <;> omega

theorem nodup_inclusive : (inclusive x y).Nodup := by
  have hx := @BitVec.le_toInt 32 x
  have hy := @BitVec.toInt_lt 32 y
  refine List.Nodup.map_on ?_ List.nodup_range
  intro m hm n hn h
  have h := congrArg BitVec.toInt h
  rw [List.mem_range] at hm hn
  rw [toInt_ofInt, toInt_ofInt] at h <;> omega

-- From the middle of a reach the difference to either end fits, but for a single one.
theorem sub_mem_inclusive {i j r : Int} (hl : i ≤ j + r) (hr : j ≤ i + r) :
    saturating i - saturating j ∈ inclusive (-saturating r) (saturating r) ↔
      saturating i - saturating j ≠ .intMin 32 := by
  have hi := @toInt_saturating i
  have hj := @toInt_saturating j
  have hs := @toInt_saturating r
  rw [mem_inclusive, toInt_neg (by omega), ne_eq, ← BitVec.toInt_inj, BitVec.toInt_sub, hi, hj, hs,
    show (BitVec.intMin 32).toInt = -2 ^ 31 by decide]
  rcases lt_or_ge r (2 ^ 31) with hlt | hge
  · rw [Int.bmod_eq_of_le] <;> omega
  · have hb := @Int.le_bmod (max (-2 ^ 31) (min i (2 ^ 31 - 1)) - max (-2 ^ 31) (min j (2 ^ 31 - 1))) (2 ^ 32) (by decide)
    have hb' := @Int.bmod_lt (max (-2 ^ 31) (min i (2 ^ 31 - 1)) - max (-2 ^ 31) (min j (2 ^ 31 - 1))) (2 ^ 32) (by decide)
    omega

end I32
end Rust
