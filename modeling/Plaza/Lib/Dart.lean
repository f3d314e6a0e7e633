import Mathlib.Data.BitVec

-- The native integers of Dart: 64 bits in two's complement.
namespace Dart

-- Sums, differences, products, `&`, `|`, `^`, `<<` and `>>>` are those of the word. A shift by 64 or more
-- leaves nothing.
abbrev Word := BitVec 64

namespace Word

-- Comparison takes the words as signed.
def lt (x y : Word) : Bool := x.slt y

def le (x y : Word) : Bool := x.sle y

-- The result of `%` is never negative, whatever the signs of its operands are.
def mod (x m : Word) : Word :=
  .ofInt 64 (x.toInt % m.toInt)

-- The result of `~/` is rounded to zero. The lowest word wraps to itself when it is divided by -1.
def quot (x m : Word) : Word := x.sdiv m

variable {x y m : Word}

-- Below 2^63 a word means the same with a sign as without one.
theorem toInt_eq (h : x.toNat < 2 ^ 63) : x.toInt = x.toNat := by
  rw [BitVec.toInt_eq_toNat_cond, if_pos (by omega)]

theorem lt_eq (hx : x.toNat < 2 ^ 63) (hy : y.toNat < 2 ^ 63) : x.lt y = decide (x.toNat < y.toNat) := by
  simp [lt, BitVec.slt, toInt_eq hx, toInt_eq hy]

theorem le_eq (hx : x.toNat < 2 ^ 63) (hy : y.toNat < 2 ^ 63) : x.le y = decide (x.toNat ≤ y.toNat) := by
  simp [le, BitVec.sle, toInt_eq hx, toInt_eq hy]

-- So it does on either side of it.
theorem msb_eq_iff : x.msb = y.msb ↔ (x.toNat < 2 ^ 63 ↔ y.toNat < 2 ^ 63) := by
  simp only [BitVec.msb_eq_decide, decide_eq_decide]
  omega

theorem lt_eq_of_msb (h : x.msb = y.msb) : x.lt y = decide (x.toNat < y.toNat) := by
  rw [lt, BitVec.slt_eq_ult, h]
  simp [BitVec.ult]

theorem lt_iff_not_of_msb (h : x.msb ≠ y.msb) : x.lt y ↔ ¬x < y := by
  rw [lt, BitVec.slt_eq_ult, bne_iff_ne.mpr h]
  simp [BitVec.ult, BitVec.lt_def]

theorem toNat_sub_lt_of_msb (h : x.msb = y.msb) (hl : y.toNat ≤ x.toNat) : (x - y).toNat < 2 ^ 63 := by
  have := msb_eq_iff.mp h
  rw [BitVec.toNat_sub_of_le hl]
  omega

theorem toNat_mod (hx : x.toNat < 2 ^ 63) (hm : m.toNat < 2 ^ 63) :
    (x.mod m).toNat = x.toNat % m.toNat := by
  have hl : x.toNat % m.toNat ≤ x.toNat := Nat.mod_le ..
  rw [mod, toInt_eq hx, toInt_eq hm, ←Int.natCast_emod, BitVec.ofInt_natCast, BitVec.toNat_ofNat,
    Nat.mod_eq_of_lt (by omega)]

theorem nonneg_iff : le 0 x ↔ x.toNat < 2 ^ 63 := by
  simp only [le, BitVec.sle, decide_eq_true_eq, BitVec.toInt_eq_toNat_cond]
  simp
  omega

theorem lt_iff : x.lt y ↔ x.toInt < y.toInt :=
  BitVec.slt_iff_toInt_lt

theorem le_iff : x.le y ↔ x.toInt ≤ y.toInt :=
  BitVec.sle_iff_toInt_le

theorem neg_le_toInt (x : Word) : -2 ^ 63 ≤ x.toInt :=
  x.le_toInt

theorem toInt_lt (x : Word) : x.toInt < 2 ^ 63 :=
  BitVec.toInt_lt

-- A result which wraps is off by whole turns.
theorem bmod_turns (z : Int) : ∃ k, z.bmod (2 ^ 64) = z + 2 ^ 64 * k :=
  ⟨-z.bdiv (2 ^ 64), by rw [Int.bmod_eq_self_sub_mul_bdiv, Int.mul_neg, ← Int.sub_eq_add_neg]; rfl⟩

theorem toInt_add_turns (x y : Word) : ∃ k, (x + y).toInt = x.toInt + y.toInt + 2 ^ 64 * k :=
  BitVec.toInt_add x y ▸ bmod_turns _

theorem toInt_sub_turns (x y : Word) : ∃ k, (x - y).toInt = x.toInt - y.toInt + 2 ^ 64 * k :=
  BitVec.toInt_sub (x := x) ▸ bmod_turns _

theorem toInt_mul_turns (x y : Word) : ∃ k, (x * y).toInt = x.toInt * y.toInt + 2 ^ 64 * k :=
  BitVec.toInt_mul x y ▸ bmod_turns _

theorem toInt_quot (h : x ≠ BitVec.intMin 64 ∨ m ≠ -1) : (x.quot m).toInt = x.toInt.tdiv m.toInt :=
  BitVec.toInt_sdiv_of_ne_or_ne _ _ h

end Word
end Dart
