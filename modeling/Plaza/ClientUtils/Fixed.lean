import Plaza.Lib.Execution
import Plaza.Lib.Rust

open Rust

namespace Plaza.ClientUtils

-- A number of 24 integer bits and 8 fractional ones.
structure Fx where
  raw : I32
  deriving DecidableEq, Repr

namespace Fx

abbrev fracBits : Nat :=
  8

def one : Int :=
  1 <<< fracBits

protected def zero : Fx where
  raw := 0

def fromInt (n : I32) : Fx where
  raw := n <<< fracBits

-- The product is taken in 64 bits, where it fits, and is then cut to the lower 32 of what the shift leaves.
def mul (a b : Fx) : Fx where
  raw := ((a.raw.signExtend 64 * b.raw.signExtend 64).sshiftRight fracBits).setWidth 32

-- A quotient by zero is zero. The dividend is taken in 64 bits, where all of its bits fit.
def div (a b : Fx) : Fx where
  raw := if b.raw = 0 then 0 else ((a.raw.signExtend 64 <<< fracBits).sdiv (b.raw.signExtend 64)).setWidth 32

-- A product of words of 64 bits, or the word which is nearest to it.
def saturatingMul (x y : Int) : Int :=
  max (-2 ^ 63) (min (x * y) (2 ^ 63 - 1))

-- The loops of the square root, over words of 64 bits which are far from overflowing. The first one is cut off after
-- 32 rounds, the others go on for as long as they have to.
def newton (n : Int) : Loop Int where
  body x :=
    let next := (x + n.tdiv x).tdiv 2
    if x ≤ next then none else some next

def lower (n : Int) : Loop Int where
  body x := if 0 < x ∧ n < saturatingMul x x then some (x - 1) else none

def raise (n : Int) : Loop Int where
  body x := if saturatingMul (x + 1) (x + 1) ≤ n then some (x + 1) else none

-- More rounds than there are numbers to be tried are none that the other loops would take.
def sqrt (a : Fx) : Fx :=
  if a.raw.toInt ≤ 0 then
    .zero
  else
    let n := a.raw.toInt <<< fracBits
    let x := (newton n).run 32 (max n 1)
    let x := (lower n).run x.toNat x
    let x := (raise n).run n.toNat x
    { raw := .ofInt 32 x }

instance : Add Fx where
  add a b := ⟨a.raw + b.raw⟩

instance : Sub Fx where
  sub a b := ⟨a.raw - b.raw⟩

instance : LE Fx where
  le a b := a.raw.toInt ≤ b.raw.toInt

instance : DecidableLE Fx :=
  fun a b => inferInstanceAs <| Decidable (a.raw.toInt ≤ b.raw.toInt)

theorem one_eq : one = 256 := rfl

theorem raw_add {a b : Fx} : (a + b).raw = a.raw + b.raw := rfl

theorem le_def {a b : Fx} : a ≤ b ↔ a.raw.toInt ≤ b.raw.toInt := .rfl

end Fx

structure P where
  x : Fx
  y : Fx
  deriving DecidableEq, Repr

namespace P

def fromInts (x y : I32) : P where
  x := .fromInt x
  y := .fromInt y

def distSq (a b : P) : Fx :=
  let dx := a.x - b.x
  let dy := a.y - b.y
  dx.mul dx + dy.mul dy

end P
end Plaza.ClientUtils
