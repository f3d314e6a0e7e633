import Mathlib.Data.BitVec
import Mathlib.Data.Finite.Defs
import Mathlib.Data.Fintype.EquivFin
import Mathlib.Logic.Function.Basic

-- The steps by which hashes and generators mix the bits of a word. None of them makes two words the same.
namespace Mixing

variable {w s : Nat} {c d : BitVec w}

instance finite : Finite (BitVec w) :=
  Finite.of_injective BitVec.toFin fun _ _ h => BitVec.toFin_inj.mp h

-- A step for which `f` maps differences to differences is undone by doing the rest of its powers.
theorem injective_of_vanishing {f : BitVec w → BitVec w} (hx : ∀ x y, f (x ^^^ y) = f x ^^^ f y)
    (hz : ∀ x, f^[w] x = 0#w) : Function.Injective fun x => x ^^^ f x := by
  intro x y h
  have hd : f (x ^^^ y) = x ^^^ y := by
    rw [hx, ← BitVec.xor_eq_zero_iff]
    have h : (x ^^^ f x) ^^^ (y ^^^ f y) = 0#w := BitVec.xor_eq_zero_iff.mpr h
    rw [← h]
    ac_rfl
  have hw : f^[w] (x ^^^ y) = x ^^^ y := Function.iterate_fixed hd w
  exact BitVec.xor_eq_zero_iff.mp <| hw.symm.trans (hz _)

theorem xorShiftRight_injective (hs : 0 < s) : Function.Injective fun x : BitVec w => x ^^^ x >>> s := by
  refine injective_of_vanishing (fun x y => BitVec.ushiftRight_xor_distrib x y s) fun x => ?_
  have hn (n : Nat) : (fun x : BitVec w => x >>> s)^[n] x = x >>> (n * s) := by
    induction n
    case zero      => simp
    case succ n hi => rw [Function.iterate_succ_apply', hi, ← BitVec.shiftRight_add, Nat.succ_mul]
  exact hn w ▸ BitVec.ushiftRight_eq_zero (Nat.le_mul_of_pos_right w hs)

theorem xorShiftLeft_injective (hs : 0 < s) : Function.Injective fun x : BitVec w => x ^^^ x <<< s := by
  refine injective_of_vanishing (fun x y => BitVec.shiftLeft_xor_distrib x y s) fun x => ?_
  have hn (n : Nat) : (fun x : BitVec w => x <<< s)^[n] x = x <<< (n * s) := by
    induction n
    case zero      => simp
    case succ n hi => rw [Function.iterate_succ_apply', hi, ← BitVec.shiftLeft_add, Nat.succ_mul]
  exact hn w ▸ BitVec.shiftLeft_eq_zero (Nat.le_mul_of_pos_right w hs)

-- The inverse of an odd factor undoes a product.
theorem mul_injective (h : c * d = 1#w) : Function.Injective fun x : BitVec w => x * c := by
  intro x y he
  have he : x * c * d = y * c * d := congrArg (· * d) he
  rwa [BitVec.mul_assoc, BitVec.mul_assoc, h, BitVec.mul_one, BitVec.mul_one] at he

theorem add_injective : Function.Injective fun x : BitVec w => x + c :=
  fun _ _ h => BitVec.add_left_inj _ |>.mp h

end Mixing

-- Words of which each bit is clear or a certain bit of another word, as masks and shifts leave them.
namespace Wiring

variable {w s i : Nat} {x v m : BitVec w} {f g : Nat → Option Nat}

-- The bits of `v` are those of `x` which `f` names, and the ones for which it names none are clear.
def Carries (x : BitVec w) (f : Nat → Option Nat) (v : BitVec w) : Prop :=
  ∀ i < w, v.getLsbD i = (f i).any x.getLsbD

-- What is left of two bits which are put together and kept or not. At most one of them is not clear if they are kept.
def Joins (kept : Bool) (a b c : Option Nat) : Prop :=
  if kept then c = a ∧ b = none ∨ c = b ∧ a = none else c = none

instance {kept : Bool} {a b c : Option Nat} : Decidable (Joins kept a b c) :=
  inferInstanceAs <| Decidable (if kept then c = a ∧ b = none ∨ c = b ∧ a = none else c = none)

-- The first `n` bits in blocks of `s`, where each block is followed by the room of `d - 1` others.
def place (d s n i : Nat) : Option Nat :=
  let j := i / (d * s) * s + i % (d * s)
  if i % (d * s) < s ∧ j < n then some j else none

theorem joins_any {kept : Bool} {a b c : Option Nat} {p : Nat → Bool} (h : Joins kept a b c) :
    ((a.any p || b.any p) && kept) = c.any p := by
  cases kept
  case false =>
    have hc : c = none := by simpa [Joins] using h
    simp [hc]
  case true =>
    have h : c = a ∧ b = none ∨ c = b ∧ a = none := by simpa [Joins] using h
    rcases h with ⟨rfl, rfl⟩ | ⟨rfl, rfl⟩ <;> simp

namespace Carries

theorem mask (h : ∀ i < w, g i = if m.getLsbD i then some i else none) : Carries x g (x &&& m) := by
  intro i hi
  rw [BitVec.getLsbD_and, h i hi]
  cases m.getLsbD i <;> simp

-- A round of moving bits apart.
theorem spread (h : Carries x f v)
    (hg : ∀ i < w, Joins (m.getLsbD i) (f i) (if i < s then none else f (i - s)) (g i)) :
    Carries x g ((v ||| v <<< s) &&& m) := by
  intro i hi
  rw [← joins_any (hg i hi), BitVec.getLsbD_and, BitVec.getLsbD_or, BitVec.getLsbD_shiftLeft, h i hi]
  by_cases hs : i < s
  case pos => simp [hs]
  case neg => simp [hs, hi, h (i - s) (by omega)]

-- A round of moving them together again.
theorem gather (h : Carries x f v)
    (hg : ∀ i < w, Joins (m.getLsbD i) (f i) (if i + s < w then f (i + s) else none) (g i)) :
    Carries x g ((v ||| v >>> s) &&& m) := by
  intro i hi
  rw [← joins_any (hg i hi), BitVec.getLsbD_and, BitVec.getLsbD_or, BitVec.getLsbD_ushiftRight, h i hi, Nat.add_comm]
  by_cases hs : i + s < w
  case pos => rw [if_pos hs, h (i + s) hs]
  case neg => simp [hs, BitVec.getLsbD_of_ge v (i + s) (by omega)]

theorem getLsbD_eq {p : Nat → Prop} [DecidablePred p] {g : Nat → Nat}
    (h : Carries x (fun i => if p i then some (g i) else none) v) (hi : i < w) :
    v.getLsbD i = (decide (p i) && x.getLsbD (g i)) := by
  rw [h i hi]
  by_cases hp : p i <;> simp [hp]

end Carries
end Wiring
