import Mathlib.Algebra.Ring.Nat
import Mathlib.Data.List.Basic
import Mathlib.Data.List.Infix
import Mathlib.Data.List.Sort
import Mathlib.Data.String.Basic
import Plaza.Lib.Execution

-- Machine words as lists of bits, lowest first.
namespace Bits

variable {w v n m i : Nat} {x y : BitVec w} {bits tail : List Bool} {bytes bytes' : List (BitVec 8)}

-- The lowest `n` bits of a word.
def low (x : BitVec w) (n : Nat) : List Bool :=
  (List.range n).map x.getLsbD

-- The word whose lowest bits are the given ones.
def value (w : Nat) (bits : List Bool) : BitVec w :=
  (BitVec.ofBoolListLE bits).setWidth w

def ofBytes (bytes : List (BitVec 8)) : List Bool :=
  bytes.flatMap (low · 8)

-- The word with exactly its lowest `n` bits set.
def mask (w n : Nat) : BitVec w :=
  (1#w <<< n) - 1#w

theorem getLsbD_mask (h : n < w) : (mask w n).getLsbD i = decide (i < n) := by
  have hm : mask w n = BitVec.ofNat w (2 ^ n - 1) := by
    have hp : 2 ^ n < 2 ^ w := Nat.pow_lt_pow_right (by decide) h
    have h₁ : 1 ≤ 2 ^ n := Nat.one_le_two_pow
    apply BitVec.eq_of_toNat_eq
    rw [mask, BitVec.toNat_sub_of_le, BitVec.toNat_ofNat, BitVec.toNat_shiftLeft]
    · simp [Nat.shiftLeft_eq, Nat.mod_eq_of_lt hp, Nat.mod_eq_of_lt (by omega : 1 < 2 ^ w),
        Nat.mod_eq_of_lt (by omega : 2 ^ n - 1 < 2 ^ w)]
    · simp [BitVec.le_def, Nat.shiftLeft_eq, Nat.mod_eq_of_lt hp, Nat.mod_eq_of_lt (by omega : 1 < 2 ^ w)]
      omega
  rw [hm, BitVec.getLsbD_ofNat, Nat.testBit_two_pow_sub_one]
  by_cases hi : i < n <;> simp [hi]
  omega

@[simp]
theorem length_low : (low x n).length = n := by
  simp [low]

@[simp]
theorem low_zero : low x 0 = [] :=
  rfl

theorem getElem?_low : (low x n)[i]? = if i < n then some (x.getLsbD i) else none := by
  simp only [low, List.getElem?_map]
  split
  case isTrue h  => simp [List.getElem?_range h]
  case isFalse h => simp [h]

theorem low_congr {y : BitVec v} (h : ∀ i < n, x.getLsbD i = y.getLsbD i) : low x n = low y n := by
  apply List.map_congr_left
  intro i hi
  exact h i <| List.mem_range.mp hi

theorem low_eq_replicate (h : ∀ i < n, x.getLsbD i = false) : low x n = .replicate n false := by
  simp only [List.eq_replicate_iff, length_low, true_and]
  intro b hb
  have ⟨i, hi, hb⟩ := List.mem_map.mp hb
  exact hb ▸ h i (List.mem_range.mp hi)

-- A word is cut in two by a shift.
theorem low_add : low x (n + m) = low x n ++ low (x >>> n) m := by
  simp only [low, List.range_add, List.map_append, List.map_map]
  congr 1
  apply List.map_congr_left
  intro i _
  simp [BitVec.getLsbD_ushiftRight]

theorem getLsbD_value : (value w bits).getLsbD i = (decide (i < w) && bits.getD i false) := by
  simp [value, BitVec.getLsbD_setWidth]

@[simp]
theorem ofBytes_append : ofBytes (bytes ++ bytes') = ofBytes bytes ++ ofBytes bytes' :=
  List.flatMap_append

@[simp]
theorem ofBytes_singleton {b : BitVec 8} : ofBytes [b] = low b 8 := by
  simp [ofBytes]

@[simp]
theorem length_ofBytes : (ofBytes bytes).length = 8 * bytes.length := by
  induction bytes
  case nil => rfl
  case cons hi =>
    simp only [ofBytes, List.flatMap_cons, List.length_append, length_low, List.length_cons] at hi ⊢
    omega

theorem getElem?_ofBytes :
    (ofBytes bytes)[i]? = bytes[i / 8]?.map fun b => b.getLsbD (i % 8) := by
  induction bytes generalizing i
  case nil => simp
  case cons b bytes hi =>
    simp only [ofBytes, List.flatMap_cons] at hi ⊢
    rw [List.getElem?_append, length_low, getElem?_low]
    split
    case isTrue h  => simp [Nat.div_eq_of_lt h, Nat.mod_eq_of_lt h]
    case isFalse h =>
      have h₁ : i / 8 = (i - 8) / 8 + 1 := by omega
      have h₂ : i % 8 = (i - 8) % 8 := by omega
      rw [hi, h₁, h₂, List.getElem?_cons_succ]

end Bits

-- The positions at which a machine word has a one, lowest first, and the loop that takes them one by one.
namespace Ones

variable {w n i : Nat} {x : BitVec w} {α : Type*} {f : BitVec w → α} {out : List α}

def positions (x : BitVec w) : List Nat :=
  (List.range w).filter x.getLsbD

-- The word without its lowest one.
def drop (x : BitVec w) : BitVec w :=
  x &&& (x - 1)

theorem mem_positions : i ∈ positions x ↔ x.getLsbD i := by
  rw [positions, List.mem_filter, List.mem_range, and_iff_right_iff_imp]
  exact BitVec.lt_of_getLsbD

theorem positions_pairwise : (positions x).Pairwise (· < ·) :=
  List.pairwise_lt_range.filter _

theorem positions_zero : positions 0#w = [] :=
  List.filter_eq_nil_iff.mpr (by simp)

theorem lt_of_ne_zero (h : x ≠ 0) : x.ctz.toNat < w :=
  BitVec.lt_of_getLsbD (BitVec.getLsbD_true_ctz_of_ne_zero h)

-- Above its lowest one a word is any number.
theorem toNat_eq (h : x ≠ 0) : ∃ k, x.toNat = 2 ^ (x.ctz.toNat + 1) * k + 2 ^ x.ctz.toNat := by
  refine ⟨x.toNat / 2 ^ (x.ctz.toNat + 1), ?_⟩
  have hm : x.toNat % 2 ^ (x.ctz.toNat + 1) = 2 ^ x.ctz.toNat := by
    refine Nat.eq_of_testBit_eq fun i => ?_
    rw [Nat.testBit_mod_two_pow, Nat.testBit_two_pow, ← BitVec.getLsbD]
    rcases Nat.lt_trichotomy i x.ctz.toNat with hi | hi | hi
    · simp [BitVec.getLsbD_false_of_lt_ctz hi, hi.ne']
    · simp [hi, BitVec.getLsbD_true_ctz_of_ne_zero h]
    · simp [hi.ne, Nat.not_lt.mpr hi]
  rw [← hm, Nat.div_add_mod]

theorem getLsbD_drop (h : x ≠ 0) : (drop x).getLsbD i = (x.getLsbD i && decide (i ≠ x.ctz.toNat)) := by
  have ⟨k, hk⟩ := toNat_eq h
  have hp : 2 ^ x.ctz.toNat < 2 ^ (x.ctz.toNat + 1) := Nat.pow_lt_pow_succ (by decide)
  have h₁ : 1 ≤ 2 ^ x.ctz.toNat := Nat.one_le_two_pow
  have hs : (x - 1).toNat = 2 ^ (x.ctz.toNat + 1) * k + (2 ^ x.ctz.toNat - 1) := by
    have hw : 1 < 2 ^ w := Nat.one_lt_two_pow (Nat.ne_of_gt (Nat.zero_lt_of_lt (lt_of_ne_zero h)))
    have ho : (1 : BitVec w).toNat = 1 := by simpa using Nat.mod_eq_of_lt hw
    rw [BitVec.toNat_sub_of_le (by rw [BitVec.le_def]; omega), ho]
    omega
  rw [drop, BitVec.getLsbD_and, BitVec.getLsbD, BitVec.getLsbD, hs, hk,
    Nat.testBit_two_pow_mul_add _ hp, Nat.testBit_two_pow_mul_add _ (by omega), Nat.testBit_two_pow,
    Nat.testBit_two_pow_sub_one]
  split
  case isTrue hi  =>
    by_cases he : i = x.ctz.toNat
    case pos => simp [he]
    case neg => simp [he, Ne.symm he]
  case isFalse hi => simp [show i ≠ x.ctz.toNat by omega]

theorem positions_of_ne_zero (h : x ≠ 0) : positions x = x.ctz.toNat :: positions (drop x) := by
  refine positions_pairwise.eq_of_mem_iff ?_ fun i => ?_
  case refine_1 =>
    refine List.pairwise_cons.mpr ⟨fun i hi => ?_, positions_pairwise⟩
    have hi := mem_positions.mp hi
    rw [getLsbD_drop h, Bool.and_eq_true, decide_eq_true_eq] at hi
    refine Nat.lt_of_le_of_ne (Nat.le_of_not_lt fun hl => ?_) hi.right.symm
    rw [BitVec.getLsbD_false_of_lt_ctz hl] at hi
    cases hi.left
  case refine_2 =>
    rw [List.mem_cons, mem_positions, mem_positions, getLsbD_drop h, Bool.and_eq_true, decide_eq_true_eq]
    by_cases hi : i = x.ctz.toNat
    case pos => simp [hi, BitVec.getLsbD_true_ctz_of_ne_zero h]
    case neg => simp [hi]

-- Takes the lowest one out of the word and puts what it stands for to the others.
def loop (f : BitVec w → α) : Loop (BitVec w × List α) where
  body s := if s.fst ≠ 0 then some (drop s.fst, s.snd ++ [f s.fst.ctz]) else none

-- A word has no more ones than bits, so that the loop has ended after as many rounds.
theorem run_loop (h : (positions x).length ≤ n) :
    (loop f).run n (x, out) = (0, out ++ (positions x).map (f <| .ofNat w ·)) := by
  induction n generalizing x out
  case zero =>
    have hx : x = 0 := by
      by_contra hx
      rw [positions_of_ne_zero hx] at h
      simp at h
    simp [hx, Loop.run, positions_zero]
  case succ n ih =>
    by_cases hx : x = 0
    case pos => simp [hx, Loop.run, loop, positions_zero]
    case neg =>
      have hp := positions_of_ne_zero hx
      rw [hp, List.length_cons] at h
      simp only [Loop.run, loop, ne_eq, hx, not_false_eq_true, ↓reduceIte]
      refine (ih (Nat.le_of_succ_le_succ h)).trans ?_
      simp [hp]

theorem length_positions_le : (positions x).length ≤ w :=
  (List.length_filter_le ..).trans_eq (List.length_range ..)

theorem cpopNatRec_eq (acc : Nat) : x.cpopNatRec n acc = acc + ((List.range n).filter x.getLsbD).length := by
  induction n generalizing acc
  case zero      => rfl
  case succ n ih =>
    rw [BitVec.cpopNatRec_succ, ih, List.range_succ, List.filter_append, List.length_append]
    cases h : x.getLsbD n <;> simp [h, Nat.add_assoc, Nat.add_comm 1]

theorem length_positions : (positions x).length = x.cpop.toNat := by
  rw [BitVec.toNat_cpop, cpopNatRec_eq, Nat.zero_add, positions]

end Ones

-- Numbers as bytes, the most significant byte first.
namespace BigEndian

variable {width n : Nat} {b : UInt8} {bs : List UInt8}

-- The lowest bytes of a number, as many as are asked for.
def bytes : Nat → Nat → List UInt8
  | 0,         _ => []
  | width + 1, n => .ofNat (n / 256 ^ width) :: bytes width n

def value (bs : List UInt8) : Nat :=
  bs.foldl (fun n b => n * 256 + b.toNat) 0

@[simp]
theorem length_bytes : (bytes width n).length = width := by
  induction width
  case zero          => rfl
  case succ width hi => rw [bytes, List.length_cons, hi]

theorem foldl_eq (n : Nat) : bs.foldl (fun n b => n * 256 + b.toNat) n = n * 256 ^ bs.length + value bs := by
  induction bs generalizing n
  case nil             => simp [value]
  case cons b bs hi =>
    rw [value, List.foldl_cons, List.foldl_cons, hi, hi (0 * 256 + b.toNat), List.length_cons, Nat.pow_succ]
    grind

theorem value_cons : value (b :: bs) = b.toNat * 256 ^ bs.length + value bs := by
  rw [value, List.foldl_cons, foldl_eq, Nat.zero_mul, Nat.zero_add]

theorem value_bytes : value (bytes width n) = n % 256 ^ width := by
  induction width
  case zero          => simp [bytes, value, Nat.mod_one]
  case succ width hi =>
    have hp : 256 ^ (width + 1) = 256 ^ width * 256 := Nat.pow_succ ..
    rw [bytes, value_cons, hi, length_bytes, UInt8.toNat_ofNat', hp, Nat.mod_mul, Nat.add_comm, Nat.mul_comm]

theorem value_bytes_of_lt (h : n < 256 ^ width) : value (bytes width n) = n := by
  rw [value_bytes, Nat.mod_eq_of_lt h]

theorem bytes_congr {m : Nat} (h : n % 256 ^ width = m % 256 ^ width) : bytes width n = bytes width m := by
  induction width
  case zero          => rfl
  case succ width hi =>
    rw [Nat.pow_succ] at h
    have hd : n / 256 ^ width % 256 = m / 256 ^ width % 256 := by
      rw [←Nat.mod_mul_right_div_self, h, Nat.mod_mul_right_div_self]
    have hm : n % 256 ^ width = m % 256 ^ width := by
      rw [←Nat.mod_mul_right_mod n (256 ^ width) 256, h, Nat.mod_mul_right_mod]
    rw [bytes, bytes, hi hm]
    congr 1
    apply UInt8.toNat_inj.mp
    rwa [UInt8.toNat_ofNat', UInt8.toNat_ofNat']

end BigEndian

-- The encoding of strings by the library of Dart. A string of Lean has no lone surrogates.
namespace Dart

variable {s : String}

def utf8Encode (s : String) : List UInt8 :=
  s.toUTF8.data.toList

-- The string starts with a byte order mark.
def Marked (s : String) : Prop :=
  s.toList.head? = some '\uFEFF'

instance : DecidablePred Marked :=
  fun s => inferInstanceAs (Decidable (s.toList.head? = some '\uFEFF'))

def dropMark (s : String) : String :=
  if Marked s then .ofList s.toList.tail else s

-- Decoding takes a byte order mark at the start as part of the encoding, and discards it. There is no string
-- for malformed bytes.
def utf8Decode (bytes : List UInt8) : Option String :=
  String.fromUTF8? ⟨bytes.toArray⟩ |>.map dropMark

theorem utf8Decode_utf8Encode : utf8Decode (utf8Encode s) = some (dropMark s) := by
  have hs : String.fromUTF8? ⟨(utf8Encode s).toArray⟩ = some s := by
    simp [utf8Encode, String.fromUTF8?, String.toUTF8, String.fromUTF8, s.isValidUTF8]
  rw [utf8Decode, hs, Option.map_some]

theorem dropMark_of_not_marked (h : ¬Marked s) : dropMark s = s :=
  if_neg h

theorem length_dropMark_lt (h : Marked s) : (dropMark s).length < s.length := by
  have hl : s.toList ≠ [] := fun hn => by rw [Marked, hn] at h; nomatch h
  have hp := List.length_pos_iff.mpr hl
  rw [dropMark, if_pos h, String.length_ofList, List.length_tail, ←String.length_toList]
  omega

theorem length_dropMark_le : (dropMark s).length ≤ s.length := by
  by_cases h : Marked s
  case pos => exact (length_dropMark_lt h).le
  case neg => rw [dropMark_of_not_marked h]

end Dart

-- A code of which no word is the beginning of another word, so that a stream of words has but one
-- reading.
def PrefixCode {α β : Type*} (encode : α → List β) (V : α → Prop) : Prop :=
  ∀ {a b x y}, V a → V b → encode a ++ x = encode b ++ y → a = b

namespace PrefixCode

variable {α β : Type*} {encode : α → List β} {V : α → Prop} {as bs : List α} {x y tail : List β}

-- Two readings of one stream agree as far as both of them go. What the longer one reads on is what the
-- shorter one has left over.
theorem comparable (hc : PrefixCode encode V) (ha : ∀ a ∈ as, V a) (hb : ∀ b ∈ bs, V b)
    (h : as.flatMap encode ++ x = bs.flatMap encode ++ y) :
    (∃ more, bs = as ++ more ∧ x = more.flatMap encode ++ y) ∨
    (∃ more, as = bs ++ more ∧ y = more.flatMap encode ++ x) := by
  induction as generalizing bs
  case nil => exact .inl ⟨bs, rfl, h⟩
  case cons a as hi =>
    cases bs
    case nil => exact .inr ⟨a :: as, rfl, h.symm⟩
    case cons b bs =>
      simp only [List.flatMap_cons, List.append_assoc] at h
      cases hc (ha a (.head _)) (hb b (.head _)) h
      have ha a (h : a ∈ as) := ha a (.tail _ h)
      have hb b (h : b ∈ bs) := hb b (.tail _ h)
      cases hi ha hb (List.append_cancel_left h)
      case inl h => exact .inl <| h.imp fun _ h => ⟨congrArg _ h.left, h.right⟩
      case inr h => exact .inr <| h.imp fun _ h => ⟨congrArg _ h.left, h.right⟩

-- What has been read from the start of a stream are the first of its words, provided that no further word
-- can be read from what follows the last one.
theorem reads_prefix (hc : PrefixCode encode V) (ha : ∀ a ∈ as, V a) (hb : ∀ b ∈ bs, V b)
    (ht : ∀ a, V a → ¬encode a <+: tail) (h : as.flatMap encode ++ x <+: bs.flatMap encode ++ tail) :
    ∃ more, bs = as ++ more ∧ x <+: more.flatMap encode ++ tail := by
  have ⟨y, h⟩ := h
  rw [List.append_assoc] at h
  cases hc.comparable ha hb h
  case inl h =>
    have ⟨more, hm, h⟩ := h
    exact ⟨more, hm, y, h⟩
  case inr h =>
    have ⟨more, hm, h⟩ := h
    cases more
    case nil =>
      refine ⟨[], by simpa using hm.symm, ?_⟩
      exact ⟨y, by simpa using h.symm⟩
    case cons a more =>
      refine absurd ?_ (ht a <| ha a <| by simp [hm])
      exact ⟨more.flatMap encode ++ (x ++ y), by simp [h]⟩

end PrefixCode
