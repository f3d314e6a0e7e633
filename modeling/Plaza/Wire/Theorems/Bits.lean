import Plaza.Wire.Bits

open Bits

namespace Plaza.Wire

variable {α β : Type*} {l l' tl : List Bool} {n m take left rounds : Nat} {value : BitVec 64} {b : Bool}

theorem checkWidth_ok (h : 0 < n ∧ n ≤ maxBits) : checkWidth n = .ok () := by
  rw [checkWidth, if_neg]
  omega

-- The bits of a nibble varint.
def groups : Nat → BitVec 64 → List Bool
  | 0,          _     => []
  | rounds + 1, value =>
    low value 4 ++ ([decide (value >>> 4 ≠ 0)] ++
      if value >>> 4 = 0 then [] else groups rounds (value >>> 4))

-- The bits that a field has on the wire.
def Field.encoding : Field → List Bool
  | .bits value width   => low value width
  | .bool value         => [value]
  | .varint value       => groups 16 value
  | .signedVarint value => groups 16 (zigzag value)

namespace BitWriter

variable {w : BitWriter} {res : Except BitError BitWriter} {f : BitWriter → Except BitError BitWriter}

def written (w : BitWriter) : List Bool :=
  ofBytes w.bytes ++ low w.partialByte w.pending

-- Nothing is set above the pending bits.
def Clean (w : BitWriter) : Prop :=
  ∀ i, w.pending ≤ i → w.partialByte.getLsbD i = false

-- The byte being filled, once it has taken up more bits.
theorem getLsbD_filled (ht : take ≤ 8 - w.pending) (i : Nat) :
    (w.partialByte ||| ((value &&& mask 64 take).setWidth 8 <<< w.pending)).getLsbD i =
      (w.partialByte.getLsbD i ||
        (decide (w.pending ≤ i ∧ i < w.pending + take) && value.getLsbD (i - w.pending))) := by
  have hp := w.pending_lt
  simp only [BitVec.getLsbD_or, BitVec.getLsbD_shiftLeft, BitVec.getLsbD_setWidth, BitVec.getLsbD_and]
  rw [getLsbD_mask (by omega)]
  congr 1
  by_cases h : w.pending ≤ i ∧ i < w.pending + take
  case pos =>
    have h₁ : i < 8 := by omega
    have h₂ : i - w.pending < take := by omega
    have h₃ : i - w.pending < 8 := by omega
    simp [h, h₁, h₂, h₃, Nat.not_lt_of_le h.left]
  case neg =>
    have h' : i < w.pending ∨ ¬i - w.pending < take := by omega
    cases h' <;> simp [*]

theorem put_spec (hc : w.Clean) (value : BitVec 64) (ht : take ≤ 8 - w.pending) :
    (w.put value take).Clean ∧ (w.put value take).written = w.written ++ low value take := by
  have hp := w.pending_lt
  have hl : low (w.partialByte ||| ((value &&& mask 64 take).setWidth 8 <<< w.pending))
      (w.pending + take) = low w.partialByte w.pending ++ low value take := by
    rw [low_add]
    congr 1
    · apply low_congr
      intro i hi
      rw [getLsbD_filled ht]
      simp [Nat.not_le_of_lt hi]
    · apply low_congr
      intro i hi
      rw [BitVec.getLsbD_ushiftRight, getLsbD_filled ht, hc _ (Nat.le_add_right ..)]
      simp [hi]
  simp only [put]
  split
  case isTrue =>
    refine ⟨fun i hi => ?_, ?_⟩
    case refine_1 =>
      have hi : w.pending + take ≤ i := hi
      rw [getLsbD_filled ht, hc i (by omega)]
      simp; omega
    case refine_2 => simp only [written, hl, List.append_assoc]
  case isFalse h =>
    have he : w.pending + take = 8 := by omega
    refine ⟨fun i _ => by simp, ?_⟩
    simp only [written, ofBytes_append, ofBytes_singleton, low_zero, List.append_nil, ←he, hl,
      List.append_assoc]

theorem putAll_spec (hc : w.Clean) (value : BitVec 64) (hl : left ≤ rounds) :
    (putAll rounds w value left).Clean ∧ (putAll rounds w value left).written = w.written ++ low value left := by
  induction rounds generalizing w value left
  case zero =>
    have : left = 0 := by omega
    simp [putAll, this, hc]
  case succ rounds hi =>
    rw [putAll]
    split
    case isTrue h => simp [h, hc]
    case isFalse h =>
      have hp := w.pending_lt
      have ht : min left (8 - w.pending) + (left - min left (8 - w.pending)) = left := by omega
      have ⟨hc, hw⟩ := put_spec hc value (Nat.min_le_right left _)
      have hl' : left - min left (8 - w.pending) ≤ rounds := by omega
      have ⟨hc, hw'⟩ := hi hc (value >>> min left (8 - w.pending)) hl'
      refine ⟨hc, ?_⟩
      rw [hw', hw, List.append_assoc, ←low_add, ht]

-- The write succeeds and appends the given bits.
structure Writes (w : BitWriter) (res : Except BitError BitWriter) (l : List Bool) : Prop where
  ok : ∃ w', res = .ok w' ∧ w'.Clean ∧ w'.written = w.written ++ l

theorem Writes.bind (h : Writes w res l) (hf : ∀ w', w'.Clean → Writes w' (f w') l') :
    Writes w (res >>= f) (l ++ l') := by
  have ⟨w₁, h₁, hc₁, hw₁⟩ := h.ok
  have ⟨w₂, h₂, hc₂, hw₂⟩ := hf w₁ hc₁ |>.ok
  exact ⟨w₂, h₁ ▸ h₂, hc₂, by rw [hw₂, hw₁, List.append_assoc]⟩

theorem Writes.pure (hc : w.Clean) : Writes w (.ok w) [] :=
  ⟨w, rfl, hc, (List.append_nil _).symm⟩

theorem bits_writes (hc : w.Clean) (value : BitVec 64) (hn : 0 < n ∧ n ≤ maxBits) :
    Writes w (w.bits value n) (low value n) := by
  have hl : low (if n = maxBits then value else value &&& mask 64 n) n = low value n := by
    apply low_congr
    intro i hi
    split <;> [rfl; skip]
    rw [BitVec.getLsbD_and, getLsbD_mask (by simp only [maxBits] at *; omega)]
    simp [hi]
  have ⟨hc, hw⟩ := putAll_spec hc (if n = maxBits then value else value &&& mask 64 n) (Nat.le_refl n)
  refine ⟨_, ?_, hc, hl ▸ hw⟩
  rw [bits, checkWidth_ok hn]
  rfl

theorem bool_writes (hc : w.Clean) (value : Bool) : Writes w (w.bool value) [value] := by
  have h := bits_writes hc (if value then 1 else 0) (n := 1) (by decide)
  have : low (if value then 1 else 0 : BitVec 64) 1 = [value] := by cases value <;> rfl
  exact this ▸ h

theorem low_nibble : low (value &&& 0xf) 4 = low value 4 := by
  have h : ∀ i < 4, (0xf : BitVec 64).getLsbD i := by decide
  apply low_congr
  intro i hi
  rw [BitVec.getLsbD_and, h i hi, Bool.and_true]

theorem varintGroups_writes (hc : w.Clean) (rounds : Nat) (value : BitVec 64) :
    Writes w (varintGroups rounds w value) (groups rounds value) := by
  induction rounds generalizing w value
  case zero => exact .pure hc
  case succ rounds hi =>
    rw [groups, ←low_nibble]
    apply (bits_writes hc _ (by decide)).bind
    intro w hc
    apply (bool_writes hc _).bind
    intro w hc
    split <;> [exact .pure hc; exact hi hc _]

theorem varint_writes (hc : w.Clean) (value : BitVec 64) :
    Writes w (w.varint value) (groups 16 value) :=
  varintGroups_writes hc 16 value

theorem field_writes (hc : w.Clean) (field : Field) : Writes w (w.field field) field.encoding := by
  cases field
  case bits value width   => exact bits_writes hc value width.property
  case bool value         => exact bool_writes hc value
  case varint value       => exact varint_writes hc value
  case signedVarint value => exact varint_writes hc (zigzag value)

theorem fields_writes (hc : w.Clean) (fields : List Field) :
    Writes w (w.fields fields) (fields.flatMap Field.encoding) := by
  induction fields generalizing w
  case nil => exact .pure hc
  case cons field fields hi =>
    rw [BitWriter.fields, List.foldlM_cons, List.flatMap_cons]
    exact (field_writes hc field).bind fun _ => hi

-- A finished payload is padded with less than a byte of zeros.
theorem finish_bits (hc : w.Clean) :
    ∃ pad < 8, ofBytes w.finish = w.written ++ .replicate pad false := by
  have hp := w.pending_lt
  unfold finish written
  split
  case isFalse h =>
    have : w.pending = 0 := by omega
    exact ⟨0, by decide, by simp [this]⟩
  case isTrue =>
    refine ⟨8 - w.pending, by omega, ?_⟩
    have hz : low (w.partialByte >>> w.pending) (8 - w.pending) = .replicate (8 - w.pending) false :=
      low_eq_replicate fun i _ => by rw [BitVec.getLsbD_ushiftRight, hc _ (Nat.le_add_right ..)]
    have he : w.pending + (8 - w.pending) = 8 := by omega
    rw [ofBytes_append, ofBytes_singleton, List.append_assoc, ←hz, ←low_add, he]

end BitWriter

theorem payload_ok (fields : List Field) :
    ∃ bytes, payload fields = .ok bytes ∧ ∃ pad < 8,
      ofBytes bytes = fields.flatMap Field.encoding ++ .replicate pad false := by
  have ⟨w, h, hc, hw⟩ := BitWriter.fields_writes (w := .new) (fun i _ => by simp [BitWriter.new]) fields |>.ok
  have ⟨pad, hp, hb⟩ := BitWriter.finish_bits hc
  refine ⟨w.finish, by rw [payload, h]; rfl, pad, hp, ?_⟩
  rw [hb, hw]
  rfl

end Plaza.Wire

open Bits

namespace Plaza.Wire

variable {α β : Type} {a : α} {c : β} {l l' tl : List Bool} {n m i taken bits rounds : Nat}
  {value : BitVec 64} {b : Bool}

-- Every bit of a sign, shifted all the way down.
theorem getLsbD_sign (value : BitVec 64) (hi : i < 64) : (value.sshiftRight 63).getLsbD i = value.msb := by
  rw [BitVec.getLsbD_sshiftRight, BitVec.msb_eq_getLsbD_last]
  by_cases h : i = 0
  case pos => simp [h]
  case neg =>
    have : ¬63 + i < 64 := by omega
    simp [this, Nat.not_le_of_lt hi]

theorem getLsbD_zigzag (value : BitVec 64) (hi : i < 64) :
    (zigzag value).getLsbD i = (decide (0 < i) && value.getLsbD (i - 1) ^^ value.msb) := by
  rw [zigzag, BitVec.getLsbD_xor, BitVec.getLsbD_shiftLeft, getLsbD_sign value hi]
  cases i <;> simp [hi]

theorem getLsbD_neg_zigzag (value : BitVec 64) (hi : i < 64) :
    (-(zigzag value &&& 1)).getLsbD i = value.msb := by
  have h : zigzag value &&& 1 = if value.msb then 1 else 0 := by
    apply BitVec.eq_of_getLsbD_eq
    intro i hi
    rw [BitVec.getLsbD_and, getLsbD_zigzag value hi]
    cases i <;> cases value.msb <;> simp
  have hn : -(1 : BitVec 64) = .allOnes 64 := by decide
  rw [h]
  cases value.msb
  case false => simp
  case true  => rw [if_pos rfl, hn, BitVec.getLsbD_allOnes, decide_eq_true hi]

theorem unzigzag_zigzag (value : BitVec 64) : unzigzag (zigzag value) = value := by
  apply BitVec.eq_of_getLsbD_eq
  intro i hi
  rw [unzigzag, BitVec.getLsbD_xor, BitVec.getLsbD_ushiftRight, getLsbD_neg_zigzag value hi]
  by_cases h : i = 63
  case pos => simp [h, BitVec.msb_eq_getLsbD_last]
  case neg =>
    have h₀ : 0 < 1 + i := by omega
    rw [getLsbD_zigzag value (by omega), Nat.add_sub_cancel_left, decide_eq_true h₀, Bool.true_and,
      Bool.xor_assoc, Bool.xor_self, Bool.xor_false]

-- A value is the nibble that a group holds, and the groups above it.
theorem nibble_or_groups (value : BitVec 64) (shift : Nat) :
    (Bits.value 64 (low value 4) <<< shift) ||| ((value >>> 4) <<< (shift + 4)) = value <<< shift := by
  apply BitVec.eq_of_getLsbD_eq
  intro i hi
  simp only [BitVec.getLsbD_or, BitVec.getLsbD_shiftLeft, BitVec.getLsbD_ushiftRight, getLsbD_value,
    List.getD_eq_getElem?_getD, getElem?_low]
  by_cases hs : i < shift
  case pos =>
    have : ¬shift + 4 ≤ i := by omega
    simp [hs, this]
  case neg =>
    by_cases h₄ : i < shift + 4
    case pos =>
      have h₁ : i - shift < 4 := by omega
      have h₂ : i - shift < 64 := by omega
      simp [hi, hs, h₁, h₂, h₄]
    case neg =>
      have h₁ : ¬i - shift < 4 := by omega
      have h₂ : 4 + (i - (shift + 4)) = i - shift := by omega
      simp [hi, hs, h₁, h₂, h₄]

namespace BitReader

variable {r : BitReader}

-- The bits that are still to be read.
def rest (r : BitReader) : List Bool :=
  (ofBytes r.bytes).drop r.cursor

def skip (r : BitReader) (n : Nat) : BitReader :=
  { r with cursor := r.cursor + n }

theorem length_rest : r.rest.length = r.bytes.length * 8 - r.cursor := by
  simp [rest, Nat.mul_comm]

@[simp]
theorem skip_skip : (r.skip n).skip m = r.skip (n + m) := by
  simp [skip, Nat.add_assoc]

theorem rest_skip (h : r.rest = l ++ tl) : (r.skip l.length).rest = tl := by
  have : (r.skip l.length).rest = r.rest.drop l.length := by simp [rest, skip]
  rw [this, h, List.drop_left]

theorem getLsbD_byte (h : n % 8 + i < 8) (bytes : List (BitVec 8)) :
    (bytes.getD (n / 8) 0).getLsbD (n % 8 + i) = (ofBytes bytes).getD (n + i) false := by
  have h₁ : (n + i) / 8 = n / 8 := by omega
  have h₂ : (n + i) % 8 = n % 8 + i := by omega
  rw [List.getD_eq_getElem?_getD, List.getD_eq_getElem?_getD, getElem?_ofBytes, h₁, h₂]
  cases bytes[n / 8]? <;> simp

-- What one round of `bits` takes out of a byte.
theorem getLsbD_chunk {byte : BitVec 8} {offset want : Nat} (hw : offset + want ≤ 8) :
    ((((byte >>> offset) &&& if want = 8 then 0xff else (mask 16 want).setWidth 8).setWidth 64 :
        BitVec 64).getLsbD i) = (decide (i < want) && byte.getLsbD (offset + i)) := by
  have hm : (if want = 8 then 0xff else (mask 16 want).setWidth 8 : BitVec 8).getLsbD i =
      decide (i < want) := by
    split
    case isTrue h =>
      have h₁ : ∀ j < 8, (0xff : BitVec 8).getLsbD j := by decide
      rw [h]
      by_cases hi : i < 8
      case pos => rw [h₁ i hi, decide_eq_true hi]
      case neg => simp [hi, BitVec.getLsbD_of_ge _ i (Nat.le_of_not_lt hi)]
    case isFalse =>
      rw [BitVec.getLsbD_setWidth, getLsbD_mask (by omega)]
      by_cases hi : i < want <;> simp [hi]
      omega
  rw [BitVec.getLsbD_setWidth, BitVec.getLsbD_and, hm, BitVec.getLsbD_ushiftRight]
  by_cases hi : i < want <;> simp [hi]
  omega

theorem getD_take_drop {start : Nat} :
    ((l.drop start).take n).getD i false = (decide (i < n) && l.getD (start + i) false) := by
  simp only [List.getD_eq_getElem?_getD, List.getElem?_take, List.getElem?_drop]
  split <;> simp [*]

-- The word that the loop of `bits` has put together from the first `taken` bits at `start`.
def Took (r : BitReader) (start taken : Nat) (out : BitVec 64) : Prop :=
  ∀ i < 64, out.getLsbD i = (decide (i < taken) && (ofBytes r.bytes).getD (start + i) false)

theorem Took.eq_value {start : Nat} {out : BitVec 64} (h : Took r start taken out) :
    out = Bits.value 64 (((ofBytes r.bytes).drop start).take taken) := by
  apply BitVec.eq_of_getLsbD_eq
  intro i hi
  rw [h i hi, getLsbD_value, getD_take_drop]
  simp [hi]

theorem Took.round {start want : Nat} {out : BitVec 64} (h : Took r start taken out)
    (hc : r.cursor = start + taken) (hw : r.cursor % 8 + want ≤ 8) :
    Took r start (taken + want)
      (out ||| ((((r.bytes.getD (r.cursor / 8) 0 >>> (r.cursor % 8)) &&&
        if want = 8 then 0xff else (mask 16 want).setWidth 8).setWidth 64 : BitVec 64) <<< taken)) := by
  intro i hi
  rw [BitVec.getLsbD_or, h i hi, BitVec.getLsbD_shiftLeft, getLsbD_chunk hw]
  by_cases ht : i < taken
  case pos => simp [ht, Nat.lt_add_right want ht]
  case neg =>
    by_cases hb : i < taken + want
    case neg =>
      have : ¬i - taken < want := by omega
      simp [ht, hb, this]
    case pos =>
      have h₁ : i - taken < want := by omega
      have h₂ : r.cursor + (i - taken) = start + i := by omega
      rw [getLsbD_byte (by omega), h₂]
      simp [ht, hi, h₁, hb]

theorem takeAll_eq {start : Nat} {out : BitVec 64} (h : Took r start taken out) (ht : taken ≤ bits)
    (hc : r.cursor = start + taken) (hr : bits ≤ taken + rounds) :
    takeAll rounds r out taken bits =
      (Bits.value 64 (((ofBytes r.bytes).drop start).take bits), { r with cursor := start + bits }) := by
  induction rounds generalizing r taken out
  case zero =>
    have he : taken = bits := by omega
    rw [takeAll, ←he, ←h.eq_value, ←hc]
  case succ rounds hi =>
    rw [takeAll]
    split
    case isFalse =>
      have he : taken = bits := by omega
      rw [←he, ←h.eq_value, ←hc]
    case isTrue =>
      have hw : r.cursor % 8 + min (bits - taken) (8 - r.cursor % 8) ≤ 8 := by omega
      exact hi (h.round hc hw) (by omega) (by simp only; omega) (by omega)

theorem bits_eq (hn : 0 < n ∧ n ≤ maxBits) :
    r.bits n = if r.bitsLeft < n then .error (.underrun n r.bitsLeft)
      else .ok (Bits.value 64 (r.rest.take n), r.skip n) := by
  rw [BitReader.bits, checkWidth_ok hn]
  have h : Took r r.cursor 0 0 := fun i _ => by simp
  rw [takeAll_eq h (Nat.zero_le _) rfl (by omega)]
  rfl

-- The reader's count of what is left is not cut off.
def Free (r : BitReader) : Prop :=
  r.rest.length < 2 ^ 32

-- A read that takes `n` bits and yields `a`. It succeeds if the count is right. If the count is cut
-- off, then the read may succeed, but it cannot come to a point from which the count is right.
structure Reads (r : BitReader) (res : Except BitError (α × BitReader)) (a : α) (n : Nat) : Prop where
  free : r.Free → res = .ok (a, r.skip n)
  only : ∀ x, res = .ok x → x = (a, r.skip n) ∧ (¬r.Free → ¬(r.skip n).Free)

theorem Free.skip (h : r.Free) : (r.skip n).Free := by
  simp only [Free, length_rest, BitReader.skip] at h ⊢
  omega

-- The number of bits that `bitsLeft` cuts off is a multiple of what it can count.
theorem bitsLeft_skip (h : n ≤ r.bitsLeft) : (r.skip n).bitsLeft = r.bitsLeft - n := by
  simp only [bitsLeft, skip] at h ⊢
  omega

-- A read that takes `n` bits and yields `a`. It succeeds exactly if so many are counted.
structure Takes {ε : Type} (r : BitReader) (res : Except ε (α × BitReader)) (a : α) (n : Nat) : Prop where
  ok   : n ≤ r.bitsLeft → res = .ok (a, r.skip n)
  only : ∀ x, res = .ok x → x = (a, r.skip n) ∧ n ≤ r.bitsLeft

namespace Takes

variable {ε : Type} {res : Except ε (α × BitReader)} {f : α × BitReader → Except ε (β × BitReader)}

theorem pure : Takes (ε := ε) r (Pure.pure (a, r)) a 0 where
  ok _     := rfl
  only _ h := ⟨(Except.ok.inj h).symm, Nat.zero_le _⟩

theorem bind (h : Takes r res a n) (hf : Takes (r.skip n) (f (a, r.skip n)) c m) :
    Takes r (res >>= f) c (n + m) where
  ok hl := by
    have hn : n ≤ r.bitsLeft := Nat.le_of_add_right_le hl
    have hm : m ≤ (r.skip n).bitsLeft := by
      rw [bitsLeft_skip hn]
      omega
    rw [h.ok hn, ←skip_skip]
    exact hf.ok hm
  only x hx := by
    cases res
    case error => cases hx
    case ok y =>
      have ⟨hy, hn⟩ := h.only y rfl
      subst hy
      have ⟨hx, hm⟩ := hf.only x hx
      rw [bitsLeft_skip hn] at hm
      exact skip_skip ▸ ⟨hx, by omega⟩

theorem map (h : Takes r res a n) (hf : f (a, r.skip n) = .ok (c, r.skip n)) : Takes r (res >>= f) c n := by
  have hp : Takes (r.skip n) (f (a, r.skip n)) c 0 := by
    rw [hf]
    exact pure
  exact h.bind hp

theorem reads {res : Except BitError (α × BitReader)} (h : Takes r res a n) (hn : n ≤ r.rest.length) :
    Reads r res a n where
  free hf := by
    refine h.ok ?_
    simp only [Free, length_rest] at hf hn
    rw [bitsLeft, Nat.mod_eq_of_lt hf]
    exact hn
  only x hx := by
    have ⟨hx, hl⟩ := h.only x hx
    refine ⟨hx, fun hf => ?_⟩
    simp only [Free, length_rest, bitsLeft, skip] at hf hl ⊢
    omega

end Takes

theorem bits_takes (hn : 0 < n ∧ n ≤ maxBits) (hr : r.rest = l ++ tl) (hl : l.length = n) :
    Takes r (r.bits n) (Bits.value 64 l) n := by
  have ht : r.rest.take n = l := by rw [hr, ←hl, List.take_left]
  rw [bits_eq hn, ht]
  constructor
  case ok => exact fun h => if_neg (Nat.not_lt.mpr h)
  case only =>
    intro x hx
    split at hx <;> cases hx
    case isFalse h => exact ⟨rfl, Nat.not_lt.mp h⟩

theorem bool_takes (hr : r.rest = [b] ++ tl) : Takes r r.bool b 1 :=
  (bits_takes (n := 1) ⟨by decide, by decide⟩ hr rfl).map <| by cases b <;> rfl

-- The groups of a value which has no bits above its `rounds` nibbles.
theorem varintGroups_takes {rounds : Nat} (fuel : Nat) (value out : BitVec 64) (shift : Nat)
    (hr : r.rest = groups rounds value ++ tl) (h₀ : 0 < rounds) (hv : value >>> (4 * rounds) = 0)
    (hs : shift + 4 * rounds ≤ maxBits) (hf : (groups rounds value).length ≤ fuel) :
    Takes r (varintGroups fuel r out shift) (out ||| (value <<< shift)) (groups rounds value).length := by
  induction rounds generalizing r value out shift fuel
  case zero => exact absurd h₀ (by decide)
  case succ rounds hi =>
    rw [groups, List.append_assoc] at hr
    rw [groups, List.length_append, length_low] at hf
    rw [groups, List.length_append, length_low, List.length_append, List.length_singleton]
    cases fuel
    case zero => omega
    case succ fuel =>
      have hnibble := bits_takes (n := 4) (by decide) hr length_low
      have hr := rest_skip hr
      rw [length_low, List.append_assoc] at hr
      have hmore := bool_takes hr
      have hr := rest_skip hr
      refine hnibble.bind ?_
      simp only [if_pos (show shift < maxBits by omega)]
      refine hmore.bind ?_
      rw [←nibble_or_groups value, ←BitVec.or_assoc]
      by_cases hz : value >>> 4 = 0
      case pos => simpa [hz] using Takes.pure
      case neg =>
        simp only [hz, ne_eq, not_false_eq_true, decide_true, if_true, if_false] at hr hf ⊢
        have hv : value >>> 4 >>> (4 * rounds) = 0 := by
          rw [←BitVec.shiftRight_add]
          exact (by omega : 4 * (rounds + 1) = 4 + 4 * rounds) ▸ hv
        have h₀ : 0 < rounds := Nat.pos_of_ne_zero fun h => hz <| by simpa [h] using hv
        refine hi _ _ _ _ hr h₀ hv (by omega) ?_
        simp only [List.length_append, List.length_singleton] at hf
        omega

theorem varint_takes (hr : r.rest = groups 16 value ++ tl) :
    Takes r r.varint value (groups 16 value).length := by
  have hv : value >>> (4 * 16) = 0 := BitVec.ushiftRight_eq_zero (by decide)
  have hl := congrArg List.length hr
  rw [length_rest, List.length_append] at hl
  have h := varintGroups_takes (r.bytes.length * 8 + 1) value 0 0 hr (by decide) hv (by decide) (by omega)
  simpa [varint] using h

theorem signedVarint_takes (hr : r.rest = groups 16 (zigzag value) ++ tl) :
    Takes r r.signedVarint value (groups 16 (zigzag value)).length := by
  have h : Takes r r.signedVarint (unzigzag (zigzag value)) (groups 16 (zigzag value)).length :=
    (varint_takes hr).map rfl
  rwa [unzigzag_zigzag] at h

-- Only the bits at the width of a field are read back.
theorem value_low_width (value : BitVec 64) (hn : n ≤ maxBits) :
    Bits.value 64 (low value n) = if n = maxBits then value else value &&& mask 64 n := by
  apply BitVec.eq_of_getLsbD_eq
  intro i hi
  rw [getLsbD_value, List.getD_eq_getElem?_getD, getElem?_low]
  by_cases h : n = maxBits
  case pos =>
    have : i < n := by simp only [maxBits] at h; omega
    rw [if_pos h]
    simp [hi, this]
  case neg =>
    rw [if_neg h, BitVec.getLsbD_and, getLsbD_mask (by simp only [maxBits] at *; omega)]
    by_cases hn : i < n <;> simp [hi, hn]

theorem field_takes (field : Field) (hr : r.rest = field.encoding ++ tl) :
    Takes r (r.field field.kind) field.masked field.encoding.length := by
  cases field
  case bits value width =>
    rw [Field.encoding] at hr ⊢
    have h := bits_takes width.property hr length_low
    rw [value_low_width value width.property.right] at h
    rw [length_low]
    exact h.map rfl
  case bool value         => exact (bool_takes hr).map rfl
  case varint value       => exact (varint_takes hr).map rfl
  case signedVarint value => exact (signedVarint_takes hr).map rfl

theorem fields_takes (fields : List Field) (hr : r.rest = fields.flatMap Field.encoding ++ tl) :
    Takes r (r.fields (fields.map Field.kind)) (fields.map Field.masked)
      (fields.flatMap Field.encoding).length := by
  induction fields generalizing r
  case nil => exact .pure
  case cons field fields hi =>
    rw [List.flatMap_cons, List.append_assoc] at hr
    rw [List.flatMap_cons, List.length_append]
    exact (field_takes field hr).bind <| (hi <| rest_skip hr).map rfl

theorem fields_reads (fields : List Field) (hr : r.rest = fields.flatMap Field.encoding ++ tl) :
    Reads r (r.fields (fields.map Field.kind)) (fields.map Field.masked)
      (fields.flatMap Field.encoding).length :=
  (fields_takes fields hr).reads <| by simp [hr]

end BitReader
end Plaza.Wire
