import Mathlib.Data.Nat.Log
import Plaza.Wire.Theorems.Bits

open Bits

namespace Plaza.Wire

variable {fields fields' : List Field} {bytes bytes' : List (BitVec 8)} {pad pad' rounds : Nat}

-- The number of bits that a value costs: four data bits and a continuation bit for each nibble.
def varintLen (value : BitVec 64) : Nat :=
  5 * (Nat.log 16 value.toNat + 1)

def Field.bitLen : Field → Nat
  | .bits _ width       => width
  | .bool _             => 1
  | .varint value       => varintLen value
  | .signedVarint value => varintLen (zigzag value)

def totalBits (fields : List Field) : Nat :=
  (fields.map Field.bitLen).sum

-- The length of a finished payload.
def byteLen (fields : List Field) : Nat :=
  (totalBits fields + 7) / 8

theorem length_groups (value : BitVec 64) (h₀ : 0 < rounds) (hv : value >>> (4 * rounds) = 0) :
    (groups rounds value).length = varintLen value := by
  induction rounds generalizing value
  case zero => exact absurd h₀ (by decide)
  case succ rounds hi =>
    have ht : (value >>> 4).toNat = value.toNat / 16 := by
      rw [BitVec.toNat_ushiftRight, Nat.shiftRight_eq_div_pow]
    rw [groups, List.length_append, length_low, List.length_append, List.length_singleton]
    by_cases hz : value >>> 4 = 0
    case pos =>
      have hl : value.toNat < 16 := by
        have : (0 : BitVec 64).toNat = 0 := rfl
        rw [hz] at ht
        omega
      simp [hz, varintLen, Nat.log_of_lt hl]
    case neg =>
      have hl : 16 ≤ value.toNat := by
        refine Nat.le_of_not_lt fun h => hz <| BitVec.eq_of_toNat_eq ?_
        rw [ht, Nat.div_eq_of_lt h]
        rfl
      have hv : value >>> 4 >>> (4 * rounds) = 0 := by
        rw [←BitVec.shiftRight_add]
        exact (by omega : 4 * (rounds + 1) = 4 + 4 * rounds) ▸ hv
      have h₀ : 0 < rounds := Nat.pos_of_ne_zero fun h => hz <| by simpa [h] using hv
      have hp : 0 < Nat.log 16 value.toNat := Nat.log_pos (by decide) hl
      rw [if_neg hz, hi _ h₀ hv, varintLen, varintLen, ht, Nat.log_div_base]
      omega

theorem length_varint (value : BitVec 64) : (groups 16 value).length = varintLen value :=
  length_groups value (by decide) <| BitVec.ushiftRight_eq_zero (by decide)

theorem Field.length_encoding (field : Field) : field.encoding.length = field.bitLen := by
  cases field
  case bits         => exact length_low
  case bool         => rfl
  case varint       => exact length_varint _
  case signedVarint => exact length_varint _

theorem length_encodings (fields : List Field) :
    (fields.flatMap Field.encoding).length = totalBits fields := by
  rw [List.length_flatMap, totalBits]
  congr 2
  exact funext Field.length_encoding

-- The finished bytes of a payload: its fields and less than a byte of zeros.
structure Encodes (fields : List Field) (bytes : List (BitVec 8)) (pad : Nat) : Prop where
  ok   : payload fields = .ok bytes
  lt   : pad < 8
  bits : ofBytes bytes = fields.flatMap Field.encoding ++ .replicate pad false

namespace Encodes

theorem exists_bytes (fields : List Field) : ∃ bytes pad, Encodes fields bytes pad :=
  have ⟨bytes, ok, pad, lt, bits⟩ := payload_ok fields
  ⟨bytes, pad, ok, lt, bits⟩

theorem length_bits (h : Encodes fields bytes pad) : totalBits fields + pad = 8 * bytes.length := by
  rw [←length_ofBytes, h.bits, List.length_append, length_encodings, List.length_replicate]

theorem length_bytes (h : Encodes fields bytes pad) : bytes.length = byteLen fields := by
  have := h.length_bits
  have := h.lt
  rw [byteLen]
  omega

theorem eq_bytes (h : Encodes fields bytes pad) (hb : payload fields = .ok bytes') : bytes' = bytes :=
  Except.ok.inj <| hb.symm.trans h.ok

end Encodes

namespace BitReader

variable {r : BitReader} {tl : List Bool}

theorem payload_reads (h : Encodes fields bytes pad) (hr : r.rest = ofBytes bytes ++ tl) :
    Reads r (r.fields (fields.map Field.kind)) (fields.map Field.masked) (totalBits fields) ∧
    (r.skip (totalBits fields)).rest = .replicate pad false ++ tl := by
  rw [h.bits, List.append_assoc] at hr
  rw [←length_encodings]
  exact ⟨fields_reads fields hr, rest_skip hr⟩

@[simp]
theorem rest_new : (new bytes).rest = ofBytes bytes :=
  rfl

-- The padding of the first payload is skipped, and nothing else.
theorem align_payload (h : Encodes fields bytes pad) :
    ((new (bytes ++ bytes')).skip (totalBits fields)).alignToByte =
      (new (bytes ++ bytes')).skip (8 * bytes.length) := by
  have hl := h.length_bits
  have hp := h.lt
  have hc : min ((totalBits fields + 7) / 8 * 8) ((bytes ++ bytes').length * 8) = 8 * bytes.length := by
    rw [List.length_append]
    omega
  simp only [alignToByte, skip, new, Nat.zero_add, hc]

theorem rest_second (bytes bytes' : List (BitVec 8)) :
    ((new (bytes ++ bytes')).skip (8 * bytes.length)).rest = ofBytes bytes' := by
  rw [←length_ofBytes]
  exact rest_skip <| by rw [rest_new, ofBytes_append]

theorem second_reads (h : Encodes fields bytes pad) (first : List (BitVec 8)) :
    Reads ((new (first ++ bytes)).skip (8 * first.length))
      (((new (first ++ bytes)).skip (8 * first.length)).fields (fields.map Field.kind))
      (fields.map Field.masked) (totalBits fields) ∧
    (((new (first ++ bytes)).skip (8 * first.length)).skip (totalBits fields)).rest = .replicate pad false := by
  have h := payload_reads h <| (rest_second first bytes).trans (List.append_nil _).symm
  rwa [List.append_nil] at h

end BitReader

open BitReader

-- What a layer that packs fields promises of two payloads which are put behind one another.
structure RoundTrips (fields fields' : List Field) : Prop where
  alone : ∃ bytes r,
    payload fields = .ok bytes ∧
    (BitReader.new bytes).fields (fields.map Field.kind) = .ok (fields.map Field.masked, r) ∧
    r.rest.length < 8 ∧ ∀ b ∈ r.rest, b = false
  followed : ∃ bytes bytes' r r',
    payload fields = .ok bytes ∧ payload fields' = .ok bytes' ∧
    (BitReader.new (bytes ++ bytes')).fields (fields.map Field.kind) = .ok (fields.map Field.masked, r) ∧
    r.alignToByte.fields (fields'.map Field.kind) = .ok (fields'.map Field.masked, r')

theorem RoundTrips.of_lt (h : 8 * (byteLen fields + byteLen fields') < 2 ^ 32) : RoundTrips fields fields' := by
  obtain ⟨bytes, pad, he⟩ := Encodes.exists_bytes fields
  obtain ⟨bytes', pad', he'⟩ := Encodes.exists_bytes fields'
  rw [←he.length_bytes, ←he'.length_bytes] at h
  constructor
  case alone =>
    obtain ⟨hr, hrest⟩ := payload_reads he (r := .new bytes) (List.append_nil _).symm
    have hf : (BitReader.new bytes).Free := by
      rw [Free, rest_new, length_ofBytes]
      omega
    refine ⟨bytes, _, he.ok, hr.free hf, ?_, ?_⟩ <;> rw [hrest, List.append_nil]
    case refine_1 =>
      rw [List.length_replicate]
      exact he.lt
    case refine_2 => exact fun b => List.eq_of_mem_replicate
  case followed =>
    obtain ⟨hr, _⟩ := payload_reads he (r := .new (bytes ++ bytes')) ofBytes_append
    obtain ⟨hr', _⟩ := second_reads he' bytes
    have hf : (BitReader.new (bytes ++ bytes')).Free := by
      rw [Free, rest_new, length_ofBytes, List.length_append]
      omega
    exact ⟨bytes, bytes', _, _, he.ok, he'.ok, hr.free hf, align_payload he ▸ hr'.free hf.skip⟩

-- A count that is cut off at the start of the first payload is cut off at its end, and hence at the start
-- of the second payload. But less than a byte is left at the end of that one.
theorem RoundTrips.lt (h : RoundTrips fields fields') : 8 * (byteLen fields + byteLen fields') < 2 ^ 32 := by
  have ⟨bytes, pad, he⟩ := Encodes.exists_bytes fields
  have ⟨bytes', pad', he'⟩ := Encodes.exists_bytes fields'
  have ⟨b, b', r, r', hb, hb', hr, hr'⟩ := h.followed
  rw [he.eq_bytes hb, he'.eq_bytes hb'] at hr
  rw [←he.length_bytes, ←he'.length_bytes]
  have ⟨h₁, hrest⟩ := payload_reads he (r := .new (bytes ++ bytes')) ofBytes_append
  have ⟨h₂, hrest'⟩ := second_reads he' bytes
  have ⟨hx, hn⟩ := h₁.only _ hr
  cases hx
  rw [align_payload he] at hr'
  have ⟨_, hn'⟩ := h₂.only _ hr'
  simp only [Free, hrest, hrest', rest_new, rest_second, length_ofBytes, List.length_append, List.length_replicate]
    at hn hn'
  have := he.lt
  have := he'.lt
  omega

-- The bits of two payloads are counted in 32 bits, padding included.
theorem roundTrips_iff (fields fields' : List Field) :
    RoundTrips fields fields' ↔ 8 * (byteLen fields + byteLen fields') < 2 ^ 32 :=
  ⟨RoundTrips.lt, RoundTrips.of_lt⟩

-- Full words, and a last one that lacks a bit.
def brimful (words : Nat) : List Field :=
  .replicate words (.bits 0 ⟨64, by decide⟩) ++ [.bits 0 ⟨63, by decide⟩]

theorem totalBits_brimful (words : Nat) : totalBits (brimful words) = words * 64 + 63 := by
  simp [totalBits, brimful, Field.bitLen]

-- One bit less than 2 ^ 32. The padding makes it 2 ^ 32 bits, of which the reader counts none.
theorem brimful_unread :
    ¬∀ fields fields', totalBits fields + totalBits fields' < 2 ^ 32 → RoundTrips fields fields' := by
  intro hc
  have ht : totalBits (brimful (2 ^ 26 - 1)) = 2 ^ 32 - 1 := totalBits_brimful _
  have h := hc (brimful (2 ^ 26 - 1)) [] (by rw [ht]; decide) |>.lt
  rw [byteLen, ht] at h
  exact absurd h (by decide)

end Plaza.Wire
