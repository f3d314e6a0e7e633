import Plaza.Wire.BitCodec
import Plaza.Wire.Theorems.RoundTrip

open Bits

namespace Plaza.Wire.BitCodec

variable {α β : Type} {w : BitWriter} {field : Field} {fields fields' : List Field}

def countField (n : Nat) : Field :=
  .varint <| .ofNat 64 n

def tagField (index : BitVec 32) : Field :=
  .varint <| index.setWidth 64

def byteField (byte : BitVec 8) : Field :=
  .bits (byte.setWidth 64) ⟨8, by decide⟩

def intField (ty : IntType) (v : BitVec ty.width) : Field :=
  if ty.isSigned then .signedVarint <| v.signExtend 64 else .varint <| v.setWidth 64

def f32Field (bits : BitVec 32) : Field :=
  .bits (bits.setWidth 64) ⟨32, by decide⟩

def f64Field (bits : BitVec 64) : Field :=
  .bits bits ⟨maxBits, by decide⟩

def bytesLayout (v : List (BitVec 8)) : List Field :=
  countField v.length :: v.map byteField

-- The fields that one would write by hand for a value.
mutual

def Value.layout : Value → List Field
  | .bool v                 => [.bool v]
  | .int ty v               => [intField ty v]
  | .f32 bits               => [f32Field bits]
  | .f64 bits               => [f64Field bits]
  | .char v                 => [countField v.toNat]
  | .str v                  => bytesLayout (asBytes v)
  | .bytes v                => bytesLayout v
  | .none                   => [.bool false]
  | .some v                 => .bool true :: v.layout
  | .unit                   => []
  | .unitStruct             => []
  | .unitVariant index      => [tagField index]
  | .newtypeStruct v        => v.layout
  | .newtypeVariant index v => tagField index :: v.layout
  | .seq items              => countField items.length :: layoutAll items
  | .tuple items            => layoutAll items
  | .tupleStruct fields     => layoutAll fields
  | .tupleVariant index fs  => tagField index :: layoutAll fs
  | .map entries            => countField entries.length :: layoutEntries entries
  | .struct fields          => layoutAll fields
  | .structVariant index fs => tagField index :: layoutAll fs

def layoutAll : List Value → List Field
  | []      => []
  | v :: vs => v.layout ++ layoutAll vs

def layoutEntries : List (Value × Value) → List Field
  | []                      => []
  | (key, value) :: entries => key.layout ++ (value.layout ++ layoutEntries entries)

end

theorem layoutAll_eq {vs : List Value} : layoutAll vs = vs.flatMap Value.layout := by
  induction vs
  case nil          => rfl
  case cons v vs hi => rw [layoutAll, hi, List.flatMap_cons]

theorem layoutEntries_eq {entries : List (Value × Value)} :
    layoutEntries entries = entries.flatMap fun e => e.fst.layout ++ e.snd.layout := by
  induction entries
  case nil => rfl
  case cons e entries hi =>
    cases e
    rw [layoutEntries, hi, List.flatMap_cons, List.append_assoc]

theorem lift_bind {res : Except BitError α} {f : α → Except BitError β} :
    lift (res >>= f) = lift res >>= fun a => lift (f a) := by
  cases res <;> rfl

theorem lift_fields_cons :
    lift (w.fields (field :: fields)) = lift (w.field field) >>= fun w => lift (w.fields fields) := by
  rw [BitWriter.fields, List.foldlM_cons, lift_bind]
  rfl

theorem lift_fields_singleton : lift (w.fields [field]) = lift (w.field field) := by
  rw [lift_fields_cons]
  cases w.field field <;> rfl

theorem lift_fields_append :
    lift (w.fields (fields ++ fields')) = lift (w.fields fields) >>= fun w => lift (w.fields fields') := by
  rw [BitWriter.fields, List.foldlM_append, lift_bind]
  rfl

theorem serializeInt_eq {ty : IntType} {v : BitVec ty.width} :
    serializeInt w ty v = lift (w.fields [intField ty v]) := by
  rw [lift_fields_singleton, serializeInt, intField]
  split <;> rfl

theorem serializeBytes_eq {v : List (BitVec 8)} : serializeBytes w v = lift (w.fields (bytesLayout v)) := by
  have hb {w : BitWriter} : v.foldlM (fun w byte => lift <| w.bits (byte.setWidth 64) 8) w =
      lift (w.fields (v.map byteField)) := by
    induction v generalizing w
    case nil => rfl
    case cons byte bytes hi =>
      rw [List.foldlM_cons, List.map_cons, lift_fields_cons]
      exact congrArg _ <| funext fun w => hi
  rw [serializeBytes, bytesLayout, lift_fields_cons]
  exact congrArg _ <| funext fun w => hb

-- The serializer writes the layout, and nothing else.
mutual

theorem serialize_eq : (v : Value) → ∀ w, v.serialize w = lift (w.fields v.layout)
  | .bool _, w             => by rw [Value.layout, lift_fields_singleton]; rfl
  | .int _ _, w            => serializeInt_eq
  | .f32 _, w              => by rw [Value.layout, lift_fields_singleton]; rfl
  | .f64 _, w              => by rw [Value.layout, lift_fields_singleton]; rfl
  | .char _, w             => by rw [Value.layout, lift_fields_singleton]; rfl
  | .str _, w              => serializeBytes_eq
  | .bytes _, w            => serializeBytes_eq
  | .none, w               => by rw [Value.layout, lift_fields_singleton]; rfl
  | .some v, w             => by
    rw [Value.layout, lift_fields_cons, ← funext (serialize_eq v)]
    rfl
  | .unit, w               => rfl
  | .unitStruct, w         => rfl
  | .unitVariant _, w      => by rw [Value.layout, lift_fields_singleton]; rfl
  | .newtypeStruct v, w    => serialize_eq v w
  | .newtypeVariant _ v, w => by
    rw [Value.layout, lift_fields_cons, ← funext (serialize_eq v)]
    rfl
  | .seq items, w          => by
    rw [Value.layout, lift_fields_cons, ← funext (serializeAll_eq items)]
    rfl
  | .tuple items, w        => serializeAll_eq items w
  | .tupleStruct fields, w => serializeAll_eq fields w
  | .tupleVariant _ fs, w  => by
    rw [Value.layout, lift_fields_cons, ← funext (serializeAll_eq fs)]
    rfl
  | .map entries, w        => by
    rw [Value.layout, lift_fields_cons, ← funext (serializeEntries_eq entries)]
    rfl
  | .struct fields, w      => serializeAll_eq fields w
  | .structVariant _ fs, w => by
    rw [Value.layout, lift_fields_cons, ← funext (serializeAll_eq fs)]
    rfl

theorem serializeAll_eq : (vs : List Value) → ∀ w, serializeAll vs w = lift (w.fields (layoutAll vs))
  | [], w      => rfl
  | v :: vs, w => by
    rw [layoutAll, lift_fields_append, ← funext (serializeAll_eq vs), ← serialize_eq v, serializeAll]

theorem serializeEntries_eq : (entries : List (Value × Value)) → ∀ w,
    serializeEntries entries w = lift (w.fields (layoutEntries entries))
  | [], w                      => rfl
  | (key, value) :: entries, w => by
    simp only [layoutEntries, serializeEntries, lift_fields_append, serialize_eq key, serialize_eq value,
      serializeEntries_eq entries]

end

theorem encode_eq (v : Value) : encode v = lift (payload v.layout) := by
  rw [encode, serialize_eq, payload]
  cases BitWriter.new.fields v.layout <;> rfl

end Plaza.Wire.BitCodec

namespace Plaza.Wire.BitCodec

variable {α β γ : Type} {a : α} {b : β} {r : BitReader} {l tl : List Bool} {n : Nat} {value : BitVec 64}
variable {de : Reader α} {fields fields' : List Field}

theorem lift_takes {res : Except BitError (α × BitReader)} (h : BitReader.Takes r res a n) :
    BitReader.Takes r (lift res) a n where
  ok hn := by
    rw [h.ok hn]
    rfl
  only x hx := by
    cases res
    case error => cases hx
    case ok    => exact h.only x (by cases hx; rfl)

-- A read of fields, whatever follows them: it yields `a`, and takes their bits.
def Decodes (de : Reader α) (a : α) (fields : List Field) : Prop :=
  ∀ r tl, r.rest = fields.flatMap Field.encoding ++ tl → BitReader.Takes r (de r) a (totalBits fields)

theorem totalBits_append : totalBits (fields ++ fields') = totalBits fields + totalBits fields' := by
  simp [totalBits]

namespace Decodes

theorem pure : Decodes (fun r => Pure.pure (a, r)) a [] :=
  fun _ _ _ => .pure

theorem bind {f : α × BitReader → Result (β × BitReader)} (h : Decodes de a fields)
    (hf : Decodes (fun r => f (a, r)) b fields') : Decodes (fun r => de r >>= f) b (fields ++ fields') := by
  intro r tl hr
  rw [List.flatMap_append, List.append_assoc] at hr
  rw [totalBits_append]
  refine (h r _ hr).bind <| hf _ tl ?_
  rw [← length_encodings]
  exact BitReader.rest_skip hr

theorem map {f : α × BitReader → Result (β × BitReader)} {b' : β} (h : Decodes de a fields) (hb : b' = b)
    (hf : ∀ r, f (a, r) = .ok (b', r)) : Decodes (fun r => de r >>= f) b fields :=
  fun r tl hr => (h r tl hr).map <| hb ▸ hf _

theorem of_encoding {field : Field} (h : ∀ {r tl}, r.rest = field.encoding ++ tl →
    BitReader.Takes r (de r) a field.encoding.length) : Decodes de a [field] := by
  intro r tl hr
  have hl : totalBits [field] = field.encoding.length := by
    simp [totalBits, Field.length_encoding]
  rw [hl]
  exact h (by simpa using hr)

theorem bool {b : Bool} : Decodes (fun r => lift r.bool) b [.bool b] :=
  of_encoding fun hr => lift_takes <| BitReader.bool_takes hr

theorem varint : Decodes (fun r => lift r.varint) value [.varint value] :=
  of_encoding fun hr => lift_takes <| BitReader.varint_takes hr

theorem signedVarint : Decodes (fun r => lift r.signedVarint) value [.signedVarint value] :=
  of_encoding fun hr => lift_takes <| BitReader.signedVarint_takes hr

theorem bits {width : { n : Nat // 0 < n ∧ n ≤ maxBits }} :
    Decodes (fun r => lift (r.bits width)) (Bits.value 64 (low value width)) [.bits value width] :=
  of_encoding fun hr => by
    rw [Field.encoding, length_low]
    exact lift_takes <| BitReader.bits_takes width.property hr length_low

theorem repeated {layout : α → List Field} {as : List α} (h : ∀ a ∈ as, Decodes de a (layout a)) :
    Decodes (repeated de as.length) as (as.flatMap layout) := by
  induction as
  case nil => exact pure
  case cons a as hi =>
    have ⟨h, hs⟩ := List.forall_mem_cons.mp h
    rw [List.flatMap_cons]
    exact h.bind <| (hi hs).map rfl fun _ => rfl

theorem each {de : β → Reader α} {layout : α → List Field} {bs : List β} {as : List α}
    (hl : bs.length = as.length) (h : ∀ p ∈ bs.zip as, Decodes (de p.fst) p.snd (layout p.snd)) :
    Decodes (each de bs) as (as.flatMap layout) := by
  induction bs generalizing as
  case nil =>
    cases List.length_eq_zero_iff.mp hl.symm
    exact pure
  case cons b bs hi =>
    cases as
    case nil => contradiction
    case cons a as =>
      rw [List.zip_cons_cons] at h
      have ⟨h, hs⟩ := List.forall_mem_cons.mp h
      rw [List.flatMap_cons]
      exact h.bind <| (hi (Nat.succ.inj hl) hs).map rfl fun _ => rfl

end Decodes

-- A word survives a cast to 64 bits and back.
theorem setWidth_value_low {w : Nat} (x : BitVec w) (hw : w ≤ 64) :
    (Bits.value 64 (low (x.setWidth 64) w)).setWidth w = x := by
  apply BitVec.eq_of_getLsbD_eq
  intro i hi
  have h : i < 64 := by omega
  rw [BitVec.getLsbD_setWidth, getLsbD_value, List.getD_eq_getElem?_getD, getElem?_low]
  simp [hi, h]

theorem signExtend_setWidth {w : Nat} (x : BitVec w) (hw : w ≤ 64) : (x.signExtend 64).setWidth w = x := by
  apply BitVec.eq_of_getLsbD_eq
  intro i hi
  have h : i < 64 := by omega
  rw [BitVec.getLsbD_setWidth, BitVec.getLsbD_signExtend]
  simp [hi, h]

theorem charFromU32_toNat (c : Char) : charFromU32 ((BitVec.ofNat 64 c.toNat).setWidth 32) = some c := by
  have hc : c.toNat < 2 ^ 32 := c.val.toNat_lt
  have hn : ((BitVec.ofNat 64 c.toNat).setWidth 32).toNat = c.toNat := by
    simp only [BitVec.toNat_setWidth, BitVec.toNat_ofNat]
    omega
  have hv : ((BitVec.ofNat 64 c.toNat).setWidth 32).toNat.isValidChar := by
    rw [hn]
    exact c.valid
  rw [charFromU32, dif_pos hv, Option.some.injEq]
  exact Char.ext <| UInt32.toNat_inj.mp hn

theorem fromUtf8_asBytes (s : String) : fromUtf8 (asBytes s) = some s := by
  have hb : ((asBytes s).map UInt8.ofBitVec).toByteArray = s.toByteArray := by
    apply ByteArray.ext
    simp [asBytes, Function.comp_def]
  rw [fromUtf8, hb, String.fromUTF8?, dif_pos s.isValidUTF8]
  rfl

namespace Decodes

theorem count {n : Nat} (hn : n < 2 ^ 64) : Decodes readCount n [countField n] :=
  varint.map ((BitVec.toNat_ofNat ..).trans <| Nat.mod_eq_of_lt hn) fun _ => rfl

theorem tag {index : BitVec 32} : Decodes variantIndex index [tagField index] :=
  varint.map (by simp) fun _ => rfl

theorem int {ty : IntType} {v : BitVec ty.width} : Decodes (deserializeInt ty) v [intField ty v] := by
  have hw : ty.width ≤ 64 := by
    cases ty <;> decide
  cases hs : ty.isSigned
  case false =>
    have h : Decodes (fun r => lift (if ty.isSigned then r.signedVarint else r.varint)) (v.setWidth 64)
        [intField ty v] := by
      simpa only [intField, hs, Bool.false_eq_true, if_false] using varint
    exact h.map ((BitVec.setWidth_setWidth_of_le _ hw).trans (BitVec.setWidth_eq _)) fun _ => rfl
  case true =>
    have h : Decodes (fun r => lift (if ty.isSigned then r.signedVarint else r.varint)) (v.signExtend 64)
        [intField ty v] := by
      simpa only [intField, hs, if_true] using signedVarint
    exact h.map (signExtend_setWidth v hw) fun _ => rfl

theorem f32 {v : BitVec 32} : Decodes deserializeF32 v [f32Field v] :=
  bits.map (setWidth_value_low v (by decide)) fun _ => rfl

theorem byte {v : BitVec 8} : Decodes readByte v [byteField v] :=
  bits.map (setWidth_value_low v (by decide)) fun _ => rfl

theorem f64 {v : BitVec 64} : Decodes deserializeF64 v [f64Field v] := by
  have h : Bits.value 64 (low v 64) = v := (BitReader.value_low_width v (Nat.le_refl _)).trans (if_pos rfl)
  have hb : Decodes (fun r => lift (r.bits 64)) (Bits.value 64 (low v 64)) [f64Field v] := bits
  rwa [h] at hb

theorem char {v : Char} : Decodes deserializeChar v [countField v.toNat] :=
  varint.map rfl fun r => by
    simp only [charFromU32_toNat]
    rfl

theorem bytes {v : List (BitVec 8)} (hv : v.length < 2 ^ 64) : Decodes readBytes v (bytesLayout v) := by
  have h : Decodes (BitCodec.repeated readByte v.length) v (v.flatMap fun byte => [byteField byte]) :=
    repeated fun _ _ => byte
  rw [← List.map_eq_flatMap] at h
  exact (count hv).bind h

theorem string {v : String} (hv : (asBytes v).length < 2 ^ 64) :
    Decodes deserializeString v (bytesLayout (asBytes v)) :=
  (bytes hv).map rfl fun r => by
    simp only [fromUtf8_asBytes]
    rfl

end Decodes

end Plaza.Wire.BitCodec

namespace Plaza.Wire.BitCodec

-- The values of a type, nested at most so deep. What counts elements or bytes is a word.
inductive Typed (types : String → Shape) : Nat → Shape → Value → Prop
  | bool {n v} : Typed types (n + 1) .bool (.bool v)
  | int {n ty v} : Typed types (n + 1) (.int ty) (.int ty v)
  | f32 {n bits} : Typed types (n + 1) .f32 (.f32 bits)
  | f64 {n bits} : Typed types (n + 1) .f64 (.f64 bits)
  | char {n v} : Typed types (n + 1) .char (.char v)
  | str {n v} : (asBytes v).length < 2 ^ 64 → Typed types (n + 1) .str (.str v)
  | bytes {n v} : v.length < 2 ^ 64 → Typed types (n + 1) .bytes (.bytes v)
  | none {n shape} : Typed types (n + 1) (.option shape) .none
  | some {n shape v} : Typed types n shape v → Typed types (n + 1) (.option shape) (.some v)
  | unit {n} : Typed types (n + 1) .unit .unit
  | unitStruct {n} : Typed types (n + 1) .unitStruct .unitStruct
  | unitVariant {n variants index} : (variants[BitVec.toNat index]? = some .unit) →
    Typed types (n + 1) (.enum variants) (.unitVariant index)
  | newtypeStruct {n shape v} : Typed types n shape v →
    Typed types (n + 1) (.newtypeStruct shape) (.newtypeStruct v)
  | newtypeVariant {n variants index shape v} : (variants[BitVec.toNat index]? = some (.newtype shape)) →
    Typed types n shape v → Typed types (n + 1) (.enum variants) (.newtypeVariant index v)
  | seq {n item items} : items.length < 2 ^ 64 → (∀ v ∈ items, Typed types n item v) →
    Typed types (n + 1) (.seq item) (.seq items)
  | tuple {n shapes items} : shapes.length = items.length →
    (∀ p ∈ shapes.zip items, Typed types n p.fst p.snd) → Typed types (n + 1) (.tuple shapes) (.tuple items)
  | tupleStruct {n shapes fields} : shapes.length = fields.length →
    (∀ p ∈ shapes.zip fields, Typed types n p.fst p.snd) →
    Typed types (n + 1) (.tupleStruct shapes) (.tupleStruct fields)
  | tupleVariant {n variants index shapes fields} : (variants[BitVec.toNat index]? = some (.tuple shapes)) →
    shapes.length = fields.length → (∀ p ∈ shapes.zip fields, Typed types n p.fst p.snd) →
    Typed types (n + 1) (.enum variants) (.tupleVariant index fields)
  | map {n key value entries} : entries.length < 2 ^ 64 → (∀ e ∈ entries, Typed types n key e.fst) →
    (∀ e ∈ entries, Typed types n value e.snd) → Typed types (n + 1) (.map key value) (.map entries)
  | struct {n shapes fields} : shapes.length = fields.length →
    (∀ p ∈ shapes.zip fields, Typed types n p.fst p.snd) →
    Typed types (n + 1) (.struct shapes) (.struct fields)
  | structVariant {n variants index shapes fields} : (variants[BitVec.toNat index]? = some (.struct shapes)) →
    shapes.length = fields.length → (∀ p ∈ shapes.zip fields, Typed types n p.fst p.snd) →
    Typed types (n + 1) (.enum variants) (.structVariant index fields)
  | named {n name v} : Typed types n (types name) v → Typed types (n + 1) (.named name) v

variable {types : String → Shape} {n depth : Nat} {shape : Shape} {v w : Value}
variable {shapes : List Shape} {vs : List Value} {bytes bytes' : List (BitVec 8)}

theorem Decodes.fields {de : Shape → Reader Value} (hl : shapes.length = vs.length)
    (h : ∀ p ∈ shapes.zip vs, Decodes (de p.fst) p.snd p.snd.layout) :
    Decodes (BitCodec.each de shapes) vs (layoutAll vs) := by
  rw [layoutAll_eq]
  exact each hl h

theorem Decodes.enum {variants : List Variant} {variant : Variant} {index : BitVec 32} {fields : List Field}
    (h : variants[index.toNat]? = some variant)
    (hd : Decodes (deserializeVariant (deserialize types depth) index variant) v fields) :
    Decodes (deserialize types (depth + 1) (.enum variants)) v (tagField index :: fields) :=
  tag.bind <| by simpa only [h] using hd

-- The deserializer reads the layout that the serializer writes.
theorem deserialize_decodes (h : Typed types n shape v) (m : Nat) :
    Decodes (deserialize types (m + n) shape) v v.layout := by
  induction h
  case bool                     => exact Decodes.bool.map rfl fun _ => rfl
  case int                      => exact Decodes.int.map rfl fun _ => rfl
  case f32                      => exact Decodes.f32.map rfl fun _ => rfl
  case f64                      => exact Decodes.f64.map rfl fun _ => rfl
  case char                     => exact Decodes.char.map rfl fun _ => rfl
  case str hl                   => exact (Decodes.string hl).map rfl fun _ => rfl
  case bytes hl                 => exact (Decodes.bytes hl).map rfl fun _ => rfl
  case none                     => exact Decodes.bool.map rfl fun _ => rfl
  case some hi                  => exact Decodes.bool.bind <| hi.map rfl fun _ => rfl
  case unit                     => exact .pure
  case unitStruct               => exact .pure
  case unitVariant h            => exact .enum h .pure
  case newtypeStruct hi         => exact hi.map rfl fun _ => rfl
  case newtypeVariant h _ hi    => exact .enum h <| hi.map rfl fun _ => rfl
  case seq hl _ hi              =>
    rw [Value.layout, layoutAll_eq]
    exact (Decodes.count hl).bind <| (Decodes.repeated hi).map rfl fun _ => rfl
  case tuple hl _ hi            => exact (Decodes.fields hl hi).map rfl fun _ => rfl
  case tupleStruct hl _ hi      => exact (Decodes.fields hl hi).map rfl fun _ => rfl
  case tupleVariant h hl _ hi   => exact .enum h <| (Decodes.fields hl hi).map rfl fun _ => rfl
  case map hl _ _ hk hv         =>
    rw [Value.layout, layoutEntries_eq]
    refine (Decodes.count hl).bind <| (Decodes.repeated fun e he => ?_).map rfl fun _ => rfl
    exact (hk e he).bind <| (hv e he).map rfl fun _ => rfl
  case struct hl _ hi           => exact (Decodes.fields hl hi).map rfl fun _ => rfl
  case structVariant h hl _ hi  => exact .enum h <| (Decodes.fields hl hi).map rfl fun _ => rfl
  case named hi                 => exact hi

-- The number of bits that a value costs, and the length of its encoding.
def Value.bitLen (v : Value) : Nat :=
  totalBits v.layout

def Value.byteLen (v : Value) : Nat :=
  (v.bitLen + 7) / 8

-- What a codec promises of a value, alone and with another value's encoding behind it: it comes back, and
-- exactly its own bytes are consumed.
structure RoundTrips (types : String → Shape) (n : Nat) (shape : Shape) (v w : Value) : Prop where
  alone : ∃ bytes, encode v = .ok bytes ∧ ∀ depth ≥ n, decode types depth shape bytes = .ok v
  followed : ∃ bytes stream, encode v = .ok bytes ∧ encodeInto w bytes = .ok stream ∧
    ∀ depth ≥ n, ∃ r, deserialize types depth shape (.new stream) = .ok (v, r) ∧
      r.alignToByte = { bytes := stream, cursor := 8 * bytes.length }

open BitReader

variable {pad pad' : Nat}

theorem encode_of_encodes (h : Encodes v.layout bytes pad) : encode v = .ok bytes := by
  rw [encode_eq, h.ok]
  rfl

theorem encodeInto_of_encodes (h : Encodes w.layout bytes' pad') :
    encodeInto w bytes = .ok (bytes ++ bytes') := by
  rw [encodeInto, encode_of_encodes h]
  rfl

-- What the reader counts of an encoding with another one behind it.
theorem bitsLeft_encodes (h : Encodes v.layout bytes pad) (h' : Encodes w.layout bytes' pad') :
    (new (bytes ++ bytes')).bitsLeft = 8 * (v.byteLen + w.byteLen) % 2 ^ 32 := by
  have hl : bytes.length = v.byteLen := h.length_bytes
  have hl' : bytes'.length = w.byteLen := h'.length_bytes
  rw [bitsLeft, ← hl, ← hl', ← List.length_append, Nat.mul_comm]
  rfl

theorem bitsLeft_encoded (h : Encodes v.layout bytes pad) : (new bytes).bitsLeft = 8 * v.byteLen % 2 ^ 32 := by
  have hl : bytes.length = v.byteLen := h.length_bytes
  rw [bitsLeft, ← hl, Nat.mul_comm]
  rfl

-- How a value is read whose encoding comes first.
theorem deserialize_takes (ht : Typed types n shape v) (h : Encodes v.layout bytes pad) (hd : n ≤ depth)
    (tail : List (BitVec 8)) :
    Takes (new (bytes ++ tail)) (deserialize types depth shape (new (bytes ++ tail))) v v.bitLen := by
  have hr : (new (bytes ++ tail)).rest =
      v.layout.flatMap Field.encoding ++ (.replicate pad false ++ Bits.ofBytes tail) := by
    rw [rest_new, Bits.ofBytes_append, h.bits, List.append_assoc]
  have hd : depth = depth - n + n := (Nat.sub_add_cancel hd).symm
  rw [hd]
  exact deserialize_decodes ht _ _ _ hr

theorem decode_takes (ht : Typed types n shape v) (h : Encodes v.layout bytes pad) (hd : n ≤ depth) :
    Takes (new bytes) (deserialize types depth shape (new bytes)) v v.bitLen := by
  have h := deserialize_takes ht h hd []
  rwa [List.append_nil] at h

theorem RoundTrips.of_bounds (ht : Typed types n shape v) (hv : 8 * v.byteLen < 2 ^ 32)
    (hw : v.bitLen ≤ 8 * (v.byteLen + w.byteLen) % 2 ^ 32) : RoundTrips types n shape v w := by
  obtain ⟨bytes, pad, he⟩ := Encodes.exists_bytes v.layout
  obtain ⟨bytes', pad', he'⟩ := Encodes.exists_bytes w.layout
  have hv : v.bitLen ≤ (new bytes).bitsLeft := by
    rw [bitsLeft_encoded he, Nat.mod_eq_of_lt hv, Value.byteLen]
    omega
  have hw : v.bitLen ≤ (new (bytes ++ bytes')).bitsLeft := by
    rwa [bitsLeft_encodes he he']
  constructor
  case alone =>
    refine ⟨bytes, encode_of_encodes he, fun depth hd => ?_⟩
    rw [decode, (decode_takes ht he hd).ok hv]
    rfl
  case followed =>
    refine ⟨bytes, _, encode_of_encodes he, encodeInto_of_encodes he', fun depth hd => ?_⟩
    refine ⟨_, (deserialize_takes ht he hd bytes').ok hw, ?_⟩
    rw [Value.bitLen, align_payload he, skip, new, Nat.zero_add]

theorem RoundTrips.bounds (h : RoundTrips types n shape v w) (ht : Typed types n shape v) :
    8 * v.byteLen < 2 ^ 32 ∧ v.bitLen ≤ 8 * (v.byteLen + w.byteLen) % 2 ^ 32 := by
  obtain ⟨bytes, pad, he⟩ := Encodes.exists_bytes v.layout
  obtain ⟨bytes', pad', he'⟩ := Encodes.exists_bytes w.layout
  constructor
  case left =>
    obtain ⟨bytes', hb, hd⟩ := h.alone
    cases (encode_of_encodes he).symm.trans hb
    have hd := hd n (Nat.le_refl n)
    rw [decode] at hd
    cases hx : deserialize types n shape (new bytes)
    case error => simp [hx, Except.map] at hd
    case ok x  =>
      have hl := ((decode_takes ht he (Nat.le_refl n)).only x hx).right
      rw [bitsLeft_encoded he] at hl
      simp only [Value.byteLen] at hl ⊢
      omega
  case right =>
    obtain ⟨_, stream, hb, hs, hf⟩ := h.followed
    cases (encode_of_encodes he).symm.trans hb
    cases (encodeInto_of_encodes he').symm.trans hs
    obtain ⟨r, hr, _⟩ := hf n (Nat.le_refl n)
    have hl := ((deserialize_takes ht he (Nat.le_refl n) bytes').only _ hr).right
    rwa [bitsLeft_encodes he he'] at hl

theorem value_roundTrips_iff (ht : Typed types n shape v) (w : Value) :
    RoundTrips types n shape v w ↔ 8 * v.byteLen < 2 ^ 32 ∧ v.bitLen ≤ 8 * (v.byteLen + w.byteLen) % 2 ^ 32 :=
  ⟨fun h => h.bounds ht, fun h => .of_bounds ht h.left h.right⟩

theorem value_roundTrips_iff_nested :
    let types _ := Shape.enum [.unit, .newtype (.named "Rest")]
    let v := Value.struct [.some (.str "puck"), .newtypeVariant 1 (.unitVariant 0)]
    RoundTrips types 5 (.struct [.option .str, .named "Rest"]) v .unit ↔
      8 * v.byteLen < 2 ^ 32 ∧ v.bitLen ≤ 8 * (v.byteLen + Value.byteLen .unit) % 2 ^ 32 :=
  value_roundTrips_iff (.struct rfl <| List.forall_mem_cons.mpr ⟨.some (.str (by decide)),
    List.forall_mem_cons.mpr ⟨.named (.newtypeVariant rfl (.named (.unitVariant rfl))), nofun⟩⟩) .unit

theorem bitLen_bytes {v : List (BitVec 8)} :
    (Value.bytes v).bitLen = varintLen (.ofNat 64 v.length) + 8 * v.length := by
  have hb : Field.bitLen ∘ byteField = fun _ => 8 := rfl
  simp [Value.bitLen, Value.layout, bytesLayout, totalBits, countField, Field.bitLen, hb, Nat.mul_comm]

-- Of an encoding that is longer than 2 ^ 29 bytes, the reader counts the bits beyond only.
theorem bytes_unread {bytes : List (BitVec 8)} (hl : bytes.length = 2 ^ 29) :
    Typed types 1 .bytes (.bytes bytes) ∧ ¬RoundTrips types 1 .bytes (.bytes bytes) w := by
  have ht : Typed types 1 .bytes (.bytes bytes) := .bytes (by omega)
  refine ⟨ht, fun h => ?_⟩
  have hb := (h.bounds ht).left
  rw [Value.byteLen, bitLen_bytes, hl] at hb
  omega

theorem long_unread : ¬∀ types n shape v w, Typed types n shape v → RoundTrips types n shape v w := by
  intro h
  have ⟨ht, hn⟩ : Typed (fun _ => .any) 1 .bytes (.bytes (.replicate (2 ^ 29) 0)) ∧
      ¬RoundTrips (fun _ => .any) 1 .bytes (.bytes (.replicate (2 ^ 29) 0)) .unit :=
    bytes_unread List.length_replicate
  exact hn <| h _ _ _ _ _ ht

end Plaza.Wire.BitCodec
