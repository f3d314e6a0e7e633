import Plaza.Wire.Bits

namespace Plaza.Wire.BitCodec

inductive Error
  | message (text : String)
  | bits (e : BitError)
  | notSelfDescribing
  | utf8
  -- Not an error of the codec: the nesting is deeper than the stack.
  | depth
  deriving DecidableEq, Repr

abbrev Result (α : Type) :=
  Except Error α

-- Every error of the bit layer is one of the codec.
def lift {α : Type} (res : Except BitError α) : Result α :=
  res.mapError .bits

inductive IntType
  | i8
  | i16
  | i32
  | i64
  | u8
  | u16
  | u32
  | u64
  deriving DecidableEq, Repr

namespace IntType

def width : IntType → Nat
  | .i8  | .u8  => 8
  | .i16 | .u16 => 16
  | .i32 | .u32 => 32
  | .i64 | .u64 => 64

def isSigned : IntType → Bool
  | .i8 | .i16 | .i32 | .i64 => true
  | .u8 | .u16 | .u32 | .u64 => false

end IntType

-- What a type serializes to. Neither the names of structs, variants and fields nor those of types are
-- part of it: the codec writes none of them.
inductive Value
  | bool (v : Bool)
  | int (ty : IntType) (v : BitVec ty.width)
  | f32 (bits : BitVec 32)
  | f64 (bits : BitVec 64)
  | char (v : Char)
  | str (v : String)
  | bytes (v : List (BitVec 8))
  | none
  | some (v : Value)
  | unit
  | unitStruct
  | unitVariant (index : BitVec 32)
  | newtypeStruct (v : Value)
  | newtypeVariant (index : BitVec 32) (v : Value)
  | seq (items : List Value)
  | tuple (items : List Value)
  | tupleStruct (fields : List Value)
  | tupleVariant (index : BitVec 32) (fields : List Value)
  | map (entries : List (Value × Value))
  | struct (fields : List Value)
  | structVariant (index : BitVec 32) (fields : List Value)

-- A length or tag.
def writeCount (w : BitWriter) (n : Nat) : Result BitWriter :=
  lift <| w.varint <| .ofNat 64 n

-- All narrower integers are extended first.
def serializeInt (w : BitWriter) (ty : IntType) (v : BitVec ty.width) : Result BitWriter :=
  if ty.isSigned then lift <| w.signedVarint <| v.signExtend 64 else lift <| w.varint <| v.setWidth 64

def serializeF32 (w : BitWriter) (bits : BitVec 32) : Result BitWriter :=
  lift <| w.bits (bits.setWidth 64) 32

def serializeF64 (w : BitWriter) (bits : BitVec 64) : Result BitWriter :=
  lift <| w.bits bits 64

def serializeChar (w : BitWriter) (v : Char) : Result BitWriter :=
  lift <| w.varint <| .ofNat 64 v.toNat

def serializeBytes (w : BitWriter) (v : List (BitVec 8)) : Result BitWriter := do
  let w ← writeCount w v.length
  v.foldlM (fun w byte => lift <| w.bits (byte.setWidth 64) 8) w

def asBytes (s : String) : List (BitVec 8) :=
  s.toByteArray.data.toList.map UInt8.toBitVec

def serializeStr (w : BitWriter) (v : String) : Result BitWriter :=
  serializeBytes w (asBytes v)

def serializeVariant (w : BitWriter) (index : BitVec 32) : Result BitWriter :=
  lift <| w.varint <| index.setWidth 64

def serializeSeq (w : BitWriter) : Option Nat → Result BitWriter
  | .some len => writeCount w len
  | .none     => .error <| .message "the bit codec needs a known sequence length"

def serializeMap (w : BitWriter) : Option Nat → Result BitWriter
  | .some len => writeCount w len
  | .none     => .error <| .message "the bit codec needs a known map length"

-- What a value asks of the serializer. A collection knows its length.
mutual

def Value.serialize : Value → BitWriter → Result BitWriter
  | .bool v,                 w => lift <| w.bool v
  | .int ty v,               w => serializeInt w ty v
  | .f32 bits,               w => serializeF32 w bits
  | .f64 bits,               w => serializeF64 w bits
  | .char v,                 w => serializeChar w v
  | .str v,                  w => serializeStr w v
  | .bytes v,                w => serializeBytes w v
  | .none,                   w => lift <| w.bool false
  | .some v,                 w => do v.serialize (← lift <| w.bool true)
  | .unit,                   w => return w
  | .unitStruct,             w => return w
  | .unitVariant index,      w => serializeVariant w index
  | .newtypeStruct v,        w => v.serialize w
  | .newtypeVariant index v, w => do v.serialize (← serializeVariant w index)
  | .seq items,              w => do serializeAll items (← serializeSeq w items.length)
  | .tuple items,            w => serializeAll items w
  | .tupleStruct fields,     w => serializeAll fields w
  | .tupleVariant index fs,  w => do serializeAll fs (← serializeVariant w index)
  | .map entries,            w => do serializeEntries entries (← serializeMap w entries.length)
  | .struct fields,          w => serializeAll fields w
  | .structVariant index fs, w => do serializeAll fs (← serializeVariant w index)

def serializeAll : List Value → BitWriter → Result BitWriter
  | [],      w => return w
  | v :: vs, w => do serializeAll vs (← v.serialize w)

def serializeEntries : List (Value × Value) → BitWriter → Result BitWriter
  | [],                      w => return w
  | (key, value) :: entries, w => do serializeEntries entries (← value.serialize (← key.serialize w))

end

def encode (v : Value) : Result (List (BitVec 8)) :=
  (v.serialize .new).map BitWriter.finish

def encodeInto (v : Value) (buf : List (BitVec 8)) : Result (List (BitVec 8)) :=
  (encode v).map (buf ++ ·)

-- A type to be read, which says what to expect of the bits. Types may be recursive through their names.
mutual

inductive Shape
  | any
  | bool
  | int (ty : IntType)
  | f32
  | f64
  | char
  | str
  | bytes
  | option (shape : Shape)
  | unit
  | unitStruct
  | newtypeStruct (shape : Shape)
  | seq (item : Shape)
  | tuple (items : List Shape)
  | tupleStruct (fields : List Shape)
  | map (key value : Shape)
  | struct (fields : List Shape)
  | enum (variants : List Variant)
  | named (name : String)

inductive Variant
  | unit
  | newtype (shape : Shape)
  | tuple (fields : List Shape)
  | struct (fields : List Shape)

end

section Reading

variable {α β : Type}

abbrev Reader (α : Type) :=
  BitReader → Result (α × BitReader)

def readCount : Reader Nat := fun r => do
  let (n, r) ← lift r.varint
  return (n.toNat, r)

-- Elements whose number is already known.
def repeated (de : Reader α) : Nat → Reader (List α)
  | 0,        r => return ([], r)
  | left + 1, r => do
    let (a, r) ← de r
    let (as, r) ← repeated de left r
    return (a :: as, r)

-- Elements whose types are already known.
def each (de : β → Reader α) : List β → Reader (List α)
  | [],              r => return ([], r)
  | shape :: shapes, r => do
    let (a, r) ← de shape r
    let (as, r) ← each de shapes r
    return (a :: as, r)

def readEntry (key : Reader α) (value : Reader β) : Reader (α × β) := fun r => do
  let (k, r) ← key r
  let (v, r) ← value r
  return ((k, v), r)

def readByte : Reader (BitVec 8) := fun r => do
  let (byte, r) ← lift <| r.bits 8
  return (byte.setWidth 8, r)

def readBytes : Reader (List (BitVec 8)) := fun r => do
  let (len, r) ← readCount r
  repeated readByte len r

-- A cast to the type's width.
def deserializeInt (ty : IntType) : Reader (BitVec ty.width) := fun r => do
  let (v, r) ← lift <| if ty.isSigned then r.signedVarint else r.varint
  return (v.setWidth ty.width, r)

def deserializeF32 : Reader (BitVec 32) := fun r => do
  let (bits, r) ← lift <| r.bits 32
  return (bits.setWidth 32, r)

def deserializeF64 : Reader (BitVec 64) := fun r =>
  lift <| r.bits 64

def charFromU32 (raw : BitVec 32) : Option Char :=
  if h : raw.toNat.isValidChar then some (.ofNatAux raw.toNat h) else none

def deserializeChar : Reader Char := fun r => do
  let (raw, r) ← lift r.varint
  match charFromU32 (raw.setWidth 32) with
  | some v => return (v, r)
  | none   => .error .utf8

def fromUtf8 (bytes : List (BitVec 8)) : Option String :=
  String.fromUTF8? (bytes.map UInt8.ofBitVec).toByteArray

def deserializeString : Reader String := fun r => do
  let (bytes, r) ← readBytes r
  match fromUtf8 bytes with
  | some v => return (v, r)
  | none   => .error .utf8

def variantIndex : Reader (BitVec 32) := fun r => do
  let (index, r) ← lift r.varint
  return (index.setWidth 32, r)

def unknownVariant (index count : Nat) : Error :=
  .message s!"invalid value: integer `{index}`, expected variant index 0 <= i < {count}"

-- The content of a variant, whose tag has been read.
def deserializeVariant (de : Shape → Reader Value) (index : BitVec 32) : Variant → Reader Value
  | .unit          => fun r => return (.unitVariant index, r)
  | .newtype shape => fun r => do
    let (v, r) ← de shape r
    return (.newtypeVariant index v, r)
  | .tuple shapes  => fun r => do
    let (fields, r) ← each de shapes r
    return (.tupleVariant index fields, r)
  | .struct shapes => fun r => do
    let (fields, r) ← each de shapes r
    return (.structVariant index fields, r)

end Reading

-- What a type asks of the deserializer, in a stack of the given depth.
def deserialize (types : String → Shape) : Nat → Shape → Reader Value
  | 0,         _                    => fun _ => .error .depth
  | _ + 1,     .any                 => fun _ => .error .notSelfDescribing
  | _ + 1,     .bool                => fun r => do let (v, r) ← lift r.bool; return (.bool v, r)
  | _ + 1,     .int ty              => fun r => do let (v, r) ← deserializeInt ty r; return (.int ty v, r)
  | _ + 1,     .f32                 => fun r => do let (bits, r) ← deserializeF32 r; return (.f32 bits, r)
  | _ + 1,     .f64                 => fun r => do let (bits, r) ← deserializeF64 r; return (.f64 bits, r)
  | _ + 1,     .char                => fun r => do let (v, r) ← deserializeChar r; return (.char v, r)
  | _ + 1,     .str                 => fun r => do let (v, r) ← deserializeString r; return (.str v, r)
  | _ + 1,     .bytes               => fun r => do let (v, r) ← readBytes r; return (.bytes v, r)
  | depth + 1, .option shape        => fun r => do
    let (present, r) ← lift r.bool
    if present then
      let (v, r) ← deserialize types depth shape r
      return (.some v, r)
    else
      return (.none, r)
  | _ + 1,     .unit                => fun r => return (.unit, r)
  | _ + 1,     .unitStruct          => fun r => return (.unitStruct, r)
  | depth + 1, .newtypeStruct shape => fun r => do
    let (v, r) ← deserialize types depth shape r
    return (.newtypeStruct v, r)
  | depth + 1, .seq item            => fun r => do
    let (len, r) ← readCount r
    let (items, r) ← repeated (deserialize types depth item) len r
    return (.seq items, r)
  | depth + 1, .tuple shapes        => fun r => do
    let (items, r) ← each (deserialize types depth) shapes r
    return (.tuple items, r)
  | depth + 1, .tupleStruct shapes  => fun r => do
    let (fields, r) ← each (deserialize types depth) shapes r
    return (.tupleStruct fields, r)
  | depth + 1, .map key value       => fun r => do
    let (len, r) ← readCount r
    let (entries, r) ← repeated (readEntry (deserialize types depth key) (deserialize types depth value)) len r
    return (.map entries, r)
  | depth + 1, .struct shapes       => fun r => do
    let (fields, r) ← each (deserialize types depth) shapes r
    return (.struct fields, r)
  | depth + 1, .enum variants       => fun r => do
    let (index, r) ← variantIndex r
    match variants[index.toNat]? with
    | some variant => deserializeVariant (deserialize types depth) index variant r
    | none         => .error (unknownVariant index.toNat variants.length)
  | depth + 1, .named name          => deserialize types depth (types name)

def decode (types : String → Shape) (depth : Nat) (shape : Shape) (bytes : List (BitVec 8)) : Result Value :=
  (deserialize types depth shape (.new bytes)).map Prod.fst

end Plaza.Wire.BitCodec
