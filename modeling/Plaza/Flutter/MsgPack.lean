import Mathlib.Data.List.Defs
import Plaza.Lib.Bits
import Plaza.Lib.Dart

-- MessagePack as the Dart client writes and reads it.
namespace Plaza.Flutter.MsgPack

open Dart (Word utf8Encode utf8Decode Marked dropMark)

-- The values of Dart which have an encoding. A double is given by its bits, and the entries of a map stand in
-- the order in which they were added.
inductive Value
  | null
  | bool (v : Bool)
  | int (v : Word)
  | double (bits : BitVec 64)
  | string (s : String)
  | bytes (v : List UInt8)
  | list (vs : List Value)
  | map (es : List (Value × Value))

-- The lowest bytes of a number, in network order.
abbrev be (width n : Nat) : List UInt8 :=
  BigEndian.bytes width n

-- The header of an array or a map.
def len (n fixBase : Nat) (c16 c32 : UInt8) : List UInt8 :=
  if n < 16 then
    [.ofNat (fixBase ||| n)]
  else if n ≤ 0xffff then
    c16 :: be 2 n
  else
    c32 :: be 4 n

def int (v : Word) : List UInt8 :=
  if Word.le 0 v then
    if v.lt 128 then [.ofNat v.toNat]
    else if v.le 0xff then [0xcc, .ofNat v.toNat]
    else if v.le 0xffff then 0xcd :: be 2 v.toNat
    else if v.le 0xffffffff then 0xce :: be 4 v.toNat
    else 0xcf :: be 8 v.toNat
  else if Word.le (-32) v then [.ofNat (0xe0 ||| (v + 32).toNat)]
  else if Word.le (-128) v then 0xd0 :: be 1 v.toNat
  else if Word.le (-32768) v then 0xd1 :: be 2 v.toNat
  else if Word.le (-2147483648) v then 0xd2 :: be 4 v.toNat
  else 0xd3 :: be 8 v.toNat

-- The header of a string of `n` bytes.
def strHeader (n : Nat) : List UInt8 :=
  if n < 32 then [.ofNat (0xa0 ||| n)]
  else if n ≤ 0xff then [0xd9, .ofNat n]
  else if n ≤ 0xffff then 0xda :: be 2 n
  else 0xdb :: be 4 n

def str (s : String) : List UInt8 :=
  let utf8Bytes := utf8Encode s
  strHeader utf8Bytes.length ++ utf8Bytes

def binHeader (n : Nat) : List UInt8 :=
  if n ≤ 0xff then [0xc4, .ofNat n]
  else if n ≤ 0xffff then 0xc5 :: be 2 n
  else 0xc6 :: be 4 n

def bin (v : List UInt8) : List UInt8 :=
  binHeader v.length ++ v

mutual

def write : Value → List UInt8
  | .null        => [0xc0]
  | .bool v      => [if v then 0xc3 else 0xc2]
  | .int v       => int v
  | .double bits => 0xcb :: be 8 bits.toNat
  | .string s    => str s
  | .bytes v     => bin v
  | .list vs     => len vs.length 0x90 0xdc 0xdd ++ writeAll vs
  | .map es      => len es.length 0x80 0xde 0xdf ++ writeEntries es

def writeAll : List Value → List UInt8
  | []      => []
  | v :: vs => write v ++ writeAll vs

def writeEntries : List (Value × Value) → List UInt8
  | []           => []
  | (k, v) :: es => write k ++ (write v ++ writeEntries es)

end

def msgPackEncode (value : Value) : List UInt8 :=
  write value

-- What goes wrong while reading. The rounds of the model are never exhausted.
inductive Failure
  | msgPackError (message : String)
  | formatException
  | exhausted
  deriving DecidableEq, Repr

-- The offset of the next byte, and the bytes from there on.
structure Reader where
  i    : Nat
  rest : List UInt8
  deriving DecidableEq, Repr

-- What is left to the floating point numbers of the platform: `getFloat32`, and whether an integer equals a
-- double.
structure Floats where
  widen  : BitVec 32 → BitVec 64
  equals : Word → BitVec 64 → Bool

namespace Reader

def need (r : Reader) (n : Nat) : Except Failure Unit :=
  if r.rest.length < n then
    let offset := r.i
    .error (.msgPackError s!"truncated: wanted {n} more byte(s) at offset {offset}")
  else
    .ok ()

-- The next `n` bytes, once it is known that they are there.
def take (r : Reader) (n : Nat) : List UInt8 × Reader :=
  (r.rest.take n, { i := r.i + n, rest := r.rest.drop n })

def chunk (r : Reader) (n : Nat) : Except Failure (List UInt8 × Reader) := do
  r.need n
  return r.take n

-- The getters of an unsigned number of the given width, of which `u8` is the one with a single byte.
def uint (r : Reader) (width : Nat) : Except Failure (Nat × Reader) :=
  r.chunk width |>.map (.map BigEndian.value id)

def u8 (r : Reader) : Except Failure (Nat × Reader) :=
  r.uint 1

-- The getters of a signed number.
def sint (r : Reader) (width : Nat) : Except Failure (Word × Reader) :=
  r.uint width |>.map (.map (fun n => (BitVec.ofNat (8 * width) n).signExtend 64) id)

def string (r : Reader) (n : Nat) : Except Failure (Value × Reader) := do
  let (bytes, r) ← r.chunk n
  match utf8Decode bytes with
  | some s => return (.string s, r)
  | none   => .error .formatException

def binary (r : Reader) (n : Nat) : Except Failure (Value × Reader) :=
  r.chunk n |>.map (.map .bytes id)

variable (read : Reader → Except Failure (Value × Reader))

def array (r : Reader) : Nat → Except Failure (List Value × Reader)
  | 0     => .ok ([], r)
  | n + 1 => do
    let (v, r) ← read r
    let (vs, r) ← r.array n
    return (v :: vs, r)

end Reader

def isNaN (x : BitVec 64) : Bool :=
  0x7ff0000000000000 < x &&& 0x7fffffffffffffff

-- A zero equals the other one, and what is not a number does not equal anything.
def doubleEquals (x y : BitVec 64) : Bool :=
  !isNaN x && !isNaN y && (x = y || (x <<< 1 = 0 && y <<< 1 = 0))

variable (f : Floats)

-- The operator `==`. Byte strings, lists and maps equal nothing but themselves, and what was read is new.
def equals : Value → Value → Bool
  | .null,     .null     => true
  | .bool x,   .bool y   => x = y
  | .int x,    .int y    => x = y
  | .int x,    .double y => f.equals x y
  | .double x, .int y    => f.equals y x
  | .double x, .double y => doubleEquals x y
  | .string x, .string y => x = y
  | _,         _         => false

def Value.isString : Value → Bool
  | .string _ => true
  | _         => false

-- The operator `[]=` of a map.
def assign : List (Value × Value) → Value → Value → List (Value × Value)
  | [],           k, v => [(k, v)]
  | (k', v') :: m, k, v => if equals f k' k then (k', v) :: m else (k', v') :: assign m k v

def Reader.map (read : Reader → Except Failure (Value × Reader)) (m : List (Value × Value)) (allStrings : Bool) (r : Reader) :
    Nat → Except Failure (Value × Reader)
  | 0     => .ok (.map (if allStrings then m.foldl (fun m e => assign f m e.fst e.snd) [] else m), r)
  | n + 1 => do
    let (k, r) ← read r
    let (v, r) ← read r
    r.map read (assign f m k v) (allStrings && k.isString) n

-- One value, with the rounds that the reader has left for those nested in it.
def read : Nat → Reader → Except Failure (Value × Reader)
  | 0,          _ => .error .exhausted
  | rounds + 1, r => do
    let offset := r.i
    let (b, r) ← r.u8
    if b ≤ 0x7f then return (.int <| .ofNat 64 b, r)
    else if 0xe0 ≤ b then return (.int <| .ofNat 64 b - 256, r)
    else if 0xa0 ≤ b ∧ b ≤ 0xbf then r.string (b &&& 0x1f)
    else if 0x90 ≤ b ∧ b ≤ 0x9f then r.array (read rounds) (b &&& 0x0f) |>.map (.map .list id)
    else if 0x80 ≤ b ∧ b ≤ 0x8f then r.map f (read rounds) [] true (b &&& 0x0f)
    else
      match b with
      | 0xc0 => return (.null, r)
      | 0xc2 => return (.bool false, r)
      | 0xc3 => return (.bool true, r)
      | 0xc4 => do let (n, r) ← r.u8; r.binary n
      | 0xc5 => do let (n, r) ← r.uint 2; r.binary n
      | 0xc6 => do let (n, r) ← r.uint 4; r.binary n
      | 0xca => r.uint 4 |>.map (.map (fun n => .double <| f.widen <| .ofNat 32 n) id)
      | 0xcb => r.uint 8 |>.map (.map (fun n => .double <| .ofNat 64 n) id)
      | 0xcc => r.u8 |>.map (.map (fun n => .int <| .ofNat 64 n) id)
      | 0xcd => r.uint 2 |>.map (.map (fun n => .int <| .ofNat 64 n) id)
      | 0xce => r.uint 4 |>.map (.map (fun n => .int <| .ofNat 64 n) id)
      | 0xcf => r.uint 8 |>.map (.map (fun n => .int <| .ofNat 64 n) id)
      | 0xd0 => r.sint 1 |>.map (.map .int id)
      | 0xd1 => r.sint 2 |>.map (.map .int id)
      | 0xd2 => r.sint 4 |>.map (.map .int id)
      | 0xd3 => r.sint 8 |>.map (.map .int id)
      | 0xd9 => do let (n, r) ← r.u8; r.string n
      | 0xda => do let (n, r) ← r.uint 2; r.string n
      | 0xdb => do let (n, r) ← r.uint 4; r.string n
      | 0xdc => do let (n, r) ← r.uint 2; r.array (read rounds) n |>.map (.map .list id)
      | 0xdd => do let (n, r) ← r.uint 4; r.array (read rounds) n |>.map (.map .list id)
      | 0xde => do let (n, r) ← r.uint 2; r.map f (read rounds) [] true n
      | 0xdf => do let (n, r) ← r.uint 4; r.map f (read rounds) [] true n
      | _    =>
        let hex := String.ofList <| Nat.toDigits 16 b
        .error (.msgPackError s!"unsupported format byte 0x{hex} at offset {offset}")

-- A reader of the bytes, which takes one of them for every value that is nested in another.
def readFirst (bytes : List UInt8) : Except Failure (Value × Reader) :=
  read f (bytes.length + 1) { i := 0, rest := bytes }

def msgPackDecode (bytes : List UInt8) : Except Failure Value := do
  let (v, r) ← readFirst f bytes
  if r.rest ≠ [] then
    let remaining := r.rest.length
    .error (.msgPackError s!"{remaining} trailing bytes")
  else
    return v

-- What there is to find in bytes of any kind, be they well formed or not.

-- The size of something is part of its format, or in as many bytes behind it.
inductive Size
  | inline (n : Nat)
  | behind (width : Nat)
  deriving DecidableEq, Repr

-- What the first byte of a value announces. An array has one value nested in it for every entry, a map has two.
inductive Format
  | fixed (width : Nat)
  | text (size : Size)
  | binary (size : Size)
  | nested (each : Nat) (size : Size)
  deriving DecidableEq, Repr

def format (b : Nat) : Option Format :=
  if b ≤ 0x7f then some <| .fixed 0
  else if 0xe0 ≤ b then some <| .fixed 0
  else if 0xa0 ≤ b ∧ b ≤ 0xbf then some <| .text <| .inline (b &&& 0x1f)
  else if 0x90 ≤ b ∧ b ≤ 0x9f then some <| .nested 1 <| .inline (b &&& 0x0f)
  else if 0x80 ≤ b ∧ b ≤ 0x8f then some <| .nested 2 <| .inline (b &&& 0x0f)
  else
    match b with
    | 0xc0 | 0xc2 | 0xc3 => some <| .fixed 0
    | 0xc4 => some <| .binary <| .behind 1
    | 0xc5 => some <| .binary <| .behind 2
    | 0xc6 => some <| .binary <| .behind 4
    | 0xcc | 0xd0 => some <| .fixed 1
    | 0xcd | 0xd1 => some <| .fixed 2
    | 0xca | 0xce | 0xd2 => some <| .fixed 4
    | 0xcb | 0xcf | 0xd3 => some <| .fixed 8
    | 0xd9 => some <| .text <| .behind 1
    | 0xda => some <| .text <| .behind 2
    | 0xdb => some <| .text <| .behind 4
    | 0xdc => some <| .nested 1 <| .behind 2
    | 0xdd => some <| .nested 1 <| .behind 4
    | 0xde => some <| .nested 2 <| .behind 2
    | 0xdf => some <| .nested 2 <| .behind 4
    | _    => none

-- The next `n` bytes and the ones behind them, if there are as many.
def cut (n : Nat) (bytes : List UInt8) : Option (List UInt8 × List UInt8) :=
  if n ≤ bytes.length then some (bytes.take n, bytes.drop n) else none

def Size.cut : Size → List UInt8 → Option (Nat × List UInt8)
  | inline n,     bytes => some (n, bytes)
  | behind width, bytes => MsgPack.cut width bytes |>.map (.map BigEndian.value id)

-- A value without the ones nested in it: its body if it is a text, the number of values nested in it, and the
-- bytes behind.
structure Token where
  text    : Option (List UInt8)
  nested  : Nat
  further : List UInt8
  deriving DecidableEq, Repr

def Format.token (bytes : List UInt8) : Format → Option Token
  | fixed width      => do
    let (_, further) ← cut width bytes
    return { text := none, nested := 0, further }
  | text size        => do
    let (n, bytes) ← size.cut bytes
    let (body, further) ← cut n bytes
    return { text := some body, nested := 0, further }
  | binary size      => do
    let (n, bytes) ← size.cut bytes
    let (_, further) ← cut n bytes
    return { text := none, nested := 0, further }
  | nested each size => do
    let (n, further) ← size.cut bytes
    return { text := none, nested := each * n, further }

def token (b : UInt8) (bytes : List UInt8) : Option Token :=
  format b.toNat |>.bind (·.token bytes)

-- The bodies of the texts among the next values, up to a byte which is no format or a size which is too large.
-- A round takes at least one byte.
def texts : Nat → Nat → List UInt8 → List (List UInt8)
  | rounds + 1, pending + 1, b :: bytes =>
    match token b bytes with
    | some t => t.text.toList ++ texts rounds (t.nested + pending) t.further
    | none   => []
  | _, _, _ => []

def textsIn (bytes : List UInt8) : List (List UInt8) :=
  texts bytes.length 1 bytes

def ValidText (text : List UInt8) : Prop :=
  (utf8Decode text).isSome

-- The offset of a reader is the one of the bytes which it has left.
structure Reader.Inside (r : Reader) (bytes : List UInt8) : Prop where
  i_le    : r.i ≤ bytes.length
  rest_eq : r.rest = bytes.drop r.i

-- The decoder comes to an end with a value or an error of its own, and no read goes beyond the bytes.
structure Guarded (f : Floats) (bytes : List UInt8) : Prop where
  outcome : (∃ v, msgPackDecode f bytes = .ok v) ∨ ∃ m, msgPackDecode f bytes = .error (.msgPackError m)
  first   : Reader.Inside { i := 0, rest := bytes } bytes
  chunk   : ∀ (r : Reader) n c r', r.Inside bytes → r.chunk n = .ok (c, r') →
    r.i + n ≤ bytes.length ∧ c = (bytes.drop r.i).take n ∧ r'.i = r.i + n ∧ r'.Inside bytes
  value   : ∀ rounds (r : Reader) v r', r.Inside bytes → read f rounds r = .ok (v, r') → r.i ≤ r'.i ∧ r'.Inside bytes

-- What the encoding has to preserve, and how short it has to be.

mutual

-- Values which are the same all the way down. The order of a map's entries does not matter.
inductive DeepEq : Value → Value → Prop
  | refl {v} : DeepEq v v
  | list {vs vs'} : AllEq vs vs' → DeepEq (.list vs) (.list vs')
  | map {es es'} : EntriesEq es es' → DeepEq (.map es) (.map es')

inductive AllEq : List Value → List Value → Prop
  | nil : AllEq [] []
  | cons {v v' vs vs'} : DeepEq v v' → AllEq vs vs' → AllEq (v :: vs) (v' :: vs')

inductive EntriesEq : List (Value × Value) → List (Value × Value) → Prop
  | nil : EntriesEq [] []
  | cons {k k' v v' es es₁ es₂} :
    DeepEq k k' → DeepEq v v' → EntriesEq es (es₁ ++ es₂) → EntriesEq ((k, v) :: es) (es₁ ++ (k', v') :: es₂)

end

namespace Value

variable (f : Floats)

mutual

-- No length is 2^32 or more, and no two keys of a map are equal.
def Supported : Value → Prop
  | string s => (utf8Encode s).length < 2 ^ 32
  | bytes v  => v.length < 2 ^ 32
  | list vs  => vs.length < 2 ^ 32 ∧ AllSupported vs
  | map es   => es.length < 2 ^ 32 ∧ es.Pairwise (¬equals f ·.fst ·.fst) ∧ EntriesSupported es
  | _        => True

def AllSupported : List Value → Prop
  | []      => True
  | v :: vs => Supported v ∧ AllSupported vs

def EntriesSupported : List (Value × Value) → Prop
  | []           => True
  | (k, v) :: es => Supported k ∧ Supported v ∧ EntriesSupported es

end

mutual

-- No string starts with a byte order mark.
def Unmarked : Value → Prop
  | string s => ¬Marked s
  | list vs  => AllUnmarked vs
  | map es   => EntriesUnmarked es
  | _        => True

def AllUnmarked : List Value → Prop
  | []      => True
  | v :: vs => Unmarked v ∧ AllUnmarked vs

def EntriesUnmarked : List (Value × Value) → Prop
  | []           => True
  | (k, v) :: es => Unmarked k ∧ Unmarked v ∧ EntriesUnmarked es

end
end Value

-- One of the forms in which a number can be written: a single byte which stands for numbers from `low` on, or
-- a byte for the form and the number behind it.
structure Form where
  low   : Int
  high  : Int
  bytes : Int → List UInt8

namespace Form

def Has (form : Form) (n : Int) : Prop :=
  form.low ≤ n ∧ n < form.high

def fix (base : Nat) (low high : Int) : Form where
  low   := low
  high  := high
  bytes n := [.ofNat (base + (n - low).toNat)]

def unsigned (first : UInt8) (width : Nat) : Form where
  low     := 0
  high    := 256 ^ width
  bytes n := first :: be width n.toNat

def signed (first : UInt8) (width : Nat) : Form where
  low     := -(256 ^ width / 2)
  high    := 256 ^ width / 2
  bytes n := first :: be width (n % 256 ^ width).toNat

end Form

-- What is written for an integer, or ahead of what has a length.
inductive Header
  | int (v : Word)
  | array (n : Nat)
  | map (n : Nat)
  | string (n : Nat)
  | binary (n : Nat)
  deriving DecidableEq, Repr

namespace Header

def number : Header → Int
  | int v    => v.toInt
  | array n  => n
  | map n    => n
  | string n => n
  | binary n => n

def written : Header → List UInt8
  | int v    => MsgPack.int v
  | array n  => len n 0x90 0xdc 0xdd
  | map n    => len n 0x80 0xde 0xdf
  | string n => strHeader n
  | binary n => binHeader n

-- The forms which the writer has.
def forms : Header → List Form
  | int _    => [
      .fix 0 0 128, .unsigned 0xcc 1, .unsigned 0xcd 2, .unsigned 0xce 4, .unsigned 0xcf 8,
      .fix 0xe0 (-32) 0, .signed 0xd0 1, .signed 0xd1 2, .signed 0xd2 4, .signed 0xd3 8]
  | array _  => [.fix 0x90 0 16, .unsigned 0xdc 2, .unsigned 0xdd 4]
  | map _    => [.fix 0x80 0 16, .unsigned 0xde 2, .unsigned 0xdf 4]
  | string _ => [.fix 0xa0 0 32, .unsigned 0xd9 1, .unsigned 0xda 2, .unsigned 0xdb 4]
  | binary _ => [.unsigned 0xc4 1, .unsigned 0xc5 2, .unsigned 0xc6 4]

structure Shortest (h : Header) : Prop where
  form     : ∃ form ∈ h.forms, form.Has h.number ∧ h.written = form.bytes h.number
  shortest : ∀ form ∈ h.forms, form.Has h.number → h.written.length ≤ (form.bytes h.number).length

end Header

-- An encoding is made of headers and of bytes which have no choice.
inductive Piece
  | header (h : Header)
  | raw (bytes : List UInt8)
  deriving DecidableEq, Repr

def Piece.bytes : Piece → List UInt8
  | header h  => h.written
  | raw bytes => bytes

mutual

def Value.pieces : Value → List Piece
  | null        => [.raw [0xc0]]
  | bool v      => [.raw [if v then 0xc3 else 0xc2]]
  | int v       => [.header (.int v)]
  | double bits => [.raw (0xcb :: be 8 bits.toNat)]
  | string s    => [.header (.string (utf8Encode s).length), .raw (utf8Encode s)]
  | bytes v     => [.header (.binary v.length), .raw v]
  | list vs     => .header (.array vs.length) :: allPieces vs
  | map es      => .header (.map es.length) :: entryPieces es

def Value.allPieces : List Value → List Piece
  | []      => []
  | v :: vs => v.pieces ++ allPieces vs

def Value.entryPieces : List (Value × Value) → List Piece
  | []           => []
  | (k, v) :: es => k.pieces ++ (v.pieces ++ entryPieces es)

end

-- A value survives being written and read, alone or with more behind it, and is written in the shortest forms.
structure Faithful (f : Floats) (v : Value) : Prop where
  decodes  : ∃ v', msgPackDecode f (msgPackEncode v) = .ok v' ∧ DeepEq v' v
  stops    : ∀ further, ∃ v', DeepEq v' v ∧
    readFirst f (msgPackEncode v ++ further) = .ok (v', { i := (msgPackEncode v).length, rest := further })
  pieces   : msgPackEncode v = v.pieces.flatMap (·.bytes)
  shortest : ∀ h, .header h ∈ v.pieces → h.Shortest

end Plaza.Flutter.MsgPack
