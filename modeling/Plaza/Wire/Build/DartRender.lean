import Plaza.Lib.DartProgram
import Plaza.Wire.Build.DartTypes

open Dart (Value)

namespace Plaza.Build

-- The data model of serde: what the derived implementations hand to a format. A map has its keys and its values, and
-- what has named fields has their names and their values.
inductive Data
  | bool (b : Bool)
  | int (n : Int)
  | double (x : Float)
  | str (s : String)
  | none
  | some (d : Data)
  | unit
  | unitStruct
  | newtypeStruct (d : Data)
  | seq (ds : List Data)
  | tuple (ds : List Data)
  | tupleStruct (ds : List Data)
  | map (keys values : List Data)
  | struct (names : List String) (ds : List Data)
  | unitVariant (name : String)
  | newtypeVariant (name : String) (d : Data)
  | tupleVariant (name : String) (ds : List Data)
  | structVariant (name : String) (names : List String) (ds : List Data)

-- Named fields are a map in named mode, and an array in compact mode.
def fieldsShape (named : Bool) (names : List String) (vs : List Value) : Value :=
  if named then .map <| (names.map Value.str).zip vs else .list vs

def variantShape (name : String) (body : Value) : Value :=
  .map [(.str name, body)]

namespace Data

mutual

-- The structure on the wire, where `unit` stands for a unit.
def shape (unit : Value) (named : Bool) : Data → Value
  | bool b                  => .bool b
  | int n                   => .int n
  | double x                => .double x
  | str s                   => .str s
  | none                    => .null
  | some d                  => d.shape unit named
  | .unit | unitStruct      => unit
  | newtypeStruct d         => d.shape unit named
  | seq ds | tuple ds       => .list <| shapes unit named ds
  | tupleStruct ds          => .list <| shapes unit named ds
  | map keys values         => .map <| (shapes unit named keys).zip (shapes unit named values)
  | struct names ds         => fieldsShape named names <| shapes unit named ds
  | unitVariant name        => .str name
  | newtypeVariant name d   => variantShape name <| d.shape unit named
  | tupleVariant name ds    => variantShape name <| .list <| shapes unit named ds
  | structVariant name names ds => variantShape name <| fieldsShape named names <| shapes unit named ds

def shapes (unit : Value) (named : Bool) : List Data → List Value
  | []      => []
  | d :: ds => d.shape unit named :: shapes unit named ds

end

-- A unit is nil on the wire.
def wire (named : Bool) (d : Data) : Value :=
  d.shape .null named

mutual

def unitFree : Data → Bool
  | bool _ | int _ | double _ | str _ | none | unitVariant _ => true
  | unit | unitStruct                                        => false
  | some d | newtypeStruct d | newtypeVariant _ d            => d.unitFree
  | seq ds | tuple ds | tupleStruct ds                       => allUnitFree ds
  | tupleVariant _ ds | struct _ ds | structVariant _ _ ds   => allUnitFree ds
  | map keys values                                          => allUnitFree keys && allUnitFree values

def allUnitFree : List Data → Bool
  | []      => true
  | d :: ds => d.unitFree && allUnitFree ds

end

-- Whether it is nil on the wire.
def isNil : Data → Bool
  | none | unit | unitStruct => true
  | some d | newtypeStruct d => d.isNil
  | _                        => false

mutual

-- No `Some` in it is written like a `None`.
def someKept : Data → Bool
  | bool _ | int _ | double _ | str _ | none | unitVariant _ => true
  | unit | unitStruct                                        => true
  | some d                                                   => !d.isNil && d.someKept
  | newtypeStruct d | newtypeVariant _ d                     => d.someKept
  | seq ds | tuple ds | tupleStruct ds                       => allSomeKept ds
  | tupleVariant _ ds | struct _ ds | structVariant _ _ ds   => allSomeKept ds
  | map keys values                                          => allSomeKept keys && allSomeKept values

def allSomeKept : List Data → Bool
  | []      => true
  | d :: ds => d.someKept && allSomeKept ds

end
end Data
end Plaza.Build

open Dart (Method Program)

-- The generated text, as the program that it is.
namespace Plaza.Build

mutual

-- What encodes the value of `e`.
def encode : Dart.Expr → Ty → Dart.Expr
  | e, .int | e, .double | e, .bool | e, .str => e
  | e, .durationTy | e, .user _               => .invoke e "toWire" [.var "named"]
  | e, .option inner                          => .unlessNull e (encode e inner)
  | e, .list inner                            => .listFor "e" e (encode (.var "e") inner)
  | e, .mapTy key value                       =>
    .mapFor "e" e (encode (.get (.var "e") "key") key) (encode (.get (.var "e") "value") value)
  | e, .tuple elems                           => .list (encodeElems e 0 elems)

def encodeElems : Dart.Expr → Nat → List Ty → List Dart.Expr
  | _, _, []          => []
  | e, i, ty :: types => encode (.component e i) ty :: encodeElems e (i + 1) types

end

mutual

-- What decodes the untyped value of `e`.
def decode : Dart.Expr → Ty → Dart.Expr
  | e, .int             => .cast .int e
  | e, .double          => .toDouble e
  | e, .bool            => .cast .bool e
  | e, .str             => .cast .str e
  | e, .durationTy      => .static "WireDuration" "fromWire" [e]
  | e, .user name       => .static name "fromWire" [e]
  | e, .option inner    => .unlessNull e (decode e inner)
  | e, .list inner      => .listFor "e" (.cast .list e) (decode (.var "e") inner)
  | e, .mapTy key value =>
    .mapFor "e" (.cast .map e) (decode (.get (.var "e") "key") key) (decode (.get (.var "e") "value") value)
  | e, .tuple elems     => .block [("t", .cast .list e)] (.record (decodeElems (.var "t") 0 elems))

def decodeElems : Dart.Expr → Nat → List Ty → List Dart.Expr
  | _, _, []          => []
  | l, i, ty :: types => decode (.index l i) ty :: decodeElems l (i + 1) types

end

def locals (fields : List PlanField) : List (String × Dart.Expr) :=
  fields.map fun f => (f.dart ++ "0", .var f.dart)

def namedEntries (fields : List PlanField) : List (String × Dart.Expr) :=
  fields.map fun f => (f.rust, encode (.var <| f.dart ++ "0") f.ty)

def compactEntries (fields : List PlanField) : List Dart.Expr :=
  fields.map fun f => encode (.var <| f.dart ++ "0") f.ty

def mapArgsFrom (fields : List PlanField) (map : Dart.Expr) : List (String × Dart.Expr) :=
  fields.map fun f => (f.dart, decode (.entry map <| .text f.rust) f.ty)

def listArgsFrom (fields : List PlanField) (list : Dart.Expr) : List (String × Dart.Expr) :=
  (fields.map PlanField.dart).zip <| decodeElems list 0 (fields.map PlanField.ty)

-- The fields of a tuple.
def elemNames (elems : List Ty) : List String :=
  (List.range elems.length).map fun i => s!"f{i}"

def elemEntries (elems : List Ty) : List Dart.Expr :=
  ((elemNames elems).zip elems).map fun (f, ty) => encode (.var f) ty

def elemArgs (elems : List Ty) (list : Dart.Expr) : List (String × Dart.Expr) :=
  (elemNames elems).zip <| decodeElems list 0 elems

def toWire (body : Dart.Expr) : List (String × Method) :=
  [("toWire", { params := ["named"], body })]

def fromWire (body : Dart.Expr) : List (String × Method) :=
  [("fromWire", { params := ["wire"], body })]

-- Reads the form that a struct has in either mode.
def structFrom (cls : String) (fields : List PlanField) (wire : Dart.Expr) (l : String) : Dart.Expr :=
  .ifIs .map wire (.construct cls <| mapArgsFrom fields wire) <|
    .block [(l, .cast .list wire)] <| .construct cls <| listArgsFrom fields <| .var l

def renderStruct (dart : String) (fields : List PlanField) : Dart.Class where
  methods := toWire <| .block (locals fields) <|
    .cond (.var "named") (.map <| namedEntries fields) (.list <| compactEntries fields)
  statics := fromWire <| structFrom dart fields (.var "wire") "l"

namespace VariantPlan

-- The class of a variant, which has no way from the wire of its own.
def render (dart : String) : VariantPlan → String × Dart.Class
  | unit name          => (dart ++ name, { methods := toWire <| .text name, statics := [] })
  | newType name ty    => (dart ++ name, {
      methods := toWire <| .block [("v", .var "value")] <| .map [(name, encode (.var "v") ty)]
      statics := []
    })
  | tuple name elems   => (dart ++ name, {
      methods := toWire <| .map [(name, .list <| elemEntries elems)]
      statics := []
    })
  | struct name fields => (dart ++ name, {
      methods := toWire <| .block (locals fields) <|
        .map [(name, .cond (.var "named") (.map <| namedEntries fields) (.list <| compactEntries fields))]
      statics := []
    })

def unitCase (dart : String) : VariantPlan → Option (String × Dart.Expr)
  | unit name => some (name, .construct (dart ++ name) [])
  | _         => none

def bodyCase (dart : String) : VariantPlan → Option (String × Dart.Expr)
  | unit _             => none
  | newType name ty    => some (name, .construct (dart ++ name) [("value", decode (.var "body") ty)])
  | tuple name elems   => some (name, .block [("bl", .cast .list <| .var "body")] <|
      .construct (dart ++ name) <| elemArgs elems <| .var "bl")
  | struct name fields => some (name, structFrom (dart ++ name) fields (.var "body") "bl")

end VariantPlan

def renderDataEnum (dart : String) (variants : List VariantPlan) : List (String × Dart.Class) :=
  (dart, {
    methods := []
    statics := fromWire <|
      .ifIs .str (.var "wire") (.switch (.var "wire") <| variants.filterMap <| VariantPlan.unitCase dart) <|
        .block [
          ("m", .cast .map <| .var "wire"),
          ("name", .cast .str <| .firstKey <| .var "m"),
          ("body", .entry (.var "m") (.var "name"))
        ] <| .switch (.var "name") <| variants.filterMap <| VariantPlan.bodyCase dart
  }) :: variants.map (VariantPlan.render dart)

-- The constants of an enum are objects that have their name on the wire. `firstWhere` finds the first that has it.
def renderPlan (dart : String) : Plan → List (String × Dart.Class)
  | .unitEnum variants => [(dart, {
      methods := toWire <| .var "wireName"
      statics := fromWire <| .switch (.cast .str <| .var "wire") <|
        variants.map fun v => (v, .construct dart [("wireName", .text v)])
    })]
  | .newType inner     => [(dart, {
      methods := toWire <| .block [("v", .var "value")] <| encode (.var "v") inner
      statics := fromWire <| .construct dart [("value", decode (.var "wire") inner)]
    })]
  | .tupleStruct elems => [(dart, {
      methods := toWire <| .list <| elemEntries elems
      statics := fromWire <| .block [("l", .cast .list <| .var "wire")] <|
        .construct dart <| elemArgs elems <| .var "l"
    })]
  | .struct fields     => [(dart, renderStruct dart fields)]
  | .dataEnum variants => renderDataEnum dart variants

def wireDuration : Dart.Class where
  methods := toWire <| .cond (.var "named")
    (.map [("secs", .var "secs"), ("nanos", .var "nanos")])
    (.list [.var "secs", .var "nanos"])
  statics := fromWire <| .ifIs .map (.var "wire")
    (.construct "WireDuration" [
      ("secs", .cast .int <| .entry (.var "wire") (.text "secs")),
      ("nanos", .cast .int <| .entry (.var "wire") (.text "nanos"))
    ]) <|
    .block [("l", .cast .list <| .var "wire")] <| .construct "WireDuration" [
      ("secs", .cast .int <| .index (.var "l") 0),
      ("nanos", .cast .int <| .index (.var "l") 1)
    ]

def render (plans : Plans) : Program :=
  ("WireDuration", wireDuration) :: (plans.keys.sort (· ≤ ·)).flatMap fun dart =>
    (plans.lookup dart).elim [] (renderPlan dart)

end Plaza.Build
