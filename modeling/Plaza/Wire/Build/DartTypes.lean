import Mathlib.Data.Finmap
import Mathlib.Data.Finset.Sort
import Mathlib.Data.String.Basic
import Plaza.Wire.Build.Resolve

namespace Plaza.Build

-- The properties and mappings of characters that the names in the generated text depend on.
structure Casing where
  isUppercase : Char → Bool
  toUppercase : Char → List Char
  toLowercase : Char → List Char

-- A resolved wire type, past every alias, substitution and container.
inductive Ty
  | int
  | double
  | bool
  | str
  | durationTy
  | option (inner : Ty)
  | list (inner : Ty)
  | mapTy (key value : Ty)
  | tuple (elems : List Ty)
  | user (name : String)
  deriving Repr

structure PlanField where
  rust : String
  dart : String
  ty   : Ty
  deriving Repr

inductive VariantPlan
  | unit (name : String)
  | newType (name : String) (ty : Ty)
  | tuple (name : String) (elems : List Ty)
  | struct (name : String) (fields : List PlanField)
  deriving Repr

inductive Plan
  | unitEnum (variants : List String)
  | dataEnum (variants : List VariantPlan)
  | struct (fields : List PlanField)
  | newType (inner : Ty)
  | tupleStruct (elems : List Ty)
  deriving Repr

mutual

def argName : Ty → String
  | .int             => "Int"
  | .double          => "Double"
  | .bool            => "Bool"
  | .str             => "String"
  | .durationTy      => "Duration"
  | .option inner    => "Opt" ++ argName inner
  | .list inner      => "ListOf" ++ argName inner
  | .mapTy key value => "MapOf" ++ argName key ++ argName value
  | .tuple elems     => "Tuple" ++ argNames elems
  | .user name       => name

def argNames : List Ty → String
  | []          => ""
  | ty :: types => argName ty ++ argNames types

end

def mangle (base : String) (args : List Ty) : String :=
  base ++ argNames args

namespace Casing

def camelFrom (u : Casing) : Bool → List Char → List Char
  | _,     []          => []
  | upper, c :: chars  =>
    if c = '_' then u.camelFrom true chars
    else if upper then u.toUppercase c ++ u.camelFrom false chars
    else c :: u.camelFrom false chars

def camel (u : Casing) (snakeName : String) : String :=
  .ofList <| u.camelFrom false snakeName.toList

def snakeFrom (u : Casing) : Bool → List Char → List Char
  | _,     []         => []
  | first, c :: chars =>
    if u.isUppercase c then (if first then [] else ['_']) ++ u.toLowercase c ++ u.snakeFrom false chars
    else c :: u.snakeFrom false chars

def snake (u : Casing) (pascal : String) : String :=
  .ofList <| u.snakeFrom true pascal.toList

end Casing

-- A part of the generator, which has a state, reports errors and goes on after them, or does not come to an end.
def Gen (σ α : Type) :=
  σ → Option (α × σ × List String)

namespace Gen

variable {σ α β : Type}

instance : Monad (Gen σ) where
  pure a s   := some (a, s, [])
  bind x f s := do
    let (a, s, errors)  ← x s
    let (b, s, errors') ← f a s
    return (b, s, errors ++ errors')

def error (text : String) : Gen σ Unit :=
  fun s => some ((), s, [text])

def state : Gen σ σ :=
  fun s => some (s, s, [])

def put (s : σ) : Gen σ Unit :=
  fun _ => some ((), s, [])

def each (f : α → Gen σ β) : List α → Gen σ (List β)
  | []      => pure []
  | a :: as => do
    let b  ← f a
    let bs ← each f as
    return b :: bs

end Gen

abbrev Plans := Finmap fun _ : String => Plan

def Fields.isUnit : Fields → Bool
  | .unit => true
  | _     => false

def intNames : List String := ["u8", "u16", "u32", "u64", "usize", "i8", "i16", "i32", "i64", "isize"]

namespace Generator

variable {σ : Type}

def checkSerdeAttrs (attrs : List Attribute) (base file : String) : Gen σ Unit := do
  let _ ← Gen.each (fun attr => match attr with
    | .serde tokens =>
      if "bound".toList.isPrefixOf (tokens.toList.dropWhile isWhitespace) then pure ()
      else Gen.error <| s!"`{base}` ({file}) carries `#[serde({tokens})]`, which the Dart generator does not model; " ++
        "only `bound` is supported"
    | _ => pure ()) attrs
  return

def substitution (params : List String) (args : List Ty) (base file : String) : Gen σ (List (String × Ty)) :=
  if params.length ≠ args.length then do
    Gen.error s!"`{base}` ({file}) takes {params.length} type parameters, instantiated with {args.length}"
    return []
  else
    return params.zip args

def oneArg (args : List Ty) (container base file : String) : Gen σ Ty :=
  match args with
  | [arg] => return arg
  | _     => do
    Gen.error s!"`{base}` ({file}): {container} needs one type argument"
    return .int

-- What a name stands for. `instantiate` is what is done about a definition that it names, and `lowerAlias` about an
-- alias.
def place (items : Index) (instantiate : String → List Ty → Gen σ String)
    (lowerAlias : String → String → SynType → Gen σ Ty) (base file name : String) (args : List Ty) : Gen σ Ty :=
  if name ∈ intNames then
    return .int
  else if name = "f32" ∨ name = "f64" then
    return .double
  else if name = "bool" then
    return .bool
  else if name = "String" ∨ name = "str" ∨ name = "Uuid" then
    return .str
  else if name = "Duration" then
    return .durationTy
  else if name = "Option" then
    .option <$> oneArg args "Option" base file
  else if name = "Vec" ∨ name = "HashSet" ∨ name = "BTreeSet" ∨ name = "VecDeque" then
    .list <$> oneArg args name base file
  else if name = "Box" ∨ name = "Arc" ∨ name = "Rc" then
    oneArg args name base file
  else if name = "HashMap" ∨ name = "BTreeMap" then
    match args with
    | [key, value] => return .mapTy key value
    | _            => do
      Gen.error s!"`{base}` ({file}): {name} needs two type arguments"
      return .int
  else
    match items.lookup name with
    | some d =>
      match d.item with
      | .alias _ ty =>
        if args.isEmpty then
          lowerAlias name d.file ty
        else do
          Gen.error s!"`{base}` ({file}): generic alias `{name}` is not supported"
          return .int
      | _ => .user <$> instantiate name args
    | none => do
      match bundleHint name with
      | some hint =>
        Gen.error s!"`{base}` ({file}) references `{name}`, plaza vocabulary that is not included; add {hint}"
      | none =>
        Gen.error <| s!"`{base}` ({file}) references `{name}`, which the generator cannot place; define it in a " ++
          "scanned directory, add .also_scan(dir), or include a vendored copy with .vocab(&[(label, source)])"
      return .int

def unsupported (base file kind : String) : Gen σ Ty := do
  Gen.error s!"`{base}` ({file}) uses {kind}, which the generator does not model"
  return .int

-- A chain of aliases may not come to an end.
def lower (items : Index) (instantiate : String → List Ty → Gen σ String) :
    Nat → List (String × Ty) → String → String → SynType → Gen σ Ty
  | 0, _, _, _, _ => fun _ => none
  | fuel + 1, subst, base, file, ty =>
    match ty with
    | .path name args =>
      match subst.lookup name with
      | some substituted => return substituted
      | none             => do
        let args ← Gen.each (lower items instantiate fuel subst base file) args
        place items instantiate (lower items instantiate fuel []) base file name args
    | .tuple elems =>
      .tuple <$> Gen.each (lower items instantiate fuel subst base file) elems
    | .paren elem | .group elem | .reference elem => lower items instantiate fuel subst base file elem
    | .array _ | .slice _                         => unsupported base file "an array or slice (use Vec)"
    | ty                                          => unsupported base file (quoteType ty)

variable (u : Casing) (items : Index) (instantiate : String → List Ty → Gen σ String) (fuel : Nat)
  (subst : List (String × Ty)) (base file : String)

def lowerAll (types : List SynType) : Gen σ (List Ty) :=
  Gen.each (lower items instantiate fuel subst base file) types

-- A named field has a name.
def fields (named : List Field) : Gen σ (List PlanField) :=
  Gen.each (fun field => do
    checkSerdeAttrs field.attrs base file
    let rust := field.ident.getD ""
    let ty ← lower items instantiate fuel subst base file field.ty
    return { rust, dart := u.camel rust, ty }) named

def variantPlan (variant : Variant) : Gen σ VariantPlan := do
  checkSerdeAttrs variant.attrs base file
  match variant.fields with
  | .unit            => return .unit variant.ident
  | .unnamed [field] => .newType variant.ident <$> lower items instantiate fuel subst base file field.ty
  | .unnamed fields  =>
    .tuple variant.ident <$> lowerAll items instantiate fuel subst base file (fields.map Field.ty)
  | .named named     => .struct variant.ident <$> fields u items instantiate fuel subst base file named

-- Not every item has a plan.
def planOf (item : Item) (args : List Ty) : Gen σ (Option Plan) :=
  match item with
  | .struct head structFields => do
    checkSerdeAttrs head.attrs base file
    let subst ← substitution head.typeParams args base file
    match structFields with
    | .named named     => return some <| .struct (← fields u items instantiate fuel subst base file named)
    | .unnamed [field] => return some <| .newType (← lower items instantiate fuel subst base file field.ty)
    | .unnamed unnamed =>
      return some <| .tupleStruct (← lowerAll items instantiate fuel subst base file (unnamed.map Field.ty))
    | .unit            => return some <| .tupleStruct []
  | .enum head variants => do
    checkSerdeAttrs head.attrs base file
    let subst ← substitution head.typeParams args base file
    let plans ← Gen.each (variantPlan u items instantiate fuel subst base file) variants
    if variants.all (Fields.isUnit ·.fields) then
      return some <| .unitEnum (variants.map Variant.ident)
    else
      return some <| .dataEnum plans
  | .alias .. => do
    Gen.error s!"`{base}` ({file}) is not a struct or enum the generator can emit: a type alias cannot be a root"
    return none
  | .union .. => do
    Gen.error s!"`{base}` ({file}) is not a struct or enum the generator can emit: unions do not serialize"
    return none
  | _ => do
    Gen.error s!"`{base}` ({file}) is not a struct or enum the generator can emit: an unsupported item kind"
    return none

end Generator

-- A plan is reserved before its definition is descended into, so that a recursive type comes to an end.
def instantiate (u : Casing) (items : Index) : Nat → String → List Ty → Gen Plans String
  | 0, _, _ => fun _ => none
  | fuel + 1, base, args => do
    let dart := mangle base args
    let plans ← Gen.state
    if dart ∈ plans then
      return dart
    else
      Gen.put <| plans.insert dart (.struct [])
      match items.lookup base with
      | none => do
        Gen.error s!"no definition for `{base}`"
        return dart
      | some d =>
        match ← Generator.planOf u items (instantiate u items fuel) fuel base d.file d.item args with
        | none      => return dart
        | some plan => do
          let plans ← Gen.state
          Gen.put <| plans.insert dart plan
          return dart

-- What the sources of the crate itself define is there for everyone, unless it is defined again.
def itemsOf (index embedded : Index) : Index :=
  index ∪ embedded

-- The plans of everything that the roots reach, and the errors, if the generator comes to an end.
def generate (u : Casing) (items : Index) (fuel : Nat) (roots : List String) : Option (Plans × List String) :=
  (Gen.each (instantiate u items fuel · []) roots ∅).map Prod.snd

-- The class of the text for a variant, with the fields that it declares.
def VariantPlan.classOf (dart : String) : VariantPlan → String × List String
  | unit name          => (dart ++ name, [])
  | newType name _     => (dart ++ name, ["value"])
  | tuple name elems   => (dart ++ name, (List.range elems.length).map fun i => s!"f{i}")
  | struct name fields => (dart ++ name, fields.map PlanField.dart)

-- The classes of the text for a plan, each with the fields and the constants that it declares.
def classesOf (u : Casing) (dart : String) : Plan → List (String × List String)
  | .unitEnum variants => [(dart, variants.map (fun v => u.camel (u.snake v)) ++ ["wireName"])]
  | .newType _         => [(dart, ["value"])]
  | .tupleStruct elems => [(dart, (List.range elems.length).map fun i => s!"f{i}")]
  | .struct fields     => [(dart, fields.map PlanField.dart)]
  | .dataEnum variants => (dart, []) :: variants.map (VariantPlan.classOf dart)

-- All classes, in the order of the plans.
def classes (u : Casing) (plans : Plans) : List (String × List String) :=
  (plans.keys.sort (· ≤ ·)).flatMap fun dart => (plans.lookup dart).elim [] (classesOf u dart)

end Plaza.Build
