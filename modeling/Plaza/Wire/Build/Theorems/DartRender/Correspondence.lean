import Plaza.Wire.Build.DartRender
import Plaza.Wire.Build.Theorems.DartTypes

open Dart (Value Program Env)

namespace Plaza.Build

theorem forall₂_zip {α β γ δ : Type} {R : α → β → Prop} {S : γ → δ → Prop} {T : α × γ → β × δ → Prop}
    {as : List α} {bs : List β} {cs : List γ} {ds : List δ} (h : List.Forall₂ R as bs) (h' : List.Forall₂ S cs ds)
    (ht : ∀ a b c d, R a b → S c d → T (a, c) (b, d)) : List.Forall₂ T (as.zip cs) (bs.zip ds) := by
  induction h generalizing cs ds
  case nil => simp
  case cons h _ ih =>
    cases h'
    case nil         => simp
    case cons h' hs' => exact .cons (ht _ _ _ _ h h') (ih hs')

theorem zip_inj {α β : Type} {as as' : List α} {bs bs' : List β} (h : as.length = bs.length)
    (h' : as'.length = bs'.length) : as.zip bs = as'.zip bs' ↔ as = as' ∧ bs = bs' := by
  constructor
  case mp =>
    intro he
    have hf := congrArg (List.map Prod.fst) he
    have hs := congrArg (List.map Prod.snd) he
    rw [List.map_fst_zip (by omega), List.map_fst_zip (by omega)] at hf
    rw [List.map_snd_zip (by omega), List.map_snd_zip (by omega)] at hs
    exact ⟨hf, hs⟩
  case mpr => exact fun ⟨hf, hs⟩ => hf ▸ hs ▸ rfl

-- Relates three lists of one length place by place.
inductive Forall₃ {α β γ : Type} (R : α → β → γ → Prop) : List α → List β → List γ → Prop
  | nil : Forall₃ R [] [] []
  | cons {a b c as bs cs} : (R a b c) → (Forall₃ R as bs cs) → Forall₃ R (a :: as) (b :: bs) (c :: cs)

theorem Forall₃.of_replicate {α β γ : Type} {R : α → β → γ → Prop} {a : α} {n : Nat} {bs : List β} {cs : List γ}
    (h : Forall₃ R (.replicate n a) bs cs) : List.Forall₂ (R a) bs cs := by
  generalize hl : List.replicate n a = as at h
  induction h generalizing n
  case nil => exact .nil
  case cons h _ ih =>
    cases n
    case zero => cases hl
    case succ n =>
      cases hl
      exact .cons h (ih rfl)

-- The name without the mark that lets it be a keyword of Rust.
def unraw (name : String) : String :=
  .ofList <| if name.toList.take 2 = ['r', '#'] then name.toList.drop 2 else name.toList

section

variable (u : Casing) (items : Index) (roots : List String)

-- The plan of an instantiation that the roots need.
def Planned (i : Inst) (plan : Plan) : Prop :=
  Reached u items roots i ∧ ∃ deps, Generator.Unfolds u items i plan deps

def Inst.isUnitStruct (i : Inst) : Bool :=
  (items.lookup i.fst).any fun d => match d.item with
    | .struct _ .unit => true
    | _               => false

mutual

-- A value of a type, as serde has it and as Dart has it.
inductive Corresponds : Ty → Data → Value → Prop
  | bool {b} : Corresponds .bool (.bool b) (.bool b)
  | int {n} : Corresponds .int (.int n) (.int n)
  | double {x} : Corresponds .double (.double x) (.double x)
  | str {s} : Corresponds .str (.str s) (.str s)
  | durationTy {secs nanos} : Corresponds .durationTy (.struct ["secs", "nanos"] [.int secs, .int nanos])
      (.object "WireDuration" [("secs", .int secs), ("nanos", .int nanos)])
  | none {ty} : Corresponds (.option ty) .none .null
  | some {ty d v} : (Corresponds ty d v) → Corresponds (.option ty) (.some d) v
  | list {ty ds vs} : (CorrespondsAll (.replicate ds.length ty) ds vs) → Corresponds (.list ty) (.seq ds) (.list vs)
  | mapTy {key value ks ds kvs vs} : (ks.length = ds.length) → (CorrespondsAll (.replicate ks.length key) ks kvs) →
      (CorrespondsAll (.replicate ds.length value) ds vs) →
      Corresponds (.mapTy key value) (.map ks ds) (.map <| kvs.zip vs)
  | unit : Corresponds (.tuple []) .unit (.record [])
  | tuple {ty types ds vs} : (CorrespondsAll (ty :: types) ds vs) →
      Corresponds (.tuple (ty :: types)) (.tuple ds) (.record vs)
  | unitStruct {i} : (Planned u items roots i (.tupleStruct [])) → (i.isUnitStruct items) →
      Corresponds (.user i.dart) .unitStruct (.object i.dart [])
  | newtypeStruct {i ty d v} : (Planned u items roots i (.newType ty)) → (Corresponds ty d v) →
      Corresponds (.user i.dart) (.newtypeStruct d) (.object i.dart [("value", v)])
  | tupleStruct {i elems ds vs} : (Planned u items roots i (.tupleStruct elems)) → (¬i.isUnitStruct items) →
      (CorrespondsAll elems ds vs) →
      Corresponds (.user i.dart) (.tupleStruct ds) (.object i.dart <| (elemNames elems).zip vs)
  | struct {i fields ds vs} : (Planned u items roots i (.struct fields)) →
      (CorrespondsAll (fields.map PlanField.ty) ds vs) →
      Corresponds (.user i.dart) (.struct (fields.map fun f => unraw f.rust) ds)
        (.object i.dart <| (fields.map PlanField.dart).zip vs)
  | constant {i variants name} : (Planned u items roots i (.unitEnum variants)) → (name ∈ variants) →
      Corresponds (.user i.dart) (.unitVariant <| unraw name) (.object i.dart [("wireName", .str name)])
  | unitVariant {i variants name} : (Planned u items roots i (.dataEnum variants)) → (.unit name ∈ variants) →
      Corresponds (.user i.dart) (.unitVariant <| unraw name) (.object (i.dart ++ name) [])
  | newtypeVariant {i variants name ty d v} : (Planned u items roots i (.dataEnum variants)) →
      (.newType name ty ∈ variants) → (Corresponds ty d v) →
      Corresponds (.user i.dart) (.newtypeVariant (unraw name) d) (.object (i.dart ++ name) [("value", v)])
  | tupleVariant {i variants name elems ds vs} : (Planned u items roots i (.dataEnum variants)) →
      (.tuple name elems ∈ variants) → (CorrespondsAll elems ds vs) →
      Corresponds (.user i.dart) (.tupleVariant (unraw name) ds)
        (.object (i.dart ++ name) <| (elemNames elems).zip vs)
  | structVariant {i variants name fields ds vs} : (Planned u items roots i (.dataEnum variants)) →
      (.struct name fields ∈ variants) → (CorrespondsAll (fields.map PlanField.ty) ds vs) →
      Corresponds (.user i.dart) (.structVariant (unraw name) (fields.map fun f => unraw f.rust) ds)
        (.object (i.dart ++ name) <| (fields.map PlanField.dart).zip vs)

inductive CorrespondsAll : List Ty → List Data → List Value → Prop
  | nil : CorrespondsAll [] [] []
  | cons {ty types d ds v vs} : (Corresponds ty d v) → (CorrespondsAll types ds vs) →
      CorrespondsAll (ty :: types) (d :: ds) (v :: vs)

end
end

-- Where the text reads a value from: a local variable, a member of what is in one, or an element of a tuple.
inductive Place
  | variable
  | member
  | element
  deriving DecidableEq

namespace Ty

def isOption : Ty → Bool
  | option _ => true
  | _        => false

def isScalar : Ty → Bool
  | int | double | bool | str => true
  | _                         => false

mutual

-- What the text says about a type in a place is Dart: there is no `T??`, only variables are known not to be null after
-- a test, parentheses alone do not make a record, and the `t` of a tuple does not see the one around it.
def fits : Place → Ty → Bool
  | p, option inner    => !inner.isOption && (p = .variable || inner.isScalar) && inner.fits p
  | _, list inner      => inner.fits .variable
  | _, mapTy key value => key.fits .member && value.fits .member
  | p, tuple elems     => p ≠ .element && elems.length ≠ 1 && allFit elems
  | _, _               => true

def allFit : List Ty → Bool
  | []          => true
  | ty :: types => ty.fits .element && allFit types

end

-- Whether decoding starts with a `t`.
def opens : Ty → Bool
  | tuple _      => true
  | option inner => inner.opens
  | _            => false

theorem opens_of_fits_element {ty : Ty} (h : ty.fits .element) : ty.opens = false := by
  cases ty
  case option inner =>
    cases inner <;> simp_all [fits, opens, isScalar, isOption]
  case tuple => simp [fits] at h
  all_goals rfl

theorem fits_of_allFit {types : List Ty} (h : allFit types) : ∀ ty ∈ types, ty.fits .element := by
  induction types
  case nil => simp
  case cons ty types ih =>
    rw [allFit, Bool.and_eq_true] at h
    exact List.forall_mem_cons.mpr ⟨h.left, ih h.right⟩

end Ty

-- The names in the text are apart from the parameter and from each other's copies, and there is at least one.
structure FieldsFit (fields : List PlanField) : Prop where
  nonempty : fields ≠ []
  types    : ∀ f ∈ fields, f.ty.fits .variable
  apart    : ∀ f ∈ fields, f.dart ≠ "named" ∧ ∀ g ∈ fields, f.dart ≠ g.dart ++ "0"
  plain    : ∀ f ∈ fields, unraw f.rust = f.rust

def VariantPlan.Fits : VariantPlan → Prop
  | unit name          => unraw name = name
  | newType name ty    => unraw name = name ∧ ty.fits .variable
  | tuple name elems   => unraw name = name ∧ ∀ ty ∈ elems, ty.fits .member
  | struct name fields => unraw name = name ∧ FieldsFit fields

def Plan.Fits : Plan → Prop
  | unitEnum variants => variants ≠ [] ∧ ∀ name ∈ variants, unraw name = name
  | dataEnum variants => ∀ v ∈ variants, v.Fits
  | newType inner     => inner.fits .variable
  | tupleStruct elems => ∀ ty ∈ elems, ty.fits .member
  | struct fields     => FieldsFit fields

def VariantPlan.name : VariantPlan → String
  | unit name | newType name _ | tuple name _ | struct name _ => name

def VariantPlan.named : VariantPlan → List (List PlanField)
  | struct _ fields => [fields]
  | _               => []

-- The named fields of a plan, for each struct or variant that has some.
def Plan.named : Plan → List (List PlanField)
  | struct fields     => [fields]
  | dataEnum variants => variants.flatMap VariantPlan.named
  | _                 => []

-- The program has the classes of all plans that the roots need.
structure Rendered (u : Casing) (items : Index) (roots : List String) (p : Program) : Prop where
  duration : p.lookup "WireDuration" = some wireDuration
  plan     : ∀ {i plan}, Planned u items roots i plan → ∀ c ∈ renderPlan i.dart plan, p.lookup c.fst = some c.snd
  fits     : ∀ {i plan}, Planned u items roots i plan → plan.Fits
  distinct : ∀ {i plan}, Planned u items roots i plan → ∀ c ∈ classesOf u i.dart plan, c.snd.Nodup
  texts    : ∀ {i plan}, Planned u items roots i plan → ((classesOf u i.dart plan).map Prod.fst).Nodup
  camel    : ∀ {i plan}, Planned u items roots i plan → ∀ fields ∈ plan.named, ∀ f ∈ fields, f.dart = u.camel f.rust

section

variable {u : Casing} {items : Index} {roots : List String} {p : Program} {named : Bool}

theorem CorrespondsAll.length_eq {types : List Ty} {ds : List Data} {vs : List Value}
    (h : CorrespondsAll u items roots types ds vs) : types.length = ds.length ∧ types.length = vs.length := by
  cases h
  case nil       => simp
  case cons _ hs => simp [hs.length_eq.left, ←hs.length_eq.right]

-- Only what is optional may be null.
theorem Corresponds.ne_null {ty : Ty} {d : Data} {v : Value} (h : Corresponds u items roots ty d v)
    (ho : ty.isOption = false) : v ≠ .null := by
  cases h
  case none | some => cases ho
  all_goals nofun

theorem fits_replicate {n : Nat} {ty : Ty} {place : Place} (hf : ty.fits place) :
    ∀ t ∈ List.replicate n ty, ∃ place, t.fits place :=
  fun _ ht => ⟨place, (List.eq_of_mem_replicate ht) ▸ hf⟩

theorem FieldsFit.fits_types {fields : List PlanField} (hf : FieldsFit fields) :
    ∀ t ∈ fields.map PlanField.ty, ∃ place, t.fits place := by
  intro t ht
  obtain ⟨f, hm, rfl⟩ := List.mem_map.mp ht
  exact ⟨_, hf.types f hm⟩

theorem FieldsFit.map_unraw {fields : List PlanField} (hf : FieldsFit fields) :
    (fields.map fun f => unraw f.rust) = fields.map PlanField.rust :=
  List.map_congr_left hf.plain

theorem Rendered.variant (hr : Rendered u items roots p) {i : Inst} {variants : List VariantPlan} {v : VariantPlan}
    (hp : Planned u items roots i (.dataEnum variants)) (hv : v ∈ variants) :
    p.lookup (v.render i.dart).fst = some (v.render i.dart).snd :=
  hr.plan hp _ <| List.mem_cons_of_mem _ <| List.mem_map_of_mem hv

theorem Rendered.variant_distinct (hr : Rendered u items roots p) {i : Inst} {variants : List VariantPlan}
    {v : VariantPlan} (hp : Planned u items roots i (.dataEnum variants)) (hv : v ∈ variants) :
    (v.classOf i.dart).snd.Nodup :=
  hr.distinct hp _ <| List.mem_cons_of_mem _ <| List.mem_map_of_mem hv

namespace Data

theorem shapes_length {unit : Value} {ds : List Data} : (shapes unit named ds).length = ds.length := by
  induction ds
  case nil          => rfl
  case cons d ds ih => rw [shapes, List.length_cons, ih, List.length_cons]

-- What is nil is what is written as nil.
theorem wire_eq_null_iff (d : Data) : d.wire named = .null ↔ d.isNil := by
  cases d
  case some d | newtypeStruct d =>
    rw [wire, shape, isNil]
    exact d.wire_eq_null_iff
  case struct => cases named <;> simp [wire, shape, isNil, fieldsShape]
  all_goals simp [wire, shape, isNil, variantShape]

end Data

theorem fieldsShape_inj {names : List String} {vs vs' : List Value} (h : names.length = vs.length)
    (h' : names.length = vs'.length) : fieldsShape named names vs = fieldsShape named names vs' ↔ vs = vs' := by
  cases named
  case false => simp [fieldsShape]
  case true  =>
    have h : (names.map Value.str).length = vs.length := by simpa using h
    have h' : (names.map Value.str).length = vs'.length := by simpa using h'
    simp [fieldsShape, zip_inj h h']

theorem variantShape_inj {name : String} {v w : Value} : variantShape name v = variantShape name w ↔ v = w := by
  simp [variantShape]

theorem CorrespondsAll.names_length {fields : List PlanField} {ds : List Data} {vs : List Value}
    (h : CorrespondsAll u items roots (fields.map PlanField.ty) ds vs) (unit : Value) :
    (fields.map fun f => unraw f.rust).length = (Data.shapes unit named ds).length := by
  rw [Data.shapes_length, ←h.length_eq.left, List.length_map, List.length_map]

end

end Plaza.Build
