import Plaza.Wire.Build.Theorems.DartRender.Code

open Dart (Value Program Env)

namespace Plaza.Build

-- What the text does with a value is what serde does with it: it writes the same in both modes, and reads what serde
-- writes in either of them as the value.
structure Faithful (p : Program) (i : Inst) (d : Data) (v : Value) : Prop where
  toWire   : ∀ named, p.Returns (.invoke v "toWire" [.bool named]) (d.wire named)
  fromWire : ∀ named, p.Returns (.static i.dart "fromWire" [d.wire named]) v

section

variable {u : Casing} {items : Index} {roots : List String} {p : Program} {named : Bool}

theorem Encodes.returns {name : String} {v w : Value} (h : Encodes p named (.user name) v w) :
    p.Returns (.invoke v "toWire" [.bool named]) w := by
  have he : p.Evals (.ofList [("named", .bool named), ("x", v)]) (.var "x") v := .var rfl
  exact (h.evals he rfl).mono fun n h => by simpa [encode] using h

theorem Decodes.returns {name : String} {w v : Value} (h : Decodes p (.user name) w v) :
    p.Returns (.static name "fromWire" [w]) v := by
  have he : p.Evals (.ofList [("x", w)]) (.var "x") w := .var rfl
  exact (h.evals he nofun).mono fun n h => by simpa [decode] using h

theorem Rendered.faithful_iff_kept (hr : Rendered u items roots p) {i : Inst} {d : Data} {v : Value}
    (h : Corresponds u items roots (.user i.dart) d v) : Faithful p i d v ↔ d.unitFree ∧ d.someKept := by
  have hf : (Ty.user i.dart).fits .variable := rfl
  constructor
  case mp =>
    intro ⟨ht, hw⟩
    have hs := (h.encodes hr hf).returns.deterministic (ht false)
    have hu := h.shape_eq_iff.mp hs
    have ⟨v', hd, hv⟩ := h.decodes false hr hf hu
    exact ⟨hu, hv.mp <| hd.returns.deterministic (hw false)⟩
  case mpr =>
    intro ⟨hu, hk⟩
    refine { toWire := fun named => ?_, fromWire := fun named => ?_ }
    case refine_1 => exact h.shape_eq_iff.mpr hu ▸ (h.encodes hr hf).returns
    case refine_2 =>
      have ⟨v', hd, hv⟩ := h.decodes named hr hf hu
      exact hv.mpr hk ▸ hd.returns

end

-- The names that the generator takes for types of its own.
def builtinNames : List String :=
  intNames ++ ["f32", "f64", "bool", "String", "str", "Uuid", "Duration", "Option", "Vec", "HashSet", "BTreeSet",
    "VecDeque", "Box", "Arc", "Rc", "HashMap", "BTreeMap"]

-- The names that are no names in Dart, or that every class of the text declares.
def reservedNames : List String :=
  ["assert", "break", "case", "catch", "class", "const", "continue", "default", "do", "else", "enum", "extends", "false",
    "final", "finally", "for", "if", "in", "is", "new", "null", "rethrow", "return", "super", "switch", "this", "throw",
    "true", "try", "var", "void", "while", "with", "toWire", "fromWire"]

-- The names that the roots refer to, directly or not.
inductive Referred (items : Index) (roots : List String) : String → Prop
  | root {name} : (name ∈ roots) → Referred items roots name
  | ref {name name' d} : (Referred items roots name) → (items.lookup name = some d) → (name' ∈ d.refs) →
      Referred items roots name'

def Fields.attrs (fields : Fields) : List Attribute :=
  fields.toList.flatMap Field.attrs

def Item.attrs : Item → List Attribute
  | struct head fields => head.attrs ++ fields.attrs
  | enum head variants => head.attrs ++ variants.flatMap fun v => v.attrs ++ v.fields.attrs
  | _                  => []

-- What makes the text one of Dart, and its definitions those that serde sees. `onlyBounds` is what serde knows of an
-- attribute's text: that it does not change how values are written.
structure Regular (onlyBounds : String → Bool) (u : Casing) (items : Index) (roots : List String) : Prop where
  names    : Unambiguous u items roots
  fits     : ∀ {i plan}, Planned u items roots i plan → plan.Fits
  words    : ∀ {i plan}, Planned u items roots i plan → ∀ c ∈ classesOf u i.dart plan,
    c.fst ∉ reservedNames ∧ ∀ x ∈ c.snd, x ∉ reservedNames
  duration : ∀ {i}, Reached u items roots i → "WireDuration" ∉ i.spellings items
  own      : ∀ {name d}, Referred items roots name → items.lookup name = some d →
    ∀ name' ∈ d.refs, name' ∈ builtinNames → name' ∉ items
  attrs    : ∀ {name d tokens}, Referred items roots name → items.lookup name = some d →
    .serde tokens ∈ d.item.attrs → onlyBounds tokens

section

variable {u : Casing} {items : Index} {roots : List String} {plans : Plans}

theorem renderPlan_fst {dart : String} {plan : Plan} :
    (renderPlan dart plan).map Prod.fst = (classesOf u dart plan).map Prod.fst := by
  cases plan
  case dataEnum variants =>
    have he : (variants.map <| VariantPlan.render dart).map Prod.fst =
        (variants.map <| VariantPlan.classOf dart).map Prod.fst := by
      simp only [List.map_map]
      exact List.map_congr_left fun v _ => by cases v <;> rfl
    simp only [renderPlan, renderDataEnum, classesOf, List.map_cons, he]
  all_goals rfl

theorem render_fst : (render plans).map Prod.fst = "WireDuration" :: (classes u plans).map Prod.fst := by
  rw [render, List.map_cons, classes, List.map_flatMap, List.map_flatMap]
  congr 2
  funext dart
  cases plans.lookup dart
  case none      => rfl
  case some plan => exact renderPlan_fst

namespace Generator

variable {σ : Type} {inst : String → List Ty → Gen σ String} {fuel : Nat} {subst : List (String × Ty)} {s s' : σ}
  {base file : String}

theorem fields_camel {named : List Field} {plans : List PlanField}
    (h : (fields u items inst fuel subst base file named).Clean s plans s') : ∀ f ∈ plans, f.dart = u.camel f.rust := by
  refine Gen.clean_each_mem (fun h => ?_) h
  obtain ⟨_, _, _, h⟩ := Gen.clean_bind.mp h
  obtain ⟨_, _, _, h⟩ := Gen.clean_bind.mp h
  obtain ⟨rfl, _⟩ := Gen.clean_pure.mp h
  rfl

theorem PlannedVariant.camel {variant : Variant} {plan : VariantPlan}
    (h : PlannedVariant u items inst fuel subst base file variant plan) :
    ∀ fields ∈ plan.named, ∀ f ∈ fields, f.dart = u.camel f.rust := by
  cases h
  case struct _ hn => simpa [VariantPlan.named] using fields_camel hn
  all_goals nofun

theorem Planned.camel {item : Item} {plan : Plan} (h : Planned u items inst fuel base file item plan) :
    ∀ fields ∈ plan.named, ∀ f ∈ fields, f.dart = u.camel f.rust := by
  cases h
  case struct hn     => simpa [Plan.named] using fields_camel hn
  case dataEnum _ hv =>
    have hv := Gen.clean_each_mem (fun h => (planned_variant h).camel) hv
    intro fields hm
    obtain ⟨v, hm, hf⟩ := List.mem_flatMap.mp hm
    exact hv v hm fields hf
  all_goals nofun

end Generator

-- The program of a run without errors has the classes that its plans need.
theorem Regular.rendered {onlyBounds : String → Bool} {fuel : Nat} (hr : Regular onlyBounds u items roots)
    (h : generate u items fuel roots = some (plans, [])) : Rendered u items roots (render plans) := by
  have hF := hr.names.filled (generate_loads h)
  have hd := (hF.nodup_iff hr.names.eq_of_dart).mpr ⟨hr.names.variants, hr.names.apart⟩
  have hn : "WireDuration" ∉ (classes u plans).map Prod.fst := by
    rw [classes_fst, List.mem_flatMap]
    rintro ⟨dart, hm, ht⟩
    obtain ⟨i, hi, rfl⟩ := hF.mem_iff.mp <| Finmap.mem_keys.mp <| (Finset.mem_sort _).mp hm
    exact hr.duration hi <| hF.texts_eq hi ▸ ht
  have hs : ((render plans).map Prod.fst).Nodup := by
    rw [render_fst (u := u)]
    exact List.nodup_cons.mpr ⟨hn, hd⟩
  exact {
    duration := Dart.lookup_of_mem hs List.mem_cons_self
    plan     := by
      rintro i plan ⟨hi, _, hu⟩ c hc
      obtain ⟨plan', _, hu', hp⟩ := hF.plan hi
      obtain ⟨rfl, _⟩ := hu.deterministic hu'
      refine Dart.lookup_of_mem hs <| List.mem_cons_of_mem _ <| List.mem_flatMap.mpr ⟨i.dart, ?_, ?_⟩
      case refine_1 => exact (Finset.mem_sort _).mpr <| Finmap.mem_keys.mpr <| Finmap.mem_of_lookup_eq_some hp
      case refine_2 => rwa [hp]
    fits     := hr.fits
    distinct := by
      rintro i plan ⟨hi, _, hu⟩
      exact hu.distinct_iff.mpr <| hr.names.fields hi
    texts    := by
      rintro i plan ⟨hi, _, hu⟩
      exact hu.spellings_eq ▸ hr.names.variants hi
    camel    := by
      rintro i plan ⟨_, _, _, _, _, hc⟩
      obtain ⟨_, he, hp⟩ := Generator.planned hc
      cases he
      exact hp.camel
  }

end

def marker : Inst := ("Marker", [])

def tick : Inst := ("Tick", [])

-- A unit struct, and a struct of one field without a name.
def marks : Index :=
  let define item : Definition := {
    hashText := [], refs := [], opaques := [], rootTagged := true, offWireTagged := false, serdeDerived := true
    file := "ops.rs", item
  }
  ((∅ : Index).insert "Marker" <| define <| .struct ⟨[], "Marker", [], []⟩ .unit).insert "Tick" <|
    define <| .struct ⟨[], "Tick", [], []⟩ <| .unnamed [⟨[], none, .path "u32" []⟩]

theorem marker_unfolds : Generator.Unfolds ascii marks marker (.tupleStruct []) [] :=
  ⟨1, _, rfl, rfl⟩

theorem tick_unfolds : Generator.Unfolds ascii marks tick (.newType .int) [] :=
  ⟨2, _, rfl, rfl⟩

theorem marks_reached {i : Inst} (h : Reached ascii marks ["Marker", "Tick"] i) : i = marker ∨ i = tick := by
  induction h
  case root h => simpa [marker, tick] using h
  case next hu hc ih =>
    cases ih
    case inl h =>
      subst h
      cases (Generator.Unfolds.deterministic hu marker_unfolds).right ▸ hc
    case inr h =>
      subst h
      cases (Generator.Unfolds.deterministic hu tick_unfolds).right ▸ hc

theorem marks_planned {i : Inst} {plan : Plan} (h : Planned ascii marks ["Marker", "Tick"] i plan) :
    i = marker ∧ plan = .tupleStruct [] ∨ i = tick ∧ plan = .newType .int := by
  obtain ⟨hr, _, hu⟩ := h
  cases marks_reached hr
  case inl h =>
    subst h
    exact .inl ⟨rfl, (hu.deterministic marker_unfolds).left⟩
  case inr h =>
    subst h
    exact .inr ⟨rfl, (hu.deterministic tick_unfolds).left⟩

theorem marks_lookup {name : String} {d : Definition} (h : marks.lookup name = some d) :
    d.refs = [] ∧ d.item.attrs = [] ∧ d.item.Distinct ascii := by
  unfold marks at h
  by_cases ht : name = "Tick"
  case pos =>
    rw [ht, Finmap.lookup_insert, Option.some.injEq] at h
    exact h ▸ ⟨rfl, rfl, trivial⟩
  case neg =>
    rw [Finmap.lookup_insert_of_ne _ ht] at h
    by_cases hm : name = "Marker"
    case pos =>
      rw [hm, Finmap.lookup_insert, Option.some.injEq] at h
      exact h ▸ ⟨rfl, rfl, trivial⟩
    case neg =>
      rw [Finmap.lookup_insert_of_ne _ hm, Finmap.lookup_empty] at h
      cases h

theorem marks_regular : Regular (fun _ => true) ascii marks ["Marker", "Tick"] where
  names := {
    apart := by
      intro i j hi hj hne
      obtain rfl | rfl := marks_reached hi
      all_goals obtain rfl | rfl := marks_reached hj
      all_goals first | exact absurd rfl hne | exact List.disjoint_singleton.mpr (by decide)
    variants := by
      intro i hi
      obtain rfl | rfl := marks_reached hi
      all_goals exact List.nodup_singleton _
    fields := fun _ h => (marks_lookup h).right.right
  }
  fits h := by
    obtain ⟨rfl, rfl⟩ | ⟨rfl, rfl⟩ := marks_planned h
    all_goals simp [Plan.Fits, Ty.fits]
  words h := by
    obtain ⟨rfl, rfl⟩ | ⟨rfl, rfl⟩ := marks_planned h
    all_goals decide
  duration h := by
    obtain rfl | rfl := marks_reached h
    all_goals exact show "WireDuration" ∉ [_] by decide
  own _ h name hm := by
    rw [(marks_lookup h).left] at hm
    cases hm
  attrs _ _ _ := rfl

end Plaza.Build
