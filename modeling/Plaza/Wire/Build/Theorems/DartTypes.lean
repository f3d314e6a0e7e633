import Mathlib.Data.Finset.Pairwise
import Plaza.Lib.Worklist
import Plaza.Wire.Build.DartTypes

namespace Plaza.Build

namespace Gen

variable {σ τ α β γ κ : Type}

-- A run that reports nothing.
def Clean (x : Gen σ α) (s : σ) (a : α) (s' : σ) : Prop :=
  x s = some (a, s', [])

theorem clean_pure {a b : α} {s s' : σ} : Clean (pure a) s b s' ↔ a = b ∧ s = s' := by
  simp [Clean, pure]

theorem clean_bind {x : Gen σ α} {f : α → Gen σ β} {s s' : σ} {b : β} :
    Clean (x >>= f) s b s' ↔ ∃ a t, Clean x s a t ∧ Clean (f a) t b s' := by
  simp only [Clean, bind, Option.bind_eq_some_iff]
  constructor
  case mp =>
    intro ⟨⟨a, t, e⟩, hx, ⟨b, s', e'⟩, hf, h⟩
    simp only [Option.pure_def, Option.some.injEq, Prod.mk.injEq, List.append_eq_nil_iff] at h
    obtain ⟨rfl, rfl, rfl, rfl⟩ := h
    exact ⟨a, t, hx, hf⟩
  case mpr =>
    intro ⟨a, t, hx, hf⟩
    exact ⟨_, hx, _, hf, rfl⟩

theorem clean_map {x : Gen σ α} {f : α → β} {s s' : σ} {b : β} :
    Clean (f <$> x) s b s' ↔ ∃ a, Clean x s a s' ∧ f a = b := by
  change Clean (x >>= fun a => pure (f a)) s b s' ↔ _
  simp only [clean_bind, clean_pure]
  constructor
  case mp  => exact fun ⟨a, _, hx, hf, ht⟩ => ⟨a, ht ▸ hx, hf⟩
  case mpr => exact fun ⟨a, hx, hf⟩ => ⟨a, _, hx, hf, rfl⟩

theorem clean_error {text : String} {s s' : σ} {a : Unit} : ¬Clean (error text) s a s' := by
  simp [Clean, error]

theorem clean_state {f : σ → Gen σ β} {s s' : σ} {b : β} : Clean (state >>= f) s b s' ↔ Clean (f s) s b s' := by
  rw [clean_bind]
  constructor
  case mp =>
    intro ⟨_, _, hs, h⟩
    cases hs
    exact h
  case mpr => exact fun h => ⟨s, s, rfl, h⟩

theorem clean_put {f : Unit → Gen σ β} {s s' t : σ} {b : β} : Clean (put t >>= f) s b s' ↔ Clean (f ()) t b s' := by
  rw [clean_bind]
  constructor
  case mp =>
    intro ⟨_, _, hs, h⟩
    cases hs
    exact h
  case mpr => exact fun h => ⟨(), t, rfl, h⟩

theorem clean_each {f : α → Gen σ β} {g : α → γ} {k : β → γ} (hf : ∀ {a s b s'}, Clean (f a) s b s' → k b = g a)
    {as : List α} {bs : List β} {s s' : σ} (h : Clean (each f as) s bs s') : bs.map k = as.map g := by
  induction as generalizing s bs
  case nil =>
    obtain ⟨rfl, _⟩ := clean_pure.mp h
    rfl
  case cons a as ih =>
    obtain ⟨b, _, hb, h⟩ := clean_bind.mp h
    obtain ⟨bs, _, hbs, h⟩ := clean_bind.mp h
    obtain ⟨rfl, rfl⟩ := clean_pure.mp h
    rw [List.map_cons, List.map_cons, hf hb, ih hbs]

theorem clean_each_mem {f : α → Gen σ β} {P : β → Prop} (hf : ∀ {a s b s'}, Clean (f a) s b s' → P b)
    {as : List α} {bs : List β} {s s' : σ} (h : Clean (each f as) s bs s') : ∀ b ∈ bs, P b := by
  induction as generalizing s bs
  case nil =>
    obtain ⟨rfl, _⟩ := clean_pure.mp h
    nofun
  case cons a as ih =>
    obtain ⟨b, _, hb, h⟩ := clean_bind.mp h
    obtain ⟨bs, _, hbs, h⟩ := clean_bind.mp h
    obtain ⟨rfl, rfl⟩ := clean_pure.mp h
    exact List.forall_mem_cons.mpr ⟨hf hb, ih hbs⟩

-- What relates two programs that are put together in the same way from related parts.
structure Relator (σ τ : Type) where
  Rel   : ∀ {α : Type}, Gen σ α → Gen τ α → Prop
  stuck : ∀ {α : Type} {y : Gen τ α}, Rel (fun _ => none) y
  pure  : ∀ {α : Type} {a : α}, Rel (pure a) (pure a)
  error : ∀ {text : String}, Rel (error text) (error text)
  bind  : ∀ {α β : Type} {x : Gen σ α} {y : Gen τ α} {f : α → Gen σ β} {g : α → Gen τ β},
    Rel x y → (∀ a, Rel (f a) (g a)) → Rel (x >>= f) (y >>= g)

namespace Relator

variable (r : Relator σ τ)

theorem each {f : α → Gen σ β} {g : α → Gen τ β} (h : ∀ a, r.Rel (f a) (g a)) (as : List α) :
    r.Rel (Gen.each f as) (Gen.each g as) := by
  induction as
  case nil          => exact r.pure
  case cons a as ih => exact r.bind (h a) fun _ => r.bind ih fun _ => r.pure

theorem ite {c : Prop} [Decidable c] {x x' : Gen σ α} {y y' : Gen τ α} (h : r.Rel x y) (h' : r.Rel x' y') :
    r.Rel (if c then x else x') (if c then y else y') := by
  split
  case isTrue  => exact h
  case isFalse => exact h'

theorem map {x : Gen σ α} {y : Gen τ α} {f : α → β} (h : r.Rel x y) : r.Rel (f <$> x) (f <$> y) :=
  r.bind h fun _ => r.pure

theorem errorThen {text : String} {a : α} : r.Rel (do Gen.error text; return a) (do Gen.error text; return a) :=
  r.bind r.error fun _ => r.pure

-- What comes out of the one comes out of the other.
def refines : Relator σ σ where
  Rel x y := ∀ s r, x s = some r → y s = some r
  stuck := nofun
  pure _ _ h  := h
  error _ _ h := h
  bind hx hf s r h := by
    obtain ⟨⟨a, t, e⟩, h₁, h⟩ := Option.bind_eq_some_iff.mp h
    obtain ⟨⟨b, t', e'⟩, h₂, h⟩ := Option.bind_eq_some_iff.mp h
    exact Option.bind_eq_some_iff.mpr ⟨_, hx _ _ h₁, Option.bind_eq_some_iff.mpr ⟨_, hf a _ _ h₂, h⟩⟩

-- What a run that reports nothing does to a table is what filling it with the recorded nodes does.
def replays (m : Memo α β κ) [DecidableEq κ] : Relator (Memo.Table β κ) (List α) where
  Rel x y := ∀ t a t', Clean x t a t' → ∃ as, (∀ l, Clean y l a (l ++ as)) ∧ m.Loads as t t'
  stuck := nofun
  pure _ _ _ h := by
    obtain ⟨rfl, rfl⟩ := clean_pure.mp h
    exact ⟨[], fun l => by simp [clean_pure], .nil⟩
  error _ _ _ h := absurd h clean_error
  bind hx hf _ _ _ h := by
    obtain ⟨a, t₁, h₁, h₂⟩ := clean_bind.mp h
    have ⟨as₁, hy, hl₁⟩ := hx _ _ _ h₁
    have ⟨as₂, hg, hl₂⟩ := hf a _ _ _ h₂
    exact ⟨as₁ ++ as₂, fun l => clean_bind.mpr ⟨a, _, hy l, List.append_assoc .. ▸ hg _⟩, hl₁.append hl₂⟩

end Relator
end Gen

namespace Generator

variable {σ τ : Type} {r : Gen.Relator σ τ} {items : Index} {u : Casing}
  {inst : String → List Ty → Gen σ String} {inst' : String → List Ty → Gen τ String}
  {fuel fuel' : Nat} {subst : List (String × Ty)} {base file : String}

theorem checkSerdeAttrs_rel (attrs : List Attribute) :
    r.Rel (checkSerdeAttrs attrs base file) (checkSerdeAttrs attrs base file) := by
  refine r.bind (r.each (fun attr => ?_) attrs) fun _ => r.pure
  cases attr
  case serde => exact r.ite r.pure r.error
  all_goals exact r.pure

theorem substitution_rel (params : List String) (args : List Ty) :
    r.Rel (substitution params args base file) (substitution params args base file) :=
  r.ite r.errorThen r.pure

theorem oneArg_rel (args : List Ty) (container : String) :
    r.Rel (oneArg args container base file) (oneArg args container base file) := by
  unfold oneArg
  split
  case h_1 => exact r.pure
  case h_2 => exact r.errorThen

theorem place_rel {lowerAlias : String → String → SynType → Gen σ Ty} {lowerAlias' : String → String → SynType → Gen τ Ty}
    (hi : ∀ base args, r.Rel (inst base args) (inst' base args))
    (ha : ∀ base file ty, r.Rel (lowerAlias base file ty) (lowerAlias' base file ty)) (name : String) (args : List Ty) :
    r.Rel (place items inst lowerAlias base file name args) (place items inst' lowerAlias' base file name args) := by
  unfold place
  refine r.ite r.pure <| r.ite r.pure <| r.ite r.pure <| r.ite r.pure <| r.ite r.pure <|
    r.ite (r.map (oneArg_rel ..)) <| r.ite (r.map (oneArg_rel ..)) <| r.ite (oneArg_rel ..) <| r.ite ?_ ?_
  case refine_1 =>
    split
    case h_1 => exact r.pure
    case h_2 => exact r.errorThen
  case refine_2 =>
    cases items.lookup name
    case none => cases bundleHint name <;> exact r.errorThen
    case some d =>
      dsimp only
      cases d.item
      case «alias» => exact r.ite (ha ..) r.errorThen
      all_goals exact r.map (hi ..)

-- Related ways to instantiate, and no less fuel, give related ways to lower.
theorem lower_rel (hi : ∀ base args, r.Rel (inst base args) (inst' base args)) (hf : fuel ≤ fuel') (ty : SynType) :
    r.Rel (lower items inst fuel subst base file ty) (lower items inst' fuel' subst base file ty) := by
  induction fuel generalizing fuel' subst base file ty
  case zero => exact r.stuck
  case succ fuel ih =>
    obtain ⟨fuel', rfl⟩ := Nat.exists_eq_succ_of_ne_zero (Nat.ne_zero_of_lt hf)
    have ih {subst base file} ty :
        r.Rel (lower items inst fuel subst base file ty) (lower items inst' fuel' subst base file ty) :=
      ih (Nat.le_of_succ_le_succ hf) ty
    unfold lower
    cases ty
    case path name args =>
      dsimp only
      cases subst.lookup name
      case some => exact r.pure
      case none => exact r.bind (r.each ih args) fun args => place_rel hi (fun _ _ => ih) name args
    case tuple elems    => exact r.map (r.each ih elems)
    case paren elem     => exact ih elem
    case group elem     => exact ih elem
    case reference elem => exact ih elem
    all_goals exact r.errorThen

theorem fields_rel (hi : ∀ base args, r.Rel (inst base args) (inst' base args)) (hf : fuel ≤ fuel')
    (named : List Field) :
    r.Rel (fields u items inst fuel subst base file named) (fields u items inst' fuel' subst base file named) :=
  r.each (fun _ => r.bind (checkSerdeAttrs_rel _) fun _ => r.bind (lower_rel hi hf _) fun _ => r.pure) named

theorem lowerAll_rel (hi : ∀ base args, r.Rel (inst base args) (inst' base args)) (hf : fuel ≤ fuel')
    (types : List SynType) :
    r.Rel (lowerAll items inst fuel subst base file types) (lowerAll items inst' fuel' subst base file types) :=
  r.each (lower_rel hi hf) types

theorem variantPlan_rel (hi : ∀ base args, r.Rel (inst base args) (inst' base args)) (hf : fuel ≤ fuel')
    (variant : Variant) :
    r.Rel (variantPlan u items inst fuel subst base file variant)
      (variantPlan u items inst' fuel' subst base file variant) := by
  refine r.bind (checkSerdeAttrs_rel _) fun _ => ?_
  split
  case h_1 => exact r.pure
  case h_2 => exact r.map (lower_rel hi hf _)
  case h_3 => exact r.map (lowerAll_rel hi hf _)
  case h_4 => exact r.map (fields_rel hi hf _)

theorem planOf_rel (hi : ∀ base args, r.Rel (inst base args) (inst' base args)) (hf : fuel ≤ fuel') (item : Item)
    (args : List Ty) :
    r.Rel (planOf u items inst fuel base file item args) (planOf u items inst' fuel' base file item args) := by
  cases item
  case struct head structFields =>
    refine r.bind (checkSerdeAttrs_rel _) fun _ => r.bind (substitution_rel ..) fun _ => ?_
    split
    case h_1 => exact r.bind (fields_rel hi hf _) fun _ => r.pure
    case h_2 => exact r.bind (lower_rel hi hf _) fun _ => r.pure
    case h_3 => exact r.bind (lowerAll_rel hi hf _) fun _ => r.pure
    case h_4 => exact r.pure
  case enum head variants =>
    exact r.bind (checkSerdeAttrs_rel _) fun _ => r.bind (substitution_rel ..) fun _ =>
      r.bind (r.each (variantPlan_rel hi hf) _) fun _ => r.ite r.pure r.pure
  all_goals exact r.errorThen

end Generator

-- The names that a class declares for fields.
def Fields.names (u : Casing) : Fields → List String
  | named fields     => fields.map fun f => u.camel (f.ident.getD "")
  | unnamed [_]      => ["value"]
  | unnamed fields   => (List.range fields.length).map fun i => s!"f{i}"
  | unit             => []

-- What the names of a definition's classes end in, with the names that each class declares.
def Item.classes (u : Casing) : Item → List (String × List String)
  | struct _ fields => [("", fields.names u)]
  | enum _ variants =>
    if variants.all (Fields.isUnit ·.fields)
    then [("", variants.map (fun v => u.camel (u.snake v.ident)) ++ ["wireName"])]
    else ("", []) :: variants.map fun v => (v.ident, v.fields.names u)
  | _ => [("", [])]

-- A definition with the types for its parameters.
abbrev Inst := String × List Ty

def Inst.dart (i : Inst) : String :=
  mangle i.fst i.snd

namespace Generator

variable {u : Casing} {items : Index} {base file : String} {args : List Ty}

section

variable {σ : Type} {inst : String → List Ty → Gen σ String} {fuel : Nat} {subst : List (String × Ty)} {s s' : σ}

theorem fields_names {named : List Field} {plans : List PlanField}
    (h : (fields u items inst fuel subst base file named).Clean s plans s') :
    plans.map PlanField.dart = (Fields.named named).names u := by
  refine Gen.clean_each (fun h => ?_) h
  obtain ⟨_, _, _, h⟩ := Gen.clean_bind.mp h
  obtain ⟨_, _, _, h⟩ := Gen.clean_bind.mp h
  obtain ⟨rfl, _⟩ := Gen.clean_pure.mp h
  rfl

theorem lowerAll_length {types : List SynType} {elems : List Ty}
    (h : (lowerAll items inst fuel subst base file types).Clean s elems s') : elems.length = types.length := by
  have hl : elems.map (fun _ => ()) = types.map fun _ => () := Gen.clean_each (fun _ => rfl) h
  simpa using congrArg List.length hl

-- What planning a variant without errors comes to.
inductive PlannedVariant (u : Casing) (items : Index) (inst : String → List Ty → Gen σ String) (fuel : Nat)
    (subst : List (String × Ty)) (base file : String) (variant : Variant) : VariantPlan → Prop
  | unit (hf : variant.fields = .unit) : PlannedVariant u items inst fuel subst base file variant (.unit variant.ident)
  | newType {field : Field} {ty : Ty} (hf : variant.fields = .unnamed [field]) :
    PlannedVariant u items inst fuel subst base file variant (.newType variant.ident ty)
  | tuple {unnamed : List Field} {elems : List Ty} {s s' : σ} (hf : variant.fields = .unnamed unnamed)
    (hn : ∀ field, unnamed ≠ [field])
    (hl : (lowerAll items inst fuel subst base file (unnamed.map Field.ty)).Clean s elems s') :
    PlannedVariant u items inst fuel subst base file variant (.tuple variant.ident elems)
  | struct {named : List Field} {plans : List PlanField} {s s' : σ} (hf : variant.fields = .named named)
    (hn : (Generator.fields u items inst fuel subst base file named).Clean s plans s') :
    PlannedVariant u items inst fuel subst base file variant (.struct variant.ident plans)

theorem planned_variant {variant : Variant} {plan : VariantPlan}
    (h : (variantPlan u items inst fuel subst base file variant).Clean s plan s') :
    PlannedVariant u items inst fuel subst base file variant plan := by
  obtain ⟨_, _, _, h⟩ := Gen.clean_bind.mp h
  split at h
  case h_1 hf =>
    obtain ⟨rfl, _⟩ := Gen.clean_pure.mp h
    exact .unit hf
  case h_2 hf =>
    obtain ⟨_, _, rfl⟩ := Gen.clean_map.mp h
    exact .newType hf
  case h_3 hn hf =>
    obtain ⟨_, hl, rfl⟩ := Gen.clean_map.mp h
    exact .tuple hf hn hl
  case h_4 hf =>
    obtain ⟨_, hn, rfl⟩ := Gen.clean_map.mp h
    exact .struct hf hn

theorem PlannedVariant.names {variant : Variant} {plan : VariantPlan} (dart : String)
    (h : PlannedVariant u items inst fuel subst base file variant plan) :
    plan.classOf dart = (dart ++ variant.ident, variant.fields.names u) := by
  cases h
  case unit hf        => rw [hf]; rfl
  case newType hf     => rw [hf]; rfl
  case tuple hf hn hl =>
    have hl := lowerAll_length hl
    rw [hf, Fields.names]
    · rw [VariantPlan.classOf, hl, List.length_map]
    · exact hn
  case struct hf hn   => rw [hf, ←fields_names hn]; rfl

-- What planning a definition without errors comes to.
inductive Planned (u : Casing) (items : Index) (inst : String → List Ty → Gen σ String) (fuel : Nat)
    (base file : String) : Item → Plan → Prop
  | struct {head : Head} {named : List Field} {plans : List PlanField} {subst : List (String × Ty)} {s s' : σ}
    (hn : (fields u items inst fuel subst base file named).Clean s plans s') :
    Planned u items inst fuel base file (.struct head (.named named)) (.struct plans)
  | newType {head : Head} {field : Field} {ty : Ty} :
    Planned u items inst fuel base file (.struct head (.unnamed [field])) (.newType ty)
  | tupleStruct {head : Head} {unnamed : List Field} {elems : List Ty} {subst : List (String × Ty)} {s s' : σ}
    (hn : ∀ field, unnamed ≠ [field])
    (hl : (lowerAll items inst fuel subst base file (unnamed.map Field.ty)).Clean s elems s') :
    Planned u items inst fuel base file (.struct head (.unnamed unnamed)) (.tupleStruct elems)
  | unit {head : Head} : Planned u items inst fuel base file (.struct head .unit) (.tupleStruct [])
  | unitEnum {head : Head} {variants : List Variant} (hu : variants.all (Fields.isUnit ·.fields)) :
    Planned u items inst fuel base file (.enum head variants) (.unitEnum (variants.map Variant.ident))
  | dataEnum {head : Head} {variants : List Variant} {plans : List VariantPlan} {subst : List (String × Ty)} {s s' : σ}
    (hu : ¬variants.all (Fields.isUnit ·.fields))
    (hv : (Gen.each (variantPlan u items inst fuel subst base file) variants).Clean s plans s') :
    Planned u items inst fuel base file (.enum head variants) (.dataEnum plans)

theorem planned {item : Item} {plan : Option Plan}
    (h : (planOf u items inst fuel base file item args).Clean s plan s') :
    ∃ p, plan = some p ∧ Planned u items inst fuel base file item p := by
  cases item
  case struct head structFields =>
    obtain ⟨_, _, _, h⟩ := Gen.clean_bind.mp h
    obtain ⟨_, _, _, h⟩ := Gen.clean_bind.mp h
    split at h
    case h_1 =>
      obtain ⟨_, _, hn, h⟩ := Gen.clean_bind.mp h
      obtain ⟨rfl, _⟩ := Gen.clean_pure.mp h
      exact ⟨_, rfl, .struct hn⟩
    case h_2 =>
      obtain ⟨_, _, _, h⟩ := Gen.clean_bind.mp h
      obtain ⟨rfl, _⟩ := Gen.clean_pure.mp h
      exact ⟨_, rfl, .newType⟩
    case h_3 hn _ h =>
      obtain ⟨_, _, hl, h⟩ := Gen.clean_bind.mp h
      obtain ⟨rfl, _⟩ := Gen.clean_pure.mp h
      exact ⟨_, rfl, .tupleStruct hn hl⟩
    case h_4 =>
      obtain ⟨rfl, _⟩ := Gen.clean_pure.mp h
      exact ⟨_, rfl, .unit⟩
  case enum head variants =>
    obtain ⟨_, _, _, h⟩ := Gen.clean_bind.mp h
    obtain ⟨_, _, _, h⟩ := Gen.clean_bind.mp h
    obtain ⟨_, _, hv, h⟩ := Gen.clean_bind.mp h
    split at h
    case isTrue hu =>
      obtain ⟨rfl, _⟩ := Gen.clean_pure.mp h
      exact ⟨_, rfl, .unitEnum hu⟩
    case isFalse hu =>
      obtain ⟨rfl, _⟩ := Gen.clean_pure.mp h
      exact ⟨_, rfl, .dataEnum hu hv⟩
  all_goals
    obtain ⟨_, _, h, _⟩ := Gen.clean_bind.mp h
    exact absurd h Gen.clean_error

-- A plan's classes have the names that the definition gives them.
theorem Planned.classes {item : Item} {p : Plan} (h : Planned u items inst fuel base file item p) (dart : String) :
    classesOf u dart p = (item.classes u).map (Prod.map (dart ++ ·) id) := by
  cases h
  case struct hn      => simp [classesOf, Item.classes, fields_names hn]
  case newType        => simp [classesOf, Item.classes, Fields.names]
  case tupleStruct hl =>
    have hl := lowerAll_length hl
    simp [classesOf, Item.classes, hl, Fields.names]
  case unit           => simp [classesOf, Item.classes, Fields.names]
  case unitEnum hu    => simp [classesOf, Item.classes, hu, Function.comp_def]
  case dataEnum hu hv =>
    have hv := Gen.clean_each (fun h => (planned_variant h).names dart) hv
    simp [classesOf, Item.classes, hu, hv]

end

-- Names an instantiation without making it.
def record (base : String) (args : List Ty) : Gen (List Inst) String :=
  fun l => some (mangle base args, l ++ [(base, args)], [])

theorem each_record {roots darts : List String} {l l' : List Inst}
    (h : (Gen.each (record · []) roots).Clean l darts l') : l' = l ++ roots.map (·, []) := by
  induction roots generalizing l darts
  case nil => simpa [eq_comm] using (Gen.clean_pure.mp h).right
  case cons root roots ih =>
    obtain ⟨_, _, hr, hb⟩ := Gen.clean_bind.mp h
    obtain ⟨_, _, hrs, hp⟩ := Gen.clean_bind.mp hb
    cases hr
    obtain ⟨_, rfl⟩ := Gen.clean_pure.mp hp
    simp [ih hrs]

-- The plan of an instantiation, and the instantiations that it names.
def Unfolds (u : Casing) (items : Index) (i : Inst) (plan : Plan) (deps : List Inst) : Prop :=
  ∃ fuel d, items.lookup i.fst = some d ∧
    (planOf u items record fuel i.fst d.file d.item i.snd).Clean [] (some plan) deps

def names (u : Casing) (items : Index) : Memo Inst Plan String where
  key         := Inst.dart
  placeholder := .struct []
  unfolds     := Unfolds u items

theorem Unfolds.deterministic {i : Inst} {plan plan' : Plan} {deps deps' : List Inst}
    (h : Unfolds u items i plan deps) (h' : Unfolds u items i plan' deps') : plan = plan' ∧ deps = deps' := by
  obtain ⟨fuel, d, hd, hc⟩ := h
  obtain ⟨fuel', d', hd', hc'⟩ := h'
  obtain rfl := Option.some.inj (hd.symm.trans hd')
  have hm {f s r} (hf : f ≤ max fuel fuel') (h : planOf u items record f i.fst d.file d.item i.snd s = some r) :
      planOf u items record (max fuel fuel') i.fst d.file d.item i.snd s = some r :=
    planOf_rel (r := .refines) (fun _ _ _ _ h => h) hf d.item i.snd _ _ h
  have he := (hm (le_max_left ..) hc).symm.trans (hm (le_max_right ..) hc')
  simp only [Option.some.injEq, Prod.mk.injEq, and_true] at he
  exact he

end Generator

open Generator

variable {u : Casing} {items : Index}

theorem instantiate_replays {fuel : Nat} {base : String} {args : List Ty} :
    (Gen.Relator.replays (names u items)).Rel (instantiate u items fuel base args) (record base args) := by
  induction fuel generalizing base args
  case zero => exact Gen.Relator.stuck _
  case succ fuel ih =>
    intro plans dart plans' h
    replace h := Gen.clean_state.mp h
    by_cases hm : mangle base args ∈ plans
    case pos =>
      rw [if_pos hm] at h
      obtain ⟨rfl, rfl⟩ := Gen.clean_pure.mp h
      exact ⟨[(base, args)], fun _ => rfl, .known hm .nil⟩
    case neg =>
      rw [if_neg hm] at h
      replace h := Gen.clean_put.mp h
      cases hd : items.lookup base
      case none =>
        rw [hd] at h
        obtain ⟨_, _, h, _⟩ := Gen.clean_bind.mp h
        exact absurd h Gen.clean_error
      case some d =>
        rw [hd] at h
        obtain ⟨plan, plans₁, hp, h⟩ := Gen.clean_bind.mp h
        have ⟨deps, hr, hl⟩ := planOf_rel (fun _ _ => ih) (le_refl _) d.item args _ _ _ hp
        obtain ⟨plan, rfl, _⟩ := planned hp
        replace h := Gen.clean_put.mp <| Gen.clean_state.mp h
        obtain ⟨rfl, rfl⟩ := Gen.clean_pure.mp h
        exact ⟨[(base, args)], fun _ => rfl, .fresh hm ⟨fuel, d, hd, hr []⟩ hl .nil⟩

-- The plans of a run without errors are the table of what the roots reach.
theorem generate_loads {fuel : Nat} {roots : List String} {plans : Plans}
    (h : generate u items fuel roots = some (plans, [])) :
    (names u items).Loads (roots.map (·, [])) ∅ plans := by
  obtain ⟨⟨darts, r⟩, hg, rfl⟩ := Option.map_eq_some_iff.mp h
  have ⟨reqs, hr, hl⟩ := Gen.Relator.each _ (fun _ => instantiate_replays) roots _ _ _ hg
  obtain rfl : reqs = _ := List.append_cancel_left (each_record (hr []))
  exact hl

-- What the roots need.
def Reached (u : Casing) (items : Index) (roots : List String) (i : Inst) : Prop :=
  (names u items).Reach (roots.map (·, [])) i

-- No two instantiations share a name, no two classes and no two names of one class are alike, and under the name of an
-- instantiation is its own plan.
structure CollisionFree (u : Casing) (items : Index) (roots : List String) (plans : Plans) : Prop where
  darts  : ∀ {i j}, Reached u items roots i → Reached u items roots j → i.dart = j.dart → i = j
  texts  : ((classes u plans).map Prod.fst).Nodup
  fields : ∀ c ∈ classes u plans, c.snd.Nodup
  plan   : ∀ {i}, Reached u items roots i → ∃ plan deps, Unfolds u items i plan deps ∧ plans.lookup i.dart = some plan

-- The variants that get a class.
def Item.dataVariants : Item → List String
  | enum _ variants => if variants.all (Fields.isUnit ·.fields) then [] else variants.map Variant.ident
  | _               => []

-- No two named fields get one name.
def Fields.Distinct (u : Casing) : Fields → Prop
  | named fields => (fields.map fun f => u.camel (f.ident.getD "")).Nodup
  | _            => True

def Item.Distinct (u : Casing) : Item → Prop
  | struct _ fields => fields.Distinct u
  | enum _ variants =>
    if variants.all (Fields.isUnit ·.fields)
    then (variants.map (fun v => u.camel (u.snake v.ident)) ++ ["wireName"]).Nodup
    else ∀ v ∈ variants, v.fields.Distinct u
  | _ => True

-- The names of an instantiation, and of its variants, written without a separator.
def Inst.spellings (items : Index) (i : Inst) : List String :=
  i.dart :: ((items.lookup i.fst).elim [] (·.item.dataVariants)).map (i.dart ++ ·)

-- The names that the roots reach are still apart when they are written without separators, and in the other case.
structure Unambiguous (u : Casing) (items : Index) (roots : List String) : Prop where
  apart    : ∀ {i j}, Reached u items roots i → Reached u items roots j → i ≠ j →
    (i.spellings items).Disjoint (j.spellings items)
  variants : ∀ {i}, Reached u items roots i → (i.spellings items).Nodup
  fields   : ∀ {i d}, Reached u items roots i → items.lookup i.fst = some d → d.item.Distinct u

theorem Fields.names_nodup {fields : Fields} : (fields.names u).Nodup ↔ fields.Distinct u := by
  cases fields
  case named   => rfl
  case unit    => simp [names, Distinct]
  case unnamed =>
    unfold names
    split
    case h_1 h | h_4 h => cases h
    case h_2           => simp [Distinct]
    case h_3 =>
      have hf : Function.Injective fun i : Nat => s!"f{i}" := by
        intro i j h
        have h : i.repr = j.repr := by simpa [String.append_right_inj] using h
        have h := congrArg (fun s => Nat.ofDigitChars 10 s.toList 0) h
        simpa using h
      simpa [Distinct] using List.nodup_range.map hf

theorem Item.distinct_iff {item : Item} : (∀ c ∈ item.classes u, c.snd.Nodup) ↔ item.Distinct u := by
  cases item
  case struct => simp [classes, Distinct, Fields.names_nodup]
  case enum head variants =>
    simp only [classes, Distinct]
    split <;> simp [Fields.names_nodup]
  all_goals simp [classes, Distinct]

theorem Item.classes_fst {item : Item} : (item.classes u).map Prod.fst = "" :: item.dataVariants := by
  cases item
  case enum head variants =>
    simp only [classes, dataVariants]
    split <;> simp
  all_goals rfl

namespace Generator.Unfolds

variable {i : Inst} {plan : Plan} {deps : List Inst}

theorem classes_eq (h : Unfolds u items i plan deps) :
    ∃ d, items.lookup i.fst = some d ∧
      classesOf u i.dart plan = (d.item.classes u).map (Prod.map (i.dart ++ ·) id) := by
  obtain ⟨_, d, hd, hc⟩ := h
  obtain ⟨_, he, hp⟩ := planned hc
  cases he
  exact ⟨d, hd, hp.classes _⟩

theorem spellings_eq (h : Unfolds u items i plan deps) : (classesOf u i.dart plan).map Prod.fst = i.spellings items := by
  have ⟨d, hd, hc⟩ := h.classes_eq
  have hf : (classesOf u i.dart plan).map Prod.fst = ((d.item.classes u).map Prod.fst).map (i.dart ++ ·) := by
    simp [hc, Function.comp_def]
  rw [hf, Item.classes_fst, Inst.spellings, hd]
  simp

theorem distinct_iff (h : Unfolds u items i plan deps) :
    (∀ c ∈ classesOf u i.dart plan, c.snd.Nodup) ↔ ∀ {d}, items.lookup i.fst = some d → d.item.Distinct u := by
  have ⟨d, hd, hc⟩ := h.classes_eq
  rw [hc, List.forall_mem_map]
  simp [hd, ←Item.distinct_iff]

end Generator.Unfolds

section

variable {roots : List String} {plans : Plans} {i : Inst}

theorem mem_classes {c : String × List String} :
    c ∈ classes u plans ↔ ∃ dart plan, plans.lookup dart = some plan ∧ c ∈ classesOf u dart plan := by
  simp only [classes, List.mem_flatMap, Finset.mem_sort, Finmap.mem_keys]
  constructor
  case mp =>
    intro ⟨dart, hm, hc⟩
    have ⟨plan, hp⟩ := Option.isSome_iff_exists.mp (Finmap.lookup_isSome.mpr hm)
    rw [hp] at hc
    exact ⟨dart, plan, hp, hc⟩
  case mpr =>
    intro ⟨dart, plan, hp, hc⟩
    exact ⟨dart, Finmap.mem_of_lookup_eq_some hp, hp ▸ hc⟩

-- The names in the text for what is under a name.
def texts (u : Casing) (plans : Plans) (dart : String) : List String :=
  (plans.lookup dart).elim [] fun plan => (classesOf u dart plan).map Prod.fst

theorem classes_fst : (classes u plans).map Prod.fst = (plans.keys.sort (· ≤ ·)).flatMap (texts u plans) := by
  rw [classes, List.map_flatMap]
  congr 1
  funext dart
  unfold texts
  cases plans.lookup dart <;> rfl

theorem classes_nodup :
    ((classes u plans).map Prod.fst).Nodup ↔
      (∀ dart ∈ plans, (texts u plans dart).Nodup) ∧
      ∀ dart ∈ plans, ∀ dart' ∈ plans, dart ≠ dart' → (texts u plans dart).Disjoint (texts u plans dart') := by
  have : Std.Symm (Function.onFun List.Disjoint (texts u plans)) := ⟨fun _ _ h => h.symm⟩
  rw [classes_fst, List.nodup_flatMap, ←List.pairwise_iff_coe_toFinset_pairwise (Finset.sort_nodup ..)]
  simp [Set.Pairwise, Function.onFun, Finmap.mem_keys]

-- What every table of plans has that is filled from the roots.
structure Filled (u : Casing) (items : Index) (roots : List String) (plans : Plans) : Prop where
  entry : ∀ {dart plan}, plans.lookup dart = some plan →
    ∃ i deps, Reached u items roots i ∧ i.dart = dart ∧ Unfolds u items i plan deps
  plan  : ∀ {i}, Reached u items roots i → ∃ plan deps, Unfolds u items i plan deps ∧ plans.lookup i.dart = some plan

namespace Filled

theorem mem_iff (h : Filled u items roots plans) {dart : String} :
    dart ∈ plans ↔ ∃ i, Reached u items roots i ∧ i.dart = dart := by
  constructor
  case mp =>
    intro hm
    have ⟨_, hp⟩ := Option.isSome_iff_exists.mp (Finmap.lookup_isSome.mpr hm)
    have ⟨i, _, hr, hd, _⟩ := h.entry hp
    exact ⟨i, hr, hd⟩
  case mpr =>
    intro ⟨i, hr, hd⟩
    have ⟨_, _, _, hp⟩ := h.plan hr
    exact hd ▸ Finmap.mem_of_lookup_eq_some hp

theorem texts_eq (h : Filled u items roots plans) (hr : Reached u items roots i) :
    texts u plans i.dart = i.spellings items := by
  have ⟨plan, _, hu, hp⟩ := h.plan hr
  rw [texts, hp, ←hu.spellings_eq, Option.elim_some]

theorem nodup_iff (h : Filled u items roots plans)
    (hi : ∀ {i j}, Reached u items roots i → Reached u items roots j → i.dart = j.dart → i = j) :
    ((classes u plans).map Prod.fst).Nodup ↔
      (∀ {i}, Reached u items roots i → (i.spellings items).Nodup) ∧
      ∀ {i j}, Reached u items roots i → Reached u items roots j → i ≠ j →
        (i.spellings items).Disjoint (j.spellings items) := by
  rw [classes_nodup]
  constructor
  case mp =>
    intro ⟨hn, hd⟩
    refine ⟨fun {i} hr => ?_, fun {i j} hr hr' hne => ?_⟩
    case refine_1 => exact h.texts_eq hr ▸ hn _ (h.mem_iff.mpr ⟨i, hr, rfl⟩)
    case refine_2 =>
      have hne : i.dart ≠ j.dart := fun he => hne (hi hr hr' he)
      exact h.texts_eq hr ▸ h.texts_eq hr' ▸ hd _ (h.mem_iff.mpr ⟨i, hr, rfl⟩) _ (h.mem_iff.mpr ⟨j, hr', rfl⟩) hne
  case mpr =>
    intro ⟨hn, hd⟩
    refine ⟨fun dart hm => ?_, fun dart hm dart' hm' hne => ?_⟩
    case refine_1 =>
      obtain ⟨i, hr, rfl⟩ := h.mem_iff.mp hm
      exact h.texts_eq hr ▸ hn hr
    case refine_2 =>
      obtain ⟨i, hr, rfl⟩ := h.mem_iff.mp hm
      obtain ⟨j, hr', rfl⟩ := h.mem_iff.mp hm'
      exact h.texts_eq hr ▸ h.texts_eq hr' ▸ hd hr hr' fun he => hne (he ▸ rfl)

theorem fields_iff (h : Filled u items roots plans) :
    (∀ c ∈ classes u plans, c.snd.Nodup) ↔
      ∀ {i d}, Reached u items roots i → items.lookup i.fst = some d → d.item.Distinct u := by
  constructor
  case mp =>
    intro hc i d hr hd
    have ⟨plan, _, hu, hp⟩ := h.plan hr
    exact hu.distinct_iff.mp (fun c hm => hc c (mem_classes.mpr ⟨_, _, hp, hm⟩)) hd
  case mpr =>
    intro hd c hc
    have ⟨_, plan, hp, hc⟩ := mem_classes.mp hc
    obtain ⟨i, _, hr, rfl, hu⟩ := h.entry hp
    exact hu.distinct_iff.mpr (hd hr) c hc

end Filled

theorem Unambiguous.eq_of_dart (h : Unambiguous u items roots) {i j : Inst} (hi : Reached u items roots i)
    (hj : Reached u items roots j) (hd : i.dart = j.dart) : i = j := by
  by_contra hne
  exact h.apart hi hj hne List.mem_cons_self (hd ▸ List.mem_cons_self)

theorem planned_of_lookup (hl : (names u items).Loads (roots.map (·, [])) ∅ plans) {dart : String} {plan : Plan}
    (hp : plans.lookup dart = some plan) :
    ∃ i deps, Reached u items roots i ∧ i.dart = dart ∧ Unfolds u items i plan deps := by
  have ⟨i, deps, hr, hk, hu, _⟩ := hl.entry Finmap.notMem_empty hp
  exact ⟨i, deps, hr, hk, hu⟩

theorem Unambiguous.filled (h : Unambiguous u items roots)
    (hl : (names u items).Loads (roots.map (·, [])) ∅ plans) : Filled u items roots plans where
  entry   := planned_of_lookup hl
  plan hr := Memo.complete Unfolds.deterministic (fun _ hi _ hj => h.eq_of_dart hi hj) hl hr

end

-- The generator keeps names apart exactly when they are apart as they are spelled.
theorem collision_free_iff {fuel : Nat} {roots : List String} {plans : Plans}
    (h : generate u items fuel roots = some (plans, [])) :
    CollisionFree u items roots plans ↔ Unambiguous u items roots := by
  have hl := generate_loads h
  constructor
  case mp =>
    intro ⟨hi, ht, hf, hp⟩
    have hF : Filled u items roots plans := { entry := planned_of_lookup hl, plan := hp }
    have ⟨hn, hd⟩ := (hF.nodup_iff hi).mp ht
    exact { apart := hd, variants := hn, fields := hF.fields_iff.mp hf }
  case mpr =>
    intro h
    have hF := h.filled hl
    exact {
      darts  := h.eq_of_dart
      texts  := (hF.nodup_iff h.eq_of_dart).mpr ⟨h.variants, h.apart⟩
      fields := hF.fields_iff.mpr h.fields
      plan   := hF.plan
    }

def ascii : Casing where
  isUppercase   := Char.isUpper
  toUppercase c := [c.toUpper]
  toLowercase c := [c.toLower]

-- An application with a generic `Pair` and a `PairInt` of its own.
def pairs : Wire where
  roots  := some ["Op"]
  vocab  := []
  leaves := []
  files  := [("ops.rs", [
    .struct ⟨[], "Op", [], "pub struct Op { pub a: Pair<u8>, pub b: PairInt }".toList⟩
      (.named [⟨[], some "a", .path "Pair" [.path "u8" []]⟩, ⟨[], some "b", .path "PairInt" []⟩]),
    .struct ⟨[], "Pair", ["T"], "pub struct Pair<T> { pub x: T, pub y: T }".toList⟩
      (.named [⟨[], some "x", .path "T" []⟩, ⟨[], some "y", .path "T" []⟩]),
    .struct ⟨[], "PairInt", [], "pub struct PairInt { pub z: String }".toList⟩
      (.named [⟨[], some "z", .path "String" []⟩])
  ])]

theorem pair_shares_name :
    ∃ index plans, pairs.index = .ok index ∧ generate ascii index 10 ["Op"] = some (plans, []) ∧
      ¬CollisionFree ascii index ["Op"] plans := by
  have h : pairs.index.toOption.any fun index =>
      (generate ascii index 10 ["Op"]).any (·.snd.isEmpty) &&
      (index.lookup "Op").any fun d => (planOf ascii index record 10 "Op" d.file d.item [] []).any fun r =>
        r.fst.isSome && r.snd.snd.isEmpty &&
        r.snd.fst.map (fun i => (i.fst, i.dart)) = [("Pair", "PairInt"), ("PairInt", "PairInt")] := by decide +kernel
  cases hx : pairs.index
  case error => simp [hx, Except.toOption] at h
  case ok index =>
    simp only [hx, Except.toOption, Option.any_some, Bool.and_eq_true, Option.any_eq_true, decide_eq_true_eq] at h
    obtain ⟨⟨⟨plans, errors⟩, hg, he⟩, d, hd, ⟨plan, deps, errors'⟩, hp, ⟨⟨hs, he'⟩, hm⟩⟩ := h
    obtain rfl := List.isEmpty_iff.mp he
    obtain rfl := List.isEmpty_iff.mp he'
    obtain ⟨plan, rfl⟩ := Option.isSome_iff_exists.mp hs
    refine ⟨index, plans, rfl, hg, fun hc => ?_⟩
    have hr : Reached ascii index ["Op"] ("Op", []) := .root (by simp)
    have hu : Unfolds ascii index ("Op", []) plan deps := ⟨10, d, hd, hp⟩
    obtain ⟨i, _, rfl, hi, hm⟩ := List.map_eq_cons_iff.mp hm
    obtain ⟨j, _, rfl, hj, _⟩ := List.map_eq_cons_iff.mp hm
    obtain ⟨hi, hi'⟩ := Prod.mk.inj hi
    obtain ⟨hj, hj'⟩ := Prod.mk.inj hj
    have hij : i = j := hc.darts (.next hr hu (by simp)) (.next hr hu (by simp)) (hi'.trans hj'.symm)
    have he : "Pair" = "PairInt" := hi.symm.trans <| hij ▸ hj
    exact absurd he (by decide)

theorem collision_free_iff_pair_int :
    ∃ index plans, pairs.index = .ok index ∧ generate ascii index 10 ["PairInt"] = some (plans, []) ∧
      (CollisionFree ascii index ["PairInt"] plans ↔ Unambiguous ascii index ["PairInt"]) := by
  have h : pairs.index.toOption.any fun index =>
      (generate ascii index 10 ["PairInt"]).any (·.snd.isEmpty) := by decide +kernel
  cases hx : pairs.index
  case error => simp [hx, Except.toOption] at h
  case ok index =>
    simp only [hx, Except.toOption, Option.any_some, Option.any_eq_true] at h
    obtain ⟨⟨plans, errors⟩, hg, he⟩ := h
    obtain rfl := List.isEmpty_iff.mp he
    exact ⟨index, plans, rfl, hg, collision_free_iff hg⟩

end Plaza.Build
