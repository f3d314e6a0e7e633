import Plaza.Wire.Build.Theorems.DartRender.Correspondence

open Dart (Value Program Env)

namespace Plaza.Build

section

variable {p : Program} {named : Bool} {env : Env} {e : Dart.Expr}

-- The text for a type turns the one value into the other.
structure Encodes (p : Program) (named : Bool) (ty : Ty) (v w : Value) : Prop where
  evals : ∀ {env e}, p.Evals env e v → env "named" = some (.bool named) → p.Evals env (encode e ty) w

open Dart.Program.Evals

theorem encodeElems_evals {types : List Ty} {vs ws : List Value} (pre : List Value) (h : Forall₃ (Encodes p named) types vs ws)
    (he : p.Evals env e (.record (pre ++ vs))) (hn : env "named" = some (.bool named)) :
    List.Forall₂ (p.Evals env) (encodeElems e pre.length types) ws := by
  induction h generalizing pre
  case nil => exact .nil
  case cons ty v w types vs ws h _ ih =>
    rw [encodeElems]
    refine .cons (h.evals (component he <| by simp [Value.component]) hn) ?_
    have ih := ih (pre ++ [v]) (by simpa using he)
    rwa [List.length_append] at ih

theorem named_ne (s : String) : "named" ≠ s ++ "0" := by
  intro h
  have h := congrArg (fun t => t.toList.getLast?) h
  simp at h

section

variable {fields : List PlanField} {vs ws : List Value}

-- No copy hides a field that is still to be copied.
theorem declares_locals (hv : ∀ f v, (f, v) ∈ fields.zip vs → env f.dart = some v) (hl : fields.length = vs.length)
    (hs : ∀ f ∈ fields, ∀ g ∈ fields, f.dart ≠ g.dart ++ "0") (hn : (fields.map PlanField.dart).Nodup) :
    ∃ env', p.Declares env (locals fields) env' ∧ (∀ f v, (f, v) ∈ fields.zip vs → env' (f.dart ++ "0") = some v) ∧
      ∀ x, (∀ f ∈ fields, x ≠ f.dart ++ "0") → env' x = env x := by
  induction fields generalizing vs env
  case nil => exact ⟨env, .nil, by simp, by simp⟩
  case cons f fields ih =>
    match vs, hl with
    | v :: vs, hl =>
      have hf : env f.dart = some v := hv f v (by simp)
      rw [List.map_cons, List.nodup_cons] at hn
      have hv' g w (h : (g, w) ∈ fields.zip vs) : env.bind (f.dart ++ "0") v g.dart = some w := by
        have hne := hs g (List.mem_cons_of_mem _ (List.of_mem_zip h).left) f List.mem_cons_self
        rw [Env.bind_of_ne hne]
        exact hv g w (List.mem_cons_of_mem _ h)
      have ⟨env', hd, hz, hx⟩ := ih hv' (Nat.succ.inj hl)
        (fun g hg k hk => hs g (List.mem_cons_of_mem _ hg) k (List.mem_cons_of_mem _ hk)) hn.right
      refine ⟨env', .cons (var hf) hd, fun g w h => ?_, fun x h => ?_⟩
      case refine_1 =>
        cases h
        case head =>
          rw [hx, Env.bind_self]
          intro g hg he
          exact hn.left <| List.mem_map.mpr ⟨g, hg, (String.append_left_inj "0").mp he.symm⟩
        case tail h => exact hz g w h
      case refine_2 =>
        have ⟨hf, h⟩ := List.forall_mem_cons.mp h
        rw [hx x h, Env.bind_of_ne hf]

theorem compactEntries_evals (hv : ∀ f v, (f, v) ∈ fields.zip vs → env (f.dart ++ "0") = some v)
    (hn : env "named" = some (.bool named)) (h : Forall₃ (Encodes p named) (fields.map PlanField.ty) vs ws) :
    List.Forall₂ (p.Evals env) (compactEntries fields) ws := by
  induction fields generalizing vs ws
  case nil =>
    cases h
    exact .nil
  case cons f fields ih =>
    cases h
    case cons v w vs ws h hs =>
      exact .cons (h.evals (var <| hv f v List.mem_cons_self) hn) (ih (fun g w h => hv g w (List.mem_cons_of_mem _ h)) hs)

theorem namedEntries_evals (h : List.Forall₂ (p.Evals env) (compactEntries fields) ws) :
    List.Forall₂ (fun e v => e.fst = v.fst ∧ p.Evals env e.snd v.snd) (namedEntries fields)
      ((fields.map PlanField.rust).zip ws) := by
  induction fields generalizing ws
  case nil =>
    cases h
    exact .nil
  case cons f fields ih =>
    cases h
    case cons h hs => exact .cons ⟨rfl, h⟩ (ih hs)

theorem fields_evals (h : List.Forall₂ (p.Evals env) (compactEntries fields) ws)
    (hn : env "named" = some (.bool named)) :
    p.Evals env (.cond (.var "named") (.map <| namedEntries fields) (.list <| compactEntries fields))
      (fieldsShape named (fields.map PlanField.rust) ws) := by
  refine cond (var hn) ?_
  cases named
  case false => exact list h
  case true  =>
    have he : ((fields.map PlanField.rust).map Value.str).zip ws =
        ((fields.map PlanField.rust).zip ws).map (Prod.map Value.str id) :=
      List.zip_map_left
    simp only [fieldsShape, if_true, he]
    exact map (namedEntries_evals h)

-- The environment of the method of an object with named fields, once it has copied them.
theorem fields_env (p : Program) (named : Bool) (hf : FieldsFit fields) (hn : (fields.map PlanField.dart).Nodup)
    (hl : fields.length = vs.length) :
    ∃ env', p.Declares ((Env.ofList <| ("named", .bool named) :: (fields.map PlanField.dart).zip vs).hide <|
        (locals fields).map Prod.fst) (locals fields) env' ∧
      (∀ f v, (f, v) ∈ fields.zip vs → env' (f.dart ++ "0") = some v) ∧ env' "named" = some (.bool named) := by
  have hh x (hx : ∀ g ∈ fields, x ≠ g.dart ++ "0") : x ∉ (locals fields).map Prod.fst := by
    simpa [locals, eq_comm] using hx
  generalize he : (Env.ofList <| ("named", .bool named) :: (fields.map PlanField.dart).zip vs).hide _ = env
  have hv f v (h : (f, v) ∈ fields.zip vs) : env f.dart = some v := by
    have hm := (List.of_mem_zip h).left
    rw [←he, Env.hide_of_notMem (hh _ (hf.apart f hm).right), Env.ofList_cons, if_neg (hf.apart f hm).left]
    refine Env.ofList_of_mem ?_ ?_
    case refine_1 => rwa [List.map_fst_zip (by simp [hl])]
    case refine_2 =>
      rw [List.zip_map_left]
      exact List.mem_map.mpr ⟨_, h, rfl⟩
  obtain ⟨env', hd, hz, hx⟩ := declares_locals (p := p) hv hl (fun f hm => (hf.apart f hm).right) hn
  refine ⟨env', hd, hz, ?_⟩
  have hne (f : PlanField) (_ : f ∈ fields) : "named" ≠ f.dart ++ "0" := named_ne _
  rw [hx _ hne, ←he, Env.hide_of_notMem (hh _ hne)]
  simp

end

theorem toWire_returns {cls : String} {fields : List (String × Value)} {c : Dart.Class} {body : Dart.Expr} {w : Value}
    (hc : p.lookup cls = some c) (hm : c.methods = toWire body)
    (h : p.Evals (.ofList <| ("named", .bool named) :: fields) body w) :
    p.Returns (.invoke (.object cls fields) "toWire" [.bool named]) w :=
  Program.Returns.invoke (m := { params := ["named"], body }) hc (by rw [hm]; rfl) h

theorem elemNames_ne {elems : List Ty} : "named" ∉ elemNames elems := by
  intro h
  obtain ⟨i, _, h⟩ := List.mem_map.mp h
  change "f" ++ toString i = "named" at h
  have h := congrArg (fun t => t.toList.head?) h
  simp at h

theorem elemEntries_evals {names : List String} {types : List Ty} {vs ws : List Value}
    (hv : ∀ f v, (f, v) ∈ names.zip vs → env f = some v) (hl : names.length = types.length)
    (hn : env "named" = some (.bool named)) (h : Forall₃ (Encodes p named) types vs ws) :
    List.Forall₂ (p.Evals env) ((names.zip types).map fun (f, ty) => encode (.var f) ty) ws := by
  induction h generalizing names
  case nil =>
    rw [List.zip_nil_right]
    exact .nil
  case cons ty v w types vs ws h _ ih =>
    match names, hl with
    | f :: names, hl =>
      exact .cons (h.evals (var <| hv f v List.mem_cons_self) hn)
        (ih (fun g w h => hv g w (List.mem_cons_of_mem _ h)) (Nat.succ.inj hl))

-- The environment of the method of an object whose fields are those of a tuple.
theorem elems_env {elems : List Ty} {vs : List Value} (hn : (elemNames elems).Nodup) (hl : elems.length = vs.length)
    (f : String) (v : Value) (h : (f, v) ∈ (elemNames elems).zip vs) :
    Env.ofList (("named", .bool named) :: (elemNames elems).zip vs) f = some v := by
  have hne : f ≠ "named" := fun he => elemNames_ne <| he ▸ (List.of_mem_zip h).left
  rw [Env.ofList_cons, if_neg hne]
  refine Env.ofList_of_mem ?_ h
  rwa [List.map_fst_zip (by simp [elemNames, hl])]

end

section

variable {u : Casing} {items : Index} {roots : List String} {p : Program} {named : Bool}

open Dart.Program.Evals

theorem encodes_user {name : String} {v w : Value} (h : p.Returns (.invoke v "toWire" [.bool named]) w) :
    Encodes p named (.user name) v w where
  evals he hn := invoke he (.cons (var hn) .nil) h

theorem variant_evals {env : Env} {name : String} {e : Dart.Expr} {v : Value} (h : p.Evals env e v) :
    p.Evals env (.map [(name, e)]) (variantShape name v) :=
  map <| .cons (b := (name, v)) ⟨rfl, h⟩ .nil

-- What stands for a unit in the text.
def noFields : Value :=
  .list []

mutual

-- What the text writes is what serde writes, but for units.
theorem Corresponds.encodes {ty : Ty} {d : Data} {v : Value} (h : Corresponds u items roots ty d v)
    (hr : Rendered u items roots p) {place : Place} (hf : ty.fits place) :
    Encodes p named ty v (d.shape noFields named) := by
  cases h
  case bool | int | double | str => exact ⟨fun he _ => he⟩
  case durationTy secs nanos =>
    refine ⟨fun he hn => invoke he (.cons (var hn) .nil) <| toWire_returns hr.duration rfl <| cond (var rfl) ?_⟩
    cases named
    case false => exact list <| .cons (var rfl) <| .cons (var rfl) .nil
    case true  =>
      have hs : p.Evals (.ofList [("named", .bool true), ("secs", .int secs), ("nanos", .int nanos)])
          (.map [("secs", .var "secs"), ("nanos", .var "nanos")])
          (.map <| [("secs", .int secs), ("nanos", .int nanos)].map fun (s, v) => (.str s, v)) :=
        map <| .cons ⟨rfl, var rfl⟩ <| .cons ⟨rfl, var rfl⟩ .nil
      exact hs
  case none => exact ⟨fun he _ => null he⟩
  case some ty d h =>
    simp only [Ty.fits, Bool.and_eq_true, Bool.not_eq_true'] at hf
    exact ⟨fun he hn => unlessNull he (h.ne_null hf.left.left) <| (h.encodes hr hf.right).evals he hn⟩
  case list ty ds vs h =>
    have hs := h.encodes hr (fits_replicate hf)
    exact ⟨fun he hn => listFor he <| hs.of_replicate.imp fun _ _ h => h.evals (var Env.bind_self) hn⟩
  case mapTy key value ks ds kvs vs hl hk hv =>
    rw [Ty.fits, Bool.and_eq_true] at hf
    have hk := hk.encodes hr (fits_replicate hf.left)
    have hv := hv.encodes hr (fits_replicate hf.right)
    refine ⟨fun he hn => mapFor he <| forall₂_zip hk.of_replicate hv.of_replicate fun _ _ _ _ hk hv => ?_⟩
    exact ⟨hk.evals (get (var Env.bind_self) rfl) hn, hv.evals (get (var Env.bind_self) rfl) hn⟩
  case unit => exact ⟨fun _ _ => list .nil⟩
  case tuple ty types ds vs h =>
    rw [Ty.fits, Bool.and_eq_true] at hf
    have hs := h.encodes hr fun t ht => ⟨_, Ty.fits_of_allFit hf.right t ht⟩
    exact ⟨fun he hn => list <| encodeElems_evals [] hs he hn⟩
  case unitStruct i hp hu =>
    exact encodes_user <| toWire_returns (hr.plan hp _ List.mem_cons_self) rfl <| list .nil
  case newtypeStruct i ty d v hp h =>
    refine encodes_user <| toWire_returns (hr.plan hp _ List.mem_cons_self) rfl ?_
    exact block (.cons (var <| by simp) .nil) ((h.encodes hr (hr.fits hp)).evals (var Env.bind_self) (by simp))
  case tupleStruct i elems ds vs hp hu h =>
    have hs := h.encodes hr fun t ht => ⟨_, hr.fits hp t ht⟩
    have hn := hr.distinct hp _ List.mem_cons_self
    refine encodes_user <| toWire_returns (hr.plan hp _ List.mem_cons_self) rfl <| list ?_
    exact elemEntries_evals (elems_env hn h.length_eq.right) (by simp [elemNames]) (by simp) hs
  case struct i fields ds vs hp h =>
    have hf := hr.fits hp
    have hs := h.encodes hr fun t ht => hf.fits_types t ht
    have hl : fields.length = vs.length := by simpa using h.length_eq.right
    have ⟨env', hd, hv, hn⟩ := fields_env p named hf (hr.distinct hp _ List.mem_cons_self) hl
    refine encodes_user <| toWire_returns (hr.plan hp _ List.mem_cons_self) rfl <| block hd ?_
    rw [Data.shape, hf.map_unraw]
    exact fields_evals (compactEntries_evals hv hn hs) hn
  case constant i variants name hp hm =>
    rw [Data.shape, (hr.fits hp).right name hm]
    exact encodes_user <| toWire_returns (hr.plan hp _ List.mem_cons_self) rfl <| var <| by simp
  case unitVariant i variants name hp hm =>
    have hf : unraw name = name := hr.fits hp _ hm
    rw [Data.shape, hf]
    have hc : p.lookup (i.dart ++ name) = some _ := hr.variant hp hm
    exact encodes_user <| toWire_returns hc rfl text
  case newtypeVariant i variants name ty d v hp hm h =>
    have hf : unraw name = name ∧ ty.fits .variable := hr.fits hp _ hm
    rw [Data.shape, hf.left]
    have hc : p.lookup (i.dart ++ name) = some _ := hr.variant hp hm
    refine encodes_user <| toWire_returns hc rfl ?_
    refine block (.cons (v := v) (var <| by simp) .nil) <| variant_evals ?_
    exact (h.encodes hr hf.right).evals (var Env.bind_self) (by simp)
  case tupleVariant i variants name elems ds vs hp hm h =>
    have hf : unraw name = name ∧ ∀ ty ∈ elems, ty.fits .member := hr.fits hp _ hm
    have hs := h.encodes hr fun t ht => ⟨_, hf.right t ht⟩
    rw [Data.shape, hf.left]
    have hc : p.lookup (i.dart ++ name) = some _ := hr.variant hp hm
    refine encodes_user <| toWire_returns hc rfl <| variant_evals <| list ?_
    exact elemEntries_evals (elems_env (hr.variant_distinct hp hm) h.length_eq.right) (by simp [elemNames]) (by simp) hs
  case structVariant i variants name fields ds vs hp hm h =>
    have hf : unraw name = name ∧ FieldsFit fields := hr.fits hp _ hm
    have hs := h.encodes hr fun t ht => hf.right.fits_types t ht
    have hl : fields.length = vs.length := by simpa using h.length_eq.right
    have ⟨env', hd, hv, hn⟩ := fields_env p named hf.right (hr.variant_distinct hp hm) hl
    rw [Data.shape, hf.left, hf.right.map_unraw]
    have hc : p.lookup (i.dart ++ name) = some _ := hr.variant hp hm
    refine encodes_user <| toWire_returns hc rfl <| block hd <| variant_evals ?_
    exact fields_evals (compactEntries_evals hv hn hs) hn
termination_by sizeOf d

theorem CorrespondsAll.encodes {types : List Ty} {ds : List Data} {vs : List Value}
    (h : CorrespondsAll u items roots types ds vs) (hr : Rendered u items roots p)
    (hf : ∀ ty ∈ types, ∃ place, ty.fits place) :
    Forall₃ (Encodes p named) types vs (Data.shapes noFields named ds) := by
  cases h
  case nil       => exact .nil
  case cons h hs =>
    have ⟨⟨_, hf⟩, hfs⟩ := List.forall_mem_cons.mp hf
    exact .cons (h.encodes hr hf) (hs.encodes hr hfs)
termination_by sizeOf ds

end

mutual

-- The text and serde write the same when there is no unit.
theorem Corresponds.shape_eq_iff {ty : Ty} {d : Data} {v : Value} (h : Corresponds u items roots ty d v) :
    d.shape noFields named = d.wire named ↔ d.unitFree := by
  cases h
  case bool | int | double | str | none | constant | unitVariant => simp [Data.shape, Data.wire, Data.unitFree]
  case durationTy => simp [Data.shape, Data.wire, Data.unitFree, Data.shapes, Data.allUnitFree]
  case unit | unitStruct => simp [Data.shape, Data.wire, Data.unitFree, noFields]
  case some h | newtypeStruct h =>
    rw [Data.wire, Data.shape, Data.shape, Data.unitFree]
    exact h.shape_eq_iff
  case list h | tuple h | tupleStruct h =>
    rw [Data.wire, Data.shape, Data.shape, Value.list.injEq, Data.unitFree]
    exact h.shapes_eq_iff
  case mapTy key value ks ds kvs vs hl hk hv =>
    have hl unit : (Data.shapes unit named ks).length = (Data.shapes unit named ds).length := by
      rw [Data.shapes_length, Data.shapes_length, hl]
    rw [Data.wire, Data.shape, Data.shape, Value.map.injEq, zip_inj (hl _) (hl _), Data.unitFree, Bool.and_eq_true]
    exact and_congr hk.shapes_eq_iff hv.shapes_eq_iff
  case struct h =>
    rw [Data.wire, Data.shape, Data.shape, fieldsShape_inj (h.names_length _) (h.names_length _), Data.unitFree]
    exact h.shapes_eq_iff
  case newtypeVariant h =>
    rw [Data.wire, Data.shape, Data.shape, variantShape_inj, Data.unitFree]
    exact h.shape_eq_iff
  case tupleVariant h =>
    rw [Data.wire, Data.shape, Data.shape, variantShape_inj, Value.list.injEq, Data.unitFree]
    exact h.shapes_eq_iff
  case structVariant h =>
    rw [Data.wire, Data.shape, Data.shape, variantShape_inj, fieldsShape_inj (h.names_length _) (h.names_length _),
      Data.unitFree]
    exact h.shapes_eq_iff
termination_by sizeOf d

theorem CorrespondsAll.shapes_eq_iff {types : List Ty} {ds : List Data} {vs : List Value}
    (h : CorrespondsAll u items roots types ds vs) :
    Data.shapes noFields named ds = Data.shapes .null named ds ↔ Data.allUnitFree ds := by
  cases h
  case nil       => simp [Data.shapes, Data.allUnitFree]
  case cons h hs =>
    rw [Data.shapes, Data.shapes, List.cons.injEq, Data.allUnitFree, Bool.and_eq_true]
    exact and_congr h.shape_eq_iff hs.shapes_eq_iff
termination_by sizeOf ds

end

end

end Plaza.Build

open Dart (Value Program Env)

namespace Plaza.Build

section

variable {p : Program} {named : Bool} {env : Env}

-- The text for a type turns the one value into the other.
structure Decodes (p : Program) (ty : Ty) (w v : Value) : Prop where
  evals : ∀ {env e}, p.Evals env e w → (ty.opens → p.Evals (env.hide ["t"]) e w) → p.Evals env (decode e ty) v

open Dart.Program.Evals

theorem decodeElems_evals {e : Dart.Expr} {types : List Ty} {ws vs : List Value} (pre : List Value)
    (h : Forall₃ (Decodes p) types ws vs) (he : p.Evals env e (.list (pre ++ ws)))
    (ht : ∀ ty ∈ types, ty.opens → p.Evals (env.hide ["t"]) e (.list (pre ++ ws))) :
    List.Forall₂ (p.Evals env) (decodeElems e pre.length types) vs := by
  induction h generalizing pre
  case nil => exact .nil
  case cons ty w v types ws vs h _ ih =>
    have hi : (Value.list (pre ++ w :: ws)).index pre.length = some w := by simp [Value.index]
    rw [decodeElems]
    refine .cons (h.evals (index he hi) fun ho => index (ht ty List.mem_cons_self ho) hi) ?_
    have ih := ih (pre ++ [w]) (by simpa using he) fun t hm ho => by simpa using ht t (List.mem_cons_of_mem _ hm) ho
    rwa [List.length_append] at ih

theorem args_evals {names : List String} {es : List Dart.Expr} {vs : List Value}
    (h : List.Forall₂ (p.Evals env) es vs) :
    List.Forall₂ (fun e v => e.fst = v.fst ∧ p.Evals env e.snd v.snd) (names.zip es) (names.zip vs) := by
  induction h generalizing names
  case nil => simp
  case cons h _ ih =>
    cases names
    case nil  => exact .nil
    case cons => exact .cons ⟨rfl, h⟩ ih

-- The fields of an array, under the names of what is made of it.
theorem listFrom_evals {x l cls : String} {names : List String} {types : List Ty} {ws vs : List Value}
    (hx : env x = some (.list ws)) (hl : x ≠ l) (ht : l ≠ "t") (h : Forall₃ (Decodes p) types ws vs) :
    p.Evals env (.block [(l, .cast .list <| .var x)] <| .construct cls <| names.zip <| decodeElems (.var l) 0 types)
      (.object cls <| names.zip vs) := by
  have hc : p.Evals (env.hide [l]) (.cast .list <| .var x) (.list ws) := cast (var <| by simp [hl, hx]) rfl
  refine block (.cons hc .nil) <| construct <| args_evals ?_
  exact decodeElems_evals [] h (var Env.bind_self) fun _ _ _ => var <| by simp [ht]

theorem entry_zip {names : List String} {ws : List Value} {s : String} {w : Value} (hn : names.Nodup)
    (h : (s, w) ∈ names.zip ws) : (Value.str s).entry (.map <| (names.map Value.str).zip ws) = some w := by
  induction names generalizing ws
  case nil => cases h
  case cons t names ih =>
    cases ws
    case nil => cases h
    case cons v ws =>
      rw [List.nodup_cons] at hn
      cases h
      case head => simp [Value.entry, Value.isText]
      case tail h =>
        have hne : s ≠ t := fun he => hn.left <| he ▸ (List.of_mem_zip h).left
        have ih := ih hn.right h
        simpa [Value.entry, Value.isText, hne] using ih

section

variable {fields : List PlanField} {ws vs : List Value} {x : String}

theorem mapArgs_evals {m : Value} (hx : env x = some m) (ht : x ≠ "t")
    (hm : ∀ f w, (f, w) ∈ fields.zip ws → (Value.str f.rust).entry m = some w)
    (h : Forall₃ (Decodes p) (fields.map PlanField.ty) ws vs) :
    List.Forall₂ (fun e v => e.fst = v.fst ∧ p.Evals env e.snd v.snd) (mapArgsFrom fields (.var x))
      ((fields.map PlanField.dart).zip vs) := by
  induction fields generalizing ws vs
  case nil =>
    cases h
    exact .nil
  case cons f fields ih =>
    cases h
    case cons w v ws vs h hs =>
      have he := hm f w List.mem_cons_self
      refine .cons ⟨rfl, h.evals (entry (var hx) text he) fun _ => entry (var <| by simp [ht, hx]) text he⟩ ?_
      exact ih (fun g w h => hm g w (List.mem_cons_of_mem _ h)) hs

-- What is in either form is read as the same fields.
theorem structFrom_evals {l cls : String} (hx : env x = some (fieldsShape named (fields.map PlanField.rust) ws))
    (hl : x ≠ l) (ht : x ≠ "t") (ht' : l ≠ "t") (hn : (fields.map PlanField.rust).Nodup)
    (h : Forall₃ (Decodes p) (fields.map PlanField.ty) ws vs) :
    p.Evals env (structFrom cls fields (.var x) l) (.object cls <| (fields.map PlanField.dart).zip vs) := by
  refine ifIs (var hx) ?_
  cases named
  case false =>
    rw [if_neg (by simp [fieldsShape, Value.isA])]
    exact listFrom_evals hx hl ht' h
  case true =>
    rw [if_pos (by simp [fieldsShape, Value.isA])]
    refine construct <| mapArgs_evals hx ht (fun f w hm => ?_) h
    refine entry_zip hn ?_
    rw [List.zip_map_left]
    exact List.mem_map.mpr ⟨_, hm, rfl⟩

end

theorem fromWire_returns {cls : String} {c : Dart.Class} {body : Dart.Expr} {w v : Value} (hc : p.lookup cls = some c)
    (hm : c.statics = fromWire body) (h : p.Evals (.ofList [("wire", w)]) body v) :
    p.Returns (.static cls "fromWire" [w]) v :=
  Program.Returns.static (m := { params := ["wire"], body }) hc (by rw [hm]; rfl) h

theorem decodes_user {name : String} {w v : Value} (h : p.Returns (.static name "fromWire" [w]) v) :
    Decodes p (.user name) w v where
  evals he _ := static (.cons he .nil) h

theorem nodup_filterMap {α β γ : Type} {f : α → Option (β × γ)} {g : α → β} {l : List α}
    (hf : ∀ a b, f a = some b → b.fst = g a) (hn : (l.map g).Nodup) : ((l.filterMap f).map Prod.fst).Nodup := by
  rw [List.map_filterMap]
  have hs : (l.filterMap fun a => (f a).map Prod.fst) = (l.filter fun a => (f a).isSome).map g := by
    rw [←List.filterMap_eq_map, ←List.filterMap_eq_filter, List.filterMap_filterMap]
    congr 1
    funext a
    cases ha : f a
    case none   => simp [Option.guard, ha]
    case some b => simp [Option.guard, ha, hf a b ha]
  rw [hs]
  exact hn.sublist <| List.filter_sublist.map _

end

section

variable {u : Casing} {items : Index} {roots : List String} {p : Program} {named : Bool}

theorem Rendered.rusts (hr : Rendered u items roots p) {i : Inst} {plan : Plan} (hp : Planned u items roots i plan)
    {fields : List PlanField} (hf : fields ∈ plan.named) (hn : (fields.map PlanField.dart).Nodup) :
    (fields.map PlanField.rust).Nodup := by
  have he : fields.map PlanField.dart = (fields.map PlanField.rust).map u.camel := by
    rw [List.map_map]
    exact List.map_congr_left (hr.camel hp fields hf)
  rw [he] at hn
  exact hn.of_map

theorem classOf_fst {dart : String} {v : VariantPlan} : (v.classOf dart).fst = dart ++ v.name := by
  cases v <;> rfl

theorem Rendered.variant_names (hr : Rendered u items roots p) {i : Inst} {variants : List VariantPlan}
    (hp : Planned u items roots i (.dataEnum variants)) : (variants.map VariantPlan.name).Nodup := by
  have hn := (hr.texts hp).of_cons
  have he : (variants.map <| VariantPlan.classOf i.dart).map Prod.fst =
      (variants.map VariantPlan.name).map (i.dart ++ ·) := by
    simp only [List.map_map]
    exact List.map_congr_left fun _ _ => classOf_fst
  rw [he] at hn
  exact hn.of_map

open Dart.Program.Evals

theorem unitCase_returns (hr : Rendered u items roots p) {i : Inst} {variants : List VariantPlan} {name : String}
    (hp : Planned u items roots i (.dataEnum variants)) (hm : .unit name ∈ variants) :
    p.Returns (.static i.dart "fromWire" [.str name]) (.object (i.dart ++ name) []) := by
  refine fromWire_returns (hr.plan hp _ List.mem_cons_self) rfl <| ifIs (var rfl) ?_
  refine switch (var rfl) (Dart.lookup_of_mem ?_ <| List.mem_filterMap.mpr ⟨_, hm, rfl⟩) (construct .nil)
  refine nodup_filterMap (fun v b hb => ?_) (hr.variant_names hp)
  cases v <;> cases hb
  rfl

theorem bodyCase_returns (hr : Rendered u items roots p) {i : Inst} {variants : List VariantPlan} {v : VariantPlan}
    {e : Dart.Expr} {w obj : Value} (hp : Planned u items roots i (.dataEnum variants)) (hm : v ∈ variants)
    (hb : v.bodyCase i.dart = some (v.name, e)) (he : ∀ {env : Env}, env "body" = some w → p.Evals env e obj) :
    p.Returns (.static i.dart "fromWire" [variantShape v.name w]) obj := by
  refine fromWire_returns (hr.plan hp _ List.mem_cons_self) rfl <| ifIs (var rfl) ?_
  rw [if_neg (by simp [variantShape, Value.isA])]
  have hn : ((variants.filterMap <| VariantPlan.bodyCase i.dart).map Prod.fst).Nodup := by
    refine nodup_filterMap (fun v b hb => ?_) (hr.variant_names hp)
    cases v <;> cases hb <;> rfl
  have hw : (Value.str v.name).entry (variantShape v.name w) = some w := by
    simp [variantShape, Value.entry, Value.isText]
  have hs : p.Declares ((Env.ofList [("wire", variantShape v.name w)]).hide ["m", "name", "body"]) [
      ("m", .cast .map <| .var "wire"),
      ("name", .cast .str <| .firstKey <| .var "m"),
      ("body", .entry (.var "m") (.var "name"))
    ] _ :=
    .cons (v := variantShape v.name w) (cast (var <| by simp) rfl) <|
    .cons (v := .str v.name) (cast (firstKey (var Env.bind_self) rfl) rfl) <|
    .cons (v := w) (entry (var <| by simp) (var Env.bind_self) hw) .nil
  have hc := Dart.lookup_of_mem hn <| List.mem_filterMap.mpr ⟨_, hm, hb⟩
  exact block hs <| switch (var <| by simp) hc (he Env.bind_self)

theorem object_inj {cls : String} {names : List String} {vs vs' : List Value} (h : names.length = vs.length)
    (h' : vs'.length = vs.length) :
    Value.object cls (names.zip vs') = .object cls (names.zip vs) ↔ vs' = vs := by
  simp [zip_inj (h.trans h'.symm) h]

mutual

-- The text reads what serde writes, and gives it back unless a `Some` was written like a `None`.
theorem Corresponds.decodes {ty : Ty} {d : Data} {v : Value} (h : Corresponds u items roots ty d v) (named : Bool)
    (hr : Rendered u items roots p) {place : Place} (hf : ty.fits place) (hu : d.unitFree) :
    ∃ v', Decodes p ty (d.wire named) v' ∧ (v' = v ↔ d.someKept) := by
  cases h
  case bool b  => exact ⟨.bool b, ⟨fun he _ => cast he rfl⟩, by simp [Data.someKept]⟩
  case int n   => exact ⟨.int n, ⟨fun he _ => cast he rfl⟩, by simp [Data.someKept]⟩
  case double x => exact ⟨.double x, ⟨fun he _ => toDouble he rfl⟩, by simp [Data.someKept]⟩
  case str s   => exact ⟨.str s, ⟨fun he _ => cast he rfl⟩, by simp [Data.someKept]⟩
  case durationTy secs nanos =>
    -- The class for durations is that of a struct with these fields.
    let fields : List PlanField := [⟨"secs", "secs", .int⟩, ⟨"nanos", "nanos", .int⟩]
    have hi n : Decodes p .int (.int n) (.int n) := ⟨fun he _ => cast he rfl⟩
    have hs : p.Evals (.ofList [("wire", fieldsShape named (fields.map PlanField.rust) [.int secs, .int nanos])])
        (structFrom "WireDuration" fields (.var "wire") "l")
        (.object "WireDuration" <| (fields.map PlanField.dart).zip [.int secs, .int nanos]) :=
      structFrom_evals rfl (by decide) (by decide) (by decide) (by decide) (.cons (hi _) <| .cons (hi _) .nil)
    refine ⟨_, ⟨fun he _ => static (.cons he .nil) <| fromWire_returns hr.duration rfl hs⟩, ?_⟩
    simp [fields, Data.someKept, Data.allSomeKept]
  case none => exact ⟨.null, ⟨fun he _ => null he⟩, by simp [Data.someKept]⟩
  case some ty d h =>
    simp only [Ty.fits, Bool.and_eq_true, Bool.not_eq_true'] at hf
    rw [Data.unitFree] at hu
    have hw : (Data.some d).wire named = d.wire named := by rw [Data.wire, Data.shape, Data.wire]
    rw [hw, Data.someKept]
    by_cases hn : d.isNil
    case pos =>
      refine ⟨.null, ⟨fun he _ => null (d.wire_eq_null_iff.mpr hn ▸ he)⟩, ?_⟩
      simpa [hn] using (h.ne_null hf.left.left).symm
    case neg =>
      have ⟨v', hd, hv⟩ := h.decodes named hr hf.right hu
      have hw : d.wire named ≠ .null := fun he => hn (d.wire_eq_null_iff.mp he)
      exact ⟨v', ⟨fun he ht => unlessNull he hw (hd.evals he ht)⟩, by simpa [hn] using hv⟩
  case list ty ds vs h =>
    rw [Data.unitFree] at hu
    have ⟨vs', hd, _, hv⟩ := h.decodes named (fits_replicate hf) hr hu
    refine ⟨.list vs', ⟨fun he _ => listFor (cast he rfl) <| hd.of_replicate.imp fun _ _ h => ?_⟩, ?_⟩
    case refine_1 => exact h.evals (var Env.bind_self) fun _ => var <| by simp
    case refine_2 => rwa [Value.list.injEq, Data.someKept]
  case mapTy key value ks ds kvs vs hl hk hv =>
    rw [Ty.fits, Bool.and_eq_true] at hf
    rw [Data.unitFree, Bool.and_eq_true] at hu
    have ⟨kvs', hdk, hlk, hkk⟩ := hk.decodes named (fits_replicate hf.left) hr hu.left
    have ⟨vs', hdv, hlv, hkv⟩ := hv.decodes named (fits_replicate hf.right) hr hu.right
    refine ⟨.map (kvs'.zip vs'), ⟨fun he _ => mapFor (cast he rfl) <|
      forall₂_zip hdk.of_replicate hdv.of_replicate fun _ _ _ _ hk hv => ⟨?_, ?_⟩⟩, ?_⟩
    case refine_1 => exact hk.evals (get (var Env.bind_self) rfl) fun _ => get (var <| Env.hide_bind_self (by decide)) rfl
    case refine_2 => exact hv.evals (get (var Env.bind_self) rfl) fun _ => get (var <| Env.hide_bind_self (by decide)) rfl
    case refine_3 =>
      have hlk' := hk.length_eq.right
      have hlv' := hv.length_eq.right
      rw [List.length_replicate] at hlk' hlv'
      have hl : kvs.length = vs.length := by omega
      rw [Value.map.injEq, zip_inj (by omega) hl, hkk, hkv, Data.someKept, Bool.and_eq_true]
  case unit => cases hu
  case tuple ty types ds vs h =>
    rw [Ty.fits, Bool.and_eq_true, Bool.and_eq_true] at hf
    rw [Data.unitFree] at hu
    have hfs := Ty.fits_of_allFit hf.right
    have ⟨vs', hd, hl, hv⟩ := h.decodes named (fun t ht => ⟨_, hfs t ht⟩) hr hu
    refine ⟨.record vs', ⟨fun he ht => block (.cons (cast (ht rfl) rfl) .nil) <| record ?_ ?_⟩, ?_⟩
    case refine_1 =>
      refine decodeElems_evals [] hd (var Env.bind_self) fun t ht ho => ?_
      rw [Ty.opens_of_fits_element (hfs t ht)] at ho
      cases ho
    case refine_2 => 
      have hl' := h.length_eq.right
      simp_all
    case refine_3 => rwa [Value.record.injEq, Data.someKept]
  case unitStruct => cases hu
  case newtypeStruct i ty d v hp h =>
    rw [Data.unitFree] at hu
    have ⟨v', hd, hv⟩ := h.decodes named hr (hr.fits hp) hu
    refine ⟨.object i.dart [("value", v')], decodes_user <|
      fromWire_returns (hr.plan hp _ List.mem_cons_self) rfl <| construct <| .cons ⟨rfl, ?_⟩ .nil, ?_⟩
    case refine_1 => exact hd.evals (var rfl) fun _ => var <| Env.hide_of_notMem (by decide)
    case refine_2 => simpa [Data.someKept] using hv
  case tupleStruct i elems ds vs hp _ h =>
    rw [Data.unitFree] at hu
    have ⟨vs', hd, hl, hv⟩ := h.decodes named (fun t ht => ⟨_, hr.fits hp t ht⟩) hr hu
    refine ⟨_, decodes_user <| fromWire_returns (hr.plan hp _ List.mem_cons_self) rfl <|
      listFrom_evals rfl (by decide) (by decide) hd, ?_⟩
    rwa [object_inj (by simp [elemNames, h.length_eq.right]) hl, Data.someKept]
  case struct i fields ds vs hp h =>
    have hf := hr.fits hp
    rw [Data.unitFree] at hu
    have ⟨vs', hd, hl, hv⟩ := h.decodes named hf.fits_types hr hu
    have hn := hr.rusts hp List.mem_cons_self (hr.distinct hp _ List.mem_cons_self)
    rw [Data.wire, Data.shape, hf.map_unraw]
    refine ⟨_, decodes_user <| fromWire_returns (hr.plan hp _ List.mem_cons_self) rfl <|
      structFrom_evals rfl (by decide) (by decide) (by decide) hn hd, ?_⟩
    rwa [object_inj (by simpa using h.length_eq.right) hl, Data.someKept]
  case constant i variants name hp hm =>
    rw [Data.wire, Data.shape, (hr.fits hp).right name hm]
    refine ⟨.object i.dart [("wireName", .str name)], decodes_user <|
      fromWire_returns (hr.plan hp _ List.mem_cons_self) rfl <|
      switch (cast (var rfl) rfl) (List.lookup_graph _ hm) <| construct <| .cons ⟨rfl, text⟩ .nil, ?_⟩
    simp [Data.someKept]
  case unitVariant i variants name hp hm =>
    have hf : unraw name = name := hr.fits hp _ hm
    rw [Data.wire, Data.shape, hf]
    exact ⟨_, decodes_user <| unitCase_returns hr hp hm, by simp [Data.someKept]⟩
  case newtypeVariant i variants name ty d v hp hm h =>
    have hf : unraw name = name ∧ ty.fits .variable := hr.fits hp _ hm
    rw [Data.unitFree] at hu
    have ⟨v', hd, hv⟩ := h.decodes named hr hf.right hu
    rw [Data.wire, Data.shape, hf.left]
    refine ⟨.object (i.dart ++ name) [("value", v')], decodes_user <| bodyCase_returns hr hp hm rfl fun hb =>
      construct <| .cons ⟨rfl, ?_⟩ .nil, ?_⟩
    case refine_1 => exact hd.evals (var hb) fun _ => var <| (Env.hide_of_notMem (by decide)).trans hb
    case refine_2 => simpa [Data.someKept] using hv
  case tupleVariant i variants name elems ds vs hp hm h =>
    have hf : unraw name = name ∧ ∀ ty ∈ elems, ty.fits .member := hr.fits hp _ hm
    rw [Data.unitFree] at hu
    have ⟨vs', hd, hl, hv⟩ := h.decodes named (fun t ht => ⟨_, hf.right t ht⟩) hr hu
    rw [Data.wire, Data.shape, hf.left]
    refine ⟨_, decodes_user <| bodyCase_returns hr hp hm rfl fun hb =>
      listFrom_evals hb (by decide) (by decide) hd, ?_⟩
    rwa [object_inj (by simp [elemNames, h.length_eq.right]) hl, Data.someKept]
  case structVariant i variants name fields ds vs hp hm h =>
    have hf : unraw name = name ∧ FieldsFit fields := hr.fits hp _ hm
    rw [Data.unitFree] at hu
    have ⟨vs', hd, hl, hv⟩ := h.decodes named hf.right.fits_types hr hu
    have hn := hr.rusts hp (List.mem_flatMap.mpr ⟨_, hm, List.mem_cons_self⟩) (hr.variant_distinct hp hm)
    rw [Data.wire, Data.shape, hf.left, hf.right.map_unraw]
    refine ⟨_, decodes_user <| bodyCase_returns hr hp hm rfl fun hb =>
      structFrom_evals hb (by decide) (by decide) (by decide) hn hd, ?_⟩
    rwa [object_inj (by simpa using h.length_eq.right) hl, Data.someKept]
termination_by sizeOf d

theorem CorrespondsAll.decodes {types : List Ty} {ds : List Data} {vs : List Value}
    (h : CorrespondsAll u items roots types ds vs) (named : Bool) (hf : ∀ ty ∈ types, ∃ place, ty.fits place)
    (hr : Rendered u items roots p) (hu : Data.allUnitFree ds) :
    ∃ vs', Forall₃ (Decodes p) types (Data.shapes .null named ds) vs' ∧ vs'.length = vs.length ∧
      (vs' = vs ↔ Data.allSomeKept ds) := by
  cases h
  case nil       => exact ⟨[], .nil, rfl, by simp [Data.allSomeKept]⟩
  case cons h hs =>
    have ⟨⟨_, hf⟩, hfs⟩ := List.forall_mem_cons.mp hf
    rw [Data.allUnitFree, Bool.and_eq_true] at hu
    have ⟨v', hd, hv⟩ := h.decodes named hr hf hu.left
    have ⟨vs', hds, hl, hvs⟩ := hs.decodes named hfs hr hu.right
    exact ⟨v' :: vs', .cons hd hds, by simp [hl], by simp [Data.allSomeKept, hv, hvs]⟩
termination_by sizeOf ds

end
end

end Plaza.Build
