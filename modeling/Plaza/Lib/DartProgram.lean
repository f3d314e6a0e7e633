import Mathlib.Data.List.Forall2
import Mathlib.Order.Filter.AtTopBot.Basic

-- A part of Dart: classes whose methods compute values from values.
namespace Dart

-- A map has its entries in their order. An object has its fields under their names.
inductive Value
  | null
  | bool (b : Bool)
  | int (n : Int)
  | double (x : Float)
  | str (s : String)
  | list (vs : List Value)
  | map (entries : List (Value × Value))
  | record (vs : List Value)
  | object (cls : String) (fields : List (String × Value))

-- The types that a value is asked for at run time.
inductive Kind
  | bool
  | int
  | str
  | list
  | map
  deriving DecidableEq

-- Each form stands for the text after it.
inductive Expr
  | var (x : String)                                -- x
  | text (s : String)                               -- 's'
  | get (e : Expr) (field : String)                 -- e.field
  | component (e : Expr) (i : Nat)                  -- e.$1, counted from 0 here
  | index (e : Expr) (i : Nat)                      -- e[0]
  | entry (e key : Expr)                            -- e[key]
  | firstKey (e : Expr)                             -- e.keys.first
  | unlessNull (e body : Expr)                      -- e == null ? null : body
  | cond (c a b : Expr)                             -- c ? a : b
  | ifIs (k : Kind) (e a b : Expr)                  -- if (e is K) return a; return b
  | cast (k : Kind) (e : Expr)                      -- e as K
  | toDouble (e : Expr)                             -- (e as num).toDouble()
  | list (es : List Expr)                           -- [a, b]
  | map (entries : List (String × Expr))            -- {'s': a, 't': b}
  | record (es : List Expr)                         -- (a, b)
  | listFor (x : String) (source body : Expr)       -- [for (final x in source) body]
  | mapFor (x : String) (source key value : Expr)   -- {for (final x in source.entries) key: value}
  | block (locals : List (String × Expr)) (e : Expr)    -- final x = a; final y = b; return e
  | switch (e : Expr) (cases : List (String × Expr))    -- switch (e) { case 's': return a; } throw …
  | construct (cls : String) (args : List (String × Expr))
  | invoke (e : Expr) (method : String) (args : List Expr)
  | static (cls method : String) (args : List Expr)

structure Method where
  params : List String
  body   : Expr

structure Class where
  methods : List (String × Method)
  statics : List (String × Method)

abbrev Program :=
  List (String × Class)

inductive Call
  | invoke (this : Value) (method : String) (args : List Value)
  | static (cls method : String) (args : List Value)

-- In a list without repetitions each name stands for its own value.
theorem lookup_of_mem {α : Type} {l : List (String × α)} {x : String} {a : α} (hn : (l.map Prod.fst).Nodup)
    (h : (x, a) ∈ l) : l.lookup x = some a := by
  induction l
  case nil => cases h
  case cons b l ih =>
    obtain ⟨y, b⟩ := b
    rw [List.map_cons, List.nodup_cons] at hn
    cases h
    case head => simp
    case tail h =>
      have hne : x ≠ y := fun he => hn.left <| List.mem_map.mpr ⟨_, h, he⟩
      rw [List.lookup_cons, beq_false_of_ne hne]
      exact ih hn.right h

-- What the names in scope stand for.
abbrev Env :=
  String → Option Value

namespace Env

def ofList (l : List (String × Value)) : Env :=
  (l.lookup ·)

def bind (env : Env) (x : String) (v : Value) : Env :=
  fun y => if y = x then some v else env y

-- The names are in scope but do not stand for anything yet.
def hide (env : Env) (names : List String) : Env :=
  fun y => if y ∈ names then none else env y

variable {env : Env} {x y : String} {v : Value} {names : List String}

@[simp]
theorem bind_self : env.bind x v x = some v := by
  simp [bind]

@[simp]
theorem bind_of_ne (h : y ≠ x) : env.bind x v y = env y := by
  simp [bind, h]

@[simp]
theorem hide_of_notMem (h : y ∉ names) : env.hide names y = env y := by
  simp [hide, h]

theorem hide_bind_self (h : x ∉ names) : (env.bind x v).hide names x = some v := by
  rw [hide_of_notMem h, bind_self]

@[simp]
theorem ofList_cons {l : List (String × Value)} :
    ofList ((x, v) :: l) y = if y = x then some v else ofList l y := by
  by_cases h : y = x
  case pos => simp [ofList, h]
  case neg => simp [ofList, h, List.lookup_cons, beq_false_of_ne h]

theorem ofList_of_mem {l : List (String × Value)} (hn : (l.map Prod.fst).Nodup) (h : (x, v) ∈ l) :
    ofList l x = some v :=
  lookup_of_mem hn h

end Env

namespace Value

def isA : Kind → Value → Bool
  | .bool, bool _ => true
  | .int,  int _  => true
  | .str,  str _  => true
  | .list, list _ => true
  | .map,  map _  => true
  | _,     _      => false

def asDouble : Value → Option Value
  | int n    => some <| double <| .ofInt n
  | double x => some <| double x
  | _        => none

-- A map entry is an object with a `key` and a `value`.
def mapEntry (key value : Value) : Value :=
  object "MapEntry" [("key", key), ("value", value)]

def elems : Value → Option (List Value)
  | list vs => some vs
  | _       => none

def mapEntries : Value → Option (List (Value × Value))
  | map entries => some entries
  | _           => none

def isText (s : String) : Value → Bool
  | str t => s = t
  | _     => false

def get (name : String) : Value → Option Value
  | object _ fields => fields.lookup name
  | _               => none

def component (i : Nat) : Value → Option Value
  | record vs => vs[i]?
  | _         => none

def index (i : Nat) : Value → Option Value
  | list vs => vs[i]?
  | _       => none

-- There is no entry under a key that is missing, which reads as `null`.
def entry : Value → Value → Option Value
  | str s, map entries => some <| (entries.find? (isText s ·.fst)).elim null Prod.snd
  | _,     _           => none

def firstKey : Value → Option Value
  | map ((key, _) :: _) => some key
  | _                   => none

end Value

namespace Expr

mutual

-- What an expression comes to. Nothing comes of one that throws.
def eval (call : Call → Option Value) : Env → Expr → Option Value
  | env, var x               => env x
  | _,   text s              => some (.str s)
  | env, get e field         => e.eval call env >>= (·.get field)
  | env, component e i       => e.eval call env >>= (·.component i)
  | env, index e i           => e.eval call env >>= (·.index i)
  | env, entry e key         => do
    let m ← e.eval call env
    let k ← key.eval call env
    k.entry m
  | env, firstKey e          => e.eval call env >>= Value.firstKey
  | env, unlessNull e body   => do
    match ← e.eval call env with
    | .null => return .null
    | _     => body.eval call env
  | env, cond c a b          => do
    match ← c.eval call env with
    | .bool true  => a.eval call env
    | .bool false => b.eval call env
    | _           => none
  | env, ifIs k e a b        => do
    let v ← e.eval call env
    if v.isA k then a.eval call env else b.eval call env
  | env, cast k e            => do
    let v ← e.eval call env
    if v.isA k then return v else none
  | env, toDouble e          => e.eval call env >>= Value.asDouble
  | env, list es             => .list <$> evalAll call env es
  | env, map entries         => do
    let fields ← evalNamed call env entries
    return .map <| fields.map fun (s, v) => (.str s, v)
  | env, record es           => do
    -- Without a comma, parentheses only group.
    match ← evalAll call env es with
    | [v] => return v
    | vs  => return .record vs
  | env, listFor x source body => do
    let vs ← (← source.eval call env).elems
    .list <$> vs.mapM fun v => body.eval call (env.bind x v)
  | env, mapFor x source key value => do
    let entries ← (← source.eval call env).mapEntries
    .map <$> entries.mapM fun (k, v) => do
      let env := env.bind x (.mapEntry k v)
      let k ← key.eval call env
      let v ← value.eval call env
      return (k, v)
  -- A name is in scope in all of its block, also before its declaration.
  | env, block locals e      => do
    let env ← evalLocals call (env.hide <| locals.map Prod.fst) locals
    e.eval call env
  | env, switch e cases      => do
    match ← e.eval call env with
    | .str s => evalCase call env s cases
    | _      => none
  | env, construct cls args  => .object cls <$> evalNamed call env args
  | env, invoke e method args => do
    let this ← e.eval call env
    let args ← evalAll call env args
    call <| .invoke this method args
  | env, static cls method args => do
    let args ← evalAll call env args
    call <| .static cls method args

def evalAll (call : Call → Option Value) : Env → List Expr → Option (List Value)
  | _,   []      => some []
  | env, e :: es => do
    let v  ← e.eval call env
    let vs ← evalAll call env es
    return v :: vs

def evalNamed (call : Call → Option Value) : Env → List (String × Expr) → Option (List (String × Value))
  | _,   []            => some []
  | env, (x, e) :: es  => do
    let v  ← e.eval call env
    let vs ← evalNamed call env es
    return (x, v) :: vs

def evalLocals (call : Call → Option Value) : Env → List (String × Expr) → Option Env
  | env, []           => some env
  | env, (x, e) :: es => do
    let v ← e.eval call env
    evalLocals call (env.bind x v) es

def evalCase (call : Call → Option Value) : Env → String → List (String × Expr) → Option Value
  | _,   _, []              => none
  | env, s, (t, e) :: cases => if s = t then e.eval call env else evalCase call env s cases

end

attribute [simp] eval evalAll evalNamed evalLocals evalCase

end Expr

namespace Program

-- A method sees its parameters before the fields of the object.
def enter (p : Program) (call : Call → Option Value) : Call → Option Value
  | .invoke (.object cls fields) method args => do
    let m ← (← p.lookup cls).methods.lookup method
    m.body.eval call <| .ofList <| m.params.zip args ++ fields
  | .invoke .. => none
  | .static cls method args => do
    let m ← (← p.lookup cls).statics.lookup method
    m.body.eval call <| .ofList <| m.params.zip args

-- What a call comes to, with calls no more than so many deep in each other.
def run (p : Program) : Nat → Call → Option Value
  | 0     => fun _ => none
  | n + 1 => p.enter (p.run n)

-- A call comes to a value, if calls may be deep enough.
def Returns (p : Program) (c : Call) (v : Value) : Prop :=
  ∀ᶠ n in Filter.atTop, p.run n c = some v

def Evals (p : Program) (env : Env) (e : Expr) (v : Value) : Prop :=
  ∀ᶠ n in Filter.atTop, e.eval (p.run n) env = some v

-- Declarations come to an environment, each in that of those before it.
inductive Declares (p : Program) : Env → List (String × Expr) → Env → Prop
  | nil {env} : Declares p env [] env
  | cons {env env' x e v l} : (p.Evals env e v) → (Declares p (env.bind x v) l env') → Declares p env ((x, e) :: l) env'

variable {p : Program} {env env' : Env} {e body : Expr} {v w : Value} {x : String}

theorem Returns.deterministic {c : Call} (h : p.Returns c v) (h' : p.Returns c w) : v = w := by
  have ⟨_, h, h'⟩ := (h.and h').exists
  exact Option.some.inj <| h.symm.trans h'

theorem returns_of_enter {c : Call} (h : ∀ᶠ n in Filter.atTop, p.enter (p.run n) c = some v) : p.Returns c v := by
  have ⟨n, h⟩ := Filter.eventually_atTop.mp h
  refine Filter.eventually_atTop.mpr ⟨n + 1, fun m hm => ?_⟩
  obtain ⟨m, rfl⟩ := Nat.exists_eq_succ_of_ne_zero (Nat.ne_zero_of_lt hm)
  exact h m (Nat.le_of_succ_le_succ hm)

-- The rules of the language: what a compound comes to by what its parts come to.
namespace Evals

theorem deterministic (h : p.Evals env e v) (h' : p.Evals env e w) : v = w := by
  have ⟨_, h, h'⟩ := (h.and h').exists
  exact Option.some.inj <| h.symm.trans h'

theorem all {es : List Expr} {vs : List Value} (h : List.Forall₂ (p.Evals env) es vs) :
    ∀ᶠ n in Filter.atTop, Expr.evalAll (p.run n) env es = some vs := by
  induction h
  case nil => exact .of_forall fun _ => rfl
  case cons h _ ih => exact (h.and ih).mono fun n ⟨h, ih⟩ => by simp [h, ih]

theorem named {es : List (String × Expr)} {vs : List (String × Value)}
    (h : List.Forall₂ (fun e v => e.fst = v.fst ∧ p.Evals env e.snd v.snd) es vs) :
    ∀ᶠ n in Filter.atTop, Expr.evalNamed (p.run n) env es = some vs := by
  induction h
  case nil => exact .of_forall fun _ => rfl
  case cons e v _ _ h _ ih =>
    obtain ⟨x, e⟩ := e
    obtain ⟨y, v⟩ := v
    obtain ⟨rfl, h⟩ := h
    exact (h.and ih).mono fun n ⟨h, ih⟩ => by simp [h, ih]

theorem var (h : env x = some v) : p.Evals env (.var x) v :=
  .of_forall fun _ => h

theorem text {s : String} : p.Evals env (.text s) (.str s) :=
  .of_forall fun _ => rfl

theorem get {field : String} (he : p.Evals env e v) (h : v.get field = some w) : p.Evals env (.get e field) w :=
  he.mono fun n he => by simp [he, h]

theorem component {i : Nat} (he : p.Evals env e v) (h : v.component i = some w) : p.Evals env (.component e i) w :=
  he.mono fun n he => by simp [he, h]

theorem index {i : Nat} (he : p.Evals env e v) (h : v.index i = some w) : p.Evals env (.index e i) w :=
  he.mono fun n he => by simp [he, h]

theorem entry {key : Expr} {k : Value} (he : p.Evals env e v) (hk : p.Evals env key k) (h : k.entry v = some w) :
    p.Evals env (.entry e key) w :=
  (he.and hk).mono fun n ⟨he, hk⟩ => by simp [he, hk, h]

theorem firstKey (he : p.Evals env e v) (h : v.firstKey = some w) : p.Evals env (.firstKey e) w :=
  he.mono fun n he => by simp [he, h]

theorem null (he : p.Evals env e .null) : p.Evals env (.unlessNull e body) .null :=
  he.mono fun n he => by simp [he]

theorem unlessNull (he : p.Evals env e v) (hv : v ≠ .null) (hb : p.Evals env body w) :
    p.Evals env (.unlessNull e body) w := by
  refine (he.and hb).mono fun n ⟨he, hb⟩ => ?_
  simp only [Expr.eval, he, Option.bind_eq_bind, Option.bind_some]
  exact hb

theorem cond {c e' : Expr} {b : Bool} (hc : p.Evals env c (.bool b)) (h : p.Evals env (if b then e else e') v) :
    p.Evals env (.cond c e e') v := by
  refine (hc.and h).mono fun n ⟨hc, h⟩ => ?_
  cases b <;> simpa [hc] using h

theorem ifIs {k : Kind} {a b : Expr} (he : p.Evals env e v) (h : p.Evals env (if v.isA k then a else b) w) :
    p.Evals env (.ifIs k e a b) w := by
  refine (he.and h).mono fun n ⟨he, h⟩ => ?_
  simp only [Expr.eval, he, Option.bind_eq_bind, Option.bind_some]
  split at h <;> simp_all

theorem cast {k : Kind} (he : p.Evals env e v) (h : v.isA k) : p.Evals env (.cast k e) v :=
  he.mono fun n he => by simp [he, h]

theorem toDouble (he : p.Evals env e v) (h : v.asDouble = some w) : p.Evals env (.toDouble e) w :=
  he.mono fun n he => by simp [he, h]

theorem list {es : List Expr} {vs : List Value} (h : List.Forall₂ (p.Evals env) es vs) :
    p.Evals env (.list es) (.list vs) :=
  (all h).mono fun n h => by simp [h]

theorem map {es : List (String × Expr)} {vs : List (String × Value)}
    (h : List.Forall₂ (fun e v => e.fst = v.fst ∧ p.Evals env e.snd v.snd) es vs) :
    p.Evals env (.map es) (.map <| vs.map fun (s, v) => (.str s, v)) :=
  (named h).mono fun n h => by simp [h]

theorem construct {cls : String} {es : List (String × Expr)} {vs : List (String × Value)}
    (h : List.Forall₂ (fun e v => e.fst = v.fst ∧ p.Evals env e.snd v.snd) es vs) :
    p.Evals env (.construct cls es) (.object cls vs) :=
  (named h).mono fun n h => by simp [h]

theorem record {es : List Expr} {vs : List Value} (h : List.Forall₂ (p.Evals env) es vs) (hl : vs.length ≠ 1) :
    p.Evals env (.record es) (.record vs) := by
  refine (all h).mono fun n h => ?_
  simp only [Expr.eval, h, Option.bind_eq_bind, Option.bind_some]
  split
  case h_1 => simp at hl
  case h_2 => rfl

theorem listFor {source : Expr} {vs ws : List Value} (hs : p.Evals env source (.list vs))
    (hb : List.Forall₂ (fun v w => p.Evals (env.bind x v) body w) vs ws) :
    p.Evals env (.listFor x source body) (.list ws) := by
  have hm : ∀ᶠ n in Filter.atTop, vs.mapM (fun v => body.eval (p.run n) (env.bind x v)) = some ws := by
    clear hs
    induction hb
    case nil          => exact .of_forall fun _ => rfl
    case cons hb _ ih => exact (hb.and ih).mono fun n ⟨hb, ih⟩ => by simp [hb, ih]
  exact (hs.and hm).mono fun n ⟨hs, hm⟩ => by simp [hs, Value.elems, hm]

theorem mapFor {source key value : Expr} {vs ws : List (Value × Value)} (hs : p.Evals env source (.map vs))
    (hb : List.Forall₂ (fun v w =>
      p.Evals (env.bind x <| .mapEntry v.fst v.snd) key w.fst ∧
      p.Evals (env.bind x <| .mapEntry v.fst v.snd) value w.snd) vs ws) :
    p.Evals env (.mapFor x source key value) (.map ws) := by
  have hm : ∀ᶠ n in Filter.atTop, vs.mapM (fun (k, v) => do
      let env := env.bind x (.mapEntry k v)
      let k ← key.eval (p.run n) env
      let v ← value.eval (p.run n) env
      return (k, v)) = some ws := by
    clear hs
    induction hb
    case nil => exact .of_forall fun _ => rfl
    case cons hb _ ih =>
      exact (hb.left.and <| hb.right.and ih).mono fun n ⟨hk, hv, ih⟩ => by
        rw [List.mapM_cons, ih]
        simp [hk, hv]
  exact (hs.and hm).mono fun n ⟨hs, hm⟩ => by simpa [hs, Value.mapEntries] using hm

theorem locals {l : List (String × Expr)} (h : p.Declares env l env') :
    ∀ᶠ n in Filter.atTop, Expr.evalLocals (p.run n) env l = some env' := by
  induction h
  case nil => exact .of_forall fun _ => rfl
  case cons h _ ih => exact (h.and ih).mono fun n ⟨h, ih⟩ => by simp [h, ih]

theorem block {l : List (String × Expr)} (hl : p.Declares (env.hide <| l.map Prod.fst) l env')
    (he : p.Evals env' e v) : p.Evals env (.block l e) v :=
  ((locals hl).and he).mono fun n ⟨hl, he⟩ => by simp [hl, he]

theorem switch {s : String} {cases : List (String × Expr)} (he : p.Evals env e (.str s))
    (hc : cases.lookup s = some body) (hb : p.Evals env body v) : p.Evals env (.switch e cases) v := by
  refine (he.and hb).mono fun n ⟨he, hb⟩ => ?_
  have hv : Expr.evalCase (p.run n) env s cases = some v := by
    induction cases
    case nil => cases hc
    case cons c cases ih =>
      obtain ⟨t, e⟩ := c
      by_cases h : s = t
      case pos => simp_all
      case neg =>
        rw [List.lookup_cons, beq_false_of_ne h] at hc
        simpa [h] using ih hc
  simp [he, hv]

theorem invoke {method : String} {args : List Expr} {vs : List Value} (he : p.Evals env e v)
    (ha : List.Forall₂ (p.Evals env) args vs) (h : p.Returns (.invoke v method vs) w) :
    p.Evals env (.invoke e method args) w :=
  (he.and <| (all ha).and h).mono fun n ⟨he, ha, h⟩ => by simp [he, ha, h]

theorem static {cls method : String} {args : List Expr} {vs : List Value} (ha : List.Forall₂ (p.Evals env) args vs)
    (h : p.Returns (.static cls method vs) w) : p.Evals env (.static cls method args) w :=
  ((all ha).and h).mono fun n ⟨ha, h⟩ => by simp [ha, h]

end Evals

theorem Returns.invoke {cls method : String} {fields : List (String × Value)} {args : List Value} {c : Class}
    {m : Method} (hc : p.lookup cls = some c) (hm : c.methods.lookup method = some m)
    (h : p.Evals (.ofList <| m.params.zip args ++ fields) m.body v) :
    p.Returns (.invoke (.object cls fields) method args) v :=
  returns_of_enter <| h.mono fun n h => by simp [enter, hc, hm, h]

theorem Returns.static {cls method : String} {args : List Value} {c : Class} {m : Method}
    (hc : p.lookup cls = some c) (hm : c.statics.lookup method = some m)
    (h : p.Evals (.ofList <| m.params.zip args) m.body v) : p.Returns (.static cls method args) v :=
  returns_of_enter <| h.mono fun n h => by simp [enter, hc, hm, h]

end Program
end Dart
