import Mathlib.Logic.Basic

-- A loop whose body either leaves it or goes on with another state.
structure Loop (σ : Type*) where
  body : σ → Option σ

namespace Loop

variable {σ : Type*}

-- The loop comes to its end, by leaving it and not otherwise.
inductive Ends (l : Loop σ) : σ → σ → Prop
  | leave {s} : (l.body s = none) → Ends l s s
  | round {s₁ s₂ s₃} : (l.body s₁ = some s₂) → (Ends l s₂ s₃) → Ends l s₁ s₃

-- At most so many rounds of the loop.
def run (l : Loop σ) : Nat → σ → σ
  | 0,          s => s
  | rounds + 1, s =>
    match l.body s with
    | none    => s
    | some s' => l.run rounds s'

-- The states before and after each of these rounds.
def pairs (l : Loop σ) : Nat → σ → List (σ × σ)
  | 0,          _ => []
  | rounds + 1, s =>
    match l.body s with
    | none    => []
    | some s' => (s, s') :: l.pairs rounds s'

variable {l : Loop σ} {I : σ → Prop} {μ : σ → Nat} {s s' : σ} {rounds : Nat}

namespace Ends

theorem left (h : l.Ends s s') : l.body s' = none := by
  induction h
  case leave h    => exact h
  case round h _ => assumption

theorem preserves (hs : ∀ {s s'}, I s → l.body s = some s' → I s') (h : l.Ends s s') (hi : I s) : I s' := by
  induction h
  case leave        => exact hi
  case round h _ ih => exact ih (hs hi h)

-- A loop whose states stand for those of another one ends when that one does.
theorem map {τ : Type*} {m : Loop τ} {f : σ → τ} (hm : ∀ s, m.body (f s) = (l.body s).map f) (h : l.Ends s s') :
    m.Ends (f s) (f s') := by
  induction h
  case leave h      => exact .leave (by simp [hm, h])
  case round h _ ih => exact .round (by rw [hm, h, Option.map_some]) ih

end Ends

-- The rule for termination: what every round makes smaller bounds their number.
theorem ends_run (hs : ∀ {s s'}, I s → l.body s = some s' → I s')
    (hμ : ∀ {s s'}, I s → l.body s = some s' → μ s' < μ s) (hi : I s) (h : μ s ≤ rounds) :
    l.Ends s (l.run rounds s) := by
  induction rounds generalizing s
  case zero =>
    cases hb : l.body s
    case none    => exact .leave hb
    case some s' => exact absurd (hμ hi hb) (by omega)
  case succ rounds ih =>
    rw [run]
    cases hb : l.body s
    case none    => exact .leave hb
    case some s' =>
      have := hμ hi hb
      exact .round hb (ih (hs hi hb) (by omega))

theorem run_of_left (h : l.body s = none) : l.run rounds s = s := by
  cases rounds
  case zero => rfl
  case succ => rw [run, h]

theorem run_succ (h : l.body s = some s') : l.run (rounds + 1) s = l.run rounds s' := by
  rw [run, h]

theorem run_add {more : Nat} : l.run (rounds + more) s = l.run more (l.run rounds s) := by
  induction rounds generalizing s
  case zero           => rw [Nat.zero_add, run]
  case succ rounds ih =>
    rw [Nat.add_right_comm]
    cases hb : l.body s
    case none   => rw [run_of_left hb, run_of_left hb, run_of_left hb]
    case some s => rw [run_succ hb, run_succ hb, ih]

-- A loop whose states stand for those of another one runs like it.
theorem run_map {τ : Type*} {m : Loop τ} {f : σ → τ} (hm : ∀ s, m.body (f s) = (l.body s).map f) :
    m.run rounds (f s) = f (l.run rounds s) := by
  induction rounds generalizing s
  case zero           => rfl
  case succ rounds ih =>
    rw [run, run, hm]
    cases l.body s
    case none   => rfl
    case some s => exact ih

theorem run_preserves (hs : ∀ {s s'}, I s → l.body s = some s' → I s') (hi : I s) : I (l.run rounds s) := by
  induction rounds generalizing s
  case zero           => exact hi
  case succ rounds ih =>
    rw [run]
    split
    case h_1    => exact hi
    case h_2 hb => exact ih (hs hi hb)

theorem pairs_forall {Q : σ → σ → Prop} (hs : ∀ {s s'}, I s → l.body s = some s' → I s')
    (hq : ∀ {s s'}, I s → l.body s = some s' → Q s s') (hi : I s) :
    ∀ p ∈ l.pairs rounds s, Q p.fst p.snd := by
  induction rounds generalizing s
  case zero           => exact nofun
  case succ rounds ih =>
    rw [pairs]
    split
    case h_1    => exact nofun
    case h_2 hb =>
      intro p hp
      cases hp
      case head      => exact hq hi hb
      case tail _ hp => exact ih (hs hi hb) p hp

-- What every round adds to a list of the state's, its rounds added.
theorem run_eq_flatMap {β : Type*} {f : σ → List β} {g : σ × σ → List β}
    (hs : ∀ {s s'}, I s → l.body s = some s' → I s')
    (hf : ∀ {s s'}, I s → l.body s = some s' → f s' = f s ++ g (s, s')) (hi : I s) :
    f (l.run rounds s) = f s ++ (l.pairs rounds s).flatMap g := by
  induction rounds generalizing s
  case zero           => simp [run, pairs]
  case succ rounds ih =>
    rw [run, pairs]
    cases hb : l.body s
    case none    => simp
    case some s' => simp [ih (hs hi hb), hf hi hb]

end Loop

-- A labelled transition system in which the label resolves every choice, so that an execution is
-- determined by the state it starts in and the list of its labels. A label which is not enabled in
-- a state steps to `none`.
structure Machine (σ ε : Type*) where
  step : σ → ε → Option σ

namespace Machine

variable {σ ε : Type*}

def run (m : Machine σ ε) : σ → List ε → Option σ
  | s, []      => some s
  | s, e :: es => (m.step s e).bind (m.run · es)

inductive Steps (m : Machine σ ε) : σ → List ε → σ → Prop
  | refl {s} : Steps m s [] s
  | step {s₁ s₂ s₃ e es} : (m.step s₁ e = some s₂) → (Steps m s₂ es s₃) → Steps m s₁ (e :: es) s₃

-- Every state of an execution satisfies `Q`, the first and the last included.
def Always (m : Machine σ ε) (Q : σ → Prop) : σ → List ε → Prop
  | s, []      => Q s
  | s, e :: es => Q s ∧ ∀ s', m.step s e = some s' → m.Always Q s' es

-- The machine which takes only those steps of `m` that satisfy `P`.
def restrict (m : Machine σ ε) (P : σ → ε → Prop) [∀ s e, Decidable (P s e)] : Machine σ ε where
  step s e := if P s e then m.step s e else none

-- Two machines which take their steps together.
def both {τ : Type*} (m : Machine σ ε) (m' : Machine τ ε) : Machine (σ × τ) ε where
  step s e := (m.step s.fst e).bind fun s₁ => (m'.step s.snd e).map (s₁, ·)

variable {m : Machine σ ε} {s s₁ s₂ s₃ : σ} {e : ε} {es es₁ es₂ : List ε}

theorem run_eq_some_iff : m.run s₁ es = some s₂ ↔ m.Steps s₁ es s₂ := by
  constructor <;> intro h
  case mp =>
    induction es generalizing s₁ <;> simp only [run, Option.bind_eq_some_iff, Option.some.injEq] at h
    case nil       => exact h ▸ .refl
    case cons _ hi =>
      have ⟨_, he, h⟩ := h
      exact .step he (hi h)
  case mpr =>
    induction h
    case refl         => rfl
    case step he _ hi => simp [run, he, hi]

namespace Steps

theorem trans (h₁ : m.Steps s₁ es₁ s₂) (h₂ : m.Steps s₂ es₂ s₃) : m.Steps s₁ (es₁ ++ es₂) s₃ := by
  induction h₁
  case refl         => exact h₂
  case step he _ hi => exact .step he (hi h₂)

theorem deterministic (h₁ : m.Steps s es s₁) (h₂ : m.Steps s es s₂) : s₁ = s₂ :=
  Option.some.inj <| (run_eq_some_iff.mpr h₁).symm.trans (run_eq_some_iff.mpr h₂)

theorem split (h : m.Steps s₁ (es₁ ++ es₂) s₃) : ∃ s₂, m.Steps s₁ es₁ s₂ ∧ m.Steps s₂ es₂ s₃ := by
  induction es₁ generalizing s₁
  case nil => exact ⟨s₁, .refl, h⟩
  case cons hi =>
    cases h
    case step he h =>
      have ⟨s₂, h₁, h₂⟩ := hi h
      exact ⟨s₂, .step he h₁, h₂⟩

-- The rule for invariants: what every step preserves, every execution preserves.
theorem preserves {I : σ → Prop} (hs : ∀ {s e s'}, I s → m.step s e = some s' → I s')
    (h : m.Steps s₁ es s₂) (hi : I s₁) : I s₂ := by
  induction h
  case refl         => exact hi
  case step he _ ih => exact ih (hs hi he)

-- The rule for relations between the ends of an execution.
theorem relates {R : σ → σ → Prop} (hr : ∀ s, R s s) (ht : ∀ {a b c}, R a b → R b c → R a c)
    (hs : ∀ {s e s'}, m.step s e = some s' → R s s') (h : m.Steps s₁ es s₂) : R s₁ s₂ := by
  induction h
  case refl         => exact hr _
  case step he _ ih => exact ht (hs he) ih

end Steps

theorem both_step_iff {τ : Type*} {m' : Machine τ ε} {p q : σ × τ} :
    (m.both m').step p e = some q ↔ m.step p.fst e = some q.fst ∧ m'.step p.snd e = some q.snd := by
  cases q
  simp [both, Option.bind_eq_some_iff]

variable {P : σ → ε → Prop} [∀ s e, Decidable (P s e)]

theorem restrict_step_iff :
    (m.restrict P).step s₁ e = some s₂ ↔ P s₁ e ∧ m.step s₁ e = some s₂ := by
  simp [restrict]

theorem restrict_steps_cons_iff :
    (m.restrict P).Steps s₁ (e :: es) s₃ ↔
      ∃ s₂, (P s₁ e ∧ m.step s₁ e = some s₂) ∧ (m.restrict P).Steps s₂ es s₃ := by
  constructor
  case mp =>
    intro h
    cases h
    case step he h => exact ⟨_, restrict_step_iff.mp he, h⟩
  case mpr =>
    intro ⟨_, he, h⟩
    exact .step (restrict_step_iff.mpr he) h

-- The rule for exact conditions: if a step keeps `Q` exactly if it meets `P`, then an execution does so
-- exactly if all of its steps do.
theorem Steps.restrict_iff {I Q : σ → Prop} (hi : ∀ {s e s'}, I s → m.step s e = some s' → I s')
    (hq : ∀ {s e s'}, I s → m.step s e = some s' → (Q s' ↔ Q s ∧ P s e))
    (h : m.Steps s₁ es s₂) (h₀ : I s₁) : Q s₂ ↔ Q s₁ ∧ (m.restrict P).Steps s₁ es s₂ := by
  induction h
  case refl => exact ⟨fun h => ⟨h, .refl⟩, And.left⟩
  case step he _ ih =>
    rw [ih (hi h₀ he), hq h₀ he, restrict_steps_cons_iff, and_assoc]
    constructor
    case mp =>
      intro ⟨h, hp, hr⟩
      exact ⟨h, _, ⟨hp, he⟩, hr⟩
    case mpr =>
      intro ⟨h, _, ⟨hp, he'⟩, hr⟩
      cases he.symm.trans he'
      exact ⟨h, hp, hr⟩

theorem Always.head {Q : σ → Prop} (h : m.Always Q s es) : Q s := by
  cases es
  case nil  => exact h
  case cons => exact h.left

theorem Steps.last {Q : σ → Prop} (h : m.Steps s₁ es s₂) (ha : m.Always Q s₁ es) : Q s₂ := by
  induction h
  case refl         => exact ha
  case step he _ ih => exact ih (ha.right _ he)

-- The rule for exact conditions on a property that is to hold throughout: a step from a state with `Q`
-- leads to one with `Q` exactly if it meets `P`.
theorem Steps.always_iff {I Q : σ → Prop} (hi : ∀ {s e s'}, I s → m.step s e = some s' → I s')
    (hq : ∀ {s e s'}, I s → Q s → m.step s e = some s' → (Q s' ↔ P s e))
    (h : m.Steps s₁ es s₂) (h₀ : I s₁) (hs : Q s₁) : m.Always Q s₁ es ↔ (m.restrict P).Steps s₁ es s₂ := by
  induction h
  case refl => exact ⟨fun _ => .refl, fun _ => hs⟩
  case step he _ ih =>
    rw [restrict_steps_cons_iff]
    constructor
    case mp =>
      intro ⟨_, ha⟩
      have ha := ha _ he
      have hq := (hq h₀ hs he).mp ha.head
      exact ⟨_, ⟨hq, he⟩, (ih (hi h₀ he) ha.head).mp ha⟩
    case mpr =>
      intro ⟨_, ⟨hp, he'⟩, hr⟩
      cases he.symm.trans he'
      refine ⟨hs, fun _ he' => ?_⟩
      cases he.symm.trans he'
      exact (ih (hi h₀ he) ((hq h₀ hs he).mpr hp)).mpr hr

theorem Steps.of_restrict (h : (m.restrict P).Steps s₁ es s₂) : m.Steps s₁ es s₂ := by
  induction h
  case refl         => exact .refl
  case step he _ hi => exact .step (restrict_step_iff.mp he).right hi

end Machine

-- A component as its callers see it: a state they cannot look into, and calls which are answered.
structure Object (σ κ ω : Type*) where
  call : σ → κ → σ × ω

namespace Object

variable {σ τ κ ω : Type*}

-- The answers to a sequence of calls, each made in the state which the previous one left behind.
def answers (o : Object σ κ ω) : σ → List κ → List ω
  | _, []      => []
  | s, c :: cs => (o.call s c).snd :: o.answers (o.call s c).fst cs

-- Each call of a sequence is one that `P` allows in the state it is made in.
def Meets (o : Object σ κ ω) (P : σ → κ → Prop) : σ → List κ → Prop
  | _, []      => True
  | s, c :: cs => P s c ∧ o.Meets P (o.call s c).fst cs

-- Related states of two objects answer the calls of `P` alike, and are related again afterwards.
structure Simulates (o : Object σ κ ω) (p : Object τ κ ω) (P : σ → κ → Prop) (R : σ → τ → Prop) : Prop where
  answer : ∀ {s t c}, R s t → P s c → (o.call s c).snd = (p.call t c).snd
  keeps  : ∀ {s t c}, R s t → P s c → R (o.call s c).fst (p.call t c).fst

variable {o : Object σ κ ω} {p : Object τ κ ω} {P : σ → κ → Prop} {R : σ → τ → Prop} {s : σ} {t : τ}
  {cs : List κ}

theorem Meets.of_forall {Q : κ → Prop} (h : ∀ c ∈ cs, Q c) : o.Meets (fun _ => Q) s cs := by
  induction cs generalizing s
  case nil => trivial
  case cons c cs hi =>
    have ⟨hc, h⟩ := List.forall_mem_cons.mp h
    exact ⟨hc, hi h⟩

-- The rule for refinement: no sequence of calls tells the two objects apart.
theorem Simulates.answers_eq (h : o.Simulates p P R) (hr : R s t) (hp : o.Meets P s cs) :
    o.answers s cs = p.answers t cs := by
  induction cs generalizing s t
  case nil => rfl
  case cons c cs hi =>
    have ⟨hc, hp⟩ := hp
    rw [answers, answers, h.answer hr hc, hi (h.keeps hr hc) hp]

-- Where no other call is answered alike, the two are told apart by the first which `P` does not allow.
theorem Simulates.answers_eq_iff (h : o.Simulates p P R)
    (hd : ∀ {s t c}, R s t → (o.call s c).snd = (p.call t c).snd → P s c) (hr : R s t) :
    o.answers s cs = p.answers t cs ↔ o.Meets P s cs := by
  constructor
  case mpr => exact h.answers_eq hr
  case mp  =>
    intro he
    induction cs generalizing s t
    case nil => trivial
    case cons c cs hi =>
      have ⟨ha, he⟩ := List.cons.inj he
      have hc := hd hr ha
      exact ⟨hc, hi (h.keeps hr hc) he⟩

end Object
