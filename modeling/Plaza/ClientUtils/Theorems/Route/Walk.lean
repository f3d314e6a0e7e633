import Mathlib.Algebra.Order.Field.Rat
import Plaza.ClientUtils.Theorems.Route.Check
import Plaza.Lib.Greedy
import Plaza.Lib.Ordered
import Plaza.Lib.Trace

open Spacing

namespace Plaza.ClientUtils.RoutePredictor

variable {P K : Type} {r r' : RoutePredictor P K} {now stepsPerTick m n t : Nat} {ts : List Nat}

theorem take_take : (r.take m).take n = r.take (m + n) := by
  simp only [take, List.drop_drop, List.take_add, List.getLast?_append]
  cases ((r.plan.drop m).take n).getLast? <;> simp

theorem take_of_nil (h : r.plan = []) : r.take n = r := by
  cases r
  subst h
  simp [take]

-- How many steps there are from the timer's instant on, one at it and one more at every whole step length after.
def due (r : RoutePredictor P K) (t : Nat) : Nat :=
  if t < r.nextStepMs then 0 else (t - r.nextStepMs) / r.stepMs + 1

-- The body has walked the squares of these steps.
def Walked (r : RoutePredictor P K) (stepsPerTick t : Nat) (r' : RoutePredictor P K) : Prop :=
  r'.predicted = (r.take (r.due t * max stepsPerTick 1)).predicted ∧
    r'.plan = (r.take (r.due t * max stepsPerTick 1)).plan

-- There are as many calls at least a step length apart, from the timer's instant on, as there are steps due that
-- the plan has squares for.
def Polled (r : RoutePredictor P K) (stepsPerTick t : Nat) (ts : List Nat) : Prop :=
  ∃ polls, polls.Sublist ts ∧ Spaced r.stepMs r.nextStepMs polls ∧
    (r.due t ≤ polls.length ∨ r.plan.length ≤ polls.length * max stepsPerTick 1)

variable [Field K] [LinearOrder K]

def advances (r : RoutePredictor P K) (stepsPerTick : Nat) (ts : List Nat) : RoutePredictor P K :=
  ts.foldl (·.advance · stepsPerTick) r

theorem advances_eq (h : r.seeded) :
    (r.advances stepsPerTick ts).predicted =
        (r.take ((pick r.stepMs r.nextStepMs ts).length * max stepsPerTick 1)).predicted ∧
      (r.advances stepsPerTick ts).plan =
        (r.take ((pick r.stepMs r.nextStepMs ts).length * max stepsPerTick 1)).plan := by
  induction ts generalizing r
  case nil => simp [advances, pick, take]
  case cons t ts hi =>
    have ha : r.advances stepsPerTick (t :: ts) = (r.advance t stepsPerTick).advances stepsPerTick ts := rfl
    rw [ha, pick]
    by_cases hp : r.plan = []
    case pos =>
      have hr : r.advance t stepsPerTick = r := by
        rw [advance_eq, if_neg fun h => h.right.left hp]
      have hi := hi h
      rw [take_of_nil hp] at hi ⊢
      rwa [hr]
    case neg =>
      by_cases ht : r.nextStepMs ≤ t
      case neg =>
        rw [advance_eq, if_neg fun h => ht h.right.right, if_neg ht]
        exact hi h
      case pos =>
        have hs := @hi (r.stepped t stepsPerTick) h
        rw [advance_eq, if_pos ⟨h, hp, ht⟩, if_pos ht, List.length_cons, Nat.succ_mul, Nat.add_comm, ← take_take]
        exact hs

theorem advances_of_not_seeded (h : ¬r.seeded) : r.advances stepsPerTick ts = r := by
  induction ts
  case nil => rfl
  case cons t ts hi =>
    have ha : r.advance t stepsPerTick = r := by
      rw [advance_eq, if_neg fun hs => h hs.left]
    rw [advances, List.foldl_cons, ha]
    exact hi

omit [Field K] [LinearOrder K] in
theorem length_pick_le (hs : ts.Pairwise (· ≤ ·)) (hl : ts.getLast? = some t) :
    (pick r.stepMs r.nextStepMs ts).length ≤ r.due t := by
  have hu : ∀ c ∈ pick r.stepMs r.nextStepMs ts, c ≤ t := by
    intro c hc
    exact (hs.rel_of_getLast? hl (pick_sublist.subset hc)).elim Nat.le_of_eq id
  have hp : Spaced r.stepMs r.nextStepMs (pick r.stepMs r.nextStepMs ts) := spaced_pick
  rw [due]
  split
  case isFalse ht => exact hp.length_le hu r.stepMs_pos (Nat.le_of_not_lt ht)
  case isTrue ht  =>
    generalize pick r.stepMs r.nextStepMs ts = polls at hp hu
    cases polls
    case nil      => exact Nat.zero_le _
    case cons c _ => exact absurd (hp.left.trans (hu c List.mem_cons_self)) (Nat.not_le_of_lt ht)

omit [Field K] [LinearOrder K] in
theorem take_of_length_le (h : r.plan.length ≤ n) : r.take n = r.take r.plan.length := by
  simp only [take, List.take_of_length_le h, List.take_length, List.drop_of_length_le h, List.drop_length]

-- The body has walked what the clock asks for exactly if it was polled often enough.
theorem walked_iff (h : r.seeded) (hs : ts.Pairwise (· ≤ ·)) (hl : ts.getLast? = some t) :
    r.Walked stepsPerTick t (r.advances stepsPerTick ts) ↔ r.Polled stepsPerTick t ts := by
  have hn := length_pick_le (r := r) hs hl
  have hk : 0 < max stepsPerTick 1 := by omega
  rw [Walked, (advances_eq h).left, (advances_eq h).right]
  constructor
  case mp =>
    rintro ⟨_, hw⟩
    refine ⟨_, pick_sublist, spaced_pick, ?_⟩
    have hw := congrArg List.length hw
    simp only [take, List.length_drop] at hw
    rcases Nat.lt_or_ge (pick r.stepMs r.nextStepMs ts).length (r.due t) with hlt | hge
    · have := Nat.mul_lt_mul_of_pos_right hlt hk
      exact .inr (by omega)
    · exact .inl hge
  case mpr =>
    rintro ⟨polls, hsub, hsp, hle⟩
    have hp := length_le_length_pick hs (Nat.le_refl _) hsp hsub
    rcases hle with hle | hle
    · rw [Nat.le_antisymm hn (Nat.le_trans hle hp)]
      exact ⟨rfl, rfl⟩
    · have hp := Nat.mul_le_mul_right (max stepsPerTick 1) hp
      have hn := Nat.mul_le_mul_right (max stepsPerTick 1) hn
      rw [take_of_length_le (Nat.le_trans hle hp), take_of_length_le (Nat.le_trans hle (Nat.le_trans hp hn))]
      exact ⟨rfl, rfl⟩

theorem walked_unseeded_iff (h : ¬r.seeded) :
    r.Walked stepsPerTick t (r.advances stepsPerTick ts) ↔ r.due t = 0 ∨ r.plan = [] := by
  rw [Walked, advances_of_not_seeded h]
  constructor
  case mp =>
    intro ⟨_, hw⟩
    have hw := congrArg List.length hw
    simp only [take, List.length_drop] at hw
    rcases Nat.eq_zero_or_pos (r.due t) with hd | hd
    · exact .inl hd
    · have := Nat.mul_pos hd (by omega : 0 < max stepsPerTick 1)
      exact .inr <| List.length_eq_zero_iff.mp (by omega)
  case mpr =>
    rintro (hd | hp)
    · simp [hd, take]
    · rw [take_of_nil hp]
      exact ⟨rfl, rfl⟩

-- The first poll is late, and so is every step after it.
theorem walk_depends_on_polls :
    let r := (new 0 (fun x : Nat => ((x : ℚ), (0 : ℚ))) 100).run [(0, .jumpTo 0), (0, .setOut [1, 2] true)]
    (r.advances 1 [0, 100]).predicted = 2 ∧ (r.advances 1 [50, 100]).predicted = 1 ∧ r.due 100 = 2 := by
  decide +kernel

theorem walk_follows_clock_iff (r : RoutePredictor P K) (stepsPerTick : Nat) {ts₁ ts₂ : List Nat}
    (hs₁ : ts₁.Pairwise (· ≤ ·)) (hs₂ : ts₂.Pairwise (· ≤ ·)) (hl₁ : ts₁.getLast? = some t) (hl₂ : ts₂.getLast? = some t) :
    r.Walked stepsPerTick t (r.advances stepsPerTick ts₁) ∧ r.Walked stepsPerTick t (r.advances stepsPerTick ts₂) ↔
      (r.seeded ∨ r.due t = 0 ∨ r.plan = []) ∧ r.Polled stepsPerTick t ts₁ ∧ r.Polled stepsPerTick t ts₂ := by
  have hw {ts} (hs : ts.Pairwise (· ≤ ·)) (hl : ts.getLast? = some t) :
      r.Walked stepsPerTick t (r.advances stepsPerTick ts) ↔
        (r.seeded ∨ r.due t = 0 ∨ r.plan = []) ∧ r.Polled stepsPerTick t ts := by
    by_cases h : r.seeded
    case pos => rw [walked_iff h hs hl, and_iff_right (.inl h)]
    case neg =>
      rw [walked_unseeded_iff h, or_iff_right h, iff_self_and]
      intro hd
      refine ⟨[], List.nil_sublist _, trivial, hd.imp (fun h => Nat.le_of_eq h) fun h => ?_⟩
      rw [h]
      exact Nat.zero_le _
  rw [hw hs₁ hl₁, hw hs₂ hl₂]
  tauto

theorem walk_follows_clock_polled_twice :
    let r := (new 0 (fun x : Nat => ((x : ℚ), (0 : ℚ))) 100).run [(0, .jumpTo 0), (0, .setOut [1, 2] true)]
    r.Walked 1 100 (r.advances 1 [0, 100]) ∧ r.Walked 1 100 (r.advances 1 [0, 60, 100]) := by
  intro r
  have hs : Spaced r.stepMs r.nextStepMs [0, 100] := ⟨by decide +kernel, by decide +kernel, trivial⟩
  have hd : r.due 100 ≤ 2 := by decide +kernel
  refine (walk_follows_clock_iff r 1 (by decide) (by decide) rfl rfl).mpr ⟨.inl rfl, ?_, ?_⟩
  · exact ⟨[0, 100], by decide, hs, .inl hd⟩
  · exact ⟨[0, 100], by decide, hs, .inl hd⟩

theorem crossing_of_le {last : Nat} (h : r.crossing last = false) (hl : last ≤ now) : r.crossing now = false := by
  rw [crossing, Bool.and_eq_false_iff] at h ⊢
  refine h.imp id fun h => ?_
  rw [decide_eq_false_iff_not] at h ⊢
  omega

variable [DecidableEq P]

-- A body with the instants at which it took a step.
structure Walk (P K : Type) where
  predictor : RoutePredictor P K
  instants  : List Nat

namespace Walk

variable {w : Walk P K} {op : Op P} {ops : List (Nat × Op P)} {last : Nat}

def step (w : Walk P K) (now : Nat) (op : Op P) : Walk P K where
  predictor := w.predictor.apply now op
  instants  := w.instants ++
    match op with
    | .advance _ => if (w.predictor.apply now op).plan.length < w.predictor.plan.length then [now] else []
    | _          => []

def run (r : RoutePredictor P K) (ops : List (Nat × Op P)) : Walk P K :=
  ops.foldl (fun w (now, op) => w.step now op) { predictor := r, instants := [] }

-- A body that has walked its plan, and is not between two points any more, sets off at once. It is not to be
-- handed a route less than a step length after a step then.
def Waits (w : Walk P K) (now : Nat) (op : Op P) : Prop :=
  ∀ route checkable, op = .setOut route checkable →
    route = [] ∨ w.predictor.walking now ∨ ∀ s ∈ w.instants, s + w.predictor.stepMs ≤ now

-- What a walk keeps. Once the plan is walked, the timer may have been set to any instant by an empty route.
structure Kept (gap last : Nat) (w : Walk P K) : Prop where
  length : w.predictor.stepMs = gap
  apart  : w.instants.Pairwise fun s s' => s + gap ≤ s'
  past   : ∀ s ∈ w.instants, s ≤ last
  timed  : (∀ s ∈ w.instants, s + gap ≤ w.predictor.nextStepMs) ∨
    (w.predictor.plan = [] ∧ w.predictor.crossing last = false)

variable {gap : Nat} {route : List P} {checkable : Bool} {square : P} {slack : Nat}

namespace Kept

omit [DecidableEq P] in
theorem later (h : Kept gap last w) (hl : last ≤ now) : Kept gap now w where
  length := h.length
  apart  := h.apart
  past   := fun s hs => (h.past s hs).trans hl
  timed  := h.timed.imp id fun h => ⟨h.left, crossing_of_le h.right hl⟩

theorem setOut (h : Kept gap last w) (hl : last ≤ now) (hw : w.Waits now (.setOut route checkable)) :
    Kept gap now (w.step now (.setOut route checkable)) where
  length := h.length
  apart  := by simpa [step] using h.apart
  past   := by simpa [step] using fun s hs => (h.past s hs).trans hl
  timed  := by
    simp only [step, apply, RoutePredictor.setOut, List.append_nil]
    cases hn : w.predictor.walking now
    case true =>
      rcases h.timed with ht | ⟨hp, hc⟩
      · exact .inl ht
      · simp [walking, hp, crossing_of_le hc hl] at hn
    case false =>
      rcases hw route checkable rfl with hr | hr | hr
      · exact .inr ⟨hr, (Bool.or_eq_false_iff.mp hn).right⟩
      · exact absurd hr (by simp [hn])
      · exact .inl (h.length ▸ hr)

theorem confirm (h : Kept gap last w) (hl : last ≤ now) : Kept gap now (w.step now (.confirm square slack)) where
  length := by
    simp only [step, apply]
    rw [confirm_eq]
    exact h.length
  apart  := by simpa [step] using h.apart
  past   := by simpa [step] using fun s hs => (h.past s hs).trans hl
  timed  := by
    simp only [step, apply, List.append_nil]
    rw [confirm_eq]
    exact h.timed.imp id fun h => ⟨h.left, crossing_of_le h.right hl⟩

theorem settle (h : Kept gap last w) (hl : last ≤ now) : Kept gap now (w.step now .settle) := by
  simp only [step, apply, RoutePredictor.settle, List.append_nil]
  split
  case isTrue  => exact h.later hl
  case isFalse => exact {
    length := h.length
    apart  := h.apart
    past   := fun s hs => (h.past s hs).trans hl
    timed  := .inl fun s hs => h.length ▸ Nat.add_le_add_right ((h.past s hs).trans hl) gap
  }

theorem advance (h : Kept gap last w) (hl : last ≤ now) : Kept gap now (w.step now (.advance stepsPerTick)) := by
  rw [step, apply, advance_eq]
  split
  case isFalse =>
    simp only [Nat.lt_irrefl, ↓reduceIte, List.append_nil]
    exact h.later hl
  case isTrue hs =>
    obtain ⟨_, hp, hn⟩ := hs
    have hlt : (w.predictor.stepped now stepsPerTick).plan.length < w.predictor.plan.length := by
      have := List.length_pos_iff.mpr hp
      simp only [stepped, take, List.length_drop]
      omega
    have ht := h.timed.resolve_right fun h => hp h.left
    simp only [hlt, ↓reduceIte]
    exact {
      length := h.length
      apart  := by
        refine List.pairwise_append.mpr ⟨h.apart, List.pairwise_singleton .., fun s hs s' hs' => ?_⟩
        exact List.mem_singleton.mp hs' ▸ (ht s hs).trans hn
      past   := by
        intro s hs
        rcases List.mem_append.mp hs with hs | hs
        · exact (h.past s hs).trans hl
        · exact Nat.le_of_eq (List.mem_singleton.mp hs)
      timed  := by
        refine .inl fun s hs => ?_
        simp only [stepped, h.length]
        rcases List.mem_append.mp hs with hs | hs
        · have := ht s hs
          omega
        · rw [List.mem_singleton.mp hs]
    }

end Kept

-- What is done to a body that is neither put anywhere nor stopped, and whose steps keep their length.
def Ambulant : Op P → Prop
  | .setOut .. | .advance _ | .confirm .. | .settle => True
  | .setStepMs _ | .jumpTo _ | .abandon _           => False

theorem Kept.step (h : Kept gap last w) (hl : last ≤ now) (ho : Ambulant op) (hw : w.Waits now op) :
    Kept gap now (w.step now op) := by
  cases op
  case setOut    => exact h.setOut hl hw
  case advance   => exact h.advance hl
  case confirm   => exact h.confirm hl
  case settle    => exact h.settle hl
  case setStepMs => exact ho.elim
  case jumpTo    => exact ho.elim
  case abandon   => exact ho.elim

theorem run_kept (ho : ∀ op ∈ ops, Ambulant op.snd) (ht : (ops.map Prod.fst).Pairwise (· ≤ ·))
    (hw : Trace.Each (fun before (now, op) => (run r before).Waits now op) ops) :
    Kept r.stepMs ((ops.map Prod.fst).getLast?.getD 0) (run r ops) := by
  induction ops using List.reverseRecOn
  case nil => exact {
    length := rfl
    apart  := .nil
    past   := nofun
    timed  := .inl nofun
  }
  case append_singleton ops o hi =>
    obtain ⟨now, op⟩ := o
    have ⟨hw, hwo⟩ := Trace.Each.snoc_iff.mp hw
    rw [List.map_append, List.pairwise_append] at ht
    have hl : (ops.map Prod.fst).getLast?.getD 0 ≤ now := by
      cases hl : (ops.map Prod.fst).getLast?
      case none      => exact Nat.zero_le _
      case some last => exact ht.right.right last (List.mem_of_getLast? hl) now (List.mem_singleton_self now)
    have hk := hi (fun op h => ho op <| List.mem_append_left _ h) ht.left hw
    have hr : run r (ops ++ [(now, op)]) = (run r ops).step now op := by
      simp [run]
    rw [hr, List.map_append, List.map_singleton, List.getLast?_concat, Option.getD_some]
    exact hk.step hl (ho _ <| List.mem_append_right _ <| List.mem_singleton_self _) hwo

end Walk

-- Two squares at once lead back to where the body started, so that it looks at rest right after its step.
theorem free_step_after_return :
    let r := (new 0 (fun x : Nat => ((x : ℚ), (0 : ℚ))) 100).jumpTo 0 0
    let ops := [(0, .setOut [1, 0] true), (0, .advance 2), (1, .setOut [1] true), (1, .advance 2)]
    (Walk.run r ops).instants = [0, 1] := by
  decide +kernel

theorem steps_apart_of_waits (r : RoutePredictor P K) {ops : List (Nat × Op P)}
    (ho : ∀ op ∈ ops, Walk.Ambulant op.snd) (ht : (ops.map Prod.fst).Pairwise (· ≤ ·))
    (hw : Trace.Each (fun before (now, op) => (Walk.run r before).Waits now op) ops) :
    (Walk.run r ops).instants.Pairwise fun s s' => s + r.stepMs ≤ s' :=
  (Walk.run_kept ho ht hw).apart

-- A click in the middle of a crossing changes only where the next step goes.
theorem steps_apart_of_click :
    let r := (new 0 (fun x : Nat => ((x : ℚ), (0 : ℚ))) 100).jumpTo 0 0
    let ops := [(0, .setOut [1, 2] true), (0, .advance 1), (50, .setOut [0] true), (100, .advance 1)]
    (Walk.run r ops).instants.Pairwise (fun s s' => s + 100 ≤ s') ∧ (Walk.run r ops).instants = [0, 100] := by
  intro r ops
  refine ⟨steps_apart_of_waits r ?_ (by decide) ?_, by decide +kernel⟩
  case refine_1 => simp [ops, Walk.Ambulant]
  case refine_2 =>
    show Trace.Each _ ([] ++ [_] ++ [_] ++ [_] ++ [_])
    simp only [Trace.Each.snoc_iff]
    refine ⟨⟨⟨⟨.nil, ?_⟩, nofun⟩, ?_⟩, nofun⟩
    · exact fun _ _ _ => .inr <| .inr nofun
    · exact fun _ _ _ => .inr <| .inl <| by decide +kernel

end Plaza.ClientUtils.RoutePredictor
