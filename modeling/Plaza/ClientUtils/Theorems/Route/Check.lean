import Mathlib.Algebra.Order.Field.Rat
import Mathlib.Tactic.FieldSimp
import Plaza.ClientUtils.Route
import Plaza.Lib.Trace

namespace Plaza.ClientUtils.RoutePredictor

variable {P K : Type} {r : RoutePredictor P K} {now stepsPerTick : Nat}

-- What a confirmation leaves as it is.
theorem confirm_eq [DecidableEq P] {square : P} {slack : Nat} :
    (r.confirm square slack).fst = {
      r with
      confirmed     := (r.confirm square slack).fst.confirmed
      expect        := (r.confirm square slack).fst.expect
      checking      := (r.confirm square slack).fst.checking
      confirmations := (r.confirm square slack).fst.confirmations
      diverged      := (r.confirm square slack).fst.diverged
    } := by
  simp only [confirm]
  split
  case isTrue  => rfl
  case isFalse =>
    split
    case isTrue  => rfl
    case isFalse => split <;> rfl

variable [Field K] [LinearOrder K]

-- The state after the step that is due at a call.
def stepped (r : RoutePredictor P K) (now stepsPerTick : Nat) : RoutePredictor P K := {
  { r with start := r.drawn now }.take (max stepsPerTick 1) with
  steppedMs  := now
  nextStepMs := now + r.stepMs
}

theorem walk_left (h : ¬(r.nextStepMs ≤ now ∧ r.plan ≠ [])) : (walk now stepsPerTick).body r = none :=
  if_neg h

theorem walk_round (h : r.nextStepMs ≤ now ∧ r.plan ≠ []) :
    (walk now stepsPerTick).body r = some (r.stepped now stepsPerTick) :=
  if_pos h

-- A step sets the timer off from the time of the call, so that no other one is due at it.
theorem advance_eq : r.advance now stepsPerTick =
    if r.seeded ∧ r.plan ≠ [] ∧ r.nextStepMs ≤ now then r.stepped now stepsPerTick else r := by
  rw [advance]
  by_cases hp : r.plan = []
  case pos => simp [hp]
  case neg =>
    by_cases hs : r.seeded
    case neg => simp [hs]
    case pos =>
      have hl := List.length_pos_iff.mpr hp
      rw [if_neg (by simp [hs, hp]), ← Nat.sub_add_cancel hl]
      by_cases hn : r.nextStepMs ≤ now
      case neg => rw [Loop.run_of_left (walk_left fun h => hn h.left), if_neg fun h => hn h.right.right]
      case pos =>
        have hr : ¬((r.stepped now stepsPerTick).nextStepMs ≤ now ∧ (r.stepped now stepsPerTick).plan ≠ []) := by
          intro ⟨h, _⟩
          exact absurd h <| Nat.not_le_of_lt <| Nat.lt_add_of_pos_right r.stepMs_pos
        rw [Loop.run_succ (walk_round ⟨hn, hp⟩), Loop.run_of_left (walk_left hr), if_pos ⟨hs, hp, hn⟩]

-- The loop of an advance comes to its end.
theorem advance_ends : (walk now stepsPerTick).Ends r ((walk now stepsPerTick).run r.plan.length r) := by
  have hμ {r r' : RoutePredictor P K} (_ : True) (h : (walk now stepsPerTick).body r = some r') :
      r'.plan.length < r.plan.length := by
    simp only [walk, Option.ite_none_right_eq_some, Option.some.injEq] at h
    obtain ⟨⟨_, hp⟩, rfl⟩ := h
    have hl := List.length_pos_iff.mpr hp
    simp only [take, List.length_drop]
    omega
  exact Loop.ends_run (fun _ _ => trivial) hμ trivial (Nat.le_refl _)

-- What is done to a predictor, but for asking it.
inductive Op (P : Type)
  | setStepMs (stepMs : Nat)
  | jumpTo (square : P)
  | setOut (route : List P) (checkable : Bool)
  | advance (stepsPerTick : Nat)
  | confirm (square : P) (slack : Nat)
  | abandon (square : P)
  | settle
  deriving DecidableEq

variable [DecidableEq P]

def apply (r : RoutePredictor P K) (now : Nat) : Op P → RoutePredictor P K
  | .setStepMs stepMs       => r.setStepMs stepMs
  | .jumpTo square          => r.jumpTo square now
  | .setOut route checkable => r.setOut route checkable now
  | .advance stepsPerTick   => r.advance now stepsPerTick
  | .confirm square slack   => (r.confirm square slack).fst
  | .abandon square         => r.abandon square now
  | .settle                 => (r.settle now).fst

def run (r : RoutePredictor P K) (ops : List (Nat × Op P)) : RoutePredictor P K :=
  ops.foldl (fun r (now, op) => r.apply now op) r

end Plaza.ClientUtils.RoutePredictor

namespace Plaza.ClientUtils.RoutePredictor

variable {P K : Type} [Field K] [LinearOrder K] {r : RoutePredictor P K} {now stepsPerTick stepMs : Nat}

variable [IsStrictOrderedRing K]

-- A body whose step starts now is drawn at the start.
theorem drawn_of_stepped (h : r.steppedMs = now) : r.drawn now = r.start := by
  have hc : r.crossed now = 0 := by
    simp [crossed, h]
  simp [drawn, hc]

theorem drawn_stepped : (r.stepped now stepsPerTick).drawn now = r.drawn now :=
  drawn_of_stepped rfl

theorem drawn_advance : (r.advance now stepsPerTick).drawn now = r.drawn now := by
  rw [advance_eq]
  split
  case isTrue  => exact drawn_stepped
  case isFalse => rfl

-- A part of a crossing of `m` milliseconds is the same part of one of `n` only at the two ends.
theorem min_div_eq_iff {d m n : Nat} (hm : 0 < m) (hn : 0 < n) :
    min ((d : K) / m) 1 = min ((d : K) / n) 1 ↔ d = 0 ∨ m = n ∨ (m ≤ d ∧ n ≤ d) := by
  have hm' : (0 : K) < m := Nat.cast_pos.mpr hm
  have hn' : (0 : K) < n := Nat.cast_pos.mpr hn
  rcases le_or_gt m d with hmd | hmd <;> rcases le_or_gt n d with hnd | hnd
  · rw [min_eq_right ((one_le_div hm').mpr (Nat.cast_le.mpr hmd)),
      min_eq_right ((one_le_div hn').mpr (Nat.cast_le.mpr hnd))]
    exact iff_of_true rfl (.inr <| .inr ⟨hmd, hnd⟩)
  · have hd : (d : K) / n < 1 := (div_lt_one hn').mpr (Nat.cast_lt.mpr hnd)
    rw [min_eq_right ((one_le_div hm').mpr (Nat.cast_le.mpr hmd)), min_eq_left hd.le]
    exact iff_of_false hd.ne' (by omega)
  · have hd : (d : K) / m < 1 := (div_lt_one hm').mpr (Nat.cast_lt.mpr hmd)
    rw [min_eq_right ((one_le_div hn').mpr (Nat.cast_le.mpr hnd)), min_eq_left hd.le]
    exact iff_of_false hd.ne (by omega)
  · rw [min_eq_left ((div_lt_one hm').mpr (Nat.cast_lt.mpr hmd)).le,
      min_eq_left ((div_lt_one hn').mpr (Nat.cast_lt.mpr hnd)).le, div_eq_div_iff hm'.ne' hn'.ne', ← Nat.cast_mul,
      ← Nat.cast_mul, Nat.cast_inj, mul_eq_mul_left_iff]
    omega

theorem crossed_eq : r.crossed now = min (((now - r.steppedMs : Nat) : K) / r.stepMs) 1 :=
  max_eq_right <| le_min (div_nonneg (Nat.cast_nonneg _) (Nat.cast_nonneg _)) zero_le_one

-- Two parts of the way between two points end at one point only if there is no way.
theorem blend_eq_iff {a b : K × K} {s t : K} :
    (a.fst + (b.fst - a.fst) * s, a.snd + (b.snd - a.snd) * s) =
        (a.fst + (b.fst - a.fst) * t, a.snd + (b.snd - a.snd) * t) ↔ a = b ∨ s = t := by
  simp only [Prod.ext_iff, add_right_inj, mul_eq_mul_left_iff, sub_eq_zero]
  constructor
  case mp =>
    intro ⟨hx, hy⟩
    rcases hx with hx | hx
    · exact .inr hx
    · rcases hy with hy | hy
      · exact .inr hy
      · exact .inl ⟨hx.symm, hy.symm⟩
  case mpr =>
    rintro (⟨hx, hy⟩ | h)
    · exact ⟨.inr hx.symm, .inr hy.symm⟩
    · exact ⟨.inl h, .inl h⟩

-- The step length is changed while the body is between two points, and before both steps would be over.
def Rescales (r : RoutePredictor P K) (now stepMs : Nat) : Prop :=
  r.start ≠ r.point r.predicted ∧ r.steppedMs < now ∧ max stepMs 1 ≠ r.stepMs ∧
    (now - r.steppedMs < r.stepMs ∨ now - r.steppedMs < max stepMs 1)

theorem drawn_setStepMs_iff : (r.setStepMs stepMs).drawn now = r.drawn now ↔ ¬r.Rescales now stepMs := by
  have hc : (r.setStepMs stepMs).crossed now = r.crossed now ↔ now - r.steppedMs = 0 ∨ max stepMs 1 = r.stepMs ∨
      (max stepMs 1 ≤ now - r.steppedMs ∧ r.stepMs ≤ now - r.steppedMs) := by
    rw [crossed_eq, crossed_eq]
    exact min_div_eq_iff (K := K) (r.setStepMs stepMs).stepMs_pos r.stepMs_pos
  have hd : (r.setStepMs stepMs).drawn now = r.drawn now ↔
      r.start = r.point r.predicted ∨ (r.setStepMs stepMs).crossed now = r.crossed now :=
    blend_eq_iff
  rw [hd, hc, Rescales, not_and_or, not_ne_iff]
  apply or_congr_right
  omega

variable [DecidableEq P]

theorem drawn_settle : (r.settle now).fst.drawn now = r.drawn now := by
  rw [settle]
  split
  case isTrue  => rfl
  case isFalse => exact drawn_of_stepped rfl

theorem drawn_apply_iff {op : Op P} (h : ∀ square, op ≠ .jumpTo square) :
    (r.apply now op).drawn now = r.drawn now ↔ ∀ stepMs, op = .setStepMs stepMs → ¬r.Rescales now stepMs := by
  have hn {op : Op P} (hs : ∀ stepMs, op ≠ .setStepMs stepMs) (h : (r.apply now op).drawn now = r.drawn now) :
      (r.apply now op).drawn now = r.drawn now ↔ ∀ stepMs, op = .setStepMs stepMs → ¬r.Rescales now stepMs :=
    iff_of_true h fun stepMs he => absurd he (hs stepMs)
  cases op
  case setStepMs stepMs => simpa [apply] using drawn_setStepMs_iff
  case jumpTo square    => exact absurd rfl (h square)
  case setOut           => exact hn nofun rfl
  case advance          => exact hn nofun drawn_advance
  case abandon          => exact hn nofun (drawn_of_stepped rfl)
  case settle           => exact hn nofun drawn_settle
  case confirm          =>
    refine hn nofun ?_
    rw [apply, confirm_eq]
    rfl

-- The step length is changed halfway to a square.
theorem jumps_when_rescaled :
    let r := (new 0 (fun x : Nat => ((x : ℚ), (0 : ℚ))) 100).run
      [(0, .jumpTo 0), (0, .setOut [1] true), (0, .advance 1)]
    r.drawn 50 = (1 / 2, 0) ∧ (r.apply 50 (.setStepMs 200)).drawn 50 = (1 / 4, 0) := by
  decide +kernel

theorem jumps_only_by_teleport_iff (initial : P) (point : P → K × K) (stepMs : Nat) (ops : List (Nat × Op P)) :
    Trace.Each (fun before (now, op) => (∀ square, op ≠ .jumpTo square) →
        (((new initial point stepMs).run before).apply now op).drawn now =
          ((new initial point stepMs).run before).drawn now) ops ↔
      Trace.Each (fun before (now, op) =>
        ∀ stepMs', op = .setStepMs stepMs' → ¬((new initial point stepMs).run before).Rescales now stepMs') ops := by
  constructor
  case mp =>
    intro h before c after hc stepMs' he
    have hj : ∀ square, c.snd ≠ .jumpTo square := by
      intro square
      rw [he]
      nofun
    exact (drawn_apply_iff hj).mp (h before c after hc hj) stepMs' he
  case mpr => exact fun h before c after hc hj => (drawn_apply_iff hj).mpr (h before c after hc)

theorem jumps_only_by_teleport_at_one_length :
    let r : RoutePredictor Nat ℚ := new 0 (fun p => (p, 0)) 100
    Trace.Each (fun before (now, op) => (∀ square, op ≠ .jumpTo square) →
      ((r.run before).apply now op).drawn now = (r.run before).drawn now)
      [(0, .jumpTo 0), (0, .setOut [1] true), (50, .advance 1)] := by
  refine jumps_only_by_teleport_iff 0 _ 100 _ |>.mpr fun before c after hc stepMs he => ?_
  have hm : c ∈ [(0, Op.jumpTo 0), (0, .setOut [1] true), (50, .advance 1)] := by simp [hc]
  simp at hm
  rcases hm with rfl | rfl | rfl <;> cases he

end Plaza.ClientUtils.RoutePredictor

namespace Plaza.ClientUtils.RoutePredictor

variable {P K : Type}

-- The reports of a server which is at `last`, with `rest` ahead: each repeats the one before it, or is one of the
-- next `k` squares. They leave it at `last'`, with `rest'` ahead.
inductive Follows (k : Nat) : List P → P → List P → List P → P → Prop
  | done (rest last) : Follows k rest last [] rest last
  | again : Follows k rest last qs rest' last' → Follows k rest last (last :: qs) rest' last'
  | onward (last : P) :
    (skipped.length < k) → Follows k rest q qs rest' last' → Follows k (skipped ++ q :: rest) last (q :: qs) rest' last'

variable [DecidableEq P] {r : RoutePredictor P K} {k now : Nat} {q last last' : P} {rest rest' skipped : List P}

-- What such reports are answered.
def expected : P → List P → List Heard
  | _,    []      => []
  | last, q :: qs => (if q = last then .unchecked else .onRoute) :: expected q qs

-- The journey is checked, with what the server has ahead as what is expected.
structure Checks (rest : List P) (last : P) (r : RoutePredictor P K) : Prop where
  checking  : r.checking
  confirmed : r.confirmed = last
  expect    : r.expect = rest
  nodup     : (last :: rest).Nodup

theorem spend_of_mem (hs : skipped.length < k) (hq : q ∉ skipped) :
    spend q k (skipped ++ q :: rest) = (rest, .onRoute) := by
  induction skipped generalizing k
  case nil =>
    obtain ⟨k, rfl⟩ := Nat.exists_eq_succ_of_ne_zero (Nat.ne_of_gt hs)
    simp [spend]
  case cons s skipped hi =>
    obtain ⟨k, rfl⟩ := Nat.exists_eq_succ_of_ne_zero (Nat.ne_of_gt (Nat.lt_of_le_of_lt (Nat.zero_le _) hs))
    have ⟨hqs, hq⟩ := not_or.mp <| List.mem_cons.not.mp hq
    rw [List.cons_append, spend, if_neg (Ne.symm hqs)]
    exact hi (Nat.lt_of_succ_lt_succ hs) hq

theorem spend_of_not_mem (hk : k ≤ rest.length) (hq : q ∉ rest.take k) :
    spend q k rest = (rest.drop k, .diverged) := by
  induction k generalizing rest
  case zero => rfl
  case succ k hi =>
    cases rest
    case nil => exact absurd hk (Nat.not_succ_le_zero k)
    case cons s rest =>
      have ⟨hqs, hq⟩ := not_or.mp <| List.mem_cons.not.mp <| List.take_succ_cons ▸ hq
      rw [spend, if_neg (Ne.symm hqs)]
      exact hi (Nat.le_of_succ_le_succ hk) hq

namespace Checks

theorem again (h : Checks rest last r) : r.confirm last k = (r, .unchecked) := by
  rw [confirm, if_pos h.confirmed.symm]

theorem onward (h : Checks (skipped ++ q :: rest) last r) (hs : skipped.length < k) :
    (r.confirm q k).snd = .onRoute ∧ Checks rest q (r.confirm q k).fst ∧ (r.confirm q k).fst.diverged = r.diverged := by
  have ⟨hl, hn⟩ := List.nodup_cons.mp h.nodup
  have hq : q ≠ r.confirmed := by
    rw [h.confirmed]
    rintro rfl
    exact hl <| List.mem_append_right _ List.mem_cons_self
  have hn := List.nodup_append.mp hn
  have hqs : q ∉ skipped := fun hq => hn.right.right q hq q List.mem_cons_self rfl
  have hk : max k 1 = k := by omega
  have hc : r.confirm q k = ({ r with confirmed := q, confirmations := r.confirmations + 1, expect := rest }, .onRoute) := by
    simp [confirm, hq, h.checking, h.expect, hk, spend_of_mem hs hqs]
  rw [hc]
  exact ⟨rfl, ⟨h.checking, rfl, rfl, hn.right.left⟩, rfl⟩

theorem stray (h : Checks rest last r) (hk : 1 ≤ k) (hl : k ≤ rest.length) (hq : q ≠ last) (hr : q ∉ rest.take k) :
    (r.confirm q k).snd = .diverged ∧ (r.confirm q k).fst.checking = false ∧
      (r.confirm q k).fst.diverged = r.diverged + 1 := by
  have hq : q ≠ r.confirmed := h.confirmed ▸ hq
  have hc : r.confirm q k = ({
      r with
      confirmed := q, confirmations := r.confirmations + 1, expect := rest.drop k
      checking := false, diverged := r.diverged + 1
    }, .diverged) := by
    simp [confirm, hq, h.checking, h.expect, max_eq_left hk, spend_of_not_mem hl hr]
  rw [hc]
  exact ⟨rfl, rfl, rfl⟩

end Checks

-- Without checking, nothing is said about a report.
theorem confirm_of_not_checking (h : r.checking = false) :
    (r.confirm q k).snd = .unchecked ∧ (r.confirm q k).fst.checking = false ∧
      (r.confirm q k).fst.diverged = r.diverged := by
  rw [confirm]
  split
  case isTrue  => exact ⟨rfl, h, rfl⟩
  case isFalse => simp [h]

-- What is answered to an operation.
def heard (r : RoutePredictor P K) : Op P → Option Heard
  | .confirm square slack => some (r.confirm square slack).snd
  | _                     => none

-- What the server reports in an operation.
def Op.report : Op P → Option P
  | .confirm square _ => some square
  | _                 => none

def reports (ops : List (Nat × Op P)) : List P :=
  ops.filterMap (·.snd.report)

variable [Field K] [LinearOrder K]

def answers (r : RoutePredictor P K) : List (Nat × Op P) → List Heard
  | []               => []
  | (now, op) :: ops => (r.heard op).toList ++ answers (r.apply now op) ops

-- A journey goes on until the body is put elsewhere, sets out again or is reconciled at rest.
def Keeps (k : Nat) (r : RoutePredictor P K) (now : Nat) : Op P → Prop
  | .setStepMs _ | .advance _             => True
  | .confirm _ slack                      => slack = k
  | .settle                               => (r.settle now).snd = false
  | .jumpTo _ | .setOut _ _ | .abandon _  => False

def Journey (k : Nat) (r : RoutePredictor P K) : List (Nat × Op P) → Prop
  | []               => True
  | (now, op) :: ops => Keeps k r now op ∧ Journey k (r.apply now op) ops

theorem settle_of_not (h : (r.settle now).snd = false) : (r.settle now).fst = r := by
  rw [settle] at h ⊢
  split at h
  case isTrue hw  => rw [if_pos hw]
  case isFalse => cases h

omit [DecidableEq P] in
theorem advance_checks (stepsPerTick : Nat) (h : Checks rest last r) : Checks rest last (r.advance now stepsPerTick) := by
  rw [advance_eq]
  split
  case isTrue  => exact ⟨h.checking, h.confirmed, h.expect, h.nodup⟩
  case isFalse => exact h

omit [DecidableEq P] in
theorem advance_diverged (stepsPerTick : Nat) : (r.advance now stepsPerTick).diverged = r.diverged := by
  rw [advance_eq]
  split <;> rfl

-- An operation that reports nothing leaves the check where it is.
theorem Checks.keep {op : Op P} (h : Checks rest last r) (hk : Keeps k r now op) (hq : op.report = none) :
    Checks rest last (r.apply now op) ∧ (r.apply now op).diverged = r.diverged := by
  cases op <;> try contradiction
  case setStepMs => exact ⟨⟨h.checking, h.confirmed, h.expect, h.nodup⟩, rfl⟩
  case advance n => exact ⟨advance_checks n h, advance_diverged n⟩
  case settle    =>
    rw [apply, settle_of_not hk]
    exact ⟨h, rfl⟩

-- The queue of what is expected stands where the reports have got to.
theorem Checks.follow {ops : List (Nat × Op P)} (h : Checks rest last r) (hj : Journey k r ops)
    (hf : Follows k rest last (reports ops) rest' last') :
    r.answers ops = expected last (reports ops) ∧ Checks rest' last' (r.run ops) ∧
      (r.run ops).diverged = r.diverged := by
  induction ops generalizing r rest last
  case nil =>
    cases hf
    exact ⟨rfl, h, rfl⟩
  case cons head ops hi =>
    obtain ⟨now, op⟩ := head
    obtain ⟨hk, hj⟩ := hj
    cases hq : op.report
    case none =>
      have hr : reports ((now, op) :: ops) = reports ops := by simp [reports, hq]
      have ⟨hc, hd⟩ := h.keep hk hq
      have ⟨ha, hc, hd'⟩ := hi hc hj (hr ▸ hf)
      have hh : r.heard op = none := by cases op <;> first | rfl | cases hq
      refine ⟨?_, hc, hd'.trans hd⟩
      rw [hr, ← ha, answers, hh]
      rfl
    case some q =>
      cases op <;> try contradiction
      case confirm square slack =>
        cases hq
        cases hk
        cases hf
        case again hf =>
          have hc : r.apply now (.confirm last k) = r := congrArg Prod.fst h.again
          replace hj := hc ▸ hj
          have ⟨ha, hc', hd⟩ := hi h hj hf
          refine ⟨?_, ?_, ?_⟩
          · rw [answers, hc, ha]
            simp [heard, h.again, expected, reports, Op.report]
          · show Checks rest' last' ((r.apply now (.confirm last k)).run ops)
            rwa [hc]
          · show ((r.apply now (.confirm last k)).run ops).diverged = r.diverged
            rwa [hc]
        case onward skipped rest hs hf =>
          have ⟨ho, hc, hd⟩ := h.onward hs
          have ⟨ha, hc, hd'⟩ := hi hc hj hf
          have hne : q ≠ last := by
            rintro rfl
            exact (List.nodup_cons.mp h.nodup).left <| List.mem_append_right _ List.mem_cons_self
          refine ⟨?_, hc, hd'.trans hd⟩
          rw [answers, apply, ha]
          simp [heard, ho, expected, reports, Op.report, hne]

-- Until the body sets out again, a check that is over says nothing more.
theorem run_of_not_checking {ops : List (Nat × Op P)} (h : r.checking = false)
    (ho : ∀ now route checkable, (now, Op.setOut route checkable) ∉ ops) :
    (∀ heard ∈ r.answers ops, heard = .unchecked) ∧ (r.run ops).diverged = r.diverged := by
  induction ops generalizing r
  case nil => exact ⟨fun _ h => absurd h List.not_mem_nil, rfl⟩
  case cons head ops hi =>
    obtain ⟨now, op⟩ := head
    have hr : (∀ heard ∈ r.heard op, heard = .unchecked) ∧ (r.apply now op).checking = false ∧
        (r.apply now op).diverged = r.diverged := by
      cases op
      case setStepMs | jumpTo | abandon => exact ⟨fun _ h => absurd h (Option.not_mem_none _), by simp [apply, setStepMs, jumpTo, abandon, h], rfl⟩
      case setOut route checkable => exact absurd List.mem_cons_self (ho now route checkable)
      case advance n =>
        refine ⟨fun _ h => absurd h (Option.not_mem_none _), ?_, advance_diverged n⟩
        rw [apply, advance_eq]
        split <;> exact h
      case confirm square slack =>
        obtain ⟨hs, hc, hd⟩ := confirm_of_not_checking (q := square) (k := slack) h
        exact ⟨fun _ h => Option.some.inj h ▸ hs, hc, hd⟩
      case settle =>
        refine ⟨fun _ h => absurd h (Option.not_mem_none _), ?_⟩
        simp only [apply, settle]
        split <;> exact ⟨h, rfl⟩
    obtain ⟨ha, hd⟩ := hi hr.right.left fun now route checkable hm => ho now route checkable (List.mem_cons_of_mem _ hm)
    refine ⟨fun heard hh => ?_, hd.trans hr.right.right⟩
    rw [answers, List.mem_append, Option.mem_toList] at hh
    exact hh.elim (hr.left heard) (ha heard)

-- What a checked journey expects is its route.
theorem setOut_checks {route : List P} {checkable : Bool} (h : (r.setOut route checkable now).checking)
    (hn : route.Nodup) (hr : r.confirmed ∉ route) : Checks route r.confirmed (r.setOut route checkable now) :=
  ⟨h, rfl, rfl, List.nodup_cons.mpr ⟨hr, hn⟩⟩

theorem checks_route_exactly {route : List P} {checkable : Bool} {ops : List (Nat × Op P)}
    (h : (r.setOut route checkable now).checking) (hn : route.Nodup) (hr : r.confirmed ∉ route) (hk : 1 ≤ k)
    (hj : Journey k (r.setOut route checkable now) ops)
    (hf : Follows k route r.confirmed (reports ops) rest last) :
    let journey := r.setOut route checkable now
    journey.answers ops = expected r.confirmed (reports ops) ∧
    (journey.run ops).diverged = r.diverged ∧
    ∀ q, q ≠ last → q ∉ rest.take k → k ≤ rest.length →
      let after := (journey.run ops).confirm q k
      after.snd = .diverged ∧ after.fst.checking = false ∧ after.fst.diverged = r.diverged + 1 ∧
      ∀ later, (∀ now route checkable, (now, Op.setOut route checkable) ∉ later) →
        (∀ heard ∈ after.fst.answers later, heard = .unchecked) ∧ (after.fst.run later).diverged = r.diverged + 1 := by
  have ⟨ha, hc, hd⟩ := (setOut_checks h hn hr).follow hj hf
  refine ⟨ha, hd, fun q hq hm hl => ?_⟩
  have ⟨hs, hc, hd'⟩ := hc.stray hk hl hq hm
  replace hd' := hd'.trans (congrArg (· + 1) hd)
  refine ⟨hs, hc, hd', fun later ho => ?_⟩
  have ⟨ha, hd⟩ := run_of_not_checking hc ho
  exact ⟨ha, hd.trans hd'⟩

-- A run of two squares a report, which goes astray after the first of them.
theorem checks_run_of_two :
    let r : RoutePredictor ℤ ℚ := (new (0 : ℤ) (fun x => ((x : ℚ), 0)) 100).jumpTo 0 0
    let journey := r.setOut [1, 2, 3, 4] true 5
    let ops := [(5, Op.advance 2), (40, .confirm 0 2), (90, .confirm 2 2), (110, .advance 2), (120, .settle)]
    journey.answers ops = [.unchecked, .onRoute] ∧ ((journey.run ops).confirm 9 2).snd = .diverged := by
  intro r journey ops
  have hs : [(1 : ℤ)].length < 2 := by decide
  have hf : Follows 2 [1, 2, 3, 4] (0 : ℤ) [0, 2] [3, 4] 2 := (Follows.onward 0 hs <| .done [3, 4] 2).again
  have hw : ((journey.run <| ops.take 4).settle 120).snd = false := by decide +kernel
  have hj : Journey 2 journey ops := ⟨trivial, rfl, rfl, trivial, hw, trivial⟩
  have hc : (r.setOut [1, 2, 3, 4] true 5).checking := by decide +kernel
  have ⟨ha, _, hs⟩ := checks_route_exactly hc (by decide) (by decide) (by decide : 1 ≤ 2) hj hf
  exact ⟨ha, (hs 9 (by decide) (by decide) (by decide)).left⟩

end Plaza.ClientUtils.RoutePredictor
