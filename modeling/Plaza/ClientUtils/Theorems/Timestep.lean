import Mathlib.Algebra.BigOperators.Group.List.Basic
import Plaza.ClientUtils.Timestep
import Plaza.Lib.Execution

open Rust

namespace Plaza.ClientUtils

-- The iterator yields its items, one after another.
theorem Steps.items_eq {s : Steps} : s.items = s.next.elim [] fun (d, s) => d :: s.items := by
  rw [next]
  split
  case isTrue h  => simp [items, h]
  case isFalse h =>
    have h : s.remaining.toNat ≠ 0 := fun hz => h <| BitVec.eq_of_toNat_eq hz
    have hs : (s.remaining - 1).toNat = s.remaining.toNat - 1 :=
      BitVec.toNat_sub_of_le <| BitVec.le_def.mpr <| Nat.one_le_iff_ne_zero.mpr h
    simp only [items, hs, Option.elim_some]
    rw [← List.replicate_succ, Nat.sub_add_cancel (by omega)]

theorem Steps.sum_items {s : Steps} : s.items.sum = s.remaining.toNat * s.step := by
  simp [items]

namespace FixedTimestep

variable {o : Overflow} {t t' : FixedTimestep} {count : U64} {elapsedMs : U64}

theorem step_pos : 0 < t.stepNanos.toNat :=
  t.stepNanos_pos

theorem clamped_spec {elapsedNanos : U64} (h : t.droppedNanos.toNat + elapsedNanos.toNat < 2 ^ 64) :
    ∃ d, clamped o t elapsedNanos = some d ∧
      d.toNat = t.droppedNanos.toNat + (elapsedNanos.toNat - t.maxFrameNanos.toNat) := by
  rw [clamped]
  split
  case isTrue hl =>
    rw [BitVec.lt_def] at hl
    have hs := U64.toNat_sub_of_fits (x := elapsedNanos) (y := t.maxFrameNanos) (by omega)
    have ha := U64.toNat_add_of_fits (x := t.droppedNanos) (y := elapsedNanos - t.maxFrameNanos) (by omega)
    rw [U64.sub_of_fits (by omega), Option.bind_some, U64.add_of_fits (by omega)]
    exact ⟨_, rfl, by omega⟩
  case isFalse hl =>
    rw [BitVec.lt_def] at hl
    exact ⟨_, rfl, by omega⟩

-- What capping does: what is beyond the cap is dropped, with the remainder.
theorem capped_spec (h : t.droppedNanos.toNat + count.toNat * t.stepNanos.toNat + t.accumulatedNanos.toNat < 2 ^ 64)
    (ha : t.accumulatedNanos < t.stepNanos) :
    ∃ t' n, capped o t count = some (t', n) ∧
      t' = { t with accumulatedNanos := t'.accumulatedNanos, droppedNanos := t'.droppedNanos } ∧
      t'.droppedNanos.toNat + n.toNat * t.stepNanos.toNat + t'.accumulatedNanos.toNat =
        t.droppedNanos.toNat + count.toNat * t.stepNanos.toNat + t.accumulatedNanos.toNat ∧
      t'.accumulatedNanos < t.stepNanos ∧
      n.toNat ≤ count.toNat ∧ ∀ cap, t.maxSteps = some cap → n.toNat ≤ cap.toNat := by
  rw [capped]
  cases hm : t.maxSteps
  case none     => exact ⟨t, count, rfl, hm ▸ rfl, rfl, ha, Nat.le_refl _, nofun⟩
  case some cap =>
    have hc : (cap.setWidth 64).toNat = cap.toNat := by
      rw [BitVec.toNat_setWidth, Nat.mod_eq_of_lt]
      have := cap.isLt
      omega
    simp only
    split
    case isFalse hl =>
      rw [BitVec.lt_def, hc, Nat.not_lt] at hl
      exact ⟨t, count, rfl, hm ▸ rfl, rfl, ha, Nat.le_refl _, fun _ h => Option.some.inj h ▸ hl⟩
    case isTrue hl =>
      rw [BitVec.lt_def, hc] at hl
      have hp : cap.toNat * t.stepNanos.toNat ≤ count.toNat * t.stepNanos.toNat :=
        Nat.mul_le_mul_right _ (Nat.le_of_lt hl)
      have hs := U64.toNat_sub_of_fits (x := count) (y := cap.setWidth 64) (by omega)
      rw [hc] at hs
      have hm : (count - cap.setWidth 64).toNat * t.stepNanos.toNat =
          count.toNat * t.stepNanos.toNat - cap.toNat * t.stepNanos.toNat := by
        rw [hs, Nat.sub_mul]
      have hm' := U64.toNat_mul_of_fits (x := count - cap.setWidth 64) (y := t.stepNanos) (by omega)
      have ha := U64.toNat_add_of_fits (x := (count - cap.setWidth 64) * t.stepNanos) (y := t.accumulatedNanos) (by omega)
      have hd := U64.toNat_add_of_fits (x := t.droppedNanos)
        (y := (count - cap.setWidth 64) * t.stepNanos + t.accumulatedNanos) (by omega)
      rw [U64.sub_of_fits (by omega), Option.bind_eq_bind, Option.bind_some, U64.mul_of_fits (by omega),
        Option.bind_some, U64.add_of_fits (by omega), Option.bind_some, U64.add_of_fits (by omega), Option.bind_some]
      refine ⟨_, _, rfl, rfl, ?_, t.stepNanos_pos, ?_, ?_⟩
      · simp only [hc, show (0 : U64).toNat = 0 from rfl]
        omega
      · omega
      · intro _ h
        cases h
        omega

-- The quotient is no more than what a count of steps holds.
def Countable (t : FixedTimestep) (elapsedMs : U64) : Prop :=
  t.maxSteps = none →
    (t.accumulatedNanos.toNat + min (Duration.fromMillis elapsedMs) t.maxFrameNanos.toNat) / t.stepNanos.toNat < 2 ^ 32

instance : Decidable (t.Countable elapsedMs) :=
  inferInstanceAs (Decidable (_ → _))

-- What an advance does with the time which it is given.
theorem advance_spec
    (h : t.droppedNanos.toNat + t.accumulatedNanos.toNat + Duration.fromMillis elapsedMs < 2 ^ 64)
    (hc : t.Countable elapsedMs) :
    ∃ t' s, advance o t elapsedMs = some (t', s) ∧
      t' = { t with accumulatedNanos := t'.accumulatedNanos, droppedNanos := t'.droppedNanos } ∧
      s.step = t.stepNanos.toNat ∧
      t'.droppedNanos.toNat + s.remaining.toNat * s.step + t'.accumulatedNanos.toNat =
        t.droppedNanos.toNat + t.accumulatedNanos.toNat + Duration.fromMillis elapsedMs ∧
      t'.accumulatedNanos < t.stepNanos ∧ ∀ cap, t.maxSteps = some cap → s.remaining.toNat ≤ cap.toNat := by
  have he : (U64.saturatingMul elapsedMs 1000000).toNat = Duration.fromMillis elapsedMs := by
    have hm : elapsedMs.toNat * (1000000 : U64).toNat = Duration.fromMillis elapsedMs := rfl
    rw [U64.toNat_saturatingMul, hm]
    omega
  obtain ⟨d, hd, hdn⟩ := @clamped_spec o t (U64.saturatingMul elapsedMs 1000000) (by omega)
  have hl : (U64.lesser (U64.saturatingMul elapsedMs 1000000) t.maxFrameNanos).toNat =
      min (Duration.fromMillis elapsedMs) t.maxFrameNanos.toNat := by
    rw [U64.toNat_lesser, he]
  obtain ⟨paid, hp⟩ : ∃ paid, U64.lesser (U64.saturatingMul elapsedMs 1000000) t.maxFrameNanos = paid := ⟨_, rfl⟩
  rw [hp] at hl
  have ha := U64.toNat_add_of_fits (x := t.accumulatedNanos) (y := paid) (by omega)
  have hq : ((t.accumulatedNanos + paid) / t.stepNanos).toNat =
      (t.accumulatedNanos.toNat + paid.toNat) / t.stepNanos.toNat := by
    rw [BitVec.toNat_udiv, ha]
  have hle := Nat.div_mul_le_self (t.accumulatedNanos.toNat + paid.toNat) t.stepNanos.toNat
  have hlt := Nat.lt_div_mul_add (a := t.accumulatedNanos.toNat + paid.toNat) (@step_pos t)
  rw [← hq] at hle hlt
  have hm := U64.toNat_mul_of_fits (x := (t.accumulatedNanos + paid) / t.stepNanos) (y := t.stepNanos) (by omega)
  have hs := U64.toNat_sub_of_fits (x := t.accumulatedNanos + paid)
    (y := (t.accumulatedNanos + paid) / t.stepNanos * t.stepNanos) (by omega)
  have hr : t.accumulatedNanos + paid - (t.accumulatedNanos + paid) / t.stepNanos * t.stepNanos < t.stepNanos :=
    BitVec.lt_def.mpr (by omega)
  obtain ⟨t', n, hn, ht, hk, hr, hle', hcap⟩ := @capped_spec o {
    t with
    droppedNanos     := d
    accumulatedNanos := t.accumulatedNanos + paid - (t.accumulatedNanos + paid) / t.stepNanos * t.stepNanos
  } ((t.accumulatedNanos + paid) / t.stepNanos) (by simp only; omega) hr
  have hw : (n.setWidth 32).toNat = n.toNat := by
    rw [BitVec.toNat_setWidth, Nat.mod_eq_of_lt]
    cases hx : t.maxSteps
    case none     =>
      have hc := hc hx
      rw [← hl, ← hq] at hc
      omega
    case some cap => exact Nat.lt_of_le_of_lt (hcap cap hx) cap.isLt
  have hst : t'.stepNanos = t.stepNanos := congrArg (·.stepNanos) ht
  refine ⟨t', ⟨n.setWidth 32, t.stepNanos.toNat⟩, ?_, ht, rfl, ?_, hr, ?_⟩
  · rw [advance, hd, hp]
    simp only [Option.bind_eq_bind, Option.bind_some]
    rw [U64.add_of_fits (by omega), Option.bind_some, U64.mul_of_fits (by omega), Option.bind_some,
      U64.sub_of_fits (by omega), Option.bind_some, hn, Option.bind_some, hst]
  · simp only [hw] at hk ⊢
    omega
  · intro cap hx
    exact hw ▸ hcap cap hx

-- What the constructors answer.
inductive Built : FixedTimestep → Prop
  | fromStep {step t} : (fromStep step = some t) → Built t
  | withMaxFrameMs {t t' maxFrameMs} : Built t → (t.withMaxFrameMs maxFrameMs = some t') → Built t'
  | withMaxSteps {t maxSteps} : Built t → Built (t.withMaxSteps maxSteps)

theorem Built.fresh (h : Built t) : t.accumulatedNanos = 0 ∧ t.droppedNanos = 0 := by
  induction h
  case fromStep h =>
    simp only [FixedTimestep.fromStep, Option.bind_eq_bind, Option.bind_eq_some_iff,
      Option.dite_none_right_eq_some, Option.some.injEq] at h
    obtain ⟨_, _, _, _, _, rfl⟩ := h
    exact ⟨rfl, rfl⟩
  case withMaxFrameMs h hi =>
    obtain ⟨_, _, rfl⟩ := Option.map_eq_some_iff.mp h
    exact hi
  case withMaxSteps hi => exact hi

inductive Call
  | advance (elapsedMs : U64)
  | setStep (step : Duration)
  deriving DecidableEq

def Call.elapsed : Call → Nat
  | advance elapsedMs => Duration.fromMillis elapsedMs
  | setStep _         => 0

-- A timestep with what its advances have reported.
structure Ledger where
  timestep : FixedTimestep
  reported : List Steps

namespace Ledger

def machine (o : Overflow) : Machine Ledger Call where
  step l
    | .advance elapsedMs => do
      let (timestep, steps) ← l.timestep.advance o elapsedMs
      some { timestep, reported := l.reported ++ [steps] }
    | .setStep step => do
      let timestep ← l.timestep.setStep step
      some { l with timestep }

def Countable (l : Ledger) : Call → Prop
  | .advance elapsedMs => l.timestep.Countable elapsedMs
  | .setStep _         => True

instance {l : Ledger} : DecidablePred l.Countable
  | .advance _ => inferInstanceAs (Decidable (FixedTimestep.Countable ..))
  | .setStep _ => inferInstanceAs (Decidable True)

-- The time which is accounted for.
def total (l : Ledger) : Nat :=
  (l.reported.flatMap Steps.items).sum + l.timestep.droppedNanos.toNat + l.timestep.accumulatedNanos.toNat

variable {l l' : Ledger} {c : Call} {calls : List Call}

theorem step_spec (h : ((machine o).restrict Countable).step l c = some l') (ht : l.total + c.elapsed < 2 ^ 64) :
    l'.total = l.total + c.elapsed ∧ l'.timestep.maxSteps = l.timestep.maxSteps := by
  obtain ⟨hc, h⟩ := Machine.restrict_step_iff.mp h
  cases c
  case advance elapsedMs =>
    simp only [total, Call.elapsed] at ht ⊢
    obtain ⟨t', s, ha, ht', _, hk, _, _⟩ := advance_spec (o := o) (t := l.timestep) (by omega) hc
    simp only [machine, ha, Option.bind_eq_bind, Option.bind_some, Option.some.injEq] at h
    subst h
    rw [List.flatMap_append, List.sum_append, List.flatMap_singleton, Steps.sum_items]
    refine ⟨?_, congrArg (·.maxSteps) ht'⟩
    simp only
    omega
  case setStep step =>
    simp only [machine, FixedTimestep.setStep, Option.bind_eq_bind, Option.bind_eq_some_iff,
      Option.dite_none_right_eq_some, Option.some.injEq] at h
    obtain ⟨_, ⟨_, _, _, rfl⟩, rfl⟩ := h
    exact ⟨rfl, rfl⟩

theorem steps_spec (h : ((machine o).restrict Countable).Steps l calls l')
    (ht : l.total + (calls.map Call.elapsed).sum < 2 ^ 64) :
    l'.total = l.total + (calls.map Call.elapsed).sum ∧ l'.timestep.maxSteps = l.timestep.maxSteps := by
  induction h
  case refl => exact ⟨rfl, rfl⟩
  case step hs _ hi =>
    rw [List.map_cons, List.sum_cons, ← Nat.add_assoc] at ht ⊢
    have ⟨ht', hm⟩ := step_spec hs (Nat.lt_of_le_of_lt (Nat.le_add_right ..) ht)
    rw [← ht', ← hm]
    exact hi (ht' ▸ ht)

end Ledger

open Ledger

theorem conserves_time (o : Overflow) (hb : Built t) {calls : List Call} {l : Ledger}
    (h : ((machine o).restrict Ledger.Countable).Steps ⟨t, []⟩ calls l) (ht : (calls.map Call.elapsed).sum < 2 ^ 64) :
    (calls.map Call.elapsed).sum = (l.reported.flatMap Steps.items).sum + l.timestep.droppedNanos.toNat +
        l.timestep.accumulatedNanos.toNat ∧
      ∀ elapsedMs, l.timestep.Countable elapsedMs →
        (calls.map Call.elapsed).sum + Duration.fromMillis elapsedMs < 2 ^ 64 →
        ∃ t' s, l.timestep.advance o elapsedMs = some (t', s) ∧ t'.accumulatedNanos < t'.stepNanos ∧
          (∀ d ∈ s.items, d = l.timestep.stepNanos.toNat) ∧
          ∀ cap, t.maxSteps = some cap → s.items.length ≤ cap.toNat := by
  have hz : (⟨t, []⟩ : Ledger).total = 0 := by
    simp [total, hb.fresh.left, hb.fresh.right]
  obtain ⟨hk, hm⟩ := steps_spec h (by omega)
  rw [hz, Nat.zero_add] at hk
  refine ⟨hk.symm, fun elapsedMs hc hl => ?_⟩
  rw [← hk, total] at hl
  obtain ⟨t', s, ha, ht', hs, _, hlt, hcap⟩ := advance_spec (o := o) (t := l.timestep) (by omega) hc
  have hst : t'.stepNanos = l.timestep.stepNanos := congrArg (·.stepNanos) ht'
  refine ⟨t', s, ha, hst ▸ hlt, fun d hd => hs ▸ (List.mem_replicate.mp hd).right, fun cap h => ?_⟩
  rw [Steps.items, List.length_replicate]
  exact hcap cap (hm ▸ h)

-- A long frame after the step was shortened: it is clamped first, and capped then.
theorem conserves_time_of_long_frame :
    let calls := [.advance 33, .setStep 10000000, .advance 400]
    ∃ t l, (fromStep 16666667).map (·.withMaxSteps 5) = some t ∧ (machine .panics).run ⟨t, []⟩ calls = some l ∧
      433000000 = (l.reported.flatMap Steps.items).sum + l.timestep.droppedNanos.toNat +
        l.timestep.accumulatedNanos.toNat ∧
      l.timestep.droppedNanos = 366333333 := by
  intro calls
  refine ⟨_, _, rfl, rfl, ?_, by decide⟩
  have hb := @Built.withMaxSteps _ 5 (@Built.fromStep 16666667 _ rfl)
  exact (@conserves_time _ .panics hb calls _ (Machine.run_eq_some_iff.mp rfl) (by decide)).left

end FixedTimestep
end Plaza.ClientUtils
