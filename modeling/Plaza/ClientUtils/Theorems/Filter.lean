import Mathlib.Analysis.Complex.Basic
import Plaza.ClientUtils.Filter
import Plaza.Lib.Walk

namespace Plaza.ClientUtils.ScalarKalman

open Walk

-- A filter in use, with the measurements since it was last reset, and the variances it took them to have. The latest
-- comes first. An explicit start counts as a measurement.
structure Journal (K : Type*) where
  filter : ScalarKalman K
  steps  : List (Step K)
  taken  : List K

section

variable {K : Type*} [Field K] [LinearOrder K]

def Journal.start (processNoise measurementNoise : K) : Journal K where
  filter := .new processNoise measurementNoise
  steps  := []
  taken  := []

def journaled : Machine (Journal K) (Op K) where
  step j op := (machine.step j.filter op).map fun filter => match op with
    | .withInitial estimate variance => { filter, steps := [⟨0, max variance 0⟩], taken := [estimate] }
    | .observe measurement           =>
      { filter
        steps := ⟨j.filter.processNoise, j.filter.measurementNoise⟩ :: j.steps
        taken := measurement :: j.taken }
    | .reset => { filter, steps := [], taken := [] }
    | _      => { j with filter }

variable [IsStrictOrderedRing K] {f : ScalarKalman K} {j j' : Journal K} {op : Op K} {r z : K}

theorem floorNoise_pos : 0 < floorNoise r :=
  lt_max_of_lt_right (by positivity)

-- The weighted sum of the measurements that a filter has come to.
structure Weighs (f : ScalarKalman K) (steps : List (Step K)) (taken weights : List K) : Prop where
  best     : Best steps weights f.variance
  length   : taken.length = steps.length
  estimate : f.estimate = (weights.zipWith (· * ·) taken).sum

structure Journal.Optimal (j : Journal K) : Prop where
  process     : 0 ≤ j.filter.processNoise
  measurement : 0 < j.filter.measurementNoise
  fresh       : j.filter.initialized = false → j.steps = [] ∧ j.taken = []
  weighs      : j.filter.initialized → ∃ weights, j.filter.Weighs j.steps j.taken weights

theorem Weighs.observe {steps : List (Step K)} {taken weights : List K} (h : f.Weighs steps taken weights)
    (hp : 0 ≤ f.processNoise) (hm : 0 < f.measurementNoise) (hi : f.initialized) :
    (f.observe z).Weighs (⟨f.processNoise, f.measurementNoise⟩ :: steps) (z :: taken)
      (gain f.variance ⟨f.processNoise, f.measurementNoise⟩ ::
        weights.map ((1 - gain f.variance ⟨f.processNoise, f.measurementNoise⟩) * ·)) := by
  have ho : f.observe z = { f with
      estimate := f.estimate + gain f.variance ⟨f.processNoise, f.measurementNoise⟩ * (z - f.estimate)
      variance := (f.variance + f.processNoise) * (1 - gain f.variance ⟨f.processNoise, f.measurementNoise⟩)
      lastGain := gain f.variance ⟨f.processNoise, f.measurementNoise⟩ } := by
    simp [ScalarKalman.observe, hi, gain]
  rw [ho]
  refine ⟨h.best.next hp hm, by simp [h.length], ?_⟩
  have hw (c : K) : ((weights.map (c * ·)).zipWith (· * ·) taken).sum = c * (weights.zipWith (· * ·) taken).sum := by
    have hm : (weights.zipWith (fun w t => c * w * t) taken) = (weights.zipWith (· * ·) taken).map (c * ·) := by
      simp only [List.map_zipWith, mul_assoc]
    rw [List.zipWith_map_left, hm, List.sum_map_mul_left, List.map_id']
  rw [List.zipWith_cons_cons, List.sum_cons, hw, ← h.estimate]
  ring

theorem Journal.Optimal.step (h : j.Optimal) (hs : journaled.step j op = some j') : j'.Optimal := by
  cases op <;> simp only [journaled, machine, Option.map_some, Option.some.injEq] at hs <;> subst hs
  case withInitial estimate variance =>
    exact ⟨h.process, h.measurement, by simp [withInitial], fun _ =>
      ⟨[1], best_single (le_max_right variance 0), rfl, by simp [withInitial]⟩⟩
  case setProcessNoise q =>
    refine ⟨le_max_right .., h.measurement, h.fresh, fun hi => ?_⟩
    obtain ⟨weights, hw⟩ := h.weighs hi
    exact ⟨weights, hw.best, hw.length, hw.estimate⟩
  case setMeasurementNoise r =>
    refine ⟨h.process, floorNoise_pos, h.fresh, fun hi => ?_⟩
    obtain ⟨weights, hw⟩ := h.weighs hi
    exact ⟨weights, hw.best, hw.length, hw.estimate⟩
  case reset => exact ⟨h.process, h.measurement, fun _ => ⟨rfl, rfl⟩, by simp [reset]⟩
  case observe z =>
    cases hi : j.filter.initialized
    case false =>
      have ⟨hs, ht⟩ := h.fresh hi
      have ho : j.filter.observe z = { j.filter with
          estimate := z, variance := j.filter.measurementNoise, initialized := true, lastGain := 1 } := by
        simp [observe, hi]
      rw [ho, hs, ht]
      exact ⟨h.process, h.measurement, nofun, fun _ => ⟨[1], best_single h.measurement.le, rfl, by simp⟩⟩
    case true =>
      obtain ⟨weights, hw⟩ := h.weighs hi
      have ho := hw.observe (z := z) h.process h.measurement hi
      have hk : (j.filter.observe z).processNoise = j.filter.processNoise ∧
          (j.filter.observe z).measurementNoise = j.filter.measurementNoise ∧ (j.filter.observe z).initialized := by
        simp [observe, hi]
      exact ⟨hk.left ▸ h.process, hk.right.left ▸ h.measurement, fun hn => absurd hk.right.right (Bool.eq_false_iff.mp hn),
        fun _ => ⟨_, ho⟩⟩

theorem Journal.Optimal.start {q : K} : (Journal.start q r).Optimal where
  process     := le_max_right ..
  measurement := floorNoise_pos
  fresh _     := ⟨rfl, rfl⟩
  weighs      := nofun

end

variable {E : Type*} [NormedAddCommGroup E] [InnerProductSpace ℝ E] {j : Journal ℝ} {ops : List (Op ℝ)} {q r : ℝ}

-- Whatever the knobs were turned to in between, the estimate is the one weighted sum of the measurements which is off
-- by the least from a walk with such noises, and the variance says by how much.
theorem optimal (h : journaled.Steps (.start q r) ops j) (hi : j.filter.initialized) :
    ∃ weights : List ℝ, weights.length = j.taken.length ∧ weights.sum = 1 ∧
      j.filter.estimate = (weights.zipWith (· * ·) j.taken).sum ∧
      ∀ (start : E) (ns : List (Noise E)), Uncorrelated j.steps ns →
        ‖offBy start ns weights‖ ^ 2 = j.filter.variance ∧
        ∀ bs : List ℝ, bs.length = j.taken.length → bs.sum = 1 →
          j.filter.variance ≤ ‖offBy start ns bs‖ ^ 2 ∧
          (‖offBy start ns bs‖ ^ 2 = j.filter.variance → bs = weights) := by
  have ho := h.preserves (fun h hs => h.step hs) Journal.Optimal.start
  obtain ⟨weights, hw⟩ := ho.weighs hi
  refine ⟨weights, hw.best.length.trans hw.length.symm, hw.best.sum, hw.estimate, fun start ns hn => ?_⟩
  have hl := hn.sizes.length_eq
  refine ⟨(norm_offBy hn (hw.best.length.trans hl)).trans hw.best.eq, fun bs hb hs => ?_⟩
  have hb : bs.length = j.steps.length := hb.trans hw.length
  rw [norm_offBy hn (hb.trans hl)]
  refine ⟨by simpa [hs] using hw.best.least bs hb, fun he => ?_⟩
  have hu := hw.best.unique bs hb (by simpa [hs] using he)
  simpa [hs] using hu

-- Two measurements of something that does not move.
theorem optimal_two : ∃ j : Journal ℝ, journaled.Steps (.start 0 1) [.observe 3, .observe 5] j ∧
    ∃ weights : List ℝ, weights.length = 2 ∧ j.filter.estimate = (weights.zipWith (· * ·) j.taken).sum ∧
      ‖offBy (0 : ℂ) [⟨0, 1⟩, ⟨0, Complex.I⟩] weights‖ ^ 2 = j.filter.variance := by
  have h : journaled.Steps (.start (0 : ℝ) 1) [.observe 3, .observe 5] _ := .step rfl (.step rfl .refl)
  have hr : floorNoise (1 : ℝ) = 1 := max_eq_left (by norm_num)
  obtain ⟨weights, hl, -, he, hn⟩ := optimal (E := ℂ) h (by simp [Journal.start, observe, new])
  refine ⟨_, h, weights, hl, he, (hn 0 _ ⟨?sizes, ?orthogonal⟩).left⟩
  case sizes      => simp [Journal.start, observe, new, hr]
  case orthogonal => simp

end Plaza.ClientUtils.ScalarKalman
