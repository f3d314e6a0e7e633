import Mathlib.Algebra.BigOperators.Ring.List
import Mathlib.Algebra.Order.BigOperators.Group.List
import Mathlib.Algebra.Order.Field.Basic
import Mathlib.Tactic.FieldSimp
import Mathlib.Tactic.Linarith
import Mathlib.Tactic.Ring

-- The line through samples with the least sum of squared residuals. A sample is of any type, with functions for
-- its place on either axis.

@[ext]
structure Line (K : Type*) where
  intercept : K
  slope     : K
  deriving DecidableEq, Repr

namespace Line

variable {K ι : Type*} [Field K]

def eval (l : Line K) (t : K) : K :=
  l.intercept + l.slope * t

variable (x y : ι → K) (samples : List ι)

def mean : K :=
  (samples.map x).sum / samples.length

-- How far the samples are apart.
def spread : K :=
  (samples.map fun i => (x i - mean x samples) * (x i - mean x samples)).sum

def slopeOf : K :=
  (samples.map fun i => (x i - mean x samples) * (y i - mean y samples)).sum / spread x samples

-- The line through the middle of the samples.
def fitted : Line K where
  intercept := mean y samples - slopeOf x y samples * mean x samples
  slope     := slopeOf x y samples

def residuals (l : Line K) : K :=
  (samples.map fun i => (y i - l.eval (x i)) * (y i - l.eval (x i))).sum

-- The equations of a line from which no change of height or slope leads nearer to the samples.
structure Normal (l : Line K) : Prop where
  height : (samples.map fun i => y i - l.eval (x i)).sum = 0
  slope  : (samples.map fun i => x i * (y i - l.eval (x i))).sum = 0

variable {x y} {samples} {z : ι → K} {l l' h : Line K}

-- Another line is farther off by what is between the two.
theorem Normal.residuals_eq (h : Normal x y samples l) (l' : Line K) :
    residuals x y samples l' =
      residuals x y samples l + (samples.map fun i => (l'.eval (x i) - l.eval (x i)) ^ 2).sum := by
  have hs : residuals x y samples l' =
      (samples.map fun i => ((y i - l.eval (x i)) * (y i - l.eval (x i)) + (l'.eval (x i) - l.eval (x i)) ^ 2) +
        ((-2 * (l'.intercept - l.intercept)) * (y i - l.eval (x i)) +
          (-2 * (l'.slope - l.slope)) * (x i * (y i - l.eval (x i))))).sum := by
    refine congrArg List.sum <| List.map_congr_left fun i _ => ?_
    simp only [eval]
    ring
  rw [hs, List.sum_map_add, List.sum_map_add, List.sum_map_add, List.sum_map_mul_left, List.sum_map_mul_left,
    h.height, h.slope, mul_zero, mul_zero, add_zero, add_zero]
  rfl

theorem normal_of_forall (h : ∀ i ∈ samples, y i = l.eval (x i)) : Normal x y samples l where
  height := List.sum_eq_zero fun _ hr => by
    obtain ⟨i, hi, rfl⟩ := List.mem_map.mp hr
    rw [h i hi, sub_self]
  slope  := List.sum_eq_zero fun _ hr => by
    obtain ⟨i, hi, rfl⟩ := List.mem_map.mp hr
    rw [h i hi, sub_self, mul_zero]

theorem Normal.congr (h : Normal x y samples l) (hz : ∀ i ∈ samples, y i = z i) : Normal x z samples l where
  height := by
    rw [← h.height, List.map_congr_left fun i hi => by rw [← hz i hi]]
  slope  := by
    rw [← h.slope, List.map_congr_left fun i hi => by rw [← hz i hi]]

-- What is fitted is linear in the heights of the samples.
theorem Normal.sub_mul (hl : Normal x y samples l) (hh : Normal x z samples h) (c : K) :
    Normal x (fun i => y i - c * z i) samples ⟨l.intercept - c * h.intercept, l.slope - c * h.slope⟩ where
  height := by
    have hs : (samples.map fun i =>
          y i - c * z i - eval ⟨l.intercept - c * h.intercept, l.slope - c * h.slope⟩ (x i)).sum =
        (samples.map fun i => (y i - l.eval (x i)) + -c * (z i - h.eval (x i))).sum := by
      refine congrArg List.sum <| List.map_congr_left fun i _ => ?_
      simp only [eval]
      ring
    rw [hs, List.sum_map_add, List.sum_map_mul_left, hl.height, hh.height, mul_zero, add_zero]
  slope  := by
    have hs : (samples.map fun i =>
          x i * (y i - c * z i - eval ⟨l.intercept - c * h.intercept, l.slope - c * h.slope⟩ (x i))).sum =
        (samples.map fun i => x i * (y i - l.eval (x i)) + -c * (x i * (z i - h.eval (x i)))).sum := by
      refine congrArg List.sum <| List.map_congr_left fun i _ => ?_
      simp only [eval]
      ring
    rw [hs, List.sum_map_add, List.sum_map_mul_left, hl.slope, hh.slope, mul_zero, add_zero]

theorem ne_nil_of_spread (h : spread x samples ≠ 0) : samples ≠ [] := by
  rintro rfl
  exact h rfl

theorem fitted_eval {t : K} :
    (fitted x y samples).eval t = mean y samples + slopeOf x y samples * (t - mean x samples) := by
  simp only [fitted, eval]
  ring

section

variable [CharZero K]

theorem sum_sub_mean (h : samples ≠ []) : (samples.map fun i => x i - mean x samples).sum = 0 := by
  have hn : (samples.length : K) ≠ 0 := Nat.cast_ne_zero.mpr <| List.length_pos_iff.mpr h |>.ne'
  simp only [sub_eq_add_neg]
  rw [List.sum_map_add, List.map_const', List.sum_replicate, nsmul_eq_mul, mean]
  field_simp
  ring

-- How far the samples are from another place than their mean.
theorem sum_sub_sq (c : K) : (samples.map fun i => (x i - c) * (x i - c)).sum =
    spread x samples + samples.length * ((mean x samples - c) * (mean x samples - c)) := by
  by_cases hs : samples = []
  case pos => simp [hs, spread]
  case neg =>
    have he : (samples.map fun i => (x i - c) * (x i - c)).sum =
        (samples.map fun i => ((x i - mean x samples) * (x i - mean x samples) +
          2 * (mean x samples - c) * (x i - mean x samples)) + (mean x samples - c) * (mean x samples - c)).sum := by
      refine congrArg List.sum <| List.map_congr_left fun i _ => ?_
      ring
    rw [he, List.sum_map_add, List.sum_map_add, List.sum_map_mul_left, sum_sub_mean hs, mul_zero, add_zero,
      List.map_const', List.sum_replicate, nsmul_eq_mul, spread]

variable {i : ι}

-- One more sample moves the mean by its part of what the sample is off.
theorem mean_snoc :
    mean x (samples ++ [i]) = mean x samples + 1 / (samples.length + 1) * (x i - mean x samples) := by
  have hn : (samples.length + 1 : K) ≠ 0 := by exact_mod_cast samples.length.succ_ne_zero
  have hs : (samples.map x).sum = mean x samples * samples.length := by
    by_cases h : samples = []
    case pos => simp [h]
    case neg => exact (div_mul_cancel₀ _ <| Nat.cast_ne_zero.mpr <| List.length_pos_iff.mpr h |>.ne').symm
  have he : mean x (samples ++ [i]) = (mean x samples * samples.length + x i) / (samples.length + 1) := by
    rw [mean, List.map_append, List.sum_append, hs]
    simp
  rw [he]
  field_simp
  ring

theorem spread_snoc : spread x (samples ++ [i]) = spread x samples +
    samples.length / (samples.length + 1) * ((x i - mean x samples) * (x i - mean x samples)) := by
  have hn : (samples.length + 1 : K) ≠ 0 := by exact_mod_cast samples.length.succ_ne_zero
  rw [spread, List.map_append, List.sum_append, sum_sub_sq, mean_snoc]
  simp only [List.map_cons, List.map_nil, List.sum_cons, List.sum_nil, add_zero]
  field_simp
  ring

-- The fitted line solves the equations, if the samples are apart.
theorem fitted_normal (h : spread x samples ≠ 0) : Normal x y samples (fitted x y samples) := by
  have hn := ne_nil_of_spread h
  have height : (samples.map fun i => y i - (fitted x y samples).eval (x i)).sum = 0 := by
    have hs : (samples.map fun i => y i - (fitted x y samples).eval (x i)).sum =
        (samples.map fun i => (y i - mean y samples) + -slopeOf x y samples * (x i - mean x samples)).sum := by
      refine congrArg List.sum <| List.map_congr_left fun i _ => ?_
      rw [fitted_eval]
      ring
    rw [hs, List.sum_map_add, List.sum_map_mul_left, sum_sub_mean hn, sum_sub_mean hn, mul_zero, add_zero]
  refine ⟨height, ?_⟩
  have hs : (samples.map fun i => x i * (y i - (fitted x y samples).eval (x i))).sum =
      (samples.map fun i => ((x i - mean x samples) * (y i - mean y samples) +
        -slopeOf x y samples * ((x i - mean x samples) * (x i - mean x samples))) +
        mean x samples * (y i - (fitted x y samples).eval (x i))).sum := by
    refine congrArg List.sum <| List.map_congr_left fun i _ => ?_
    rw [fitted_eval]
    ring
  rw [hs, List.sum_map_add, List.sum_map_add, List.sum_map_mul_left, List.sum_map_mul_left, height, mul_zero,
    add_zero]
  change _ + -(_ / spread x samples) * spread x samples = 0
  field_simp
  ring

end

section

variable [LinearOrder K] [IsStrictOrderedRing K]

-- Lines which agree at samples that are apart are one.
theorem eq_of_eval_eq (hs : spread x samples ≠ 0) (h : ∀ i ∈ samples, l'.eval (x i) = l.eval (x i)) :
    l' = l := by
  have hn : (samples.length : K) ≠ 0 :=
    Nat.cast_ne_zero.mpr <| List.length_pos_iff.mpr (ne_nil_of_spread hs) |>.ne'
  by_cases hm : l'.slope = l.slope
  case pos =>
    obtain ⟨i, hi⟩ := List.exists_mem_of_ne_nil _ (ne_nil_of_spread hs)
    have h := h i hi
    rw [eval, eval, hm] at h
    exact Line.ext (add_right_cancel h) hm
  case neg =>
    -- The lines meet in a single place, where all of the samples are then.
    refine absurd ?_ hs
    have hx (i) (hi : i ∈ samples) : x i = (l.intercept - l'.intercept) / (l'.slope - l.slope) := by
      have h := h i hi
      rw [eval, eval] at h
      rw [eq_div_iff (sub_ne_zero.mpr hm)]
      linarith
    have hc : mean x samples = (l.intercept - l'.intercept) / (l'.slope - l.slope) := by
      rw [mean, List.map_congr_left hx, List.map_const', List.sum_replicate, nsmul_eq_mul,
        mul_div_cancel_left₀ _ hn]
    refine List.sum_eq_zero fun _ hr => ?_
    obtain ⟨i, hi, rfl⟩ := List.mem_map.mp hr
    rw [hx i hi, hc, sub_self, zero_mul]

theorem residuals_lt (h : Normal x y samples l) (hs : spread x samples ≠ 0) (hne : l' ≠ l) :
    residuals x y samples l < residuals x y samples l' := by
  rw [h.residuals_eq l', lt_add_iff_pos_right]
  have h0 : ∀ r ∈ samples.map fun i => (l'.eval (x i) - l.eval (x i)) ^ 2, 0 ≤ r := by
    intro r hr
    obtain ⟨i, _, rfl⟩ := List.mem_map.mp hr
    exact sq_nonneg _
  refine (List.sum_nonneg h0).lt_of_ne fun hz => hne <| eq_of_eval_eq hs fun i hi => ?_
  have hm : (l'.eval (x i) - l.eval (x i)) ^ 2 ∈ samples.map fun i => (l'.eval (x i) - l.eval (x i)) ^ 2 :=
    List.mem_map_of_mem hi
  have hle := hz ▸ List.single_le_sum h0 _ hm
  exact sub_eq_zero.mp <| pow_eq_zero_iff two_ne_zero |>.mp <| le_antisymm hle (h0 _ hm)

theorem Normal.unique (hs : spread x samples ≠ 0) (h : Normal x y samples l) (h' : Normal x y samples l') :
    l' = l := by
  by_contra hne
  exact lt_asymm (residuals_lt h hs hne) (residuals_lt h' hs (Ne.symm hne))

end
end Line

-- The parabola through three points, of which the first coordinate is the place and the second the height.
structure Parabola (K : Type*) where
  constant : K
  linear   : K
  square   : K
  deriving DecidableEq, Repr

namespace Parabola

variable {K : Type*} [Field K]

def eval (q : Parabola K) (t : K) : K :=
  q.constant + q.linear * t + q.square * (t * t)

def Through (q : Parabola K) (p : K × K) : Prop :=
  q.eval p.fst = p.snd

-- The slope of the line through two points.
def chord (p p' : K × K) : K :=
  (p'.snd - p.snd) / (p'.fst - p.fst)

-- How much the slope changes on the way from the first two points to the last two.
def bend (p₀ p₁ p₂ : K × K) : K :=
  (chord p₁ p₂ - chord p₀ p₁) / (p₂.fst - p₀.fst)

variable {q : Parabola K} {p₀ p₁ p₂ : K × K} {t : K}

-- The form of the parabola which is anchored at the last of the points.
theorem eval_eq (h₁ : p₁.fst ≠ p₀.fst) (h₂ : p₂.fst ≠ p₁.fst) (h : p₂.fst ≠ p₀.fst) (hq₀ : q.Through p₀)
    (hq₁ : q.Through p₁) (hq₂ : q.Through p₂) :
    q.eval t = p₂.snd + chord p₁ p₂ * (t - p₂.fst) + bend p₀ p₁ p₂ * ((t - p₂.fst) * (t - p₁.fst)) := by
  have h₁ := sub_ne_zero.mpr h₁
  have h₂ := sub_ne_zero.mpr h₂
  have h  := sub_ne_zero.mpr h
  have hc {p p' : K × K} (hp : q.Through p) (hp' : q.Through p') (hn : p'.fst - p.fst ≠ 0) :
      chord p p' = q.linear + q.square * (p.fst + p'.fst) := by
    rw [chord, ← hp, ← hp', div_eq_iff hn, eval, eval]
    ring
  have hb : bend p₀ p₁ p₂ = q.square := by
    rw [bend, hc hq₀ hq₁ h₁, hc hq₁ hq₂ h₂, div_eq_iff h]
    ring
  rw [hb, hc hq₁ hq₂ h₂, ← hq₂, eval, eval]
  ring

theorem exists_through (h₁ : p₁.fst ≠ p₀.fst) (h₂ : p₂.fst ≠ p₁.fst) (h : p₂.fst ≠ p₀.fst) :
    ∃ q : Parabola K, q.Through p₀ ∧ q.Through p₁ ∧ q.Through p₂ := by
  have h₁ := sub_ne_zero.mpr h₁
  have h₂ := sub_ne_zero.mpr h₂
  have h  := sub_ne_zero.mpr h
  let b := bend p₀ p₁ p₂
  let c := chord p₁ p₂
  refine ⟨⟨p₂.snd - c * p₂.fst + b * (p₂.fst * p₁.fst), c - b * (p₁.fst + p₂.fst), b⟩, ?_, ?_, ?_⟩
  case refine_1 =>
    simp only [Through, eval, b, c, bend, chord]
    field_simp
    ring
  case refine_2 =>
    simp only [Through, eval, b, c, chord]
    field_simp
    ring
  case refine_3 =>
    simp only [Through, eval]
    ring

-- Without a bend the points are on a line.
theorem bend_eq_zero_iff (h₁ : p₁.fst ≠ p₀.fst) (h₂ : p₂.fst ≠ p₁.fst) (h : p₂.fst ≠ p₀.fst) :
    bend p₀ p₁ p₂ = 0 ↔ (p₁.snd - p₀.snd) * (p₂.fst - p₁.fst) = (p₂.snd - p₁.snd) * (p₁.fst - p₀.fst) := by
  have h₁ := sub_ne_zero.mpr h₁
  have h₂ := sub_ne_zero.mpr h₂
  rw [bend, div_eq_zero_iff, or_iff_left (sub_ne_zero.mpr h), sub_eq_zero, chord, chord, div_eq_div_iff h₂ h₁,
    eq_comm]

end Parabola
