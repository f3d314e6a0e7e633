import Mathlib.Algebra.Order.Field.Rat
import Plaza.ClientUtils.Trajectory
import Plaza.Lib.LeastSquares
import Plaza.Lib.Ordered

open Rust

namespace Plaza.ClientUtils.TrajectoryPredictor

variable {K : Type*} {samples earlier : List (U64 × K)} {s s₀ s₁ s₂ : U64 × K} {t horizon : U64}

-- The samples which are later than everything before them.
def accepted (samples : List (U64 × K)) : List (U64 × K) :=
  samples.foldl (fun held s => if held.getLast?.any (s.fst ≤ ·.fst) then held else held ++ [s]) []

theorem accepted_concat : accepted (samples ++ [s]) =
    if (accepted samples).getLast?.any (s.fst ≤ ·.fst) then accepted samples else accepted samples ++ [s] :=
  List.foldl_append

theorem accepted_sorted : (accepted samples).Pairwise (·.fst < ·.fst) := by
  induction samples using List.reverseRecOn
  case nil => exact .nil
  case append_singleton samples s hi =>
    rw [accepted_concat]
    split
    case isTrue    => exact hi
    case isFalse h =>
      refine List.pairwise_append.mpr ⟨hi, List.pairwise_singleton .., fun a ha b hb => ?_⟩
      rw [List.mem_singleton.mp hb]
      cases hn : (accepted samples).getLast?
      case none => rw [List.getLast?_eq_none_iff.mp hn] at ha; contradiction
      case some newest =>
        have hs : newest.fst < s.fst := by simpa [hn] using h
        obtain rfl | ha := hi.rel_of_getLast? hn ha
        case inl => exact hs
        case inr => exact BitVec.lt_trans ha hs

-- A point of a graph over the time.
def point [NatCast K] (s : U64 × K) : K × K :=
  (s.fst.toNat, s.snd)

-- The time that a prediction is made for.
def target [NatCast K] (s : U64 × K) (horizon t : U64) : K :=
  (min t.toNat (s.fst.toNat + horizon.toNat) : Nat)

variable [Field K] [LinearOrder K] {p : TrajectoryPredictor K}

-- What is held are the last three of the accepted samples.
theorem observeAll_eq {damping : K} : (new damping horizon).observeAll samples =
    { new damping horizon with samples := (accepted samples).rtake 3 } := by
  induction samples using List.reverseRecOn
  case nil => rfl
  case append_singleton samples s hi =>
    have hs : (new damping horizon).observeAll (samples ++ [s]) =
        ((new damping horizon).observeAll samples).observe s.fst s.snd := List.foldl_append
    rw [hs, hi, observe, List.getLast?_rtake (by decide), accepted_concat]
    split
    case isTrue  => rfl
    case isFalse =>
      rw [← List.tail_rtake_concat (by decide)]
      split <;> rfl

omit [LinearOrder K] in
theorem seconds_eq {a b : U64} (h : a ≤ b) : (seconds a b : K) = (b.toNat - a.toNat) / (1000 : Nat) := by
  rw [seconds, Nat.cast_sub (BitVec.le_def.mp h)]

variable [IsStrictOrderedRing K]

theorem place_lt {a b : U64} (h : a < b) : (a.toNat : K) < b.toNat :=
  Nat.cast_lt.mpr (BitVec.lt_def.mp h)

theorem seconds_pos {a b : U64} (h : a < b) : (0 : K) < seconds a b := by
  rw [seconds_eq (BitVec.le_of_lt h)]
  exact div_pos (sub_pos.mpr (place_lt h)) (by norm_num)

omit [LinearOrder K] [IsStrictOrderedRing K] in
-- The rate from one sample to another, per second.
theorem rate_eq (h : s₁.fst < s₂.fst) :
    (s₂.snd - s₁.snd) / seconds s₁.fst s₂.fst = Parabola.chord (point s₁) (point s₂) * (1000 : Nat) := by
  rw [seconds_eq (BitVec.le_of_lt h), div_div_eq_mul_div, Parabola.chord, point, point, div_mul_eq_mul_div]

theorem velocity_eq (hs : p.samples = earlier ++ [s₁, s₂]) (h : s₁.fst < s₂.fst) :
    p.velocity = some (Parabola.chord (point s₁) (point s₂) * (1000 : Nat)) := by
  have hr : p.samples.reverse = s₂ :: s₁ :: earlier.reverse := by simp [hs]
  rw [velocity, hr]
  dsimp only
  rw [if_pos (seconds_pos h), rate_eq h]

theorem acceleration_eq (hs : p.samples = [s₀, s₁, s₂]) (h₁ : s₀.fst < s₁.fst) (h₂ : s₁.fst < s₂.fst) :
    p.acceleration =
      some (Parabola.bend (point s₀) (point s₁) (point s₂) * ((1000 : Nat) * (1000 : Nat) * (2 : Nat))) := by
  have hx := sub_pos.mpr ((place_lt (K := K) h₁).trans (place_lt h₂))
  have hd : (seconds s₀.fst s₁.fst + seconds s₁.fst s₂.fst : K) * (1 / (2 : Nat)) =
      (s₂.fst.toNat - s₀.fst.toNat) / ((1000 : Nat) * (2 : Nat)) := by
    rw [seconds_eq (BitVec.le_of_lt h₁), seconds_eq (BitVec.le_of_lt h₂)]
    field_simp
    ring
  rw [acceleration, hs]
  dsimp only
  rw [if_neg (by simp [seconds_pos h₁, seconds_pos h₂]), rate_eq h₁, rate_eq h₂, hd, Parabola.bend]
  simp only [point]
  field_simp

theorem predict_eq (hs : p.samples = earlier ++ [s₁, s₂]) (h : s₁.fst < s₂.fst) :
    p.predict t = some (s₂.snd + Parabola.chord (point s₁) (point s₂) * (target s₂ p.maxHorizonMs t - s₂.fst.toNat) +
      p.acceleration.getD 0 * p.damping / ((1000 : Nat) * (1000 : Nat) * (2 : Nat)) *
        ((target s₂ p.maxHorizonMs t - s₂.fst.toNat) * (target s₂ p.maxHorizonMs t - s₂.fst.toNat))) := by
  have hn : (U64.lesser t (U64.saturatingAdd s₂.fst p.maxHorizonMs)).toNat =
      min t.toNat (s₂.fst.toNat + p.maxHorizonMs.toNat) := by
    rw [U64.toNat_lesser, U64.toNat_saturatingAdd]
    omega
  have hd : ∀ u : U64, (if s₂.fst ≤ u then seconds s₂.fst u else -seconds u s₂.fst : K) =
      (u.toNat - s₂.fst.toNat) / (1000 : Nat) := by
    intro u
    split
    case isTrue h  => exact seconds_eq h
    case isFalse h =>
      rw [seconds_eq (BitVec.le_of_lt (BitVec.not_le.mp h)), ← neg_div, neg_sub]
  have hl : p.samples.getLast? = some s₂ := by simp [hs]
  rw [predict, hl]
  dsimp only
  rw [hd, hn, velocity_eq hs h, Option.getD_some, ← target]
  congr 1
  field_simp

-- The prediction of a curve through the samples, and how far it is off.
theorem predict_curve {q : Parabola K} (hs : p.samples = [s₀, s₁, s₂]) (hd : p.damping = 1) (h₁ : s₀.fst < s₁.fst)
    (h₂ : s₁.fst < s₂.fst) (hq₀ : q.Through (point s₀)) (hq₁ : q.Through (point s₁)) (hq₂ : q.Through (point s₂)) :
    p.predict t = some (q.eval (target s₂ p.maxHorizonMs t) - Parabola.bend (point s₀) (point s₁) (point s₂) *
      ((target s₂ p.maxHorizonMs t - s₂.fst.toNat) * (s₂.fst.toNat - s₁.fst.toNat))) := by
  have he : p.samples = [s₀] ++ [s₁, s₂] := hs
  have hp := predict_eq (t := t) he h₂
  have hq := Parabola.eval_eq (t := target s₂ p.maxHorizonMs t) (place_lt h₁).ne' (place_lt h₂).ne'
    ((place_lt h₁).trans (place_lt h₂)).ne' hq₀ hq₁ hq₂
  rw [hp, hq, acceleration_eq hs h₁ h₂, hd, Option.getD_some, mul_one, mul_div_cancel_right₀ _ (by norm_num)]
  congr 1
  simp only [point]
  ring

-- The prediction passes through the samples, and goes along with the parabola through them up to the horizon.
structure Fits (p : TrajectoryPredictor K) (s₀ s₁ s₂ : U64 × K) : Prop where
  passes  : ∀ s ∈ [s₀, s₁, s₂], p.predict s.fst = some s.snd
  follows : ∀ q : Parabola K, q.Through (point s₀) → q.Through (point s₁) → q.Through (point s₂) →
    ∀ t, p.predict t = some (q.eval (target s₂ p.maxHorizonMs t))

theorem fits_iff (hs : p.samples = [s₀, s₁, s₂]) (hd : p.damping = 1) (h₁ : s₀.fst < s₁.fst)
    (h₂ : s₁.fst < s₂.fst) : p.Fits s₀ s₁ s₂ ↔ Parabola.bend (point s₀) (point s₁) (point s₂) = 0 := by
  have ht : ∀ s ∈ [s₀, s₁, s₂], target s₂ p.maxHorizonMs s.fst = (point s).fst := by
    intro s hm
    have h₁ := BitVec.lt_def.mp h₁
    have h₂ := BitVec.lt_def.mp h₂
    have hle : s.fst.toNat ≤ s₂.fst.toNat := by
      simp only [List.mem_cons, List.not_mem_nil, or_false] at hm
      obtain rfl | rfl | rfl := hm <;> omega
    exact congrArg Nat.cast (min_eq_left (by omega))
  have hx := place_lt (K := K) h₂
  obtain ⟨q, hq₀, hq₁, hq₂⟩ : ∃ q : Parabola K, q.Through (point s₀) ∧ q.Through (point s₁) ∧ q.Through (point s₂) :=
    Parabola.exists_through (place_lt h₁).ne' (place_lt h₂).ne' ((place_lt h₁).trans (place_lt h₂)).ne'
  constructor
  case mp =>
    intro hf
    have h := hf.passes s₁ (by simp)
    rw [predict_curve hs hd h₁ h₂ hq₀ hq₁ hq₂, ht s₁ (by simp), hq₁, Option.some.injEq] at h
    have hz : Parabola.bend (point s₀) (point s₁) (point s₂) *
        (((point s₁).fst - s₂.fst.toNat) * (s₂.fst.toNat - s₁.fst.toNat)) = 0 := sub_eq_self.mp h
    refine (mul_eq_zero.mp hz).resolve_right <| mul_ne_zero ?_ ?_
    case refine_1 => exact (sub_neg.mpr hx).ne
    case refine_2 => exact (sub_pos.mpr hx).ne'
  case mpr =>
    intro hb
    have hp {q : Parabola K} {t} (hq₀ : q.Through (point s₀)) (hq₁ : q.Through (point s₁))
        (hq₂ : q.Through (point s₂)) : p.predict t = some (q.eval (target s₂ p.maxHorizonMs t)) := by
      rw [predict_curve hs hd h₁ h₂ hq₀ hq₁ hq₂, hb, zero_mul, sub_zero]
    refine ⟨fun s hm => ?_, fun q hq₀ hq₁ hq₂ t => hp hq₀ hq₁ hq₂⟩
    rw [hp hq₀ hq₁ hq₂, ht s hm]
    simp only [List.mem_cons, List.not_mem_nil, or_false] at hm
    obtain rfl | rfl | rfl := hm
    · exact congrArg some hq₀
    · exact congrArg some hq₁
    · exact congrArg some hq₂

theorem predict_line {l : Line K} (hs : p.samples = earlier ++ [s₁, s₂]) (hd : p.damping = 0) (h : s₁.fst < s₂.fst)
    (hl₁ : l.eval s₁.fst.toNat = s₁.snd) (hl₂ : l.eval s₂.fst.toNat = s₂.snd) :
    p.predict t = some (l.eval (target s₂ p.maxHorizonMs t)) := by
  have hc : Parabola.chord (point s₁) (point s₂) = l.slope := by
    rw [Parabola.chord, point, point, ← hl₁, ← hl₂, div_eq_iff (sub_pos.mpr (place_lt h)).ne', Line.eval, Line.eval]
    ring
  rw [predict_eq hs h, hd, hc, ← hl₂, Line.eval, Line.eval]
  congr 1
  ring

-- If the change of the rate is left out, the line through the last two samples is drawn. If it is not, the parabola
-- through all three is drawn exactly if that is a line as well.
theorem trajectory_iff (horizon : U64) (h : accepted samples = earlier ++ [s₀, s₁, s₂]) :
    (((new 1 horizon).observeAll samples).Fits s₀ s₁ s₂ ↔
      (s₁.snd - s₀.snd) * (s₂.fst.toNat - s₁.fst.toNat) = (s₂.snd - s₁.snd) * (s₁.fst.toNat - s₀.fst.toNat)) ∧
    ∀ l : Line K, l.eval s₁.fst.toNat = s₁.snd → l.eval s₂.fst.toNat = s₂.snd →
      ∀ t, ((new 0 horizon).observeAll samples).predict t = some (l.eval (target s₂ horizon t)) := by
  have hsort : (accepted samples).Pairwise (·.fst < ·.fst) := accepted_sorted
  rw [h, List.pairwise_append] at hsort
  obtain ⟨h₁, h₂⟩ : s₀.fst < s₁.fst ∧ s₁.fst < s₂.fst := by
    have hs := hsort.right.left
    simp only [List.pairwise_cons, List.mem_cons, List.not_mem_nil, or_false, forall_eq_or_imp, forall_eq] at hs
    exact ⟨hs.left.left, hs.right.left⟩
  have hs (damping : K) : ((new damping horizon).observeAll samples).samples = [s₀, s₁, s₂] := by
    rw [observeAll_eq, h, List.rtake, List.length_append]
    simp
  have hd {damping : K} : ((new damping horizon).observeAll samples).damping = max 0 (min damping 1) := by
    rw [observeAll_eq]
    rfl
  have hh {damping : K} : ((new damping horizon).observeAll samples).maxHorizonMs = horizon := by
    rw [observeAll_eq]
    rfl
  constructor
  case left =>
    rw [fits_iff (hs 1) (by rw [hd]; simp) h₁ h₂, Parabola.bend_eq_zero_iff (place_lt h₁).ne' (place_lt h₂).ne'
      ((place_lt h₁).trans (place_lt h₂)).ne']
    rfl
  case right =>
    intro l hl₁ hl₂ t
    have he : ((new 0 horizon).observeAll samples).samples = [s₀] ++ [s₁, s₂] := hs 0
    have hp := predict_line (t := t) he (by rw [hd]; simp) h₂ hl₁ hl₂
    rw [hp, hh]

theorem trajectory_line : ((new (1 : ℚ) 500).observeAll [(0, 0), (100, 1), (50, 9), (300, 3)]).Fits (0, 0) (100, 1)
    (300, 3) := by
  have h : accepted [((0 : U64), (0 : ℚ)), (100, 1), (50, 9), (300, 3)] = [] ++ [(0, 0), (100, 1), (300, 3)] := rfl
  exact (trajectory_iff 500 h).left.mpr (by decide +kernel)

-- Of a curve the second sample is missed.
theorem curve_missed :
    ¬∀ {K : Type} [Field K] [LinearOrder K] [IsStrictOrderedRing K] (horizon : U64) (samples : List (U64 × K))
      (s₀ s₁ s₂ : U64 × K), accepted samples = [s₀, s₁, s₂] →
      ((new 1 horizon).observeAll samples).predict s₁.fst = some s₁.snd := by
  intro h
  have h := h (K := ℚ) 500 [(0, 0), (100, 1), (200, 4)] _ _ _ rfl
  revert h
  decide +kernel

end Plaza.ClientUtils.TrajectoryPredictor
