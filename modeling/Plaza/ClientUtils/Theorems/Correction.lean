import Mathlib.Algebra.Order.Archimedean.Basic
import Mathlib.Analysis.Real.Sqrt
import Mathlib.Tactic.FieldSimp
import Mathlib.Tactic.Linarith
import Mathlib.Tactic.LinearCombination
import Mathlib.Tactic.Positivity
import Mathlib.Tactic.Ring
import Plaza.ClientUtils.Correction
import Plaza.Lib.LeastSquares

namespace Plaza.ClientUtils.CorrectionMonitor

variable {K : Type*} [Field K] [LinearOrder K]

-- What the library's square root is in exact arithmetic.
structure IsSqrt (sqrt : K → K) : Prop where
  nonneg : ∀ x, 0 ≤ x → 0 ≤ sqrt x
  mul    : ∀ x, 0 ≤ x → sqrt x * sqrt x = x

-- What a monitor is told.
inductive Op (K : Type*)
  | record (magnitude : Option K)
  | reset

variable {sqrt : K → K} {m m' : CorrectionMonitor K} {x y c : K} {ops : List (Op K)} {op : Op K} {n learned : Nat}

def apply (sqrt : K → K) (m : CorrectionMonitor K) : Op K → CorrectionMonitor K
  | .record magnitude => (m.record sqrt magnitude).fst
  | .reset            => m.reset

def run (sqrt : K → K) (m : CorrectionMonitor K) (ops : List (Op K)) : CorrectionMonitor K :=
  ops.foldl (apply sqrt) m

-- The monitor after so many records of one magnitude.
def after (sqrt : K → K) (m : CorrectionMonitor K) (x : K) (n : Nat) : CorrectionMonitor K :=
  (fun m => (m.record sqrt (some x)).fst)^[n] m

-- A monitor which was set up to follow its samples, with a deviation that can be one.
structure Sound (m : CorrectionMonitor K) : Prop where
  alpha_pos : 0 < m.alpha
  alpha_le  : m.alpha ≤ 1
  sigma     : 1 ≤ m.sigma
  floor     : 0 ≤ m.floor
  var       : 0 ≤ m.var

-- The rate at which the next sample counts, and what is left of it.
def rate (m : CorrectionMonitor K) : K :=
  if m.isWarmingUp then max m.alpha (1 / (m.samples + 1)) else m.alpha

def sample (sqrt : K → K) (m : CorrectionMonitor K) (x : K) : K :=
  if m.isWarmingUp then max x 0 else min (max x 0) (m.threshold sqrt)

theorem mean_record : (m.record sqrt (some x)).fst.mean = m.mean + m.rate * (m.sample sqrt x - m.mean) := rfl

theorem var_record : (m.record sqrt (some x)).fst.var = (1 - m.rate) * m.var +
    m.rate * ((m.sample sqrt x - m.mean) * (m.sample sqrt x - m.mean)) := by
  change m.var + m.rate * ((m.sample sqrt x - m.mean) * (m.sample sqrt x - m.mean) - m.var) = _
  ring

namespace Sound

theorem rate_pos (h : m.Sound) : 0 < m.rate := by
  unfold rate
  split
  case isTrue  => exact h.alpha_pos.trans_le (le_max_left ..)
  case isFalse => exact h.alpha_pos

theorem floor_le_band : m.floor ≤ m.band sqrt :=
  le_max_right ..

theorem band_nonneg (h : m.Sound) : 0 ≤ m.band sqrt :=
  h.floor.trans floor_le_band

variable [IsStrictOrderedRing K]

theorem rate_le (h : m.Sound) : m.rate ≤ 1 := by
  unfold rate
  split
  case isTrue  => exact max_le h.alpha_le (div_le_one_of_le₀ (by simp) (by positivity))
  case isFalse => exact h.alpha_le

theorem record (h : m.Sound) : (m.record sqrt (some x)).fst.Sound where
  alpha_pos := h.alpha_pos
  alpha_le  := h.alpha_le
  sigma     := h.sigma
  floor     := h.floor
  var       := by
    rw [var_record]
    exact add_nonneg (mul_nonneg (sub_nonneg.mpr h.rate_le) h.var) (mul_nonneg h.rate_pos.le (mul_self_nonneg _))

theorem apply (h : m.Sound) : (m.apply sqrt op).Sound := by
  cases op
  case record magnitude =>
    cases magnitude
    case none   => exact h
    case some x => exact h.record
  case reset => exact ⟨h.alpha_pos, h.alpha_le, h.sigma, h.floor, le_rfl⟩

theorem run (h : m.Sound) : (m.run sqrt ops).Sound := by
  induction ops generalizing m
  case nil          => exact h
  case cons op _ ih => exact ih h.apply

theorem after (h : m.Sound) : (m.after sqrt x n).Sound := by
  induction n generalizing m
  case zero      => exact h
  case succ _ ih => exact ih h.record

variable (hs : IsSqrt sqrt)

include hs

theorem root_le_band (h : m.Sound) : sqrt m.var ≤ m.band sqrt := by
  rw [band, max_eq_left h.var]
  exact (le_mul_of_one_le_left (hs.nonneg _ h.var) h.sigma).trans (le_max_left ..)

theorem var_le_band (h : m.Sound) : m.var ≤ m.band sqrt * m.band sqrt :=
  hs.mul _ h.var ▸ mul_self_le_mul_self (hs.nonneg _ h.var) (h.root_le_band hs)

theorem band_pos (h : m.Sound) (hv : 0 < m.var) : 0 < m.band sqrt := by
  refine lt_of_lt_of_le ?_ (h.root_le_band hs)
  refine (hs.nonneg _ h.var).lt_of_ne fun hz => hv.ne ?_
  rw [← hs.mul _ h.var, ← hz, mul_zero]

end Sound

-- The monitor can leave a magnitude behind: it has no baseline yet, or a band to climb by, or nothing to climb.
def Movable (sqrt : K → K) (m : CorrectionMonitor K) (x : K) : Prop :=
  m.isWarmingUp ∨ 0 < m.band sqrt ∨ max x 0 ≤ m.mean

variable [IsStrictOrderedRing K] (hs : IsSqrt sqrt)

include hs

-- A sample apart from the mean leaves a deviation.
theorem band_pos_of_sample_ne (h : m.Sound) (hne : m.sample sqrt x ≠ m.mean) :
    0 < (m.record sqrt (some x)).fst.band sqrt := by
  refine h.record.band_pos hs ?_
  rw [var_record]
  have hp : 0 < (m.sample sqrt x - m.mean) * (m.sample sqrt x - m.mean) :=
    mul_self_pos.mpr (sub_ne_zero.mpr hne)
  exact add_pos_of_nonneg_of_pos (mul_nonneg (sub_nonneg.mpr h.rate_le) h.var) (mul_pos h.rate_pos hp)

theorem Movable.record (h : m.Sound) (hm : m.Movable sqrt x) : (m.record sqrt (some x)).fst.Movable sqrt x := by
  by_cases hne : m.sample sqrt x = m.mean
  case neg => exact .inr (.inl (band_pos_of_sample_ne hs h hne))
  case pos =>
    refine .inr (.inr ?_)
    rw [mean_record, hne, sub_self, mul_zero, add_zero]
    rw [sample] at hne
    split at hne
    case isTrue    => exact hne.le
    case isFalse h =>
      cases hm.resolve_left h
      case inl hb =>
        refine le_of_not_gt fun hlt => ?_
        rw [threshold] at hne
        exact (lt_min hlt (lt_add_of_pos_right _ hb)).ne' hne
      case inr hm => exact hm

theorem sqrt_le_sqrt (hx : 0 ≤ x) (h : x ≤ y) : sqrt x ≤ sqrt y := by
  by_contra! hlt
  have := mul_self_lt_mul_self (hs.nonneg y (hx.trans h)) hlt
  rw [hs.mul _ hx, hs.mul _ (hx.trans h)] at this
  exact this.not_ge h

omit [IsStrictOrderedRing K] hs in
theorem sample_of_le (hw : ¬m.isWarmingUp) (h : max x 0 ≤ m.threshold sqrt) : m.sample sqrt x = max x 0 := by
  rw [sample, if_neg hw, min_eq_left h]

omit [IsStrictOrderedRing K] hs in
theorem sample_of_lt (hw : ¬m.isWarmingUp) (h : m.threshold sqrt < max x 0) : m.sample sqrt x = m.threshold sqrt := by
  rw [sample, if_neg hw, min_eq_right h.le]

omit [IsStrictOrderedRing K] hs in
theorem rate_of_not_warming (hw : ¬m.isWarmingUp) : m.rate = m.alpha :=
  if_neg hw

omit [IsStrictOrderedRing K] hs in
theorem not_warming_record (hw : ¬m.isWarmingUp) : ¬(m.record sqrt (some x)).fst.isWarmingUp := by
  simp only [isWarmingUp, decide_eq_true_iff, not_lt] at hw ⊢
  exact Nat.le_succ_of_le hw

-- Once the threshold has reached a magnitude, recording it again leaves the threshold above it.
theorem threshold_reached (h : m.Sound) (hw : ¬m.isWarmingUp) (hx : max x 0 ≤ m.threshold sqrt) :
    max x 0 ≤ (m.record sqrt (some x)).fst.threshold sqrt := by
  have hb : 0 ≤ (m.record sqrt (some x)).fst.band sqrt := h.record.band_nonneg
  have hv := @var_record _ _ _ sqrt m x
  rw [threshold, mean_record]
  rw [sample_of_le hw hx, rate_of_not_warming hw] at hv ⊢
  rw [threshold, ← sub_le_iff_le_add'] at hx
  obtain ⟨d, hd⟩ : ∃ d, max x 0 - m.mean = d := ⟨_, rfl⟩
  rw [hd] at hx hv ⊢
  rw [sub_eq_iff_eq_add'.mp hd]
  by_cases hp : d ≤ 0
  case pos =>
    have := mul_nonpos_of_nonneg_of_nonpos (sub_nonneg.mpr h.alpha_le) hp
    linarith
  case neg =>
    -- The deviation grows by as much as the sample is off.
    have hle : d ≤ (m.record sqrt (some x)).fst.band sqrt := by
      cases le_max_iff.mp hx
      case inr hf => exact hf.trans (le_max_right ..)
      case inl hr =>
        rw [max_eq_left h.var] at hr
        refine le_trans ?_ (le_max_left ..)
        rw [max_eq_left h.record.var]
        change d ≤ m.sigma * sqrt (m.record sqrt (some x)).fst.var
        have hs1 : 0 ≤ m.sigma := zero_le_one.trans h.sigma
        have hn := hs.nonneg _ (@Sound.record _ _ _ sqrt m x _ h).var
        refine le_of_not_gt fun hlt => ?_
        have hlt := mul_self_lt_mul_self (mul_nonneg hs1 hn) hlt
        have hge := mul_self_le_mul_self (not_le.mp hp).le hr
        rw [mul_mul_mul_comm, hs.mul _ h.var] at hge
        rw [mul_mul_mul_comm, hs.mul _ h.record.var, hv] at hlt
        have hσ : 1 ≤ m.sigma * m.sigma := one_le_mul_of_one_le_of_one_le h.sigma h.sigma
        have h₁ := mul_le_mul_of_nonneg_left hge (sub_nonneg.mpr h.alpha_le)
        have h₂ := le_mul_of_one_le_left (mul_nonneg h.alpha_pos.le (mul_self_nonneg d)) hσ
        linarith
    have := mul_nonneg h.alpha_pos.le (not_le.mp hp).le
    linarith

-- A magnitude above the threshold lifts the mean by a part of the band, and the band stays as wide.
theorem climbs (h : m.Sound) (hw : ¬m.isWarmingUp) (hx : m.threshold sqrt < max x 0) :
    (m.record sqrt (some x)).fst.mean = m.mean + m.alpha * m.band sqrt ∧
      m.band sqrt ≤ (m.record sqrt (some x)).fst.band sqrt := by
  have hd : m.sample sqrt x - m.mean = m.band sqrt := by rw [sample_of_lt hw hx, threshold, add_sub_cancel_left]
  constructor
  case left  => rw [mean_record, hd, rate_of_not_warming hw]
  case right =>
    have hv : m.var ≤ (m.record sqrt (some x)).fst.var := by
      rw [var_record, hd, rate_of_not_warming hw]
      have := mul_le_mul_of_nonneg_left (h.var_le_band hs) h.alpha_pos.le
      linarith
    rw [band, band, max_eq_left h.var, max_eq_left h.record.var]
    exact max_le_max_right _ <|
      mul_le_mul_of_nonneg_left (sqrt_le_sqrt hs h.var hv) (zero_le_one.trans h.sigma)

section

omit [IsStrictOrderedRing K] hs

theorem after_succ : m.after sqrt x (n + 1) = ((m.after sqrt x n).record sqrt (some x)).fst :=
  Function.iterate_succ_apply' ..

theorem after_add {k : Nat} : m.after sqrt x (n + k) = (m.after sqrt x k).after sqrt x n :=
  Function.iterate_add_apply ..

theorem not_warming_after (hw : ¬m.isWarmingUp) : ¬(m.after sqrt x n).isWarmingUp := by
  induction n
  case zero       => exact hw
  case succ n ih =>
    rw [after_succ]
    exact not_warming_record ih

theorem alpha_after : (m.after sqrt x n).alpha = m.alpha := by
  induction n
  case zero      => rfl
  case succ n ih => rw [after_succ]; exact ih

theorem samples_after : (m.after sqrt x n).samples = m.samples + n ∧ (m.after sqrt x n).warmup = m.warmup := by
  induction n
  case zero      => exact ⟨rfl, rfl⟩
  case succ n ih =>
    rw [after_succ]
    exact ⟨congrArg (· + 1) ih.left, ih.right⟩

theorem flagged_iff : (m.record sqrt (some x)).snd = true ↔ ¬m.isWarmingUp ∧ m.threshold sqrt < max x 0 := by
  simp [record]

end

theorem movable_after (h : m.Sound) (hm : m.Movable sqrt x) : (m.after sqrt x n).Movable sqrt x := by
  induction n
  case zero      => exact hm
  case succ n ih =>
    rw [after_succ]
    exact ih.record hs h.after

-- By induction over the records, as long as they are flagged.
theorem climbs_after (h : m.Sound) (hw : ¬m.isWarmingUp)
    (hx : ∀ k < n, (m.after sqrt x k).threshold sqrt < max x 0) :
    m.mean + n * (m.alpha * m.band sqrt) ≤ (m.after sqrt x n).mean ∧
      m.band sqrt ≤ (m.after sqrt x n).band sqrt := by
  induction n
  case zero      => simp [after]
  case succ n ih =>
    obtain ⟨hm, hb⟩ := ih fun k hk => hx k (Nat.lt_succ_of_lt hk)
    obtain ⟨hm', hb'⟩ := climbs hs (@Sound.after _ _ _ sqrt m x n _ h) (not_warming_after hw) (hx n n.lt_succ_self)
    rw [after_succ]
    refine ⟨?_, hb.trans hb'⟩
    rw [hm', alpha_after, Nat.cast_succ, add_one_mul]
    have := mul_le_mul_of_nonneg_left hb h.alpha_pos.le
    linarith

theorem exists_reached [Archimedean K] (h : m.Sound) (hw : ¬m.isWarmingUp) (hm : m.Movable sqrt x) :
    ∃ k, max x 0 ≤ (m.after sqrt x k).threshold sqrt := by
  by_contra! hx
  have hb : 0 < m.band sqrt := by
    refine (hm.resolve_left hw).resolve_right fun hle => (hx 0).not_ge ?_
    exact hle.trans (le_add_of_nonneg_right h.band_nonneg)
  obtain ⟨n, hn⟩ := Archimedean.arch (max x 0 - m.mean) (mul_pos h.alpha_pos hb)
  rw [nsmul_eq_mul] at hn
  obtain ⟨hm, _⟩ := climbs_after hs h hw fun k _ => hx k
  have hlt := hx n
  have := @Sound.band_nonneg _ _ _ sqrt _ (@Sound.after _ _ _ sqrt m x n _ h)
  rw [threshold] at hlt
  linarith

theorem reached_after {k : Nat} (h : m.Sound) (hw : ¬m.isWarmingUp)
    (hx : max x 0 ≤ (m.after sqrt x k).threshold sqrt) (hk : k ≤ n) :
    max x 0 ≤ (m.after sqrt x n).threshold sqrt := by
  induction n, hk using Nat.le_induction
  case base           => exact hx
  case succ n _ ih =>
    rw [after_succ]
    exact threshold_reached hs h.after (not_warming_after hw) ih

theorem not_movable_record (h : m.Sound) (hm : ¬m.Movable sqrt x) :
    ¬(m.record sqrt (some x)).fst.Movable sqrt x ∧ (m.record sqrt (some x)).snd = true := by
  obtain ⟨hw, hb, hx⟩ := not_or.mp hm |>.imp_right not_or.mp
  have hb : m.band sqrt = 0 := le_antisymm (not_lt.mp hb) h.band_nonneg
  have hv : m.var = 0 := le_antisymm (not_lt.mp fun hv => (h.band_pos hs hv).ne' hb) h.var
  have hx : m.threshold sqrt < max x 0 := by rw [threshold, hb, add_zero]; exact not_le.mp hx
  have hd : m.sample sqrt x - m.mean = 0 := by rw [sample_of_lt hw hx, threshold, hb, add_sub_cancel_left]
  refine ⟨?_, flagged_iff.mpr ⟨hw, hx⟩⟩
  have hv' : (m.record sqrt (some x)).fst.var = m.var := by
    rw [var_record, hd, hv, mul_zero, mul_zero, mul_zero, add_zero]
  have hm' : (m.record sqrt (some x)).fst.mean = m.mean := by rw [mean_record, hd, mul_zero, add_zero]
  have hb' : (m.record sqrt (some x)).fst.band sqrt = m.band sqrt := by
    rw [band, band, hv']
    rfl
  rw [Movable, hb', hm']
  exact not_or.mpr ⟨not_warming_record hw, (not_or.mp hm).right⟩

theorem not_movable_after (h : m.Sound) (hm : ¬m.Movable sqrt x) : ¬(m.after sqrt x n).Movable sqrt x := by
  induction n
  case zero      => exact hm
  case succ n ih =>
    rw [after_succ]
    exact (not_movable_record hs h.after ih).left

theorem quiet_iff [Archimedean K] (h : m.Sound) :
    (∃ n, ∀ k, n ≤ k → ((m.after sqrt x k).record sqrt (some x)).snd = false) ↔ m.Movable sqrt x := by
  constructor
  case mp =>
    rintro ⟨n, hn⟩
    by_contra hm
    have := (not_movable_record hs h.after (not_movable_after (n := n) hs h hm)).right
    exact absurd (hn n le_rfl) (by simp [this])
  case mpr =>
    intro hm
    have hw : ¬(m.after sqrt x m.warmup).isWarmingUp := by
      obtain ⟨hs, hw⟩ := @samples_after _ _ _ sqrt m x m.warmup
      simp [isWarmingUp, hs, hw]
    obtain ⟨k, hk⟩ := exists_reached hs h.after hw (movable_after hs h hm)
    refine ⟨k + m.warmup, fun n hn => ?_⟩
    obtain ⟨d, rfl⟩ := Nat.exists_eq_add_of_le hn
    have := reached_after hs h.after hw hk (Nat.le_add_right k d)
    rw [Nat.add_right_comm, after_add]
    exact Bool.eq_false_iff.mpr fun hf => this.not_gt (flagged_iff.mp hf).right

omit [IsStrictOrderedRing K] hs in
-- A monitor as it is set up.
def configured (warmup : Nat) (smoothing sigma floor : K) : CorrectionMonitor K :=
  new.withWarmup warmup |>.withSmoothing smoothing |>.withSigma sigma |>.withFloor floor

omit hs in
theorem configured_sound {smoothing sigma floor : K} (ha : 0 < smoothing) (hσ : 1 ≤ sigma) :
    (configured n smoothing sigma floor).Sound where
  alpha_pos := lt_max_of_lt_right (lt_min ha one_pos)
  alpha_le  := max_le zero_le_one (min_le_right ..)
  sigma     := hσ.trans (le_max_left ..)
  floor     := le_max_right ..
  var       := le_rfl

-- A magnitude stops being flagged exactly if it is recorded while there is no baseline yet, or a band, or if it is
-- not above the mean.
theorem recentres_iff [Archimedean K] {smoothing sigma floor : K} (ha : 0 < smoothing) (hσ : 1 ≤ sigma) :
    (∃ n, ∀ k, n ≤ k → ((((configured learned smoothing sigma floor).run sqrt ops).after sqrt x k).record sqrt
      (some x)).snd = false) ↔
    ((configured learned smoothing sigma floor).run sqrt ops).isWarmingUp ∨
      0 < ((configured learned smoothing sigma floor).run sqrt ops).band sqrt ∨
      max x 0 ≤ ((configured learned smoothing sigma floor).run sqrt ops).norm :=
  quiet_iff hs (configured_sound ha hσ).run

omit [IsStrictOrderedRing K] hs

theorem isSqrt_real : IsSqrt Real.sqrt where
  nonneg x _ := Real.sqrt_nonneg x
  mul _ hx   := Real.mul_self_sqrt hx

theorem recentres_while_learning : ∃ n, ∀ k, n ≤ k →
    ((((configured 32 (1 / 2) 4 0).run Real.sqrt []).after Real.sqrt 40 k).record Real.sqrt (some 40)).snd = false :=
  (recentres_iff isSqrt_real one_half_pos (by norm_num)).mpr <| .inl <| decide_eq_true (by decide : 0 < 32)

-- A monitor which has seen perfect predictions only.
structure Blank (m : CorrectionMonitor K) : Prop where
  mean  : m.mean = 0
  var   : m.var = 0
  floor : m.floor = 0

namespace Blank

variable (hs : IsSqrt sqrt)

include hs

theorem band (h : m.Blank) : m.band sqrt = 0 := by
  have hz : sqrt 0 = 0 := mul_self_eq_zero.mp (hs.mul 0 le_rfl)
  rw [CorrectionMonitor.band, h.var, h.floor, max_self, hz, mul_zero, max_self]

theorem record (h : m.Blank) : (m.record sqrt (some 0)).fst.Blank := by
  have hd : m.sample sqrt 0 - m.mean = 0 := by
    rw [sample, threshold, h.band hs, h.mean, max_self, add_zero, min_self, ite_self, sub_zero]
  refine ⟨?_, ?_, h.floor⟩
  case refine_1 => rw [mean_record, hd, h.mean, mul_zero, add_zero]
  case refine_2 => rw [var_record, hd, h.var, mul_zero, mul_zero, mul_zero, add_zero]

theorem after (h : m.Blank) : (m.after sqrt 0 n).Blank := by
  induction n
  case zero      => exact h
  case succ n ih =>
    rw [after_succ]
    exact ih.record hs

end Blank

-- Perfect predictions while the baseline is learned leave no band: with the defaults, corrections of one are then
-- abnormal for ever.
theorem alarms_forever : ¬∃ n, ∀ k, n ≤ k →
    ((((new : CorrectionMonitor ℝ).after Real.sqrt 0 32).after Real.sqrt 1 k).record Real.sqrt (some 1)).snd = false := by
  have hb : (new : CorrectionMonitor ℝ).Blank := ⟨rfl, rfl, rfl⟩
  have hb := hb.after isSqrt_real (n := 32)
  have hs : (new : CorrectionMonitor ℝ).Sound :=
    ⟨by norm_num [new], by norm_num [new], by norm_num [new], le_rfl, le_rfl⟩
  rw [quiet_iff isSqrt_real hs.after, Movable, hb.band isSqrt_real, hb.mean]
  have hw : ¬((new : CorrectionMonitor ℝ).after Real.sqrt 0 32).isWarmingUp := by
    rw [isWarmingUp, decide_eq_true_iff, samples_after.left, samples_after.right]
    exact lt_irrefl 32
  simp [hw]

-- The monitor after these magnitudes.
def heard (sqrt : K → K) (m : CorrectionMonitor K) (xs : List K) : CorrectionMonitor K :=
  m.run sqrt <| xs.map fun x => .record (some x)

variable {xs before rest : List K}

theorem heard_snoc : m.heard sqrt (xs ++ [x]) = ((m.heard sqrt xs).record sqrt (some x)).fst := by
  simp [heard, run, apply]

theorem setup_heard : (m.heard sqrt xs).samples = m.samples + xs.length ∧ (m.heard sqrt xs).warmup = m.warmup ∧
    (m.heard sqrt xs).alpha = m.alpha := by
  induction xs using List.reverseRecOn
  case nil => exact ⟨rfl, rfl, rfl⟩
  case append_singleton xs x ih =>
    rw [heard_snoc, List.length_append]
    exact ⟨congrArg (· + 1) ih.left, ih.right⟩

theorem mean_eq_zero (h : ∀ y ∈ xs, y ≤ 0) : Line.mean (max · 0) xs = 0 := by
  have hz : (xs.map (max · 0)).sum = 0 := by
    refine List.sum_eq_zero fun _ hy => ?_
    obtain ⟨y, hm, rfl⟩ := List.mem_map.mp hy
    exact max_eq_right (h y hm)
  rw [Line.mean, hz, zero_div]

-- How the baseline stands after its first samples. Its deviation is in excess, unless they are all zero.
structure Learned (xs : List K) (s : CorrectionMonitor K) (excess : K) : Prop where
  mean     : s.mean = Line.mean (max · 0) xs
  var      : xs.length * s.var = Line.spread (max · 0) xs + excess
  nonneg   : 0 ≤ excess
  zero_iff : excess = 0 ↔ ∀ y ∈ xs, y ≤ 0

variable [IsStrictOrderedRing K]

-- The configured rate does not come into it.
theorem rate_of_warming (hw : m.isWarmingUp) (ha : m.warmup * m.alpha ≤ 1) (h0 : 0 ≤ m.alpha) :
    m.rate = 1 / (m.samples + 1) := by
  have hn : (m.samples + 1 : K) ≤ m.warmup := by exact_mod_cast of_decide_eq_true hw
  have hp : (0 : K) < m.samples + 1 := by exact_mod_cast m.samples.succ_pos
  rw [rate, if_pos hw, max_eq_right]
  rw [le_div_iff₀ hp, mul_comm]
  exact (mul_le_mul_of_nonneg_right hn h0).trans ha

theorem Learned.record {s : CorrectionMonitor K} {e : K} (h : Learned xs s e) (hw : s.isWarmingUp)
    (hr : s.rate = 1 / (xs.length + 1)) : ∃ e', Learned (xs ++ [x]) (s.record sqrt (some x)).fst e' := by
  obtain ⟨d, hd⟩ : ∃ d, max x 0 - Line.mean (max · 0) xs = d := ⟨_, rfl⟩
  have hn : (0 : K) < xs.length + 1 := by exact_mod_cast xs.length.succ_pos
  have hs : s.sample sqrt x - s.mean = d := by rw [sample, if_pos hw, h.mean, hd]
  refine ⟨e + d * d / (xs.length + 1), ?_, ?_, ?_, ?_⟩
  case refine_1 => rw [mean_record, hs, hr, h.mean, Line.mean_snoc, hd]
  case refine_2 =>
    have hv := h.var
    rw [var_record, hs, hr, Line.spread_snoc, hd, List.length_append, List.length_singleton, Nat.cast_add, Nat.cast_one]
    field_simp
    linear_combination (xs.length + 1 : K) * hv
  case refine_3 => exact add_nonneg h.nonneg (div_nonneg (mul_self_nonneg d) hn.le)
  case refine_4 =>
    rw [add_eq_zero_iff_of_nonneg h.nonneg (div_nonneg (mul_self_nonneg d) hn.le), h.zero_iff, div_eq_zero_iff,
      or_iff_left hn.ne', mul_self_eq_zero, List.forall_mem_append, List.forall_mem_singleton]
    refine and_congr_right fun hx => ?_
    rw [← hd, mean_eq_zero hx, sub_zero, max_eq_right_iff]

-- By induction over the samples.
theorem heard_learned (hs : m.samples = 0) (hm : m.mean = 0) (ha : m.warmup * m.alpha ≤ 1)
    (h0 : 0 ≤ m.alpha) (hl : xs.length ≤ m.warmup) : ∃ e, Learned xs (m.heard sqrt xs) e := by
  induction xs using List.reverseRecOn
  case nil => exact ⟨0, by simp [heard, run, hm, Line.mean], by simp [Line.spread], le_rfl, by simp⟩
  case append_singleton xs x ih =>
    rw [List.length_append, List.length_singleton] at hl
    obtain ⟨e, he⟩ := ih (Nat.le_of_succ_le hl)
    obtain ⟨hn, hw, hα⟩ := @setup_heard _ _ _ sqrt m xs
    have hw' : (m.heard sqrt xs).isWarmingUp := decide_eq_true (by rw [hn, hw, hs, zero_add]; exact hl)
    have hr := rate_of_warming hw' (by rw [hw, hα]; exact ha) (by rw [hα]; exact h0)
    rw [hn, hs, zero_add] at hr
    rw [heard_snoc]
    exact he.record hw' hr

-- The mean of the first samples is exact, but for their variance the deviations are taken from the mean before each
-- sample: it comes out too large, unless all of the samples are zero.
theorem learns_variance_iff {smoothing sigma floor : K}
    (ha : learned * (configured learned smoothing sigma floor).alpha ≤ 1) (hl : xs.length ≤ learned) :
    ((∀ before x rest, xs = before ++ x :: rest →
        (((configured learned smoothing sigma floor).heard sqrt before).record sqrt (some x)).snd = false) ∧
      ((configured learned smoothing sigma floor).heard sqrt xs).norm = Line.mean (max · 0) xs ∧
      ((configured learned smoothing sigma floor).heard sqrt xs).var = Line.spread (max · 0) xs / xs.length) ↔
    ∀ x ∈ xs, x ≤ 0 := by
  obtain ⟨e, he⟩ := @heard_learned _ _ _ sqrt (configured learned smoothing sigma floor) xs _ rfl rfl ha
    (le_max_left ..) hl
  have hf (before x rest) (hx : xs = before ++ x :: rest) :
      (((configured learned smoothing sigma floor).heard sqrt before).record sqrt (some x)).snd = false := by
    refine Bool.eq_false_iff.mpr fun hf => (flagged_iff.mp hf).left <| decide_eq_true ?_
    rw [setup_heard.left, setup_heard.right.left]
    have hl : before.length + (rest.length + 1) ≤ learned := by
      rw [hx, List.length_append, List.length_cons] at hl
      exact hl
    change 0 + before.length < learned
    omega
  rw [and_iff_right hf, norm, and_iff_right he.mean, ← he.zero_iff]
  by_cases hx : xs = []
  case pos =>
    subst hx
    simpa [heard, run, configured, withFloor, withSigma, withSmoothing, withWarmup, new, Line.spread]
      using he.zero_iff.mpr (by simp)
  case neg =>
    have hn : (xs.length : K) ≠ 0 := Nat.cast_ne_zero.mpr <| List.length_pos_iff.mpr hx |>.ne'
    rw [eq_div_iff hn, mul_comm, he.var, add_eq_left]

theorem learns_from_zeros : ((configured 32 (3 / 100) 4 0).heard Real.sqrt [0, -1]).var =
    Line.spread (max · 0) [0, -1] / ([0, -1] : List ℝ).length :=
  ((learns_variance_iff (by norm_num [configured, withFloor, withSigma, withSmoothing]) (by simp)).mpr
    (by simp)).right.right

-- With the defaults, a single sample of one has a deviation of one.
theorem learns_excess : ((new : CorrectionMonitor ℝ).heard Real.sqrt [1]).var = 1 ∧
    Line.spread (max · (0 : ℝ)) [1] / ([1] : List ℝ).length = 0 := by
  constructor
  case left  => norm_num [heard, run, apply, record, new, isWarmingUp]
  case right => norm_num [Line.spread, Line.mean]

end Plaza.ClientUtils.CorrectionMonitor
