import Mathlib.Topology.MetricSpace.Pseudo.Defs
import Mathlib.Tactic.Linarith
import Mathlib.Tactic.FieldSimp
import Plaza.ClientUtils.HeldInput

namespace Plaza.ClientUtils.HeldInputPredictor

variable {σ ι κ : Type*} {p : HeldInputPredictor σ ι κ ℝ} {auth : σ} {dt age : ℝ}

-- Where a correction leads to.
def target (p : HeldInputPredictor σ ι κ ℝ) (authoritative : σ) (age : ℝ) : σ :=
  if p.active then p.project authoritative age else authoritative

-- A correction snaps to its target, or goes the part of the way to it that the blend says.
theorem reconcile_cases : (p.reconcile auth age).fst = { p with state := p.target auth age } ∨
    (p.reconcile auth age).fst = { p with state := p.lerp p.state (p.target auth age) p.blend } := by
  unfold reconcile target
  cases p.active
  case false => exact .inl rfl
  case true =>
    simp only [Bool.not_true, Bool.false_eq_true, ↓reduceIte]
    split
    case isTrue  => exact .inl rfl
    case isFalse => exact .inr rfl

-- A predicted entity, and where it really is on the server by now.
structure Pursuit (σ ι κ : Type*) where
  player : HeldInputPredictor σ ι κ ℝ
  truth  : σ

-- The server moves the entity by the same rule, too, but for what it knows better.
def Pursuit.expected (s : Pursuit σ ι κ) (dt : ℝ) : σ :=
  ((s.player.teleport s.truth).advance dt).state

variable [PseudoMetricSpace σ] {s s₀ : Pursuit σ ι κ} {δ η drift : ℝ} {n : Nat}

-- A course of the pursuit with `n` corrections, and what the server has drifted since the last of them. It never
-- drifts by more than `η` between two corrections, and these lead to within `δ` of where the entity is.
inductive Course (δ η : ℝ) (s₀ : Pursuit σ ι κ) : Pursuit σ ι κ → Nat → ℝ → Prop
  | start : Course δ η s₀ s₀ 0 0
  | advance {s : Pursuit σ ι κ} {n : Nat} {drift : ℝ} (dt : ℝ) (truth : σ) :
    Course δ η s₀ s n drift → drift + dist (s.expected dt) truth ≤ η →
    Course δ η s₀ ⟨s.player.advance dt, truth⟩ n (drift + dist (s.expected dt) truth)
  | reconcile {s : Pursuit σ ι κ} {n : Nat} {drift : ℝ} (auth : σ) (age : ℝ) :
    Course δ η s₀ s n drift → dist (s.player.target auth age) s.truth ≤ δ →
    Course δ η s₀ ⟨(s.player.reconcile auth age).fst, s.truth⟩ (n + 1) 0
  | teleport {s : Pursuit σ ι κ} {n : Nat} {drift : ℝ} (state truth : σ) :
    Course δ η s₀ s n drift → dist state truth ≤ δ →
    Course δ η s₀ ⟨s.player.teleport state, truth⟩ n drift
  | hold {s : Pursuit σ ι κ} {n : Nat} {drift : ℝ} (input : ι) :
    Course δ η s₀ s n drift → Course δ η s₀ ⟨s.player.hold input, s.truth⟩ n drift
  | setActive {s : Pursuit σ ι κ} {n : Nat} {drift : ℝ} (active : Bool) :
    Course δ η s₀ s n drift → Course δ η s₀ ⟨s.player.setActive active, s.truth⟩ n drift
  | setContext {s : Pursuit σ ι κ} {n : Nat} {drift : ℝ} (ctx : κ) :
    Course δ η s₀ s n drift → Course δ η s₀ ⟨s.player.setContext ctx, s.truth⟩ n drift

-- What the functions which the predictor was made with are taken to do: the rule drives no two states apart, and the
-- blend between two states is as far from any other as the blend of the distances.
structure Sound (p : HeldInputPredictor σ ι κ ℝ) : Prop where
  rule  : ∀ x y u dt c, dist (p.rule x u dt c) (p.rule y u dt c) ≤ dist x y
  lerp  : ∀ x y z, dist (p.lerp x y p.blend) z ≤ (1 - p.blend) * dist x z + p.blend * dist y z
  blend : 0 < p.blend ∧ p.blend ≤ 1

-- What stays as it was made.
def Kept (p p₀ : HeldInputPredictor σ ι κ ℝ) : Prop :=
  p.rule = p₀.rule ∧ p.lerp = p₀.lerp ∧ p.blend = p₀.blend

theorem Kept.sound {p₀ : HeldInputPredictor σ ι κ ℝ} (h : p.Kept p₀) (hs : p₀.Sound) : p.Sound where
  rule  := h.left ▸ hs.rule
  lerp  := h.right.left ▸ h.right.right ▸ hs.lerp
  blend := h.right.right ▸ hs.blend

theorem Course.kept (h : Course δ η s₀ s n drift) : s.player.Kept s₀.player := by
  induction h
  case start => exact ⟨rfl, rfl, rfl⟩
  case advance s _ _ dt _ _ _ ih =>
    dsimp only
    unfold HeldInputPredictor.advance
    split <;> exact ih
  case reconcile s _ _ auth age _ _ ih =>
    rcases s.player.reconcile_cases with he | he <;> exact he ▸ ih
  all_goals assumption

theorem dist_advance_le (h : s.player.Sound) : dist (s.player.advance dt).state (s.expected dt) ≤ dist s.player.state s.truth := by
  unfold Pursuit.expected advance teleport
  split
  case isTrue  => exact h.rule ..
  case isFalse => exact le_rfl

theorem dist_reconcile_le (h : s.player.Sound) (ht : dist (s.player.target auth age) s.truth ≤ δ) :
    dist (s.player.reconcile auth age).fst.state s.truth ≤ δ ∨
    dist (s.player.reconcile auth age).fst.state s.truth ≤
      (1 - s.player.blend) * dist s.player.state s.truth + s.player.blend * δ := by
  rcases s.player.reconcile_cases with he | he <;> rw [he]
  case inl => exact .inl ht
  case inr => exact .inr <| (h.lerp ..).trans <| by have := mul_le_mul_of_nonneg_left ht h.blend.left.le; linarith

-- Each correction takes the blend off what is left of the first error. What drifts in between adds up to no more than
-- the share of the drift which the blend takes.
theorem tracks (hs : s₀.player.Sound) (hη : 0 ≤ η) (h : Course δ η s₀ s n drift) :
    dist s.player.state s.truth ≤ δ + η / s₀.player.blend +
      (1 - s₀.player.blend) ^ n * max (dist s₀.player.state s₀.truth - δ) 0 := by
  set b := s₀.player.blend with hb
  set e := max (dist s₀.player.state s₀.truth - δ) 0
  have hb₀ : 0 < b := hs.blend.left
  have hr : 0 ≤ 1 - b := sub_nonneg.mpr hs.blend.right
  have he : 0 ≤ e := le_max_right ..
  -- The errors of the drifts before the last correction have settled at this.
  have hc : 0 ≤ η * (1 - b) / b := by positivity
  have hw : η + η * (1 - b) / b = η / b := by field_simp; ring
  suffices dist s.player.state s.truth ≤ δ + drift + η * (1 - b) / b + (1 - b) ^ n * e ∧ 0 ≤ drift ∧ drift ≤ η by
    linarith
  induction h
  case start =>
    have : dist s₀.player.state s₀.truth - δ ≤ e := le_max_left ..
    refine ⟨?_, le_rfl, hη⟩
    rw [pow_zero, one_mul]
    linarith
  case advance s n drift dt truth hc hd ih =>
    have := dist_triangle (s.player.advance dt).state (s.expected dt) truth
    have : dist (s.player.advance dt).state (s.expected dt) ≤ dist s.player.state s.truth :=
      dist_advance_le (hc.kept.sound hs)
    exact ⟨by linarith, add_nonneg ih.right.left dist_nonneg, hd⟩
  case reconcile s n drift auth age hc' hd ih =>
    have hp : 0 ≤ (1 - b) ^ (n + 1) * e := mul_nonneg (pow_nonneg hr _) he
    refine ⟨?_, le_rfl, hη⟩
    rcases dist_reconcile_le (hc'.kept.sound hs) hd with hl | hl
    case inl => linarith
    case inr =>
      rw [hc'.kept.right.right, ← hb] at hl
      have hm := mul_le_mul_of_nonneg_left (ih.left.trans (by linarith [ih.right.right] :
        _ ≤ δ + η / b + (1 - b) ^ n * e)) hr
      have hd : (1 - b) * (η / b) = η * (1 - b) / b := by ring
      have hn : (1 - b) * ((1 - b) ^ n * e) = (1 - b) ^ (n + 1) * e := by ring
      rw [mul_add, mul_add, hd, hn] at hm
      linarith
  case teleport s n drift state truth _ hd ih =>
    have hp : 0 ≤ (1 - b) ^ n * e := mul_nonneg (pow_nonneg hr _) he
    have hd : dist (s.player.teleport state).state truth ≤ δ := hd
    exact ⟨by linarith [ih.right.left], ih.right⟩
  all_goals assumption

-- Straight integration on a line is such a rule.
theorem sound_line {p : HeldInputPredictor ℝ ℝ Unit ℝ} (hr : ∀ x u dt c, p.rule x u dt c = x + u * dt)
    (hl : ∀ x y t, p.lerp x y t = x + t * (y - x)) (hb : 0 < p.blend ∧ p.blend ≤ 1) : p.Sound where
  rule x y u dt _ := by simp [hr, Real.dist_eq]
  lerp x y z := by
    rw [hl]
    generalize p.blend = b at *
    calc dist (x + b * (y - x)) z
      _ = |(1 - b) * (x - z) + b * (y - z)|   := by rw [Real.dist_eq]; ring_nf
      _ ≤ |(1 - b) * (x - z)| + |b * (y - z)| := abs_add_le ..
      _ = (1 - b) * dist x z + b * dist y z   := by
        rw [abs_mul, abs_mul, abs_of_pos hb.left, abs_of_nonneg (sub_nonneg.mpr hb.right), Real.dist_eq, Real.dist_eq]
  blend := hb

theorem tracks_line : ∃ (s₀ s : Pursuit ℝ ℝ Unit) (drift : ℝ), Course 0 1 s₀ s 1 drift ∧
    dist s.player.state s.truth ≤ 0 + 1 / s₀.player.blend +
      (1 - s₀.player.blend) ^ 1 * max (dist s₀.player.state s₀.truth - 0) 0 := by
  let s₀ : Pursuit ℝ ℝ Unit := ⟨.new 0 2 (1 / 4) (fun x u dt _ => x + u * dt) (fun x y t => x + t * (y - x)) (), 4⟩
  have hs : s₀.player.Sound := sound_line (fun _ _ _ _ => rfl) (fun _ _ _ => rfl) (by norm_num [s₀, new])
  have h : Course 0 1 s₀ _ 1 0 := .reconcile 4 0 .start (by simp [s₀, target, project, new])
  have h := h.advance 1 7 <| by
    norm_num [s₀, Pursuit.expected, reconcile, project, discontinuous, advance, teleport, new, Real.dist_eq]
  exact ⟨s₀, _, _, h, tracks hs zero_le_one h⟩

end Plaza.ClientUtils.HeldInputPredictor
