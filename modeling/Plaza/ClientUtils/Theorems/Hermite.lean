import Mathlib.Algebra.Polynomial.Derivative
import Mathlib.Algebra.Polynomial.Eval.Degree
import Mathlib.Tactic.FieldSimp
import Mathlib.Tactic.Ring
import Plaza.ClientUtils.Hermite

open Polynomial

namespace Plaza.ClientUtils

variable {K : Type} [Field K] {σ ν : Type}

-- A spline between two points of a cubic, with the slopes it has there, is the cubic.
theorem hermiteScalar_eval {p : K[X]} (h : p.natDegree ≤ 3) (a b t : K) :
    hermiteScalar (p.eval a) (p.derivative.eval a) (p.eval b) (p.derivative.eval b) t (b - a) =
      p.eval (a + t * (b - a)) := by
  have hd : p.derivative.natDegree < 3 := by
    have := natDegree_derivative_le p
    omega
  have he (x : K) : p.eval x = p.coeff 0 + p.coeff 1 * x + p.coeff 2 * x ^ 2 + p.coeff 3 * x ^ 3 := by
    simp [eval_eq_sum_range' (Nat.lt_succ_of_le h), Finset.sum_range_succ]
  have hv (x : K) : p.derivative.eval x = p.coeff 1 + 2 * p.coeff 2 * x + 3 * p.coeff 3 * x ^ 2 := by
    simp only [eval_eq_sum_range' hd, Finset.sum_range_succ, Finset.sum_range_zero, coeff_derivative]
    push_cast
    ring
  simp only [he, hv, hermiteScalar]
  push_cast
  ring

-- A motion with its velocity, at times in seconds, which any two of its points determine in between.
structure Motion (σ ν : Type) [HermiteInterpolatable σ ν K] where
  place    : K → σ
  velocity : K → ν
  follows  : ∀ a b t : K, HermiteInterpolatable.hermite (place a) (place b) (velocity a) (velocity b) t (b - a) =
    place (a + t * (b - a))

namespace Motion

-- A cubic that is no higher than that.
structure Cubic (K : Type) [Field K] where
  toPoly : K[X]
  degree : toPoly.natDegree ≤ 3

noncomputable def scalar (p : Cubic K) : Motion K K where
  place    := p.toPoly.eval
  velocity := p.toPoly.derivative.eval
  follows  := hermiteScalar_eval p.degree

noncomputable def vec2 (x y : Cubic K) : Motion (Vec2 K) (Vec2 K) where
  place t       := ⟨x.toPoly.eval t, y.toPoly.eval t⟩
  velocity t    := ⟨x.toPoly.derivative.eval t, y.toPoly.derivative.eval t⟩
  follows a b t := Vec2.mk.injEq .. ▸ ⟨hermiteScalar_eval x.degree a b t, hermiteScalar_eval y.degree a b t⟩

noncomputable def vec3 (x y z : Cubic K) : Motion (Vec3 K) (Vec3 K) where
  place t       := ⟨x.toPoly.eval t, y.toPoly.eval t, z.toPoly.eval t⟩
  velocity t    := ⟨x.toPoly.derivative.eval t, y.toPoly.derivative.eval t, z.toPoly.derivative.eval t⟩
  follows a b t := Vec3.mk.injEq .. ▸
    ⟨hermiteScalar_eval x.degree a b t, hermiteScalar_eval y.degree a b t, hermiteScalar_eval z.degree a b t⟩

variable [HermiteInterpolatable σ ν K] {m : Motion σ ν} {l times : List Nat} {v : HermiteView σ ν} {s t target : Nat}

-- A time of the view in seconds.
def seconds (K : Type) [Field K] (ms : Nat) : K :=
  ms / (1000 : Nat)

def sample (m : Motion σ ν) (timeMs : Nat) : HermiteSample σ ν where
  timeMs   := timeMs
  state    := m.place (seconds K timeMs)
  velocity := m.velocity (seconds K timeMs)

-- The view after the samples of these times arrived in this order.
def watch (m : Motion σ ν) (v : HermiteView σ ν) (times : List Nat) : HermiteView σ ν :=
  times.foldl (fun v t => v.push t (m.sample t).state (m.sample t).velocity) v

theorem mergeSort_congr {u w : List Nat} (h : u.Perm w) : u.mergeSort (· ≤ ·) = w.mergeSort (· ≤ ·) := by
  refine List.Perm.eq_of_pairwise (fun _ _ _ _ => Nat.le_antisymm) List.pairwise_mergeSort_key
    List.pairwise_mergeSort_key ?_
  exact (List.mergeSort_perm ..).trans <| h.trans (List.mergeSort_perm ..).symm

theorem push_samples (hv : v.samples = (l.rtake v.capacity).map m.sample) (hl : l.Pairwise (· ≤ ·)) :
    (v.push t (m.sample t).state (m.sample t).velocity).samples =
      ((l.insertBefore (· < ·) t).rtake v.capacity).map m.sample := by
  have hm : ((l.rtake v.capacity).insertBefore (· < ·) t).map m.sample =
      v.samples.insertBefore (·.timeMs < ·.timeMs) (m.sample t) := by
    rw [hv]
    exact List.map_insertBefore (r := fun a b : HermiteSample σ ν => a.timeMs < b.timeMs) (f := m.sample)
  rw [← hl.rtake_insertBefore_rtake_of (fun h h' => Nat.lt_of_lt_of_le h h'), List.map_rtake, hm]
  rfl

-- What is held are the newest samples that arrived, in the order of time.
theorem watch_samples (hv : v.samples = (l.rtake v.capacity).map m.sample) (hl : l.Pairwise (· ≤ ·)) :
    (m.watch v times).samples = (((l ++ times).mergeSort (· ≤ ·)).rtake v.capacity).map m.sample := by
  induction times generalizing l v
  case nil =>
    rw [List.append_nil, List.mergeSort_of_pairwise (by simpa using hl)]
    exact hv
  case cons t times ih =>
    have hi : (l.insertBefore (· < ·) t).Pairwise (· ≤ ·) :=
      hl.insertBefore_of (fun _ _ h => Nat.le_of_lt h) (fun _ _ h => Nat.not_lt.mp h)
        (fun h h' => Nat.le_trans (Nat.le_of_lt h) h')
    have hp : (l.insertBefore (· < ·) t ++ times).Perm (l ++ t :: times) :=
      (List.insertBefore_perm.append_right times).trans List.perm_middle.symm
    rw [← mergeSort_congr hp]
    exact ih (push_samples hv hl) hi

theorem le_of_getLast? (hl : l.Pairwise (· ≤ ·)) (ht : l.getLast? = some t) (hs : s ∈ l) : s ≤ t :=
  (hl.rel_of_getLast? ht hs).elim Nat.le_of_eq id

-- The two samples around a target, unless it lies outside of all.
theorem bracket_sample (target : Nat) (hl : l.Pairwise (· ≤ ·)) :
    (∃ s t, HermiteView.bracket target (l.map m.sample) = some (m.sample s, m.sample t) ∧ s ≤ target ∧ target ≤ t ∧
        (∀ first ∈ l.head?, first ≤ s) ∧ ∀ last ∈ l.getLast?, t ≤ last) ∨
      HermiteView.bracket target (l.map m.sample) = none ∧
        (l.length ≤ 1 ∨ (∀ first ∈ l.head?, target < first) ∨ ∀ last ∈ l.getLast?, last < target) := by
  induction l
  case nil => exact .inr ⟨rfl, .inl (Nat.zero_le 1)⟩
  case cons a l ih =>
    have ⟨ha, hl⟩ := List.pairwise_cons.mp hl
    rcases l with _ | ⟨b, rest⟩
    case nil  => exact .inr ⟨rfl, .inl (Nat.le_refl 1)⟩
    case cons =>
      simp only [List.map_cons, HermiteView.bracket, List.head?_cons, Option.mem_def, Option.some.injEq, forall_eq',
        List.getLast?_cons_cons] at ih ⊢
      have hab := ha b List.mem_cons_self
      by_cases hc : a ≤ target ∧ target ≤ b
      case pos =>
        refine .inl ⟨a, b, if_pos hc, hc.left, hc.right, Nat.le_refl a, fun last hlast => ?_⟩
        exact le_of_getLast? hl hlast List.mem_cons_self
      case neg =>
        rw [if_neg (show ¬((m.sample a).timeMs ≤ target ∧ target ≤ (m.sample b).timeMs) from hc)]
        rcases ih hl with ⟨s, t, he, hs, ht, hf, hg⟩ | ⟨he, h⟩
        case inl => exact .inl ⟨s, t, he, hs, ht, Nat.le_trans hab hf, hg⟩
        case inr =>
          refine .inr ⟨he, .inr ?_⟩
          rcases h with h | h | h
          case inl =>
            have hr : rest = [] := List.eq_nil_of_length_eq_zero (by simpa using h)
            subst hr
            simp only [List.getLast?_singleton, Option.some.injEq, forall_eq']
            omega
          case inr.inl => exact .inl (by omega)
          case inr.inr => exact .inr h

-- The instant that is drawn: the target, or the end of what is held that is nearer to it.
def drawn (held : List Nat) (target : Nat) : Option Nat :=
  held.head?.bind fun first => held.getLast?.map fun last => max first (min target last)

theorem drawn_cons (h : (s :: l).getLast? = some t) : drawn (s :: l) target = some (max s (min target t)) := by
  rw [drawn, List.head?_cons, Option.bind_some, h, Option.map_some]

theorem place_between [CharZero K] (hs : s ≤ target) (hst : s < t) :
    HermiteInterpolatable.hermite (m.sample s).state (m.sample t).state (m.sample s).velocity (m.sample t).velocity
        (((target - s : Nat) : K) / ((t - s : Nat) : K)) (((t - s : Nat) : K) / (1000 : Nat)) =
      m.place (seconds K target) := by
  have hne : (t : K) - s ≠ 0 := sub_ne_zero.mpr (Nat.cast_injective.ne (Nat.ne_of_gt hst))
  have hk : ((1000 : Nat) : K) ≠ 0 := Nat.cast_ne_zero.mpr (by decide)
  have hd : ((t - s : Nat) : K) / (1000 : Nat) = seconds K t - seconds K s := by
    rw [Nat.cast_sub hst.le, seconds, seconds, sub_div]
  rw [hd]
  refine (m.follows _ _ _).trans (congrArg m.place ?_)
  rw [seconds, seconds, seconds, Nat.cast_sub hst.le, Nat.cast_sub hs]
  field_simp
  ring

theorem render_samples [CharZero K] (hl : l.Pairwise (· ≤ ·)) (hv : v.samples = l.map m.sample) :
    v.render target = (drawn l target).map fun ms => m.place (seconds K ms) := by
  rcases l with _ | ⟨a, rest⟩
  case nil => simp [HermiteView.render, hv, HermiteView.bracket, drawn]
  case cons =>
    obtain ⟨last, hlast⟩ : ∃ last, (a :: rest).getLast? = some last := ⟨_, List.getLast?_cons⟩
    have hle : a ≤ last := le_of_getLast? hl hlast List.mem_cons_self
    have hgl : v.samples.getLast? = some (m.sample last) := by rw [hv, List.getLast?_map, hlast]; rfl
    have hh : v.samples.head? = some (m.sample a) := by rw [hv]; rfl
    rw [drawn_cons hlast, Option.map_some, HermiteView.render]
    split
    case isTrue h1 =>
      have hr : rest = [] := List.eq_nil_of_length_eq_zero (by simpa [hv] using h1)
      subst hr
      obtain rfl : a = last := by simpa using hlast
      rw [hh, Option.map_some, show max a (min target a) = a by omega]
      rfl
    case isFalse h1 =>
      have hlen : 1 < (a :: rest).length := by
        have : (a :: rest).length ≠ 1 := by simpa [hv] using h1
        simp only [List.length_cons] at this ⊢
        omega
      rcases bracket_sample (m := m) target hl with ⟨s, t, he, hs, ht, hf, hg⟩ | ⟨he, h⟩
      case inl =>
        have hf := hf a rfl
        have hg := hg last hlast
        rw [hv, he, show max a (min target last) = target by omega]
        dsimp only [sample]
        split
        case isTrue h0 => rw [show t = target by omega]
        case isFalse h0 => exact congrArg some (place_between hs (by omega))
      case inr =>
        rw [hv, he]
        dsimp only
        rw [← hv, hh, Option.bind_some, hgl, Option.map_some]
        rcases h with h | h | h
        case inl => omega
        case inr.inl =>
          have h := h a rfl
          rw [if_pos (show target < (m.sample a).timeMs from h), show max a (min target last) = a by omega]
          rfl
        case inr.inr =>
          have h := h last hlast
          rw [if_neg (show ¬target < (m.sample a).timeMs from by simp only [sample]; omega),
            show max a (min target last) = last by omega]
          rfl

-- However the samples of a cubic motion arrive, in whatever order and however often, the view draws the motion
-- itself between the oldest and the newest of those that it holds, and its ends outside of them.
theorem renders_motion [CharZero K] {capacity : Nat} (hv : HermiteView.new capacity = some v) (m : Motion σ ν)
    (times : List Nat) (target : Nat) :
    (m.watch v times).render target =
      (drawn ((times.mergeSort (· ≤ ·)).rtake capacity) target).map fun ms => m.place (seconds K ms) := by
  rw [HermiteView.new] at hv
  split at hv <;> cases hv
  have hs : (m.watch ⟨[], capacity⟩ times).samples = _ := watch_samples (l := []) (by simp) .nil
  rw [List.nil_append] at hs
  have hl : (times.mergeSort (· ≤ ·)).Pairwise (· ≤ ·) := List.pairwise_mergeSort_key
  exact render_samples (hl.sublist (List.drop_sublist ..)) hs

-- The oldest of four samples is no longer held.
theorem renders_motion_cube : ∃ p : Cubic ℚ,
    ((scalar p).watch ⟨[], 3⟩ [2000, 0, 1000, 3000]).render 2500 = some (125 / 8) ∧
    ((scalar p).watch ⟨[], 3⟩ [2000, 0, 1000, 3000]).render 500 = some 1 := by
  have hk (target : Nat) : drawn (([2000, 0, 1000, 3000].mergeSort (· ≤ ·)).rtake 3) target =
      some (max 1000 (min target 3000)) := by
    rw [mergeSort_congr (show [2000, 0, 1000, 3000].Perm [0, 1000, 2000, 3000] by decide),
      List.mergeSort_of_pairwise (by decide)]
    rfl
  refine ⟨⟨X ^ 3, by simp⟩, ?_, ?_⟩
  all_goals
    rw [renders_motion (show HermiteView.new 3 = some ⟨[], 3⟩ from rfl), hk]
    norm_num [scalar, seconds]

end Motion
end Plaza.ClientUtils
