import Mathlib.Algebra.BigOperators.Ring.List
import Mathlib.Algebra.Order.Field.Basic
import Mathlib.Analysis.InnerProductSpace.Basic
import Mathlib.Tactic.FieldSimp
import Mathlib.Tactic.Linarith
import Mathlib.Tactic.Module
import Mathlib.Tactic.Ring

-- Estimates of where a walk is, from measurements of where it was. Lists of steps start with the latest one.
namespace Walk

-- The variances of a move, and of the measurement after it.
structure Step (K : Type*) where
  process : K
  noise   : K
  deriving DecidableEq, Repr

section

variable {K : Type*} [Field K]

-- The variance of the weighted sum of the measurements around where the walk is. A move puts off all measurements
-- before it.
def variance : List (Step K) → List K → K
  | st :: steps, b :: bs => variance steps bs + st.process * bs.sum ^ 2 + st.noise * b ^ 2
  | _,           _       => 0

variable {steps : List (Step K)} {st : Step K} {weights : List K} {p : K}

theorem variance_smul (c : K) (h : weights.length = steps.length) :
    variance steps (weights.map (c * ·)) = c ^ 2 * variance steps weights := by
  induction steps generalizing weights
  case nil => simp [variance]
  case cons st steps ih =>
    cases weights
    case nil => simp at h
    case cons w weights =>
      rw [List.map_cons, variance, variance, ih (by simpa using h), List.sum_map_mul_left, List.map_id']
      ring

-- How much of the next measurement is taken.
def gain (p : K) (st : Step K) : K :=
  (p + st.process) / (p + st.process + st.noise)

-- What any weights leave beyond the best.
theorem squares_eq (hs : p + st.process + st.noise ≠ 0) (a b : K) :
    (p + st.process) * a ^ 2 + st.noise * b ^ 2 = (p + st.process) * (1 - gain p st) * (b + a) ^ 2 +
      ((p + st.process) * a - st.noise * b) ^ 2 / (p + st.process + st.noise) := by
  rw [gain]
  field_simp
  ring

-- The variance is made of that of the best weights of the same sum, what the new weight is off by from the gain, and
-- what the others leave beyond the best.
theorem variance_cons (hs : p + st.process + st.noise ≠ 0) (b : K) (bs : List K) :
    variance (st :: steps) (b :: bs) = (p + st.process) * (1 - gain p st) * (b :: bs).sum ^ 2 +
      ((p + st.process) * bs.sum - st.noise * b) ^ 2 / (p + st.process + st.noise) +
        (variance steps bs - p * bs.sum ^ 2) := by
  rw [List.sum_cons, ← squares_eq hs, variance]
  ring

variable [LinearOrder K]

-- Weights which leave less variance than all others of the same sum, and the variance that one of them leaves.
structure Best (steps : List (Step K)) (weights : List K) (p : K) : Prop where
  length : weights.length = steps.length
  sum    : weights.sum = 1
  pos    : 0 ≤ p
  eq     : variance steps weights = p
  least  : ∀ bs : List K, bs.length = steps.length → p * bs.sum ^ 2 ≤ variance steps bs
  unique : ∀ bs : List K, bs.length = steps.length → variance steps bs = p * bs.sum ^ 2 → bs = weights.map (bs.sum * ·)

theorem best_single (hn : 0 ≤ st.noise) : Best [st] [1] st.noise where
  length := rfl
  sum    := by simp
  pos    := hn
  eq     := by simp [variance]
  least bs hl := by
    obtain ⟨b, rfl⟩ := List.length_eq_one_iff.mp hl
    simp [variance]
  unique bs hl _ := by
    obtain ⟨b, rfl⟩ := List.length_eq_one_iff.mp hl
    simp

-- The gain weights a new measurement against what is known. It keeps the weights the best ones.
theorem Best.next [IsStrictOrderedRing K] (h : Best steps weights p) (hp : 0 ≤ st.process) (hn : 0 < st.noise) :
    Best (st :: steps) (gain p st :: weights.map ((1 - gain p st) * ·)) ((p + st.process) * (1 - gain p st)) := by
  have hq : 0 ≤ p + st.process := add_nonneg h.pos hp
  have hs : 0 < p + st.process + st.noise := by linarith
  have hg : 1 - gain p st = st.noise / (p + st.process + st.noise) := by
    have := hs.ne'
    rw [gain]
    field_simp
    ring
  have hbal : (p + st.process) * (1 - gain p st) = st.noise * gain p st := by
    rw [hg, gain]
    ring
  have hsq (b : K) : 0 ≤ b ^ 2 / (p + st.process + st.noise) := div_nonneg (sq_nonneg b) hs.le
  refine ⟨?length, ?sum, mul_nonneg hq (hg ▸ div_nonneg hn.le hs.le), ?eq, ?least, ?unique⟩
  case length => simp [h.length]
  case sum    => rw [List.sum_cons, List.sum_map_mul_left, List.map_id', h.sum]; ring
  case eq =>
    rw [variance_cons hs.ne', variance_smul _ h.length, List.sum_cons, List.sum_map_mul_left, List.map_id', h.eq, h.sum,
      mul_one, hbal]
    ring
  case least =>
    intro bs hl
    obtain ⟨b, bs, rfl⟩ := List.exists_cons_of_length_eq_add_one hl
    have := h.least bs (by simpa using hl)
    have := hsq ((p + st.process) * bs.sum - st.noise * b)
    rw [variance_cons hs.ne']
    linarith
  case unique =>
    intro bs hl he
    obtain ⟨b, bs, rfl⟩ := List.exists_cons_of_length_eq_add_one hl
    have hl : bs.length = steps.length := by simpa using hl
    have hle := h.least bs hl
    have hsq := hsq ((p + st.process) * bs.sum - st.noise * b)
    rw [variance_cons hs.ne'] at he
    have hz : ((p + st.process) * bs.sum - st.noise * b) ^ 2 / (p + st.process + st.noise) = 0 := by linarith
    have hz : (p + st.process) * bs.sum = st.noise * b :=
      sub_eq_zero.mp <| pow_eq_zero_iff two_ne_zero |>.mp <| (div_eq_zero_iff.mp hz).resolve_right hs.ne'
    have hb : b = (b + bs.sum) * gain p st := by
      rw [gain, mul_div_assoc', eq_div_iff hs.ne']
      linarith
    have hb' : bs.sum = (b + bs.sum) * (1 - gain p st) := by linarith
    have hu := h.unique bs hl (by linarith)
    rw [List.map_cons, List.sum_cons, ← hb, List.map_map]
    refine congrArg _ (hu.trans <| List.map_congr_left fun w _ => ?_)
    rw [Function.comp_apply, ← mul_assoc, ← hb']

end

-- The noises of the steps are uncorrelated elements of a space of random variables. What an estimate is off by has the
-- variance of its weights.
section

open scoped RealInnerProductSpace

variable {E : Type*} [NormedAddCommGroup E] [InnerProductSpace ℝ E]

-- A move, and the error of the measurement after it.
structure Noise (E : Type*) where
  move  : E
  error : E

def place (start : E) (ns : List (Noise E)) : E :=
  start + (ns.map Noise.move).sum

def measured (start : E) : List (Noise E) → List E
  | []      => []
  | n :: ns => (place start (n :: ns) + n.error) :: measured start ns

def weighted (bs : List ℝ) (zs : List E) : E :=
  (List.zipWith (· • ·) bs zs).sum

structure Uncorrelated (steps : List (Step ℝ)) (ns : List (Noise E)) : Prop where
  sizes      : steps.Forall₂ (fun st n => ‖n.move‖ ^ 2 = st.process ∧ ‖n.error‖ ^ 2 = st.noise) ns
  orthogonal : (ns.flatMap fun n => [n.move, n.error]).Pairwise fun u v => ⟪u, v⟫ = 0

variable {start u : E} {n : Noise E} {ns : List (Noise E)} {b : ℝ} {bs : List ℝ} {steps : List (Step ℝ)}

def offBy (start : E) (ns : List (Noise E)) (bs : List ℝ) : E :=
  weighted bs (measured start ns) - bs.sum • place start ns

theorem offBy_cons : offBy start (n :: ns) (b :: bs) = offBy start ns bs - bs.sum • n.move + b • n.error := by
  simp only [offBy, weighted, measured, List.zipWith_cons_cons, List.sum_cons, place, List.map_cons]
  module

theorem inner_offBy (hl : bs.length = ns.length) (hu : ∀ v ∈ ns.flatMap fun n => [n.move, n.error], ⟪u, v⟫ = 0) :
    ⟪u, offBy start ns bs⟫ = 0 := by
  induction ns generalizing bs
  case nil => simp [offBy, weighted, measured, List.length_eq_zero_iff.mp hl]
  case cons n ns ih =>
    obtain ⟨b, bs, rfl⟩ := List.exists_cons_of_length_eq_add_one hl
    simp only [List.flatMap_cons, List.cons_append, List.nil_append, List.forall_mem_cons] at hu
    rw [offBy_cons, inner_add_right, inner_sub_right, inner_smul_right, inner_smul_right,
      ih (by simpa using hl) hu.right.right, hu.left, hu.right.left]
    ring

theorem norm_offBy (h : Uncorrelated steps ns) (hl : bs.length = ns.length) :
    ‖offBy start ns bs‖ ^ 2 = variance steps bs := by
  obtain ⟨hs, ho⟩ := h
  induction hs generalizing bs
  case nil => simp [offBy, weighted, measured, variance, List.length_eq_zero_iff.mp hl]
  case cons st n steps ns hn _ ih =>
    obtain ⟨b, bs, rfl⟩ := List.exists_cons_of_length_eq_add_one hl
    have hl : bs.length = ns.length := by simpa using hl
    simp only [List.flatMap_cons, List.cons_append, List.nil_append, List.pairwise_cons, List.forall_mem_cons] at ho
    have hm : ⟪n.move, offBy start ns bs⟫ = 0 := inner_offBy hl ho.left.right
    have he : ⟪n.error, offBy start ns bs⟫ = 0 := inner_offBy hl ho.right.left
    have hme : ⟪n.move, n.error⟫ = 0 := ho.left.left
    rw [offBy_cons, norm_add_sq_real, norm_sub_sq_real, inner_sub_left, inner_smul_left, inner_smul_right,
      inner_smul_right, real_inner_comm, hm, inner_smul_right, hme, real_inner_comm, he, norm_smul, norm_smul, mul_pow,
      mul_pow, hn.left, hn.right, ih hl ho.right.right, variance, Real.norm_eq_abs, Real.norm_eq_abs, sq_abs, sq_abs]
    simp
    ring

end
end Walk
