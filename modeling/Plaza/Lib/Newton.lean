import Mathlib.Data.Nat.Sqrt
import Mathlib.Tactic.Linarith
import Mathlib.Tactic.Ring
import Plaza.Lib.Execution

-- Newton's iteration for the square root of a natural number, from above and until it no longer descends.
namespace Newton

variable {n x c k : Nat}

def next (n x : Nat) : Nat :=
  (x + n / x) / 2

def descent (n : Nat) : Loop Nat where
  body x := if x ≤ next n x then none else some (next n x)

-- How far above the root a number is.
def error (n x : Nat) : Nat :=
  x - n.sqrt

-- A step from above ends above: the middle of two factors is no less than the root of their product.
theorem sqrt_le_next (hx : 0 < x) : n.sqrt ≤ next n x := by
  have hs := Nat.sqrt_le n
  have hq : 2 * n.sqrt - x ≤ n / x := by
    rw [Nat.le_div_iff_mul_le hx]
    rcases Nat.le_total (2 * n.sqrt) x with h | h
    · rw [Nat.sub_eq_zero_of_le h, Nat.zero_mul]
      exact Nat.zero_le n
    · obtain ⟨d, hd⟩ := Nat.exists_eq_add_of_le h
      rw [hd, Nat.add_sub_cancel_left]
      have hm := four_mul_le_sq_add d x
      nlinarith
  rw [next]
  omega

-- What is left of the error after a step.
theorem error_next_le (hx : 0 < x) (h : n.sqrt ≤ x) :
    2 * x * error n (next n x) ≤ error n x * error n x + 2 * n.sqrt := by
  have hn := Nat.sqrt_le_add n
  have hq := Nat.div_mul_le_self n x
  have hs := @sqrt_le_next n x hx
  have h2 : 2 * next n x ≤ x + n / x := Nat.mul_div_le _ _
  obtain ⟨e, he⟩ := Nat.exists_eq_add_of_le hs
  obtain ⟨d, rfl⟩ := Nat.exists_eq_add_of_le h
  rw [error, error, he, Nat.add_sub_cancel_left, Nat.add_sub_cancel_left]
  rw [he] at h2
  nlinarith

theorem body_eq_none_iff (hx : 0 < x) (h : n.sqrt ≤ x) : (descent n).body x = none ↔ x = n.sqrt := by
  have hs := @sqrt_le_next n x hx
  simp only [descent, ite_eq_left_iff, reduceCtorEq, imp_false, not_not]
  constructor
  case mp =>
    intro hl
    have hq : x ≤ n / x := by
      rw [next] at hl
      omega
    exact le_antisymm (Nat.le_sqrt.mpr <| (Nat.le_div_iff_mul_le hx).mp hq) h
  case mpr => exact fun he => he ▸ he ▸ hs

theorem descends (hx : 0 < x) (h : n.sqrt ≤ x) (hn : x ≠ n.sqrt) : (descent n).body x = some (next n x) := by
  have hb := mt (body_eq_none_iff hx h).mp hn
  simp only [descent, ite_eq_left_iff, reduceCtorEq, imp_false, not_not] at hb
  exact if_neg hb

-- The rounds of the iteration stay above the root.
theorem sqrt_le_run (hn : 0 < n) (h : n.sqrt ≤ x) : n.sqrt ≤ (descent n).run k x := by
  refine Loop.run_preserves (I := fun x => n.sqrt ≤ x) (fun {x x'} hx hb => ?_) h
  simp only [descent, Option.ite_none_left_eq_some, Option.some.injEq] at hb
  exact hb.right ▸ sqrt_le_next ((Nat.sqrt_pos.mpr hn).trans_le hx)

theorem run_sqrt (hn : 0 < n) : (descent n).run k n.sqrt = n.sqrt :=
  Loop.run_of_left <| body_eq_none_iff (Nat.sqrt_pos.mpr hn) le_rfl |>.mpr rfl

-- What a round leaves of the error, also if it leaves the loop.
theorem error_round_le (hn : 0 < n) (h : n.sqrt ≤ x) :
    2 * x * error n ((descent n).run 1 x) ≤ error n x * error n x + 2 * n.sqrt := by
  have hx := (Nat.sqrt_pos.mpr hn).trans_le h
  by_cases he : x = n.sqrt
  case pos =>
    rw [he, run_sqrt hn, error, Nat.sub_self]
    exact Nat.zero_le _
  case neg =>
    rw [Loop.run_succ (descends hx h he)]
    exact error_next_le hx h

-- A round halves the error at least.
theorem error_round_le_half (hn : 0 < n) (h : n.sqrt ≤ x) :
    error n ((descent n).run 1 x) ≤ error n x / 2 := by
  by_cases hx : x = n.sqrt
  case pos =>
    rw [hx, run_sqrt hn, error, Nat.sub_self, Nat.zero_div]
  case neg =>
    have he := error_round_le hn h
    obtain ⟨d, rfl⟩ := Nat.exists_eq_add_of_le h
    rw [show error n (n.sqrt + d) = d from Nat.add_sub_cancel_left ..] at he ⊢
    rw [Nat.le_div_iff_mul_le two_pos]
    by_contra hlt
    have hm := Nat.mul_le_mul_left (n.sqrt + d) (Nat.lt_of_not_le hlt)
    have hd : 1 ≤ d := by omega
    nlinarith

theorem error_run_le (hn : 0 < n) (h : n.sqrt ≤ x) : error n ((descent n).run k x) ≤ error n x / 2 ^ k := by
  induction k
  case zero      => simp [Loop.run]
  case succ k hi =>
    rw [Loop.run_add, pow_succ, ← Nat.div_div_eq_div_mul]
    exact (error_round_le_half hn (sqrt_le_run hn h)).trans (Nat.div_le_div_right hi)

-- Close to the root a round does much more, as what is left is in proportion to the square.
theorem error_round_of_close (hn : 16 ≤ n.sqrt) (h : n.sqrt ≤ x) (hc : 4 ≤ c)
    (he : c * error n x ≤ n.sqrt + 2 * c) :
    2 * c * c * error n ((descent n).run 1 x) ≤ n.sqrt + 2 * (2 * c * c) := by
  have hr := error_round_le (Nat.sqrt_pos.mp (by omega)) h
  have hx : 2 * n.sqrt * error n ((descent n).run 1 x) ≤ error n x * error n x + 2 * n.sqrt :=
    (Nat.mul_le_mul_right _ (Nat.mul_le_mul_left 2 h)).trans hr
  generalize error n ((descent n).run 1 x) = e' at hx ⊢
  generalize error n x = e at hx he
  generalize n.sqrt = s at hx he hn ⊢
  have hs : c * e * (c * e) ≤ (s + 2 * c) * (s + 2 * c) := Nat.mul_le_mul he he
  have h₁ : 4 * (s * c) ≤ c * (s * c) := Nat.mul_le_mul_right _ hc
  have h₂ : 4 * (c * c) ≤ s * (c * c) := Nat.mul_le_mul_right _ (by omega)
  refine Nat.le_of_mul_le_mul_left (?_ : s * _ ≤ s * _) (by omega)
  calc s * (2 * c * c * e')
    _ = c * c * (2 * s * e')                           := by ring
    _ ≤ c * c * (e * e + 2 * s)                        := Nat.mul_le_mul_left _ hx
    _ = c * e * (c * e) + 2 * (s * (c * c))            := by ring
    _ ≤ (s + 2 * c) * (s + 2 * c) + 2 * (s * (c * c)) := Nat.add_le_add_right hs _
    _ ≤ s * (s + 2 * (2 * c * c))                      := by nlinarith

theorem error_round_of_le (hn : 0 < n) (h : n.sqrt ≤ x) (he : error n x ≤ n.sqrt) :
    4 * error n ((descent n).run 1 x) ≤ n.sqrt + 2 * 4 := by
  have hr := error_round_le hn h
  obtain ⟨d, rfl⟩ := Nat.exists_eq_add_of_le h
  rw [show error n (n.sqrt + d) = d from Nat.add_sub_cancel_left ..] at hr he
  generalize error n ((descent n).run 1 (n.sqrt + d)) = e' at hr ⊢
  have hs := Nat.sqrt_pos.mpr hn
  refine Nat.le_of_mul_le_mul_left (?_ : 2 * (n.sqrt + d) * _ ≤ 2 * (n.sqrt + d) * _) (by omega)
  nlinarith [Nat.mul_le_mul_left d he, Nat.mul_le_mul he he]

-- Twenty halvings and four rounds with the square come so close to the root that two more reach it.
theorem run_eq_sqrt (hl : 16 ≤ n.sqrt) (hr : n.sqrt + 2 ≤ 2 ^ 20) : (descent n).run (26 + k) n = n.sqrt := by
  have hn : 0 < n := Nat.sqrt_pos.mp (by omega)
  have hs (k : Nat) : n.sqrt ≤ (descent n).run k n := sqrt_le_run hn (Nat.sqrt_le_self n)
  have h₂₀ : error n ((descent n).run 20 n) ≤ n.sqrt := by
    refine (error_run_le hn (Nat.sqrt_le_self n)).trans <| Nat.div_le_of_le_mul ?_
    have hn := Nat.sqrt_le_add n
    have hm := Nat.mul_le_mul_right n.sqrt hr
    rw [Nat.add_mul] at hm
    rw [error]
    omega
  have h₂₁ := error_round_of_le hn (hs 20) h₂₀
  simp only [← Loop.run_add, Nat.reduceAdd] at h₂₁
  have h₂₂ := error_round_of_close hl (hs 21) (by decide) h₂₁
  simp only [← Loop.run_add, Nat.reduceAdd] at h₂₂
  have h₂₃ := error_round_of_close hl (hs 22) (by decide) h₂₂
  simp only [← Loop.run_add, Nat.reduceAdd] at h₂₃
  have h₂₄ := error_round_of_close hl (hs 23) (by decide) h₂₃
  simp only [← Loop.run_add, Nat.reduceAdd] at h₂₄
  have h₂₆ := error_run_le (k := 2) hn (hs 24)
  simp only [← Loop.run_add, Nat.reduceAdd] at h₂₆
  have he : (descent n).run 26 n = n.sqrt := by
    have := hs 26
    rw [error] at h₂₆
    omega
  rw [Loop.run_add, he, run_sqrt hn]

end Newton
