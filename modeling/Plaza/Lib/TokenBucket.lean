import Mathlib.Algebra.Order.Field.Basic
import Mathlib.Tactic.Linarith
import Mathlib.Tactic.Ring

-- A bucket of tokens which is filled at a rate, up to a capacity, and may be overdrawn by one spending at
-- a time.
namespace TokenBucket

variable {K : Type*} [Field K] [LinearOrder K]

def fill (rate capacity tokens time : K) : K :=
  min (tokens + time * rate) capacity

-- What was spent within a time is what the bucket held and what it was filled with, except for the
-- spending which overdrew it.
structure Sound (rate capacity tokens spent largest time : K) : Prop where
  full    : tokens ≤ capacity
  account : spent + tokens ≤ capacity + rate * time
  bound   : spent ≤ capacity + rate * time + largest

namespace Sound

variable [IsStrictOrderedRing K] {rate capacity tokens spent largest largest' time dt amount : K}

theorem start (hc : 0 ≤ capacity) : Sound rate capacity capacity 0 0 0 where
  full    := le_refl _
  account := by linarith
  bound   := by linarith

theorem weaken (h : Sound rate capacity tokens spent largest time) (hl : largest ≤ largest') :
    Sound rate capacity tokens spent largest' time :=
  { h with bound := by linarith [h.bound] }

theorem fill (h : Sound rate capacity tokens spent largest time) (hr : 0 ≤ rate) (ht : 0 ≤ dt) :
    Sound rate capacity (TokenBucket.fill rate capacity tokens dt) spent largest (time + dt) where
  full    := min_le_right _ _
  account := by
    have := min_le_left (tokens + dt * rate) capacity
    have := h.account
    rw [TokenBucket.fill]
    linarith
  bound := by
    have := mul_nonneg hr ht
    have := h.bound
    linarith

-- Filling takes nothing out of the bucket.
theorem pos_fill (h : Sound rate capacity tokens spent largest time) (hr : 0 ≤ rate) (ht : 0 ≤ dt)
    (hp : 0 < tokens) : 0 < TokenBucket.fill rate capacity tokens dt := by
  have := mul_nonneg ht hr
  exact lt_min (by linarith) (hp.trans_le h.full)

theorem spend (h : Sound rate capacity tokens spent largest time) (hp : 0 < tokens) (ha : 0 ≤ amount)
    (hl : amount ≤ largest') : Sound rate capacity (tokens - amount) (spent + amount) largest' time where
  full    := by linarith [h.full]
  account := by linarith [h.account]
  bound   := by linarith [h.account]

end Sound

-- The same without a bound on the spending: the tokens are the least of what the bucket held, was filled with and
-- lost since one of these marks, each of which is how long it is ago, and what was spent since.
structure Exact (rate capacity : K) (marks : List (K × K)) (tokens : K) : Prop where
  le       : ∀ mark ∈ marks, tokens ≤ capacity + rate * mark.fst - mark.snd
  attained : ∃ mark ∈ marks, tokens = capacity + rate * mark.fst - mark.snd

namespace Exact

variable {rate capacity tokens time amount : K} {marks : List (K × K)}

theorem start : Exact rate capacity [(0, 0)] capacity where
  le       := by simp
  attained := by simp

variable [IsStrictOrderedRing K]

-- What runs over is forgotten, together with all marks that it is ahead of.
theorem fill (h : Exact rate capacity marks tokens) (time : K) :
    Exact rate capacity (marks.map (fun mark => (mark.fst + time, mark.snd)) ++ [(0, 0)])
      (TokenBucket.fill rate capacity tokens time) where
  le := by
    intro mark hm
    rw [TokenBucket.fill]
    rcases List.mem_append.mp hm with hm | hm
    case inl =>
      obtain ⟨before, hb, rfl⟩ := List.mem_map.mp hm
      have := h.le before hb
      exact (min_le_left _ _).trans (by linarith)
    case inr =>
      rw [List.mem_singleton.mp hm]
      exact (min_le_right _ _).trans (by simp)
  attained := by
    rw [TokenBucket.fill]
    rcases le_total (tokens + time * rate) capacity with hl | hl
    case inl =>
      have ⟨mark, hm, he⟩ := h.attained
      refine ⟨_, List.mem_append_left _ (List.mem_map_of_mem hm), ?_⟩
      rw [min_eq_left hl, he]
      ring
    case inr =>
      refine ⟨(0, 0), by simp, ?_⟩
      rw [min_eq_right hl]
      ring

theorem spend (h : Exact rate capacity marks tokens) (amount : K) :
    Exact rate capacity (marks.map fun mark => (mark.fst, mark.snd + amount)) (tokens - amount) where
  le := by
    intro mark hm
    obtain ⟨before, hb, rfl⟩ := List.mem_map.mp hm
    have := h.le before hb
    linarith
  attained := by
    have ⟨mark, hm, he⟩ := h.attained
    refine ⟨_, List.mem_map_of_mem hm, ?_⟩
    rw [he]
    ring

-- An amount is there exactly if no span up to now exceeds the rate by more than the capacity.
theorem le_iff (h : Exact rate capacity marks tokens) :
    amount ≤ tokens ↔ ∀ mark ∈ marks, mark.snd + amount ≤ capacity + rate * mark.fst := by
  constructor
  case mp =>
    intro ha mark hm
    have := h.le mark hm
    linarith
  case mpr =>
    intro ha
    have ⟨mark, hm, he⟩ := h.attained
    have := ha mark hm
    linarith

end Exact
end TokenBucket
