import Mathlib.Data.Rat.Cast.Order
import Plaza.Session.Budget

namespace Plaza.Session

variable {K : Type} [Field K] [LinearOrder K]

namespace Credit

variable {budget : OutboundBudget K} {c : Credit K} {spentBytes spentFrames largest largest' time : K}
variable {startUs nowUs bytes : Nat}

-- What a frame needs to be owed.
structure Owes (c : Credit K) (budget : OutboundBudget K) : Prop where
  bytes  : ∀ rate, budget.bytesPerSec = some rate → 0 < c.bytes
  frames : ∀ rate, budget.framesPerSec = some rate → 0 < c.frames

theorem owed_iff : (c.owed budget nowUs).snd ↔ (c.refill budget nowUs).Owes budget := by
  simp only [owed, Bool.and_eq_true, Bool.or_eq_true, decide_eq_true_eq]
  constructor
  case mp  => exact fun h => ⟨fun _ hr => by simpa [hr] using h.left, fun _ hr => by simpa [hr] using h.right⟩
  case mpr =>
    intro h
    constructor
    case left  => cases hr : budget.bytesPerSec <;> simp [h.bytes _, hr]
    case right => cases hr : budget.framesPerSec <;> simp [h.frames _, hr]

omit [LinearOrder K] in
-- The time until a reading which is not early.
theorem add_elapsed (hs : startUs ≤ c.lastUs) (hn : c.lastUs ≤ nowUs) :
    (c.lastUs - startUs : Nat) / 1000000 + c.elapsed nowUs = ((nowUs - startUs : Nat) / 1000000 : K) := by
  rw [elapsed, ←add_div, ←Nat.cast_add]
  congr 2
  omega

variable [IsStrictOrderedRing K]

theorem burstSecs_nonneg : 0 ≤ budget.burstSecs :=
  div_nonneg (Nat.cast_nonneg _) (by norm_num)

theorem elapsed_nonneg : 0 ≤ c.elapsed nowUs :=
  div_nonneg (Nat.cast_nonneg _) (by norm_num)

-- Each quantity with a rate is a bucket of tokens which soundly accounts for what was charged.
structure Sound (c : Credit K) (budget : OutboundBudget K) (spentBytes spentFrames largest time : K) : Prop where
  bytes  : ∀ rate, budget.bytesPerSec = some rate →
    TokenBucket.Sound rate (rate * budget.burstSecs) c.bytes spentBytes largest time
  frames : ∀ rate, budget.framesPerSec = some rate →
    TokenBucket.Sound rate (rate * budget.burstSecs) c.frames spentFrames 1 time

theorem Sound.full : (full budget nowUs).Sound budget 0 0 0 0 where
  bytes rate hr := by
    rw [Credit.full, hr]
    exact .start (mul_nonneg (budget.bytes_nonneg rate hr) burstSecs_nonneg)
  frames rate hr := by
    have hc : 0 ≤ rate * budget.burstSecs := mul_nonneg (budget.frames_nonneg rate hr) burstSecs_nonneg
    rw [Credit.full, hr]
    exact (TokenBucket.Sound.start hc).weaken zero_le_one

theorem Sound.refill (h : c.Sound budget spentBytes spentFrames largest time) (nowUs : Nat) :
    (c.refill budget nowUs).Sound budget spentBytes spentFrames largest (time + c.elapsed nowUs) where
  bytes rate hr := by
    rw [Credit.refill, hr]
    exact (h.bytes rate hr).fill (budget.bytes_nonneg rate hr) elapsed_nonneg
  frames rate hr := by
    rw [Credit.refill, hr]
    exact (h.frames rate hr).fill (budget.frames_nonneg rate hr) elapsed_nonneg

theorem Owes.refill (h : c.Owes budget) (hs : c.Sound budget spentBytes spentFrames largest time) :
    (c.refill budget nowUs).Owes budget where
  bytes rate hr := by
    rw [Credit.refill, hr]
    exact (hs.bytes rate hr).pos_fill (budget.bytes_nonneg rate hr) elapsed_nonneg (h.bytes rate hr)
  frames rate hr := by
    rw [Credit.refill, hr]
    exact (hs.frames rate hr).pos_fill (budget.frames_nonneg rate hr) elapsed_nonneg (h.frames rate hr)

theorem Sound.charge (h : c.Sound budget spentBytes spentFrames largest time) (nowUs : Nat)
    (ho : c.Owes budget) (hl : bytes ≤ largest') : (c.charge budget nowUs bytes).Sound budget (spentBytes + bytes) (spentFrames + 1)
      largest' (time + c.elapsed nowUs) where
  bytes rate hr  := ((h.refill nowUs).bytes rate hr).spend ((ho.refill h).bytes rate hr) (Nat.cast_nonneg _) hl
  frames rate hr := ((h.refill nowUs).frames rate hr).spend ((ho.refill h).frames rate hr) zero_le_one (le_refl _)

end Credit

namespace Spending

variable {budget : OutboundBudget K} {s s' : Spending K} {e : Event} {es : List Event} {start nowUs : Nat}

-- As long as the readings come in order, the time that was credited is the time that passed.
structure Invariant (s : Spending K) : Prop where
  latest : s.credit.lastUs = s.latest
  start  : s.start ≤ s.latest
  sound  : s.credit.Sound s.budget s.bytes s.frames s.largest s.lasted

theorem Invariant.bounded (h : s.Invariant) : s.Bounded :=
  ⟨fun rate hr => (h.sound.bytes rate hr).bound, fun rate hr => (h.sound.frames rate hr).bound⟩

variable [IsStrictOrderedRing K]

theorem Invariant.full : (full budget start).Invariant where
  latest := rfl
  start  := Nat.le_refl _
  sound  := by
    have h : (Credit.full budget start).Sound budget 0 0 0 0 := .full
    simpa [Spending.full, lasted] using h

theorem Invariant.ask (h : s.Invariant) (hs : (machine.restrict Forward).step s (.ask nowUs) = some s') :
    s'.Invariant := by
  obtain ⟨hf, hs⟩ := Machine.restrict_step_iff.mp hs
  cases hs
  have hl : s.latest ≤ nowUs := h.latest ▸ hf
  have hm : max s.latest nowUs = nowUs := max_eq_right hl
  refine ⟨hm.symm, Nat.le_trans h.start (le_max_left ..), ?_⟩
  have hr := h.sound.refill nowUs
  rw [lasted, ←h.latest, Credit.add_elapsed (h.latest ▸ h.start) hf] at hr
  rw [lasted]
  dsimp only
  rwa [hm]

theorem Invariant.send {askedUs chargedUs bytes : Nat} (h : s.Invariant)
    (hs : (machine.restrict Forward).step s (.send askedUs chargedUs bytes) = some s') : s'.Invariant := by
  obtain ⟨⟨ha, hc⟩, hs⟩ := Machine.restrict_step_iff.mp hs
  simp only [machine, Option.ite_none_right_eq_some, Option.some.injEq] at hs
  obtain ⟨ho, rfl⟩ := hs
  have hm : max (max s.latest askedUs) chargedUs = chargedUs := by
    have := h.latest
    omega
  have hs : s.start ≤ s.credit.lastUs := h.latest ▸ h.start
  have hb : (bytes : K) ≤ (max s.largest bytes : Nat) := Nat.cast_le.mpr (le_max_right ..)
  refine ⟨hm.symm, (hs.trans ha).trans (hc.trans (le_max_right ..)), ?_⟩
  have hr := (h.sound.refill askedUs).charge chargedUs (Credit.owed_iff.mp ho) hb
  rw [lasted, ←h.latest, Credit.add_elapsed hs ha] at hr
  have he : ((askedUs - s.start : Nat) / 1000000 : K) + (s.credit.refill s.budget askedUs).elapsed chargedUs =
      (chargedUs - s.start : Nat) / 1000000 :=
    Credit.add_elapsed (c := s.credit.refill s.budget askedUs) (hs.trans ha) hc
  rw [he, ←Nat.cast_add, ←Nat.cast_succ] at hr
  rw [lasted]
  dsimp only
  rwa [hm]

theorem Invariant.step (h : s.Invariant) (hs : (machine.restrict Forward).step s e = some s') : s'.Invariant := by
  cases e
  case ask  => exact h.ask hs
  case send => exact h.send hs

-- A connection is not sent more than its budget, as long as no clock reading is earlier than the one before.
theorem bounded_of_forward (h : (machine.restrict Forward).Steps (full budget start) es s) : s.Bounded :=
  (h.preserves Invariant.step .full).bounded

-- A byte per second, with a burst of a second.
def slow : OutboundBudget ℚ where
  bytesPerSec   := some 1
  framesPerSec  := none
  burst         := 1000000000
  bytes_nonneg  := by simp
  frames_nonneg := nofun

theorem bounded_of_forward_slow :
    ∃ s, (machine.restrict Forward).Steps (full slow 0)
      [.ask 500000, .send 600000 600000 2, .ask 3000000, .send 3000000 3000001 1] s ∧ s.Bounded := by
  have hr : ((machine.restrict Forward).run (full slow 0)
    [.ask 500000, .send 600000 600000 2, .ask 3000000, .send 3000000 3000001 1]).isSome := by decide +kernel
  have ⟨s, hs⟩ := Option.isSome_iff_exists.mp hr
  have hs := Machine.run_eq_some_iff.mp hs
  exact ⟨s, hs, bounded_of_forward hs⟩

-- A task which read the clock at the start and has the credit late lets the same second be credited again.
theorem not_bounded : ¬∀ (budget : OutboundBudget ℚ) start es s,
    machine.Steps (full budget start) es s → s.Bounded := by
  intro h
  have hr : (machine.run (full slow 0) [.send 1000000 1000000 1, .ask 0, .send 1000000 1000000 1, .ask 0,
    .send 1000000 1000000 1, .ask 0, .send 1000000 1000000 1]).any fun s =>
      s.budget.bytesPerSec = some 1 ∧ ¬((s.bytes : ℚ) ≤ 1 * s.budget.burstSecs + 1 * s.lasted + s.largest) := by
    decide +kernel
  have ⟨s, hs, hb⟩ := (Option.any_eq_true ..).mp hr
  have ⟨hb, hn⟩ := of_decide_eq_true hb
  exact hn <| (h slow 0 _ s (Machine.run_eq_some_iff.mp hs)).left 1 hb

end Spending
end Plaza.Session
