import Plaza.ClientUtils.Rollback

namespace Plaza.ClientUtils

variable {σ ι : Type*} {n : Nat}

namespace StateHistory

variable {h : StateHistory σ} {cap lo hi frame f : Nat} {state : σ}

-- The history covers the frames from `lo` up to but not including `hi`.
structure Spans (h : StateHistory σ) (cap lo hi : Nat) : Prop where
  capacity : h.capacity = cap
  base     : h.ring.base = lo
  stop     : h.ring.stop = hi
  resets   : h.resets = 0

namespace Spans

theorem le (hs : h.Spans cap lo hi) : lo ≤ hi := by
  rw [←hs.base, ←hs.stop]
  exact Nat.le_add_right ..

theorem le_add_cap (hs : h.Spans cap lo hi) : hi ≤ lo + cap := by
  rw [←hs.base, ←hs.stop, ←hs.capacity]
  exact Nat.add_le_add_left h.bounded _

theorem cap_pos (hs : h.Spans cap lo hi) : 0 < cap :=
  hs.capacity ▸ h.capacity_pos

theorem isEmpty_iff (hs : h.Spans cap lo hi) : h.ring.items.isEmpty ↔ lo = hi := by
  rw [←hs.base, ←hs.stop, List.isEmpty_iff_length_eq_zero, Window.stop]
  omega

theorem oldestFrame_eq_some_iff (hs : h.Spans cap lo hi) :
    h.oldestFrame = some f ↔ lo = f ∧ lo < hi := by
  have he := hs.isEmpty_iff
  have hl := hs.le
  simp only [oldestFrame, Option.ite_none_left_eq_some, Option.some.injEq, hs.base]
  rw [he]
  omega

theorem restore_isSome_iff (hs : h.Spans cap lo hi) : (h.restore f).isSome ↔ lo ≤ f ∧ f < hi := by
  rw [←hs.base, ←hs.stop]
  exact Window.get?_isSome_iff

-- A save extends the span when it is for the next frame, and then evicts what no longer fits.
theorem save (hs : h.Spans cap lo hi) (hl : lo ≤ frame) (hu : frame ≤ hi) :
    (h.save frame state).Spans cap (max lo (max hi (frame + 1) - cap)) (max hi (frame + 1)) := by
  have hc := hs.cap_pos
  have hb := hs.le_add_cap
  unfold StateHistory.save
  split
  case isTrue he =>
    have he := hs.isEmpty_iff.mp he
    exact ⟨hs.capacity, by simp; omega, by simp; omega, hs.resets⟩
  case isFalse =>
    split
    case isTrue he =>
      have he := he.trans hs.stop
      refine ⟨hs.capacity, ?_, ?_, hs.resets⟩
      · rw [Window.base_keep, Window.base_push, Window.stop_push, hs.base, hs.stop, hs.capacity]
        omega
      · rw [Window.stop_keep, Window.stop_push, hs.stop]
        omega
    case isFalse he =>
      rw [hs.stop] at he
      rw [if_pos (by rw [hs.base, hs.stop]; omega)]
      exact ⟨hs.capacity, by simp [hs.base]; omega, by simp [hs.stop]; omega, hs.resets⟩

theorem restore_save (hs : h.Spans cap lo hi) (hl : lo ≤ frame) (hu : frame ≤ hi)
    (hf : max lo (max hi (frame + 1) - cap) ≤ f) :
    (h.save frame state).restore f = if f = frame then some state else h.restore f := by
  unfold StateHistory.save StateHistory.restore
  split
  case isTrue he =>
    have he := hs.isEmpty_iff.mp he
    rw [Window.get?_single]
    split <;> [rfl; skip]
    rw [Window.get?_eq_none]
    rw [hs.base, hs.stop]
    omega
  case isFalse =>
    split
    case isTrue he =>
      have he := he.trans hs.stop
      rw [Window.get?_keep, Window.base_keep, Window.base_push, Window.stop_push, hs.base, hs.stop,
        hs.capacity, if_neg (by omega), Window.get?_push, hs.stop, he]
    case isFalse he =>
      rw [hs.stop] at he
      rw [if_pos (by rw [hs.base, hs.stop]; omega)]
      exact Window.get?_set (by rw [hs.base]; exact hl) (by rw [hs.stop]; omega)

end Spans
end StateHistory

-- The sequential simulation: the state at the start of a frame, given the inputs for all frames.
def groundTruth (advance : σ → (Fin n → ι) → σ) (init : σ) (inputs : Nat → Fin n → ι) : Nat → σ
  | 0         => init
  | frame + 1 => advance (groundTruth advance init inputs frame) (inputs frame)

theorem groundTruth_congr {advance : σ → (Fin n → ι) → σ} {init : σ} {frame : Nat}
    {inputs inputs' : Nat → Fin n → ι} (h : ∀ f < frame, inputs f = inputs' f) :
    groundTruth advance init inputs frame = groundTruth advance init inputs' frame := by
  induction frame
  case zero => rfl
  case succ f hi =>
    simp only [groundTruth]
    rw [hi fun g hg => h g <| Nat.lt_succ_of_lt hg, h f <| Nat.lt_succ_self f]

namespace RollbackSession

variable {s : RollbackSession σ ι n} {init : σ} {inputs inputs' : Nat → Fin n → ι}
  {cap lo hi cur f : Nat} {p : Fin n}

-- The session retains the frames from `lo` up to but not including `hi`. Those before `cur` are as in
-- the sequential simulation with `inputs`, and so is the current state, which is the one at `cur`.
structure Replays (s : RollbackSession σ ι n) (init : σ) (inputs : Nat → Fin n → ι)
    (cap lo hi cur : Nat) : Prop where
  states       : s.stateHistory.Spans cap lo hi
  used         : ∀ p, (s.used p).Spans cap lo hi
  lo_le        : lo ≤ cur
  le_hi        : cur ≤ hi
  restoreUsed  : ∀ p f, lo ≤ f → f < cur → (s.used p).restore f = some (inputs f p)
  restoreState : ∀ f, lo ≤ f → f < cur →
    s.stateHistory.restore f = some (groundTruth s.advance init inputs f)
  current      : s.currentState = groundTruth s.advance init inputs cur

namespace Replays

theorem simulateFrame (h : s.Replays init inputs cap lo hi cur)
    (hn : inputs cur = fun p => s.inputFor p cur) :
    (s.simulateFrame cur).Replays init inputs cap (max lo (max hi (cur + 1) - cap))
      (max hi (cur + 1)) (cur + 1) := by
  have hl := h.lo_le
  have hu := h.le_hi
  have hb := h.states.le_add_cap
  constructor
  case states  => exact h.states.save hl hu
  case used    => exact fun p => (h.used p).save hl hu
  case lo_le   => omega
  case le_hi   => omega
  case current =>
    simp only [RollbackSession.simulateFrame, groundTruth]
    rw [h.current, hn]
  case restoreUsed =>
    intro p f hf hf'
    simp only [RollbackSession.simulateFrame]
    rw [(h.used p).restore_save hl hu hf]
    split
    case isTrue he  => rw [he, hn]
    case isFalse he => exact h.restoreUsed p f (by omega) (by omega)
  case restoreState =>
    intro f hf hf'
    simp only [RollbackSession.simulateFrame]
    rw [h.states.restore_save hl hu hf]
    split
    case isTrue he  => rw [he, h.current]
    case isFalse he => exact h.restoreState f (by omega) (by omega)

theorem simulateFrames {count : Nat} (h : s.Replays init inputs cap lo hi cur)
    (hc : cur + count = hi) (hn : ∀ f, cur ≤ f → f < hi → inputs f = fun p => s.inputFor p f) :
    (s.simulateFrames cur count).Replays init inputs cap lo hi hi := by
  induction count generalizing s cur
  case zero => exact (Nat.add_zero cur).symm.trans hc ▸ h
  case succ count hr =>
    have hs := h.simulateFrame <| hn cur (Nat.le_refl _) (by omega)
    have hb := h.states.le_add_cap
    rw [Nat.max_eq_left (by omega : cur + 1 ≤ hi), Nat.max_eq_left (by omega : hi - cap ≤ lo)] at hs
    exact hr hs (by omega) fun f hl hu => hn f (by omega) hu

theorem congr (h : s.Replays init inputs cap lo hi cur) (inputs' : Nat → Fin n → ι)
    (hn : ∀ g < cur, inputs' g = inputs g) :
    s.Replays init inputs' cap lo hi cur where
  states       := h.states
  used         := h.used
  lo_le        := h.lo_le
  le_hi        := h.le_hi
  current      := h.current.trans (groundTruth_congr hn).symm
  restoreUsed  := fun p g hg hg' => hn g hg' ▸ h.restoreUsed p g hg hg'
  restoreState := fun g hg hg' => by
    rw [groundTruth_congr fun k hk => hn k (Nat.lt_trans hk hg')]
    exact h.restoreState g hg hg'

-- A rollback restores the state at an earlier frame.
theorem restart (h : s.Replays init inputs cap lo hi cur) (hl : lo ≤ f) (hu : f ≤ cur) :
    { s with currentState := groundTruth s.advance init inputs f }.Replays init inputs cap lo hi f where
  states       := h.states
  used         := h.used
  lo_le        := hl
  le_hi        := Nat.le_trans hu h.le_hi
  current      := rfl
  restoreUsed  := fun p g hg hg' => h.restoreUsed p g hg (Nat.lt_of_lt_of_le hg' hu)
  restoreState := fun g hg hg' => h.restoreState g hg (Nat.lt_of_lt_of_le hg' hu)

end Replays

-- What a session is set up with and was told, which no simulation changes.
structure SameSetup (s s' : RollbackSession σ ι n) : Prop where
  timelines       : s'.timelines = s.timelines
  neutral         : s'.neutral = s.neutral
  advance         : s'.advance = s.advance
  predictor       : s'.predictor = s.predictor
  rollbackEnabled : s'.rollbackEnabled = s.rollbackEnabled

theorem SameSetup.inputFor {s s' : RollbackSession σ ι n} (h : SameSetup s s') :
    s'.inputFor = s.inputFor := by
  funext p f
  simp only [RollbackSession.inputFor, h.timelines, h.neutral, h.predictor]

theorem simulateFrames_setup (s : RollbackSession σ ι n) (f count : Nat) :
    SameSetup s (s.simulateFrames f count) ∧ (s.simulateFrames f count).headFrame = s.headFrame ∧
      (s.simulateFrames f count).earliestIncorrect = s.earliestIncorrect := by
  induction count generalizing s f
  case zero => exact ⟨⟨rfl, rfl, rfl, rfl, rfl⟩, rfl, rfl⟩
  case succ hi =>
    have ⟨h, he⟩ := hi (s.simulateFrame f) (f + 1)
    exact ⟨⟨h.timelines, h.neutral, h.advance, h.predictor, h.rollbackEnabled⟩, he⟩

theorem resolveRollback_setup (s : RollbackSession σ ι n) :
    SameSetup s s.resolveRollback ∧ s.resolveRollback.headFrame = s.headFrame ∧
      s.resolveRollback.earliestIncorrect = none := by
  have hc : SameSetup s { s with lastRollbackLen := 0, earliestIncorrect := none } :=
    ⟨rfl, rfl, rfl, rfl, rfl⟩
  unfold resolveRollback
  split
  case h_1 => exact ⟨hc, rfl, rfl⟩
  case h_2 earliest _ =>
    cases s.stateHistory.restore earliest
    case none => exact ⟨hc, rfl, rfl⟩
    case some restored =>
      have ⟨h, he⟩ := simulateFrames_setup
        { s with lastRollbackLen := 0, earliestIncorrect := none, currentState := restored }
        earliest (s.headFrame - earliest)
      exact ⟨⟨h.timelines, h.neutral, h.advance, h.predictor, h.rollbackEnabled⟩, he⟩

theorem advanceFrame_setup (s : RollbackSession σ ι n) :
    SameSetup s s.advanceFrame ∧ s.advanceFrame.headFrame = s.headFrame + 1 ∧
      s.advanceFrame.earliestIncorrect = none := by
  have ⟨h, hf, he⟩ := s.resolveRollback_setup
  exact ⟨⟨h.timelines, h.neutral, h.advance, h.predictor, h.rollbackEnabled⟩, congrArg (· + 1) hf, he⟩

-- The inputs which the session has used last, once it has advanced: from where the rollback starts
-- on they are the ones that it has for each frame now.
def replayed (s : RollbackSession σ ι n) (inputs : Nat → Fin n → ι) (f : Nat) (p : Fin n) : ι :=
  if s.headFrame ≤ f || s.rollbackStart.any (· ≤ f) then s.inputFor p f else inputs f p

theorem replayed_eq_inputFor (h : s.headFrame ≤ f ∨ ∃ r ∈ s.rollbackStart, r ≤ f) :
    s.replayed inputs f = fun p => s.inputFor p f := by
  funext p
  apply if_pos
  simpa [Option.any_eq_true] using h

theorem replayed_eq_inputs (hf : f < s.headFrame) (hr : ∀ r ∈ s.rollbackStart, f < r) :
    s.replayed inputs f = inputs f := by
  funext p
  apply if_neg
  simpa [Option.any_eq_true, hf] using hr

namespace Replays

theorem rollbackStart_eq_some_iff (h : s.Replays init inputs cap lo s.headFrame s.headFrame) :
    s.rollbackStart = some f ↔
      s.rollbackEnabled ∧ lo < s.headFrame ∧
      ∃ e ∈ s.earliestIncorrect, e < s.headFrame ∧ f = max e lo := by
  simp only [rollbackStart, Option.bind_eq_bind, Option.bind_eq_some_iff,
    h.states.oldestFrame_eq_some_iff, Option.ite_none_right_eq_some, Bool.and_eq_true,
    decide_eq_true_eq, Option.some.injEq, Option.mem_def]
  constructor
  case mp =>
    intro ⟨e, he, _, ⟨hl, hl'⟩, ⟨hr, hh⟩, hf⟩
    exact ⟨hr, hl', e, he, hh, by omega⟩
  case mpr =>
    intro ⟨hr, hl, e, he, hh, hf⟩
    exact ⟨e, he, lo, ⟨rfl, hl⟩, ⟨hr, hh⟩, hf.symm⟩

theorem resolveRollback (h : s.Replays init inputs cap lo s.headFrame s.headFrame) :
    s.resolveRollback.Replays init (s.replayed inputs) cap lo s.headFrame s.headFrame := by
  have hc : Replays { s with lastRollbackLen := 0, earliestIncorrect := none } init inputs cap lo
    s.headFrame s.headFrame := { h with }
  unfold RollbackSession.resolveRollback
  cases hs : s.rollbackStart
  case none =>
    exact hc.congr _ fun g hg => replayed_eq_inputs hg <| by simp [hs]
  case some r =>
    have ⟨_, _, e, _, he, hr⟩ := h.rollbackStart_eq_some_iff.mp hs
    have hl : lo ≤ r := by omega
    have hu : r < s.headFrame := by omega
    simp only [h.restoreState r hl hu, Option.elim_some]
    have hc := hc.restart hl (Nat.le_of_lt hu)
    have hc := hc.congr (s.replayed inputs) fun g hg =>
      replayed_eq_inputs (Nat.lt_trans hg hu) <| by simp [hs, hg]
    have hc := hc.simulateFrames (Nat.add_sub_of_le <| Nat.le_of_lt hu) fun g hg _ =>
      replayed_eq_inputFor <| .inr ⟨r, hs, hg⟩
    exact { hc with }

theorem advanceFrame (h : s.Replays init inputs cap lo s.headFrame s.headFrame) :
    s.advanceFrame.Replays init (s.replayed inputs) cap (max lo (s.headFrame + 1 - cap))
      (s.headFrame + 1) (s.headFrame + 1) := by
  have ⟨hs, hf, _⟩ := s.resolveRollback_setup
  have hr := h.resolveRollback.simulateFrame <| by
    rw [replayed_eq_inputFor (.inl <| Nat.le_refl _), hs.inputFor]
  rw [Nat.max_eq_right (Nat.le_succ _)] at hr
  simp only [RollbackSession.advanceFrame, hf]
  exact { hr with }

end Replays
end RollbackSession
end Plaza.ClientUtils

namespace Plaza.ClientUtils

variable {σ ι : Type*} {n : Nat}

namespace InputTimeline

variable {t : InputTimeline ι} {f g : Nat} {input c : ι}

-- Whether an input for the frame is kept.
def Accepts (t : InputTimeline ι) (frame : Nat) : Prop :=
  t.slots.items.isEmpty ∨ t.slots.base ≤ frame

theorem confirmedAt_eq_some_iff : t.confirmedAt f = some c ↔ t.slots.get? f = some (some c) := by
  rw [confirmedAt, Option.join_eq_some_iff]

theorem confirm_of_not_accepts (h : ¬t.Accepts f) : t.confirm f input = t := by
  rw [Accepts, not_or, Nat.not_le] at h
  rw [confirm, if_neg h.left, if_pos h.right]

namespace Accepts

theorem base_confirm (h : t.Accepts f) (input : ι) :
    (t.confirm f input).slots.base =
      if t.slots.items.isEmpty then f else max t.slots.base (max t.slots.stop (f + 1) - t.capacity) := by
  unfold confirm
  split <;> [rfl; skip]
  rw [if_neg <| Nat.not_lt_of_le <| h.resolve_left ‹_›]
  simp only [Window.base_keep]
  split <;> simp <;> omega

theorem stop_confirm (h : t.Accepts f) (input : ι) :
    (t.confirm f input).slots.stop =
      if t.slots.items.isEmpty then f + 1 else max t.slots.stop (f + 1) := by
  unfold confirm
  split <;> [rfl; skip]
  rw [if_neg <| Nat.not_lt_of_le <| h.resolve_left ‹_›]
  simp only [Window.stop_keep]
  split <;> simp <;> omega

-- What is still retained after a confirmation is what was known before, and the new input.
theorem confirmedAt_confirm (h : t.Accepts f) (hg : (t.confirm f input).slots.base ≤ g) :
    (t.confirm f input).confirmedAt g = if g = f then some input else t.confirmedAt g := by
  unfold confirm at hg ⊢
  split at hg
  case isTrue he =>
    have hn : t.slots.get? g = none := by
      rw [List.isEmpty_iff] at he
      simp [Window.get?, he]
    simp only [he, ↓reduceIte, confirmedAt, Window.get?_single, hn]
    split <;> rfl
  case isFalse he =>
    have hb := h.resolve_left he
    rw [if_neg <| Nat.not_lt_of_le hb] at hg
    simp only [Bool.not_eq_true] at he
    simp only [he, Nat.not_lt_of_le hb, Bool.false_eq_true, ↓reduceIte, confirmedAt,
      Window.get?_keep] at hg ⊢
    rw [if_neg <| Nat.not_lt_of_le hg]
    split
    case isTrue hs =>
      rw [Window.get?_set hb hs]
      split <;> rfl
    case isFalse hs =>
      rw [Window.get?_push, Window.stop_pad, Nat.max_eq_right (Nat.le_of_not_lt hs), Window.get?_pad]
      split <;> [rfl; skip]
      split <;> [skip; rfl]
      rw [Window.get?_eq_none (by omega)]
      rfl

end Accepts

theorem confirmedAt_of_confirm (h : (t.confirm f input).confirmedAt g = some c) :
    g = f ∧ c = input ∨ t.confirmedAt g = some c := by
  by_cases ha : t.Accepts f
  case neg => exact .inr <| confirm_of_not_accepts ha ▸ h
  case pos =>
    have hb := Window.bounds_of_get? <| confirmedAt_eq_some_iff.mp h
    rw [ha.confirmedAt_confirm hb.left] at h
    split at h
    case isTrue he  => exact .inl ⟨he, (Option.some.inj h).symm⟩
    case isFalse he => exact .inr h

end InputTimeline

namespace RollbackSession

open InputTimeline

variable {s s' : RollbackSession σ ι n} {init : σ} {inputs : Nat → Fin n → ι} {cap lo f : Nat}
  {p : Fin n} {a : σ} {advance : σ → (Fin n → ι) → σ}

-- The retained states and the retained inputs are for the same unbroken run of frames up to the
-- current one, and each state follows from the one before by the inputs recorded for its frame.
structure Consistent (s : RollbackSession σ ι n) (advance : σ → (Fin n → ι) → σ) : Prop where
  unbroken : s.stateHistory.ring.stop = s.headFrame ∧ s.stateHistory.resets = 0
  aligned  : ∀ p, (s.used p).ring.base = s.stateHistory.ring.base ∧
    (s.used p).ring.stop = s.stateHistory.ring.stop
  chained  : ∀ f a, s.stateHistory.restore f = some a →
    ∃ inputs : Fin n → ι, (∀ p, (s.used p).restore f = some (inputs p)) ∧
      s.stateAt (f + 1) = some (advance a inputs)

-- Every retained input is the confirmed one, if this is retained too.
def Agrees (s : RollbackSession σ ι n) : Prop :=
  ∀ p f used confirmed, (s.used p).restore f = some used →
    (s.timelines p).confirmedAt f = some confirmed → used = confirmed

namespace Replays

theorem stateAt_eq (h : s.Replays init inputs cap lo s.headFrame s.headFrame) (hl : lo ≤ f)
    (hu : f ≤ s.headFrame) : s.stateAt f = some (groundTruth s.advance init inputs f) := by
  unfold stateAt
  split
  case isTrue he  => rw [he, h.current]
  case isFalse he => exact h.restoreState f hl <| Nat.lt_of_le_of_ne hu he

theorem bounds_of_stateAt (h : s.Replays init inputs cap lo s.headFrame s.headFrame)
    (ha : s.stateAt f = some a) :
    lo ≤ f ∧ f ≤ s.headFrame ∧ a = groundTruth s.advance init inputs f := by
  have hb : lo ≤ f ∧ f ≤ s.headFrame := by
    unfold stateAt at ha
    split at ha
    case isTrue he => exact ⟨he ▸ h.lo_le, Nat.le_of_eq he⟩
    case isFalse =>
      have hb := h.states.restore_isSome_iff.mp <| Option.isSome_of_mem ha
      exact ⟨hb.left, Nat.le_of_lt hb.right⟩
  rw [h.stateAt_eq hb.left hb.right, Option.some.injEq] at ha
  exact ⟨hb.left, hb.right, ha.symm⟩

theorem consistent (h : s.Replays init inputs cap lo s.headFrame s.headFrame) :
    s.Consistent s.advance where
  unbroken       := ⟨h.states.stop, h.states.resets⟩
  aligned p      := ⟨(h.used p).base.trans h.states.base.symm, (h.used p).stop.trans h.states.stop.symm⟩
  chained f a ha := by
    have ⟨hl, hu⟩ := h.states.restore_isSome_iff.mp <| Option.isSome_of_mem ha
    refine ⟨inputs f, fun p => h.restoreUsed p f hl hu, ?_⟩
    rw [h.restoreState f hl hu, Option.some.injEq] at ha
    rw [h.stateAt_eq (Nat.le_succ_of_le hl) hu, ←ha]
    rfl

end Replays

theorem confirmedAt_of_confirm {player : Fin n} {frame : Nat} {input c : ι}
    (h : ((s.confirm player frame input).timelines p).confirmedAt f = some c) :
    p = player ∧ f = frame ∧ c = input ∨ (s.timelines p).confirmedAt f = some c := by
  simp only [confirm] at h
  by_cases hp : p = player
  case neg => exact .inr <| by rwa [Function.update_of_ne hp] at h
  case pos =>
    subst hp
    rw [Function.update_self] at h
    exact (InputTimeline.confirmedAt_of_confirm h).imp_left fun h => ⟨rfl, h⟩

section Remote

variable [DecidableEq ι] {player : Fin n} {frame e : Nat} {input : ι}

-- Only the frame that was confirmed gets marked, and only if it is retained.
theorem earliestIncorrect_of_confirmRemoteInput
    (he : e ∈ (s.confirmRemoteInput player frame input).earliestIncorrect) :
    e ∈ s.earliestIncorrect ∨ e = frame ∧ frame < s.headFrame ∧ ((s.used player).restore frame).isSome := by
  simp only [confirmRemoteInput] at he
  split at he <;> [skip; exact .inl he]
  case isTrue hm =>
    rw [Bool.and_eq_true, decide_eq_true_eq, Option.any_eq_true] at hm
    have ⟨hf, _, hu, _⟩ := hm
    have hm : frame < s.headFrame ∧ ((s.used player).restore frame).isSome := ⟨hf, by simp [hu]⟩
    simp only [Option.mem_def, Option.some.injEq] at he
    cases hs : s.earliestIncorrect
    case none    => exact .inr ⟨by simpa [hs] using he.symm, hm⟩
    case some e' =>
      simp only [hs, Option.elim_some] at he
      cases Nat.le_total e' frame
      case inl hl => exact .inl <| by simp [←he, hl]
      case inr hl => exact .inr ⟨by simp [←he, hl], hm⟩

theorem earliestIncorrect_le_of_confirmRemoteInput
    (h : (∃ e ∈ s.earliestIncorrect, e ≤ f) ∨ frame ≤ f ∧ frame < s.headFrame ∧
      ∃ used, (s.used player).restore frame = some used ∧ used ≠ input) :
    ∃ e ∈ (s.confirmRemoteInput player frame input).earliestIncorrect, e ≤ f := by
  simp only [confirmRemoteInput]
  cases h
  case inl h =>
    have ⟨e, he, hl⟩ := h
    split <;> [skip; exact ⟨e, he, hl⟩]
    simp only [Option.mem_def.mp he, Option.elim_some]
    exact ⟨_, rfl, Nat.le_trans (Nat.min_le_left ..) hl⟩
  case inr h =>
    have ⟨hl, hf, used, hu, hn⟩ := h
    rw [if_pos <| by simp [hf, hu, hn]]
    cases hs : s.earliestIncorrect
    case none   => exact ⟨frame, by simp, hl⟩
    case some e => exact ⟨min e frame, by simp, Nat.le_trans (Nat.min_le_right ..) hl⟩

end Remote

-- A retained input differs from the confirmed one only for frames which the next rollback will
-- simulate again.
structure Coherent (s : RollbackSession σ ι n) (advance : σ → (Fin n → ι) → σ) : Prop where
  replays : ∃ init inputs cap lo, s.Replays init inputs cap lo s.headFrame s.headFrame
  advance : s.advance = advance
  enabled : s.rollbackEnabled
  past    : ∀ e ∈ s.earliestIncorrect, e < s.headFrame
  settled : ∀ p f used confirmed, (s.used p).restore f = some used →
    (s.timelines p).confirmedAt f = some confirmed →
    used = confirmed ∨ ∃ e ∈ s.earliestIncorrect, e ≤ f

namespace Coherent

theorem start (init : σ) (neutral : Fin n → ι) (config : RollbackConfig)
    (advance : σ → (Fin n → ι) → σ) (predictor : ι → Nat → ι) :
    Coherent (new init neutral config advance |>.withPredictor predictor) advance where
  replays := ⟨init, fun _ => neutral, _, 0, ⟨rfl, rfl, rfl, rfl⟩, fun _ => ⟨rfl, rfl, rfl, rfl⟩,
    Nat.le_refl _, Nat.le_refl _, nofun, nofun, rfl⟩
  advance := rfl
  enabled := rfl
  past    := nofun
  settled := by simp [new, withPredictor, StateHistory.new, StateHistory.restore, Window.get?]

theorem queueLocalInput (h : s.Coherent advance) (player : Fin n) (input : ι) :
    (s.queueLocalInput player input).Coherent advance where
  replays :=
    have ⟨_, _, _, _, hr⟩ := h.replays
    ⟨_, _, _, _, { hr with }⟩
  advance := h.advance
  enabled := h.enabled
  past    := h.past
  settled := by
    have ⟨_, _, _, _, hr⟩ := h.replays
    intro p f used confirmed hu hc
    have hf := (hr.used p).restore_isSome_iff.mp <| Option.isSome_of_mem hu
    cases confirmedAt_of_confirm hc
    case inl he => exact absurd he.right.left <| Nat.ne_of_lt hf.right
    case inr hc => exact h.settled p f used confirmed hu hc

theorem confirmRemoteInput [DecidableEq ι] (h : s.Coherent advance) (player : Fin n) (frame : Nat)
    (input : ι) : (s.confirmRemoteInput player frame input).Coherent advance where
  replays :=
    have ⟨_, _, _, _, hr⟩ := h.replays
    ⟨_, _, _, _, { hr with }⟩
  advance := h.advance
  enabled := h.enabled
  past    := by
    intro e he
    cases earliestIncorrect_of_confirmRemoteInput he
    case inl he => exact h.past e he
    case inr he => exact he.left ▸ he.right.left
  settled := by
    have ⟨_, _, _, _, hr⟩ := h.replays
    intro p f used confirmed hu hc
    cases confirmedAt_of_confirm hc
    case inl he =>
      have ⟨hp, hf, hi⟩ := he
      subst hp hf hi
      have hf := (hr.used p).restore_isSome_iff.mp <| Option.isSome_of_mem hu
      by_cases hn : used = confirmed
      case pos => exact .inl hn
      case neg =>
        refine .inr <| earliestIncorrect_le_of_confirmRemoteInput <| .inr ?_
        exact ⟨Nat.le_refl _, hf.right, used, hu, hn⟩
    case inr hc =>
      exact (h.settled p f used confirmed hu hc).imp_right
        (earliestIncorrect_le_of_confirmRemoteInput <| .inl ·)

theorem advanceFrame (h : s.Coherent advance) : s.advanceFrame.Coherent advance ∧ s.advanceFrame.Agrees := by
  obtain ⟨init, inputs, cap, lo, hr⟩ := h.replays
  obtain ⟨hs, hf, he⟩ := s.advanceFrame_setup
  have hr' := hr.advanceFrame
  have ha : s.advanceFrame.Agrees := by
    intro p f used confirmed hu hc
    have hb := (hr'.used p).restore_isSome_iff.mp <| Option.isSome_of_mem hu
    rw [hr'.restoreUsed p f hb.left hb.right, Option.some.injEq] at hu
    rw [hs.timelines] at hc
    by_cases hn : s.headFrame ≤ f ∨ ∃ r ∈ s.rollbackStart, r ≤ f
    case pos =>
      rw [replayed_eq_inputFor hn] at hu
      simp only [inputFor, hc] at hu
      exact hu.symm
    case neg =>
      simp only [not_or, not_exists, not_and, Nat.not_le] at hn
      have hl : lo ≤ f := Nat.le_trans (Nat.le_max_left ..) hb.left
      rw [replayed_eq_inputs hn.left hn.right] at hu
      cases h.settled p f used confirmed (hu ▸ hr.restoreUsed p f hl hn.left) hc
      case inl hc => exact hc
      case inr hc =>
        obtain ⟨e, he, hle⟩ := hc
        have hr := hr.rollbackStart_eq_some_iff.mpr
          ⟨h.enabled, Nat.lt_of_le_of_lt hl hn.left, e, he, h.past e he, rfl⟩
        have := hn.right _ hr
        omega
  refine ⟨⟨⟨init, _, cap, _, hf ▸ hr'⟩, hs.advance.trans h.advance, hs.rollbackEnabled ▸ h.enabled,
    by simp [he], ?_⟩, ha⟩
  exact fun p f used confirmed hu hc => .inl <| ha p f used confirmed hu hc

end Coherent

variable [DecidableEq ι] {es : List (Call ι n)} {e : Call ι n}

theorem step_coherent (h : s.Coherent advance) (hs : machine.step s e = some s') :
    s'.Coherent advance := by
  cases e <;> cases hs
  case queueLocalInput player input          => exact h.queueLocalInput player input
  case confirmRemoteInput player frame input => exact h.confirmRemoteInput player frame input
  case advanceFrame                          => exact h.advanceFrame.left

-- Whatever a session is told, what it retains is a piece of one simulation, and once it advances it
-- has used every input that it knows.
theorem history_consistent {neutral : Fin n → ι} {config : RollbackConfig} {predictor : ι → Nat → ι}
    (h : machine.Steps (new init neutral config advance |>.withPredictor predictor) es s) :
    s.Consistent advance ∧ s.advanceFrame.Agrees :=
  have hc := h.preserves step_coherent <| .start init neutral config advance predictor
  have ⟨_, _, _, _, hr⟩ := hc.replays
  ⟨hc.advance ▸ hr.consistent, hc.advanceFrame.right⟩

theorem history_consistent_corrected :
    ∃ s, machine.Steps (new 0 (fun _ : Fin 2 => 0) {} fun state inputs => state + inputs 0 + inputs 1)
        [.queueLocalInput 0 1, .advanceFrame, .confirmRemoteInput 1 0 5] s ∧
      s.Consistent (fun state inputs => state + inputs 0 + inputs 1) ∧ s.advanceFrame.Agrees :=
  have h := .step rfl <| .step rfl <| .step rfl .refl
  ⟨_, h, history_consistent h⟩

end RollbackSession
end Plaza.ClientUtils
