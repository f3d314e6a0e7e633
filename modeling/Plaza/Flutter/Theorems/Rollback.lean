import Plaza.Flutter.Rollback

namespace Plaza.ClientUtils.RollbackSession

variable {σ ι : Type*} {n : Nat}

-- A session on which no correction is pending.
def cleared (s : RollbackSession σ ι n) : RollbackSession σ ι n :=
  { s with lastRollbackLen := 0, earliestIncorrect := none }

theorem resolveRollback_eq (s : RollbackSession σ ι n) : s.resolveRollback =
    (s.rollbackStart.bind fun earliest => (s.stateHistory.restore earliest).map (s.cleared.rollback earliest)).getD
      s.cleared := by
  unfold resolveRollback
  cases s.rollbackStart
  case none          => rfl
  case some earliest => cases h : s.stateHistory.restore earliest <;> simp [h, cleared]

end Plaza.ClientUtils.RollbackSession

namespace Plaza.Flutter

open ClientUtils (RollbackConfig repeatLastInput)

variable {σ ι : Type*} {n : Nat} {frame : Nat}

namespace StateHistory

-- The ring has the same window as the deque, and the same bound.
structure Refines (h : StateHistory σ) (h' : ClientUtils.StateHistory σ) : Prop where
  window   : h.ring.window = h'.ring.map some
  capacity : h.ring.slots.length = h'.capacity

namespace Refines

variable {h : StateHistory σ} {h' : ClientUtils.StateHistory σ} {state : σ}

theorem new {capacity : Nat} (hc : 0 < capacity) : (new (σ := σ) capacity hc).Refines (.new capacity hc) where
  window   := rfl
  capacity := List.length_replicate

theorem base (r : h.Refines h') : h.ring.base = h'.ring.base :=
  congrArg Window.base r.window

theorem len (r : h.Refines h') : h.ring.len = h'.ring.items.length := by
  rw [←h.ring.length_window, r.window, Window.map, List.length_map]

theorem empty_iff (r : h.Refines h') : h.ring.len = 0 ↔ h'.ring.items.isEmpty := by
  simp [r.len]

theorem stop (r : h.Refines h') : h.ring.base + h.ring.len = h'.ring.stop := by
  rw [r.base, r.len, Window.stop]

theorem restore_eq (r : h.Refines h') (frame : Nat) : h.restore frame = h'.restore frame := by
  rw [restore, ←RingBuffer.get?_window, r.window, Window.get?_map, ClientUtils.StateHistory.restore]
  cases h'.ring.get? frame <;> rfl

theorem oldestFrame_eq (r : h.Refines h') : h.oldestFrame = h'.oldestFrame := by
  simp only [oldestFrame, ClientUtils.StateHistory.oldestFrame, r.empty_iff, r.base]

theorem save (r : h.Refines h') : (h.save frame state).Refines (h'.save frame state) := by
  unfold StateHistory.save ClientUtils.StateHistory.save
  rw [r.stop, r.base]
  by_cases he : h.ring.len = 0
  case pos =>
    rw [if_pos he, if_pos (r.empty_iff.mp he)]
    exact ⟨RingBuffer.window_first, by simpa using r.capacity⟩
  case neg =>
    rw [if_neg he, if_neg (r.empty_iff.not.mp he)]
    by_cases hs : frame = h'.ring.stop
    case pos =>
      rw [if_pos hs, if_pos hs]
      refine ⟨?_, by simpa using r.capacity⟩
      rw [RingBuffer.window_push, r.window, r.capacity, Window.map_keep, Window.map_push]
    case neg =>
      rw [if_neg hs, if_neg hs]
      by_cases hw : h'.ring.base ≤ frame ∧ frame < h'.ring.stop
      case pos =>
        rw [if_pos hw, if_pos hw]
        refine ⟨?_, by simpa using r.capacity⟩
        rw [RingBuffer.window_set (r.base ▸ hw.left) (r.stop ▸ hw.right), r.window, Window.map_set]
      case neg =>
        rw [if_neg hw, if_neg hw]
        exact ⟨RingBuffer.window_restart, by simpa using r.capacity⟩

end Refines
end StateHistory

namespace InputTimeline

structure Refines (t : InputTimeline ι) (t' : ClientUtils.InputTimeline ι) : Prop where
  window        : t.ring.window = t'.slots
  capacity      : t.ring.slots.length = t'.capacity
  lastConfirmed : t.lastConfirmed = t'.lastConfirmed

namespace Refines

variable {t : InputTimeline ι} {t' : ClientUtils.InputTimeline ι} {input : ι}

theorem new {capacity : Nat} (hc : 0 < capacity) : (new (ι := ι) capacity hc).Refines (.new capacity hc) where
  window        := rfl
  capacity      := List.length_replicate
  lastConfirmed := rfl

theorem base (r : t.Refines t') : t.ring.base = t'.slots.base :=
  congrArg Window.base r.window

theorem len (r : t.Refines t') : t.ring.len = t'.slots.items.length := by
  rw [←t.ring.length_window, r.window]

theorem empty_iff (r : t.Refines t') : t.ring.len = 0 ↔ t'.slots.items.isEmpty := by
  simp [r.len]

theorem stop (r : t.Refines t') : t.ring.base + t.ring.len = t'.slots.stop := by
  rw [r.base, r.len, Window.stop]

theorem confirmedAt_eq (r : t.Refines t') (frame : Nat) : t.confirmedAt frame = t'.confirmedAt frame := by
  rw [confirmedAt, ←RingBuffer.get?_window, r.window, ClientUtils.InputTimeline.confirmedAt]

-- The gap is filled, or jumped over when nothing of the window would remain.
theorem window_confirmed (r : t.Refines t') (he : t.ring.len ≠ 0) (hb : t.ring.base ≤ frame) :
    (t.confirmed frame input).window =
      (if frame < t'.slots.stop then t'.slots.set frame (some input)
        else (t'.slots.pad frame none).push (some input)).keep t'.capacity := by
  have hw : t.ring.window.stop = t'.slots.stop := congrArg Window.stop r.window
  simp only [confirmed, he, ↓reduceIte, r.stop]
  by_cases hs : frame < t'.slots.stop
  case pos =>
    rw [if_pos hs, if_pos hs, RingBuffer.window_set hb (r.stop ▸ hs), r.window, Window.keep_of_le]
    simpa [Window.set] using t'.bounded
  case neg =>
    rw [if_neg hs, if_neg hs]
    have hle : t'.slots.stop ≤ frame := Nat.le_of_not_lt hs
    split
    case isTrue hg =>
      have hp : 0 < t'.slots.stop := by rw [←r.stop]; omega
      rw [RingBuffer.window_jump (hw ▸ hle) (hw ▸ hp) (hw ▸ hg), r.window, r.capacity]
    case isFalse =>
      have ⟨hi, hl⟩ := t.ring.window_iterate_push none (frame - t'.slots.stop)
      rw [RingBuffer.window_push, hi, hl, Window.keep_push, hw, Nat.add_sub_of_le hle, r.window, r.capacity]

theorem length_slots_confirmed : (t.confirmed frame input).slots.length = t.ring.slots.length := by
  have hl := (t.ring.window_iterate_push none (frame - (t.ring.base + t.ring.len))).right
  simp only [confirmed]
  split <;> [skip; split <;> [skip; split]] <;> simp [hl]

theorem confirm (r : t.Refines t') : (t.confirm frame input).Refines (t'.confirm frame input) := by
  have hm : (t.lastConfirmed.elim frame fun last => if last < frame then frame else last) =
      t'.lastConfirmed.elim frame (max · frame) := by
    rw [r.lastConfirmed]
    cases t'.lastConfirmed <;> simp only [Option.elim]
    case some last => split <;> omega
  simp only [InputTimeline.confirm, ClientUtils.InputTimeline.confirm, hm, r.base]
  by_cases he : t.ring.len = 0
  case pos =>
    rw [if_neg (by simp [he]), if_pos (r.empty_iff.mp he)]
    exact {
      window        := by simp [confirmed, he, RingBuffer.window_first]
      capacity      := length_slots_confirmed.trans r.capacity
      lastConfirmed := rfl
    }
  case neg =>
    rw [if_neg (r.empty_iff.not.mp he)]
    by_cases hb : frame < t'.slots.base
    case pos =>
      rw [if_pos ⟨he, hb⟩, if_pos hb]
      exact r
    case neg =>
      rw [if_neg (hb ·.right), if_neg hb]
      exact {
        window        := r.window_confirmed he (r.base ▸ Nat.le_of_not_lt hb)
        capacity      := length_slots_confirmed.trans r.capacity
        lastConfirmed := rfl
      }

-- A slot inside the window is what the scan of the deque finds there.
theorem slot_eq (r : t.Refines t') {i : Nat} (hi : i < t.ring.len) :
    (t.ring.slots[t.ring.slot i]?).join = t'.confirmedAt (t'.slots.base + i) := by
  have hb : ¬t.ring.base + i < t.ring.base := by omega
  rw [←r.confirmedAt_eq, ←r.base, confirmedAt, RingBuffer.get?]
  simp [Nat.ne_zero_of_lt hi, Nat.not_le_of_lt hi, hb]

theorem scan_eq (r : t.Refines t') {i : Nat} (hi : i < t.ring.len) : t.scan i = t'.scan i := by
  induction i
  case zero      => exact r.slot_eq hi
  case succ i ih => rw [scan, ClientUtils.InputTimeline.scan, r.slot_eq hi, ih (by omega)]

theorem lastConfirmedAtOrBefore_eq (r : t.Refines t') (frame : Nat) :
    t.lastConfirmedAtOrBefore frame = t'.lastConfirmedAtOrBefore frame := by
  have hn : (if frame < t'.slots.stop - 1 then frame else t'.slots.stop - 1) = min frame (t'.slots.stop - 1) := by
    split <;> omega
  have hb := r.base
  have hs : t'.slots.base + t.ring.len = t'.slots.stop := hb ▸ r.stop
  simp only [lastConfirmedAtOrBefore, ClientUtils.InputTimeline.lastConfirmedAtOrBefore, hs, hn, hb, Bool.or_eq_true,
    ←r.empty_iff, decide_eq_true_eq]
  split
  case isTrue  => rfl
  case isFalse => exact r.scan_eq (by omega)

end Refines
end InputTimeline

namespace RollbackSession

def cleared (s : RollbackSession σ ι n) : RollbackSession σ ι n :=
  { s with lastRollbackLen := 0, earliestIncorrect := none }

def rollbackStart (s : RollbackSession σ ι n) : Option Nat := do
  let earliest ← s.earliestIncorrect
  let oldest   ← s.stateHistory.oldestFrame
  if s.rollbackEnabled && earliest < s.headFrame then some (max earliest oldest) else none

-- The frame from which a correction starts decides all of it.
theorem resolvePendingRollback_eq (s : RollbackSession σ ι n) : s.resolvePendingRollback =
    (s.rollbackStart.bind fun earliest => (s.stateHistory.restore earliest).map (s.cleared.rollback earliest)).getD
      s.cleared := by
  have hc : { s with lastRollbackLen := 0, earliestIncorrect := none } = s.cleared := rfl
  simp only [resolvePendingRollback, rollbackStart, hc]
  cases s.earliestIncorrect
  case none => rfl
  case some earliest =>
    cases hr : s.rollbackEnabled
    case false => cases s.stateHistory.oldestFrame <;> simp
    case true =>
      by_cases hf : s.headFrame ≤ earliest
      case pos => cases s.stateHistory.oldestFrame <;> simp [hf, Nat.not_lt_of_le hf]
      case neg =>
        cases s.stateHistory.oldestFrame
        case none => simp [hf]
        case some oldest =>
          have hm : (if earliest < oldest then oldest else earliest) = max earliest oldest := by split <;> omega
          cases h : s.stateHistory.restore (max earliest oldest) <;> simp [hf, Nat.lt_of_not_le hf, hm, h]

structure Refines (s : RollbackSession σ ι n) (s' : ClientUtils.RollbackSession σ ι n) : Prop where
  stateHistory      : s.stateHistory.Refines s'.stateHistory
  used              : ∀ p, (s.used p).Refines (s'.used p)
  timelines         : ∀ p, (s.timelines p).Refines (s'.timelines p)
  neutral           : s.neutral = s'.neutral
  currentState      : s.currentState = s'.currentState
  headFrame         : s.headFrame = s'.headFrame
  advance           : s.advance = s'.advance
  predictor         : s.predictor.getD repeatLastInput = s'.predictor
  rollbackEnabled   : s.rollbackEnabled = s'.rollbackEnabled
  earliestIncorrect : s.earliestIncorrect = s'.earliestIncorrect
  lastRollbackLen   : s.lastRollbackLen = s'.lastRollbackLen
  maxRollbackLen    : s.maxRollbackLen = s'.maxRollbackLen
  rollbackCount     : s.rollbackCount = s'.rollbackCount

namespace Refines

variable {s : RollbackSession σ ι n} {s' : ClientUtils.RollbackSession σ ι n} {player : Fin n} {input : ι}

theorem confirm (r : s.Refines s') : (s.confirm player frame input).Refines (s'.confirm player frame input) where
  __ := r
  timelines p := by
    by_cases hp : p = player
    case pos =>
      subst hp
      simpa [RollbackSession.confirm, ClientUtils.RollbackSession.confirm] using (r.timelines p).confirm
    case neg =>
      simpa [RollbackSession.confirm, ClientUtils.RollbackSession.confirm, hp] using r.timelines p

theorem queueLocalInput (r : s.Refines s') :
    (s.queueLocalInput player input).Refines (s'.queueLocalInput player input) := by
  rw [RollbackSession.queueLocalInput, ClientUtils.RollbackSession.queueLocalInput, r.headFrame]
  exact r.confirm

theorem confirmRemoteInput [DecidableEq ι] (r : s.Refines s') :
    (s.confirmRemoteInput player frame input).Refines (s'.confirmRemoteInput player frame input) := by
  have hc : (s.confirm player frame input).Refines (s'.confirm player frame input) := r.confirm
  have he : s.confirmRemoteInput player frame input = { s.confirm player frame input with
      earliestIncorrect := (s'.confirmRemoteInput player frame input).earliestIncorrect } := by
    have hm : (s.earliestIncorrect.elim frame fun current => if frame < current then frame else current) =
        s'.earliestIncorrect.elim frame (min · frame) := by
      rw [r.earliestIncorrect]
      cases s'.earliestIncorrect <;> simp only [Option.elim]
      case some current => split <;> omega
    simp only [RollbackSession.confirmRemoteInput, ClientUtils.RollbackSession.confirmRemoteInput, RollbackSession.confirm,
      ←r.headFrame, (r.used player).restore_eq, hm]
    by_cases hf : frame < s.headFrame
    case neg => simp [hf, r.earliestIncorrect]
    case pos =>
      cases (s'.used player).restore frame
      case none => simp [r.earliestIncorrect]
      case some used => by_cases hu : used = input <;> simp [hf, hu, r.earliestIncorrect]
  rw [he]
  exact { hc with earliestIncorrect := rfl }

theorem inputFor_eq (r : s.Refines s') (p : Fin n) (frame : Nat) : s.inputFor p frame = s'.inputFor p frame := by
  simp only [inputFor, ClientUtils.RollbackSession.inputFor, (r.timelines p).confirmedAt_eq,
    (r.timelines p).lastConfirmedAtOrBefore_eq, r.neutral]
  rw [←r.predictor]
  cases s.predictor <;> rfl

theorem simulateFrame (r : s.Refines s') (frame : Nat) : (s.simulateFrame frame).Refines (s'.simulateFrame frame) := by
  have hi : (fun p => s.inputFor p frame) = fun p => s'.inputFor p frame :=
    funext fun p => r.inputFor_eq p frame
  exact {
    r with
    stateHistory := by
      simp only [RollbackSession.simulateFrame, ClientUtils.RollbackSession.simulateFrame, r.currentState]
      exact r.stateHistory.save
    used         := by
      intro p
      simp only [RollbackSession.simulateFrame, ClientUtils.RollbackSession.simulateFrame, r.inputFor_eq]
      exact (r.used p).save
    currentState := by
      simp only [RollbackSession.simulateFrame, ClientUtils.RollbackSession.simulateFrame, hi, r.currentState, r.advance]
  }

theorem simulateFrames {count : Nat} (r : s.Refines s') :
    (s.simulateFrames frame count).Refines (s'.simulateFrames frame count) := by
  induction count generalizing s s' frame
  case zero          => exact r
  case succ count hi => exact hi (r.simulateFrame frame)

theorem rollback {earliest : Nat} {restored : σ} (r : s.Refines s') :
    (s.rollback earliest restored).Refines (s'.rollback earliest restored) := by
  have hr : { s with currentState := restored }.Refines { s' with currentState := restored } :=
    { r with currentState := rfl }
  have hl : s.headFrame - earliest = s'.headFrame - earliest := by rw [r.headFrame]
  have hm (m length : Nat) : (if m < length then length else m) = max m length := by split <;> omega
  have ht : (RollbackSession.simulateFrames _ earliest (s'.headFrame - earliest)).Refines _ := hr.simulateFrames
  simp only [RollbackSession.rollback, ClientUtils.RollbackSession.rollback, hl, hm]
  exact {
    ht with
    lastRollbackLen := rfl
    maxRollbackLen  := congrArg (max · _) ht.maxRollbackLen
    rollbackCount   := congrArg (· + 1) ht.rollbackCount
  }

-- Both look for the frame to start from, the one by early returns.
theorem resolvePendingRollback (r : s.Refines s') : s.resolvePendingRollback.Refines s'.resolveRollback := by
  have hc : s.cleared.Refines s'.cleared :=
    { r with lastRollbackLen := rfl, earliestIncorrect := rfl }
  have hs : s.rollbackStart = s'.rollbackStart := by
    simp only [rollbackStart, ClientUtils.RollbackSession.rollbackStart, r.earliestIncorrect, r.rollbackEnabled,
      r.headFrame, r.stateHistory.oldestFrame_eq]
  rw [resolvePendingRollback_eq, ClientUtils.RollbackSession.resolveRollback_eq, hs]
  cases s'.rollbackStart
  case none => exact hc
  case some earliest =>
    rw [Option.bind_some, Option.bind_some, r.stateHistory.restore_eq]
    cases s'.stateHistory.restore earliest
    case none          => exact hc
    case some restored => exact hc.rollback

theorem advanceFrame (r : s.Refines s') : s.advanceFrame.Refines s'.advanceFrame := by
  have hr := r.resolvePendingRollback
  have hs := hr.simulateFrame s'.resolveRollback.headFrame
  simp only [RollbackSession.advanceFrame, ClientUtils.RollbackSession.advanceFrame, hr.headFrame]
  exact { hs with headFrame := congrArg (· + 1) hs.headFrame }

theorem outcome_eq (r : s.Refines s') (inRange : Bool) : s.outcome inRange = s'.outcome inRange := by
  have ha : s.stateAt = s'.stateAt := by
    funext frame
    simp only [stateAt, ClientUtils.RollbackSession.stateAt, r.headFrame, r.currentState, r.stateHistory.restore_eq]
  simp only [outcome, ClientUtils.RollbackSession.outcome, r.headFrame, r.currentState, r.rollbackCount, ha]

end Refines

theorem capacityOf_eq (config : RollbackConfig) : capacityOf config = max config.maxRollbackFrames 1 := by
  unfold capacityOf
  split <;> omega

theorem refines_new (initialState : σ) (neutralInputs : Fin n → ι) (config : RollbackConfig)
    (advance : σ → (Fin n → ι) → σ) (predictor : Option (ι → Nat → ι)) :
    (new initialState neutralInputs config advance predictor).Refines
      ((ClientUtils.RollbackSession.new initialState neutralInputs config advance).withPredictor
        (predictor.getD repeatLastInput)) := by
  unfold new
  simp only [capacityOf_eq]
  exact {
    stateHistory      := .new _
    used              := fun _ => .new _
    timelines         := fun _ => .new _
    neutral           := rfl
    currentState      := rfl
    headFrame         := rfl
    advance           := rfl
    predictor         := rfl
    rollbackEnabled   := rfl
    earliestIncorrect := rfl
    lastRollbackLen   := rfl
    maxRollbackLen    := rfl
    rollbackCount     := rfl
  }

open ClientUtils.RollbackSession (Invocation)

variable [DecidableEq ι]

-- Each call is in range for both sessions or for neither, and keeps them in step.
theorem Refines.invoke {s : RollbackSession σ ι n} {s' : ClientUtils.RollbackSession σ ι n} (r : s.Refines s')
    (i : Invocation ι) :
    (s.invoke i = none ∧ s'.invoke i = none) ∨
      ∃ t t', s.invoke i = some t ∧ s'.invoke i = some t' ∧ t.Refines t' := by
  cases i
  case queueLocalInput player input =>
    by_cases h : player < n
    case pos => exact .inr ⟨_, _, dif_pos h, dif_pos h, r.queueLocalInput⟩
    case neg => exact .inl ⟨dif_neg h, dif_neg h⟩
  case confirmRemoteInput player frame input =>
    by_cases h : player < n
    case pos => exact .inr ⟨_, _, dif_pos h, dif_pos h, r.confirmRemoteInput⟩
    case neg => exact .inl ⟨dif_neg h, dif_neg h⟩
  case advanceFrame               => exact .inr ⟨_, _, rfl, rfl, r.advanceFrame⟩
  case setRollbackEnabled enabled => exact .inr ⟨_, _, rfl, rfl, { r with rollbackEnabled := rfl }⟩

theorem simulates :
    (object (σ := σ) (ι := ι) (n := n)).Simulates ClientUtils.RollbackSession.object (fun _ _ => True) Refines where
  answer := by
    intro s s' i r _
    simp only [object, ClientUtils.RollbackSession.object]
    cases r.invoke i
    case inl h => simp [h.left, h.right, r.outcome_eq]
    case inr h =>
      have ⟨t, t', ht, ht', r⟩ := h
      simp [ht, ht', r.outcome_eq]
  keeps := by
    intro s s' i r _
    simp only [object, ClientUtils.RollbackSession.object]
    cases r.invoke i
    case inl h => simpa [h.left, h.right] using r
    case inr h =>
      have ⟨t, t', ht, ht', r⟩ := h
      simpa [ht, ht'] using r

-- Neither the step, nor the predictor, nor the capacity of the windows lets the two sessions be told apart.
theorem same_outcomes (initialState : σ) (neutralInputs : Fin n → ι) (config : RollbackConfig)
    (advance : σ → (Fin n → ι) → σ) (predictor : Option (ι → Nat → ι)) (calls : List (Invocation ι)) :
    object.answers (new initialState neutralInputs config advance predictor) calls =
      ClientUtils.RollbackSession.object.answers
        ((ClientUtils.RollbackSession.new initialState neutralInputs config advance).withPredictor
          (predictor.getD repeatLastInput)) calls :=
  simulates.answers_eq (refines_new ..) (.of_forall fun _ _ => trivial)

end RollbackSession
end Plaza.Flutter
