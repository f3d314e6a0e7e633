import Plaza.ClientUtils.ClockSync
import Plaza.Lib.LeastSquares
import Plaza.Lib.Ordered

namespace Plaza.ClientUtils.ClockSyncEstimator

open Line

variable {K : Type*} {ops : List (Op K)} {n : Nat}

theorem foldl_sums [AddMonoid K] {samples : List (ClockSample K)} {f g : ClockSample K → K} {a b : K} :
    samples.foldl (fun (s : K × K) i => (s.fst + f i, s.snd + g i)) (a, b) =
      (a + (samples.map f).sum, b + (samples.map g).sum) := by
  induction samples generalizing a b
  case nil            => simp
  case cons s rest hi => simp [hi, add_assoc]

theorem eq_zero_of_sum [AddCommMonoid K] [LinearOrder K] [IsOrderedAddMonoid K] {α : Type*} {l : List α}
    {f : α → K} (h₀ : ∀ s ∈ l, 0 ≤ f s) (h : (l.map f).sum = 0) : ∀ s ∈ l, f s = 0 := by
  intro s hs
  have hn : ∀ x ∈ l.map f, 0 ≤ x := by simpa using h₀
  exact le_antisymm (h ▸ List.single_le_sum hn _ (List.mem_map_of_mem hs)) (h₀ s hs)

variable [Field K] {e : ClockSyncEstimator K}

-- The sample that an operation takes.
def Op.sample : Op K → Option (ClockSample K)
  | observe localTime offset                       => some { localTime, offset }
  | observeExchange localSend remoteRecv localRecv =>
    some { localTime := localRecv, offset := remoteRecv - (localSend + localRecv) / (2 : Nat) }
  | clear                                          => none

-- All samples since the last time that the window was cleared.
def recorded (ops : List (Op K)) : List (ClockSample K) :=
  (ops.rtakeWhile (·.sample.isSome)).filterMap Op.sample

-- An operation which takes the offset of a clock as it was `lag` ago. For an exchange this is the time that either
-- way takes.
def Op.Reads (clock : Line K) (lag : K) : Op K → Prop
  | observe localTime offset                       => lag = 0 ∧ offset = clock.eval localTime
  | observeExchange localSend remoteRecv localRecv =>
    localRecv = localSend + lag + lag ∧ remoteRecv = localSend + lag + clock.eval (localSend + lag)
  | clear                                          => True

-- A clock as it was a while ago.
def delayed (clock : Line K) (lag : K) : Line K where
  intercept := clock.intercept - clock.slope * lag
  slope     := clock.slope

theorem delayed_eval {clock : Line K} {lag t : K} : (delayed clock lag).eval t = clock.eval (t - lag) := by
  simp only [delayed, eval]
  ring

theorem recorded_snoc {op : Op K} :
    recorded (ops ++ [op]) = op.sample.elim [] fun s => recorded ops ++ [s] := by
  cases h : op.sample <;> simp [recorded, h]

theorem mem_recorded {s : ClockSample K} (h : s ∈ recorded ops) : ∃ op ∈ ops, op.sample = some s := by
  obtain ⟨op, hm, hs⟩ := List.mem_filterMap.mp h
  exact ⟨op, (List.rtakeWhile_suffix _ _).subset hm, hs⟩

theorem window_apply (op : Op K) (hn : 0 < e.capacity) (h : e.window = (recorded ops).rtake e.capacity) :
    (e.apply op).capacity = e.capacity ∧ (e.apply op).window = (recorded (ops ++ [op])).rtake e.capacity := by
  rw [recorded_snoc]
  cases op
  case clear => exact ⟨rfl, (List.rtake_nil _).symm⟩
  all_goals
    refine ⟨rfl, ?_⟩
    simp only [apply, observeExchange, observe, h]
    exact List.tail_rtake_concat hn

-- The window holds the latest of the samples.
theorem window_run (he : (new n).map (·.run ops) = some e) :
    2 ≤ n ∧ e.capacity = n ∧ e.window = (recorded ops).rtake n := by
  obtain ⟨e₀, h₀, rfl⟩ := Option.map_eq_some_iff.mp he
  simp only [new, Option.ite_none_left_eq_some, not_lt, Option.some.injEq] at h₀
  obtain ⟨hn, rfl⟩ := h₀
  clear he
  refine ⟨hn, ?_⟩
  induction ops using List.reverseRecOn
  case nil => exact ⟨rfl, (List.rtake_nil _).symm⟩
  case append_singleton ops op hi =>
    obtain ⟨hc, hw⟩ := hi
    rw [run, List.foldl_append, List.foldl_cons, List.foldl_nil, ← run]
    obtain ⟨hc', hw'⟩ := window_apply op (by rw [hc]; omega) (by rw [hw, hc])
    exact ⟨hc'.trans hc, by rw [hw', hc]⟩

variable [LinearOrder K]

theorem fit_eq (hn : 2 ≤ e.window.length) (hs : degenerate < spread ClockSample.localTime e.window) :
    e.fit = some (mean ClockSample.localTime e.window, mean ClockSample.offset e.window,
      slopeOf ClockSample.localTime ClockSample.offset e.window) := by
  rw [fit, if_neg (not_lt.mpr hn)]
  simp only [foldl_sums, zero_add]
  rw [if_pos]
  · rfl
  · exact hs

variable [IsStrictOrderedRing K]

theorem degenerate_pos : (0 : K) < degenerate := by
  rw [degenerate]
  positivity

-- Samples which are apart are two at least.
theorem two_le_length (hs : degenerate < spread ClockSample.localTime e.window) : 2 ≤ e.window.length := by
  have hs := degenerate_pos.trans hs
  generalize e.window = window at hs
  rcases window with _ | ⟨s, _ | ⟨_, _⟩⟩
  · exact absurd hs (lt_irrefl 0)
  · simp [spread, mean] at hs
  · simp

theorem offsetAt_eq (hs : degenerate < spread ClockSample.localTime e.window) (t : K) :
    e.offsetAt t = some ((fitted ClockSample.localTime ClockSample.offset e.window).eval t) := by
  rw [offsetAt, fit_eq (two_le_length hs) hs, fitted_eval]

theorem skew_eq (hs : degenerate < spread ClockSample.localTime e.window) :
    e.skew = (fitted ClockSample.localTime ClockSample.offset e.window).slope := by
  rw [skew, fit_eq (two_le_length hs) hs]
  rfl

theorem fitted_eq {clock : Line K} (hs : degenerate < spread ClockSample.localTime e.window)
    (hn : Normal ClockSample.localTime ClockSample.offset e.window clock) :
    fitted ClockSample.localTime ClockSample.offset e.window = clock :=
  have hs := (degenerate_pos.trans hs).ne'
  hn.unique hs (fitted_normal hs)

-- A clock as it was a while ago, where the while is itself on a line.
def delayedBy (clock lag : Line K) : Line K where
  intercept := clock.intercept - clock.slope * lag.intercept
  slope     := clock.slope - clock.slope * lag.slope

-- All that is read off the estimator is as the clock has it.
structure Recovers (e : ClockSyncEstimator K) (clock : Line K) : Prop where
  offsetAt     : ∀ t, e.offsetAt t = some (clock.eval t)
  serverTimeAt : ∀ t, e.serverTimeAt t = some (t + clock.eval t)
  skew         : e.skew = clock.slope

theorem recovers_iff {clock : Line K} (hs : degenerate < spread ClockSample.localTime e.window) :
    e.Recovers clock ↔ fitted ClockSample.localTime ClockSample.offset e.window = clock := by
  constructor
  case mp =>
    intro h
    have h₀ := (offsetAt_eq hs 0).symm.trans (h.offsetAt 0)
    rw [Option.some.injEq, eval, eval, mul_zero, mul_zero, add_zero, add_zero] at h₀
    exact Line.ext h₀ <| (skew_eq hs).symm.trans h.skew
  case mpr =>
    intro h
    exact {
      offsetAt     := fun t => h ▸ offsetAt_eq hs t
      serverTimeAt := fun t => by rw [serverTimeAt, offsetAt_eq hs, h, Option.map_some]
      skew         := h ▸ skew_eq hs
    }

-- With lags of one sign the residuals are of one sign, too, and can only cancel each other out if there are none.
theorem on_line_of_normal {clock : Line K} (hn : Normal ClockSample.localTime ClockSample.offset e.window clock)
    (hl : ∀ s ∈ e.window, ∃ lag, 0 ≤ lag ∧ s.offset = clock.eval (s.localTime - lag)) :
    ∀ s ∈ e.window, s.offset = clock.eval s.localTime := by
  have hr : ∀ s ∈ e.window, ∃ lag, 0 ≤ lag ∧ s.offset - clock.eval s.localTime = -(clock.slope * lag) := by
    intro s hs
    obtain ⟨lag, h₀, h⟩ := hl s hs
    refine ⟨lag, h₀, ?_⟩
    rw [h, eval, eval]
    ring
  suffices h : ∀ s ∈ e.window, s.offset - clock.eval s.localTime = 0 from fun s hs => sub_eq_zero.mp (h s hs)
  rcases le_total clock.slope 0 with hm | hm
  case inl =>
    refine eq_zero_of_sum (fun s hs => ?_) hn.height
    obtain ⟨lag, h₀, h⟩ := hr s hs
    exact h ▸ neg_nonneg.mpr (mul_nonpos_of_nonpos_of_nonneg hm h₀)
  case inr =>
    have hz : (e.window.map fun s => -1 * (s.offset - clock.eval s.localTime)).sum = 0 := by
      rw [List.sum_map_mul_left, hn.height, mul_zero]
    have h₀ : ∀ s ∈ e.window, 0 ≤ -1 * (s.offset - clock.eval s.localTime) := by
      intro s hs
      obtain ⟨lag, h₀, h⟩ := hr s hs
      rw [h]
      linarith [mul_nonneg hm h₀]
    exact fun s hs => by linarith [eq_zero_of_sum h₀ hz s hs]

theorem reads_of_window {clock : Line K} {P : K → Prop} (hw : e.window = (recorded ops).rtake n)
    (hr : ∀ op ∈ ops, ∃ lag, P lag ∧ op.Reads clock lag) :
    ∀ s ∈ e.window, ∃ lag, P lag ∧ s.offset = clock.eval (s.localTime - lag) := by
  intro s hs
  obtain ⟨op, hm, hs⟩ := mem_recorded <| (List.drop_suffix _ _).subset (hw ▸ hs)
  obtain ⟨lag, hp, hr⟩ := hr op hm
  refine ⟨lag, hp, ?_⟩
  cases op
  case observe =>
    cases hs
    rw [hr.left, sub_zero, hr.right]
  case observeExchange localSend _ _ =>
    cases hs
    have hm : localSend + (localSend + lag + lag) = (2 : Nat) * (localSend + lag) := by
      push_cast
      ring
    simp only [hr.left, hr.right, hm, add_sub_cancel_right]
    rw [mul_div_cancel_left₀ _ (by norm_num), add_sub_cancel_left]
  case clear => cases hs

theorem normal_delayedBy {clock : Line K} {lag : ClockSample K → K}
    (hs : degenerate < spread ClockSample.localTime e.window)
    (hl : ∀ s ∈ e.window, s.offset = clock.eval (s.localTime - lag s)) :
    Normal ClockSample.localTime ClockSample.offset e.window
      (delayedBy clock (fitted ClockSample.localTime lag e.window)) := by
  have hc : Normal ClockSample.localTime (fun s : ClockSample K => clock.eval s.localTime) e.window clock :=
    normal_of_forall fun _ _ => rfl
  refine hc.sub_mul (fitted_normal (degenerate_pos.trans hs).ne') clock.slope |>.congr fun s hm => ?_
  rw [hl s hm, eval, eval]
  ring

-- The estimator draws the line which is nearest to its latest samples. For exchanges that take as long either way,
-- this is the line of the other clock as it was when the exchanges were halfway, or if these differ in how long they
-- take, as it was on the line through that. It is the line of the clock itself just if every sample has the offset
-- of the time it counts for.
theorem fits_window (he : (new n).map (·.run ops) = some e)
    (hs : degenerate < spread ClockSample.localTime ((recorded ops).rtake n)) :
    (∃ line : Line K, (∀ t, e.offsetAt t = some (line.eval t)) ∧ ∀ other, other ≠ line →
      residuals ClockSample.localTime ClockSample.offset ((recorded ops).rtake n) line <
        residuals ClockSample.localTime ClockSample.offset ((recorded ops).rtake n) other) ∧
    ∀ clock : Line K,
      (∀ lag : ClockSample K → K,
        (∀ s ∈ (recorded ops).rtake n, s.offset = clock.eval (s.localTime - lag s)) →
        e.Recovers (delayedBy clock (fitted ClockSample.localTime lag ((recorded ops).rtake n)))) ∧
      (∀ lag, (∀ op ∈ ops, op.Reads clock lag) → e.Recovers (delayed clock lag)) ∧
      ((∀ op ∈ ops, ∃ lag, 0 ≤ lag ∧ op.Reads clock lag) →
        (e.Recovers clock ↔ ∀ s ∈ (recorded ops).rtake n, s.offset = clock.eval s.localTime)) := by
  obtain ⟨_, _, hw⟩ := window_run he
  rw [← hw] at hs
  have hz := (degenerate_pos.trans hs).ne'
  simp only [← hw]
  refine ⟨⟨_, offsetAt_eq hs, fun other => residuals_lt (fitted_normal hz) hz⟩,
    fun clock => ⟨fun lag hl => ?_, fun lag hr => ?_, fun hr => ?_⟩⟩
  case refine_1 => exact recovers_iff hs |>.mpr <| fitted_eq hs <| normal_delayedBy hs hl
  case refine_2 =>
    refine recovers_iff hs |>.mpr <| fitted_eq hs <| normal_of_forall fun s hm => ?_
    obtain ⟨_, rfl, h⟩ := reads_of_window (P := (· = lag)) hw (fun op ho => ⟨lag, rfl, hr op ho⟩) s hm
    rw [h, delayed_eval]
  case refine_3 =>
    rw [recovers_iff hs]
    constructor
    case mp => exact fun h => on_line_of_normal (h ▸ fitted_normal hz) (reads_of_window hw hr)
    case mpr => exact fun h => fitted_eq hs (normal_of_forall h)

-- Two exchanges with a clock that runs at twice the rate, each of which takes a unit either way.
def twoExchanges : List (Op ℚ) :=
  [.observeExchange 0 2 2, .observeExchange 10 22 12]

theorem twoExchanges_reads : ∀ op ∈ twoExchanges, op.Reads ⟨0, 1⟩ 1 := by
  norm_num [twoExchanges, Op.Reads, eval]

theorem fits_window_of_exchanges :
    ∃ e, (new 4).map (·.run twoExchanges) = some e ∧ e.Recovers (delayed ⟨0, 1⟩ 1) := by
  obtain ⟨e, he⟩ : ∃ e, (new 4).map (·.run twoExchanges) = some e := ⟨_, rfl⟩
  exact ⟨e, he, fits_window he (by decide +kernel) |>.right _ |>.right.left 1 twoExchanges_reads⟩

-- When the second of them has arrived its clock is ahead by twelve, and eleven is what the estimator says.
theorem drift_read_late :
    (∀ op ∈ twoExchanges, op.Reads ⟨0, 1⟩ 1) ∧ eval (⟨0, 1⟩ : Line ℚ) 12 = 12 ∧
      (new 4).map (fun e => (e.run twoExchanges).offsetAt 12) = some (some 11) :=
  ⟨twoExchanges_reads, by decide +kernel, by decide +kernel⟩

end Plaza.ClientUtils.ClockSyncEstimator
