import Plaza.Core.Theorems.EventScheduler
import Plaza.Protocols.Occupancy

open Plaza.Core

namespace Plaza.Core.PhasedScheduler

variable {T E P : Type} {s s' : PhasedScheduler T E} {phase : Phased P} {now : T} {rounds : Nat}
variable {choices : List Nat} {fired : List E}

theorem fold_emit {l : List (ScheduledItem T E)} :
    Scheduler.fold (EventScheduler.emit ·.payload) l fired = fired ++ l.map (·.payload) := by
  induction l generalizing fired
  case nil       => exact (List.append_nil _).symm
  case cons _ ih => exact ih.trans (List.append_cons ..).symm

variable [RepeatingInstant T]

-- What a call takes from the queue, and what of that it hands out.
theorem due_splits (ho : ∀ item ∈ s.inner.items, item.repeatInterval = none)
    (h : s.due now rounds choices phase = some (s', fired)) :
    ∃ due, s.inner.items.Perm (due ++ s'.inner.items) ∧ (∀ a ∈ due, a.triggerAt ≤ now) ∧
      (∀ a ∈ s'.inner.items, now < a.triggerAt) ∧
      fired = (due.filter (·.payload.fst = phase.epoch)).map (·.payload.snd) := by
  simp only [due, EventScheduler.tick, Scheduler.tick, Option.bind_eq_bind, Option.bind_eq_some_iff,
    Option.map_eq_some_iff, Prod.mk.injEq, Option.some.injEq] at h
  obtain ⟨⟨_, _⟩, ⟨⟨left, _⟩, hf, he⟩, _, hl, hs⟩ := h
  cases he
  obtain ⟨items, rfl, rfl⟩ := Option.map_eq_some_iff.mp hl
  obtain ⟨due, rest, hp, hd, hr, he, hw⟩ := Scheduler.fireDue_splits ho hf
  rw [List.append_nil] at he
  obtain ⟨rfl, rfl⟩ := hs
  refine ⟨due, he ▸ hp, hd, he ▸ hr, ?_⟩
  have hw := hw.trans fold_emit
  rw [List.nil_append] at hw
  rw [hw, List.filterMap_map, ← List.filterMap_eq_map, ← List.filterMap_eq_filter, List.filterMap_filterMap]
  refine List.filterMap_congr fun item _ => ?_
  by_cases h : item.payload.fst = phase.epoch <;> simp [Phased.isCurrent, Option.guard, h, eq_comm]

-- A call returns.
theorem exists_due (ho : ∀ item ∈ s.inner.items, item.repeatInterval = none) :
    ∃ choices, (s.due now rounds choices phase).isSome := by
  let sorted := s.inner.items.mergeSort fun a b => (compare b a).isLE
  have hp : sorted.Perm s.inner.items := List.mergeSort_perm ..
  have hs : sorted.Pairwise fun a b => (compare b a).isLE := ScheduledItem.pairwise_mergeSort
  have ha : ∀ a ∈ sorted, a.triggerAt ≤ now → Scheduler.Advances now rounds a :=
    fun a ha _ _ hi => by cases (ho a (hp.mem_iff.mp ha)).symm.trans hi
  have ⟨choices, items, h⟩ : ∃ choices items,
      Scheduler.fireDue (EventScheduler.emit ·.payload) now rounds choices s.inner.items [] [] =
        some (some items, Scheduler.fold _ (sorted.takeWhile (·.triggerAt ≤ now)) []) :=
    Scheduler.exists_fireDue hp.symm hs ha
  refine ⟨choices, ?_⟩
  simp [due, EventScheduler.tick, Scheduler.tick, h]

end Plaza.Core.PhasedScheduler

namespace Plaza.Protocols.Occupancy

variable {P T E Op ID : Type} {notice : PhaseChangedNoticePayload P → Op} {s s' : Occupancy P T E Op ID}
variable {e : Event P T E} {es : List (Event P T E)} {now : T} {rounds : Nat} {choices : List Nat}

-- What is deferred fires once, and bears the token of this occupancy or of one before.
structure Deferred (s : Occupancy P T E Op ID) : Prop where
  once : ∀ item ∈ s.scheduler.inner.items, item.repeatInterval = none
  past : ∀ item ∈ s.scheduler.inner.items, item.payload.fst ≤ s.phase.epoch

namespace Deferred

theorem start {initial : P} : Deferred (start initial : Occupancy P T E Op ID) := by
  constructor <;> simp [Occupancy.start, PhasedScheduler.new, Scheduler.new]

variable [RepeatingInstant T]

theorem schedule {delay : T} {event : E} (h : Deferred s) :
    Deferred { s with scheduler := s.scheduler.scheduleAfter now delay s.phase event } where
  once := List.forall_mem_cons.mpr ⟨rfl, h.once⟩
  past := List.forall_mem_cons.mpr ⟨le_rfl, h.past⟩

theorem due {fired : List E} {scheduler : PhasedScheduler T E} (h : Deferred s)
    (hd : s.scheduler.due now rounds choices s.phase = some (scheduler, fired)) :
    Deferred { s with scheduler } := by
  have ⟨_, hp, _⟩ := PhasedScheduler.due_splits h.once hd
  have hm {item} (hi : item ∈ scheduler.inner.items) := hp.mem_iff.mpr (List.mem_append_right _ hi)
  exact ⟨fun item hi => h.once item (hm hi), fun item hi => h.past item (hm hi)⟩

end Deferred

variable [DecidableEq P] [RepeatingInstant T]

-- What the queue holds that is to fire at `now` if `es` comes before.
def pending (s : Occupancy P T E Op ID) (now : T) (es : List (Event P T E)) : List E :=
  (s.scheduler.inner.items.filter fun item =>
    item.payload.fst = s.phase.epoch ∧ item.triggerAt ≤ now ∧
      ∀ e ∈ es, Waits s.phase.current item.triggerAt e).map (·.payload.snd)

theorem transition_step {next : P} {reason : Option String} {durationHint : Option Nat}
    (he : (machine notice).step s (.transition next reason durationHint) = some s') :
    s'.scheduler = s.scheduler ∧
      (s.phase.current = next ∧ s'.phase = s.phase ∨
       s.phase.current ≠ next ∧ s'.phase = { current := next, epoch := s.phase.epoch + 1 }) := by
  simp only [machine, Phased.transitionWith, Option.some.injEq] at he
  split at he <;> cases he
  case isTrue h  => exact ⟨rfl, .inl ⟨h, rfl⟩⟩
  case isFalse h => exact ⟨rfl, .inr ⟨h, rfl⟩⟩

theorem Deferred.step (h : Deferred s) (he : (machine notice).step s e = some s') : Deferred s' := by
  cases e
  case transition =>
    have ⟨hs, hp⟩ := transition_step he
    refine ⟨hs ▸ h.once, hs ▸ fun item hi => (h.past item hi).trans ?_⟩
    exact hp.elim (fun h => h.right ▸ le_rfl) (fun h => h.right ▸ Nat.le_succ _)
  case scheduleAfter =>
    cases he
    exact h.schedule
  case due =>
    have ⟨_, hd, he⟩ := Option.map_eq_some_iff.mp he
    exact he ▸ h.due hd

-- An event that leaves everything waiting which belongs to this occupancy changes nothing about what is to fire.
theorem pending_cons
    (hw : ∀ item ∈ s.scheduler.inner.items, item.payload.fst = s.phase.epoch → item.triggerAt ≤ now →
      Waits s.phase.current item.triggerAt e) :
    s.pending now (e :: es) = s.pending now es := by
  refine congrArg (List.map _) <| List.filter_congr fun item hi => decide_eq_decide.mpr ?_
  rw [List.forall_mem_cons]
  exact and_congr_right fun he => and_congr_right fun ht => and_iff_right (hw item hi he ht)

theorem pending_eq_nil (hw : ∀ item ∈ s.scheduler.inner.items, item.payload.fst = s.phase.epoch →
    ¬∀ e ∈ es, Waits s.phase.current item.triggerAt e) : s.pending now es = [] := by
  rw [pending, List.filter_eq_nil_iff.mpr, List.map_nil]
  intro item hi
  simpa using fun he _ => by simpa using hw item hi he

theorem pending_schedule {now' delay : T} {event : E} :
    pending { s with scheduler := s.scheduler.scheduleAfter now' delay s.phase event } now es =
      (if SchedulerInstant.addInterval now' delay ≤ now ∧
          ∀ e ∈ es, Waits s.phase.current (SchedulerInstant.addInterval now' delay) e then [event] else []) ++
        s.pending now es := by
  simp only [pending, PhasedScheduler.scheduleAfter, Scheduler.scheduleAfter, Scheduler.scheduleAt, Scheduler.push,
    List.filter_cons, true_and, decide_eq_true_eq]
  split <;> rfl

-- What a call takes from the queue is not waiting after it, and what it leaves is.
theorem pending_due {now' : T} {fired : List E} {scheduler : PhasedScheduler T E} (h : Deferred s)
    (hd : s.scheduler.due now' rounds choices s.phase = some (scheduler, fired)) :
    (s.pending now (.due now' rounds choices :: es)).Perm (pending { s with scheduler } now es) := by
  have ⟨due, hp, hl, hg, _⟩ := PhasedScheduler.due_splits h.once hd
  refine ((hp.filter _).map _).trans (.of_eq ?_)
  rw [List.filter_append, List.filter_eq_nil_iff.mpr fun item hi => ?_, List.nil_append]
  · refine congrArg (List.map _) <| List.filter_congr fun item hi => decide_eq_decide.mpr ?_
    rw [List.forall_mem_cons]
    exact and_congr_right fun _ => and_congr_right fun _ => and_iff_right (hg item hi)
  · rw [decide_eq_true_eq, List.forall_mem_cons]
    exact fun ⟨_, _, hw, _⟩ => absurd (hl item hi) (not_le.mpr hw)

-- What is to fire at `now` is the same before and after a step.
theorem expected_step (h : Deferred s) (he : (machine notice).step s e = some s') :
    (s.pending now (e :: es) ++ expected now s.phase.current (e :: es)).Perm
      (s'.pending now es ++ expected now s'.phase.current es) := by
  cases e
  case transition next reason durationHint =>
    have ⟨hs, hp⟩ := transition_step he
    cases hp
    case inl hp =>
      have hp' : s'.pending now es = s.pending now es := by rw [pending, pending, hs, hp.right]
      have hw : s.pending now (.transition next reason durationHint :: es) = s.pending now es :=
        pending_cons fun _ _ _ _ => hp.left.symm
      rw [hw, hp', hp.right, hp.left]
      exact .refl _
    case inr hp =>
      have hl : s.pending now (.transition next reason durationHint :: es) = [] := by
        refine pending_eq_nil fun item hi _ hw => ?_
        have hw : next = s.phase.current := hw _ (List.mem_cons_self ..)
        exact hp.left hw.symm
      have hn : s'.pending now es = [] := by
        refine pending_eq_nil fun item hi he => ?_
        rw [hs] at hi
        rw [hp.right] at he
        exact absurd (h.past item hi) (he ▸ Nat.not_succ_le_self _)
      rw [hl, hn, hp.right]
      exact .refl _
  case scheduleAfter now' delay event =>
    cases he
    have hw : s.pending now (.scheduleAfter now' delay event :: es) = s.pending now es :=
      pending_cons fun _ _ _ _ => trivial
    rw [hw, pending_schedule, expected]
    split
    case isTrue  => exact List.perm_middle
    case isFalse => exact .refl _
  case due now' rounds choices =>
    have ⟨_, hd, he⟩ := Option.map_eq_some_iff.mp he
    cases he
    exact (pending_due h hd).append_right _

theorem expected_steps (h : Deferred s) (hs : (machine notice).Steps s es s') :
    Deferred s' ∧ (s.pending now es ++ expected now s.phase.current es).Perm (s'.pending now []) := by
  induction hs
  case refl         => exact ⟨h, .of_eq (List.append_nil _)⟩
  case step he _ ih =>
    have ⟨h', hp⟩ := ih (h.step he)
    exact ⟨h', (expected_step h he).trans hp⟩

-- What a call hands out, the queue held for it.
theorem Deferred.fired_perm {fired : List E} {scheduler : PhasedScheduler T E} (h : Deferred s)
    (hd : s.scheduler.due now rounds choices s.phase = some (scheduler, fired)) :
    fired.Perm (s.pending now []) := by
  have ⟨due, hp, hl, hg, hf⟩ := PhasedScheduler.due_splits h.once hd
  refine .trans (.of_eq ?_) ((hp.filter _).map _).symm
  rw [hf, List.filter_append, List.filter_eq_nil_iff (l := scheduler.inner.items) |>.mpr fun item hi => ?_,
    List.append_nil]
  · refine congrArg (List.map _) <| List.filter_congr fun item hi => decide_eq_decide.mpr ?_
    exact (and_iff_left ⟨hl item hi, by simp⟩).symm
  · rw [decide_eq_true_eq]
    exact fun ⟨_, ht, _⟩ => absurd (hg item hi) (not_lt.mpr ht)

-- A call returns, and hands out what is to fire at its time.
theorem due_fires_expected (notice : PhaseChangedNoticePayload P → Op) (initial : P) (es : List (Event P T E))
    (s : Occupancy P T E Op ID) (h : (machine notice).Steps (start initial) es s) (now : T) (rounds : Nat) :
    (∃ choices, (s.scheduler.due now rounds choices s.phase).isSome) ∧
    ∀ choices scheduler fired, s.scheduler.due now rounds choices s.phase = some (scheduler, fired) →
      fired.Perm (expected now initial es) := by
  have ⟨h, hp⟩ : s.Deferred ∧ (expected now initial es).Perm (s.pending now []) := expected_steps .start h
  refine ⟨PhasedScheduler.exists_due h.once, fun choices scheduler fired hd => ?_⟩
  exact (h.fired_perm hd).trans hp.symm

-- Work for the first occupancy of a phase does not fire in the second.
theorem due_fires_expected_reentered :
    ∃ s : Occupancy Bool (Fin (18446744073709551615 + 1)) Nat Nat Nat,
      (machine fun _ => 0).Steps (start false)
        [.scheduleAfter 0 5 1, .transition true none none, .transition false none none, .scheduleAfter 0 5 2] s ∧
      (∃ choices, (s.scheduler.due 5 0 choices s.phase).isSome) ∧
      ∀ choices scheduler fired,
        s.scheduler.due 5 0 choices s.phase = some (scheduler, fired) → fired.Perm [2] := by
  have h : ∃ s : Occupancy Bool (Fin (18446744073709551615 + 1)) Nat Nat Nat,
      (machine fun _ => 0).Steps (start false)
        [.scheduleAfter 0 5 1, .transition true none none, .transition false none none, .scheduleAfter 0 5 2] s :=
    ⟨_, .step rfl <| .step rfl <| .step rfl <| .step rfl .refl⟩
  have ⟨s, h⟩ := h
  exact ⟨s, h, due_fires_expected _ _ _ _ h 5 0⟩

end Plaza.Protocols.Occupancy
