import Plaza.Protocols.Theorems.Timetable

open Rust
open Plaza.Core

namespace Plaza.Protocols.Timetable

variable {T α ω : Type} {n : Nat}

-- The trigger and the interval of the item of this number.
def entry (n : Nat) (items : List (ScheduledItem T (Nat × α))) : List (T × Option T) :=
  (items.filter (·.payload.fst = n)).map fun a => (a.triggerAt, a.repeatInterval)

variable {s s' : Timetable T α} {d d' : Diary T α} {e : Event T α ω} {es : List (Event T α ω)}
variable {fire : α → ω → α × ω} {now t : T} {world world' : ω} {rounds : Nat} {choices : List Nat}
variable {interval : Option T}

theorem entry_eq (l : List (ScheduledItem T (Nat × α))) : entry n l =
    ((l.map fun a => (a.payload.fst, a.triggerAt, a.repeatInterval)).filter (·.fst = n)).map Prod.snd := by
  simp [entry, List.filter_map, Function.comp_def]

-- No two items have the same number.
theorem Numbered.sole (h : Numbered s) : s.scheduler.items.filter (·.payload.fst = n) = [] ∨
    ∃ a, s.scheduler.items.filter (·.payload.fst = n) = [a] := by
  have hc := List.nodup_iff_count_le_one.mp h.nodup n
  rw [List.count, List.countP_map, List.countP_eq_length_filter] at hc
  change (s.scheduler.items.filter (·.payload.fst = n)).length ≤ 1 at hc
  rcases Nat.le_one_iff_eq_zero_or_eq_one.mp hc with h | h
  · exact .inl <| List.length_eq_zero_iff.mp h
  · exact .inr <| List.length_eq_one_iff.mp h

theorem entry_unscheduled (hn : Numbered s) (hl : s.scheduled ≤ n) : entry n s.scheduler.items = [] := by
  rw [entry, List.map_eq_nil_iff, List.filter_eq_nil_iff]
  intro a ha
  simpa using Nat.ne_of_lt <| Nat.lt_of_lt_of_le (hn.lt a ha) hl

theorem entry_push {payload : α} (hl : n < s.scheduled) :
    entry n (s.scheduler.push t (s.scheduled, payload) interval).fst.items = entry n s.scheduler.items := by
  simp [entry, Scheduler.push, Nat.ne_of_gt hl]

theorem entry_pushed {payload : α} (hn : Numbered s) :
    entry s.scheduled (s.scheduler.push t (s.scheduled, payload) interval).fst.items = [(t, interval)] := by
  have hs := entry_unscheduled hn (Nat.le_refl _)
  simpa [entry, Scheduler.push] using hs

variable [RepeatingInstant T]

theorem Diary.step_timetable (h : (Diary.machine fire).step d e = some d') :
    (Timetable.machine fire).step d.timetable e = some d'.timetable := by
  cases e
  case tick now rounds choices world =>
    simp only [Diary.machine, Option.bind_eq_some_iff, Option.map_eq_some_iff] at h
    obtain ⟨r, ht, scheduler, hs, rfl⟩ := h
    have hl : _ = d.timetable.scheduler.tick (numbered fire) now rounds choices world := tick_logged
    rw [ht] at hl
    simp [Timetable.machine, ← hl, hs]
  all_goals
    simp only [Diary.machine, Option.map_eq_some_iff] at h
    obtain ⟨s', hs, rfl⟩ := h
    exact hs

theorem Diary.steps_timetable (h : (Diary.machine fire).Steps d es d') :
    (Timetable.machine fire).Steps d.timetable es d'.timetable := by
  induction h
  case refl         => exact .refl
  case step he _ hi => exact .step (step_timetable he) hi

theorem Diary.numbered (h : (Diary.machine fire).Steps .start es d) : Numbered d.timetable :=
  .of_steps (steps_timetable h)

theorem Diary.step_fired (ht : e.time = none) (h : (Diary.machine fire).step d e = some d') :
    d'.fired = d.fired ∧ d.timetable.scheduled ≤ d'.timetable.scheduled := by
  cases e
  case tick => cases ht
  case scheduleRepeatingAt =>
    simp only [machine, Timetable.machine, Option.map_eq_some_iff] at h
    obtain ⟨_, ⟨_, _, rfl⟩, rfl⟩ := h
    exact ⟨rfl, Nat.le_succ _⟩
  all_goals
    cases h
    exact ⟨rfl, by simp⟩

-- A call other than a tick takes an item away only if it cancels it.
theorem Diary.step_entry (hn : Numbered d.timetable) (hl : n < d.timetable.scheduled) (hp : e.Plain)
    (ht : e.time = none) (h : (Diary.machine fire).step d e = some d') :
    entry n d'.timetable.scheduler.items =
      if e.cancels (BitVec.ofNat 64 n) then [] else entry n d.timetable.scheduler.items := by
  cases e
  case scheduleAt =>
    cases h
    exact entry_push hl
  case scheduleRepeatingAt =>
    simp only [machine, Timetable.machine, Scheduler.scheduleRepeatingAt, Option.map_eq_some_iff,
      Option.ite_none_left_eq_some, Option.some.injEq] at h
    obtain ⟨_, ⟨_, ⟨_, rfl⟩, rfl⟩, rfl⟩ := h
    exact entry_push hl
  case cancel id =>
    cases h
    have hi {a} (ha : a ∈ d.timetable.scheduler.items) (he : a.payload.fst = n) : a.id = BitVec.ofNat 64 n :=
      he ▸ hn.id a ha
    show entry n (d.timetable.scheduler.items.filter (·.id ≠ id)) = if decide (id = BitVec.ofNat 64 n) then [] else _
    rw [entry, List.filter_filter]
    by_cases hc : id = BitVec.ofNat 64 n
    case pos =>
      rw [if_pos (decide_eq_true hc), List.map_eq_nil_iff, List.filter_eq_nil_iff]
      intro a ha
      simpa using fun he => (hi ha he).trans hc.symm
    case neg =>
      rw [if_neg (by simpa using hc), entry]
      congr 1
      refine List.filter_congr fun a ha => ?_
      by_cases he : a.payload.fst = n
      case pos => simpa [he, hi ha he] using Ne.symm hc
      case neg => simp [he]
  case cancelMatching => exact hp.elim
  case clear =>
    cases h
    rfl
  case tick => cases ht

theorem filter_again (l : List (ScheduledItem T (Nat × α))) :
    ((l.flatMap fun a => (Scheduler.again now rounds a).toList.map fun t =>
      (a.payload.fst, t, a.repeatInterval)).filter (·.fst = n)).map Prod.snd =
    (l.filter (·.payload.fst = n)).flatMap fun a =>
      (Scheduler.again now rounds a).toList.map fun t => (t, a.repeatInterval) := by
  induction l
  case nil => rfl
  case cons a l ih =>
    rw [List.flatMap_cons, List.filter_append, List.map_append, ih, List.filter_cons]
    by_cases hi : a.payload.fst = n
    case pos => simp [hi, List.filter_map, Function.comp_def]
    case neg => simp [hi, List.filter_map, Function.comp_def]

-- What becomes of the item of a number: it is not there, it is not due yet, or it fires this once, and again only
-- beyond `now`, if it repeats.
theorem Diary.step_tick (hn : Numbered d.timetable)
    (h : (Diary.machine fire).step d (.tick now rounds choices world) = some d') :
    d'.timetable.scheduled = d.timetable.scheduled ∧
    (entry n d.timetable.scheduler.items = [] ∧ entry n d'.timetable.scheduler.items = [] ∧ d'.firings n = d.firings n ∨
    ∃ t interval, entry n d.timetable.scheduler.items = [(t, interval)] ∧
      (now < t ∧ entry n d'.timetable.scheduler.items = [(t, interval)] ∧ d'.firings n = d.firings n ∨
      t ≤ now ∧ d'.firings n = d.firings n ++ [now] ∧
        (interval = none ∧ entry n d'.timetable.scheduler.items = [] ∨
        ∃ i t', interval = some i ∧ entry n d'.timetable.scheduler.items = [(t', interval)] ∧
          Scheduler.nextTrigger now i rounds (SchedulerInstant.addInterval t i) = some t'))) := by
  simp only [Diary.machine, Option.bind_eq_some_iff, Option.map_eq_some_iff, Scheduler.tick] at h
  obtain ⟨r, ⟨⟨left, world', fired⟩, hf, rfl⟩, scheduler, hs, rfl⟩ := h
  obtain ⟨items', rfl, rfl⟩ := Option.map_eq_some_iff.mp hs
  refine ⟨rfl, ?_⟩
  obtain ⟨due, rest, hp, hd, hr, hw, he⟩ := Scheduler.fireDue_completes
    (fun a => (a.payload.fst, a.triggerAt, a.repeatInterval)) (fun _ _ _ => rfl) hf
  have hw : fired = due := (congrArg Prod.snd hw).trans fold_logged
  subst hw
  have ha : entry n items' = entry n rest ++ (fired.filter (·.payload.fst = n)).flatMap fun a =>
      (Scheduler.again now rounds a).toList.map fun t => (t, a.repeatInterval) := by
    rw [entry_eq, he, List.append_nil, List.filter_append, List.map_append, ← entry_eq, filter_again]
  have hg : (fired.map fun item => (now, item.payload.fst)).filter (·.snd = n) =
      (fired.filter (·.payload.fst = n)).map fun item => (now, item.payload.fst) := by
    simp [List.filter_map, Function.comp_def]
  have hp := hp.filter (·.payload.fst = n)
  rw [List.filter_append] at hp
  simp only [Diary.firings, List.filter_append, List.map_append, hg, ha]
  rcases hn.sole (n := n) with hs | ⟨a, hs⟩ <;> rw [hs] at hp
  case inl =>
    obtain ⟨hf, hr⟩ := List.append_eq_nil_iff.mp hp.nil_eq.symm
    simp [entry, hs, hf, hr]
  case inr =>
    refine .inr ⟨a.triggerAt, a.repeatInterval, by simp [entry, hs], ?_⟩
    have hp := List.perm_singleton.mp hp.symm
    rcases List.append_eq_singleton_iff.mp hp with ⟨hf, hs'⟩ | ⟨hf, hs'⟩
    case inl =>
      have hl : now < a.triggerAt := hr a (List.mem_of_mem_filter (hs' ▸ List.mem_singleton_self a))
      exact .inl ⟨hl, by simp [entry, hs', hf], by simp [hf]⟩
    case inr =>
      obtain ⟨hl, hd⟩ := hd a (List.mem_of_mem_filter (hf ▸ List.mem_singleton_self a))
      refine .inr ⟨hl, by simp [hf], ?_⟩
      cases hi : a.repeatInterval
      case none   => exact .inl ⟨rfl, by simp [entry, hs', hf, Scheduler.again, hi]⟩
      case some i =>
        obtain ⟨t', ht⟩ := Option.isSome_iff_exists.mp (hd i hi)
        exact .inr ⟨i, t', rfl, by simp [entry, hs', hf, Scheduler.again, hi, ht], ht⟩

-- What is not scheduled yet has not fired.
theorem Diary.firings_unscheduled (h : (Diary.machine fire).Steps .start es d) :
    Numbered d.timetable ∧ ∀ n, d.timetable.scheduled ≤ n → d.firings n = [] := by
  refine h.preserves (I := fun d => Numbered d.timetable ∧ ∀ n, d.timetable.scheduled ≤ n → d.firings n = [])
    (fun {d e d'} ⟨hn, hf⟩ he => ⟨hn.step (step_timetable he), fun n hl => ?_⟩) ⟨.of_steps (.refl (m := Timetable.machine fire)), fun _ _ => rfl⟩
  cases ht : e.time
  case none =>
    have ⟨hf', hle⟩ := step_fired ht he
    have := hf n (hle.trans hl)
    rwa [firings, hf']
  case some now =>
    cases e <;> try cases ht
    case tick =>
      have ⟨hs, hc⟩ := step_tick (n := n) hn he
      rw [hs] at hl
      rcases hc with ⟨_, _, hf'⟩ | ⟨_, _, hc, _⟩
      · exact hf'.trans (hf n hl)
      · cases hc.symm.trans (entry_unscheduled hn hl)

-- A tick ends if each item that is due and repeats gets beyond `now`, and only then.
theorem terminates_iff : s.Terminates fire now world ↔ s.Returns now := by
  constructor
  case mp =>
    rintro ⟨rounds, ⟨n, hn⟩, _⟩ item hm hd interval hi
    refine ⟨rounds, by_contra fun ha => ?_⟩
    have hp := List.mergeSort_perm s.scheduler.items fun a b => (compare b a).isLE
    obtain ⟨choices, world', hl, hf⟩ : ∃ choices world', n ≤ choices.length ∧
        Scheduler.fireDue (numbered fire) now rounds choices s.scheduler.items [] world = some (none, world') :=
      Scheduler.exists_stuck n hp.symm ScheduledItem.pairwise_mergeSort
        ⟨item, hp.mem_iff.mpr hm, hd, fun h => ha (h interval hi)⟩
    have := hn choices hl (none, world') (by rw [Scheduler.tick, hf]; rfl)
    cases this
  case mpr =>
    intro hr
    obtain ⟨rounds, ha⟩ := hr.rounds
    have hp := List.mergeSort_perm s.scheduler.items fun a b => (compare b a).isLE
    refine ⟨rounds, ⟨s.scheduler.items.length, fun choices hl r ht => ?_⟩, ?_⟩
    case refine_1 =>
      simp only [Scheduler.tick, Option.map_eq_some_iff] at ht
      obtain ⟨⟨left, world'⟩, hf, rfl⟩ := ht
      simpa using Scheduler.fireDue_ends hl ha hf
    case refine_2 =>
      obtain ⟨choices, items, hf⟩ : ∃ choices items,
          Scheduler.fireDue (numbered fire) now rounds choices s.scheduler.items [] world = some (some items, _) :=
        Scheduler.exists_fireDue hp.symm ScheduledItem.pairwise_mergeSort fun item hm => ha item (hp.mem_iff.mp hm)
      exact ⟨choices, _, _, by rw [Scheduler.tick, hf]; rfl⟩

-- Nothing repeats by an interval of zero.
def Positive (s : Timetable T α) : Prop :=
  ∀ item ∈ s.scheduler.items, ∀ interval, item.repeatInterval = some interval →
    RepeatingInstant.intervalIsZero interval = false

theorem Positive.step (h : Positive s) (he : (machine fire).step s e = some s') : Positive s' := by
  cases e <;> simp only [machine, Option.some.injEq, Option.map_eq_some_iff, Option.bind_eq_some_iff] at he
  case scheduleAt =>
    subst he
    exact List.forall_mem_cons.mpr ⟨fun _ hi => absurd hi.symm (Option.some_ne_none _), h⟩
  case scheduleRepeatingAt =>
    obtain ⟨_, hs, he⟩ := he
    simp only [Scheduler.scheduleRepeatingAt, Option.ite_none_left_eq_some, Option.some.injEq] at hs
    rw [← hs.right] at he
    subst he
    exact List.forall_mem_cons.mpr ⟨fun _ hi => Option.some.inj hi ▸ by simpa using hs.left, h⟩
  case cancel =>
    subst he
    exact fun item hm => h item (List.mem_filter.mp hm).left
  case cancelMatching =>
    subst he
    exact fun item hm => h item (List.mem_filter.mp hm).left
  case clear =>
    subst he
    exact fun item hm => absurd hm List.not_mem_nil
  case tick =>
    obtain ⟨r, ht, hr⟩ := he
    obtain ⟨scheduler, hr, rfl⟩ := hr
    simp only [Scheduler.tick, Option.map_eq_some_iff] at ht
    obtain ⟨⟨left, world⟩, hf, rfl⟩ := ht
    obtain ⟨items, rfl, rfl⟩ := Option.map_eq_some_iff.mp hr
    have hk := Scheduler.fireDue_keeps (·.repeatInterval) (fun _ _ _ => rfl) (fun _ _ => rfl) hf
    intro item hm
    obtain ⟨item', hm', hi⟩ := List.mem_map.mp <| hk.subset <| List.mem_map_of_mem hm
    exact hi ▸ h item' hm'

theorem Positive.of_steps (h : (machine fire).Steps .start es s) : Positive s :=
  h.preserves (fun h he => h.step he) fun _ hm => absurd hm List.not_mem_nil

omit [RepeatingInstant T] in
theorem times_tick :
    (Event.tick now rounds choices world :: es).filterMap Event.time = now :: es.filterMap Event.time :=
  rfl

-- A one-shot fires at the first tick from its trigger on, unless it is cancelled before.
theorem Diary.fires_once (h : (Diary.machine fire).Steps d es d') (hn : Numbered d.timetable)
    (hl : n < d.timetable.scheduled) (hp : ∀ e ∈ es, e.Plain) :
    (entry n d.timetable.scheduler.items = [] → d'.firings n = d.firings n) ∧
    (entry n d.timetable.scheduler.items = [(t, none)] →
      d'.firings n = d.firings n ++
        (((es.takeWhile (!·.cancels (BitVec.ofNat 64 n))).filterMap Event.time).find? (t ≤ ·)).toList) := by
  induction h
  case refl => simp
  case step d d₁ d₂ e es he h ih =>
    have hn' := hn.step (step_timetable he)
    have ⟨hpe, hps⟩ := List.forall_mem_cons.mp hp
    cases ht : e.time
    case none =>
      have ⟨hf, hle⟩ := step_fired ht he
      have hs := step_entry hn hl hpe ht he
      have hf : d₁.firings n = d.firings n := by rw [firings, firings, hf]
      have ih := ih hn' (hl.trans_le hle) hps
      rw [hf, hs] at ih
      cases hc : e.cancels (BitVec.ofNat 64 n) <;> simp only [hc, Bool.false_eq_true, ↓reduceIte] at ih
      case true =>
        rw [List.takeWhile_cons_of_neg (by simp [hc])]
        exact ⟨fun _ => ih.left trivial, fun _ => by simpa using ih.left trivial⟩
      case false =>
        rw [List.takeWhile_cons_of_pos (by simp [hc]), List.filterMap_cons_none ht]
        exact ih
    case some now =>
      cases e <;> try cases ht
      case tick now rounds choices world =>
        have hs := step_tick (n := n) hn he
        have ih := ih hn' (hs.left ▸ hl) hps
        rw [List.takeWhile_cons_of_pos rfl, times_tick]
        rcases hs.right with ⟨h₀, h₁, hf⟩ | ⟨t', interval, h₀, hs⟩
        case inl =>
          rw [h₁, hf] at ih
          exact ⟨fun _ => ih.left rfl, fun h => absurd (h₀.symm.trans h) (by simp)⟩
        case inr =>
          refine ⟨fun h => absurd (h₀.symm.trans h) (by simp), fun h => ?_⟩
          cases h₀.symm.trans h
          rcases hs with ⟨hlt, h₁, hf⟩ | ⟨hle, hf, ⟨_, h₁⟩ | ⟨_, _, hi, _⟩⟩
          · rw [h₁, hf] at ih
            rw [List.find?_cons_of_neg (by simpa using hlt)]
            exact ih.right rfl
          · rw [h₁, hf] at ih
            rw [List.find?_cons_of_pos (by simpa using hle)]
            exact ih.left rfl
          · cases hi

section

variable {max : Nat} {d d' : Diary (Fin (max + 1)) α} {es : List (Event (Fin (max + 1)) α ω)}
variable {e : Event (Fin (max + 1)) α ω} {now t first interval : Fin (max + 1)} {s : Timetable (Fin (max + 1)) α}

-- The axis has an end, and what repeats does not get beyond it.
theorem Positive.returns_iff (hp : Positive s) :
    s.Returns now ↔ now = Fin.last max → ∀ item ∈ s.scheduler.items, item.repeatInterval = none := by
  constructor
  case mp =>
    rintro hr rfl item hm
    cases hi : item.repeatInterval
    case none   => rfl
    case some i =>
      have ⟨rounds, ht⟩ := hr item hm (Fin.le_last _) i hi
      have ⟨t', ht⟩ := Option.isSome_iff_exists.mp ht
      exact absurd (Scheduler.lt_of_nextTrigger ht) (not_lt.mpr (Fin.le_last t'))
  case mpr =>
    intro hr item hm _ i hi
    have hz : 0 < i.val := by
      have := of_decide_eq_false (hp item hm i hi)
      exact Fin.pos_iff_ne_zero.mpr this
    have hn : now ≠ Fin.last max := fun h => by cases (hr h item hm).symm.trans hi
    exact Scheduler.exists_nextTrigger hz (Fin.val_lt_last hn)

-- As long as a repeating item is not cancelled, it is due beyond every tick so far, and that a number of whole
-- intervals after it was first, as far as there is room.
theorem Diary.repeats (h : (Diary.machine fire).Steps d es d') (hn : Numbered d.timetable)
    (hl : n < d.timetable.scheduled) (hp : ∀ e ∈ es, e.Plain) (hc : ∀ e ∈ es, e.cancels (BitVec.ofNat 64 n) = false)
    (he : entry n d.timetable.scheduler.items = [(t, some interval)])
    (hk : ∃ k, t.val = min (first.val + k * interval.val) max) {seen : List (Fin (max + 1))} (hs : ∀ now ∈ seen, now < t) :
    ∃ t', entry n d'.timetable.scheduler.items = [(t', some interval)] ∧
      (∃ k, t'.val = min (first.val + k * interval.val) max) ∧ ∀ now ∈ seen ++ es.filterMap Event.time, now < t' := by
  induction h generalizing t seen
  case refl => exact ⟨t, he, hk, by simpa using hs⟩
  case step d d₁ d₂ e es hstep h ih =>
    have hn' := hn.step (step_timetable hstep)
    have ⟨hpe, hps⟩ := List.forall_mem_cons.mp hp
    have ⟨hce, hcs⟩ := List.forall_mem_cons.mp hc
    cases ht : e.time
    case none =>
      have hs' := step_entry hn hl hpe ht hstep
      rw [hce, if_neg (by simp), he] at hs'
      rw [List.filterMap_cons_none ht]
      exact ih hn' (hl.trans_le (step_fired ht hstep).right) hps hcs hs' hk hs
    case some now =>
      cases e <;> try cases ht
      case tick now rounds choices world =>
        have ⟨hl', hs'⟩ := step_tick (n := n) hn hstep
        have hseen {t'} (hlt : now < t') (hle : ∀ t ∈ seen, t < t') : ∀ t ∈ seen ++ [now], t < t' := by
          simpa [or_imp, forall_and] using ⟨hle, hlt⟩
        rw [times_tick, List.append_cons]
        rcases hs' with ⟨h₀, _⟩ | ⟨_, _, h₀, hs'⟩
        case inl => cases he.symm.trans h₀
        case inr =>
          cases he.symm.trans h₀
          rcases hs' with ⟨hlt, h₁, _⟩ | ⟨hle, _, ⟨hi, _⟩ | ⟨_, t', hi, h₁, hnext⟩⟩
          · exact ih hn' (hl' ▸ hl) hps hcs h₁ hk (hseen hlt hs)
          · cases hi
          · cases hi
            have hlt := Scheduler.lt_of_nextTrigger hnext
            refine ih hn' (hl' ▸ hl) hps hcs h₁ ?_ (hseen hlt fun now hm => (hs now hm).trans (hle.trans_lt hlt))
            have ⟨k, hk⟩ := hk
            have ⟨k', hk'⟩ := Scheduler.val_nextTrigger hnext
            refine ⟨k + 1 + k', ?_⟩
            rw [hk', Scheduler.val_addInterval, hk, Nat.add_mul, Nat.succ_mul]
            omega

end

-- At the end of the axis the trigger of what repeats every tick stays where it is.
theorem repeats_for_ever :
    (Scheduler.new.scheduleRepeatingAt (5 : Fin (18446744073709551615 + 1)) 1 ()).isSome ∧
    ∀ scheduler ∈ (Scheduler.new.scheduleRepeatingAt (5 : Fin (18446744073709551615 + 1)) 1 ()).map Prod.fst,
      ∀ rounds choices scheduler' due,
        EventScheduler.tick scheduler (Fin.last _) rounds choices ≠ some (some scheduler', due) := by
  refine ⟨rfl, fun scheduler hs rounds choices scheduler' due ht => ?_⟩
  cases hs
  simp only [EventScheduler.tick, Scheduler.tick, Option.map_eq_some_iff] at ht
  obtain ⟨⟨left, due'⟩, hf, ht⟩ := ht
  obtain ⟨items, rfl, _⟩ := Option.map_eq_some_iff.mp (Prod.mk.inj ht).left
  obtain ⟨due, rest, hp, hd, hr, _⟩ := Scheduler.fireDue_completes (·.repeatInterval) (fun _ _ _ => rfl) hf
  have hm := hp.mem_iff.mp (List.mem_cons_self)
  rcases List.mem_append.mp hm with hm | hm
  case inl =>
    obtain ⟨t, ht⟩ := Option.isSome_iff_exists.mp <| (hd _ hm).right 1 rfl
    exact absurd (Scheduler.lt_of_nextTrigger ht) (not_lt.mpr (Fin.le_last t))
  case inr => exact absurd (hr _ hm) (not_lt.mpr (Fin.le_last _))

theorem ticks_on_time {max : Nat} {es : List (Event (Fin (max + 1)) α ω)} {d : Diary (Fin (max + 1)) α}
    (h : (Diary.machine fire).Steps .start es d) :
    (∀ now world, d.timetable.Terminates fire now world ↔
      (now = Fin.last max → ∀ item ∈ d.timetable.scheduler.items, item.repeatInterval = none)) ∧
    ∀ e d₁ later d₂, (Diary.machine fire).step d e = some d₁ → (Diary.machine fire).Steps d₁ later d₂ →
      (∀ e ∈ later, e.Plain) →
      let number := d.timetable.scheduled
      let id := d.timetable.scheduler.nextEventIdCounter
      (∀ target payload, e = .scheduleAt target payload →
        d₂.firings number = (((later.takeWhile (!·.cancels id)).filterMap Event.time).find? (target ≤ ·)).toList) ∧
      ∀ firstTrigger interval payload, e = .scheduleRepeatingAt firstTrigger interval payload →
        (∀ e ∈ later, e.cancels id = false) →
        ∃ t, entry number d₂.timetable.scheduler.items = [(t, some interval)] ∧
          (∃ k, t.val = min (firstTrigger.val + k * interval.val) max) ∧
          (∀ now ∈ later.filterMap Event.time, now < t) ∧
          ∀ now rounds choices world d₃, (Diary.machine fire).step d₂ (.tick now rounds choices world) = some d₃ →
            d₃.firings number = d₂.firings number ++ if t ≤ now then [now] else [] := by
  obtain ⟨hn, hf⟩ := Diary.firings_unscheduled h
  have hp := Positive.of_steps (Diary.steps_timetable h)
  refine ⟨fun now world => terminates_iff.trans hp.returns_iff, fun e d₁ later d₂ he h₂ hpl => ?_⟩
  have hn₁ := hn.step (Diary.step_timetable he)
  have hf := hf _ (Nat.le_refl _)
  rw [hn.next]
  constructor
  case left =>
    rintro target payload rfl
    cases he
    have hs := (Diary.fires_once h₂ hn₁ (Nat.lt_succ_self _) hpl).right (entry_pushed hn)
    exact hs.trans <| congrArg (· ++ _) hf
  case right =>
    rintro firstTrigger interval payload rfl hc
    simp only [Diary.machine, Timetable.machine, Scheduler.scheduleRepeatingAt, Option.map_eq_some_iff,
      Option.ite_none_left_eq_some, Option.some.injEq] at he
    obtain ⟨_, ⟨_, ⟨_, rfl⟩, rfl⟩, rfl⟩ := he
    have hk : ∃ k, firstTrigger.val = min (firstTrigger.val + k * interval.val) max := ⟨0, by omega⟩
    obtain ⟨t, ht, hk, hs⟩ :=
      Diary.repeats h₂ hn₁ (Nat.lt_succ_self _) hpl hc (entry_pushed hn) hk fun now (hm : now ∈ []) =>
        absurd hm List.not_mem_nil
    refine ⟨t, ht, hk, hs, fun now rounds choices world d₃ he => ?_⟩
    have hn₂ := h₂.preserves (I := fun d => Numbered d.timetable) (fun h he => h.step (Diary.step_timetable he)) hn₁
    rcases (Diary.step_tick hn₂ he).right with ⟨h₀, _⟩ | ⟨_, _, h₀, hs⟩
    case inl => cases ht.symm.trans h₀
    case inr =>
      cases ht.symm.trans h₀
      rcases hs with ⟨hlt, _, hf⟩ | ⟨hle, hf, _⟩
      · rw [if_neg (not_le.mpr hlt), hf, List.append_nil]
      · rw [if_pos hle, hf]

-- What repeats every ten ticks skips those that a stall has missed.
theorem ticks_on_time_after_stall :
    ∃ d : Diary (Fin (18446744073709551615 + 1)) Unit,
      (Diary.machine EventScheduler.emit).Steps .start
        [.scheduleRepeatingAt 5 10 (), .tick 7 3 [0] [], .tick 31 4 [0] []] d ∧
      d.firings 0 = [7, 31] ∧ ∃ t, entry 0 d.timetable.scheduler.items = [(t, some 10)] ∧ 31 < t := by
  have he : ∃ d, (Diary.machine EventScheduler.emit).step (.start : Diary (Fin (18446744073709551615 + 1)) Unit)
      (.scheduleRepeatingAt 5 10 ()) = some d ∧
      ∃ d', (Diary.machine EventScheduler.emit).Steps d [.tick 7 3 [0] [], .tick 31 4 [0] []] d' ∧
        d'.firings 0 = [7, 31] :=
    ⟨_, rfl, _, .step rfl <| .step rfl .refl, by decide⟩
  obtain ⟨d, he, d', h, hf⟩ := he
  have ⟨t, ht, _, hs, _⟩ := (ticks_on_time .refl).right _ d _ d' he h (by simp [Event.Plain]) |>.right
    5 10 () rfl (by simp [Event.cancels])
  exact ⟨d', .step he h, hf, t, ht, hs 31 (by simp [Event.time])⟩

end Plaza.Protocols.Timetable
