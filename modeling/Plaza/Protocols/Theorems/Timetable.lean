import Plaza.Core.Theorems.EventScheduler
import Plaza.Protocols.Timetable

open Rust
open Plaza.Core

namespace Plaza.Protocols.Timetable

variable {T α ω : Type} {s s' : Timetable T α} {fire : α → ω → α × ω} {now : T} {world world' : ω}
variable {a b : ScheduledItem T (Nat × α)} {es : List (Event T α ω)} {e : Event T α ω}

-- The items bear the numbers under which they were scheduled, and so do their ids until the counter wraps around.
structure Numbered (s : Timetable T α) : Prop where
  nodup : (s.scheduler.items.map (·.payload.fst)).Nodup
  lt    : ∀ a ∈ s.scheduler.items, a.payload.fst < s.scheduled
  id    : ∀ a ∈ s.scheduler.items, a.id = BitVec.ofNat 64 a.payload.fst
  next  : s.scheduler.nextEventIdCounter = BitVec.ofNat 64 s.scheduled

namespace Numbered

theorem push {triggerAt : T} {payload : α} {repeatInterval : Option T} (h : Numbered s) :
    Numbered {
      scheduler := (s.scheduler.push triggerAt (s.scheduled, payload) repeatInterval).fst
      scheduled := s.scheduled + 1 } where
  nodup := by
    refine List.nodup_cons.mpr ⟨fun hm => ?_, h.nodup⟩
    have ⟨a, ha, he⟩ := List.mem_map.mp hm
    exact (h.lt a ha).ne he
  lt := by
    intro a ha
    cases ha
    case head    => exact Nat.lt_succ_self _
    case tail ha => exact Nat.lt_succ_of_lt (h.lt a ha)
  id := by
    intro a ha
    cases ha
    case head    => exact h.next
    case tail ha => exact h.id a ha
  next := by
    simp only [Scheduler.push, h.next, BitVec.ofNat_add]
    rfl

theorem filter {p : ScheduledItem T (Nat × α) → Bool} (h : Numbered s) :
    Numbered { s with scheduler.items := s.scheduler.items.filter p } where
  nodup    := h.nodup.sublist <| List.filter_sublist.map _
  lt a ha  := h.lt a (List.mem_filter.mp ha).left
  id a ha  := h.id a (List.mem_filter.mp ha).left
  next     := h.next

theorem of_subperm {items : List (ScheduledItem T (Nat × α))} (h : Numbered s)
    (hs : (items.map fun a => (a.id, a.payload.fst)).Subperm (s.scheduler.items.map fun a => (a.id, a.payload.fst))) :
    Numbered { s with scheduler.items := items } := by
  have hm {a} (ha : a ∈ items) : ∃ b ∈ s.scheduler.items, b.id = a.id ∧ b.payload.fst = a.payload.fst := by
    have ⟨b, hb, he⟩ := List.mem_map.mp <| hs.subset <| List.mem_map_of_mem ha
    exact ⟨b, hb, Prod.mk.inj he⟩
  constructor
  case nodup =>
    have ⟨l, hp, hs⟩ := hs
    have hp := hp.map (·.snd)
    have hs := hs.map (·.snd)
    rw [List.map_map] at hp hs
    exact hp.nodup_iff.mp <| h.nodup.sublist hs
  case lt =>
    intro a ha
    have ⟨b, hb, _, hn⟩ := hm ha
    exact hn ▸ h.lt b hb
  case id =>
    intro a ha
    have ⟨b, hb, hi, hn⟩ := hm ha
    exact hi ▸ hn ▸ h.id b hb
  case next => exact h.next

theorem step [RepeatingInstant T] (h : Numbered s) (he : (machine fire).step s e = some s') : Numbered s' := by
  cases e <;> simp only [machine, Option.some.injEq, Option.map_eq_some_iff, Option.bind_eq_some_iff] at he
  case scheduleAt          => exact he ▸ h.push
  case scheduleRepeatingAt =>
    have ⟨_, hs, he⟩ := he
    simp only [Scheduler.scheduleRepeatingAt, Option.ite_none_left_eq_some, Option.some.injEq] at hs
    rw [← hs.right] at he
    exact he ▸ h.push
  case cancel         => exact he ▸ h.filter
  case cancelMatching => exact he ▸ h.filter
  case clear          => exact he ▸ h.of_subperm List.nil_subperm
  case tick           =>
    have ⟨r, ht, hr⟩ := he
    obtain ⟨scheduler, hr, rfl⟩ := hr
    simp only [Scheduler.tick, Option.map_eq_some_iff] at ht
    obtain ⟨⟨left, world⟩, hf, rfl⟩ := ht
    obtain ⟨items, rfl, rfl⟩ := Option.map_eq_some_iff.mp hr
    have hk := Scheduler.fireDue_keeps (fun a => (a.id, a.payload.fst)) (fun _ _ _ => rfl) (fun _ _ => rfl) hf
    exact h.of_subperm hk

theorem of_steps [RepeatingInstant T] (h : (machine fire).Steps .start es s) : Numbered s := by
  refine h.preserves (fun h he => h.step he) ?_
  constructor <;> simp [start, Scheduler.new]

-- Two items of one number are one.
theorem eq_of_number (h : Numbered s) (ha : a ∈ s.scheduler.items) (hb : b ∈ s.scheduler.items)
    (he : a.payload.fst = b.payload.fst) : a = b :=
  List.inj_on_of_nodup_map h.nodup ha hb he

end Numbered

theorem mem_due [LE T] [DecidableLE T] {l : List (ScheduledItem T (Nat × α))} (ha : a ∈ l) (hd : a.triggerAt ≤ now) :
    a ∈ l.filter (·.triggerAt ≤ now) :=
  List.mem_filter.mpr ⟨ha, decide_eq_true hd⟩

-- Until the counter of ids has wrapped around, the tie of two items that are due alike goes to the later one.
theorem Numbered.untied_iff [RepeatingInstant T] (h : Numbered s) (hw : s.scheduled ≤ 2 ^ 64) :
    s.Untied now ↔ (s.scheduler.items.filter (·.triggerAt ≤ now)).Pairwise (·.triggerAt ≠ ·.triggerAt) := by
  have hlt {a b : ScheduledItem T (Nat × α)} (ha : a ∈ s.scheduler.items) (hb : b ∈ s.scheduler.items) :
      a.id < b.id ↔ a.payload.fst < b.payload.fst := by
    have := (h.lt a ha).trans_le hw
    have := (h.lt b hb).trans_le hw
    rw [h.id a ha, h.id b hb, BitVec.lt_def, BitVec.toNat_ofNat, BitVec.toNat_ofNat, Nat.mod_eq_of_lt, Nat.mod_eq_of_lt]
      <;> assumption
  constructor
  case mp =>
    intro hu
    refine (h.nodup.of_map.filter _).pairwise_of_forall_ne fun a ha b hb hne ht => ?_
    have ⟨ha, hd⟩ := List.mem_filter.mp ha
    have ⟨hb, hd'⟩ := List.mem_filter.mp hb
    have hn : a.payload.fst ≠ b.payload.fst := fun he => hne (h.eq_of_number ha hb he)
    cases hn.lt_or_gt
    case inl hn => exact absurd ((hlt hb ha).mp <| hu a ha b hb (of_decide_eq_true hd) ht hn) hn.not_gt
    case inr hn => exact absurd ((hlt ha hb).mp <| hu b hb a ha (of_decide_eq_true hd') ht.symm hn) hn.not_gt
  case mpr =>
    intro hp a ha b hb hd ht hn
    have := hp.rel_or_rel (mem_due ha hd) (mem_due hb (ht ▸ hd)) fun he => hn.ne (he ▸ rfl)
    exact this.elim (absurd ht) (absurd ht.symm)

theorem fold_logged {l log : List (ScheduledItem T (Nat × α))} :
    (Scheduler.fold (logged fire) l (world, log)).snd = log ++ l := by
  induction l generalizing world log
  case nil       => exact (List.append_nil _).symm
  case cons _ ih => exact ih.trans <| List.append_cons .. |>.symm

-- The order of a queue which of two equal items prefers the one scheduled last.
def rank (a : ScheduledItem T (Nat × α)) : T ×ₗ (ℕᵒᵈ ×ₗ ℕᵒᵈ) :=
  toLex (a.triggerAt, toLex (.toDual a.id.toNat, .toDual a.payload.fst))

theorem rank_le_iff [LinearOrder T] : rank a ≤ rank b ↔
    a.triggerAt < b.triggerAt ∨
    a.triggerAt = b.triggerAt ∧ (b.id < a.id ∨ b.id = a.id ∧ b.payload.fst ≤ a.payload.fst) := by
  rw [rank, rank, Prod.Lex.toLex_le_toLex, Prod.Lex.toLex_le_toLex]
  simp only [OrderDual.toDual_lt_toDual, OrderDual.toDual_le_toDual, ← BitVec.lt_def, OrderDual.toDual_inj,
    BitVec.toNat_inj, eq_comm]

variable [RepeatingInstant T]

-- A list of what is fired changes nothing about it.
theorem tick_logged {rounds : Nat} {choices : List Nat} :
    (s.scheduler.tick (logged fire) now rounds choices (world, [])).map (fun r => (r.fst, r.snd.fst)) =
      s.scheduler.tick (numbered fire) now rounds choices world := by
  have h : Scheduler.fireDue (numbered fire) now rounds choices s.scheduler.items [] world =
      (Scheduler.fireDue (logged fire) now rounds choices s.scheduler.items [] (world, [])).map
        fun r => (r.fst, r.snd.fst) :=
    Scheduler.fireDue_map Prod.fst (world, []) fun _ _ => rfl
  rw [Scheduler.tick, Scheduler.tick, h, Option.map_map, Option.map_map]
  rfl

-- What an event scheduler hands out are the events of what it fired.
theorem emits_fired {E : Type} {s : Timetable T E} {rounds choices left} {due : List E} {fired}
    (h : s.scheduler.tick (logged EventScheduler.emit) now rounds choices ([], []) = some (left, due, fired)) :
    due = fired.map (·.payload.snd) := by
  have hf (l : List (ScheduledItem T (Nat × E))) (log) (due : List E) :
      (Scheduler.fold (logged EventScheduler.emit) l (due, log)).fst = due ++ l.map (·.payload.snd) := by
    induction l generalizing due log
    case nil       => exact (List.append_nil _).symm
    case cons _ ih => exact (ih _ _).trans <| List.append_cons .. |>.symm
  simp only [Scheduler.tick, Option.map_eq_some_iff] at h
  obtain ⟨⟨left, _⟩, h, he⟩ := h
  cases he
  have ⟨_, _, _, _, _, hw⟩ := Scheduler.fireDue_fires h
  have hd : due = _ := (congrArg Prod.fst hw).trans (hf _ _ _)
  have hl : fired = _ := (congrArg Prod.snd hw).trans fold_logged
  rw [hd, hl]
  rfl

theorem Untied.fires_in_order (hn : Numbered s) (hu : s.Untied now) : s.FiresInOrder fire now world := by
  intro rounds choices scheduler world' fired ht
  simp only [Scheduler.tick, Option.map_eq_some_iff] at ht
  obtain ⟨⟨left, _⟩, hf, ht⟩ := ht
  cases ht
  have ⟨due, rest, hp, ho, hd, hw⟩ := Scheduler.fireDue_fires hf
  have hw : fired = due := (congrArg Prod.snd hw).trans fold_logged
  have hm {c} (hc : c ∈ due) : c ∈ s.scheduler.items := hp.mem_iff.mpr <| List.mem_append_left _ hc
  have hdup : due.Nodup := (hp.nodup_iff.mp hn.nodup.of_map).of_append_left
  refine hw ▸ (ho.and hdup).imp_of_mem fun {a b} ha hb h => ?_
  cases ScheduledItem.compare_isLE_iff.mp h.left
  case inl ht => exact .inl ht
  case inr ht =>
    refine .inr ⟨ht.left, lt_of_not_ge fun hge => ?_⟩
    have hlt : b.payload.fst < a.payload.fst :=
      hge.lt_of_ne fun he => h.right (hn.eq_of_number (hm ha) (hm hb) he.symm)
    have := hu b (hm hb) a (hm ha) (hd b hb) ht.left.symm hlt
    exact absurd ht.right (BitVec.not_le.mpr this)

theorem Returns.rounds (hr : s.Returns now) :
    ∃ rounds, ∀ a ∈ s.scheduler.items, a.triggerAt ≤ now → Scheduler.Advances now rounds a := by
  have h : ∀ a ∈ s.scheduler.items.filter (·.triggerAt ≤ now), ∃ rounds, Scheduler.Advances now rounds a := by
    intro a ha
    have ⟨ha, hd⟩ := List.mem_filter.mp ha
    cases hi : a.repeatInterval
    case none          => exact ⟨0, fun _ h => by cases hi.symm.trans h⟩
    case some interval =>
      have ⟨rounds, h⟩ := hr a ha (of_decide_eq_true hd) interval hi
      exact ⟨rounds, fun _ h' => by cases hi.symm.trans h'; exact h⟩
  have ⟨rounds, h⟩ := Scheduler.exists_rounds h
  exact ⟨rounds, fun a ha hd => h a (mem_due ha hd)⟩

-- The queue may hand out what is due in every order which has the greater items first.
theorem FiresInOrder.of_sorted {sorted : List (ScheduledItem T (Nat × α))} (hf : s.FiresInOrder fire now world)
    (hr : s.Returns now) (hp : sorted.Perm s.scheduler.items)
    (hs : sorted.Pairwise fun a b => (compare b a).isLE) :
    (sorted.takeWhile (·.triggerAt ≤ now)).Pairwise Before := by
  have ⟨rounds, hr⟩ := hr.rounds
  have ⟨choices, items, h⟩ : ∃ choices items,
      Scheduler.fireDue (logged fire) now rounds choices s.scheduler.items [] (world, []) =
        some (some items, Scheduler.fold (logged fire) (sorted.takeWhile (·.triggerAt ≤ now)) (world, [])) :=
    Scheduler.exists_fireDue hp.symm hs fun a ha => hr a (hp.mem_iff.mp ha)
  have hl : (Scheduler.fold (logged fire) (sorted.takeWhile (·.triggerAt ≤ now)) (world, [])).snd = _ :=
    fold_logged
  rw [List.nil_append] at hl
  rw [← hl]
  exact hf rounds choices _ _ _ (by rw [Scheduler.tick, h]; rfl)

theorem Returns.untied (hr : s.Returns now) (hf : s.FiresInOrder fire now world) : s.Untied now := by
  intro a ha b hb hd ht hn
  refine BitVec.not_le.mp fun hle => ?_
  -- A queue which of equal items prefers the one scheduled last.
  let sorted := s.scheduler.items.mergeSort fun a b => decide (rank a ≤ rank b)
  have hp : sorted.Perm s.scheduler.items := List.mergeSort_perm ..
  have hs : sorted.Pairwise fun a b => rank a ≤ rank b := by
    have : sorted.Pairwise fun a b => decide (rank a ≤ rank b) :=
      List.pairwise_mergeSort (by simpa using fun a b c => le_trans) (by simpa using fun a b => le_total _ _) _
    exact this.imp of_decide_eq_true
  have hq : sorted.Pairwise fun a b => (compare b a).isLE := by
    refine hs.imp fun {a b} h => ScheduledItem.compare_isLE_iff.mpr <| (rank_le_iff.mp h).imp_right (.imp_right ?_)
    exact fun h => h.elim BitVec.le_of_lt fun h => h.left ▸ BitVec.le_refl _
  have hd' : sorted.Pairwise fun a b => decide (b.triggerAt ≤ now) → decide (a.triggerAt ≤ now) := by
    refine hs.imp fun {a b} h hb => decide_eq_true ?_
    have : a.triggerAt ≤ b.triggerAt := (rank_le_iff.mp h).elim le_of_lt fun h => h.left.le
    exact this.trans (of_decide_eq_true hb)
  have ho := (hf.of_sorted hr hp hq).and (hs.sublist (List.takeWhile_sublist _))
  rw [List.takeWhile_eq_filter hd'] at ho
  have := ho.rel_or_rel (mem_due (hp.mem_iff.mpr ha) hd) (mem_due (hp.mem_iff.mpr hb) (ht ▸ hd)) fun he => hn.ne (he ▸ rfl)
  cases this
  case inl h =>
    cases rank_le_iff.mp h.right
    case inl h => exact h.ne ht
    case inr h =>
      cases h.right
      case inl h => exact absurd hle (BitVec.not_le.mpr h)
      case inr h => exact absurd hn h.right.not_gt
  case inr h =>
    cases h.left
    case inl h => exact h.ne' ht
    case inr h => exact absurd hn h.right.not_gt

theorem FiresInOrder.iff (h : (machine fire).Steps .start es s) :
    (s.Untied now → s.FiresInOrder fire now world) ∧
    (s.Returns now → s.FiresInOrder fire now world → s.Untied now) :=
  ⟨Untied.fires_in_order (.of_steps h), Returns.untied⟩

-- Of either scheduler a tick that returns fires in order if nothing that is due is tied, and only then.
theorem schedulers_fire_in_order_iff {E A σ Op : Type} :
    (∀ {es} {s : Timetable T E}, (machine EventScheduler.emit).Steps .start es s →
      (s.Untied now → s.FiresInOrder EventScheduler.emit now []) ∧
      (s.Returns now → s.FiresInOrder EventScheduler.emit now [] → s.Untied now)) ∧
    (∀ {call : A → σ × List Op → A × σ × List Op} {es} {s : Timetable T A} {state ops},
      (machine call).Steps .start es s →
      (s.Untied now → s.FiresInOrder call now (state, ops)) ∧
      (s.Returns now → s.FiresInOrder call now (state, ops) → s.Untied now)) :=
  ⟨FiresInOrder.iff, FiresInOrder.iff⟩

theorem schedulers_fire_in_order_untied :
    ∃ s : Timetable (Fin (18446744073709551615 + 1)) Unit,
      (machine EventScheduler.emit).Steps .start [.scheduleAt 6 (), .scheduleAt 5 ()] s ∧
      s.FiresInOrder EventScheduler.emit 7 [] := by
  have h : ∃ s : Timetable (Fin (18446744073709551615 + 1)) Unit,
      (machine EventScheduler.emit).Steps .start [.scheduleAt 6 (), .scheduleAt 5 ()] s ∧ s.Untied 7 := by
    refine ⟨_, .step rfl <| .step rfl .refl, ?_⟩
    decide
  have ⟨s, h, hu⟩ := h
  exact ⟨s, h, (@schedulers_fire_in_order_iff _ _ _ Unit Unit Unit Unit).left h |>.left hu⟩

-- Of two events for one tick the later one is fired first.
theorem fires_latest_first :
    ∃ s : Timetable (Fin (18446744073709551615 + 1)) Unit,
      (machine EventScheduler.emit).Steps .start [.scheduleAt 5 (), .scheduleAt 5 ()] s ∧
      ¬s.FiresInOrder EventScheduler.emit 5 [] := by
  refine ⟨_, .step rfl <| .step rfl .refl, fun h => ?_⟩
  have := h 0 [0, 0] _ _ _ rfl
  revert this
  decide

end Plaza.Protocols.Timetable
