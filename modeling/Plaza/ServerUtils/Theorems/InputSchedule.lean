import Plaza.Lib.Ordered
import Plaza.ServerUtils.InputSchedule

open Rust (Overflow U64)

namespace Plaza.ServerUtils.InputSchedule

variable {ι : Type} {o : Overflow} {tick current : U64} {input : ι} {window : InputWindow} {x y : Arrival ι}
  {events : List (Event ι)} {e : Event ι}

section Schedule

variable {s s' : InputSchedule ι} {verdict : Submission}

-- A submission does nothing to the queue, or it files the input at its end.
theorem submit_cases (h : s.submit o tick input current window = some (s', verdict)) :
    s'.lastExecuted = s.lastExecuted ∧
    (verdict.accepted = false ∧ s'.queue = s.queue ∧ s'.accepted = s.accepted ∨
      verdict.accepted = true ∧ s'.queue = s.queue ++ [(s.executeAt tick, input)] ∧
        s'.accepted = s.accepted + 1) := by
  simp only [submit, Option.bind_eq_bind, Option.pure_def, Option.bind_eq_some_iff] at h
  obtain ⟨_, _, h⟩ := h
  split at h
  case isTrue =>
    simp only [Option.bind_eq_some_iff, Option.some.injEq, Prod.mk.injEq] at h
    obtain ⟨_, _, _, _, rfl, rfl⟩ := h
    exact ⟨rfl, .inl ⟨rfl, rfl, rfl⟩⟩
  case isFalse =>
    obtain ⟨_, _, h⟩ := Option.bind_eq_some_iff.mp h
    split at h
    case isTrue =>
      simp only [Option.bind_eq_some_iff, Option.some.injEq, Prod.mk.injEq] at h
      obtain ⟨_, _, _, _, rfl, rfl⟩ := h
      exact ⟨rfl, .inl ⟨rfl, rfl, rfl⟩⟩
    case isFalse =>
      obtain ⟨_, ha, h⟩ := Option.bind_eq_some_iff.mp h
      cases U64.eq_of_add ha
      split at h
      case isTrue =>
        simp only [Option.bind_eq_some_iff, Option.some.injEq, Prod.mk.injEq] at h
        obtain ⟨_, _, rfl, rfl⟩ := h
        exact ⟨rfl, .inr ⟨rfl, rfl, rfl⟩⟩
      case isFalse =>
        cases h
        exact ⟨rfl, .inr ⟨rfl, rfl, rfl⟩⟩

theorem drainDue_snd :
    (s.drainDue current).snd = (s.sorted.takeWhile (·.fst ≤ current)).map Prod.snd := by
  simp only [drainDue]
  rw [←List.prefix_iff_eq_take.mp (List.takeWhile_prefix _)]

theorem drainDue_queue : (s.drainDue current).fst.queue = s.sorted.dropWhile (·.fst ≤ current) := by
  simp only [drainDue]
  conv_lhs => rhs; rw [←List.takeWhile_append_dropWhile (p := (·.fst ≤ current)) (l := s.sorted)]
  rw [List.drop_left]

theorem drainDue_accepted : (s.drainDue current).fst.accepted = s.accepted := by
  simp only [drainDue]
  split <;> rfl

theorem drainDue_lastExecuted (s : InputSchedule ι) (current : U64) :
    (s.drainDue current).snd = [] ∧ (s.drainDue current).fst.lastExecuted = s.lastExecuted ∨
      (s.drainDue current).fst.lastExecuted = some current := by
  simp only [drainDue]
  split
  case isTrue    => exact .inr rfl
  case isFalse h => exact .inl ⟨by simp [Nat.eq_zero_of_not_pos h], rfl⟩

-- Nothing already executed comes after what is scheduled from now on.
theorem le_executeAt {last : U64} (h : last ∈ s.lastExecuted) : last ≤ s.executeAt tick := by
  rw [executeAt, Option.mem_def.mp h]
  simp only [BitVec.le_def, BitVec.lt_def]
  split <;> omega

end Schedule

theorem Arrival.Before.le (h : x.Before y) : x.executeAt ≤ y.executeAt := by
  cases h
  case inl h => exact BitVec.le_of_lt h
  case inr h => exact h.left ▸ BitVec.le_refl _

theorem Arrival.Before.of_le (h : x.executeAt ≤ y.executeAt) (hn : x.nth < y.nth) : x.Before y := by
  by_cases he : x.executeAt = y.executeAt
  case pos => exact .inr ⟨he, hn⟩
  case neg => exact .inl (BitVec.lt_of_le_ne h he)

theorem Arrival.Before.ne (h : x.Before y) : x ≠ y := by
  intro he
  cases he
  cases h
  case inl h => exact BitVec.lt_irrefl _ h
  case inr h => exact Nat.lt_irrefl _ h.right

theorem waiting_snoc_iff :
    Waiting (events ++ [e]) x ↔ e = .accepted x ∨ ¬e.Empties x.executeAt ∧ Waiting events x :=
  Trace.Open.snoc_iff

theorem Waiting.accepted (h : Waiting events x) : .accepted x ∈ events := by
  have ⟨before, e, after, hl, he, _⟩ := h
  simp [hl, he]

-- Only what was accepted is ever delivered.
theorem accepted_of_delivered (h : Trace.Each Lawful events) (hx : x ∈ events.flatMap Event.delivered) :
    .accepted x ∈ events := by
  have ⟨e, he, hx⟩ := List.mem_flatMap.mp hx
  have ⟨before, after, hl⟩ := List.append_of_mem he
  have h := h before e after hl
  cases e
  case accepted | cleared => cases hx
  case drained =>
    rw [hl]
    exact List.mem_append_left _ <| (h.right x |>.mp hx).left.accepted

theorem countP_accepted :
    (events ++ [Event.accepted x]).countP (·.isAccepted) = events.countP (·.isAccepted) + 1 :=
  List.countP_append

theorem countP_other (h : e.isAccepted = false) :
    (events ++ [e]).countP (·.isAccepted) = events.countP (·.isAccepted) := by
  simp [h]

theorem length_delivered :
    ((events ++ [e]).flatMap Event.delivered).length =
      (events.flatMap Event.delivered).length + e.delivered.length := by
  simp

theorem length_dropped :
    ((events ++ [e]).flatMap Event.dropped).length =
      (events.flatMap Event.dropped).length + e.dropped.length := by
  simp

theorem mem_of_delivered {s : Seat ι} (h : x ∈ s.delivered) : x ∈ s.events.flatMap Event.delivered := by
  have ⟨e, he, hx⟩ := List.mem_flatMap.mp h
  exact List.mem_flatMap.mpr ⟨e, (List.rtakeWhile_suffix _ _).subset he, hx⟩

-- How a seat stands. Inputs scheduled for one tick are queued in the order of arrival, and nothing that the
-- occupant has had delivered comes after what is queued or will be.
structure Keeps (s : Seat ι) : Prop extends Delivers s where
  labels  : ∀ q ∈ s.schedule.queue, q.fst = q.snd.executeAt
  ties    : s.schedule.queue.Pairwise fun q r => q.fst = r.fst → q.snd.nth < r.snd.nth
  known   : ∀ x, .accepted x ∈ s.events → x.nth < s.events.countP (·.isAccepted)
  past    : ∀ last ∈ s.schedule.lastExecuted, last ≤ s.now
  reached : ∀ x ∈ s.delivered, ∃ last ∈ s.schedule.lastExecuted, x.executeAt ≤ last
  behind  : ∀ x ∈ s.delivered, ∀ q ∈ s.schedule.queue, x.Before q.snd

namespace Keeps

variable {s s' : Seat ι}

theorem start : Keeps (.start : Seat ι) where
  lawful    := .nil
  queued    := ⟨.nil, fun _ => ⟨nofun, fun h => absurd h Trace.Open.not_nil⟩⟩
  ordered   := .nil
  conserved := rfl
  counter   := rfl
  labels    := nofun
  ties      := .nil
  known     := nofun
  past      := nofun
  reached   := nofun
  behind    := nofun

theorem nth_lt (h : Keeps s) (hw : Waiting s.events x) : x.nth < s.events.countP (·.isAccepted) :=
  h.known x hw.accepted

-- The order of execution is the order of `Before`.
theorem sorted (h : Keeps s) : s.schedule.sorted.Pairwise fun q r => q.snd.Before r.snd := by
  refine List.Pairwise.mergeSort ?_ ?_ (h.ties.imp_of_mem fun {q r} hq hr ht => ?_)
  case refine_1 =>
    simp only [decide_eq_true_eq, BitVec.le_def]
    omega
  case refine_2 =>
    simp only [Bool.or_eq_true, decide_eq_true_eq, BitVec.le_def]
    omega
  case refine_3 =>
    rw [h.labels q hq, h.labels r hr] at ht ⊢
    split
    case isTrue hl =>
      by_cases he : q.snd.executeAt = r.snd.executeAt
      case pos => exact .inr ⟨he, ht he⟩
      case neg => exact .inl (BitVec.lt_of_le_ne (of_decide_eq_true hl) he)
    case isFalse hl =>
      simp only [decide_eq_true_eq, BitVec.le_def] at hl
      exact .inl (BitVec.lt_def.mpr (by omega))

theorem sorted_labels (h : Keeps s) : ∀ q ∈ s.schedule.sorted, q.fst = q.snd.executeAt :=
  fun q hq => h.labels q (List.mem_mergeSort.mp hq)

theorem sorted_split (h : Keeps s) :
    s.schedule.sorted.Pairwise fun q r => decide (r.fst ≤ current) → decide (q.fst ≤ current) := by
  refine h.sorted.imp_of_mem fun {q r} hq hr hb hc => ?_
  rw [decide_eq_true_eq, h.sorted_labels r hr] at hc
  rw [decide_eq_true_eq, h.sorted_labels q hq]
  exact BitVec.le_trans hb.le hc

theorem accept {schedule : InputSchedule (Arrival ι)} (h : Keeps s) (hx : s.arrival tick input = x)
    (hn : s.now ≤ current) (hl : schedule.lastExecuted = s.schedule.lastExecuted)
    (hq : schedule.queue = s.schedule.queue ++ [(x.executeAt, x)])
    (ha : schedule.accepted = s.schedule.accepted + 1) :
    Keeps { schedule, now := current, events := s.events ++ [.accepted x] } := by
  have hnth : x.nth = s.events.countP (·.isAccepted) := hx ▸ rfl
  have hnew : .accepted x ∉ s.events := fun hm => absurd (h.known x hm) (by omega)
  have hd : ({ schedule, now := current, events := s.events ++ [.accepted x] } : Seat ι).delivered = s.delivered := by
    rw [Seat.delivered, List.rtakeWhile_concat_pos _ _ _ (by rfl), List.flatMap_append]
    exact List.append_nil _
  constructor
  case labels =>
    intro q hm
    rw [hq, List.mem_append, List.mem_singleton] at hm
    exact hm.elim (h.labels q) (· ▸ rfl)
  case ties =>
    rw [hq, List.pairwise_append]
    refine ⟨h.ties, List.pairwise_singleton .., fun q hm r hr _ => ?_⟩
    rw [List.mem_singleton.mp hr, hnth]
    exact h.nth_lt (h.queued.right _ |>.mp (List.mem_map_of_mem hm))
  case known =>
    intro y hy
    rw [countP_accepted]
    simp only [List.mem_append, List.mem_singleton, Event.accepted.injEq] at hy
    cases hy
    case inl hy => exact Nat.lt_add_right _ (h.known y hy)
    case inr hy => exact hy ▸ hnth ▸ Nat.lt_succ_self _
  case past    => exact fun l m => BitVec.le_trans (h.past l (hl ▸ m)) hn
  case reached =>
    rw [hd, hl]
    exact h.reached
  case behind =>
    rw [hd, hq]
    intro y hy q hm
    rw [List.mem_append, List.mem_singleton] at hm
    cases hm
    case inl hm => exact h.behind y hy q hm
    case inr hm =>
      have ⟨last, hm', hle⟩ := h.reached y hy
      rw [hm]
      refine .of_le (BitVec.le_trans hle (hx ▸ le_executeAt hm')) ?_
      exact hnth ▸ h.known y (accepted_of_delivered h.lawful (mem_of_delivered hy))
  case toDelivers =>
    constructor
    case lawful => exact Trace.Each.snoc_iff.mpr ⟨h.lawful, hnew⟩
    case queued =>
      have ⟨hd, hw⟩ := h.queued
      rw [hq, List.map_append, List.map_singleton, List.nodup_append]
      refine ⟨⟨hd, List.nodup_singleton _, fun y hy z hz he => ?_⟩, fun y => ?_⟩
      · rw [he, List.mem_singleton.mp hz] at hy
        exact hnew (hw x |>.mp hy).accepted
      · rw [List.mem_append, hw, List.mem_singleton, waiting_snoc_iff]
        simp [Event.Empties, or_comm, eq_comm]
    case ordered   => exact hd ▸ h.ordered
    case conserved =>
      have := h.conserved
      rw [countP_accepted, length_delivered, length_dropped, hq, List.length_append]
      simp only [Event.delivered, Event.dropped, List.length_nil, List.length_singleton]
      omega
    case counter =>
      rw [ha, BitVec.toNat_add, h.counter, countP_accepted]
      simp

theorem submit (h : Keeps s) (hn : s.now ≤ current) (hs : s.submit o tick input current window = some s') :
    Keeps s' := by
  obtain ⟨⟨schedule, verdict⟩, hs', rfl⟩ := Option.map_eq_some_iff.mp hs
  obtain ⟨hl, ⟨hv, hq, ha⟩ | ⟨hv, hq, ha⟩⟩ := submit_cases hs'
  case inl =>
    simp only [hv, Bool.false_eq_true, if_false]
    exact {
      lawful    := h.lawful
      queued    := hq ▸ h.queued
      ordered   := h.ordered
      conserved := hq ▸ h.conserved
      counter   := ha ▸ h.counter
      labels    := hq ▸ h.labels
      ties      := hq ▸ h.ties
      known     := h.known
      past l m  := BitVec.le_trans (h.past l (hl ▸ m)) hn
      reached   := hl ▸ h.reached
      behind    := hq ▸ h.behind
    }
  case inr =>
    simp only [hv, if_true]
    exact h.accept rfl hn hl hq ha

theorem mem_sorted (h : Keeps s) {q : U64 × Arrival ι} :
    q ∈ s.schedule.sorted ↔ q.fst = q.snd.executeAt ∧ Waiting s.events q.snd := by
  rw [InputSchedule.sorted, List.mem_mergeSort, ←h.queued.right, List.mem_map]
  constructor
  case mp => exact fun hq => ⟨h.labels q hq, q, hq, rfl⟩
  case mpr =>
    intro ⟨hl, r, hr, he⟩
    have : q = r := Prod.ext (by rw [hl, h.labels r hr, he]) he.symm
    exact this ▸ hr

-- A drain takes what is due, and leaves the rest.
theorem mem_due (h : Keeps s) :
    x ∈ (s.schedule.drainDue current).snd ↔ Waiting s.events x ∧ x.executeAt ≤ current := by
  rw [drainDue_snd, List.takeWhile_eq_filter h.sorted_split, List.mem_map]
  simp only [List.mem_filter, decide_eq_true_eq, h.mem_sorted]
  constructor
  case mp =>
    intro ⟨_, ⟨⟨hl, hw⟩, hc⟩, he⟩
    exact ⟨he ▸ hw, he ▸ hl ▸ hc⟩
  case mpr => exact fun ⟨hw, hc⟩ => ⟨(x.executeAt, x), ⟨⟨rfl, hw⟩, hc⟩, rfl⟩

theorem mem_rest (h : Keeps s) {q : U64 × Arrival ι} :
    q ∈ (s.schedule.drainDue current).fst.queue ↔
      (q.fst = q.snd.executeAt ∧ Waiting s.events q.snd) ∧ ¬q.fst ≤ current := by
  rw [drainDue_queue, List.dropWhile_eq_filter_iff.mpr h.sorted_split]
  simp only [List.mem_filter, Bool.not_eq_true', decide_eq_false_iff_not, h.mem_sorted]

-- The two together are the sorted queue.
theorem drained_split (h : Keeps s) (current : U64) :
    (s.schedule.drainDue current).snd.Pairwise Arrival.Before ∧
    (s.schedule.drainDue current).fst.queue.Pairwise (fun q r => q.snd.Before r.snd) ∧
    (∀ x ∈ (s.schedule.drainDue current).snd, ∀ q ∈ (s.schedule.drainDue current).fst.queue, x.Before q.snd) ∧
    (s.schedule.drainDue current).snd.length + (s.schedule.drainDue current).fst.queue.length =
      s.schedule.queue.length := by
  have hs := List.takeWhile_append_dropWhile (p := (·.fst ≤ current)) (l := s.schedule.sorted)
  have ⟨hd, hr, hb⟩ := List.pairwise_append.mp (hs ▸ h.sorted)
  rw [drainDue_snd, drainDue_queue]
  refine ⟨List.pairwise_map.mpr hd, hr, fun x hx q hq => ?_, ?_⟩
  case refine_1 =>
    obtain ⟨r, hr, rfl⟩ := List.mem_map.mp hx
    exact hb r hr q hq
  case refine_2 =>
    rw [List.length_map, ←List.length_append, hs]
    exact List.length_mergeSort ..

theorem drain (h : Keeps s) (hn : s.now ≤ current) : Keeps (s.drain current) := by
  have ⟨hd, hr, hb, hc⟩ := h.drained_split current
  have hdel : (s.drain current).delivered = s.delivered ++ (s.schedule.drainDue current).snd := by
    simp only [Seat.drain, Seat.delivered]
    rw [List.rtakeWhile_concat_pos _ _ _ (by rfl), List.flatMap_append, List.flatMap_singleton]
    rfl
  -- What the occupant had delivered before was due before.
  have hle {y} (hy : y ∈ s.delivered) : y.executeAt ≤ current :=
    have ⟨last, hl, hy⟩ := h.reached y hy
    BitVec.le_trans hy (BitVec.le_trans (h.past last hl) hn)
  have hold {y q} (hy : y ∈ s.delivered) (hw : Waiting s.events q) : y.Before q := by
    have ⟨r, hr, he⟩ := List.mem_map.mp (h.queued.right q |>.mpr hw)
    exact he ▸ h.behind y hy r hr
  constructor
  case labels => exact fun q hq => (h.mem_rest.mp hq).left.left
  case ties   =>
    refine hr.imp_of_mem fun {q r} hq hr hqr he => ?_
    rw [(h.mem_rest.mp hq).left.left, (h.mem_rest.mp hr).left.left] at he
    cases hqr
    case inl hl => exact absurd hl (he ▸ BitVec.lt_irrefl _)
    case inr hl => exact hl.right
  case known =>
    intro x hx
    rw [Seat.drain, countP_other rfl]
    refine h.known x ?_
    simpa [Seat.drain] using hx
  case past =>
    intro last hl
    cases drainDue_lastExecuted s.schedule current
    case inl he => exact BitVec.le_trans (h.past last (he.right ▸ hl)) hn
    case inr he =>
      cases he.symm.trans hl
      exact BitVec.le_refl _
  case reached =>
    intro x hx
    rw [hdel, List.mem_append] at hx
    cases drainDue_lastExecuted s.schedule current
    case inl he =>
      rw [he.left] at hx
      have hx := h.reached x (hx.resolve_right List.not_mem_nil)
      exact he.right ▸ hx
    case inr he => exact ⟨current, he, hx.elim hle fun hx => (h.mem_due.mp hx).right⟩
  case behind =>
    intro x hx q hq
    rw [hdel, List.mem_append] at hx
    cases hx
    case inl hx => exact hold hx (h.mem_rest.mp hq).left.right
    case inr hx => exact hb x hx q hq
  case toDelivers =>
    constructor
    case lawful =>
      exact Trace.Each.snoc_iff.mpr ⟨h.lawful, hd.imp Arrival.Before.ne, fun x => h.mem_due⟩
    case queued =>
      refine ⟨List.pairwise_map.mpr <| hr.imp Arrival.Before.ne, fun x => ?_⟩
      rw [Seat.drain, waiting_snoc_iff, List.mem_map]
      constructor
      case mp =>
        intro ⟨q, hq, he⟩
        have ⟨⟨hl, hw⟩, hn⟩ := h.mem_rest.mp hq
        exact .inr ⟨he ▸ hl ▸ hn, he ▸ hw⟩
      case mpr =>
        intro hx
        have ⟨hn, hw⟩ := hx.resolve_left nofun
        exact ⟨(x.executeAt, x), h.mem_rest.mpr ⟨⟨rfl, hw⟩, hn⟩, rfl⟩
    case ordered =>
      rw [hdel]
      refine List.pairwise_append.mpr ⟨h.ordered, hd, fun x hx y hy => ?_⟩
      exact hold hx (h.mem_due.mp hy).left
    case conserved =>
      have := h.conserved
      rw [Seat.drain, countP_other rfl, length_delivered, length_dropped]
      simp only [Event.delivered, Event.dropped, List.length_nil]
      omega
    case counter =>
      rw [Seat.drain, countP_other rfl, drainDue_accepted]
      exact h.counter

theorem clear (h : Keeps s) : Keeps s.clear := by
  have hd : s.clear.delivered = [] := by
    rw [Seat.delivered, Seat.clear, List.rtakeWhile_concat_neg _ _ _ (by simp [Event.isCleared])]
    rfl
  constructor
  case labels => exact nofun
  case ties   => exact .nil
  case known  =>
    intro x hx
    rw [Seat.clear, countP_other rfl]
    refine h.known x ?_
    simpa [Seat.clear] using hx
  case past    => exact nofun
  case reached => exact hd ▸ nofun
  case behind  => exact hd ▸ nofun
  case toDelivers =>
    constructor
    case lawful    => exact Trace.Each.snoc_iff.mpr ⟨h.lawful, h.queued⟩
    case ordered   => exact hd ▸ .nil
    case counter   =>
      rw [Seat.clear, countP_other rfl]
      exact h.counter
    case queued    =>
      refine ⟨.nil, fun x => ⟨nofun, fun hx => ?_⟩⟩
      exact absurd trivial ((waiting_snoc_iff.mp hx).resolve_left nofun).left
    case conserved =>
      have := h.conserved
      rw [Seat.clear, countP_other rfl, length_delivered, length_dropped]
      simp only [Event.delivered, Event.dropped, InputSchedule.clear, List.length_nil, List.length_map]
      omega

theorem step {call : Call ι} (h : Keeps s) (hs : (machine ι o).step s call = some s') : Keeps s' := by
  cases call <;> simp only [machine, Option.ite_none_right_eq_some, Option.some.injEq] at hs
  case submit => exact h.submit hs.left hs.right
  case drain  => exact hs.right ▸ h.drain hs.left
  case clear  => exact hs ▸ h.clear

end Keeps

-- In every run each accepted input is delivered by the first drain that comes on its tick or later, and by no
-- other, unless the seat is vacated before. An occupant's inputs are delivered in the order of execution.
theorem delivers {s : Seat ι} {calls : List (Call ι)} (h : (machine ι o).Steps .start calls s) : Delivers s :=
  (h.preserves Keeps.step .start).toDelivers

-- Two inputs that arrive in the wrong order, the second of them late. A third one waits for a later tick.
theorem delivers_late :
    ∃ s, (machine Nat .panics).Steps .start
        [.submit 12 1 10 { maxLate := 4, maxEarly := 30 }, .submit 9 2 11 { maxLate := 4, maxEarly := 30 },
          .submit 20 3 11 { maxLate := 4, maxEarly := 30 }, .drain 12, .clear, .drain 13] s ∧
      Delivers s :=
  have h := .step rfl <| .step rfl <| .step rfl <| .step rfl <| .step rfl <| .step rfl .refl
  ⟨_, h, delivers h⟩

end Plaza.ServerUtils.InputSchedule

namespace Plaza.ServerUtils.InputSchedule

variable {ι : Type} {s : InputSchedule ι} {o : Overflow} {tick current : U64} {input : ι} {window : InputWindow}
  {r : InputSchedule ι × Submission}

theorem toNat_executeAt : (s.executeAt tick).toNat = max tick.toNat s.earliestRunnable := by
  unfold executeAt earliestRunnable
  cases s.lastExecuted
  case none      => simp
  case some last =>
    simp only [BitVec.lt_def, Option.map_some, Option.getD_some]
    split <;> omega

-- What a submission does where nothing overflows.
def answer (s : InputSchedule ι) (tick : U64) (input : ι) (current : U64) (window : InputWindow) :
    InputSchedule ι × Submission :=
  if tick + window.maxLate < current then
    ({ s with rejectedLate := s.rejectedLate + 1, lastRejectMargin := some (tick - current) }, .tickClosed)
  else if current + window.maxEarly < tick then
    ({ s with rejectedEarly := s.rejectedEarly + 1, lastRejectMargin := some (tick - current) }, .tooFarAhead)
  else if s.executeAt tick < current then
    ({ s with
      queue    := s.queue ++ [(s.executeAt tick, input)]
      accepted := s.accepted + 1
      late     := s.late + 1 }, .late)
  else
    ({ s with
      queue    := s.queue ++ [(s.executeAt tick, input)]
      accepted := s.accepted + 1 }, .scheduled)

theorem closes_lt_iff (current : U64) (h : tick.toNat + window.maxLate.toNat < 2 ^ 64) :
    tick + window.maxLate < current ↔ TickClosed tick current window := by
  rw [BitVec.lt_def, BitVec.toNat_add, Nat.mod_eq_of_lt h, TickClosed]

theorem opens_lt_iff (tick : U64) (h : current.toNat + window.maxEarly.toNat < 2 ^ 64) :
    current + window.maxEarly < tick ↔ TooFarAhead tick current window := by
  rw [BitVec.lt_def, BitVec.toNat_add, Nat.mod_eq_of_lt h, TooFarAhead]

-- A tick is not on both sides of the window.
theorem TooFarAhead.not_closed (h : TooFarAhead tick current window) : ¬TickClosed tick current window := by
  simp only [TooFarAhead, TickClosed] at *
  omega

theorem Fits.answers (h : s.Fits tick current window) :
    s.submit o tick input current window = some (s.answer tick input current window) := by
  have hl := closes_lt_iff current h.closes
  unfold submit answer
  rw [U64.add_of_fits h.closes, Option.bind_eq_bind, Option.bind_some]
  split
  case isTrue hc =>
    rw [U64.add_of_fits (h.rejectedLate (hl.mp hc)), U64.subSigned_of_fits (h.margin (.inl (hl.mp hc)))]
    rfl
  case isFalse hc =>
    have hc := hl.not.mp hc
    have hl := opens_lt_iff tick (h.opens hc)
    rw [U64.add_of_fits (h.opens hc), Option.bind_some]
    split
    case isTrue ha =>
      rw [U64.add_of_fits (h.rejectedEarly (hl.mp ha)), U64.subSigned_of_fits (h.margin (.inr (hl.mp ha)))]
      rfl
    case isFalse ha =>
      have ha := hl.not.mp ha
      rw [U64.add_of_fits (h.accepted hc ha), Option.bind_some]
      split
      case isTrue ht =>
        rw [U64.add_of_fits (h.late hc ha ht)]
        rfl
      case isFalse => rfl

-- A build that checks gets to the end only if everything fits.
theorem fits_of_submit (h : s.submit .panics tick input current window = some r) : s.Fits tick current window := by
  simp only [submit, Option.bind_eq_bind, Option.pure_def, Option.bind_eq_some_iff, U64.add_panics_iff] at h
  obtain ⟨_, ⟨hf, rfl⟩, h⟩ := h
  have hl := closes_lt_iff current hf
  split at h
  case isTrue hc =>
    have hc := hl.mp hc
    have hn : ¬TooFarAhead tick current window := fun ha => ha.not_closed hc
    simp only [Option.bind_eq_some_iff, U64.add_panics_iff, U64.subSigned_panics_iff] at h
    obtain ⟨_, ⟨hr, rfl⟩, _, ⟨hm, rfl⟩, _⟩ := h
    exact {
      closes          := hf
      opens h         := absurd hc h
      margin _        := hm
      rejectedLate _  := hr
      rejectedEarly h := absurd h hn
      accepted h      := absurd hc h
      late h          := absurd hc h
    }
  case isFalse hc =>
    have hc := hl.not.mp hc
    simp only [Option.bind_eq_some_iff, U64.add_panics_iff] at h
    obtain ⟨_, ⟨ho, rfl⟩, h⟩ := h
    have hl := opens_lt_iff tick ho
    split at h
    case isTrue ha =>
      have ha := hl.mp ha
      simp only [Option.bind_eq_some_iff, U64.add_panics_iff, U64.subSigned_panics_iff] at h
      obtain ⟨_, ⟨hr, rfl⟩, _, ⟨hm, rfl⟩, _⟩ := h
      exact {
        closes          := hf
        opens _         := ho
        margin _        := hm
        rejectedLate h  := absurd h hc
        rejectedEarly _ := hr
        accepted _ hn   := absurd ha hn
        late _ hn       := absurd ha hn
      }
    case isFalse ha =>
      have ha := hl.not.mp ha
      simp only [Option.bind_eq_some_iff, U64.add_panics_iff] at h
      obtain ⟨_, ⟨hr, rfl⟩, h⟩ := h
      refine ⟨hf, fun _ => ho, (·.elim (absurd · hc) (absurd · ha)), (absurd · hc), (absurd · ha), fun _ _ => hr, ?_⟩
      intro _ _ ht
      rw [if_pos ht] at h
      simp only [Option.bind_eq_some_iff, U64.add_panics_iff] at h
      obtain ⟨_, ⟨hl, _⟩, _⟩ := h
      exact hl

theorem Fits.judged (h : s.Fits tick current window) :
    s.Judged tick input current window (s.answer tick input current window) := by
  have hl := closes_lt_iff current h.closes
  unfold answer
  by_cases hc : TickClosed tick current window
  case pos =>
    have hn : ¬TooFarAhead tick current window := fun ha => ha.not_closed hc
    rw [if_pos (hl.mpr hc)]
    constructor <;> simp [hc, hn, Submission.accepted]
  case neg =>
    have ho := opens_lt_iff tick (h.opens hc)
    rw [if_neg (hl.not.mpr hc)]
    by_cases ha : TooFarAhead tick current window
    case pos =>
      rw [if_pos (ho.mpr ha)]
      constructor <;> simp [hc, ha, Submission.accepted]
    case neg =>
      rw [if_neg (ho.not.mpr ha)]
      split <;> constructor <;> simp [hc, ha, Submission.accepted, toNat_executeAt]

-- Whether a submission overflows nowhere and is judged as the claimed window has it.
theorem submit_judged_iff :
    (∃ r, (∀ o, s.submit o tick input current window = some r) ∧ s.Judged tick input current window r) ↔
      s.Fits tick current window := by
  constructor
  case mp  => exact fun ⟨_, h, _⟩ => fits_of_submit (h .panics)
  case mpr => exact fun h => ⟨_, fun _ => h.answers, h.judged⟩

-- A client names the last tick there is. The sum with the window's late side either panics, or it wraps so that
-- the tick reads as closed.
theorem submit_last_tick :
    ¬∃ r, (∀ o, (new : InputSchedule Nat).submit o (-1) 0 10 { maxLate := 4, maxEarly := 30 } = some r) ∧
      (new : InputSchedule Nat).Judged (-1) 0 10 { maxLate := 4, maxEarly := 30 } r := by
  intro ⟨_, h, _⟩
  exact nomatch h .panics

end Plaza.ServerUtils.InputSchedule
