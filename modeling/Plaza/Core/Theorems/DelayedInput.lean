import Plaza.Lib.Ordered
import Plaza.Core.DelayedInput

open Rust (Overflow)

namespace Plaza.Core

variable {κ ι : Type*} {b : ServerInputBuffer κ ι} {t : ServerTime} {current delay cutoff received : Nat}
  {queue : List (BufferedInput ι)} {p : BufferedInput ι → Bool}

theorem ServerTime.sub_of_le (h : delay ≤ current) : t.sub current delay = some (current - delay) := by
  cases t <;> simp [sub, h]

theorem ServerTime.sub_of_lt (h : current < delay) :
    t.sub current delay = if t = .ticks .wraps then some (2 ^ 64 + current - delay) else none := by
  cases t
  case ticks o => simp [sub, Nat.not_le_of_gt h, Overflow.outcome]
  case duration => simp [sub, Nat.not_le_of_gt h]

theorem BufferedInput.isDue_iff {x : BufferedInput ι} (h : delay ≤ current) :
    x.isDue current delay ↔ x.serverReceivedTime ≤ current - delay := by
  simp only [isDue, decide_eq_true_eq]
  omega

theorem BufferedInput.not_isDue {x : BufferedInput ι} (h : current < delay) : x.isDue current delay = false := by
  simp only [isDue, decide_eq_false_iff_not]
  omega

namespace ServerInputBuffer

theorem drainQueue_eq :
    drainQueue cutoff queue =
      ((queue.takeWhile (·.serverReceivedTime ≤ cutoff)).map (·.clientInput),
        queue.dropWhile (·.serverReceivedTime ≤ cutoff)) := by
  induction queue
  case nil => rfl
  case cons x queue hi =>
    by_cases h : x.serverReceivedTime ≤ cutoff <;> simp [drainQueue, h, hi]

theorem takes_none_iff :
    queue.takeWhile p = [] ∧ queue.dropWhile p = queue ↔ ∀ x ∈ queue.head?, p x = false := by
  cases queue
  case nil => simp
  case cons x queue => cases h : p x <;> simp [h]

theorem mapQueues_eq_iff {f g : κ → List (BufferedInput ι) → List (BufferedInput ι)} :
    b.mapQueues f = b.mapQueues g ↔ ∀ e ∈ b.inputsByClient, f e.fst e.snd = g e.fst e.snd := by
  simp [mapQueues, List.map_inj_left]

theorem mapQueues_self : (b.mapQueues fun _ queue => queue) = b := by
  simp [mapQueues]

theorem withoutDue_of_lt (h : current < delay) : b.withoutDue current delay = b := by
  simp only [withoutDue, BufferedInput.not_isDue h, Bool.not_false, List.filter_true, mapQueues_self]

theorem dueInputs_of_lt (h : current < delay) : b.dueInputs current delay = [] := by
  simp [dueInputs, BufferedInput.not_isDue h]

-- With a cut-off that the delay fits before, what is kept decides what is handed out.
theorem drain_iff_of_le (h : delay ≤ current) :
    b.drainDelayedInputs t current delay = some (b.dueInputs current delay, b.withoutDue current delay) ↔
      ∀ e ∈ b.inputsByClient, e.snd.Pairwise fun x y => y.isDue current delay → x.isDue current delay := by
  have hp : (fun x : BufferedInput ι => decide (x.serverReceivedTime ≤ current - delay)) =
      (·.isDue current delay) :=
    funext fun x => Bool.eq_iff_iff.mpr <| by rw [decide_eq_true_eq, BufferedInput.isDue_iff h]
  simp only [drainDelayedInputs, ServerTime.sub_of_le h, Option.map_some, Option.some.injEq, Prod.mk.injEq,
    drainQueue_eq, hp, withoutDue, mapQueues_eq_iff, List.dropWhile_eq_filter_iff]
  refine ⟨And.right, fun hq => ⟨?_, hq⟩⟩
  rw [dueInputs, List.flatMap_congr fun e he => by rw [List.takeWhile_eq_filter (hq e he), List.map_map]]
  rfl

theorem drain_iff_of_lt (h : current < delay) :
    b.drainDelayedInputs t current delay = some (b.dueInputs current delay, b.withoutDue current delay) ↔
      t = .ticks .wraps ∧
        ∀ e ∈ b.inputsByClient, ∀ x ∈ e.snd.head?, 2 ^ 64 + current - delay < x.serverReceivedTime := by
  rw [drainDelayedInputs, ServerTime.sub_of_lt h, dueInputs_of_lt h, withoutDue_of_lt h]
  split
  case isFalse ht => simp [ht]
  case isTrue ht  =>
    simp only [Option.map_some, Option.some.injEq, Prod.mk.injEq, ht, true_and, List.flatMap_eq_nil_iff,
      List.map_eq_nil_iff, drainQueue_eq]
    have hs : b = b.mapQueues fun _ queue => queue := mapQueues_self.symm
    conv_lhs => rhs; rhs; rw [hs]
    rw [mapQueues_eq_iff, ←forall₂_and]
    refine forall₂_congr fun e _ => takes_none_iff.trans ?_
    simp only [decide_eq_false_iff_not, Nat.not_le]

-- Whether a drain selects by the delay.
theorem drain_selects_iff :
    b.drainDelayedInputs t current delay = some (b.dueInputs current delay, b.withoutDue current delay) ↔
      b.Selective t current delay := by
  by_cases h : delay ≤ current
  case pos => simp [drain_iff_of_le h, Selective, h]
  case neg =>
    have h := Nat.lt_of_not_le h
    rw [drain_iff_of_lt h, Selective]
    simp [h]

-- One tick into a delay of two, an input of the first tick is not due. But the difference panics, or it wraps
-- to a cut-off which the input is long before.
theorem drain_early :
    let b : ServerInputBuffer Nat Nat := new.addInput 7 { sequenceNumber := 1, inputData := 10 } 1
    [.ticks .panics, .ticks .wraps, .duration].all fun t =>
      b.drainDelayedInputs t 1 2 ≠ some (b.dueInputs 1 2, b.withoutDue 1 2) := by
  decide

-- Every client's inputs are queued in the order of the times they were received at.
def Ordered (b : ServerInputBuffer κ ι) : Prop :=
  ∀ e ∈ b.inputsByClient, e.snd.Pairwise (·.serverReceivedTime ≤ ·.serverReceivedTime)

-- It is so as long as inputs are added at the server's own time.
theorem Ordered.addInput [DecidableEq κ] {client : κ} {input : SequencedClientInput ι} (h : b.Ordered)
    (hr : ∀ e ∈ b.inputsByClient, ∀ x ∈ e.snd, x.serverReceivedTime ≤ received) :
    (b.addInput client input received).Ordered := by
  intro e he
  simp only [ServerInputBuffer.addInput] at he
  split at he
  case isTrue =>
    obtain ⟨e, hm, rfl⟩ := List.mem_map.mp he
    dsimp only
    split
    case isFalse => exact h e hm
    case isTrue  =>
      rw [List.pairwise_append]
      refine ⟨h e hm, List.pairwise_singleton .., fun x hx y hy => ?_⟩
      rw [List.mem_singleton] at hy
      exact hy ▸ hr e hm x hx
  case isFalse =>
    rw [List.mem_append, List.mem_singleton] at he
    cases he
    case inl hm => exact h e hm
    case inr hm => exact hm ▸ List.pairwise_singleton ..

-- From then on it only depends on the delay whether a drain selects by it.
theorem Ordered.drains (h : b.Ordered) (hd : delay ≤ current) :
    b.drainDelayedInputs t current delay = some (b.dueInputs current delay, b.withoutDue current delay) := by
  rw [drain_iff_of_le hd]
  refine fun e he => (h e he).imp fun hl => ?_
  simp only [BufferedInput.isDue, decide_eq_true_eq]
  omega

end ServerInputBuffer
end Plaza.Core
