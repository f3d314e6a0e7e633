import Plaza.ClientUtils.Playout
import Plaza.Lib.Trace

namespace Plaza.ClientUtils.PlayoutBuffer

variable {α : Type*} {b : PlayoutBuffer α} {p q : Packet α} {n : Nat} {renderAt : Option Nat}

def Sorted (queued : List (Packet α)) : Prop :=
  queued.Pairwise (·.order ≤ ·.order)

instance : DecidablePred (@Sorted α) :=
  fun _ => inferInstanceAs (Decidable (List.Pairwise ..))

namespace Sorted

variable {l l' : List (Packet α)}

theorem head_le (h : Sorted l) (hp : l.head? = some p) (hq : q ∈ l) : p.order ≤ q.order := by
  have ⟨l', hl⟩ := List.head?_eq_some_iff.mp hp
  subst hl
  cases hq
  case head    => exact Nat.le_refl _
  case tail hq => exact (List.pairwise_cons.mp h).left q hq

theorem le_last (h : Sorted l) (hp : l.getLast? = some p) (hq : q ∈ l) : q.order ≤ p.order := by
  cases List.Pairwise.rel_of_getLast? h hp hq
  case inl he => exact he ▸ Nat.le_refl _
  case inr h  => exact h

theorem insert (h : Sorted b.queued) : Sorted (b.insert p).queued := by
  have h : b.queued.Pairwise fun p q => ¬q.order < p.order := h.imp Nat.not_lt_of_le
  have h := h.insertBefore_of_not (r := (·.order < ·.order)) (a := p) (by omega) (by omega)
  exact h.imp Nat.le_of_not_lt

theorem restart : Sorted b.restart.queued := by
  rw [Sorted, PlayoutBuffer.restart]
  cases b.queued.getLast? <;> simp

end Sorted

theorem insert_perm : (b.insert p).queued.Perm (p :: b.queued) :=
  List.insertBefore_perm (r := fun p q : Packet α => p.order < q.order)

-- What a restart finds is what it keeps and what it drops.
theorem restart_perm : b.queued.Perm (b.restart.queued ++ b.queued.dropLast) := by
  rw [restart]
  rcases List.eq_nil_or_concat b.queued with h | ⟨l, p, h⟩
  · simp [h]
  · simp [h, List.perm_append_singleton p l |>.trans]

theorem length_restart_le : b.restart.queued.length ≤ 1 := by
  rw [restart]
  cases b.queued.getLast? <;> simp

-- What a push does: it queues the packet, and may restart after that.
theorem push_cases (b : PlayoutBuffer α) (p : Packet α) (renderAt : Option Nat) :
    let counted := { b with underruns := b.underruns + (late b.lostAhead p.stamp renderAt).toNat }
    (b.push p renderAt = (counted.insert p, .queued) ∧ (b.insert p).queued.length ≤ b.maxQueued) ∨
      b.push p renderAt = ((counted.insert p).restart, .timelineLost) := by
  have hu : (if late b.lostAhead p.stamp renderAt then { b with underruns := b.underruns + 1 } else b) =
      { b with underruns := b.underruns + (late b.lostAhead p.stamp renderAt).toNat } := by
    cases late b.lostAhead p.stamp renderAt <;> simp
  simp only [push, hu]
  split
  case isTrue    => exact .inr rfl
  case isFalse h => exact .inl ⟨rfl, Nat.le_of_not_lt fun hl => h <| .inr hl⟩

theorem due_eq_some_iff : b.due n = some p ↔ b.queued.head? = some p ∧ p.stamp ≤ n := by
  simp [due]

theorem popDue_fst : (b.popDue n).fst = { b with queued := (b.popDue n).fst.queued } := by
  rw [popDue]
  split <;> rfl

theorem popDue_queued : b.queued = (b.due n).toList ++ (b.popDue n).fst.queued := by
  rw [popDue]
  split
  case h_1 p h =>
    have ⟨l, hl⟩ := List.head?_eq_some_iff.mp (due_eq_some_iff.mp h).left
    simp [h, hl]
  case h_2 h => simp [h]

inductive Call (α : Type*)
  | push (p : Packet α) (renderAt : Option Nat)
  | popDue (renderAt : Nat)
  | timelineLost
  deriving DecidableEq

namespace Call

def packet : Call α → Option (Packet α)
  | push p _ => some p
  | _        => none

def late (lostAhead : Nat) : Call α → Bool
  | push p renderAt => PlayoutBuffer.late lostAhead p.stamp renderAt
  | _               => false

end Call

-- A buffer with the packets it has handed back, and the queues that its restarts have found.
structure Ledger (α : Type*) where
  buffer : PlayoutBuffer α
  popped : List (Packet α)
  found  : List (List (Packet α))

namespace Ledger

variable {l : Ledger α} {c : Call α} {calls : List (Call α)} {maxQueued lostAhead : Nat}

def step (l : Ledger α) : Call α → Ledger α
  | .push p renderAt => {
      buffer := (l.buffer.push p renderAt).fst
      popped := l.popped
      found  := match (l.buffer.push p renderAt).snd with
        | .queued       => l.found
        | .timelineLost => l.found ++ [(l.buffer.insert p).queued]
    }
  | .popDue renderAt => {
      buffer := (l.buffer.popDue renderAt).fst
      popped := l.popped ++ (l.buffer.due renderAt).toList
      found  := l.found
    }
  | .timelineLost => {
      buffer := l.buffer.timelineLost
      popped := l.popped
      found  := l.found ++ [l.buffer.queued]
    }

def run (maxQueued lostAhead : Nat) (calls : List (Call α)) : Ledger α :=
  calls.foldl step { buffer := .new maxQueued lostAhead, popped := [], found := [] }

def dropped (l : Ledger α) : List (Packet α) :=
  l.found.flatMap List.dropLast

theorem run_concat : run maxQueued lostAhead (calls ++ [c]) = (run maxQueued lostAhead calls).step c := by
  simp [run]

-- What a run keeps in which the packets were pushed, that many of them late.
structure Kept (maxQueued lostAhead : Nat) (pushed : List (Packet α)) (lates : Nat) (l : Ledger α) : Prop where
  limit     : l.buffer.maxQueued = max maxQueued 1
  threshold : l.buffer.lostAhead = lostAhead
  sorted    : Sorted l.buffer.queued
  conserved : pushed.Perm (l.popped ++ l.buffer.queued ++ l.dropped)
  restarts  : l.buffer.restarts = l.found.length
  found     : ∀ queue ∈ l.found, Sorted queue
  underruns : l.buffer.underruns = lates

namespace Kept

variable {pushed : List (Packet α)} {lates : Nat}

theorem new : Kept maxQueued lostAhead [] 0 (run maxQueued lostAhead ([] : List (Call α))) where
  limit     := rfl
  threshold := rfl
  sorted    := .nil
  conserved := .nil
  restarts  := rfl
  found     := by simp [run]
  underruns := rfl

theorem restart (h : Kept maxQueued lostAhead pushed lates l) :
    Kept maxQueued lostAhead pushed lates { l with
      buffer := l.buffer.restart, found := l.found ++ [l.buffer.queued] } where
  limit     := h.limit
  threshold := h.threshold
  sorted    := .restart
  conserved := by
    have hr := restart_perm (b := l.buffer).append_left l.popped |>.append_right l.dropped
    apply (h.conserved.trans hr).trans
    simp only [dropped, List.flatMap_append, List.flatMap_singleton, List.append_assoc]
    exact (List.perm_append_comm.append_left _).append_left _
  restarts  := by simp [PlayoutBuffer.restart, h.restarts]
  found     := by
    intro queue hq
    rcases List.mem_append.mp hq with hq | hq
    · exact h.found queue hq
    · exact List.mem_singleton.mp hq ▸ h.sorted
  underruns := h.underruns

theorem insert (h : Kept maxQueued lostAhead pushed lates l) :
    Kept maxQueued lostAhead (pushed ++ [p]) (lates + n) { l with
      buffer := { l.buffer with underruns := l.buffer.underruns + n }.insert p } where
  limit     := h.limit
  threshold := h.threshold
  sorted    := h.sorted.insert
  conserved := by
    have hp : (l.popped ++ (l.buffer.insert p).queued ++ l.dropped).Perm
        (p :: (l.popped ++ l.buffer.queued ++ l.dropped)) := by
      have hi := (insert_perm (b := l.buffer) (p := p)).append_left l.popped |>.append_right l.dropped
      exact hi.trans <| List.perm_middle.append_right _
    exact (List.perm_append_singleton p pushed).trans <| (h.conserved.cons p).trans hp.symm
  restarts  := h.restarts
  found     := h.found
  underruns := congrArg (· + n) h.underruns

theorem push (h : Kept maxQueued lostAhead pushed lates l) :
    Kept maxQueued lostAhead (pushed ++ [p]) (lates + (late lostAhead p.stamp renderAt).toNat)
      (l.step (.push p renderAt)) := by
  cases h.threshold
  rcases l.buffer.push_cases p renderAt with ⟨hs, _⟩ | hs
  case inl =>
    simp only [step, hs]
    exact h.insert
  case inr =>
    simp only [step, hs]
    exact h.insert.restart

theorem popDue (h : Kept maxQueued lostAhead pushed lates l) :
    Kept maxQueued lostAhead pushed lates (l.step (.popDue n)) where
  limit     := by
    rw [step, popDue_fst]
    exact h.limit
  threshold := by
    rw [step, popDue_fst]
    exact h.threshold
  sorted    := by
    have hs := h.sorted
    rw [popDue_queued (n := n)] at hs
    exact (List.pairwise_append.mp hs).right.left
  conserved := by
    have hc := h.conserved
    rw [popDue_queued (n := n), ← List.append_assoc] at hc
    exact hc
  restarts  := by
    rw [step, popDue_fst]
    exact h.restarts
  found     := h.found
  underruns := by
    rw [step, popDue_fst]
    exact h.underruns

end Kept

theorem run_kept : Kept maxQueued lostAhead (calls.filterMap Call.packet) (calls.countP (Call.late lostAhead))
    (run maxQueued lostAhead calls) := by
  induction calls using List.reverseRecOn
  case nil => exact .new
  case append_singleton calls c h =>
    rw [run_concat, List.filterMap_append, List.countP_append]
    cases c
    case push p renderAt =>
      have hl : [Call.push p renderAt].countP (Call.late lostAhead) = (late lostAhead p.stamp renderAt).toNat := by
        cases hl : late lostAhead p.stamp renderAt <;> simp [Call.late, hl]
      exact hl ▸ h.push
    case popDue n =>
      rw [show [Call.popDue n].filterMap Call.packet = ([] : List (Packet α)) from rfl, List.append_nil]
      exact h.popDue
    case timelineLost =>
      rw [show [Call.timelineLost].filterMap Call.packet = ([] : List (Packet α)) from rfl, List.append_nil]
      exact h.restart

-- No call leaves more packets than the buffer is to hold.
theorem step_length_le (h : l.buffer.queued.length ≤ l.buffer.maxQueued) :
    (l.step c).buffer.queued.length ≤ (l.step c).buffer.maxQueued := by
  have hr {b : PlayoutBuffer α} : b.restart.queued.length ≤ b.maxQueued :=
    Nat.le_trans length_restart_le b.maxQueued_pos
  cases c
  case push p renderAt =>
    rcases l.buffer.push_cases p renderAt with ⟨hs, hl⟩ | hs
    case inl =>
      simp only [step, hs]
      exact hl
    case inr =>
      simp only [step, hs]
      exact hr
  case popDue n =>
    have hq := congrArg List.length (popDue_queued (b := l.buffer) (n := n))
    rw [List.length_append] at hq
    rw [step, popDue_fst]
    show (l.buffer.popDue n).fst.queued.length ≤ l.buffer.maxQueued
    omega
  case timelineLost => exact hr

theorem run_length_le : (run maxQueued lostAhead calls).buffer.queued.length ≤ max maxQueued 1 := by
  have h : (run maxQueued lostAhead calls).buffer.queued.length ≤
      (run maxQueued lostAhead calls).buffer.maxQueued := by
    induction calls using List.reverseRecOn
    case nil => exact Nat.zero_le _
    case append_singleton calls c h => exact run_concat ▸ step_length_le h
  exact run_kept.limit ▸ h

-- Nothing was handed back after a packet of a higher order, or would be by the packets that are left.
structure Ordered (l : Ledger α) : Prop where
  popped : Sorted l.popped
  queued : ∀ p ∈ l.popped, ∀ q ∈ l.buffer.queued, p.order ≤ q.order

-- A packet that is pushed does not come before one which was already handed back.
def Timely (l : Ledger α) (c : Call α) : Prop :=
  ∀ q, c.packet = some q → ∀ p ∈ l.popped, p.order ≤ q.order

theorem mem_step_queued (hq : q ∈ (l.step c).buffer.queued) : c.packet = some q ∨ q ∈ l.buffer.queued := by
  have hr {b : PlayoutBuffer α} (hq : q ∈ b.restart.queued) : q ∈ b.queued :=
    restart_perm.mem_iff.mpr <| List.mem_append_left _ hq
  cases c
  case push p renderAt =>
    have hi (hq : q ∈ (l.buffer.insert p).queued) : some p = some q ∨ q ∈ l.buffer.queued := by
      cases insert_perm.mem_iff.mp hq
      case head    => exact .inl rfl
      case tail hq => exact .inr hq
    rcases l.buffer.push_cases p renderAt with ⟨hs, _⟩ | hs
    case inl =>
      simp only [step, hs] at hq
      exact hi hq
    case inr =>
      simp only [step, hs] at hq
      exact hi <| hr hq
  case popDue n     => exact .inr <| popDue_queued (b := l.buffer) (n := n) ▸ List.mem_append_right _ hq
  case timelineLost => exact .inr <| hr hq

theorem Ordered.step (h : Ordered l) (hs : Sorted l.buffer.queued) (ht : Timely l c) : Ordered (l.step c) := by
  have hk (hp : (l.step c).popped = l.popped) : Ordered (l.step c) := {
    popped := hp ▸ h.popped
    queued := by
      intro p hp' q hq
      rw [hp] at hp'
      cases mem_step_queued hq
      case inl hq => exact ht q hq p hp'
      case inr hq => exact h.queued p hp' q hq
  }
  cases c
  case push         => exact hk rfl
  case timelineLost => exact hk rfl
  case popDue n     =>
    have hq := popDue_queued (b := l.buffer) (n := n)
    have hm {q} (h : q ∈ (l.buffer.due n).toList) : q ∈ l.buffer.queued := hq ▸ List.mem_append_left _ h
    rw [hq] at hs
    have ⟨hd, _, hs⟩ := List.pairwise_append.mp hs
    exact {
      popped := List.pairwise_append.mpr ⟨h.popped, hd, fun p hp q hq => h.queued p hp q (hm hq)⟩
      queued := by
        intro p hp q hq'
        rcases List.mem_append.mp hp with hp | hp
        · exact h.queued p hp q <| hq ▸ List.mem_append_right _ hq'
        · exact hs p hp q hq'
    }

theorem run_ordered (h : Trace.Each (fun before => Timely (run maxQueued lostAhead before)) calls) :
    Ordered (run maxQueued lostAhead calls) := by
  induction calls using List.reverseRecOn
  case nil => exact ⟨.nil, by simp [run]⟩
  case append_singleton calls c hi =>
    have ⟨h, hc⟩ := Trace.Each.snoc_iff.mp h
    exact run_concat ▸ (hi h).step run_kept.sorted hc

-- Pops with no push between them come out in order, whatever was handed back before.
theorem pops_ordered {ns : List Nat} (hs : Sorted l.buffer.queued) :
    ∃ new, ((ns.map Call.popDue).foldl step l).popped = l.popped ++ new ∧ Sorted new := by
  suffices ∃ new, ((ns.map Call.popDue).foldl step l).popped = l.popped ++ new ∧
      Sorted ((ns.map Call.popDue).foldl step l).buffer.queued ∧
      Ordered { (ns.map Call.popDue).foldl step l with popped := new } from
    have ⟨new, h, _, ho⟩ := this
    ⟨new, h, ho.popped⟩
  induction ns using List.reverseRecOn
  case nil => exact ⟨[], by simp, hs, .nil, by simp⟩
  case append_singleton ns n hi =>
    obtain ⟨new, h, hs, ho⟩ := hi
    have ho := ho.step hs (c := .popDue n) (by simp [Timely, Call.packet])
    rw [List.map_append, List.foldl_append]
    refine ⟨new ++ (((ns.map Call.popDue).foldl step l).buffer.due n).toList, ?_, ?_, ho⟩
    · simp [step, h]
    · rw [popDue_queued (n := n)] at hs
      exact (List.pairwise_append.mp hs).right.left

theorem step_restart {queue : List (Packet α)} (h : (l.step c).found = l.found ++ [queue]) :
    (l.step c).buffer.queued = queue.getLast?.toList := by
  cases c
  case push p renderAt =>
    rcases l.buffer.push_cases p renderAt with ⟨hs, _⟩ | hs
    case inl => simp [step, hs] at h
    case inr =>
      simp only [step, hs, List.append_cancel_left_eq, List.cons.injEq, and_true] at h ⊢
      exact h ▸ rfl
  case popDue n => simp [step] at h
  case timelineLost =>
    simp only [step, List.append_cancel_left_eq, List.cons.injEq, and_true] at h ⊢
    exact h ▸ rfl

end Ledger

open Ledger

-- A late packet is queued and handed back like any other, so that what it comes after may have been handed back
-- before it.
theorem late_packet_handed_back_below :
    let calls : List (Call Unit) := [
      .push ⟨100, 5, ()⟩ none, .popDue 100, .push ⟨50, 3, ()⟩ (some 100), .popDue 100
    ]
    let l := run 8 3000 calls
    ¬Sorted l.popped ∧ l.popped = [⟨100, 5, ()⟩, ⟨50, 3, ()⟩] ∧ l.buffer.underruns = 1 ∧ l.buffer.restarts = 0 := by
  decide

theorem accounts_for_every_packet (maxQueued lostAhead : Nat) (calls : List (Call α)) :
    let l := run maxQueued lostAhead calls
    Sorted l.buffer.queued ∧ l.buffer.queued.length ≤ max maxQueued 1 ∧
      (calls.filterMap Call.packet).Perm (l.popped ++ l.buffer.queued ++ l.found.flatMap List.dropLast) ∧
      l.buffer.restarts = l.found.length ∧
      (∀ c queue, (l.step c).found = l.found ++ [queue] → (l.step c).buffer.queued = queue.getLast?.toList) ∧
      (∀ queue ∈ l.found, ∀ p ∈ queue, ∀ q, queue.getLast? = some q → p.order ≤ q.order) ∧
      l.buffer.underruns = calls.countP (Call.late lostAhead) ∧
      (∀ n p, l.buffer.due n = some p → ∀ q ∈ l.buffer.queued, p.order ≤ q.order) ∧
      (∀ ns : List Nat, ∃ new,
        (run maxQueued lostAhead (calls ++ ns.map .popDue)).popped = l.popped ++ new ∧ Sorted new) ∧
      (Trace.Each (fun before => Timely (run maxQueued lostAhead before)) calls → Sorted l.popped) := by
  have h := @run_kept _ calls maxQueued lostAhead
  refine ⟨h.sorted, run_length_le, h.conserved, h.restarts, ?_, ?_, h.underruns, ?_, ?_, ?_⟩
  · exact fun c queue hq => step_restart hq
  · exact fun queue hq p hp q hl => (h.found queue hq).le_last hl hp
  · exact fun n p hd q hq => h.sorted.head_le (due_eq_some_iff.mp hd).left hq
  · intro ns
    rw [run, List.foldl_append]
    exact pops_ordered h.sorted
  · exact fun ht => (run_ordered ht).popped

theorem accounts_for_a_late_packet :
    let calls : List (Call Unit) := [
      .push ⟨90, 2, ()⟩ none, .popDue 100, .push ⟨95, 3, ()⟩ (some 100), .popDue 100
    ]
    Sorted (run 8 3000 calls).popped ∧ (run 8 3000 calls).popped = [⟨90, 2, ()⟩, ⟨95, 3, ()⟩] := by
  refine ⟨(accounts_for_every_packet 8 3000 _).right.right.right.right.right.right.right.right.right ?_, by decide⟩
  show Trace.Each _ ([] ++ [_] ++ [_] ++ [_] ++ [_])
  simp only [Trace.Each.snoc_iff]
  refine ⟨⟨⟨⟨.nil, ?_⟩, ?_⟩, ?_⟩, ?_⟩ <;> rintro _ ⟨⟩ <;> decide

end Plaza.ClientUtils.PlayoutBuffer
