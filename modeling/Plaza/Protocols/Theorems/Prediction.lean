import Mathlib.Algebra.Order.Field.Rat
import Mathlib.Data.List.DropRight
import Plaza.ClientUtils.Theorems.InputBuffer
import Plaza.Protocols.Prediction

open Plaza.ClientUtils

namespace Plaza.ClientUtils.ClientInputBuffer

variable {ι σ : Type*} {b : ClientInputBuffer ι σ} {ack : Nat}

-- An input as it was sent.
def pairs (l : List (BufferedInput ι σ)) : List (Nat × ι) :=
  l.map fun buffered => (buffered.sequenceNumber, buffered.op)

theorem get_acknowledged :
    (b.acknowledgeInputsUpTo ack).getUnacknowledgedInputs ack = (b.acknowledgeInputsUpTo ack).inputs :=
  getUnacknowledgedInputs_eq_dropWhile.trans <| List.dropWhile_idempotent _ _

theorem pairs_acknowledged :
    pairs (b.acknowledgeInputsUpTo ack).inputs = (pairs b.inputs).dropWhile (·.fst ≤ ack) := by
  rw [pairs, pairs, List.dropWhile_map]
  rfl

theorem pairs_recorded {seq op state} (h : b.inputs.length < b.maxSize) :
    pairs (b.recordInput seq op state).inputs = pairs b.inputs ++ [(seq, op)] := by
  rw [recordInput, if_neg h.ne]
  exact List.map_append ..

theorem foldl_pairs {rule : σ → ι → σ} {s : σ} {l : List (BufferedInput ι σ)} :
    l.foldl (fun s buffered => rule s buffered.op) s = ((pairs l).map (·.snd)).foldl rule s := by
  rw [pairs, List.map_map, List.foldl_map]
  rfl

end Plaza.ClientUtils.ClientInputBuffer

namespace Plaza.ClientUtils.PredictedPlayer

variable {σ ι κ K : Type*} {p : PredictedPlayer σ ι κ K}

theorem input_eq_of_active {op : ι} (h : p.active) : p.input op =
    ({ p with
      nextSeq   := p.nextSeq + 1
      predicted := { p.predicted with currentPredictedState := p.apply p.logical op p.ctx }
      inputs    := p.inputs.recordInput (p.nextSeq + 1) op p.logical },
     p.nextSeq + 1) := by
  rw [input, h]
  rfl

theorem reconcile_eq_of_active [Field K] [LinearOrder K] {authoritative : σ} {ack : Nat} (h : p.active) : (p.reconcile authoritative ack).fst =
    { p with
      predicted := {
        currentPredictedState          := (p.inputs.acknowledgeInputsUpTo ack).inputs.foldl (p.apply · ·.op p.ctx) authoritative
        lastAuthoritativeState         := authoritative
        lastServerAcknowledgedInputSeq := ack }
      inputs    := p.inputs.acknowledgeInputsUpTo ack
      smoother  := p.smoother.beginFrom p.render } := by
  rw [reconcile, h, ← ClientInputBuffer.get_acknowledged]
  rfl

end Plaza.ClientUtils.PredictedPlayer

namespace Plaza.Protocols.Prediction

variable {σ ι κ K : Type*} {rule : σ → ι → σ} {initial : σ} {s s' : Play σ ι κ K} {e : Event ι K}

-- The inputs are numbered in the order in which they are sent, the buffer holds those above the last ack,
-- and the state is the one after all of them.
structure Tracks (rule : σ → ι → σ) (initial : σ) (s : Play σ ι κ K) : Prop where
  active        : s.player.active
  fixed         : (s.player.apply · · s.player.ctx) = rule
  numbered      : s.sent.map (·.fst) = List.range' 1 s.sent.length
  next          : s.player.nextSeq = s.sent.length
  acked         : s.player.ackedSeq ≤ s.sent.length
  buffered      : ClientInputBuffer.pairs s.player.inputs.inputs = s.unacked
  authoritative : s.player.authoritative = s.server rule initial s.player.ackedSeq
  logical       : s.player.logical = (s.sent.map (·.snd)).foldl rule initial

namespace Tracks

theorem sorted (h : Tracks rule initial s) : s.sent.Pairwise fun p q => p.fst < q.fst := by
  rw [← List.pairwise_map (R := (· < ·)), h.numbered]
  exact List.pairwise_lt_range'

theorem ordered (h : Tracks rule initial s) (ack : Nat) :
    s.sent.Pairwise fun p q => decide (q.fst ≤ ack) → decide (p.fst ≤ ack) :=
  h.sorted.imp fun hlt hle => decide_eq_true <| hlt.le.trans <| of_decide_eq_true hle

-- What an acknowledgement splits the inputs into.
theorem sent_eq (h : Tracks rule initial s) (ack : Nat) :
    s.sent.filter (·.fst ≤ ack) ++ s.sent.filter (ack < ·.fst) = s.sent := by
  have hn : s.sent.filter (ack < ·.fst) = s.sent.filter fun p => !decide (p.fst ≤ ack) := by
    simp only [← decide_not, Nat.not_le]
  rw [hn, ← List.takeWhile_eq_filter (h.ordered ack), ← List.dropWhile_eq_filter_iff.mpr (h.ordered ack),
    List.takeWhile_append_dropWhile]

-- To replay what is above the ack over the state of the server is to apply everything.
theorem replayed (h : Tracks rule initial s) (ack : Nat) :
    ((s.sent.filter (ack < ·.fst)).map (·.snd)).foldl rule (s.server rule initial ack) =
      (s.sent.map (·.snd)).foldl rule initial := by
  rw [Play.server, ← List.foldl_append, ← List.map_append, h.sent_eq]

theorem pruned (h : Tracks rule initial s) {ack : Nat} (ha : s.player.ackedSeq ≤ ack) :
    s.unacked.dropWhile (·.fst ≤ ack) = s.sent.filter (ack < ·.fst) := by
  rw [Play.unacked, List.dropWhile_eq_filter_iff.mpr <| (h.ordered ack).sublist List.filter_sublist,
    List.filter_filter]
  refine List.filter_congr fun p _ => ?_
  simp only [← decide_not, Nat.not_le, ← Bool.decide_and, decide_eq_decide]
  omega

theorem start [Field K] [LinearOrder K] {size h smoothing easing apply lerp} {ctx : κ} :
    Tracks (apply · · ctx) initial
      (.start (.new initial size h smoothing easing apply lerp ctx : PredictedPlayer σ ι κ K)) where
  active        := rfl
  fixed         := rfl
  numbered      := rfl
  next          := rfl
  acked         := Nat.le_refl _
  buffered      := rfl
  authoritative := rfl
  logical       := rfl

theorem input (h : Tracks rule initial s) {op : ι} (hr : s.unacked.length < s.player.inputs.maxSize) :
    Tracks rule initial
      { player := (s.player.input op).fst, sent := s.sent ++ [((s.player.input op).snd, op)] } := by
  have hl : s.player.inputs.inputs.length < s.player.inputs.maxSize := by
    rwa [← h.buffered, ClientInputBuffer.pairs, List.length_map] at hr
  rw [PredictedPlayer.input_eq_of_active h.active]
  have hn : s.player.ackedSeq < s.player.nextSeq + 1 := by
    have := h.acked
    have := h.next
    omega
  have hu := List.filter_append (p := (s.player.ackedSeq < ·.fst)) s.sent [(s.player.nextSeq + 1, op)]
  have ha := List.filter_append (p := (·.fst ≤ s.player.ackedSeq)) s.sent [(s.player.nextSeq + 1, op)]
  rw [List.filter_singleton, decide_eq_true hn, cond_true] at hu
  rw [List.filter_singleton, decide_eq_false (Nat.not_le.mpr hn), cond_false, List.append_nil] at ha
  constructor
  case active        => exact h.active
  case fixed         => exact h.fixed
  case numbered      => simp [h.numbered, h.next, List.range'_concat, Nat.add_comm]
  case next          => simp [h.next]
  case acked         => exact h.acked.trans (by simp)
  case buffered      => exact (ClientInputBuffer.pairs_recorded hl).trans <| h.buffered ▸ hu.symm
  case authoritative => exact h.authoritative.trans <| congrArg (fun l => (l.map (·.snd)).foldl rule initial) ha.symm
  case logical       =>
    rw [List.map_append, List.foldl_append, ← h.logical, ← h.fixed]
    rfl

variable [Field K] [LinearOrder K]

theorem reconcile (h : Tracks rule initial s) {ack : Nat} (ha : s.player.ackedSeq ≤ ack)
    (hs : ack ≤ s.sent.length) :
    Tracks rule initial
      { s with player := (s.player.reconcile (s.server rule initial ack) ack).fst } := by
  have hb := ClientInputBuffer.pairs_acknowledged.trans (h.buffered ▸ h.pruned ha)
  rw [PredictedPlayer.reconcile_eq_of_active h.active]
  constructor
  case active        => exact h.active
  case fixed         => exact h.fixed
  case numbered      => exact h.numbered
  case next          => exact h.next
  case acked         => exact hs
  case buffered      => exact hb
  case authoritative => rfl
  case logical       =>
    have := h.replayed ack
    rw [← hb, ← ClientInputBuffer.foldl_pairs] at this
    cases h.fixed
    exact this

theorem step (h : Tracks rule initial s) (he : (machine rule initial).step s e = some s') :
    Tracks rule initial s' := by
  cases e <;> simp only [machine, Option.ite_none_right_eq_some, Option.some.injEq] at he
  case input     => exact he.right ▸ h.input he.left
  case reconcile => exact he.right ▸ h.reconcile he.left.left he.left.right
  case advance   =>
    exact he ▸ {
      active        := h.active
      fixed         := h.fixed
      numbered      := h.numbered
      next          := h.next
      acked         := h.acked
      buffered      := h.buffered
      authoritative := h.authoritative
      logical       := h.logical }

end Tracks

-- The prediction is what replaying the inputs above the last ack over the last state of the server makes,
-- and by that what the server will make of all inputs.
theorem predicts [Field K] [LinearOrder K] (apply : σ → ι → κ → σ) (ctx : κ)
    {size hsize smoothing easing lerp} {es : List (Event ι K)}
    (h : (machine (apply · · ctx) initial).Steps
      (.start <| .new initial size hsize smoothing easing apply lerp ctx) es s) :
    s.player.logical = (s.unacked.map (·.snd)).foldl (apply · · ctx) s.player.authoritative ∧
    s.player.logical = (s.sent.map (·.snd)).foldl (apply · · ctx) initial := by
  have hi : Tracks (apply · · ctx) initial s := h.preserves (fun h he => h.step he) .start
  refine ⟨?_, hi.logical⟩
  rw [hi.logical, hi.authoritative, ← hi.replayed s.player.ackedSeq]
  rfl

theorem predicts_twice : ∃ s : Play Nat Nat Nat ℚ, s.player.logical = 122 ∧ s.player.ackedSeq = 1 ∧
    s.player.logical = (s.unacked.map (·.snd)).foldl (· + · * 2) s.player.authoritative ∧
    s.player.logical = (s.sent.map (·.snd)).foldl (· + · * 2) 100 := by
  have h : ∃ s : Play Nat Nat Nat ℚ, (machine (· + · * 2) 100).Steps
      (.start <| .new 100 2 (by decide) 1 id (· + · * ·) (fun _ t _ => t) 2)
      [.input 3, .input 5, .reconcile 1, .input 3] s ∧ s.player.logical = 122 ∧ s.player.ackedSeq = 1 :=
    ⟨_, .step rfl <| .step rfl <| .step rfl <| .step rfl .refl, rfl, rfl⟩
  have ⟨s, h, hl, ha⟩ := h
  exact ⟨s, hl, ha, predicts (· + · * ·) 2 h⟩

end Plaza.Protocols.Prediction
