import Plaza.ServerUtils.Delta
import Plaza.ClientUtils.Theorems.Ack

open Plaza.ClientUtils

namespace Plaza.ServerUtils.DeltaBaseline

variable {b b₁ b₂ b₃ : DeltaBaseline} {current : Finset Key} {seq newest : Nat} {mask : BitVec 64}
  {digest : UInt64} {window : AckWindow} {full rec : Bool} {e : Nat × Finset Key}

section Simp

@[simp]
theorem recountUnacked_sent : b.recountUnacked.sent = b.sent :=
  rfl

@[simp]
theorem recountUnacked_acked : b.recountUnacked.acked = b.acked :=
  rfl

@[simp]
theorem recountUnacked_history : b.recountUnacked.history = b.history :=
  rfl

@[simp]
theorem recountUnacked_policy : b.recountUnacked.policy = b.policy :=
  rfl

@[simp]
theorem recountUnacked_needsFull : b.recountUnacked.needsFull = b.needsFull :=
  rfl

@[simp]
theorem recountUnacked_lastAckWindow : b.recountUnacked.lastAckWindow = b.lastAckWindow :=
  rfl

end Simp

-- The difference only ever updates what the subscriber is assumed to hold.
theorem diff_fst_eq :
    (b.diff current full rec).fst = { b with assumedHeld := (b.diff current full rec).fst.assumedHeld } := by
  unfold diff
  split <;> [rfl; (split <;> rfl)]

theorem plan_fst_eq (b : DeltaBaseline) (current : Finset Key) (seq : Nat) :
    ∃ assumedHeld, (b.plan current seq).fst =
      remember
        { (if b.mustRebuild then startEpoch { b with needsFull := false }
           else { b with needsFull := false }) with assumedHeld } current seq :=
  ⟨_, congrArg (remember · current seq) diff_fst_eq⟩

theorem plan_sent :
    (b.plan current seq).fst.sent =
      let sent := (if b.mustRebuild then [] else b.sent) ++ [(seq, current)]
      sent.drop (sent.length - b.history) := by
  have ⟨_, h⟩ := plan_fst_eq b current seq
  rw [h]
  split <;> simp [remember, startEpoch]

theorem plan_acked :
    (b.plan current seq).fst.acked = if b.mustRebuild then none else b.acked := by
  have ⟨_, h⟩ := plan_fst_eq b current seq
  rw [h]
  split <;> simp [remember, startEpoch]

theorem plan_history : (b.plan current seq).fst.history = b.history := by
  have ⟨_, h⟩ := plan_fst_eq b current seq
  rw [h]
  split <;> simp [remember, startEpoch]

theorem plan_policy : (b.plan current seq).fst.policy = b.policy := by
  have ⟨_, h⟩ := plan_fst_eq b current seq
  rw [h]
  split <;> simp [remember, startEpoch]

theorem plan_needsFull : (b.plan current seq).fst.needsFull = false := by
  have ⟨_, h⟩ := plan_fst_eq b current seq
  rw [h]
  split <;> simp [remember, startEpoch]

theorem plan_lastAckWindow : (b.plan current seq).fst.lastAckWindow = b.lastAckWindow := by
  have ⟨_, h⟩ := plan_fst_eq b current seq
  rw [h]
  split <;> simp [remember, startEpoch]

theorem plan_flow : (b.plan current seq).fst.flow = b.flow := by
  have ⟨_, h⟩ := plan_fst_eq b current seq
  rw [h]
  split <;> rfl

theorem plan_unacked :
    (b.plan current seq).fst.unacked = (b.plan current seq).fst.recountUnacked.unacked :=
  rfl

theorem mustRebuild_iff (hp : b.policy = .ackRecovery) :
    b.mustRebuild ↔ b.needsFull ∨ b.baselineIsStale := by
  simp [mustRebuild, recovering, hp]

theorem diff_fullBaseline : (b.diff current full rec).snd.fullBaseline = full := by
  unfold diff
  split <;> [rfl; (split <;> simp_all)]

theorem plan_fullBaseline_eq :
    (b.plan current seq).snd.fullBaseline = (b.mustRebuild || b.recovering && b.acked.isNone) :=
  diff_fullBaseline

theorem plan_fullBaseline (hp : b.policy = .ackRecovery) :
    (b.plan current seq).snd.fullBaseline ↔ b.mustRebuild ∨ b.acked = none := by
  simp [plan_fullBaseline_eq, recovering, hp]

-- The naive policy rebuilds only what it owes.
theorem plan_fullBaseline_naive (hp : b.policy ≠ .ackRecovery) :
    (b.plan current seq).snd.fullBaseline = b.needsFull := by
  simp [plan_fullBaseline_eq, mustRebuild, recovering, hp]

theorem plan_fullBaseline_of_needsFull (hn : b.needsFull) :
    (b.plan current seq).snd.fullBaseline := by
  simp [plan_fullBaseline_eq, mustRebuild, hn]

-- A full baseline is a difference from nothing.
theorem plan_of_fullBaseline (hf : (b.plan current seq).snd.fullBaseline) :
    (b.plan current seq).snd.toDelta = Delta.full current := by
  rw [plan_fullBaseline_eq] at hf
  unfold plan
  cases hr : b.mustRebuild <;> cases hp : b.recovering <;> cases ha : b.acked <;>
    simp_all [diff, startEpoch, Delta.full, Delta.between]

-- Otherwise the difference is measured against the acknowledged state, within the bounds which the
-- packets sent since then give for the subscriber.
theorem plan_of_not_fullBaseline (hp : b.policy = .ackRecovery)
    (hf : ¬(b.plan current seq).snd.fullBaseline) :
    ∃ ackedSeq acked, b.acked = some (ackedSeq, acked) ∧ ¬b.mustRebuild ∧
      (b.plan current seq).snd.toDelta =
        Delta.between (History.floor ackedSeq acked b.sent) (History.ceil ackedSeq acked b.sent)
          current := by
  rw [plan_fullBaseline hp, not_or] at hf
  have ⟨⟨ackedSeq, acked⟩, ha⟩ := Option.ne_none_iff_exists'.mp hf.right
  refine ⟨ackedSeq, acked, ha, hf.left, ?_⟩
  simp [plan, hf.left, recovering, diff, hp, ha]

section Acks

variable (hp : b.policy = .ackRecovery)

theorem observeAck_naive (hp : b.policy ≠ .ackRecovery) : b.observeAck newest mask digest = b := by
  simp [observeAck, hp]

theorem observeAck_sent : (b.observeAck newest mask digest).sent = b.sent := by
  unfold observeAck; split <;> rfl

theorem observeAck_history : (b.observeAck newest mask digest).history = b.history := by
  unfold observeAck; split <;> rfl

theorem observeAck_policy : (b.observeAck newest mask digest).policy = b.policy := by
  unfold observeAck; split <;> rfl

theorem observeAck_flow : (b.observeAck newest mask digest).flow = b.flow := by
  unfold observeAck; split <;> rfl

include hp

theorem observeAck_acked :
    (b.observeAck newest mask digest).acked =
      (b.reached (.fromEncoded newest mask)).or b.acked := by
  simp [observeAck, hp]

theorem observeAck_needsFull :
    (b.observeAck newest mask digest).needsFull =
      (b.needsFull || (b.observeAck newest mask digest).drifted newest digest) := by
  simp [observeAck, hp, drifted]

theorem observeAck_lastAckWindow :
    (b.observeAck newest mask digest).lastAckWindow = some (newest, mask) := by
  simp [observeAck, hp]

end Acks

theorem observeAck_unacked (hp : b.policy = .ackRecovery) :
    (b.observeAck newest mask digest).unacked =
      b.sent.countP fun e => !(AckWindow.fromEncoded newest mask).contains e.fst := by
  simp [observeAck, hp, recountUnacked]

theorem reached_eq_some (h : b.reached window = some e) :
    e ∈ b.sent ∧ ∃ first, b.firstUnsettled = some first ∧ window.contiguousBase first = some e.fst := by
  simp only [reached, Option.bind_eq_bind, Option.bind_eq_some_iff] at h
  have ⟨first, hf, base, hb, he⟩ := h
  have hs := List.find?_some he
  simp only [decide_eq_true_eq] at hs
  exact ⟨List.mem_of_find?_eq_some he, first, hf, hs ▸ hb⟩

theorem reached_le_newest (h : b.reached window = some e) : e.fst ≤ window.newest :=
  have ⟨_, _, _, hb⟩ := reached_eq_some h
  AckWindow.contiguousBase_le_newest hb

theorem reached_gt_acked (h : b.reached window = some e) (ha : b.ackedSeq = some seq) :
    seq < e.fst := by
  have ⟨_, first, hf, hb⟩ := reached_eq_some h
  simp only [firstUnsettled, ha, Option.some.injEq] at hf
  subst hf
  exact AckWindow.le_contiguousBase hb

-- The acknowledged sequence, once there is one, never moves backward nor gets lost.
def Advances (b₁ b₂ : DeltaBaseline) : Prop :=
  ∀ seq ∈ b₁.ackedSeq, ∃ seq' ∈ b₂.ackedSeq, seq ≤ seq'

theorem Advances.of_acked_eq (h : b₂.acked = b₁.acked) : Advances b₁ b₂ :=
  fun seq hs => ⟨seq, by rwa [ackedSeq, h], le_rfl⟩

theorem Advances.trans (h₁ : Advances b₁ b₂) (h₂ : Advances b₂ b₃) : Advances b₁ b₃ := by
  intro seq hs
  have ⟨_, hs, hl⟩ := h₁ seq hs
  have ⟨_, hs, hl'⟩ := h₂ _ hs
  exact ⟨_, hs, hl.trans hl'⟩

theorem observeAck_advances : Advances b (b.observeAck newest mask digest) := by
  by_cases hp : b.policy = .ackRecovery
  case neg => exact .of_acked_eq <| by rw [observeAck_naive hp]
  case pos =>
    cases hr : b.reached (.fromEncoded newest mask)
    case none   => exact .of_acked_eq <| by rw [observeAck_acked hp, hr, Option.none_or]
    case some e =>
      intro seq hs
      refine ⟨e.fst, ?_, Nat.le_of_lt <| reached_gt_acked hr hs⟩
      simp [ackedSeq, observeAck_acked hp, hr]

section Flow

variable {flow : FlowControl} {now : Nat}

theorem stalled_iff (hf : b.flow = some flow) :
    b.stalled now ↔ ∃ t ∈ flow.lastAck, t + flow.stalledAfter < now := by
  simp only [stalled, hf]
  cases flow.lastAck
  case none   => simp
  case some t =>
    simp only [decide_eq_true_eq, Option.mem_def, Option.some.injEq, exists_eq_left']
    omega

-- A round changes nothing but the clocks of the flow control.
theorem shouldSend_fst_eq (b : DeltaBaseline) (now : Nat) :
    ∃ flow, (b.shouldSend now).fst = { b with flow } := by
  unfold shouldSend
  split
  case h_1     => exact ⟨b.flow, rfl⟩
  case h_2 hf =>
    split <;> [exact ⟨_, rfl⟩; skip]
    split <;> [exact ⟨b.flow, rfl⟩; skip]
    split <;> [exact ⟨_, rfl⟩; exact ⟨b.flow, rfl⟩]

theorem shouldSend_snd (hf : b.flow = some flow) :
    (b.shouldSend now).snd = (!b.stalled now || decide (flow.keepaliveEvery ≤ now - flow.lastKeepalive)) := by
  simp only [shouldSend, hf]
  cases ha : flow.lastAck
  case none   => simp [stalled, hf, ha]
  case some t =>
    cases hs : b.stalled now <;> simp
    split <;> simp_all

theorem shouldSend_flow (hf : b.flow = some flow) :
    (b.shouldSend now).fst.flow = some { flow with
      lastAck       := some (flow.lastAck.getD now)
      lastKeepalive := if b.stalled now ∧ (b.shouldSend now).snd then now else flow.lastKeepalive } := by
  rw [shouldSend_snd hf]
  obtain ⟨_, every, lastAck, keepalive⟩ := flow
  simp only [shouldSend, hf]
  cases lastAck
  case none   => simp [stalled, hf]
  case some t =>
    cases hs : b.stalled now
    case false => simp [hf]
    case true  => by_cases hk : every ≤ now - keepalive <;> simp [hk, hf]

-- Whether the acknowledgement resumes the stream or not, it is the latest sign of life.
theorem observeAckAt_flow (hf : b.flow = some flow) :
    (b.observeAckAt newest mask digest now).flow = some { flow with
      lastAck       := some now
      lastKeepalive := if b.stalled now then 0 else flow.lastKeepalive } := by
  simp only [observeAckAt, hf, Option.map_some]
  split
  case isTrue  => simp [reset]
  case isFalse => exact observeAck_flow

theorem observeAckAt_of_stalled (hs : b.stalled now) (newest : Nat) (mask : BitVec 64) (digest : UInt64) :
    ∃ flow, b.observeAckAt newest mask digest now = { b.reset with flow } := by
  simp only [observeAckAt, hs, ↓reduceIte]
  exact ⟨_, rfl⟩

theorem observeAckAt_of_not_stalled (hs : ¬b.stalled now) (newest : Nat) (mask : BitVec 64) (digest : UInt64) :
    ∃ flow, b.observeAckAt newest mask digest now = { b with flow }.observeAck newest mask digest := by
  simp only [observeAckAt, hs]
  exact ⟨_, rfl⟩

end Flow
end Plaza.ServerUtils.DeltaBaseline
