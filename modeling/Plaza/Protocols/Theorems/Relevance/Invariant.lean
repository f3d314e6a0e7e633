import Plaza.Protocols.Relevance
import Plaza.ServerUtils.Theorems.Delta

open Plaza.ClientUtils Plaza.ServerUtils DeltaBaseline

namespace Plaza.Protocols.Relevance

variable {truth : Nat → Finset Key} {s s' : State} {e : Event} {p : Packet} {seq : Nat}

-- What the server remembers of its plans: the states of an unbroken run of packets up to the last
-- one, and the state of an acknowledged packet. As long as the history is not full nothing was
-- evicted since the epoch began, so the acknowledged packet is among them.
structure Remembers (truth : Nat → Finset Key) (next : Nat) (b : DeltaBaseline) : Prop where
  seqs    : b.sent.map (·.fst) = List.range' (next - b.sent.length) b.sent.length
  bound   : b.sent.length ≤ next
  states  : ∀ e ∈ b.sent, e.snd = truth e.fst
  acked   : ∀ e, b.acked = some e → e.fst < next ∧ e.snd = truth e.fst
  window  : ∀ e, b.acked = some e → b.sent.length < b.history → next - b.sent.length ≤ e.fst

namespace Remembers

variable {b : DeltaBaseline} {next newest : Nat} {mask : BitVec 64} {digest : UInt64}
  {current : Finset Key} {e : Nat × Finset Key}

theorem mem_iff (h : Remembers truth next b) :
    (seq, truth seq) ∈ b.sent ↔ next - b.sent.length ≤ seq ∧ seq < next := by
  have hm : seq ∈ b.sent.map (·.fst) ↔ next - b.sent.length ≤ seq ∧ seq < next := by
    have := h.bound
    rw [h.seqs, List.mem_range'_1]
    omega
  rw [←hm]
  constructor <;> intro hs
  case mp  => exact List.mem_map_of_mem hs
  case mpr =>
    have ⟨e, he, hq⟩ := List.mem_map.mp hs
    have := h.states e he
    rwa [←hq, ←this]

theorem oldest_eq (h : Remembers truth next b) (hs : b.sent ≠ []) :
    b.oldest = some (next - b.sent.length) := by
  have hl := List.length_pos_iff.mpr hs
  have : b.oldest = (b.sent.map (·.fst)).head? := by simp [oldest]
  rw [this, h.seqs, List.head?_range', if_neg (by omega)]

-- A baseline that is neither unknown nor stale is a packet from which every later one is retained.
theorem retained (h : Remembers truth next b) {a : Nat × Finset Key} (ha : b.acked = some a)
    (hs : ¬b.baselineIsStale) : next - b.sent.length ≤ a.fst := by
  by_cases hl : b.sent.length < b.history
  case pos => exact h.window a ha hl
  case neg =>
    have hn : b.sent ≠ [] := by
      have := b.history_pos
      exact List.length_pos_iff.mp (by omega)
    simp only [baselineIsStale, ackedSeq, ha, Option.map_some, h.oldest_eq hn, Option.any_some,
      Bool.and_eq_true, decide_eq_true_eq, not_and] at hs
    have := hs (by omega)
    omega

theorem fst_lt_of_mem (h : Remembers truth next b) (he : e ∈ b.sent) : e.fst < next :=
  have he := h.states e he ▸ he
  (h.mem_iff.mp he).right

theorem congr {truth' : Nat → Finset Key} (h : Remembers truth next b)
    (ht : ∀ seq < next, truth' seq = truth seq) : Remembers truth' next b where
  seqs       := h.seqs
  bound      := h.bound
  states e m := ht _ (h.fst_lt_of_mem m) ▸ h.states e m
  acked e m  := ⟨(h.acked e m).left, ht _ (h.acked e m).left ▸ (h.acked e m).right⟩
  window     := h.window

theorem start (history : Nat) : Remembers truth next (.new history) where
  seqs       := rfl
  bound      := Nat.zero_le _
  states _ h := nomatch h
  acked _ h  := nomatch h
  window _ h := nomatch h

theorem reset : Remembers truth next b.reset where
  seqs       := rfl
  bound      := Nat.zero_le _
  states _ h := nomatch h
  acked _ h  := nomatch h
  window _ h := nomatch h

theorem request (h : Remembers truth next b) : Remembers truth next b.requestFullBaseline :=
  { h with }

theorem setFlow (h : Remembers truth next b) (flow : Option FlowControl) :
    Remembers truth next { b with flow } :=
  { h with }

theorem setPolicy (h : Remembers truth next b) (policy : RecoveryPolicy) :
    Remembers truth next (b.setPolicy policy) := by
  unfold DeltaBaseline.setPolicy
  split <;> [exact reset; exact h]

theorem observeAck (h : Remembers truth next b) :
    Remembers truth next (b.observeAck newest mask digest) := by
  have hr {e} (he : (b.observeAck newest mask digest).acked = some e) :
      e ∈ b.sent ∨ b.acked = some e := by
    by_cases hp : b.policy = .ackRecovery
    case neg => exact .inr <| observeAck_naive hp ▸ he
    case pos =>
      rw [observeAck_acked hp, Option.or_eq_some_iff] at he
      exact he.imp (reached_eq_some · |>.left) (·.right)
  constructor
  case seqs   => rw [observeAck_sent, h.seqs]
  case bound  => rw [observeAck_sent]; exact h.bound
  case states => rw [observeAck_sent]; exact h.states
  case acked  =>
    intro e he
    cases hr he
    case inl hm => exact ⟨h.fst_lt_of_mem hm, h.states e hm⟩
    case inr ha => exact h.acked e ha
  case window =>
    intro e he hl
    rw [observeAck_sent] at hl ⊢
    cases hr he
    case inl hm => exact h.mem_iff.mp (h.states e hm ▸ hm) |>.left
    case inr ha => exact h.window e ha (observeAck_history ▸ hl)

-- The states which `plan` keeps when it files the next packet.
theorem plan_seqs (h : Remembers truth next b) (current : Finset Key) :
    ∃ kept, kept ≤ b.sent.length ∧
      (b.plan current next).fst.sent.length = kept + 1 ∧
      (b.plan current next).fst.sent.map (·.fst) = List.range' (next - kept) (kept + 1) ∧
      (¬b.mustRebuild → kept + 1 < b.history → kept = b.sent.length) := by
  have hp := b.history_pos
  have hb := h.bound
  rw [plan_sent]
  cases b.mustRebuild
  case true =>
    refine ⟨0, Nat.zero_le _, ?_⟩
    simp [Nat.sub_eq_zero_of_le hp]
  case false =>
    refine ⟨min b.sent.length (b.history - 1), Nat.min_le_left .., ?_, ?_, ?_⟩
    · simp; omega
    · have : next = next - b.sent.length + b.sent.length := by omega
      simp only [Bool.false_eq_true, ↓reduceIte, List.map_drop, List.map_append, h.seqs, List.map_cons,
        List.map_nil, List.length_append, List.length_singleton]
      conv_lhs => arg 2; arg 2; rw [this]
      rw [←List.range'_1_concat, List.drop_range']
      congr 1 <;> omega
    · omega

theorem plan (h : Remembers truth next b) (ht : truth next = current) :
    Remembers truth (next + 1) (b.plan current next).fst := by
  have ⟨kept, hk, hl, hs, hw⟩ := h.plan_seqs current
  have hb := h.bound
  constructor
  case seqs   => rw [hs, hl]; congr 1; omega
  case bound  => omega
  case states =>
    intro e he
    rw [plan_sent] at he
    have he := List.mem_of_mem_drop he
    rw [List.mem_append, List.mem_singleton] at he
    cases he
    case inl he => exact h.states e <| by split at he <;> [cases he; exact he]
    case inr he => rw [he, ht]
  case acked =>
    intro e he
    rw [plan_acked] at he
    split at he <;> [cases he; skip]
    exact ⟨Nat.lt_succ_of_lt (h.acked e he).left, (h.acked e he).right⟩
  case window =>
    intro e he hh
    rw [plan_acked] at he
    rw [plan_history, hl] at hh
    split at he
    case isTrue  => cases he
    case isFalse hr =>
      have hk := hw hr hh
      have := h.window e he (by omega)
      omega

-- The difference for a packet is right for every subscriber that holds the state of the acknowledged
-- packet, or of any later one.
theorem plan_apply (h : Remembers truth next b) (hp : b.policy = .ackRecovery)
    (hf : ¬(b.plan current next).snd.fullBaseline) :
    ∃ a, b.acked = some a ∧
      ∀ seq, a.fst ≤ seq → seq < next → (b.plan current next).snd.apply (truth seq) = current := by
  have ⟨ackedSeq, acked, ha, hr, hd⟩ := plan_of_not_fullBaseline hp hf
  refine ⟨_, ha, fun seq hl hu => ?_⟩
  rw [hd]
  have hq := (h.acked _ ha).right
  cases Nat.eq_or_lt_of_le hl
  case inl he =>
    subst he
    rw [←hq]
    exact Delta.between_apply History.floor_le_base History.base_le_ceil
  case inr hl =>
    rw [mustRebuild_iff hp, not_or] at hr
    have ho := h.retained ha hr.right
    have hm := h.mem_iff.mpr ⟨by omega, hu⟩
    exact Delta.between_apply (History.floor_le_of_mem hm hl) (History.le_ceil_of_mem hm hl)

end Remembers

-- A packet is sound for a subscriber that was last brought up to date by some packet from `since`
-- on, whichever one that was.
def Packet.Sound (truth : Nat → Finset Key) (c : Subscriber) (p : Packet) : Prop :=
  p.plan.toDelta = .full p.current ∧ p.plan.fullBaseline ∨
  ¬p.plan.fullBaseline ∧ c.acks.started ∧
    ∀ seq, c.acks.newest ≤ seq → seq < p.seq → p.plan.apply (truth seq) = p.current

theorem Subscriber.acknowledge_eq_some {c : Subscriber} {ack : Ack} (h : c.acknowledge = some ack) :
    c.acks.started ∧ ack.newest = c.acks.newest ∧ ack.digest = digestOf c.held := by
  have ⟨⟨newest, mask⟩, he, ha⟩ := Option.map_eq_some_iff.mp h
  have hc := AckWindow.encode_eq_some_iff.mp he
  subst ha
  exact ⟨hc ▸ rfl, congrArg AckWindow.newest hc, rfl⟩

structure Tracks (truth : Nat → Finset Key) (s : State) : Prop where
  policy  : s.server.policy = .ackRecovery
  server  : Remembers truth s.next s.server
  settled : ∀ a, s.server.acked = some a → s.client.acks.started ∧ a.fst ≤ s.client.acks.newest
  sorted  : s.wire.Pairwise (·.seq < ·.seq)
  unsent  : ∀ p ∈ s.wire, p.seq < s.next ∧ p.current = truth p.seq
  unread  : ∀ p ∈ s.wire, s.client.acks.started → s.client.acks.newest < p.seq
  sound   : ∀ p ∈ s.wire, p.Sound truth s.client
  held    : s.client.acks.started →
    s.client.acks.newest < s.next ∧ s.client.held = truth s.client.acks.newest
  acks    : ∀ a ∈ s.acks, s.client.acks.started ∧ a.newest ≤ s.client.acks.newest ∧
    a.digest = digestOf (truth a.newest)

namespace Tracks

theorem start (history first : Nat) : Tracks truth (.start history first) where
  policy      := rfl
  server      := .start history
  settled _ h := nomatch h
  sorted      := .nil
  unsent _ h  := nomatch h
  unread _ h  := nomatch h
  sound _ h   := nomatch h
  held h      := nomatch h
  acks _ h    := nomatch h

theorem congr {truth' : Nat → Finset Key} (h : Tracks truth s)
    (ht : ∀ seq < s.next, truth' seq = truth seq) : Tracks truth' s where
  policy       := h.policy
  server       := h.server.congr ht
  settled      := h.settled
  sorted       := h.sorted
  unsent p hp  := ⟨(h.unsent p hp).left, ht _ (h.unsent p hp).left ▸ (h.unsent p hp).right⟩
  unread       := h.unread
  held hs      := ⟨(h.held hs).left, ht _ (h.held hs).left ▸ (h.held hs).right⟩
  sound p hp   := (h.sound p hp).imp_right fun ⟨hf, hs, ha⟩ =>
    ⟨hf, hs, fun seq hl hu => ht seq (Nat.lt_trans hu (h.unsent p hp).left) ▸ ha seq hl hu⟩
  acks a ha    :=
    have ⟨hs, hl, hd⟩ := h.acks a ha
    ⟨hs, hl, ht _ (Nat.lt_of_le_of_lt hl (h.held hs).left) ▸ hd⟩

theorem plan (h : Tracks truth s) (current : Finset Key) (ht : truth s.next = current) :
    Tracks truth (s.plan current) := by
  constructor
  case policy  => exact plan_policy.trans h.policy
  case server  => exact h.server.plan ht
  case settled =>
    intro a ha
    simp only [State.plan, plan_acked] at ha
    split at ha <;> [cases ha; exact h.settled a ha]
  case sorted =>
    simp only [State.plan, List.pairwise_append, List.mem_singleton]
    refine ⟨h.sorted, List.pairwise_singleton .., fun p hp q hq => ?_⟩
    exact hq ▸ (h.unsent p hp).left
  case held => exact fun hs => ⟨Nat.lt_succ_of_lt (h.held hs).left, (h.held hs).right⟩
  case acks => exact h.acks
  all_goals
    intro p hp
    simp only [State.plan, List.mem_append, List.mem_singleton] at hp
    cases hp
  case unsent.inl hp => exact ⟨Nat.lt_succ_of_lt (h.unsent p hp).left, (h.unsent p hp).right⟩
  case unsent.inr hp => exact hp ▸ ⟨Nat.lt_succ_self _, ht.symm⟩
  case unread.inl hp => exact h.unread p hp
  case unread.inr hp => exact hp ▸ fun hs => (h.held hs).left
  case sound.inl hp  => exact h.sound p hp
  case sound.inr hp  =>
    subst hp
    by_cases hf : (s.server.plan current s.next).snd.fullBaseline
    case pos => exact .inl ⟨plan_of_fullBaseline hf, hf⟩
    case neg =>
      have ⟨a, ha, hd⟩ := h.server.plan_apply h.policy hf
      have ⟨hs, hl⟩ := h.settled a ha
      exact .inr ⟨hf, hs, fun seq hn hu => hd seq (hl.trans hn) hu⟩

theorem lose (h : Tracks truth s) {wire : List Packet} (hw : wire.Sublist s.wire) :
    Tracks truth { s with wire } :=
  { h with
    sorted      := h.sorted.sublist hw
    unsent p hp := h.unsent p (hw.mem hp)
    unread p hp := h.unread p (hw.mem hp)
    sound p hp  := h.sound p (hw.mem hp) }

-- What the subscriber holds after it applies the next packet on the wire.
theorem apply_held {wire : List Packet} (h : Tracks truth s) (hw : s.wire = p :: wire) :
    (s.client.apply p).held = p.current := by
  have hp : p ∈ s.wire := hw ▸ List.mem_cons_self ..
  cases h.sound p hp
  case inl hs =>
    have ⟨hd, hf⟩ := hs
    simp only [Subscriber.apply, hf, ↓reduceIte, hd]
    exact Delta.full_apply_bot
  case inr hs =>
    have ⟨hf, hs, hd⟩ := hs
    simp only [Subscriber.apply, hf, Bool.false_eq_true, ↓reduceIte, (h.held hs).right]
    exact hd _ le_rfl (h.unread p hp hs)

theorem deliver {wire : List Packet} (h : Tracks truth s) (hw : s.wire = p :: wire) :
    Tracks truth { s with wire, client := s.client.apply p } := by
  have hp : p ∈ s.wire := hw ▸ List.mem_cons_self ..
  have hn : (s.client.apply p).acks.newest = p.seq := AckWindow.observe_newest <| h.unread p hp
  have hs : (s.client.apply p).acks.started := AckWindow.observe_started ..
  -- The subscriber's newest packet only ever grows.
  have hl (hc : s.client.acks.started) : s.client.acks.newest ≤ (s.client.apply p).acks.newest :=
    hn ▸ Nat.le_of_lt (h.unread p hp hc)
  have hm {q} (hq : q ∈ wire) : q ∈ s.wire := hw ▸ List.mem_cons_of_mem _ hq
  have hd := List.pairwise_cons.mp (hw ▸ h.sorted)
  constructor
  case policy       => exact h.policy
  case server       => exact h.server
  case settled      => exact fun a ha => ⟨hs, (h.settled a ha).right.trans <| hl (h.settled a ha).left⟩
  case sorted       => exact hd.right
  case unsent       => exact fun q hq => h.unsent q (hm hq)
  case unread       => exact fun q hq _ => hn ▸ hd.left q hq
  case held         =>
    have ⟨hu, hc⟩ := h.unsent p hp
    exact fun _ => ⟨hn ▸ hu, hn ▸ hc ▸ h.apply_held hw⟩
  case acks         =>
    intro a ha
    have ⟨hc, hb, hd⟩ := h.acks a ha
    exact ⟨hs, hb.trans <| hl hc, hd⟩
  case sound        =>
    intro q hq
    apply (h.sound q (hm hq)).imp_right
    intro ⟨hf, hc, ha⟩
    exact ⟨hf, hs, fun seq hn hu => ha seq ((hl hc).trans hn) hu⟩

theorem acknowledge {ack : Ack} (h : Tracks truth s) (ha : s.client.acknowledge = some ack) :
    Tracks truth { s with acks := s.acks ++ [ack] } := by
  refine { h with acks := fun a hm => ?_ }
  rw [List.mem_append, List.mem_singleton] at hm
  cases hm
  case inl hm => exact h.acks a hm
  case inr hm =>
    have ⟨hs, hn, hd⟩ := Subscriber.acknowledge_eq_some ha
    subst hm
    exact ⟨hs, hn.le, by rw [hd, hn, (h.held hs).right]⟩

theorem newest_lt {ack : Ack} (h : Tracks truth s) (ha : ack ∈ s.acks) : ack.newest < s.next := by
  have ⟨hs, hl, _⟩ := h.acks ack ha
  exact Nat.lt_of_le_of_lt hl (h.held hs).left

theorem observe {ack : Ack} (h : Tracks truth s) (ha : ack ∈ s.acks) :
    Tracks truth (s.observe ack) := by
  refine { h with policy := ?_, server := h.server.observeAck, settled := fun a he => ?_ }
  case refine_1 => exact observeAck_policy.trans h.policy
  simp only [State.observe, observeAck_acked h.policy, Option.or_eq_some_iff] at he
  cases he
  case inl hr =>
    have ⟨hs, hl, _⟩ := h.acks ack ha
    exact ⟨hs, Nat.le_trans (reached_le_newest hr) hl⟩
  case inr ha => exact h.settled a ha.right

theorem reset (h : Tracks truth s) : Tracks truth { s with server := s.server.reset } :=
  { h with server := .reset, settled := nofun }

theorem request (h : Tracks truth s) :
    Tracks truth { s with server := s.server.requestFullBaseline } :=
  { h with server := h.server.request }

theorem setFlow (h : Tracks truth s) (flow : Option FlowControl) :
    Tracks truth { s with server := { s.server with flow } } :=
  { h with server := h.server.setFlow flow }

end Tracks

-- Whatever happened so far, there is an assignment of sets to sequence numbers which the server, the
-- subscriber and everything in flight between them agree on.
theorem step_tracks (h : ∃ truth, Tracks truth s) (hs : faithful.step s e = some s') :
    ∃ truth, Tracks truth s' := by
  have ⟨truth, h⟩ := h
  rw [faithful, Machine.restrict_step_iff] at hs
  obtain ⟨hf, hs⟩ := hs
  cases e <;> simp only [machine, Option.some.injEq] at hs
  case plan current =>
    have ht : ∀ seq < s.next, Function.update truth s.next current seq = truth seq :=
      fun _ hl => Function.update_of_ne (Nat.ne_of_lt hl) ..
    exact ⟨_, hs ▸ (h.congr ht).plan current (Function.update_self ..)⟩
  case lose =>
    split at hs <;> cases hs
    exact ⟨truth, h.lose (List.eraseIdx_sublist ..)⟩
  case deliver =>
    split at hs <;> cases hs
    exact ⟨truth, h.deliver ‹_›⟩
  case acknowledge =>
    have ⟨_, ha, hs⟩ := Option.map_eq_some_iff.mp hs
    exact ⟨truth, hs ▸ h.acknowledge ha⟩
  case observe =>
    have ⟨_, ha, hs⟩ := Option.map_eq_some_iff.mp hs
    exact ⟨truth, hs ▸ h.observe (List.mem_of_getElem? ha)⟩
  case request => exact ⟨truth, hs ▸ h.request⟩
  case reset   => exact ⟨truth, hs ▸ h.reset⟩
  case resync | setPolicy => cases hf

theorem steps_tracks {history first : Nat} {es : List Event}
    (h : faithful.Steps (.start history first) es s) : ∃ truth, Tracks truth s :=
  h.preserves (I := fun s => ∃ truth, Tracks truth s) step_tracks ⟨fun _ => ∅, .start history first⟩

end Plaza.Protocols.Relevance

open Plaza.ClientUtils Plaza.ServerUtils DeltaBaseline

namespace Plaza.Protocols.Relevance

variable {s s' : State} {e : Event} {es : List Event} {p : Packet} {wire : List Packet}
  {history first : Nat}

-- The subscriber and the server agree: applying a packet leaves the subscriber with the set which
-- the packet was planned for.
theorem deliver_held (h : faithful.Steps (.start history first) es s) (hw : s.wire = p :: wire)
    (hs : faithful.step s .deliver = some s') : s'.client.held = p.current := by
  have ⟨_, h⟩ := steps_tracks h
  have hs := (Machine.restrict_step_iff.mp hs).right
  simp only [machine, hw, Option.some.injEq] at hs
  exact hs ▸ h.apply_held hw

theorem deliver_held_lossy :
    ∃ s s' p wire,
      faithful.Steps (.start 2 7)
        [.plan {1}, .deliver, .acknowledge, .observe 0, .plan {1, 2}, .plan {2}, .lose 0] s ∧
      s.wire = p :: wire ∧ faithful.step s .deliver = some s' ∧ s'.client.held = {2} :=
  have h := .step rfl <| .step rfl <| .step rfl <| .step rfl <| .step rfl <| .step rfl <|
    .step rfl .refl
  ⟨_, _, _, _, h, rfl, rfl, deliver_held h rfl rfl⟩

-- An epoch ends when the server is reset, or when it plans a rebuild.
def Event.opensEpoch (s : State) : Event → Bool
  | .reset | .setPolicy _ => true
  | .plan _               => s.server.mustRebuild
  | _                     => false

-- The faithful executions that stay within one epoch.
def epoch : Machine State Event :=
  faithful.restrict fun s e => e.opensEpoch s = false

theorem Tracks.not_drifted {truth : Nat → Finset Key} {ack : Ack} (h : Tracks truth s)
    (ha : ack ∈ s.acks) : (s.observe ack).server.drifted ack.newest ack.digest = false := by
  unfold drifted
  split
  case h_2 => rfl
  case h_1 ackedSeq acked hs =>
    have ⟨_, _, hd⟩ := h.acks ack ha
    have hq := (h.observe ha).server.acked _ hs |>.right
    simp only [Bool.and_eq_false_imp, decide_eq_true_eq]
    intro he
    simp [hd, ←he, ←hq]

theorem Tracks.observe_needsFull {truth : Nat → Finset Key} {ack : Ack} (h : Tracks truth s)
    (ha : ack ∈ s.acks) : (s.observe ack).server.needsFull = s.server.needsFull := by
  have hd := h.not_drifted ha
  simp only [State.observe] at hd ⊢
  rw [observeAck_needsFull h.policy, hd, Bool.or_false]

theorem step_advances (he : e.opensEpoch s = false) (hs : machine.step s e = some s') :
    s.server.Advances s'.server := by
  cases e <;> simp only [machine, Option.some.injEq] at hs
  case plan =>
    have he : s.server.mustRebuild = false := he
    exact .of_acked_eq <| by simp [←hs, State.plan, plan_acked, he]
  case lose =>
    split at hs <;> cases hs
    exact .of_acked_eq rfl
  case deliver =>
    split at hs <;> cases hs
    exact .of_acked_eq rfl
  case acknowledge =>
    obtain ⟨_, _, hs⟩ := Option.map_eq_some_iff.mp hs
    exact .of_acked_eq <| hs ▸ rfl
  case observe =>
    obtain ⟨_, _, hs⟩ := Option.map_eq_some_iff.mp hs
    exact hs ▸ observeAck_advances
  case reset | setPolicy => cases he
  all_goals exact .of_acked_eq <| hs ▸ rfl

theorem epoch_advances (h : epoch.Steps s es s') : s.server.Advances s'.server := by
  apply h.relates (fun _ => .of_acked_eq rfl) .trans
  intro s e s' hs
  have ⟨he, hs⟩ := Machine.restrict_step_iff.mp hs
  exact step_advances he (Machine.restrict_step_iff.mp hs).right

theorem step_needsFull {truth : Nat → Finset Key} (h : Tracks truth s)
    (hs : faithful.step s e = some s') (hr : e ≠ .request) (hr' : e ≠ .reset)
    (hn : s.server.needsFull = false) : s'.server.needsFull = false := by
  obtain ⟨hf, hs⟩ := Machine.restrict_step_iff.mp hs
  cases e <;> simp only [machine, Option.some.injEq] at hs
  case plan => exact hs ▸ plan_needsFull
  case lose =>
    split at hs <;> cases hs
    exact hn
  case deliver =>
    split at hs <;> cases hs
    exact hn
  case acknowledge =>
    obtain ⟨_, _, hs⟩ := Option.map_eq_some_iff.mp hs
    exact hs ▸ hn
  case observe =>
    obtain ⟨_, ha, hs⟩ := Option.map_eq_some_iff.mp hs
    exact hs ▸ h.observe_needsFull (List.mem_of_getElem? ha) ▸ hn
  case request => contradiction
  case reset   => contradiction
  case resync | setPolicy => cases hf

-- Once a plan is made, only a request or a reset makes the next one owe a rebuild.
theorem steps_needsFull {truth : Nat → Finset Key} (h : Tracks truth s)
    (hs : faithful.Steps s es s') (hr : .request ∉ es) (hr' : .reset ∉ es)
    (hn : s.server.needsFull = false) : s'.server.needsFull = false := by
  induction hs generalizing truth
  case refl => exact hn
  case step he _ hi =>
    simp only [List.mem_cons, not_or] at hr hr'
    obtain ⟨_, ht⟩ := step_tracks ⟨_, h⟩ he
    exact hi ht hr.right hr'.right <| step_needsFull h he (Ne.symm hr.left) (Ne.symm hr'.left) hn

theorem plan_fullBaseline_cause {es₁ es₂ : List Event} {c₀ current : Finset Key}
    (h : faithful.Steps (.start history first) (es₁ ++ .plan c₀ :: es₂) s)
    (hf : (s.server.plan current s.next).snd.fullBaseline) :
    .request ∈ es₂ ∨ .reset ∈ es₂ ∨ s.server.baselineIsStale ∨ s.server.acked = none := by
  obtain ⟨s₁, h₁, h₂⟩ := h.split
  obtain ⟨_, ht₁⟩ := steps_tracks h₁
  obtain ⟨_, ht⟩ := steps_tracks h
  cases h₂
  case step s₂ hp h₂ =>
    obtain ⟨_, ht₂⟩ := step_tracks ⟨_, ht₁⟩ hp
    have hp := (Machine.restrict_step_iff.mp hp).right
    simp only [machine, Option.some.injEq] at hp
    have hn : s₂.server.needsFull = false := hp ▸ plan_needsFull
    by_contra hc
    simp only [not_or] at hc
    obtain ⟨hr, hr', hs, ha⟩ := hc
    have hn := steps_needsFull ht₂ h₂ hr hr' hn
    rw [plan_fullBaseline ht.policy, mustRebuild_iff ht.policy] at hf
    simp [hn, hs, ha] at hf

end Plaza.Protocols.Relevance
