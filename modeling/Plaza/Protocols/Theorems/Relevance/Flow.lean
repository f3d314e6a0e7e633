import Plaza.Protocols.Theorems.Relevance.Invariant
import Plaza.Protocols.Theorems.Relevance.Resync

open Plaza.ClientUtils Plaza.ServerUtils DeltaBaseline

namespace Plaza.Protocols.Relevance.Flow

variable {s s' s₁ s₂ s₃ s₄ : State} {e : Event} {es es₁ es₂ : List Event} {truth : Nat → Finset Key}
  {history first after every ke k k' t now n m : Nat} {lastAck : Option Nat}

section Link

def State.stalled (s : State) (now : Nat) : Bool :=
  s.link.server.stalled now

-- Events in which the server takes no part.
def Event.isQuiet : Event → Bool
  | .lose _ | .deliver | .acknowledge => true
  | _                                 => false

variable {current : Finset Key} {i : Nat}

theorem follow_link {e : Relevance.Event} (hs : s.follow e = some s') :
    Relevance.machine.step s.link e = some s'.link := by
  obtain ⟨_, hl, rfl⟩ := Option.map_eq_some_iff.mp hs
  exact hl

theorem send_link (hs : machine.step s (.send now current) = some s') :
    ∃ flow, s'.link = Relevance.State.plan { s.link with server := { s.link.server with flow } } current := by
  obtain ⟨flow, hf⟩ := shouldSend_fst_eq s.link.server now
  simp only [machine, Option.ite_none_right_eq_some, Option.some.injEq] at hs
  obtain ⟨_, rfl⟩ := hs
  exact ⟨flow, by simp only [State.poll, hf]⟩

theorem withhold_link (hs : machine.step s (.withhold now) = some s') :
    ∃ flow, s'.link = { s.link with server := { s.link.server with flow } } := by
  obtain ⟨flow, hf⟩ := shouldSend_fst_eq s.link.server now
  simp only [machine, Option.ite_none_right_eq_some, Option.some.injEq] at hs
  obtain ⟨_, rfl⟩ := hs
  exact ⟨flow, by simp only [State.poll, hf]⟩

theorem observe_link (hs : machine.step s (.observe i now) = some s') :
    ∃ ack flow, s.link.acks[i]? = some ack ∧ s'.link =
      if s.stalled now then
        { s.link with server := { s.link.server.reset with flow } }
      else
        Relevance.State.observe { s.link with server := { s.link.server with flow } } ack := by
  simp only [machine, Option.ite_none_right_eq_some] at hs
  obtain ⟨ack, ha, rfl⟩ := hs.right |> Option.map_eq_some_iff.mp
  simp only [Relevance.State.observeAt]
  split
  case isTrue hp  =>
    obtain ⟨flow, hf⟩ := observeAckAt_of_stalled hp ack.newest ack.mask ack.digest
    exact ⟨ack, flow, ha, by rw [hf]⟩
  case isFalse hp =>
    obtain ⟨flow, hf⟩ := observeAckAt_of_not_stalled hp ack.newest ack.mask ack.digest
    exact ⟨ack, flow, ha, by rw [hf]; rfl⟩

theorem reset_link (hs : machine.step s .reset = some s') :
    s'.link = { s.link with server := s.link.server.reset } :=
  (Option.some.inj (follow_link (e := .reset) hs)).symm

theorem quiet_link (hs : machine.step s e = some s') (hq : e.isQuiet) :
    s'.link.server = s.link.server ∧ s'.link.next = s.link.next := by
  cases e <;> simp only [Event.isQuiet, Bool.false_eq_true] at hq
  all_goals
    have hl := follow_link hs
    refine ⟨step_server_of_isQuiet hl rfl, ?_⟩
    simp only [Relevance.machine] at hl
  case lose        =>
    simp only [Option.ite_none_right_eq_some, Option.some.injEq] at hl
    exact congrArg (·.next) hl.right.symm
  case deliver     =>
    split at hl
    case h_1 => cases hl
    case h_2 => exact congrArg (·.next) (Option.some.inj hl).symm
  case acknowledge =>
    obtain ⟨_, _, hl⟩ := Option.map_eq_some_iff.mp hl
    exact congrArg (·.next) hl.symm

end Link

section Silence

def hear (lastAck : Option Nat) : Event → Option Nat
  | .send now _ | .withhold now => some (lastAck.getD now)
  | .observe _ now              => some now
  | .reset                      => none
  | _                           => lastAck

-- Since when the subscriber is silent: since its newest acknowledgement, or without one since the first round
-- after the last reset.
def heard (es : List Event) : Option Nat :=
  es.foldl hear none

-- A packet for a subscriber that is stalled.
def Event.isKeepalive (s : State) : Event → Bool
  | .send now _ => s.stalled now
  | _           => false

-- An acknowledgement by a subscriber that is stalled.
def Event.resumes (s : State) : Event → Bool
  | .observe _ now => s.stalled now
  | _              => false

def Event.isSend : Event → Bool
  | .send .. => true
  | _        => false

def Event.isReset : Event → Bool
  | .reset => true
  | _      => false

def Event.endsSilence : Event → Bool
  | .observe .. | .reset => true
  | _                    => false

-- The executions within one silence.
def silence : Machine State Event :=
  machine.restrict fun _ e => !e.endsSilence

-- The executions without a keepalive.
def unprobed : Machine State Event :=
  machine.restrict fun s e => !e.isKeepalive s

-- The time of the last keepalive, which nothing but another one sets to something else than zero.
def probe (s : State) (keepalive : Nat) : Event → Nat
  | .send now _    => if s.stalled now then now else keepalive
  | .observe _ now => if s.stalled now then 0 else keepalive
  | .reset         => 0
  | _              => keepalive

-- What the server remembers for its flow control.
structure Watches (after ke : Nat) (lastAck : Option Nat) (k : Nat) (s : State) : Prop where
  flow : s.link.server.flow = some {
    stalledAfter := after, keepaliveEvery := ke, lastAck := lastAck, lastKeepalive := k }

namespace Watches

theorem start : Watches after (max every 1) none 0 (.start history first after every) where
  flow := rfl

theorem stalled_iff (h : Watches after ke lastAck k s) : s.stalled now ↔ ∃ t ∈ lastAck, t + after < now :=
  DeltaBaseline.stalled_iff h.flow

theorem sends_iff (h : Watches after ke lastAck k s) : s.sends now ↔ (s.stalled now → ke ≤ now - k) := by
  rw [State.sends, shouldSend_snd h.flow]
  cases hs : s.link.server.stalled now <;> simp [State.stalled, hs]

theorem poll (h : Watches after ke lastAck k s) (now : Nat) :
    Watches after ke (some (lastAck.getD now)) (if s.stalled now ∧ s.sends now then now else k) (s.poll now) where
  flow := shouldSend_flow h.flow

theorem step (h : Watches after ke lastAck k s) (hs : machine.step s e = some s') :
    Watches after ke (hear lastAck e) (probe s k e) s' := by
  cases e
  case lose | deliver | acknowledge =>
    exact ⟨(congrArg (·.flow) (quiet_link hs rfl).left).trans h.flow⟩
  case reset =>
    constructor
    rw [reset_link hs]
    simp [DeltaBaseline.reset, h.flow, probe, hear]
  all_goals simp only [machine, Option.ite_none_right_eq_some, Option.some.injEq] at hs
  case send now current =>
    obtain ⟨⟨_, hn⟩, rfl⟩ := hs
    constructor
    have hp := (h.poll now).flow
    simp only [hn, and_true] at hp
    exact plan_flow.trans hp
  case withhold now =>
    obtain ⟨⟨_, hn⟩, rfl⟩ := hs
    have hp := h.poll now
    simp only [Bool.not_eq_true'] at hn
    simp only [hn, Bool.false_eq_true, and_false, ↓reduceIte] at hp
    exact hp
  case observe i now =>
    obtain ⟨_, hs⟩ := hs
    obtain ⟨ack, _, rfl⟩ := Option.map_eq_some_iff.mp hs
    exact ⟨observeAckAt_flow h.flow⟩

end Watches

theorem steps_watches (h : machine.Steps s es s') (hw : Watches after ke lastAck k s) :
    ∃ k', Watches after ke (es.foldl hear lastAck) k' s' := by
  induction h generalizing lastAck k
  case refl         => exact ⟨k, hw⟩
  case step he _ hi => exact hi (hw.step he)

-- The clock never runs back.
theorem clock_le (hs : machine.step s e = some s') : s.clock ≤ s'.clock := by
  cases e <;> simp only [machine, Option.ite_none_right_eq_some, Option.some.injEq] at hs
  case send | withhold =>
    obtain ⟨⟨hc, _⟩, rfl⟩ := hs
    exact hc
  case observe =>
    obtain ⟨hc, hs⟩ := hs
    obtain ⟨_, _, rfl⟩ := Option.map_eq_some_iff.mp hs
    exact hc
  all_goals
    obtain ⟨_, _, rfl⟩ := Option.map_eq_some_iff.mp hs
    exact le_rfl

theorem clock_le_of_send {c : Finset Key} (hs : machine.step s (.send now c) = some s') :
    s.clock ≤ now ∧ s.sends now ∧ s'.clock = now := by
  simp only [machine, Option.ite_none_right_eq_some, Option.some.injEq] at hs
  obtain ⟨⟨hc, hn⟩, rfl⟩ := hs
  exact ⟨hc, hn, rfl⟩

theorem clock_le_of_withhold (hs : machine.step s (.withhold now) = some s') :
    s.clock ≤ now ∧ ¬s.sends now := by
  simp only [machine, Option.ite_none_right_eq_some] at hs
  simpa using hs.left

-- Within a silence the time of the last keepalive only grows.
theorem silence_watches (h : silence.Steps s es s') (hw : Watches after ke (some t) k s) (hk : k ≤ s.clock) :
    ∃ k', Watches after ke (some t) k' s' ∧ k ≤ k' ∧ k' ≤ s'.clock := by
  induction h generalizing k
  case refl                   => exact ⟨k, hw, le_rfl, hk⟩
  case step s s' _ e _ he _ hi =>
    obtain ⟨hq, he⟩ := Machine.restrict_step_iff.mp he
    have hn := hw.step he
    have hc := clock_le he
    cases e
    case observe | reset => cases hq
    case send now _      =>
      obtain ⟨hl, _, ht⟩ := clock_le_of_send he
      simp only [probe] at hn
      split at hn
      case isTrue  =>
        obtain ⟨k', hw', hl', hr'⟩ := hi hn ht.ge
        exact ⟨k', hw', by omega, hr'⟩
      case isFalse => exact hi hn (hk.trans hc)
    all_goals exact hi hn (hk.trans hc)

-- Without another keepalive it does not.
theorem unprobed_watches (h : unprobed.Steps s es s') (hw : Watches after ke lastAck k s) :
    ∃ lastAck' k', Watches after ke lastAck' k' s' ∧ k' ≤ k := by
  induction h generalizing lastAck k
  case refl                  => exact ⟨lastAck, k, hw, le_rfl⟩
  case step s _ _ e _ he _ hi =>
    obtain ⟨hq, he⟩ := Machine.restrict_step_iff.mp he
    have hp : probe s k e ≤ k := by
      cases e <;> simp only [probe, le_refl, Nat.zero_le]
      case send    => simp_all [Event.isKeepalive]
      case observe => split <;> [exact Nat.zero_le _; exact le_rfl]
    obtain ⟨lastAck', k', hw', hl⟩ := hi (hw.step he)
    exact ⟨lastAck', k', hw', hl.trans hp⟩

-- Once stalled, a subscriber stays so until it is heard of.
theorem stalled_mono (hw : Watches after ke (some t) k s) (hw' : Watches after ke (some t) k' s') (hl : now ≤ n)
    (h : s.stalled now) : s'.stalled n := by
  obtain ⟨_, ht, hs⟩ := hw.stalled_iff.mp h
  cases ht
  exact hw'.stalled_iff.mpr ⟨_, rfl, by omega⟩

theorem keepalives_apart {c c' : Finset Key} (hw : Watches after ke lastAck k s) (hp : s.stalled now)
    (hs : machine.step s (.send now c) = some s₁) (h : silence.Steps s₁ es s₂)
    (hs' : machine.step s₂ (.send n c') = some s₃) (hke : 0 < ke) : now + ke ≤ n := by
  obtain ⟨t, rfl, _⟩ := hw.stalled_iff.mp hp
  have hw₁ := hw.step hs
  obtain ⟨_, _, hc⟩ := clock_le_of_send hs
  obtain ⟨hc', hn, _⟩ := clock_le_of_send hs'
  simp only [probe, hp, ↓reduceIte] at hw₁
  obtain ⟨k', hw₂, hl, hr⟩ := silence_watches h hw₁ hc.ge
  have := hw₂.sends_iff.mp hn (stalled_mono hw hw₂ (by omega) hp)
  omega

theorem keepalive_due {c : Finset Key} (hw : Watches after ke lastAck k s) (hp : s.stalled now)
    (hs : machine.step s (.send now c) = some s₁) (h : unprobed.Steps s₁ es s₂)
    (hs' : machine.step s₂ (.withhold n) = some s₃) : n < now + ke := by
  have hw₁ := hw.step hs
  simp only [probe, hp, ↓reduceIte] at hw₁
  obtain ⟨_, k', hw₂, hl⟩ := unprobed_watches h hw₁
  have hn := clock_le_of_withhold hs' |>.right
  rw [hw₂.sends_iff] at hn
  omega

end Silence

section Recovery

-- The executions in which the server makes no plan.
def unplanned : Machine State Event :=
  machine.restrict fun _ e => !e.isSend

-- Whether the acknowledged state is lost to the history in a round.
def Event.outruns (s : State) : Event → Bool
  | .send .. => s.link.server.baselineIsStale
  | _        => false

-- The executions within one epoch.
def epoch : Machine State Event :=
  machine.restrict fun s e => !e.isReset && !e.resumes s && !e.outruns s

theorem step_tracks (h : ∃ truth, Tracks truth s.link) (hs : machine.step s e = some s') :
    ∃ truth, Tracks truth s'.link := by
  have set {l : Relevance.State} (h : ∃ truth, Tracks truth l) (flow : Option FlowControl) :
      ∃ truth, Tracks truth { l with server := { l.server with flow } } := by
    obtain ⟨truth, h⟩ := h
    exact ⟨truth, h.setFlow flow⟩
  have follow {l l' : Relevance.State} {e : Relevance.Event} (h : ∃ truth, Tracks truth l)
      (hf : e.isFaithful) (hs : Relevance.machine.step l e = some l') : ∃ truth, Tracks truth l' :=
    Relevance.step_tracks h <| Machine.restrict_step_iff.mpr ⟨hf, hs⟩
  cases e
  case send    =>
    obtain ⟨flow, hl⟩ := send_link hs
    exact follow (e := .plan _) (set h flow) rfl (congrArg some hl.symm)
  case withhold =>
    obtain ⟨flow, hl⟩ := withhold_link hs
    exact hl ▸ set h flow
  case observe i _ =>
    obtain ⟨ack, flow, ha, hl⟩ := observe_link hs
    split at hl
    case isTrue  => exact hl ▸ set (follow (e := .reset) h rfl rfl) flow
    case isFalse =>
      refine follow (e := .observe i) (set h flow) rfl ?_
      simp only [Relevance.machine, ha, Option.map_some, hl]
  case reset => exact reset_link hs ▸ follow (e := .reset) h rfl rfl
  all_goals exact follow h rfl (follow_link hs)

theorem step_history (hs : machine.step s e = some s') : s'.link.server.history = s.link.server.history := by
  cases e
  case send =>
    obtain ⟨flow, hl⟩ := send_link hs
    exact hl ▸ plan_history
  case withhold =>
    obtain ⟨flow, hl⟩ := withhold_link hs
    rw [hl]
  case observe =>
    obtain ⟨ack, flow, _, hl⟩ := observe_link hs
    split at hl <;> [rw [hl]; exact hl ▸ observeAck_history]
    rfl
  case reset => rw [reset_link hs]; rfl
  all_goals rw [(quiet_link hs rfl).left]

theorem steps_history (h : machine.Steps s es s') : s'.link.server.history = s.link.server.history :=
  h.preserves (I := (·.link.server.history = s.link.server.history)) (fun hi hs => (step_history hs).trans hi) rfl

theorem start_tracks : ∃ truth, Tracks truth (State.start history first after every).link :=
  ⟨fun _ => ∅, (Tracks.start history first).setFlow _⟩

-- A server that starts over from packet `n`: it retains all that it has sent since then, as far as its history
-- reaches, and owes a rebuild until the first plan.
structure Fresh (n : Nat) (l : Relevance.State) : Prop where
  next  : n ≤ l.next
  owed  : n < l.next → l.server.needsFull = false
  sent  : l.server.sent.length = min l.server.history (l.next - n)
  acked : ∀ a, l.server.acked = some a → n ≤ a.fst

namespace Fresh

variable {l : Relevance.State} {ack : Ack} {current : Finset Key}

theorem setFlow (h : Fresh n l) (flow : Option FlowControl) : Fresh n { l with server := { l.server with flow } } :=
  { h with }

theorem reset (flow : Option FlowControl) : Fresh l.next { l with server := { l.server.reset with flow } } where
  next      := le_rfl
  owed hl   := absurd hl (lt_irrefl _)
  sent      := by simp [DeltaBaseline.reset]
  acked _ h := nomatch h

theorem plan (h : Fresh n l) (hp : l.server.policy = .ackRecovery) (hs : ¬l.server.baselineIsStale) :
    Fresh n (l.plan current) where
  next := Nat.le_succ_of_le h.next
  owed := fun _ => plan_needsFull
  sent := by
    have hh := l.server.history_pos
    have hn := h.next
    have hl := h.sent
    simp only [Relevance.State.plan, plan_sent, plan_history, List.length_drop, List.length_append, List.length_singleton]
    cases hr : l.server.mustRebuild
    case false => simp only [Bool.false_eq_true, ↓reduceIte]; omega
    case true  =>
      have hlt : ¬n < l.next := fun hlt => by
        have := mustRebuild_iff hp |>.mp hr
        simp [h.owed hlt, hs] at this
      simp only [↓reduceIte, List.length_nil]
      omega
  acked := by
    intro a ha
    simp only [Relevance.State.plan, plan_acked] at ha
    split at ha <;> [cases ha; exact h.acked a ha]

theorem observe (h : Fresh n l) (ht : Tracks truth l) (ha : ack ∈ l.acks) : Fresh n (l.observe ack) where
  next := h.next
  owed hl := by rw [ht.observe_needsFull ha, h.owed hl]
  sent := by
    simp only [Relevance.State.observe, observeAck_sent, observeAck_history]
    exact h.sent
  acked := by
    intro a he
    simp only [Relevance.State.observe, observeAck_acked ht.policy, Option.or_eq_some_iff] at he
    cases he
    case inl hr =>
      have hm := (reached_eq_some hr).left
      have hm : (a.fst, truth a.fst) ∈ l.server.sent := ht.server.states a hm ▸ hm
      have := (ht.server.mem_iff.mp hm).left
      have := h.sent
      have := h.next
      omega
    case inr ha => exact h.acked a ha.right

-- An acknowledgement that leaves no gap from the first packet to a retained one settles that one.
theorem observe_acked (h : Fresh n l) (ht : Tracks truth l) (ha : ack ∈ l.acks) (hn : n ≤ m)
    (hc : ∀ seq, n ≤ seq → seq ≤ m → ack.window.contains seq) (hm : l.next ≤ m + l.server.history) :
    ∃ a, (l.observe ack).server.acked = some a ∧ m ≤ a.fst := by
  have hfirst := h.next
  have hsent := h.sent
  have hnext := ht.newest_lt ha
  have hlast : m ≤ ack.newest := AckWindow.contains_le_newest (hc m hn le_rfl)
  by_cases hd : ∃ a, l.server.acked = some a ∧ m ≤ a.fst
  case pos =>
    obtain ⟨a, ha, hl⟩ := hd
    have hs : a.fst ∈ l.server.ackedSeq := Option.map_eq_some_iff.mpr ⟨a, ha, rfl⟩
    obtain ⟨_, hs', hl'⟩ := @observeAck_advances _ ack.newest ack.mask ack.digest _ hs
    obtain ⟨a', ha', rfl⟩ := Option.map_eq_some_iff.mp hs'
    exact ⟨a', ha', hl.trans hl'⟩
  case neg =>
    obtain ⟨f, hf, hl, hr⟩ : ∃ f, l.server.firstUnsettled = some f ∧ n ≤ f ∧ f ≤ m := by
      cases hs : l.server.acked
      case none   =>
        have ho := ht.server.oldest_eq (List.length_pos_iff.mp (by have := l.server.history_pos; omega))
        refine ⟨l.next - l.server.sent.length, ?_, by omega, by omega⟩
        rw [firstUnsettled, ackedSeq, hs]
        exact ho
      case some a =>
        have := h.acked a hs
        have : a.fst < m := by
          by_contra hl
          exact hd ⟨a, hs, by omega⟩
        exact ⟨a.fst + 1, by simp [firstUnsettled, ackedSeq, hs], by omega, by omega⟩
    obtain ⟨base, hb⟩ : ∃ base, ack.window.contiguousBase f = some base := by
      rw [← Option.ne_none_iff_exists', ne_eq, AckWindow.contiguousBase_eq_none_iff, not_not]
      exact hc f hl hr
    have hmb := AckWindow.le_contiguousBase_of_contains hb fun q hq hq' => hc q (hl.trans hq) hq'
    have hbn : base ≤ ack.newest := AckWindow.contiguousBase_le_newest hb
    have hmem : (base, truth base) ∈ l.server.sent := ht.server.mem_iff.mpr ⟨by omega, by omega⟩
    obtain ⟨e, he⟩ : ∃ e, l.server.sent.find? (·.fst = base) = some e :=
      Option.isSome_iff_exists.mp <| List.find?_isSome.mpr ⟨_, hmem, by simp⟩
    have hs := List.find?_some he
    simp only [decide_eq_true_eq] at hs
    refine ⟨e, ?_, hs ▸ hmb⟩
    have hr : l.server.reached ack.window = some e := by
      simp only [reached, hf, hb, Option.bind_eq_bind, Option.bind_some]
      exact he
    exact (observeAck_acked ht.policy).trans (by rw [← Ack.window, hr, Option.some_or])

end Fresh

-- From packet `m` on everything is settled.
structure Settled (n m : Nat) (l : Relevance.State) : Prop extends Fresh n l where
  planned : n < l.next
  reached : ∃ a, l.server.acked = some a ∧ m ≤ a.fst

namespace Settled

variable {l l' : Relevance.State} {ack : Ack} {current : Finset Key}

theorem setFlow (h : Settled n m l) (flow : Option FlowControl) :
    Settled n m { l with server := { l.server with flow } } :=
  { h with toFresh := h.toFresh.setFlow flow }

theorem mustRebuild (h : Settled n m l) (hp : l.server.policy = .ackRecovery) :
    l.server.mustRebuild ↔ l.server.baselineIsStale := by
  rw [mustRebuild_iff hp, h.owed h.planned]
  simp

theorem fullBaseline (h : Settled n m l) (hp : l.server.policy = .ackRecovery) (seq : Nat) :
    (l.server.plan current seq).snd.fullBaseline ↔ l.server.baselineIsStale := by
  obtain ⟨a, ha, _⟩ := h.reached
  rw [plan_fullBaseline hp, h.mustRebuild hp, ha]
  simp

theorem of_ack (h : Fresh n l) (ht : Tracks truth l) (ha : ack ∈ l.acks) (hn : n ≤ m)
    (hc : ∀ seq, n ≤ seq → seq ≤ m → ack.window.contains seq) (hm : l.next ≤ m + l.server.history) :
    Settled n m (l.observe ack) where
  toFresh := h.observe ht ha
  planned := by
    have hl := AckWindow.contains_le_newest (hc m hn le_rfl)
    exact Nat.lt_of_le_of_lt (hn.trans hl) (ht.newest_lt ha)
  reached := h.observe_acked ht ha hn hc hm

theorem plan (h : Settled n m l) (hp : l.server.policy = .ackRecovery) (hs : ¬l.server.baselineIsStale) :
    Settled n m (l.plan current) where
  toFresh := h.toFresh.plan hp hs
  planned := Nat.lt_succ_of_lt h.planned
  reached := by
    rw [← h.mustRebuild hp] at hs
    simp only [Relevance.State.plan, plan_acked, hs, Bool.false_eq_true, ↓reduceIte]
    exact h.reached

theorem observe (h : Settled n m l) (ht : Tracks truth l) (ha : ack ∈ l.acks) : Settled n m (l.observe ack) where
  toFresh := h.toFresh.observe ht ha
  planned := h.planned
  reached := by
    obtain ⟨a, ha, hl⟩ := h.reached
    have hs : a.fst ∈ l.server.ackedSeq := Option.map_eq_some_iff.mpr ⟨a, ha, rfl⟩
    obtain ⟨_, hs', hl'⟩ := @observeAck_advances _ ack.newest ack.mask ack.digest _ hs
    obtain ⟨a', ha', rfl⟩ := Option.map_eq_some_iff.mp hs'
    exact ⟨a', ha', hl.trans hl'⟩

theorem not_stale (h : Settled n m l) (ht : Tracks truth l) (hm : l.next ≤ m + l.server.history) :
    ¬l.server.baselineIsStale := by
  obtain ⟨a, ha, hl⟩ := h.reached
  have hh := l.server.history_pos
  have hsent := h.sent
  have hnext := h.planned
  have ho := ht.server.oldest_eq (List.length_pos_iff.mp (by omega))
  simp only [baselineIsStale, ackedSeq, ha, Option.map_some, ho, Option.any_some, Bool.and_eq_true,
    decide_eq_true_eq]
  omega

end Settled

-- What an epoch keeps: no clock breaks it, no acknowledgement, and no plan unless the baseline is stale.
structure Survives (I : Relevance.State → Prop) : Prop where
  quiet   : ∀ {l l'}, I l → l'.server = l.server → l'.next = l.next → I l'
  flow    : ∀ {l} flow, I l → I { l with server := { l.server with flow } }
  plan    : ∀ {l truth} current, I l → Tracks truth l → ¬l.server.baselineIsStale → I (l.plan current)
  observe : ∀ {l truth ack}, I l → Tracks truth l → ack ∈ l.acks → I (l.observe ack)

theorem Fresh.survives : Survives (Fresh n) where
  quiet h hs hn       := ⟨hn ▸ h.next, hs ▸ hn ▸ h.owed, hs ▸ hn ▸ h.sent, hs ▸ h.acked⟩
  flow flow h         := h.setFlow flow
  plan _ h ht hs      := h.plan ht.policy hs
  observe h ht ha     := h.observe ht ha

theorem Settled.survives : Survives (Settled n m) where
  quiet h hs hn       := ⟨Fresh.survives.quiet h.toFresh hs hn, hn ▸ h.planned, hs ▸ h.reached⟩
  flow flow h         := h.setFlow flow
  plan _ h ht hs      := h.plan ht.policy hs
  observe h ht ha     := h.observe ht ha

theorem epoch_step {I : Relevance.State → Prop} (hi : Survives I) (ht : Tracks truth s.link) (h : I s.link)
    (hs : epoch.step s e = some s') : I s'.link := by
  obtain ⟨he, hm⟩ := Machine.restrict_step_iff.mp hs
  simp only [Bool.and_eq_true, Bool.not_eq_true'] at he
  obtain ⟨⟨hr, hp⟩, ho⟩ := he
  cases e
  case reset => cases hr
  case lose | deliver | acknowledge =>
    obtain ⟨hserver, hnext⟩ := quiet_link hm rfl
    exact hi.quiet h hserver hnext
  case withhold =>
    obtain ⟨flow, hl⟩ := withhold_link hm
    exact hl ▸ hi.flow flow h
  case send =>
    obtain ⟨flow, hl⟩ := send_link hm
    have ho : ¬s.link.server.baselineIsStale := by simpa [Event.outruns] using ho
    exact hl ▸ hi.plan _ (hi.flow flow h) (ht.setFlow flow) ho
  case observe i now =>
    obtain ⟨ack, flow, ha, hl⟩ := observe_link hm
    have hp : ¬s.stalled now := by simpa [Event.resumes] using hp
    rw [if_neg hp] at hl
    exact hl ▸ hi.observe (hi.flow flow h) (ht.setFlow flow) (List.mem_of_getElem? ha)

theorem epoch_steps {I : Relevance.State → Prop} (hi : Survives I) (h : epoch.Steps s es s')
    (ht : ∃ truth, Tracks truth s.link) (h₀ : I s.link) : (∃ truth, Tracks truth s'.link) ∧ I s'.link := by
  refine h.preserves (I := fun s => (∃ truth, Tracks truth s.link) ∧ I s.link) ?_ ⟨ht, h₀⟩
  intro s e s' ⟨⟨truth, ht⟩, h⟩ hs
  exact ⟨step_tracks ⟨truth, ht⟩ (Machine.restrict_step_iff.mp hs).right, epoch_step hi ht h hs⟩

-- While it makes no plan, a server that owes a rebuild keeps owing it.
theorem unplanned_needsFull (h : unplanned.Steps s es s') (hn : s.link.server.needsFull)
    (ht : ∃ truth, Tracks truth s.link) : s'.link.server.needsFull := by
  refine (h.preserves (I := fun s => s.link.server.needsFull = true ∧ ∃ truth, Tracks truth s.link) ?_ ⟨hn, ht⟩).left
  intro s e s' ⟨hn, ht⟩ hs
  obtain ⟨hq, hs⟩ := Machine.restrict_step_iff.mp hs
  refine ⟨?_, step_tracks ht hs⟩
  cases e
  case send  => cases hq
  case reset => rw [reset_link hs]; rfl
  case lose | deliver | acknowledge => rw [(quiet_link hs rfl).left, hn]
  case withhold =>
    obtain ⟨flow, hl⟩ := withhold_link hs
    rw [hl, hn]
  case observe =>
    obtain ⟨truth, ht⟩ := ht
    obtain ⟨ack, flow, ha, hl⟩ := observe_link hs
    split at hl
    case isTrue  => rw [hl]; rfl
    case isFalse =>
      rw [hl, (ht.setFlow flow).observe_needsFull (List.mem_of_getElem? ha)]
      exact hn

end Recovery

section Results

-- How the flow control treats one that is stalled when it is sent a keepalive, within the same silence and until
-- the next keepalive.
structure Throttles (ke : Nat) (s : State) : Prop where
  apart : ∀ {now current s₁ es s₂ n current' s₃}, s.stalled now → machine.step s (.send now current) = some s₁ →
    silence.Steps s₁ es s₂ → machine.step s₂ (.send n current') = some s₃ → now + ke ≤ n
  due   : ∀ {now current s₁ es s₂ n s₃}, s.stalled now → machine.step s (.send now current) = some s₁ →
    unprobed.Steps s₁ es s₂ → machine.step s₂ (.withhold n) = some s₃ → n < now + ke

-- The stream picks up again after an acknowledgement by a stalled subscriber.
structure Resumes (history : Nat) (s : State) : Prop where
  full        : ∀ {i now s₁ es s₂ current}, s.stalled now → machine.step s (.observe i now) = some s₁ →
    unplanned.Steps s₁ es s₂ → (s₂.link.server.plan current s₂.link.next).snd.fullBaseline
  incremental : ∀ {i now s₁ es₁ s₂ j n s₃ es₂ s₄ m ack current}, s.stalled now →
    machine.step s (.observe i now) = some s₁ → epoch.Steps s₁ es₁ s₂ →
    -- Packet `m` is retained, and the acknowledgement covers everything since the first packet up to it.
    s₂.link.acks[j]? = some ack → s₁.link.next ≤ m → s₂.link.next ≤ m + history →
    (∀ seq, s₁.link.next ≤ seq → seq ≤ m → ack.window.contains seq) →
    epoch.step s₂ (.observe j n) = some s₃ → epoch.Steps s₃ es₂ s₄ →
    ((s₄.link.server.plan current s₄.link.next).snd.fullBaseline ↔ s₄.link.server.baselineIsStale) ∧
    (s₄.link.next ≤ m + history → ¬s₄.link.server.baselineIsStale)

theorem Watches.throttles (hw : Watches after ke lastAck k s) (hke : 0 < ke) : Throttles ke s where
  apart hp hs h hs' := keepalives_apart hw hp hs h hs' hke
  due hp hs h hs'   := keepalive_due hw hp hs h hs'

theorem resumes (ht : ∃ truth, Tracks truth s.link) : Resumes s.link.server.history s where
  full := by
    intro i now s₁ es s₂ current hp hs h
    obtain ⟨_, flow, _, hl⟩ := observe_link hs
    rw [if_pos hp] at hl
    refine plan_fullBaseline_of_needsFull <| unplanned_needsFull h ?_ (step_tracks ht hs)
    rw [hl]
    rfl
  incremental := by
    intro i now s₁ es₁ s₂ j n s₃ es₂ s₄ m ack current hp hs h₁ ha hn hm hc hs₃ h₂
    have ht₁ := step_tracks ht hs
    have hf₁ : Fresh s₁.link.next s₁.link := by
      obtain ⟨_, flow, _, hl⟩ := observe_link hs
      rw [if_pos hp] at hl
      exact hl ▸ Fresh.reset flow
    obtain ⟨⟨truth, ht₂⟩, hf₂⟩ := epoch_steps Fresh.survives h₁ ht₁ hf₁
    obtain ⟨hr, hs₃⟩ := Machine.restrict_step_iff.mp hs₃
    have ht₃ := step_tracks ⟨truth, ht₂⟩ hs₃
    have hh : s₂.link.server.history = s.link.server.history :=
      (steps_history h₁.of_restrict).trans (step_history hs)
    have hf₃ : Settled s₁.link.next m s₃.link := by
      obtain ⟨ack', flow, ha', hl⟩ := observe_link hs₃
      cases ha.symm.trans ha'
      have hp : ¬s₂.stalled n := by
        simp only [Event.resumes, Bool.and_eq_true, Bool.not_eq_true'] at hr
        simp [hr.left.right]
      rw [if_neg hp] at hl
      have hm := hh ▸ hm
      exact hl ▸ .of_ack (hf₂.setFlow flow) (ht₂.setFlow flow) (List.mem_of_getElem? ha) hn hc hm
    obtain ⟨⟨truth, ht₄⟩, hf₄⟩ := epoch_steps Settled.survives h₂ ht₃ hf₃
    have hh' : s₄.link.server.history = s.link.server.history :=
      (steps_history h₂.of_restrict).trans <| (step_history hs₃).trans hh
    exact ⟨hf₄.fullBaseline ht₄.policy _, fun hl => hf₄.not_stale ht₄ (hh' ▸ hl)⟩

-- Silence, keepalives and resumption leave the link in agreement, and that leaves their timing alone.
theorem flow_controlled (h : machine.Steps (.start history first after every) es s) :
    (∀ now, s.stalled now ↔ ∃ t ∈ heard es, t + after < now) ∧
    (∀ now s', machine.step s (.withhold now) = some s' → ∃ t ∈ heard es, t + after < now) ∧
    Throttles (max every 1) s ∧
    Resumes (max history 1) s ∧
    ∀ p wire s', s.link.wire = p :: wire → machine.step s .deliver = some s' → s'.link.client.held = p.current := by
  have ht := h.preserves (I := fun s => ∃ truth, Tracks truth s.link) step_tracks start_tracks
  obtain ⟨k, hw⟩ := steps_watches h .start
  have hh : s.link.server.history = max history 1 := steps_history h
  refine ⟨fun _ => hw.stalled_iff, fun now s' hs => ?_, hw.throttles (by omega), hh ▸ resumes ht, ?_⟩
  case refine_1 =>
    have hn := (clock_le_of_withhold hs).right
    rw [hw.sends_iff] at hn
    exact hw.stalled_iff.mp (by_contra fun hs => hn fun hs' => absurd hs' hs)
  case refine_2 =>
    intro p wire s' hp hs
    obtain ⟨_, ht⟩ := ht
    have hl := follow_link hs
    simp only [Relevance.machine, hp, Option.some.injEq] at hl
    exact hl ▸ ht.apply_held hp

theorem flow_controlled_resumed :
    ∃ s, machine.Steps (.start 4 0 10 5)
        [.send 0 {1}, .deliver, .send 20 {1, 2}, .withhold 24, .deliver, .acknowledge, .observe 0 25, .send 25 {2}] s ∧
      Throttles 5 s ∧ Resumes 4 s ∧
      ∀ p wire s', s.link.wire = p :: wire → machine.step s .deliver = some s' → s'.link.client.held = p.current :=
  have h := .step rfl <| .step rfl <| .step rfl <| .step rfl <| .step rfl <| .step rfl <| .step rfl <|
    .step rfl .refl
  ⟨_, h, (flow_controlled h).right.right⟩

-- Without any loss, the acknowledgement of the first packet after a resumption may come when the history has
-- forgotten that packet.
theorem late_ack_keeps_full :
    ¬∀ (history first after every : Nat) (es : List Event) (s : State) (i now : Nat) (s₁ : State) (es₁ : List Event)
      (s₂ : State) (j n : Nat) (s₃ : State) (m : Nat) (ack : Ack) (current : Finset Key),
      machine.Steps (.start history first after every) es s → s.stalled now →
      machine.step s (.observe i now) = some s₁ → epoch.Steps s₁ es₁ s₂ → (∀ k, .lose k ∉ es ++ es₁) →
      s₂.link.acks[j]? = some ack → s₁.link.next ≤ m →
      (∀ seq, s₁.link.next ≤ seq → seq ≤ m → ack.window.contains seq) →
      epoch.step s₂ (.observe j n) = some s₃ → ¬(s₃.link.server.plan current s₃.link.next).snd.fullBaseline := by
  intro h
  have hr : (machine.run (.start 1 0 10 5) [.send 0 {1}, .deliver, .send 20 {1}, .deliver, .acknowledge]).any
      fun s => s.stalled 20 && (machine.step s (.observe 0 20)).any
      fun s₁ => s₁.link.next == 2 && (epoch.run s₁ [.send 21 {1}, .deliver, .acknowledge, .send 22 {1}]).any
      fun s₂ => (s₂.link.acks[1]?).any (·.window.contains 2) && (epoch.step s₂ (.observe 1 23)).any
      fun s₃ => (s₃.link.server.plan {1} s₃.link.next).snd.fullBaseline := by
    decide +kernel
  simp only [Option.any_eq_true, Bool.and_eq_true, beq_iff_eq] at hr
  obtain ⟨s, hs, hp, s₁, hs₁, hn, s₂, hs₂, ⟨ack, ha, hc⟩, s₃, hs₃, hf⟩ := hr
  refine h _ _ _ _ _ s _ _ s₁ _ s₂ _ _ s₃ 2 ack _ (Machine.run_eq_some_iff.mp hs) hp hs₁
    (Machine.run_eq_some_iff.mp hs₂) (by simp) ha hn.le (fun seq hl hr => ?_) hs₃ hf
  obtain rfl : seq = 2 := by omega
  exact hc

end Results

end Plaza.Protocols.Relevance.Flow
