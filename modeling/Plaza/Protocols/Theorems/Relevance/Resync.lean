import Plaza.Protocols.Theorems.Relevance.Invariant

open Plaza.ClientUtils Plaza.ServerUtils DeltaBaseline

namespace Plaza.Protocols.Relevance

variable {s s' s₁ s₂ : State} {e : Event} {es es' es'' : List Event} {ack : Ack}
  {history first i : Nat}

def Ack.window (ack : Ack) : AckWindow :=
  .fromEncoded ack.newest ack.mask

-- Events in which the server takes no part.
def Event.isQuiet : Event → Bool
  | .lose _ | .deliver | .acknowledge | .resync _ => true
  | _ => false

def Event.isPlan : Event → Bool
  | .plan _ => true
  | _       => false

-- The acknowledgement leaves no gap between the baseline and the newest packet it reports, and this
-- packet is retained with a set that has another digest than the reported one.
structure Exposes (b : DeltaBaseline) (ack : Ack) (f : Nat) : Prop where
  first_le : f ≤ ack.newest + 1
  gapFree  : ∀ seq, f ≤ seq → seq ≤ ack.newest → ack.window.contains seq
  differs  : ∃ state, ((ack.newest, state) ∈ b.sent ∨ b.acked = some (ack.newest, state)) ∧
    digestOf state ≠ ack.digest

-- When an acknowledgement makes the next plan a full baseline.
inductive Exposed (b : DeltaBaseline) (ack : Ack) : Prop
  -- The server owes a rebuild already.
  | owed (h : b.needsFull)
  -- Nothing is settled, and the acknowledgement does not cover the oldest retained packet.
  | unknown (hp : b.policy = .ackRecovery) (ha : b.acked = none) (hc : ∀ seq ∈ b.oldest, ¬ack.window.contains seq)
  -- The baseline has aged out, and the acknowledgement does not lead from it to a retained packet.
  | stale (hp : b.policy = .ackRecovery) (hs : b.baselineIsStale) (ha : b.ackedSeq = some a)
      (ho : b.oldest = some o) (hg : a < seq ∧ seq ≤ o ∧ ¬ack.window.contains seq)
  | drift (hp : b.policy = .ackRecovery) (hf : b.firstUnsettled = some f) (he : Exposes b ack f)

-- Whether the next plan is a full baseline once the server has taken this event.
def Event.Rebuilds (s : State) : Event → Prop
  | .request | .reset | .setPolicy _ => True
  | .observe i        => ∃ ack, s.acks[i]? = some ack ∧ Exposed s.server ack
  | _                 => False

-- Whether it is one after these events, of which the last one that the server took decides.
def Rebuilds (s : State) (es : List Event) : Prop :=
  ∃ es₁ e es₂ s₁, es = es₁ ++ e :: es₂ ∧ machine.Steps s es₁ s₁ ∧ e.Rebuilds s₁ ∧
    ∀ e ∈ es₂, e.isQuiet

-- The executions in which the server makes no plan.
def unplanned : Machine State Event :=
  machine.restrict fun _ e => !e.isPlan

-- The subscriber has sent its `i`th acknowledgement after a resync.
structure Resynced (history first : Nat) (s : State) (i : Nat) : Prop where
  since : ∃ es s₀ n s₁ es', machine.Steps (.start history first) es s₀ ∧
    machine.step s₀ (.resync n) = some s₁ ∧ machine.Steps s₁ es' s ∧ s₀.acks.length ≤ i

-- What holds whatever the subscriber does with its mirror.
structure WellFormed (truth : Nat → Finset Key) (s : State) : Prop where
  server : Remembers truth s.next s.server
  wire   : ∀ p ∈ s.wire, p.seq < s.next
  client : s.client.acks.started → s.client.acks.newest < s.next
  acks   : ∀ a ∈ s.acks, a.newest < s.next

theorem step_wellFormed (h : ∃ truth, WellFormed truth s) (hs : machine.step s e = some s') :
    ∃ truth, WellFormed truth s' := by
  obtain ⟨truth, h⟩ := h
  cases e <;> simp only [machine, Option.some.injEq] at hs
  case plan current =>
    have ht : ∀ seq < s.next, Function.update truth s.next current seq = truth seq :=
      fun _ hl => Function.update_of_ne (Nat.ne_of_lt hl) ..
    subst hs
    refine ⟨_, (h.server.congr ht).plan (Function.update_self ..), ?_, ?_, ?_⟩
    · intro p hp
      simp only [State.plan, List.mem_append, List.mem_singleton] at hp
      cases hp
      case inl hp => exact Nat.lt_succ_of_lt <| h.wire p hp
      case inr hp => exact hp ▸ Nat.lt_succ_self _
    · exact fun hc => Nat.lt_succ_of_lt <| h.client hc
    · exact fun a ha => Nat.lt_succ_of_lt <| h.acks a ha
  case lose =>
    split at hs <;> cases hs
    exact ⟨truth, { h with wire := fun p hp => h.wire p <| List.mem_of_mem_eraseIdx hp }⟩
  case deliver =>
    split at hs <;> cases hs
    case h_2 p wire hw =>
      have hp := h.wire p <| hw ▸ List.mem_cons_self ..
      refine ⟨truth, { h with wire := fun q hq => h.wire q <| hw ▸ List.mem_cons_of_mem _ hq, client := ?_ }⟩
      intro _
      cases hc : s.client.acks.started
      case false =>
        rw [Subscriber.apply, AckWindow.observe_newest (by simp [hc])]
        exact hp
      case true =>
        cases s.client.acks.observe_newest_eq_or p.seq
        case inl hn => exact hn.symm ▸ h.client hc
        case inr hn => exact hn.symm ▸ hp
  case acknowledge =>
    obtain ⟨ack, ha, hs⟩ := Option.map_eq_some_iff.mp hs
    refine ⟨truth, hs ▸ { h with acks := fun a hm => ?_ }⟩
    rw [List.mem_append, List.mem_singleton] at hm
    cases hm
    case inl hm => exact h.acks a hm
    case inr hm =>
      obtain ⟨hc, hn, _⟩ := Subscriber.acknowledge_eq_some ha
      exact hm ▸ hn.trans_lt (h.client hc)
  case observe =>
    obtain ⟨_, _, hs⟩ := Option.map_eq_some_iff.mp hs
    exact ⟨truth, hs ▸ { h with server := h.server.observeAck }⟩
  case request => exact ⟨truth, hs ▸ { h with server := h.server.request }⟩
  case reset   => exact ⟨truth, hs ▸ { h with server := .reset }⟩
  case setPolicy policy =>
    split at hs <;> cases hs
    exact ⟨truth, { h with server := h.server.setPolicy policy }⟩
  case resync  =>
    exact ⟨truth, hs ▸ { h with wire := fun p hp => h.wire p <| List.mem_of_mem_drop hp }⟩

theorem steps_wellFormed (h : machine.Steps s es s') (hw : ∃ truth, WellFormed truth s) :
    ∃ truth, WellFormed truth s' :=
  h.preserves (I := fun s => ∃ truth, WellFormed truth s) step_wellFormed hw

theorem start_wellFormed : ∃ truth, WellFormed truth (.start history first) :=
  ⟨fun _ => ∅, .start history, nofun, nofun, nofun⟩

section Exposed

variable {truth : Nat → Finset Key} {b : DeltaBaseline} {next f r seq : Nat}
  {state current : Finset Key} {e : Nat × Finset Key}

theorem Remembers.eq_of_mem (h : Remembers truth next b) (he : (seq, state) ∈ b.sent) :
    state = truth seq :=
  h.states _ he

-- An acknowledgement reaches the end of its contiguous run if that packet is retained.
theorem Remembers.reached_iff (h : Remembers truth next b) (hn : ack.newest < next) :
    b.reached ack.window = some e ↔
      ∃ f, b.firstUnsettled = some f ∧ ack.window.contiguousBase f = some e.fst ∧
        next - b.sent.length ≤ e.fst ∧ e.snd = truth e.fst := by
  constructor
  case mp =>
    intro hr
    have ⟨hm, f, hf, hb⟩ := reached_eq_some hr
    have he := h.states e hm
    exact ⟨f, hf, hb, h.mem_iff.mp (he ▸ hm) |>.left, he⟩
  case mpr =>
    intro ⟨f, hf, hb, hl, he⟩
    have hm : e ∈ b.sent := by
      have hu := Nat.lt_of_le_of_lt (AckWindow.contiguousBase_le_newest hb) hn
      have := h.mem_iff.mpr ⟨hl, hu⟩
      rwa [←he] at this
    have ⟨e', he'⟩ : ∃ e', b.sent.find? (·.fst = e.fst) = some e' :=
      Option.isSome_iff_exists.mp <| List.find?_isSome.mpr ⟨e, hm, by simp⟩
    have hq : e'.fst = e.fst := by simpa using List.find?_some he'
    have hs := h.states e' (List.mem_of_find?_eq_some he')
    simp only [reached, hf, hb, Option.bind_eq_bind, Option.bind_some, he', Option.some.injEq]
    exact Prod.ext hq (by rw [hs, hq, he])

-- After the acknowledgement the baseline is the packet it reached, if it reached one.
theorem Remembers.exposed_of_reached (h : Remembers truth next b) (hp : b.policy = .ackRecovery)
    (hn : ack.newest < next) (hr : b.reached ack.window = some e) :
    Exposed b ack ↔ b.needsFull ∨ e.fst = ack.newest ∧ digestOf e.snd ≠ ack.digest := by
  obtain ⟨f, hf, hb, hl, he⟩ := h.reached_iff hn |>.mp hr
  have hm := (reached_eq_some hr).left
  have hfe := AckWindow.le_contiguousBase hb
  have hle : e.fst ≤ ack.newest := AckWindow.contiguousBase_le_newest hb
  constructor
  case mp =>
    intro hx
    cases hx
    case owed ho => exact .inl ho
    case unknown _ ha hc =>
      simp only [firstUnsettled, ackedSeq, ha, Option.map_none] at hf
      exact absurd (AckWindow.contains_of_contiguousBase hb le_rfl hfe) <| hc f hf
    case stale a o seq _ hs ha ho hg =>
      have hne : b.sent ≠ [] := List.ne_nil_of_mem hm
      simp only [firstUnsettled, ha, Option.some.injEq] at hf
      rw [h.oldest_eq hne, Option.some.injEq] at ho
      refine absurd (AckWindow.contains_of_contiguousBase hb ?_ ?_) hg.right.right <;> omega
    case drift f' _ hf' hx =>
      cases hf.symm.trans hf'
      obtain ⟨state, hs, hd⟩ := hx.differs
      have hne : e.fst = ack.newest := by
        by_contra hc
        exact AckWindow.contiguousBase_stops hb <| hx.gapFree _ (by omega) (by omega)
      refine .inr ⟨hne, ?_⟩
      cases hs
      case inl hs => rwa [he, hne, ←h.eq_of_mem hs]
      case inr hs =>
        simp only [firstUnsettled, ackedSeq, hs, Option.map_some, Option.some.injEq] at hf
        omega
  case mpr =>
    intro hx
    cases hx
    case inl ho => exact .owed ho
    case inr hx =>
      obtain ⟨hne, hd⟩ := hx
      refine .drift hp hf ⟨by omega, fun seq hl hu => ?_, _, .inl (hne ▸ hm), hd⟩
      exact AckWindow.contains_of_contiguousBase hb hl (hne ▸ hu)

-- A run that reaches no retained packet ends before the oldest one.
theorem Remembers.run_lt_oldest (h : Remembers truth next b) (hn : ack.newest < next)
    (hr : b.reached ack.window = none) (hf : b.firstUnsettled = some f)
    (hb : ack.window.contiguousBase f = some r) : r < next - b.sent.length := by
  by_contra hc
  have := h.reached_iff hn (e := (r, truth r)) |>.mpr ⟨f, hf, hb, Nat.le_of_not_lt hc, rfl⟩
  rw [hr] at this
  cases this

theorem firstUnsettled_of_acked {a : Nat × Finset Key} (ha : b.acked = some a) :
    b.firstUnsettled = some (a.fst + 1) := by
  simp [firstUnsettled, ackedSeq, ha]

theorem firstUnsettled_of_unknown (ha : b.acked = none) : b.firstUnsettled = b.oldest := by
  simp [firstUnsettled, ackedSeq, ha]

-- If no retained packet is reached, then only the baseline itself can be exposed.
theorem Remembers.drifted_of_exposes {a : Nat × Finset Key} (h : Remembers truth next b)
    (hn : ack.newest < next) (hr : b.reached ack.window = none) (ha : b.acked = some a)
    (hx : Exposes b ack (a.fst + 1)) : b.drifted ack.newest ack.digest := by
  have ⟨state, hs, hd⟩ := hx.differs
  have hf := hx.first_le
  have hne : a.fst = ack.newest := by
    by_contra hc
    have hb := AckWindow.contiguousBase_eq_some_iff.mpr ⟨hx.gapFree _ le_rfl (by omega), rfl⟩
    have hlt := h.run_lt_oldest hn hr (firstUnsettled_of_acked ha) hb
    have hfb := AckWindow.le_contiguousBase hb
    cases hs
    case inl hs =>
      have hm := h.mem_iff.mp (h.eq_of_mem hs ▸ hs)
      exact AckWindow.contiguousBase_stops hb <| hx.gapFree _ (by omega) (by omega)
    case inr hs => exact hc <| Option.some.inj (ha.symm.trans hs) ▸ rfl
  have hst : state = a.snd := by
    cases hs
    case inl hs => rw [(h.acked a ha).right, hne, h.eq_of_mem hs]
    case inr hs => exact Option.some.inj (ha.symm.trans hs) ▸ rfl
  simp [drifted, ha, hne, ←hst, hd]

theorem Remembers.exposed_of_stale (h : Remembers truth next b) (hp : b.policy = .ackRecovery)
    (hn : ack.newest < next) (hr : b.reached ack.window = none) (hs : b.baselineIsStale) : Exposed b ack := by
  cases ha : b.acked
  case none => simp [baselineIsStale, ackedSeq, ha] at hs
  case some a =>
    have hq : b.ackedSeq = some a.fst := by simp [ackedSeq, ha]
    have hne : b.sent ≠ [] := by
      have := b.history_pos
      intro hc
      simp [baselineIsStale, hq, hc, oldest] at hs
    have ho := h.oldest_eq hne
    simp only [baselineIsStale, hq, ho, Option.any_some, Bool.and_eq_true, decide_eq_true_eq] at hs
    by_cases hc : ack.window.contains (a.fst + 1)
    case neg => exact .stale hp (by simp [baselineIsStale, hq, ho, hs]) hq ho ⟨Nat.lt_succ_self _, hs.right, hc⟩
    case pos =>
      have hb := AckWindow.contiguousBase_eq_some_iff.mpr ⟨hc, rfl⟩
      have hlt := h.run_lt_oldest hn hr (firstUnsettled_of_acked ha) hb
      have hfb := AckWindow.le_contiguousBase hb
      refine .stale hp (by simp [baselineIsStale, hq, ho, hs]) hq ho ⟨?_, hlt, AckWindow.contiguousBase_stops hb⟩
      omega

theorem exposed_of_drifted (hp : b.policy = .ackRecovery)
    (hd : b.drifted ack.newest ack.digest) : Exposed b ack := by
  cases ha : b.acked
  case none => simp [drifted, ha] at hd
  case some a =>
    simp only [drifted, ha, Bool.and_eq_true, decide_eq_true_eq] at hd
    obtain ⟨hq, hd⟩ := hd
    refine .drift hp (firstUnsettled_of_acked ha) ⟨by omega, fun _ _ _ => by omega, a.snd, ?_, hd⟩
    exact .inr <| hq ▸ ha

-- Otherwise the baseline stays.
theorem Remembers.exposed_of_not_reached (h : Remembers truth next b)
    (hp : b.policy = .ackRecovery) (hn : ack.newest < next) (hr : b.reached ack.window = none) :
    Exposed b ack ↔ b.needsFull ∨ b.acked = none ∨ b.baselineIsStale ∨
      b.drifted ack.newest ack.digest := by
  constructor <;> intro hx
  case mp =>
    cases hx
    case owed ho       => exact .inl ho
    case unknown _ ha _   => exact .inr <| .inl ha
    case stale _ hs _ _ _ => exact .inr <| .inr <| .inl hs
    case drift f _ hf hx  =>
      cases ha : b.acked
      case none => exact .inr <| .inl rfl
      case some =>
        cases (firstUnsettled_of_acked ha).symm.trans hf
        exact .inr <| .inr <| .inr <| h.drifted_of_exposes hn hr ha hx
  case mpr =>
    match hx with
    | .inl ho               => exact .owed ho
    | .inr (.inr (.inl hs)) => exact h.exposed_of_stale hp hn hr hs
    | .inr (.inr (.inr hd)) => exact exposed_of_drifted hp hd
    | .inr (.inl ha)        =>
      refine .unknown hp ha fun f hf hc => ?_
      have hb := AckWindow.contiguousBase_eq_some_iff.mpr ⟨hc, rfl⟩
      have hlt := h.run_lt_oldest hn hr (firstUnsettled_of_unknown ha ▸ hf) hb
      have hfb := AckWindow.le_contiguousBase hb
      have hne : b.sent ≠ [] := by
        intro hc
        simp [oldest, hc] at hf
      have ho : some (next - b.sent.length) = some f := (h.oldest_eq hne).symm.trans hf
      simp only [Option.some.injEq] at ho
      omega

theorem baselineIsStale_congr {b' : DeltaBaseline} (ha : b'.acked = b.acked) (hs : b'.sent = b.sent)
    (hh : b'.history = b.history) : b'.baselineIsStale = b.baselineIsStale := by
  simp only [baselineIsStale, ackedSeq, oldest, ha, hs, hh]

theorem drifted_congr {b' : DeltaBaseline} {newest : Nat} {digest : UInt64}
    (ha : b'.acked = b.acked) : b'.drifted newest digest = b.drifted newest digest := by
  simp only [drifted, ha]

theorem observe_acked (hp : b.policy = .ackRecovery) (ack : Ack) :
    (b.observeAck ack.newest ack.mask ack.digest).acked = (b.reached ack.window).or b.acked :=
  observeAck_acked hp

-- The packet which an acknowledgement reaches is no stale baseline.
theorem Remembers.reached_not_stale (h : Remembers truth next b) (hp : b.policy = .ackRecovery)
    (hn : ack.newest < next) (hr : b.reached ack.window = some e) :
    ¬(b.observeAck ack.newest ack.mask ack.digest).baselineIsStale := by
  have ho := h.oldest_eq <| List.ne_nil_of_mem (reached_eq_some hr).left
  have ⟨_, _, _, hl, _⟩ := h.reached_iff hn |>.mp hr
  have ha := observe_acked hp ack
  rw [hr, Option.some_or] at ha
  have ho' : (b.observeAck ack.newest ack.mask ack.digest).oldest = b.oldest := by
    rw [oldest, observeAck_sent, oldest]
  simp only [baselineIsStale, ackedSeq, ha, Option.map_some, ho', ho, Option.any_some]
  simp
  omega

theorem exposed_of_naive (hp : b.policy ≠ .ackRecovery) : Exposed b ack ↔ b.needsFull := by
  constructor <;> intro h
  case mpr => exact .owed h
  case mp =>
    cases h
    case owed hn => exact hn
    all_goals contradiction

theorem Remembers.observe_fullBaseline (h : Remembers truth next b) (hn : ack.newest < next) :
    ((b.observeAck ack.newest ack.mask ack.digest).plan current seq).snd.fullBaseline ↔
      Exposed b ack := by
  by_cases hp : b.policy = .ackRecovery
  case neg => rw [observeAck_naive hp, plan_fullBaseline_naive hp, exposed_of_naive hp]
  case pos =>
    have hp' : (b.observeAck ack.newest ack.mask ack.digest).policy = .ackRecovery := by
      rw [observeAck_policy, hp]
    rw [plan_fullBaseline hp', mustRebuild_iff hp', observeAck_needsFull hp]
    have ha := observe_acked hp ack
    cases hr : b.reached ack.window
    case none =>
      rw [hr, Option.none_or] at ha
      rw [h.exposed_of_not_reached hp hn hr, ha, drifted_congr ha,
        baselineIsStale_congr ha observeAck_sent observeAck_history, Bool.or_eq_true]
      tauto
    case some e =>
      have hs := h.reached_not_stale hp hn hr
      rw [hr, Option.some_or] at ha
      rw [h.exposed_of_reached hp hn hr, ha]
      simp [hs, drifted, ha]

end Exposed

theorem step_server_of_isQuiet (hs : machine.step s e = some s') (hq : e.isQuiet) :
    s'.server = s.server := by
  cases e <;> simp only [machine, Option.some.injEq] at hs
  case lose    => split at hs <;> cases hs; rfl
  case deliver => split at hs <;> cases hs; rfl
  case acknowledge =>
    obtain ⟨_, _, hs⟩ := Option.map_eq_some_iff.mp hs
    exact hs ▸ rfl
  case resync => exact hs ▸ rfl
  all_goals cases hq

theorem steps_server_of_isQuiet (hs : machine.Steps s es s') (hq : ∀ e ∈ es, e.isQuiet) :
    s'.server = s.server := by
  induction hs
  case refl => rfl
  case step he _ hi =>
    rw [List.forall_mem_cons] at hq
    rw [hi hq.right, step_server_of_isQuiet he hq.left]

theorem step_fullBaseline {current : Finset Key} {seq : Nat} (h : ∃ truth, WellFormed truth s)
    (hs : machine.step s e = some s') (hq : ¬e.isQuiet) (hp : ¬e.isPlan) :
    (s'.server.plan current seq).snd.fullBaseline ↔ e.Rebuilds s := by
  obtain ⟨_, h⟩ := h
  cases e <;> simp only [machine, Option.some.injEq] at hs <;>
    simp only [Event.isQuiet, Event.isPlan, not_true_eq_false] at hq hp
  case observe =>
    obtain ⟨ack, ha, hs⟩ := Option.map_eq_some_iff.mp hs
    simp only [Event.Rebuilds, ha, Option.some.injEq, exists_eq_left', ←hs]
    exact h.server.observe_fullBaseline <| h.acks ack (List.mem_of_getElem? ha)
  case request => exact iff_of_true (hs ▸ plan_fullBaseline_of_needsFull rfl) trivial
  case reset   => exact iff_of_true (hs ▸ plan_fullBaseline_of_needsFull rfl) trivial
  case setPolicy p =>
    split at hs <;> cases hs
    case isTrue hp =>
      refine iff_of_true (plan_fullBaseline_of_needsFull ?_) trivial
      simp [setPolicy, hp, DeltaBaseline.reset]

theorem exists_last_server_event (h : ∃ e ∈ es, ¬e.isQuiet) :
    ∃ es₁ e es₂, es = es₁ ++ e :: es₂ ∧ ¬e.isQuiet ∧ ∀ e ∈ es₂, e.isQuiet := by
  induction es
  case nil => simp at h
  case cons e es hi =>
    by_cases hq : ∃ e ∈ es, ¬e.isQuiet
    case pos =>
      have ⟨es₁, e', es₂, he, hq⟩ := hi hq
      exact ⟨e :: es₁, e', es₂, he ▸ rfl, hq⟩
    case neg =>
      simp only [not_exists, not_and, not_not] at hq
      refine ⟨[], e, es, rfl, ?_, hq⟩
      have ⟨e', hm, he⟩ := h
      cases hm
      case head    => exact he
      case tail hm => exact absurd (hq e' hm) he

-- The plan which follows a run of other events is a full baseline exactly when the last event that
-- the server took asks for one.
theorem unplanned_fullBaseline {current : Finset Key} {seq : Nat} (h : ∃ truth, WellFormed truth s)
    (hs : unplanned.Steps s es s') (hq : ∃ e ∈ es, ¬e.isQuiet) :
    (s'.server.plan current seq).snd.fullBaseline ↔ Rebuilds s es := by
  have last {es₁ es₂ s₁} {e : Event} (he : es = es₁ ++ e :: es₂) (h₁ : machine.Steps s es₁ s₁)
      (hq : ¬e.isQuiet) (hq' : ∀ e ∈ es₂, e.isQuiet) :
      (s'.server.plan current seq).snd.fullBaseline ↔ e.Rebuilds s₁ := by
    have ⟨t, ht, h₂⟩ := (he ▸ hs).split
    cases h₁.deterministic ht.of_restrict
    cases h₂
    case step hs h₂ =>
      have ⟨hp, hs⟩ := Machine.restrict_step_iff.mp hs
      rw [steps_server_of_isQuiet h₂.of_restrict hq']
      exact step_fullBaseline (steps_wellFormed h₁ h) hs hq (by simpa using hp)
  constructor <;> intro hf
  case mp =>
    have ⟨es₁, e, es₂, he, hq, hq'⟩ := exists_last_server_event hq
    have ⟨s₁, h₁, _⟩ := (he ▸ hs).split
    exact ⟨es₁, e, es₂, s₁, he, h₁.of_restrict, last he h₁.of_restrict hq hq' |>.mp hf, hq'⟩
  case mpr =>
    have ⟨es₁, e, es₂, s₁, he, h₁, hr, hq'⟩ := hf
    refine last he h₁ ?_ hq' |>.mpr hr
    cases e <;> simp [Event.Rebuilds, Event.isQuiet] at hr ⊢

-- A full baseline rebuilds any mirror.
theorem apply_held_of_fullBaseline {current : Finset Key} {seq : Nat} (c : Subscriber)
    (h : ∃ truth, WellFormed truth s) (hf : (s.server.plan current seq).snd.fullBaseline) :
    (c.apply { seq, current, plan := (s.server.plan current seq).snd }).held = current := by
  have ⟨_, h⟩ := h
  simp only [Subscriber.apply, hf, ↓reduceIte, plan_of_fullBaseline hf]
  exact Delta.full_apply_bot

-- A server that observes an acknowledgement from after a resync rebuilds the subscriber's mirror
-- exactly when the acknowledgements it has seen since the last plan expose the loss.
theorem resync_rebuilds (h : Resynced history first s i)
    (hs : unplanned.Steps s (.observe i :: es) s') (current : Finset Key) :
    ((s'.server.plan current s'.next).snd.fullBaseline ↔ Rebuilds s (.observe i :: es)) ∧
    ((s'.server.plan current s'.next).snd.fullBaseline →
      ∀ p ∈ (s'.plan current).wire.getLast?, ∀ c : Subscriber, (c.apply p).held = current) := by
  have ⟨_, _, _, _, _, h₀, hr, h₁, _⟩ := h.since
  have hw := steps_wellFormed (h₀.trans (.step hr h₁)) start_wellFormed
  refine ⟨unplanned_fullBaseline hw hs ⟨_, List.mem_cons_self .., by simp [Event.isQuiet]⟩, ?_⟩
  intro hf p hp c
  simp only [State.plan, List.getLast?_append, List.getLast?_singleton, Option.some_or,
    Option.mem_def, Option.some.injEq] at hp
  exact hp ▸ apply_held_of_fullBaseline c (steps_wellFormed hs.of_restrict hw) hf

-- With everything before it settled, the loss shows up as a digest which is not the expected one.
theorem resync_rebuilds_settled :
    ∃ s s', Resynced 24 0 s 1 ∧ unplanned.Steps s [.observe 1] s' ∧
      ((s'.server.plan {1} s'.next).snd.fullBaseline ↔ Rebuilds s [.observe 1]) :=
  have h₀ := .step rfl <| .step rfl <| .step rfl <| .step rfl .refl
  have h₁ := .step rfl <| .step rfl <| .step rfl .refl
  have h : Resynced 24 0 _ 1 :=
    ⟨[.plan {1}, .deliver, .acknowledge, .observe 0], _, 0, _,
      [.plan {1}, .deliver, .acknowledge], h₀, rfl, h₁, le_rfl⟩
  have hs := .step rfl .refl
  ⟨_, _, h, hs, (resync_rebuilds h hs {1}).left⟩

-- A packet that was discarded unread stays a gap in front of everything read after it. The frontier
-- does not move past the gap, so the digest is never compared.
theorem resync_unnoticed :
    ¬∀ (history first : Nat) (s : State) (i : Nat) (es : List Event) (s' : State) (current : Finset Key),
      Resynced history first s i → unplanned.Steps s (.observe i :: es) s' →
      (s'.server.plan current s'.next).snd.fullBaseline :=
  fun hc =>
    have h₀ := .step rfl <| .step rfl <| .step rfl <| .step rfl <| .step rfl .refl
    have h₁ := .step rfl <| .step rfl <| .step rfl .refl
    have h : Resynced 24 0 _ 1 :=
      ⟨[.plan {1}, .deliver, .acknowledge, .observe 0, .plan {1}], _, 1, _,
        [.plan {1}, .deliver, .acknowledge], h₀, rfl, h₁, le_rfl⟩
    absurd (hc 24 0 _ 1 [] _ {1} h (.step rfl .refl)) (by decide)

end Plaza.Protocols.Relevance
