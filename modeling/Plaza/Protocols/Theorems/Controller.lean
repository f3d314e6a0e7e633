import Plaza.Lib.Trace
import Plaza.Core.Theorems.Controller
import Plaza.Protocols.Controller

open Plaza.Core StateController

namespace Plaza.Protocols.Controller

variable {Op ID StateType : Type}

-- A batch of ops which an agent has sent through the session.
def IsSessionOps : Channel × LogicInput Op ID → Prop
  | (.ops, .agentOps source _) => source.isSystem = false
  | _                          => False

def Introduces : Channel × LogicInput Op ID → Channel × LogicInput Op ID → Prop
  | (_, .agentJoined agent), (_, .agentOps source _) => agent = source
  | _, _                                             => False

-- The logic is told that an agent joined before it is given ops that the agent has sent.
def JoinsFirst (received : List (Channel × LogicInput Op ID)) : Prop :=
  Trace.Preceded IsSessionOps Introduces received

variable {received l : List (Channel × LogicInput Op ID)} {channel : Channel}

theorem joinsFirst_append (h : ∀ entry ∈ l, entry.fst = channel) (hn : channel ≠ .ops) :
    JoinsFirst (received ++ l) ↔ JoinsFirst received := by
  refine Trace.Preceded.append_of_not fun entry hm hi => hn ?_
  have := h entry hm
  cases entry
  cases channel <;> simp_all [IsSessionOps]

variable [DecidableEq ID] {app : App Op ID StateType} {c : StateController Op ID StateType}
variable {s s' : State Op ID StateType} {e : Event Op ID} {es : List (Event Op ID)} {state : StateType}
variable {channel' : Channel} {agent source : Agent ID} {ops : List Op} {pe ce : Bool}

theorem exists_introduces_iff :
    (∃ entry ∈ received, Introduces entry (channel, .agentOps agent ops)) ↔
      ∃ channel, received.any (isJoinBy channel agent) := by
  simp only [List.any_eq_true]
  constructor
  case mp =>
    intro ⟨(channel, input), hm, hi⟩
    refine ⟨channel, _, hm, ?_⟩
    cases input <;> simp_all [Introduces, isJoinBy]
  case mpr =>
    intro ⟨_, (_, input), hm, hj⟩
    refine ⟨_, hm, ?_⟩
    cases input <;> simp_all [Introduces, isJoinBy]

theorem any_isJoinBy_append (h : ∀ entry ∈ l, entry.fst = channel') (hn : channel' ≠ channel) :
    (received ++ l).any (isJoinBy channel agent) = received.any (isJoinBy channel agent) := by
  rw [List.any_append, Bool.or_eq_left_iff_imp]
  intro ha
  have ⟨(_, input), hm, hj⟩ := List.any_eq_true.mp ha
  have := h _ hm
  cases input <;> simp_all [isJoinBy]

theorem any_isJoinBy_presence (event : PresenceEvent ID) :
    (delivered app c .presence (presenceInput event)).any (isJoinBy .presence agent) = isJoin agent event := by
  cases event <;> simp [delivered, accepted, presenceInput, isJoinBy, isJoin]

theorem any_isJoinBy_agentOps :
    (delivered app c channel' (.agentOps source ops)).any (isJoinBy channel agent) = false := by
  simp only [delivered, accepted]
  split <;> [skip; split] <;> rfl

theorem handleCommand_joins {command : ControllerCommand Op ID} (hn : channel ≠ .commands) (agent : Agent ID) :
    (c.handleCommand app command).fst.received.any (isJoinBy channel agent) =
      c.received.any (isJoinBy channel agent) := by
  rw [handleCommand_received]
  exact any_isJoinBy_append (fun _ => commandInput_channel) hn.symm

theorem handleMessage_joins {message : SessionMessage Op ID} :
    (c.handleMessage app message).received.any (isJoinBy channel agent) =
      c.received.any (isJoinBy channel agent) := by
  rw [handleMessage, handleLogicInput_received, List.any_append, any_isJoinBy_agentOps, Bool.or_false]

def Phase.isPolled : Phase → Bool
  | .commands _ | .ops .. => true
  | _                     => false

-- Every join which was announced has been handed to the logic or waits on the presence channel. What was
-- announced before a pass polled that channel does not wait during the pass.
structure Inv (s : State Op ID StateType) : Prop where
  announced : ∀ agent, s.announced.any (isJoin agent) =
    (s.controller.received.any (isJoinBy .presence agent) || s.presence.items.any (isJoin agent))
  polled    : s.phase.isPolled → ∀ agent,
    s.polled.any (isJoin agent) = s.controller.received.any (isJoinBy .presence agent)
  ops       : ∀ agent, s.controller.received.any (isJoinBy .ops agent) = false

namespace Inv

theorem pollPresence (h : Inv s) (hp : s.phase = .presence) : Inv (s.pollPresence app) := by
  simp only [State.pollPresence]
  split
  case h_2 hi =>
    refine ⟨h.announced, fun _ agent => ?_, h.ops⟩
    simpa [hi] using h.announced agent
  case h_1 event items hi =>
    refine ⟨fun agent => ?_, fun hp' => ?_, fun agent => ?_⟩
    case refine_1 =>
      simp only [handlePresence_received, List.any_append, any_isJoinBy_presence, h.announced agent, hi,
        List.any_cons, Bool.or_assoc]
    case refine_2 =>
      simp only [hp] at hp'
      cases hp'
    case refine_3 =>
      simp only [handlePresence_received]
      exact any_isJoinBy_append (fun _ => delivered_channel) (by decide) |>.trans <| h.ops agent

theorem congr (h : Inv s) (ha : s'.announced = s.announced) (hi : s'.presence.items = s.presence.items)
    (hq : s'.polled = s.polled) (hp : s'.phase.isPolled → s.phase.isPolled)
    (hr : ∀ channel ≠ .commands, ∀ agent, s'.controller.received.any (isJoinBy channel agent) =
      s.controller.received.any (isJoinBy channel agent)) : Inv s' where
  announced agent := by rw [ha, hi, hr _ (by decide), h.announced]
  polled hp' agent := by rw [hq, hr _ (by decide), h.polled (hp hp')]
  ops agent        := by rw [hr _ (by decide), h.ops]

theorem pollCommands (h : Inv s) (hp : s.phase.isPolled) : Inv (s.pollCommands app pe) := by
  simp only [State.pollCommands]
  split
  case h_1 => exact h.congr rfl rfl rfl (fun _ => hp) fun _ => handleCommand_joins
  case h_2 => exact h.congr rfl rfl rfl (fun _ => hp) fun _ _ _ => rfl

theorem pollOps (h : Inv s) (hp : s.phase.isPolled) : Inv (s.pollOps app pe ce) := by
  simp only [State.pollOps]
  split
  case h_1 => exact h.congr rfl rfl rfl (fun _ => hp) fun _ _ _ => handleMessage_joins
  case h_2 => exact h.congr rfl rfl rfl (fun _ => hp) fun _ _ _ => rfl

theorem drain (h : Inv s) : Inv (s.drain app) := by
  simp only [State.drain]
  split
  case h_1 =>
    refine h.congr rfl rfl rfl (fun hp => ?_) fun _ => handleCommand_joins
    simp only at hp
    split at hp <;> cases hp
  case h_2 => exact h.congr rfl rfl rfl nofun fun _ _ _ => rfl

theorem poll (h : Inv s) (hs : s.poll app = some s') : Inv s' := by
  cases hp : s.phase <;> simp only [State.poll, hp, Option.some.injEq] at hs <;> cases hs
  case presence => exact h.pollPresence hp
  case commands => exact h.pollCommands (hp ▸ rfl)
  case ops      => exact h.pollOps (hp ▸ rfl)
  case draining => exact h.drain

theorem announce (h : Inv s) (event : PresenceEvent ID) {presence : Queue (PresenceEvent ID)}
    (hs : s.presence.push? event = some presence) :
    Inv { s with presence, announced := s.announced ++ [event] } where
  announced agent := by
    have hi := Queue.push?_items hs
    simp [hi, h.announced agent, Bool.or_assoc]
  polled := h.polled
  ops    := h.ops

theorem step (h : Inv s) (hs : (machine app).step s e = some s') : Inv s' := by
  cases e <;> simp only [machine] at hs
  case announce event =>
    have ⟨_, hq, hs⟩ := Option.map_eq_some_iff.mp hs
    exact hs ▸ h.announce event hq
  case submit =>
    split at hs
    case isFalse => cases hs
    case isTrue  =>
      have ⟨_, _, hs⟩ := Option.map_eq_some_iff.mp hs
      exact hs ▸ h.congr rfl rfl rfl id fun _ _ _ => rfl
  case command =>
    have ⟨_, _, hs⟩ := Option.map_eq_some_iff.mp hs
    exact hs ▸ h.congr rfl rfl rfl id fun _ _ _ => rfl
  case close channel =>
    cases channel <;> cases hs <;> exact h.congr rfl rfl rfl id fun _ _ _ => rfl
  case poll => exact h.poll hs

theorem start : Inv (.start state : State Op ID StateType) :=
  ⟨fun _ => rfl, nofun, fun _ => rfl⟩

end Inv

theorem controller_eq (hs : (machine app).step s e = some s') (he : e ≠ .poll) :
    s'.controller = s.controller := by
  cases e <;> simp only [machine] at hs
  case announce =>
    have ⟨_, _, hs⟩ := Option.map_eq_some_iff.mp hs
    exact hs ▸ rfl
  case submit =>
    split at hs <;> [skip; cases hs]
    have ⟨_, _, hs⟩ := Option.map_eq_some_iff.mp hs
    exact hs ▸ rfl
  case command =>
    have ⟨_, _, hs⟩ := Option.map_eq_some_iff.mp hs
    exact hs ▸ rfl
  case close channel => cases channel <;> cases hs <;> rfl
  case poll => exact absurd rfl he

-- Only an agent that is known has been introduced during a pass.
theorem Inv.knows_iff (h : Inv s) (hp : s.phase.isPolled) :
    s.knows agent ↔ ∃ channel, s.controller.received.any (isJoinBy channel agent) := by
  rw [State.knows, h.polled hp, Bool.or_eq_true]
  constructor
  case mp =>
    intro hk
    cases hk
    case inl hk => exact ⟨_, hk⟩
    case inr hk => exact ⟨_, hk⟩
  case mpr =>
    intro ⟨channel, hj⟩
    cases channel
    case presence => exact .inl hj
    case commands => exact .inr hj
    case ops      => exact absurd hj <| by simp [h.ops agent]

theorem handleCommand_joinsFirst (command : ControllerCommand Op ID) :
    JoinsFirst (c.handleCommand app command).fst.received ↔ JoinsFirst c.received := by
  rw [handleCommand_received]
  exact joinsFirst_append (fun _ => commandInput_channel) (by decide)

-- A batch that is neither the system's nor refused goes to the logic, so its agent has to be known.
theorem Inv.handleMessage_joinsFirst (h : Inv s) (hp : s.phase.isPolled) (message : SessionMessage Op ID) :
    JoinsFirst (s.controller.handleMessage app message).received ↔ JoinsFirst s.controller.received ∧
      (message.fromAgent.isSystem || s.controller.isRefused app message.fromAgent message.ops ||
        s.knows message.fromAgent) := by
  rw [handleMessage, handleLogicInput_received]
  simp only [delivered, accepted]
  cases hs : message.fromAgent.isSystem
  case true => simp [JoinsFirst, Trace.Preceded.snoc_iff, IsSessionOps, hs]
  case false =>
    cases s.controller.isRefused app message.fromAgent message.ops
    case true  => simp
    case false =>
      simp only [Bool.false_eq_true, if_false, Option.toList_some, List.map_cons, List.map_nil, Bool.false_or]
      rw [h.knows_iff hp, ←exists_introduces_iff]
      exact Trace.Preceded.snoc_iff.trans <| and_congr_right' <| forall_prop_of_true hs

theorem Inv.poll_joinsFirst (h : Inv s) (hs : s.poll app = some s') :
    JoinsFirst s'.controller.received ↔ JoinsFirst s.controller.received ∧ Event.poll.isTimely app s := by
  cases hp : s.phase <;> simp only [State.poll, hp, Option.some.injEq] at hs <;> cases hs
  case ops =>
    simp only [State.pollOps, Event.isTimely, hp]
    split
    case h_1 message items hi =>
      rw [hi]
      exact h.handleMessage_joinsFirst (hp ▸ rfl) message
    case h_2 hi => simp [hi]
  all_goals simp only [Event.isTimely, hp, and_true]
  case presence =>
    simp only [State.pollPresence]
    split
    case h_1 event _ _ =>
      rw [handlePresence_received]
      exact joinsFirst_append (fun _ => delivered_channel) (by decide)
    case h_2 => rfl
  case commands =>
    simp only [State.pollCommands]
    split
    case h_1 command _ _ => exact handleCommand_joinsFirst command
    case h_2             => rfl
  case draining =>
    simp only [State.drain]
    split
    case h_1 command _ _ => exact handleCommand_joinsFirst command
    case h_2             => rfl

theorem Inv.step_joinsFirst (h : Inv s) (hs : (machine app).step s e = some s') :
    JoinsFirst s'.controller.received ↔ JoinsFirst s.controller.received ∧ e.isTimely app s := by
  cases e
  case poll => exact h.poll_joinsFirst hs
  all_goals
    simp only [Event.isTimely, and_true, controller_eq hs nofun]

-- The logic is never given an agent's ops before its join exactly in the runs in which no batch is taken from
-- the ops channel whose agent was not announced when the same pass polled the presence channel.
theorem joinsFirst_iff (h : (machine app).Steps (.start state) es s) :
    JoinsFirst s.controller.received ↔ (timely app).Steps (.start state) es s :=
  h.restrict_iff Inv.step Inv.step_joinsFirst .start |>.trans <| and_iff_right .nil

-- Logic that changes nothing, without a guard.
def silent : App Unit Nat Unit where
  processInput _ _ := ((), none)
  guard _ _ _      := .cleared
  joinContext      := none

theorem joinsFirst_iff_announced :
    ∃ s, (timely silent).Steps (.start ()) [.announce (.joined (.human 0) 0), .submit 0 (.human 0) [()],
      .poll, .poll, .poll, .poll] s ∧ s.controller.received.length = 2 ∧ JoinsFirst s.controller.received :=
  have h : (timely silent).Steps (.start ()) [.announce (.joined (.human 0) 0), .submit 0 (.human 0) [()],
      .poll, .poll, .poll, .poll] _ :=
    .step rfl <| .step rfl <| .step rfl <| .step rfl <| .step rfl <| .step rfl .refl
  ⟨_, h, rfl, (joinsFirst_iff h.of_restrict).mpr h⟩

-- The agent joins and submits after the presence channel was found empty, but before the ops channel is
-- polled.
theorem joinsFirst_raced :
    ¬∀ (app : App Unit Nat Unit) (es : List (Event Unit Nat)) (s : State Unit Nat Unit),
      (machine app).Steps (.start ()) es s → JoinsFirst s.controller.received :=
  fun hc =>
    have h : (machine silent).Steps (.start ()) [.poll, .announce (.joined (.human 0) 0),
        .submit 0 (.human 0) [()], .poll, .poll] _ :=
      .step rfl <| .step rfl <| .step rfl <| .step rfl <| .step rfl .refl
    have ⟨_, hm, _⟩ := hc silent _ _ h [] _ [] rfl rfl
    absurd hm List.not_mem_nil

end Plaza.Protocols.Controller
