import Plaza.Lib.Execution
import Plaza.Core.Controller

open Plaza.Core

-- A controller's loop and the two parties that feed it: the session, whose connections join and submit
-- ops, and the owner, who sends commands. The loop polls one channel at a time, and the others may enqueue
-- between any two polls.
namespace Plaza.Protocols.Controller

structure Queue (α : Type) where
  items  : List α
  closed : Bool

namespace Queue

variable {α : Type}

def new : Queue α where
  items  := []
  closed := false

def push? (q : Queue α) (item : α) : Option (Queue α) :=
  if q.closed then none else some { q with items := q.items ++ [item] }

theorem push?_items {q q' : Queue α} {item : α} (h : q.push? item = some q') :
    q'.items = q.items ++ [item] := by
  simp only [push?] at h
  split at h <;> cases h
  rfl

end Queue

-- The channel to be polled next. A branch of the select is disabled for the rest of the pass once its
-- channel turns out to be closed.
inductive Phase
  | presence
  | commands (presenceEnabled : Bool)
  | ops (presenceEnabled commandsEnabled : Bool)
  | draining
  | stopped
  deriving DecidableEq, Repr

variable {Op ID StateType : Type}

-- `announced` lists every presence event that the session has sent, and `polled` those that it had sent
-- when the loop last found the presence channel empty.
structure State (Op ID StateType : Type) where
  controller : StateController Op ID StateType
  presence   : Queue (PresenceEvent ID)
  commands   : Queue (ControllerCommand Op ID)
  ops        : Queue (SessionMessage Op ID)
  phase      : Phase
  announced  : List (PresenceEvent ID)
  polled     : List (PresenceEvent ID)

namespace State

def start (initialState : StateType) : State Op ID StateType where
  controller := .new initialState
  presence   := .new
  commands   := .new
  ops        := .new
  phase      := .presence
  announced  := []
  polled     := []

variable [DecidableEq ID]

def pollPresence (app : App Op ID StateType) (s : State Op ID StateType) : State Op ID StateType :=
  match s.presence.items with
  | event :: items =>
    { s with
      controller := s.controller.handlePresence app event
      presence   := { s.presence with items } }
  | [] => { s with phase := .commands !s.presence.closed, polled := s.announced }

def pollCommands (app : App Op ID StateType) (s : State Op ID StateType) (presenceEnabled : Bool) :
    State Op ID StateType :=
  match s.commands.items with
  | command :: items =>
    { s with
      controller := (s.controller.handleCommand app command).fst
      commands   := { s.commands with items }
      phase      := if (s.controller.handleCommand app command).snd then .presence else .draining }
  | [] => { s with phase := .ops presenceEnabled !s.commands.closed }

-- The loop ends once every branch is disabled.
def pollOps (app : App Op ID StateType) (s : State Op ID StateType) (presenceEnabled commandsEnabled : Bool) :
    State Op ID StateType :=
  match s.ops.items with
  | message :: items =>
    { s with
      controller := s.controller.handleMessage app message
      ops        := { s.ops with items }
      phase      := .presence }
  | [] =>
    { s with phase := if presenceEnabled || commandsEnabled || !s.ops.closed then .presence else .stopped }

-- A second shutdown in the queue ends the draining.
def drain (app : App Op ID StateType) (s : State Op ID StateType) : State Op ID StateType :=
  match s.commands.items with
  | command :: items =>
    { s with
      controller := (s.controller.handleCommand app command).fst
      commands   := { s.commands with items }
      phase      := if (s.controller.handleCommand app command).snd then .draining else .stopped }
  | [] => { s with phase := .stopped }

def poll (app : App Op ID StateType) (s : State Op ID StateType) : Option (State Op ID StateType) :=
  match s.phase with
  | .presence                            => some (s.pollPresence app)
  | .commands presenceEnabled            => some (s.pollCommands app presenceEnabled)
  | .ops presenceEnabled commandsEnabled => some (s.pollOps app presenceEnabled commandsEnabled)
  | .draining                            => some (s.drain app)
  | .stopped                             => none

end State

inductive Event (Op ID : Type)
  | announce (event : PresenceEvent ID)
  | submit (connId : Nat) (agent : Agent ID) (ops : List Op)
  | command (command : ControllerCommand Op ID)
  | close (channel : Channel)
  | poll

variable [DecidableEq ID]

-- The session accepts the ops of a connection once it has announced that the connection's agent joined.
def machine (app : App Op ID StateType) : Machine (State Op ID StateType) (Event Op ID) where
  step s
    | .announce event => (s.presence.push? event).map fun presence =>
      { s with presence, announced := s.announced ++ [event] }
    | .submit connId agent ops =>
      if .joined agent connId ∈ s.announced then
        (s.ops.push? { fromAgent := agent, ops }).map ({ s with ops := · })
      else none
    | .command command  => (s.commands.push? command).map ({ s with commands := · })
    | .close .presence  => some { s with presence := { s.presence with closed := true } }
    | .close .commands  => some { s with commands := { s.commands with closed := true } }
    | .close .ops       => some { s with ops := { s.ops with closed := true } }
    | .poll             => s.poll app

def isJoin (agent : Agent ID) : PresenceEvent ID → Bool
  | .joined a _ => a = agent
  | .left ..    => false

def isJoinBy (channel : Channel) (agent : Agent ID) : Channel × LogicInput Op ID → Bool
  | (ch, .agentJoined a) => ch = channel && a = agent
  | _                    => false

-- The agent's join was announced by the time this pass polled the presence channel, or pushed by the owner.
def State.knows (s : State Op ID StateType) (agent : Agent ID) : Bool :=
  s.polled.any (isJoin agent) || s.controller.received.any (isJoinBy .commands agent)

-- If the poll of the ops channel takes a batch for the logic, then the agent that sent it is known.
def Event.isTimely (app : App Op ID StateType) (s : State Op ID StateType) : Event Op ID → Bool
  | .poll => match s.phase, s.ops.items with
    | .ops .., message :: _ =>
      message.fromAgent.isSystem || s.controller.isRefused app message.fromAgent message.ops ||
        s.knows message.fromAgent
    | _, _ => true
  | _ => true

def timely (app : App Op ID StateType) : Machine (State Op ID StateType) (Event Op ID) :=
  (machine app).restrict fun s e => e.isTimely app s

end Plaza.Protocols.Controller
