import Plaza.Core.Session

namespace Plaza.Core

-- The verdict of a guard on one op. The reply, if any, goes back to the source.
inductive OpClearance (Op : Type)
  | cleared
  | refused (reply : Option Op)
  deriving DecidableEq, Repr

-- The components of an application. An input that could not be applied has no output.
structure App (Op ID StateType : Type) where
  processInput : StateType → LogicInput Op ID → StateType × Option (LogicOutput Op ID)
  guard        : StateType → Agent ID → Op → OpClearance Op
  joinContext  : Option SnapshotContext

-- Callbacks are named by numbers.
inductive ControllerCommand (Op ID : Type)
  | submitAgentOps (agent : Agent ID) (ops : List Op)
  | submitSystemOps (ops : List Op)
  | submitSystemOpsAcked (ops : List Op) (applied : Nat)
  | processTimeStep (deltaTime : Nat)
  | handleAgentJoined (agent : Agent ID)
  | handleAgentLeft (agentId : ID)
  | queryCurrentState (read : Nat)
  | sendSnapshots (recipients : List (Agent ID)) (context : Option SnapshotContext)
  | shutdown

inductive Channel
  | presence
  | commands
  | ops
  deriving DecidableEq, Repr

-- What a controller asks of the session, the snapshot provider and its callers.
inductive Effect (Op ID StateType : Type)
  | sendMessage (target : MessageTarget ID) (message : SessionMessage Op ID)
  | sendSnapshots (recipients : List (Agent ID)) (context : Option SnapshotContext)
  | sendUniformSnapshot (recipients : List (Agent ID)) (context : Option SnapshotContext)
  | fire (applied : Nat)
  | read (read : Nat) (state : StateType)

-- `received` records each input that the logic was given, under the channel that it came by, and `effects`
-- what the controller has asked for.
structure StateController (Op ID StateType : Type) where
  stateData : StateType
  received  : List (Channel × LogicInput Op ID)
  effects   : List (Effect Op ID StateType)

namespace StateController

variable {Op ID StateType : Type} [DecidableEq ID]

def new (initialState : StateType) : StateController Op ID StateType where
  stateData := initialState
  received  := []
  effects   := []

def perform (c : StateController Op ID StateType) (effects : List (Effect Op ID StateType)) :
    StateController Op ID StateType :=
  { c with effects := c.effects ++ effects }

-- The ops that the guard lets through, and its replies for the others.
def screenOps (app : App Op ID StateType) (c : StateController Op ID StateType) (source : Agent ID)
    (ops : List Op) : List Op × List Op where
  fst := ops.filter fun op => match app.guard c.stateData source op with
    | .cleared   => true
    | .refused _ => false
  snd := ops.flatMap fun op => match app.guard c.stateData source op with
    | .cleared       => []
    | .refused reply => reply.toList

def sendRefusals (c : StateController Op ID StateType) (source : Agent ID) (replies : List Op) :
    StateController Op ID StateType :=
  match source.id with
  | none    => c
  | some id => c.perform [.sendMessage (.agent id) { fromAgent := .system, ops := replies }]

-- The ops of an output go out before its snapshots.
def dispatch (output : LogicOutput Op ID) : List (Effect Op ID StateType) :=
  (output.coalesce.ops.map fun op =>
    .sendMessage op.target { fromAgent := op.fromAgent, ops := op.ops }) ++
  output.snapshots.map fun request =>
    if request.uniform then .sendUniformSnapshot request.recipients request.context
    else .sendSnapshots request.recipients request.context

def processInput (app : App Op ID StateType) (c : StateController Op ID StateType) (channel : Channel)
    (input : LogicInput Op ID) : StateController Op ID StateType :=
  let (stateData, output) := app.processInput c.stateData input
  let c := { c with stateData, received := c.received ++ [(channel, input)] }
  match output with
  | none        => c
  | some output => c.perform (dispatch output)

-- A batch of which the guard leaves nothing is not delivered at all.
def isRefused (app : App Op ID StateType) (c : StateController Op ID StateType) (source : Agent ID)
    (ops : List Op) : Bool :=
  (screenOps app c source ops).fst.isEmpty && !ops.isEmpty

-- Everything that an agent submits is screened, while the system is trusted.
def handleLogicInput (app : App Op ID StateType) (c : StateController Op ID StateType) (channel : Channel) :
    LogicInput Op ID → StateController Op ID StateType
  | .agentOps source ops =>
    if source.isSystem then c.processInput app channel (.agentOps source ops)
    else
      let (cleared, replies) := screenOps app c source ops
      let c' := if replies.isEmpty then c else c.sendRefusals source replies
      if c.isRefused app source ops then c' else c'.processInput app channel (.agentOps source cleared)
  | input => c.processInput app channel input

def handleAgentJoinedEvent (app : App Op ID StateType) (c : StateController Op ID StateType)
    (channel : Channel) (agent : Agent ID) : StateController Op ID StateType :=
  c.handleLogicInput app channel (.agentJoined agent) |>.perform [.sendSnapshots [agent] app.joinContext]

def handleAgentLeftEvent (app : App Op ID StateType) (c : StateController Op ID StateType)
    (channel : Channel) (agentId : ID) : StateController Op ID StateType :=
  c.handleLogicInput app channel (.agentLeft agentId)

def handlePresence (app : App Op ID StateType) (c : StateController Op ID StateType) :
    PresenceEvent ID → StateController Op ID StateType
  | .joined agent _ => c.handleAgentJoinedEvent app .presence agent
  | .left agentId _ => c.handleAgentLeftEvent app .presence agentId

-- The flag tells whether the loop should keep running.
def handleCommand (app : App Op ID StateType) (c : StateController Op ID StateType) :
    ControllerCommand Op ID → StateController Op ID StateType × Bool
  | .submitAgentOps agent ops         => (c.handleLogicInput app .commands (.agentOps agent ops), true)
  | .submitSystemOps ops              => (c.handleLogicInput app .commands (.agentOps .system ops), true)
  | .submitSystemOpsAcked ops applied =>
    (c.handleLogicInput app .commands (.agentOps .system ops) |>.perform [.fire applied], true)
  | .processTimeStep deltaTime        => (c.handleLogicInput app .commands (.timeStep deltaTime), true)
  | .handleAgentJoined agent          => (c.handleAgentJoinedEvent app .commands agent, true)
  | .handleAgentLeft agentId          => (c.handleAgentLeftEvent app .commands agentId, true)
  | .sendSnapshots recipients context => (c.perform [.sendSnapshots recipients context], true)
  | .queryCurrentState read           => (c.perform [.read read c.stateData], true)
  | .shutdown                         => (c, false)

def handleMessage (app : App Op ID StateType) (c : StateController Op ID StateType)
    (message : SessionMessage Op ID) : StateController Op ID StateType :=
  c.handleLogicInput app .ops (.agentOps message.fromAgent message.ops)

end StateController
end Plaza.Core
