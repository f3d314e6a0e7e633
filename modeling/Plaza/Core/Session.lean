import Mathlib.Logic.Basic

namespace Plaza.Core

-- An actor in the system. The system acts on its own behalf and has no id.
inductive Agent (ID : Type)
  | human (id : ID)
  | bot (id : ID)
  | system
  deriving DecidableEq, Repr

namespace Agent

variable {ID : Type}

def id : Agent ID → Option ID
  | human id => id
  | bot id   => id
  | system   => none

def isSystem : Agent ID → Bool
  | system => true
  | _      => false

end Agent

-- The recipients of a message. The order of ids is part of a target.
inductive MessageTarget (ID : Type)
  | all
  | agent (id : ID)
  | agents (ids : List ID)
  | allExcept (id : ID)
  | allExceptThese (ids : List ID)
  deriving DecidableEq, Repr

structure TargetedOp (Op ID : Type) where
  fromAgent : Agent ID
  target    : MessageTarget ID
  ops       : List Op
  deriving DecidableEq, Repr

structure SessionMessage (Op ID : Type) where
  fromAgent : Agent ID
  ops       : List Op
  deriving DecidableEq, Repr

-- An agent arriving or leaving on one of its connections.
inductive PresenceEvent (ID : Type)
  | joined (agent : Agent ID) (connId : Nat)
  | left (agentId : ID) (connId : Nat)
  deriving DecidableEq, Repr

-- Which snapshot is asked for. The application's own contexts are named by a number.
inductive SnapshotContext
  | full
  | deltaFromVersion (version : Nat)
  | forPerspective (name : String)
  | custom (context : Nat)
  deriving DecidableEq, Repr

inductive LogicInput (Op ID : Type)
  | agentOps (source : Agent ID) (ops : List Op)
  | timeStep (deltaTime : Nat)
  | agentJoined (agent : Agent ID)
  | agentLeft (agentId : ID)
  deriving DecidableEq, Repr

structure SnapshotRequest (ID : Type) where
  recipients : List (Agent ID)
  context    : Option SnapshotContext
  uniform    : Bool
  deriving DecidableEq, Repr

-- What processing an input produced.
structure LogicOutput (Op ID : Type) where
  ops       : List (TargetedOp Op ID)
  snapshots : List (SnapshotRequest ID)

namespace LogicOutput

variable {Op ID : Type} [DecidableEq ID]

-- The last entry of a run is kept until an entry with another target follows.
def merge (kept : TargetedOp Op ID) : List (TargetedOp Op ID) → List (TargetedOp Op ID)
  | []             => [kept]
  | current :: ops =>
    if kept.target = current.target then
      merge { kept with ops := kept.ops ++ current.ops } ops
    else
      kept :: merge current ops

-- Only neighbours with the same target are merged, since merging across a gap reorders.
def coalesce (output : LogicOutput Op ID) : LogicOutput Op ID where
  ops := match output.ops with
    | []          => []
    | kept :: ops => merge kept ops
  snapshots := output.snapshots

end LogicOutput
end Plaza.Core
