import Mathlib.Data.Finmap
import Plaza.Core.Session
import Plaza.Lib.Execution

namespace Plaza.Session

open Plaza.Core

-- Whether a target includes an agent. Agents without an id are never a delivery target.
def targetMatches {ID : Type} [DecidableEq ID] (target : MessageTarget ID) (agent : Agent ID) : Bool :=
  match agent.id with
  | none         => false
  | some agentId =>
    match target with
    | .all                => true
    | .agent id           => id = agentId
    | .agents ids         => agentId ∈ ids
    | .allExcept id       => id ≠ agentId
    | .allExceptThese ids => agentId ∉ ids

-- A connection's agent, and whatever else is kept for the connection.
structure ClientHandle (ID State : Type) where
  agent : Agent ID
  state : State
  deriving DecidableEq, Repr

-- Live connections by their ids, and the ids of each agent's connections in the order in which these
-- registered.
structure Registry (ID State : Type) where
  byConn  : Finmap fun _ : Nat => ClientHandle ID State
  byAgent : Finmap fun _ : ID => List Nat

namespace Registry

variable {ID State : Type} [DecidableEq ID]

def new : Registry ID State where
  byConn  := ∅
  byAgent := ∅

def insert (r : Registry ID State) (connId : Nat) (handle : ClientHandle ID State) : Registry ID State where
  byConn  := r.byConn.insert connId handle
  byAgent := match handle.agent.id with
    | some id => r.byAgent.insert id ((r.byAgent.lookup id).getD [] ++ [connId])
    | none    => r.byAgent

-- The index without a connection of the agent. No empty entry is left.
def unindex (r : Registry ID State) (agent : Agent ID) (connId : Nat) : Finmap fun _ : ID => List Nat :=
  match agent.id with
  | none    => r.byAgent
  | some id =>
    match r.byAgent.lookup id with
    | none       => r.byAgent
    | some conns =>
      let conns := conns.filter (· ≠ connId)
      if conns.isEmpty then r.byAgent.erase id else r.byAgent.insert id conns

def remove (r : Registry ID State) (connId : Nat) : Registry ID State × Option (ClientHandle ID State) :=
  match r.byConn.lookup connId with
  | none        => (r, none)
  | some handle => ({ byConn := r.byConn.erase connId, byAgent := r.unindex handle.agent connId }, some handle)

def get (r : Registry ID State) (connId : Nat) : Option (ClientHandle ID State) :=
  r.byConn.lookup connId

-- The connections in no particular order.
def handlesWithIds (r : Registry ID State) : Multiset (Nat × ClientHandle ID State) :=
  r.byConn.entries.map fun e => (e.fst, e.snd)

def forAgent (r : Registry ID State) (id : ID) : List (Nat × ClientHandle ID State) :=
  ((r.byAgent.lookup id).getD []).filterMap fun connId => (r.byConn.lookup connId).map (connId, ·)

-- An id which was passed already is skipped.
def forAgents (r : Registry ID State) (passed : List ID) : List ID → List (Nat × ClientHandle ID State)
  | []        => []
  | id :: ids => (if id ∈ passed then [] else r.forAgent id) ++ r.forAgents (passed ++ [id]) ids

-- The connections which are visited for a target.
def forTarget (r : Registry ID State) (target : MessageTarget ID) : Multiset (Nat × ClientHandle ID State) :=
  match target with
  | .all                => r.handlesWithIds.filter (·.snd.agent.id.isSome)
  | .agent id           => r.forAgent id
  | .agents ids         => r.forAgents [] ids
  | .allExcept id       => r.handlesWithIds.filter (·.snd.agent.id.any (· ≠ id))
  | .allExceptThese ids => r.handlesWithIds.filter (·.snd.agent.id.any (· ∉ ids))

end Registry

-- A registry, and its connections in the order in which they registered.
structure Registration (ID State : Type) where
  registry : Registry ID State
  live     : List (Nat × ClientHandle ID State)

namespace Registration

variable {ID State : Type} [DecidableEq ID]

inductive Event (ID State : Type)
  | insert (connId : Nat) (handle : ClientHandle ID State)
  | remove (connId : Nat)

def new : Registration ID State where
  registry := .new
  live     := []

-- The ids of an agent's connections.
def conns (s : Registration ID State) (id : ID) : List Nat :=
  (s.live.filter (·.snd.agent.id = some id)).map Prod.fst

-- An id is not given to another connection while one has it.
def machine : Machine (Registration ID State) (Event ID State) where
  step s
    | .insert connId handle =>
      if connId ∈ s.live.map Prod.fst then
        none
      else
        some { registry := s.registry.insert connId handle, live := s.live ++ [(connId, handle)] }
    | .remove connId =>
      some { registry := (s.registry.remove connId).fst, live := s.live.filter (·.fst ≠ connId) }

end Registration
end Plaza.Session
