import Mathlib.Data.List.Chain
import Plaza.Core.Controller
import Plaza.Session.Registry

namespace Plaza.Core.StateController

variable {Op ID StateType : Type} {c : StateController Op ID StateType} {channel : Channel}
variable {source : Agent ID} {replies : List Op} {effects : List (Effect Op ID StateType)}
variable {app : App Op ID StateType} {input : LogicInput Op ID} {command : ControllerCommand Op ID}
variable {entry : Channel × LogicInput Op ID}

@[simp]
theorem perform_received : (c.perform effects).received = c.received :=
  rfl

@[simp]
theorem sendRefusals_received : (c.sendRefusals source replies).received = c.received := by
  cases source <;> rfl

-- What the guard leaves of an input.
def accepted (app : App Op ID StateType) (c : StateController Op ID StateType) :
    LogicInput Op ID → Option (LogicInput Op ID)
  | .agentOps source ops =>
    if source.isSystem then some (.agentOps source ops)
    else if c.isRefused app source ops then none
    else some (.agentOps source (screenOps app c source ops).fst)
  | input => some input

def delivered (app : App Op ID StateType) (c : StateController Op ID StateType) (channel : Channel)
    (input : LogicInput Op ID) : List (Channel × LogicInput Op ID) :=
  (accepted app c input).toList.map (channel, ·)

theorem delivered_channel (h : entry ∈ delivered app c channel input) : entry.fst = channel :=
  have ⟨_, _, h⟩ := List.mem_map.mp h
  h ▸ rfl

def presenceInput : PresenceEvent ID → LogicInput Op ID
  | .joined agent _ => .agentJoined agent
  | .left agentId _ => .agentLeft agentId

-- The input that a command hands to the logic.
def commandInput : ControllerCommand Op ID → Option (LogicInput Op ID)
  | .submitAgentOps agent ops   => some (.agentOps agent ops)
  | .submitSystemOps ops        => some (.agentOps .system ops)
  | .submitSystemOpsAcked ops _ => some (.agentOps .system ops)
  | .processTimeStep deltaTime  => some (.timeStep deltaTime)
  | .handleAgentJoined agent    => some (.agentJoined agent)
  | .handleAgentLeft agentId    => some (.agentLeft agentId)
  | .queryCurrentState _        => none
  | .sendSnapshots ..           => none
  | .shutdown                   => none

theorem commandInput_channel
    (h : entry ∈ (commandInput command).toList.flatMap (delivered app c .commands)) :
    entry.fst = .commands :=
  have ⟨_, _, h⟩ := List.mem_flatMap.mp h
  delivered_channel h

variable [DecidableEq ID]

@[simp]
theorem processInput_received :
    (c.processInput app channel input).received = c.received ++ [(channel, input)] := by
  simp only [processInput]
  split <;> rfl

@[simp]
theorem handleLogicInput_received (input : LogicInput Op ID) :
    (c.handleLogicInput app channel input).received = c.received ++ delivered app c channel input := by
  cases input
  case agentOps source ops =>
    simp only [handleLogicInput, delivered, accepted]
    split
    case isTrue  => exact processInput_received
    case isFalse => split <;> split <;> simp
  all_goals exact processInput_received

theorem handlePresence_received (event : PresenceEvent ID) :
    (c.handlePresence app event).received = c.received ++ delivered app c .presence (presenceInput event) := by
  cases event <;> exact handleLogicInput_received _

theorem handleCommand_received (command : ControllerCommand Op ID) :
    (c.handleCommand app command).fst.received =
      c.received ++ (commandInput command).toList.flatMap (delivered app c .commands) := by
  cases command <;> simp [handleCommand, commandInput, handleAgentJoinedEvent, handleAgentLeftEvent]

end Plaza.Core.StateController

namespace Plaza.Core

open Plaza.Session

variable {Op ID StateType : Type} [DecidableEq ID]

-- The ops that reach an agent when entries are sent to their targets in order.
def TargetedOp.received (agent : Agent ID) (entries : List (TargetedOp Op ID)) : List Op :=
  entries.flatMap fun entry => if targetMatches entry.target agent then entry.ops else []

-- The ops that reach an agent when the session carries out what a controller asks of it.
def Effect.received (agent : Agent ID) (effects : List (Effect Op ID StateType)) : List Op :=
  effects.flatMap fun
    | .sendMessage target message => if targetMatches target agent then message.ops else []
    | _                           => []

-- Neighbours have different targets.
def TargetedOp.Separated : List (TargetedOp Op ID) → Prop :=
  List.IsChain (·.target ≠ ·.target)

namespace LogicOutput

variable {agent : Agent ID} {kept : TargetedOp Op ID} {ops : List (TargetedOp Op ID)}
variable {output : LogicOutput Op ID}

-- Merging moves the ops of an entry to a neighbour that reaches the same agents.
theorem merge_received :
    TargetedOp.received agent (merge kept ops) = TargetedOp.received agent (kept :: ops) := by
  induction ops generalizing kept
  case nil => rfl
  case cons current ops ih =>
    by_cases h : kept.target = current.target
    case pos =>
      rw [merge, if_pos h, ih]
      by_cases ht : targetMatches current.target agent <;> simp [TargetedOp.received, h, ht]
    case neg =>
      rw [merge, if_neg h]
      exact congrArg (_ ++ ·) ih

-- What is kept keeps its target, so that it is still unlike the entry before.
theorem merge_head : ∃ head tail, merge kept ops = head :: tail ∧ head.target = kept.target := by
  induction ops generalizing kept
  case nil => exact ⟨kept, [], rfl, rfl⟩
  case cons current ops ih =>
    by_cases h : kept.target = current.target
    case pos =>
      rw [merge, if_pos h]
      exact ih
    case neg => exact ⟨kept, merge current ops, by rw [merge, if_neg h], rfl⟩

theorem merge_separated : TargetedOp.Separated (merge kept ops) := by
  induction ops generalizing kept
  case nil => exact .singleton kept
  case cons current ops ih =>
    by_cases h : kept.target = current.target
    case pos =>
      rw [merge, if_pos h]
      exact ih
    case neg =>
      have hm : TargetedOp.Separated (merge current ops) := ih
      obtain ⟨head, tail, he, ht⟩ :
          ∃ head tail, merge current ops = head :: tail ∧ head.target = current.target := merge_head
      rw [merge, if_neg h]
      rw [he] at hm ⊢
      exact .cons_cons (ht ▸ h) hm

theorem merge_of_separated (h : TargetedOp.Separated (kept :: ops)) : merge kept ops = kept :: ops := by
  induction ops generalizing kept
  case nil => rfl
  case cons current ops ih =>
    cases h
    case cons_cons h hs => rw [merge, if_neg h, ih hs]

theorem coalesce_of_separated (h : TargetedOp.Separated output.ops) : output.coalesce = output := by
  obtain ⟨ops, snapshots⟩ := output
  cases ops
  case nil => rfl
  case cons kept ops => exact congrArg (LogicOutput.mk · snapshots) (merge_of_separated h)

theorem coalesce_separated : TargetedOp.Separated output.coalesce.ops := by
  obtain ⟨ops, snapshots⟩ := output
  cases ops
  case nil => exact .nil
  case cons kept ops => exact merge_separated

theorem coalesce_received :
    TargetedOp.received agent output.coalesce.ops = TargetedOp.received agent output.ops := by
  obtain ⟨ops, snapshots⟩ := output
  cases ops
  case nil => rfl
  case cons kept ops => exact merge_received

-- The controller sends the entries that remain, so that agents see the ops in the order of the logic.
theorem dispatch_received (output : LogicOutput Op ID) (agent : Agent ID) :
    Effect.received agent (StateController.dispatch output : List (Effect Op ID StateType)) =
    TargetedOp.received agent output.ops := by
  rw [← coalesce_received]
  simp only [StateController.dispatch, Effect.received, TargetedOp.received, List.flatMap_append,
    List.flatMap_map]
  rw [List.append_right_eq_self, List.flatMap_eq_nil_iff]
  intro request _
  cases request.uniform <;> rfl

theorem coalesce_preserves_delivery (output : LogicOutput Op ID) :
    (∀ agent, TargetedOp.received agent output.coalesce.ops = TargetedOp.received agent output.ops) ∧
    output.coalesce.ops.IsChain (·.target ≠ ·.target) ∧
    output.coalesce.coalesce = output.coalesce :=
  ⟨fun _ => coalesce_received, coalesce_separated, coalesce_of_separated coalesce_separated⟩

end LogicOutput
end Plaza.Core
