import Plaza.Core.Turns
import Plaza.Lib.Execution

open Plaza.Core

-- A roster whose turns are counted by someone at the table.
namespace Plaza.Protocols.Turns

-- An actor takes a new seat whenever he is added.
structure Entry (α : Type) where
  seat  : Nat
  actor : α
  deriving DecidableEq, Repr

instance {α : Type} [BEq α] : BEq (Entry α) where
  beq a b := a.actor == b.actor

-- The seats that were given a turn, in this order, and those that were on the roster all the time.
structure Pass where
  turns  : List Nat
  stayed : List Nat
  deriving DecidableEq, Repr

-- The pass under way, those that were reported to be closed, and how often the order started over without a report.
structure Table (Op ID α : Type) where
  manager    : RoundRobinTurnManager Op ID (Entry α)
  taken      : Nat
  pass       : Pass
  passes     : List Pass
  unreported : Nat

inductive Event (α : Type)
  | begin
  | add (actor : α)
  | remove (actor : α)
  | advance

variable {Op ID α : Type}

def roster (m : RoundRobinTurnManager Op ID (Entry α)) : List Nat :=
  m.actors.map (·.seat)

def onTurn (m : RoundRobinTurnManager Op ID (Entry α)) : Option Nat :=
  m.currentTurnActor.map (·.seat)

namespace Table

def start (actors : List α) (notice : TurnChangedNoticePayload (Entry α) → Op) : Table Op ID α where
  manager    := .new (actors.zipIdx.map fun (actor, seat) => { seat, actor }) notice
  taken      := actors.length
  pass       := { turns := [], stayed := [] }
  passes     := []
  unreported := 0

def opens (s : Table Op ID α) (m : RoundRobinTurnManager Op ID (Entry α)) : Table Op ID α :=
  { s with manager := m, pass := { turns := (onTurn m).toList, stayed := roster m } }

def closes (s : Table Op ID α) (m : RoundRobinTurnManager Op ID (Entry α)) : Table Op ID α :=
  { s with passes := s.passes ++ [s.pass] }.opens m

-- Who has left has not stayed.
def drops (s : Table Op ID α) (m : RoundRobinTurnManager Op ID (Entry α)) : Table Op ID α :=
  { s with pass.stayed := s.pass.stayed.filter (· ∈ roster m) }

-- The turn goes on inside the pass. The order starts over if it goes to one who does not play later.
def hands (s : Table Op ID α) (m : RoundRobinTurnManager Op ID (Entry α)) : Table Op ID α :=
  match onTurn s.manager, onTurn m with
  | some seat, some next =>
    let order := roster s.manager
    { s with
      manager    := m
      pass.turns := s.pass.turns ++ [next]
      unreported := if order.idxOf next ≤ order.idxOf seat then s.unreported + 1 else s.unreported }
  | _, _ => { s with manager := m }

end Table

def machine [BEq α] : Machine (Table Op ID α) (Event α) where
  step s
    | .begin =>
      let m := s.manager.begin.fst
      if (onTurn s.manager).isSome then some { s with manager := m } else some (s.opens m)
    | .add actor =>
      some { s with manager := s.manager.addActor { seat := s.taken, actor }, taken := s.taken + 1 }
    | .remove actor =>
      let m := (s.manager.removeActor { seat := s.taken, actor }).fst
      let s := s.drops m
      if onTurn m = onTurn s.manager then some { s with manager := m } else some (s.hands m)
    | .advance =>
      let (m, _, advanced) := s.manager.endCurrentTurnAndAdvance
      match advanced with
      | .error _             => some { s with manager := m }
      | .ok (.next _)        => some (s.hands m)
      | .ok (.passClosed _)  => some (s.closes m)

-- Everyone who stayed for a whole pass had one turn in it, and no order started over without a report.
def Table.Accounted (s : Table Op ID α) : Prop :=
  (∀ pass ∈ s.passes, ∀ seat ∈ pass.stayed, pass.turns.count seat = 1) ∧ s.unreported = 0

-- The actor on turn leaves from the end of the order, and is not the only one.
def LeavesLast [BEq α] (m : RoundRobinTurnManager Op ID α) (actor : α) : Prop :=
  1 < m.actors.length ∧ m.current = some (m.actors.length - 1) ∧
    m.actors.findIdx? (· == actor) = some (m.actors.length - 1)

instance [BEq α] {m : RoundRobinTurnManager Op ID α} {actor : α} : Decidable (LeavesLast m actor) :=
  inferInstanceAs (Decidable (_ ∧ _))

def Keeps [BEq α] (s : Table Op ID α) : Event α → Prop
  | .remove actor => ¬LeavesLast s.manager { seat := s.taken, actor }
  | _             => True

instance [BEq α] (s : Table Op ID α) (e : Event α) : Decidable (Keeps s e) := by
  cases e <;> unfold Keeps <;> infer_instance

end Plaza.Protocols.Turns
