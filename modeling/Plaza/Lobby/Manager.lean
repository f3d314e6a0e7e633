import Mathlib.Data.Finset.Erase
import Mathlib.Data.Finset.Insert
import Mathlib.Data.Finset.Filter
import Mathlib.Data.Multiset.AddSub
import Plaza.Lib.Execution

namespace Plaza.Lobby

inductive LobbyError (RoomId : Type)
  | roomNotFound (roomId : RoomId)
  | joinRoomFailed (reason : String)
  | unsuitableConnection (measuredMs allowedMs : Nat)
  deriving DecidableEq, Repr

structure RoomMetadata where
  currentPlayers : Nat
  maxPlayers     : Nat
  hasPassword    : Bool
  maxOneWayMs    : Option Nat
  deriving DecidableEq, Repr

-- What a room answers when it is asked.
structure RoomHandle where
  metadata     : RoomMetadata
  passwordHash : Option String
  isFinished   : Bool
  deriving DecidableEq, Repr

structure JoinRoomRequestPayload (RoomId : Type) where
  measuredOneWayMs : Option Nat
  roomId           : RoomId
  passwordAttempt  : Option String
  deriving DecidableEq, Repr

abbrev PasswordVerifier := String → String → Bool

-- The lobby's part of a join, between the look-up of the room and the room's own answer.
def RoomHandle.checkJoin {RoomId : Type} (handle : RoomHandle) (verifier : PasswordVerifier)
    (payload : JoinRoomRequestPayload RoomId) : Except (LobbyError RoomId) Unit := do
  let metadata := handle.metadata
  if metadata.hasPassword then
    let some attempt := payload.passwordAttempt | throw (.joinRoomFailed "Password required.")
    let some stored := handle.passwordHash | throw (.joinRoomFailed "Room is private but has no password set.")
    if !verifier attempt stored then
      throw (.joinRoomFailed "Incorrect password.")
  if metadata.currentPlayers ≥ metadata.maxPlayers then
    throw (.joinRoomFailed "Room is full.")
  match metadata.maxOneWayMs, payload.measuredOneWayMs with
  | some allowed, some measured => if measured > allowed then throw (.unsuitableConnection measured allowed)
  | _, _                        => pure ()

namespace Assignment

-- A request in progress, by what it does next. A pass over finished rooms has those which are left.
inductive Task (ID RoomId : Type)
  | check (player : ID) (payload : JoinRoomRequestPayload RoomId)
  | accept (player : ID) (roomId : RoomId)
  | assign (player : ID) (roomId : RoomId)
  | find (player : ID) (roomId : RoomId)
  | notify (player : ID) (roomId : RoomId)
  | reap (finished : Finset RoomId)
  | remove (roomId : RoomId) (finished : Finset RoomId)
  | retain (roomId : RoomId) (finished : Finset RoomId)
  deriving DecidableEq

variable {ID RoomId : Type} [DecidableEq ID] [DecidableEq RoomId]

-- The rooms whose assignments the task will clear.
def Task.reaps : Task ID RoomId → Finset RoomId
  | reap finished                                   => finished
  | remove roomId finished | retain roomId finished => insert roomId finished
  | _                                               => ∅

-- The rooms the task has to do with.
def Task.rooms : Task ID RoomId → Finset RoomId
  | check _ payload                                       => {payload.roomId}
  | accept _ roomId | assign _ roomId                     => {roomId}
  | find _ roomId | notify _ roomId                       => {roomId}
  | reap finished                                         => finished
  | remove roomId finished | retain roomId finished       => insert roomId finished

-- `handles` has every room there ever was, and `rooms` those which the lobby lists. `seated` has the players
-- which a room accepted, and has not been told the departure of since.
structure State (ID RoomId : Type) where
  handles         : RoomId → Option RoomHandle
  rooms           : Finset RoomId
  playerToRoomMap : ID → Option RoomId
  seated          : Finset (ID × RoomId)
  reaped          : Finset RoomId
  tasks           : Multiset (Task ID RoomId)

inductive Event (ID RoomId : Type)
  | create (roomId : RoomId) (handle : RoomHandle)
  | update (roomId : RoomId) (handle : RoomHandle)
  | join (player : ID) (payload : JoinRoomRequestPayload RoomId)
  | check (player : ID) (payload : JoinRoomRequestPayload RoomId)
  | accept (player : ID) (roomId : RoomId) (accepted : Bool)
  | assign (player : ID) (roomId : RoomId)
  | leave (player : ID)
  | find (player : ID) (roomId : RoomId)
  | notify (player : ID) (roomId : RoomId)
  | reap
  | shutdown (roomId : RoomId) (finished : Finset RoomId)
  | remove (roomId : RoomId) (finished : Finset RoomId)
  | retain (roomId : RoomId) (finished : Finset RoomId)
  | reaped

namespace State

omit [DecidableEq ID] [DecidableEq RoomId] in
def start : State ID RoomId where
  handles         := fun _ => none
  rooms           := ∅
  playerToRoomMap := fun _ => none
  seated          := ∅
  reaped          := ∅
  tasks           := 0

-- A request in progress takes its turn, which may be its last.
def turn (s : State ID RoomId) (task : Task ID RoomId) (next : Multiset (Task ID RoomId)) :
    Option (State ID RoomId) :=
  if task ∈ s.tasks then some { s with tasks := s.tasks.erase task + next } else none

end State

-- What happens between two acquisitions of a lock, or while a room is asked.
def machine (verifier : PasswordVerifier) : Machine (State ID RoomId) (Event ID RoomId) where
  step s
    | .create roomId handle          =>
      if (s.handles roomId).isNone then
        some { s with handles := Function.update s.handles roomId handle, rooms := insert roomId s.rooms }
      else
        none
    | .update roomId handle          =>
      if (s.handles roomId).isSome then
        some { s with handles := Function.update s.handles roomId handle }
      else
        none
    | .join player payload           =>
      some <| if payload.roomId ∈ s.rooms then { s with tasks := s.tasks + {.check player payload} } else s
    | .check player payload          => do
      let handle ← s.handles payload.roomId
      s.turn (.check player payload) <|
        if (handle.checkJoin verifier payload).isOk then {.accept player payload.roomId} else 0
    | .accept player roomId accepted =>
      if accepted then
        (s.turn (.accept player roomId) {.assign player roomId}).map fun s =>
          { s with seated := insert (player, roomId) s.seated }
      else
        s.turn (.accept player roomId) 0
    | .assign player roomId          =>
      (s.turn (.assign player roomId) 0).map fun s =>
        { s with playerToRoomMap := Function.update s.playerToRoomMap player roomId }
    | .leave player                  =>
      some <| match s.playerToRoomMap player with
      | some roomId =>
        let playerToRoomMap := Function.update s.playerToRoomMap player none
        { s with playerToRoomMap, tasks := s.tasks + {.find player roomId} }
      | none        => s
    | .find player roomId            =>
      s.turn (.find player roomId) <| if roomId ∈ s.rooms then {.notify player roomId} else 0
    | .notify player roomId          =>
      (s.turn (.notify player roomId) 0).map fun s => { s with seated := s.seated.erase (player, roomId) }
    | .reap                          =>
      let finished := s.rooms.filter fun roomId => (s.handles roomId).any (·.isFinished)
      some { s with tasks := s.tasks + {.reap finished} }
    | .shutdown roomId finished      =>
      if roomId ∈ finished then s.turn (.reap finished) {.remove roomId (finished.erase roomId)} else none
    | .remove roomId finished        =>
      (s.turn (.remove roomId finished) {.retain roomId finished}).map fun s =>
        { s with rooms := s.rooms.erase roomId, reaped := insert roomId s.reaped }
    | .retain roomId finished        =>
      (s.turn (.retain roomId finished) {.reap finished}).map fun s =>
        { s with playerToRoomMap := fun player => (s.playerToRoomMap player).filter (· ≠ roomId) }
    | .reaped                        => s.turn (.reap ∅) 0

namespace State

-- The entries of the map are the players which a listed room accepted and has not been told the departure of.
structure Agrees (s : State ID RoomId) : Prop where
  assigned : ∀ player roomId,
    s.playerToRoomMap player = some roomId ↔ roomId ∈ s.rooms ∧ (player, roomId) ∈ s.seated
  live     : ∀ player roomId, s.playerToRoomMap player = some roomId → roomId ∉ s.reaped

-- Some pass will clear the assignments to the room.
def Reaping (s : State ID RoomId) (roomId : RoomId) : Prop :=
  ∃ task ∈ s.tasks, roomId ∈ task.reaps

-- The player's assignment to the room is still to be written, or the room still to be told the departure.
def Pending (s : State ID RoomId) (player : ID) (roomId : RoomId) : Prop :=
  .assign player roomId ∈ s.tasks ∨ .find player roomId ∈ s.tasks ∨ .notify player roomId ∈ s.tasks

instance (s : State ID RoomId) (roomId : RoomId) : Decidable (s.Reaping roomId) :=
  Multiset.decidableExistsMultiset

instance (s : State ID RoomId) (player : ID) (roomId : RoomId) : Decidable (s.Pending player roomId) :=
  inferInstanceAs <| Decidable (_ ∨ _)

-- An assignment is written for a room whose pass, if any, is not over, and does not hide one to a listed room.
-- A departure is told to a room which has not accepted the player anew.
def Undisturbed (s : State ID RoomId) : Event ID RoomId → Prop
  | .assign player roomId =>
    (∀ roomId' ∈ s.playerToRoomMap player, roomId' ≠ roomId → roomId' ∈ s.rooms → s.Pending player roomId') ∧
      (roomId ∈ s.rooms ∨ s.Reaping roomId)
  | .notify player roomId =>
    roomId ∈ s.rooms → s.playerToRoomMap player ≠ some roomId ∧ .assign player roomId ∉ s.tasks
  | _                     => True

instance (s : State ID RoomId) : (e : Event ID RoomId) → Decidable (s.Undisturbed e)
  | .assign .. => inferInstanceAs <| Decidable (_ ∧ _)
  | .notify .. => inferInstanceAs <| Decidable (_ → _ ∧ _)
  | .create .. | .update .. | .join .. | .check .. | .accept .. | .leave .. | .find .. | .reap | .shutdown ..
  | .remove .. | .retain .. | .reaped => instDecidableTrue

end State
end Assignment
end Plaza.Lobby
