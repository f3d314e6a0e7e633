import Mathlib.Data.Nat.Basic
import Plaza.Lib.Maps

namespace Plaza.ServerUtils

-- How long an op that is not confirmed waits before it is sent again, in milliseconds.
def defaultRetryMs : Nat := 400

-- How many attempts there are before the peer is treated as gone.
def defaultAttempts : Nat := 8

structure Pending.Entry (Op : Type) where
  op       : Op
  dueMs    : Nat
  attempts : Nat
  deriving DecidableEq, Repr

-- Ops sent and not yet confirmed, by who owes the confirmation. No time is so late that adding the wait to it
-- overflows.
structure Pending (K Op : Type) where
  entries  : AList fun _ : K => Pending.Entry Op
  retryMs  : Nat
  attempts : Nat

namespace Pending

variable {K Op : Type} [DecidableEq K]

def withSchedule (retryMs attempts : Nat) : Pending K Op where
  entries  := ∅
  retryMs  := retryMs
  attempts := attempts

def new : Pending K Op := withSchedule defaultRetryMs defaultAttempts

-- Replaces an earlier op for the same key.
def declare (p : Pending K Op) (key : K) (op : Op) (nowMs : Nat) : Pending K Op × Op :=
  ({ p with entries := p.entries.insert key { op, dueMs := nowMs + p.retryMs, attempts := 1 } }, op)

-- What becomes of an entry, and the op if it is to be sent again.
def visit (retryMs attempts nowMs : Nat) (entry : Entry Op) : Option (Entry Op) × Option Op :=
  if nowMs < entry.dueMs then (some entry, none)
  else if entry.attempts ≥ attempts then (none, none)
  else (some { entry with attempts := entry.attempts + 1, dueMs := nowMs + retryMs }, some entry.op)

-- Whatever is due to be sent again, in the order of the map. Nothing is lost on a link which is not lossy.
def due (p : Pending K Op) (nowMs : Nat) (lossy : Bool) : Pending K Op × List (K × Op) :=
  if !lossy then
    ({ p with entries := ∅ }, [])
  else
    ({ p with entries := p.entries.retain fun _ entry => (visit p.retryMs p.attempts nowMs entry).fst },
     p.entries.entries.filterMap fun e => (visit p.retryMs p.attempts nowMs e.snd).snd.map (e.fst, ·))

def confirm (p : Pending K Op) (key : K) : Pending K Op :=
  { p with entries := p.entries.erase key }

def isEmpty (p : Pending K Op) : Bool :=
  p.entries.entries.isEmpty

end Pending
end Plaza.ServerUtils
