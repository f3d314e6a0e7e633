import Plaza.ClientUtils.NetSim
import Plaza.Lib.Dart

namespace Plaza.Flutter

open Dart (Word)

structure Rng where
  state : Word
  deriving DecidableEq, Repr

namespace Rng

def new (seed : Word) : Rng where
  state := seed ||| 1

def nextU64 (r : Rng) : Rng × Word :=
  let x := r.state
  let x := x ^^^ (x <<< 13)
  let x := x ^^^ (x >>> 7)
  let x := x ^^^ (x <<< 17)
  ({ state := x }, x)

-- A double holds the quotient exactly, too.
def unit (r : Rng) : Rng × ℚ :=
  let (r, x) := r.nextU64
  (r, (x >>> 40).toInt / 16777216)

-- 2^63 modulo `m`, accumulated by doubling: the loop of `unsignedMod`, with the rounds it has left.
def doubled (m : Word) : Nat → Word → Word
  | 0,          p => p
  | rounds + 1, p => doubled m rounds ((p * 2).mod m)

-- `x` as an unsigned word, modulo `m`. A word with the top bit set is `2^63 + r`.
def unsignedMod (x m : Word) : Word :=
  if Word.le 0 x then
    x.mod m
  else
    let r := x &&& 0x7FFFFFFFFFFFFFFF
    let p := doubled m 63 1
    (p + r.mod m).mod m

def upTo (r : Rng) (n : Word) : Rng × Word :=
  if n.le 0 then
    (r, 0)
  else
    let (r, x) := r.nextU64
    (r, unsignedMod x (n + 1))

end Rng

-- The lists which `mergeSortByDeliveryTime` works on.
structure Sorting (α : Type) where
  items  : List (Word × α)
  buffer : List (Word × α)

namespace Sorting

variable {α : Type}

-- Writes what is left of two runs of the buffer, from `i` up to `mid` and from `j` up to `hi`, to the items from `k`
-- up. There is an entry for each of the rounds.
def merge (buffer : List (Word × α)) (mid hi : Nat) :
    Nat → Nat → Nat → Nat → List (Word × α) → Option (List (Word × α))
  | 0,          _, _, _, items => some items
  | rounds + 1, i, j, k, items => do
    let first ←
      if i < mid then
        if hi ≤ j then some true else do some ((← buffer[i]?).fst.le (← buffer[j]?).fst)
      else
        some false
    if first then
      merge buffer mid hi rounds (i + 1) j (k + 1) (items.set k (← buffer[i]?))
    else
      merge buffer mid hi rounds i (j + 1) (k + 1) (items.set k (← buffer[j]?))

def setRange (buffer : List (Word × α)) (lo hi : Nat) (items : List (Word × α)) : List (Word × α) :=
  buffer.take lo ++ (items.drop lo).take (hi - lo) ++ buffer.drop hi

def sort (lo hi : Nat) (s : Sorting α) : Option (Sorting α) :=
  if hi - lo < 2 then
    some s
  else do
    let mid := lo + (hi - lo) / 2
    let s ← sort lo mid s
    let s ← sort mid hi s
    let buffer := setRange s.buffer lo hi s.items
    let items ← merge buffer mid hi (hi - lo) lo mid lo s.items
    some { items, buffer }
termination_by hi - lo

end Sorting

-- A stable sort by delivery time, which that of the standard library is not.
def mergeSortByDeliveryTime {α : Type} (items : List (Word × α)) : Option (List (Word × α)) :=
  if items.length < 2 then
    some items
  else
    (Sorting.sort 0 items.length { items, buffer := items }).map Sorting.items

inductive PacketOrdering
  | ordered
  | unordered
  deriving DecidableEq, Repr

-- One direction of a simulated wire.
structure LatencyLink (α : Type) where
  queue         : List (Word × α)
  ordering      : PacketOrdering
  lastDeliverMs : Word
  deriving DecidableEq, Repr

namespace LatencyLink

variable {α : Type}

def new (ordering : PacketOrdering) : LatencyLink α where
  queue         := []
  ordering      := ordering
  lastDeliverMs := 0

-- Whether the wire loses the next packet. A double holds the product exactly.
def loses (lossPct : ℚ) (rng : Rng) : Rng × Bool :=
  if 0 < lossPct then
    let (rng, unit) := rng.unit
    (rng, unit * 100 < lossPct)
  else
    (rng, false)

def send (l : LatencyLink α) (nowMs : Word) (packet : α) (latencyMs jitterMs : Word) (lossPct : ℚ) (rng : Rng) :
    LatencyLink α × Rng :=
  let (rng, lost) := loses lossPct rng
  if lost then
    (l, rng)
  else
    let (rng, jitter) := rng.upTo jitterMs
    let deliverAt := nowMs + latencyMs + jitter
    let deliverAt := if l.ordering = .ordered ∧ deliverAt.lt l.lastDeliverMs then l.lastDeliverMs else deliverAt
    ({ l with queue := l.queue ++ [(deliverAt, packet)], lastDeliverMs := deliverAt }, rng)

def drainDue (l : LatencyLink α) (nowMs : Word) : Option (LatencyLink α × List α) := do
  let due  := l.queue.filter (·.fst.le nowMs)
  let kept := l.queue.filter (¬·.fst.le nowMs)
  let due ← mergeSortByDeliveryTime due
  some ({ l with queue := kept }, due.map Prod.snd)

end LatencyLink
end Plaza.Flutter

namespace Plaza

-- The modulus of a bounded draw has to fit in 62 bits.
def Draw.Supported : Draw → Prop
  | .upTo n => n.toNat < 2 ^ 62
  | _       => True

def Flutter.Rng.object : Object Rng Draw (Option Drawn) where
  call r
    | .word   => r.nextU64.map id (some <| .word <| .ofBitVec ·)
    | .unit   => r.unit.map id (some <| .unit ·)
    | .upTo n => r.upTo n.toBitVec |>.map id (some <| .word <| .ofBitVec ·)

def Flutter.LatencyLink.object {α : Type} :
    Object (LatencyLink α × Rng) (ClientUtils.LatencyLink.Op α) (Option (List α)) where
  call s
    | .send nowMs packet latencyMs jitterMs lossPct =>
      (s.fst.send (.ofNat 64 nowMs) packet (.ofNat 64 latencyMs) jitterMs.toBitVec lossPct.val s.snd, some [])
    | .drain nowMs =>
      match s.fst.drainDue (.ofNat 64 nowMs) with
      | some (l, due) => ((l, s.snd), some due)
      | none          => (s, none)

end Plaza
