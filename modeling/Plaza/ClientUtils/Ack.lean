import Mathlib.Order.Bounds.Basic

namespace Plaza.ClientUtils

-- A record of which recent sequence numbers arrived: the newest, plus a bitmask of the `window`
-- before it. Bit `i` of the mask stands for `newest - 1 - i`.
structure AckWindow where
  newest  : Nat
  mask    : BitVec 64
  started : Bool
  deriving DecidableEq, Repr

namespace AckWindow

-- How many sequence numbers behind the newest the mask covers.
def window : Nat := 64

def new : AckWindow where
  newest  := 0
  mask    := 0
  started := false

def fromEncoded (newest : Nat) (mask : BitVec 64) : AckWindow :=
  { newest, mask, started := true }

def encode (w : AckWindow) : Option (Nat × BitVec 64) :=
  if w.started then some (w.newest, w.mask) else none

-- The bit which stands for the sequence number `back` behind the newest.
def bit (back : Nat) : BitVec 64 :=
  1#64 <<< (back - 1)

def observe (w : AckWindow) (seq : Nat) : AckWindow × Bool :=
  if !w.started then
    ({ newest := seq, mask := 0, started := true }, true)
  else if w.newest < seq then
    -- The old newest becomes a set bit, and anything that scrolls past the end is forgotten. At a
    -- shift of exactly `window` every old bit falls out, but the old newest is kept.
    let shift := seq - w.newest
    let shifted := if 64 ≤ shift then 0 else w.mask <<< shift
    ({ w with newest := seq, mask := if shift ≤ window then shifted ||| bit shift else 0 }, true)
  else if seq = w.newest then
    (w, false)
  else
    let back := w.newest - seq
    if window < back then
      (w, false)
    else
      ({ w with mask := w.mask ||| bit back }, w.mask &&& bit back = 0)

def contains (w : AckWindow) (seq : Nat) : Bool :=
  if !w.started || w.newest < seq then false
  else if seq = w.newest then true
  else w.newest - seq ≤ window && w.mask &&& bit (w.newest - seq) ≠ 0

def missingSince (w : AckWindow) (oldest : Nat) : List Nat :=
  let floor := max (w.newest - window) oldest
  let stop  := if w.started then w.newest else 0
  (List.range' floor (stop - floor)).filter fun seq => w.started && !w.contains seq

-- The loop of `contiguousBase`. It stops at the newest, so `newest - base` rounds are enough.
def walk (w : AckWindow) : Nat → Nat → Nat
  | 0,          base => base
  | rounds + 1, base =>
    if base < w.newest && w.contains (base + 1) then w.walk rounds (base + 1) else base

def contiguousBase (w : AckWindow) (first : Nat) : Option Nat :=
  if !w.contains first then none else some <| w.walk (w.newest - first) first

-- The receiver's window after a sequence of arrivals.
def observeAll (seqs : List Nat) : AckWindow :=
  seqs.foldl (fun w seq => (w.observe seq).fst) new

-- What a window has to answer when `seen` is the set of all sequence numbers that ever arrived.
structure Answers (w : AckWindow) (seen : Set Nat) : Prop where
  contains : ∀ s, w.contains s ↔ s ∈ seen ∧ ∃ n, IsGreatest seen n ∧ n - s ≤ window
  observe  : ∀ s, (w.observe s).snd ↔ ¬w.contains s ∧ (w.observe s).fst.contains s
  sorted   : ∀ o, (w.missingSince o).Pairwise (· < ·)
  missing  : ∀ o s, s ∈ w.missingSince o ↔
    ∃ n, IsGreatest seen n ∧ max o (n - window) ≤ s ∧ s < n ∧ s ∉ seen
  base     : ∀ f b, w.contiguousBase f = some b →
    IsGreatest { b | f ≤ b ∧ ∀ s, f ≤ s → s ≤ b → s ∈ seen } b
  noBase   : ∀ f, w.contiguousBase f = none ↔ ¬w.contains f

end AckWindow
end Plaza.ClientUtils
