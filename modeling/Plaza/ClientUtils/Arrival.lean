import Mathlib.Algebra.Order.Field.Basic

namespace Plaza.ClientUtils

-- Smoothed statistics over the arrivals of one stream.
structure ArrivalMonitor (K : Type*) where
  smoothing      : K
  intervalMs     : K
  newestStamp    : Nat
  latenessMeanMs : K
  jitterMs       : K
  latenessSeeded : Bool
  deriving DecidableEq, Repr

namespace ArrivalMonitor

variable {K : Type*} [Field K] [LinearOrder K]

def new (smoothing : K) : ArrivalMonitor K where
  smoothing      := max 0 (min smoothing 1)
  intervalMs     := 0
  newestStamp    := 0
  latenessMeanMs := 0
  jitterMs       := 0
  latenessSeeded := false

-- The interval is measured between stamps, and forward only.
def noteInterval (m : ArrivalMonitor K) (stamp : Nat) : ArrivalMonitor K :=
  let m :=
    if 0 < m.newestStamp ∧ m.newestStamp < stamp then
      let gap : K := (stamp - m.newestStamp : Nat)
      { m with
        intervalMs := if m.intervalMs = 0 then gap else m.intervalMs + (gap - m.intervalMs) * m.smoothing }
    else
      m
  if m.newestStamp < stamp then { m with newestStamp := stamp } else m

def noteLateness (m : ArrivalMonitor K) (lateness : K) : ArrivalMonitor K :=
  if !m.latenessSeeded then
    { m with latenessSeeded := true, latenessMeanMs := lateness }
  else
    let deviation := |lateness - m.latenessMeanMs|
    { m with
      latenessMeanMs := m.latenessMeanMs + (lateness - m.latenessMeanMs) * m.smoothing
      jitterMs       := m.jitterMs + (deviation - m.jitterMs) * m.smoothing }

-- The subtraction saturates.
def observe (m : ArrivalMonitor K) (stamp recv : Nat) : ArrivalMonitor K :=
  let lateness : K := (recv - stamp : Nat)
  (m.noteInterval stamp).noteLateness lateness

def neededDelayMs (m : ArrivalMonitor K) : K :=
  m.latenessMeanMs + m.jitterMs + m.intervalMs

def warmedUp (m : ArrivalMonitor K) : Bool :=
  0 < m.intervalMs

-- A stream of packets, each with its stamp and the time it is received at.
def observeAll (m : ArrivalMonitor K) (arrivals : List (Nat × Nat)) : ArrivalMonitor K :=
  arrivals.foldl (fun m a => m.observe a.fst a.snd) m

end ArrivalMonitor
end Plaza.ClientUtils
