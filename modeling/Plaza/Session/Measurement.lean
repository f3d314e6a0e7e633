import Mathlib.Data.Multiset.AddSub
import Mathlib.Logic.Function.Basic
import Plaza.Lib.Execution
import Plaza.Session.Conditioner
import Plaza.Session.Control

namespace Plaza.Session

-- A write to one of the cells that a change of a link's profile makes.
inductive LinkWrite
  | profile (profile : LinkProfile)
  | impaired (impaired : Bool)
  | generation
  | linkRtt
  | minLinkRtt
  deriving DecidableEq, Repr

namespace LinkWrite

-- The writes of `LinkHandle::set`, in order.
def set (profile : LinkProfile) : List LinkWrite :=
  [.profile profile, .impaired (!profile.isPassthrough), .generation]

def forgetLinkMeasurements : List LinkWrite :=
  [.linkRtt, .minLinkRtt]

def setLinkProfile (profile : LinkProfile) : List LinkWrite :=
  set profile

def setAgentLinkProfile (profile : LinkProfile) : List LinkWrite :=
  set profile ++ forgetLinkMeasurements

def setAllLinkProfiles (profile : LinkProfile) : List LinkWrite :=
  set profile ++ forgetLinkMeasurements

end LinkWrite

-- How many profiles had been written when a probe was launched, and when its answer was matched.
structure Sample where
  launched : Nat
  answered : Nat
  deriving DecidableEq, Repr

-- A reading in microseconds, none if zero, and the samples it was made from.
structure Reading where
  us      : Nat
  samples : List Sample
  deriving DecidableEq, Repr

-- What is left to do of `record_sample`.
inductive Recording
  | count (us : Nat) (sample : Sample)
  | load (us : Nat) (sample : Sample)
  | store (us : Nat) (sample : Sample) (previous : Reading)
  | loadMin (us : Nat) (sample : Sample)
  | storeMin (us : Nat) (sample : Sample)
  deriving DecidableEq, Repr

namespace Measurement

-- Where the connection's task is: ahead of its check of the generation, parked, in one of its arms, or recording
-- a sample in one.
inductive Task
  | top
  | select
  | arm
  | recording (recording : Recording)
  deriving DecidableEq, Repr

inductive Change
  | link
  | agent
  | all
  deriving DecidableEq, Repr

def Change.writes (profile : LinkProfile) : Change → List LinkWrite
  | link  => LinkWrite.setLinkProfile profile
  | agent => LinkWrite.setAgentLinkProfile profile
  | all   => LinkWrite.setAllLinkProfiles profile

end Measurement

-- A connection's link and what was measured of it. `epoch` counts the profiles that were written, `launched` has
-- the epochs of the probes, and `changes` what is left to be written of the changes in progress.
structure Measurement where
  link           : LinkHandle
  linkSamples    : Nat
  linkRtt        : Reading
  minLinkRtt     : Reading
  linkGeneration : Nat
  probe          : ProbeState
  task           : Measurement.Task
  epoch          : Nat
  launched       : Nat → Nat
  changes        : Multiset (List LinkWrite)

namespace Measurement

inductive Event
  | change (kind : Change) (profile : LinkProfile)
  | write (write : LinkWrite) (rest : List LinkWrite)
  | check
  | wake
  | launch (now : Nat)
  | pong (origin now : Nat)
  | record
  | leave

def new (schedule : Probes) : Measurement where
  link           := {}
  linkSamples    := 0
  linkRtt        := ⟨0, []⟩
  minLinkRtt     := ⟨0, []⟩
  linkGeneration := 0
  probe          := .new schedule
  task           := .top
  epoch          := 0
  launched       := fun _ => 0
  changes        := 0

def write (s : Measurement) : LinkWrite → Measurement
  | .profile profile   => { s with link := { s.link with profile }, epoch := s.epoch + 1 }
  | .impaired impaired => { s with link := { s.link with impaired } }
  | .generation        => { s with link := { s.link with generation := s.link.generation + 1 } }
  | .linkRtt           => { s with linkRtt := ⟨0, []⟩ }
  | .minLinkRtt        => { s with minLinkRtt := ⟨0, []⟩ }

-- The next access of `record_sample` to one of its cells. A smoothed value is made from those it was smoothed
-- from as well.
def record (s : Measurement) : Recording → Measurement
  | .count us sample          => { s with linkSamples := s.linkSamples + 1, task := .recording (.load us sample) }
  | .load us sample           => { s with task := .recording (.store us sample s.linkRtt) }
  | .store us sample previous =>
    let linkRtt : Reading :=
      if previous.us = 0 then ⟨us, [sample]⟩
      else ⟨previous.us - previous.us / 8 + us / 8, previous.samples ++ [sample]⟩
    { s with linkRtt, task := .recording (.loadMin us sample) }
  | .loadMin us sample        =>
    if s.minLinkRtt.us = 0 ∨ us < s.minLinkRtt.us then { s with task := .recording (.storeMin us sample) }
    else { s with task := .arm }
  | .storeMin us sample       => { s with minLinkRtt := ⟨us, [sample]⟩, task := .arm }

-- What is left of the changes in progress after one of them has made its next write.
def remaining (changes : Multiset (List LinkWrite)) (write : LinkWrite) (rest : List LinkWrite) :
    Multiset (List LinkWrite) :=
  if rest = [] then changes.erase (write :: rest) else changes.erase (write :: rest) + {rest}

def machine : Machine Measurement Event where
  step s
    | .change kind profile => some { s with changes := s.changes + {kind.writes profile} }
    | .write write rest    =>
      if write :: rest ∈ s.changes then
        some { s.write write with changes := remaining s.changes write rest }
      else
        none
    | .check               =>
      if s.task = .top then
        let probe := if s.link.generation ≠ s.linkGeneration then s.probe.forgetInFlight else s.probe
        some { s with probe, linkGeneration := s.link.generation, task := .select }
      else
        none
    | .wake                => if s.task = .select then some { s with task := .arm } else none
    | .launch now          =>
      if s.task = .arm then
        let probe := s.probe.launch now
        some { s with probe, launched := Function.update s.launched probe.seq s.epoch }
      else
        none
    | .pong origin now     =>
      if s.task = .arm then
        match s.probe.answered origin with
        | some (sent, probe) =>
          let sample := ⟨s.launched origin, s.epoch⟩
          some { s with probe, task := .recording (.count ((now - sent) / 1000) sample) }
        | none => some s
      else
        none
    | .record              =>
      match s.task with
      | .recording recording => some <| s.record recording
      | _                    => none
    | .leave               => if s.task = .arm then some { s with task := .top } else none

-- Launched and answered under the latest profile.
def Current (s : Measurement) (sample : Sample) : Prop :=
  sample.launched = s.epoch ∧ sample.answered = s.epoch

-- If there is a reading, it comes from current samples only.
def Reads (s : Measurement) (reading : Reading) : Prop :=
  reading.us ≠ 0 → ∀ sample ∈ reading.samples, s.Current sample

-- As long as no change is in progress.
structure Fresh (s : Measurement) : Prop where
  linkRtt    : s.changes = 0 → s.Reads s.linkRtt
  minLinkRtt : s.changes = 0 → s.Reads s.minLinkRtt

-- Whether the task is about to store a smoothed value, and whether one that is made from current samples.
def StoresRtt (s : Measurement) : Prop :=
  match s.task with
  | .recording (.count ..) | .recording (.load ..) | .recording (.store ..) => True
  | _                                                                      => False

def SettledRtt (s : Measurement) : Prop :=
  match s.task with
  | .recording (.count _ sample) | .recording (.load _ sample) => s.Current sample
  | .recording (.store _ sample previous)                      => s.Current sample ∧ s.Reads previous
  | _                                                          => True

-- The same for the smallest.
def StoresMin (s : Measurement) : Prop :=
  match s.task with
  | .recording _ => True
  | _            => False

def SettledMin (s : Measurement) : Prop :=
  match s.task with
  | .recording (.count _ sample) | .recording (.load _ sample) | .recording (.store _ sample _)
  | .recording (.loadMin _ sample) | .recording (.storeMin _ sample) => s.Current sample
  | _                                                                => True

-- Some change in progress has still to make the write.
def Awaits (changes : Multiset (List LinkWrite)) (write : LinkWrite) : Prop :=
  ∃ writes ∈ changes, write ∈ writes

-- Readings from before a profile is written, or made from an answer to a probe from before it, will be cleared,
-- and are so after they were stored.
def Covered (s : Measurement) : Event → Prop
  | .write write rest =>
    match write with
    | .profile _  =>
      (s.linkRtt.us ≠ 0 ∨ s.StoresRtt → Awaits (remaining s.changes write rest) .linkRtt) ∧
      (s.minLinkRtt.us ≠ 0 ∨ s.StoresMin → Awaits (remaining s.changes write rest) .minLinkRtt)
    | .linkRtt    => ¬s.SettledRtt → Awaits (remaining s.changes write rest) .linkRtt
    | .minLinkRtt => ¬s.SettledMin → Awaits (remaining s.changes write rest) .minLinkRtt
    | _           => True
  | .pong origin _    =>
    (s.probe.answered origin).isSome → s.launched origin ≠ s.epoch →
      Awaits s.changes .linkRtt ∧ Awaits s.changes .minLinkRtt
  | _                 => True

variable (s : Measurement)

instance (sample : Sample) : Decidable (s.Current sample) :=
  inferInstanceAs <| Decidable (_ ∧ _)

instance (reading : Reading) : Decidable (s.Reads reading) :=
  inferInstanceAs <| Decidable (_ → _)

instance : Decidable s.StoresRtt := by
  unfold StoresRtt
  split <;> infer_instance

instance : Decidable s.SettledRtt := by
  unfold SettledRtt
  split <;> infer_instance

instance : Decidable s.StoresMin := by
  unfold StoresMin
  split <;> infer_instance

instance : Decidable s.SettledMin := by
  unfold SettledMin
  split <;> infer_instance

instance (changes : Multiset (List LinkWrite)) (write : LinkWrite) : Decidable (Awaits changes write) :=
  Multiset.decidableExistsMultiset

instance : (e : Event) → Decidable (s.Covered e)
  | .write (.profile _) _  => inferInstanceAs <| Decidable ((_ → _) ∧ (_ → _))
  | .write .linkRtt _      => inferInstanceAs <| Decidable (_ → _)
  | .write .minLinkRtt _   => inferInstanceAs <| Decidable (_ → _)
  | .write (.impaired _) _ => instDecidableTrue
  | .write .generation _   => instDecidableTrue
  | .pong ..               => inferInstanceAs <| Decidable (_ → _ → _)
  | .change .. | .check | .wake | .launch _ | .record | .leave => instDecidableTrue

end Measurement
end Plaza.Session
