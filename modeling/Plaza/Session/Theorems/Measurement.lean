import Plaza.Session.Measurement

namespace Plaza.Session.Measurement

variable {s s' : Measurement} {e : Event} {es : List Event} {changes : Multiset (List LinkWrite)}
variable {w w' : LinkWrite} {rest writes : List LinkWrite} {sample : Sample} {previous : Reading} {us : Nat}

theorem Awaits.add (h : Awaits changes w) : Awaits (changes + {writes}) w :=
  have ⟨ws, hm, hw⟩ := h
  ⟨ws, Multiset.mem_add.mpr (.inl hm), hw⟩

-- A change that makes its next write has still to make the others.
theorem Awaits.remaining (h : Awaits changes w') (hn : w' ≠ w) :
    Awaits (remaining changes w rest) w' := by
  have ⟨ws, hm, hw⟩ := h
  rw [Measurement.remaining]
  by_cases he : ws = w :: rest
  case pos =>
    have hr := (List.mem_cons.mp (he ▸ hw)).resolve_left hn
    rw [if_neg (List.ne_nil_of_mem hr)]
    exact ⟨rest, Multiset.mem_add.mpr (.inr (Multiset.mem_singleton_self _)), hr⟩
  case neg =>
    have hm := (Multiset.mem_erase_of_ne he).mpr hm
    split
    case isTrue  => exact ⟨ws, hm, hw⟩
    case isFalse => exact ⟨ws, Multiset.mem_add.mpr (.inl hm), hw⟩

theorem not_awaits_zero : ¬Awaits 0 w :=
  fun ⟨_, hm, _⟩ => Multiset.notMem_zero _ hm

theorem reads_zero : s.Reads ⟨0, []⟩ :=
  fun h => absurd rfl h

theorem reads_singleton (h : s.Current sample) : s.Reads ⟨us, [sample]⟩ :=
  fun _ _ hm => List.mem_singleton.mp hm ▸ h

theorem reads_smoothed (hc : s.Current sample) (hr : s.Reads previous) :
    s.Reads (if previous.us = 0 then ⟨us, [sample]⟩
      else ⟨previous.us - previous.us / 8 + us / 8, previous.samples ++ [sample]⟩) := by
  split
  case isTrue    => exact reads_singleton hc
  case isFalse h =>
    intro _ x hx
    cases List.mem_append.mp hx
    case inl hx => exact hr h x hx
    case inr hx => exact List.mem_singleton.mp hx ▸ hc

-- What a reading should not come from will be cleared, or will be after it is stored.
structure Invariant (s : Measurement) : Prop where
  linkRtt    : ¬s.Reads s.linkRtt ∨ ¬s.SettledRtt → Awaits s.changes .linkRtt
  minLinkRtt : ¬s.Reads s.minLinkRtt ∨ ¬s.SettledMin → Awaits s.changes .minLinkRtt

theorem Invariant.fresh (h : s.Invariant) : s.Fresh where
  linkRtt hc    := Decidable.not_not.mp fun hn => not_awaits_zero (hc ▸ h.linkRtt (.inl hn))
  minLinkRtt hc := Decidable.not_not.mp fun hn => not_awaits_zero (hc ▸ h.minLinkRtt (.inl hn))

theorem Invariant.new {schedule : Probes} : (new schedule).Invariant where
  linkRtt h    := absurd h <| not_or.mpr ⟨not_not.mpr reads_zero, not_not.mpr trivial⟩
  minLinkRtt h := absurd h <| not_or.mpr ⟨not_not.mpr reads_zero, not_not.mpr trivial⟩

-- The task does something else than to record a sample.
theorem Invariant.same (h : s.Invariant) (he : s'.epoch = s.epoch) (hl : s'.linkRtt = s.linkRtt)
    (hm : s'.minLinkRtt = s.minLinkRtt) (hcl : Awaits s.changes .linkRtt → Awaits s'.changes .linkRtt)
    (hcm : Awaits s.changes .minLinkRtt → Awaits s'.changes .minLinkRtt)
    (ht : s'.task = s.task ∨ s'.SettledRtt ∧ s'.SettledMin) : s'.Invariant := by
  have hr reading : s'.Reads reading ↔ s.Reads reading := by
    simp only [Reads, Current, he]
  have hs : (s'.SettledRtt ↔ s.SettledRtt) ∧ (s'.SettledMin ↔ s.SettledMin) ∨ s'.SettledRtt ∧ s'.SettledMin := by
    refine ht.imp_left fun ht => ?_
    simp only [SettledRtt, SettledMin, Reads, Current, ht, he, and_self]
  refine ⟨fun hn => hcl (h.linkRtt ?_), fun hn => hcm (h.minLinkRtt ?_)⟩
  case refine_1 =>
    rw [hl, hr] at hn
    exact hn.imp_right fun hn => hs.elim (·.left.not.mp hn) fun hs => absurd hs.left hn
  case refine_2 =>
    rw [hm, hr] at hn
    exact hn.imp_right fun hn => hs.elim (·.right.not.mp hn) fun hs => absurd hs.right hn

theorem Invariant.record {recording : Recording} (h : s.Invariant) (ht : s.task = .recording recording) :
    (s.record recording).Invariant := by
  have ⟨hl, hm⟩ := h
  cases recording <;> simp only [SettledRtt, SettledMin, ht] at hl hm
  case count => exact ⟨hl, hm⟩
  case load  =>
    refine ⟨fun hn => hl ?_, hm⟩
    exact hn.elim .inl fun hn => (not_and_or.mp hn).symm
  case store us sample previous =>
    refine ⟨fun hn => hl (.inr fun hs => ?_), hm⟩
    exact hn.elim (· (reads_smoothed hs.left hs.right)) (· trivial)
  case loadMin us sample =>
    rw [Measurement.record]
    split
    case isTrue  => exact ⟨hl, hm⟩
    case isFalse => exact ⟨hl, fun hn => hm (.inl (hn.resolve_right fun hn => hn trivial))⟩
  case storeMin us sample =>
    refine ⟨hl, fun hn => hm (.inr fun hs => ?_)⟩
    exact hn.elim (· (reads_singleton hs)) (· trivial)

theorem Invariant.pong {probe : ProbeState} (h : s.Invariant)
    (hc : ¬s.Current sample → Awaits s.changes .linkRtt ∧ Awaits s.changes .minLinkRtt) :
    Invariant { s with probe, task := .recording (.count us sample) } where
  linkRtt hn    := hn.elim (fun hn => h.linkRtt (.inl hn)) fun hn => (hc hn).left
  minLinkRtt hn := hn.elim (fun hn => h.minLinkRtt (.inl hn)) fun hn => (hc hn).right

theorem storesRtt_of_not_settledRtt (h : ¬s.SettledRtt) (ht : s'.task = s.task) : s'.StoresRtt := by
  rw [StoresRtt, ht]
  rw [SettledRtt] at h
  cases hs : s.task <;> rw [hs] at h
  case recording recording =>
    cases recording
    case count | load | store => trivial
    case loadMin | storeMin   => exact h trivial
  all_goals exact absurd trivial h

theorem storesMin_of_not_settledMin (h : ¬s.SettledMin) (ht : s'.task = s.task) : s'.StoresMin := by
  rw [StoresMin, ht]
  rw [SettledMin] at h
  cases hs : s.task <;> rw [hs] at h
  case recording => trivial
  all_goals exact absurd trivial h

theorem us_ne_zero_of_not_reads {reading : Reading} (h : ¬s.Reads reading) : reading.us ≠ 0 :=
  fun hz => h fun hn => absurd hz hn

theorem Invariant.write (h : s.Invariant) (hc : s.Covered (.write w rest)) :
    Invariant { s.write w with changes := remaining s.changes w rest } := by
  cases w
  case profile =>
    -- Nothing that is measured goes without being cleared when another profile is written.
    refine ⟨fun hn => hc.left ?_, fun hn => hc.right ?_⟩
    case refine_1 =>
      cases hn
      case inl hn => exact .inl (us_ne_zero_of_not_reads hn)
      case inr hn => exact .inr (storesRtt_of_not_settledRtt hn rfl)
    case refine_2 =>
      cases hn
      case inl hn => exact .inl (us_ne_zero_of_not_reads hn)
      case inr hn => exact .inr (storesMin_of_not_settledMin hn rfl)
  case impaired   => exact h.same rfl rfl rfl (·.remaining nofun) (·.remaining nofun) (.inl rfl)
  case generation => exact h.same rfl rfl rfl (·.remaining nofun) (·.remaining nofun) (.inl rfl)
  case linkRtt    =>
    exact ⟨fun hn => hc (hn.resolve_left fun hn => hn reads_zero), fun hn => (h.minLinkRtt hn).remaining nofun⟩
  case minLinkRtt =>
    exact ⟨fun hn => (h.linkRtt hn).remaining nofun, fun hn => hc (hn.resolve_left fun hn => hn reads_zero)⟩

theorem Invariant.step (h : s.Invariant) (hc : s.Covered e) (he : machine.step s e = some s') : s'.Invariant := by
  cases e <;> simp only [machine, Option.ite_none_right_eq_some, Option.some.injEq] at he
  case change => exact he ▸ h.same rfl rfl rfl .add .add (.inl rfl)
  case write  =>
    obtain ⟨_, he⟩ := he
    exact he ▸ h.write hc
  case check | wake | leave =>
    obtain ⟨_, he⟩ := he
    exact he ▸ h.same rfl rfl rfl id id (.inr ⟨trivial, trivial⟩)
  case launch =>
    obtain ⟨_, he⟩ := he
    exact he ▸ h.same rfl rfl rfl id id (.inl rfl)
  case pong origin now =>
    obtain ⟨_, he⟩ := he
    cases ha : s.probe.answered origin <;> rw [ha] at he <;> cases he
    case none => exact h
    case some => exact h.pong fun hn => hc (ha ▸ rfl) fun he => hn ⟨he, rfl⟩
  case record =>
    cases ht : s.task <;> rw [ht] at he <;> cases he
    case recording => exact h.record ht

-- In every execution in which what a change leaves stale is cleared after it, and no sooner than it is stored.
theorem fresh_of_covered {schedule : Probes} (h : (machine.restrict Covered).Steps (new schedule) es s) :
    s.Fresh := by
  refine Invariant.fresh <| h.preserves (I := Invariant) (fun hi he => ?_) .new
  have ⟨hc, he⟩ := Machine.restrict_step_iff.mp he
  exact hi.step hc he

def steady : Probes where
  enabled      := true
  slots        := 8
  fastPings    := 4
  fastInterval := 125000000
  idleInterval := 5000000000

-- One way takes three milliseconds.
def distant : LinkProfile where
  down := { delay := 3000000 }

-- A change of an agent's profile, and a probe in flight after it.
theorem fresh_of_covered_distant : ∃ s, (machine.restrict Covered).Steps (new steady)
    [.check, .wake, .launch 0, .pong 1 8000, .record, .record, .record, .record, .record, .change .agent distant,
      .write (.profile distant) [.impaired true, .generation, .linkRtt, .minLinkRtt],
      .write (.impaired true) [.generation, .linkRtt, .minLinkRtt], .write .generation [.linkRtt, .minLinkRtt],
      .write .linkRtt [.minLinkRtt], .write .minLinkRtt [], .leave, .check, .wake, .launch 9000, .pong 2 3009000,
      .record, .record, .record, .record, .record] s ∧
    (s.linkRtt, s.minLinkRtt) = (⟨3000, [⟨1, 1⟩]⟩, ⟨3000, [⟨1, 1⟩]⟩) ∧ s.Fresh := by
  have hr : ((machine.restrict Covered).run (new steady)
      [.check, .wake, .launch 0, .pong 1 8000, .record, .record, .record, .record, .record, .change .agent distant,
        .write (.profile distant) [.impaired true, .generation, .linkRtt, .minLinkRtt],
        .write (.impaired true) [.generation, .linkRtt, .minLinkRtt], .write .generation [.linkRtt, .minLinkRtt],
        .write .linkRtt [.minLinkRtt], .write .minLinkRtt [], .leave, .check, .wake, .launch 9000, .pong 2 3009000,
        .record, .record, .record, .record, .record]).any fun s =>
      (s.linkRtt, s.minLinkRtt) = (⟨3000, [⟨1, 1⟩]⟩, ⟨3000, [⟨1, 1⟩]⟩) := by
    decide +kernel
  have ⟨s, hs, hl⟩ := (Option.any_eq_true ..).mp hr
  have hs := Machine.run_eq_some_iff.mp hs
  exact ⟨s, hs, of_decide_eq_true hl, fresh_of_covered hs⟩

-- The profile of a link is set, and what was measured of it before stays.
theorem stale_after_set : ¬∀ schedule es s, machine.Steps (new schedule) es s → s.Fresh := by
  intro h
  have hr : (machine.run (new steady)
      [.check, .wake, .launch 0, .pong 1 8000, .record, .record, .record, .record, .record, .leave,
        .change .link distant, .write (.profile distant) [.impaired true, .generation],
        .write (.impaired true) [.generation], .write .generation [], .check]).any fun s =>
      s.changes = 0 ∧ s.epoch = 1 ∧ s.minLinkRtt = ⟨8, [⟨0, 0⟩]⟩ := by
    decide +kernel
  have ⟨s, hs, hl⟩ := (Option.any_eq_true ..).mp hr
  have ⟨hc, he, hm⟩ := of_decide_eq_true hl
  have hf := (h steady _ s (Machine.run_eq_some_iff.mp hs)).minLinkRtt hc
  rw [hm] at hf
  have hl := (hf (by decide) ⟨0, 0⟩ (List.mem_singleton_self _)).left
  exact absurd (hl.trans he) (by decide)

end Plaza.Session.Measurement
