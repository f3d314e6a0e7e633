import Plaza.ClientUtils.Theorems.Timestep
import Plaza.Core.TickDriver

namespace Plaza.Core.TickDriver.Fixed

variable {d d' : Fixed} {step elapsed rounds : Nat} {maxSteps takes : Option Nat} {gaps : List Nat}

theorem not_limited_iff : d.limited = false ↔ ∀ max, d.maxSteps = some max → d.steps < max := by
  cases h : d.maxSteps <;> simp [limited, h]

-- What a send does: the step goes out, or the driver stops.
theorem send_cases (d : Fixed) :
    (∃ takes, d.send = { d with sent := d.sent ++ [d.step], takes } ∧ (d.takes = none → takes = none)) ∨
    d.send = { d with running := false } ∧ d.takes = some 0 := by
  unfold send
  split
  case h_1 h => exact .inr ⟨rfl, h⟩
  case h_2 h => exact .inl ⟨_, rfl, by simp [h]⟩
  case h_3 h => exact .inl ⟨_, by rw [h], fun _ => h⟩

-- What the inner loop does with what is owed. A step which was paid for is lost if the channel had closed.
structure Spent (d d' : Fixed) (rounds : Nat) : Prop where
  config : d'.step = d.step ∧ d'.maxSteps = d.maxSteps
  sent   : ∃ n ≤ rounds, d'.sent = d.sent ++ .replicate n d.step ∧
    d.owed = d'.owed + n * d.step + if d'.running then 0 else d.step
  limit  : ∀ max, d.maxSteps = some max → d.steps ≤ max → d'.steps ≤ max
  left   : d'.running → d.owed ≤ rounds * d.step → d'.owed < d.step ∨ d'.limited
  takes  : d.takes = none → d'.takes = none ∧ d'.running

theorem spent_spend (hs : 0 < d.step) (hr : d.running) : Spent d (spend rounds d) rounds := by
  induction rounds generalizing d
  case zero => exact ⟨⟨rfl, rfl⟩, ⟨0, le_rfl, by simp [spend, hr]⟩, fun _ _ h => h,
    fun _ h => .inl (by simp [spend] at h ⊢; omega), fun h => ⟨h, hr⟩⟩
  case succ rounds ih =>
    rw [spend]
    split
    case isFalse hc =>
      refine ⟨⟨rfl, rfl⟩, ⟨0, Nat.zero_le _, by simp [hr]⟩, fun _ _ h => h, fun _ _ => ?_, fun h => ⟨h, hr⟩⟩
      simp only [hr, and_true, not_and_or, not_le, Bool.not_eq_true'] at hc
      simpa using hc
    case isTrue hc =>
      obtain ⟨ho, hl, -⟩ := hc
      have hl := not_limited_iff.mp (by simpa using hl)
      rcases send_cases { d with owed := d.owed - d.step } with ⟨takes, he, ht⟩ | ⟨he, ht⟩ <;> rw [he]
      case inl =>
        have hi := ih (d := { d with owed := d.owed - d.step, sent := d.sent ++ [d.step], takes }) hs hr
        obtain ⟨n, hn, hsent, howed⟩ := hi.sent
        refine ⟨hi.config, ⟨n + 1, by omega, ?_, ?_⟩, fun max hm hle => hi.limit max hm ?_, fun h hle => ?_,
          fun h => hi.takes (ht h)⟩
        case refine_1 => simpa [List.replicate_succ] using hsent
        case refine_2 =>
          have ho := Nat.sub_add_cancel ho
          rw [Nat.add_mul, Nat.one_mul]
          dsimp only at howed ⊢
          omega
        case refine_3 => simpa [steps] using Nat.succ_le_of_lt (hl max hm)
        case refine_4 => exact hi.left h (by rw [Nat.add_mul] at hle; dsimp only; omega)
      case inr =>
        have hstop : spend rounds { d with owed := d.owed - d.step, running := false } =
            { d with owed := d.owed - d.step, running := false } := by
          cases rounds <;> simp [spend]
        rw [hstop]
        exact ⟨⟨rfl, rfl⟩, ⟨0, Nat.zero_le _, by simp, by simp; omega⟩, fun _ _ h => h, nofun,
          fun h => absurd (h.symm.trans ht) nofun⟩

-- A driver with the time between its wakes, and how much of it was dropped.
structure Ledger where
  driver  : Fixed
  gaps    : List Nat
  dropped : Nat
  deriving DecidableEq

def Ledger.start (step : Nat) (maxSteps takes : Option Nat) : Ledger where
  driver  := .start step maxSteps takes
  gaps    := []
  dropped := 0

def ledger : Machine Ledger Nat where
  step l elapsed := (machine.step l.driver elapsed).map fun driver =>
    { driver
      gaps    := l.gaps ++ [elapsed]
      dropped := l.dropped + (l.driver.owed + elapsed - l.driver.ceiling) }

variable {l l' : Ledger}

structure Ledger.Sound (l : Ledger) (step : Nat) (maxSteps takes : Option Nat) : Prop where
  config : l.driver.step = step ∧ l.driver.maxSteps = maxSteps
  sent   : l.driver.sent = .replicate l.driver.steps step
  time   : l.gaps.sum = l.driver.steps * step + l.driver.owed + l.dropped + if l.driver.running then 0 else step
  wakes  : l.driver.steps ≤ maxStepsPerWake * l.gaps.length
  limit  : ∀ max, maxSteps = some max → l.driver.steps ≤ max
  left   : l.driver.running → l.driver.owed < step ∨ l.driver.limited
  takes  : takes = none → l.driver.takes = none ∧ l.driver.running
  kept   : (∀ gap ∈ l.gaps, gap ≤ (maxStepsPerWake - 1) * step) → l.dropped = 0

namespace Ledger.Sound

theorem start (hs : 0 < step) : (Ledger.start step maxSteps takes).Sound step maxSteps takes where
  config := ⟨rfl, rfl⟩
  sent   := rfl
  time   := by simp [Ledger.start, Fixed.start, steps]
  wakes  := Nat.zero_le _
  limit  := fun _ _ => Nat.zero_le _
  left   := fun _ => .inl hs
  takes  := fun h => ⟨h, rfl⟩
  kept   := fun _ => rfl

theorem next (hs : 0 < step) (h : l.Sound step maxSteps takes) (ht : ledger.step l elapsed = some l') :
    l'.Sound step maxSteps takes := by
  simp only [ledger, machine, Option.map_eq_some_iff, Option.ite_none_right_eq_some, Option.some.injEq] at ht
  obtain ⟨_, ⟨⟨hr, hl⟩, rfl⟩, rfl⟩ := ht
  obtain ⟨⟨rfl, rfl⟩, hsent, htime, hwakes, hlimit, hleft, htakes, hkept⟩ := h
  have hsp : Spent { l.driver with owed := min (l.driver.owed + elapsed) l.driver.ceiling }
      (spend maxStepsPerWake { l.driver with owed := min (l.driver.owed + elapsed) l.driver.ceiling })
      maxStepsPerWake := spent_spend hs hr
  obtain ⟨n, hn, hns, ho⟩ := hsp.sent
  have hsteps : (l.driver.wake elapsed).steps = l.driver.steps + n := by
    rw [steps, wake, hns]
    simp [steps]
  simp only [hr, ↓reduceIte] at htime
  refine ⟨hsp.config, ?sent, ?time, ?wakes, ?limit, ?left, fun h => hsp.takes (htakes h).left, ?kept⟩
  case sent =>
    dsimp only
    rw [hsteps, wake, hns, List.replicate_add]
    exact congrArg (· ++ _) hsent
  case time =>
    dsimp only at ho ⊢
    rw [hsteps, List.sum_append, List.sum_singleton, htime, Nat.add_mul]
    unfold wake
    omega
  case wakes =>
    dsimp only
    rw [hsteps, List.length_append, List.length_singleton, Nat.mul_add]
    omega
  case limit => exact fun max hm => hsp.limit max hm (hlimit max hm)
  case left =>
    refine fun hr => hsp.left hr ?_
    dsimp only [ceiling]
    rw [Nat.mul_comm]
    exact Nat.min_le_right ..
  case kept =>
    intro hg
    have hl : l.driver.limited = false := by simpa using hl
    have hlt := (hleft hr).resolve_right (by simp [hl])
    have hk := hkept fun gap h => hg gap (List.mem_append_left _ h)
    have hg := hg elapsed List.mem_concat_self
    simp only [maxStepsPerWake, ceiling] at hg ⊢
    omega

end Ledger.Sound

-- Without drops, the steps are those that the time is worth, up to the limit.
theorem Ledger.Sound.steps_eq (h : l.Sound step maxSteps takes) (hs : 0 < step) (ht : takes = none)
    (hd : l.dropped = 0) : l.driver.steps = maxSteps.elim id min (l.gaps.sum / step) := by
  have hr := (h.takes ht).right
  have htime : l.gaps.sum = l.driver.steps * step + l.driver.owed := by simpa [hd, hr] using h.time
  have hle : l.driver.steps ≤ l.gaps.sum / step := (Nat.le_div_iff_mul_le hs).mpr (by omega)
  rcases h.left hr with ho | hl
  case inl =>
    have he : l.gaps.sum / step = l.driver.steps :=
      Nat.div_eq_of_lt_le (by omega) (by rw [Nat.add_mul]; omega)
    rw [he]
    cases hm : maxSteps
    case none     => rfl
    case some max => exact (min_eq_right (h.limit max hm)).symm
  case inr =>
    rw [limited, h.config.right] at hl
    cases hm : maxSteps
    case none     => simp [hm] at hl
    case some max =>
      have := h.limit max hm
      have hge : max ≤ l.driver.steps := by simpa [hm] using hl
      simp only [Option.elim]
      omega

-- A client's clock, which cuts the frames of its own host into steps.
section

open ClientUtils ClientUtils.FixedTimestep

variable {t t' : FixedTimestep} {s : ClientUtils.Steps} {o : Rust.Overflow} {frames : List Rust.U64} {ms : Rust.U64}
  {c c' : FixedTimestep.Ledger}

-- A frame that is short enough drops nothing.
theorem advance_short (hm : t.maxSteps = none) (hf : Duration.fromMillis ms ≤ t.maxFrameNanos.toNat)
    (h : t.advance o ms = some (t', s)) : t'.droppedNanos = t.droppedNanos := by
  have he : clamped o t (Rust.U64.saturatingMul ms 1000000) = some t.droppedNanos := by
    rw [clamped, if_neg]
    rw [BitVec.lt_def, Rust.U64.toNat_saturatingMul]
    exact not_lt.mpr ((Nat.min_le_left ..).trans hf)
  -- The five operations that may fail, of which the first and the last decide what is dropped.
  obtain ⟨d, hd, h⟩ := Option.bind_eq_some_iff.mp h
  obtain ⟨_, -, h⟩ := Option.bind_eq_some_iff.mp h
  obtain ⟨_, -, h⟩ := Option.bind_eq_some_iff.mp h
  obtain ⟨_, -, h⟩ := Option.bind_eq_some_iff.mp h
  obtain ⟨⟨u, n⟩, hc, h⟩ := Option.bind_eq_some_iff.mp h
  have hu : u = t' := congrArg Prod.fst (Option.some.inj h)
  simp only [capped, hm, Option.some.injEq, Prod.mk.injEq] at hc
  rw [← hu, ← hc.left]
  exact Option.some.inj (hd.symm.trans he)

-- The steps of a client that has dropped nothing.
structure Plain (c : FixedTimestep.Ledger) (step longest : Nat) : Prop where
  nanos   : c.timestep.stepNanos.toNat = step
  cap     : c.timestep.maxSteps = none
  longest : c.timestep.maxFrameNanos.toNat = longest
  dropped : c.timestep.droppedNanos = 0
  owed    : c.timestep.accumulatedNanos.toNat < step
  items   : ∀ d ∈ c.reported.flatMap Steps.items, d = step

theorem Plain.frame {longest : Nat} (h : Plain c step longest)
    (hs : ((FixedTimestep.Ledger.machine o).restrict FixedTimestep.Ledger.Countable).step c (.advance ms) = some c')
    (hf : Duration.fromMillis ms ≤ longest) (ht : c.total + Duration.fromMillis ms < 2 ^ 64) : Plain c' step longest := by
  obtain ⟨hc, hs⟩ := Machine.restrict_step_iff.mp hs
  simp only [FixedTimestep.Ledger.total] at ht
  obtain ⟨t', s, ha, ht', hst, -, ho, -⟩ := @advance_spec o c.timestep ms (by omega) hc
  simp only [FixedTimestep.Ledger.machine, ha, Option.bind_eq_bind, Option.bind_some, Option.some.injEq] at hs
  subst hs
  have hcfg (f : FixedTimestep → Nat) (hf : ∀ a d, f { c.timestep with accumulatedNanos := a, droppedNanos := d } = f c.timestep) :
      f t' = f c.timestep := by
    rw [ht']
    exact hf ..
  refine ⟨(hcfg (·.stepNanos.toNat) fun _ _ => rfl).trans h.nanos, (congrArg (·.maxSteps) ht').trans h.cap,
    (hcfg (·.maxFrameNanos.toNat) fun _ _ => rfl).trans h.longest,
    (advance_short h.cap (h.longest ▸ hf) ha).trans h.dropped, h.nanos ▸ BitVec.lt_def.mp ho, fun d hd => ?_⟩
  simp only [List.flatMap_append, List.flatMap_singleton, List.mem_append] at hd
  rcases hd with hd | hd
  case inl => exact h.items d hd
  case inr => exact (List.mem_replicate.mp hd).right.trans (hst.trans h.nanos)

theorem Plain.advances {longest : Nat} (h : Plain c step longest)
    (hs : ((FixedTimestep.Ledger.machine o).restrict FixedTimestep.Ledger.Countable).Steps c (frames.map .advance) c')
    (hf : ∀ ms ∈ frames, Duration.fromMillis ms ≤ longest)
    (ht : c.total + (frames.map Duration.fromMillis).sum < 2 ^ 64) :
    Plain c' step longest ∧ c'.total = c.total + (frames.map Duration.fromMillis).sum := by
  induction frames generalizing c
  case nil =>
    cases hs
    exact ⟨h, rfl⟩
  case cons ms frames ih =>
    obtain ⟨hm, hf⟩ := List.forall_mem_cons.mp hf
    rw [List.map_cons] at hs
    rw [List.map_cons, List.sum_cons, ← Nat.add_assoc] at ht ⊢
    cases hs
    case step c₁ h₁ hs =>
      have hk := (FixedTimestep.Ledger.step_spec h₁ (c := .advance ms) (by simp only [Call.elapsed]; omega)).left
      simp only [Call.elapsed] at hk
      rw [← hk] at ht ⊢
      exact ih (h.frame h₁ hm (by omega)) hs hf ht

end

end Plaza.Core.TickDriver.Fixed
