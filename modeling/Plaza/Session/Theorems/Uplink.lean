import Mathlib.Algebra.Order.Ring.Rat
import Plaza.Session.Theorems.Conditioner
import Plaza.Session.Theorems.Control
import Plaza.Session.Uplink

namespace Plaza.Session

open Wire

section

variable {M : Type} [ConnectionRecord M] [ProbeCodec] {frame : Frame} {clock : Option Nat} {probe : ProbeState}
variable {record : M} {now : Nat}

-- The gate is not asked about probes, or answers to them.
theorem verdict_of_not_isData (h : frame.isData = false) :
    (handleInbound frame clock probe record now).fst.verdict = none := by
  rcases handleInbound_cases frame clock record now with ⟨hd, _⟩ | ⟨_, inbound, hv, hi⟩ | ⟨_, hi⟩
  case inl     => exact nomatch h.symm.trans hd
  case inr.inl => rw [hi probe, hv]
  case inr.inr =>
    rw [hi probe]
    split <;> rfl

end

namespace Uplink

variable {K : Type} [Field K] [LinearOrder K]

theorem inboundRate_gated {frame : Frame} {c : Connection K} {now : Nat} :
    (gated frame c now).snd.inboundRate = c.inboundRate := by
  have h : (c.recordInboundActivity frame.length now).fst.inboundRate = c.inboundRate := by
    rw [Connection.recordInboundActivity]
    split <;> rfl
  rw [gated]
  dsimp only
  split <;> exact h

theorem inboundRate_handleInbound [ProbeCodec] {frame : Frame} {clock : Option Nat} {probe : ProbeState}
    {c : Connection K} {now : Nat} : (handleInbound frame clock probe c now).snd.snd.inboundRate = c.inboundRate := by
  rcases handleInbound_cases frame clock c now with ⟨_, hi⟩ | ⟨_, inbound, _, hi⟩ | ⟨_, hi⟩ <;> rw [hi probe]
  case inl     => exact inboundRate_gated
  case inr.inr => split <;> rfl

section

variable [ProbeCodec] [JitterScale] {s s' : Uplink K} {e : Event} {es : List Event} {frame : Frame}

structure Invariant (s : Uplink K) : Prop where
  ends  : s.Ends
  still : .left ∈ s.log → s.task.forwards = false ∧ ∀ p ∈ s.up.queue, p.snd.isData = false

omit [ProbeCodec] [JitterScale] in
-- The log may be extended by what is neither forwarded nor judged after the departure was announced.
theorem Ends.snoc (h : s.Ends) (entry : Entry) (hf : ∀ frame, entry = .forwarded frame → .left ∉ s.log)
    (hj : ∀ nowUs verdict, entry = .judged nowUs verdict → .left ∉ s.log) (hc : s'.registeredUs = s.registeredUs)
    (hr : s'.connection.inboundRate = s.connection.inboundRate) (hl : s'.log = s.log ++ [entry]) : s'.Ends := by
  refine ⟨?_, ?_⟩
  case refine_1 =>
    rw [hl, Trace.Each.snoc_iff]
    exact ⟨h.quiet, hf⟩
  case refine_2 =>
    rw [hl, hc, hr, Trace.Each.snoc_iff]
    exact ⟨h.metered, fun nowUs verdict he hm => absurd hm (hj nowUs verdict he)⟩

omit [ProbeCodec] [JitterScale] in
theorem Ends.same (h : s.Ends) (hc : s'.registeredUs = s.registeredUs)
    (hr : s'.connection.inboundRate = s.connection.inboundRate) (hl : s'.log = s.log) : s'.Ends := by
  refine ⟨?_, ?_⟩
  case refine_1 => exact hl ▸ h.quiet
  case refine_2 => rw [hl, hc, hr]; exact h.metered

omit [JitterScale] in
theorem Invariant.route {clock next : Option Nat} {now : Nat} (h : s.Invariant)
    (hd : .left ∈ s.log → frame.isData = false) : (s.route frame clock now next).Invariant := by
  have hr : (s.route frame clock now next).connection.inboundRate = s.connection.inboundRate :=
    inboundRate_handleInbound
  have hl : (s.route frame clock now next).log = s.log ++
      ((handleInbound frame clock s.probe s.connection now).fst.verdict.map (Entry.judged (now / 1000))).toList := rfl
  cases hv : (handleInbound frame clock s.probe s.connection now).fst.verdict <;> rw [hv] at hl
  case none =>
    rw [Option.map_none, Option.toList_none, List.append_nil] at hl
    refine ⟨h.ends.same rfl hr hl, fun hm => ⟨?_, (h.still (hl ▸ hm)).right⟩⟩
    rw [Uplink.route]
    dsimp only
    split
    case h_1 hi => rw [hi] at hv; cases hv
    case h_2    => rfl
    case h_3    => cases next <;> rfl
  case some verdict =>
    rw [Option.map_some, Option.toList_some] at hl
    have hn : .left ∉ s.log := fun hm => by
      have hn : (handleInbound frame clock s.probe s.connection now).fst.verdict = none :=
        verdict_of_not_isData (hd hm)
      cases hv.symm.trans hn
    refine ⟨h.ends.snoc (.judged _ verdict) (fun _ he => nomatch he) (fun _ _ _ => hn) rfl hr hl, fun hm => ?_⟩
    rw [hl] at hm
    cases List.mem_append.mp hm
    case inl hm => exact absurd hm hn
    case inr hm => cases List.mem_singleton.mp hm

-- What was read is judged, or held with the others.
theorem Invariant.read {clock : Option Nat} {now : Nat} (h : s.Invariant)
    (hd : .left ∈ s.log → frame.isData = false) : (s.read frame clock now).Invariant := by
  have hm : Entry.left ∈ s.log ++ [.read frame] → .left ∈ s.log := fun hm =>
    (List.mem_append.mp hm).elim id fun hm => nomatch List.mem_singleton.mp hm
  have hr : Invariant { s with log := s.log ++ [.read frame] } :=
    ⟨h.ends.snoc (.read frame) (fun _ he => nomatch he) (fun _ _ he => nomatch he) rfl rfl rfl,
      fun hl => h.still (hm hl)⟩
  rw [Uplink.read]
  dsimp only
  generalize (if s.link.impaired then s.link.profile.up else {}) = profile
  split
  case isTrue => exact hr.route fun hl => hd (hm hl)
  case isFalse =>
    refine ⟨hr.ends.same rfl ?_ rfl, fun hl => ⟨(hr.still hl).left, fun p hp => ?_⟩⟩
    case refine_1 => dsimp only; split <;> rfl
    case refine_2 =>
      have hq := (hr.still hl).right
      rcases s.up.push_cases frame profile now with
        ⟨_, _, hp'⟩ | ⟨_, _, _, hp'⟩ | ⟨release, _, _, _, hp'⟩ <;> simp only [hp'] at hp
      case inl     => exact hq p hp
      case inr.inl => exact hq p hp
      case inr.inr =>
        cases List.mem_append.mp hp
        case inl hp => exact hq p hp
        case inr hp => exact List.mem_singleton.mp hp ▸ hd (hm hl)

omit [JitterScale] in
theorem Invariant.pop {up : Conditioner} {clock : Option Nat} {now : Nat} (h : s.Invariant)
    (hp : s.up.popReady now = some (frame, up)) :
    (Uplink.route { s with up } frame clock now (some now)).Invariant := by
  obtain ⟨at', rest, hq, _, rfl⟩ := Conditioner.popReady_eq_some hp
  have hi : Invariant { s with up := { s.up with queue := rest } } := by
    refine ⟨h.ends.same rfl rfl rfl, fun hl => ⟨(h.still hl).left, fun p hm => ?_⟩⟩
    exact (h.still hl).right p (hq ▸ List.mem_cons_of_mem _ hm)
  exact hi.route fun hl => (h.still hl).right _ (hq ▸ List.mem_cons_self)

theorem Invariant.step (h : s.Invariant) (hn : s.Silent e) (hs : machine.step s e = some s') : s'.Invariant := by
  cases e
  case read =>
    cases (Option.ite_none_right_eq_some.mp hs).right
    exact h.read hn
  case release =>
    cases (Option.ite_none_right_eq_some.mp hs).right
    exact ⟨h.ends.same rfl rfl rfl, fun hl => ⟨rfl, (h.still hl).right⟩⟩
  case pop clock =>
    simp only [machine] at hs
    split at hs
    case h_2 => cases hs
    case h_1 now _ =>
      split at hs
      case h_1 hp => cases hs; exact h.pop hp
      case h_2    => cases hs; exact ⟨h.ends.same rfl rfl rfl, fun hl => ⟨rfl, (h.still hl).right⟩⟩
  case forward taken =>
    simp only [machine] at hs
    split at hs
    case h_2 => cases hs
    case h_1 frame next ht =>
      have hl : .left ∉ s.log := fun hl => by
        have := (h.still hl).left
        rw [ht] at this
        cases this
      cases hs
      cases taken
      case false => exact ⟨h.ends.same rfl rfl rfl, fun hm => absurd hm hl⟩
      case true =>
        refine ⟨h.ends.snoc (.forwarded frame) (fun _ _ => hl) (fun _ _ he => nomatch he) rfl rfl rfl, fun hm => ?_⟩
        cases List.mem_append.mp hm
        case inl hm => exact absurd hm hl
        case inr hm => cases List.mem_singleton.mp hm
  case probe =>
    cases (Option.ite_none_right_eq_some.mp hs).right
    exact ⟨h.ends.same rfl rfl rfl, h.still⟩
  case forgetInFlight =>
    cases (Option.ite_none_right_eq_some.mp hs).right
    exact ⟨h.ends.same rfl rfl rfl, h.still⟩
  case writeProfile  => cases hs; exact ⟨h.ends.same rfl rfl rfl, h.still⟩
  case storeImpaired => cases hs; exact ⟨h.ends.same rfl rfl rfl, h.still⟩
  case disconnect =>
    cases (Option.ite_none_right_eq_some.mp hs).right
    exact ⟨h.ends.same rfl rfl rfl, h.still⟩
  case announce =>
    cases (Option.ite_none_right_eq_some.mp hs).right
    exact ⟨h.ends.snoc .left (fun _ he => nomatch he) (fun _ _ he => nomatch he) rfl rfl rfl, fun _ => hn⟩
  case stop =>
    cases (Option.ite_none_right_eq_some.mp hs).right
    exact ⟨h.ends.same rfl rfl rfl, fun hl => ⟨rfl, (h.still hl).right⟩⟩

omit [ProbeCodec] [JitterScale] in
theorem Invariant.register {rate : Option (Rate K)} {schedule : Probes} {seed : UInt64} {capacity nowUs : Nat} :
    (register rate schedule seed capacity nowUs).Invariant where
  ends  := ⟨.nil, .nil⟩
  still := nofun

-- A connection that is silent from when its departure is announced has ended by then.
theorem ends_of_silent {rate : Option (Rate K)} {schedule : Probes} {seed : UInt64} {capacity nowUs : Nat}
    (h : (machine.restrict Silent).Steps (register rate schedule seed capacity nowUs) es s) : s.Ends := by
  refine (h.preserves (I := Invariant) (fun hi hs => ?_) .register).ends
  have ⟨hn, hs⟩ := Machine.restrict_step_iff.mp hs
  exact hi.step hn hs

end

-- One frame each second.
def slow : Rate ℚ where
  perSec := 1
  burst  := 1
  over'  := .shed

def sparse : Probes where
  enabled      := true
  slots        := 8
  fastPings    := 4
  fastInterval := 125000000
  idleInterval := 5000000000

theorem ends_of_silent_slow : ∃ (_ : ProbeCodec) (_ : JitterScale) (s : Uplink ℚ), (machine.restrict Silent).Steps
    (register (some slow) sparse 1 64 0)
    [.read [0, 7] none 1000, .forward true, .read [0, 8] none 2000, .disconnect, .announce, .read [3] none 3000, .stop]
    s ∧ s.log = [.read [0, 7], .judged 1 .admitted, .forwarded [0, 7], .read [0, 8], .judged 2 .shed, .left, .read [3]] ∧
    s.Ends := by
  let _ : ProbeCodec := BitCodec.probeCodec
  let _ : JitterScale := { mulF32 := fun jitter draw => jitter * draw / 2 ^ 24 }
  have hr : ((machine.restrict Silent).run (register (some slow) sparse 1 64 0) [.read [0, 7] none 1000,
    .forward true, .read [0, 8] none 2000, .disconnect, .announce, .read [3] none 3000, .stop]).any fun s =>
      s.log = [.read [0, 7], .judged 1 .admitted, .forwarded [0, 7], .read [0, 8], .judged 2 .shed, .left, .read [3]] := by
    decide +kernel
  have ⟨s, hs, hl⟩ := (Option.any_eq_true ..).mp hr
  have hs := Machine.run_eq_some_iff.mp hs
  exact ⟨_, _, s, hs, of_decide_eq_true hl, ends_of_silent hs⟩

-- A client that goes on talking is forwarded after its departure was announced, and at any rate.
theorem forwarded_after_left : ¬∀ (_ : ProbeCodec) (_ : JitterScale) rate schedule seed capacity nowUs es (s : Uplink ℚ),
    machine.Steps (register rate schedule seed capacity nowUs) es s → s.Ends := by
  intro h
  let _ : ProbeCodec := BitCodec.probeCodec
  let _ : JitterScale := { mulF32 := fun jitter draw => jitter * draw / 2 ^ 24 }
  have hr : (machine.run (register (some slow) sparse 1 64 0) [.disconnect, .announce, .read [0, 7] none 1000,
    .forward true]).any fun s =>
      s.log = [.left, .read [0, 7], .judged 1 .admitted, .forwarded [0, 7]] := by decide +kernel
  have ⟨s, hs, hl⟩ := (Option.any_eq_true ..).mp hr
  have hq := (h _ _ (some slow) sparse 1 64 0 _ s (Machine.run_eq_some_iff.mp hs)).quiet
  rw [of_decide_eq_true hl] at hq
  exact hq [.left, .read [0, 7], .judged 1 .admitted] _ [] rfl _ rfl List.mem_cons_self

end Uplink
end Plaza.Session
