import Plaza.Session.Tcp
import Plaza.Session.Theorems.Conditioner
import Plaza.Session.Theorems.Control

namespace Plaza.Session

open Wire

namespace Inbound

-- What the peer is owed for a frame, what the controller gets of it, and whether it ends the connection.
def owed : Inbound → List Frame
  | reply frame => [frame]
  | _           => []

def forwarded : Inbound → List Frame
  | forward frame => [frame]
  | _             => []

def ejects : Inbound → Bool
  | eject => true
  | _     => false

end Inbound

theorem TcpConnection.send_probe {M : Type} [ConnectionRecord M] [JitterScale] {c : TcpConnection M} {frame : Frame}
    {now : Nat} : (c.send frame now).probe = c.probe := by
  simp only [TcpConnection.send]
  split <;> rfl

namespace Loops

variable {M : Type} {d d' : LinkDriver M} {c : TcpConnection M} {written : List (Nat × Frame)}
variable {forwarded owed frames : List Frame} {ended direct probes : Bool} {frame : Frame} {inbound : Inbound}
variable {up : Conditioner} {now : Nat}

-- A TCP connection is where the driver is, and wrote and forwarded the same. The driver may have older probes in
-- flight.
inductive Mirrors (d : LinkDriver M) (written : List (Nat × Frame)) (forwarded : List Frame) (ended : Bool) :
    TcpConnection M → Prop
  | mk {probe : ProbeState} {linkGeneration : Nat} : d.probe.Covers probe → Mirrors d written forwarded ended {
      manager        := d.manager
      clock          := d.clock
      link           := d.link
      up             := d.up
      down           := d.down
      probe
      linkGeneration
      nextProbe      := d.nextProbe
      written
      forwarded
      ended }

theorem Mirrors.top (h : Mirrors d written forwarded ended c) : Mirrors d written forwarded ended c.top := by
  cases h
  case mk hp =>
    rw [TcpConnection.top]
    split
    case isTrue  => exact .mk hp.forgetInFlight
    case isFalse => exact .mk hp

theorem Mirrors.fields (h : Mirrors d written forwarded ended c) :
    c.up = d.up ∧ c.down = d.down ∧ c.nextProbe = d.nextProbe ∧ c.ended = ended := by
  cases h
  exact ⟨rfl, rfl, rfl, rfl⟩

theorem Mirrors.covers (h : Mirrors d written forwarded ended c) : d.probe.Covers c.probe := by
  cases h
  case mk hp => exact hp

theorem Mirrors.probed {p q : ProbeState} (h : Mirrors d written forwarded ended c) (hp : p.Covers q)
    (nextProbe : Option Nat) :
    Mirrors { d with probe := p, nextProbe } written forwarded ended { c with probe := q, nextProbe } := by
  cases h
  exact .mk hp

theorem Mirrors.pending (h : Mirrors d written forwarded ended c) (pendingInbound : List Frame) (ejected : Bool) :
    Mirrors { d with pendingInbound, ejected } written forwarded ended c := by
  cases h
  case mk hp => exact .mk hp

theorem Mirrors.store (h : Mirrors d written forwarded ended c) (link : LinkHandle) :
    Mirrors { d with link } written forwarded ended { c with link } := by
  cases h
  exact .mk ‹_›

section

variable [ConnectionRecord M] [ProbeCodec] [JitterScale]

omit [ProbeCodec] in
-- A frame that the link does not hold is written at once.
theorem Mirrors.send (h : Mirrors d written forwarded ended c) (hd : !d.link.impaired && d.down.isEmpty) :
    Mirrors d (written ++ [(now, frame)]) forwarded ended (c.send frame now) := by
  cases h
  case mk hp =>
    rw [TcpConnection.send, queueDown]
    dsimp only
    rw [if_pos hd]
    exact .mk hp

omit [ProbeCodec] in
theorem Mirrors.outbound (h : Mirrors d written forwarded ended c) :
    Mirrors (d.outbound frame now).snd (written ++ (d.outbound frame now).fst.toList.map (now, ·)) forwarded ended
      (c.send frame now) := by
  by_cases hd : !d.link.impaired && d.down.isEmpty
  case pos =>
    rw [LinkDriver.outbound, if_pos hd]
    exact h.send hd
  case neg =>
    cases h
    case mk hp =>
      simp only [LinkDriver.outbound, TcpConnection.send, queueDown, if_neg hd, Option.toList_none, List.map_nil,
        List.append_nil]
      cases (d.down.push frame d.link.profile.down now).snd
      case false => exact .mk hp
      case true  => exact .mk hp

omit [JitterScale] in
theorem route_cases (d : LinkDriver M) (frame : Frame) (now : Nat) :
    ∃ inbound probe manager, d.route frame now = (inbound, { d with probe, manager }) :=
  ⟨_, _, _, rfl⟩

-- A frame that is routed alike.
theorem Mirrors.route (h : Mirrors d written forwarded false c) (hr : d.route frame now = (inbound, d'))
    (hd : direct = true → !d.link.impaired && d.down.isEmpty)
    (ha : AlikeUp direct probes (d.clock.map (· now)) now (frame :: frames) d.probe c.probe d.manager) :
    Mirrors d' (written ++ inbound.owed.map (now, ·)) (forwarded ++ inbound.forwarded) inbound.ejects
      (c.route frame now) ∧
    if inbound.ejects then frames = [] ∧ probes = false
    else AlikeUp direct probes (d.clock.map (· now)) now frames d'.probe (c.route frame now).probe d'.manager := by
  cases h
  case mk hp =>
    rw [AlikeUp] at ha
    obtain ⟨inbound, p', q', manager', hd', hq', hp'⟩ :=
      handleInbound_covers hp ha.left (d.clock.map (· now)) d.manager now
    have ha := ha.right
    rw [hd', hq'] at ha
    rw [LinkDriver.route, hd'] at hr
    cases hr
    simp only [TcpConnection.route, TcpConnection.routeInbound, hq']
    cases inbound <;> simp only [Inbound.routed, Inbound.owed, Inbound.forwarded, Inbound.ejects, List.map_cons,
      List.map_nil, List.append_nil, Bool.false_eq_true, if_false, if_true]
    case reply =>
      rw [TcpConnection.send_probe]
      exact ⟨Mirrors.send (.mk hp') (hd ha.left), ha.right⟩
    all_goals exact ⟨.mk hp', ha⟩

omit [JitterScale] in
theorem driver_releaseUp_left (h : d.up.popReady now = none) :
    (LinkDriver.releaseUp now).body (d, owed) = none := by
  simp only [LinkDriver.releaseUp, h, Option.map_none]

omit [JitterScale] in
theorem driver_releaseUp_round (h : d.up.popReady now = some (frame, up))
    (hr : { d with up }.route frame now = (inbound, d')) :
    (LinkDriver.releaseUp now).body (d, owed) = some ({ d' with
      pendingInbound := d'.pendingInbound ++ inbound.forwarded
      ejected        := d'.ejected || inbound.ejects }, owed ++ inbound.owed) := by
  simp only [LinkDriver.releaseUp, h, Option.map_some, hr]
  cases inbound <;>
    simp only [Inbound.owed, Inbound.forwarded, Inbound.ejects, List.append_nil, Bool.or_false, Bool.or_true]

theorem tcp_releaseUp_left (h : c.ended = true ∨ c.up.popReady now = none) :
    (TcpConnection.releaseUp now).body c = none := by
  cases h
  case inl h => simp only [TcpConnection.releaseUp, h, if_true]
  case inr h => simp only [TcpConnection.releaseUp, h, Option.map_none, ite_self]

theorem tcp_releaseUp_round (he : c.ended = false) (h : c.up.popReady now = some (frame, up)) :
    (TcpConnection.releaseUp now).body c = some ({ c with up }.route frame now) := by
  simp only [TcpConnection.releaseUp, h, he, Option.map_some, Bool.false_eq_true, if_false]

-- Up to a frame that ends the connection, the loops over the frames which the up direction releases go together.
theorem Mirrors.releaseUp (rounds : Nat)
    (h : Mirrors d (written ++ owed.map (now, ·)) (forwarded ++ d.pendingInbound) d.ejected c)
    (he : d.ejected = false) (hd : direct = true → !d.link.impaired && d.down.isEmpty)
    (ha : AlikeUp direct probes (d.clock.map (· now)) now (d.up.ready now) d.probe c.probe d.manager) :
    ∃ d' owed', (LinkDriver.releaseUp now).run rounds (d, owed) = (d', owed') ∧
      Mirrors d' (written ++ owed'.map (now, ·)) (forwarded ++ d'.pendingInbound) d'.ejected
        ((TcpConnection.releaseUp now).run rounds c) ∧
      d'.link = d.link ∧ d'.down = d.down ∧ d'.nextProbe = d.nextProbe ∧ (d'.ejected = true → probes = false) := by
  induction rounds generalizing d owed c
  case zero => exact ⟨_, _, rfl, h, rfl, rfl, rfl, fun h => nomatch he.symm.trans h⟩
  case succ rounds ih =>
    obtain ⟨hcu, _, _, hce⟩ := h.fields
    cases hp : d.up.popReady now
    case none =>
      rw [Loop.run_of_left (driver_releaseUp_left hp), Loop.run_of_left (tcp_releaseUp_left (.inr (hcu ▸ hp)))]
      exact ⟨_, _, rfl, h, rfl, rfl, rfl, fun h => nomatch he.symm.trans h⟩
    case some r =>
      obtain ⟨frame, up⟩ := r
      obtain ⟨inbound, probe, manager, hr⟩ := route_cases { d with up } frame now
      have hu : Mirrors { d with up } (written ++ owed.map (now, ·)) (forwarded ++ d.pendingInbound) false
          { c with up } := by
        cases h
        case mk => rw [he]; exact .mk ‹_›
      rw [d.up.ready_of_popReady_some hp] at ha
      obtain ⟨hm, ha⟩ := hu.route hr hd ha
      rw [Loop.run, Loop.run, driver_releaseUp_round hp hr, tcp_releaseUp_round (hce.trans he) (hcu ▸ hp)]
      dsimp only
      rw [he, Bool.false_or]
      rw [List.append_assoc, ← List.map_append, List.append_assoc] at hm
      replace hm := hm.pending (d.pendingInbound ++ inbound.forwarded) inbound.ejects
      cases hj : inbound.ejects <;> rw [hj] at hm ha
      case false => exact ih hm rfl hd ha
      case true  =>
        have hn := up.popReady_of_ready_nil ha.left
        obtain ⟨_, _, _, hce⟩ := hm.fields
        rw [Loop.run_of_left (driver_releaseUp_left hn), Loop.run_of_left (tcp_releaseUp_left (.inl hce))]
        exact ⟨_, _, rfl, hm, rfl, rfl, rfl, fun _ => ha.right⟩

-- What an adapter has released, the TCP connection has.
theorem Mirrors.release (h : Mirrors d written forwarded false c) (hp : d.pendingInbound = [])
    (he : d.ejected = false) (hd : direct = true → !d.link.impaired && (d.down.popAllReady now).fst.isEmpty)
    (ha : AlikeUp direct probes (d.clock.map (· now)) now (d.up.ready now) d.probe c.probe d.manager) :
    ∃ d' owed', (LinkDriver.releaseUp now).run d.up.queue.length
        ({ d with down := (d.down.popAllReady now).fst }, (d.down.popAllReady now).snd) = (d', owed') ∧
      Mirrors d' (written ++ owed'.map (now, ·)) (forwarded ++ d'.pendingInbound) d'.ejected (c.release now) ∧
      d'.link = d.link ∧ d'.down = (d.down.popAllReady now).fst ∧ d'.nextProbe = d.nextProbe ∧
      (d'.ejected = true → probes = false) := by
  have ⟨hu, hdn, _, hc⟩ := h.fields
  by_cases hn : (earliest d.up.nextRelease d.down.nextRelease).any (· ≤ now)
  case pos =>
    have hm : Mirrors { d with down := (d.down.popAllReady now).fst }
        (written ++ (d.down.popAllReady now).snd.map (now, ·)) (forwarded ++ d.pendingInbound) d.ejected
        { c with
          down    := (c.down.popAllReady now).fst
          written := c.written ++ (c.down.popAllReady now).snd.map (now, ·) } := by
      cases h
      case mk => rw [he, hp, List.append_nil]; exact .mk ‹_›
    have ⟨d', owed', hr, hm, hf⟩ := hm.releaseUp d.up.queue.length he hd ha
    rw [TcpConnection.release, if_pos (by rw [TcpConnection.nextRelease, hu, hdn, hc]; exact hn)]
    exact ⟨d', owed', hr, hu ▸ hm.top, hf⟩
  case neg =>
    have ⟨hnu, hnd⟩ := Bool.or_eq_false_iff.mp <| (earliest_any_le ..).symm.trans (eq_false_of_ne_true hn)
    rw [TcpConnection.release, if_neg (by rw [TcpConnection.nextRelease, hu, hdn, hc]; exact hn)]
    have hnu := d.up.popReady_of_nextRelease hnu
    have hnd := d.down.popReady_of_nextRelease hnd
    rw [d.down.popAllReady_of_popReady_none hnd, Loop.run_of_left (driver_releaseUp_left hnu)]
    refine ⟨_, _, rfl, ?_, rfl, rfl, rfl, fun h => nomatch he.symm.trans h⟩
    rw [List.map_nil, List.append_nil, hp, List.append_nil, he]
    exact h

-- A probe that is due, and that the link does not hold.
theorem Mirrors.sendProbe (h : Mirrors d written forwarded ended c) (he : ended = false)
    (hn : d.nextProbe.any (· ≤ now)) (hd : !d.link.impaired && d.down.isEmpty) :
    Mirrors { d with
        probe     := (makeProbe d.probe now).snd
        nextProbe := (makeProbe d.probe now).snd.interval.map (now + ·) }
      (written ++ [(now, (makeProbe d.probe now).fst)]) forwarded ended (c.sendProbe now) := by
  have ⟨hf, hc⟩ := makeProbe_covers h.covers now
  have ⟨_, _, hcn, hce⟩ := h.fields
  rw [TcpConnection.sendProbe, if_pos (by rw [hcn, hce, he]; exact hn)]
  dsimp only
  rw [← hf, ← hc.interval]
  exact ((h.probed hc _).send hd).top

theorem sendProbe_of_not_due (h : c.ended = true ∨ c.nextProbe.any (· ≤ now) = false) : c.sendProbe now = c := by
  rw [TcpConnection.sendProbe, if_neg]
  cases h <;> simp [*]

-- A frame from the peer that the link holds.
theorem Mirrors.hold {profile : DirectionProfile} (h : Mirrors d written forwarded false c) (frame : Frame)
    (now : Nat) (hd : (!d.link.impaired && d.up.isEmpty) = false)
    (hp : profile = if d.link.impaired then d.link.profile.up else {})
    (hc : (profile.isPassthrough && d.up.isEmpty) = false)
    (hs : d.up.push frame d.link.profile.up now = d.up.push frame profile now) :
    ∃ inbound d', d.inbound frame now = (inbound, d') ∧
      Mirrors d' (written ++ inbound.owed.map (now, ·)) (forwarded ++ inbound.forwarded) inbound.ejects
        (c.inbound frame now) ∧
      d'.pendingInbound = d.pendingInbound ∧ d'.ejected = d.ejected := by
  have hn : d.inbound frame now = (.consumed, { d with
      up      := (d.up.push frame d.link.profile.up now).fst
      manager := if (d.up.push frame d.link.profile.up now).snd then d.manager
        else ConnectionRecord.recordLinkDrop d.manager }) := by
    rw [LinkDriver.inbound, if_neg (ne_true_of_eq_false hd)]
  refine ⟨_, _, hn, ?_, rfl, rfl⟩
  simp only [Inbound.owed, Inbound.forwarded, Inbound.ejects, List.map_nil, List.append_nil]
  cases h
  case mk hm =>
    rw [hs, TcpConnection.inbound]
    dsimp only
    rw [← hp, if_neg (ne_true_of_eq_false hc)]
    exact .mk hm

theorem Mirrors.read (h : Mirrors d written forwarded false c)
    (ha : if d.link.impaired then
        ¬(d.link.profile.up.isPassthrough ∧ d.up.isEmpty)
      else if d.up.isEmpty then
        AlikeUp d.down.isEmpty false (d.clock.map (· now)) now [frame] d.probe c.probe d.manager
      else
        d.link.profile.up.isPassthrough) :
    ∃ inbound d', d.inbound frame now = (inbound, d') ∧
      Mirrors d' (written ++ inbound.owed.map (now, ·)) (forwarded ++ inbound.forwarded) inbound.ejects
        (c.inbound frame now) ∧
      d'.pendingInbound = d.pendingInbound ∧ d'.ejected = d.ejected := by
  cases hi : d.link.impaired
  case true =>
    rw [hi, if_pos rfl] at ha
    have hc : (d.link.profile.up.isPassthrough && d.up.isEmpty) = false := by simpa using ha
    exact h.hold frame now (by rw [hi]; rfl) (by rw [hi, if_pos rfl]) hc rfl
  case false =>
    rw [hi, if_neg Bool.false_ne_true] at ha
    cases hu : d.up.isEmpty
    case true  =>
      rw [hu, if_pos rfl] at ha
      have ⟨inbound, probe, manager, hr⟩ := route_cases d frame now
      have ⟨hm, _⟩ := h.route hr (by rw [hi]; exact id) ha
      have hc : c.inbound frame now = c.route frame now := by
        cases h
        simp only [TcpConnection.inbound, hi, hu]
        rfl
      exact ⟨inbound, _, (if_pos (by rw [hi, hu]; rfl)).trans hr, hc ▸ hm, rfl, rfl⟩
    case false =>
      rw [hu, if_neg Bool.false_ne_true] at ha
      exact h.hold frame now (by rw [hu, Bool.and_false]) (by rw [hi, if_neg Bool.false_ne_true])
        (by rw [hu, Bool.and_false]) (d.up.push_of_isPassthrough ha)

theorem release_of_not_due (h : c.nextRelease.any (· ≤ now) = false) : c.release now = c := by
  rw [TcpConnection.release, if_neg]
  rw [h, Bool.and_false]
  exact Bool.false_ne_true

-- Between events, the driver hands nothing back later.
structure Together (a : Adapter M) (c : TcpConnection M) : Prop where
  mirrors : Mirrors a.driver a.written a.forwarded a.ended c
  pending : a.driver.pendingInbound = []
  ejected : a.ended = false → a.driver.ejected = false

variable {a : Adapter M}

theorem Together.read (h : Together a c) (he : a.ended = false) (ha : Alike (a, c) (.inbound frame now)) :
    Together (a.inbound frame now) (c.inbound frame now).top := by
  have hm := h.mirrors
  rw [he] at hm
  have ⟨inbound, d', hd, hm, hp, hj⟩ := hm.read (ha he)
  have ha : a.inbound frame now = {
      driver    := d'
      written   := a.written ++ inbound.owed.map (now, ·)
      forwarded := a.forwarded ++ inbound.forwarded
      ended     := inbound.ejects } := by
    rw [Adapter.inbound, hd]
    cases inbound <;> simp [Inbound.owed, Inbound.forwarded, Inbound.ejects, he]
  rw [ha]
  exact ⟨hm.top, hp.trans h.pending, fun _ => hj.trans (h.ejected he)⟩

omit [ProbeCodec] in
theorem outbound_frame : (d.outbound frame now).snd.pendingInbound = d.pendingInbound ∧
    (d.outbound frame now).snd.ejected = d.ejected := by
  rw [LinkDriver.outbound]
  split <;> exact ⟨rfl, rfl⟩

omit [ProbeCodec] in
theorem Together.outbound (h : Together a c) : Together (a.outbound frame now) (c.send frame now).top where
  mirrors    := h.mirrors.outbound.top
  pending    := outbound_frame.left.trans h.pending
  ejected he := outbound_frame.right.trans (h.ejected he)

-- A timer which serves the probe first serves nothing else if a probe is due.
theorem round_timer {probeFirst : Bool} (h : Mirrors d written forwarded false c)
    (hd : d.nextProbe.any (· ≤ now) = true → !d.link.impaired && (d.down.popAllReady now).fst.isEmpty)
    (hn : probeFirst = true → d.nextProbe.any (· ≤ now) = true →
      (earliest d.up.nextRelease d.down.nextRelease).any (· ≤ now) = false)
    (hr : (c.release now).nextProbe = d.nextProbe) :
    c.round (.timer now probeFirst) = (c.release now).sendProbe now := by
  cases probeFirst
  case false => rfl
  case true  =>
    have ⟨hu, hdn, hcn, _⟩ := h.fields
    rw [TcpConnection.round]
    cases hp : d.nextProbe.any (· ≤ now)
    case false => rw [sendProbe_of_not_due (.inr (hcn ▸ hp)), sendProbe_of_not_due (.inr (hr ▸ hp))]
    case true  =>
      have hn := hn rfl hp
      have hd := hd hp
      have ⟨_, hnd⟩ := Bool.or_eq_false_iff.mp <| (earliest_any_le ..).symm.trans hn
      rw [d.down.popAllReady_of_popReady_none (d.down.popReady_of_nextRelease hnd)] at hd
      have ⟨hu', hdn', _, _⟩ := (h.sendProbe rfl hp hd).fields
      rw [release_of_not_due (by rw [TcpConnection.nextRelease, hu', hdn']; exact hn),
        release_of_not_due (by rw [TcpConnection.nextRelease, hu, hdn]; exact hn)]

omit [JitterScale] in
theorem due_of_released (h : (LinkDriver.releaseUp now).run d.up.queue.length
    ({ d with down := (d.down.popAllReady now).fst }, (d.down.popAllReady now).snd) = (d', owed)) :
    d.due now = if d'.nextProbe.any (· ≤ now) then
        (owed ++ [(makeProbe d'.probe now).fst], { d' with
          probe     := (makeProbe d'.probe now).snd
          nextProbe := (makeProbe d'.probe now).snd.interval.map (now + ·) })
      else
        (owed, d') := by
  rw [LinkDriver.due]
  generalize d.down.popAllReady now = r at h
  dsimp only at h ⊢
  rw [h]

omit [JitterScale] in
theorem Together.due (hd : a.driver.deadline.any (· ≤ now)) (ho : a.driver.due now = (owed, d'))
    (hm : Mirrors d' (a.written ++ owed.map (now, ·)) (a.forwarded ++ d'.pendingInbound) d'.ejected c) :
    Together (a.timer now) c := by
  rw [Adapter.timer, if_pos hd, ho]
  exact ⟨hm.pending [] d'.ejected, rfl, id⟩

theorem Together.timer {probeFirst : Bool} (h : Together a c) (he : a.ended = false)
    (ha : Alike (a, c) (.timer now probeFirst)) : Together (a.timer now) (c.round (.timer now probeFirst)) := by
  have hm := h.mirrors
  rw [he] at hm
  have ⟨hd, hn, ha⟩ := ha he
  have ⟨d', owed', hr, hm', hl, hdn, hnp, hj⟩ := hm.release h.pending (h.ejected he) id ha
  have hf := hm'.fields.right.right.left.trans hnp
  have ho : a.driver.deadline.any (· ≤ now) = (a.driver.nextProbe.any (· ≤ now) ||
      (earliest a.driver.up.nextRelease a.driver.down.nextRelease).any (· ≤ now)) := earliest_any_le ..
  rw [round_timer hm hd hn hf]
  cases hp : a.driver.nextProbe.any (· ≤ now)
  case false =>
    rw [sendProbe_of_not_due (.inr (hf ▸ hp))]
    rw [hp, Bool.false_or] at ho
    cases hq : a.driver.deadline.any (· ≤ now)
    case true  =>
      refine Together.due hq ?_ hm'
      rw [due_of_released hr, hnp, hp, if_neg Bool.false_ne_true]
    case false =>
      have ⟨hu, hdn, _⟩ := hm.fields
      rw [release_of_not_due (by rw [TcpConnection.nextRelease, hu, hdn]; exact ho.symm.trans hq), Adapter.timer,
        if_neg (by rw [hq]; exact Bool.false_ne_true)]
      exact h
  case true =>
    have hej : d'.ejected = false := eq_false_of_ne_true fun h => nomatch (hj h).symm.trans hp
    have hs := hm'.sendProbe hej (hnp ▸ hp) (by rw [hl, hdn]; exact hd hp)
    refine Together.due (by rw [ho, hp]; rfl) (by rw [due_of_released hr, hnp, hp, if_pos rfl]) ?_
    rw [List.map_append, ← List.append_assoc]
    exact hs

theorem Together.round {e : LinkEvent} (h : Together a c) (he : a.ended = false) (ha : Alike (a, c) e) :
    Together (a.round e) (c.round e) := by
  cases e
  case inbound     => exact h.read he ha
  case outbound    => exact h.outbound
  case timer       => exact h.timer he ha
  case store store =>
    have hl : c.link = a.driver.link := by
      cases h.mirrors
      rfl
    refine ⟨?_, h.pending, h.ejected⟩
    rw [TcpConnection.round, hl]
    exact h.mirrors.store (a.driver.link.store store)

omit [ConnectionRecord M] [ProbeCodec] [JitterScale] in
theorem Together.same (h : Together a c) : Same a c := by
  have ⟨hm, _, _⟩ := h
  cases hm
  exact ⟨rfl, rfl, rfl, rfl⟩

theorem Together.step {s s' : Adapter M × TcpConnection M} {e : LinkEvent} (h : Together s.fst s.snd)
    (hs : ((Adapter.machine.both TcpConnection.machine).restrict Alike).step s e = some s') :
    Together s'.fst s'.snd := by
  have ⟨ha, hs⟩ := Machine.restrict_step_iff.mp hs
  have ⟨hs₁, hs₂⟩ := Machine.both_step_iff.mp hs
  have hc : s.snd.ended = s.fst.ended := h.same.ended.symm
  rw [← Option.some.inj hs₁, ← Option.some.inj hs₂, hc]
  cases he : s.fst.ended
  case true  => exact h
  case false => exact h.round he ha

end

-- The round trips that were sampled, the latest last.
structure Samples where
  rtts : List Nat
  deriving DecidableEq

instance : ConnectionRecord Samples where
  recordInboundActivity s _ _ := (s, .admitted)
  recordLinkRtt s rtt         := ⟨s.rtts ++ [rtt]⟩
  recordLinkDrop s            := s

-- A probe each eighth of a second at first.
def eager : Probes where
  enabled      := true
  slots        := 8
  fastPings    := 4
  fastInterval := 125000000
  idleInterval := 5000000000

def pongTo (origin : Nat) : Frame :=
  Frame.Kind.pong.asByte :: (BitCodec.probeCodec.encodePong ⟨origin, none⟩).getD []

def pingFrom (origin : Nat) : Frame :=
  Frame.Kind.ping.asByte :: BitCodec.probeCodec.encodePing ⟨origin⟩

end Loops
end Plaza.Session
