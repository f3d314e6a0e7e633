import Plaza.Session.Conditioner

namespace Plaza.Session

open Wire

namespace Conditioner

variable {c : Conditioner} {frame : Frame} {profile : DirectionProfile} {retransmit now : Nat}

-- Frames are released in the order in which they are held.
structure Monotone (c : Conditioner) : Prop where
  ordered : c.queue.Pairwise (·.fst ≤ ·.fst)
  latest  : ∀ p ∈ c.queue, ∃ last, c.lastRelease = some last ∧ p.fst ≤ last

protected theorem Monotone.new {seed : UInt64} {capacity : Nat} : (new seed capacity).Monotone where
  ordered := .nil
  latest  := nofun

theorem hold_cases [JitterScale] (c : Conditioner) (frame : Frame) (profile : DirectionProfile)
    (retransmit now : Nat) : ∃ release rng, now + profile.delay ≤ release ∧
      (∀ previous, c.lastRelease = some previous → previous ≤ release) ∧
      c.hold frame profile retransmit now =
        { c with queue := c.queue ++ [(release, frame)], lastRelease := some release, rng } := by
  refine ⟨_, _, ?_, fun previous hp => ?_, rfl⟩
  case refine_1 =>
    split
    case h_1 => split <;> omega
    case h_2 => omega
  case refine_2 =>
    rw [hp]
    dsimp only
    split <;> omega

theorem loses_cases (c : Conditioner) (profile : DirectionProfile) :
    ∃ lost rng, c.loses profile = (lost, { c with rng }) ∧ (lost = true → 0 < profile.loss) := by
  rw [loses]
  split
  case isTrue h => exact ⟨_, _, rfl, fun _ => h⟩
  case isFalse  => exact ⟨_, c.rng, rfl, nofun⟩

-- A frame is refused because the buffer is full, lost on a datagram link, or held for the delay at least
-- and behind the others.
theorem push_cases [JitterScale] (c : Conditioner) (frame : Frame) (profile : DirectionProfile) (now : Nat) :
    (c.capacity ≤ c.queue.length ∧ frame.head? = some Frame.Kind.ops.asByte ∧
      c.push frame profile now = (c, false)) ∨
    (profile.delivery = .datagram ∧ 0 < profile.loss ∧
      ∃ rng, c.push frame profile now = ({ c with rng }, false)) ∨
    ∃ release rng, now + profile.delay ≤ release ∧
      (∀ previous, c.lastRelease = some previous → previous ≤ release) ∧
      c.push frame profile now =
        ({ c with queue := c.queue ++ [(release, frame)], lastRelease := some release, rng }, true) := by
  simp only [push]
  split
  case isTrue h  => exact .inl ⟨h.left, h.right, rfl⟩
  case isFalse h =>
    have ⟨lost, rng, hl, hp⟩ := c.loses_cases profile
    rw [hl]
    refine .inr ?_
    cases lost
    case false =>
      have ⟨release, rng, hd, hr, hh⟩ := hold_cases { c with rng } frame profile 0 now
      exact .inr ⟨release, rng, hd, hr, congrArg (·, true) hh⟩
    case true =>
      cases hd : profile.delivery
      case reliable =>
        have ⟨release, rng, hd, hr, hh⟩ := hold_cases { c with rng } frame profile retransmitPenalty now
        exact .inr ⟨release, rng, hd, hr, congrArg (·, true) hh⟩
      case datagram => exact .inl ⟨rfl, hp rfl, rng, rfl⟩

-- There is one link that does nothing.
theorem push_of_isPassthrough [JitterScale] (h : profile.isPassthrough) :
    c.push frame profile now = c.push frame {} now := by
  simp only [DirectionProfile.isPassthrough, Bool.and_eq_true, decide_eq_true_eq] at h
  have ⟨⟨hd, hj⟩, hl⟩ := h
  have hn : c.loses profile = (false, c) := if_neg (Rat.not_lt.mpr hl)
  simp only [push, hn, hold, hd, hj]
  rfl

theorem Monotone.push [JitterScale] (h : c.Monotone) : (c.push frame profile now).fst.Monotone := by
  rcases c.push_cases frame profile now with ⟨_, _, hp⟩ | ⟨_, _, rng, hp⟩ | ⟨release, rng, _, hr, hp⟩ <;> rw [hp]
  case inl     => exact h
  case inr.inl => exact ⟨h.ordered, h.latest⟩
  case inr.inr =>
    have hle : ∀ p ∈ c.queue, p.fst ≤ release := fun p hm =>
      have ⟨last, hl, hle⟩ := h.latest p hm
      hle.trans (hr last hl)
    refine ⟨List.pairwise_append.mpr ⟨h.ordered, List.pairwise_singleton .., fun p hm p' hm' => ?_⟩,
      fun p hm => ⟨release, rfl, ?_⟩⟩
    case refine_1 => exact List.mem_singleton.mp hm' ▸ hle p hm
    case refine_2 =>
      cases List.mem_append.mp hm
      case inl hm => exact hle p hm
      case inr hm => exact List.mem_singleton.mp hm ▸ Nat.le_refl _

theorem popReady_eq_some {c' : Conditioner} (h : c.popReady now = some (frame, c')) :
    ∃ at' rest, c.queue = (at', frame) :: rest ∧ at' ≤ now ∧ c' = { c with queue := rest } := by
  rw [popReady] at h
  split at h
  case h_1 => cases h
  case h_2 at' frame' rest hq =>
    split at h
    case isTrue hl => cases h; exact ⟨at', rest, hq, hl, rfl⟩
    case isFalse   => cases h

theorem ready_of_popReady_some {c' : Conditioner} (h : c.popReady now = some (frame, c')) :
    c.ready now = frame :: c'.ready now := by
  have ⟨at', rest, hq, hl, hc⟩ := popReady_eq_some h
  rw [ready, ready, hq, hc, List.takeWhile_cons_of_pos (by simpa using hl), List.map_cons]

theorem popReady_of_ready_nil (h : c.ready now = []) : c.popReady now = none := by
  cases hp : c.popReady now
  case none   => rfl
  case some r => cases (ready_of_popReady_some hp).symm.trans h

theorem popReady_of_nextRelease (h : c.nextRelease.any (· ≤ now) = false) : c.popReady now = none := by
  cases hp : c.popReady now
  case none   => rfl
  case some r =>
    have ⟨at', rest, hq, hl, _⟩ := popReady_eq_some hp
    rw [nextRelease, hq, List.head?_cons, Option.map_some, Option.any_some, decide_eq_false_iff_not] at h
    exact absurd hl h

-- What the loop over the ready frames has taken so far.
structure Released (c : Conditioner) (now : Nat) (s : Conditioner × List Frame) : Prop where
  taken : ∃ ready, c.queue = ready ++ s.fst.queue ∧ s.snd = ready.map Prod.snd ∧ ∀ p ∈ ready, p.fst ≤ now
  frame : s.fst = { c with queue := s.fst.queue }

theorem Released.body {s s' : Conditioner × List Frame} (h : Released c now s)
    (hb : (release now).body s = some s') : Released c now s' := by
  have ⟨(frame, c'), hp, he⟩ := Option.map_eq_some_iff.mp hb
  have ⟨at', rest, hq, hl, hc⟩ := popReady_eq_some hp
  have ⟨ready, ht, hs, hr⟩ := h.taken
  subst he
  refine ⟨⟨ready ++ [(at', frame)], ?_, ?_, fun p hm => ?_⟩, ?_⟩
  case refine_1 => rw [hc, ht, hq, List.append_assoc, List.singleton_append]
  case refine_2 => rw [hs, List.map_append, List.map_singleton]
  case refine_3 =>
    cases List.mem_append.mp hm
    case inl hm => exact hr p hm
    case inr hm => exact List.mem_singleton.mp hm ▸ hl
  case refine_4 =>
    rw [hc, h.frame]

theorem popAllReady_ends (c : Conditioner) (now : Nat) : (release now).Ends (c, []) (c.popAllReady now) := by
  refine Loop.ends_run (I := fun _ => True) (μ := fun s => s.fst.queue.length) (fun _ _ => trivial)
    (fun {s s'} _ hb => ?_) trivial (Nat.le_refl _)
  have ⟨(frame, c'), hp, he⟩ := Option.map_eq_some_iff.mp hb
  have ⟨at', rest, hq, _, hc⟩ := popReady_eq_some hp
  subst he
  rw [hc, hq]
  exact Nat.lt_succ_self _

theorem popAllReady_of_popReady_none (h : c.popReady now = none) : c.popAllReady now = (c, []) :=
  Loop.run_of_left (by rw [release]; exact congrArg (Option.map _) h)

-- The frames that have come due leave from the front of the queue.
theorem popAllReady_cases (c : Conditioner) (now : Nat) : ∃ ready rest, c.queue = ready ++ rest ∧
    (∀ p ∈ ready, p.fst ≤ now) ∧ (∀ p, rest.head? = some p → now < p.fst) ∧
    c.popAllReady now = ({ c with queue := rest }, ready.map Prod.snd) := by
  have he := popAllReady_ends c now
  have hr := he.preserves (I := Released c now) Released.body ⟨⟨[], rfl, rfl, nofun⟩, rfl⟩
  generalize c.popAllReady now = s at he hr
  have ⟨ready, hq, hs, hl⟩ := hr.taken
  refine ⟨ready, _, hq, hl, fun p hp => ?_, Prod.ext hr.frame hs⟩
  have hn := Option.map_eq_none_iff.mp he.left
  rw [popReady] at hn
  split at hn
  case h_1 hq => simp [hq] at hp
  case h_2 hq =>
    split at hn
    case isTrue  => cases hn
    case isFalse =>
      rw [hq, List.head?_cons, Option.some.injEq] at hp
      exact hp ▸ Nat.lt_of_not_le ‹_›

theorem Monotone.popAllReady (h : c.Monotone) : (c.popAllReady now).fst.Monotone ∧
    ∀ p ∈ (c.popAllReady now).fst.queue, now < p.fst := by
  have ⟨ready, rest, hq, _, hn, hp⟩ := popAllReady_cases c now
  have hs := h.ordered
  rw [hq] at hs
  have ho := (List.pairwise_append.mp hs).right.left
  rw [hp]
  refine ⟨⟨ho, fun p hm => h.latest p (hq ▸ List.mem_append_right _ hm)⟩, fun p hm => ?_⟩
  cases rest
  case nil => cases hm
  case cons p' rest =>
    cases hm
    case head      => exact hn _ rfl
    case tail _ hm => exact (hn p' rfl).trans_le ((List.pairwise_cons.mp ho).left p hm)

theorem Monotone.drain : c.drain.snd.Monotone where
  ordered := .nil
  latest  := nofun

end Conditioner

-- What becomes of a frame for the client.
theorem queueDown_cases [JitterScale] (link : LinkHandle) (down : Conditioner) (frame : Frame) (now : Nat) :
    (link.impaired = false ∧ down.queue = [] ∧ queueDown link down frame now = (down, .direct)) ∨
    (∃ rng, queueDown link down frame now = ({ down with rng }, .dropped) ∧
      (down.capacity ≤ down.queue.length ∧ frame.head? = some Frame.Kind.ops.asByte ∨
      link.profile.down.delivery = .datagram ∧ 0 < link.profile.down.loss)) ∨
    ∃ release rng, now + link.profile.down.delay ≤ release ∧ queueDown link down frame now =
      ({ down with queue := down.queue ++ [(release, frame)], lastRelease := some release, rng }, .held) := by
  rw [queueDown]
  split
  case isTrue h =>
    simp only [Bool.and_eq_true, Bool.not_eq_true', Conditioner.isEmpty, List.isEmpty_iff] at h
    exact .inl ⟨h.left, h.right, rfl⟩
  case isFalse =>
    rcases down.push_cases frame link.profile.down now with ⟨hl, hk, hp⟩ | ⟨hd, hl, rng, hp⟩ | ⟨release, rng, hd, _, hp⟩
    case inl     => rw [hp]; exact .inr <| .inl ⟨_, rfl, .inl ⟨hl, hk⟩⟩
    case inr.inl => rw [hp]; exact .inr <| .inl ⟨rng, rfl, .inr ⟨hd, hl⟩⟩
    case inr.inr => rw [hp]; exact .inr <| .inr ⟨release, rng, hd, rfl⟩

theorem monotone_queueDown [JitterScale] {link : LinkHandle} {down : Conditioner} {frame : Frame} {now : Nat}
    (h : down.Monotone) : (queueDown link down frame now).fst.Monotone := by
  rw [queueDown]
  split
  case isTrue  => exact h
  case isFalse => exact h.push

end Plaza.Session
