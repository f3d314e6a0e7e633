import Mathlib.Data.List.Chain
import Plaza.Protocols.HeldInput

open Plaza.ClientUtils

namespace Plaza.Protocols.HeldInput

variable {ι : Type*} {s s' : State ι} {e : Event ι} {es : List (Event ι)} {m : Sending ι}
  {keepalive gap latency k now : Nat} {input : ι} {lost : Bool} {policy : InputCoalescer ι}

-- Either the input goes on the wire, or the last one which did was the same, and not a keepalive ago.
theorem shouldSend_cases [DecidableEq ι] (c : InputCoalescer ι) (input : ι) (now : Nat) :
    c.shouldSend input now = ({ c with lastSent := some input, lastSentMs := now }, true) ∨
    c.shouldSend input now = (c, false) ∧ c.lastSent = some input ∧ now - c.lastSentMs < c.keepaliveMs := by
  simp only [InputCoalescer.shouldSend]
  split
  case isTrue    => exact .inl rfl
  case isFalse h =>
    simp only [not_or, ne_eq, not_not] at h
    exact .inr ⟨rfl, h.right.left, not_le.mp h.right.right.right⟩

theorem step_frame [DecidableEq ι] (hs : machine.step s (.frame now input lost) = some s') :
    s.nowMs ≤ now ∧
    (s' = { s with
        nowMs  := now
        policy := { s.policy with lastSent := some input, lastSentMs := now }
        frames := s.frames ++ [(now, input)]
        sent   := s.sent ++ [⟨input, now, now, lost⟩] } ∨
      s.policy.lastSent = some input ∧ now - s.policy.lastSentMs < s.policy.keepaliveMs ∧
        s' = State.prolong { s with nowMs := now, frames := s.frames ++ [(now, input)] } now) := by
  simp only [machine, Option.ite_none_right_eq_some] at hs
  obtain ⟨hn, hs⟩ := hs
  refine ⟨hn, ?_⟩
  rcases shouldSend_cases s.policy input now with hp | ⟨hp, hi, hk⟩
  case inl =>
    simp only [hp, ↓reduceIte, Option.some.injEq] at hs
    exact .inl hs.symm
  case inr =>
    simp only [hp, Bool.false_eq_true, ↓reduceIte, Option.some.injEq] at hs
    exact .inr ⟨hi, hk, hs.symm⟩

theorem step_deliver [DecidableEq ι] (hs : machine.step s (.deliver now) = some s') :
    s.nowMs ≤ now ∧ ∃ i, s.underway.findIdx? (!·.lost) = some i ∧
      s' = { s with nowMs := now, arrived := s.arrived + i + 1 } := by
  simp only [machine, Option.ite_none_right_eq_some, Option.map_eq_some_iff] at hs
  obtain ⟨hn, i, hi, rfl⟩ := hs
  exact ⟨hn, i, hi, rfl⟩

namespace State

-- Each thing sent was the input of the client from then on up to a frame before the keepalive was due, and the next
-- thing was sent at the frame after this.
structure Covers (s : State ι) (keepalive gap : Nat) : Prop where
  chain : s.sent.IsChain fun m n => n.atMs ≤ m.untilMs + gap
  frame : ∀ m ∈ s.sent, m.untilMs ≤ m.atMs + keepalive ∧ (m.untilMs, m.input) ∈ s.frames
  first : s.frames.head?.map Prod.fst = s.sent.head?.map Sending.atMs
  last  : s.frames.getLast?.map Prod.fst = s.sent.getLast?.map Sending.untilMs
  now   : ∀ m ∈ s.sent.getLast?, s.nowMs ≤ m.untilMs + gap
  sent  : s.policy.lastSent = none ∨ ∃ m ∈ s.sent.getLast?, s.policy.lastSent = some m.input ∧ s.policy.lastSentMs = m.atMs
  alive : s.policy.keepaliveMs = keepalive

-- What is underway has not been so for long.
def Fresh (s : State ι) (latency : Nat) : Prop :=
  ∀ m ∈ s.underway, m.lost = false → s.nowMs ≤ m.atMs + latency

namespace Covers

theorem start : (State.start keepalive : State ι).Covers keepalive gap where
  chain := .nil
  frame := by simp [State.start]
  first := rfl
  last  := rfl
  now   := by simp [State.start]
  sent  := .inl rfl
  alive := rfl

-- The last frame is that of the last thing sent.
theorem until_of_onTime (h : s.Covers keepalive gap) (ht : s.OnTime gap latency now) :
    ∀ m ∈ s.sent.getLast?, now ≤ m.untilMs + gap := by
  intro m hm
  have hl := h.last
  rw [hm] at hl
  obtain ⟨f, hf, hu⟩ := Option.map_eq_some_iff.mp hl
  exact hu ▸ ht.left f hf

theorem send (h : s.Covers keepalive gap) (ht : s.OnTime gap latency now) (hp : policy.lastSent = some input)
    (hn : policy.lastSentMs = now) (hk : policy.keepaliveMs = keepalive) :
    State.Covers { s with
      nowMs := now, policy, frames := s.frames ++ [(now, input)], sent := s.sent ++ [⟨input, now, now, lost⟩] }
      keepalive gap where
  chain := by
    refine List.isChain_append.mpr ⟨h.chain, .singleton _, fun m hm n hn => ?_⟩
    cases hn
    exact h.until_of_onTime ht m hm
  frame m hm := by
    rcases List.mem_append.mp hm with hm | hm
    case inl =>
      have ⟨hu, hf⟩ := h.frame m hm
      exact ⟨hu, List.mem_append_left _ hf⟩
    case inr =>
      rw [List.mem_singleton.mp hm]
      exact ⟨Nat.le_add_right .., List.mem_append_right _ List.mem_cons_self⟩
  first := by
    have hf := h.first
    dsimp only
    cases hs : s.sent <;> cases hf' : s.frames <;> simp_all
  last  := by simp
  now   := by simp
  sent  := .inr ⟨_, List.getLast?_concat .., hp, hn⟩
  alive := hk

theorem prolong (h : s.Covers keepalive gap) (hp : s.policy.lastSent = some input)
    (hk : now - s.policy.lastSentMs < s.policy.keepaliveMs) :
    (State.prolong { s with nowMs := now, frames := s.frames ++ [(now, input)] } now).Covers keepalive gap := by
  obtain ⟨m, hm, hi, ha⟩ := h.sent.resolve_left (by simp [hp])
  obtain ⟨init, hs⟩ := List.getLast?_eq_some_iff.mp hm
  obtain rfl : input = m.input := Option.some.inj (hp.symm.trans hi)
  have hf := h.frame m (hs ▸ List.mem_concat_self)
  have hc := List.isChain_append.mp (hs ▸ h.chain)
  refine ⟨?chain, ?frame, ?first, ?last, ?now, ?sent, h.alive⟩ <;> simp only [State.prolong, hs, List.dropLast_concat,
    List.getLast?_concat, Option.toList_some, List.map_cons, List.map_nil]
  case chain => exact List.isChain_append.mpr ⟨hc.left, .singleton _, by simpa using hc.right.right⟩
  case frame =>
    intro n hn
    rcases List.mem_append.mp hn with hn | hn
    case inl =>
      have ⟨hu, hf⟩ := h.frame n (hs ▸ List.mem_append_left _ hn)
      exact ⟨hu, List.mem_append_left _ hf⟩
    case inr =>
      rw [List.mem_singleton.mp hn]
      have := h.alive
      exact ⟨by dsimp only; omega, List.mem_append_right _ List.mem_cons_self⟩
  case first =>
    have hf := h.first
    rw [hs] at hf
    cases init <;> cases hf' : s.frames <;> simp_all
  case last => simp
  case now  => simp
  case sent => exact .inr ⟨_, rfl, hi, ha⟩

theorem step [DecidableEq ι] (h : s.Covers keepalive gap) (ht : e.isTimely gap latency s) (hs : machine.step s e = some s') :
    s'.Covers keepalive gap := by
  cases e
  case setEnabled enabled =>
    cases hs
    exact ⟨h.chain, h.frame, h.first, h.last, h.now, h.sent, h.alive⟩
  case reset =>
    cases hs
    exact ⟨h.chain, h.frame, h.first, h.last, h.now, .inl rfl, h.alive⟩
  case deliver now =>
    obtain ⟨-, i, -, rfl⟩ := step_deliver hs
    exact ⟨h.chain, h.frame, h.first, h.last, h.until_of_onTime (of_decide_eq_true ht), h.sent, h.alive⟩
  case frame now input lost =>
    obtain ⟨-, rfl | ⟨hi, hk, rfl⟩⟩ := step_frame hs
    case inl => exact h.send (of_decide_eq_true ht) rfl rfl h.alive
    case inr => exact h.prolong hi hk

end Covers

theorem map_prolong {β : Type*} (f : Sending ι → β) (hf : ∀ m t, f { m with untilMs := t } = f m) :
    (s.prolong now).sent.map f = s.sent.map f := by
  cases hl : s.sent.getLast?
  case none   => simp [prolong, List.getLast?_eq_none_iff.mp hl]
  case some m =>
    obtain ⟨init, hs⟩ := List.getLast?_eq_some_iff.mp hl
    simp [prolong, hs, hf]

namespace Fresh

theorem start : (State.start keepalive : State ι).Fresh latency := by
  simp [Fresh, underway, State.start]

-- As long as no later event comes, nothing underway gets older.
theorem step [DecidableEq ι] (h : s.Fresh latency) (ha : s.arrived ≤ s.sent.length) (ht : e.isTimely gap latency s)
    (hs : machine.step s e = some s') : s'.Fresh latency ∧ s'.arrived ≤ s'.sent.length := by
  cases e
  case setEnabled enabled =>
    cases hs
    exact ⟨h, ha⟩
  case reset =>
    cases hs
    exact ⟨h, ha⟩
  case deliver now =>
    have ht : s.OnTime gap latency now := of_decide_eq_true ht
    obtain ⟨-, i, hi, rfl⟩ := step_deliver hs
    have hl := (List.findIdx?_eq_some_iff_getElem.mp hi).choose
    simp only [underway, List.length_drop] at hl
    refine ⟨fun m hm => ht.right m ?_, by dsimp only; omega⟩
    simp only [underway, Nat.add_assoc, ← List.drop_drop] at hm
    exact List.mem_of_mem_drop (List.mem_of_mem_drop hm)
  case frame now input lost =>
    have ht : s.OnTime gap latency now := of_decide_eq_true ht
    obtain ⟨-, rfl | ⟨-, -, rfl⟩⟩ := step_frame hs
    case inl =>
      refine ⟨fun m hm => ?_, by simp; omega⟩
      simp only [underway, List.drop_append_of_le_length ha] at hm
      rcases List.mem_append.mp hm with hm | hm
      case inl => exact ht.right m hm
      case inr => simp [List.mem_singleton.mp hm]
    case inr =>
      generalize hs₀ : ({ s with nowMs := now, frames := s.frames ++ [(now, input)] } : State ι) = s₀
      have hm : (s₀.prolong now).sent.map _ = s₀.sent.map _ :=
        map_prolong (fun m => (m.lost, m.atMs)) fun _ _ => rfl
      have hlen := congrArg List.length hm
      rw [List.length_map, List.length_map] at hlen
      subst hs₀
      refine ⟨fun m hmem hlost => ?_, hlen ▸ ha⟩
      have hm := congrArg (List.drop s.arrived) hm
      rw [← List.map_drop, ← List.map_drop] at hm
      obtain ⟨n, hn, he⟩ := List.mem_map.mp (hm ▸ List.mem_map_of_mem hmem)
      obtain ⟨hl, ha⟩ := Prod.mk.inj he
      exact ha ▸ ht.right n hn (hl.trans hlost)

end Fresh

-- What was sent after `m` is either all lost, or waits for its turn behind what was lost.
theorem le_of_chain {after : List (Sending ι)} (now : Nat) (hc : (m :: after).IsChain fun m n => n.atMs ≤ m.untilMs + gap)
    (hf : ∀ n ∈ after, n.untilMs ≤ n.atMs + keepalive) (hu : ∀ n ∈ after, n.lost = false → now ≤ n.atMs + latency)
    (hl : ∀ n ∈ (m :: after).getLast?, now ≤ n.untilMs + gap) :
    now ≤ m.untilMs + gap + latency + (after.takeWhile Sending.lost).length * (keepalive + gap) := by
  induction after generalizing m
  case nil => simpa using (hl m rfl).trans (Nat.le_add_right ..)
  case cons n after ih =>
    have hn := List.isChain_cons_cons.mp hc
    cases hw : n.lost
    case false =>
      have := hu n List.mem_cons_self hw
      simp [hw]
      omega
    case true =>
      have := ih hn.right (fun n h => hf n (List.mem_cons_of_mem _ h)) (fun n h => hu n (List.mem_cons_of_mem _ h)) (by simpa using hl)
      have := hf n List.mem_cons_self
      simp [hw, Nat.add_mul]
      omega

theorem held_eq (hh : s.held = some input) : ∃ init m, s.sent = init ++ m :: s.underway ∧ m.input = input := by
  obtain ⟨m, hm, hi⟩ := Option.map_eq_some_iff.mp hh
  obtain ⟨init, hs⟩ := List.getLast?_eq_some_iff.mp hm
  refine ⟨init, m, ?_, hi⟩
  rw [List.append_cons, ← hs, underway, List.take_append_drop]

theorem losses_le (hk : s.LosesAtMost k) : (s.underway.takeWhile Sending.lost).length ≤ k := by
  refine hk _ ?_ fun m hm => List.all_eq_true.mp List.all_takeWhile m hm
  exact (List.takeWhile_prefix _).isInfix.trans (List.drop_suffix ..).isInfix

end State

theorem held_recent [DecidableEq ι] (h : (timely gap latency).Steps (.start keepalive) es s) (hk : s.LosesAtMost k) :
    (∀ input, s.held = some input →
      ∃ t, (t, input) ∈ s.frames ∧ s.nowMs ≤ t + gap + latency + k * (keepalive + gap)) ∧
    (s.held = none → ∀ first ∈ s.frames.head?, s.nowMs ≤ first.fst + latency + k * (keepalive + gap)) := by
  have ⟨hc, hf, ha⟩ := h.preserves
    (I := fun s : State ι => s.Covers keepalive gap ∧ s.Fresh latency ∧ s.arrived ≤ s.sent.length)
    (fun ⟨hc, hf, ha⟩ hs =>
      have ⟨ht, hs⟩ := Machine.restrict_step_iff.mp hs
      ⟨hc.step ht hs, hf.step ha ht hs⟩)
    ⟨.start, .start, Nat.zero_le _⟩
  have hn := Nat.mul_le_mul_right (keepalive + gap) (State.losses_le hk)
  constructor
  case left =>
    intro input hh
    obtain ⟨init, m, hs, rfl⟩ := State.held_eq hh
    have hm := List.mem_append_right init (List.mem_cons_self (a := m) (l := s.underway))
    have hu : ∀ n ∈ s.underway, n ∈ s.sent := fun n hn => List.mem_of_mem_drop hn
    refine ⟨m.untilMs, (hc.frame m (hs ▸ hm)).right, ?_⟩
    have hle := State.le_of_chain s.nowMs (List.isChain_append.mp (hs ▸ hc.chain)).right.left
      (fun n hn => (hc.frame n (hu n hn)).left) hf
      (fun n hn => hc.now n (by rw [hs, List.getLast?_append, hn]; rfl))
    omega
  case right =>
    intro hh first hfst
    have ht : s.sent.take s.arrived = [] := by simpa [State.held] using hh
    have hu : s.underway = s.sent := by
      have hs := List.take_append_drop s.arrived s.sent
      rwa [ht, List.nil_append] at hs
    rw [hu] at hn
    have hfst := hc.first ▸ congrArg (Option.map Prod.fst) hfst
    obtain ⟨m, hm, hat⟩ := Option.map_eq_some_iff.mp hfst
    obtain ⟨after, hs⟩ := List.head?_eq_some_iff.mp hm
    have hmem : m ∈ s.sent := hs ▸ List.mem_cons_self
    cases hl : m.lost
    case false =>
      have := hf m (hu ▸ hmem) hl
      omega
    case true =>
      have hle := State.le_of_chain s.nowMs (hs ▸ hc.chain)
        (fun n hn => (hc.frame n (hs ▸ List.mem_cons_of_mem _ hn)).left)
        (fun n hn => hf n (hu ▸ hs ▸ List.mem_cons_of_mem _ hn)) (hs ▸ hc.now)
      have := (hc.frame m hmem).left
      simp only [hs, hl, List.takeWhile_cons_of_pos, List.length_cons, Nat.add_mul] at hn
      omega

-- However many things are lost in a row, what the server holds was the input of the client not longer ago than the
-- keepalive takes to replace them. It holds something once the client has had that long, and the input of the client
-- once this has not changed for that long.
theorem held_recently [DecidableEq ι] (h : (timely gap latency).Steps (.start keepalive) es s) (hk : s.LosesAtMost k) :
    (∀ input, s.held = some input →
      ∃ t, (t, input) ∈ s.frames ∧ s.nowMs ≤ t + gap + latency + k * (keepalive + gap)) ∧
    (s.held = none → ∀ first ∈ s.frames.head?, s.nowMs ≤ first.fst + latency + k * (keepalive + gap)) ∧
    (∀ input, (∃ first ∈ s.frames.head?, first.fst + gap + latency + k * (keepalive + gap) < s.nowMs) →
      (∀ f ∈ s.frames, s.nowMs ≤ f.fst + gap + latency + k * (keepalive + gap) → f.snd = input) →
        s.held = some input) := by
  have ⟨hsome, hnone⟩ := held_recent h hk
  refine ⟨hsome, hnone, fun input ⟨first, hf, hlt⟩ hi => ?_⟩
  cases hh : s.held
  case none =>
    have := hnone hh first hf
    omega
  case some held =>
    obtain ⟨t, ht, hle⟩ := hsome held hh
    exact congrArg some (hi _ ht hle)

-- The second input is lost, and repeated once the keepalive is due.
theorem held_recently_lossy : ∃ s : State Nat, s.held = some 2 ∧
    (timely 5 3).Steps (.start 10) [.frame 0 1 false, .deliver 2, .frame 5 2 true, .frame 10 2 false,
      .frame 15 2 false, .deliver 17, .frame 20 2 false] s ∧
    ∃ t, (t, 2) ∈ s.frames ∧ s.nowMs ≤ t + 5 + 3 + 1 * (10 + 5) := by
  let s : State Nat := {
    nowMs   := 20
    policy  := { lastSent := some 2, lastSentMs := 15, keepaliveMs := 10, enabled := true }
    frames  := [(0, 1), (5, 2), (10, 2), (15, 2), (20, 2)]
    sent    := [⟨1, 0, 0, false⟩, ⟨2, 5, 10, true⟩, ⟨2, 15, 20, false⟩]
    arrived := 3 }
  have hk : s.LosesAtMost 1 := by
    intro run hr hl
    have hc : s.sent.IsChain fun m n => ¬(m.lost ∧ n.lost) := by decide
    match run with
    | []          => exact Nat.zero_le _
    | [_]         => exact le_rfl
    | m :: n :: _ => exact absurd ⟨hl m (by simp), hl n (by simp)⟩ (List.isChain_cons_cons.mp ( List.IsChain.infix hc hr)).left
  have hs := Machine.run_eq_some_iff.mp (by decide +kernel : (timely 5 3).run (.start 10) [.frame 0 1 false, .deliver 2,
    .frame 5 2 true, .frame 10 2 false, .frame 15 2 false, .deliver 17, .frame 20 2 false] = some s)
  exact ⟨s, rfl, hs, (held_recently hs hk).left 2 rfl⟩

end Plaza.Protocols.HeldInput
