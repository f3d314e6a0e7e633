import Plaza.WsClient.Pump

namespace Plaza.WsClient.Link

open ClientUtils Plaza.Wire

variable {l l' : Link} {step : Step} {steps : List Step} {roundTrip interval : Nat} {probe : Probe} {pong : Pong}

-- A probe that is out belongs to the present epoch, and was sent.
def Current (l : Link) : Prop :=
  ∀ probe, l.pump.probe = some probe → probe.epoch = l.pump.timeline.epoch ∧ probe.sentAt ∈ l.sent

theorem onMessage_matching (hp : l.pump.probe = some probe) (he : probe.epoch = l.pump.timeline.epoch)
    (ho : pong.origin = probe.sentAt) (now : Nat) :
    (l.pump.onMessage (.pong pong) now).timeline.rtt = l.pump.timeline.rtt ++ [now - pong.origin] := by
  simp [FramePump.onMessage, hp, ho, Timeline.complete, he]

theorem onMessage_mismatched (h : ∀ probe, l.pump.probe = some probe → pong.origin ≠ probe.sentAt) (now : Nat) :
    (l.pump.onMessage (.pong pong) now).timeline = l.pump.timeline := by
  cases hp : l.pump.probe
  case none       => simp [FramePump.onMessage, hp]
  case some probe => simp [FramePump.onMessage, hp, h probe hp]

-- A pong takes the probe, whether it is its answer or not.
theorem onMessage_probe (now : Nat) : (l.pump.onMessage (.pong pong) now).probe = none := by
  cases hp : l.pump.probe
  case none => simp [FramePump.onMessage, hp]
  case some =>
    simp only [FramePump.onMessage, hp]
    split <;> rfl

-- The pump remembers a single probe.
theorem able_iff (h : l.Current) :
    l.Able ↔ ∀ origin, l.Unanswered origin → l.pump.probe.any (·.sentAt = origin) := by
  constructor <;> intro ha origin ho
  case mp =>
    by_contra hn
    have hm := ha origin ho none 0
    rw [onMessage_mismatched] at hm
    · simp at hm
    · intro probe hp hs
      simp only [hp, Option.any_some, decide_eq_true_eq] at hn
      exact hn hs.symm
  case mpr =>
    intro responder now
    have ⟨probe, hp, hs⟩ := Option.any_eq_true .. |>.mp (ha origin ho)
    exact onMessage_matching hp (h probe hp).left (by simpa using (of_decide_eq_true hs).symm) now

-- What a drain does: a probe goes out that takes the place of the one before, or nothing happens.
theorem drain_cases (p : FramePump) (now : Nat) (isOpen : Bool) :
    p.drain now isOpen = (p, none) ∨
      p.drain now isOpen = ({ p with lastPingMs := now, probe := some ⟨p.timeline.epoch, now⟩ }, some ⟨now⟩) := by
  unfold FramePump.drain
  split
  case isTrue  => exact .inr rfl
  case isFalse => exact .inl rfl

theorem current_step (h : l.Current) (hs : (machine roundTrip).step l step = some l') : l'.Current := by
  cases step
  case wait ms =>
    simp only [machine, Option.ite_none_right_eq_some, Option.some.injEq] at hs
    exact hs.right ▸ h
  case arrive responder =>
    simp only [machine] at hs
    split at hs <;> simp only [reduceCtorEq, Option.ite_none_right_eq_some, Option.some.injEq] at hs
    exact hs.right ▸ h
  case stray message =>
    simp only [machine, Option.some.injEq] at hs
    exact hs ▸ h
  case drain isOpen =>
    simp only [machine, Option.some.injEq] at hs
    subst hs
    cases drain_cases l.pump l.now isOpen
    case inl he => simpa [Current, he] using h
    case inr he => simp [Current, he]
  case digest =>
    simp only [machine] at hs
    split at hs <;> simp only [reduceCtorEq, Option.some.injEq] at hs
    case h_2 message _ _ =>
      subst hs
      intro probe hp
      cases message
      case other => exact h probe hp
      case pong  => simp [onMessage_probe] at hp

-- The probe is overwritten by the next one, and taken by any answer.
theorem able_step (h : l.Current) (ha : l.Able) (hs : (machine roundTrip).step l step = some l') :
    l'.Able ↔ l.Timely step := by
  have hc := current_step h hs
  cases step
  case wait ms =>
    simp only [machine, Option.ite_none_right_eq_some, Option.some.injEq] at hs
    exact hs.right ▸ iff_of_true ha trivial
  case arrive responder =>
    simp only [machine] at hs
    split at hs <;> simp only [reduceCtorEq, Option.ite_none_right_eq_some, Option.some.injEq] at hs
    exact hs.right ▸ iff_of_true ha trivial
  case stray message =>
    simp only [machine, Option.some.injEq] at hs
    exact hs ▸ iff_of_true ha trivial
  case drain isOpen =>
    rw [able_iff hc]
    rw [able_iff h] at ha
    simp only [machine, Option.some.injEq] at hs
    subst hs
    cases drain_cases l.pump l.now isOpen
    case inl he =>
      refine iff_of_true ?_ (by simp [Timely, he])
      simpa [he, Unanswered] using ha
    case inr he =>
      simp only [he, Unanswered, Timely, Option.isSome_some, forall_const, Option.any_some, Option.toList_some,
        List.map_cons, List.map_nil, List.mem_append, List.mem_singleton, decide_eq_true_eq]
      constructor
      case mp  => exact fun hn origin hs hu => (hn origin ⟨.inl hs, hu⟩).symm
      case mpr =>
        intro hn origin ⟨hs, hu⟩
        match hs with
        | .inl hs => exact (hn origin hs hu).symm
        | .inr hs => exact hs.symm
  case digest =>
    rw [able_iff hc]
    rw [able_iff h] at ha
    simp only [machine] at hs
    split at hs <;> simp only [reduceCtorEq, Option.some.injEq] at hs
    case h_2 message events he =>
      subst hs
      cases message
      case other => 
        refine iff_of_true ha ?_
        simp [Timely, he, Message.spares]
      case pong pong =>
        simp only [onMessage_probe, Timely, he, List.head?_cons, Option.all_some, Message.spares, decide_eq_true_eq,
          Option.any_none, Bool.false_eq_true, imp_false]
        constructor
        case mp =>
          intro hn origin hs hu
          by_contra ho
          refine hn origin ⟨hs, ?_⟩
          simp only [answer]
          split
          case isTrue  => simpa [hu] using Ne.symm ho
          case isFalse => exact hu
        case mpr =>
          intro hn origin ⟨hs, hu⟩
          simp only [answer] at hu
          split at hu
          case isTrue hm =>
            have hu := not_or.mp (mt List.mem_append.mpr hu)
            exact hu.right (List.mem_singleton.mpr (hn origin hs hu.left).symm)
          case isFalse hm => exact hm (hn origin hs hu ▸ hs)

-- Every answer completes its sample exactly as long as no probe goes out, and no other answer comes in, while one
-- is waited for.
theorem able_throughout_iff (h : (machine roundTrip).Steps (new interval) steps l) :
    (machine roundTrip).Always Able (new interval) steps ↔
      ((machine roundTrip).restrict Timely).Steps (new interval) steps l := by
  have hc : (new interval).Current := by simp [Current, new, FramePump.new]
  have ha : (new interval).Able := by simp [Able, Unanswered, new]
  exact h.always_iff (P := Timely) current_step able_step hc ha

-- On a link which answers before the next probe is due.
theorem able_throughout_short :
    ∃ l steps, (machine 100).Steps (new 1000) steps l ∧ (machine 100).Always Able (new 1000) steps ∧
      l.pump.timeline.rtt = [100] := by
  have hr : ((machine 100).restrict Timely |>.run (new 1000)
      [.wait 1000, .drain true, .wait 100, .arrive none, .drain true, .digest]).any fun l =>
        l.pump.timeline.rtt = [100] := by decide +kernel
  have ⟨l, hs, hl⟩ := Option.any_eq_true .. |>.mp hr
  have hs := Machine.run_eq_some_iff.mp hs
  exact ⟨l, _, hs.of_restrict, (able_throughout_iff hs.of_restrict).mpr hs, of_decide_eq_true hl⟩

-- On a slower link the probe has been overwritten when its answer arrives.
theorem long_trip_unmeasured :
    ∃ l steps, (machine 1500).Steps (new 1000) steps l ∧ ¬(machine 1500).Always Able (new 1000) steps ∧
      l.answered = [1000] ∧ l.pump.timeline.rtt = [] := by
  have hr : ((machine 1500).run (new 1000)
      [.wait 1000, .drain true, .wait 1000, .drain true, .wait 500, .arrive none, .drain true, .digest]).any fun l =>
        l.answered = [1000] && l.pump.timeline.rtt = [] := by decide +kernel
  have ⟨l, hs, hl⟩ := Option.any_eq_true .. |>.mp hr
  simp only [Bool.and_eq_true, decide_eq_true_eq] at hl
  refine ⟨l, _, Machine.run_eq_some_iff.mp hs, ?_, hl⟩
  intro h
  have h := h.right _ rfl |>.right _ rfl |>.right _ rfl |>.right _ rfl |>.head
  exact absurd (h 1000 ⟨by decide, by decide⟩ none 2500) (by decide)

end Plaza.WsClient.Link
