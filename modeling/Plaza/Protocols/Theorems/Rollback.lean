import Plaza.ClientUtils.Theorems.Rollback
import Plaza.Protocols.Rollback

open Plaza.ClientUtils RollbackSession

namespace Plaza.Protocols.Rollback

variable {σ ι : Type*} {n : Nat} {s s' : Peer σ ι n} {truth : Nat → Fin n → ι} {init : σ}
  {advance : σ → (Fin n → ι) → σ} {cap head f : Nat} {p : Fin n} {t : InputTimeline ι} {a : σ}

-- The timeline knows the inputs that were given, as far back as its capacity reaches from the newest
-- of them.
structure Holds (t : InputTimeline ι) (cap head : Nat) (truth : Nat → ι) (fed : Nat → Prop) :
    Prop where
  capacity  : t.capacity = cap
  base      : t.slots.base = t.slots.stop - cap
  stop      : t.slots.stop ≤ head + 1
  last      : t.slots.stop = 0 ∨ fed (t.slots.stop - 1)
  bound     : ∀ f, fed f → f < t.slots.stop
  confirmed : ∀ f, fed f → t.slots.base ≤ f → t.confirmedAt f = some (truth f)

namespace Holds

variable {truth : Nat → ι} {fed fed' : Nat → Prop}

theorem congr (h : Holds t cap head truth fed) (hf : ∀ f, fed' f ↔ fed f) :
    Holds t cap head truth fed' := by
  have : fed' = fed := funext fun f => propext (hf f)
  exact this ▸ h

theorem head_le {head' : Nat} (h : Holds t cap head truth fed) (hh : head ≤ head') :
    Holds t cap head' truth fed :=
  { h with stop := Nat.le_trans h.stop <| Nat.succ_le_succ hh }

theorem isEmpty_iff (h : Holds t cap head truth fed) : t.slots.items.isEmpty ↔ t.slots.stop = 0 := by
  have hb := h.base
  have hc := h.capacity ▸ t.capacity_pos
  rw [List.isEmpty_iff_length_eq_zero]
  simp only [Window.stop] at hb ⊢
  omega

-- An input is kept that is not too far behind.
theorem accepts (h : Holds t cap head truth fed) (hn : ∀ g, fed g → g < f + cap) : t.Accepts f := by
  have hc := h.capacity ▸ t.capacity_pos
  have hb := h.base
  have hl : t.slots.stop = 0 ∨ t.slots.stop ≤ f + cap :=
    h.last.imp_right fun hl => by have := hn _ hl; omega
  rw [InputTimeline.Accepts, h.isEmpty_iff]
  omega

theorem stop_confirm {i : ι} (h : Holds t cap head truth fed) (ha : t.Accepts f) :
    (t.confirm f i).slots.stop = max t.slots.stop (f + 1) := by
  rw [ha.stop_confirm]
  split
  case isTrue he =>
    have := h.isEmpty_iff.mp he
    omega
  case isFalse => rfl

-- The first input has to be that for the first frame.
theorem base_confirm {i : ι} (h : Holds t cap head truth fed) (ha : t.Accepts f) (h₀ : f = 0 ∨ ∃ g, fed g) :
    (t.confirm f i).slots.base = max t.slots.stop (f + 1) - cap := by
  have hc := h.capacity ▸ t.capacity_pos
  have hb := h.base
  have he := h.isEmpty_iff
  rw [ha.base_confirm, h.capacity]
  split
  case isFalse => omega
  case isTrue he' =>
    have hz := he.mp he'
    have hn : ¬∃ g, fed g := by
      intro hg
      obtain ⟨g, hg⟩ := hg
      have := h.bound g hg
      omega
    have := h₀.resolve_right hn
    omega

-- An input is kept if it is the first one and for the first frame, or if it is not too far behind.
theorem confirm (h : Holds t cap head truth fed) (hf : f ≤ head) (h₀ : f = 0 ∨ ∃ g, fed g)
    (hn : ∀ g, fed g → g < f + cap) :
    Holds (t.confirm f (truth f)) cap head truth fun g => g = f ∨ fed g := by
  have hb := h.base
  have hs := h.stop
  have ha := h.accepts hn
  have hstop := h.stop_confirm (i := truth f) ha
  have hbase := h.base_confirm (i := truth f) ha h₀
  constructor
  case capacity =>
    unfold InputTimeline.confirm
    split <;> [exact h.capacity; (split <;> exact h.capacity)]
  case base => rw [hstop, hbase]
  case stop =>
    rw [hstop]
    omega
  case last =>
    rw [hstop]
    cases Nat.le_total t.slots.stop (f + 1)
    case inl hle => exact .inr <| .inl <| by omega
    case inr hle =>
      rw [Nat.max_eq_left hle]
      exact h.last.imp_right .inr
  case bound =>
    intro g hg
    rw [hstop]
    cases hg
    case inl hg => omega
    case inr hg =>
      have := h.bound g hg
      omega
  case confirmed =>
    intro g hg hl
    rw [ha.confirmedAt_confirm hl]
    split
    case isTrue hg => rw [hg]
    case isFalse hne =>
      have hg := hg.resolve_left hne
      exact h.confirmed g hg (by omega)

end Holds

-- What the session shows is the sequential simulation with the true inputs, as far as it was given
-- them. The others are its predictions.
def Converged (truth : Nat → Fin n → ι) (init : σ) (advance : σ → (Fin n → ι) → σ) (s : Peer σ ι n) :
    Prop :=
  ∃ inputs : Nat → Fin n → ι, (∀ p f, (p, f) ∈ s.fed → f < s.head → inputs f p = truth f p) ∧
    ∀ f a, s.session.stateAt f = some a → f ≤ s.head ∧ a = groundTruth advance init inputs f

theorem Converged.eq_groundTruth (h : Converged truth init advance s)
    (hf : ∀ g < f, ∀ p, (p, g) ∈ s.fed) (ha : s.session.stateAt f = some a) :
    a = groundTruth advance init truth f := by
  have ⟨inputs, hi, hs⟩ := h
  have ⟨hl, ha⟩ := hs f a ha
  rw [ha]
  apply groundTruth_congr
  intro g hg
  funext p
  exact hi p g (hf g hg p) <| Nat.lt_of_lt_of_le hg hl

structure Tracks (truth : Nat → Fin n → ι) (init : σ) (advance : σ → (Fin n → ι) → σ)
    (cap : Nat) (s : Peer σ ι n) : Prop where
  enabled   : s.session.rollbackEnabled
  advance   : s.session.advance = advance
  marked    : ∀ e ∈ s.session.earliestIncorrect, s.head - cap ≤ e ∧ e < s.head
  timelines : ∀ p, Holds (s.session.timelines p) cap s.head (truth · p) fun f => (p, f) ∈ s.fed
  replays   : ∃ inputs, s.session.Replays init inputs cap (s.head - cap) s.head s.head ∧
    ∀ p f, (p, f) ∈ s.fed → f < s.head →
      inputs f p = truth f p ∨ ∃ e ∈ s.session.earliestIncorrect, e ≤ f

namespace Tracks

theorem start (init : σ) (neutral : Fin n → ι) (config : RollbackConfig)
    (advance : σ → (Fin n → ι) → σ) (predictor : ι → Nat → ι) :
    Tracks truth init advance (max config.maxRollbackFrames 1)
      (.start init neutral config advance predictor) where
  enabled   := rfl
  advance   := rfl
  marked    := nofun
  timelines := fun _ => ⟨rfl, (Nat.zero_sub _).symm, Nat.zero_le _, .inl rfl, nofun, nofun⟩
  replays   := ⟨fun _ => neutral, ⟨⟨rfl, (Nat.zero_sub _).symm, rfl, rfl⟩,
    fun _ => ⟨rfl, (Nat.zero_sub _).symm, rfl, rfl⟩, Nat.sub_le .., Nat.le_refl _, nofun, nofun, rfl⟩, nofun⟩

theorem depth_eq (h : Tracks truth init advance cap s) : s.depth = cap :=
  have ⟨_, hr, _⟩ := h.replays
  hr.states.capacity

theorem cap_pos (h : Tracks truth init advance cap s) : 0 < cap :=
  have ⟨_, hr, _⟩ := h.replays
  hr.states.cap_pos

theorem lt_add_cap {g : Nat} (h : Tracks truth init advance cap s) (hg : g ≤ f) : g < f + cap :=
  Nat.lt_of_le_of_lt hg <| Nat.lt_add_of_pos_right h.cap_pos

theorem le_head (h : Tracks truth init advance cap s) (hf : (p, f) ∈ s.fed) : f ≤ s.head := by
  have := (h.timelines p).bound f hf
  have := (h.timelines p).stop
  omega

theorem confirm (h : Tracks truth init advance cap s) (hf : f ≤ s.head)
    (h₀ : f = 0 ∨ ∃ g, (p, g) ∈ s.fed) (hn : ∀ g, (p, g) ∈ s.fed → g < f + cap) (q : Fin n) :
    Holds ((s.session.confirm p f (truth f p)).timelines q) cap s.head (truth · q)
      fun g => (q, g) ∈ (p, f) :: s.fed := by
  simp only [RollbackSession.confirm]
  by_cases hq : q = p
  case pos =>
    subst hq
    rw [Function.update_self]
    exact ((h.timelines q).confirm hf h₀ hn).congr fun g => by simp
  case neg =>
    rw [Function.update_of_ne hq]
    exact (h.timelines q).congr fun g => by simp [hq]

theorem queueLocalInput (h : Tracks truth init advance cap s)
    (h₀ : s.head = 0 ∨ ∃ g, (p, g) ∈ s.fed) :
    Tracks truth init advance cap {
      session := s.session.queueLocalInput p (truth s.head p)
      fed     := (p, s.head) :: s.fed } where
  enabled   := h.enabled
  advance   := h.advance
  marked    := h.marked
  timelines :=
    h.confirm (Nat.le_refl _) h₀ fun _ hg => h.lt_add_cap <| h.le_head hg
  replays   := by
    have ⟨inputs, hr, hi⟩ := h.replays
    refine ⟨inputs, { hr with }, fun q g hg hl => ?_⟩
    cases hg
    case head    => exact absurd hl <| Nat.lt_irrefl _
    case tail hg => exact hi q g hg hl

theorem confirmRemoteInput [DecidableEq ι] (h : Tracks truth init advance cap s) (hf : f ≤ s.head)
    (hd : s.head ≤ f + s.depth) (h₀ : f = 0 ∨ ∃ g, (p, g) ∈ s.fed)
    (hn : ∀ g, (p, g) ∈ s.fed → g < f + cap) :
    Tracks truth init advance cap {
      session := s.session.confirmRemoteInput p f (truth f p)
      fed     := (p, f) :: s.fed } where
  enabled   := h.enabled
  advance   := h.advance
  timelines := h.confirm hf h₀ hn
  marked    := by
    intro e he
    rw [h.depth_eq] at hd
    cases earliestIncorrect_of_confirmRemoteInput he
    case inl he => exact h.marked e he
    case inr he =>
      have ⟨he, hl, _⟩ := he
      exact ⟨Nat.sub_le_iff_le_add.mpr <| he ▸ hd, he ▸ hl⟩
  replays   := by
    have ⟨inputs, hr, hi⟩ := h.replays
    refine ⟨inputs, { hr with }, fun q g hg hl => ?_⟩
    cases hg
    case head =>
      by_cases he : inputs f p = truth f p
      case pos => exact .inl he
      case neg =>
        rw [h.depth_eq] at hd
        refine .inr <| earliestIncorrect_le_of_confirmRemoteInput <| .inr ?_
        exact ⟨Nat.le_refl _, hl, _, hr.restoreUsed p f (Nat.sub_le_iff_le_add.mpr hd) hl, he⟩
    case tail hg =>
      exact (hi q g hg hl).imp_right (earliestIncorrect_le_of_confirmRemoteInput <| .inl ·)

-- An input that was given is still there when its frame is simulated again.
theorem inputFor_eq (h : Tracks truth init advance cap s) (hf : (p, f) ∈ s.fed)
    (hn : ∀ g, (p, g) ∈ s.fed → g < f + cap) : s.session.inputFor p f = truth f p := by
  have ht := h.timelines p
  have hb : (s.session.timelines p).slots.base ≤ f := by
    rw [ht.base]
    cases ht.last
    case inl hl => omega
    case inr hl =>
      have := hn _ hl
      omega
  simp only [inputFor, ht.confirmed f hf hb]

-- From where the rollback starts on, every input that was given is used.
theorem replayed_eq {inputs : Nat → Fin n → ι} (h : Tracks truth init advance cap s)
    (hn : ∀ e ∈ s.session.earliestIncorrect, ∀ p f, (p, f) ∈ s.fed → f < e + cap)
    (hr : s.session.Replays init inputs cap (s.head - cap) s.head s.head) (hf : (p, f) ∈ s.fed)
    (hi : f < s.head → inputs f p = truth f p ∨ ∃ e ∈ s.session.earliestIncorrect, e ≤ f) :
    s.session.replayed inputs f p = truth f p := by
  by_cases hc : s.session.headFrame ≤ f ∨ ∃ r ∈ s.session.rollbackStart, r ≤ f
  case pos =>
    rw [replayed_eq_inputFor hc]
    apply h.inputFor_eq hf
    intro g hg
    cases hc
    case inl hh => exact h.lt_add_cap <| Nat.le_trans (h.le_head hg) hh
    case inr hc =>
      have ⟨r, hs, hl⟩ := hc
      have ⟨_, _, e, he, _, hr⟩ := hr.rollbackStart_eq_some_iff.mp hs
      have := hn e he p g hg
      omega
  case neg =>
    simp only [not_or, not_exists, not_and, Nat.not_le] at hc
    rw [replayed_eq_inputs hc.left hc.right]
    cases hi hc.left
    case inl hi => exact hi
    case inr hi =>
      have ⟨e, he, hl⟩ := hi
      have ⟨hm, hm'⟩ := h.marked e he
      have hs := hr.rollbackStart_eq_some_iff.mpr
        ⟨h.enabled, Nat.lt_of_le_of_lt hm hm', e, he, hm', rfl⟩
      have := hc.right _ hs
      omega

theorem advanceFrame (h : Tracks truth init advance cap s)
    (hn : ∀ e ∈ s.session.earliestIncorrect, ∀ p f, (p, f) ∈ s.fed → f < e + cap) :
    Tracks truth init advance cap s.advanceFrame := by
  have ⟨inputs, hr, hi⟩ := h.replays
  have ⟨hs, hf, he⟩ := s.session.advanceFrame_setup
  have hf : s.advanceFrame.head = s.head + 1 := hf
  constructor
  case enabled   => exact hs.rollbackEnabled.trans h.enabled
  case advance   => exact hs.advance.trans h.advance
  case marked    => simp [Peer.advanceFrame, he]
  case timelines =>
    intro p
    rw [hf, Peer.advanceFrame, hs.timelines]
    exact (h.timelines p).head_le <| Nat.le_succ _
  case replays   =>
    have hr' := hr.advanceFrame
    have hl : max (s.head - cap) (s.head + 1 - cap) = s.head + 1 - cap := by omega
    refine ⟨s.session.replayed inputs, hf ▸ hl ▸ hr', fun p f hp _ => .inl ?_⟩
    exact h.replayed_eq hn hr hp <| hi p f hp

-- After the session advanced no correction is left to be made.
theorem converged (h : Tracks truth init advance cap s) (he : s.session.earliestIncorrect = none) :
    Converged truth init advance s := by
  have ⟨inputs, hr, hi⟩ := h.replays
  refine ⟨inputs, fun p f hp hl => ?_, fun f a ha => ?_⟩
  case refine_1 => exact (hi p f hp hl).resolve_right <| by simp [he]
  case refine_2 => exact h.advance ▸ (hr.bounds_of_stateAt ha).right

end Tracks

end Plaza.Protocols.Rollback

namespace Plaza.Protocols.Rollback

variable {σ ι : Type*} {n : Nat} {s s' : Peer σ ι n} {e : Event n}
  {es : List (Event n)} {truth : Nat → Fin n → ι} {init : σ} {neutral : Fin n → ι}
  {config : RollbackConfig} {advance : σ → (Fin n → ι) → σ} {predictor : ι → Nat → ι}
  {cap f : Nat} {p : Fin n} {a : σ}

theorem startsAtFirst_iff (hf : e.feeds s = some (p, f)) :
    e.startsAtFirst s ↔ f = 0 ∨ ∃ g, (p, g) ∈ s.fed := by
  simp [Event.startsAtFirst, hf]

theorem isInOrder_iff (hf : e.feeds s = some (p, f)) :
    e.isInOrder s ↔ ∀ g < f, (p, g) ∈ s.fed := by
  simp [Event.isInOrder, hf]

theorem isShallow_iff :
    Event.advanceFrame.isShallow s ↔
      ∀ e ∈ s.session.earliestIncorrect, ∀ p f, (p, f) ∈ s.fed → f < e + s.depth := by
  cases he : s.session.earliestIncorrect <;> simp [Event.isShallow, he]

-- What comes of it when every input is less than the depth behind the head, and the first input of
-- each player is the one for the first frame.
structure Prompt (truth : Nat → Fin n → ι) (init : σ) (advance : σ → (Fin n → ι) → σ) (cap : Nat)
    (s : Peer σ ι n) : Prop extends Tracks truth init advance cap s where
  close : ∀ e ∈ s.session.earliestIncorrect, s.head < e + cap

theorem Prompt.isShallow (h : Prompt truth init advance cap s) :
    ∀ e ∈ s.session.earliestIncorrect, ∀ p f, (p, f) ∈ s.fed → f < e + cap :=
  fun e he _ _ hf => Nat.lt_of_le_of_lt (h.le_head hf) (h.close e he)

variable [DecidableEq ι]

-- An input that is given was not given before.
theorem step_fed (hs : (machine truth).step s e = some s') :
    s'.fed = (e.feeds s).toList ++ s.fed ∧ ∀ x ∈ e.feeds s, x ∉ s.fed := by
  cases e <;> simp only [machine, Event.feeds] at hs ⊢
  case queueLocalInput p =>
    split at hs <;> cases hs
    exact ⟨rfl, by simpa⟩
  case confirmRemoteInput p f =>
    split at hs <;> cases hs
    case isTrue hg => exact ⟨rfl, by simpa using hg.left⟩
  case advanceFrame =>
    cases hs
    exact ⟨rfl, nofun⟩

theorem step_tracks (h : Tracks truth init advance cap s) (hs : (machine truth).step s e = some s')
    (h₀ : ∀ p f, e.feeds s = some (p, f) →
      (f = 0 ∨ ∃ g, (p, g) ∈ s.fed) ∧ ∀ g, (p, g) ∈ s.fed → g < f + cap)
    (hn : e = .advanceFrame →
      ∀ e ∈ s.session.earliestIncorrect, ∀ p f, (p, f) ∈ s.fed → f < e + cap) :
    Tracks truth init advance cap s' := by
  cases e <;> simp only [machine] at hs
  case queueLocalInput p =>
    split at hs <;> cases hs
    exact h.queueLocalInput (h₀ p s.head rfl).left
  case confirmRemoteInput p f =>
    split at hs <;> cases hs
    case isTrue hg =>
      have ⟨hf, hl⟩ := h₀ p f rfl
      exact h.confirmRemoteInput hg.right.left hg.right.right hf hl
  case advanceFrame =>
    cases hs
    exact h.advanceFrame (hn rfl)

theorem step_prompt (h : Prompt truth init advance cap s)
    (hs : (fromFirst truth).step s e = some s') : Prompt truth init advance cap s' := by
  have ⟨h₀, hs⟩ := Machine.restrict_step_iff.mp hs
  have ⟨ht, hs⟩ := Machine.restrict_step_iff.mp hs
  have hf {p f} (hf : e.feeds s = some (p, f)) : s.head < f + cap := by
    simpa [Event.isTimely, hf, h.depth_eq] using ht
  have hs' := step_tracks h.toTracks hs
    (fun p f he => ⟨(startsAtFirst_iff he).mp h₀, fun g hg => Nat.lt_of_le_of_lt (h.le_head hg) (hf he)⟩)
    fun _ => h.isShallow
  refine ⟨hs', ?_⟩
  cases e <;> simp only [machine] at hs
  case queueLocalInput p =>
    split at hs <;> cases hs
    exact h.close
  case confirmRemoteInput p f =>
    split at hs <;> cases hs
    intro e he
    cases earliestIncorrect_of_confirmRemoteInput he
    case inl he => exact h.close e he
    case inr he =>
      rw [he.left]
      exact hf rfl
  case advanceFrame =>
    cases hs
    simp [Peer.advanceFrame, s.session.advanceFrame_setup.right.right]

theorem steps_prompt (h : (fromFirst truth).Steps (.start init neutral config advance predictor) es s) :
    Prompt truth init advance (max config.maxRollbackFrames 1) s :=
  h.preserves step_prompt ⟨.start init neutral config advance predictor, nofun⟩

-- In whatever order the inputs arrive, once all of them are known for the frames before some frame,
-- and the session has advanced, this frame has the state of the sequential simulation.
theorem fromFirst_converges
    (h : (fromFirst truth).Steps (.start init neutral config advance predictor) es s)
    (hf : ∀ g < f, ∀ p, (p, g) ∈ s.fed) (ha : s.session.advanceFrame.stateAt f = some a) :
    a = groundTruth advance init truth f := by
  have hp := steps_prompt h
  have hc := (hp.advanceFrame hp.isShallow).converged s.session.advanceFrame_setup.right.right
  exact hc.eq_groundTruth hf ha

theorem fromFirst_converges_reordered :
    ∃ s a, (fromFirst fun f _ => f + 5).Steps
        (.start 0 (fun _ : Fin 1 => 0) {} (fun state inputs => 2 * state + inputs 0) repeatLastInput)
        [.confirmRemoteInput 0 0, .advanceFrame, .advanceFrame, .confirmRemoteInput 0 2,
          .confirmRemoteInput 0 1] s ∧
      s.session.advanceFrame.stateAt 3 = some a ∧
      a = groundTruth (fun state inputs => 2 * state + inputs 0) 0 (fun f (_ : Fin 1) => f + 5) 3 :=
  have h := .step rfl <| .step rfl <| .step rfl <| .step rfl <| .step rfl .refl
  ⟨_, _, h, rfl, fromFirst_converges h (by decide) rfl⟩

-- If another input of a player comes first, then the timeline starts at its frame. What comes for an
-- earlier frame is dropped, although the session has still got the state at this frame.
theorem timely_diverges :
    ¬∀ (truth : Nat → Fin 1 → Nat) (config : RollbackConfig) (es : List (Event 1))
        (s : Peer Nat Nat 1) (f a : Nat),
      (timely truth).Steps
        (.start 0 (fun _ => 0) config (fun state inputs => state + inputs 0) repeatLastInput) es s →
      (∀ g < f, ∀ p, (p, g) ∈ s.fed) → s.session.advanceFrame.stateAt f = some a →
      a = groundTruth (fun state inputs => state + inputs 0) 0 truth f :=
  fun hc =>
    have h := .step rfl <| .step rfl <| .step rfl .refl
    absurd (hc (fun _ _ => 5) {} [.advanceFrame, .confirmRemoteInput 0 1, .confirmRemoteInput 0 0] _ 1 _
      h (by decide) rfl) (by decide)

-- What comes of it when each player's inputs are given in order.
structure Ordered (truth : Nat → Fin n → ι) (init : σ) (advance : σ → (Fin n → ι) → σ) (cap : Nat)
    (s : Peer σ ι n) : Prop extends Tracks truth init advance cap s where
  closed : ∀ p f, (p, f) ∈ s.fed → ∀ g < f, (p, g) ∈ s.fed

theorem step_ordered (h : Ordered truth init advance cap s)
    (hs : (shallow truth).step s e = some s') : Ordered truth init advance cap s' := by
  have ⟨hn, hs⟩ := Machine.restrict_step_iff.mp hs
  have ⟨ho, hs⟩ := Machine.restrict_step_iff.mp hs
  have ⟨hf, hd⟩ := step_fed hs
  have ho {p f} (he : e.feeds s = some (p, f)) := (isInOrder_iff he).mp ho
  constructor
  case toTracks =>
    apply step_tracks h.toTracks hs
    case h₀ =>
      intro p f he
      refine ⟨?_, fun g hg => ?_⟩
      case refine_1 =>
        cases f
        case zero => exact .inl rfl
        case succ f => exact .inr ⟨f, ho he f <| Nat.lt_succ_self f⟩
      case refine_2 =>
        apply h.lt_add_cap
        by_contra hl
        exact hd _ he <| h.closed p g hg f (Nat.lt_of_not_le hl)
    case hn =>
      intro he
      subst he
      exact h.depth_eq ▸ isShallow_iff.mp hn
  case closed =>
    intro p f hm g hg
    rw [hf, List.mem_append, Option.mem_toList] at hm
    rw [hf]
    apply List.mem_append_right
    cases hm
    case inl hm => exact ho hm g hg
    case inr hm => exact h.closed p f hm g hg

theorem steps_ordered (h : (shallow truth).Steps (.start init neutral config advance predictor) es s) :
    Ordered truth init advance (max config.maxRollbackFrames 1) s :=
  h.preserves step_ordered ⟨.start init neutral config advance predictor, nofun⟩

-- A correction is made with the inputs that were given, the local ones among them.
theorem shallow_converges
    (h : (shallow truth).Steps (.start init neutral config advance predictor) es s)
    (hs : (shallow truth).step s .advanceFrame = some s') :
    Converged truth init advance s' ∧
    ∀ f a, (∀ g < f, ∀ p, (p, g) ∈ s'.fed) → s'.session.stateAt f = some a →
      a = groundTruth advance init truth f := by
  have ho := step_ordered (steps_ordered h) hs
  have ⟨_, hs⟩ := Machine.restrict_step_iff.mp hs
  have ⟨_, hs⟩ := Machine.restrict_step_iff.mp hs
  simp only [machine, Option.some.injEq] at hs
  have hc := ho.converged <| hs ▸ s.session.advanceFrame_setup.right.right
  exact ⟨hc, fun _ _ => hc.eq_groundTruth⟩

theorem shallow_converges_corrected :
    ∃ s s', (shallow fun _ _ => 5).Steps
        (.start 0 (fun _ : Fin 2 => 0) { maxRollbackFrames := 2 }
          (fun state inputs => state + inputs 0) repeatLastInput)
        [.queueLocalInput 0, .advanceFrame, .confirmRemoteInput 1 0, .queueLocalInput 0] s ∧
      (shallow fun _ _ => 5).step s .advanceFrame = some s' ∧
      Converged (fun _ _ => 5) 0 (fun state inputs => state + inputs 0) s' :=
  have h := .step rfl <| .step rfl <| .step rfl <| .step rfl .refl
  ⟨_, _, h, rfl, (shallow_converges h rfl).left⟩

-- A correction of the oldest retained frame comes too late for the local input of this frame: the one
-- for the current frame has taken its place.
theorem inOrder_diverges :
    ¬∀ (truth : Nat → Fin 2 → Nat) (config : RollbackConfig) (es : List (Event 2))
        (s s' : Peer Nat Nat 2),
      (inOrder truth).Steps
        (.start 0 (fun _ => 0) config (fun state inputs => state + inputs 0) repeatLastInput) es s →
      (inOrder truth).step s .advanceFrame = some s' →
      Converged truth 0 (fun state inputs => state + inputs 0) s' := by
  intro hc
  have ⟨inputs, hi, hs⟩ := hc (fun _ p => if p = 0 then 1 else 5) { maxRollbackFrames := 2 }
    [.queueLocalInput 0, .advanceFrame, .queueLocalInput 0, .advanceFrame, .confirmRemoteInput 1 0,
      .queueLocalInput 0] _ _
    (.step rfl <| .step rfl <| .step rfl <| .step rfl <| .step rfl <| .step rfl .refl) rfl
  have h₀ : inputs 0 0 = 1 := hi 0 0 (by decide) (by decide)
  have h₁ : inputs 1 0 = 1 := hi 0 1 (by decide) (by decide)
  have h₂ : inputs 2 0 = 1 := hi 0 2 (by decide) (by decide)
  have hs := (hs 3 2 rfl).right
  simp [groundTruth, h₀, h₁, h₂] at hs

end Plaza.Protocols.Rollback
