import Mathlib.Data.List.Forall2
import Mathlib.Data.List.Range
import Plaza.Session.Downlink
import Plaza.Session.Theorems.Conditioner

namespace Plaza.Session

open Wire

theorem Handed.inForce_delay_le {h : Handed} : h.inForce.delay ≤ h.profile.delay := by
  rw [inForce]
  split
  case isTrue  => exact Nat.le_refl _
  case isFalse => exact Nat.zero_le _

namespace Ledger

variable {l : Ledger} {link : LinkHandle} {frame : Frame} {now capacity release : Nat} {flushed : Bool}
variable {queue ready rest : List (Nat × Frame)} {frames : List Frame} {handed : Handed}

-- A frame is held until the delay which was in force when it was handed over has passed.
def Holds (l : Ledger) (index : Nat) (p : Nat × Frame) : Prop :=
  ∃ h, l.handed[index]? = some h ∧ p.snd = h.frame ∧ h.at' + h.inForce.delay ≤ p.fst

-- A frame is not written before, except by a flush.
def Writes (l : Ledger) (w : Written) (frame : Frame) : Prop :=
  ∃ h, l.handed[w.index]? = some h ∧ frame = h.frame ∧ (w.flushed = false → h.at' + h.inForce.delay ≤ w.at')

-- Only frames with ops are refused by a full buffer, and only a datagram link loses frames.
def Drops (l : Ledger) (capacity : Nat) (d : Dropped) : Prop :=
  ∃ h, l.handed[d.index]? = some h ∧
    (capacity ≤ d.held ∧ h.frame.head? = some Frame.Kind.ops.asByte ∨
    h.profile.delivery = .datagram ∧ 0 < h.profile.loss)

-- Every frame that was handed over is in one place, and those which were written were so in order.
structure Sound (l : Ledger) (capacity : Nat) (queue : List (Nat × Frame)) (frames : List Frame) : Prop where
  places  : (l.written.map Written.index ++ l.held ++ l.dropped.map Dropped.index).Perm
    (List.range l.handed.length)
  order   : (l.written.map Written.index ++ l.held).Pairwise (· < ·)
  held    : List.Forall₂ l.Holds l.held queue
  written : List.Forall₂ l.Writes l.written frames
  dropped : ∀ d ∈ l.dropped, l.Drops capacity d

namespace Sound

protected theorem empty : empty.Sound capacity [] [] where
  places  := .refl _
  order   := .nil
  held    := .nil
  written := .nil
  dropped := nofun

theorem lt_of_mem {n : Nat} (h : l.Sound capacity queue frames) (hn : n ∈ l.written.map Written.index ++ l.held) :
    n < l.handed.length :=
  List.mem_range.mp <| h.places.mem_iff.mp <| List.mem_append_left _ hn

-- What is known of the frames stays so when another one is handed over.
theorem extend (h : l.Sound capacity queue frames) (handed : Handed) :
    List.Forall₂ (Holds { l with handed := l.handed ++ [handed] }) l.held queue ∧
    List.Forall₂ (Writes { l with handed := l.handed ++ [handed] }) l.written frames ∧
    ∀ d ∈ l.dropped, Drops { l with handed := l.handed ++ [handed] } capacity d := by
  have hg {n : Nat} {h : Handed} (hn : l.handed[n]? = some h) : (l.handed ++ [handed])[n]? = some h := by
    rw [List.getElem?_append_left (List.getElem?_eq_some_iff.mp hn).choose, hn]
  refine ⟨h.held.imp fun n p hp => ?_, h.written.imp fun w f hw => ?_, fun d hd => ?_⟩
  case refine_1 =>
    have ⟨h, hn, hp⟩ := hp
    exact ⟨h, hg hn, hp⟩
  case refine_2 =>
    have ⟨h, hn, hw⟩ := hw
    exact ⟨h, hg hn, hw⟩
  case refine_3 =>
    have ⟨h, hn, hd⟩ := h.dropped d hd
    exact ⟨h, hg hn, hd⟩

theorem getElem?_length : (l.handed ++ [handed])[l.handed.length]? = some handed := by
  simp

protected theorem direct (h : l.Sound capacity [] frames) (hd : flushed = false → link.impaired = false) :
    (l.hand link frame now flushed .direct).Sound capacity [] (frames ++ [frame]) := by
  have he := List.forall₂_nil_right_iff.mp h.held
  have ⟨_, hw, hx⟩ := h.extend ⟨frame, link.impaired, link.profile.down, now⟩
  refine ⟨?_, ?_, he ▸ .nil, List.rel_append hw (.cons ⟨_, getElem?_length, rfl, fun hf => ?_⟩ .nil), hx⟩
  case refine_1 =>
    have := h.places
    simp only [hand, he, List.map_append, List.map_singleton, List.length_append, List.length_singleton,
      List.range_succ, List.append_nil] at this ⊢
    rw [List.append_assoc]
    refine .trans (List.perm_append_comm.append_left _) ?_
    rw [←List.append_assoc]
    exact this.append_right _
  case refine_2 =>
    have ho := h.order
    simp only [hand, he, List.map_append, List.map_singleton, List.append_nil] at ho ⊢
    refine List.pairwise_append.mpr ⟨ho, List.pairwise_singleton .., fun n hn m hm => ?_⟩
    rw [List.mem_singleton.mp hm]
    exact h.lt_of_mem (List.mem_append_left _ hn)
  case refine_3 => simp [Handed.inForce, hd hf]

protected theorem hold (h : l.Sound capacity queue frames) (hr : now + link.profile.down.delay ≤ release) :
    (l.hand link frame now false .held).Sound capacity (queue ++ [(release, frame)]) frames := by
  have ⟨hh, hw, hx⟩ := h.extend ⟨frame, link.impaired, link.profile.down, now⟩
  refine ⟨?_, ?_, List.rel_append hh (.cons ⟨_, getElem?_length, rfl, ?_⟩ .nil), hw, hx⟩
  case refine_1 =>
    simp only [hand, List.length_append, List.length_singleton, List.range_succ]
    rw [←List.append_assoc, List.append_assoc]
    refine .trans (List.perm_append_comm.append_left _) ?_
    rw [←List.append_assoc]
    exact h.places.append_right _
  case refine_2 =>
    simp only [hand]
    rw [←List.append_assoc]
    refine List.pairwise_append.mpr ⟨h.order, List.pairwise_singleton .., fun n hn m hm => ?_⟩
    rw [List.mem_singleton.mp hm]
    exact h.lt_of_mem hn
  case refine_3 =>
    exact Nat.le_trans (Nat.add_le_add_left Handed.inForce_delay_le _) hr

protected theorem drop (h : l.Sound capacity queue frames)
    (hd : capacity ≤ queue.length ∧ frame.head? = some Frame.Kind.ops.asByte ∨
      link.profile.down.delivery = .datagram ∧ 0 < link.profile.down.loss) :
    (l.hand link frame now false .dropped).Sound capacity queue frames := by
  have ⟨hh, hw, hx⟩ := h.extend ⟨frame, link.impaired, link.profile.down, now⟩
  refine ⟨?_, h.order, hh, hw, fun d hm => ?_⟩
  case refine_1 =>
    simp only [hand, List.map_append, List.map_singleton, List.length_append, List.length_singleton,
      List.range_succ]
    rw [←List.append_assoc]
    exact h.places.append_right _
  case refine_2 =>
    cases List.mem_append.mp hm
    case inl hm => exact hx d hm
    case inr hm =>
      rw [List.mem_singleton.mp hm]
      exact ⟨_, getElem?_length, h.held.length_eq ▸ hd⟩

-- Frames are written from the front of those held, once they have come due or by a flush.
protected theorem release (h : l.Sound capacity (ready ++ rest) frames)
    (hr : flushed = false → ∀ p ∈ ready, p.fst ≤ now) :
    (l.release ready.length now flushed).Sound capacity rest (frames ++ ready.map Prod.snd) := by
  have hi : ((l.held.take ready.length).map (⟨·, now, flushed⟩ : Nat → Written)).map Written.index =
      l.held.take ready.length := by
    simp [Function.comp_def]
  have hs := List.take_append_drop ready.length l.held
  have ht := List.forall₂_take ready.length h.held
  have hd := List.forall₂_drop ready.length h.held
  rw [List.take_left] at ht
  rw [List.drop_left] at hd
  refine ⟨?_, ?_, hd, List.rel_append h.written ?_, h.dropped⟩
  case refine_1 =>
    simp only [Ledger.release, List.map_append, hi]
    rw [List.append_assoc _ (l.held.take _), hs]
    exact h.places
  case refine_2 =>
    simp only [Ledger.release, List.map_append, hi]
    rw [List.append_assoc, hs]
    exact h.order
  case refine_3 =>
    rw [List.forall₂_map_left_iff, List.forall₂_map_right_iff, List.forall₂_iff_zip]
    have ⟨hl, hz⟩ := List.forall₂_iff_zip.mp ht
    refine ⟨hl, fun {n p} hm => ?_⟩
    have ⟨h, hn, hf, hp⟩ := hz hm
    exact ⟨h, hn, hf, fun hf => hp.trans (hr hf p (List.of_mem_zip hm).right)⟩

-- What a flush takes from the queue was handed over and written at once.
protected theorem flush {queue : List Frame} (h : l.Sound capacity [] frames) :
    (queue.foldl (·.hand link · now true .direct) l).Sound capacity [] (frames ++ queue) := by
  induction queue generalizing l frames
  case nil              => simpa using h
  case cons frame _ ih  =>
    rw [List.append_cons]
    exact ih (h.direct nofun)

end Sound
end Ledger

namespace Downlink

variable {s s' : Downlink} {e : Event} {es : List Event} {frame : Frame} {now capacity : Nat}
variable {seed : UInt64}

-- While the connection is open, the ledger says what the socket was given and what the link holds.
structure Open (capacity : Nat) (s : Downlink) : Prop where
  ended    : s.ended = false
  goodbye  : s.goodbye = none
  bound    : s.down.capacity = capacity
  monotone : s.down.Monotone
  sound    : s.ledger.Sound capacity s.down.queue s.socket
  timed    : ∀ w ∈ s.ledger.written, w.flushed = false

-- A close leaves nothing behind, and the goodbye comes last.
structure Closed (capacity : Nat) (s : Downlink) : Prop where
  ended : s.ended = true
  queue : s.queue = []
  held  : s.down.queue = []
  sound : ∃ frames, s.socket = frames ++ s.goodbye.toList ∧ s.ledger.Sound capacity [] frames

namespace Open

protected theorem new : (new seed capacity).Open capacity where
  ended    := rfl
  goodbye  := rfl
  bound    := rfl
  monotone := .new
  sound    := .empty
  timed    := nofun

protected theorem close {farewell : Option Frame} (h : s.Open capacity) : (s.close farewell now).Closed capacity where
  ended := rfl
  queue := rfl
  held  := rfl
  sound := by
    refine ⟨s.socket ++ s.down.queue.map Prod.snd ++ s.queue, rfl, ?_⟩
    have hs := h.sound
    rw [←s.down.queue.append_nil] at hs
    simp only [close, Conditioner.drain, List.length_map]
    exact (hs.release fun hf => absurd hf (by decide)).flush

variable [JitterScale]

protected theorem handOver (h : s.Open capacity) : (s.handOver frame now).Open capacity := by
  have hm : (queueDown s.link s.down frame now).fst.Monotone := monotone_queueDown h.monotone
  rcases queueDown_cases s.link s.down frame now with ⟨hi, hq, hd⟩ | ⟨rng, hd, hr⟩ | ⟨release, rng, hr, hd⟩
  all_goals
    rw [hd] at hm
    rw [handOver, hd]
  case inl =>
    refine ⟨h.ended, h.goodbye, h.bound, hm, ?_, fun w hw => ?_⟩
    case refine_1 =>
      have hs := h.sound
      rw [hq] at hs
      exact hq ▸ hs.direct fun _ => hi
    case refine_2 =>
      cases List.mem_append.mp hw
      case inl hw => exact h.timed w hw
      case inr hw => rw [List.mem_singleton.mp hw]
  case inr.inl =>
    refine ⟨h.ended, h.goodbye, h.bound, hm, ?_, h.timed⟩
    exact h.sound.drop (h.bound ▸ hr)
  case inr.inr => exact ⟨h.ended, h.goodbye, h.bound, hm, h.sound.hold hr, h.timed⟩

protected theorem release (h : s.Open capacity) (hs : s.arm (.release now) = some s') :
    s'.Open capacity ∧ ∀ p ∈ s'.down.queue, now < p.fst := by
  have hm : (s.down.popAllReady now).fst.Monotone ∧ ∀ p ∈ (s.down.popAllReady now).fst.queue, now < p.fst :=
    h.monotone.popAllReady
  have ⟨ready, rest, hq, hr, _, hp⟩ := s.down.popAllReady_cases now
  simp only [arm, hp] at hs
  cases hs
  rw [hp] at hm
  refine ⟨⟨h.ended, h.goodbye, h.bound, hm.left, ?_, fun w hw => ?_⟩, hm.right⟩
  case refine_1 =>
    have hs := h.sound
    rw [hq] at hs
    rw [List.length_map]
    exact hs.release fun _ => hr
  case refine_2 =>
    cases List.mem_append.mp hw
    case inl hw => exact h.timed w hw
    case inr hw =>
      have ⟨_, _, hw⟩ := List.mem_map.mp hw
      rw [←hw]

end Open

section
variable [JitterScale]

theorem step_cases (h : s.Open capacity) (hs : machine.step s e = some s') :
    s'.Open capacity ∨ s'.Closed capacity := by
  simp only [machine, Option.ite_none_left_eq_some] at hs
  have hs := hs.right
  cases e
  case send          => cases hs; exact .inl ⟨h.ended, h.goodbye, h.bound, h.monotone, h.sound, h.timed⟩
  case writeProfile  => cases hs; exact .inl ⟨h.ended, h.goodbye, h.bound, h.monotone, h.sound, h.timed⟩
  case storeImpaired => cases hs; exact .inl ⟨h.ended, h.goodbye, h.bound, h.monotone, h.sound, h.timed⟩
  case control       => cases hs; exact .inl h.handOver
  case release       => exact .inl (h.release hs).left
  case close         => cases hs; exact .inr h.close
  case recv now =>
    simp only [arm] at hs
    split at hs
    case h_1 => cases hs
    case h_2 frame queue _ =>
      cases hs
      have h' : Open capacity { s with queue } := ⟨h.ended, h.goodbye, h.bound, h.monotone, h.sound, h.timed⟩
      exact .inl h'.handOver

-- Frames are written in the order in which they were handed over and at most once; what is missing was
-- refused by a full buffer or lost by a datagram link; nothing is written before its delay has passed,
-- except by the flush of a close, which writes everything ahead of the goodbye.
structure Ordered (capacity : Nat) (s : Downlink) : Prop where
  sound : ∃ frames, s.socket = frames ++ s.goodbye.toList ∧ s.ledger.Sound capacity s.down.queue frames
  open' : s.ended = false → s.goodbye = none ∧ ∀ w ∈ s.ledger.written, w.flushed = false
  ended : s.ended = true → s.queue = [] ∧ s.ledger.held = []
  due   : ∀ now s', machine.step s (.release now) = some s' → ∀ p ∈ s'.down.queue, now < p.fst

theorem Open.ordered (h : s.Open capacity) : s.Ordered capacity where
  sound := ⟨s.socket, by simp [h.goodbye], h.sound⟩
  open' := fun _ => ⟨h.goodbye, h.timed⟩
  ended := fun he => absurd (h.ended.symm.trans he) nofun
  due now s' hs := by
    simp only [machine, Option.ite_none_left_eq_some] at hs
    exact (h.release hs.right).right

theorem Closed.ordered (h : s.Closed capacity) : s.Ordered capacity where
  sound := h.held ▸ h.sound
  open' := fun he => absurd (he.symm.trans h.ended) nofun
  ended := fun _ =>
    have ⟨_, _, hl⟩ := h.sound
    ⟨h.queue, List.forall₂_nil_right_iff.mp hl.held⟩
  due _ _ hs := by simp [machine, h.ended] at hs

end

end Downlink
end Plaza.Session
