import Mathlib.Algebra.Order.BigOperators.Group.List
import Mathlib.Data.List.Find
import Mathlib.Tactic.Linarith
import Mathlib.Tactic.Ring
import Plaza.Flutter.OpSequencer
import Plaza.Lib.Trace

namespace Plaza.Flutter.OpSequencer

variable {T K : Type} [Field K] [LinearOrder K]

def Idle (s : OpSequencer T K) : Prop :=
  s.queue = [] ∧ s.hold = 0 ∧ s.awaiting = false

-- The applier holds on nothing or on a length of time.
def Timed : Hold K → Prop
  | .none            => True
  | .seconds seconds => 0 ≤ seconds
  | .until           => False

def length : Hold K → K
  | .seconds seconds => seconds
  | _                => 0

-- What is left, and what was applied, after a sequence of frames.
def pumps (s : OpSequencer T K) (apply : T → Hold K) : List K → OpSequencer T K × List T
  | []        => (s, [])
  | dt :: dts =>
    let (s, applied) := s.pump dt apply
    let (s, later) := pumps s apply dts
    (s, applied ++ later)

-- The ends of the frames, on the clock that they are summed up on.
def ends (now : K) : List K → List K
  | []        => []
  | dt :: dts => (now + dt) :: ends (now + dt) dts

-- Each op is applied by the first frame by whose end the holds before it are over.
def KeepsTime (s : OpSequencer T K) (apply : T → Hold K) (dts : List K) : Prop :=
  Trace.Each (fun before dt => ∀ k < s.queue.length,
    k < (s.pumps apply (before ++ [dt])).snd.length ↔
      ((s.queue.take k).map fun op => length (apply op)).sum ≤ (before ++ [dt]).sum) dts

-- When each op is due, and by how much its release lags behind. Of a frame that has a hold running, and in which
-- another one is due to start, what is left then is lost.
def lags (ends : List K) (due lag : K) (busy : Option K) : List (Hold K) → List (K × K)
  | []                       => []
  | .seconds seconds :: holds =>
    let frame := ends.find? (due ≤ ·)
    (due, lag) :: lags ends (due + seconds) (if busy = frame then frame.elim lag (· - due) else lag) frame holds
  | _ :: holds               => (due, lag) :: lags ends due lag busy holds

-- No frame ends when an op is due, but lags behind.
def Prompt (ends : List K) (holds : List (Hold K)) : Prop :=
  ∀ p ∈ lags ends 0 0 none holds, ∀ t ∈ ends, p.fst ≤ t → p.fst + p.snd ≤ t

instance {ends : List K} {holds : List (Hold K)} : Decidable (Prompt ends holds) :=
  inferInstanceAs (Decidable (∀ p ∈ _, ∀ t ∈ _, _ → _))

-- When the sequencer gets to each op.
def starts (ends : List K) (start : K) (busy : Option K) : List (Hold K) → List K
  | []                       => []
  | .seconds seconds :: holds =>
    let frame := ends.find? (start ≤ ·)
    start :: starts ends ((if busy = frame then frame.getD start else start) + seconds) frame holds
  | _ :: holds               => start :: starts ends start busy holds

variable {s s' : OpSequencer T K} {apply : T → Hold K} {dt t start due lag : K} {frames dts : List K} {busy : Option K}
variable {holds : List (Hold K)} {queue applied : List T}

omit [Field K] in
theorem le_frame (h : frames.find? (start ≤ ·) = some t) : start ≤ t := by
  simpa using List.find?_some h

omit [Field K] in
theorem le_getD_frame : start ≤ (frames.find? (start ≤ ·)).getD start := by
  cases h : frames.find? (start ≤ ·)
  case none   => exact le_refl _
  case some t => exact le_frame h

-- Ops are applied in the order in which they are queued.
theorem drain_order : (drain apply s dt queue).snd ++ (drain apply s dt queue).fst.queue = queue := by
  induction queue generalizing s dt
  case nil => rfl
  case cons op queue hi =>
    rw [drain]
    split
    case h_1 => exact congrArg (op :: ·) hi
    case h_2 =>
      dsimp only
      split
      case isTrue  => exact congrArg (op :: ·) hi
      case isFalse => rfl
    case h_3 => rfl

theorem pump_order : (s.pump dt apply).snd ++ (s.pump dt apply).fst.queue = s.queue := by
  rw [pump]
  split
  case isTrue => rfl
  case isFalse =>
    split
    case isFalse => exact drain_order
    case isTrue =>
      dsimp only
      split
      case isTrue  => rfl
      case isFalse => exact drain_order

theorem pumps_order : (s.pumps apply dts).snd ++ (s.pumps apply dts).fst.queue = s.queue := by
  induction dts generalizing s
  case nil => rfl
  case cons dt dts hi =>
    rw [pumps, List.append_assoc, hi]
    exact pump_order

variable [IsStrictOrderedRing K]

theorem le_of_mem_starts (hh : ∀ hold ∈ holds, Timed hold) (h : t ∈ starts frames start busy holds) : start ≤ t := by
  induction holds generalizing start busy
  case nil => cases h
  case cons hold holds hi =>
    have ⟨hn, hhs⟩ := List.forall_mem_cons.mp hh
    cases hold
    case «until» => exact hn.elim
    case none =>
      rcases List.mem_cons.mp h with h | h
      · exact h.ge
      · exact hi hhs h
    case seconds seconds =>
      rcases List.mem_cons.mp h with h | h
      · exact h.ge
      · have hs : 0 ≤ seconds := hn
        have hl := hi hhs h
        have hf : start ≤ (frames.find? (start ≤ ·)).getD start := le_getD_frame
        split at hl <;> linarith

-- A frame that frames before an op has no part in it.
theorem starts_cons_of_lt (hh : ∀ hold ∈ holds, Timed hold) (h : t < start) :
    starts (t :: frames) start busy holds = starts frames start busy holds := by
  induction holds generalizing start busy
  case nil => rfl
  case cons hold holds hi =>
    have ⟨hn, hhs⟩ := List.forall_mem_cons.mp hh
    cases hold
    case none => exact congrArg (start :: ·) (hi hhs h)
    case «until» => exact hn.elim
    case seconds seconds =>
      have hs : 0 ≤ seconds := hn
      have hf : start ≤ (frames.find? (start ≤ ·)).getD start := le_getD_frame
      rw [starts, starts, List.find?_cons_of_neg (by simpa using h)]
      refine congrArg (start :: ·) <| hi hhs ?_
      split <;> linarith

omit [IsStrictOrderedRing K] in
theorem starts_of_lt (hh : ∀ hold ∈ holds, Timed hold) (h : t < start) :
    starts frames start (some t) holds = starts frames start none holds := by
  induction holds generalizing start
  case nil => rfl
  case cons hold holds hi =>
    have ⟨hn, hhs⟩ := List.forall_mem_cons.mp hh
    cases hold
    case none => exact congrArg (start :: ·) (hi hhs h)
    case «until» => exact hn.elim
    case seconds seconds =>
      rw [starts, starts]
      cases hf : frames.find? (start ≤ ·)
      case none   => simp
      case some u =>
        have hne : t ≠ u := (h.trans_le (le_frame hf)).ne
        simp [hne]

-- A frame that ends at `t` has applied just the ops which the sequencer gets to by then.
def Passes (apply : T → Hold K) (frames : List K) (t start : K) (busy : Option K) (queue : List T)
    (r : OpSequencer T K × List T) : Prop :=
  r.fst.awaiting = false ∧ 0 ≤ r.fst.hold ∧
  ∃ now later,
    starts (t :: frames) start busy (queue.map apply) = now ++ starts frames later none (r.fst.queue.map apply) ∧
    now.length = r.snd.length ∧ (∀ start ∈ now, start ≤ t) ∧
    (r.fst.queue = [] ∨ t < later ∧ later = t + r.fst.hold)

-- When the loop gets to the op at the head, it has `dt` left of the frame, or nothing any more once a hold that
-- started in the frame is behind it.
theorem drain_passes (hh : ∀ op ∈ queue, Timed (apply op)) (ha : s.awaiting = false) (hs : s.hold = 0) (hl : start ≤ t)
    (hb : busy = none ∧ dt = t - start ∨ busy = some t ∧ dt = 0) :
    Passes apply frames t start busy queue (drain apply s dt queue) := by
  induction queue generalizing s dt start busy
  case nil => exact ⟨ha, hs.ge, [], start, rfl, rfl, nofun, .inl rfl⟩
  case cons op queue hi =>
    have ⟨hn, hhs⟩ := List.forall_mem_cons.mp hh
    rw [drain]
    cases hop : apply op <;> rw [hop] at hn
    case «until» => exact hn.elim
    case none =>
      have ⟨ha, hs, now, later, he, hc, hle, hr⟩ := hi hhs ha hs hl hb
      refine ⟨ha, hs, start :: now, later, ?_, congrArg (· + 1) hc, ?_, hr⟩
      · rw [List.map_cons, hop]
        exact congrArg (start :: ·) he
      · exact List.forall_mem_cons.mpr ⟨hl, hle⟩
    case seconds seconds =>
      have hf : (t :: frames).find? (start ≤ ·) = some t := List.find?_cons_of_pos (by simpa using hl)
      obtain ⟨e, he⟩ : ∃ e, (if busy = some t then t else start) + seconds = e := ⟨_, rfl⟩
      have hd : seconds - dt = e - t := by
        rcases hb with ⟨rfl, rfl⟩ | ⟨rfl, rfl⟩ <;> simp at he <;> linarith
      have hst (busy') (h : busy' = busy) : starts (t :: frames) start busy' ((op :: queue).map apply) =
          start :: starts (t :: frames) e (some t) (queue.map apply) := by
        rw [List.map_cons, hop, starts, hf, h, Option.getD_some, he]
      simp only [hd]
      split
      case isTrue hle =>
        have ⟨ha, hs, now, later, he, hc, hle, hr⟩ := hi (s := { s with hold := 0 }) hhs ha rfl
          (sub_nonpos.mp hle) (.inr ⟨rfl, rfl⟩)
        refine ⟨ha, hs, start :: now, later, ?_, congrArg (· + 1) hc, ?_, hr⟩
        · rw [hst busy rfl, he]
          rfl
        · exact List.forall_mem_cons.mpr ⟨hl, hle⟩
      case isFalse hlt =>
        have hlt : t < e := by linarith
        have hhm : ∀ hold ∈ queue.map apply, Timed hold := by simpa using hhs
        refine ⟨ha, by simpa using hlt.le, [start], e, ?_, rfl, by simpa using hl, .inr ⟨hlt, by simp⟩⟩
        rw [hst busy rfl, starts_cons_of_lt hhm hlt, starts_of_lt hhm hlt]
        rfl

-- Between frames the sequencer is to get to the next op at the end of its hold.
def Reaches (s : OpSequencer T K) (now start : K) : Prop :=
  s.awaiting = false ∧ 0 ≤ s.hold ∧ (s.queue = [] ∨ start = now + s.hold)

theorem pump_passes {now : K} (frames : List K) (hh : ∀ op ∈ s.queue, Timed (apply op)) (hd : 0 ≤ dt) (hr : s.Reaches now start) :
    Passes apply frames (now + dt) start none s.queue (s.pump dt apply) := by
  obtain ⟨ha, hn, hq⟩ := hr
  have go {s₀ : OpSequencer T K} {dt'} (hs : s₀.awaiting = false ∧ s₀.hold = 0)
      (hq : s.queue = [] ∨ start = now + dt - dt') (hn : 0 ≤ dt') :
      Passes apply frames (now + dt) start none s.queue (drain apply s₀ dt' s.queue) := by
    rcases hq with hq | rfl
    case inl =>
      rw [hq]
      exact ⟨hs.left, hs.right.ge, [], start, rfl, rfl, nofun, .inl rfl⟩
    case inr => exact drain_passes hh hs.left hs.right (by linarith) (.inl ⟨rfl, by ring⟩)
  rw [pump, if_neg (by simp [ha])]
  split
  case isFalse hp =>
    have hz : s.hold = 0 := le_antisymm (not_lt.mp hp) hn
    refine go ⟨ha, hz⟩ (hq.imp_right fun h => ?_) hd
    rw [h, hz]
    ring
  case isTrue hp =>
    dsimp only
    split
    case isFalse hle =>
      refine go ⟨ha, rfl⟩ (hq.imp_right fun h => ?_) (by linarith)
      rw [h]
      ring
    case isTrue hlt =>
      refine ⟨ha, hlt.le, [], start, ?_, rfl, nofun, hq.imp_right fun h => ⟨by linarith, ?_⟩⟩
      · rcases hq with hq | hq
        · simp [hq, starts]
        · exact starts_cons_of_lt (by simpa using hh) (by linarith)
      · show start = now + dt + (s.hold - dt)
        rw [h]
        ring

-- By the end of some frame just those ops are applied which the sequencer gets to by then.
theorem applied_iff {now : K} {before : List K} {k : Nat} (hh : ∀ op ∈ s.queue, Timed (apply op))
    (hd : ∀ dt ∈ dts, 0 ≤ dt) (hr : s.Reaches now start) (hb : before <+: dts)
    (hl : before = [] → s.queue = [] ∨ now < start)
    (ht : (starts (ends now dts) start none (s.queue.map apply))[k]? = some t) :
    k < (s.pumps apply before).snd.length ↔ t ≤ now + before.sum := by
  induction before generalizing s now start dts k
  case nil =>
    have hm := List.mem_of_getElem? ht
    rcases hl rfl with hq | hl
    case inl =>
      rw [hq] at hm
      cases hm
    case inr =>
      have hle := le_of_mem_starts (by simpa using hh) hm
      rw [List.sum_nil, add_zero]
      exact iff_of_false (Nat.not_lt_zero k) (not_le.mpr (hl.trans_le hle))
  case cons dt before hi =>
    obtain ⟨after, rfl⟩ := hb
    have ⟨hdt, hds⟩ := List.forall_mem_cons.mp hd
    have ⟨ha, hn, now', later, he, hc, hle, hs⟩ := pump_passes (ends (now + dt) (before ++ after)) hh hdt hr
    have hq : (s.pump dt apply).snd ++ (s.pump dt apply).fst.queue = s.queue := pump_order
    have hh' : ∀ op ∈ (s.pump dt apply).fst.queue, Timed (apply op) := fun op hm =>
      hh op (hq ▸ List.mem_append_right _ hm)
    rw [List.cons_append, ends, he] at ht
    rw [pumps, List.length_append, List.sum_cons, ← add_assoc]
    rcases Nat.lt_or_ge k now'.length with hk | hk
    case inl =>
      rw [List.getElem?_append_left hk] at ht
      have hsum : 0 ≤ before.sum := List.sum_nonneg fun dt hm => hds dt (List.mem_append_left _ hm)
      exact iff_of_true (by omega) <| (hle t (List.mem_of_getElem? ht)).trans (le_add_of_nonneg_right hsum)
    case inr =>
      rw [List.getElem?_append_right hk] at ht
      have := hi hh' hds ⟨ha, hn, hs.imp_right And.right⟩ ⟨after, rfl⟩ (fun _ => hs.imp_right And.left) ht
      rw [← this]
      omega

omit [LinearOrder K] [IsStrictOrderedRing K] in
theorem mem_ends {now : K} :
    t ∈ ends now dts ↔ ∃ before dt after, dts = before ++ dt :: after ∧ t = now + (before ++ [dt]).sum := by
  induction dts generalizing now
  case nil => simp [ends]
  case cons dt dts hi =>
    rw [ends, List.mem_cons, hi]
    constructor
    case mp =>
      rintro (rfl | ⟨before, dt', after, rfl, rfl⟩)
      · exact ⟨[], dt, dts, rfl, by simp⟩
      · exact ⟨dt :: before, dt', after, rfl, by simp [add_assoc]⟩
    case mpr =>
      rintro ⟨before, dt', after, he, rfl⟩
      cases before
      case nil =>
        cases he
        exact .inl (by simp)
      case cons =>
        cases he
        exact .inr ⟨_, dt', after, rfl, by simp [add_assoc]⟩

-- When each op is due.
def dues (due : K) : List (Hold K) → List K
  | []            => []
  | hold :: holds => due :: dues (due + length hold) holds

-- As long as no frame ends between when an op is due and when the sequencer gets to it, what is due by a frame is what
-- is applied by it, and the sequencer lags as stated.
theorem starts_match_iff (hl : 0 ≤ lag) :
    List.Forall₂ (fun start due => ∀ t ∈ frames, start ≤ t ↔ due ≤ t) (starts frames (due + lag) busy holds)
      (dues due holds) ↔
    ∀ p ∈ lags frames due lag busy holds, ∀ t ∈ frames, p.fst ≤ t → p.fst + p.snd ≤ t := by
  have hhead (due : K) {lag} (hl : 0 ≤ lag) :
      (∀ t ∈ frames, due + lag ≤ t ↔ due ≤ t) ↔ ∀ t ∈ frames, due ≤ t → due + lag ≤ t :=
    forall₂_congr fun t _ => ⟨Iff.mpr, fun h => ⟨fun h => by linarith, h⟩⟩
  induction holds generalizing due lag busy
  case nil => exact iff_of_true .nil nofun
  case cons hold holds hi =>
    cases hold
    case none | «until» =>
      show List.Forall₂ _ ((due + lag) :: starts frames (due + lag) busy holds) (due :: dues (due + 0) holds) ↔
        ∀ p ∈ (due, lag) :: lags frames due lag busy holds, _
      rw [List.forall₂_cons, List.forall_mem_cons, hhead due hl, add_zero]
      exact and_congr_right fun _ => hi hl
    case seconds seconds =>
      show List.Forall₂ _ (_ :: starts frames (_ + seconds) _ holds) (due :: dues (due + seconds) holds) ↔ _
      rw [lags, List.forall₂_cons, List.forall_mem_cons, hhead due hl]
      refine and_congr_right fun hp => ?_
      have hf : frames.find? (due + lag ≤ ·) = frames.find? (due ≤ ·) :=
        List.find?_congr fun t ht => decide_eq_decide.mpr ((hhead due hl).mpr hp t ht)
      rw [hf]
      have hl' : 0 ≤ if busy = frames.find? (due ≤ ·) then (frames.find? (due ≤ ·)).elim lag (· - due) else lag := by
        split
        case isFalse => exact hl
        case isTrue =>
          cases hn : frames.find? (due ≤ ·)
          case none   => exact hl
          case some t => exact sub_nonneg.mpr (le_frame hn)
      refine Iff.trans (iff_of_eq ?_) (hi hl')
      congr 2
      split
      case isFalse => ring
      case isTrue => cases frames.find? (due ≤ ·) <;> simp <;> ring

omit [LinearOrder K] [IsStrictOrderedRing K] in
theorem getElem?_dues {k : Nat} (hk : k < holds.length) :
    (dues due holds)[k]? = some (due + ((holds.take k).map length).sum) := by
  induction holds generalizing due k
  case nil => cases hk
  case cons hold holds hi =>
    cases k
    case zero   => simp [dues]
    case succ k =>
      rw [dues, List.getElem?_cons_succ, hi (Nat.lt_of_succ_lt_succ hk)]
      simp [add_assoc]

omit [IsStrictOrderedRing K] in
theorem length_starts : (starts frames start busy holds).length = holds.length := by
  induction holds generalizing start busy
  case nil => rfl
  case cons hold _ hi => cases hold <;> exact congrArg (· + 1) hi

omit [LinearOrder K] [IsStrictOrderedRing K] in
theorem length_dues : (dues due holds).length = holds.length := by
  induction holds generalizing due
  case nil         => rfl
  case cons _ _ hi => exact congrArg (· + 1) hi

omit [Field K] [LinearOrder K] [IsStrictOrderedRing K] in
theorem addAll_hold (ops : List T) : (s.addAll ops).hold = s.hold ∧ (s.addAll ops).awaiting = s.awaiting := by
  induction ops generalizing s
  case nil => exact ⟨rfl, rfl⟩
  case cons op ops hi =>
    have ⟨hh, ha⟩ := @hi (s.add op)
    have hs : (s.add op).hold = s.hold ∧ (s.add op).awaiting = s.awaiting := by
      rw [add]
      split <;> exact ⟨rfl, rfl⟩
    exact ⟨hh.trans hs.left, ha.trans hs.right⟩

-- A frame outlasts two holds, and the third op waits for the second hold from its end on.
theorem third_op_late :
    let s := (new 512 : OpSequencer Nat ℚ).addAll [0, 1, 2]
    (s.pumps (fun _ => .seconds 1) [3]).snd = [0, 1] ∧ ¬s.KeepsTime (fun _ => .seconds 1) [3] := by
  have hs : (((new 512 : OpSequencer Nat ℚ).addAll [0, 1, 2]).pumps (fun _ => .seconds 1) [3]).snd = [0, 1] := by
    decide +kernel
  refine ⟨hs, fun h => ?_⟩
  have := (h [] 3 [] rfl 2 (by decide)).mpr (by decide +kernel)
  rw [List.nil_append, hs] at this
  exact absurd this (by decide)

theorem keeps_time_iff (hs : s.Idle) (ops : List T) (hh : ∀ op ∈ (s.addAll ops).queue, Timed (apply op))
    (hd : ∀ dt ∈ dts, 0 ≤ dt) :
    ((s.addAll ops).pumps apply dts).snd <+: (s.addAll ops).queue ∧
    ((s.addAll ops).KeepsTime apply dts ↔ Prompt (ends 0 dts) ((s.addAll ops).queue.map apply)) := by
  refine ⟨⟨_, pumps_order⟩, ?_⟩
  have hr : (s.addAll ops).Reaches 0 0 := by
    have ⟨hh, ha⟩ := addAll_hold (s := s) ops
    rw [hs.right.left] at hh
    exact ⟨ha.trans hs.right.right, hh.ge, .inr (by rw [hh, add_zero])⟩
  have hk {before dt after k start due} (hb : dts = before ++ dt :: after)
      (ht : (starts (ends 0 dts) 0 none ((s.addAll ops).queue.map apply))[k]? = some start)
      (hu : (dues 0 ((s.addAll ops).queue.map apply))[k]? = some due) :
      (k < ((s.addAll ops).pumps apply (before ++ [dt])).snd.length ↔ start ≤ (before ++ [dt]).sum) ∧
        due = (((s.addAll ops).queue.take k).map fun op => length (apply op)).sum := by
    have hp : before ++ [dt] <+: dts := ⟨after, by simp [hb]⟩
    have hl := List.getElem?_eq_some_iff.mp ht |>.choose
    rw [length_starts] at hl
    rw [getElem?_dues hl, zero_add, ← List.map_take, List.map_map] at hu
    refine ⟨?_, (Option.some.inj hu).symm⟩
    rw [applied_iff hh hd hr hp (by simp) ht, zero_add]
  rw [Prompt, ← starts_match_iff (le_refl 0), add_zero, List.forall₂_iff_get]
  constructor
  case mp =>
    intro h
    refine ⟨by rw [length_starts, length_dues], fun k h₁ h₂ t ht => ?_⟩
    obtain ⟨before, dt, after, hb, rfl⟩ := mem_ends.mp ht
    have ⟨ha, hu⟩ := hk hb (List.getElem?_eq_getElem h₁) (List.getElem?_eq_getElem h₂)
    have hl : k < (s.addAll ops).queue.length := by simpa [length_dues] using h₂
    rw [List.get_eq_getElem, List.get_eq_getElem, zero_add, ← ha, hu]
    exact h before dt after hb k hl
  case mpr =>
    intro ⟨_, h⟩ before dt after hb k hl
    have h₁ : k < (starts (ends 0 dts) 0 none ((s.addAll ops).queue.map apply)).length := by simpa [length_starts]
    have h₂ : k < (dues (0 : K) ((s.addAll ops).queue.map apply)).length := by simpa [length_dues]
    have ⟨ha, hu⟩ := hk hb (List.getElem?_eq_getElem h₁) (List.getElem?_eq_getElem h₂)
    have := h k h₁ h₂ _ (mem_ends.mpr ⟨before, dt, after, hb, rfl⟩)
    rwa [List.get_eq_getElem, List.get_eq_getElem, zero_add, ← ha, hu] at this

-- One long frame clears two holds.
theorem keeps_time_of_two_holds :
    ((new 512 : OpSequencer Nat ℚ).addAll [0, 1, 2]).KeepsTime (fun op => if op < 2 then .seconds (1 / 10) else .none)
      [16 / 1000, 1 / 4] := by
  refine (keeps_time_iff ⟨rfl, rfl, rfl⟩ [0, 1, 2] ?_ (by simp; norm_num)).right.mpr ?_
  · intro op _
    split
    · norm_num [Timed]
    · trivial
  · decide +kernel

end Plaza.Flutter.OpSequencer
