import Mathlib.Algebra.Order.Field.Rat
import Plaza.Lib.Trace
import Plaza.Session.Control

namespace Plaza.Session.Bucket

variable {K : Type} [Field K] [LinearOrder K]

-- The time of each frame, and whether it was admitted.
def takes (rate : Rate K) (b : Bucket K) : List Nat → List (Nat × Bool)
  | []          => []
  | nowUs :: ts =>
    let (b, admitted) := b.take rate nowUs
    (nowUs, admitted) :: takes rate b ts

def admitted (h : List (Nat × Bool)) : Nat :=
  h.countP Prod.snd

-- Since each of these frames: its time, and how many were admitted from it on.
def since : List (Nat × Bool) → List (Nat × Nat)
  | []     => []
  | f :: h => (f.fst, admitted (f :: h)) :: since h

-- The registration is a start of a span, too.
def spans (registeredUs : Nat) (h : List (Nat × Bool)) : List (Nat × Nat) :=
  (registeredUs, admitted h) :: since h

-- What the rate admits within so many microseconds.
def allowance (rate : Rate K) (us : Nat) : K :=
  (max rate.burst 1 : Nat) + rate.perSec * ((us : Nat) / (1000000 : Nat))

theorem admitted_concat {h : List (Nat × Bool)} {t : Nat} {a : Bool} :
    admitted (h ++ [(t, a)]) = admitted h + a.toNat := by
  cases a <;> simp [admitted]

theorem since_concat {h : List (Nat × Bool)} {t : Nat} {a : Bool} :
    since (h ++ [(t, a)]) = (since h).map (fun p => (p.fst, p.snd + a.toNat)) ++ [(t, a.toNat)] := by
  induction h
  case nil => cases a <;> rfl
  case cons f h hi =>
    have ha : admitted (f :: (h ++ [(t, a)])) = admitted (f :: h) + a.toNat := admitted_concat (h := f :: h)
    rw [List.cons_append, since, hi, ha]
    rfl

theorem mem_since {earlier later : List (Nat × Bool)} {f : Nat × Bool} :
    (f.fst, admitted (f :: later)) ∈ since (earlier ++ f :: later) := by
  induction earlier
  case nil     => exact List.mem_cons_self
  case cons hi => exact List.mem_cons_of_mem _ hi

theorem exists_of_mem_since {h : List (Nat × Bool)} {p : Nat × Nat} (hp : p ∈ since h) :
    ∃ earlier a later, h = earlier ++ (p.fst, a) :: later ∧ p.snd = admitted ((p.fst, a) :: later) := by
  induction h
  case nil => cases hp
  case cons f h hi =>
    rcases List.mem_cons.mp hp with rfl | hp
    case inl => exact ⟨[], f.snd, h, rfl, rfl⟩
    case inr =>
      have ⟨earlier, a, later, he, hs⟩ := hi hp
      exact ⟨f :: earlier, a, later, congrArg (f :: ·) he, hs⟩

theorem spans_concat {registeredUs : Nat} {h : List (Nat × Bool)} {t : Nat} {a : Bool} :
    spans registeredUs (h ++ [(t, a)]) = (spans registeredUs h).map (fun p => (p.fst, p.snd + a.toNat)) ++ [(t, a.toNat)] := by
  rw [spans, spans, admitted_concat, since_concat]
  rfl

theorem takes_append {rate : Rate K} {b : Bucket K} {ts us : List Nat} :
    takes rate b (ts ++ us) = takes rate b ts ++ takes rate (ts.foldl (fun b t => (b.take rate t).fst) b) us := by
  induction ts generalizing b
  case nil          => rfl
  case cons t ts hi => exact congrArg (_ :: ·) hi

-- After frames at such times.
def after (rate : Rate K) (registeredUs : Nat) (ts : List Nat) : Bucket K :=
  ts.foldl (fun b t => (b.take rate t).fst) (full rate registeredUs)

theorem takes_concat {rate : Rate K} {registeredUs t : Nat} {ts : List Nat} : takes rate (full rate registeredUs) (ts ++ [t]) =
    takes rate (full rate registeredUs) ts ++ [(t, ((after rate registeredUs ts).take rate t).snd)] :=
  takes_append

theorem after_concat {rate : Rate K} {registeredUs t : Nat} {ts : List Nat} :
    after rate registeredUs (ts ++ [t]) = ((after rate registeredUs ts).take rate t).fst := by
  simp [after]

theorem lastUs_take {rate : Rate K} {b : Bucket K} {t : Nat} : (b.take rate t).fst.lastUs = t := by
  rw [take]
  split <;> rfl

theorem times_takes {rate : Rate K} {b : Bucket K} {ts : List Nat} : (takes rate b ts).map Prod.fst = ts := by
  induction ts generalizing b
  case nil          => rfl
  case cons t ts hi => exact congrArg (t :: ·) hi

variable [IsStrictOrderedRing K] {rate : Rate K} {registeredUs : Nat} {b : Bucket K} {h : List (Nat × Bool)} {t : Nat}

-- The tokens are what the spans up to the last frame leave of the rate.
structure Holds (rate : Rate K) (registeredUs : Nat) (h : List (Nat × Bool)) (b : Bucket K) : Prop where
  exact : TokenBucket.Exact rate.perSec (max rate.burst 1 : Nat)
    ((spans registeredUs h).map fun p => (((b.lastUs - p.fst : Nat) : K) / (1000000 : Nat), (p.snd : K))) b.tokens
  past  : ∀ p ∈ spans registeredUs h, p.fst ≤ b.lastUs

namespace Holds

theorem full : Holds rate registeredUs [] (full rate registeredUs) where
  exact := by
    have : TokenBucket.Exact rate.perSec ((max rate.burst 1 : Nat) : K) [(0, 0)] (max rate.burst 1 : Nat) := .start
    simpa [spans, since, admitted, Bucket.full] using this
  past  := by simp [spans, since, Bucket.full]

theorem refilled (hb : Holds rate registeredUs h b) (ht : b.lastUs ≤ t) :
    TokenBucket.Exact rate.perSec (max rate.burst 1 : Nat)
      ((spans registeredUs h).map (fun p => (((t - p.fst : Nat) : K) / (1000000 : Nat), (p.snd : K))) ++ [(0, 0)])
      (TokenBucket.fill rate.perSec (max rate.burst 1 : Nat) b.tokens (((t - b.lastUs : Nat) : K) / (1000000 : Nat))) := by
  have hf := hb.exact.fill (((t - b.lastUs : Nat) : K) / (1000000 : Nat))
  rw [List.map_map] at hf
  convert hf using 2
  refine List.map_congr_left fun p hp => ?_
  have hs : t - p.fst = (b.lastUs - p.fst) + (t - b.lastUs) := by
    have := hb.past p hp
    omega
  simp only [Function.comp_apply, hs, Nat.cast_add, add_div]

-- A frame is admitted exactly if no span that ends with it holds more than the rate admits.
theorem take_iff (hb : Holds rate registeredUs h b) (ht : b.lastUs ≤ t) :
    (b.take rate t).snd = true ↔ ∀ p ∈ spans registeredUs h, (p.snd : K) + 1 ≤ allowance rate (t - p.fst) := by
  have hs : (b.take rate t).snd = true ↔ 1 ≤ TokenBucket.fill rate.perSec (max rate.burst 1 : Nat) b.tokens
      (((t - b.lastUs : Nat) : K) / (1000000 : Nat)) := by
    rw [Bucket.take]
    split
    case isTrue h  => exact iff_of_true rfl h
    case isFalse h => exact iff_of_false nofun h
  refine hs.trans <| (hb.refilled ht).le_iff.trans ?_
  rw [List.forall_mem_append, List.forall_mem_map, List.forall_mem_singleton]
  refine and_iff_left ?_
  simp

theorem take (hb : Holds rate registeredUs h b) (ht : b.lastUs ≤ t) :
    Holds rate registeredUs (h ++ [(t, (b.take rate t).snd)]) (b.take rate t).fst := by
  have hs : (b.take rate t).fst = {
      tokens := TokenBucket.fill rate.perSec (max rate.burst 1 : Nat) b.tokens (((t - b.lastUs : Nat) : K) / (1000000 : Nat)) -
        ((b.take rate t).snd.toNat : Nat)
      lastUs := t } := by
    rw [Bucket.take]
    split <;> simp
  generalize (b.take rate t).snd = a at hs
  rw [hs]
  constructor
  case exact =>
    have he := (hb.refilled ht).spend (a.toNat : K)
    rw [spans_concat]
    simpa [Function.comp_def] using he
  case past =>
    rw [spans_concat]
    intro p hp
    rcases List.mem_append.mp hp with hp | hp
    case inl =>
      obtain ⟨q, hq, rfl⟩ := List.mem_map.mp hp
      exact (hb.past q hq).trans ht
    case inr => exact (List.mem_singleton.mp hp ▸ le_refl t)

end Holds

variable {ts : List Nat}

theorem holds_after (rate : Rate K) (ht : ts.Pairwise (· ≤ ·)) (hr : ∀ t ∈ ts, registeredUs ≤ t) :
    Holds rate registeredUs (takes rate (full rate registeredUs) ts) (after rate registeredUs ts) ∧
      ∀ t, registeredUs ≤ t → (∀ t' ∈ ts, t' ≤ t) → (after rate registeredUs ts).lastUs ≤ t := by
  induction ts using List.reverseRecOn
  case nil => exact ⟨.full, fun t h _ => h⟩
  case append_singleton ts t hi =>
    have ⟨ht, _, hle⟩ := List.pairwise_append.mp ht
    have ⟨hh, hl⟩ := hi ht fun t h => hr t (List.mem_append_left _ h)
    rw [takes_concat, after_concat, lastUs_take]
    refine ⟨hh.take <| hl t (hr t (by simp)) fun t' h => hle t' h t (by simp), fun t' _ h => h t (by simp)⟩

theorem admits_exactly (rate : Rate K) (ht : ts.Pairwise (· ≤ ·)) (hr : ∀ t ∈ ts, registeredUs ≤ t) :
    Trace.Each (fun before (t, admitted) => admitted = true ↔
      ∀ p ∈ spans registeredUs before, (p.snd : K) + 1 ≤ allowance rate (t - p.fst))
      (takes rate (full rate registeredUs) ts) := by
  induction ts using List.reverseRecOn
  case nil => exact .nil
  case append_singleton ts t hi =>
    have ⟨ht, _, hle⟩ := List.pairwise_append.mp ht
    have hr' : ∀ t ∈ ts, registeredUs ≤ t := fun t h => hr t (List.mem_append_left _ h)
    have ⟨hh, hl⟩ := holds_after rate ht hr'
    rw [takes_concat, Trace.Each.snoc_iff]
    exact ⟨hi ht hr', hh.take_iff <| hl t (hr t (by simp)) fun t' h => hle t' h t (by simp)⟩

theorem allowance_mono {m n : Nat} (hr : 0 ≤ rate.perSec) (h : m ≤ n) : allowance rate m ≤ allowance rate n := by
  have hd : (m : K) / (1000000 : Nat) ≤ (n : K) / (1000000 : Nat) :=
    div_le_div_of_nonneg_right (by exact_mod_cast h) (Nat.cast_nonneg _)
  have := mul_le_mul_of_nonneg_left hd hr
  rw [allowance, allowance]
  linarith

theorem one_le_allowance {n : Nat} (hr : 0 ≤ rate.perSec) : 1 ≤ allowance rate n := by
  have hz : (1 : K) ≤ allowance rate 0 := by simp [allowance]
  exact hz.trans (allowance_mono hr (Nat.zero_le n))

omit [Field K] [LinearOrder K] [IsStrictOrderedRing K] in
theorem countP_le_admitted (h : List (Nat × Bool)) (u v : Nat) :
    h.countP (fun f => f.snd && u ≤ f.fst && f.fst ≤ v) ≤ admitted (h.dropWhile (·.fst < u)) := by
  induction h
  case nil => exact le_refl _
  case cons f h hi =>
    by_cases hf : f.fst < u
    case pos =>
      rw [List.dropWhile_cons_of_pos (by simpa using hf), List.countP_cons_of_neg (by simp [hf])]
      exact hi
    case neg =>
      rw [List.dropWhile_cons_of_neg (by simpa using hf)]
      exact List.countP_mono_left fun f _ h => by simp_all

-- No span holds more than the rate admits: the first frame in it that was admitted starts one that ends with the last.
theorem admitted_le (hr : 0 ≤ rate.perSec)
    (registeredUs : Nat) (he : Trace.Each (fun before (t, admitted) => admitted = true →
      ∀ p ∈ spans registeredUs before, (p.snd : K) + 1 ≤ allowance rate (t - p.fst)) h) {u v : Nat} :
    (h.countP fun f => f.snd && u ≤ f.fst && f.fst ≤ v : K) ≤ allowance rate (v - u) := by
  induction h using List.reverseRecOn
  case nil => simpa using zero_le_one.trans (one_le_allowance hr)
  case append_singleton h f hi =>
    obtain ⟨t, a⟩ := f
    have ⟨he, hl⟩ := Trace.Each.snoc_iff.mp he
    rw [List.countP_append, List.countP_singleton]
    split
    case isFalse => simpa using hi he
    case isTrue hs =>
      simp only [Bool.and_eq_true, decide_eq_true_eq] at hs
      obtain ⟨⟨rfl, hu⟩, hv⟩ := hs
      have hc := countP_le_admitted h u v
      cases hd : h.dropWhile (·.fst < u)
      case nil =>
        rw [hd, admitted, List.countP_nil, Nat.le_zero] at hc
        rw [hc]
        simpa using one_le_allowance hr
      case cons f later =>
        have hf : u ≤ f.fst := by simpa [hd] using h.head?_dropWhile_not (·.fst < u)
        have hm : (f.fst, admitted (f :: later)) ∈ spans registeredUs h := by
          rw [← h.takeWhile_append_dropWhile (p := (·.fst < u)), hd]
          exact List.mem_cons_of_mem _ mem_since
        have hle := (hl rfl _ hm).trans (allowance_mono hr (by omega : t - f.fst ≤ v - u))
        rw [hd] at hc
        push_cast
        have : ((h.countP fun f => f.snd && u ≤ f.fst && f.fst ≤ v : Nat) : K) ≤ (admitted (f :: later) : Nat) := by
          exact_mod_cast hc
        linarith

theorem admits_all (ht : ts.Pairwise (· ≤ ·)) (hr : ∀ t ∈ ts, registeredUs ≤ t)
    (hb : ∀ u v, u ≤ v → (ts.countP fun t => u ≤ t && t ≤ v : K) ≤ allowance rate (v - u)) :
    ∀ f ∈ takes rate (full rate registeredUs) ts, f.snd = true := by
  intro f hf
  obtain ⟨before, after, he⟩ := List.append_of_mem hf
  refine (admits_exactly rate ht hr before f after he).mpr fun p hp => ?_
  have hts : ts = before.map Prod.fst ++ f.fst :: after.map Prod.fst := by
    have := congrArg (List.map Prod.fst) he
    rwa [times_takes, List.map_append, List.map_cons] at this
  -- The frames of a span were all sent in it.
  have hc {s earlier later} (hb' : before = earlier ++ later) (hs : ∀ f' ∈ later, s ≤ f'.fst) (hf : s ≤ f.fst) :
      (admitted later : K) + 1 ≤ allowance rate (f.fst - s) := by
    refine le_trans ?_ (hb s f.fst hf)
    rw [hts, List.pairwise_append] at ht
    have hl : (later.map Prod.fst).countP (fun t => s ≤ t && t ≤ f.fst) = later.length := by
      rw [List.countP_eq_length.mpr, List.length_map]
      intro t hm
      have ⟨f', hm, he⟩ := List.mem_map.mp hm
      have hle : f'.fst ≤ f.fst := ht.right.right f'.fst
        (List.mem_map_of_mem <| hb' ▸ List.mem_append_right _ hm) f.fst List.mem_cons_self
      simp [← he, hs f' hm, hle]
    have ha : admitted later ≤ later.length := List.countP_le_length
    have : admitted later + 1 ≤ ts.countP fun t => s ≤ t && t ≤ f.fst := by
      rw [hts, hb', List.map_append, List.countP_append, List.countP_append, hl, List.countP_cons_of_pos (by simp [hf])]
      omega
    exact_mod_cast this
  rcases List.mem_cons.mp hp with rfl | hp
  case inl =>
    have hr : ∀ f' ∈ takes rate (full rate registeredUs) ts, registeredUs ≤ f'.fst := fun f' hm =>
      hr f'.fst (by simpa [times_takes] using List.mem_map_of_mem (f := Prod.fst) hm)
    exact hc (List.nil_append _).symm (fun f' hm => hr f' (he ▸ List.mem_append_left _ hm)) (hr f hf)
  case inr =>
    obtain ⟨earlier, a, later, hb', hs⟩ := exists_of_mem_since hp
    rw [hs]
    have hp : ((p.fst, a) :: later).map Prod.fst ++ f.fst :: after.map Prod.fst |>.Pairwise (· ≤ ·) := by
      refine ht.sublist ?_
      rw [hts, hb', List.map_append, List.append_assoc]
      exact List.sublist_append_right _ _
    have hle := (List.pairwise_cons.mp hp).left
    refine hc hb' (fun f' hm => ?_) (hle f.fst (List.mem_append_right _ List.mem_cons_self))
    rcases List.mem_cons.mp hm with rfl | hm
    case inl => exact le_refl _
    case inr => exact hle f'.fst (List.mem_append_left _ (List.mem_map_of_mem hm))

theorem inbound_gate_exact (hr : 0 ≤ rate.perSec) (hs : ts.Pairwise (· ≤ ·)) (ht : ∀ t ∈ ts, registeredUs ≤ t) :
    Trace.Each (fun before (t, admitted) => admitted = true ↔
      ∀ p ∈ spans registeredUs before, (p.snd : K) + 1 ≤ allowance rate (t - p.fst))
      (takes rate (full rate registeredUs) ts) ∧
    (∀ u v, u ≤ v → ((takes rate (full rate registeredUs) ts).countP fun f => f.snd && u ≤ f.fst && f.fst ≤ v : K) ≤
      allowance rate (v - u)) ∧
    ((∀ u v, u ≤ v → (ts.countP fun t => u ≤ t && t ≤ v : K) ≤ allowance rate (v - u)) →
      ∀ f ∈ takes rate (full rate registeredUs) ts, f.snd = true) := by
  have he := admits_exactly rate hs ht
  refine ⟨he, fun u v _ => admitted_le hr registeredUs fun before f after hf => ?_, admits_all hs ht⟩
  exact (he before f after hf).mp

-- A refused frame costs nothing.
theorem inbound_gate_exact_refused :
    let rate : Rate ℚ := { perSec := 10, burst := 1, over' := .shed }
    takes rate (full rate 7) [7, 50007, 100007] = [(7, true), (50007, false), (100007, true)] ∧
    ∀ u v, u ≤ v → ((takes rate (full rate 7) [7, 50007, 100007]).countP fun f => f.snd && u ≤ f.fst && f.fst ≤ v : ℚ) ≤
      allowance rate (v - u) := by
  intro rate
  have hr : 0 ≤ rate.perSec := by decide +kernel
  exact ⟨by decide +kernel, (inbound_gate_exact hr (by decide) (by decide)).right.left⟩

end Plaza.Session.Bucket

namespace Plaza.Session

open Wire

theorem earliest_any_le (a b : Option Nat) (now : Nat) :
    (earliest a b).any (· ≤ now) = (a.any (· ≤ now) || b.any (· ≤ now)) := by
  cases a <;> cases b <;> simp [earliest]

namespace ProbeState

variable {p q : ProbeState} {origin now : Nat}

-- A state has the probes of another in flight, and possibly older ones.
structure Covers (p q : ProbeState) : Prop where
  older : ∃ older, p = { q with outstanding := older ++ q.outstanding }
  slots : p.outstanding.length ≤ max p.schedule.slots 1

theorem Covers.new {schedule : Probes} : (new schedule).Covers (new schedule) where
  older := ⟨[], rfl⟩
  slots := Nat.zero_le _

theorem Covers.ahead (h : p.Covers q) : p = { q with outstanding := p.ahead q ++ q.outstanding } := by
  have ⟨older, hp⟩ := h.older
  rw [hp, ProbeState.ahead, List.length_append, Nat.add_sub_cancel, List.take_left]

theorem Covers.interval (h : p.Covers q) : p.interval = q.interval := by
  have ⟨_, hp⟩ := h.older
  rw [hp]
  rfl

theorem Covers.forgetInFlight (h : p.Covers q) : p.Covers q.forgetInFlight where
  older := by
    have ⟨older, hp⟩ := h.older
    exact ⟨older ++ q.outstanding, by rw [ProbeState.forgetInFlight, List.append_nil]; exact hp⟩
  slots := h.slots

theorem length_launch (h : p.outstanding.length ≤ max p.schedule.slots 1) :
    (p.launch now).outstanding.length ≤ max p.schedule.slots 1 := by
  rw [launch]
  dsimp only
  rw [List.length_append, List.length_singleton]
  split
  case isTrue  => rw [List.length_tail]; omega
  case isFalse => omega

-- The probe in whose place another is put is one of the older ones, if there are any.
theorem Covers.launch (h : p.Covers q) : (p.launch now).Covers (q.launch now) := by
  refine ⟨?_, length_launch h.slots⟩
  have ⟨older, hp⟩ := h.older
  subst hp
  cases older
  case nil => exact ⟨[], rfl⟩
  case cons x older =>
    have hs := h.slots
    rw [List.length_append, List.length_cons] at hs
    have hq : q.outstanding.length ≥ q.schedule.slots → q.outstanding = [] := fun hl =>
      List.eq_nil_of_length_eq_zero (by dsimp only at hs; omega)
    have ht : (if q.outstanding.length ≥ q.schedule.slots then q.outstanding.tail else q.outstanding) =
        q.outstanding := by
      split
      case isTrue hl => rw [hq hl]; rfl
      case isFalse   => rfl
    simp only [ProbeState.launch, ht]
    split
    case isTrue  => exact ⟨older, by rw [List.cons_append, List.tail_cons, List.append_assoc]⟩
    case isFalse => exact ⟨x :: older, by rw [List.append_assoc]⟩

theorem Covers.answered (h : p.Covers q) (hn : ∀ x ∈ p.ahead q, x.fst ≠ origin) :
    p.answered origin = q.answered origin := by
  rw [h.ahead, ProbeState.answered, ProbeState.answered]
  dsimp only
  rw [List.dropWhile_append_of_pos (by simpa using hn)]

theorem length_answered {sent : Nat} {p' : ProbeState} (h : p.answered origin = some (sent, p')) :
    p'.schedule = p.schedule ∧ p'.outstanding.length ≤ p.outstanding.length := by
  rw [ProbeState.answered] at h
  split at h
  case h_1 => cases h
  case h_2 hd =>
    cases h
    refine ⟨rfl, ?_⟩
    have := (List.dropWhile_sublist (fun x => decide (x.fst ≠ origin)) (l := p.outstanding)).length_le
    rw [hd] at this
    exact (Nat.le_succ _).trans this

end ProbeState

section

variable {M : Type} [ConnectionRecord M] [ProbeCodec] {frame : Frame} {p q : ProbeState}

omit [ConnectionRecord M] in
theorem makeProbe_covers (h : p.Covers q) (now : Nat) :
    (makeProbe p now).fst = (makeProbe q now).fst ∧ (makeProbe p now).snd.Covers (makeProbe q now).snd := by
  refine ⟨?_, h.launch⟩
  have ⟨_, hp⟩ := h.older
  rw [hp]
  rfl

-- A frame is the gate's to judge, or a probe, or the answer to one.
theorem handleInbound_cases (frame : Frame) (clock : Option Nat) (record : M) (now : Nat) :
    frame.isData = true ∧ (∀ probe, handleInbound frame clock probe record now =
      ((gated frame record now).fst, probe, (gated frame record now).snd)) ∨
    frame.isData = false ∧ (∃ inbound, inbound.verdict = none ∧
      ∀ probe, handleInbound frame clock probe record now = (inbound, probe, record)) ∨
    frame.isData = false ∧ ∀ probe, handleInbound frame clock probe record now =
      match frame.pongOrigin.bind probe.answered with
      | some (sent, probe) => (.consumed, probe, ConnectionRecord.recordLinkRtt record (now - sent))
      | none               => (.consumed, probe, record) := by
  rw [Frame.isData, Frame.pongOrigin]
  simp only [handleInbound]
  cases frame.split
  case none => exact .inl ⟨rfl, fun _ => rfl⟩
  case some t =>
    obtain ⟨tag, body⟩ := t
    dsimp only
    cases Frame.Kind.fromByte tag
    case none => exact .inl ⟨rfl, fun _ => rfl⟩
    case some kind =>
      cases kind
      case ping =>
        refine .inr <| .inl ⟨rfl, ?_⟩
        cases Frame.answerPing body clock
        case none => exact ⟨_, rfl, fun _ => rfl⟩
        case some => exact ⟨_, rfl, fun _ => rfl⟩
      case pong =>
        refine .inr <| .inr ⟨rfl, fun probe => ?_⟩
        rw [Option.bind_map]
        rfl
      all_goals exact .inl ⟨rfl, fun _ => rfl⟩

-- A frame is handled alike unless it answers one of the older probes.
theorem handleInbound_covers (h : p.Covers q) (hn : ∀ x ∈ p.ahead q, frame.pongOrigin ≠ some x.fst)
    (clock : Option Nat) (manager : M) (now : Nat) : ∃ inbound p' q' manager',
      handleInbound frame clock p manager now = (inbound, p', manager') ∧
      handleInbound frame clock q manager now = (inbound, q', manager') ∧ p'.Covers q' := by
  rcases handleInbound_cases frame clock manager now with ⟨_, hi⟩ | ⟨_, inbound, _, hi⟩ | ⟨_, hi⟩
  case inl     => exact ⟨_, p, q, _, hi p, hi q, h⟩
  case inr.inl => exact ⟨inbound, p, q, manager, hi p, hi q, h⟩
  case inr.inr =>
    have ha : frame.pongOrigin.bind p.answered = frame.pongOrigin.bind q.answered := by
      cases ho : frame.pongOrigin
      case none        => rfl
      case some origin => exact h.answered fun x hx he => hn x hx (ho.trans (congrArg some he.symm))
    rw [hi p, hi q, ha]
    cases hq : frame.pongOrigin.bind q.answered
    case none   => exact ⟨_, _, _, _, rfl, rfl, h⟩
    case some r =>
      have ⟨origin, _, hp⟩ := Option.bind_eq_some_iff.mp (ha.trans hq)
      have hl := ProbeState.length_answered hp
      exact ⟨_, _, _, _, rfl, rfl, ⟨[], rfl⟩, hl.left ▸ hl.right.trans h.slots⟩

end
end Plaza.Session
