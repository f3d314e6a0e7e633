import Mathlib.Algebra.Order.Field.Rat
import Mathlib.Tactic.Ring
import Plaza.ClientUtils.Arrival

namespace Plaza.ClientUtils.ArrivalMonitor

variable {K : Type*} [Field K] [LinearOrder K] {m : ArrivalMonitor K} {smoothing : K} {arrivals : List (Nat × Nat)}
  {stamp recv c d : Nat}

-- All clocks start at another time.
def restarted (c : Nat) (arrivals : List (Nat × Nat)) : List (Nat × Nat) :=
  arrivals.map fun a => (a.fst + c, a.snd + c)

-- Every packet takes longer.
def delayed (d : Nat) (arrivals : List (Nat × Nat)) : List (Nat × Nat) :=
  arrivals.map fun a => (a.fst, a.snd + d)

def readings (m : ArrivalMonitor K) : K × K × K × K × Bool :=
  (m.intervalMs, m.latenessMeanMs, m.jitterMs, m.neededDelayMs, m.warmedUp)

@[simp]
theorem noteLateness_newestStamp {l : K} : (m.noteLateness l).newestStamp = m.newestStamp := by
  rw [noteLateness]
  split <;> rfl

@[simp]
theorem noteLateness_intervalMs {l : K} : (m.noteLateness l).intervalMs = m.intervalMs := by
  rw [noteLateness]
  split <;> rfl

theorem observe_newestStamp : (m.observe stamp recv).newestStamp = max m.newestStamp stamp := by
  rw [observe, noteLateness_newestStamp, noteInterval]
  by_cases h : m.newestStamp < stamp
  case pos => by_cases hn : 0 < m.newestStamp <;> simp [h, hn, h.le]
  case neg => simp [h, Nat.le_of_not_lt h]

-- The monitor of a stream whose clocks start later.
def restart (m : ArrivalMonitor K) (c : Nat) : ArrivalMonitor K :=
  { m with newestStamp := m.newestStamp + c }

theorem noteLateness_restart {l : K} : (m.restart c).noteLateness l = (m.noteLateness l).restart c := by
  cases h : m.latenessSeeded <;> simp [noteLateness, restart, h]

theorem noteInterval_restart (h : 0 < m.newestStamp ∨ stamp = 0) :
    (m.restart c).noteInterval (stamp + c) = (m.noteInterval stamp).restart c := by
  by_cases hs : m.newestStamp < stamp
  case pos =>
    have hn : 0 < m.newestStamp := h.resolve_right (by omega)
    simp only [noteInterval, restart, Nat.add_sub_add_right, Nat.add_lt_add_iff_right, hn, hs,
      Nat.add_pos_left hn c, and_self, ↓reduceIte]
  case neg => simp only [noteInterval, restart, Nat.add_lt_add_iff_right, hs, and_false, ↓reduceIte]

-- A monitor which has seen a stamp does not tell when the clocks started.
theorem observe_restart (h : 0 < m.newestStamp ∨ stamp = 0) :
    (m.restart c).observe (stamp + c) (recv + c) = (m.observe stamp recv).restart c := by
  rw [observe, observe, noteInterval_restart h, noteLateness_restart, Nat.add_sub_add_right]

-- Neither does a new one, with its first stamp.
theorem new_noteInterval : (new smoothing).noteInterval stamp = { new smoothing with newestStamp := stamp } := by
  cases stamp <;> simp [noteInterval, new]

theorem new_observe_restart :
    (new smoothing).observe (stamp + c) (recv + c) = ((new smoothing).observe stamp recv).restart c := by
  rw [observe, observe, new_noteInterval, new_noteInterval, Nat.add_sub_add_right, ← noteLateness_restart]
  rfl

theorem observeAll_restart (h : 0 < m.newestStamp ∨ ∀ a ∈ arrivals, a.fst = 0) :
    (m.restart c).observeAll (restarted c arrivals) = (m.observeAll arrivals).restart c := by
  induction arrivals generalizing m
  case nil => rfl
  case cons a arrivals hi =>
    have ha : 0 < m.newestStamp ∨ a.fst = 0 := h.imp_right fun h => h a (List.mem_cons_self)
    have hr : 0 < (m.observe a.fst a.snd).newestStamp ∨ ∀ a ∈ arrivals, a.fst = 0 := by
      rw [observe_newestStamp]
      exact h.imp (fun h => by omega) fun h b hb => h b (List.mem_cons_of_mem _ hb)
    exact (congrArg (observeAll · (restarted c arrivals)) (observe_restart ha)).trans (hi hr)

-- The monitor of a stream with a longer delay.
def postpone (m : ArrivalMonitor K) (d : Nat) : ArrivalMonitor K :=
  { m with latenessMeanMs := m.latenessMeanMs + d }

theorem noteInterval_postpone : (m.postpone d).noteInterval stamp = (m.noteInterval stamp).postpone d := by
  by_cases hn : 0 < m.newestStamp <;> by_cases hs : m.newestStamp < stamp <;> by_cases hi : m.intervalMs = 0 <;>
    simp [noteInterval, postpone, hn, hs, hi]

theorem noteLateness_postpone {l : K} (h : m.latenessSeeded) :
    (m.postpone d).noteLateness (l + d) = (m.noteLateness l).postpone d := by
  have hl : l + d - (m.latenessMeanMs + d) = l - m.latenessMeanMs := by ring
  have hm : m.latenessMeanMs + d + (l - m.latenessMeanMs) * m.smoothing =
      m.latenessMeanMs + (l - m.latenessMeanMs) * m.smoothing + d := by ring
  simp [noteLateness, postpone, h, hl, hm]

theorem observe_postpone (h : m.latenessSeeded) (hr : stamp ≤ recv) :
    (m.postpone d).observe stamp (recv + d) = (m.observe stamp recv).postpone d := by
  have hs : (m.noteInterval stamp).latenessSeeded = m.latenessSeeded := by
    by_cases hn : 0 < m.newestStamp <;> by_cases hs : m.newestStamp < stamp <;> simp [noteInterval, hn, hs]
  rw [observe, observe, noteInterval_postpone, Nat.sub_add_comm hr, Nat.cast_add, noteLateness_postpone (hs ▸ h)]

theorem new_observe_postpone (hr : stamp ≤ recv) :
    (new smoothing).observe stamp (recv + d) = ((new smoothing).observe stamp recv).postpone d := by
  rw [observe, observe, new_noteInterval, Nat.sub_add_comm hr, Nat.cast_add]
  rfl

theorem observe_latenessSeeded : (m.observe stamp recv).latenessSeeded := by
  rw [observe, noteLateness]
  split
  case isTrue    => rfl
  case isFalse h => simpa using h

theorem observeAll_postpone (h : m.latenessSeeded) (hr : ∀ a ∈ arrivals, a.fst ≤ a.snd) :
    (m.postpone d).observeAll (delayed d arrivals) = (m.observeAll arrivals).postpone d := by
  induction arrivals generalizing m
  case nil => rfl
  case cons a arrivals hi =>
    have ⟨ha, hr⟩ := List.forall_mem_cons.mp hr
    exact (congrArg (observeAll · (delayed d arrivals)) (observe_postpone h ha)).trans
      (hi observe_latenessSeeded hr)

-- As long as the stamps are zero, there is no interval.
theorem observeAll_zero (h : ∀ a ∈ arrivals, a.fst = 0) (hn : m.newestStamp = 0) :
    (m.observeAll arrivals).newestStamp = 0 ∧ (m.observeAll arrivals).intervalMs = m.intervalMs := by
  induction arrivals generalizing m
  case nil => exact ⟨hn, rfl⟩
  case cons a arrivals hi =>
    have ⟨ha, h⟩ := List.forall_mem_cons.mp h
    have hi := hi h (m := m.observe a.fst a.snd) (by rw [observe_newestStamp, hn, ha, max_self])
    refine ⟨hi.left, hi.right.trans ?_⟩
    simp [observe, noteInterval, hn, ha]

theorem observeAll_restarted (hn : arrivals ≠ [])
    (h : (∀ a ∈ arrivals.head?, a.fst ≠ 0) ∨ ∀ a ∈ arrivals, a.fst = 0) :
    (new smoothing).observeAll (restarted c arrivals) = ((new smoothing).observeAll arrivals).restart c := by
  cases arrivals
  case nil => contradiction
  case cons a arrivals =>
    refine (congrArg (observeAll · (restarted c arrivals)) new_observe_restart).trans (observeAll_restart ?_)
    rw [observe_newestStamp]
    refine h.imp (fun h => ?_) fun h b hb => h b (List.mem_cons_of_mem _ hb)
    have := h a rfl
    omega

theorem observeAll_delayed (hn : arrivals ≠ []) (hr : ∀ a ∈ arrivals, a.fst ≤ a.snd) :
    (new smoothing).observeAll (delayed d arrivals) = ((new smoothing).observeAll arrivals).postpone d := by
  cases arrivals
  case nil => contradiction
  case cons a arrivals =>
    have ⟨ha, hr⟩ := List.forall_mem_cons.mp hr
    exact (congrArg (observeAll · (delayed d arrivals)) (new_observe_postpone ha)).trans
      (observeAll_postpone observe_latenessSeeded hr)

variable [IsStrictOrderedRing K]

-- The first forward stamp after zero makes an interval, but only if zero was something else.
theorem interval_apart {zeros : List (Nat × Nat)} {a : Nat × Nat} (hc : c ≠ 0) (hn : zeros ≠ [])
    (hz : ∀ a ∈ zeros, a.fst = 0) (ha : a.fst ≠ 0) :
    ((new smoothing).observeAll (restarted c (zeros ++ [a]))).intervalMs ≠
      ((new smoothing).observeAll (zeros ++ [a])).intervalMs := by
  have ⟨hs, hi⟩ := observeAll_zero hz (rfl : (new smoothing).newestStamp = 0)
  have hr : (new smoothing).observeAll (restarted c (zeros ++ [a])) =
      (((new smoothing).observeAll zeros).restart c).observe (a.fst + c) (a.snd + c) := by
    rw [← observeAll_restarted hn (.inr hz), restarted, List.map_append, observeAll, List.foldl_append]
    rfl
  have h₁ : ((new smoothing).observeAll (restarted c (zeros ++ [a]))).intervalMs = a.fst := by
    have hi : (((new smoothing).observeAll zeros).restart c).intervalMs = 0 := hi
    have hs : (((new smoothing).observeAll zeros).restart c).newestStamp = c := by rw [restart, hs, Nat.zero_add]
    rw [hr, observe, noteLateness_intervalMs, noteInterval]
    simp [hs, hi, Nat.pos_of_ne_zero hc, Nat.pos_of_ne_zero ha]
  have h₀ : ((new smoothing).observeAll (zeros ++ [a])).intervalMs = 0 := by
    have hz : (new smoothing).observeAll (zeros ++ [a]) =
        ((new smoothing).observeAll zeros).observe a.fst a.snd := List.foldl_append
    rw [hz, observe, noteLateness_intervalMs, noteInterval]
    simp [hs, hi, Nat.pos_of_ne_zero ha]
    rfl
  rw [h₁, h₀]
  exact_mod_cast ha

-- The readings after every packet of a stream are those of the stream restarted, and delayed they differ by the
-- delay, exactly if the clocks did not start at zero or do not go on from there.
theorem origin_free_iff (smoothing : K) (hr : ∀ a ∈ arrivals, a.fst ≤ a.snd) (c : Nat) :
    (∀ seen, seen <+: arrivals →
      ((new smoothing).observeAll (restarted c seen)).readings = ((new smoothing).observeAll seen).readings ∧
      ∀ d, seen ≠ [] →
        ((new smoothing).observeAll (delayed d seen)).latenessMeanMs =
          ((new smoothing).observeAll seen).latenessMeanMs + d ∧
        ((new smoothing).observeAll (delayed d seen)).jitterMs = ((new smoothing).observeAll seen).jitterMs ∧
        ((new smoothing).observeAll (delayed d seen)).intervalMs = ((new smoothing).observeAll seen).intervalMs) ↔
    c = 0 ∨ (∀ a ∈ arrivals.head?, a.fst ≠ 0) ∨ ∀ a ∈ arrivals, a.fst = 0 := by
  constructor
  case mp =>
    intro h
    by_contra hn
    push Not at hn
    obtain ⟨hc, ⟨b, hb, hb0⟩, ⟨p, hp, hp0⟩⟩ := hn
    obtain ⟨a, ha⟩ : ∃ a, arrivals.find? (·.fst ≠ 0) = some a :=
      Option.isSome_iff_exists.mp <| List.find?_isSome.mpr ⟨p, hp, decide_eq_true hp0⟩
    obtain ⟨ha0, zeros, rest, he, hz⟩ := List.find?_eq_some_iff_append.mp ha
    have hz : ∀ z ∈ zeros, z.fst = 0 := fun z hzs => by simpa using hz z hzs
    have hn : zeros ≠ [] := by
      rintro rfl
      have : a = b := by simpa [he] using hb
      simp_all
    have hi := (h (zeros ++ [a]) ⟨rest, by simp [he]⟩).left
    exact interval_apart hc hn hz (by simpa using ha0) (congrArg Prod.fst hi)
  case mpr =>
    intro h seen hs
    constructor
    case left =>
      by_cases hn : seen = []
      case pos => rw [hn]; rfl
      case neg =>
        obtain h | h := h
        case inl =>
          have hi : restarted c seen = seen := by simp [restarted, h]
          rw [hi]
        case inr =>
          have hh {a} (ha : a ∈ seen.head?) : a ∈ arrivals.head? := by
            obtain ⟨tail, rfl⟩ := hs
            rw [List.head?_append, Option.mem_def.mp ha, Option.some_or]
            rfl
          have hd : (∀ a ∈ seen.head?, a.fst ≠ 0) ∨ ∀ a ∈ seen, a.fst = 0 :=
            h.imp (fun h a ha => h a (hh ha)) fun h a ha => h a (hs.subset ha)
          rw [observeAll_restarted hn hd]
          rfl
    case right =>
      intro d hn
      rw [observeAll_delayed hn fun a ha => hr a (hs.subset ha)]
      exact ⟨rfl, rfl, rfl⟩

theorem origin_free_two :
    ((new (1 / 5 : ℚ)).observeAll (restarted 7 [(100, 130), (200, 260)])).readings =
      ((new (1 / 5 : ℚ)).observeAll [(100, 130), (200, 260)]).readings :=
  ((origin_free_iff (1 / 5 : ℚ) (by decide) 7).mpr (.inr (.inl (by decide))) _ (List.prefix_refl _)).left

-- A stream which starts at zero loses its first interval.
theorem origin_bound :
    ¬∀ {K : Type} [Field K] [LinearOrder K] [IsStrictOrderedRing K] (smoothing : K) (arrivals : List (Nat × Nat))
      (c : Nat), (∀ a ∈ arrivals, a.fst ≤ a.snd) →
      ((new smoothing).observeAll (restarted c arrivals)).readings =
        ((new smoothing).observeAll arrivals).readings := by
  intro h
  have h := h (1 / 5 : ℚ) [(0, 10), (100, 110)] 1 (by decide)
  revert h
  decide +kernel

end Plaza.ClientUtils.ArrivalMonitor
