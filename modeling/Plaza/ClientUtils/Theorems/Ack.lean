import Plaza.ClientUtils.Ack

namespace Plaza.ClientUtils.AckWindow

variable {w : AckWindow} {seen : Set Nat} {seq s f b n back i : Nat} {mask : BitVec 64}

theorem window_eq : window = 64 :=
  rfl

theorem bit_getLsbD (h : i < 64) : (bit back).getLsbD i = decide (back - 1 = i) := by
  simp [bit, ←BitVec.twoPow_eq, BitVec.getLsbD_twoPow]
  omega

theorem and_bit_ne_zero (h : back ≤ 64) (h₀ : 0 < back) :
    mask &&& bit back ≠ 0 ↔ mask.getLsbD (back - 1) := by
  have hb : BitVec.twoPow 64 (back - 1) ≠ 0#64 := by
    intro hc
    have := congrArg (BitVec.getLsbD · (back - 1)) hc
    simp [BitVec.getLsbD_twoPow] at this
    omega
  rw [bit, ←BitVec.twoPow_eq, BitVec.and_twoPow]
  split <;> simp_all

theorem observe_started (w : AckWindow) (seq : Nat) : (w.observe seq).fst.started := by
  simp only [observe]
  split <;> [rfl; (split <;> [skip; split] <;> [skip; skip; split] <;> simp_all)]

theorem observe_newest_eq_or (w : AckWindow) (seq : Nat) :
    (w.observe seq).fst.newest = w.newest ∨ (w.observe seq).fst.newest = seq := by
  simp only [observe]
  split <;> [exact .inr rfl; (split <;> [exact .inr rfl; (split <;> [skip; split] <;> exact .inl rfl)])]

theorem observe_newest (h : w.started → w.newest < seq) : (w.observe seq).fst.newest = seq := by
  cases hs : w.started
  case false => simp [observe, hs]
  case true  => simp [observe, hs, h hs]

-- What was observed just now is not observed again.
theorem observe_observe (w : AckWindow) (seq : Nat) :
    ((w.observe seq).fst.observe seq).fst = (w.observe seq).fst := by
  by_cases hs : w.started
  case neg => simp [observe, hs]
  case pos =>
    by_cases hn : w.newest < seq
    case pos => simp [observe, hs, hn]
    case neg =>
      by_cases he : seq = w.newest
      case pos => simp [observe, hs, he]
      case neg =>
        by_cases hw : window < w.newest - seq
        case pos => simp [observe, hs, hn, he, hw]
        case neg => simp [observe, hs, hn, he, hw, BitVec.or_assoc]

-- The refinement relation: the window knows the newest of the numbers that arrived, and exactly
-- those other arrivals which are at most `window` behind it.
structure Represents (w : AckWindow) (seen : Set Nat) : Prop where
  started  : w.started ↔ seen.Nonempty
  greatest : w.started → IsGreatest seen w.newest
  mask     : ∀ i < 64, w.mask.getLsbD i ↔ ∃ s ∈ seen, s + (i + 1) = w.newest

theorem new_represents : new.Represents ∅ where
  started  := by simp [new]
  greatest := by simp [new]
  mask     := by simp [new]

namespace Represents

theorem le_newest (h : w.Represents seen) (hs : s ∈ seen) : s ≤ w.newest :=
  h.greatest (h.started.mpr ⟨s, hs⟩) |>.right hs

theorem newest_mem (h : w.Represents seen) (hs : w.started) : w.newest ∈ seen :=
  h.greatest hs |>.left

theorem newest_unique (h : w.Represents seen) (hn : IsGreatest seen n) : n = w.newest :=
  hn.unique <| h.greatest <| h.started.mpr ⟨n, hn.left⟩

theorem observe_first (h : w.Represents seen) (hs : w.started = false) :
    (w.observe seq).fst.Represents (insert seq seen) := by
  have he : seen = ∅ := by
    have := h.started.not.mp (by simp [hs])
    exact Set.not_nonempty_iff_eq_empty.mp this
  subst he
  simp only [observe, hs, Bool.not_false, ↓reduceIte]
  constructor
  case started  => simp
  case greatest => simp [isGreatest_singleton]
  case mask     => simp

theorem mask_shifted (h : w.Represents seen) (hs : w.started) (hn : w.newest < seq) (hi : i < 64) :
    ((w.observe seq).fst.mask.getLsbD i) ↔ ∃ s ∈ seen, s + (i + 1) = seq := by
  simp only [observe, hs, hn, Bool.not_true, Bool.false_eq_true, ↓reduceIte]
  by_cases hw : seq - w.newest ≤ window <;> have := window_eq
  case neg =>
    -- Past the window every old arrival is more than `i + 1` behind.
    rw [if_neg hw]
    simp only [BitVec.ofNat_eq_ofNat, BitVec.getLsbD_zero, Bool.false_eq_true, false_iff]
    intro ⟨s, hm, he⟩
    have := h.le_newest hm
    omega
  case pos =>
    rw [if_pos hw, BitVec.getLsbD_or, bit_getLsbD hi, Bool.or_eq_true, decide_eq_true_eq]
    constructor
    case mp =>
      intro hm
      cases hm
      case inl hm =>
        split at hm <;> simp [BitVec.getLsbD_shiftLeft] at hm
        have ⟨s, hs, he⟩ := h.mask _ (by omega) |>.mp hm.right
        exact ⟨s, hs, by omega⟩
      case inr hm => exact ⟨_, h.newest_mem hs, by omega⟩
    case mpr =>
      intro ⟨s, hm, he⟩
      have hl := h.le_newest hm
      by_cases hc : s = w.newest
      case pos => exact .inr (by omega)
      case neg =>
        have hk := h.mask (i - (seq - w.newest)) (by omega) |>.mpr ⟨s, hm, by omega⟩
        rw [if_neg (by omega)]
        simp [BitVec.getLsbD_shiftLeft, hk]
        omega

theorem observe_newer (h : w.Represents seen) (hs : w.started) (hn : w.newest < seq) :
    (w.observe seq).fst.Represents (insert seq seen) := by
  have hnew : (w.observe seq).fst.newest = seq := by simp [observe, hs, hn]
  constructor
  case started  => simp [observe, hs, hn]
  case greatest =>
    intro _
    rw [hnew]
    refine ⟨Set.mem_insert .., fun s hm => ?_⟩
    cases hm
    case inl he => exact he.le
    case inr hm => exact le_of_lt <| lt_of_le_of_lt (h.le_newest hm) hn
  case mask =>
    intro i hi
    rw [h.mask_shifted hs hn hi, hnew]
    simp only [Set.mem_insert_iff, exists_eq_or_imp]
    exact ⟨.inr, fun | .inl he => by omega | .inr hm => hm⟩

theorem observe_older (h : w.Represents seen) (hs : w.started) (hn : seq < w.newest) :
    (w.observe seq).fst.Represents (insert seq seen) := by
  have hnew : (w.observe seq).fst.newest = w.newest := by
    simp [observe, hs, Nat.not_lt_of_gt hn, Nat.ne_of_lt hn]
    split <;> rfl
  have hst : (w.observe seq).fst.started = true := by
    simp [observe, hs, Nat.not_lt_of_gt hn, Nat.ne_of_lt hn]
    split <;> simp [hs]
  constructor
  case started  => simp [hst]
  case greatest =>
    intro _
    rw [hnew]
    refine ⟨.inr <| h.newest_mem hs, fun s hm => ?_⟩
    cases hm
    case inl he => exact he ▸ le_of_lt hn
    case inr hm => exact h.le_newest hm
  case mask =>
    intro i hi
    rw [hnew]
    simp only [observe, hs, Nat.not_lt_of_gt hn, Nat.ne_of_lt hn, Bool.not_true, Bool.false_eq_true,
      ↓reduceIte, Set.mem_insert_iff, exists_eq_or_imp]
    have := window_eq
    split
    case isTrue hw =>
      rw [h.mask i hi]
      exact ⟨.inr, fun | .inl he => by omega | .inr hm => hm⟩
    case isFalse hw =>
      rw [BitVec.getLsbD_or, bit_getLsbD hi, Bool.or_eq_true, h.mask i hi, decide_eq_true_eq, or_comm]
      exact or_congr_left (by omega)

theorem observe (h : w.Represents seen) (seq : Nat) :
    (w.observe seq).fst.Represents (insert seq seen) := by
  cases hs : w.started
  case false => exact h.observe_first hs
  case true =>
    match lt_trichotomy w.newest seq with
    | .inl hn        => exact h.observe_newer hs hn
    | .inr (.inl hn) =>
      subst hn
      rw [Set.insert_eq_of_mem <| h.newest_mem hs]
      simpa [AckWindow.observe, hs] using h
    | .inr (.inr hn) => exact h.observe_older hs hn

theorem contains_iff (h : w.Represents seen) : w.contains s ↔ s ∈ seen ∧ w.newest - s ≤ window := by
  cases hs : w.started
  case false =>
    have := h.started.not.mp (by simp [hs])
    simp [contains, hs, Set.not_nonempty_iff_eq_empty.mp this]
  case true =>
    match lt_trichotomy w.newest s with
    | .inl hn =>
      have := mt h.le_newest (Nat.not_le.mpr hn)
      simp [contains, hn, this]
    | .inr (.inl hn) => simp [contains, hs, ←hn, h.newest_mem hs]
    | .inr (.inr hn) =>
      simp only [contains, hs, Nat.not_lt_of_gt hn, Nat.ne_of_lt hn, Bool.not_true, Bool.false_or,
        decide_false, Bool.false_eq_true, ↓reduceIte, Bool.and_eq_true, decide_eq_true_eq]
      have := window_eq
      rw [and_comm]
      refine and_congr_left fun hw => ?_
      rw [and_bit_ne_zero hw (by omega), h.mask _ (by omega)]
      constructor
      case mp =>
        intro ⟨t, ht, he⟩
        rwa [show s = t by omega]
      case mpr =>
        intro hm
        exact ⟨s, hm, by omega⟩

-- Everything at least as new as a contained number is inside the window.
theorem contains_iff_of_le (h : w.Represents seen) (hc : w.contains f) (hs : f ≤ s) :
    w.contains s ↔ s ∈ seen := by
  rw [h.contains_iff, and_iff_left]
  have := (h.contains_iff.mp hc).right
  omega

theorem observe_snd_iff (h : w.Represents seen) :
    (w.observe s).snd ↔ ¬w.contains s ∧ (w.observe s).fst.contains s := by
  have ho := (h.observe s).contains_iff (s := s)
  simp only [Set.mem_insert_iff, true_or, true_and] at ho
  rw [ho]
  cases hs : w.started
  case false => simp [AckWindow.observe, contains, hs]
  case true =>
    have := window_eq
    match lt_trichotomy w.newest s with
    | .inl hn        => simp [AckWindow.observe, contains, hs, hn]
    | .inr (.inl hn) => simp [AckWindow.observe, contains, hs, ←hn]
    | .inr (.inr hn) =>
      by_cases hw : window < w.newest - s
      case pos =>
        simp [AckWindow.observe, contains, hs, Nat.not_lt_of_gt hn, Nat.ne_of_lt hn, hw]
        exact fun _ => by omega
      case neg =>
        have hw' := Nat.not_lt.mp hw
        simp only [AckWindow.observe, contains, hs, Nat.not_lt_of_gt hn, Nat.ne_of_lt hn, hw, hw',
          Bool.not_true, Bool.false_or, Bool.false_eq_true, ↓reduceIte, decide_false, decide_true,
          Bool.true_and]
        simp

theorem mem_missingSince_iff (h : w.Represents seen) :
    s ∈ w.missingSince n ↔
      w.started ∧ max n (w.newest - window) ≤ s ∧ s < w.newest ∧ s ∉ seen := by
  cases hs : w.started
  case false => simp [missingSince, hs]
  case true =>
    simp only [missingSince, hs, ↓reduceIte, Bool.true_and, List.mem_filter, List.mem_range'_1,
      Bool.not_eq_true', ←Bool.not_eq_true, h.contains_iff, true_and]
    constructor
    case mp =>
      intro ⟨hr, hm⟩
      exact ⟨by omega, by omega, fun hc => hm ⟨hc, by omega⟩⟩
    case mpr =>
      intro ⟨hf, hl, hm⟩
      exact ⟨by omega, fun hc => hm hc.left⟩

end Represents

theorem contains_le_newest (h : w.contains s) : s ≤ w.newest := by
  by_contra hn
  simp [contains, Nat.lt_of_not_le hn] at h

theorem missingSince_sorted (w : AckWindow) (n : Nat) : (w.missingSince n).Pairwise (· < ·) :=
  List.Pairwise.filter _ List.pairwise_lt_range'

theorem walk_le (hb : b ≤ w.newest) : w.walk n b ≤ w.newest := by
  induction n generalizing b <;> simp only [walk]
  case zero => exact hb
  case succ hi =>
    split
    case isTrue hc  => exact hi <| by simp at hc; omega
    case isFalse hc => exact hb

theorem le_walk : b ≤ w.walk n b := by
  induction n generalizing b <;> simp only [walk]
  case zero => exact le_rfl
  case succ hi => split <;> [exact Nat.le_of_succ_le hi; exact le_rfl]

theorem contains_of_walk (hc : w.contains b) (hl : b ≤ s) (hu : s ≤ w.walk n b) : w.contains s := by
  induction n generalizing b <;> simp only [walk] at hu
  case zero => exact Nat.le_antisymm hl hu ▸ hc
  case succ hi =>
    cases Nat.eq_or_lt_of_le hl
    case inl he => exact he ▸ hc
    case inr hl =>
      split at hu
      case isTrue hn  => exact hi (by simp at hn; exact hn.right) hl hu
      case isFalse hn => exact absurd hu (by omega)

-- The walk only stops early at a gap, as there are enough rounds to reach the newest.
theorem walk_stops (hn : w.newest - b ≤ n) (hl : w.walk n b < w.newest) :
    ¬w.contains (w.walk n b + 1) := by
  induction n generalizing b <;> simp only [walk] at hl ⊢
  case zero => omega
  case succ hi =>
    split at hl
    case isTrue hc =>
      rw [if_pos hc]
      exact hi (by omega) hl
    case isFalse hc =>
      rw [if_neg hc]
      simp only [Bool.and_eq_true, decide_eq_true_eq, not_and] at hc
      exact hc hl

theorem contiguousBase_eq_some_iff :
    w.contiguousBase f = some b ↔ w.contains f ∧ w.walk (w.newest - f) f = b := by
  unfold contiguousBase
  split <;> simp_all

theorem contiguousBase_eq_none_iff : w.contiguousBase f = none ↔ ¬w.contains f := by
  unfold contiguousBase
  split <;> simp_all

theorem contiguousBase_le_newest (h : w.contiguousBase f = some b) : b ≤ w.newest :=
  have ⟨hc, hw⟩ := contiguousBase_eq_some_iff.mp h
  hw ▸ walk_le (contains_le_newest hc)

theorem le_contiguousBase (h : w.contiguousBase f = some b) : f ≤ b :=
  (contiguousBase_eq_some_iff.mp h).right ▸ le_walk

theorem contains_of_contiguousBase (h : w.contiguousBase f = some b) (hl : f ≤ s) (hu : s ≤ b) :
    w.contains s :=
  have ⟨hc, hw⟩ := contiguousBase_eq_some_iff.mp h
  contains_of_walk hc hl (hw ▸ hu)

theorem contiguousBase_stops (h : w.contiguousBase f = some b) : ¬w.contains (b + 1) := by
  have ⟨_, hw⟩ := contiguousBase_eq_some_iff.mp h
  by_cases hl : b < w.newest
  case pos => exact hw ▸ walk_stops le_rfl (hw ▸ hl)
  case neg => exact fun hc => hl <| contains_le_newest hc

theorem le_contiguousBase_of_contains (h : w.contiguousBase f = some b)
    (hc : ∀ s, f ≤ s → s ≤ n → w.contains s) : n ≤ b := by
  by_contra hl
  have hf := le_contiguousBase h
  exact contiguousBase_stops h <| hc _ (by omega) (by omega)

theorem Represents.contiguousBase_isGreatest (h : w.Represents seen)
    (hb : w.contiguousBase f = some b) :
    IsGreatest { b | f ≤ b ∧ ∀ s, f ≤ s → s ≤ b → s ∈ seen } b := by
  have ⟨hc, _⟩ := contiguousBase_eq_some_iff.mp hb
  refine ⟨⟨le_contiguousBase hb, fun s hl hu => ?_⟩, ?_⟩
  case refine_1 => exact h.contains_iff.mp (contains_of_contiguousBase hb hl hu) |>.left
  case refine_2 =>
    intro c ⟨_, hr⟩
    by_contra hlt
    have hf := Nat.le_succ_of_le <| le_contiguousBase hb
    exact contiguousBase_stops hb <| h.contains_iff_of_le hc hf |>.mpr <| hr _ hf <| by omega

theorem Represents.answers (h : w.Represents seen) : w.Answers seen where
  contains s := by
    rw [h.contains_iff]
    refine and_congr_right fun hs => ⟨fun hw => ?_, fun ⟨n, hn, hw⟩ => ?_⟩
    case refine_1 => exact ⟨_, h.greatest (h.started.mpr ⟨s, hs⟩), hw⟩
    case refine_2 => exact h.newest_unique hn ▸ hw
  observe _ := h.observe_snd_iff
  sorted    := w.missingSince_sorted
  missing o s := by
    rw [h.mem_missingSince_iff]
    constructor
    case mp =>
      intro ⟨hs, hm⟩
      exact ⟨_, h.greatest hs, hm⟩
    case mpr =>
      intro ⟨n, hn, hm⟩
      exact ⟨h.started.mpr ⟨n, hn.left⟩, h.newest_unique hn ▸ hm⟩
  base _ _  := h.contiguousBase_isGreatest
  noBase _  := contiguousBase_eq_none_iff

theorem encode_eq_some_iff : w.encode = some (n, mask) ↔ fromEncoded n mask = w := by
  cases w
  simp only [encode, fromEncoded, mk.injEq]
  split <;> simp_all [eq_comm]

theorem observeAll_represents (seqs : List Nat) : (observeAll seqs).Represents { s | s ∈ seqs } := by
  suffices h : ∀ {w : AckWindow} {seen}, w.Represents seen →
      (seqs.foldl (fun w seq => (w.observe seq).fst) w).Represents (seen ∪ { s | s ∈ seqs }) by
    simpa [observeAll] using h new_represents
  induction seqs <;> intro w seen h
  case nil          => simpa using h
  case cons hd tl hi =>
    have he : insert hd seen ∪ { s | s ∈ tl } = seen ∪ { s | s ∈ hd :: tl } := by
      ext s
      simp [or_assoc, or_left_comm]
    exact he ▸ hi (h.observe hd)

theorem observeAll_answers (seqs : List Nat) :
    (observeAll seqs).Answers { s | s ∈ seqs } ∧
    ∀ n m, (observeAll seqs).encode = some (n, m) →
      (∀ s, (fromEncoded n m).contains s = (observeAll seqs).contains s) ∧
      (∀ s, ((fromEncoded n m).observe s).snd = ((observeAll seqs).observe s).snd) ∧
      (∀ o, (fromEncoded n m).missingSince o = (observeAll seqs).missingSince o) ∧
      (∀ f, (fromEncoded n m).contiguousBase f = (observeAll seqs).contiguousBase f) := by
  refine ⟨(observeAll_represents seqs).answers, fun n m he => ?_⟩
  simp [encode_eq_some_iff.mp he]

theorem observeAll_answers_gap :
    (fromEncoded 9 2#64).contiguousBase 7 = (observeAll [7, 9]).contiguousBase 7 :=
  (observeAll_answers [7, 9]).right 9 2#64 rfl |>.right.right.right 7

end Plaza.ClientUtils.AckWindow
