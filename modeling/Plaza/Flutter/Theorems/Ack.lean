import Plaza.Flutter.Ack

namespace Plaza.Flutter.AckWindow

open Dart (Word)

variable {w : ClientUtils.AckWindow} {d : AckWindow} {s o f rounds : Nat} {x y : Word}

-- The port holds what the window does.
structure Ports (w : ClientUtils.AckWindow) (d : AckWindow) : Prop where
  newest  : d.newest.toNat = w.newest
  small   : w.newest < 2 ^ 63
  mask    : d.mask = w.mask
  started : d.started = w.started

theorem Ports.new : Ports .new new where
  newest  := rfl
  small   := by simp [ClientUtils.AckWindow.new]
  mask    := rfl
  started := rfl

theorem Ports.fromEncoded {mask : BitVec 64} (h : s < 2 ^ 63) :
    Ports (.fromEncoded s mask) (fromEncoded (.ofNat 64 s) mask) where
  newest  := by simp [Flutter.AckWindow.fromEncoded, ClientUtils.AckWindow.fromEncoded]; omega
  small   := h
  mask    := rfl
  started := rfl

theorem toNat_seq (h : s < 2 ^ 63) : (BitVec.ofNat 64 s).toNat = s := by
  rw [BitVec.toNat_ofNat]
  omega

theorem toNat_sub (h : y.toNat ≤ x.toNat) : (x - y).toNat = x.toNat - y.toNat :=
  BitVec.toNat_sub_of_le h

-- The bit which stands for a sequence number behind the newest.
theorem bit_eq (h : 0 < x.toNat) : (1 : Word) <<< (x - 1) = ClientUtils.AckWindow.bit x.toNat := by
  rw [ClientUtils.AckWindow.bit, BitVec.shiftLeft_eq', toNat_sub]
  · rfl
  · exact h

-- Comparisons with the size of the window.
theorem le_window (h : x.toNat < 2 ^ 63) : x.le ackWindow = decide (x.toNat ≤ 64) :=
  Word.le_eq h (by decide)

theorem window_le (h : x.toNat < 2 ^ 63) : Word.le 64 x = decide (64 ≤ x.toNat) :=
  Word.le_eq (by decide) h

theorem window_lt (h : x.toNat < 2 ^ 63) : ackWindow.lt x = decide (64 < x.toNat) :=
  Word.lt_eq (by decide) h

-- The port holds the same words as the window, which may be beyond those that a signed word represents.
structure Holds (w : ClientUtils.AckWindow) (d : AckWindow) : Prop where
  newest  : d.newest.toNat = w.newest
  mask    : d.mask = w.mask
  started : d.started = w.started

namespace Holds

theorem new : Holds .new new where
  newest  := rfl
  mask    := rfl
  started := rfl

theorem observe_newer (h : Holds w d) (ht : w.started) (hm : x.msb = d.newest.msb) (hn : w.newest < x.toNat) :
    (d.observe x).snd = (w.observe x.toNat).snd ∧ Holds (w.observe x.toNat).fst (d.observe x).fst := by
  have hl : d.newest.toNat ≤ x.toNat := by rw [h.newest]; exact hn.le
  have hb : (x - d.newest).toNat = x.toNat - w.newest := by rw [toNat_sub hl, h.newest]
  have hs := Word.toNat_sub_lt_of_msb hm hl
  simp only [observe, ClientUtils.AckWindow.observe, h.started, ht, Word.lt_eq_of_msb hm.symm, h.newest, hn,
    Bool.not_true, decide_true, Bool.false_eq_true, ↓reduceIte, true_and]
  constructor
  case newest  => rfl
  case started => rfl
  case mask    =>
    rw [le_window hs, window_le hs, bit_eq (by omega), BitVec.shiftLeft_eq', hb, h.mask]
    simp only [decide_eq_true_eq]
    rfl

theorem observe_older (h : Holds w d) (ht : w.started) (hm : x.msb = d.newest.msb) (hn : x.toNat < w.newest) :
    (d.observe x).snd = (w.observe x.toNat).snd ∧ Holds (w.observe x.toNat).fst (d.observe x).fst := by
  have hl : x.toNat ≤ d.newest.toNat := by rw [h.newest]; exact hn.le
  have hb : (d.newest - x).toNat = w.newest - x.toNat := by rw [toNat_sub hl, h.newest]
  have hs := Word.toNat_sub_lt_of_msb hm.symm hl
  have he : x ≠ d.newest := fun he => by rw [he, h.newest] at hn; exact hn.ne rfl
  simp only [observe, ClientUtils.AckWindow.observe, h.started, ht, Word.lt_eq_of_msb hm.symm, h.newest, he,
    Nat.not_lt_of_gt hn, Nat.ne_of_lt hn, Bool.not_true, decide_false, Bool.false_eq_true, ↓reduceIte]
  rw [window_lt hs, bit_eq (by omega), hb, h.mask]
  by_cases hw : 64 < w.newest - x.toNat
  case pos =>
    rw [if_pos (by simpa), if_pos (by simpa [ClientUtils.AckWindow.window])]
    exact ⟨rfl, h⟩
  case neg =>
    rw [if_neg (by simpa using hw), if_neg (by simpa [ClientUtils.AckWindow.window] using hw)]
    refine ⟨by simp, ?_⟩
    constructor
    case newest  => exact h.newest
    case mask    => rfl
    case started => rfl

-- The sequence number is compared with the newest, which has to have the same sign.
theorem observe_eq (h : Holds w d) (hm : w.started → x.msb = d.newest.msb) :
    (d.observe x).snd = (w.observe x.toNat).snd ∧ Holds (w.observe x.toNat).fst (d.observe x).fst := by
  cases ht : w.started
  case false =>
    simp only [observe, ClientUtils.AckWindow.observe, h.started, ht, Bool.not_false, ↓reduceIte, true_and]
    exact ⟨rfl, rfl, rfl⟩
  case true =>
    match lt_trichotomy w.newest x.toNat with
    | .inl hn        => exact h.observe_newer ht (hm ht) hn
    | .inr (.inl hn) =>
      have he : x = d.newest := BitVec.eq_of_toNat_eq <| by rw [h.newest, hn]
      subst he
      simp only [observe, ClientUtils.AckWindow.observe, h.started, ht, Word.lt_eq_of_msb rfl, h.newest, lt_irrefl,
        Bool.not_true, decide_false, Bool.false_eq_true, ↓reduceIte]
      exact ⟨trivial, h⟩
    | .inr (.inr hn) => exact h.observe_older ht (hm ht) hn

end Holds

theorem newest_observe_lt (hw : w.newest < 2 ^ 63) (hs : s < 2 ^ 63) : (w.observe s).fst.newest < 2 ^ 63 := by
  simp only [ClientUtils.AckWindow.observe]
  split_ifs <;> assumption

namespace Ports

theorem lt_eq (h : Ports w d) (hs : s < 2 ^ 63) : d.newest.lt (.ofNat 64 s) = decide (w.newest < s) := by
  have := h.newest
  have := h.small
  rw [Word.lt_eq (by omega) (by rwa [toNat_seq hs]), h.newest, toNat_seq hs]

theorem eq_iff (h : Ports w d) (hs : s < 2 ^ 63) : BitVec.ofNat 64 s = d.newest ↔ s = w.newest := by
  rw [←BitVec.toNat_inj, toNat_seq hs, h.newest]

-- How far a sequence number is behind the newest.
theorem toNat_back (h : Ports w d) (hs : s ≤ w.newest) : (d.newest - .ofNat 64 s).toNat = w.newest - s := by
  have hl := h.small
  rw [toNat_sub (by rw [toNat_seq (by omega), h.newest]; exact hs), toNat_seq (by omega), h.newest]

theorem contains_eq (h : Ports w d) (hs : s < 2 ^ 63) : d.contains (.ofNat 64 s) = w.contains s := by
  have hl := h.small
  simp only [contains, ClientUtils.AckWindow.contains, h.started, h.lt_eq hs, h.eq_iff hs]
  split
  case isTrue  => rfl
  case isFalse h₁ =>
    simp only [Bool.or_eq_true, decide_eq_true_eq, not_or] at h₁
    split
    case isTrue     => rfl
    case isFalse h₂ =>
      have hb := h.toNat_back (s := s) (by omega)
      rw [le_window (by omega), bit_eq (by omega), hb, h.mask]
      rfl

theorem holds (h : Ports w d) : Holds w d where
  newest  := h.newest
  mask    := h.mask
  started := h.started

theorem observe_eq (h : Ports w d) (hs : s < 2 ^ 63) :
    (d.observe (.ofNat 64 s)).snd = (w.observe s).snd ∧ Ports (w.observe s).fst (d.observe (.ofNat 64 s)).fst := by
  have hn := h.newest
  have hl := h.small
  have ho := h.holds.observe_eq (x := .ofNat 64 s) fun _ => Word.msb_eq_iff.mpr (by rw [toNat_seq hs]; omega)
  rw [toNat_seq hs] at ho
  exact ⟨ho.left, ho.right.newest, newest_observe_lt hl hs, ho.right.mask, ho.right.started⟩

theorem toNat_next (h : Ports w d) (hn : x.toNat < w.newest) : (x + 1).toNat = x.toNat + 1 := by
  have hl := h.small
  rw [BitVec.toNat_add]
  exact Nat.mod_eq_of_lt (by simp; omega)

-- By induction on the rounds, of which there are enough.
theorem scan_eq (h : Ports w d) (hx : x.toNat < 2 ^ 63) (hr : w.newest - x.toNat ≤ rounds) :
    (d.scan rounds x).map BitVec.toNat =
      (List.range' x.toNat (w.newest - x.toNat)).filter fun seq => !w.contains seq := by
  have hl := h.small
  induction rounds generalizing x
  case zero => simp [scan, Nat.le_zero.mp hr]
  case succ rounds hi =>
    have hc := h.contains_eq hx
    rw [BitVec.ofNat_toNat, BitVec.setWidth_eq] at hc
    rw [scan, Word.lt_eq hx (by rwa [h.newest]), hc, h.newest]
    by_cases hn : x.toNat < w.newest
    case neg => simp [hn, Nat.sub_eq_zero_of_le (Nat.not_lt.mp hn)]
    case pos =>
      have hs := h.toNat_next hn
      have hi := hi (x := x + 1) (by omega) (by omega)
      have hk : w.newest - x.toNat = w.newest - (x + 1).toNat + 1 := by omega
      rw [hk, List.range'_succ, List.filter_cons, ←hs, ←hi, if_pos (by simpa)]
      split <;> rfl

-- Near the start of the numbering a window behind the newest is a negative number.
theorem toNat_floor (h : Ports w d) (ho : o < 2 ^ 63) :
    (if (d.newest - ackWindow).lt (.ofNat 64 o) then BitVec.ofNat 64 o else d.newest - ackWindow).toNat =
      max (w.newest - 64) o := by
  have hl := h.small
  have hn := h.newest
  by_cases hw : 64 ≤ w.newest
  case pos =>
    have hf : (d.newest - ackWindow).toNat = w.newest - 64 := by
      rw [toNat_sub (by simpa [ackWindow, hn]), hn]
      rfl
    rw [Word.lt_eq (by omega) (by rwa [toNat_seq ho]), hf, toNat_seq ho]
    by_cases hc : w.newest - 64 < o
    case pos => rw [if_pos (by simpa), toNat_seq ho, max_eq_right hc.le]
    case neg => rw [if_neg (by simpa using hc), hf, max_eq_left (Nat.not_lt.mp hc)]
  case neg =>
    have hf : (d.newest - ackWindow).toNat = 2 ^ 64 - 64 + w.newest := by
      rw [BitVec.toNat_sub, hn]
      simp [ackWindow]
      omega
    have hc : (d.newest - ackWindow).lt (.ofNat 64 o) := by
      rw [Word.lt, BitVec.slt, Word.toInt_eq (x := .ofNat 64 o) (by rwa [toNat_seq ho]),
        BitVec.toInt_eq_toNat_cond, hf]
      simp
      omega
    rw [if_pos hc, toNat_seq ho]
    omega

theorem missingSince_eq (h : Ports w d) (ho : o < 2 ^ 63) :
    (d.missingSince (.ofNat 64 o)).map BitVec.toNat = w.missingSince o := by
  have hl := h.small
  rw [missingSince, ClientUtils.AckWindow.missingSince, h.started]
  cases hs : w.started
  case false => simp
  case true =>
    have hf := h.toNat_floor ho
    simp only [Bool.not_true, Bool.false_eq_true, ↓reduceIte, Bool.true_and, ClientUtils.AckWindow.window]
    rw [h.scan_eq (by omega) (by omega), hf]

theorem walk_eq (h : Ports w d) (hx : x.toNat < 2 ^ 63) :
    (d.walk rounds x).toNat = w.walk rounds x.toNat := by
  have hl := h.small
  induction rounds generalizing x
  case zero => rfl
  case succ rounds hi =>
    rw [walk, ClientUtils.AckWindow.walk, Word.lt_eq hx (by rwa [h.newest]), h.newest]
    by_cases hn : x.toNat < w.newest
    case neg => simp [hn]
    case pos =>
      have hs := h.toNat_next hn
      have hc := h.contains_eq (s := x.toNat + 1) (by omega)
      rw [←hs, BitVec.ofNat_toNat, BitVec.setWidth_eq] at hc
      rw [hc, hs]
      split
      case isTrue  => rw [hi (by omega), hs]
      case isFalse => rfl

theorem contiguousBase_eq (h : Ports w d) (hs : s < 2 ^ 63) :
    (d.contiguousBase (.ofNat 64 s)).map BitVec.toNat = w.contiguousBase s := by
  rw [contiguousBase, ClientUtils.AckWindow.contiguousBase, h.contains_eq hs]
  cases hc : w.contains s
  case false => rfl
  case true =>
    have hn : s ≤ w.newest := by
      by_contra hn
      simp [ClientUtils.AckWindow.contains, Nat.not_le.mp hn] at hc
    rw [h.toNat_back hn]
    simp [h.walk_eq (x := .ofNat 64 s) (by rwa [toNat_seq hs]), toNat_seq hs]

end Ports

-- The port follows the window query by query.
theorem simulates : ClientUtils.AckWindow.object.Simulates object (fun _ => Query.Supported) Ports where
  answer {w d q} h hq := by
    cases q <;> simp only [ClientUtils.AckWindow.object, object, Prod.map, id]
    case observe        => rw [(h.observe_eq hq).left]
    case contains       => rw [h.contains_eq hq]
    case missingSince   => rw [h.missingSince_eq hq]
    case contiguousBase => rw [h.contiguousBase_eq hq]
    case encode =>
      rw [encode, ClientUtils.AckWindow.encode, h.started]
      split
      case isTrue  => simp [h.newest, h.mask]
      case isFalse => rfl
  keeps {w d q} h hq := by
    cases q
    case observe => exact (h.observe_eq hq).right
    all_goals exact h

end Plaza.Flutter.AckWindow
