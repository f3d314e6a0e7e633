import Plaza.Flutter.NetSim
import Plaza.Flutter.Theorems.Digest
import Plaza.Flutter.Theorems.Ack
import Plaza.ClientUtils.Theorems.NetSim
import Plaza.Lib.Ordered

namespace Plaza.Flutter.Rng

open Dart (Word)

variable {x m p : Word} {n : UInt64} {rounds : Nat} {r : ClientUtils.Rng} {seed : UInt64}

-- What the doubling keeps. Because of the bound no product overflows.
theorem toNat_doubled (rounds : Nat) (hm : m.toNat ≤ 2 ^ 62) (h₀ : 0 < m.toNat) (hp : p.toNat < 2 ^ 62) :
    (doubled m rounds p).toNat < 2 ^ 62 ∧ (doubled m rounds p).toNat % m.toNat = p.toNat * 2 ^ rounds % m.toNat := by
  induction rounds generalizing p
  case zero => simpa [doubled] using hp
  case succ rounds hi =>
    have h₂ : (p * 2).toNat = p.toNat * 2 := by
      rw [BitVec.toNat_mul]
      exact Nat.mod_eq_of_lt (by simp; omega)
    have hn : ((p * 2).mod m).toNat = p.toNat * 2 % m.toNat := by
      rw [Word.toNat_mod (by omega) (by omega), h₂]
    have hl := Nat.mod_lt (p.toNat * 2) h₀
    have ⟨h, he⟩ := hi (p := (p * 2).mod m) (by omega)
    refine ⟨h, ?_⟩
    rw [doubled, he, hn, Nat.mod_mul_mod, pow_succ', mul_assoc]

theorem toNat_unsignedMod (hm : m.toNat ≤ 2 ^ 62) (h₀ : 0 < m.toNat) :
    (unsignedMod x m).toNat = x.toNat % m.toNat := by
  unfold unsignedMod
  split
  case isTrue h => exact Word.toNat_mod (Word.nonneg_iff.mp h) (by omega)
  case isFalse h =>
    have hx := Word.nonneg_iff.not.mp h
    have hr : (x &&& 0x7FFFFFFFFFFFFFFF).toNat = x.toNat - 2 ^ 63 := by
      have hl : x.toNat % 2 ^ 63 = x.toNat - 2 ^ 63 := by omega
      rw [BitVec.toNat_and, ←hl]
      exact Nat.and_two_pow_sub_one_eq_mod x.toNat 63
    have ⟨hp, he⟩ := toNat_doubled (p := 1) 63 hm h₀ (by decide)
    have hq : ((x &&& 0x7FFFFFFFFFFFFFFF).mod m).toNat = (x.toNat - 2 ^ 63) % m.toNat := by
      rw [Word.toNat_mod (by omega) (by omega), hr]
    have hl := Nat.mod_lt (x.toNat - 2 ^ 63) h₀
    have hs : (doubled m 63 1 + (x &&& 0x7FFFFFFFFFFFFFFF).mod m).toNat =
        (doubled m 63 1).toNat + (x.toNat - 2 ^ 63) % m.toNat := by
      rw [BitVec.toNat_add, hq]
      exact Nat.mod_eq_of_lt (by omega)
    have hx' : (1 : Word).toNat * 2 ^ 63 + (x.toNat - 2 ^ 63) = x.toNat := by
      have : (1 : Word).toNat = 1 := rfl
      omega
    rw [Word.toNat_mod (by omega) (by omega), hs, Nat.add_mod, he, Nat.mod_mod, ←Nat.add_mod, hx']

-- The same state, as the port holds it.
def port (r : ClientUtils.Rng) : Rng :=
  ⟨r.state.toBitVec⟩

theorem nextU64_eq : (port r).nextU64 = r.nextU64.map port UInt64.toBitVec := by
  rfl

-- What is left of a word has its top bit clear.
theorem unit_eq : (port r).unit = r.unit.map port id := by
  have hs : (r.nextU64.snd >>> 40).toNat = (r.nextU64.snd.toBitVec >>> 40).toNat := rfl
  have hl : (r.nextU64.snd.toBitVec >>> 40).toNat < 2 ^ 63 := by
    have := r.nextU64.snd.toBitVec.isLt
    rw [BitVec.toNat_ushiftRight, Nat.shiftRight_eq_div_pow]
    omega
  simp only [unit, ClientUtils.Rng.unit, nextU64_eq, Prod.map, id, Word.toInt_eq hl, hs,
    Rat.intCast_natCast]

theorem upTo_eq (hn : n.toNat < 2 ^ 62) :
    ∃ d : ClientUtils.Rng × UInt64, r.upTo n = some d ∧ (port r).upTo n.toBitVec = d.map port UInt64.toBitVec := by
  by_cases h₀ : n = 0
  case pos =>
    subst h₀
    exact ⟨(r, 0), rfl, rfl⟩
  case neg =>
    have hz : n.toNat ≠ 0 := mt (UInt64.toNat_inj (b := 0)).mp h₀
    have hl : ¬Word.le n.toBitVec 0 := by
      rw [Word.le, BitVec.sle, Word.toInt_eq (by simp; omega)]
      simp
      omega
    have h₁ : (n + 1).toNat = n.toNat + 1 := by
      rw [UInt64.toNat_add]
      exact Nat.mod_eq_of_lt (by simp; omega)
    have hm : (n.toBitVec + 1).toNat = n.toNat + 1 := h₁
    have hn₁ : n + 1 ≠ 0 := by
      intro h
      simp [h] at h₁
    refine ⟨(r.nextU64.fst, r.nextU64.snd % (n + 1)), by simp [ClientUtils.Rng.upTo, h₀, hn₁], ?_⟩
    simp only [upTo, hl, ↓reduceIte, nextU64_eq, Prod.map, Prod.mk.injEq, true_and, Bool.false_eq_true]
    apply BitVec.eq_of_toNat_eq
    rw [toNat_unsignedMod (by omega) (by omega), hm, ←h₁]
    rfl

-- The port follows the server's generator draw by draw, for the bounds it is meant for.
theorem simulates : ClientUtils.Rng.object.Simulates object (fun _ => Draw.Supported) (port · = ·) where
  answer {r _ d} hr hd := by
    subst hr
    cases d
    case word => rfl
    case unit => simp [ClientUtils.Rng.object, object, unit_eq]
    case upTo n =>
      obtain ⟨d, hd, hp⟩ := upTo_eq (r := r) hd
      simp [ClientUtils.Rng.object, object, hd, hp]
  keeps {r _ d} hr hd := by
    subst hr
    cases d
    case word => rfl
    case unit => simp [ClientUtils.Rng.object, object, unit_eq]
    case upTo n =>
      obtain ⟨d, hd, hp⟩ := upTo_eq (r := r) hd
      simp [ClientUtils.Rng.object, object, hd, hp]

end Plaza.Flutter.Rng

namespace Plaza.Flutter

open Update (held size)

-- Past the bounds which it is meant for, the port draws other numbers as soon as a word has its top bit set.
theorem draws_beyond :
    ¬∀ (seed : UInt64) (ds : List Draw),
      Rng.object.answers (.new seed.toBitVec) ds = ClientUtils.Rng.object.answers (.new seed) ds := by
  intro h
  have h := h 1 [.upTo 0x4000000000000000, .upTo 0x4000000000000000, .upTo 0x4000000000000000]
  revert h
  decide +kernel

-- The arithmetic of the port is that of the unsigned words it stands for.
theorem unsigned_arithmetic :
    (∀ x : UInt64, mix64 x.toBitVec = (ClientUtils.mix64 x).toBitVec) ∧
    (∀ us us', held us = held us' → 0 ≤ size us → size us < 2 ^ 32 →
      (SetDigest.after us').digest = (ClientUtils.SetDigest.after us).digest.toBitVec) ∧
    (∀ (seed : UInt64) (ds : List Draw), (∀ d ∈ ds, d.Supported) →
      Rng.object.answers (.new seed.toBitVec) ds = ClientUtils.Rng.object.answers (.new seed) ds) ∧
    (∀ qs : List Query, (∀ q ∈ qs, q.Supported) →
      AckWindow.object.answers .new qs = ClientUtils.AckWindow.object.answers .new qs) ∧
    (∀ (newest : Nat) (mask : BitVec 64) (qs : List Query), newest < 2 ^ 63 → (∀ q ∈ qs, q.Supported) →
      AckWindow.object.answers (.fromEncoded (.ofNat 64 newest) mask) qs =
        ClientUtils.AckWindow.object.answers (.fromEncoded newest mask) qs) := by
  refine ⟨fun _ => mix64_eq, fun _ _ h h₀ hs => SetDigest.digest_eq h h₀ hs, ?_, ?_, ?_⟩
  case refine_1 =>
    intro seed ds hd
    exact (Rng.simulates.answers_eq (s := .new seed) rfl (.of_forall hd)).symm
  case refine_2 =>
    intro qs hq
    exact (AckWindow.simulates.answers_eq .new (.of_forall hq)).symm
  case refine_3 =>
    intro newest mask qs hn hq
    exact (AckWindow.simulates.answers_eq (.fromEncoded hn) (.of_forall hq)).symm

end Plaza.Flutter

namespace Plaza.Flutter.Sorting

open Dart (Word)

variable {α : Type} {a b y z l r : List (Word × α)} {buffer w items : List (Word × α)}
  {i j k mid hi rounds : Nat} {d e : Word × α}

theorem merge_left (hi' : i < mid) (hd : buffer[i]? = some d)
    (hj : hi ≤ j ∨ ∃ e, buffer[j]? = some e ∧ d.fst.le e.fst) :
    merge buffer mid hi (rounds + 1) i j k items = merge buffer mid hi rounds (i + 1) j (k + 1) (items.set k d) := by
  simp only [merge, hi', hd, ↓reduceIte]
  split
  case isTrue  => simp
  case isFalse hn =>
    obtain ⟨e, he, hle⟩ := hj.resolve_left hn
    simp [he, hle]

theorem merge_right (he : buffer[j]? = some e) (hi' : mid ≤ i ∨ j < hi ∧ ∃ d, buffer[i]? = some d ∧ ¬d.fst.le e.fst) :
    merge buffer mid hi (rounds + 1) i j k items = merge buffer mid hi rounds i (j + 1) (k + 1) (items.set k e) := by
  simp only [merge]
  split
  case isFalse => simp [he]
  case isTrue h =>
    obtain ⟨hj, d, hd, hle⟩ := hi'.resolve_left (by omega)
    simp [he, hd, hle, Nat.not_le.mpr hj]

theorem drop_cons (h : buffer.drop i = d :: l ++ y) : buffer[i]? = some d ∧ buffer.drop (i + 1) = l ++ y := by
  constructor
  case left  => rw [← Nat.add_zero i, ← List.getElem?_drop, h]; rfl
  case right => rw [← List.drop_drop, h]; rfl

-- The runs which are l start at `i` and `j` of the buffer. What the loop writes is the merge of them, in place of
-- as many items.
theorem merge_eq (hl : buffer.drop i = l ++ y) (hr : buffer.drop j = r ++ z) (hm : i + l.length = mid)
    (hh : j + r.length = hi) (hw : w.length = l.length + r.length) :
    merge buffer mid hi w.length i j a.length (a ++ w ++ b) =
      some (a ++ l.merge r (·.fst.le ·.fst) ++ b) := by
  induction w generalizing a l r i j
  case nil =>
    obtain ⟨rfl, rfl⟩ : l = [] ∧ r = [] := by
      simp only [← List.length_eq_zero_iff]
      simp at hw
      omega
    simp [merge]
  case cons c w ih =>
    have hs (d) : (a ++ c :: w ++ b).set a.length d = a ++ [d] ++ w ++ b := by simp
    have hk (d) : (a ++ [d]).length = a.length + 1 := by simp
    rw [List.length_cons]
    cases l
    case nil =>
      cases r
      case nil => simp at hw
      case cons e r =>
        have ⟨he, hr⟩ := drop_cons hr
        rw [merge_right he (.inl (by simp at hm; omega)), hs, ← hk e,
          ih hl hr hm (by simp at hh; omega) (by simpa using hw)]
        simp
    case cons d l =>
      have ⟨hd, hl'⟩ := drop_cons hl
      have hi' : i < mid := by simp at hm; omega
      cases r
      case nil =>
        rw [merge_left hi' hd (.inl (by simp at hh; omega)), hs, ← hk d,
          ih hl' hr (by simp at hm; omega) hh (by simpa using hw)]
        simp
      case cons e r =>
        have ⟨he, hr'⟩ := drop_cons hr
        rw [List.cons_merge_cons]
        split
        case isTrue hle =>
          rw [merge_left hi' hd (.inr ⟨e, he, hle⟩), hs, ← hk d,
            ih hl' hr (by simp at hm; omega) hh (by simp at hw ⊢; omega)]
          simp
        case isFalse hle =>
          rw [merge_right he (.inr ⟨by simp at hh; omega, d, hd, hle⟩), hs, ← hk e,
            ih hl hr' hm (by simp at hh; omega) (by simp at hw ⊢; omega)]
          simp

theorem setRange_eq : setRange buffer a.length (a.length + w.length) (a ++ w ++ b) =
    buffer.take a.length ++ w ++ buffer.drop (a.length + w.length) := by
  simp [setRange]

-- Whatever is around the run stays as it is. The buffer is written to first.
theorem sort_eq (hb : buffer.length = (a ++ w ++ b).length) :
    ∃ buffer' : List (Word × α), buffer'.length = buffer.length ∧
      sort a.length (a.length + w.length) ⟨a ++ w ++ b, buffer⟩ =
        some ⟨a ++ w.mergeSort (·.fst.le ·.fst) ++ b, buffer'⟩ := by
  induction hn : w.length using Nat.strong_induction_on generalizing a w b buffer
  case h n ih =>
    subst hn
    rw [sort, Nat.add_sub_cancel_left]
    split
    case isTrue hs =>
      refine ⟨buffer, rfl, ?_⟩
      match w with
      | []          => simp
      | [d]         => simp
      | _ :: _ :: _ => exact absurd hs (by simp)
    case isFalse hs =>
      obtain ⟨l, r, rfl, hl⟩ : ∃ l r, w = l ++ r ∧ l.length = w.length / 2 :=
        ⟨w.take (w.length / 2), w.drop (w.length / 2), (List.take_append_drop ..).symm, by simp; omega⟩
      have hw : (l ++ r).length = l.length + r.length := List.length_append
      have hm : (l.mergeSort (·.fst.le ·.fst)).merge (r.mergeSort (·.fst.le ·.fst)) (·.fst.le ·.fst) =
          (l ++ r).mergeSort (·.fst.le ·.fst) := @List.merge_mergeSort _ _ _ (fun e : Word × α => e.fst.toInt) l r
      have hls : (l.mergeSort (·.fst.le ·.fst)).length = l.length := List.length_mergeSort l
      have hrs : (r.mergeSort (·.fst.le ·.fst)).length = r.length := List.length_mergeSort r
      obtain ⟨buffer₁, hb₁, h₁⟩ := ih l.length (by omega) (a := a) (b := r ++ b) (hb.trans <| by simp) rfl
      obtain ⟨buffer₂, hb₂, h₂⟩ := ih r.length (by omega) (a := a ++ l.mergeSort (·.fst.le ·.fst)) (b := b)
        (hb₁.trans <| hb.trans <| by simp) rfl
      generalize l.mergeSort (·.fst.le ·.fst) = s at *
      generalize r.mergeSort (·.fst.le ·.fst) = t at *
      have hp : (buffer₂.take a.length).length = a.length := by simp [hb₂, hb₁, hb]
      have hq : (buffer₂.drop (a.length + (s ++ t).length)).length = b.length := by simp [hb₂, hb₁, hb]; omega
      have hset : setRange buffer₂ a.length (a.length + (s ++ t).length) (a ++ (s ++ t) ++ b) =
          buffer₂.take a.length ++ (s ++ t) ++ buffer₂.drop (a.length + (s ++ t).length) := setRange_eq
      generalize buffer₂.take a.length = p at *
      generalize buffer₂.drop (a.length + (s ++ t).length) = q at *
      have hmerge : merge (p ++ (s ++ t) ++ q) (a.length + s.length) (a.length + s.length + t.length) (s ++ t).length
            a.length (a.length + s.length) a.length (a ++ (s ++ t) ++ b) =
          some (a ++ s.merge t (·.fst.le ·.fst) ++ b) :=
        merge_eq (y := t ++ q) (z := q) (by simp [← hp]) (by simp [← hp]) rfl rfl (by simp)
      rw [← hm, ← hl]
      simp only [List.length_append, hls, hrs, ← List.append_assoc, ← Nat.add_assoc] at h₁ h₂ hset hmerge hb₂ ⊢
      refine ⟨p ++ s ++ t ++ q, by simp [hb, hp, hq, hls, hrs], ?_⟩
      simp only [Option.bind_eq_bind, Option.bind_some, h₁, h₂, hset, hmerge]

end Plaza.Flutter.Sorting

namespace Plaza.Flutter

open Dart (Word)

variable {α : Type} {items : List (Word × α)}

theorem mergeSortByDeliveryTime_eq : mergeSortByDeliveryTime items = some (items.mergeSort (·.fst.le ·.fst)) := by
  unfold mergeSortByDeliveryTime
  split
  case isTrue h =>
    match items with
    | []          => simp
    | [d]         => simp
    | _ :: _ :: _ => exact absurd h (by simp)
  case isFalse =>
    obtain ⟨buffer, -, h⟩ := Sorting.sort_eq (a := []) (w := items) (b := [])
      (show items.length = ([] ++ items ++ []).length by simp)
    simp only [List.nil_append, List.append_nil, List.length_nil, Nat.zero_add] at h
    rw [h, Option.map_some]

end Plaza.Flutter

namespace Plaza.Flutter.LatencyLink

open Dart (Word)
open Rust
open ClientUtils.LatencyLink (Op)

variable {α : Type} {r : ClientUtils.Rng} {l : ClientUtils.LatencyLink α} {loss : F32} {now latency : Nat}
  {jitter : UInt64} {packet : α}

-- No share of one, in the steps of a draw, is rounded up to the loss from below.
def Sharp (loss : F32) : Prop :=
  ∀ k : Nat, (k / 16777216 * 100 : ℚ) < loss.val → (.of (k / 16777216) * 100 : F32) < loss

-- The times and the bounds of the draws which the port is meant for.
def Supported : Op α → Prop
  | .send now _ latency jitter loss => now + latency + jitter.toNat < 2 ^ 63 ∧ jitter.toNat < 2 ^ 62 ∧ Sharp loss
  | .drain now                      => now < 2 ^ 63

theorem val_zero : (0 : F32).val = 0 := by
  decide +kernel

theorem sharp_of_nonpos (h : loss ≤ 0) : Sharp loss := by
  intro k hk
  have h : loss.val ≤ 0 := val_zero ▸ h
  exact absurd (hk.trans_le h) (not_lt.mpr (by positivity))

-- It is enough that the last share below the loss is not.
theorem sharp_of_last {k : Nat} (hk : (.of (k / 16777216) * 100 : F32) < loss)
    (hl : loss.val ≤ (k + 1) / 16777216 * 100) : Sharp loss := by
  intro n hn
  have hn : (n : ℚ) < k + 1 := by linarith
  have hn : n ≤ k := Nat.lt_succ_iff.mp (by exact_mod_cast hn)
  refine lt_of_le_of_lt ?_ hk
  refine FloatGrid.round_mono (mul_le_mul_of_nonneg_right (FloatGrid.round_mono ?_) ?_)
  · have : (n : ℚ) ≤ k := by exact_mod_cast hn
    linarith
  · decide +kernel

-- Otherwise both see the same share, and a loss is reached from above by what is rounded down.
theorem Sharp.lt_iff {k : Nat} (h : Sharp loss) (hk : k < 2 ^ 24) :
    (.of (k / 16777216) * 100 : F32) < loss ↔ (k / 16777216 * 100 : ℚ) < loss.val := by
  constructor
  case mpr => exact h k
  case mp =>
    intro hl
    by_contra hn
    have hu : f32.round (k / 16777216) = k / 16777216 := by
      have := FloatGrid.holds_of_abs_lt (g := f32) (n := k) (e := -24) (by simpa [f32] using hk) (by decide)
      rw [FloatGrid.Holds, zpow_neg, ← div_eq_mul_inv, Int.cast_natCast] at this
      norm_num at this
      exact this
    have hl : f32.round (f32.round (k / 16777216) * (100 : F32).val) < loss.val := hl
    rw [hu, show (100 : F32).val = 100 by decide +kernel] at hl
    exact absurd (loss.holds.le_round (not_lt.mp hn)) (not_le.mpr hl)

theorem loses_eq (h : Sharp loss) :
    loses loss.val (Rng.port r) = (ClientUtils.LatencyLink.loses loss r).map Rng.port id := by
  have h0 : 0 < loss ↔ 0 < loss.val := by rw [FloatGrid.Number.lt_def, val_zero]
  simp only [loses, ClientUtils.LatencyLink.loses, h0, Rng.unit_eq]
  split
  case isFalse => rfl
  case isTrue =>
    have hk : (r.nextU64.snd >>> 40).toNat < 2 ^ 24 := by
      have := r.nextU64.snd.toNat_lt
      have hs : (r.nextU64.snd >>> 40).toNat = r.nextU64.snd.toNat / 2 ^ 40 := by
        rw [UInt64.toNat_shiftRight, Nat.shiftRight_eq_div_pow]
        rfl
      omega
    simp only [Prod.map, id, ClientUtils.Rng.unit, Prod.mk.injEq, true_and]
    exact decide_eq_decide.mpr (h.lt_iff hk).symm

def stamp (e : Nat × α) : Word × α :=
  (.ofNat 64 e.fst, e.snd)

-- The same wire, as the port holds it.
def port (l : ClientUtils.LatencyLink α) : LatencyLink α where
  queue         := l.queue.map stamp
  ordering      := if l.ordering = .ordered then .ordered else .unordered
  lastDeliverMs := .ofNat 64 l.lastDeliverMs

-- The times which are on it have a word of their own.
structure Fits (l : ClientUtils.LatencyLink α) : Prop where
  queue : ∀ e ∈ l.queue, e.fst < 2 ^ 63
  last  : l.lastDeliverMs < 2 ^ 63

theorem toNat_ofNat {n : Nat} (h : n < 2 ^ 63) : (BitVec.ofNat 64 n).toNat = n := by
  rw [BitVec.toNat_ofNat, Nat.mod_eq_of_lt (by omega)]

theorem le_ofNat {m n : Nat} (hm : m < 2 ^ 63) (hn : n < 2 ^ 63) :
    Word.le (.ofNat 64 m) (.ofNat 64 n) = decide (m ≤ n) := by
  rw [Word.le_eq (by rwa [toNat_ofNat hm]) (by rwa [toNat_ofNat hn]), toNat_ofNat hm, toNat_ofNat hn]

theorem lt_ofNat {m n : Nat} (hm : m < 2 ^ 63) (hn : n < 2 ^ 63) :
    Word.lt (.ofNat 64 m) (.ofNat 64 n) = decide (m < n) := by
  rw [Word.lt_eq (by rwa [toNat_ofNat hm]) (by rwa [toNat_ofNat hn]), toNat_ofNat hm, toNat_ofNat hn]

theorem send_eq (hf : Fits l) (hs : Supported (.send now packet latency jitter loss)) :
    ∃ l' r', l.send now packet latency jitter loss r = some (l', r') ∧ Fits l' ∧
      (port l).send (.ofNat 64 now) packet (.ofNat 64 latency) jitter.toBitVec loss.val (Rng.port r) =
        (port l', Rng.port r') := by
  obtain ⟨ht, hj, hs⟩ := hs
  obtain ⟨⟨r', x⟩, hx, hp⟩ := Rng.upTo_eq (r := (ClientUtils.LatencyLink.loses loss r).fst) hj
  have hle := ClientUtils.LatencyLink.upTo_le hx
  simp only [Prod.map] at hp
  simp only [send, loses_eq hs, ClientUtils.LatencyLink.send, Prod.map, id, hx, hp, Option.bind_eq_bind, Option.bind_some]
  split
  case isTrue  => exact ⟨l, _, rfl, hf, rfl⟩
  case isFalse =>
    have hat : BitVec.ofNat 64 now + .ofNat 64 latency + x.toBitVec = .ofNat 64 (now + latency + x.toNat) := by
      rw [BitVec.ofNat_add, BitVec.ofNat_add]
      simp
    have hlt : now + latency + x.toNat < 2 ^ 63 := by omega
    have hl := hf.last
    have hclamp : (if (port l).ordering = .ordered ∧ Word.lt (.ofNat 64 (now + latency + x.toNat)) (port l).lastDeliverMs
        then (port l).lastDeliverMs else .ofNat 64 (now + latency + x.toNat)) =
          .ofNat 64 (if l.ordering = .ordered then max (now + latency + x.toNat) l.lastDeliverMs
            else now + latency + x.toNat) := by
      simp only [port, lt_ofNat hlt hl, decide_eq_true_eq]
      cases l.ordering
      case unordered => simp
      case ordered =>
        simp only [↓reduceIte, true_and]
        split
        case isTrue h  => rw [max_eq_right h.le]
        case isFalse h => rw [max_eq_left (not_lt.mp h)]
    have hle : (if l.ordering = .ordered then max (now + latency + x.toNat) l.lastDeliverMs
        else now + latency + x.toNat) < 2 ^ 63 := by
      split <;> omega
    refine ⟨_, _, rfl, ⟨?queue, hle⟩, ?port⟩
    case port =>
      rw [hat, hclamp]
      simp only [port, stamp, List.map_append, List.map_cons, List.map_nil]
    case queue =>
      intro e he
      cases List.mem_append.mp he
      case inl he => exact hf.queue e he
      case inr he => exact List.mem_singleton.mp he ▸ hle

theorem drainDue_eq (hf : Fits l) (hn : now < 2 ^ 63) :
    (port l).drainDue (.ofNat 64 now) = some ((l.drainDue now).map port id) := by
  have hp : ∀ e ∈ l.queue, (stamp e).fst.le (.ofNat 64 now) = decide (e.fst ≤ now) :=
    fun e he => le_ofNat (hf.queue e he) hn
  have hdue : ((port l).queue.filter (·.fst.le (.ofNat 64 now))) = (l.queue.filter (·.fst ≤ now)).map stamp := by
    rw [port, List.filter_map]
    exact congrArg _ <| List.filter_congr hp
  have hkept : ((port l).queue.filter (¬·.fst.le (.ofNat 64 now))) = (l.queue.filter (¬·.fst ≤ now)).map stamp := by
    rw [port, List.filter_map]
    refine congrArg _ <| List.filter_congr fun e he => ?_
    simp only [Function.comp_apply, hp e he, decide_eq_true_eq]
  have hsort : ((l.queue.filter (·.fst ≤ now)).mergeSort (·.fst ≤ ·.fst)).map stamp =
      ((l.queue.filter (·.fst ≤ now)).map stamp).mergeSort fun a b => a.fst.le b.fst := by
    refine List.map_mergeSort fun a ha b hb => ?_
    exact (le_ofNat (hf.queue a (List.mem_of_mem_filter ha)) (hf.queue b (List.mem_of_mem_filter hb))).symm
  have hsnd (es : List (Nat × α)) : (es.map stamp).map Prod.snd = es.map Prod.snd := by
    rw [List.map_map]
    rfl
  simp only [drainDue, hdue, hkept, mergeSortByDeliveryTime_eq, Option.bind_eq_bind, Option.bind_some]
  rw [← hsort, hsnd]
  rfl

theorem Fits.drainDue (hf : Fits l) : Fits (l.drainDue now).fst where
  queue e he := hf.queue e (List.mem_of_mem_filter he)
  last       := hf.last

-- The port follows the wire of the server call by call.
theorem simulates : ClientUtils.LatencyLink.object.Simulates object (fun _ => Supported (α := α))
    fun s t => Fits s.fst ∧ t = (port s.fst, Rng.port s.snd) where
  answer {s _ op} hr hs := by
    obtain ⟨hf, rfl⟩ := hr
    cases op
    case send  =>
      obtain ⟨l', r', h, -, hp⟩ := send_eq (r := s.snd) hf hs
      simp only [ClientUtils.LatencyLink.object, object, h]
    case drain => simp only [ClientUtils.LatencyLink.object, object, drainDue_eq hf hs, Prod.map, id]
  keeps {s _ op} hr hs := by
    obtain ⟨hf, rfl⟩ := hr
    cases op
    case send  =>
      obtain ⟨l', r', h, hf', hp⟩ := send_eq (r := s.snd) hf hs
      simp only [ClientUtils.LatencyLink.object, object, h, hp]
      exact ⟨hf', trivial⟩
    case drain =>
      simp only [ClientUtils.LatencyLink.object, object, drainDue_eq hf hs, Prod.map]
      exact ⟨hf.drainDue, trivial⟩

-- Within the range of times and draws which it is meant for, a scenario runs on the port as it does on the server.
theorem same_deliveries (ordering : ClientUtils.LatencyLink.Ordering) (seed : UInt64) (ops : List (Op α)) (h : ∀ op ∈ ops, Supported op) :
    ClientUtils.LatencyLink.object.answers (ClientUtils.LatencyLink.new.withOrdering ordering, .new seed) ops =
      object.answers (new (if ordering = .ordered then .ordered else .unordered), .new seed.toBitVec) ops := by
  refine simulates.answers_eq ⟨⟨?queue, ?last⟩, rfl⟩ (.of_forall h)
  case queue => simp [ClientUtils.LatencyLink.withOrdering, ClientUtils.LatencyLink.new]
  case last  => simp [ClientUtils.LatencyLink.withOrdering, ClientUtils.LatencyLink.new]

theorem same_deliveries_half : ∃ ops : List (Op Nat), ops.length = 3 ∧
    ClientUtils.LatencyLink.object.answers (ClientUtils.LatencyLink.new.withOrdering .unordered, .new 7) ops =
      object.answers (new .unordered, .new 7) ops := by
  refine ⟨[.send 0 1 20 30 50, .send 5 2 20 30 50, .drain 40], rfl, same_deliveries .unordered 7 _ fun op h => ?_⟩
  have hs : Sharp 50 := sharp_of_last (k := 8388607) (by decide +kernel) (by decide +kernel)
  rcases List.mem_cons.mp h with rfl | h
  case inl => exact ⟨by decide, by decide, hs⟩
  rcases List.mem_cons.mp h with rfl | h
  case inl => exact ⟨by decide, by decide, hs⟩
  rw [List.mem_singleton.mp h]
  exact (by decide : 40 < 2 ^ 63)

end Plaza.Flutter.LatencyLink
