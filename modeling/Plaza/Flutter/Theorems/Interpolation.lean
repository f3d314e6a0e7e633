import Mathlib.Data.List.Induction
import Mathlib.Tactic.Linarith
import Mathlib.Tactic.Positivity
import Plaza.Lib.Ordered
import Plaza.Flutter.Interpolation

namespace Plaza.Flutter.SnapshotBuffer

open ClientUtils (ServerSnapshot)

variable {σ : Type*} {l l' : List (ServerSnapshot σ)} {a b s : ServerSnapshot σ} {t i n : Nat}
  {lerp : σ → σ → ℚ → σ}

-- The order of the buffer, in which no two snapshots have the same timestamp.
def Earlier (a b : ServerSnapshot σ) : Prop :=
  a.serverTimestamp < b.serverTimestamp

instance : DecidableRel (Earlier (σ := σ)) :=
  fun _ _ => Nat.decLt ..

theorem place_append (hi : i ≤ l.length) : place (l ++ l') t i = place l t i := by
  induction i
  case zero => rfl
  case succ i ih => rw [place, place, ih (by omega), List.getElem?_append_left (by omega)]

-- The search from the end finds the place before the first later snapshot.
theorem place_eq (hl : l.Pairwise Earlier) : place l t l.length = l.findIdx (t < ·.serverTimestamp) := by
  induction l using List.reverseRecOn
  case nil => rfl
  case append_singleton l a hi =>
    have ⟨hl, _, ha⟩ := List.pairwise_append.mp hl
    rw [List.length_append, List.length_singleton, place, place_append le_rfl, hi hl, List.findIdx_append,
      List.findIdx_singleton, List.getElem?_concat_length]
    by_cases ht : t < a.serverTimestamp
    case pos =>
      have hle : l.findIdx (t < ·.serverTimestamp) ≤ l.length := List.findIdx_le_length
      simp only [Option.any_some, ht, decide_true, ↓reduceIte, Nat.zero_add]
      split <;> omega
    case neg =>
      have hn : l.findIdx (t < ·.serverTimestamp) = l.length := by
        refine List.findIdx_eq_length_of_false fun b hb => ?_
        have hb : b.serverTimestamp < a.serverTimestamp := ha b hb a (List.mem_singleton_self a)
        simp
        omega
      simp [ht, hn, Nat.add_comm]

-- The two searches agree on a timestamp which is not there yet.
theorem partitionPoint_eq (ht : ∀ s ∈ l, s.serverTimestamp ≠ t) :
    ClientUtils.SnapshotBuffer.partitionPoint (·.serverTimestamp < t) l = l.findIdx (t < ·.serverTimestamp) := by
  apply le_antisymm <;> refine List.findIdx_le_findIdx fun s hs => ?_
  case a =>
    simp
    omega
  case a =>
    have := ht s hs
    simp
    omega

theorem insertBefore_of_le {x : σ} (h : ∀ s ∈ l, s.serverTimestamp ≤ t) :
    l.insertBefore Earlier ⟨t, x⟩ = l ++ [⟨t, x⟩] := by
  have hn : l.findIdx (decide <| Earlier (⟨t, x⟩ : ServerSnapshot σ) ·) = l.length := by
    exact List.findIdx_eq_length_of_false fun s hs => decide_eq_false (Nat.not_lt.mpr (h s hs))
  rw [List.insertBefore, hn, List.insertIdx_length_self]

theorem le_of_getLast? (hl : l.Pairwise Earlier) (h : l.getLast?.all (·.serverTimestamp ≤ t)) :
    ∀ s ∈ l, s.serverTimestamp ≤ t := by
  intro s hs
  cases hn : l.getLast?
  case none =>
    rw [List.getLast?_eq_none_iff.mp hn] at hs
    contradiction
  case some a =>
    have ht : a.serverTimestamp ≤ t := by simpa [hn] using h
    cases hl.rel_of_getLast? hn hs
    case inl he => exact he ▸ ht
    case inr hs => exact (Nat.le_of_lt hs).trans ht

-- Both buffers insert a new timestamp where the order puts it.
theorem addSnapshot_eq {b : ClientUtils.SnapshotBuffer σ} {x : σ} (hl : b.snapshots.Pairwise Earlier)
    (ht : ∀ s ∈ b.snapshots, s.serverTimestamp ≠ t) :
    (b.addSnapshot t x).snapshots =
      (b.snapshots.insertBefore Earlier ⟨t, x⟩).drop (b.snapshots.length + 1 - b.maxBufferSize) := by
  have hn : (b.snapshots.insertBefore Earlier ⟨t, x⟩).length = b.snapshots.length + 1 :=
    List.insertBefore_perm.length_eq
  rw [←hn, ClientUtils.SnapshotBuffer.addSnapshot]
  split
  case isTrue h  => rw [insertBefore_of_le (le_of_getLast? hl h)]
  case isFalse h => rw [partitionPoint_eq ht]; rfl

-- A snapshot in front of its place would be the one it replaces.
theorem add_eq {b : SnapshotBuffer σ} {x : σ} (hl : b.snapshots.Pairwise Earlier)
    (ht : ∀ s ∈ b.snapshots, s.serverTimestamp ≠ t) :
    (b.add t x).snapshots =
      (b.snapshots.insertBefore Earlier ⟨t, x⟩).drop (b.snapshots.length + 1 - b.maxSize) := by
  have hn : (b.snapshots.insertBefore Earlier ⟨t, x⟩).length = b.snapshots.length + 1 :=
    List.insertBefore_perm.length_eq
  have hd : ∀ i : Nat, b.snapshots[i]?.any (·.serverTimestamp = t) = false := by
    intro i
    cases hs : b.snapshots[i]?
    case none   => rfl
    case some s => simpa using ht s (List.mem_of_getElem? hs)
  rw [←hn, add, place_eq hl, hd, Bool.and_false]
  rfl

theorem sorted_insert {x : σ} (hl : l.Pairwise Earlier) (ht : ∀ s ∈ l, s.serverTimestamp ≠ t) :
    ((l.insertBefore Earlier ⟨t, x⟩).drop n).Pairwise Earlier := by
  have hs : (l.insertBefore Earlier ⟨t, x⟩).Pairwise Earlier := by
    refine hl.insertBefore (fun h₁ h₂ => Nat.lt_trans h₁ h₂) fun s hs => ?_
    exact (Nat.lt_or_gt_of_ne (ht s hs)).symm
  exact hs.sublist (List.drop_sublist ..)

-- The pair which brackets a time strictly inside the buffer is the same, whichever search finds it.
theorem bracket_eq (hf : l.head?.any (·.serverTimestamp < t)) (hn : l.getLast?.any (t ≤ ·.serverTimestamp)) :
    ∃ i a b, ClientUtils.SnapshotBuffer.partitionPoint (·.serverTimestamp < t) l = i + 1 ∧ l[i]? = some a ∧
      l[i + 1]? = some b ∧ a.serverTimestamp < t ∧ t ≤ b.serverTimestamp ∧
      ∀ lerp, bracket lerp t l = some (blend lerp a b t) := by
  induction l
  case nil => simp at hf
  case cons a l hi =>
    have ha : a.serverTimestamp < t := by simpa using hf
    cases l
    case nil =>
      simp at hn
      omega
    case cons b l =>
      rw [List.getLast?_cons_cons] at hn
      simp only [ClientUtils.SnapshotBuffer.partitionPoint, List.findIdx_cons (b := a), ha, decide_true, Bool.not_true,
        cond_false] at hi ⊢
      by_cases ht : t ≤ b.serverTimestamp
      case pos =>
        refine ⟨0, a, b, ?_, rfl, rfl, ha, ht, ?_⟩
        case refine_1 => simp [List.findIdx_cons, Nat.not_lt.mpr ht]
        case refine_2 => simp [bracket, ha.le, ht]
      case neg =>
        obtain ⟨i, c, d, hx, hc, hd, hct, htd, he⟩ := hi (by simpa using ht) hn
        refine ⟨i + 1, c, d, by rw [hx], hc, hd, hct, htd, fun lerp => ?_⟩
        rw [bracket, ←he]
        simp [ht]

-- Inside the pair the factor lies between 0 and 1 already.
theorem blend_eq (ha : a.serverTimestamp < t) (hb : t ≤ b.serverTimestamp) :
    ClientUtils.SnapshotBuffer.blend (fun a b t _ _ => lerp a b t) a b t = blend lerp a b t := by
  have hs : 1 ≤ b.serverTimestamp - a.serverTimestamp := by omega
  have hc : (1 : ℚ) ≤ (b.serverTimestamp - a.serverTimestamp : Nat) := by exact_mod_cast hs
  have hle : ((t - a.serverTimestamp : Nat) : ℚ) ≤ (b.serverTimestamp - a.serverTimestamp : Nat) := by
    exact_mod_cast Nat.sub_le_sub_right hb _
  have hd : ((t - a.serverTimestamp : Nat) : ℚ) / (b.serverTimestamp - a.serverTimestamp : Nat) ≤ 1 :=
    div_le_one_of_le₀ hle (by linarith)
  have h₀ : 0 ≤ ((t - a.serverTimestamp : Nat) : ℚ) / (b.serverTimestamp - a.serverTimestamp : Nat) := by
    positivity
  have hn : ¬|((b.serverTimestamp - a.serverTimestamp : Nat) : ℚ)| < 1 / 1000000000 := by
    rw [abs_of_nonneg (by linarith)]
    linarith
  rw [ClientUtils.SnapshotBuffer.blend, blend, if_neg hn, if_neg (by omega)]
  simp only [min_eq_left hd, max_eq_right h₀]

-- The two buffers hold the same snapshots, in order.
structure Ports (b : ClientUtils.SnapshotBuffer σ) (d : SnapshotBuffer σ) : Prop where
  snapshots : d.snapshots = b.snapshots
  maxSize   : d.maxSize = b.maxBufferSize
  sorted    : b.snapshots.Pairwise Earlier

theorem Ports.at_eq {b : ClientUtils.SnapshotBuffer σ} {d : SnapshotBuffer σ} (h : Ports b d) :
    d.at lerp t = b.getInterpolatedState (fun a b t _ _ => lerp a b t) t := by
  rw [SnapshotBuffer.at, ClientUtils.SnapshotBuffer.getInterpolatedState, h.snapshots]
  cases hf : b.snapshots.head?
  case none => rfl
  case some first =>
    cases hl : b.snapshots.getLast?
    case none => rfl
    case some last =>
      dsimp only
      split
      case isTrue => rfl
      case isFalse =>
        split
        case isTrue => rfl
        case isFalse h₁ =>
          split
          case isTrue => rfl
          case isFalse h₂ =>
            obtain ⟨i, a, c, hx, ha, hc, hat, htc, he⟩ := bracket_eq (l := b.snapshots) (t := t)
              (by simpa [hf] using h₁) (by simp [hl]; omega)
            simp only [hx, Nat.succ_ne_zero, ↓reduceIte, Nat.add_sub_cancel, ha, hc, he lerp, Option.getD_some,
              blend_eq hat htc]

-- The port follows the buffer call by call, as long as every timestamp is a new one.
theorem simulates :
    (ClientUtils.SnapshotBuffer.object lerp).Simulates (object lerp) ClientUtils.SnapshotBuffer.Distinct Ports where
  answer {b d c} h hc := by
    cases c
    case add t x =>
      have hd := add_eq (b := d) (x := x) (h.snapshots ▸ h.sorted) (by rw [h.snapshots]; exact hc)
      simp only [ClientUtils.SnapshotBuffer.object, object]
      rw [hd, addSnapshot_eq h.sorted hc, h.snapshots, h.maxSize]
    case «at» t => simp only [ClientUtils.SnapshotBuffer.object, object, h.snapshots, h.at_eq]
  keeps {b d c} h hc := by
    cases c
    case add t x =>
      have hd := add_eq (b := d) (x := x) (h.snapshots ▸ h.sorted) (by rw [h.snapshots]; exact hc)
      have hb := addSnapshot_eq (x := x) h.sorted hc
      constructor
      case snapshots => exact hd.trans (by rw [h.snapshots, h.maxSize]; exact hb.symm)
      case maxSize   => exact h.maxSize
      case sorted =>
        simp only [ClientUtils.SnapshotBuffer.object]
        rw [hb]
        exact sorted_insert h.sorted hc
    case «at» => exact h

-- A timestamp which the buffer holds already replaces its snapshot in the port, and is kept twice by the original.
theorem duplicate_apart :
    ¬∀ (b : ClientUtils.SnapshotBuffer Bool) (d : SnapshotBuffer Bool),
      ClientUtils.SnapshotBuffer.new 2 = some b → new 2 = some d →
      ∀ cs, (object fun a _ _ => a).answers d cs = (ClientUtils.SnapshotBuffer.object fun a _ _ => a).answers b cs := by
  intro h
  have h := h ⟨[], 2⟩ ⟨[], 2⟩ rfl rfl [.add 5 false, .add 5 true]
  revert h
  decide +kernel

-- Whatever the capacity is, no sequence of samples with distinct timestamps tells the two buffers apart.
theorem same_samples (maxSize : Nat) (lerp : σ → σ → ℚ → σ) :
    (ClientUtils.SnapshotBuffer.new (σ := σ) maxSize = none ∧ new (σ := σ) maxSize = none) ∨
    ∃ b d, ClientUtils.SnapshotBuffer.new maxSize = some b ∧ new maxSize = some d ∧
      ∀ cs, (ClientUtils.SnapshotBuffer.object lerp).Meets ClientUtils.SnapshotBuffer.Distinct b cs →
        (object lerp).answers d cs = (ClientUtils.SnapshotBuffer.object lerp).answers b cs := by
  by_cases h : maxSize < 2
  case pos => exact .inl ⟨if_pos h, if_pos h⟩
  case neg =>
    have hr : Ports (σ := σ) ⟨[], maxSize⟩ ⟨[], maxSize⟩ := ⟨rfl, rfl, .nil⟩
    exact .inr ⟨_, _, if_neg h, if_neg h, fun _ hm => (simulates.answers_eq hr hm).symm⟩

end Plaza.Flutter.SnapshotBuffer
