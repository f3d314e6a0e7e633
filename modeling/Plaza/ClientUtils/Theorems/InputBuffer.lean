import Mathlib.Data.List.Induction
import Mathlib.Data.List.Nodup
import Plaza.ClientUtils.Prediction
import Plaza.Lib.Ordered

namespace Plaza.ClientUtils.ClientInputBuffer

variable {ι σ : Type*} {b : ClientInputBuffer ι σ} {ack last seq : Nat} {first : Bool}

theorem getUnacknowledgedInputs_eq_dropWhile :
    b.getUnacknowledgedInputs ack = b.inputs.dropWhile (·.sequenceNumber ≤ ack) := by
  unfold getUnacknowledgedInputs
  induction b.inputs
  case nil => rfl
  case cons a l ih =>
    rw [List.findIdx?_cons, List.dropWhile_cons]
    by_cases h : ack < a.sequenceNumber
    case pos => simp [h]
    case neg =>
      rw [if_neg (decide_eq_true_iff.not.mpr h), if_pos (decide_eq_true (Nat.not_lt.mp h)), ← ih]
      cases l.findIdx? (ack < ·.sequenceNumber) <;> rfl

-- What the client does with its inputs.
inductive Op (ι σ : Type*)
  | recordInput            (sequenceNumber : Nat) (op : ι) (stateBeforeOpPredicted : σ)
  | acknowledgeInputsUpTo  (ack : Nat)
  | clear
  | unacknowledgedWithPass (lastAcknowledged : Nat)

namespace Op

def recorded : Op ι σ → Option Nat
  | recordInput seq _ _ => some seq
  | _                   => none

-- The acknowledgement which a pass starts from.
def passFrom : Op ι σ → Option Nat
  | unacknowledgedWithPass last => some last
  | _                           => none

end Op

def apply (b : ClientInputBuffer ι σ) : Op ι σ → ClientInputBuffer ι σ
  | .recordInput seq op state    => b.recordInput seq op state
  | .acknowledgeInputsUpTo ack   => b.acknowledgeInputsUpTo ack
  | .clear                       => b.clear
  | .unacknowledgedWithPass last => (b.unacknowledgedWithPass last).fst

-- The inputs handed out with the first pass's mark, by their numbers.
def handed (b : ClientInputBuffer ι σ) : Op ι σ → List (Nat × Bool)
  | .unacknowledgedWithPass last => (b.unacknowledgedWithPass last).snd.map fun p => (p.fst.sequenceNumber, p.snd)
  | _                            => []

-- The buffer after these calls, and all that they handed out.
def run (b : ClientInputBuffer ι σ) (ops : List (Op ι σ)) : ClientInputBuffer ι σ × List (Nat × Bool) :=
  ops.foldl (fun s op => (s.fst.apply op, s.snd ++ s.fst.handed op)) (b, [])

variable {ops before after : List (Op ι σ)} {op : Op ι σ} {passes : List (Nat × Bool)} {seqs lasts : List Nat}

theorem run_snoc : b.run (ops ++ [op]) = ((b.run ops).fst.apply op, (b.run ops).snd ++ (b.run ops).fst.handed op) := by
  simp [run]

-- The mark tells what was handed out from what was only recorded: `seqs` were recorded, and the passes began at
-- `lasts`. An input at or below the mark which no pass handed out is below a pass, or has the number zero.
structure Marked (b : ClientInputBuffer ι σ) (seqs lasts : List Nat) (passes : List (Nat × Bool)) : Prop where
  ordered : b.inputs.Pairwise (·.sequenceNumber < ·.sequenceNumber)
  known   : ∀ i ∈ b.inputs, i.sequenceNumber ∈ seqs
  mark    : b.predictedThrough = 0 ∨ b.predictedThrough ∈ seqs
  behind  : ∀ seq ∈ passes.map Prod.fst, seq ≤ b.predictedThrough
  told    : ∀ i ∈ b.inputs, i.sequenceNumber ≤ b.predictedThrough →
              i.sequenceNumber ∈ passes.map Prod.fst ∨ ∃ last ∈ 0 :: lasts, i.sequenceNumber ≤ last
  once    : ∀ seq ∈ passes.map Prod.fst, passes.count (seq, true) = 1

namespace Marked

variable {n : Nat} {o : ι} {s : σ}

theorem new {h : 0 < n} : Marked (ClientInputBuffer.new (ι := ι) (σ := σ) n h) [] [] [] where
  ordered := .nil
  known   := by simp [ClientInputBuffer.new]
  mark    := .inl rfl
  behind  := by simp
  told    := by simp [ClientInputBuffer.new]
  once    := by simp

-- Inputs may leave the buffer at any time.
theorem sublist {l : List (BufferedInput ι σ)} (hm : b.Marked seqs lasts passes) (h : l.Sublist b.inputs) :
    Marked { b with inputs := l } seqs lasts passes where
  ordered := hm.ordered.sublist h
  known i hi := hm.known i (h.subset hi)
  mark    := hm.mark
  behind  := hm.behind
  told i hi := hm.told i (h.subset hi)
  once    := hm.once

theorem pushed (hm : b.Marked seqs lasts passes) (hs : ∀ s ∈ seqs, s < seq) :
    Marked { b with inputs := b.inputs ++ [⟨seq, o, s⟩] } (seqs ++ [seq]) lasts passes where
  ordered := by
    refine List.pairwise_append.mpr ⟨hm.ordered, List.pairwise_singleton .., fun i hi j hj => ?_⟩
    rw [List.mem_singleton.mp hj]
    exact hs _ (hm.known i hi)
  known i hi := by
    cases List.mem_append.mp hi
    case inl hi => exact List.mem_append_left _ (hm.known i hi)
    case inr hi => simp [List.mem_singleton.mp hi]
  mark   := hm.mark.imp_right (List.mem_append_left _)
  behind := hm.behind
  told i hi hle := by
    cases List.mem_append.mp hi
    case inl hi => exact hm.told i hi hle
    case inr hi =>
      rw [List.mem_singleton.mp hi] at hle ⊢
      cases hm.mark
      case inl h0 => exact .inr ⟨0, by simp, h0 ▸ hle⟩
      case inr hm => exact absurd (hs _ hm) (Nat.not_lt.mpr hle)
  once := hm.once

theorem recordInput (hm : b.Marked seqs lasts passes) (hs : ∀ s ∈ seqs, s < seq) :
    (b.recordInput seq o s).Marked (seqs ++ [seq]) lasts passes := by
  unfold ClientInputBuffer.recordInput
  split
  case isTrue  =>
    have hm := (hm.sublist b.inputs.tail_sublist).pushed (o := o) (s := s) hs
    exact ⟨hm.ordered, hm.known, hm.mark, hm.behind, hm.told, hm.once⟩
  case isFalse => exact hm.pushed hs

theorem getUnacknowledgedInputs_eq (hm : b.Marked seqs lasts passes) :
    b.getUnacknowledgedInputs ack = b.inputs.filter (ack < ·.sequenceNumber) := by
  have hd : b.inputs.Pairwise fun i j => decide (j.sequenceNumber ≤ ack) → decide (i.sequenceNumber ≤ ack) :=
    hm.ordered.imp fun hlt hle => decide_eq_true (hlt.le.trans (of_decide_eq_true hle))
  rw [getUnacknowledgedInputs_eq_dropWhile, List.dropWhile_eq_filter_iff.mpr hd]
  refine List.filter_congr fun i _ => ?_
  rw [← decide_not, decide_eq_decide, Nat.not_le]

theorem handed_eq (hm : b.Marked seqs lasts passes) :
    b.handed (.unacknowledgedWithPass last) = (b.inputs.filter (last < ·.sequenceNumber)).map fun i =>
      (i.sequenceNumber, decide (b.predictedThrough < i.sequenceNumber)) := by
  rw [← hm.getUnacknowledgedInputs_eq]
  exact List.map_map

-- A pass hands out what is beyond its acknowledgement, each input once.
theorem mem_handed (hm : b.Marked seqs lasts passes) :
    (seq, first) ∈ b.handed (.unacknowledgedWithPass last) ↔
      (∃ i ∈ b.inputs, i.sequenceNumber = seq) ∧ last < seq ∧ first = decide (b.predictedThrough < seq) := by
  rw [hm.handed_eq, List.mem_map]
  constructor
  case mp =>
    rintro ⟨i, hi, he⟩
    obtain ⟨hi, hlt⟩ := List.mem_filter.mp hi
    obtain ⟨rfl, rfl⟩ := Prod.mk.inj he
    exact ⟨⟨i, hi, rfl⟩, of_decide_eq_true hlt, rfl⟩
  case mpr =>
    rintro ⟨⟨i, hi, rfl⟩, hlt, rfl⟩
    exact ⟨i, List.mem_filter.mpr ⟨hi, decide_eq_true hlt⟩, rfl⟩

theorem nodup_handed (hm : b.Marked seqs lasts passes) : (b.handed (.unacknowledgedWithPass last)).Nodup := by
  rw [hm.handed_eq]
  have ho := hm.ordered.sublist (List.filter_sublist (p := (last < ·.sequenceNumber)))
  exact List.pairwise_map.mpr <| ho.imp fun hlt he => hlt.ne (Prod.mk.inj he).left

-- An input beyond all passes' acknowledgements is at the mark or below it exactly if a pass handed it out.
theorem first_iff (hm : b.Marked seqs lasts passes) (hl : ∀ l ∈ lasts, l ≤ last)
    (h : (seq, first) ∈ b.handed (.unacknowledgedWithPass last)) : first = true ↔ seq ∉ passes.map Prod.fst := by
  obtain ⟨⟨i, hi, rfl⟩, hlt, rfl⟩ := hm.mem_handed.mp h
  rw [decide_eq_true_iff]
  constructor
  case mp  => exact fun hb hp => hb.not_ge (hm.behind _ hp)
  case mpr =>
    intro hp
    by_contra hb
    cases hm.told i hi (Nat.not_lt.mp hb)
    case inl hp' => exact hp hp'
    case inr hle =>
      obtain ⟨l, hll, hle⟩ := hle
      cases List.mem_cons.mp hll
      case inl h0  => omega
      case inr hll => exact (hle.trans (hl l hll)).not_gt hlt

-- A pass moves the mark to the newest input, and never back.
theorem mark_pass : (b.unacknowledgedWithPass last).fst.predictedThrough = b.predictedThrough ∨
    ∃ i ∈ b.inputs, (b.unacknowledgedWithPass last).fst.predictedThrough = i.sequenceNumber := by
  simp only [unacknowledgedWithPass]
  cases h : b.inputs.getLast?
  case none   => exact .inl rfl
  case some i =>
    cases max_choice b.predictedThrough i.sequenceNumber
    case inl hm => exact .inl hm
    case inr hm => exact .inr ⟨i, List.mem_of_getLast? h, hm⟩

theorem le_mark : b.predictedThrough ≤ (b.unacknowledgedWithPass last).fst.predictedThrough := by
  simp only [unacknowledgedWithPass]
  cases b.inputs.getLast?
  case none   => exact le_rfl
  case some i => exact le_max_left ..

theorem newest_le_mark (hm : b.Marked seqs lasts passes) {i : BufferedInput ι σ} (hi : i ∈ b.inputs) :
    i.sequenceNumber ≤ (b.unacknowledgedWithPass last).fst.predictedThrough := by
  have hn : b.inputs ≠ [] := List.ne_nil_of_mem hi
  have hl : i.sequenceNumber ≤ (b.inputs.getLast hn).sequenceNumber := by
    have hle : b.inputs.Pairwise (·.sequenceNumber ≤ ·.sequenceNumber) := hm.ordered.imp Nat.le_of_lt
    exact hle.rel_getLast_of_rel_getLast_getLast hi le_rfl
  simp only [unacknowledgedWithPass, List.getLast?_eq_some_getLast hn]
  exact hl.trans (le_max_right ..)

theorem pass (hm : b.Marked seqs lasts passes) (hl : ∀ l ∈ lasts, l ≤ last) :
    (b.unacknowledgedWithPass last).fst.Marked seqs (lasts ++ [last])
      (passes ++ b.handed (.unacknowledgedWithPass last)) where
  ordered := hm.ordered
  known   := hm.known
  mark    := by
    cases @mark_pass _ _ b last
    case inl h => exact h ▸ hm.mark
    case inr h =>
      obtain ⟨i, hi, h⟩ := h
      exact .inr (h ▸ hm.known i hi)
  behind seq hs := by
    rw [List.map_append] at hs
    cases List.mem_append.mp hs
    case inl hs => exact (hm.behind seq hs).trans le_mark
    case inr hs =>
      obtain ⟨⟨seq, first⟩, hh, rfl⟩ := List.mem_map.mp hs
      obtain ⟨⟨i, hi, rfl⟩, _⟩ := hm.mem_handed.mp hh
      exact hm.newest_le_mark hi
  told i hi _ := by
    by_cases hlt : last < i.sequenceNumber
    case neg => exact .inr ⟨last, by simp, Nat.not_lt.mp hlt⟩
    case pos =>
      have := hm.mem_handed.mpr ⟨⟨i, hi, rfl⟩, hlt, rfl⟩
      exact .inl <| List.mem_map_of_mem <| List.mem_append_right _ this
  once seq hs := by
    rw [List.count_append]
    by_cases hp : seq ∈ passes.map Prod.fst
    case pos =>
      have : (seq, true) ∉ b.handed (.unacknowledgedWithPass last) := fun h => (hm.first_iff hl h).mp rfl hp
      rw [hm.once seq hp, List.count_eq_zero_of_not_mem this]
    case neg =>
      rw [List.map_append] at hs
      obtain ⟨⟨seq, first⟩, hh, rfl⟩ := List.mem_map.mp ((List.mem_append.mp hs).resolve_left hp)
      obtain rfl := (hm.first_iff hl hh).mpr hp
      have : (seq, true) ∉ passes := fun h => hp (List.mem_map_of_mem h)
      rw [List.count_eq_zero_of_not_mem this, List.count_eq_one_of_mem hm.nodup_handed hh]

end Marked

-- The calls come from a client which numbers its inputs upwards and learns of acknowledgements in order.
structure Orderly (ops : List (Op ι σ)) : Prop where
  recorded : (ops.filterMap Op.recorded).Pairwise (· < ·)
  passes   : (ops.filterMap Op.passFrom).Pairwise (· ≤ ·)

theorem Orderly.of_append (h : Orderly (before ++ after)) : Orderly before where
  recorded := (List.pairwise_append.mp (List.filterMap_append ▸ h.recorded)).left
  passes   := (List.pairwise_append.mp (List.filterMap_append ▸ h.passes)).left

-- By induction over the calls.
theorem run_marked {n : Nat} {h : 0 < n} (ho : Orderly ops) : ((ClientInputBuffer.new n h).run ops).fst.Marked
    (ops.filterMap Op.recorded) (ops.filterMap Op.passFrom) ((ClientInputBuffer.new n h).run ops).snd := by
  induction ops using List.reverseRecOn
  case nil => exact .new
  case append_singleton ops op ih =>
    have hm := ih ho.of_append
    rw [run_snoc, List.filterMap_append, List.filterMap_append]
    cases op
    case recordInput seq o s =>
      have hs := ho.recorded
      rw [List.filterMap_append] at hs
      simpa [apply, handed, Op.recorded, Op.passFrom, List.filterMap_cons] using hm.recordInput (o := o) (s := s) fun s hs' =>
        (List.pairwise_append.mp hs).right.right s hs' seq (by simp [Op.recorded])
    case acknowledgeInputsUpTo ack =>
      simpa [apply, handed, acknowledgeInputsUpTo, Op.recorded, Op.passFrom, List.filterMap_cons]
        using hm.sublist (List.dropWhile_sublist (·.sequenceNumber ≤ ack))
    case clear =>
      simpa [apply, handed, ClientInputBuffer.clear, Op.recorded, Op.passFrom, List.filterMap_cons]
        using hm.sublist (List.nil_sublist _)
    case unacknowledgedWithPass last =>
      have hl := ho.passes
      rw [List.filterMap_append] at hl
      simpa [apply, Op.recorded, Op.passFrom, List.filterMap_cons] using hm.pass fun l hl' =>
        (List.pairwise_append.mp hl).right.right l hl' last (by simp [Op.passFrom])

-- A pass marks exactly those inputs which no earlier one handed out, so that every input which is handed out at
-- all is marked exactly once.
theorem told_once {n : Nat} {h : 0 < n} (ho : Orderly ops) :
    (∀ before last after, ops = before ++ .unacknowledgedWithPass last :: after →
      ∀ seq first, (seq, first) ∈ ((ClientInputBuffer.new n h).run before).fst.handed (.unacknowledgedWithPass last) →
        (first = true ↔ seq ∉ ((ClientInputBuffer.new n h).run before).snd.map Prod.fst)) ∧
      ∀ seq ∈ ((ClientInputBuffer.new n h).run ops).snd.map Prod.fst,
        ((ClientInputBuffer.new n h).run ops).snd.count (seq, true) = 1 := by
  constructor
  case right => exact (run_marked ho).once
  case left  =>
    rintro before last after rfl seq first hh
    have hl := ho.passes
    rw [List.filterMap_append] at hl
    exact (run_marked ho.of_append).first_iff
      (fun l hl' => (List.pairwise_append.mp hl).right.right l hl' last (by simp [Op.passFrom])) hh

-- The input zero is never handed out, as every acknowledgement covers it.
theorem told_once_from_zero :
    let ops : List (Op Unit Unit) :=
      [.recordInput 0 () (), .recordInput 1 () (), .unacknowledgedWithPass 0, .recordInput 2 () (),
       .unacknowledgedWithPass 0]
    ∀ seq ∈ ((ClientInputBuffer.new 4 (by decide)).run ops).snd.map Prod.fst,
      ((ClientInputBuffer.new 4 (by decide)).run ops).snd.count (seq, true) = 1 :=
  (told_once ⟨by decide, by decide⟩).right

end Plaza.ClientUtils.ClientInputBuffer
