import Mathlib.Algebra.Order.Field.Rat
import Plaza.ClientUtils.Meter

namespace Plaza.ClientUtils.RateMeter

inductive Op
  | add (amount : Nat)
  | elapsed (elapsedMs : Nat)
  deriving DecidableEq

def Op.reading : Op → Option Nat
  | .add _             => none
  | .elapsed elapsedMs => some elapsedMs

def apply (m : RateMeter) : Op → RateMeter
  | .add amount        => m.add amount
  | .elapsed elapsedMs => m.elapsed elapsedMs

def run (m : RateMeter) (ops : List Op) : RateMeter :=
  ops.foldl apply m

def readings (ops : List Op) : List Nat :=
  ops.filterMap Op.reading

-- The amounts, each with the bucket of the clock when it was added.
def adds (now : Nat) : List Op → List (Nat × Nat)
  | []                      => []
  | .add amount :: ops      => (now / bucketMs, amount) :: adds now ops
  | .elapsed elapsedMs :: ops => adds elapsedMs ops

-- What was added while the clock was in one of these buckets.
def sumOf (p : Nat → Bool) (past : List (Nat × Nat)) : Nat :=
  ((past.filter (p ·.fst)).map Prod.snd).sum

def first (ops : List Op) : Nat :=
  (readings ops).head?.getD 0

def latest (ops : List Op) : Nat :=
  (readings ops).getLast?.getD 0

-- What was added in the buckets that are retained.
def retained (ops : List Op) : Nat :=
  sumOf (fun bucket => latest ops / bucketMs < bucket + buckets) (adds 0 ops)

def oldestStart (ops : List Op) : Nat :=
  (latest ops / bucketMs + 1 - buckets) * bucketMs

theorem sumOf_cons {p : Nat → Bool} {a : Nat × Nat} {past : List (Nat × Nat)} :
    sumOf p (a :: past) = (if p a.fst then a.snd else 0) + sumOf p past := by
  cases hp : p a.fst <;> simp [sumOf, hp]

theorem sumOf_append {p : Nat → Bool} {past later : List (Nat × Nat)} :
    sumOf p (past ++ later) = sumOf p past + sumOf p later := by
  simp [sumOf]

theorem sumOf_congr {p q : Nat → Bool} {past : List (Nat × Nat)} (h : ∀ a ∈ past, p a.fst = q a.fst) :
    sumOf p past = sumOf q past := by
  rw [sumOf, sumOf, List.filter_congr h]

-- Every bucket has its slot.
theorem sum_slots {p : Nat → Bool} {past : List (Nat × Nat)} :
    ∑ i, sumOf (fun bucket => p bucket && slot bucket = i) past = sumOf p past := by
  induction past
  case nil => simp [sumOf]
  case cons a past hi =>
    simp only [sumOf_cons, Finset.sum_add_distrib, hi]
    cases hp : p a.fst <;> simp

theorem slot_eq_iff {a b : Nat} : slot a = slot b ↔ a % 16 = b % 16 := by
  simp [slot, Fin.ext_iff]

-- The slots which the ring is about to reuse.
theorem mem_slots {head want : Nat} {i : Fin buckets} :
    i ∈ (List.range' 1 (min (want - head) buckets)).map (fun step => slot (head + step)) ↔
      ∃ step, 1 ≤ step ∧ step ≤ want - head ∧ step ≤ 16 ∧ slot (head + step) = i := by
  simp only [List.mem_map, List.mem_range'_1, buckets]
  refine exists_congr fun step => ?_
  rw [← and_assoc, ← and_assoc]
  refine and_congr_left fun _ => ?_
  omega

variable {m : RateMeter} {past : List (Nat × Nat)} {ops : List Op} {now elapsedMs : Nat} {i : Fin buckets}

theorem foldl_clear {slots : List (Fin buckets)} :
    (slots.foldl clear m).bucketTotal i = if i ∈ slots then 0 else m.bucketTotal i := by
  induction slots generalizing m
  case nil => simp
  case cons slot slots hi =>
    rw [List.foldl_cons, hi, clear]
    by_cases hs : i = slot
    case pos => simp [hs]
    case neg => simp [hs]

-- A slot holds what was added in the one bucket of its own that is retained.
structure Counts (past : List (Nat × Nat)) (now : Nat) (m : RateMeter) : Prop where
  clock  : m.elapsedMs = now
  head   : m.head = now / bucketMs
  seen   : ∀ a ∈ past, a.fst ≤ m.head
  totals : ∀ i, m.bucketTotal i = sumOf (fun bucket => m.head < bucket + buckets && slot bucket = i) past

namespace Counts

theorem new : Counts [] 0 new where
  clock  := rfl
  head   := rfl
  seen   := nofun
  totals := fun _ => rfl

theorem add (h : Counts past now m) (amount : Nat) : Counts (past ++ [(now / bucketMs, amount)]) now (m.add amount) where
  clock  := h.clock
  head   := h.head
  seen   := by
    intro a ha
    rcases List.mem_append.mp ha with ha | ha
    case inl => exact h.seen a ha
    case inr => exact (List.mem_singleton.mp ha ▸ h.head.ge)
  totals := by
    intro i
    rw [sumOf_append, ← h.head]
    refine Eq.trans ?_ (congrArg (· + _) (h.totals i))
    by_cases hs : slot m.head = i
    case pos =>
      subst hs
      simp [sumOf, RateMeter.add]
    case neg => simp [hs, sumOf, RateMeter.add, Function.update_of_ne (Ne.symm hs)]

theorem elapsed (h : Counts past now m) (hn : now ≤ elapsedMs) : Counts past elapsedMs (m.elapsed elapsedMs) := by
  have hle : m.head ≤ elapsedMs / bucketMs := h.head ▸ Nat.div_le_div_right hn
  simp only [RateMeter.elapsed]
  split
  case isFalse hw =>
    have he := Nat.le_antisymm hle (Nat.not_lt.mp hw)
    exact ⟨rfl, he, h.seen, h.totals⟩
  case isTrue hw =>
    refine ⟨rfl, rfl, fun a ha => (h.seen a ha).trans hle, fun i => ?_⟩
    show (List.foldl clear _ _).bucketTotal i =
      sumOf (fun bucket => elapsedMs / bucketMs < bucket + buckets && slot bucket = i) past
    rw [foldl_clear]
    split
    case isTrue hi =>
      -- What is cleared is of a bucket that is not retained any more.
      obtain ⟨step, hs, hw, hb, rfl⟩ := mem_slots.mp hi
      have hn : past.filter (fun a => elapsedMs / bucketMs < a.fst + buckets && slot a.fst = slot (m.head + step)) = [] := by
        refine List.filter_eq_nil_iff.mpr fun a ha => ?_
        have := h.seen a ha
        have hb : buckets = 16 := rfl
        simp only [Bool.and_eq_true, decide_eq_true_eq, slot_eq_iff]
        omega
      exact (congrArg (fun l => (l.map Prod.snd).sum) hn).symm
    case isFalse hi =>
      -- What is not retained any more has been cleared.
      refine (h.totals i).trans <| sumOf_congr fun a ha => ?_
      have := h.seen a ha
      have hb : buckets = 16 := rfl
      rw [Bool.eq_iff_iff, Bool.and_eq_true, Bool.and_eq_true, decide_eq_true_eq, decide_eq_true_eq, decide_eq_true_eq]
      refine and_congr_left fun hs => ⟨fun hl => ?_, fun hl => by omega⟩
      by_contra hn
      refine hi <| mem_slots.mpr ⟨a.fst + 16 - m.head, by omega, by omega, by omega, ?_⟩
      rw [← hs, slot_eq_iff]
      omega

theorem run (h : Counts past now m) (hn : (now :: readings ops).Pairwise (· ≤ ·)) :
    Counts (past ++ adds now ops) ((readings ops).getLast?.getD now) (m.run ops) := by
  induction ops generalizing m past now
  case nil => simpa [adds, readings, RateMeter.run] using h
  case cons op ops hi =>
    cases op
    case add amount =>
      have := hi (h.add amount) hn
      rwa [List.append_assoc] at this
    case elapsed elapsedMs =>
      have ⟨hle, hn⟩ := List.pairwise_cons.mp hn
      have := hi (h.elapsed (hle _ List.mem_cons_self)) hn
      have hl : (readings (.elapsed elapsedMs :: ops)).getLast?.getD now = (readings ops).getLast?.getD elapsedMs :=
        congrArg (Option.getD · now) List.getLast?_cons
      rwa [hl]

end Counts

-- The slots together hold what was added in the buckets that are retained.
theorem Counts.recent (h : Counts past now m) :
    m.recent = sumOf (fun bucket => m.head < bucket + buckets) past := by
  simp only [RateMeter.recent, h.totals]
  exact sum_slots

theorem run_counts (h : (readings ops).Pairwise (· ≤ ·)) : Counts (adds 0 ops) (latest ops) (new.run ops) :=
  Counts.new.run <| List.pairwise_cons.mpr ⟨fun t _ => Nat.zero_le t, h⟩

theorem run_recent (h : (readings ops).Pairwise (· ≤ ·)) : (new.run ops).recent = retained ops := by
  rw [(run_counts h).recent, (run_counts h).head]
  rfl

theorem run_windowSpanMs (h : (readings ops).Pairwise (· ≤ ·)) :
    (new.run ops).windowSpanMs = latest ops - oldestStart ops := by
  rw [windowSpanMs, (run_counts h).clock, (run_counts h).head]
  rfl

-- Read for the first time after two seconds, a meter counts from zero. Started after ten minutes, it counts time from
-- before it was started.
theorem late_start_reads_low :
    let fresh := [.add 1000, .elapsed 2000]
    let late  := [.elapsed 600000, .add 500, .elapsed 600500, .add 500, .elapsed 601000]
    ((new.run fresh).perSec : ℚ) = 500 ∧ (rate (retained fresh) (latest fresh - max (first fresh) (oldestStart fresh)) : ℚ) = 0 ∧
    ((new.run late).perSec : ℚ) = 400 / 3 ∧ (rate (retained late) (latest late - max (first late) (oldestStart late)) : ℚ) = 1000 := by
  decide +kernel

theorem reads_recent_rate {K : Type} [Field K] {ops : List Op} (h : (readings ops).Pairwise (· ≤ ·)) :
    (new.run ops).recent = retained ops ∧
    (latest ops / bucketMs < buckets → (new.run ops).perSec = (rate (retained ops) (latest ops) : K)) ∧
    (first ops ≤ oldestStart ops →
      (new.run ops).perSec = (rate (retained ops) (latest ops - max (first ops) (oldestStart ops)) : K)) := by
  refine ⟨run_recent h, fun hw => ?_, fun hf => ?_⟩
  case refine_1 =>
    have ho : oldestStart ops = 0 := by
      rw [oldestStart, Nat.sub_eq_zero_of_le hw, Nat.zero_mul]
    rw [perSec, run_recent h, run_windowSpanMs h, ho, Nat.sub_zero]
  case refine_2 => rw [perSec, run_recent h, run_windowSpanMs h, Nat.max_eq_right hf]

-- What was added in the first second is not in the window any more.
theorem reads_recent_rate_settled :
    ((new.run [.elapsed 1000, .add 700, .elapsed 5000, .add 50, .elapsed 9400]).perSec : ℚ) = 50 / (79 / 10) := by
  rw [(reads_recent_rate (by decide)).right.right (by decide)]
  decide +kernel

end Plaza.ClientUtils.RateMeter
