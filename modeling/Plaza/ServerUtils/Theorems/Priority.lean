import Mathlib.Algebra.Order.Group.Basic
import Mathlib.Algebra.Order.Group.Int
import Mathlib.Algebra.Ring.Nat
import Mathlib.Data.Finset.Card
import Plaza.Lib.Greedy
import Plaza.ServerUtils.Priority

namespace Plaza.ServerUtils.PriorityAccumulator

variable {K : Type} [AddCommGroup K] {p : PriorityAccumulator K} {i j e budget left : Nat}
variable {cost : Nat → Nat} {is S : List Nat} {priority : K}

-- Sent indices restart at zero.
theorem score_sent : (p.sent is).score i = if i ∈ is then 0 else p.score i := by
  induction is generalizing p
  case nil => rfl
  case cons j is ih =>
    have hj : p.sent (j :: is) = (p.sent [j]).sent is := rfl
    rw [hj, ih]
    by_cases hij : i = j
    case pos =>
      subst hij
      have hz : (p.sent [i]).score i = 0 := by
        by_cases hi : i < p.scores.length <;> simp [sent, score, hi, List.getD]
      simp [hz]
    case neg =>
      have hs : (p.sent [j]).score i = p.score i := by
        simp [sent, score, List.getD, List.getElem?_set_ne (Ne.symm hij)]
      simp [hs, hij]

theorem foldl_pick {scores : List K} {out : List Nat} :
    ∃ left', is.foldl (pick cost) (left, scores, out) =
      (left', (Greedy.take cost left is).foldl (fun scores index => scores.set index 0) scores,
        out ++ Greedy.take cost left is) := by
  induction is generalizing left scores out
  case nil => exact ⟨left, by simp [Greedy.take]⟩
  case cons i is ih =>
    rw [List.foldl_cons, pick, Greedy.take]
    split
    case isTrue => exact ih
    case isFalse =>
      obtain ⟨left', h⟩ := @ih (left - cost i) (scores.set i 0) (out ++ [i])
      exact ⟨left', by simpa using h⟩

theorem score_bump : (p.bump i priority).score j = p.score j + if j = i then priority else 0 := by
  have hi : i < (if p.scores.length ≤ i then p.scores ++ .replicate (i + 1 - p.scores.length) 0
      else p.scores).length := by
    split
    · rw [List.length_append, List.length_replicate]
      omega
    · omega
  have hs : (if p.scores.length ≤ i then p.scores ++ .replicate (i + 1 - p.scores.length) 0 else p.scores).getD j 0 =
      p.score j := by
    split
    case isFalse => rfl
    case isTrue =>
      by_cases hj : j < p.scores.length
      case pos => simp [score, List.getD, List.getElem?_append_left hj]
      case neg =>
        rw [score, List.getD, List.getD, List.getElem?_append_right (by omega),
          List.getElem?_eq_none (by omega : _ ≤ j), List.getElem?_replicate]
        split <;> rfl
  rw [← hs, bump, score]
  simp only [List.getD, List.getElem?_modify]
  by_cases hij : j = i
  case pos =>
    subst hij
    simp [List.getElem?_eq_getElem hi]
  case neg => simp [hij, Ne.symm hij]

def bumped (S : List Nat) (p : PriorityAccumulator K) (priority : K) : PriorityAccumulator K :=
  S.foldl (fun p i => p.bump i priority) p

theorem score_bumped (hn : S.Nodup) : (bumped S p priority).score i = p.score i + if i ∈ S then priority else 0 := by
  induction S generalizing p
  case nil => simp [bumped]
  case cons j S ih =>
    obtain ⟨hj, hn⟩ := List.nodup_cons.mp hn
    have hb : bumped (j :: S) p priority = bumped S (p.bump j priority) priority := rfl
    rw [hb, ih hn, score_bump]
    by_cases hij : i = j
    case pos =>
      subst hij
      simp [hj]
    case neg => simp [hij]

variable [LinearOrder K]

-- The order in which entities are tried.
def Hotter (p : PriorityAccumulator K) (i j : Nat) : Prop :=
  p.score j < p.score i ∨ (p.score i = p.score j ∧ i < j)

instance : DecidableRel p.Hotter :=
  fun _ _ => inferInstanceAs (Decidable (_ ∨ _))

theorem hotter_irrefl : ¬p.Hotter i i := by
  simp [Hotter]

theorem Hotter.asymm (h : p.Hotter i j) : ¬p.Hotter j i := by
  unfold Hotter at h ⊢
  rcases h with h | ⟨h, h'⟩
  · simp [h.asymm, h.ne]
  · simp [h, h'.asymm]

theorem lt_of_score_pos (h : 0 < p.score i) : i < p.scores.length := by
  by_contra hi
  rw [score, List.getD, List.getElem?_eq_none (by omega)] at h
  exact lt_irrefl _ h

theorem mem_hottest : i ∈ p.hottest ↔ 0 < p.score i := by
  rw [hottest, List.mem_mergeSort, List.mem_filter, List.mem_range, decide_eq_true_iff]
  exact and_iff_right_of_imp lt_of_score_pos

theorem hottest_pairwise : p.hottest.Pairwise p.Hotter := by
  have hs : p.hottest.Pairwise fun a b => p.score b < p.score a ∨ (p.score a = p.score b ∧ a ≤ b) := by
    have h := @List.pairwise_mergeSort _ (fun a b => p.score b < p.score a ∨ (p.score a = p.score b ∧ a ≤ b)) ?_ ?_
      ((List.range p.scores.length).filter fun i => 0 < p.score i)
    · exact h.imp of_decide_eq_true
    · intro a b c
      simp only [decide_eq_true_iff]
      rintro (h | ⟨h, hn⟩) (h' | ⟨h', hn'⟩)
      · exact .inl (h'.trans h)
      · exact .inl (h' ▸ h)
      · exact .inl (h ▸ h')
      · exact .inr ⟨h.trans h', hn.trans hn'⟩
    · intro a b
      simp only [Bool.or_eq_true, decide_eq_true_iff]
      rcases lt_trichotomy (p.score a) (p.score b) with h | h | h
      · exact .inr (.inl h)
      · exact (le_total a b).imp (.inr ⟨h, ·⟩) (.inr ⟨h.symm, ·⟩)
      · exact .inl (.inl h)
  have hn : p.hottest.Nodup := (List.mergeSort_perm _ _).nodup_iff.mpr (List.nodup_range.filter _)
  refine (hs.and hn).imp fun {a b} h => ?_
  exact h.left.imp_right fun hl => ⟨hl.left, lt_of_le_of_ne hl.right h.right⟩

theorem fill_out : (p.fill budget cost).snd = Greedy.take cost budget p.hottest := by
  obtain ⟨_, h⟩ := @foldl_pick _ _ budget cost p.hottest p.scores []
  simp [fill, h]

theorem fill_scores : (p.fill budget cost).fst.scores = (p.sent (p.fill budget cost).snd).scores := by
  obtain ⟨_, h⟩ := @foldl_pick _ _ budget cost p.hottest p.scores []
  rw [fill_out, fill, h, sent]

-- What the source says of filling a packet.
structure Fills (p : PriorityAccumulator K) (budget : Nat) (cost : Nat → Nat) (r : PriorityAccumulator K × List Nat) :
    Prop where
  spent  : (r.snd.map cost).sum ≤ budget
  resets : ∀ i, r.fst.score i = if i ∈ r.snd then 0 else p.score i
  order  : r.snd.Pairwise p.Hotter
  greedy : ∀ i, i ∈ r.snd ↔
    0 < p.score i ∧ cost i + ((r.snd.filter (p.Hotter · i)).map cost).sum ≤ budget

theorem fill_fills (p : PriorityAccumulator K) (budget : Nat) (cost : Nat → Nat) :
    p.Fills budget cost (p.fill budget cost) where
  spent    := by rw [fill_out]; exact Greedy.spent_le
  resets i := by rw [score, fill_scores, ← score, score_sent]
  order    := by rw [fill_out]; exact hottest_pairwise.sublist Greedy.take_sublist
  greedy i := by
    rw [fill_out, Greedy.mem_take_iff (fun _ => hotter_irrefl) Hotter.asymm hottest_pairwise, mem_hottest]

-- What happens in a round: the same priority for all, and a packet.
structure Round (K : Type) where
  priority : K
  budget   : Nat
  cost     : Nat → Nat

-- Everyone's priority is raised, and each of them fits into an empty packet.
def Round.Fair (S : List Nat) (r : Round K) : Prop :=
  0 < r.priority ∧ ∀ i ∈ S, r.cost i ≤ r.budget

def round (S : List Nat) (p : PriorityAccumulator K) (r : Round K) : PriorityAccumulator K × List Nat :=
  (bumped S p r.priority).fill r.budget r.cost

def after (S : List Nat) (p : PriorityAccumulator K) (rs : List (Round K)) : PriorityAccumulator K :=
  rs.foldl (fun p r => (round S p r).fst) p

-- What is chosen in each of the rounds.
def packets (S : List Nat) : PriorityAccumulator K → List (Round K) → List (List Nat)
  | _, []      => []
  | p, r :: rs => (round S p r).snd :: packets S (round S p r).fst rs

-- Entity `e` waits with others. No one else competes.
structure Waits (S : List Nat) (p : PriorityAccumulator K) (e : Nat) : Prop where
  mem    : e ∈ S
  own    : 0 ≤ p.score e
  others : ∀ i ∉ S, p.score i ≤ 0

-- Those who are tried before it.
def ahead (S : List Nat) (p : PriorityAccumulator K) (e : Nat) : Finset Nat :=
  S.toFinset.filter (p.Hotter · e)

theorem card_ahead_lt (he : e ∈ S) : (ahead S p e).card < S.length := by
  have hs : ahead S p e ⊂ S.toFinset := by
    refine (Finset.filter_ssubset).mpr ⟨e, by simpa using he, hotter_irrefl⟩
  exact (Finset.card_lt_card hs).trans_le S.toFinset_card_le

variable [IsOrderedAddMonoid K] {r : Round K} {rs : List (Round K)}

namespace Waits

theorem round (hn : S.Nodup) (hr : r.Fair S) (h : Waits S p e) : Waits S (round S p r).fst e := by
  have hf := fill_fills (bumped S p r.priority) r.budget r.cost
  constructor
  case mem => exact h.mem
  case own =>
    rw [PriorityAccumulator.round, hf.resets, score_bumped hn, if_pos h.mem]
    split
    · exact le_rfl
    · exact add_nonneg h.own hr.left.le
  case others =>
    intro i hi
    rw [PriorityAccumulator.round, hf.resets, score_bumped hn, if_neg hi, add_zero]
    split
    · exact le_rfl
    · exact h.others i hi

-- Whoever keeps it out of a packet gets behind it, and no one gets ahead of it.
theorem chosen_or_ahead_lt (hn : S.Nodup) (hr : r.Fair S) (h : Waits S p e) :
    e ∈ (PriorityAccumulator.round S p r).snd ∨
      (ahead S (PriorityAccumulator.round S p r).fst e).card < (ahead S p e).card := by
  rw [or_iff_not_imp_left]
  intro he
  have hf := fill_fills (bumped S p r.priority) r.budget r.cost
  change e ∉ ((bumped S p r.priority).fill r.budget r.cost).snd at he
  have hpos : 0 < (bumped S p r.priority).score e := by
    rw [score_bumped hn, if_pos h.mem]
    exact add_pos_of_nonneg_of_pos h.own hr.left
  -- As it would fit on its own, something which is tried before it was chosen.
  obtain ⟨i, hi, hie⟩ : ∃ i ∈ ((bumped S p r.priority).fill r.budget r.cost).snd,
      (bumped S p r.priority).Hotter i e := by
    by_contra hno
    push Not at hno
    refine he ((hf.greedy e).mpr ⟨hpos, ?_⟩)
    rw [List.filter_eq_nil_iff.mpr fun i hi => by simpa using hno i hi]
    exact hr.right e h.mem
  have hs : ∀ j ∈ S, (bumped S p r.priority).score j = p.score j + r.priority := by
    intro j hj
    rw [score_bumped hn, if_pos hj]
  have hiS : i ∈ S := by
    by_contra hni
    have hz := ((hf.greedy i).mp hi).left
    rw [score_bumped hn, if_neg hni, add_zero] at hz
    exact absurd (h.others i hni) (not_le.mpr hz)
  have hb : ∀ j ∈ S, (bumped S p r.priority).Hotter j e ↔ p.Hotter j e := by
    intro j hj
    rw [Hotter, Hotter, hs j hj, hs e h.mem, add_lt_add_iff_right, add_left_inj]
  have hk : ∀ j ∈ S, (PriorityAccumulator.round S p r).fst.Hotter j e →
      j ∉ ((bumped S p r.priority).fill r.budget r.cost).snd ∧ p.Hotter j e := by
    intro j hj hje
    rw [PriorityAccumulator.round, Hotter, hf.resets, hf.resets, if_neg he] at hje
    split at hje
    case isTrue => exact absurd hpos (hje.elim (·.asymm) (fun h => h.left ▸ lt_irrefl _))
    case isFalse hno => exact ⟨hno, (hb j hj).mp hje⟩
  refine Finset.card_lt_card ((Finset.ssubset_iff_of_subset fun j hj => ?_).mpr ⟨i, ?_, fun hmem => ?_⟩)
  · obtain ⟨hj, hje⟩ := Finset.mem_filter.mp hj
    exact Finset.mem_filter.mpr ⟨hj, (hk j (List.mem_toFinset.mp hj) hje).right⟩
  · exact Finset.mem_filter.mpr ⟨List.mem_toFinset.mpr hiS, (hb i hiS).mp hie⟩
  · exact (hk i hiS (Finset.mem_filter.mp hmem).right).left hi

theorem after (hn : S.Nodup) (hr : ∀ r ∈ rs, r.Fair S) (h : Waits S p e) : Waits S (after S p rs) e := by
  induction rs generalizing p
  case nil => exact h
  case cons r rs ih => exact ih (fun r hr' => hr r (.tail _ hr')) (h.round hn (hr r (.head _)))

theorem chosen (hn : S.Nodup) (hr : ∀ r ∈ rs, r.Fair S) (h : Waits S p e) (ha : (ahead S p e).card < rs.length) :
    ∃ out ∈ packets S p rs, e ∈ out := by
  induction rs generalizing p
  case nil => cases ha
  case cons r rs ih =>
    cases h.chosen_or_ahead_lt hn (hr r (.head _))
    case inl hin => exact ⟨_, .head _, hin⟩
    case inr hlt =>
      rw [List.length_cons] at ha
      obtain ⟨out, ho, hin⟩ := ih (fun r hr' => hr r (.tail _ hr')) (h.round hn (hr r (.head _))) (by omega)
      exact ⟨out, .tail _ ho, hin⟩

end Waits

-- A packet is filled within its budget, by descending score. Where only the entities of `S` compete, and get the same
-- priority in every round, none of them that is not held back waits for more rounds than there are entities.
theorem fills_without_starvation :
    (∀ (p : PriorityAccumulator K) (budget : Nat) (cost : Nat → Nat), p.Fills budget cost (p.fill budget cost)) ∧
    ∀ (p : PriorityAccumulator K) (S : List Nat) (before rounds : List (Round K)), S.Nodup →
      (∀ i ∉ S, p.score i ≤ 0) → (∀ r ∈ before ++ rounds, r.Fair S) → rounds.length = S.length →
        ∀ e ∈ S, 0 ≤ p.score e → ∃ out ∈ packets S (after S p before) rounds, e ∈ out := by
  refine ⟨fill_fills, fun p S before rounds hn ho hr hl e he hs => ?_⟩
  have hw : Waits S p e := ⟨he, hs, ho⟩
  have hw := hw.after hn fun r hr' => hr r (List.mem_append_left _ hr')
  exact hw.chosen hn (fun r hr' => hr r (List.mem_append_right _ hr')) (hl ▸ card_ahead_lt he)

-- Room for one entity.
def narrow : Round Int where
  priority := 1
  budget   := 10
  cost _   := 10

theorem narrow_fair : narrow.Fair S :=
  ⟨by decide, fun _ _ => le_rfl⟩

theorem score_new {entities : Nat} : (new entities : PriorityAccumulator Int).score i = 0 := by
  rw [score, new, List.getD, List.getElem?_replicate]
  split <;> rfl

theorem fills_without_starvation_of_two :
    ∃ out ∈ packets [0, 1] (after [0, 1] (new 2) [narrow]) [narrow, narrow], 1 ∈ out := by
  refine fills_without_starvation.right (new 2) [0, 1] [narrow] [narrow, narrow] (by decide) ?_ ?_ rfl 1 (by decide) ?_
  · exact fun i _ => score_new.le
  · intro r hr
    simp only [List.mem_append, List.mem_cons, List.not_mem_nil, or_false, or_self] at hr
    exact hr ▸ narrow_fair
  · exact score_new.ge

-- An entity waits for longer where another one has a score left from before, or while its own is negative.
theorem starved_by_leftover_or_held_back :
    (¬∀ (p : PriorityAccumulator Int) (S : List Nat) (rounds : List (Round Int)), S.Nodup → (∀ i, 0 ≤ p.score i) →
      (∀ r ∈ rounds, r.Fair S) → rounds.length = S.length → ∀ e ∈ S, ∃ out ∈ packets S p rounds, e ∈ out) ∧
    ¬∀ (p : PriorityAccumulator Int) (S : List Nat) (rounds : List (Round Int)), S = List.range p.scores.length →
      (∀ r ∈ rounds, r.Fair S) → rounds.length = S.length → ∀ e ∈ S, ∃ out ∈ packets S p rounds, e ∈ out := by
  have hf : ∀ r ∈ [narrow], r.Fair [0] := fun r hr => List.mem_singleton.mp hr ▸ narrow_fair
  constructor
  case left =>
    have hp : packets [0] ((new 2).bump 1 100) [narrow] = [[1]] := by
      simp [packets, PriorityAccumulator.round, narrow, bumped, fill, hottest, bump, new, List.range, List.range.loop,
        score, List.mergeSort, List.MergeSort.Internal.splitInTwo, pick, List.filter]
    have hz : ∀ i, 0 ≤ ((new 2).bump 1 100 : PriorityAccumulator Int).score i := by
      intro i
      rw [score_bump, score_new]
      split <;> decide
    intro h
    obtain ⟨out, ho, h0⟩ := h ((new 2).bump 1 100) [0] [narrow] (by decide) hz hf rfl 0 (by decide)
    simp [hp] at ho
    simp [ho] at h0
  case right =>
    have hp : packets [0] ((new 1).bump 0 (-5)) [narrow] = [[]] := by
      simp [packets, PriorityAccumulator.round, narrow, bumped, fill, hottest, bump, new, score]
    intro h
    obtain ⟨out, ho, h0⟩ := h ((new 1).bump 0 (-5)) [0] [narrow] rfl hf rfl 0 (by decide)
    simp [hp] at ho
    simp [ho] at h0

end Plaza.ServerUtils.PriorityAccumulator
