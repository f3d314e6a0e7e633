import Mathlib.Algebra.BigOperators.Group.List.Basic
import Mathlib.Algebra.Ring.Nat
import Mathlib.Data.List.Basic
import Mathlib.Order.Basic

-- Items that take their cost from a budget one after the other, each if there is enough left for it.
namespace Greedy

variable {ι : Type*}

def take (cost : ι → Nat) : Nat → List ι → List ι
  | _,    []      => []
  | left, i :: is => if left < cost i then take cost left is else i :: take cost (left - cost i) is

variable {cost : ι → Nat} {left : Nat} {l : List ι} {i : ι}

theorem take_sublist : (take cost left l).Sublist l := by
  induction l generalizing left
  case nil => exact .slnil
  case cons i l ih =>
    rw [take]
    split
    case isTrue  => exact ih.cons i
    case isFalse => exact ih.cons_cons i

theorem spent_le : ((take cost left l).map cost).sum ≤ left := by
  induction l generalizing left
  case nil => exact Nat.zero_le _
  case cons i l ih =>
    rw [take]
    split
    case isTrue => exact ih
    case isFalse =>
      have h := @ih (left - cost i)
      rw [List.map_cons, List.sum_cons]
      omega

-- From a list in a strict order, an item is taken if it fits next to what was taken from before it.
theorem mem_take_iff {before : ι → ι → Prop} [DecidableRel before] (hi : ∀ i, ¬before i i)
    (hs : ∀ {i j}, before i j → ¬before j i) (hl : l.Pairwise before) :
    i ∈ take cost left l ↔ i ∈ l ∧ cost i + (((take cost left l).filter (before · i)).map cost).sum ≤ left := by
  induction l generalizing left
  case nil => simp [take]
  case cons j l ih =>
    obtain ⟨hj, ht⟩ := List.pairwise_cons.mp hl
    have hn : j ∉ l := fun h => hi j (hj j h)
    have hz : ∀ left, (take cost left l).filter (before · j) = [] := by
      intro left
      refine List.filter_eq_nil_iff.mpr fun k hk => ?_
      simpa using hs (hj k (take_sublist.subset hk))
    rw [take]
    by_cases hij : i = j
    case pos =>
      subst hij
      split
      case isTrue h =>
        rw [hz, ih ht]
        simp [hn, h]
      case isFalse h => simpa [hz, hi] using h
    case neg =>
      split
      case isTrue => simpa [hij] using ih ht
      case isFalse h =>
        rw [List.mem_cons, or_iff_right hij, ih ht, List.mem_cons, or_iff_right hij]
        refine and_congr_right fun hil => ?_
        rw [List.filter_cons_of_pos (by simpa using hj i hil), List.map_cons, List.sum_cons]
        omega

end Greedy

-- Instants that are at least a gap apart, and how many of them there are in a list of instants.
namespace Spacing

variable {gap t t' u : Nat} {l cs : List Nat}

-- The first instant does not come before `t`, and every other one not before a gap after the one before it.
def Spaced (gap : Nat) : Nat → List Nat → Prop
  | _, []      => True
  | t, c :: cs => t ≤ c ∧ Spaced gap (c + gap) cs

-- Picks every instant that comes late enough.
def pick (gap : Nat) : Nat → List Nat → List Nat
  | _, []      => []
  | t, c :: cs => if t ≤ c then c :: pick gap (c + gap) cs else pick gap t cs

theorem pick_sublist : (pick gap t cs).Sublist cs := by
  induction cs generalizing t
  case nil => exact .slnil
  case cons c cs hi =>
    rw [pick]
    split
    case isTrue  => exact hi.cons_cons c
    case isFalse => exact hi.cons c

theorem spaced_pick : Spaced gap t (pick gap t cs) := by
  induction cs generalizing t
  case nil => trivial
  case cons c cs hi =>
    rw [pick]
    split
    case isTrue h => exact ⟨h, hi⟩
    case isFalse  => exact hi

-- No other choice of instants that are spaced is longer.
theorem length_le_length_pick (hc : cs.Pairwise (· ≤ ·)) (ht : t ≤ t') (hs : Spaced gap t' l) (hl : l.Sublist cs) :
    l.length ≤ (pick gap t cs).length := by
  induction cs generalizing t t' l
  case nil => exact Nat.le_of_eq <| congrArg List.length <| List.sublist_nil.mp hl
  case cons c cs hi =>
    have ⟨hcs, hc⟩ := List.pairwise_cons.mp hc
    rw [pick]
    cases hl
    case cons hl =>
      split
      case isFalse => exact hi hc ht hs hl
      case isTrue  =>
        cases l
        case nil => exact Nat.zero_le _
        case cons d l =>
          have hd := hcs d (hl.subset List.mem_cons_self)
          exact Nat.succ_le_succ <| hi hc (Nat.add_le_add_right hd gap) hs.right ((List.sublist_cons_self d l).trans hl)
    case cons_cons l hl =>
      rw [if_pos (Nat.le_trans ht hs.left)]
      exact Nat.succ_le_succ <| hi hc (Nat.le_refl _) hs.right hl

-- There are no more of them up to `u` than gaps fit, and one.
theorem Spaced.length_le (hs : Spaced gap t l) (hu : ∀ c ∈ l, c ≤ u) (hg : 0 < gap) (ht : t ≤ u) :
    l.length ≤ (u - t) / gap + 1 := by
  induction l generalizing t
  case nil => exact Nat.zero_le _
  case cons c l hi =>
    rw [List.length_cons]
    apply Nat.succ_le_succ
    have hc := hu c List.mem_cons_self
    rcases Nat.lt_or_ge u (c + gap) with hlt | hge
    case inl =>
      cases l
      case nil      => exact Nat.zero_le _
      case cons d l => exact absurd (hu d (.tail _ <| .head _)) (Nat.not_le_of_lt <| Nat.lt_of_lt_of_le hlt hs.right.left)
    case inr =>
      have h := hi hs.right (fun d hd => hu d (.tail _ hd)) hge
      have hd : (u - (c + gap)) / gap + 1 = (u - c) / gap := by
        rw [← Nat.add_div_right _ hg]
        congr 1
        omega
      rw [hd] at h
      exact Nat.le_trans h <| Nat.div_le_div_right <| Nat.sub_le_sub_left hs.left u

end Spacing
