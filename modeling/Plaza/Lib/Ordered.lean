import Mathlib.Data.List.DropRight
import Mathlib.Data.List.Infix
import Mathlib.Data.List.InsertIdx
import Mathlib.Data.List.Pairwise
import Mathlib.Data.List.Perm.Basic
import Mathlib.Order.Compare
import Mathlib.Order.Lattice

-- The last elements of a list, which are what a buffer keeps that is cut down after every push.
namespace List

variable {α : Type*} {l : List α} {a b : α} {k : Nat}

theorem rtake_cons_of_le (h : k ≤ l.length) : (a :: l).rtake k = l.rtake k := by
  rw [rtake, rtake, length_cons, Nat.succ_sub h, drop_succ_cons]

theorem map_rtake {β : Type*} {f : α → β} : (l.rtake k).map f = (l.map f).rtake k := by
  rw [rtake, rtake, map_drop, length_map]

theorem getLast?_rtake (hk : 0 < k) : (l.rtake k).getLast? = l.getLast? := by
  rw [rtake, getLast?_drop]
  split
  case isTrue h  => rw [length_eq_zero_iff.mp (by omega : l.length = 0), getLast?_nil]
  case isFalse h => rfl

theorem rtake_rtake_concat (hk : 0 < k) : (l.rtake k ++ [a]).rtake k = (l ++ [a]).rtake k := by
  obtain ⟨k, rfl⟩ := Nat.exists_eq_succ_of_ne_zero hk.ne'
  rw [rtake_concat_succ, rtake_concat_succ, rtake, rtake, rtake, drop_drop]
  congr 2
  rw [length_drop]
  omega

-- A buffer may also make room first.
theorem tail_rtake_concat (hk : 0 < k) :
    (if (l.rtake k).length = k then (l.rtake k).tail else l.rtake k) ++ [a] = (l ++ [a]).rtake k := by
  obtain ⟨m, rfl⟩ := Nat.exists_eq_add_of_le' hk
  rw [rtake_concat_succ]
  simp only [rtake, length_drop, tail_drop, append_cancel_right_eq]
  split
  · congr 1
    omega
  · rw [show l.length - (m + 1) = l.length - m by omega]

theorem Pairwise.rel_of_getLast? {r : α → α → Prop} (hl : l.Pairwise r) (hb : l.getLast? = some b) (ha : a ∈ l) :
    a = b ∨ r a b := by
  obtain ⟨init, rfl⟩ := getLast?_eq_some_iff.mp hb
  cases mem_append.mp ha
  case inl ha => exact .inr <| (pairwise_append.mp hl).right.right a ha b (mem_singleton_self b)
  case inr ha => exact .inl (mem_singleton.mp ha)

end List

-- Lists whose entries are related one by one.
namespace List.Forall₂

variable {α β : Type*} {R : α → β → Prop} {l : List α} {u v : List β} {a : α} {b : β} {k : Nat}

theorem rel_of_getElem? (h : Forall₂ R l u) (ha : l[k]? = some a) (hb : u[k]? = some b) : R a b := by
  obtain ⟨hk, rfl⟩ := getElem?_eq_some_iff.mp ha
  obtain ⟨hk', rfl⟩ := getElem?_eq_some_iff.mp hb
  exact (forall₂_iff_get.mp h).right k hk hk'

theorem exists_of_mem_right (h : Forall₂ R l u) (hb : b ∈ u) : ∃ a ∈ l, R a b := by
  obtain ⟨k, hk, rfl⟩ := getElem_of_mem hb
  have hl : k < l.length := h.length_eq ▸ hk
  exact ⟨l[k], getElem_mem hl, (forall₂_iff_get.mp h).right k hl hk⟩

-- Whatever order one of them is brought into, the other one can follow.
theorem exists_perm (h : Forall₂ R l u) (hp : u.Perm v) : ∃ l', l.Perm l' ∧ Forall₂ R l' v :=
  have h : Relation.Comp (Forall₂ R) Perm l v := ⟨u, h, hp⟩
  forall₂_comp_perm_eq_perm_comp_forall₂.subst (motive := (· l v)) h

theorem split {u₁ u₂ : List β} (h : Forall₂ R l (u₁ ++ u₂)) :
    ∃ l₁ l₂, l = l₁ ++ l₂ ∧ Forall₂ R l₁ u₁ ∧ Forall₂ R l₂ u₂ :=
  ⟨_, _, (take_append_drop u₁.length l).symm, forall₂_take_append _ _ _ h, forall₂_drop_append _ _ _ h⟩

end List.Forall₂

-- Lists which are kept in order: by inserting before the first element that comes later, or by sorting.
namespace List

variable {α : Type*} {r : α → α → Prop} [DecidableRel r] {l : List α} {a b : α}

def insertBefore (r : α → α → Prop) [DecidableRel r] (a : α) (l : List α) : List α :=
  l.insertIdx (l.findIdx (r a ·)) a

theorem insertBefore_cons :
    insertBefore r a (b :: l) = if r a b then a :: b :: l else b :: insertBefore r a l := by
  by_cases h : r a b <;> simp [insertBefore, findIdx_cons, h]

theorem insertBefore_perm : (insertBefore r a l).Perm (a :: l) := by
  induction l
  case nil          => rfl
  case cons b l ih =>
    rw [insertBefore_cons]
    split
    case isTrue  => rfl
    case isFalse => exact (ih.cons b).trans (.swap a b l)

-- For an order that holds between `a` and what it is inserted before, and between what comes earlier and `a`.
theorem Pairwise.insertBefore_of {o : α → α → Prop} (hl : l.Pairwise o) (hb : ∀ b ∈ l, r a b → o a b)
    (hn : ∀ b ∈ l, ¬r a b → o b a) (ht : ∀ {b c}, r a b → o b c → o a c) : (l.insertBefore r a).Pairwise o := by
  induction l
  case nil          => exact pairwise_singleton ..
  case cons b l ih =>
    have ⟨ho, hl⟩ := pairwise_cons.mp hl
    rw [insertBefore_cons]
    split
    case isTrue h =>
      refine pairwise_cons.mpr ⟨fun c hc => ?_, pairwise_cons.mpr ⟨ho, hl⟩⟩
      cases hc
      case head      => exact hb b (.head _) h
      case tail _ hc => exact ht h (ho c hc)
    case isFalse h =>
      refine pairwise_cons.mpr ⟨fun c hc => ?_, ih hl (fun c hc => hb c (.tail _ hc)) fun c hc => hn c (.tail _ hc)⟩
      cases insertBefore_perm.mem_iff.mp hc
      case head      => exact hn b (.head _) h
      case tail _ hc => exact ho c hc

theorem Pairwise.insertBefore (ht : ∀ {a b c}, r a b → r b c → r a c) (hl : l.Pairwise r)
    (ha : ∀ b ∈ l, r a b ∨ r b a) : (l.insertBefore r a).Pairwise r :=
  hl.insertBefore_of (fun _ _ => id) (fun b hb => (ha b hb).resolve_left) ht

-- Inserting keeps what no later element precedes an earlier one, whatever it compares alike.
theorem Pairwise.insertBefore_of_not (hn : ∀ {a b}, r a b → ¬r b a) (ht : ∀ {a b c}, r a b → ¬r c b → ¬r c a)
    (hl : l.Pairwise fun a b => ¬r b a) : (l.insertBefore r a).Pairwise fun a b => ¬r b a :=
  hl.insertBefore_of (fun _ _ => hn) (fun _ _ => id) ht

-- Of a list in order, the last `k` with one more among them are the last `k` of everything.
theorem Pairwise.rtake_insertBefore_rtake_of {o : α → α → Prop} {k : Nat} (hl : l.Pairwise o)
    (ht : ∀ {b c}, r a b → o b c → r a c) : ((l.rtake k).insertBefore r a).rtake k = (l.insertBefore r a).rtake k := by
  induction l
  case nil => rw [rtake_nil]
  case cons b l ih =>
    have ⟨hb, hs⟩ := pairwise_cons.mp hl
    by_cases hk : k ≤ l.length
    case neg =>
      have hd : (b :: l).rtake k = b :: l := by
        rw [rtake, length_cons, Nat.sub_eq_zero_of_le (by omega), drop_zero]
      rw [hd]
    case pos =>
      rw [rtake_cons_of_le hk, ih hs, insertBefore_cons]
      split
      case isFalse =>
        rw [rtake_cons_of_le]
        rw [insertBefore_perm.length_eq, length_cons]
        omega
      case isTrue h =>
        -- What comes before `b` comes before all of the list.
        have hi : l.insertBefore r a = a :: l := by
          cases l
          case nil      => rfl
          case cons c _ => rw [insertBefore_cons, if_pos (ht h (hb c mem_cons_self))]
        rw [hi, rtake_cons_of_le hk, rtake_cons_of_le (Nat.le_succ_of_le hk), rtake_cons_of_le hk]

theorem Pairwise.rtake_insertBefore_rtake {k : Nat} (hl : l.Pairwise r) (ht : ∀ {a b c}, r a b → r b c → r a c) :
    ((l.rtake k).insertBefore r a).rtake k = (l.insertBefore r a).rtake k :=
  hl.rtake_insertBefore_rtake_of ht

theorem map_insertBefore {β : Type*} {f : β → α} {l : List β} {a : β} :
    (l.insertBefore (fun a b => r (f a) (f b)) a).map f = (l.map f).insertBefore r (f a) := by
  induction l
  case nil         => rfl
  case cons b l ih =>
    rw [map_cons, insertBefore_cons, insertBefore_cons]
    split
    case isTrue  => rfl
    case isFalse => rw [map_cons, ih]

-- What comes last is the later of `a` and what came last.
theorem Pairwise.getLast?_insertBefore (hl : l.Pairwise r) (ht : ∀ {a b c}, r a b → r b c → r a c) :
    (l.insertBefore r a).getLast? = if l.getLast?.any (r a ·) then l.getLast? else some a := by
  induction l
  case nil => rfl
  case cons b l ih =>
    have ⟨hb, hs⟩ := pairwise_cons.mp hl
    cases hn : l.getLast?
    case none =>
      rw [getLast?_eq_none_iff.mp hn, insertBefore_cons]
      split
      case isTrue h  => simp [h]
      case isFalse h =>
        rw [getLast?_singleton, Option.any_some, if_neg (by simpa using h)]
        rfl
    case some last =>
      have hc {c} : (c :: l).getLast? = some last := by rw [getLast?_cons, hn, Option.getD_some]
      rw [hc, insertBefore_cons]
      split
      case isTrue h =>
        have hr : r a last := ht h <| hb last <| mem_of_getLast? hn
        rw [getLast?_cons_cons, hc, Option.any_some, if_pos (decide_eq_true hr)]
      case isFalse =>
        rw [getLast?_cons, ih hs, hn]
        split <;> rfl

omit [DecidableRel r] in
theorem Pairwise.rel_or_rel (hl : l.Pairwise r) (ha : a ∈ l) (hb : b ∈ l) (hn : a ≠ b) : r a b ∨ r b a := by
  have : Std.Symm fun a b => r a b ∨ r b a := ⟨fun _ _ => Or.symm⟩
  have hl : l.Pairwise fun a b => r a b ∨ r b a := hl.imp Or.inl
  exact hl.forall ha hb hn

variable {p : α → Bool} {le : α → α → Bool}

omit [DecidableRel r] in
-- A stable sort orders by `r` whatever it compares alike, if that is in this order before.
theorem Pairwise.mergeSort (ht : ∀ a b c, le a b → le b c → le a c) (hl : ∀ a b, le a b || le b a)
    (h : l.Pairwise fun a b => if le a b then r a b else r b a) : (l.mergeSort le).Pairwise r := by
  induction l
  case nil => simp
  case cons a l ih =>
    have ⟨ha, h⟩ := pairwise_cons.mp h
    obtain ⟨l₁, l₂, hs, hs', hn⟩ := mergeSort_cons ht hl a l
    have hp := pairwise_append.mp (hs' ▸ ih h)
    have hm {b} (h : b ∈ l₁ ++ l₂) : b ∈ l := mem_mergeSort.mp (hs' ▸ h)
    have ho := (pairwise_append.mp (hs ▸ pairwise_mergeSort ht hl (a :: l))).right.left
    rw [hs]
    refine pairwise_append.mpr ⟨hp.left, pairwise_cons.mpr ⟨fun b hb => ?_, hp.right.left⟩, fun b hb c hc => ?_⟩
    case refine_1 =>
      have := ha b <| hm <| mem_append_right _ hb
      rwa [if_pos ((pairwise_cons.mp ho).left b hb)] at this
    case refine_2 =>
      cases hc
      case head      =>
        have := ha b <| hm <| mem_append_left _ ‹_›
        rwa [if_neg (by simpa using hn b ‹_›)] at this
      case tail _ hc => exact hp.right.right b ‹_› c hc

omit [DecidableRel r] in
-- What bears different words is sorted strictly by them.
theorem pairwise_mergeSort_of_nodup {w : Nat} {f : α → BitVec w} (h : (l.map f).Nodup) :
    (l.mergeSort fun a b => f a ≤ f b).Pairwise fun a b => f a < f b := by
  have hs : (l.mergeSort fun a b => f a ≤ f b).Pairwise fun a b => decide (f a ≤ f b) := by
    apply pairwise_mergeSort
    case trans => simpa using fun _ _ _ => BitVec.le_trans
    case total => simpa using fun _ _ => BitVec.le_total _ _
  have hn : (l.mergeSort fun a b => f a ≤ f b).Pairwise fun a b => f a ≠ f b :=
    (mergeSort_perm ..).pairwise_iff Ne.symm |>.mpr <| pairwise_map.mp h
  exact (hs.and hn).imp fun h => BitVec.lt_of_le_ne (of_decide_eq_true h.left) h.right

-- Taking from the front takes all if nothing to take is behind something to keep, and only then.
theorem dropWhile_eq_filter_iff : l.dropWhile p = l.filter (!p ·) ↔ l.Pairwise fun a b => p b → p a := by
  induction l
  case nil => simp
  case cons a l hi =>
    cases h : p a
    case true  => simp [h, hi]
    case false =>
      simp only [h, Bool.false_eq_true, not_false_eq_true, dropWhile_cons_of_neg, Bool.not_false,
        filter_cons_of_pos, cons.injEq, true_and, pairwise_cons, imp_false]
      rw [eq_comm, filter_eq_self]
      constructor
      case mp =>
        intro hn
        have hn : ∀ b ∈ l, ¬p b := fun b hb => by simpa using hn b hb
        exact ⟨hn, pairwise_of_forall_mem_list fun _ _ b hb hp => absurd hp (hn b hb)⟩
      case mpr => exact fun ⟨hn, _⟩ b hb => by simpa using hn b hb

theorem takeWhile_eq_filter (h : l.Pairwise fun a b => p b → p a) : l.takeWhile p = l.filter p := by
  induction l
  case nil => rfl
  case cons a l hi =>
    have ⟨ha, hl⟩ := pairwise_cons.mp h
    cases hp : p a
    case true  => simp [hp, hi hl]
    case false =>
      have : ∀ b ∈ l, ¬p b := fun b hb hpb => by simp [ha b hb hpb] at hp
      simpa [hp] using this

omit [DecidableRel r] in
-- Nothing to take is behind the front then.
theorem Pairwise.not_of_length_takeWhile_le {k : Nat} (h : l.Pairwise fun a b => p b → p a)
    (hk : (l.takeWhile p).length ≤ k) (ha : l[k]? = some a) : ¬p a := by
  rw [← takeWhile_append_dropWhile (p := p) (l := l), getElem?_append_right hk,
    dropWhile_eq_filter_iff.mpr h] at ha
  simpa using (mem_filter.mp (mem_of_getElem? ha)).right

end List

-- Stable sorts by a key, which leave the elements of one key in their order. There is only one way to do so.
namespace List

variable {α κ : Type*} [LinearOrder κ] {key : α → κ} {k : κ} {l l' : List α}

theorem eq_of_filter_key_eq (hl : l.Pairwise (key · ≤ key ·)) (hl' : l'.Pairwise (key · ≤ key ·))
    (h : ∀ k, l.filter (key · = k) = l'.filter (key · = k)) : l = l' := by
  have hm {l l' : List α} (h : ∀ k, l.filter (key · = k) = l'.filter (key · = k)) {a} (ha : a ∈ l) : a ∈ l' :=
    mem_of_mem_filter (h (key a) ▸ mem_filter.mpr ⟨ha, decide_eq_true rfl⟩)
  induction l generalizing l'
  case nil =>
    cases l'
    case nil    => rfl
    case cons b => exact absurd (hm (fun k => (h k).symm) mem_cons_self) not_mem_nil
  case cons a l ih =>
    cases l'
    case nil       => exact absurd (hm h mem_cons_self) not_mem_nil
    case cons b l' =>
      have ⟨ha, hl⟩ := pairwise_cons.mp hl
      have ⟨hb, hl'⟩ := pairwise_cons.mp hl'
      have hle : key b ≤ key a := (mem_cons.mp (hm h mem_cons_self)).elim (fun h => h ▸ le_rfl) (hb a)
      have hge : key a ≤ key b :=
        (mem_cons.mp (hm (fun k => (h k).symm) mem_cons_self)).elim (fun h => h ▸ le_rfl) (ha b)
      have hk := le_antisymm hge hle
      have he := h (key a)
      rw [filter_cons_of_pos (by simp), filter_cons_of_pos (by simp [hk])] at he
      obtain ⟨hab, he⟩ := cons.inj he
      rw [← hab, ih hl hl' fun k => ?_]
      by_cases hk : key a = k
      case pos => exact hk ▸ he
      case neg => simpa [hk, ← hab] using h k

theorem pairwise_mergeSort_key : (l.mergeSort (key · ≤ key ·)).Pairwise (key · ≤ key ·) := by
  have h : (l.mergeSort (key · ≤ key ·)).Pairwise fun a b => decide (key a ≤ key b) := by
    apply pairwise_mergeSort
    case trans => simpa using fun _ _ _ => le_trans
    case total => simpa using fun _ _ => le_total _ _
  exact h.imp of_decide_eq_true

theorem filter_key_mergeSort : (l.mergeSort (key · ≤ key ·)).filter (key · = k) = l.filter (key · = k) := by
  have hs : (l.filter (key · = k)).Sublist (l.mergeSort (key · ≤ key ·)) := by
    refine sublist_mergeSort ?trans ?total ?sorted filter_sublist
    case trans  => simpa using fun _ _ _ => le_trans
    case total  => simpa using fun _ _ => le_total _ _
    case sorted => exact pairwise_filter.mpr <| pairwise_of_forall fun a b => by simp +contextual
  have hs := hs.filter (key · = k)
  simp only [filter_filter, Bool.and_self] at hs
  exact (hs.eq_of_length ((mergeSort_perm ..).symm.filter _).length_eq).symm

theorem filter_key_merge (hl : l.Pairwise (key · ≤ key ·)) (hl' : l'.Pairwise (key · ≤ key ·)) :
    (l.merge l' (key · ≤ key ·)).filter (key · = k) = l.filter (key · = k) ++ l'.filter (key · = k) := by
  induction l generalizing l'
  case nil => simp
  case cons a l ih =>
    induction l'
    case nil => simp
    case cons b l' ih' =>
      rw [cons_merge_cons]
      split
      case isTrue =>
        rw [filter_cons (x := a), filter_cons (x := a), ih (pairwise_cons.mp hl).right hl']
        split <;> rfl
      case isFalse hn =>
        rw [filter_cons (x := b), filter_cons (x := b), ih' (pairwise_cons.mp hl').right]
        split
        case isFalse => rfl
        case isTrue hk =>
          -- Whatever of the one list comes later has a greater key.
          have hb : key b < key a := by simpa using hn
          have hn : ∀ c ∈ a :: l, ¬decide (key c = k) := by
            intro c hc
            have hc : key a ≤ key c := (mem_cons.mp hc).elim (fun h => h ▸ le_rfl) ((pairwise_cons.mp hl).left c)
            simpa [← of_decide_eq_true hk] using (hb.trans_le hc).ne'
          rw [filter_eq_nil_iff.mpr hn, nil_append, nil_append]

theorem pairwise_merge_key (hl : l.Pairwise (key · ≤ key ·)) (hl' : l'.Pairwise (key · ≤ key ·)) :
    (l.merge l' (key · ≤ key ·)).Pairwise (key · ≤ key ·) := by
  have h : (l.merge l' (key · ≤ key ·)).Pairwise fun a b => decide (key a ≤ key b) := by
    refine pairwise_merge ?trans ?total _ _ (hl.imp decide_eq_true) (hl'.imp decide_eq_true)
    case trans => simpa using fun _ _ _ => le_trans
    case total => simpa using fun _ _ => le_total _ _
  exact h.imp of_decide_eq_true

theorem merge_mergeSort : (l.mergeSort (key · ≤ key ·)).merge (l'.mergeSort (key · ≤ key ·)) (key · ≤ key ·) =
    (l ++ l').mergeSort (key · ≤ key ·) := by
  have hl : (l.mergeSort (key · ≤ key ·)).Pairwise (key · ≤ key ·) := pairwise_mergeSort_key
  have hl' : (l'.mergeSort (key · ≤ key ·)).Pairwise (key · ≤ key ·) := pairwise_mergeSort_key
  refine eq_of_filter_key_eq (pairwise_merge_key hl hl') pairwise_mergeSort_key fun k => ?_
  rw [filter_key_merge hl hl', filter_key_mergeSort, filter_key_mergeSort, filter_key_mergeSort, filter_append]

end List

-- Lists which are cut into contiguous runs.
namespace List

variable {α : Type*} {l l' run rest : List α} {a : α} {i start : Nat}

theorem IsPrefix.getElem?_eq_some (h : l <+: l') (hi : l[i]? = some a) : l'[i]? = some a := by
  obtain ⟨tail, rfl⟩ := h
  rw [getElem?_append_left (getElem?_eq_some_iff.mp hi).choose, hi]

-- The second of two runs comes after the first.
theorem IsPrefix.right (h : rest ++ run <+: l.drop start) : run <+: l.drop (start + rest.length) := by
  obtain ⟨tail, ht⟩ := h
  refine ⟨tail, ?_⟩
  rw [← drop_drop, ← ht, append_assoc, drop_left]

theorem drop_length_takeWhile {p : α → Bool} : l.drop (l.takeWhile p).length = l.dropWhile p := by
  calc l.drop (l.takeWhile p).length
    _ = (l.takeWhile p ++ l.dropWhile p).drop (l.takeWhile p).length := by rw [takeWhile_append_dropWhile]
    _ = l.dropWhile p                                                := drop_left

-- In a list which is sorted by a key, nothing comes after the run of the lowest key that has this key.
theorem Pairwise.dropWhile_above {key : α → Nat} {k : Nat} (hs : l.Pairwise fun a b => key a ≤ key b)
    (ha : ∀ a ∈ l, k ≤ key a) : ∀ a ∈ l.dropWhile (key · = k), k + 1 ≤ key a := by
  induction l
  case nil => simp
  case cons b l ih =>
    rw [dropWhile_cons]
    obtain ⟨hb, hl⟩ := pairwise_cons.mp hs
    split
    case isTrue => exact ih hl fun a hal => ha a (mem_cons_of_mem _ hal)
    case isFalse hn =>
      have hlt : k < key b := lt_of_le_of_ne (ha b mem_cons_self) fun h => hn (by simp [h])
      intro a hal
      cases mem_cons.mp hal
      case inl h => exact h ▸ hlt
      case inr h => exact hlt.trans_le (hb a h)

end List

-- Priority queues, of which nothing is said but that they hand out a greatest element. Such a queue is the list
-- of its elements in any order. Which of the greatest comes next is up to whoever picks its place.
namespace Heap

variable {α : Type*} [Ord α] {h h' l : List α} {a b : α} {i : Nat}

def pop (h : List α) (i : Nat) : Option (α × List α) := do
  let a ← h[i]?
  if h.all (compare · a |>.isLE) then some (a, h.eraseIdx i) else none

theorem pop_perm (hp : pop h i = some (a, h')) : h.Perm (a :: h') := by
  simp only [pop, Option.bind_eq_bind, Option.bind_eq_some_iff, Option.ite_none_right_eq_some,
    Option.some.injEq, Prod.mk.injEq] at hp
  have ⟨_, hi, _, ha, he⟩ := hp
  have ⟨hl, hg⟩ := List.getElem?_eq_some_iff.mp hi
  rw [← he, ← ha, ← hg]
  exact (List.getElem_cons_eraseIdx_perm hl).symm

theorem pop_greatest (hp : pop h i = some (a, h')) (hb : b ∈ h) : (compare b a).isLE := by
  simp only [pop, Option.bind_eq_bind, Option.bind_eq_some_iff, Option.ite_none_right_eq_some,
    Option.some.injEq, Prod.mk.injEq] at hp
  have ⟨_, _, hg, ha, _⟩ := hp
  exact ha ▸ List.all_eq_true.mp hg b hb

-- Each of the greatest can come next.
theorem exists_pop (hp : h.Perm (a :: l)) (hg : ∀ b ∈ h, (compare b a).isLE) :
    ∃ i h', pop h i = some (a, h') ∧ h'.Perm l := by
  have ⟨i, hl, hi⟩ := List.mem_iff_getElem.mp <| hp.mem_iff.mpr <| List.mem_cons_self
  refine ⟨i, h.eraseIdx i, ?_, ?_⟩
  case refine_1 =>
    rw [pop, List.getElem?_eq_getElem hl, hi, Option.bind_eq_bind, Option.bind_some,
      if_pos (List.all_eq_true.mpr hg)]
  case refine_2 =>
    have := (List.getElem_cons_eraseIdx_perm hl).trans hp
    exact (hi ▸ this).cons_inv

end Heap
