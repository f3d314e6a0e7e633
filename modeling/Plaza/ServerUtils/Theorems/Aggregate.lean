import Mathlib.Algebra.BigOperators.Group.List.Basic
import Mathlib.Data.List.ReduceOption
import Plaza.Lib.Ordered
import Plaza.ServerUtils.Aggregate

namespace Plaza.ServerUtils.AggregateTree

variable {K : Type} [Field K] {points : List (WeightedPoint K)} {nodes nodes' : List (Node K)}
variable {order run rest : List (Fin points.length)} {is : List Nat} {lo lo' start k levels : Nat} {cx cy size : K}
variable {t : AggregateTree points} {sqrt : K → K} {x y theta : K}

def totalWeight (run : List (Fin points.length)) : K :=
  (run.map fun i => (points.get i).weight).sum

-- A node says of its run where it is, how long it is, and what it weighs.
structure Node.Describes (n : Node K) (start : Nat) (run : List (Fin points.length)) : Prop where
  start  : n.start = start
  len    : n.len = run.length
  weight : n.weight = totalWeight run

-- The trees at these indices have a run of the order among them, the last tree first. There are `k` nodes in them.
inductive Spans (lo : Nat) (nodes : List (Node K)) : List Nat → Nat → List (Fin points.length) → Nat → Prop
  | nil {s : Nat} : Spans lo nodes [] s [] 0
  | leaf {i s k : Nat} {n : Node K} {is : List Nat} {rest run : List (Fin points.length)} :
    (lo ≤ i) → (nodes[i]? = some n) → (n.leaf = true) → (Node.Describes n (s + rest.length) run) →
    (Spans lo nodes is s rest k) → Spans lo nodes (i :: is) s (rest ++ run) (k + 1)
  | inner {i s k l : Nat} {n : Node K} {is : List Nat} {rest run : List (Fin points.length)} :
    (lo ≤ i) → (nodes[i]? = some n) → (n.leaf = false) → (Node.Describes n (s + rest.length) run) →
    (Spans lo nodes n.children.reduceOption.reverse (s + rest.length) run l) →
    (Spans lo nodes is s rest k) → Spans lo nodes (i :: is) s (rest ++ run) (k + 1 + l)

namespace Spans

theorem mono (hl : lo' ≤ lo) (hn : ∀ {i n}, lo ≤ i → nodes[i]? = some n → nodes'[i]? = some n)
    (h : Spans lo nodes is start run k) : Spans lo' nodes' is start run k := by
  induction h
  case nil                     => exact .nil
  case leaf hi hg hf hd _ ih   => exact .leaf (hl.trans hi) (hn hi hg) hf hd ih
  case inner hi hg hf hd _ _ ihk ih => exact .inner (hl.trans hi) (hn hi hg) hf hd ihk ih

-- A tree with children on its own.
theorem node {i l : Nat} {n : Node K} (hi : lo ≤ i) (hg : nodes[i]? = some n) (hf : n.leaf = false)
    (hd : Node.Describes n start run) (hk : Spans lo nodes n.children.reduceOption.reverse start run l) :
    Spans lo nodes [i] start run (l + 1) := by
  have hs := @Spans.inner _ _ _ _ _ _ start 0 _ _ [] [] _ hi hg hf hd hk .nil
  simpa [Nat.add_comm] using hs

theorem nodes_ne_nil (h : Spans lo nodes is start run k) (hi : is ≠ []) : nodes ≠ [] := by
  rintro rfl
  cases h with
  | nil          => exact hi rfl
  | leaf _ hg    => cases hg
  | inner _ hg   => cases hg

theorem cons {c l : Nat} (h : Spans lo nodes is start rest k) (hc : Spans lo nodes [c] (start + rest.length) run l) :
    Spans lo nodes (c :: is) start (rest ++ run) (k + l) := by
  cases hc with
  | leaf hi hg hf hd ht =>
    cases ht
    simpa using Spans.leaf hi hg hf (by simpa using hd) h
  | inner hi hg hf hd hk ht =>
    cases ht
    have hs := Spans.inner hi hg hf (by simpa using hd) (by simpa using hk) h
    rw [Nat.add_assoc] at hs
    simpa using hs

end Spans

-- The summaries stand for parts of the run.
structure Accounts (t : AggregateTree points) (out : List (Summary K)) (parts : List (List (Fin points.length))) :
    Prop where
  members : out.map t.members = parts.map some
  counts  : out.map Summary.count = parts.map List.length
  weights : out.map Summary.weight = parts.map totalWeight

theorem Accounts.append {out out' : List (Summary K)} {parts parts' : List (List (Fin points.length))}
    (h : t.Accounts out parts) (h' : t.Accounts out' parts') : t.Accounts (out ++ out') (parts ++ parts') where
  members := by simp [h.members, h'.members]
  counts  := by simp [h.counts, h'.counts]
  weights := by simp [h.weights, h'.weights]

-- What the walk emits of a node that it does not go into.
def emitted (n : Node K) : List (Summary K) :=
  if n.len = 0 then [] else [Node.summary n]

theorem Accounts.emitted {n : Node K} (hd : Node.Describes n start run) (hr : run <+: t.order.drop start) :
    ∃ parts, t.Accounts (emitted n) parts ∧ parts.flatten = run := by
  have hl := hr.length_le
  rw [List.length_drop, ← hd.len] at hl
  by_cases hn : n.len = 0
  case pos =>
    have hz : run = [] := List.eq_nil_of_length_eq_zero (hd.len ▸ hn)
    exact ⟨[], by simp [AggregateTree.emitted, hn, Accounts.mk], by simp [hz]⟩
  case neg =>
    have hm : t.members (Node.summary n) = some run := by
      have hb : (Node.summary n).start + (Node.summary n).len ≤ t.order.length := by
        change n.start + n.len ≤ _
        rw [hd.start]
        omega
      rw [AggregateTree.members, if_pos hb, List.prefix_iff_eq_take.mp hr, ← hd.len, ← hd.start]
      rfl
    refine ⟨[run], ?_, by simp⟩
    rw [AggregateTree.emitted, if_neg hn]
    exact ⟨by simp [hm], by simp [Node.summary, hd.len], by simp [Node.summary, hd.weight]⟩

-- What the summaries stand for are parts of all the points, with each of them in one part and once.
structure Partitions (t : AggregateTree points) (out : List (Summary K)) (parts : List (List (Fin points.length))) :
    Prop extends t.Accounts out parts where
  perm  : parts.flatten.Perm (List.finRange points.length)
  total : (out.map Summary.weight).sum = (points.map WeightedPoint.weight).sum

theorem Accounts.partitions {out : List (Summary K)} {parts : List (List (Fin points.length))}
    (h : t.Accounts out parts) (hp : parts.flatten.Perm (List.finRange points.length)) : t.Partitions out parts where
  toAccounts := h
  perm       := hp
  total      := by
    have hf : totalWeight parts.flatten = (parts.map totalWeight).sum := by
      rw [totalWeight, List.map_flatten, List.sum_flatten, List.map_map]
      rfl
    have hw : totalWeight (List.finRange points.length) = (points.map WeightedPoint.weight).sum := by
      have hm := congrArg (List.map WeightedPoint.weight) (List.map_get_finRange points)
      rw [List.map_map] at hm
      rw [← hm]
      rfl
    rw [h.weights, ← hf, ← hw]
    exact (hp.map _).sum_eq

variable [LinearOrder K]

theorem newNode_describes : Node.Describes (newNode order start size) start order where
  start  := rfl
  len    := rfl
  weight := by simp [newNode, totalWeight, List.sum_eq_foldl, List.foldl_map]

-- A round of the walk takes a node as a whole, or puts its children in its place.
theorem walk_body {i : Nat} {n : Node K} (sqrt : K → K) (x y theta : K) (hg : t.nodes[i]? = some n) :
    (∀ stack out, (t.walk sqrt x y theta).body (i :: stack, out) = some (stack, out ++ emitted n)) ∨
    n.leaf = false ∧ ∀ stack out,
      (t.walk sqrt x y theta).body (i :: stack, out) = some (n.children.reduceOption.reverse ++ stack, out) := by
  simp only [walk, hg, bind, Option.bind_some, pure, emitted]
  by_cases hl : n.len = 0
  case pos => simp [hl]
  case neg =>
    cases hf : n.leaf
    case true => simp [hl]
    case false =>
      simp only [hl, if_false]
      split
      · exact .inl fun _ _ => rfl
      · exact .inr ⟨trivial, fun _ _ => rfl⟩

-- A walk over these trees ends after so many rounds at the most, and accounts for the run.
def Walked (t : AggregateTree points) (sqrt : K → K) (x y theta : K) (is : List Nat) (run : List (Fin points.length))
    (k : Nat) : Prop :=
  ∃ found parts, t.Accounts found parts ∧ parts.flatten.Perm run ∧ ∃ j ≤ k, ∀ rounds stack out,
    (t.walk sqrt x y theta).run (j + rounds) (is ++ stack, out) =
      (t.walk sqrt x y theta).run rounds (stack, out ++ found)

namespace Walked

variable {i l : Nat} {n : Node K}

theorem nil : t.Walked sqrt x y theta [] [] 0 := by
  refine ⟨[], [], ⟨rfl, rfl, rfl⟩, .nil, 0, le_rfl, fun rounds stack out => ?_⟩
  rw [Nat.zero_add, List.nil_append, List.append_nil]

theorem emit (hb : ∀ stack out, (t.walk sqrt x y theta).body (i :: stack, out) = some (stack, out ++ emitted n))
    (hd : Node.Describes n start run) (hr : run <+: t.order.drop start) (h : t.Walked sqrt x y theta is rest k) :
    t.Walked sqrt x y theta (i :: is) (rest ++ run) (k + 1) := by
  obtain ⟨found, parts, ha, hp, j, hj, hrun⟩ := h
  obtain ⟨parts', ha', hp'⟩ := Accounts.emitted hd hr
  refine ⟨_, _, ha'.append ha, ?_, j + 1, by omega, fun rounds stack out => ?_⟩
  · rw [List.flatten_append, hp']
    exact (hp.append_left run).trans List.perm_append_comm
  · rw [Nat.add_right_comm, List.cons_append, Loop.run_succ (hb _ _), hrun, List.append_assoc]

theorem descend (hb : ∀ stack out,
      (t.walk sqrt x y theta).body (i :: stack, out) = some (n.children.reduceOption.reverse ++ stack, out))
    (hk : t.Walked sqrt x y theta n.children.reduceOption.reverse run l) (h : t.Walked sqrt x y theta is rest k) :
    t.Walked sqrt x y theta (i :: is) (rest ++ run) (k + 1 + l) := by
  obtain ⟨found, parts, ha, hp, j, hj, hrun⟩ := h
  obtain ⟨found', parts', ha', hp', j', hj', hrun'⟩ := hk
  refine ⟨_, _, ha'.append ha, ?_, j' + j + 1, by omega, fun rounds stack out => ?_⟩
  · rw [List.flatten_append]
    exact (hp'.append hp).trans List.perm_append_comm
  · rw [Nat.add_right_comm, List.cons_append, Loop.run_succ (hb _ _), Nat.add_assoc, hrun', hrun, List.append_assoc]

end Walked

theorem Spans.walked (sqrt : K → K) (x y theta : K) (h : Spans lo t.nodes is start run k)
    (hr : run <+: t.order.drop start) : t.Walked sqrt x y theta is run k := by
  induction h
  case nil => exact .nil
  case leaf hg hf hd _ ih =>
    have hb := (walk_body sqrt x y theta hg).resolve_right fun h => by simp [hf] at h
    exact (ih (List.prefix_append _ _ |>.trans hr)).emit hb hd hr.right
  case inner k _ n is rest run _ hg hf hd _ _ ihk ih =>
    have h := ih (List.prefix_append _ _ |>.trans hr)
    cases walk_body sqrt x y theta hg
    case inr hb => exact .descend hb.right (ihk hr.right) h
    case inl hb =>
      obtain ⟨found, parts, ha, hp, j, hj, hrun⟩ := h.emit hb hd hr.right
      exact ⟨found, parts, ha, hp, j, by omega, hrun⟩

-- What building a node does: it comes first after the nodes that there are, and its tree has the run, in some order.
structure Built (nodes : List (Node K)) (order : List (Fin points.length)) (start : Nat)
    (r : List (Node K) × List (Fin points.length) × Nat) : Prop where
  index : r.snd.snd = nodes.length
  grows : nodes <+: r.fst
  perm  : r.snd.fst.Perm order
  spans : Spans nodes.length r.fst [nodes.length] start r.snd.fst (r.fst.length - nodes.length)

theorem Built.leaf : Built nodes order start (nodes ++ [newNode order start size], order, nodes.length) where
  index := rfl
  grows := List.prefix_append _ _
  perm  := .refl _
  spans := by
    have hs := @Spans.leaf _ _ _ nodes.length (nodes ++ [newNode order start size]) nodes.length start 0 _ [] [] order
      le_rfl List.getElem?_concat_length rfl newNode_describes .nil
    simpa using hs

-- The loop over the quadrants, before the one of number `q`. The order is still sorted from the offset on.
structure Splits (base : List (Node K)) (cx cy : K) (sorted : List (Fin points.length)) (start q : Nat)
    (s : Split points) : Prop where
  grows    : base <+: s.nodes
  perm     : s.order.Perm sorted
  le       : s.offset ≤ sorted.length
  tail     : s.order.drop s.offset = sorted.drop s.offset
  above    : ∀ i ∈ sorted.drop s.offset, q ≤ quadrant (points.get i) cx cy
  children : ∃ front, s.children = front ++ .replicate (4 - q) none ∧ front.length = q
  spans    : Spans base.length s.nodes s.children.reduceOption.reverse start (s.order.take s.offset)
    (s.nodes.length - base.length)

section

variable {base : List (Node K)} {sorted : List (Fin points.length)} {s : Split points} {q : Nat} {quarter : K}
variable {build : List (Node K) → List (Fin points.length) → Nat → K → K →
  List (Node K) × List (Fin points.length) × Nat}

theorem replicate_none (hq : q < 4) :
    List.replicate (4 - q) (none : Option Nat) = none :: .replicate (4 - (q + 1)) none := by
  rw [← List.replicate_succ]
  congr 1
  omega

namespace Splits

-- A child takes the next part of the order, which is `n` long.
theorem child {n : Nat} {r : List (Node K) × List (Fin points.length) × Nat} (hq : q < 4)
    (hn : n ≤ (sorted.drop s.offset).length)
    (ha : ∀ i ∈ sorted.drop (s.offset + n), q + 1 ≤ quadrant (points.get i) cx cy)
    (hb : Built s.nodes ((sorted.drop s.offset).take n) (start + s.offset) r)
    (h : Splits base cx cy sorted start q s) :
    Splits base cx cy sorted start (q + 1) {
      nodes    := r.fst
      order    := s.order.take s.offset ++ r.snd.fst ++ s.order.drop (s.offset + n)
      children := s.children.set q (some r.snd.snd)
      offset   := s.offset + n
    } := by
  have hlen := h.perm.length_eq
  have hle := h.le
  have hpart := hb.perm.length_eq
  rw [List.length_drop] at hn
  rw [List.length_take, List.length_drop] at hpart
  have htake : (s.order.take s.offset).length = s.offset := by
    rw [List.length_take]
    omega
  have hfirst : (s.order.take s.offset ++ r.snd.fst).length = s.offset + n := by
    rw [List.length_append, htake, hpart]
    omega
  obtain ⟨front, hc, hf⟩ := h.children
  constructor
  case grows => exact h.grows.trans hb.grows
  case perm =>
    refine ((hb.perm.append_left (s.order.take s.offset)).append_right (s.order.drop (s.offset + n))).trans ?_
    rw [← h.tail, List.append_assoc, ← List.drop_drop, List.take_append_drop, List.take_append_drop]
    exact h.perm
  case le =>
    simp only
    omega
  case tail =>
    simp only
    rw [← hfirst, List.drop_left, hfirst, ← List.drop_drop, h.tail, List.drop_drop]
  case above => exact ha
  case children =>
    refine ⟨front ++ [some r.snd.snd], ?_, by simp [hf]⟩
    simp only [hc]
    rw [replicate_none hq, List.set_append_right _ _ (by omega), hf, Nat.sub_self, List.set_cons_zero]
    simp
  case spans =>
    have hold := h.spans.mono le_rfl fun _ hi => hb.grows.getElem?_eq_some hi
    have hnew := hb.spans.mono h.grows.length_le fun _ hi => hi
    rw [← htake] at hnew
    have hs := hold.cons hnew
    have hk : s.nodes.length - base.length + (r.fst.length - s.nodes.length) = r.fst.length - base.length := by
      have := h.grows.length_le
      have := hb.grows.length_le
      omega
    have hred : (s.children.set q (some r.snd.snd)).reduceOption.reverse =
        s.nodes.length :: s.children.reduceOption.reverse := by
      rw [hc, replicate_none hq, List.set_append_right _ _ (by omega), hf, Nat.sub_self, List.set_cons_zero, hb.index]
      simp [List.reduceOption_append]
    simp only
    rw [← hfirst, List.take_left, hred, ← hk]
    exact hs

theorem split (quarter : K) (hq : q < 4)
    (hs : sorted.Pairwise fun i j => quadrant (points.get i) cx cy ≤ quadrant (points.get j) cx cy)
    (hb : ∀ nodes order start cx cy, Built nodes order start (build nodes order start cx cy))
    (h : Splits base cx cy sorted start q s) :
    Splits base cx cy sorted start (q + 1) (split build start cx cy quarter s q) := by
  have ha := (hs.sublist (List.drop_sublist s.offset sorted)).dropWhile_above h.above
  rw [← List.drop_length_takeWhile, List.drop_drop] at ha
  rw [AggregateTree.split, h.tail]
  split
  case isTrue => exact h.child hq (List.takeWhile_prefix _).length_le ha (hb ..)
  case isFalse hz =>
    obtain ⟨front, hc, hf⟩ := h.children
    rw [Nat.eq_zero_of_not_pos hz] at ha
    exact { h with above := ha, children := ⟨front ++ [none], by simp [hc, replicate_none hq], by simp [hf]⟩ }

-- At the start nothing is split off.
theorem begins (hn : s.nodes = base) (hc : s.children = .replicate 4 none) (hz : s.offset = 0)
    (ho : s.order = sorted) : Splits base cx cy sorted start 0 s where
  grows    := hn ▸ List.prefix_refl _
  perm     := ho ▸ .refl _
  le       := hz ▸ Nat.zero_le _
  tail     := ho ▸ rfl
  above    := fun _ _ => Nat.zero_le _
  children := ⟨[], hc, rfl⟩
  spans    := by
    rw [hc, hz, hn, Nat.sub_self, List.reduceOption_replicate_none]
    exact .nil

theorem quadrants (hs : sorted.Pairwise fun i j => quadrant (points.get i) cx cy ≤ quadrant (points.get j) cx cy)
    (hb : ∀ nodes order start cx cy, Built nodes order start (build nodes order start cx cy))
    (h : Splits base cx cy sorted start 0 s) :
    Splits base cx cy sorted start 4 ([0, 1, 2, 3].foldl (AggregateTree.split build start cx cy quarter) s) := by
  have h₁ := h.split quarter (by decide) hs hb
  have h₂ := h₁.split quarter (by decide) hs hb
  have h₃ := h₂.split quarter (by decide) hs hb
  have h₄ := h₃.split quarter (by decide) hs hb
  simpa only [List.foldl_cons, List.foldl_nil] using h₄

-- There are four quadrants, so nothing is left after them.
theorem take_offset (h : Splits base cx cy sorted start 4 s) : s.order.take s.offset = s.order := by
  have hn : s.order.drop s.offset = [] := by
    rw [h.tail, List.eq_nil_iff_forall_not_mem]
    intro i hi
    have hlt : quadrant (points.get i) cx cy < 4 := by
      rw [quadrant]
      cases decide (cx ≤ (points.get i).x) <;> cases decide (cy ≤ (points.get i).y) <;> decide
    exact absurd (h.above i hi) (by omega)
  have ht := List.take_append_drop s.offset s.order
  rwa [hn, List.append_nil] at ht

end Splits

-- The node itself comes before its children, and gets to know them last.
theorem Built.inner (hp : sorted.Perm order)
    (h : Splits (nodes ++ [newNode order start size]) cx cy sorted start 4 s) :
    Built nodes order start
      (s.nodes.modify nodes.length (Node.withChildren s.children), s.order, nodes.length) := by
  have hperm := h.perm.trans hp
  have hg : s.nodes[nodes.length]? = some (newNode order start size) :=
    h.grows.getElem?_eq_some List.getElem?_concat_length
  have hlen := h.grows.length_le
  rw [List.length_append, List.length_singleton] at hlen
  constructor
  case index => rfl
  case grows =>
    rw [List.prefix_iff_getElem?]
    intro i hi
    simp only
    rw [List.getElem?_modify_ne _ _ (by omega)]
    exact h.grows.getElem?_eq_some (List.getElem?_append_left hi ▸ List.getElem?_eq_getElem hi)
  case perm => exact hperm
  case spans =>
    have hw : totalWeight s.order = totalWeight order := (hperm.map _).sum_eq
    have hn : Node.Describes (newNode order start size) start order := newNode_describes
    have hd : Node.Describes (Node.withChildren s.children (newNode order start size)) start s.order := {
      start  := hn.start
      len    := hn.len.trans hperm.length_eq.symm
      weight := hn.weight.trans hw.symm
    }
    have hm := List.getElem?_modify_eq (Node.withChildren s.children) nodes.length s.nodes
    rw [hg] at hm
    have hk : Spans (nodes.length + 1) (s.nodes.modify nodes.length (Node.withChildren s.children))
        s.children.reduceOption.reverse start s.order (s.nodes.length - (nodes.length + 1)) := by
      have hk := h.spans
      rw [h.take_offset, List.length_append, List.length_singleton] at hk
      exact hk.mono le_rfl fun {i _} hi hn => (List.getElem?_modify_ne _ _ (by omega : nodes.length ≠ i)).trans hn
    have hs := Spans.node le_rfl hm rfl hd (hk.mono (Nat.le_succ _) fun _ hn => hn)
    rw [show s.nodes.length - (nodes.length + 1) + 1 = s.nodes.length - nodes.length by omega] at hs
    simpa using hs

end

theorem buildNode_built (sort : UnstableSort (Fin points.length)) (levels : Nat) (nodes : List (Node K))
    (order : List (Fin points.length)) (start : Nat) (cx cy size : K) :
    Built nodes order start (buildNode sort levels nodes order start cx cy size) := by
  induction levels generalizing nodes order start cx cy size
  case zero => exact .leaf
  case succ levels ih =>
    rw [buildNode]
    simp only
    split
    case isTrue => exact .leaf
    case isFalse =>
      have hp := sort.perm (fun i => quadrant (points.get i) cx cy) order
      refine @Built.inner _ _ _ _ _ _ cx cy size _ _ _ hp ?_
      exact .quadrants (sort.sorted _ order) (fun _ _ _ _ _ => ih ..) (.begins rfl rfl rfl rfl)

theorem buildIn_partitions (sort : UnstableSort (Fin points.length)) (maxDepth : Nat) (center : K × K) (size : K)
    (sqrt : K → K) (x y theta : K) :
    ∃ out parts, (buildIn points sort center size maxDepth).summarize sqrt x y theta = some out ∧
      (buildIn points sort center size maxDepth).Partitions out parts := by
  rw [buildIn]
  split
  case isTrue h =>
    obtain rfl := List.isEmpty_iff.mp h
    exact ⟨[], [], rfl, Accounts.partitions ⟨rfl, rfl, rfl⟩ (.refl [])⟩
  case isFalse =>
    have hb := buildNode_built sort maxDepth [] (List.finRange points.length) 0 center.fst center.snd (max size 1)
    set r := buildNode sort maxDepth [] (List.finRange points.length) 0 center.fst center.snd (max size 1)
    have hs := hb.spans
    rw [List.length_nil, Nat.sub_zero] at hs
    have hne := hs.nodes_ne_nil (List.cons_ne_nil _ _)
    let t : AggregateTree points := ⟨r.fst, r.snd.fst⟩
    have hw : t.Walked sqrt x y theta [0] r.snd.fst r.fst.length := hs.walked sqrt x y theta (List.prefix_refl _)
    obtain ⟨found, parts, ha, hp, j, hj, hrun⟩ := hw
    refine ⟨found, parts, ?_, ha.partitions (hp.trans hb.perm)⟩
    have hrun := hrun (r.fst.length - j) [] []
    have hend : (t.walk sqrt x y theta).run (r.fst.length - j) ([], found) = ([], found) := Loop.run_of_left rfl
    rw [Nat.add_sub_cancel' hj, List.nil_append, List.append_nil, hend] at hrun
    have hi : t.nodes.isEmpty = false := List.isEmpty_eq_false_iff.mpr hne
    change t.summarize sqrt x y theta = some found
    rw [summarize, hi, if_neg Bool.false_ne_true, hrun]

-- Every walk over every tree partitions the points.
theorem summaries_partition (points : List (WeightedPoint K)) (sort : UnstableSort (Fin points.length)) (maxDepth : Nat)
    (sqrt : K → K) (x y theta : K) :
    (∃ out parts, (build points sort maxDepth).summarize sqrt x y theta = some out ∧
      (build points sort maxDepth).Partitions out parts) ∧
    ∀ center size, ∃ out parts, (buildIn points sort center size maxDepth).summarize sqrt x y theta = some out ∧
      (buildIn points sort center size maxDepth).Partitions out parts :=
  ⟨buildIn_partitions .., fun _ _ => buildIn_partitions ..⟩

end Plaza.ServerUtils.AggregateTree
