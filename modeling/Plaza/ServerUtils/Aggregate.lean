import Mathlib.Algebra.Order.Field.Basic
import Plaza.Lib.Execution

namespace Plaza.ServerUtils

structure WeightedPoint (K : Type) where
  x      : K
  y      : K
  weight : K

-- What a walk emits: an input point, or a stand-in for a group of them.
structure Summary (K : Type) where
  x      : K
  y      : K
  weight : K
  count  : Nat
  size   : K
  start  : Nat
  len    : Nat

-- A child which a node does not have is `none`.
structure Node (K : Type) where
  comX     : K
  comY     : K
  weight   : K
  size     : K
  start    : Nat
  len      : Nat
  children : List (Option Nat)
  leaf     : Bool

-- A sort of which it is only known that it permutes, and that it sorts by the keys. It need not be stable.
structure UnstableSort (ι : Type) where
  byKey  : (ι → Nat) → List ι → List ι
  perm   : ∀ key l, (byKey key l).Perm l
  sorted : ∀ key l, (byKey key l).Pairwise fun i j => key i ≤ key j

instance {ι : Type} : Inhabited (UnstableSort ι) where
  default := {
    byKey  := fun key l => l.mergeSort (key · ≤ key ·)
    perm   := fun _ _ => List.mergeSort_perm ..
    sorted := fun key l => by
      have h := @List.pairwise_mergeSort _ (fun i j => decide (key i ≤ key j)) (fun _ _ _ hi hj => ?_) (fun i j => ?_) l
      · exact h.imp of_decide_eq_true
      · exact decide_eq_true ((of_decide_eq_true hi).trans (of_decide_eq_true hj))
      · simpa using le_total (key i) (key j)
  }

variable {K : Type} [Field K] [LinearOrder K]

def quadrant (p : WeightedPoint K) (cx cy : K) : Nat :=
  (decide (cx ≤ p.x)).toNat ||| (decide (cy ≤ p.y)).toNat <<< 1

-- A quadtree of weighted points. Its order lists their indices, none of which is out of bounds.
structure AggregateTree (points : List (WeightedPoint K)) where
  nodes : List (Node K)
  order : List (Fin points.length)

namespace AggregateTree

variable {points : List (WeightedPoint K)}

-- The node for a run of the order while it has no children.
def newNode (order : List (Fin points.length)) (start : Nat) (size : K) : Node K :=
  let weight := order.foldl (fun weight i => weight + (points.get i).weight) 0
  let wx := order.foldl (fun wx i => wx + (points.get i).x * (points.get i).weight) 0
  let wy := order.foldl (fun wy i => wy + (points.get i).y * (points.get i).weight) 0
  let (comX, comY) :=
    if 1 / 2 ^ 23 < |weight| then
      (wx / weight, wy / weight)
    else
      let n : K := (max order.length 1 : Nat)
      ((order.map fun i => (points.get i).x).sum / n, (order.map fun i => (points.get i).y).sum / n)
  { comX, comY, weight, size, start, len := order.length, children := .replicate 4 none, leaf := true }

def Node.withChildren (children : List (Option Nat)) (n : Node K) : Node K :=
  { n with children, leaf := false }

-- What the loop over the quadrants changes.
structure Split (points : List (WeightedPoint K)) where
  nodes    : List (Node K)
  order    : List (Fin points.length)
  children : List (Option Nat)
  offset   : Nat

-- Each child gets the run of its quadrant, which it may order anew. The child is built by `build`.
def split (build : List (Node K) → List (Fin points.length) → Nat → K → K →
      List (Node K) × List (Fin points.length) × Nat)
    (start : Nat) (cx cy quarter : K) (s : Split points) (q : Nat) : Split points :=
  let run := (s.order.drop s.offset).takeWhile (fun i => quadrant (points.get i) cx cy = q) |>.length
  if run > 0 then
    let (ox, oy) := (q &&& 1, q >>> 1)
    let childCx := cx + if ox = 1 then quarter else -quarter
    let childCy := cy + if oy = 1 then quarter else -quarter
    let (nodes, part, child) := build s.nodes ((s.order.drop s.offset).take run) (start + s.offset) childCx childCy
    {
      nodes    := nodes
      order    := s.order.take s.offset ++ part ++ s.order.drop (s.offset + run)
      children := s.children.set q (some child)
      offset   := s.offset + run
    }
  else
    s

-- Builds a node over its run of the order, and answers its index. The levels are those left above the depth limit.
def buildNode (sort : UnstableSort (Fin points.length)) (levels : Nat) (nodes : List (Node K))
    (order : List (Fin points.length)) (start : Nat) (cx cy size : K) :
    List (Node K) × List (Fin points.length) × Nat :=
  let index := nodes.length
  let nodes := nodes ++ [newNode order start size]
  match levels with
  | 0          => (nodes, order, index)
  | levels + 1 =>
    if order.length ≤ 1 then
      (nodes, order, index)
    else
      let order := sort.byKey (fun i => quadrant (points.get i) cx cy) order
      let build nodes order start cx cy := buildNode sort levels nodes order start cx cy (size * (1 / 2))
      let quarter := size * (1 / (4 : Nat))
      let s := [0, 1, 2, 3].foldl (split build start cx cy quarter) ⟨nodes, order, .replicate 4 none, 0⟩
      (s.nodes.modify index (Node.withChildren s.children), s.order, index)

variable (points)

def buildIn (sort : UnstableSort (Fin points.length)) (center : K × K) (size : K) (maxDepth : Nat) :
    AggregateTree points :=
  if points.isEmpty then
    { nodes := [], order := [] }
  else
    let (nodes, order, _) :=
      buildNode sort maxDepth [] (List.finRange points.length) 0 center.fst center.snd (max size 1)
    { nodes, order }

-- The largest number of the source.
def maxNumber : K :=
  (2 ^ 24 - 1) * 2 ^ 104

def build (sort : UnstableSort (Fin points.length)) (maxDepth : Nat) : AggregateTree points :=
  let minX := points.foldl (fun m p => min m p.x) maxNumber
  let minY := points.foldl (fun m p => min m p.y) maxNumber
  let maxX := points.foldl (fun m p => max m p.x) (-maxNumber)
  let maxY := points.foldl (fun m p => max m p.y) (-maxNumber)
  let size := max (max (maxX - minX) (maxY - minY)) 1
  buildIn points sort ((minX + maxX) * (1 / 2), (minY + maxY) * (1 / 2)) size maxDepth

variable {points} (t : AggregateTree points)

def Node.summary (node : Node K) : Summary K where
  x      := node.comX
  y      := node.comY
  weight := node.weight
  count  := node.len
  size   := node.size
  start  := node.start
  len    := node.len

-- The walk from a viewpoint, with a stack of indices whose top comes first. An index without a node ends it early.
def walk (sqrt : K → K) (x y theta : K) : Loop (List Nat × List (Summary K)) where
  body
    | ([], _)             => none
    | (index :: stack, out) => do
      let node ← t.nodes[index]?
      let (dx, dy) := (node.comX - x, node.comY - y)
      let dist := sqrt (dx * dx + dy * dy)
      if node.len = 0 then
        return (stack, out)
      else if node.leaf ∨ (0 < theta ∧ node.size < theta * dist) then
        return (stack, out ++ [Node.summary node])
      else
        return (node.children.reduceOption.reverse ++ stack, out)

-- No answer means that the walk comes to an index without a node, or that it is not over after a round for each node.
def summarize (sqrt : K → K) (x y theta : K) : Option (List (Summary K)) :=
  if t.nodes.isEmpty then
    some []
  else
    match (t.walk sqrt x y theta).run t.nodes.length ([0], []) with
    | ([], out) => some out
    | _         => none

-- There is no answer where the run leaves the order.
def members (summary : Summary K) : Option (List (Fin points.length)) :=
  if summary.start + summary.len ≤ t.order.length then
    some ((t.order.drop summary.start).take summary.len)
  else
    none

end AggregateTree
end Plaza.ServerUtils
