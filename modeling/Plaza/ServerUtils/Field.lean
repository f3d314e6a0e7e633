import Mathlib.Algebra.Order.Floor.Ring
import Plaza.Lib.Rust

namespace Plaza.ServerUtils

open Rust

-- How a query decides who is near.
inductive Strategy
  | flat
  | flatBand
  | volume
  deriving DecidableEq, Repr

structure Vec3 (K : Type) where
  x : K
  y : K
  z : K

-- What a query did.
structure Query where
  returned       : Nat := 0
  examined       : Nat := 0
  cells          : Nat := 0
  falsePositives : Nat := 0
  missed         : Nat := 0
  deriving DecidableEq, Repr

-- A cell by its indices on the three axes.
abbrev CellKey := I32 × I32 × I32

variable {K : Type} [Field K] [LinearOrder K] [IsStrictOrderedRing K] [FloorRing K]

def Vec3.zero : Vec3 K :=
  ⟨0, 0, 0⟩

def Vec3.lengthSquared (v : Vec3 K) : K :=
  v.x * v.x + v.y * v.y + v.z * v.z

-- The field of the source: a uniform grid that is indexed in two axes or three, over numbers which do not round.
structure PointField (K : Type) [Zero K] [LT K] where
  cell     : K
  cell_pos : 0 < cell
  strategy : Strategy
  cells    : CellKey → Option (List Nat)
  points   : List (Vec3 K)

-- Who is in the sphere, by going through all the points.
def truth (points : List (Vec3 K)) (eye : Vec3 K) (radius : K) : List Nat :=
  let inside (p : Vec3 K) : Bool :=
    Vec3.lengthSquared ⟨p.x - eye.x, p.y - eye.y, p.z - eye.z⟩ ≤ radius * radius
  (points.zipIdx.filter fun (p, _) => inside p).map Prod.snd

namespace PointField

def new (cell : K) (strategy : Strategy) : PointField K where
  cell     := max cell 0.001
  cell_pos := lt_max_of_lt_right (by norm_num)
  strategy := strategy
  cells _  := none
  points   := []

variable (f : PointField K)

def clear : PointField K :=
  { f with cells := fun _ => none, points := [] }

def axis (x : K) : I32 :=
  I32.saturating ⌊x / f.cell⌋

-- The flat modes have one layer.
def index (p : Vec3 K) : CellKey :=
  let y :=
    match f.strategy with
    | .volume => f.axis p.y
    | _       => 0
  (f.axis p.x, y, f.axis p.z)

def insert (id : Nat) (p : Vec3 K) : PointField K :=
  let key := f.index p
  let points :=
    if f.points.length ≤ id then f.points ++ .replicate (id + 1 - f.points.length) .zero else f.points
  { f with
    cells  := Function.update f.cells key (some ((f.cells key).getD [] ++ [id]))
    points := points.set id p
  }

def rebuild (points : List (Vec3 K)) : PointField K :=
  points.zipIdx.foldl (fun f (p, id) => f.insert id p) f.clear

def reach (radius : K) : I32 :=
  I32.saturating ⌈radius / f.cell⌉

def near (eye : Vec3 K) (radius : K) (p : Vec3 K) : Bool :=
  match f.strategy with
  | .flat =>
    let (dx, dz) := (p.x - eye.x, p.z - eye.z)
    dx * dx + dz * dz ≤ radius * radius
  | .flatBand | .volume =>
    Vec3.lengthSquared ⟨p.x - eye.x, p.y - eye.y, p.z - eye.z⟩ ≤ radius * radius

def layers (low reach : I32) : List I32 :=
  match f.strategy with
  | .volume => I32.inclusive low reach
  | _       => [0]

-- The offsets which the three loops of a query go through.
def offsets (low reach : I32) : List CellKey :=
  (f.layers low reach).flatMap fun dy =>
    (I32.inclusive low reach).flatMap fun dx => (I32.inclusive low reach).map fun dz => (dx, dy, dz)

-- One candidate out of a bucket. Its id is out of bounds if there is no point for it.
def examine (eye : Vec3 K) (radius : K) (s : List Nat × Query) (id : Nat) : Option (List Nat × Query) := do
  let p ← f.points[id]?
  let stats := { s.snd with examined := s.snd.examined + 1 }
  return (if f.near eye radius p then s.fst ++ [id] else s.fst, stats)

def shift (o : Overflow) (centre d : CellKey) : Option CellKey := do
  let x ← I32.add o centre.fst d.fst
  let y ← I32.add o centre.snd.fst d.snd.fst
  let z ← I32.add o centre.snd.snd d.snd.snd
  return (x, y, z)

def visit (o : Overflow) (eye : Vec3 K) (radius : K) (s : List Nat × Query) (d : CellKey) :
    Option (List Nat × Query) := do
  let key ← shift o (f.index eye) d
  match f.cells key with
  | none        => return s
  | some bucket =>
    let stats := { s.snd with cells := s.snd.cells + 1 }
    bucket.foldlM (f.examine eye radius) (s.fst, stats)

-- Everyone near, and what it took to find them. There is no answer where the build panics.
def query (o : Overflow) (eye : Vec3 K) (radius : K) (truth : List Nat) : Option (List Nat × Query) := do
  let reach := f.reach radius
  let low ← I32.neg o reach
  let (out, stats) ← (f.offsets low reach).foldlM (f.visit o eye radius) ([], {})
  return (out, { stats with
    returned       := out.length
    falsePositives := (out.filter (· ∉ truth)).length
    missed         := (truth.filter (· ∉ out)).length
  })

end PointField
end Plaza.ServerUtils
