import Plaza.Lib.Grid
import Plaza.Lib.Rust

namespace Plaza.ServerUtils

open Rust

namespace Morton

-- Spreads the low half of a word across its even bits.
def part1by1 (v : U64) : U64 :=
  let v := v &&& 0x00000000ffffffff#64
  let v := (v ||| v <<< 16) &&& 0x0000ffff0000ffff#64
  let v := (v ||| v <<< 8) &&& 0x00ff00ff00ff00ff#64
  let v := (v ||| v <<< 4) &&& 0x0f0f0f0f0f0f0f0f#64
  let v := (v ||| v <<< 2) &&& 0x3333333333333333#64
  (v ||| v <<< 1) &&& 0x5555555555555555#64

def encode2d (x y : U32) : U64 :=
  part1by1 (x.setWidth 64) ||| part1by1 (y.setWidth 64) <<< 1

-- Gathers the even bits again.
def compact1by1 (v : U64) : U64 :=
  let v := v &&& 0x5555555555555555#64
  let v := (v ||| v >>> 1) &&& 0x3333333333333333#64
  let v := (v ||| v >>> 2) &&& 0x0f0f0f0f0f0f0f0f#64
  let v := (v ||| v >>> 4) &&& 0x00ff00ff00ff00ff#64
  let v := (v ||| v >>> 8) &&& 0x0000ffff0000ffff#64
  (v ||| v >>> 16) &&& 0x00000000ffffffff#64

def decode2d (code : U64) : U32 × U32 :=
  ((compact1by1 code).setWidth 32, (compact1by1 (code >>> 1)).setWidth 32)

-- Spreads the low 21 bits of a word, each of them two bits apart from the next.
def part1by2 (v : U64) : U64 :=
  let v := v &&& 0x1fffff#64
  let v := (v ||| v <<< 32) &&& 0x001f00000000ffff#64
  let v := (v ||| v <<< 16) &&& 0x001f0000ff0000ff#64
  let v := (v ||| v <<< 8) &&& 0x100f00f00f00f00f#64
  let v := (v ||| v <<< 4) &&& 0x10c30c30c30c30c3#64
  (v ||| v <<< 2) &&& 0x1249249249249249#64

def compact1by2 (v : U64) : U64 :=
  let v := v &&& 0x1249249249249249#64
  let v := (v ||| v >>> 2) &&& 0x10c30c30c30c30c3#64
  let v := (v ||| v >>> 4) &&& 0x100f00f00f00f00f#64
  let v := (v ||| v >>> 8) &&& 0x001f0000ff0000ff#64
  let v := (v ||| v >>> 16) &&& 0x001f00000000ffff#64
  (v ||| v >>> 32) &&& 0x1fffff#64

def encode3d (x y z : U32) : U64 :=
  part1by2 (x.setWidth 64) ||| part1by2 (y.setWidth 64) <<< 1 ||| part1by2 (z.setWidth 64) <<< 2

def decode3d (code : U64) : U32 × U32 × U32 :=
  ((compact1by2 code).setWidth 32, (compact1by2 (code >>> 1)).setWidth 32, (compact1by2 (code >>> 2)).setWidth 32)

end Morton

-- What the grids know about coordinates: the cell of each on either axis, and how many cells a radius spans.
structure Quantizer (K : Type) [LE K] where
  column         : K → U32
  row            : K → U32
  cellsForRadius : K → U32
  column_mono    : ∀ {x x'}, x ≤ x' → column x ≤ column x'
  row_mono       : ∀ {y y'}, y ≤ y' → row y ≤ row y'

-- The quantiser of the source, over numbers which do not round.
structure GridQuantizer (K : Type) [Zero K] [LT K] where
  originX      : K
  originY      : K
  cellSize     : K
  cellSize_pos : 0 < cellSize

namespace GridQuantizer

variable {K : Type} [Field K] [LinearOrder K] [IsStrictOrderedRing K] [FloorRing K] (q : GridQuantizer K)

def axis (origin x : K) : U32 :=
  U32.saturating (max ⌊(x - origin) / q.cellSize⌋ 0)

def cellsForRadius (radius : K) : U32 :=
  U32.saturating (max ⌈radius / q.cellSize⌉ 0)

theorem axis_mono {origin x x' : K} (h : x ≤ x') : q.axis origin x ≤ q.axis origin x' := by
  exact U32.saturating_mono (max_le_max_right _ (Cells.floor_div_mono q.cellSize_pos (sub_le_sub_right h _)))

def toQuantizer : Quantizer K where
  column         := q.axis q.originX
  row            := q.axis q.originY
  cellsForRadius := q.cellsForRadius
  column_mono    := q.axis_mono
  row_mono       := q.axis_mono

end GridQuantizer

variable {K α Id : Type} [LE K]

namespace Quantizer

variable (q : Quantizer K)

def cell (x y : K) : U32 × U32 :=
  (q.column x, q.row y)

def key (x y : K) : U64 :=
  let (cx, cy) := q.cell x y
  Morton.encode2d cx cy

def cellsInRadius (x y radius : K) : List (U32 × U32) :=
  let (cx, cy) := q.cell x y
  let r := q.cellsForRadius radius
  let (x0, x1) := (U32.saturatingSub cx r, U32.saturatingAdd cx r)
  let (y0, y1) := (U32.saturatingSub cy r, U32.saturatingAdd cy r)
  (U32.inclusive y0 y1).flatMap fun gy => (U32.inclusive x0 x1).map fun gx => (gx, gy)

def keysInRadius (x y radius : K) : List U64 :=
  (q.cellsInRadius x y radius).map fun (gx, gy) => Morton.encode2d gx gy

end Quantizer

-- A world with known bounds. Each cell of it has an index.
structure CellSpace (K : Type) [LE K] where
  quantizer : Quantizer K
  side      : U32

namespace CellSpace

-- There is no space without an extent, nor where the last cell has no successor in a build which panics.
def new {K : Type} [Field K] [LinearOrder K] [IsStrictOrderedRing K] [FloorRing K] (o : Overflow)
    (quantizer : GridQuantizer K) (extent : K) : Option (CellSpace K) := do
  guard (0 < extent)
  let side ← U32.add o (U32.saturating ⌈extent / quantizer.cellSize⌉) 1
  return { quantizer := quantizer.toQuantizer, side }

variable (s : CellSpace K)

def len : Nat :=
  s.side.toNat * s.side.toNat

def last : U32 :=
  U32.saturatingSub s.side 1

def indexAt (cx cy : U32) : Nat :=
  (U32.lesser cy s.last).toNat * s.side.toNat + (U32.lesser cx s.last).toNat

def indexOf (x y : K) : Nat :=
  let (cx, cy) := s.quantizer.cell x y
  s.indexAt cx cy

def indicesInRadius (x y radius : K) : List Nat :=
  let (cx, cy) := s.quantizer.cell x y
  let r := s.quantizer.cellsForRadius radius
  let (x0, x1) := (U32.lesser (U32.saturatingSub cx r) s.last, U32.lesser (U32.saturatingAdd cx r) s.last)
  let (y0, y1) := (U32.lesser (U32.saturatingSub cy r) s.last, U32.lesser (U32.saturatingAdd cy r) s.last)
  (U32.inclusive y0 y1).flatMap fun gy => (U32.inclusive x0 x1).map fun gx => gy.toNat * s.side.toNat + gx.toNat

end CellSpace

-- One value for each cell of a space.
structure CellTable (K α : Type) [LE K] where
  space        : CellSpace K
  slots        : List α
  length_slots : slots.length = space.len

namespace CellTable

def new [Inhabited α] (space : CellSpace K) : CellTable K α where
  space        := space
  slots        := .replicate space.len default
  length_slots := List.length_replicate

def get (t : CellTable K α) (index : Nat) : Option α :=
  t.slots[index]?

-- Writes through the reference to a slot, if there is one.
def modify (t : CellTable K α) (index : Nat) (f : α → α) : CellTable K α where
  space        := t.space
  slots        := t.slots.modify index f
  length_slots := by rw [List.length_modify, t.length_slots]

end CellTable

-- Ids in buckets under the keys of their cells. A bucket which is emptied stays.
structure SpatialGrid (K Id : Type) [LE K] where
  quantizer : Quantizer K
  cells     : U64 → Option (List Id)

namespace SpatialGrid

variable (g : SpatialGrid K Id)

def new (quantizer : Quantizer K) : SpatialGrid K Id where
  quantizer := quantizer
  cells _   := none

def clear : SpatialGrid K Id :=
  { g with cells := fun key => (g.cells key).map fun _ => [] }

def insert (id : Id) (x y : K) : SpatialGrid K Id :=
  let key := g.quantizer.key x y
  { g with cells := Function.update g.cells key (some ((g.cells key).getD [] ++ [id])) }

def members (key : U64) : List Id :=
  (g.cells key).getD []

def queryRadius (x y radius : K) (out : List Id) : List Id :=
  (g.quantizer.keysInRadius x y radius).foldl (fun out key => out ++ g.members key) out

end SpatialGrid

structure DenseGrid (K Id : Type) [LE K] where
  cells  : CellTable K (List Id)
  filled : List Nat

namespace DenseGrid

variable (g : DenseGrid K Id)

def new (space : CellSpace K) : DenseGrid K Id where
  cells  := .new space
  filled := []

def clear : DenseGrid K Id where
  cells  := g.filled.foldl (fun cells index => cells.modify index fun _ => []) g.cells
  filled := []

def insert (id : Id) (x y : K) : DenseGrid K Id :=
  let index := g.cells.space.indexOf x y
  match g.cells.get index with
  | none      => g
  | some cell => {
      cells  := g.cells.modify index (· ++ [id])
      filled := if cell.isEmpty then g.filled ++ [index] else g.filled
    }

def members (index : Nat) : List Id :=
  (g.cells.get index).getD []

def queryRadius (x y radius : K) (out : List Id) : List Id :=
  (g.cells.space.indicesInRadius x y radius).foldl (fun out index => out ++ g.members index) out

end DenseGrid
end Plaza.ServerUtils
