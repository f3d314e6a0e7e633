import Mathlib.Data.Rat.Floor
import Plaza.Lib.Grid
import Plaza.ServerUtils.Relevance

namespace Plaza.ServerUtils

open Rust

namespace Morton

open Interleave

theorem part1by1_spread (v : U64) : Spread 1 v (part1by1 v) := by
  have h₃₂ : Spread 32 v (v &&& 0x00000000ffffffff#64) := by
    intro i hi
    have hm : ∀ i < 64, (0x00000000ffffffff#64).getLsbD i = decide (i % 64 < 32) := by decide
    rw [BitVec.getLsbD_and, hm i hi, Bool.and_comm, show i / (2 * 32) * 32 + i % (2 * 32) = i by omega]
  have h₁₆ := @Spread.halve 64 16 _ _ 0x0000ffff0000ffff#64 h₃₂ (by simp) (by decide)
  have h₈ := @Spread.halve 64 8 _ _ 0x00ff00ff00ff00ff#64 h₁₆ (by simp) (by decide)
  have h₄ := @Spread.halve 64 4 _ _ 0x0f0f0f0f0f0f0f0f#64 h₈ (by simp) (by decide)
  have h₂ := @Spread.halve 64 2 _ _ 0x3333333333333333#64 h₄ (by simp) (by decide)
  exact h₂.halve (by simp) (by decide)

variable {x y x' y' : U32} {i : Nat}

theorem encode2d_even (hi : i < 32) : (encode2d x y).getLsbD (2 * i) = x.getLsbD i := by
  have hx := (part1by1_spread (x.setWidth 64)).even (i := i) (by omega)
  rw [encode2d, BitVec.getLsbD_or, hx, BitVec.getLsbD_shiftLeft]
  cases i
  case zero => simp
  case succ i =>
    have hy := (part1by1_spread (y.setWidth 64)).odd (i := i) (by omega)
    rw [show 2 * (i + 1) - 1 = 2 * i + 1 by omega, hy]
    simp
    omega

theorem encode2d_odd (hi : i < 32) : (encode2d x y).getLsbD (2 * i + 1) = y.getLsbD i := by
  have hx := (part1by1_spread (x.setWidth 64)).odd (i := i) (by omega)
  have hy := (part1by1_spread (y.setWidth 64)).even (i := i) (by omega)
  rw [encode2d, BitVec.getLsbD_or, hx, BitVec.getLsbD_shiftLeft, show 2 * i + 1 - 1 = 2 * i by omega, hy]
  simp [show 2 * i + 1 < 64 by omega, show i < 64 by omega]

-- Cells do not share keys.
theorem encode2d_inj (h : encode2d x y = encode2d x' y') : x = x' ∧ y = y' := by
  constructor
  all_goals refine BitVec.eq_of_getLsbD_eq fun i hi => ?_
  · rw [← @encode2d_even x y i hi, h, encode2d_even hi]
  · rw [← @encode2d_odd x y i hi, h, encode2d_odd hi]

end Morton

variable {K Id : Type}

section Walks

variable [LE K] {q : Quantizer K} {s : CellSpace K} {x y radius px py : K}

-- A walk over cells row by row comes by each cell once, under whichever names the cells are told apart.
theorem nodup_walk {α : Type} {ys xs : List U32} {f : U32 → U32 → α} (hy : ys.Nodup) (hx : xs.Nodup)
    (hf : ∀ gx ∈ xs, ∀ gy ∈ ys, ∀ gx' ∈ xs, ∀ gy' ∈ ys, f gx gy = f gx' gy' → gx = gx' ∧ gy = gy') :
    (ys.flatMap fun gy => xs.map fun gx => f gx gy).Nodup := by
  rw [List.nodup_flatMap]
  constructor
  case left =>
    exact fun gy hgy => hx.map_on fun gx hgx gx' hgx' h => (hf gx hgx gy hgy gx' hgx' gy hgy h).left
  case right =>
    refine List.Pairwise.imp_of_mem ?_ hy
    intro gy gy' hgy hgy' hne a ha ha'
    obtain ⟨gx, hgx, rfl⟩ := List.mem_map.mp ha
    obtain ⟨gx', hgx', h⟩ := List.mem_map.mp ha'
    exact hne (hf gx' hgx' gy' hgy' gx hgx gy hgy h).right.symm

theorem cellSide_inj {n a b c d : Nat} (ha : a < n) (hc : c < n) (h : b * n + a = d * n + c) : a = c ∧ b = d := by
  have hr := congrArg (· % n) h
  have hq := congrArg (· / n) h
  simp only [Nat.mul_add_mod_self_right, Nat.mod_eq_of_lt ha, Nat.mod_eq_of_lt hc] at hr
  have hn : 0 < n := by omega
  simp only [Nat.mul_comm b, Nat.mul_comm d, Nat.mul_add_div hn, Nat.div_eq_of_lt ha, Nat.div_eq_of_lt hc] at hq
  exact ⟨hr, hq⟩

namespace Quantizer

-- One coordinate is at most so many cells away from another, on one axis.
def Near (c d r : U32) : Prop :=
  c.toNat ≤ d.toNat + r.toNat ∧ d.toNat ≤ c.toNat + r.toNat

theorem nodup_keysInRadius : (q.keysInRadius x y radius).Nodup := by
  simp only [keysInRadius, cellsInRadius, List.map_flatMap, List.map_map, Function.comp_def]
  refine nodup_walk U32.nodup_inclusive U32.nodup_inclusive ?_
  exact fun _ _ _ _ _ _ _ _ h => Morton.encode2d_inj h

theorem key_mem_iff :
    q.key px py ∈ q.keysInRadius x y radius ↔
      Near (q.column x) (q.column px) (q.cellsForRadius radius) ∧
      Near (q.row y) (q.row py) (q.cellsForRadius radius) := by
  have hcol := (q.column px).isLt
  have hrow := (q.row py).isLt
  have hm : q.key px py ∈ q.keysInRadius x y radius ↔ q.cell px py ∈ q.cellsInRadius x y radius := by
    simp only [keysInRadius, key, List.mem_map, Prod.exists]
    constructor
    case mp =>
      rintro ⟨gx, gy, hg, h⟩
      obtain ⟨hx, hy⟩ := Morton.encode2d_inj h
      rwa [hx, hy] at hg
    case mpr => exact fun hg => ⟨_, _, hg, rfl⟩
  rw [hm]
  simp only [cellsInRadius, cell, List.mem_flatMap, List.mem_map, Prod.mk.injEq, U32.mem_inclusive, Near,
    U32.toNat_saturatingAdd, U32.toNat_saturatingSub]
  constructor
  case mp =>
    rintro ⟨_, hy, _, hx, rfl, rfl⟩
    omega
  case mpr => exact fun h => ⟨_, by omega, _, by omega, rfl, rfl⟩

end Quantizer

namespace CellSpace

theorem toNat_last : s.last.toNat = s.side.toNat - 1 := by
  simp [last]

-- The same with both held back to the last cell.
def ClampNear (s : CellSpace K) (c d r : U32) : Prop :=
  min (c.toNat - r.toNat) s.last.toNat ≤ d.toNat ∧ min d.toNat s.last.toNat ≤ c.toNat + r.toNat

theorem indexOf_lt (h : 0 < s.side.toNat) : s.indexOf x y < s.len := by
  have hl := @toNat_last _ _ s
  simp only [indexOf, indexAt, U32.toNat_lesser, len]
  have hr : min (s.quantizer.cell x y).snd.toNat s.last.toNat + 1 ≤ s.side.toNat := by omega
  have hm := Nat.mul_le_mul_right s.side.toNat hr
  rw [Nat.add_mul, Nat.one_mul] at hm
  omega

theorem nodup_indicesInRadius (h : 0 < s.side.toNat) : (s.indicesInRadius x y radius).Nodup := by
  have hl := @toNat_last _ _ s
  refine nodup_walk U32.nodup_inclusive U32.nodup_inclusive ?_
  intro gx hx gy hy gx' hx' gy' hy' hi
  rw [U32.mem_inclusive, U32.toNat_lesser, U32.toNat_lesser] at hx hx'
  have hi := cellSide_inj (by omega) (by omega) hi
  exact ⟨BitVec.eq_of_toNat_eq hi.left, BitVec.eq_of_toNat_eq hi.right⟩

-- A coordinate which is held back to the last cell, in the range that a walk takes on one axis.
theorem clamp_mem_iff {c d r l n : Nat} (hd : d < n) :
    (min (c - r) l ≤ min d l ∧ min d l ≤ min (min (c + r) (n - 1)) l) ↔
      min (c - r) l ≤ d ∧ min d l ≤ c + r := by
  omega

theorem index_mem_iff (h : 0 < s.side.toNat) :
    s.indexOf px py ∈ s.indicesInRadius x y radius ↔
      s.ClampNear (s.quantizer.column x) (s.quantizer.column px) (s.quantizer.cellsForRadius radius) ∧
      s.ClampNear (s.quantizer.row y) (s.quantizer.row py) (s.quantizer.cellsForRadius radius) := by
  have hlt {m : Nat} (hm : m ≤ s.last.toNat) : m < s.side.toNat := by
    rw [toNat_last] at hm
    omega
  simp only [indicesInRadius, indexOf, indexAt, Quantizer.cell, List.mem_flatMap, List.mem_map, U32.mem_inclusive,
    ClampNear, U32.toNat_lesser, U32.toNat_saturatingAdd, U32.toNat_saturatingSub]
  rw [← clamp_mem_iff (s.quantizer.column px).isLt, ← clamp_mem_iff (s.quantizer.row py).isLt]
  constructor
  case mp =>
    rintro ⟨gy, hy, gx, hx, hi⟩
    obtain ⟨hx', hy'⟩ := cellSide_inj (hlt (hx.right.trans (min_le_right ..))) (hlt (min_le_right ..)) hi
    exact ⟨hx' ▸ hx, hy' ▸ hy⟩
  case mpr =>
    rintro ⟨hx, hy⟩
    refine ⟨U32.lesser (s.quantizer.row py) s.last, ?_, U32.lesser (s.quantizer.column px) s.last, ?_, ?_⟩
    all_goals simp only [U32.toNat_lesser]
    case refine_1 => exact hy
    case refine_2 => exact hx

end CellSpace
end Walks

-- What is filed, and where.
structure Filing (K Id : Type) where
  id : Id
  x  : K
  y  : K

inductive GridCall (K Id : Type)
  | insert (f : Filing K Id)
  | clear

-- The filings since the last clearing.
def filed (calls : List (GridCall K Id)) : List (Filing K Id) :=
  calls.foldl step []
where
  step (fs : List (Filing K Id)) : GridCall K Id → List (Filing K Id)
    | .insert f => fs ++ [f]
    | .clear    => []

section Grids

variable [LE K] {x y radius : K} {out : List Id} {fs : List (Filing K Id)} {f : Filing K Id} {i : Nat} {key : U64}

namespace SpatialGrid

variable {g : SpatialGrid K Id} {q : Quantizer K}

def call (g : SpatialGrid K Id) : GridCall K Id → SpatialGrid K Id
  | .insert f => g.insert f.id f.x f.y
  | .clear    => g.clear

def run (q : Quantizer K) (calls : List (GridCall K Id)) : SpatialGrid K Id :=
  calls.foldl call (new q)

structure Holds (q : Quantizer K) (g : SpatialGrid K Id) (fs : List (Filing K Id)) : Prop where
  quantizer : g.quantizer = q
  files     : Buckets.Files (fun f => q.key f.x f.y) Filing.id g.members fs

namespace Holds

theorem new : Holds q (new q : SpatialGrid K Id) [] where
  quantizer := rfl
  files     := .nil fun _ => rfl

theorem call (h : Holds q g fs) (c : GridCall K Id) : Holds q (g.call c) (filed.step fs c) := by
  constructor
  case quantizer => cases c <;> exact h.quantizer
  case files =>
    cases c
    case clear =>
      refine .nil fun key => ?_
      cases hk : g.cells key <;> simp [SpatialGrid.call, clear, members, hk]
    case insert f =>
      refine h.files.push ?_ ?_
      · simp [SpatialGrid.call, insert, members, h.quantizer]
      · intro key hk
        simp [SpatialGrid.call, insert, members, h.quantizer, hk]

theorem run (calls : List (GridCall K Id)) : Holds q (SpatialGrid.run q calls) (filed calls) := by
  suffices h : ∀ {g : SpatialGrid K Id} {fs}, Holds q g fs →
      Holds q (calls.foldl .call g) (calls.foldl filed.step fs) from h new
  induction calls
  case nil => exact id
  case cons c _ hi => exact fun h => hi (h.call c)

theorem queryRadius (h : Holds q g fs) :
    (g.queryRadius x y radius out).Perm
      (out ++ (fs.filter fun f => q.key f.x f.y ∈ q.keysInRadius x y radius).map Filing.id) := by
  rw [SpatialGrid.queryRadius, List.foldl_append_eq_append, h.quantizer]
  exact (h.files.gather Quantizer.nodup_keysInRadius).append_left out

end Holds
end SpatialGrid

theorem CellTable.get_modify {α : Type} {t : CellTable K α} {index : Nat} {f : α → α} :
    (t.modify index f).get i = if index = i then (t.get i).map f else t.get i := by
  simp only [get, modify, List.getElem?_modify]
  split <;> simp

namespace DenseGrid

variable {g : DenseGrid K Id} {s : CellSpace K}

def call (g : DenseGrid K Id) : GridCall K Id → DenseGrid K Id
  | .insert f => g.insert f.id f.x f.y
  | .clear    => g.clear

def run (s : CellSpace K) (calls : List (GridCall K Id)) : DenseGrid K Id :=
  calls.foldl call (new s)

theorem get_cleared {cells : CellTable K (List Id)} {filled : List Nat} :
    (filled.foldl (fun cells index => cells.modify index fun _ => []) cells).get i =
      if i ∈ filled then (cells.get i).map fun _ => [] else cells.get i := by
  induction filled generalizing cells
  case nil => rfl
  case cons index filled hi =>
    rw [List.foldl_cons, hi, CellTable.get_modify]
    by_cases h : i ∈ filled <;> by_cases hx : i = index <;> simp [h, hx, eq_comm (a := index), Function.comp_def]

theorem space_cleared {cells : CellTable K (List Id)} {filled : List Nat} :
    (filled.foldl (fun cells index => cells.modify index fun _ => []) cells).space = cells.space := by
  induction filled generalizing cells
  case nil         => rfl
  case cons _ _ hi => exact hi

-- The list of the filled cells is what it says.
structure Tidy (g : DenseGrid K Id) : Prop where
  nodup : g.filled.Nodup
  lists : ∀ i, i ∈ g.filled ↔ g.members i ≠ []

namespace Tidy

theorem new : Tidy (new s : DenseGrid K Id) where
  nodup := .nil
  lists := by
    intro i
    simp [DenseGrid.new, members, CellTable.new, CellTable.get, List.getElem?_replicate]
    split <;> rfl

theorem members_clear (h : Tidy g) : g.clear.members i = [] := by
  simp only [members, clear, get_cleared]
  by_cases hf : i ∈ g.filled
  case pos => cases g.cells.get i <;> simp [hf]
  case neg =>
    rw [if_neg hf]
    exact (h.lists i).not_left.mp hf

theorem clear (h : Tidy g) : Tidy g.clear where
  nodup   := .nil
  lists i := by simp [h.members_clear]; simp [DenseGrid.clear]

theorem insert (h : Tidy g) {id : Id} : Tidy (g.insert id x y) := by
  cases hg : g.cells.get (g.cells.space.indexOf x y)
  case none => simpa [DenseGrid.insert, hg] using h
  case some cell =>
    have hm : g.members (g.cells.space.indexOf x y) = cell := by simp [members, hg]
    have hl := h.lists (g.cells.space.indexOf x y)
    rw [hm] at hl
    have hc : ∀ i, (g.insert id x y).members i ≠ [] ↔ i = g.cells.space.indexOf x y ∨ g.members i ≠ [] := by
      intro i
      simp only [members, DenseGrid.insert, hg, CellTable.get_modify]
      by_cases hi : g.cells.space.indexOf x y = i
      case pos => subst hi; simp [hg]
      case neg => simp [hi, Ne.symm hi]
    cases he : cell.isEmpty
    case true =>
      have hn : g.cells.space.indexOf x y ∉ g.filled := by simpa [List.isEmpty_iff.mp he] using hl
      have hf : (g.insert id x y).filled = g.filled ++ [g.cells.space.indexOf x y] := by
        simp [DenseGrid.insert, hg, he]
      constructor
      case nodup => simpa [hf, List.nodup_append] using ⟨h.nodup, fun a ha e => hn (e ▸ ha)⟩
      case lists => intro i; rw [hc, hf, ← h.lists, List.mem_append, List.mem_singleton, or_comm]
    case false =>
      have hn : g.cells.space.indexOf x y ∈ g.filled := by simpa [List.isEmpty_eq_false_iff.mp he] using hl
      have hf : (g.insert id x y).filled = g.filled := by simp [DenseGrid.insert, hg, he]
      constructor
      case nodup => exact hf ▸ h.nodup
      case lists =>
        intro i
        rw [hc, hf, ← h.lists]
        exact ⟨.inr, fun hi => hi.elim (· ▸ hn) fun hi => hi⟩

theorem run (calls : List (GridCall K Id)) : Tidy (DenseGrid.run s calls) := by
  suffices h : ∀ {g : DenseGrid K Id}, Tidy g → Tidy (calls.foldl .call g) from h new
  induction calls
  case nil          => exact id
  case cons c _ hi  =>
    intro g h
    refine hi ?_
    cases c
    case insert => exact h.insert
    case clear  => exact h.clear

end Tidy

structure Holds (s : CellSpace K) (g : DenseGrid K Id) (fs : List (Filing K Id)) : Prop where
  tidy  : Tidy g
  space : g.cells.space = s
  files : Buckets.Files (fun f => s.indexOf f.x f.y) Filing.id g.members fs

namespace Holds

theorem new : Holds s (new s : DenseGrid K Id) [] where
  tidy  := .new
  space := rfl
  files := .nil fun i => not_not.mp <| (Tidy.new.lists i).not.mp List.not_mem_nil

theorem insert (hs : 0 < s.side.toNat) (h : Holds s g fs) : Holds s (g.insert f.id f.x f.y) (fs ++ [f]) := by
  have hg : s.indexOf f.x f.y < g.cells.slots.length := by
    rw [g.cells.length_slots, h.space]
    exact CellSpace.indexOf_lt hs
  have hi : g.cells.get (s.indexOf f.x f.y) = some _ := List.getElem?_eq_getElem hg
  constructor
  case tidy => exact h.tidy.insert
  case space => simp [DenseGrid.insert, h.space, hi, CellTable.modify]
  case files =>
    refine h.files.push ?_ fun i hne => ?_
    · simp [DenseGrid.insert, members, h.space, hi, CellTable.get_modify]
    · simp [DenseGrid.insert, members, h.space, hi, CellTable.get_modify, Ne.symm hne]

theorem run (hs : 0 < s.side.toNat) (calls : List (GridCall K Id)) :
    Holds s (DenseGrid.run s calls) (filed calls) := by
  suffices h : ∀ {g : DenseGrid K Id} {fs}, Holds s g fs →
      Holds s (calls.foldl .call g) (calls.foldl filed.step fs) from h new
  induction calls
  case nil         => exact id
  case cons c _ hi =>
    intro g fs h
    refine hi ?_
    cases c
    case insert => exact h.insert hs
    case clear  => exact ⟨h.tidy.clear, space_cleared.trans h.space, .nil fun _ => h.tidy.members_clear⟩

theorem queryRadius (hs : 0 < s.side.toNat) (h : Holds s g fs) :
    (g.queryRadius x y radius out).Perm
      (out ++ (fs.filter fun f => s.indexOf f.x f.y ∈ s.indicesInRadius x y radius).map Filing.id) := by
  rw [DenseGrid.queryRadius, List.foldl_append_eq_append, h.space]
  exact (h.files.gather (CellSpace.nodup_indicesInRadius hs)).append_left out

end Holds
end DenseGrid
end Grids

section Exact

variable [Field K] [LinearOrder K] [IsStrictOrderedRing K] [FloorRing K] {q : GridQuantizer K} {origin x p radius : K}

-- A coordinate which is at most `radius` further is at most so many cells further.
theorem GridQuantizer.axis_le_add (h : x ≤ p + radius) :
    (q.axis origin x).toNat ≤ (q.axis origin p).toNat + (q.cellsForRadius radius).toNat := by
  have hc := Cells.floor_div_le_add (x := x - origin) (y := p - origin) (r := radius) q.cellSize_pos (by linarith)
  rw [axis, axis, cellsForRadius, U32.toNat_saturating, U32.toNat_saturating, U32.toNat_saturating]
  omega

theorem GridQuantizer.near (h : |p - x| ≤ radius) :
    Quantizer.Near (q.axis origin x) (q.axis origin p) (q.cellsForRadius radius) := by
  obtain ⟨hl, hr⟩ := abs_le.mp h
  exact ⟨axis_le_add (by linarith), axis_le_add (by linarith)⟩

end Exact

namespace CellSpace

-- The space goes as far as its corner which is opposite to the origin.
def Covers [LE K] (s : CellSpace K) (far : K × K) : Prop :=
  s.quantizer.column far.fst < s.side ∧ s.quantizer.row far.snd < s.side

-- Some of the cells which a query goes through are in the space.
def Meets [LE K] (s : CellSpace K) (x y radius : K) : Prop :=
  ∃ c ∈ s.quantizer.cellsInRadius x y radius, c.fst < s.side ∧ c.snd < s.side

theorem Covers.side_pos [LE K] {s : CellSpace K} {far : K × K} (h : s.Covers far) : 0 < s.side.toNat := by
  have h := h.left
  rw [BitVec.lt_def] at h
  omega

-- Over numbers which do not round, a space covers its extent unless it lost its cells to an overflow.
theorem covers_new [Field K] [LinearOrder K] [IsStrictOrderedRing K] [FloorRing K] {o : Overflow}
    {q : GridQuantizer K} {extent : K} {s : CellSpace K} (h : new o q extent = some s) (hs : 0 < s.side.toNat) :
    s.Covers (q.originX + extent, q.originY + extent) := by
  simp only [new, bind, Option.bind_eq_some_iff] at h
  obtain ⟨_, _, side, ha, hn⟩ := h
  simp only [pure, Option.some.injEq] at hn
  subst hn
  have hc := Int.floor_le_ceil (extent / q.cellSize)
  have ha := U32.eq_of_add ha
  have hl := (U32.saturating ⌈extent / q.cellSize⌉).isLt
  have hx : ∀ origin : K, (q.axis origin (origin + extent)).toNat < side.toNat := by
    intro origin
    have h₁ : BitVec.toNat (1 : U32) = 1 := rfl
    simp only [ha, BitVec.toNat_add, U32.toNat_saturating, h₁] at hs ⊢
    rw [GridQuantizer.axis, add_sub_cancel_left, U32.toNat_saturating]
    omega
  exact ⟨hx _, hx _⟩

section

variable [LinearOrder K] {s : CellSpace K} {far : K × K} {fs : List (Filing K Id)} {f : Filing K Id} {x y radius : K}

-- The dense window has every cell of the hashed one, or the border cell instead.
theorem index_mem_of_key_mem (hs : 0 < s.side.toNat)
    (h : s.quantizer.key f.x f.y ∈ s.quantizer.keysInRadius x y radius) :
    s.indexOf f.x f.y ∈ s.indicesInRadius x y radius := by
  rw [Quantizer.key_mem_iff] at h
  rw [index_mem_iff hs]
  simp only [Quantizer.Near, ClampNear] at h ⊢
  omega

-- No coordinate is held back in the space, nor is the near end of a window which meets it.
theorem key_mem_of_index_mem (hc : s.Covers far) (hx : f.x ≤ far.fst) (hy : f.y ≤ far.snd) (hm : s.Meets x y radius)
    (h : s.indexOf f.x f.y ∈ s.indicesInRadius x y radius) :
    s.quantizer.key f.x f.y ∈ s.quantizer.keysInRadius x y radius := by
  have hcol := s.quantizer.column_mono hx
  have hrow := s.quantizer.row_mono hy
  have hl := @toNat_last _ _ s
  obtain ⟨⟨gx, gy⟩, hg, hgx, hgy⟩ := hm
  simp only [Quantizer.cellsInRadius, Quantizer.cell, List.mem_flatMap, List.mem_map, Prod.mk.injEq,
    U32.mem_inclusive, U32.toNat_saturatingSub] at hg
  obtain ⟨_, hgy', _, hgx', rfl, rfl⟩ := hg
  rw [index_mem_iff hc.side_pos] at h
  rw [Covers, BitVec.lt_def, BitVec.lt_def] at hc
  rw [BitVec.lt_def] at hgx hgy
  rw [BitVec.le_def] at hcol hrow
  rw [Quantizer.key_mem_iff]
  simp only [Quantizer.Near, ClampNear] at h hgx hgy ⊢
  omega

end
end CellSpace

-- Eleven cells a side, ten wide each, and one point in the last of them.
def square : GridQuantizer ℚ where
  originX      := 0
  originY      := 0
  cellSize     := 10
  cellSize_pos := by norm_num

def squareSpace : CellSpace ℚ where
  quantizer := square.toQuantizer
  side      := 11

theorem square_axis {n : Nat} {x : ℚ} (h : n < 2 ^ 31) (hx : x = 10 * n) : square.axis 0 x = .ofNat 32 n := by
  have hf : ⌊(x - 0) / 10⌋ = n := by
    rw [hx, sub_zero, mul_div_cancel_left₀ _ (by norm_num)]
    exact Int.floor_natCast n
  rw [GridQuantizer.axis, show square.cellSize = 10 from rfl, hf, U32.saturating]
  congr 1
  omega

theorem square_new : CellSpace.new .panics square 100 = some squareSpace := by
  have hc : ⌈(100 : ℚ) / square.cellSize⌉ = 10 := by norm_num [square]
  simp only [CellSpace.new, hc]
  rw [guard, if_pos (by norm_num)]
  rfl

theorem square_cellsForRadius : square.cellsForRadius 5 = 1 := by
  rw [GridQuantizer.cellsForRadius, show ⌈(5 : ℚ) / square.cellSize⌉ = 1 by norm_num [square, Int.ceil_eq_iff]]
  rfl

theorem square_covers : squareSpace.Covers (100, 100) := by
  have h := CellSpace.covers_new square_new (by decide)
  simpa [square] using h

-- A dense grid against a hashed one for every quantiser, the list of the filled cells, and what no query over exact
-- numbers misses.
theorem dense_grid_agrees :
    (∀ {K Id : Type} [LinearOrder K] (s : CellSpace K) (far : K × K) (calls : List (GridCall K Id))
      (x y radius : K) (out : List Id), s.Covers far →
        let hashed := (SpatialGrid.run s.quantizer calls).queryRadius x y radius out
        let dense := (DenseGrid.run s calls).queryRadius x y radius out
        ((∀ f ∈ filed calls, f.x ≤ far.fst ∧ f.y ≤ far.snd) → s.Meets x y radius → dense.Perm hashed) ∧
        hashed.Perm (out ++ ((filed calls).filter fun f =>
          s.quantizer.key f.x f.y ∈ s.quantizer.keysInRadius x y radius).map Filing.id) ∧
        hashed.Subperm dense) ∧
    (∀ {K Id : Type} [LinearOrder K] (s : CellSpace K) (calls : List (GridCall K Id)),
      let dense := DenseGrid.run s calls
      dense.filled.Nodup ∧ (∀ i, i ∈ dense.filled ↔ dense.members i ≠ []) ∧ ∀ i, dense.clear.members i = []) ∧
    (∀ {K Id : Type} [Field K] [LinearOrder K] [IsStrictOrderedRing K] [FloorRing K] (q : GridQuantizer K)
      (o : Overflow) (extent : K) (s : CellSpace K) (calls : List (GridCall K Id)) (x y radius : K) (out : List Id),
      CellSpace.new o q extent = some s → 0 < s.side.toNat →
        s.quantizer = q.toQuantizer ∧ s.Covers (q.originX + extent, q.originY + extent) ∧
        (0 ≤ radius → ∀ f ∈ filed calls, (f.x - x) ^ 2 + (f.y - y) ^ 2 ≤ radius ^ 2 →
          f.id ∈ (SpatialGrid.run s.quantizer calls).queryRadius x y radius out ∧
          f.id ∈ (DenseGrid.run s calls).queryRadius x y radius out)) := by
  refine ⟨?_, ?_, ?_⟩
  case refine_1 =>
    intro K Id _ s far calls x y radius out hc hashed dense
    have hs := hc.side_pos
    have hh : hashed.Perm _ := (SpatialGrid.Holds.run calls).queryRadius
    have hd : dense.Perm _ := (DenseGrid.Holds.run hs calls).queryRadius hs
    refine ⟨fun hb hm => ?_, hh, ?_⟩
    · have he : (filed calls).filter (fun f => s.indexOf f.x f.y ∈ s.indicesInRadius x y radius) =
          (filed calls).filter fun f => s.quantizer.key f.x f.y ∈ s.quantizer.keysInRadius x y radius := by
        refine List.filter_congr fun f hf => decide_eq_decide.mpr ⟨?_, CellSpace.index_mem_of_key_mem hs⟩
        exact CellSpace.key_mem_of_index_mem hc (hb f hf).left (hb f hf).right hm
      rw [he] at hd
      exact hd.trans hh.symm
    · have hl : ((filed calls).filter fun f => s.quantizer.key f.x f.y ∈ s.quantizer.keysInRadius x y radius).Sublist
          ((filed calls).filter fun f => s.indexOf f.x f.y ∈ s.indicesInRadius x y radius) := by
        refine List.monotone_filter_right _ fun f hf => ?_
        exact decide_eq_true (CellSpace.index_mem_of_key_mem hs (of_decide_eq_true hf))
      exact hh.subperm.trans (((hl.map Filing.id).append_left out).subperm.trans hd.symm.subperm)
  case refine_2 =>
    intro K Id _ s calls dense
    have ht : dense.Tidy := .run calls
    exact ⟨ht.nodup, ht.lists, fun _ => ht.members_clear⟩
  case refine_3 =>
    intro K Id _ _ _ _ q o extent s calls x y radius out hn hs
    have hq : s.quantizer = q.toQuantizer := by
      simp only [CellSpace.new, bind, Option.bind_eq_some_iff] at hn
      obtain ⟨_, _, _, _, hn⟩ := hn
      simp only [pure, Option.some.injEq] at hn
      rw [← hn]
    refine ⟨hq, CellSpace.covers_new hn hs, ?_⟩
    intro hr f hf hd
    have hx := abs_le_of_sq_le_sq ((le_add_of_nonneg_right (sq_nonneg _)).trans hd) hr
    have hy := abs_le_of_sq_le_sq ((le_add_of_nonneg_left (sq_nonneg _)).trans hd) hr
    have hk : s.quantizer.key f.x f.y ∈ s.quantizer.keysInRadius x y radius := by
      rw [Quantizer.key_mem_iff, hq]
      exact ⟨GridQuantizer.near hx, GridQuantizer.near hy⟩
    rw [(SpatialGrid.Holds.run calls).queryRadius.mem_iff, ((DenseGrid.Holds.run hs calls).queryRadius hs).mem_iff]
    have hm : ∀ {p : Filing K Id → Bool}, p f → f.id ∈ out ++ ((filed calls).filter p).map Filing.id :=
      fun hp => List.mem_append_right _ (List.mem_map_of_mem (List.mem_filter.mpr ⟨hf, hp⟩))
    exact ⟨hm (decide_eq_true hk), hm (decide_eq_true (CellSpace.index_mem_of_key_mem hs hk))⟩

theorem dense_grid_agrees_at_the_corner :
    let calls : List (GridCall ℚ Nat) := [.insert ⟨7, 100, 100⟩]
    ((DenseGrid.run squareSpace calls).queryRadius 100 100 5 []).Perm
      ((SpatialGrid.run squareSpace.quantizer calls).queryRadius 100 100 5 []) ∧
    7 ∈ (DenseGrid.run squareSpace calls).queryRadius 104 97 5 [] := by
  intro calls
  have hp := @square_axis 10 100 (by decide) (by norm_num)
  have hr := square_cellsForRadius
  have hm : squareSpace.Meets 100 100 5 := by
    refine ⟨(10, 10), ?_, by decide⟩
    change (10, 10) ∈ (U32.inclusive (U32.saturatingSub (square.axis 0 100) (square.cellsForRadius 5))
      (U32.saturatingAdd (square.axis 0 100) (square.cellsForRadius 5))).flatMap fun gy =>
        (U32.inclusive (U32.saturatingSub (square.axis 0 100) (square.cellsForRadius 5))
          (U32.saturatingAdd (square.axis 0 100) (square.cellsForRadius 5))).map fun gx => (gx, gy)
    rw [hp, hr]
    decide
  constructor
  case left =>
    exact (dense_grid_agrees.left squareSpace (100, 100) calls 100 100 5 [] square_covers).left
      (by simp [calls, filed, filed.step]) hm
  case right =>
    have h := dense_grid_agrees.right.right square .panics 100 squareSpace calls 104 97 5 [] square_new (by decide)
    exact (h.right.right (by norm_num) ⟨7, 100, 100⟩ (List.mem_singleton_self _) (by norm_num)).right

-- Far away from the space a query over the dense grid goes through its border, that over the hashed one does not.
theorem query_beyond_the_border :
    ¬∀ {K Id : Type} [LinearOrder K] (s : CellSpace K) (far : K × K) (calls : List (GridCall K Id)) (x y radius : K),
      s.Covers far → (∀ f ∈ filed calls, f.x ≤ far.fst ∧ f.y ≤ far.snd) →
        ((DenseGrid.run s calls).queryRadius x y radius []).Perm
          ((SpatialGrid.run s.quantizer calls).queryRadius x y radius []) := by
  intro h
  let calls : List (GridCall ℚ Nat) := [.insert ⟨7, 100, 100⟩]
  have h := h squareSpace (100, 100) calls 5000 5000 5 square_covers (by simp [calls, filed, filed.step])
  have hp := @square_axis 10 100 (by decide) (by norm_num)
  have hq := @square_axis 500 5000 (by decide) (by norm_num)
  have hr := square_cellsForRadius
  have hd : 7 ∈ (DenseGrid.run squareSpace calls).queryRadius 5000 5000 5 [] := by
    rw [((DenseGrid.Holds.run (by decide) calls).queryRadius (by decide)).mem_iff]
    refine List.mem_map_of_mem (List.mem_filter.mpr ⟨List.mem_singleton_self _, ?_⟩)
    rw [decide_eq_true_iff, CellSpace.index_mem_iff (by decide)]
    change squareSpace.ClampNear (square.axis 0 5000) (square.axis 0 100) (square.cellsForRadius 5) ∧
      squareSpace.ClampNear (square.axis 0 5000) (square.axis 0 100) (square.cellsForRadius 5)
    rw [hp, hq, hr, and_self]
    exact ⟨by decide, by decide⟩
  rw [h.mem_iff, (SpatialGrid.Holds.run calls).queryRadius.mem_iff] at hd
  obtain ⟨f, hf, -⟩ := List.mem_map.mp hd
  obtain ⟨hf, hk⟩ := List.mem_filter.mp hf
  obtain rfl := List.mem_singleton.mp hf
  rw [decide_eq_true_iff, Quantizer.key_mem_iff] at hk
  change Quantizer.Near (square.axis 0 5000) (square.axis 0 100) (square.cellsForRadius 5) ∧
    Quantizer.Near (square.axis 0 5000) (square.axis 0 100) (square.cellsForRadius 5) at hk
  rw [hp, hq, hr] at hk
  exact absurd hk.left.left (by decide)

end Plaza.ServerUtils
