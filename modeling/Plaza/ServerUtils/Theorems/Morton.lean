import Plaza.Lib.Words
import Plaza.ServerUtils.Theorems.Relevance

open Rust

namespace Plaza.ServerUtils.Morton

open Wiring

variable {x y z : U32} {v code : U64} {i : Nat}

theorem getLsbD_part1by2 (hi : i < 64) :
    (part1by2 v).getLsbD i = (decide (i % 3 = 0 ∧ i / 3 < 21) && v.getLsbD (i / 3)) := by
  have h₃₂ : Carries v (place 3 32 21) _ := .mask (m := 0x1fffff#64) (by decide)
  have h₁₆ : Carries v (place 3 16 21) _ := h₃₂.spread (s := 32) (m := 0x001f00000000ffff#64) (by decide)
  have h₈ : Carries v (place 3 8 21) _ := h₁₆.spread (s := 16) (m := 0x001f0000ff0000ff#64) (by decide)
  have h₄ : Carries v (place 3 4 21) _ := h₈.spread (s := 8) (m := 0x100f00f00f00f00f#64) (by decide)
  have h₂ : Carries v (place 3 2 21) _ := h₄.spread (s := 4) (m := 0x10c30c30c30c30c3#64) (by decide)
  have h : Carries v (fun i => if i % 3 = 0 ∧ i / 3 < 21 then some (i / 3) else none) (part1by2 v) :=
    h₂.spread (by decide)
  exact h.getLsbD_eq hi

-- Where a bit is put, the bit which is put there is taken from again.
theorem getLsbD_compact1by1 (hi : i < 64) : (compact1by1 v).getLsbD i = (decide (i < 32) && v.getLsbD (2 * i)) := by
  have h₁ : Carries v (fun i => (place 2 1 32 i).map (2 * ·)) _ := .mask (m := 0x5555555555555555#64) (by decide)
  have h₂ : Carries v (fun i => (place 2 2 32 i).map (2 * ·)) _ :=
    h₁.gather (s := 1) (m := 0x3333333333333333#64) (by decide)
  have h₄ : Carries v (fun i => (place 2 4 32 i).map (2 * ·)) _ :=
    h₂.gather (s := 2) (m := 0x0f0f0f0f0f0f0f0f#64) (by decide)
  have h₈ : Carries v (fun i => (place 2 8 32 i).map (2 * ·)) _ :=
    h₄.gather (s := 4) (m := 0x00ff00ff00ff00ff#64) (by decide)
  have h₁₆ : Carries v (fun i => (place 2 16 32 i).map (2 * ·)) _ :=
    h₈.gather (s := 8) (m := 0x0000ffff0000ffff#64) (by decide)
  have h : Carries v (fun i => if i < 32 then some (2 * i) else none) (compact1by1 v) := h₁₆.gather (by decide)
  exact h.getLsbD_eq hi

theorem getLsbD_compact1by2 (hi : i < 64) : (compact1by2 v).getLsbD i = (decide (i < 21) && v.getLsbD (3 * i)) := by
  have h₁ : Carries v (fun i => (place 3 1 21 i).map (3 * ·)) _ := .mask (m := 0x1249249249249249#64) (by decide)
  have h₂ : Carries v (fun i => (place 3 2 21 i).map (3 * ·)) _ :=
    h₁.gather (s := 2) (m := 0x10c30c30c30c30c3#64) (by decide)
  have h₄ : Carries v (fun i => (place 3 4 21 i).map (3 * ·)) _ :=
    h₂.gather (s := 4) (m := 0x100f00f00f00f00f#64) (by decide)
  have h₈ : Carries v (fun i => (place 3 8 21 i).map (3 * ·)) _ :=
    h₄.gather (s := 8) (m := 0x001f0000ff0000ff#64) (by decide)
  have h₁₆ : Carries v (fun i => (place 3 16 21 i).map (3 * ·)) _ :=
    h₈.gather (s := 16) (m := 0x001f00000000ffff#64) (by decide)
  have h : Carries v (fun i => if i < 21 then some (3 * i) else none) (compact1by2 v) := h₁₆.gather (by decide)
  exact h.getLsbD_eq hi

theorem getLsbD_part1by2_mul (hi : i < 21) : (part1by2 v).getLsbD (3 * i) = v.getLsbD i := by
  rw [getLsbD_part1by2 (by omega), show 3 * i / 3 = i by omega, decide_eq_true (by omega), Bool.true_and]

theorem getLsbD_part1by2_of_ne (h : i % 3 ≠ 0) : (part1by2 v).getLsbD i = false := by
  by_cases hi : i < 64
  case pos => simp [getLsbD_part1by2 hi, h]
  case neg => exact BitVec.getLsbD_of_ge _ _ (by omega)

-- The bits of the axes take turns.
theorem getLsbD_encode3d (hi : i < 21) :
    (encode3d x y z).getLsbD (3 * i) = x.getLsbD i ∧ (encode3d x y z).getLsbD (3 * i + 1) = y.getLsbD i ∧
      (encode3d x y z).getLsbD (3 * i + 2) = z.getLsbD i := by
  have hw (x : U32) : (part1by2 (x.setWidth 64)).getLsbD (3 * i) = x.getLsbD i := by
    rw [getLsbD_part1by2_mul hi, BitVec.getLsbD_setWidth, decide_eq_true (by omega), Bool.true_and]
  have hn (x : U32) {j : Nat} (h : j % 3 ≠ 0) : (part1by2 (x.setWidth 64)).getLsbD j = false :=
    getLsbD_part1by2_of_ne h
  simp only [encode3d, BitVec.getLsbD_or, BitVec.getLsbD_shiftLeft]
  refine ⟨?_, ?_, ?_⟩
  case refine_1 =>
    rw [hw]
    cases i
    case zero   => simp
    case succ i => simp [hn y (j := 3 * (i + 1) - 1) (by omega), hn z (j := 3 * (i + 1) - 2) (by omega)]
  case refine_2 =>
    rw [hn x (by omega), Nat.add_sub_cancel, hw, decide_eq_true (by omega)]
    cases i
    case zero   => simp
    case succ i =>
      rw [hn z (by omega)]
      simp
  case refine_3 =>
    rw [hn x (by omega), hn y (by omega), Nat.add_sub_cancel, hw, decide_eq_true (by omega)]
    simp

theorem toNat_encode3d_lt : (encode3d x y z).toNat < 2 ^ 63 := by
  refine BitVec.toNat_lt_iff_getLsbD_eq_false 63 (by decide) |>.mpr fun k => ?_
  cases k
  case zero   =>
    simp only [encode3d, BitVec.getLsbD_or, BitVec.getLsbD_shiftLeft]
    rw [getLsbD_part1by2 (by omega), getLsbD_part1by2_of_ne (by decide), getLsbD_part1by2_of_ne (by decide)]
    rfl
  case succ k => exact BitVec.getLsbD_of_ge _ _ (by omega)

theorem getLsbD_decode2d (hi : i < 32) :
    (decode2d code).fst.getLsbD i = code.getLsbD (2 * i) ∧ (decode2d code).snd.getLsbD i = code.getLsbD (2 * i + 1) := by
  simp only [decode2d, BitVec.getLsbD_setWidth, hi, decide_true, Bool.true_and]
  rw [getLsbD_compact1by1 (by omega), getLsbD_compact1by1 (by omega), BitVec.getLsbD_ushiftRight, Nat.add_comm 1]
  simp [hi]

theorem decode2d_encode2d : decode2d (encode2d x y) = (x, y) := by
  refine Prod.ext (BitVec.eq_of_getLsbD_eq fun i hi => ?_) (BitVec.eq_of_getLsbD_eq fun i hi => ?_)
  case refine_1 => exact (getLsbD_decode2d hi).left.trans (encode2d_even hi)
  case refine_2 => exact (getLsbD_decode2d hi).right.trans (encode2d_odd hi)

theorem encode2d_decode2d : encode2d (decode2d code).fst (decode2d code).snd = code := by
  refine BitVec.eq_of_getLsbD_eq fun i hi => ?_
  obtain ⟨k, rfl | rfl⟩ : ∃ k, i = 2 * k ∨ i = 2 * k + 1 := ⟨i / 2, by omega⟩
  · rw [encode2d_even (by omega), (getLsbD_decode2d (by omega)).left]
  · rw [encode2d_odd (by omega), (getLsbD_decode2d (by omega)).right]

theorem getLsbD_decode3d (hi : i < 32) :
    (decode3d code).fst.getLsbD i = (decide (i < 21) && code.getLsbD (3 * i)) ∧
      (decode3d code).snd.fst.getLsbD i = (decide (i < 21) && code.getLsbD (3 * i + 1)) ∧
      (decode3d code).snd.snd.getLsbD i = (decide (i < 21) && code.getLsbD (3 * i + 2)) := by
  simp only [decode3d, BitVec.getLsbD_setWidth, hi, decide_true, Bool.true_and]
  rw [getLsbD_compact1by2 (by omega), getLsbD_compact1by2 (by omega), getLsbD_compact1by2 (by omega),
    BitVec.getLsbD_ushiftRight, BitVec.getLsbD_ushiftRight, Nat.add_comm 1, Nat.add_comm 2]
  exact ⟨rfl, rfl, rfl⟩

-- A coordinate is known by its lower bits, as it has no others.
theorem coordinate_eq {u : U32} {f : Nat → Nat} (hx : x.toNat < 2 ^ 21)
    (hu : ∀ i < 32, u.getLsbD i = (decide (i < 21) && code.getLsbD (f i)))
    (hc : ∀ i < 21, code.getLsbD (f i) = x.getLsbD i) : u = x := by
  refine BitVec.eq_of_getLsbD_eq fun i hi => ?_
  rw [hu i hi]
  by_cases h : i < 21
  case pos => simp [h, hc i h]
  case neg =>
    have hz := BitVec.toNat_lt_iff_getLsbD_eq_false 21 (by decide) |>.mp hx (i - 21)
    rw [show 21 + (i - 21) = i by omega] at hz
    simp [h, hz]

theorem toNat_coordinate_lt {u : U32} {f : Nat → Nat}
    (hu : ∀ i < 32, u.getLsbD i = (decide (i < 21) && code.getLsbD (f i))) : u.toNat < 2 ^ 21 := by
  refine BitVec.toNat_lt_iff_getLsbD_eq_false 21 (by decide) |>.mpr fun k => ?_
  by_cases hi : 21 + k < 32
  case pos => simp [hu _ hi]
  case neg => exact BitVec.getLsbD_of_ge _ _ (by omega)

theorem decode3d_encode3d (hx : x.toNat < 2 ^ 21) (hy : y.toNat < 2 ^ 21) (hz : z.toNat < 2 ^ 21) :
    decode3d (encode3d x y z) = (x, y, z) := by
  refine Prod.ext ?_ (Prod.ext ?_ ?_)
  case refine_1 =>
    exact coordinate_eq hx (fun _ hi => (getLsbD_decode3d hi).left) fun _ hi => (getLsbD_encode3d hi).left
  case refine_2 =>
    exact coordinate_eq hy (fun _ hi => (getLsbD_decode3d hi).right.left) fun _ hi => (getLsbD_encode3d hi).right.left
  case refine_3 =>
    exact coordinate_eq hz (fun _ hi => (getLsbD_decode3d hi).right.right) fun _ hi => (getLsbD_encode3d hi).right.right

theorem encode3d_decode3d (hc : code.toNat < 2 ^ 63) :
    encode3d (decode3d code).fst (decode3d code).snd.fst (decode3d code).snd.snd = code := by
  refine BitVec.eq_of_getLsbD_eq fun i hi => ?_
  by_cases h : i < 63
  case pos =>
    obtain ⟨k, hk, hi⟩ : ∃ k < 21, i = 3 * k ∨ i = 3 * k + 1 ∨ i = 3 * k + 2 := ⟨i / 3, by omega, by omega⟩
    obtain ⟨hx, hy, hz⟩ := @getLsbD_decode3d code k (by omega)
    rw [decide_eq_true hk, Bool.true_and] at hx hy hz
    rcases hi with rfl | rfl | rfl
    · rw [(getLsbD_encode3d hk).left, hx]
    · rw [(getLsbD_encode3d hk).right.left, hy]
    · rw [(getLsbD_encode3d hk).right.right, hz]
  case neg =>
    have hl := @toNat_encode3d_lt (decode3d code).fst (decode3d code).snd.fst (decode3d code).snd.snd
    rw [BitVec.toNat_lt_iff_getLsbD_eq_false 63 (by decide)] at hc hl
    obtain rfl : i = 63 + 0 := by omega
    rw [hc, hl]

-- The codes and the coordinates name each other, and the bits of a code are those of the coordinates in turns.
theorem codes_interleave :
    (∀ x y : U32,
      (∀ i < 32, (encode2d x y).getLsbD (2 * i) = x.getLsbD i ∧ (encode2d x y).getLsbD (2 * i + 1) = y.getLsbD i) ∧
      decode2d (encode2d x y) = (x, y)) ∧
    (∀ code, encode2d (decode2d code).fst (decode2d code).snd = code) ∧
    (∀ x y z : U32, x.toNat < 2 ^ 21 → y.toNat < 2 ^ 21 → z.toNat < 2 ^ 21 →
      (∀ i < 21, (encode3d x y z).getLsbD (3 * i) = x.getLsbD i ∧ (encode3d x y z).getLsbD (3 * i + 1) = y.getLsbD i ∧
        (encode3d x y z).getLsbD (3 * i + 2) = z.getLsbD i) ∧
      (encode3d x y z).toNat < 2 ^ 63 ∧ decode3d (encode3d x y z) = (x, y, z)) ∧
    ∀ code : U64, code.toNat < 2 ^ 63 →
      (decode3d code).fst.toNat < 2 ^ 21 ∧ (decode3d code).snd.fst.toNat < 2 ^ 21 ∧
      (decode3d code).snd.snd.toNat < 2 ^ 21 ∧
      encode3d (decode3d code).fst (decode3d code).snd.fst (decode3d code).snd.snd = code := by
  refine ⟨fun x y => ⟨fun i hi => ⟨encode2d_even hi, encode2d_odd hi⟩, decode2d_encode2d⟩, fun _ => encode2d_decode2d,
    fun x y z hx hy hz => ⟨fun i hi => getLsbD_encode3d hi, toNat_encode3d_lt, decode3d_encode3d hx hy hz⟩,
    fun code hc => ⟨?_, ?_, ?_, encode3d_decode3d hc⟩⟩
  case refine_1 => exact toNat_coordinate_lt fun _ hi => (getLsbD_decode3d hi).left
  case refine_2 => exact toNat_coordinate_lt fun _ hi => (getLsbD_decode3d hi).right.left
  case refine_3 => exact toNat_coordinate_lt fun _ hi => (getLsbD_decode3d hi).right.right

end Plaza.ServerUtils.Morton
