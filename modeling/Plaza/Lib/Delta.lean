import Mathlib.Order.BooleanAlgebra.Basic

-- Differences between the members of a lattice of sets. A delta is absolute: applying it removes
-- everything in `left` and then adds everything in `entered`, whatever was held before.
@[ext]
structure Delta (α : Type*) where
  entered : α
  left    : α
  deriving DecidableEq

namespace Delta

variable {α : Type*} [GeneralizedBooleanAlgebra α] {held lower upper current : α} {d : Delta α}

def apply (d : Delta α) (held : α) : α :=
  (held \ d.left) ⊔ d.entered

-- The delta towards `current` for a holder of which only two bounds are known: it sends what the
-- holder may lack, and retracts what it may hold.
def between (lower upper current : α) : Delta α where
  entered := current \ lower
  left    := upper \ current

def full (current : α) : Delta α :=
  between ⊥ ⊥ current

theorem between_apply (hl : lower ≤ held) (hu : held ≤ upper) :
    (between lower upper current).apply held = current := by
  have h₁ : held \ (upper \ current) = held ⊓ current := by
    rw [sdiff_sdiff_right, sdiff_eq_bot_iff.mpr hu, bot_sup_eq, inf_of_le_left hu]
  have h₂ : held ⊓ current ⊔ current \ lower = current := by
    apply le_antisymm
    · exact sup_le inf_le_right sdiff_le
    · calc
        current = current ⊓ held ⊔ current \ held   := (sup_inf_sdiff ..).symm
        _       ≤ held ⊓ current ⊔ current \ lower := sup_le_sup (inf_comm ..).le (sdiff_le_sdiff_left hl)
  simp only [apply, between, h₁, h₂]

theorem full_apply_bot : (full current).apply ⊥ = current :=
  between_apply le_rfl le_rfl

end Delta

-- Stamped states, oldest first, and the bounds they give for a holder that has reached the state
-- `base` at stamp `since` and after that any of the later ones.
namespace History

variable {α : Type*} [Lattice α]

def floor (since : Nat) : α → List (Nat × α) → α
  | base, []                     => base
  | base, (stamp, state) :: hist => floor since (if since < stamp then base ⊓ state else base) hist

def ceil (since : Nat) : α → List (Nat × α) → α
  | base, []                     => base
  | base, (stamp, state) :: hist => ceil since (if since < stamp then base ⊔ state else base) hist

variable {since stamp : Nat} {base state : α} {hist : List (Nat × α)}

theorem floor_le_base : floor since base hist ≤ base := by
  induction hist generalizing base <;> simp only [floor]
  case nil => exact le_rfl
  case cons hi =>
    apply le_trans hi
    split <;> [exact inf_le_left; exact le_rfl]

theorem base_le_ceil : base ≤ ceil since base hist := by
  induction hist generalizing base <;> simp only [ceil]
  case nil => exact le_rfl
  case cons hi =>
    apply le_trans ?_ hi
    split <;> [exact le_sup_left; exact le_rfl]

theorem floor_le_of_mem (hm : (stamp, state) ∈ hist) (hs : since < stamp) :
    floor since base hist ≤ state := by
  induction hist generalizing base <;> cases hm
  case cons.head =>
    rw [floor, if_pos hs]
    exact floor_le_base.trans inf_le_right
  case cons.tail hi hm => exact hi hm

theorem le_ceil_of_mem (hm : (stamp, state) ∈ hist) (hs : since < stamp) :
    state ≤ ceil since base hist := by
  induction hist generalizing base <;> cases hm
  case cons.head =>
    rw [ceil, if_pos hs]
    exact le_sup_right.trans base_le_ceil
  case cons.tail hi hm => exact hi hm

end History
