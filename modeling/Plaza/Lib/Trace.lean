import Mathlib.Data.List.Induction

-- Traces as lists, latest entry last.
namespace Trace

variable {α : Type*} {P C : α → Prop} {R : α → α → Prop} {l l' : List α} {x y : α}

-- An occurrence in a longer trace is its last entry, or it has that entry after it.
theorem split_snoc_iff {P : List α → List α → Prop} :
    (∃ before after, l ++ [y] = before ++ x :: after ∧ P before after) ↔
      y = x ∧ P l [] ∨ ∃ before after, l = before ++ x :: after ∧ P before (after ++ [y]) := by
  constructor
  case mp =>
    rintro ⟨before, after, h, hp⟩
    cases after using List.reverseRecOn
    case nil =>
      obtain ⟨rfl, hx⟩ := List.append_inj' h rfl
      exact .inl ⟨List.singleton_inj.mp hx, hp⟩
    case append_singleton after z _ =>
      rw [← List.cons_append, ← List.append_assoc] at h
      obtain ⟨hl, hx⟩ := List.append_inj' h rfl
      exact .inr ⟨before, after, hl, List.singleton_inj.mp hx ▸ hp⟩
  case mpr =>
    intro h
    cases h
    case inl h =>
      obtain ⟨rfl, hp⟩ := h
      exact ⟨l, [], rfl, hp⟩
    case inr h =>
      obtain ⟨before, after, rfl, hp⟩ := h
      exact ⟨before, after ++ [y], by simp, hp⟩

-- Each entry is as the entries before it allow.
def Each (Q : List α → α → Prop) (l : List α) : Prop :=
  ∀ before x after, l = before ++ x :: after → Q before x

namespace Each

variable {Q : List α → α → Prop}

theorem nil : Each Q [] := by
  intro before x after h
  cases before <;> cases h

theorem snoc_iff : Each Q (l ++ [x]) ↔ Each Q l ∧ Q l x := by
  constructor
  case mp =>
    intro h
    refine ⟨fun before y after hl => ?_, h l x [] rfl⟩
    exact h before y (after ++ [x]) (by rw [hl, List.append_assoc, List.cons_append])
  case mpr =>
    intro ⟨hl, hx⟩ before y after h
    cases after using List.reverseRecOn
    case nil =>
      have ⟨h₁, h₂⟩ := List.append_inj' h rfl
      cases h₂
      exact h₁ ▸ hx
    case append_singleton after z _ =>
      rw [←List.cons_append, ←List.append_assoc] at h
      exact hl before y after (List.append_inj' h rfl).left

end Each

-- Each entry with `P` comes after an entry which is related to it.
def Preceded (P : α → Prop) (R : α → α → Prop) (l : List α) : Prop :=
  ∀ before x after, l = before ++ x :: after → P x → ∃ y ∈ before, R y x

namespace Preceded

theorem nil : Preceded P R [] :=
  Each.nil (Q := fun before x => P x → ∃ y ∈ before, R y x)

theorem snoc_iff : Preceded P R (l ++ [x]) ↔ Preceded P R l ∧ (P x → ∃ y ∈ l, R y x) :=
  Each.snoc_iff (Q := fun before x => P x → ∃ y ∈ before, R y x)

theorem append_of_not (h : ∀ x ∈ l', ¬P x) : Preceded P R (l ++ l') ↔ Preceded P R l := by
  induction l' generalizing l
  case nil => rw [List.append_nil]
  case cons x l' hi =>
    have hx : ¬P x := h x List.mem_cons_self
    rw [List.append_cons, hi fun y hy => h y <| List.mem_cons_of_mem _ hy, snoc_iff]
    exact and_iff_left fun hp => absurd hp hx

end Preceded

-- There is an entry with `P` after which no entry has `C`.
def Open (P C : α → Prop) (l : List α) : Prop :=
  ∃ before x after, l = before ++ x :: after ∧ P x ∧ ∀ y ∈ after, ¬C y

namespace Open

theorem not_nil : ¬Open P C [] := by
  intro ⟨before, _, _, h, _⟩
  cases before <;> cases h

theorem snoc_iff : Open P C (l ++ [y]) ↔ P y ∨ (¬C y ∧ Open P C l) := by
  have hs := fun x => @split_snoc_iff _ l x y fun _ after => P x ∧ ∀ y ∈ after, ¬C y
  constructor
  case mp =>
    rintro ⟨before, x, after, h, hp⟩
    cases (hs x).mp ⟨before, after, h, hp⟩
    case inl h => exact .inl (h.left ▸ h.right.left)
    case inr h =>
      obtain ⟨before, after, hl, hx, ha⟩ := h
      exact .inr ⟨ha y (by simp), before, x, after, hl, hx, fun z hz => ha z (List.mem_append_left _ hz)⟩
  case mpr =>
    intro h
    cases h
    case inl hy =>
      obtain ⟨before, after, h⟩ := (hs y).mpr (.inl ⟨rfl, hy, by simp⟩)
      exact ⟨before, y, after, h⟩
    case inr h =>
      obtain ⟨hy, before, x, after, hl, hx, ha⟩ := h
      have ha : ∀ z ∈ after ++ [y], ¬C z := by
        intro z hz
        cases List.mem_append.mp hz
        case inl hz => exact ha z hz
        case inr hz => exact List.mem_singleton.mp hz ▸ hy
      obtain ⟨before, after, h⟩ := (hs x).mpr (.inr ⟨before, after, hl, hx, ha⟩)
      exact ⟨before, x, after, h⟩

end Open

-- The last of the entries with `P`.
def Latest (P : α → Prop) (l : List α) (x : α) : Prop :=
  ∃ before after, l = before ++ x :: after ∧ P x ∧ ∀ y ∈ after, ¬P y

namespace Latest

theorem not_nil : ¬Latest P [] x := by
  intro ⟨before, _, h, _⟩
  cases before <;> cases h

theorem iff_open : Latest P l x ↔ Open (fun y => y = x ∧ P y) P l := by
  constructor
  case mp  => exact fun ⟨before, after, h, hx, ha⟩ => ⟨before, x, after, h, ⟨rfl, hx⟩, ha⟩
  case mpr => exact fun ⟨before, _, after, h, ⟨he, hx⟩, ha⟩ => ⟨before, after, he ▸ h, he ▸ hx, ha⟩

theorem snoc_iff : Latest P (l ++ [y]) x ↔ (P y ∧ x = y) ∨ (¬P y ∧ Latest P l x) := by
  rw [iff_open, iff_open, Open.snoc_iff, and_comm, eq_comm]

theorem unique (hx : Latest P l x) (hy : Latest P l y) : x = y := by
  induction l using List.reverseRecOn
  case nil => exact absurd hx not_nil
  case append_singleton l z ih =>
    cases snoc_iff.mp hx <;> cases snoc_iff.mp hy
    case inl.inl hx hy => exact hx.right.trans hy.right.symm
    case inl.inr hx hy => exact absurd hx.left hy.left
    case inr.inl hx hy => exact absurd hy.left hx.left
    case inr.inr hx hy => exact ih hx.right hy.right

-- An entry with `P` is the latest one, or it comes before that.
theorem mem_after {before after : List α} (h : Latest P (before ++ x :: after) y) (hx : P x) :
    y = x ∨ y ∈ after := by
  induction after using List.reverseRecOn
  case nil =>
    cases snoc_iff.mp h
    case inl h => exact .inl h.right
    case inr h => exact absurd hx h.left
  case append_singleton after z ih =>
    rw [←List.cons_append, ←List.append_assoc] at h
    cases snoc_iff.mp h
    case inl h => exact .inr (by simp [h.right])
    case inr h =>
      cases ih h.right
      case inl hy => exact .inl hy
      case inr hy => exact .inr (List.mem_append_left _ hy)

end Latest
end Trace
