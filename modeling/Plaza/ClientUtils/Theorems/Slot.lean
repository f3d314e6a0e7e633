import Mathlib.Data.List.Nodup
import Mathlib.Logic.Function.Basic
import Plaza.ClientUtils.Slot

namespace Plaza.ClientUtils.SlotAllocator

variable {a a' : SlotAllocator} {key : SlotKey} {index : BitVec 32} {rest : List (BitVec 32)}
variable {generation : BitVec 16} {policy : ReusePolicy}
variable {i : Nat}

-- The policy decides which index is taken and nothing else.
theorem popFree_perm (h : a.popFree = some (index, rest)) : a.freeList.Perm (index :: rest) := by
  simp only [popFree] at h
  split at h
  case h_1 =>
    simp only [Option.map_eq_some_iff, Prod.mk.injEq] at h
    have ⟨_, h, hi, hr⟩ := h
    rw [← List.dropLast_append_getLast? _ h, hi, hr]
    exact List.perm_append_singleton ..
  case h_2 =>
    simp only [Option.map_eq_some_iff, Prod.mk.injEq] at h
    have ⟨_, h, hi, hr⟩ := h
    rw [List.eq_cons_of_mem_head? h, hi, hr]

theorem popFree_eq_none (h : a.popFree = none) : a.freeList = [] := by
  simp only [popFree] at h
  split at h <;> simpa using h

-- What an allocation comes to: a slot of the free list is taken, or one is added when there is none.
theorem alloc_cases (h : a.alloc = some (a', key)) :
    (a.freeList.Perm (key.index :: a'.freeList) ∧
      (∃ occupied, a.slots[key.index.toNat]? = some (key.generation, occupied)) ∧
      a'.slots = a.slots.set key.index.toNat (key.generation, true) ∧ a'.live = a.live + 1) ∨
    (a.freeList = [] ∧ a'.freeList = [] ∧ a'.slots = a.slots ++ [(0, true)] ∧ a'.live = a.live + 1) := by
  simp only [alloc] at h
  split at h
  case h_1 index rest hp =>
    simp only [Option.map_eq_some_iff, Prod.mk.injEq] at h
    have ⟨⟨generation, occupied⟩, hg, ha, hk⟩ := h
    subst ha hk
    exact .inl ⟨popFree_perm hp, ⟨occupied, hg⟩, rfl, rfl⟩
  case h_2 hp =>
    have hp := popFree_eq_none hp
    simp only [Option.some.injEq, Prod.mk.injEq] at h
    have ⟨ha, hk⟩ := h
    subst ha hk
    exact .inr ⟨hp, hp, rfl, rfl⟩

-- An index space which fits into the handles has a handle for each index.
theorem nodup_indices (h : i ≤ 2 ^ 32) : (List.range i |>.map (BitVec.ofNat 32 ·)).Nodup := by
  refine List.Nodup.map_on (fun j hj k hk he => ?_) List.nodup_range
  have he := congrArg BitVec.toNat he
  rw [List.mem_range] at hj hk
  rwa [BitVec.toNat_ofNat, BitVec.toNat_ofNat, Nat.mod_eq_of_lt (by omega), Nat.mod_eq_of_lt (by omega)] at he

-- The free list names each slot which is not occupied once, and the counters agree with the slots.
structure Kept (a : SlotAllocator) : Prop where
  nodup   : a.freeList.Nodup
  mem_iff : ∀ index, index ∈ a.freeList ↔ ∃ generation, a.slots[index.toNat]? = some (generation, false)
  live_eq : a.live = a.occupied
  balance : a.live + a.freeList.length = a.indexSpace

namespace Kept

protected theorem new : (new policy).Kept where
  nodup   := .nil
  mem_iff := by simp [SlotAllocator.new]
  live_eq := rfl
  balance := rfl

theorem alloc_isSome (h : a.Kept) : a.alloc.isSome := by
  simp only [alloc]
  split
  case h_1 index rest hp =>
    have ⟨generation, hg⟩ := (h.mem_iff index).mp ((popFree_perm hp).mem_iff.mpr (.head _))
    simp [hg]
  case h_2 => rfl

theorem occupied_set {s : BitVec 16 × Bool} (hs : a.slots[i]? = some s) (generation : BitVec 16) (o : Bool) :
    (a.slots.set i (generation, o)).countP (·.snd) + s.snd.toNat = a.occupied + o.toNat := by
  have ⟨hi, hs⟩ := List.getElem?_eq_some_iff.mp hs
  have hle : s.snd.toNat ≤ a.occupied := by
    cases ho : s.snd
    case false => exact Nat.zero_le _
    case true  => exact List.countP_pos_iff.mpr ⟨s, hs ▸ List.getElem_mem hi, ho⟩
  rw [List.countP_set hi, hs]
  simp only [occupied] at hle ⊢
  cases ho : s.snd <;> cases o <;> simp_all

protected theorem alloc (h : a.Kept) (hs : a.alloc = some (a', key)) : a'.Kept := by
  cases alloc_cases hs
  case inl hc =>
    have ⟨hp, ⟨_, hg⟩, hsl, hl⟩ := hc
    have ⟨_, hv⟩ := (h.mem_iff _).mp (hp.mem_iff.mpr (.head _))
    cases hg.symm.trans hv
    have hn := List.nodup_cons.mp (hp.nodup_iff.mp h.nodup)
    refine ⟨hn.right, ?_, ?_, ?_⟩
    case refine_1 =>
      intro index
      have hm := h.mem_iff index
      rw [hp.mem_iff, List.mem_cons] at hm
      by_cases hi : index = key.index
      case pos =>
        subst hi
        have ⟨hlt, _⟩ := List.getElem?_eq_some_iff.mp hg
        simp [hn.left, hsl, hlt]
      case neg =>
        have hi' : key.index.toNat ≠ index.toNat := fun h => hi (BitVec.eq_of_toNat_eq h).symm
        simpa [hsl, hi, hi'] using hm
    case refine_2 =>
      have hc := occupied_set hg key.generation true
      simp only [occupied, hsl, hl, h.live_eq] at hc ⊢
      simpa using hc.symm
    case refine_3 =>
      have hb := h.balance
      rw [hp.length_eq, List.length_cons] at hb
      simp only [indexSpace, hsl, List.length_set, hl] at hb ⊢
      omega
  case inr hc =>
    have ⟨hf, hf', hsl, hl⟩ := hc
    refine ⟨hf' ▸ .nil, ?_, ?_, ?_⟩
    case refine_1 =>
      intro index
      have hm := h.mem_iff index
      simp only [hf, hf', List.not_mem_nil, false_iff, hsl, List.getElem?_append] at hm ⊢
      split
      case isTrue  => exact hm
      case isFalse => rw [List.getElem?_singleton]; split <;> simp
    case refine_2 => simp [occupied, hsl, hl, h.live_eq]
    case refine_3 =>
      have hb := h.balance
      simp only [hf, List.length_nil, indexSpace] at hb
      simp [hf', hl, hsl, indexSpace, ← hb]

end Kept

-- A key frees the slot whose occupant it names, or it changes nothing.
theorem free_cases (a : SlotAllocator) (key : SlotKey) :
    (a.slots[key.index.toNat]? = some (key.generation, true) ∧
      a.free key = ({ a with
        slots    := a.slots.set key.index.toNat (key.generation + 1, false)
        freeList := a.freeList ++ [key.index]
        live     := a.live - 1 }, true)) ∨
    (¬a.isLive key ∧ a.free key = (a, false)) := by
  simp only [free, isLive]
  split
  case h_1 h => exact .inr (by simp [h])
  case h_2 generation occupied h =>
    split
    case isTrue hc  => exact .inr <| by cases occupied <;> simp_all
    case isFalse hc => simp_all

theorem isLive_iff : a.isLive key ↔ a.slots[key.index.toNat]? = some (key.generation, true) := by
  simp only [isLive]
  cases a.slots[key.index.toNat]?
  case none   => simp
  case some s => obtain ⟨_, _⟩ := s; simp [and_comm]

namespace Kept

protected theorem free (h : a.Kept) : (a.free key).fst.Kept := by
  cases free_cases a key
  case inr hc => rw [hc.right]; exact h
  case inl hc =>
    have ⟨hg, hf⟩ := hc
    have ⟨hlt, _⟩ := List.getElem?_eq_some_iff.mp hg
    have hk : key.index ∉ a.freeList := fun hm => by
      have ⟨_, hv⟩ := (h.mem_iff _).mp hm
      simp [hg] at hv
    have ho := occupied_set hg (key.generation + 1) false
    have hb := h.balance
    have hl := h.live_eq
    simp only [Bool.toNat_true, Bool.toNat_false, occupied] at ho hl
    rw [hf]
    refine ⟨?_, ?_, ?_, ?_⟩
    case refine_1 => exact List.nodup_append_comm.mp <| List.nodup_cons.mpr ⟨hk, h.nodup⟩
    case refine_2 =>
      intro index
      have hm := h.mem_iff index
      by_cases hi : index = key.index
      case pos => subst hi; simp [hlt]
      case neg =>
        have hi' : key.index.toNat ≠ index.toNat := fun h => hi (BitVec.eq_of_toNat_eq h).symm
        simpa [hi, hi'] using hm
    case refine_3 => simp only [occupied]; omega
    case refine_4 =>
      simp only [indexSpace, List.length_append, List.length_set, List.length_singleton] at hb ⊢
      omega

protected theorem clear (hs : a.indexSpace ≤ 2 ^ 32) : a.clear.Kept where
  nodup := nodup_indices hs
  mem_iff index := by
    have h : (∃ generation, a.clear.slots[index.toNat]? = some (generation, false)) ↔
        index.toNat < a.slots.length := by
      simp only [SlotAllocator.clear, List.getElem?_map, Option.map_eq_some_iff]
      constructor
      case mp  => exact fun ⟨_, _, hs, _⟩ => (List.getElem?_eq_some_iff.mp hs).choose
      case mpr => exact fun hs => ⟨_, _, List.getElem?_eq_getElem hs, rfl⟩
    rw [h, SlotAllocator.clear, List.mem_map]
    constructor
    case mp =>
      intro ⟨i, hi, he⟩
      rw [← he, BitVec.toNat_ofNat]
      exact Nat.lt_of_le_of_lt (Nat.mod_le ..) (List.mem_range.mp hi)
    case mpr => exact fun h => ⟨_, List.mem_range.mpr h, BitVec.ofNat_toNat ..⟩
  live_eq := by simp [SlotAllocator.clear, occupied, Function.comp_def]
  balance := by simp [SlotAllocator.clear, indexSpace]

end Kept

theorem nodup_iter (h : a.indexSpace ≤ 2 ^ 32) : a.iter.Nodup := by
  refine .of_map SlotKey.index ?_
  have hs : (a.iter.map SlotKey.index).Sublist (List.range a.slots.length |>.map (BitVec.ofNat 32 ·)) := by
    have hz : List.range a.slots.length = a.slots.zipIdx.map Prod.snd := by
      rw [List.zipIdx_map_snd, List.range_eq_range']
    rw [hz, iter, List.map_map, List.map_map]
    exact List.filter_sublist.map _
  exact (nodup_indices h).sublist hs

end Plaza.ClientUtils.SlotAllocator

namespace Plaza.ClientUtils.SlotAllocator

variable {policy : ReusePolicy} {calls : List Call} {call : Call} {t t' : Tracked} {key : SlotKey} {i n : Nat}

namespace Tracked

-- All there is to say of an allocator whose indices have a handle each.
structure Kept (t : Tracked) : Prop extends t.allocator.Kept where
  distinct  : t.allocator.iter.Nodup
  high_mark : t.allocator.indexSpace = t.peak

-- A generation counts how often its slot was freed.
structure Counted (t : Tracked) : Prop where
  generation : ∀ i (s : BitVec 16 × Bool), t.allocator.slots[i]? = some s → s.fst = .ofNat 16 (t.frees i)
  unused     : ∀ i, t.allocator.indexSpace ≤ i → t.frees i = 0

theorem alloc_eq (h : t.alloc = some t') : ∃ a key, t.allocator.alloc = some (a, key) ∧
    t' = { t with allocator := a, peak := max t.peak a.occupied } := by
  simp only [Tracked.alloc, Option.map_eq_some_iff] at h
  have ⟨⟨a, key⟩, ha, ht⟩ := h
  exact ⟨a, key, ha, ht.symm⟩

theorem free_cases (t : Tracked) (key : SlotKey) :
    (t.allocator.slots[key.index.toNat]? = some (key.generation, true) ∧
      (t.free key).allocator.slots = t.allocator.slots.set key.index.toNat (key.generation + 1, false) ∧
      (t.free key).frees = Function.update t.frees key.index.toNat (t.frees key.index.toNat + 1)) ∨
    t.free key = t := by
  cases SlotAllocator.free_cases t.allocator key
  case inl hc =>
    refine .inl ⟨hc.left, by simp [Tracked.free, hc.right], ?_⟩
    funext i
    by_cases hi : i = key.index.toNat <;> simp [Tracked.free, hc.right, hi]
  case inr hc => exact .inr <| by simp [Tracked.free, hc.right]

-- The index space never shrinks.
theorem indexSpace_mono (h : machine.step t call = some t') :
    t.allocator.indexSpace ≤ t'.allocator.indexSpace := by
  cases call
  case alloc =>
    have ⟨a, key, ha, ht⟩ := alloc_eq h
    subst ht
    cases alloc_cases ha
    case inl hc => simp [indexSpace, hc.right.right.left]
    case inr hc => simp [indexSpace, hc.right.right.left]
  case free key =>
    cases h
    cases free_cases t key
    case inl hc => simp [indexSpace, hc.right.left]
    case inr hc => rw [hc]
  case clear =>
    cases h
    simp [Tracked.clear, SlotAllocator.clear, indexSpace]

namespace Counted

protected theorem start : (start policy).Counted where
  generation := by simp [Tracked.start, SlotAllocator.new]
  unused     := fun _ _ => rfl

protected theorem alloc (h : t.Counted) (hs : t.alloc = some t') : t'.Counted := by
  obtain ⟨a, key, ha, ht⟩ := alloc_eq hs
  subst ht
  cases alloc_cases ha
  case inl hc =>
    obtain ⟨_, ⟨_, hg⟩, hsl, _⟩ := hc
    constructor
    case generation =>
      intro i s hs
      rw [hsl, List.getElem?_set] at hs
      split at hs
      case isTrue hi =>
        split at hs
        case isTrue =>
          have hg := h.generation _ _ hg
          cases hs
          exact hi ▸ hg
        case isFalse => contradiction
      case isFalse => exact h.generation i s hs
    case unused => exact fun i hi => h.unused i <| by simpa [indexSpace, hsl] using hi
  case inr hc =>
    obtain ⟨_, _, hsl, _⟩ := hc
    constructor
    case generation =>
      intro i s hs
      rw [hsl, List.getElem?_append] at hs
      split at hs
      case isTrue     => exact h.generation i s hs
      case isFalse hi =>
        rw [List.getElem?_singleton] at hs
        split at hs
        case isTrue  => cases hs; simp [h.unused i (Nat.not_lt.mp hi)]
        case isFalse => contradiction
    case unused =>
      intro i hi
      refine h.unused i ?_
      simp only [indexSpace, hsl, List.length_append] at hi
      exact Nat.le_of_add_right_le hi

protected theorem free (h : t.Counted) : (t.free key).Counted := by
  cases free_cases t key
  case inr hc => rw [hc]; exact h
  case inl hc =>
    have ⟨hg, hsl, hf⟩ := hc
    have ⟨hlt, _⟩ := List.getElem?_eq_some_iff.mp hg
    constructor
    case generation =>
      intro i s hs
      rw [hsl, List.getElem?_set] at hs
      split at hs
      case isTrue hi =>
        subst hi
        cases hs
        have hg := h.generation _ _ hg
        simp_all [BitVec.ofNat_add]
      case isFalse hi =>
        rw [hf, Function.update_of_ne (Ne.symm hi)]
        exact h.generation i s hs
    case unused =>
      intro i hi
      simp only [indexSpace, hsl, List.length_set] at hi
      rw [hf, Function.update_of_ne (by omega)]
      exact h.unused i hi

protected theorem clear (h : t.Counted) : t.clear.Counted where
  generation i s hs := by
    simp only [Tracked.clear, SlotAllocator.clear, List.getElem?_map, Option.map_eq_some_iff] at hs ⊢
    obtain ⟨⟨generation, occupied⟩, hg, hs⟩ := hs
    have h := h.generation _ _ hg
    subst hs
    cases occupied <;> simp_all [BitVec.ofNat_add]
  unused i hi := by
    simp only [Tracked.clear, SlotAllocator.clear, indexSpace, List.length_map] at hi ⊢
    rw [List.getElem?_eq_none hi]
    exact h.unused i hi

protected theorem step (h : t.Counted) (hs : machine.step t call = some t') : t'.Counted := by
  cases call
  case alloc => exact h.alloc hs
  case free  => cases hs; exact h.free
  case clear => cases hs; exact h.clear

theorem of_steps (h : machine.Steps (start policy) calls t) : t.Counted :=
  h.preserves Counted.step .start

end Counted

namespace Kept

protected theorem start : (start policy).Kept where
  toKept    := .new
  distinct  := .nil
  high_mark := rfl

theorem alloc (h : t.Kept) (hs : t.alloc = some t') (hb : t'.allocator.indexSpace ≤ 2 ^ 32) : t'.Kept := by
  obtain ⟨a, key, ha, ht⟩ := alloc_eq hs
  subst ht
  have hk := h.toKept.alloc ha
  refine ⟨hk, nodup_iter hb, ?_⟩
  have hm := h.high_mark
  have hb := h.balance
  have hl := hk.live_eq
  cases alloc_cases ha
  case inl hc =>
    obtain ⟨hp, _, hsl, hlv⟩ := hc
    rw [hp.length_eq, List.length_cons] at hb
    simp only [indexSpace, hsl, List.length_set] at hm hb ⊢
    omega
  case inr hc =>
    obtain ⟨hf, _, hsl, hlv⟩ := hc
    rw [hf, List.length_nil] at hb
    simp only [indexSpace, hsl, List.length_append, List.length_singleton] at hm hb ⊢
    omega

theorem step (h : t.Kept) (hs : machine.step t call = some t') (hb : t'.allocator.indexSpace ≤ 2 ^ 32) :
    t'.Kept := by
  cases call
  case alloc    => exact h.alloc hs hb
  case free key =>
    cases hs
    have hm : (t.free key).allocator.indexSpace = t.allocator.indexSpace := by
      cases Tracked.free_cases t key
      case inl hc => simp [indexSpace, hc.right.left]
      case inr hc => rw [hc]
    exact ⟨h.toKept.free, nodup_iter hb, hm ▸ h.high_mark⟩
  case clear =>
    cases hs
    refine ⟨.clear (by simpa [Tracked.clear, SlotAllocator.clear, indexSpace] using hb), nodup_iter hb, ?_⟩
    simpa [Tracked.clear, SlotAllocator.clear, indexSpace] using h.high_mark

theorem of_steps (h : machine.Steps (start policy) calls t) (hb : t.allocator.indexSpace ≤ 2 ^ 32) :
    t.Kept := by
  refine h.preserves (I := fun t => t.allocator.indexSpace ≤ 2 ^ 32 → t.Kept) ?_ (fun _ => .start) hb
  exact fun hi hs hb => (hi <| Nat.le_trans (indexSpace_mono hs) hb).step hs hb

end Kept

theorem frees_mono (h : machine.step t call = some t') : t.frees i ≤ t'.frees i := by
  cases call
  case alloc =>
    have ⟨_, _, _, ht⟩ := alloc_eq h
    simp [ht]
  case free  => cases h; simp only [Tracked.free]; split <;> omega
  case clear => cases h; simp only [Tracked.clear]; split <;> omega

-- A live key stays live until its slot is freed.
theorem isLive_or_freed (hl : t.allocator.isLive key) (h : machine.step t call = some t') :
    t'.allocator.isLive key ∨ t'.frees key.index.toNat = t.frees key.index.toNat + 1 := by
  rw [isLive_iff] at hl ⊢
  have ⟨hlt, _⟩ := List.getElem?_eq_some_iff.mp hl
  cases call
  case alloc =>
    have ⟨a, key', ha, ht⟩ := alloc_eq h
    subst ht
    refine .inl ?_
    cases alloc_cases ha
    case inr hc => rw [hc.right.right.left, List.getElem?_append_left hlt, hl]
    case inl hc =>
      have ⟨_, ⟨_, hg⟩, hsl, _⟩ := hc
      rw [hsl, List.getElem?_set]
      split
      case isFalse => exact hl
      case isTrue hi =>
        rw [hi, hl] at hg
        have hg := (Prod.mk.inj <| Option.some.inj hg).left
        simp [hi, hlt, hg]
  case free key' =>
    cases h
    cases Tracked.free_cases t key'
    case inr hc => rw [hc]; exact .inl hl
    case inl hc =>
      have ⟨_, hsl, hf⟩ := hc
      by_cases hi : key'.index.toNat = key.index.toNat
      case pos => exact .inr <| by simp [hf, hi]
      case neg => exact .inl <| by rw [hsl, List.getElem?_set_ne hi, hl]
  case clear =>
    cases h
    exact .inr <| by simp [Tracked.clear, hl]

-- A key that is freed, be it by its own slot's release or by all slots being cleared, is not live again before
-- its slot was freed so many times more.
def RetiresFor (further : Nat) (t : Tracked) : Prop :=
  ∀ key call calls t₁ t₂, t.allocator.isLive key → machine.step t call = some t₁ →
    ¬t₁.allocator.isLive key → machine.Steps t₁ calls t₂ → t₂.allocator.isLive key →
    t₁.frees key.index.toNat + further ≤ t₂.frees key.index.toNat

-- The handle comes back when the generation has gone once around, its own release included.
theorem Counted.retires (h : t.Counted) : t.RetiresFor (2 ^ 16 - 1) := by
  intro key call calls t₁ t₂ hl hs hd hst hl'
  have hf : t₁.frees key.index.toNat = t.frees key.index.toNat + 1 :=
    (isLive_or_freed hl hs).resolve_left hd
  have hm : t₁.frees key.index.toNat ≤ t₂.frees key.index.toNat :=
    hst.relates (R := fun t t' : Tracked => t.frees key.index.toNat ≤ t'.frees key.index.toNat)
      (fun _ => Nat.le_refl _) Nat.le_trans frees_mono
  have h₂ : t₂.Counted := hst.preserves Counted.step (h.step hs)
  have hg := congrArg BitVec.toNat <|
    (h.generation _ _ (isLive_iff.mp hl)).symm.trans (h₂.generation _ _ (isLive_iff.mp hl'))
  rw [BitVec.toNat_ofNat, BitVec.toNat_ofNat] at hg
  omega

end Tracked

theorem kept_and_retires (h : machine.Steps (.start policy) calls t) :
    (t.allocator.indexSpace ≤ 2 ^ 32 → t.Kept) ∧ t.RetiresFor 65535 :=
  ⟨.of_steps h, (Tracked.Counted.of_steps h).retires⟩

theorem kept_and_retires_reused :
    let t : Tracked := { Tracked.start .fifo with
      allocator := { slots := [(0, true)], freeList := [], policy := .fifo, live := 1 }, peak := 1 }
    let t := t.free { index := 0, generation := 0 }
    (t.allocator.indexSpace ≤ 2 ^ 32 → t.Kept) ∧ t.RetiresFor 65535 :=
  have h : machine.Steps (.start .fifo) [.alloc, .free { index := 0, generation := 0 }] _ :=
    .step rfl <| .step rfl .refl
  kept_and_retires h

-- So many allocations and no release.
def filled (n : Nat) : Tracked where
  allocator := { slots := .replicate n (0, true), freeList := [], policy := .lifo, live := n }
  frees     := fun _ => 0
  peak      := n

theorem filled_steps : machine.Steps (.start .lifo) (.replicate n .alloc) (filled n) := by
  induction n
  case zero => exact .refl
  case succ n hi =>
    rw [List.replicate_succ']
    refine hi.trans <| .step ?_ .refl
    simp [machine, Tracked.alloc, alloc, popFree, filled, occupied, List.replicate_succ',
      List.countP_replicate]

-- One slot which was freed so many times and is occupied again.
def reused (n : Nat) : Tracked where
  allocator := { slots := [(.ofNat 16 n, true)], freeList := [], policy := .lifo, live := 1 }
  frees     := fun index => if index = 0 then n else 0
  peak      := 1

theorem reused_free_steps :
    machine.Steps ((reused n).free { index := 0, generation := .ofNat 16 n }) [.alloc] (reused (n + 1)) := by
  refine .step ?_ .refl
  simp [machine, Tracked.free, Tracked.alloc, free, alloc, popFree, reused, occupied, BitVec.ofNat_add]
  funext index
  by_cases h : index = 0 <;> simp [h]

theorem reused_steps (k : Nat) : ∃ calls, machine.Steps (reused n) calls (reused (n + k)) := by
  induction k
  case zero => exact ⟨[], .refl⟩
  case succ k hi =>
    have ⟨calls, h⟩ := hi
    let key : SlotKey := { index := 0, generation := .ofNat 16 (n + k) }
    exact ⟨_, h.trans <| .step (e := .free key) rfl reused_free_steps⟩

theorem iter_filled : (filled n).allocator.iter =
    (List.range n).map fun index => { index := .ofNat 32 index, generation := 0 } := by
  have hz : (List.replicate n ((0 : BitVec 16), true)).zipIdx = (List.range n).map ((0, true), ·) := by
    apply List.ext_getElem <;> simp
  rw [iter, filled, hz, List.filter_eq_self.mpr (by simp), List.map_map]
  rfl

theorem filled_repeats (h : 2 ^ 32 < n) : ¬(filled n).allocator.iter.Nodup := by
  intro hn
  rw [iter_filled] at hn
  have hn := List.inj_on_of_nodup_map hn (List.mem_range.mpr (Nat.zero_lt_of_lt h)) (List.mem_range.mpr h) rfl
  contradiction

theorem alloc_reused : machine.Steps (.start .lifo) [.alloc] (reused 0) := by
  refine .step ?_ .refl
  simp [machine, Tracked.alloc, Tracked.start, alloc, popFree, new, reused, occupied]

-- A handle names no slot alone beyond the indices it can hold, and it comes back one release earlier.
theorem handles_repeat :
    (¬∀ (policy : ReusePolicy) (calls : List Call) (t : Tracked),
      machine.Steps (.start policy) calls t → t.allocator.iter.Nodup) ∧
    ¬∀ (policy : ReusePolicy) (calls : List Call) (t : Tracked),
      machine.Steps (.start policy) calls t → t.RetiresFor 65536 := by
  constructor
  case left =>
    exact fun h => filled_repeats (Nat.lt_succ_self _) <| h .lifo _ (filled (2 ^ 32 + 1)) filled_steps
  case right =>
    intro h
    have ⟨calls, hs⟩ := reused_steps (n := 1) 65535
    have h := h .lifo [.alloc] (reused 0) alloc_reused { index := 0, generation := 0 }
      (.free { index := 0, generation := 0 }) (.alloc :: calls) _ (reused 65536) rfl rfl
      (by decide) (reused_free_steps.trans hs) rfl
    contradiction

end Plaza.ClientUtils.SlotAllocator
