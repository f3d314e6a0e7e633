import Plaza.ClientUtils.Theorems.Ack
import Plaza.ClientUtils.Theorems.Mirror
import Plaza.Protocols.Mirror

open Rust
open Plaza.ClientUtils

namespace Plaza.Protocols.Mirror

variable {E : Type} {o : Overflow} {m m' m₁ m₂ : DeltaMirror E} {e : Event E} {es : List (Event E)} {d : Delta E}
variable {c : Change E} {cs : List (Change E)} {key : SlotKey} {generational : Bool} {i : BitVec 32}
variable {held : Option (Held E)} {past : List U64} {seq : U64}

-- What changes do to a slot: it is filled or emptied whatever was in it, or its occupant leaves or gets an entity,
-- as its generation says.
inductive Effect (E : Type)
  | put (held : Option (Held E))
  | adjust (f : BitVec 16 → Option (Option E))

def Effect.act : Effect E → Option (Held E) → Option (Held E)
  | put held, _    => held
  | adjust f, held =>
    held.bind fun h => (f h.generation).map fun entity => { h with entity := entity.getD h.entity }

theorem Effect.act_act (eff : Effect E) : eff.act (eff.act held) = eff.act held := by
  cases eff
  case put => rfl
  case adjust f =>
    cases held
    case none => rfl
    case some h =>
      cases hf : f h.generation
      case none             => simp [act, hf]
      case some entity      => cases entity <;> simp [act, hf]

-- The generation under which a key is filed.
def tag (generational : Bool) (key : SlotKey) : BitVec 16 :=
  if generational then key.generation else 0

-- What a change makes of the slot `i`.
def Change.slot (generational : Bool) (i : BitVec 32) : Change E → Option (Held E) → Option (Held E)
  | enter key entity, held  => if key.index = i then some ⟨tag generational key, entity⟩ else held
  | leave key, held         => if key.index = i then held.filter (·.generation ≠ tag generational key) else held
  | sample key entity, held =>
    if key.index = i then
      held.map fun h => if h.generation = tag generational key then { h with entity } else h
    else held

theorem Change.exists_effect (c : Change E) (eff : Effect E) :
    ∃ eff', ∀ held, c.slot generational i (eff.act held) = Effect.act eff' held := by
  cases c
  case enter key entity =>
    by_cases hi : key.index = i
    case pos => exact ⟨.put (some ⟨tag generational key, entity⟩), fun _ => if_pos hi⟩
    case neg => exact ⟨eff, fun _ => if_neg hi⟩
  case leave key =>
    by_cases hi : key.index = i
    case pos =>
      cases eff
      case put held => exact ⟨.put (slot generational i (.leave key) held), fun _ => rfl⟩
      case adjust f =>
        refine ⟨.adjust (Function.update f (tag generational key) none), fun held => ?_⟩
        cases held
        case none   => simp [slot, Effect.act]
        case some h =>
          by_cases hg : h.generation = tag generational key
          case pos => cases f h.generation <;> simp [slot, Effect.act, hi, hg]
          case neg => cases hf : f h.generation <;> simp [slot, Effect.act, hi, hf, hg]
    case neg => exact ⟨eff, fun _ => if_neg hi⟩
  case sample key entity =>
    by_cases hi : key.index = i
    case pos =>
      cases eff
      case put held => exact ⟨.put (slot generational i (.sample key entity) held), fun _ => rfl⟩
      case adjust f =>
        let last := (f (tag generational key)).map fun _ => some entity
        refine ⟨.adjust (Function.update f (tag generational key) last), fun held => ?_⟩
        cases held
        case none   => simp [slot, Effect.act]
        case some h =>
          by_cases hg : h.generation = tag generational key
          case pos =>
            rw [← hg]
            cases hf : f h.generation <;> simp [slot, Effect.act, last, hi, hf, ← hg]
          case neg => cases hf : f h.generation <;> simp [slot, Effect.act, hi, hf, hg]
    case neg => exact ⟨eff, fun _ => if_neg hi⟩

-- What changes make of the slot `i` one after the other.
def slots (generational : Bool) (i : BitVec 32) (cs : List (Change E)) (held : Option (Held E)) : Option (Held E) :=
  cs.foldl (fun held c => c.slot generational i held) held

theorem slots_exists_effect (cs : List (Change E)) (eff : Effect E) :
    ∃ eff', ∀ held, slots generational i cs (eff.act held) = Effect.act eff' held := by
  induction cs generalizing eff
  case nil => exact ⟨eff, fun _ => rfl⟩
  case cons c cs ih =>
    have ⟨eff', h⟩ : ∃ eff', ∀ held, c.slot generational i (eff.act held) = Effect.act eff' held :=
      c.exists_effect eff
    have ⟨eff'', h'⟩ := ih eff'
    exact ⟨eff'', fun held => h' held ▸ congrArg (slots generational i cs) (h held)⟩

-- Changes made twice leave a slot as it is after the first time.
theorem slots_slots : slots generational i cs (slots generational i cs held) = slots generational i cs held := by
  have ⟨eff, h⟩ : ∃ eff, ∀ held, slots generational i cs (Effect.act (.adjust fun _ => some none) held) =
      Effect.act eff held := slots_exists_effect cs _
  have h (held) : slots generational i cs held = eff.act held := by
    rw [← h]
    cases held <;> rfl
  rw [h, h, eff.act_act]

theorem normalise_eq : m.normalise key = { key with generation := tag m.generational key } := by
  unfold DeltaMirror.normalise tag
  split <;> rfl

theorem stale_eq {r : DeltaMirror E × Option E} (h : m.stale o = some r) :
    r = ({ m with staleRefs := m.staleRefs + 1 }, none) := by
  simp only [DeltaMirror.stale, Option.bind_eq_bind, Option.bind_eq_some_iff] at h
  obtain ⟨_, h, hr⟩ := h
  cases hr
  rw [U64.eq_of_add h]

-- What touching can do: act on the occupant which the key names, or nothing but count.
theorem touch_cases {r : DeltaMirror E × Option E} {act : Held E → AList fun _ : BitVec 32 => Held E}
    (h : m.touch o key act = some r) :
    (∃ entity, m.held.lookup key.index = some ⟨tag m.generational key, entity⟩ ∧
      r = ({ m with held := act ⟨tag m.generational key, entity⟩ }, some entity)) ∨
    (∃ held, m.held.lookup key.index = some held ∧ held.generation ≠ tag m.generational key) ∧
      r = ({ m with staleRefs := m.staleRefs + 1 }, none) ∨
    m.held.lookup key.index = none ∧ r = (m, none) := by
  rw [DeltaMirror.touch, normalise_eq] at h
  cases hl : m.held.lookup key.index
  case none =>
    simp only [hl, Option.some.injEq] at h
    exact .inr (.inr ⟨rfl, h.symm⟩)
  case some held =>
    simp only [hl] at h
    split at h
    case isTrue hg  =>
      cases h
      exact .inl ⟨held.entity, hg ▸ rfl, hg ▸ rfl⟩
    case isFalse hg => exact .inr (.inl ⟨⟨held, rfl, hg⟩, stale_eq h⟩)

theorem remove_cases {r : DeltaMirror E × Option E} (h : m.remove o key = some r) :
    (∃ entity, m.held.lookup key.index = some ⟨tag m.generational key, entity⟩ ∧
      r = ({ m with held := m.held.erase key.index }, some entity)) ∨
    (∃ held, m.held.lookup key.index = some held ∧ held.generation ≠ tag m.generational key) ∧
      r = ({ m with staleRefs := m.staleRefs + 1 }, none) ∨
    m.held.lookup key.index = none ∧ r = (m, none) := by
  rw [DeltaMirror.remove_eq_touch, normalise_eq] at h
  exact touch_cases h

theorem getMut_cases {write : E → E} {r : DeltaMirror E × Option E} (h : m.getMut o key write = some r) :
    (∃ entity, m.held.lookup key.index = some ⟨tag m.generational key, entity⟩ ∧
      r = ({ m with held := m.held.insert key.index ⟨tag m.generational key, write entity⟩ }, some entity)) ∨
    (∃ held, m.held.lookup key.index = some held ∧ held.generation ≠ tag m.generational key) ∧
      r = ({ m with staleRefs := m.staleRefs + 1 }, none) ∨
    m.held.lookup key.index = none ∧ r = (m, none) := by
  rw [DeltaMirror.getMut_eq_touch, normalise_eq] at h
  exact touch_cases h

theorem change_spec (h : change o m c = some m') :
    (∀ i, m'.held.lookup i = c.slot m.generational i (m.held.lookup i)) ∧
      m' = { m with held := m'.held, staleRefs := m'.staleRefs } := by
  cases c
  case enter key entity =>
    cases h
    refine ⟨fun i => ?_, rfl⟩
    simp only [DeltaMirror.insert, normalise_eq, Change.slot]
    split
    case isTrue hi  => rw [hi, AList.lookup_insert]
    case isFalse hi => rw [AList.lookup_insert_ne (Ne.symm hi)]
  case leave key =>
    have ⟨r, h, hr⟩ := Option.map_eq_some_iff.mp h
    obtain ⟨entity, hl, rfl⟩ | ⟨⟨held, hl, hg⟩, rfl⟩ | ⟨hl, rfl⟩ := remove_cases h <;> cases hr
      <;> refine ⟨fun i => ?_, rfl⟩ <;> simp only [Change.slot] <;> split
    case inl.refl.isTrue hi  => rw [← hi, hl, AList.lookup_erase]; simp [Option.filter]
    case inl.refl.isFalse hi => rw [AList.lookup_erase_ne (Ne.symm hi)]
    case inr.inl.refl.isTrue hi => rw [← hi, hl]; simp [Option.filter, hg]
    case inr.inl.refl.isFalse   => rfl
    case inr.inr.refl.isTrue hi => rw [← hi, hl]; rfl
    case inr.inr.refl.isFalse   => rfl
  case sample key entity =>
    have ⟨r, h, hr⟩ := Option.map_eq_some_iff.mp h
    obtain ⟨before, hl, rfl⟩ | ⟨⟨held, hl, hg⟩, rfl⟩ | ⟨hl, rfl⟩ := getMut_cases h <;> cases hr
      <;> refine ⟨fun i => ?_, rfl⟩ <;> simp only [Change.slot] <;> split
    case inl.refl.isTrue hi  => rw [← hi, hl, AList.lookup_insert]; simp
    case inl.refl.isFalse hi => rw [AList.lookup_insert_ne (Ne.symm hi)]
    case inr.inl.refl.isTrue hi => rw [← hi, hl]; simp [hg]
    case inr.inl.refl.isFalse   => rfl
    case inr.inr.refl.isTrue hi => rw [← hi, hl]; rfl
    case inr.inr.refl.isFalse   => rfl

theorem changes_spec (h : (machine o).Steps m (cs.map .change) m') :
    (∀ i, m'.held.lookup i = slots m.generational i cs (m.held.lookup i)) ∧
      m' = { m with held := m'.held, staleRefs := m'.staleRefs } := by
  induction cs generalizing m
  case nil =>
    cases h
    exact ⟨fun _ => rfl, rfl⟩
  case cons c cs ih =>
    cases h
    case step s he h =>
      have ⟨hc, hm⟩ := change_spec he
      have ⟨hs, hm'⟩ := ih h
      have hg : s.generational = m.generational := hm ▸ rfl
      refine ⟨fun i => ?_, hm'.trans (hm ▸ rfl)⟩
      rw [hs, hg, hc]
      rfl

-- Closing a packet changes nothing but the digest and a count.
theorem settle_eq {expected : U64} {r : DeltaMirror E × Agreement} (h : m.settle o expected = some r) :
    r.fst = { m with digest := m.computeDigest, divergences := r.fst.divergences } := by
  simp only [DeltaMirror.settle] at h
  split at h
  case isTrue =>
    cases h
    rfl
  case isFalse =>
    simp only [Option.bind_eq_bind, Option.bind_eq_some_iff] at h
    obtain ⟨_, _, h⟩ := h
    cases h
    rfl

theorem exists_settle (m : DeltaMirror E) (expected : U64) : ∃ digest divergences,
    (machine .wraps).step m (.settle expected) = some { m with digest, divergences } := by
  by_cases h : m.computeDigest = expected
  case pos => exact ⟨m.computeDigest, m.divergences, by simp [machine, DeltaMirror.settle, h]⟩
  case neg =>
    refine ⟨m.computeDigest, m.divergences + 1, ?_⟩
    simp [machine, DeltaMirror.settle, h, U64.add, Overflow.outcome]

-- What a packet makes of a mirror.
theorem delta_spec (h : (machine o).Steps m d.events m') :
    (∀ i, m'.held.lookup i =
      slots m.generational i d.changes (if d.fullBaseline then none else m.held.lookup i)) ∧
    m.lostBefore o d.seq = some m'.framesLost ∧
    m'.appliedSeq = (if m.appliedSeq.all (· < d.seq) then some d.seq else m.appliedSeq) ∧
    m'.acks = (m.acks.observe d.seq.toNat).fst ∧
    m'.generational = m.generational ∧
    m'.digest = m'.computeDigest := by
  cases h
  case step s hb h =>
    have ⟨s', hc, h⟩ := h.split
    cases h
    case step he h =>
      cases h
      have ⟨framesLost, hl, hb⟩ := Option.map_eq_some_iff.mp hb
      have ⟨r, he, hr⟩ := Option.map_eq_some_iff.mp he
      have ⟨hs, hc⟩ := changes_spec hc
      have hd : m' = { s' with digest := s'.computeDigest, divergences := m'.divergences } := hr ▸ settle_eq he
      rw [hc, ← hb] at hd
      rw [← hb] at hs
      rw [hd]
      refine ⟨fun i => (hs i).trans ?_, hl, rfl, rfl, rfl, rfl⟩
      cases d.fullBaseline <;> rfl

-- A packet which was applied is the newest, or older.
theorem appliedSeq_of_delta (h : (machine o).Steps m d.events m') :
    ∃ applied, m'.appliedSeq = some applied ∧ d.seq ≤ applied := by
  have ⟨_, _, ha, _⟩ := delta_spec h
  cases hm : m.appliedSeq
  case none => exact ⟨d.seq, by rw [ha, hm]; rfl, BitVec.le_refl _⟩
  case some previous =>
    by_cases hp : previous < d.seq
    case pos => exact ⟨d.seq, by simp [ha, hm, hp], BitVec.le_refl _⟩
    case neg => exact ⟨previous, by simp [ha, hm, hp], BitVec.not_lt.mp hp⟩

-- A packet applied again, right after it was applied, changes nothing.
theorem Same.of_reapplied (h₁ : (machine o).Steps m d.events m₁)
    (hn : ∀ applied ∈ m₁.appliedSeq, applied.toNat + 1 < 2 ^ 64) (h₂ : (machine o).Steps m₁ d.events m₂) :
    Same m₂ m₁ := by
  have ⟨hs₁, _, _, hk₁, hg₁, hd₁⟩ := delta_spec h₁
  have ⟨hs₂, hl₂, ha₂, hk₂, hg₂, hd₂⟩ := delta_spec h₂
  have ⟨applied, ha, hle⟩ := appliedSeq_of_delta h₁
  have hi : m₂.iter = m₁.iter := by
    refine DeltaMirror.iter_congr fun i => ?_
    rw [hs₂, hs₁, hg₁]
    cases d.fullBaseline
    case false => exact slots_slots
    case true  => rfl
  have hle := BitVec.le_def.mp hle
  constructor
  case iter         => exact hi
  case acks         => rw [hk₂, hk₁, AckWindow.observe_observe]
  case generational => exact hg₂
  case digest       => rw [hd₂, hd₁, DeltaMirror.computeDigest, DeltaMirror.computeDigest, DeltaMirror.keys, hi]; rfl
  case appliedSeq   =>
    rw [ha₂, ha, Option.all_some, decide_eq_false (BitVec.not_lt.mpr hle)]
    rfl
  case framesLost   =>
    have hnext := DeltaMirror.toNat_next (hn applied ha)
    rw [DeltaMirror.eq_of_lostBefore ha hl₂, if_neg (by rw [BitVec.lt_def]; omega)]

-- What was seen of a run up to here.
structure Follows (past : List U64) (m : DeltaMirror E) : Prop where
  applied : m.appliedSeq = past.getLast?
  lost    : m.framesLost.toNat = (skipped past).card

theorem mem_skipped {n : Nat} : n ∈ skipped past ↔
    (∃ a ∈ past, a.toNat < n) ∧ (∃ b ∈ past, n < b.toNat) ∧ ∀ a ∈ past, a.toNat ≠ n := by
  simp only [skipped, Finset.mem_filter, Finset.mem_range, List.any_eq_true, List.all_eq_true, decide_eq_true_eq,
    and_iff_right_iff_imp]
  exact fun ⟨_, ⟨b, _, hb⟩, _⟩ => hb.trans b.isLt

-- The next frame adds the numbers between the last one and itself.
theorem skipped_snoc {last : U64} (hm : last ∈ past) (hp : ∀ a ∈ past, a ≤ last) (hs : last ≤ seq) :
    skipped (past ++ [seq]) = skipped past ∪ Finset.Ioo last.toNat seq.toNat := by
  have hp : ∀ a ∈ past, a.toNat ≤ last.toNat := fun a ha => BitVec.le_def.mp (hp a ha)
  have hs := BitVec.le_def.mp hs
  ext n
  simp only [Finset.mem_union, mem_skipped, Finset.mem_Ioo, List.mem_append, List.mem_singleton]
  constructor
  case mp =>
    rintro ⟨⟨a, ha, hl⟩, ⟨b, hb, hu⟩, hn⟩
    by_cases h : n < last.toNat
    case pos =>
      refine .inl ⟨?_, ⟨last, hm, h⟩, fun c hc => hn c (.inl hc)⟩
      cases ha
      case inl ha => exact ⟨a, ha, hl⟩
      case inr ha => cases ha; omega
    case neg =>
      have := hn last (.inl hm)
      refine .inr ⟨by omega, ?_⟩
      cases hb
      case inl hb => exact absurd (hp b hb) (by omega)
      case inr hb => exact hb ▸ hu
  case mpr =>
    rintro (⟨⟨a, ha, hl⟩, ⟨b, hb, hu⟩, hn⟩ | ⟨hl, hu⟩)
    case inl =>
      refine ⟨⟨a, .inl ha, hl⟩, ⟨b, .inl hb, hu⟩, fun c hc => hc.elim (hn c) fun hc => ?_⟩
      have := hp b hb
      exact hc ▸ by omega
    case inr =>
      refine ⟨⟨last, .inl hm, hl⟩, ⟨seq, .inr rfl, hu⟩, fun c hc => hc.elim (fun hc => ?_) fun hc => ?_⟩
      · have := hp c hc
        omega
      · exact hc ▸ by omega

theorem skipped_lt {last : U64} (hp : ∀ a ∈ past, a ≤ last) {n : Nat} (hn : n ∈ skipped past) : n < last.toNat := by
  have ⟨_, ⟨b, hb, hn⟩, _⟩ := mem_skipped.mp hn
  exact hn.trans_le <| BitVec.le_def.mp (hp b hb)

theorem skipped_card_le {last : U64} (hp : ∀ a ∈ past, a ≤ last) : (skipped past).card ≤ last.toNat := by
  have h : skipped past ⊆ Finset.range last.toNat := fun n hn => Finset.mem_range.mpr (skipped_lt hp hn)
  exact (Finset.card_le_card h).trans_eq (Finset.card_range _)

theorem skipped_card_snoc {last : U64} (hm : last ∈ past) (hp : ∀ a ∈ past, a ≤ last) (hs : last ≤ seq) :
    (skipped (past ++ [seq])).card = (skipped past).card + (seq.toNat - last.toNat - 1) := by
  have hd : Disjoint (skipped past) (Finset.Ioo last.toNat seq.toNat) := by
    refine Finset.disjoint_left.mpr fun n hn hi => ?_
    exact absurd (skipped_lt hp hn) (Finset.mem_Ioo.mp hi).left.not_gt
  rw [skipped_snoc hm hp hs, Finset.card_union_of_disjoint hd, Nat.card_Ioo]

namespace Nondecreasing

theorem of_append {new : List U64} (h : Nondecreasing (past ++ new)) : Nondecreasing past :=
  (List.pairwise_append.mp h).left

-- The last frame before another one.
theorem getLast? {last : U64} (h : Nondecreasing (past ++ [seq])) (hl : past.getLast? = some last) :
    last ∈ past ∧ (∀ a ∈ past, a ≤ last) ∧ last ≤ seq ∧ last.toNat + 1 < 2 ^ 64 := by
  have hm := List.mem_of_getLast? hl
  have ⟨hp, _, hs⟩ := List.pairwise_append.mp h
  refine ⟨hm, fun a ha => ?_, hs last hm seq (List.mem_singleton_self seq)⟩
  cases hp.rel_of_getLast? hl ha
  case inl he => exact he ▸ BitVec.le_refl _
  case inr h  => exact h.left

end Nondecreasing

-- There is nothing between frames of one number.
theorem skipped_eq_empty (h : ∀ a ∈ past, a = seq) : skipped past = ∅ := by
  refine Finset.eq_empty_of_forall_notMem fun n hn => ?_
  have ⟨⟨a, ha, hl⟩, ⟨b, hb, hu⟩, _⟩ := mem_skipped.mp hn
  cases h a ha
  cases h b hb
  exact absurd hl hu.not_gt

namespace Follows

theorem begin {full : Bool} (h : Follows past m) (hn : Nondecreasing (past ++ [seq]))
    (hb : m.begin o seq full = some m') : Follows (past ++ [seq]) m' := by
  obtain ⟨framesLost, hl, hb⟩ := Option.map_eq_some_iff.mp hb
  subst hb
  cases hp : past.getLast?
  case none =>
    have ha := h.applied.trans hp
    cases List.getLast?_eq_none_iff.mp hp
    simp only [DeltaMirror.lostBefore, ha, Option.some.injEq] at hl
    refine ⟨by simp [ha], ?_⟩
    have hs {past : List U64} (hs : ∀ a ∈ past, a = seq) := congrArg Finset.card (skipped_eq_empty hs)
    exact (congrArg BitVec.toNat hl.symm).trans <| h.lost.trans <| (hs (by simp)).trans (hs (by simp)).symm
  case some last =>
    have ha := h.applied.trans hp
    obtain ⟨hm, hle, hs, hf⟩ := hn.getLast? hp
    have hs' := BitVec.le_def.mp hs
    constructor
    case applied =>
      simp only [List.getLast?_concat, ha, Option.all_some, decide_eq_true_eq]
      split
      case isTrue     => rfl
      case isFalse hn => rw [BitVec.le_antisymm hs (BitVec.not_lt.mp hn)]
    case lost =>
      have hc := h.lost ▸ skipped_card_le hle
      have hseq := seq.isLt
      rw [skipped_card_snoc hm hle hs, ← h.lost, DeltaMirror.eq_of_lostBefore ha hl]
      by_cases hj : last + 1 < seq
      case pos =>
        rw [if_pos hj]
        rw [BitVec.lt_def, DeltaMirror.toNat_next hf] at hj
        obtain ⟨_, hg⟩ := DeltaMirror.toNat_gap hj
        rw [BitVec.toNat_add, hg]
        exact Nat.mod_eq_of_lt (by omega)
      case neg =>
        rw [if_neg hj]
        rw [BitVec.lt_def, DeltaMirror.toNat_next hf] at hj
        rw [Nat.sub_sub, Nat.sub_eq_zero_of_le (by omega)]
        rfl

theorem step (h : Follows past m) (hn : Nondecreasing (past ++ frames [e])) (he : (machine o).step m e = some m') :
    Follows (past ++ frames [e]) m' := by
  cases e
  case begin => exact h.begin hn he
  all_goals
    have hf : m'.appliedSeq = m.appliedSeq ∧ m'.framesLost = m.framesLost := ?_
    exact ⟨by simpa [frames, hf.left] using h.applied, by simpa [frames, hf.right] using h.lost⟩
  case change c => exact ⟨(change_spec he).right ▸ rfl, (change_spec he).right ▸ rfl⟩
  case write =>
    have ⟨r, he, hr⟩ := Option.map_eq_some_iff.mp he
    obtain ⟨_, _, rfl⟩ | ⟨_, rfl⟩ | ⟨_, rfl⟩ := getMut_cases he <;> exact hr ▸ ⟨rfl, rfl⟩
  case settle =>
    have ⟨r, he, hr⟩ := Option.map_eq_some_iff.mp he
    have hd := settle_eq he
    exact hr ▸ hd ▸ ⟨rfl, rfl⟩
  case setGenerations =>
    cases he
    unfold DeltaMirror.setGenerations
    split <;> exact ⟨rfl, rfl⟩
  case clear =>
    cases he
    exact ⟨rfl, rfl⟩

theorem steps (h : Follows past m) (hn : Nondecreasing (past ++ frames es)) (hs : (machine o).Steps m es m') :
    Follows (past ++ frames es) m' := by
  induction hs generalizing past
  case refl => simpa [frames] using h
  case step e es he _ ih =>
    have hf : frames (e :: es) = frames [e] ++ frames es := by
      rw [← List.singleton_append, frames, List.filterMap_append]
      rfl
    rw [hf, ← List.append_assoc] at hn ⊢
    exact ih (h.step hn.of_append he) hn

end Follows

-- A key of another generation than the one held is counted, and that is all.
theorem stale_spec {held : Held E} (hg : m.generational) (hl : m.held.lookup key.index = some held)
    (hs : held.generation ≠ key.generation) :
    m.get key = none ∧
    (∀ r, m.remove o key = some r → r = ({ m with staleRefs := m.staleRefs + 1 }, none)) ∧
    (∀ write r, m.getMut o key write = some r → r = ({ m with staleRefs := m.staleRefs + 1 }, none)) := by
  have ht : tag m.generational key = key.generation := if_pos hg
  refine ⟨?_, fun r hr => ?_, fun write r hr => ?_⟩
  · rw [DeltaMirror.get, normalise_eq, ht]
    simp [hl, Option.filter, hs]
  · obtain ⟨entity, he, _⟩ | ⟨_, hr⟩ | ⟨hn, _⟩ := remove_cases hr
    · exact absurd (congrArg Held.generation (Option.some.inj (hl.symm.trans he))) (ht ▸ hs)
    · exact hr
    · cases hl.symm.trans hn
  · obtain ⟨entity, he, _⟩ | ⟨_, hr⟩ | ⟨hn, _⟩ := getMut_cases hr
    · exact absurd (congrArg Held.generation (Option.some.inj (hl.symm.trans he))) (ht ▸ hs)
    · exact hr
    · cases hl.symm.trans hn

theorem mirror_accounts (o : Overflow) (generational : Bool) (es : List (Event E)) (m : DeltaMirror E)
    (h : (machine o).Steps (.withGenerations .new generational) es m) :
    (m.generational → ∀ key held, m.held.lookup key.index = some held → held.generation ≠ key.generation →
      m.get key = none ∧
      (∀ r, m.remove o key = some r → r = ({ m with staleRefs := m.staleRefs + 1 }, none)) ∧
      (∀ write r, m.getMut o key write = some r → r = ({ m with staleRefs := m.staleRefs + 1 }, none))) ∧
    (m.iter.map (·.fst.index)).Nodup ∧
    (∀ (d : Delta E) m₁ m₂, (machine o).Steps m d.events m₁ → (∀ applied ∈ m₁.appliedSeq, applied.toNat + 1 < 2 ^ 64) →
      (machine o).Steps m₁ d.events m₂ → Same m₂ m₁) ∧
    (Nondecreasing (frames es) → m.framesLost.toNat = (skipped (frames es)).card) ∧
    (∀ truth : List SlotKey,
      (∀ key, key ∈ (m.divergenceFrom (truth.map (·.encode))).extra ↔ key ∈ m.keys ∧ key ∉ truth) ∧
      (∀ key, key ∈ (m.divergenceFrom (truth.map (·.encode))).missing ↔ key ∈ truth ∧ key ∉ m.keys) ∧
      (m.divergenceFrom (truth.map (·.encode))).extra.Pairwise (·.encode < ·.encode) ∧
      (m.divergenceFrom (truth.map (·.encode))).missing.Pairwise (·.encode < ·.encode)) := by
  refine ⟨fun hg _ _ hl hs => stale_spec hg hl hs, ?_, fun _ _ _ => Same.of_reapplied, fun hn => ?_,
    fun _ => DeltaMirror.divergenceFrom_differs⟩
  case refine_1 =>
    refine List.pairwise_map.mpr <| DeltaMirror.iter_pairwise.imp fun {a b} h he => ?_
    exact BitVec.lt_irrefl _ (he ▸ h)
  case refine_2 =>
    have hf : Follows [] (DeltaMirror.withGenerations (.new : DeltaMirror E) generational) := by
      have hs : skipped [] = ∅ := @skipped_eq_empty [] 0 (by simp)
      exact ⟨rfl, hs ▸ rfl⟩
    exact (hf.steps hn h).lost

theorem mirror_accounts_reused :
    ∃ m : DeltaMirror Nat,
      (machine .panics).Steps (.withGenerations .new true)
        [.begin 1 true, .change (.enter ⟨5, 1⟩ 10), .begin 4 false, .change (.enter ⟨5, 2⟩ 20)] m ∧
      m.get ⟨5, 1⟩ = none ∧
      (m.iter.map (·.fst.index)).Nodup ∧
      m.framesLost.toNat = (skipped [1, 4]).card := by
  have h : ∃ m : DeltaMirror Nat,
      (machine .panics).Steps (.withGenerations .new true)
        [.begin 1 true, .change (.enter ⟨5, 1⟩ 10), .begin 4 false, .change (.enter ⟨5, 2⟩ 20)] m ∧
      m.generational ∧ m.held.lookup 5 = some ⟨2, 20⟩ :=
    ⟨_, .step rfl <| .step rfl <| .step rfl <| .step rfl .refl, rfl, by decide⟩
  have ⟨m, h, hg, hl⟩ := h
  have ⟨hs, hn, _, hf, _⟩ := mirror_accounts _ _ _ m h
  have hd : Nondecreasing [1, 4] := by simp [Nondecreasing]
  exact ⟨m, h, (hs hg ⟨5, 1⟩ _ hl (by decide)).left, hn, hf hd⟩

-- Where generations are not checked, a key of an old one removes the new occupant. A delta that refers to an old
-- occupant counts this again whenever it is applied, and where arithmetic wraps, a frame that repeats the greatest
-- number takes away from what is lost.
theorem old_key_removes_newcomer :
    (∃ m : DeltaMirror Nat,
      (machine .panics).Steps (.withGenerations .new false)
        [.change (.enter ⟨41, 7⟩ 10), .change (.enter ⟨41, 8⟩ 20)] m ∧
      ∃ m', m.remove .panics ⟨41, 7⟩ = some (m', some 20)) ∧
    (∃ (d : Delta Nat) (m₁ m₂ : DeltaMirror Nat),
      (machine .wraps).Steps (.withGenerations .new true) d.events m₁ ∧ (machine .wraps).Steps m₁ d.events m₂ ∧
      m₁.staleRefs ≠ m₂.staleRefs) ∧
    (∃ m : DeltaMirror Nat,
      (machine .wraps).Steps (.withGenerations .new true)
        [.begin 0xFFFFFFFFFFFFFFFF true, .begin 0xFFFFFFFFFFFFFFFF false] m ∧
      m.framesLost.toNat ≠ (skipped [0xFFFFFFFFFFFFFFFF, 0xFFFFFFFFFFFFFFFF]).card) := by
  refine ⟨⟨_, .step rfl <| .step rfl .refl, _, rfl⟩, ?_, ⟨_, .step rfl <| .step rfl .refl, ?_⟩⟩
  case refine_1 =>
    let d : Delta Nat :=
      { seq := 1, fullBaseline := false, changes := [.enter ⟨5, 2⟩ 20, .leave ⟨5, 1⟩], expected := 0 }
    let m : DeltaMirror Nat := { (DeltaMirror.new : DeltaMirror Nat) with
      held       := (∅ : AList fun _ => Held Nat).insert 5 ⟨2, 20⟩
      acks       := (AckWindow.new.observe 1).fst
      appliedSeq := some 1
      staleRefs  := 1 }
    have ⟨digest₁, divergences₁, h₁⟩ := exists_settle m d.expected
    let m₁ := { m with digest := digest₁, divergences := divergences₁ }
    have ⟨digest₂, divergences₂, h₂⟩ := exists_settle { m₁ with staleRefs := 2 } d.expected
    exact ⟨d, m₁, { m₁ with staleRefs := 2, digest := digest₂, divergences := divergences₂ },
      .step rfl <| .step rfl <| .step rfl <| .step h₁ .refl,
      .step rfl <| .step rfl <| .step rfl <| .step h₂ .refl, fun h : (1 : U64) = 2 => by cases h⟩
  case refine_2 =>
    have hs : skipped [0xFFFFFFFFFFFFFFFF, 0xFFFFFFFFFFFFFFFF] = ∅ :=
      @skipped_eq_empty _ 0xFFFFFFFFFFFFFFFF (by simp)
    rw [hs]
    decide

end Plaza.Protocols.Mirror
