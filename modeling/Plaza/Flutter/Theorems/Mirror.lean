import Mathlib.Data.Fintype.Card
import Plaza.ClientUtils.Theorems.Mirror
import Plaza.Flutter.Mirror
import Plaza.Flutter.Theorems.Ack
import Plaza.Flutter.Theorems.Digest
import Plaza.Lib.Maps

namespace Plaza.Flutter

open Mirroring
open Dart (Word)

variable {E : Type} {key : ClientUtils.SlotKey} {k : Word} {index : BitVec 32} {generation : BitVec 16}

namespace SlotKey

theorem setWidth_injective : Function.Injective (BitVec.setWidth 64 : BitVec 32 → Word) := by
  intro x y h
  have h := congrArg BitVec.toNat h
  simp only [BitVec.toNat_setWidth] at h
  exact BitVec.eq_of_toNat_eq <| by omega

theorem port_index_lt : key.port.index.toNat < 2 ^ 32 := by
  simp only [ClientUtils.SlotKey.port, BitVec.toNat_setWidth]
  omega

theorem generation_eq_iff {g g' : BitVec 16} : g.setWidth 64 = g'.setWidth 64 ↔ g = g' := by
  constructor
  case mp =>
    intro h
    have h := congrArg BitVec.toNat h
    simp only [BitVec.toNat_setWidth] at h
    exact BitVec.eq_of_toNat_eq <| by omega
  case mpr => exact congrArg _

theorem le_setWidth {x y : BitVec 32} : decide (x ≤ y) = Word.le (x.setWidth 64) (y.setWidth 64) := by
  have hx : (x.setWidth 64).toNat = x.toNat := by simp only [BitVec.toNat_setWidth]; omega
  have hy : (y.setWidth 64).toNat = y.toNat := by simp only [BitVec.toNat_setWidth]; omega
  rw [Word.le_eq (by omega) (by omega), hx, hy]
  rfl

theorem toNat_low : (k &&& 0xFFFF).toNat = k.toNat % 2 ^ 16 := by
  rw [BitVec.toNat_and]
  exact Nat.and_two_pow_sub_one_eq_mod k.toNat 16

theorem toNat_high : (k >>> 16).toNat = k.toNat / 2 ^ 16 := by
  rw [BitVec.toNat_ushiftRight, Nat.shiftRight_eq_div_pow]

theorem encode_decode : (decode k).encode = k := by
  apply BitVec.eq_of_toNat_eq
  have hi : (k >>> 16 <<< 16).toNat = (k.toNat / 2 ^ 16) <<< 16 := by
    rw [BitVec.toNat_shiftLeft, toNat_high, Nat.shiftLeft_eq]
    omega
  rw [encode, decode, BitVec.toNat_or, hi, toNat_low, ←Nat.shiftLeft_add_eq_or_of_lt (by omega), Nat.shiftLeft_eq]
  omega

-- Beyond 48 bits the server's index is cut off.
theorem port_decode (h : k.toNat < 2 ^ 48) : (ClientUtils.SlotKey.decode k).port = decode k := by
  simp only [ClientUtils.SlotKey.decode, ClientUtils.SlotKey.port, decode, mk.injEq]
  constructor <;> apply BitVec.eq_of_toNat_eq <;> simp only [BitVec.toNat_setWidth, toNat_high, toNat_low] <;> omega

theorem lt_of_decode (h : (decode k).index.toNat < 2 ^ 32) : k.toNat < 2 ^ 48 := by
  rw [decode, toNat_high] at h
  omega

end SlotKey

def Held.ofHeld (h : ClientUtils.Held E) : Held E where
  generation := h.generation.setWidth 64
  entity     := h.entity

namespace DeltaMirror

-- The ports hold the same entities.
abbrev SameHeld (m : ClientUtils.DeltaMirror E) (d : DeltaMirror E) : Prop :=
  AList.Renames (BitVec.setWidth 64) Held.ofHeld m.held d.held

variable {m : ClientUtils.DeltaMirror E} {d : DeltaMirror E} {xs : List Word}

theorem keys_eq_map :
    d.keys = (d.held.entries.mergeSort fun x y => Word.le x.fst y.fst).map fun e =>
      { index := e.fst, generation := e.snd.generation } :=
  AList.filterMap_mergeSort_keys (k := fun i (held : Held E) => (⟨i, held.generation⟩ : SlotKey))

theorem entries_eq_map :
    d.entries = (d.held.entries.mergeSort fun x y => Word.le x.fst y.fst).map fun e =>
      ({ index := e.fst, generation := e.snd.generation }, e.snd.entity) := by
  rw [entries, keys_eq_map, List.filterMap_map, ←List.filterMap_eq_map]
  apply List.filterMap_congr
  intro e he
  simp [AList.lookup_of_mem (List.mem_mergeSort.mp he)]

theorem SameHeld.inOrder_eq (h : SameHeld m d) :
    d.held.entries.mergeSort (fun x y => Word.le x.fst y.fst) =
      (m.held.entries.mergeSort fun x y => x.fst ≤ y.fst).map (AList.rename (BitVec.setWidth 64) Held.ofHeld) :=
  h.mergeSort_eq fun _ _ => SlotKey.le_setWidth

theorem SameHeld.entries_eq (h : SameHeld m d) :
    d.entries = m.iter.map fun (key, entity) => (key.port, entity) := by
  rw [entries_eq_map, h.inOrder_eq, ClientUtils.DeltaMirror.iter, List.map_map, List.map_map]
  rfl

theorem SameHeld.keys_eq (h : SameHeld m d) : d.keys = m.keys.map (·.port) := by
  rw [keys_eq_map, h.inOrder_eq, ClientUtils.DeltaMirror.keys, ClientUtils.DeltaMirror.iter]
  simp only [List.map_map]
  rfl

theorem SameHeld.encoded_eq (h : SameHeld m d) : d.keys.map (·.encode) = m.keys.map (·.encode) := by
  rw [h.keys_eq, List.map_map]
  rfl

theorem SameHeld.lookup_eq (h : SameHeld m d) :
    d.held.lookup key.port.index = (m.held.lookup key.index).map .ofHeld :=
  h.lookup SlotKey.setWidth_injective

-- There are not more slots than indices.
theorem length_keys_le : m.keys.length ≤ 2 ^ 32 := by
  have hl : m.keys.length = (m.held.keys.map BitVec.toFin).length := by
    simp [ClientUtils.DeltaMirror.keys, ClientUtils.DeltaMirror.iter, AList.keys, List.keys]
  have hn : (m.held.keys.map BitVec.toFin).Nodup :=
    m.held.keys_nodup.map fun _ _ => BitVec.eq_of_toFin_eq
  rw [hl]
  exact hn.length_le_card.trans_eq <| Fintype.card_fin _

theorem length_keys : m.keys.length = m.held.entries.length := by
  simp [ClientUtils.DeltaMirror.keys, ClientUtils.DeltaMirror.iter]

theorem SameHeld.computeDigest_eq_iff (h : SameHeld m d) :
    d.computeDigest = m.computeDigest ↔ m.held.entries.length < 2 ^ 32 := by
  have hk : d.keys.map (·.encode) = (m.keys.map fun key => UInt64.ofBitVec key.encode).map UInt64.toBitVec := by
    rw [h.encoded_eq, List.map_map]
    rfl
  have hl := length_keys_le (m := m)
  rw [computeDigest, ClientUtils.DeltaMirror.computeDigest, hk,
    SetDigest.fromKeys_eq_iff (by rwa [List.length_map]), List.length_map, length_keys]

theorem sorted_eq (h : ∀ k ∈ xs, k.toNat < 2 ^ 48) :
    sorted xs = (ClientUtils.DeltaMirror.ordered xs |>.map ClientUtils.SlotKey.decode).map (·.port) := by
  have hm : (xs.dedup.mergeSort (· ≤ ·)).map SlotKey.decode =
      (xs.dedup.map SlotKey.decode).mergeSort fun a b => a.encode.le b.encode := by
    apply List.map_mergeSort
    intro a ha b hb
    have ha := h a <| List.mem_dedup.mp ha
    have hb := h b <| List.mem_dedup.mp hb
    rw [SlotKey.encode_decode, SlotKey.encode_decode, Word.le_eq (by omega) (by omega)]
    rfl
  rw [sorted, ←hm, ClientUtils.DeltaMirror.ordered, List.map_map]
  apply List.map_congr_left
  intro k hk
  exact (SlotKey.port_decode <| h k <| List.mem_dedup.mp <| List.mem_mergeSort.mp hk).symm

theorem lt_of_sorted (hk : k ∈ xs)
    (h : sorted xs = (ClientUtils.DeltaMirror.ordered xs |>.map ClientUtils.SlotKey.decode).map (·.port)) :
    k.toNat < 2 ^ 48 := by
  have hm : SlotKey.decode k ∈ sorted xs :=
    List.mem_mergeSort.mpr <| List.mem_map_of_mem <| List.mem_dedup.mpr hk
  rw [h] at hm
  have ⟨key, _, he⟩ := List.mem_map.mp hm
  exact SlotKey.lt_of_decode <| he ▸ SlotKey.port_index_lt

theorem SameHeld.divergenceFrom_eq_iff (h : SameHeld m d) :
    d.divergenceFrom xs = (m.divergenceFrom xs).port ↔ ∀ k ∈ xs, k.toNat < 2 ^ 48 := by
  have hb : ∀ k ∈ m.keys.map (·.encode), k.toNat < 2 ^ 48 := by
    intro k hk
    obtain ⟨key, _, rfl⟩ := List.mem_map.mp hk
    exact ClientUtils.SlotKey.encode_lt
  simp only [divergenceFrom, h.encoded_eq, ClientUtils.DeltaMirror.divergenceFrom, ClientUtils.Divergence.port,
    Divergence.mk.injEq]
  constructor
  case mp =>
    intro ⟨_, hs⟩ k hk
    by_cases hm : k ∈ m.keys.map (·.encode)
    case pos => exact hb k hm
    case neg => exact lt_of_sorted (List.mem_filter.mpr ⟨hk, by simpa using hm⟩) hs
  case mpr =>
    intro hs
    exact ⟨sorted_eq fun k hk => hb k (List.mem_filter.mp hk).left,
      sorted_eq fun k hk => hs k (List.mem_filter.mp hk).left⟩

end DeltaMirror
end Plaza.Flutter

namespace Plaza.Flutter

open Mirroring
open Dart (Word)
open Rust (Overflow U64)

variable {E : Type} {o : Overflow} {m m' : ClientUtils.DeltaMirror E} {d : DeltaMirror E} {seq previous : Word}
  {full : Bool} {key : ClientUtils.SlotKey}

-- The newest sequence number is kept in the same way as the window does.
theorem AckWindow.encode_observe {w : AckWindow} :
    (w.observe seq).fst.encode.map (·.fst) =
      if (w.encode.map (·.fst)).all (Word.lt · seq) then some seq else w.encode.map (·.fst) := by
  cases hs : w.started
  case false => simp [observe, encode, hs]
  case true =>
    cases hn : w.newest.lt seq
    case true  => simp [observe, encode, hs, hn]
    case false =>
      simp only [observe, hs, hn, Bool.not_true, Bool.false_eq_true, ↓reduceIte]
      split_ifs <;> simp_all [encode]

namespace DeltaMirror

-- What the port of `remove` and the one of `get_mut` share.
def touch (d : DeltaMirror E) (key : SlotKey) (act : Held E → AList fun _ : Word => Held E) :
    DeltaMirror E × Option E :=
  match d.held.lookup (d.normalise key).index with
  | none      => (d, none)
  | some held =>
    if held.generation = (d.normalise key).generation then
      ({ d with held := act held }, some held.entity)
    else
      ({ d with staleRefs := d.staleRefs + 1 }, none)

theorem remove_eq_touch {key : SlotKey} :
    d.remove key = d.touch key fun _ => d.held.erase (d.normalise key).index := by
  rw [remove, touch]
  cases d.held.lookup (d.normalise key).index
  case none => rfl
  case some => simp only [ne_eq, ite_not]

theorem forUpdate_eq_touch {key : SlotKey} {write : E → E} : d.forUpdate key write = d.touch key fun held =>
    d.held.insert (d.normalise key).index { held with entity := write held.entity } := by
  rw [forUpdate, touch]
  cases d.held.lookup (d.normalise key).index
  case none => rfl
  case some => simp only [ne_eq, ite_not]

-- The port of a mirror, with what is known about both.
structure Ports (m : ClientUtils.DeltaMirror E) (d : DeltaMirror E) : Prop where
  held         : SameHeld m d
  acks         : AckWindow.Holds m.acks d.acks
  newest       : d.acks.encode.map (·.fst) = m.appliedSeq
  appliedSeq   : d.appliedSeq = m.appliedSeq
  generational : d.generational = m.generational
  digest       : d.digest = m.digest
  framesLost   : d.framesLost = m.framesLost
  staleRefs    : d.staleRefs = m.staleRefs
  divergences  : d.divergences = m.divergences
  lost         : m.framesLost.toNat ≤ (m.appliedSeq.map BitVec.toNat).getD 0

namespace Ports

theorem new {generational : Bool} : Ports (E := E) (.withGenerations .new generational) (.new generational) where
  held         := .empty
  acks         := .new
  newest       := rfl
  appliedSeq   := rfl
  generational := rfl
  digest       := rfl
  framesLost   := rfl
  staleRefs    := rfl
  divergences  := rfl
  lost         := le_rfl

theorem acks_encode_eq (h : Ports m d) :
    (m.acks.encode.map fun (newest, mask) => (BitVec.ofNat 64 newest, mask)) = d.acks.encode := by
  rw [ClientUtils.AckWindow.encode, AckWindow.encode, h.acks.started, ←h.acks.newest, h.acks.mask]
  split
  case isTrue  => simp
  case isFalse => rfl

theorem view_eq (h : Ports m d) : m.view = d.view := by
  simp only [ClientUtils.DeltaMirror.view, view, h.held.entries_eq, h.acks_encode_eq, h.appliedSeq, h.digest,
    h.framesLost, h.staleRefs, h.divergences]

-- What is lost is behind the newest.
theorem lost_le {lost : Word} (h : lost.toNat ≤ previous.toNat) (hm : (previous + 1).msb = previous.msb) :
    (if previous + 1 < seq then lost + (seq - previous - 1) else lost).toNat ≤
      (if previous < seq then seq else previous).toNat := by
  have hn := ClientUtils.DeltaMirror.toNat_next (U64.add_one_of_msb hm)
  split
  case isTrue hc =>
    rw [BitVec.lt_def, hn] at hc
    have ⟨_, hg⟩ := ClientUtils.DeltaMirror.toNat_gap hc
    rw [if_pos (BitVec.lt_def.mpr (by omega)), BitVec.toNat_add]
    exact (Nat.mod_le ..).trans (by omega)
  case isFalse =>
    split
    case isTrue hs  => exact h.trans (BitVec.lt_def.mp hs).le
    case isFalse    => exact h

theorem started (h : Ports m d) (hs : m.acks.started) : m.appliedSeq = some d.acks.newest := by
  rw [←h.newest, AckWindow.encode, h.acks.started, hs]
  rfl

theorem lostBefore_eq_begin (h : Ports m d) (full : Bool)
    (hp : ∀ previous ∈ m.appliedSeq, previous.msb = seq.msb ∧ (previous + 1).msb = seq.msb) :
    m.lostBefore o seq = some (d.begin seq full).framesLost := by
  have hl := h.lost
  simp only [begin, h.appliedSeq, h.framesLost]
  cases ha : m.appliedSeq
  case none => rw [ClientUtils.DeltaMirror.lostBefore, ha]
  case some previous =>
    rw [ha] at hl
    obtain ⟨hm, hn⟩ := hp previous ha
    rw [ClientUtils.DeltaMirror.lostBefore_eq ha hl (U64.add_one_of_msb (hn.trans hm.symm))]
    simp only [Word.lt_eq_of_msb hn, decide_eq_true_eq]
    rfl

theorem all_lt_eq (h : ∀ previous ∈ m.appliedSeq, previous.msb = seq.msb) :
    m.appliedSeq.all (Word.lt · seq) = m.appliedSeq.all (· < seq) := by
  cases ha : m.appliedSeq
  case none          => rfl
  case some previous => exact Word.lt_eq_of_msb <| h previous ha

theorem begin_of_ported (h : Ports m d) (full : Bool)
    (hp : ∀ previous ∈ m.appliedSeq, previous.msb = seq.msb ∧ (previous + 1).msb = seq.msb) :
    ∃ m', m.begin o seq full = some m' ∧ Ports m' (d.begin seq full) := by
  have ha := (h.acks.observe_eq fun hs => (hp d.acks.newest (h.started hs)).left.symm).right
  have hn : (d.begin seq full).appliedSeq = if m.appliedSeq.all (· < seq) then some seq else m.appliedSeq := by
    rw [begin, h.appliedSeq, all_lt_eq fun previous hs => (hp previous hs).left]
  refine ⟨_, by rw [ClientUtils.DeltaMirror.begin, h.lostBefore_eq_begin full hp]; rfl, ?_⟩
  constructor
  case held =>
    cases full
    case true  => exact .empty
    case false => exact h.held
  case acks         => exact ha
  case newest       => rw [←hn, begin, AckWindow.encode_observe, h.newest, h.appliedSeq]
  case appliedSeq   => exact hn
  case generational => exact h.generational
  case digest       => exact h.digest
  case framesLost   => rfl
  case staleRefs    => exact h.staleRefs
  case divergences  => exact h.divergences
  case lost =>
    have hl := h.lost
    simp only [begin, h.appliedSeq, h.framesLost]
    cases hs : m.appliedSeq
    case none =>
      rw [hs] at hl
      exact hl.trans (Nat.zero_le _)
    case some previous =>
      rw [hs] at hl
      have ⟨hm, hn⟩ := hp previous hs
      simp only [Word.lt_eq_of_msb hn, decide_eq_true_eq, Option.all_some, ←apply_ite some]
      have hl : m.framesLost.toNat ≤ previous.toNat := hl
      exact lost_le hl (hn.trans hm.symm)

theorem eq_of_ite_not {α : Type} {p : Prop} [Decidable p] {a b : α}
    (h : (if p then a else b) = if ¬p then a else b) : a = b := by
  rw [ite_not] at h
  split at h
  case isTrue  => exact h
  case isFalse => exact h.symm

-- Of words with different signs one comes later with a sign, and the other without.
theorem ported_of_begin (h : Ports m d) (hb : m.begin o seq full = some m')
    (hs : m'.appliedSeq = (d.begin seq full).appliedSeq) (hl : m'.framesLost = (d.begin seq full).framesLost)
    (ha : m.appliedSeq = some previous) : previous.msb = seq.msb ∧ (previous + 1).msb = seq.msb := by
  obtain ⟨lost, hf, rfl⟩ := Option.map_eq_some_iff.mp hb
  have hf := ClientUtils.DeltaMirror.eq_of_lostBefore ha hf
  subst hf
  simp only [begin, h.appliedSeq, ha, Option.all_some, decide_eq_true_eq] at hs
  simp only [begin, h.appliedSeq, ha, h.framesLost] at hl
  constructor
  case left =>
    by_contra hn
    have hne : seq ≠ previous := fun he => hn (he ▸ rfl)
    simp only [Word.lt_iff_not_of_msb hn] at hs
    exact hne <| Option.some.inj <| eq_of_ite_not hs
  case right =>
    by_contra hn
    have hne : m.framesLost + (seq - previous - 1) ≠ m.framesLost := by
      intro he
      apply hn
      have he : seq - previous - 1 = 0 := by simpa using he
      rw [sub_sub, sub_eq_zero] at he
      rw [he]
    simp only [Word.lt_iff_not_of_msb hn] at hl
    exact hne <| eq_of_ite_not hl

theorem normalise_eq (h : Ports m d) : d.normalise key.port = (m.normalise key).port := by
  rw [normalise, ClientUtils.DeltaMirror.normalise, h.generational]
  split <;> rfl

-- What the port has in the slot which a key names.
theorem lookup_eq (h : Ports m d) (key : ClientUtils.SlotKey) :
    d.held.lookup (d.normalise key.port).index = (m.held.lookup (m.normalise key).index).map .ofHeld := by
  rw [h.normalise_eq]
  exact h.held.lookup_eq

theorem generation_eq_iff (h : Ports m d) {held : ClientUtils.Held E} :
    (Held.ofHeld held).generation = (d.normalise key.port).generation ↔
      held.generation = (m.normalise key).generation := by
  rw [h.normalise_eq]
  exact SlotKey.generation_eq_iff

theorem with_held (h : Ports m d) {held : AList fun _ => ClientUtils.Held E} {held' : AList fun _ => Held E}
    (hh : AList.Renames (BitVec.setWidth 64) Held.ofHeld held held') : Ports { m with held } { d with held := held' } :=
  { h with held := hh }

theorem insert (h : Ports m d) {entity : E} : Ports (m.insert key entity) (d.insert key.port entity) := by
  rw [ClientUtils.DeltaMirror.insert, DeltaMirror.insert, h.normalise_eq]
  exact h.with_held <| AList.Renames.insert SlotKey.setWidth_injective h.held

theorem get_eq (h : Ports m d) : d.get key.port = m.get key := by
  rw [get, ClientUtils.DeltaMirror.get, h.lookup_eq key]
  cases m.held.lookup (m.normalise key).index
  case none      => rfl
  case some held =>
    simp only [Option.map_some, ne_eq, h.generation_eq_iff, Option.filter_some]
    split_ifs <;> simp_all [Held.ofHeld]

theorem add_one_eq {x : Word} (h : Counts o x) : U64.add o x 1 = some (x + 1) := by
  cases h
  case inl h => simp [U64.add, Overflow.outcome, h]
  case inr h => exact U64.add_of_fits h

theorem counts_of_add_one {x y : Word} (h : U64.add o x 1 = some y) : Counts o x := by
  simp only [U64.add, Overflow.outcome, Option.ite_none_right_eq_some] at h
  exact h.left.symm

theorem stale_eq (h : Counts o m.staleRefs) :
    m.stale o = some ({ m with staleRefs := m.staleRefs + 1 }, none) := by
  rw [ClientUtils.DeltaMirror.stale, add_one_eq h]
  rfl

theorem counts_of_stale {r : ClientUtils.DeltaMirror E × Option E} (h : m.stale o = some r) :
    Counts o m.staleRefs := by
  have ⟨_, ha, _⟩ := Option.bind_eq_some_iff.mp h
  exact counts_of_add_one ha

theorem stale (h : Ports m d) :
    Ports { m with staleRefs := m.staleRefs + 1 } { d with staleRefs := d.staleRefs + 1 } :=
  { h with staleRefs := congrArg (· + 1) h.staleRefs }

theorem touch_of_ported (h : Ports m d) (hp : m.Stale key → Counts o m.staleRefs)
    {act : ClientUtils.Held E → AList fun _ => ClientUtils.Held E} {act' : Held E → AList fun _ => Held E}
    (ha : ∀ held, AList.Renames (BitVec.setWidth 64) Held.ofHeld (act held) (act' (.ofHeld held))) :
    ∃ m', m.touch o key act = some (m', (d.touch key.port act').snd) ∧ Ports m' (d.touch key.port act').fst := by
  have hd := h.lookup_eq key
  rw [ClientUtils.DeltaMirror.touch, DeltaMirror.touch]
  cases hl : m.held.lookup (m.normalise key).index
  case none =>
    rw [hl] at hd
    simp only [hd, Option.map_none]
    exact ⟨m, rfl, h⟩
  case some held =>
    rw [hl] at hd
    simp only [hd, Option.map_some, h.generation_eq_iff]
    by_cases hg : held.generation = (m.normalise key).generation
    case neg =>
      rw [if_neg hg, if_neg hg, stale_eq (hp ⟨held, hl, hg⟩)]
      exact ⟨_, rfl, h.stale⟩
    case pos =>
      rw [if_pos hg, if_pos hg]
      exact ⟨_, rfl, h.with_held (ha held)⟩

theorem counts_of_touch {r : ClientUtils.DeltaMirror E × Option E}
    {act : ClientUtils.Held E → AList fun _ => ClientUtils.Held E} (h : m.touch o key act = some r)
    (hs : m.Stale key) : Counts o m.staleRefs := by
  obtain ⟨held, hl, hg⟩ := hs
  simp only [ClientUtils.DeltaMirror.touch, Option.mem_def.mp hl, if_neg hg] at h
  exact counts_of_stale h

theorem remove_of_ported (h : Ports m d) (hp : m.Stale key → Counts o m.staleRefs) :
    ∃ m', m.remove o key = some (m', (d.remove key.port).snd) ∧ Ports m' (d.remove key.port).fst := by
  rw [ClientUtils.DeltaMirror.remove_eq_touch, remove_eq_touch, h.normalise_eq]
  exact h.touch_of_ported hp fun _ => AList.Renames.erase SlotKey.setWidth_injective h.held

theorem getMut_of_ported (h : Ports m d) (hp : m.Stale key → Counts o m.staleRefs) (write : E → E) :
    ∃ m', m.getMut o key write = some (m', (d.forUpdate key.port write).snd) ∧
      Ports m' (d.forUpdate key.port write).fst := by
  rw [ClientUtils.DeltaMirror.getMut_eq_touch, forUpdate_eq_touch, h.normalise_eq]
  exact h.touch_of_ported hp fun _ => AList.Renames.insert SlotKey.setWidth_injective h.held

-- Replacing is writing to what is looked up for it.
theorem update_eq {key : SlotKey} {entity : E} :
    d.update key entity = (d.forUpdate key fun _ => entity).map id (·.isSome) := by
  rw [update, forUpdate]
  cases d.held.lookup (d.normalise key).index
  case none => rfl
  case some =>
    simp only
    split <;> rfl

theorem settle_of_ported (h : Ports m d) {expected : Word} (hl : m.held.entries.length < 2 ^ 32)
    (hp : m.computeDigest ≠ expected → Counts o m.divergences) :
    ∃ m' a, m.settle o expected = some (m', a) ∧ a.port = (d.settle expected).snd ∧
      Ports m' (d.settle expected).fst := by
  have hd := h.held.computeDigest_eq_iff.mpr hl
  rw [ClientUtils.DeltaMirror.settle, settle, hd]
  by_cases he : m.computeDigest = expected
  case pos =>
    simp only [he, ↓reduceIte]
    exact ⟨_, _, rfl, rfl, { h with digest := rfl }⟩
  case neg =>
    simp only [if_neg he, add_one_eq (hp he)]
    exact ⟨_, _, rfl, rfl, { h with digest := rfl, divergences := congrArg (· + 1) h.divergences }⟩

theorem ported_of_settle (h : Ports m d) {expected : Word} {a : ClientUtils.Agreement}
    (hs : m.settle o expected = some (m', a)) (hd : m'.digest = (d.settle expected).fst.digest) :
    m.held.entries.length < 2 ^ 32 ∧ (m.computeDigest ≠ expected → Counts o m.divergences) := by
  have hd : m'.digest = d.computeDigest := by
    rw [hd, settle]
    split <;> rfl
  rw [ClientUtils.DeltaMirror.settle] at hs
  by_cases he : m.computeDigest = expected
  case pos =>
    simp only [he, ↓reduceIte, Option.some.injEq, Prod.mk.injEq] at hs
    obtain ⟨rfl, -⟩ := hs
    exact ⟨h.held.computeDigest_eq_iff.mp <| by rw [←hd, he], fun hn => absurd he hn⟩
  case neg =>
    simp only [if_neg he] at hs
    obtain ⟨_, ha, hs⟩ := Option.bind_eq_some_iff.mp hs
    cases hs
    exact ⟨h.held.computeDigest_eq_iff.mp hd.symm, fun _ => counts_of_add_one ha⟩

theorem setGenerations_of_ported (h : Ports m d) {b : Bool} (hp : m.generational = b ∨ m.held = ∅) :
    Ports (m.setGenerations b) (d.setGenerational b) := by
  rw [ClientUtils.DeltaMirror.setGenerations, setGenerational]
  split
  case isTrue hn =>
    have he := hp.resolve_left hn
    have hh := h.held
    rw [SameHeld, he] at hh
    exact { h with held := hh, generational := rfl }
  case isFalse hn => exact { h with generational := (not_not.mp hn).symm }

theorem ported_of_setGenerations (h : Ports m d) {b : Bool}
    (hs : (m.setGenerations b).iter.map (fun (key, entity) => (key.port, entity)) = (d.setGenerational b).entries) :
    m.generational = b ∨ m.held = ∅ := by
  by_contra hn
  have ⟨hg, hh⟩ := not_or.mp hn
  have he : (d.setGenerational b).entries = m.iter.map fun (key, entity) => (key.port, entity) := h.held.entries_eq
  rw [ClientUtils.DeltaMirror.setGenerations, if_pos hg, he] at hs
  have hl := congrArg List.length hs
  simp [ClientUtils.DeltaMirror.iter] at hl
  exact hh <| AList.ext <| List.length_eq_zero_iff.mp hl.symm

variable {c : Call E}

-- One call, which both mirrors answer alike if it is ported.
theorem call_of_ported (h : Ports m d) (hp : c.Ported o m) :
    ∃ m', m.call o c = some (m', (d.call c).snd) ∧ Ports m' (d.call c).fst := by
  cases c
  case insert         => exact ⟨_, rfl, h.insert⟩
  case setGenerations => exact ⟨_, rfl, h.setGenerations_of_ported hp⟩
  case begin seq full =>
    obtain ⟨m', hm, h⟩ := h.begin_of_ported full hp
    exact ⟨m', by rw [ClientUtils.DeltaMirror.call, hm]; rfl, h⟩
  case get key =>
    refine ⟨m, ?_, h⟩
    rw [ClientUtils.DeltaMirror.call, call, h.get_eq]
  case remove key =>
    obtain ⟨m', hm, h⟩ := h.remove_of_ported hp
    exact ⟨m', by rw [ClientUtils.DeltaMirror.call, hm]; rfl, h⟩
  case getMut key write =>
    obtain ⟨m', hm, h⟩ := h.getMut_of_ported hp write
    exact ⟨m', by rw [ClientUtils.DeltaMirror.call, hm]; rfl, h⟩
  case replace key entity =>
    obtain ⟨m', hm, h⟩ := h.getMut_of_ported hp fun _ => entity
    refine ⟨m', ?_, ?_⟩
    case refine_1 => rw [ClientUtils.DeltaMirror.call, hm, call, update_eq]; rfl
    case refine_2 => rw [call, update_eq]; exact h
  case settle expected =>
    obtain ⟨m', a, hm, ha, h⟩ := h.settle_of_ported hp.left hp.right
    exact ⟨m', by rw [ClientUtils.DeltaMirror.call, hm, call]; simp [ha], h⟩
  case divergenceFrom keys =>
    refine ⟨m, ?_, h⟩
    rw [ClientUtils.DeltaMirror.call, call, h.held.divergenceFrom_eq_iff.mpr hp]

-- A call which is not ported shows in the answer, in what the mirrors hold or in a counter.
theorem ported_of_call (h : Ports m d) (hc : m.call o c = some (m', (d.call c).snd))
    (hv : m'.view = (d.call c).fst.view) : c.Ported o m := by
  cases c
  case insert => trivial
  case get    => trivial
  case begin seq full =>
    obtain ⟨m', hb, he⟩ := Option.map_eq_some_iff.mp hc
    cases he
    exact fun previous ha => h.ported_of_begin hb (congrArg View.appliedSeq hv) (congrArg View.framesLost hv) ha
  case remove key =>
    obtain ⟨r, hr, _⟩ := Option.map_eq_some_iff.mp hc
    exact counts_of_touch (ClientUtils.DeltaMirror.remove_eq_touch ▸ hr)
  case getMut key write =>
    obtain ⟨r, hr, _⟩ := Option.map_eq_some_iff.mp hc
    exact counts_of_touch hr
  case replace key entity =>
    obtain ⟨r, hr, _⟩ := Option.map_eq_some_iff.mp hc
    exact counts_of_touch hr
  case settle expected =>
    obtain ⟨r, hr, he⟩ := Option.map_eq_some_iff.mp hc
    have he : r.fst = m' := congrArg Prod.fst he
    subst he
    exact h.ported_of_settle hr <| congrArg View.digest hv
  case divergenceFrom keys =>
    simp only [ClientUtils.DeltaMirror.call, call, Option.some.injEq, Prod.mk.injEq, Answer.divergence.injEq] at hc
    exact h.held.divergenceFrom_eq_iff.mp hc.right.symm
  case setGenerations b =>
    cases hc
    exact h.ported_of_setGenerations <| congrArg View.entries hv

end Ports

-- A mirror and its port, until the build of the mirror panics.
def Follows (m : Option (ClientUtils.DeltaMirror E)) (d : DeltaMirror E) : Prop :=
  ∃ m' ∈ m, Ports m' d

theorem simulates : (ClientUtils.DeltaMirror.object o).Simulates (object (E := E)) (Allowed o) Follows where
  answer h ha := by
    obtain ⟨m, rfl, h⟩ := h
    obtain ⟨_, ⟨⟩, hp⟩ := ha
    obtain ⟨m', hm, h⟩ := h.call_of_ported hp
    simp [ClientUtils.DeltaMirror.object, object, hm, h.view_eq]
  keeps h ha := by
    obtain ⟨m, rfl, h⟩ := h
    obtain ⟨_, ⟨⟩, hp⟩ := ha
    obtain ⟨m', hm, h⟩ := h.call_of_ported hp
    simp only [ClientUtils.DeltaMirror.object, object, Option.bind_some, hm]
    exact ⟨m', rfl, h⟩

theorem allowed_of_answer {m : Option (ClientUtils.DeltaMirror E)} {c : Call E} (h : Follows m d)
    (ha : ((ClientUtils.DeltaMirror.object o).call m c).snd = (object.call d c).snd) : Allowed o m c := by
  obtain ⟨m, rfl, h⟩ := h
  refine ⟨m, rfl, ?_⟩
  simp only [ClientUtils.DeltaMirror.object, object, Option.bind_some] at ha
  split at ha
  case h_1 => nomatch ha
  case h_2 m' a hm =>
    simp only [Option.some.injEq, Prod.mk.injEq] at ha
    rw [ha.left] at hm
    exact h.ported_of_call hm ha.right

-- Whatever is asked of a mirror and of its port, they are told apart exactly by a call which is not ported.
theorem refines_iff (o : Overflow) (generational : Bool) (calls : List (Call E)) :
    (ClientUtils.DeltaMirror.object o).answers (some <| .withGenerations .new generational) calls =
        object.answers (new generational) calls ↔
      (ClientUtils.DeltaMirror.object o).Meets (Allowed o) (some <| .withGenerations .new generational) calls :=
  simulates.answers_eq_iff allowed_of_answer ⟨_, rfl, .new⟩

-- The port keeps an entity which was filed under a generation when generations are switched off.
theorem switched_while_holding :
    (ClientUtils.DeltaMirror.object .wraps).answers (some <| .withGenerations .new true)
        [.insert { index := 7, generation := 1 } (), .setGenerations false] ≠
      object.answers (new true) [.insert { index := 7, generation := 1 } (), .setGenerations false] := by
  intro h
  have ⟨_, ⟨_, hm, hp⟩, _⟩ := (simulates.answers_eq_iff allowed_of_answer ⟨_, rfl, .new⟩).mp h
  cases hm
  cases hp
  case inl hg => nomatch hg
  case inr hh => nomatch congrArg (List.length ·.entries) hh

end DeltaMirror
end Plaza.Flutter
