import Mathlib.Data.List.Sigma
import Plaza.Lib.Ordered
import Plaza.ClientUtils.Mirror

namespace Plaza.ClientUtils

open Rust

variable {E : Type} {o : Overflow} {m m' : DeltaMirror E} {key : SlotKey} {seq previous lost : U64}
variable {xs : List U64} {truth : List SlotKey}

namespace SlotKey

theorem toNat_encode : key.encode.toNat = key.index.toNat * 2 ^ 16 + key.generation.toNat := by
  have hi : (key.index.setWidth 64 <<< 16).toNat = key.index.toNat <<< 16 := by
    simp [Nat.shiftLeft_eq]
    omega
  have hg : (key.generation.setWidth 64).toNat = key.generation.toNat := by
    simp only [BitVec.toNat_setWidth]
    omega
  rw [encode, BitVec.toNat_or, hi, hg, ← Nat.shiftLeft_add_eq_or_of_lt (by omega), Nat.shiftLeft_eq]

theorem encode_lt : key.encode.toNat < 2 ^ 48 := by
  rw [toNat_encode]
  omega

theorem decode_encode : decode key.encode = key := by
  have hl : (key.encode &&& 0xFFFF).toNat = key.encode.toNat % 2 ^ 16 := by
    rw [BitVec.toNat_and]
    exact Nat.and_two_pow_sub_one_eq_mod _ 16
  have hi : (decode key.encode).index = key.index := by
    apply BitVec.eq_of_toNat_eq
    rw [decode, BitVec.toNat_setWidth, BitVec.toNat_ushiftRight, Nat.shiftRight_eq_div_pow, toNat_encode]
    omega
  have hg : (decode key.encode).generation = key.generation := by
    apply BitVec.eq_of_toNat_eq
    rw [decode, BitVec.toNat_setWidth, hl, toNat_encode]
    omega
  calc decode key.encode
    _ = ⟨(decode key.encode).index, (decode key.encode).generation⟩ := rfl
    _ = key := by rw [hi, hg]

theorem encode_injective : Function.Injective encode :=
  Function.LeftInverse.injective fun _ => decode_encode

end SlotKey

namespace DeltaMirror

-- What `remove` and `get_mut` share: `act` is done to the occupant, if the key names it.
def touch (o : Overflow) (m : DeltaMirror E) (key : SlotKey) (act : Held E → AList fun _ : BitVec 32 => Held E) :
    Option (DeltaMirror E × Option E) :=
  match m.held.lookup (m.normalise key).index with
  | some held =>
    if held.generation = (m.normalise key).generation then
      some ({ m with held := act held }, some held.entity)
    else
      m.stale o
  | none => some (m, none)

theorem remove_eq_touch : m.remove o key = m.touch o key fun _ => m.held.erase (m.normalise key).index := by
  rw [remove, touch]
  cases m.held.lookup (m.normalise key).index
  case none => rfl
  case some => simp only [ne_eq, ite_not]

theorem getMut_eq_touch {write : E → E} : m.getMut o key write = m.touch o key fun held =>
    m.held.insert (m.normalise key).index { held with entity := write held.entity } :=
  rfl

-- A build which does not panic computes with words.
theorem eq_of_lostBefore (ha : m.appliedSeq = some previous) (h : m.lostBefore o seq = some lost) :
    lost = if previous + 1 < seq then m.framesLost + (seq - previous - 1) else m.framesLost := by
  simp only [lostBefore, ha, Option.bind_eq_bind, Option.bind_eq_some_iff] at h
  obtain ⟨next, hn, h⟩ := h
  rw [U64.eq_of_add hn] at h
  split at h
  case isTrue hs =>
    simp only [Option.bind_eq_some_iff] at h
    obtain ⟨jump, hj, gap, hg, h⟩ := h
    rw [if_pos hs, U64.eq_of_add h, U64.eq_of_sub hg, U64.eq_of_sub hj]
  case isFalse hs =>
    rw [if_neg hs]
    exact (Option.some.inj h).symm

theorem toNat_next (h : previous.toNat + 1 < 2 ^ 64) : (previous + 1).toNat = previous.toNat + 1 := by
  rw [BitVec.toNat_add]
  exact Nat.mod_eq_of_lt h

-- How many sequence numbers are between two.
theorem toNat_gap (h : previous.toNat + 1 < seq.toNat) :
    (seq - previous).toNat = seq.toNat - previous.toNat ∧
      (seq - previous - 1).toNat = seq.toNat - previous.toNat - 1 := by
  have ho : (1 : U64).toNat = 1 := rfl
  have hj : (seq - previous).toNat = seq.toNat - previous.toNat :=
    BitVec.toNat_sub_of_le <| BitVec.le_def.mpr (by omega)
  exact ⟨hj, by rw [BitVec.toNat_sub_of_le <| BitVec.le_def.mpr (by omega), hj, ho]⟩

-- Nothing overflows unless the last frame bore the greatest number.
theorem lostBefore_eq (ha : m.appliedSeq = some previous) (hl : m.framesLost.toNat ≤ previous.toNat)
    (hp : previous.toNat + 1 < 2 ^ 64) :
    m.lostBefore o seq =
      some (if previous + 1 < seq then m.framesLost + (seq - previous - 1) else m.framesLost) := by
  have hs := seq.isLt
  simp only [lostBefore, ha, Option.bind_eq_bind]
  rw [U64.add_of_fits hp, Option.bind_some]
  split
  case isFalse => rfl
  case isTrue hc =>
    rw [BitVec.lt_def, toNat_next hp] at hc
    have ho : (1 : U64).toNat = 1 := rfl
    have ⟨hj, hg⟩ := toNat_gap hc
    rw [U64.sub_of_fits (by omega), Option.bind_some, U64.sub_of_fits (by omega), Option.bind_some,
      U64.add_of_fits (by omega)]

theorem pairwise_entries :
    (m.held.entries.mergeSort fun x y => x.fst ≤ y.fst).Pairwise fun x y => x.fst < y.fst :=
  List.pairwise_mergeSort_of_nodup m.held.nodupKeys

-- An index has one occupant.
theorem iter_pairwise : m.iter.Pairwise (·.fst.index < ·.fst.index) :=
  List.pairwise_map.mpr pairwise_entries

-- Mirrors with the same slots hold the same in the same order.
theorem iter_congr (h : ∀ i, m'.held.lookup i = m.held.lookup i) : m'.iter = m.iter := by
  have hp : m'.held.entries.Perm m.held.entries :=
    List.lookup_ext m'.held.nodupKeys m.held.nodupKeys fun i y => iff_of_eq <| congrArg (y ∈ ·) (h i)
  refine congrArg (List.map _) <| List.Perm.eq_of_pairwise (fun x y _ _ (h : x.fst < y.fst) h' => ?_) pairwise_entries
    pairwise_entries ?_
  case refine_1 => exact absurd (BitVec.lt_trans h h') (BitVec.lt_irrefl _)
  case refine_2 => exact (List.mergeSort_perm ..).trans <| hp.trans (List.mergeSort_perm ..).symm

theorem mem_ordered {k : U64} : k ∈ ordered xs ↔ k ∈ xs :=
  List.mem_mergeSort.trans List.mem_dedup

theorem ordered_pairwise : (ordered xs).Pairwise (· < ·) := by
  have h : (xs.dedup.map id).Nodup := by simpa using List.nodup_dedup xs
  exact List.pairwise_mergeSort_of_nodup h

-- Keys which were encoded come back in order.
theorem decode_ordered (h : ∀ k ∈ xs, ∃ key : SlotKey, key.encode = k) :
    (ordered xs |>.map SlotKey.decode).Pairwise (·.encode < ·.encode) ∧
      ∀ key : SlotKey, key ∈ (ordered xs |>.map SlotKey.decode) ↔ key.encode ∈ xs := by
  have he : ∀ k ∈ ordered xs, (SlotKey.decode k).encode = k := by
    intro k hk
    have ⟨key, hk⟩ := h k (mem_ordered.mp hk)
    rw [← hk, SlotKey.decode_encode]
  constructor
  case left =>
    refine List.pairwise_map.mpr <| ordered_pairwise.imp_of_mem fun {a b} ha hb h => ?_
    rwa [he a ha, he b hb]
  case right =>
    intro key
    rw [List.mem_map]
    constructor
    case mp =>
      rintro ⟨k, hk, rfl⟩
      rw [he k hk]
      exact mem_ordered.mp hk
    case mpr => exact fun hk => ⟨key.encode, mem_ordered.mpr hk, SlotKey.decode_encode⟩

-- The lists of a divergence are those of the two differences.
theorem divergenceFrom_differs :
    (∀ key, key ∈ (m.divergenceFrom (truth.map (·.encode))).extra ↔ key ∈ m.keys ∧ key ∉ truth) ∧
    (∀ key, key ∈ (m.divergenceFrom (truth.map (·.encode))).missing ↔ key ∈ truth ∧ key ∉ m.keys) ∧
    (m.divergenceFrom (truth.map (·.encode))).extra.Pairwise (·.encode < ·.encode) ∧
    (m.divergenceFrom (truth.map (·.encode))).missing.Pairwise (·.encode < ·.encode) := by
  have hm {l : List SlotKey} {key : SlotKey} : key.encode ∈ l.map (·.encode) ↔ key ∈ l :=
    List.mem_map_of_injective SlotKey.encode_injective
  have hd (l l' : List SlotKey) :
      ((ordered <| (l.map (·.encode)).filter (· ∉ l'.map (·.encode))).map SlotKey.decode).Pairwise
          (·.encode < ·.encode) ∧
        ∀ key, key ∈ (ordered <| (l.map (·.encode)).filter (· ∉ l'.map (·.encode))).map SlotKey.decode ↔
          key ∈ l ∧ key ∉ l' := by
    have he : ∀ k ∈ (l.map (·.encode)).filter (· ∉ l'.map (·.encode)), ∃ key : SlotKey, key.encode = k := by
      intro k hk
      have ⟨key, _, hk⟩ := List.mem_map.mp (List.mem_filter.mp hk).left
      exact ⟨key, hk⟩
    have ⟨ho, hk⟩ := decode_ordered he
    refine ⟨ho, fun key => (hk key).trans ?_⟩
    rw [List.mem_filter, hm, decide_eq_true_eq, hm]
  have ⟨he, hx⟩ := hd m.keys truth
  have ⟨hs, hy⟩ := hd truth m.keys
  exact ⟨hx, hy, he, hs⟩

end DeltaMirror
end Plaza.ClientUtils
