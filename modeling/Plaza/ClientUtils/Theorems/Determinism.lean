import Mathlib.Data.UInt
import Plaza.ClientUtils.Determinism
import Plaza.Lib.Execution
import Plaza.Lib.Words

namespace Plaza.ClientUtils

theorem mix64_inj {x y : UInt64} : mix64 x = mix64 y ↔ x = y := by
  have h₀ := Mixing.add_injective (w := 64) (c := 0x9E3779B97F4A7C15#64)
  have h₁ := Mixing.xorShiftRight_injective (w := 64) (s := 30) (by decide)
  have h₂ := Mixing.mul_injective (c := 0xBF58476D1CE4E5B9#64) (d := 0x96de1b173f119089#64) (by decide)
  have h₃ := Mixing.xorShiftRight_injective (w := 64) (s := 27) (by decide)
  have h₄ := Mixing.mul_injective (c := 0x94D049BB133111EB#64) (d := 0x319642b2d24d8ec3#64) (by decide)
  have h₅ := Mixing.xorShiftRight_injective (w := 64) (s := 31) (by decide)
  have h := h₅.comp <| h₄.comp <| h₃.comp <| h₂.comp <| h₁.comp h₀
  constructor
  case mp  => exact fun he => UInt64.toBitVec_inj.mp <| h <| UInt64.toBitVec_inj.mpr he
  case mpr => exact congrArg mix64

namespace SetDigest

-- What may be done to a digest next to the keys it is to count.
inductive Op
  | insert (key : UInt64)
  | remove (key : UInt64)
  deriving DecidableEq, Repr

-- A digest is kept next to its keys. No key is removed that is not there.
def machine : Machine (SetDigest × Multiset UInt64) Op where
  step s
    | .insert key => some (s.fst.insert key, key ::ₘ s.snd)
    | .remove key => if key ∈ s.snd then some (s.fst.remove key, s.snd.erase key) else none

variable {s s' : SetDigest × Multiset UInt64} {op : Op} {keys : Multiset UInt64} {k k' : UInt64} {d d' : SetDigest}

theorem fromKeys_cons : fromKeys (k ::ₘ keys) = (fromKeys keys).insert k := by
  rw [fromKeys, fromKeys, Multiset.foldl_swap, Multiset.foldr_cons, Multiset.foldl_swap]

theorem remove_insert : (d.insert k).remove k = d := by
  simp [insert, remove]

theorem digest_eq_iff_of_count (h : d.count = d'.count) : d.digest = d'.digest ↔ d.acc = d'.acc := by
  rw [digest, digest, h]
  exact UInt64.xor_left_inj _

theorem digest_eq_iff_of_acc (h : d.acc = d'.acc) : d.digest = d'.digest ↔ d.count = d'.count := by
  rw [digest, digest, h, UInt64.xor_right_inj, mix64_inj]
  refine ⟨fun h => ?_, congrArg UInt32.toUInt64⟩
  have h := congrArg UInt64.toNat h
  rw [UInt32.toNat_toUInt64, UInt32.toNat_toUInt64] at h
  exact UInt32.toNat_inj.mp h

-- Both of the digests count the same keys but for one.
theorem digest_replace (hk : k ∈ keys) :
    (fromKeys (k' ::ₘ keys.erase k)).digest = (fromKeys keys).digest ↔ k' = k := by
  rw [← Multiset.cons_erase hk, Multiset.erase_cons_head, fromKeys_cons, fromKeys_cons, digest_eq_iff_of_count]
  · simp only [insert, UInt64.add_right_inj, mix64_inj]
  · rfl

theorem step_counts (hs : s.fst = fromKeys s.snd) (h : machine.step s op = some s') : s'.fst = fromKeys s'.snd := by
  cases op
  case insert key =>
    cases h
    rw [fromKeys_cons, ← hs]
  case remove key =>
    simp only [machine, Option.ite_none_right_eq_some, Option.some.injEq] at h
    obtain ⟨hk, rfl⟩ := h
    rw [hs, ← Multiset.cons_erase hk, fromKeys_cons, remove_insert, Multiset.erase_cons_head]

-- A key that is replaced shows, as does a count behind the same sum. And the digest is one of the keys which are
-- there, not of the way in which they came to be.
theorem detects :
    (∀ (keys : Multiset UInt64) k k', k ∈ keys → k' ≠ k →
      (fromKeys (k' ::ₘ keys.erase k)).digest ≠ (fromKeys keys).digest) ∧
    (∀ d d' : SetDigest, d.acc = d'.acc → d.count ≠ d'.count → d.digest ≠ d'.digest) ∧
    ∀ ops d keys, machine.Steps (new, 0) ops (d, keys) →
      ∀ order : List UInt64, order = keys → d = order.foldl insert new := by
  refine ⟨fun _ _ _ hk => mt (digest_replace hk).mp, fun _ _ h => mt (digest_eq_iff_of_acc h).mp, ?_⟩
  rintro ops d _ h order rfl
  exact h.preserves (I := fun s => s.fst = fromKeys s.snd) step_counts rfl

end SetDigest
end Plaza.ClientUtils

open Rust

namespace Plaza.ClientUtils.Determinism

variable {x : U64}

theorem mix64_injective : Function.Injective mix64 := by
  have h₁ := Mixing.xorShiftRight_injective (w := 64) (s := 33) (by decide)
  have h₂ := Mixing.mul_injective (c := 0xff51afd7ed558ccd#64) (d := 0x4f74430c22a54005#64) (by decide)
  have h₃ := Mixing.xorShiftRight_injective (w := 64) (s := 29) (by decide)
  have h₄ := Mixing.mul_injective (c := 0xc4ceb9fe1a85ec53#64) (d := 0x9cb4b2f8129337db#64) (by decide)
  have h₅ := Mixing.xorShiftRight_injective (w := 64) (s := 32) (by decide)
  exact h₅.comp <| h₄.comp <| h₃.comp <| h₂.comp h₁

theorem xorshift_injective : Function.Injective xorshift := by
  have h₁ := Mixing.xorShiftLeft_injective (w := 64) (s := 13) (by decide)
  have h₂ := Mixing.xorShiftRight_injective (w := 64) (s := 7) (by decide)
  have h₃ := Mixing.xorShiftLeft_injective (w := 64) (s := 17) (by decide)
  exact h₃.comp <| h₂.comp h₁

theorem xorshift_eq_zero_iff : xorshift x = 0 ↔ x = 0 := by
  have hz : xorshift 0 = 0 := by decide
  constructor
  case mp  => exact fun h => xorshift_injective <| h.trans hz.symm
  case mpr => exact fun h => h ▸ hz

theorem ne_zero_of_step {y : U64} (hx : x ≠ 0) (h : y = xorshift x ∨ y = x) : y ≠ 0 := by
  cases h
  case inl h => exact h ▸ mt xorshift_eq_zero_iff.mp hx
  case inr h => exact h ▸ hx

-- The lowest bit of a seed is forced on.
theorem seed_ne_zero : x ||| 1 ≠ 0 := by
  intro h
  have hb : (x ||| 1).getLsbD 0 = true := by simp
  rw [h] at hb
  cases hb

namespace XorShift

variable {r r' : XorShift} {d : Draw}

theorem state_step (h : machine.step r d = some r') :
    r'.state = xorshift r.state ∨ r'.state = r.state := by
  cases d <;> cases h
  case below bound =>
    rw [below]
    split
    case isTrue  => exact .inr rfl
    case isFalse => exact .inl rfl
  all_goals exact .inl rfl

theorem below_lt {bound : U32} (h : 0 < bound) : (r.below bound).fst < bound := by
  have hb : bound ≠ 0 := (BitVec.pos_iff_ne_zero _).mp h
  have hp : 0 < bound.toNat := BitVec.lt_def.mp h
  have hl := bound.isLt
  rw [below, if_neg hb]
  simp only [next, BitVec.lt_def, BitVec.toNat_setWidth, BitVec.toNat_umod]
  have hm := Nat.mod_lt (xorshift r.state).toNat hp
  rw [Nat.mod_eq_of_lt (by omega : bound.toNat < 2 ^ 64), Nat.mod_eq_of_lt (by omega)]
  exact hm

end XorShift

section

variable {r : Rng} {d : Draw} {draws : List Draw} {n : UInt64}

theorem upTo_of_lt (h : n.toNat < 2 ^ 64 - 1) : ∃ r' x, r.upTo n = some (r', x) ∧ x ≤ n := by
  by_cases hn : n = 0
  case pos => exact ⟨r, 0, if_pos hn, UInt64.le_iff_toNat_le.mpr (Nat.zero_le _)⟩
  case neg =>
    have hs : (n + 1).toNat = n.toNat + 1 := by
      rw [UInt64.toNat_add]
      exact Nat.mod_eq_of_lt (Nat.lt_sub_iff_add_lt.mp h)
    have hm : n + 1 ≠ 0 := by
      intro hz
      rw [hz] at hs
      exact absurd hs.symm (Nat.succ_ne_zero _)
    refine ⟨r.nextU64.fst, r.nextU64.snd % (n + 1), by simp [Rng.upTo, hn, hm], ?_⟩
    rw [UInt64.le_iff_toNat_le, UInt64.toNat_mod, hs]
    exact Nat.le_of_lt_succ <| Nat.mod_lt _ (Nat.succ_pos _)

theorem nextU64_eq : r.nextU64.fst.state.toBitVec = xorshift r.state.toBitVec :=
  rfl

theorem state_call : (Rng.object.call r d).fst.state.toBitVec = xorshift r.state.toBitVec ∨
    (Rng.object.call r d).fst.state.toBitVec = r.state.toBitVec := by
  cases d
  case word   => exact .inl rfl
  case unit   => exact .inl rfl
  case upTo n =>
    by_cases h₀ : n = 0
    case pos => exact .inr (by simp [Rng.object, Rng.upTo, h₀])
    case neg =>
      by_cases hm : n + 1 = 0
      case pos => exact .inr (by simp [Rng.object, Rng.upTo, h₀, hm])
      case neg => exact .inl (by simp [Rng.object, Rng.upTo, h₀, hm, nextU64_eq])

theorem state_draws (h : r.state.toBitVec ≠ 0) :
    (draws.foldl (fun r d => (Rng.object.call r d).fst) r).state.toBitVec ≠ 0 := by
  induction draws generalizing r
  case nil          => exact h
  case cons d _ hi => exact hi (ne_zero_of_step h state_call)

end

-- Nothing is lost in mixing and in stepping, no stream gets stuck, and all draws are in their bounds.
theorem draws_never_collapse :
    mix64.Injective ∧ xorshift.Bijective ∧ (∀ x, xorshift x = 0 ↔ x = 0) ∧
    (∀ r : XorShift, r.next.snd.state = xorshift r.state) ∧
    (∀ r : Rng, r.nextU64.fst.state.toBitVec = xorshift r.state.toBitVec) ∧
    (∀ seed draws r, XorShift.machine.Steps (.new seed) draws r → r.state ≠ 0) ∧
    (∀ seed (draws : List Draw), (draws.foldl (fun r d => (Rng.object.call r d).fst) (.new seed)).state ≠ 0) ∧
    (∀ (r : XorShift) bound, 0 < bound → (r.below bound).fst < bound) ∧
    ∀ (r : Rng) n, n.toNat < 2 ^ 64 - 1 → ∃ r' x, r.upTo n = some (r', x) ∧ x ≤ n := by
  refine ⟨mix64_injective, Finite.injective_iff_bijective.mp xorshift_injective, fun _ => xorshift_eq_zero_iff,
    fun _ => rfl, fun _ => nextU64_eq, fun _ _ _ h => ?_, fun seed draws h => ?_, fun _ _ => XorShift.below_lt,
    fun _ _ => upTo_of_lt⟩
  case refine_1 =>
    exact h.preserves (I := fun r => r.state ≠ 0) (fun h hs => ne_zero_of_step h (XorShift.state_step hs)) seed_ne_zero
  case refine_2 =>
    have hs : (Rng.new seed).state.toBitVec ≠ 0 := seed_ne_zero
    exact state_draws hs (congrArg UInt64.toBitVec h)

end Plaza.ClientUtils.Determinism
