import Mathlib.Algebra.BigOperators.Group.Multiset.Defs
import Plaza.Flutter.Digest

namespace Plaza

namespace Update

variable {us us' : List Update} {u : Update}

-- The sum of all hashes, for the keys held.
def hashes (us : List Update) : BitVec 64 :=
  FreeAbelianGroup.lift (fun key : UInt64 => Flutter.mix64 key.toBitVec) (held us)

theorem held_concat : held (us ++ [u]) = held us + held [u] := by
  simp [held]

theorem size_concat : size (us ++ [u]) = size us + size [u] := by
  simp [size, held_concat]

theorem hashes_concat : hashes (us ++ [u]) = hashes us + hashes [u] := by
  simp [hashes, held_concat]

end Update

theorem Flutter.mix64_eq {x : UInt64} : mix64 x.toBitVec = (ClientUtils.mix64 x).toBitVec := by
  rfl

open Update

variable {us us' : List Update}

-- An account of both components, which each update keeps.
theorem ClientUtils.SetDigest.after_eq (us : List Update) :
    (after us).acc.toBitVec = hashes us ∧ (after us).count.toBitVec = .ofInt 32 (size us) := by
  induction us using List.reverseRecOn
  case nil => exact ⟨rfl, rfl⟩
  case append_singleton us u hi =>
    rw [hashes_concat, size_concat, after, List.foldl_concat, ←after, BitVec.ofInt_add, ←hi.left, ←hi.right]
    cases u <;> constructor <;>
      simp [update, insert, remove, hashes, size, held, Flutter.mix64_eq, sub_eq_add_neg]

theorem Flutter.SetDigest.after_eq (us : List Update) :
    (after us).acc = hashes us ∧ (after us).count = .ofInt 64 (size us) := by
  induction us using List.reverseRecOn
  case nil => exact ⟨rfl, rfl⟩
  case append_singleton us u hi =>
    rw [hashes_concat, size_concat, after, List.foldl_concat, ←after, BitVec.ofInt_add, ←hi.left, ←hi.right]
    cases u <;> constructor <;> simp [update, insert, remove, hashes, size, held, sub_eq_add_neg]

-- The count of the server has 32 bits, the one of the client 64.
theorem Flutter.SetDigest.digest_eq (h : held us = held us') (h₀ : 0 ≤ size us) (hs : size us < 2 ^ 32) :
    (after us').digest = (ClientUtils.SetDigest.after us).digest.toBitVec := by
  have ⟨ha, hc⟩ := after_eq us'
  have ⟨ha', hc'⟩ := ClientUtils.SetDigest.after_eq us
  have he : hashes us' = hashes us := by simp [hashes, h]
  have hz : size us' = size us := by simp [size, h]
  have hw : (after us').count = (ClientUtils.SetDigest.after us).count.toUInt64.toBitVec := by
    rw [hc, hz, UInt32.toBitVec_toUInt64, hc']
    apply BitVec.eq_of_toNat_eq
    simp [BitVec.toNat_ofInt]
    omega
  rw [digest, ClientUtils.SetDigest.digest, UInt64.toBitVec_xor, ha, ha', he, hw, mix64_eq]

variable {ks : List UInt64}

theorem Update.size_inserts : size (ks.map .insert) = ks.length := by
  induction ks
  case nil          => simp [size, held]
  case cons k ks hi =>
    have hc : held ((k :: ks).map .insert) = .of k + held (ks.map .insert) := by simp [held]
    rw [size, hc, map_add, FreeAbelianGroup.lift_apply_of, ←size, hi, List.length_cons]
    omega

-- Once 2^32 keys are counted the server's count is zero again.
theorem Flutter.SetDigest.fromKeys_eq_iff (h : ks.length ≤ 2 ^ 32) :
    (fromKeys (ks.map UInt64.toBitVec)).digest = (ClientUtils.SetDigest.fromKeys ks).digest.toBitVec ↔
      ks.length < 2 ^ 32 := by
  have hf : fromKeys (ks.map UInt64.toBitVec) = after (ks.map .insert) := by
    simp [fromKeys, after, update, List.foldl_map]
  have hc : ClientUtils.SetDigest.fromKeys ks = ClientUtils.SetDigest.after (ks.map .insert) := by
    simp [ClientUtils.SetDigest.fromKeys, ClientUtils.SetDigest.after, ClientUtils.SetDigest.update, List.foldl_map]
  rw [hf, hc]
  constructor
  case mpr => exact fun hl => digest_eq rfl (by simp [size_inserts]) (by rw [size_inserts]; omega)
  case mp  =>
    intro he
    by_contra hl
    obtain ⟨ha, hn⟩ := after_eq (ks.map .insert)
    obtain ⟨ha', hn'⟩ := ClientUtils.SetDigest.after_eq (ks.map .insert)
    have hl : ks.length = 2 ^ 32 := by omega
    rw [size_inserts, hl] at hn hn'
    have hz : (ClientUtils.SetDigest.after (ks.map .insert)).count.toUInt64 = 0 := by
      apply UInt64.toBitVec_inj.mp
      rw [UInt32.toBitVec_toUInt64, hn']
      rfl
    rw [digest, ClientUtils.SetDigest.digest, UInt64.toBitVec_xor, ha, ha', hn, hz, ←mix64_eq,
      BitVec.xor_right_inj] at he
    exact absurd he (by decide)

end Plaza
