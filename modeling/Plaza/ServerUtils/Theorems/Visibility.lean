import Mathlib.Data.Finset.Card
import Plaza.ServerUtils.Visibility

namespace Plaza.ServerUtils

open Rust
open Plaza.ClientUtils (SetDigest)

variable {s previous : VisibilitySet} {i j : U32} {word : U64} {w : Nat} {out entered left : List U32}
variable {blocks : List (U64 × Nat)} {S T : Finset U32} {l : List U32}

-- The indices which the set bits of a word stand for.
def block (word : U64) (w : Nat) : List U32 :=
  (Ones.positions word).map fun n => .ofNat 32 (w * 64) + (BitVec.ofNat 64 n).setWidth 32

theorem toNat_index {n : Nat} (hw : w < 2 ^ 26) (hn : n < 64) :
    (.ofNat 32 (w * 64) + (BitVec.ofNat 64 n).setWidth 32 : U32).toNat = w * 64 + n := by
  rw [BitVec.toNat_add, BitVec.toNat_setWidth, BitVec.toNat_ofNat, BitVec.toNat_ofNat]
  omega

theorem mem_block (hw : w < 2 ^ 26) : i ∈ block word w ↔ i.toNat / 64 = w ∧ word.getLsbD (i.toNat % 64) := by
  rw [block, List.mem_map]
  constructor
  case mp =>
    rintro ⟨n, hn, rfl⟩
    have hn := Ones.mem_positions.mp hn
    have hl := BitVec.lt_of_getLsbD hn
    rw [toNat_index hw hl, show (w * 64 + n) % 64 = n by omega]
    exact ⟨by omega, hn⟩
  case mpr =>
    intro ⟨hi, hb⟩
    refine ⟨i.toNat % 64, Ones.mem_positions.mpr hb, BitVec.eq_of_toNat_eq ?_⟩
    rw [toNat_index hw (by omega)]
    omega

theorem block_pairwise (hw : w < 2 ^ 26) : (block word w).Pairwise (· < ·) := by
  refine List.pairwise_map.mpr <| Ones.positions_pairwise.imp_of_mem fun {n m} hn hm h => ?_
  have hn := BitVec.lt_of_getLsbD (Ones.mem_positions.mp hn)
  have hm := BitVec.lt_of_getLsbD (Ones.mem_positions.mp hm)
  rw [BitVec.lt_def, toNat_index hw hn, toNat_index hw hm]
  omega

theorem length_block : (block word w).length = word.cpop.toNat := by
  rw [block, List.length_map, Ones.length_positions]

theorem emitBits_eq : emitBits word w out = out ++ block word w := by
  rw [emitBits, Ones.run_loop Ones.length_positions_le]
  rfl

-- Both loops over a word find the same indices.
theorem toList_eq : BitIter.toList { word, base := .ofNat 32 (w * 64) } = block word w := by
  let state : U64 × List U32 → BitIter × List U32 := fun s => ({ word := s.fst, base := .ofNat 32 (w * 64) }, s.snd)
  have hm (s) : BitIter.collect.body (state s) =
      ((Ones.loop fun zeros : U64 => .ofNat 32 (w * 64) + zeros.setWidth 32).body s).map state := by
    by_cases h : s.fst = 0#64 <;> simp [state, BitIter.collect, BitIter.next, Ones.loop, h]
  have hr : BitIter.collect.run 64 (state (word, [])) = state _ := Loop.run_map hm
  rw [Ones.run_loop Ones.length_positions_le] at hr
  exact congrArg Prod.snd hr

-- The list has the elements of a set, in ascending order.
def Lists (l : List U32) (S : Finset U32) : Prop :=
  l.Pairwise (· < ·) ∧ ∀ i, i ∈ l ↔ i ∈ S

-- What is in a number of blocks, which come in order.
theorem blocks_lists (ho : blocks.Pairwise (·.snd < ·.snd)) (hb : ∀ b ∈ blocks, b.snd < 2 ^ 26)
    (hS : ∀ i, i ∈ S ↔ ∃ b ∈ blocks, i.toNat / 64 = b.snd ∧ b.fst.getLsbD (i.toNat % 64)) :
    Lists (blocks.flatMap fun b => block b.fst b.snd) S := by
  constructor
  case left =>
    refine List.pairwise_flatMap.mpr ⟨fun b hm => block_pairwise (hb b hm), ho.imp_of_mem ?_⟩
    intro b c hm hm' h i hi j hj
    have hi := (mem_block (hb b hm)).mp hi
    have hj := (mem_block (hb c hm')).mp hj
    rw [BitVec.lt_def]
    omega
  case right =>
    intro i
    rw [List.mem_flatMap, hS]
    exact exists_congr fun b => and_congr_right fun hm => mem_block (hb b hm)

namespace Lists

theorem length (h : Lists l S) : l.length = S.card := by
  have hn : l.Nodup := by
    refine List.Pairwise.imp (fun {a b} h (he : a = b) => ?_) h.left
    exact BitVec.lt_irrefl b (he ▸ h)
  rw [← List.toFinset_card_of_nodup hn]
  exact congrArg Finset.card <| Finset.ext fun i => List.mem_toFinset.trans (h.right i)

theorem toFinset (h : Lists l S) : l.toFinset = S :=
  Finset.ext fun i => List.mem_toFinset.trans (h.right i)

-- There is one such list.
theorem unique {l' : List U32} (h : Lists l S) (h' : Lists l' S) : l = l' := by
  have : Std.Irrefl fun a b : U32 => a < b := ⟨BitVec.lt_irrefl⟩
  have : Std.Antisymm fun a b : U32 => a < b := ⟨fun _ _ h h' => absurd (BitVec.lt_trans h h') (BitVec.lt_irrefl _)⟩
  exact h.left.eq_of_mem_iff h'.left fun i => (h.right i).trans (h'.right i).symm

end Lists

namespace VisibilitySet

-- The word at a place, whether it is there or not.
def wordAt (s : VisibilitySet) (w : Nat) : U64 :=
  s.words[w]?.getD 0

-- The set marks what is in `S`.
def Represents (s : VisibilitySet) (S : Finset U32) : Prop :=
  ∀ i, s.contains i ↔ i ∈ S

theorem getLsbD_bit {n : Nat} : (bit i).getLsbD n = decide (n = i.toNat % 64) := by
  have hi : i.toNat % 64 < 64 := Nat.mod_lt _ (by decide)
  rw [bit, ← BitVec.twoPow_eq, BitVec.getLsbD_twoPow]
  simp [hi, eq_comm]

theorem and_bit : word &&& bit i ≠ 0 ↔ word.getLsbD (i.toNat % 64) := by
  have hi : i.toNat % 64 < 64 := Nat.mod_lt _ (by decide)
  constructor
  case mp =>
    intro h
    by_contra hw
    refine h <| BitVec.eq_of_getLsbD_eq fun n _ => ?_
    rw [BitVec.getLsbD_and, getLsbD_bit]
    by_cases hn : n = i.toNat % 64 <;> simp_all
  case mpr =>
    intro h hz
    have := congrArg (BitVec.getLsbD · (i.toNat % 64)) hz
    simp [getLsbD_bit, h] at this

theorem contains_iff : s.contains i ↔ (s.wordAt (i.toNat / 64)).getLsbD (i.toNat % 64) := by
  rw [contains, wordAt]
  cases s.words[i.toNat / 64]?
  case none      => simp
  case some word => simpa using and_bit

theorem getD_grow {words : List U64} {k : Nat} : (grow words k)[w]?.getD 0 = words[w]?.getD 0 := by
  unfold grow
  split
  case isFalse => rfl
  case isTrue =>
    rw [List.getElem?_append]
    split
    case isTrue  => rfl
    case isFalse h =>
      rw [List.getElem?_eq_none (not_lt.mp h), List.getElem?_replicate]
      split <;> rfl

theorem wordAt_insert : (s.insert i).wordAt w = if i.toNat / 64 = w then s.wordAt w ||| bit i else s.wordAt w := by
  have hg : s.wordAt w = (grow s.words (i.toNat / 64))[w]?.getD 0 := getD_grow.symm
  rw [hg, wordAt, insert, List.getElem?_modify]
  split
  case isFalse => simp
  case isTrue h =>
    have hl : w < (grow s.words (i.toNat / 64)).length := by rw [length_grow]; omega
    simp [List.getElem?_eq_getElem hl]

theorem wordAt_remove :
    (s.remove i).wordAt w = if i.toNat / 64 = w then s.wordAt w &&& ~~~bit i else s.wordAt w := by
  rw [wordAt, wordAt, remove, List.getElem?_modify]
  cases s.words[w]? <;> split <;> simp

theorem eq_iff : j = i ↔ i.toNat / 64 = j.toNat / 64 ∧ j.toNat % 64 = i.toNat % 64 := by
  rw [← BitVec.toNat_inj]
  omega

theorem iter_eq : s.iter = s.words.zipIdx.flatMap fun b => block b.fst b.snd :=
  List.flatMap_congr fun _ _ => toList_eq

theorem length_iter : s.iter.length = s.count := by
  have hw : s.words.zipIdx.map (fun b => b.fst.cpop.toNat) = s.words.map (·.cpop.toNat) := by
    conv_rhs => rw [← List.zipIdx_map_fst 0 s.words, List.map_map]
    rfl
  rw [iter_eq, List.length_flatMap, count, ← hw]
  simp only [length_block]

-- The loop of `diff` goes through the blocks of both sets.
theorem diff_eq :
    let n := max s.words.length previous.words.length
    s.diff previous entered left =
      (entered ++ (List.range n).flatMap fun w => block (s.wordAt w &&& ~~~previous.wordAt w) w,
        left ++ (List.range n).flatMap fun w => block (previous.wordAt w &&& ~~~s.wordAt w) w) := by
  simp only [diff, emitBits_eq, wordAt]
  induction List.range (max s.words.length previous.words.length) generalizing entered left
  case nil          => simp
  case cons w ws ih => simp only [List.foldl_cons, ih, List.flatMap_cons, List.append_assoc]

namespace Represents

theorem new : Represents .new ∅ := by
  intro i
  simp [contains_iff, wordAt, VisibilitySet.new]

theorem withCapacity {maxIndex : U32} : Represents (.withCapacity maxIndex) ∅ := by
  intro i
  rw [contains_iff, wordAt, VisibilitySet.withCapacity, List.getElem?_replicate]
  split <;> simp

theorem clear : Represents s.clear ∅ := by
  intro i
  rw [contains_iff, wordAt, VisibilitySet.clear, List.getElem?_map]
  cases s.words[i.toNat / 64]? <;> simp

theorem insert (h : s.Represents S) : Represents (s.insert i) (Insert.insert i S) := by
  intro j
  rw [contains_iff, wordAt_insert, Finset.mem_insert, ← h j, contains_iff, eq_iff]
  by_cases hw : i.toNat / 64 = j.toNat / 64
  case pos => rw [if_pos hw, BitVec.getLsbD_or, getLsbD_bit]; simp [hw, or_comm]
  case neg => rw [if_neg hw]; simp [hw]

theorem remove (h : s.Represents S) : Represents (s.remove i) (S.erase i) := by
  intro j
  rw [contains_iff, wordAt_remove, Finset.mem_erase, ← h j, contains_iff, ne_eq, eq_iff]
  by_cases hw : i.toNat / 64 = j.toNat / 64
  case pos =>
    have hj : j.toNat % 64 < 64 := Nat.mod_lt _ (by decide)
    rw [if_pos hw, BitVec.getLsbD_and, BitVec.getLsbD_not, getLsbD_bit]
    simp [hw, hj, and_comm]
  case neg => rw [if_neg hw]; simp [hw]

theorem iter_lists (h : s.Represents S) : Lists s.iter S := by
  rw [iter_eq]
  refine blocks_lists ?_ (fun b hb => ?_) fun i => ?_
  case refine_1 =>
    refine List.pairwise_map.mp ?_
    rw [List.zipIdx_map_snd]
    exact List.pairwise_lt_range'
  case refine_2 =>
    have := List.getElem?_eq_some_iff.mp (List.mem_zipIdx_iff_getElem?.mp hb)
    exact this.fst.trans_le s.length_le
  case refine_3 =>
    rw [← h i, contains_iff, wordAt]
    constructor
    case mp =>
      intro hb
      cases hw : s.words[i.toNat / 64]?
      case none      => simp [hw] at hb
      case some word =>
        rw [hw, Option.getD_some] at hb
        exact ⟨(word, i.toNat / 64), List.mem_zipIdx_iff_getElem?.mpr hw, rfl, hb⟩
    case mpr =>
      rintro ⟨b, hb, hw, hi⟩
      rw [hw, List.mem_zipIdx_iff_getElem?.mp hb]
      exact hi

theorem count_eq (h : s.Represents S) : s.count = S.card :=
  length_iter.symm.trans h.iter_lists.length

theorem difference_lists {n : Nat} (h : s.Represents S) (hp : previous.Represents T) (hl : s.words.length ≤ n)
    (hn : n ≤ 2 ^ 26) :
    Lists ((List.range n).flatMap fun w => block (s.wordAt w &&& ~~~previous.wordAt w) w) (S \ T) := by
  have hw : Lists
      (((List.range n).map fun w => (s.wordAt w &&& ~~~previous.wordAt w, w)).flatMap fun b => block b.fst b.snd)
      (S \ T) := by
    refine blocks_lists (List.pairwise_map.mpr List.pairwise_lt_range) (fun b hb => ?_) fun i => ?_
    case refine_1 =>
      obtain ⟨w, hw, rfl⟩ := List.mem_map.mp hb
      exact (List.mem_range.mp hw).trans_le hn
    case refine_2 =>
      have hi : i.toNat % 64 < 64 := Nat.mod_lt _ (by decide)
      have hb : i ∈ S \ T ↔
          (s.wordAt (i.toNat / 64) &&& ~~~previous.wordAt (i.toNat / 64)).getLsbD (i.toNat % 64) := by
        rw [Finset.mem_sdiff, ← h i, ← hp i, contains_iff, contains_iff]
        simp [hi]
      rw [hb]
      constructor
      case mp =>
        intro hb
        have hw : i.toNat / 64 < s.words.length := by
          by_contra hw
          simp [wordAt, List.getElem?_eq_none (not_lt.mp hw)] at hb
        exact ⟨_, List.mem_map_of_mem (List.mem_range.mpr (hw.trans_le hl)), rfl, hb⟩
      case mpr =>
        rintro ⟨b, hb, hw, hi⟩
        obtain ⟨w, _, rfl⟩ := List.mem_map.mp hb
        exact hw ▸ hi
  rwa [List.flatMap_map] at hw

theorem diff_lists (h : s.Represents S) (hp : previous.Represents T) : ∃ es ls,
    s.diff previous entered left = (entered ++ es, left ++ ls) ∧ Lists es (S \ T) ∧ Lists ls (T \ S) := by
  have hm : max s.words.length previous.words.length ≤ 2 ^ 26 := max_le s.length_le previous.length_le
  exact ⟨_, _, diff_eq, h.difference_lists hp (le_max_left ..) hm, hp.difference_lists h (le_max_right ..) hm⟩

theorem digest_eq (h : s.Represents S) (h' : previous.Represents S) : s.digest = previous.digest := by
  rw [digest, digest, h.iter_lists.unique h'.iter_lists]

end Represents

-- What is done to a set.
inductive Update
  | insert (index : U32)
  | remove (index : U32)
  | clear
  deriving DecidableEq, Repr

def update (s : VisibilitySet) : Update → VisibilitySet
  | .insert index => s.insert index
  | .remove index => s.remove index
  | .clear        => s.clear

-- The same, done to a finite set.
def Update.act (S : Finset U32) : Update → Finset U32
  | insert index => Insert.insert index S
  | remove index => S.erase index
  | clear        => ∅

-- A set after updates of a new one, which may have been made for indices up to some.
def built (maxIndex : Option U32) (us : List Update) : VisibilitySet :=
  us.foldl update <| match maxIndex with
    | none          => new
    | some maxIndex => withCapacity maxIndex

def contents (us : List Update) : Finset U32 :=
  us.foldl Update.act ∅

theorem Represents.update (h : s.Represents S) (u : Update) : (s.update u).Represents (u.act S) := by
  cases u
  case insert => exact h.insert
  case remove => exact h.remove
  case clear  => exact .clear

theorem Represents.updates (h : s.Represents S) (us : List Update) :
    (us.foldl VisibilitySet.update s).Represents (us.foldl Update.act S) := by
  induction us generalizing s S
  case nil          => exact h
  case cons u us ih => exact ih (h.update u)

theorem built_represents {maxIndex : Option U32} {us : List Update} : (built maxIndex us).Represents (contents us) := by
  cases maxIndex
  case none => exact Represents.new.updates us
  case some => exact Represents.withCapacity.updates us

theorem refines_finset (maxIndex maxIndex' : Option U32) (us us' : List Update) (entered left : List U32) :
    (∀ i, (built maxIndex us).contains i ↔ i ∈ contents us) ∧
    (built maxIndex us).count = (contents us).card ∧
    Lists (built maxIndex us).iter (contents us) ∧
    (∃ es ls,
      (built maxIndex us).diff (built maxIndex' us') entered left = (entered ++ es, left ++ ls) ∧
      Lists es (contents us \ contents us') ∧ Lists ls (contents us' \ contents us) ∧
      contents us' \ ls.toFinset ∪ es.toFinset = contents us) ∧
    ((∀ i, (built maxIndex us).contains i ↔ (built maxIndex' us').contains i) →
      (built maxIndex us).digest = (built maxIndex' us').digest) := by
  have h : (built maxIndex us).Represents (contents us) := built_represents
  have h' : (built maxIndex' us').Represents (contents us') := built_represents
  obtain ⟨es, ls, hd, he, hl⟩ : ∃ es ls,
      (built maxIndex us).diff (built maxIndex' us') entered left = (entered ++ es, left ++ ls) ∧
      Lists es (contents us \ contents us') ∧ Lists ls (contents us' \ contents us) := h.diff_lists h'
  refine ⟨h, h.count_eq, h.iter_lists, ⟨es, ls, hd, he, hl, ?_⟩, fun hc => ?_⟩
  case refine_1 =>
    rw [he.toFinset, hl.toFinset]
    ext i
    simp only [Finset.mem_union, Finset.mem_sdiff]
    tauto
  case refine_2 =>
    have hs : contents us' = contents us := Finset.ext fun i => (h' i).symm.trans <| (hc i).symm.trans (h i)
    exact h.digest_eq (hs ▸ h')

end VisibilitySet
end Plaza.ServerUtils
