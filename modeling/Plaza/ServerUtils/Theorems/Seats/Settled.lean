import Plaza.ServerUtils.Seats.Roster
import Plaza.ServerUtils.Theorems.Seats.Slots

namespace Plaza.ServerUtils.Roster

variable {Key : Type} {r r' : Roster Key} {key key' : Key} {rank : Nat} {i : Nat}
variable {e : Entry Key} {rest : List (Entry Key)} {shuffle : Shuffle Key}

-- Every key has one place at most: the seats and their index agree, exactly the seated keys have a rank, and
-- those who wait are in order and without a seat.
structure Sound (r : Roster Key) : Prop where
  inverse : r.slots.Inverse
  ranked  : ∀ key, r.ranks key = none ↔ r.slots.index key = none
  sorted  : r.queue.Sorted
  apart   : ∀ e ∈ r.queue.entries, r.slots.index e.key = none

namespace Sound

protected theorem new {capacity : Nat} : (new capacity : Roster Key).Sound where
  inverse := .new
  ranked  := fun _ => Iff.rfl
  sorted  := .new
  apart   := nofun

-- A place is nobody's business but its key's: neither the lock nor the policies touch it.
theorem flags (h : r.Sound) {waitlistOn holdOn locked : Bool} :
    Sound { r with waitlistOn, holdOn, locked } :=
  ⟨h.inverse, h.ranked, h.sorted, h.apart⟩

-- Somebody's coming or going changes neither index nor queue.
theorem slots_same {slots : SeatSlots Key} (h : r.Sound) (hi : slots.Inverse)
    (hx : slots.index = r.slots.index) : Sound { r with slots } :=
  ⟨hi, by simpa [hx] using h.ranked, h.sorted, by simpa [hx] using h.apart⟩

theorem sublist {entries : List (Entry Key)} (h : r.Sound) (hs : entries.Sublist r.queue.entries) :
    Sound { r with queue := { r.queue with entries } } :=
  ⟨h.inverse, h.ranked, h.sorted.sublist hs, fun e he => h.apart e (hs.subset he)⟩

theorem push (h : r.Sound) (hk : r.slots.index key = none) (hq : ∀ e ∈ r.queue.entries, e.key ≠ key) :
    Sound { r with queue := (r.queue.push key rank).fst } := by
  refine ⟨h.inverse, h.ranked, h.sorted.push hq, fun e he => ?_⟩
  rw [RankedQueue.push_perm.mem_iff, List.mem_cons] at he
  cases he
  case inl he => exact he ▸ hk
  case inr he => exact h.apart e he

variable [DecidableEq Key]

theorem release (h : r.Sound) :
    Sound { r with slots := r.slots.open' key, ranks := Function.update r.ranks key none } := by
  refine ⟨h.inverse.open', fun key' => ?_, h.sorted, fun e he => ?_⟩
  case refine_1 =>
    simp only [SeatSlots.index_open', Function.update_apply]
    split
    case isTrue  => exact Iff.rfl
    case isFalse => exact h.ranked key'
  case refine_2 =>
    rw [SeatSlots.index_open']
    split
    case isTrue  => rfl
    case isFalse => exact h.apart e he

theorem seat (h : r.Sound) (ho : r.slots.slots[i]? = some .open') (hk : r.slots.index key = none)
    (hq : ∀ e ∈ r.queue.entries, e.key ≠ key) :
    Sound { r with slots := r.slots.seat key i, ranks := Function.update r.ranks key (some rank) } := by
  refine ⟨h.inverse.seat ho hk, fun key' => ?_, h.sorted, fun e he => ?_⟩
  case refine_1 =>
    simp only [SeatSlots.index_seat, Function.update_apply]
    split
    case isTrue  => simp
    case isFalse => exact h.ranked key'
  case refine_2 =>
    rw [SeatSlots.index_seat, if_neg (hq e he)]
    exact h.apart e he

protected theorem admitRanked (h : r.Sound) : (r.admitRanked key rank).fst.Sound := by
  simp only [admitRanked]
  split
  case h_1 =>
    split
    case isTrue  => exact h.slots_same h.inverse.resume SeatSlots.index_resume
    case isFalse => exact h
  case h_2 hk =>
    split
    case h_1    => exact h
    case h_2 hq =>
      have hq := RankedQueue.position_eq_none.mp hq
      split
      case h_1 i ho =>
        split at ho
        case isTrue  => contradiction
        case isFalse => exact h.seat (SeatSlots.slot_of_firstOpen ho) hk hq
      case h_2 =>
        split
        case isTrue  => exact h.push hk hq
        case isFalse => exact h

protected theorem depart (h : r.Sound) : (r.depart key).fst.Sound := by
  simp only [depart]
  split
  case h_1 =>
    split
    case isTrue  => exact h
    case isFalse =>
      split
      case isTrue  => exact h.slots_same h.inverse.hold SeatSlots.index_hold
      case isFalse => exact h.release
  case h_2 =>
    cases RankedQueue.remove_cases r.queue key
    case inl hr => have ⟨_, hs, hr⟩ := hr; rw [hr]; exact h.sublist hs
    case inr hr => rw [hr]; exact h

protected theorem expire (h : r.Sound) : (r.expire key).fst.Sound := by
  simp only [expire]
  split
  case isTrue  => exact h
  case isFalse => exact h.release

end Sound

variable [DecidableEq Key]

-- A promotion takes the first entry off the queue.
theorem promote_eq (hq : r.queue.entries = e :: rest) : r.promote i = some (
    { r with
      queue := { r.queue with entries := rest }
      slots := r.slots.seat e.key i
      ranks := Function.update r.ranks e.key (some e.rank) },
    .promoted e.key i) := by
  simp [promote, RankedQueue.popBest, hq]

theorem promote_eq_none (hq : r.queue.entries = []) : r.promote i = none := by
  simp [promote, RankedQueue.popBest, hq]

theorem Sound.promote (h : r.Sound) (ho : r.slots.slots[i]? = some .open')
    (hp : r.promote i = some (r', shuffle)) : r'.Sound := by
  cases hq : r.queue.entries
  case nil => simp [promote_eq_none hq] at hp
  case cons e rest =>
    rw [promote_eq hq] at hp
    cases hp
    have hs : rest.Sublist r.queue.entries := hq ▸ List.sublist_cons_self ..
    have hd := h.sorted.distinct
    rw [hq, List.map_cons, List.nodup_cons] at hd
    refine (h.sublist hs).seat ho (h.apart e (hq ▸ List.mem_cons_self ..)) fun e' he he' => ?_
    exact hd.left (he' ▸ List.mem_map_of_mem he)

end Plaza.ServerUtils.Roster

namespace Plaza.ServerUtils.Roster

variable {Key : Type} {r r' : Roster Key} {key : Key} {i j n : Nat}
variable {e : Entry Key} {rest : List (Entry Key)} {shuffles shuffles' more : List (Shuffle Key)}

-- The rank a key was seated with.
def rankOf (r : Roster Key) (key : Key) : Nat :=
  (r.ranks key).getD 0

-- What the search of the first `n` seats has found: nobody present there, or one of the worst.
def Found (r : Roster Key) (n : Nat) (worst : Option (Nat × Nat)) : Prop :=
  match worst with
  | none           => ∀ j < n, ∀ key, r.slots.slots[j]? ≠ some (.human key)
  | some (i, rank) => (∃ key, r.slots.slots[i]? = some (.human key) ∧ r.rankOf key = rank) ∧
    ∀ j < n, ∀ key, r.slots.slots[j]? = some (.human key) → r.rankOf key ≤ rank

theorem Found.rank_le {rank : Nat} (h : r.Found n (some (i, rank)))
    (hn : ∀ key, r.slots.slots[n]? = some (.human key) → r.rankOf key ≤ rank) :
    r.Found (n + 1) (some (i, rank)) := by
  refine ⟨h.left, fun j hj key hk => ?_⟩
  cases Nat.lt_succ_iff_lt_or_eq.mp hj
  case inl hj => exact h.right j hj key hk
  case inr hj => exact hn key (hj ▸ hk)

theorem lt_capacity {x : Slot Key} (h : r.slots.slots[i]? = some x) : i < r.slots.capacity :=
  (List.getElem?_eq_some_iff.mp h).choose

theorem Found.worse {worst : Option (Nat × Nat)} (h : r.Found n worst) : r.Found (n + 1) (r.worse worst n) := by
  simp only [Roster.worse]
  split
  case h_1 key hk =>
    have hn key' (hk' : r.slots.slots[n]? = some (.human key')) : r.rankOf key' = r.rankOf key := by
      cases hk.symm.trans hk'
      rfl
    split
    case isTrue hw =>
      have hf : r.Found n (some (n, r.rankOf key)) := by
        refine ⟨⟨key, hk, rfl⟩, fun j hj key' hk' => ?_⟩
        cases worst
        case none       => exact absurd hk' (h j hj key')
        case some worst => exact Nat.le_trans (h.right j hj key' hk') (by simpa [rankOf] using hw)
      exact hf.rank_le fun key' hk' => Nat.le_of_eq (hn key' hk')
    case isFalse hw =>
      cases worst
      case none => simp at hw
      case some worst =>
        have hw : r.rankOf key ≤ worst.snd := by
          simp only [Option.all_some, decide_eq_true_eq, Nat.not_le] at hw
          exact Nat.le_of_lt hw
        exact h.rank_le fun key' hk' => hn key' hk' ▸ hw
  case h_2 hn =>
    cases worst
    case none =>
      intro j hj key
      cases Nat.lt_succ_iff_lt_or_eq.mp hj
      case inl hj => exact h j hj key
      case inr hj => exact fun hk => hn key (hj ▸ hk)
    case some worst => exact h.rank_le fun key hk => absurd hk (hn key)

theorem found_range : r.Found n (List.range n |>.foldl r.worse none) := by
  induction n
  case zero      => exact nofun
  case succ n hi =>
    rw [List.range_succ, List.foldl_append]
    exact hi.worse

theorem worstSeated_eq_none (h : r.worstSeated = none) : r.slots.slots[i]? ≠ some (.human key) := by
  have hf : r.Found r.slots.capacity r.worstSeated := found_range
  rw [h] at hf
  exact fun hk => hf i (lt_capacity hk) key hk

theorem worstSeated_eq_some {rank : Nat} (h : r.worstSeated = some (i, rank)) :
    (∃ key, r.slots.slots[i]? = some (.human key) ∧ r.rankOf key = rank) ∧
    ∀ (j : Nat) key, r.slots.slots[j]? = some (.human key) → r.rankOf key ≤ rank := by
  have hf : r.Found r.slots.capacity r.worstSeated := found_range
  rw [h] at hf
  exact ⟨hf.left, fun j key hk => hf.right j (lt_capacity hk) key hk⟩

variable [DecidableEq Key]

-- What a round of the first loop does, and when there is none.
theorem fillSeat_cases (r : Roster Key) :
    (r.fillSeat = none ∧ (.open' ∉ r.slots.slots ∨ r.queue.entries = [])) ∨
    ∃ i r' shuffle, r.slots.slots[i]? = some .open' ∧ r.promote i = some (r', shuffle) ∧
      r.fillSeat = some (r', [shuffle]) := by
  cases ho : r.slots.firstOpen
  case none   => exact .inl ⟨by simp [fillSeat, ho], .inl <| SeatSlots.firstOpen_eq_none.mp ho⟩
  case some i =>
    cases hq : r.queue.entries
    case nil => exact .inl ⟨by simp [fillSeat, ho, promote_eq_none hq], .inr rfl⟩
    case cons e rest =>
      refine .inr ⟨i, _, _, SeatSlots.slot_of_firstOpen ho, promote_eq hq, ?_⟩
      simp [fillSeat, ho, promote_eq hq]

-- A displaced key queues behind the waiter who takes its seat.
theorem entries_displace {rank : Nat} (hq : r.queue.entries = e :: rest) (hr : e.rank < rank) :
    (r.displace key rank).queue.entries =
      e :: rest.insertBefore Entry.Before { key, rank, seq := r.queue.nextSeq } := by
  have hb : ¬Entry.Before { key, rank, seq := r.queue.nextSeq } e := by
    simp only [Entry.Before]
    omega
  rw [displace, RankedQueue.entries_push, hq, List.insertBefore_cons, if_neg hb]

-- What a round of the second loop does, and when there is none.
theorem settleRank_cases (r : Roster Key) :
    (r.settleRank = none ∧
      ∀ e rest, r.queue.entries = e :: rest → ∀ (i : Nat) key, r.slots.slots[i]? = some (.human key) →
        r.rankOf key ≤ e.rank) ∨
    ∃ i key e rest r' shuffle, r.slots.slots[i]? = some (.human key) ∧ r.queue.entries = e :: rest ∧
      e.rank < r.rankOf key ∧ (r.displace key (r.rankOf key)).promote i = some (r', shuffle) ∧
      r.settleRank = some (r', [.displaced key i, shuffle]) := by
  cases hq : r.queue.entries
  case nil => exact .inl ⟨by simp [settleRank, RankedQueue.best, hq], nofun⟩
  case cons e rest =>
    cases hw : r.worstSeated
    case none =>
      exact .inl ⟨by simp [settleRank, hw], fun _ _ _ i key hk => absurd hk (worstSeated_eq_none hw)⟩
    case some worst =>
      have ⟨⟨key, hk, hr⟩, hm⟩ := worstSeated_eq_some hw
      by_cases hb : e.rank ≥ worst.snd
      case pos =>
        refine .inl ⟨by simp [settleRank, RankedQueue.best, hq, hw, hb], fun e' rest' he i key hk => ?_⟩
        cases he
        exact Nat.le_trans (hm i key hk) hb
      case neg =>
        have hb : e.rank < r.rankOf key := hr ▸ Nat.not_le.mp hb
        have hp : (r.displace key (r.rankOf key)).promote worst.fst = _ := promote_eq (entries_displace hq hb)
        refine .inr ⟨worst.fst, key, e, rest, _, _, hk, rfl, hb, hp, ?_⟩
        simp [settleRank, RankedQueue.best, hq, hw, hk, ← hr, hp, Nat.not_le.mpr hb]

theorem slots_open' {s : SeatSlots Key} (h : s.index key = some i) :
    (s.open' key).slots = s.slots.set i .open' := by
  simp [SeatSlots.open', h]

theorem Sound.displace {rank : Nat} (h : r.Sound) (hk : r.slots.slots[i]? = some (.human key)) :
    (r.displace key rank).Sound := by
  refine h.release.push (by simp [SeatSlots.index_open']) fun e he hek => ?_
  have hi := h.inverse.index_of_slot hk rfl
  simp [← hek, h.apart e he] at hi

-- What the first waiter's taking the seat makes of the roster, be the seat open or its occupant displaced.
structure Takes (r : Roster Key) (i : Nat) (e : Entry Key) (r' : Roster Key) : Prop where
  slots  : r'.slots.slots = r.slots.slots.set i (.human e.key)
  ranks  : ∀ key j, j ≠ i → r.slots.index key = some j → r'.rankOf key = r.rankOf key
  rank   : r'.rankOf e.key = e.rank
  locked : r'.locked = r.locked

theorem fillSeat_round (hs : r.Sound) (h : r.fillSeat = some (r', more)) :
    r'.Sound ∧ ∃ i e rest, r.slots.slots[i]? = some .open' ∧ r.queue.entries = e :: rest ∧
      r'.queue.entries = rest ∧ r.Takes i e r' := by
  cases fillSeat_cases r
  case inl hn => simp [hn.left] at h
  case inr hr =>
    have ⟨i, _, shuffle, ho, hp, hr⟩ := hr
    cases hr.symm.trans h
    refine ⟨hs.promote ho hp, ?_⟩
    cases hq : r.queue.entries
    case nil => simp [promote_eq_none hq] at hp
    case cons e rest =>
      cases (promote_eq hq).symm.trans hp
      refine ⟨i, e, rest, ho, rfl, rfl, rfl, fun key j _ hk => ?_, by simp [rankOf], rfl⟩
      have hne : key ≠ e.key := fun he => by
        simp [he, hs.apart e (hq ▸ List.mem_cons_self ..)] at hk
      simp [rankOf, hne]

theorem settleRank_round (hs : r.Sound) (h : r.settleRank = some (r', more)) :
    r'.Sound ∧ ∃ i key e rest, r.slots.slots[i]? = some (.human key) ∧ r.queue.entries = e :: rest ∧
      e.rank < r.rankOf key ∧
      r'.queue.entries = rest.insertBefore Entry.Before { key, rank := r.rankOf key, seq := r.queue.nextSeq } ∧
      r.Takes i e r' := by
  cases settleRank_cases r
  case inl hn => simp [hn.left] at h
  case inr hr =>
    have ⟨i, key, e, rest, _, shuffle, hk, hq, hb, hp, hr⟩ := hr
    cases hr.symm.trans h
    have hi := hs.inverse.index_of_slot hk rfl
    have hlt := (List.getElem?_eq_some_iff.mp hk).choose
    have hsl : (r.displace key (r.rankOf key)).slots.slots = r.slots.slots.set i .open' := slots_open' hi
    refine ⟨(hs.displace hk).promote (by simp [hsl, hlt]) hp, i, key, e, rest, hk, hq, hb, ?_⟩
    cases (promote_eq (entries_displace hq hb)).symm.trans hp
    refine ⟨rfl, ?_, fun key' j hj hk' => ?_, by simp [rankOf], rfl⟩
    case refine_1 => simp [SeatSlots.seat, hsl]
    case refine_2 =>
      have hne : key' ≠ e.key := fun he => by
        simp [he, hs.apart e (hq ▸ List.mem_cons_self ..)] at hk'
      have hne' : key' ≠ key := fun he => by
        simp [he, hi, Ne.symm hj] at hk'
      simp [rankOf, Roster.displace, hne, hne']

end Plaza.ServerUtils.Roster

namespace Plaza.ServerUtils.Roster

variable {Key : Type} {r r' : Roster Key} {key : Key} {i j : Nat} {e : Entry Key}
variable {shuffles more : List (Shuffle Key)} {calls : List (Call Key)} {call : Call Key} {capacity : Nat}

theorem rounds_body {round : Roster Key → Option (Round Key)} {s : Round Key}
    (h : (rounds round).body (r, shuffles) = some s) : ∃ more, round r = some (s.fst, more) := by
  simp only [rounds, Option.map_eq_some_iff] at h
  have ⟨⟨_, more⟩, hr, hs⟩ := h
  exact ⟨more, hs ▸ hr⟩

theorem Sound.fillSeat_body {s s' : Round Key} [DecidableEq Key] (hs : s.fst.Sound)
    (h : (rounds fillSeat).body s = some s') : s'.fst.Sound := by
  have ⟨_, hr⟩ := rounds_body h
  exact (fillSeat_round hs hr).left

theorem Sound.settleRank_body {s s' : Round Key} [DecidableEq Key] (hs : s.fst.Sound)
    (h : (rounds settleRank).body s = some s') : s'.fst.Sound := by
  have ⟨_, hr⟩ := rounds_body h
  exact (settleRank_round hs hr).left

theorem rounds_left {round : Roster Key → Option (Round Key)} {s : Round Key}
    (h : (rounds round).body s = none) : round s.fst = none := by
  simpa [rounds] using h

theorem sum_set_lt {ranks : List Nat} {rank rank' : Nat} (h : ranks[i]? = some rank) (hr : rank' < rank) :
    (ranks.set i rank').sum < ranks.sum := by
  induction ranks generalizing i
  case nil          => contradiction
  case cons _ _ ih =>
    cases i
    case zero =>
      cases h
      simpa using hr
    case succ => simpa using ih h

-- Taking the seat of a key with a worse rank makes the sum of the ranks smaller.
theorem Takes.seatedRanks_lt (ht : r.Takes i e r') (hs : r.Sound) (hk : r.slots.slots[i]? = some (.human key))
    (hr : e.rank < r.rankOf key) : r'.seatedRanks.sum < r.seatedRanks.sum := by
  have hset : r'.seatedRanks = r.seatedRanks.set i e.rank := by
    apply List.ext_getElem?
    intro j
    simp only [seatedRanks, ht.slots, List.getElem?_map, List.getElem?_set, List.length_map]
    split
    case isTrue hj =>
      split
      case isTrue  => simp [← ht.rank, rankOf]
      case isFalse => rfl
    case isFalse hj =>
      cases hx : r.slots.slots[j]?
      case none   => rfl
      case some x =>
        cases x
        case human key => simpa [rankOf] using ht.ranks key j (Ne.symm hj) (hs.inverse.index_of_slot hx rfl)
        all_goals rfl
  exact hset ▸ sum_set_lt (by simp [seatedRanks, hk, rankOf]) hr

theorem rank_le_of_head {e' : Entry Key} {rest : List (Entry Key)} (hs : r.queue.Sorted)
    (hq : r.queue.entries = e :: rest) (he : e' ∈ r.queue.entries) : e.rank ≤ e'.rank := by
  have ho := hs.ordered
  rw [hq] at ho
  rw [hq, List.mem_cons] at he
  cases he
  case inl he => exact he ▸ Nat.le_refl _
  case inr he => exact (List.rel_of_pairwise_cons ho he).rank_le

variable [DecidableEq Key]

theorem fillSeats_ends (hs : r.Sound) (shuffles : List (Shuffle Key)) :
    (rounds fillSeat).Ends (r, shuffles) ((rounds fillSeat).run r.queue.entries.length (r, shuffles)) := by
  refine Loop.ends_run (I := fun s => s.fst.Sound) (μ := fun s => s.fst.queue.entries.length)
    .fillSeat_body ?_ hs (Nat.le_refl _)
  intro s s' hs hb
  have ⟨_, hr⟩ := rounds_body hb
  have ⟨_, _, _, _, _, hq, hq', _⟩ := fillSeat_round hs hr
  simp [hq, hq']

theorem settleRanks_ends (hs : r.Sound) :
    (rounds settleRank).Ends (r, shuffles) ((rounds settleRank).run r.seatedRanks.sum (r, shuffles)) := by
  refine Loop.ends_run (I := fun s => s.fst.Sound) (μ := fun s => s.fst.seatedRanks.sum)
    .settleRank_body ?_ hs (Nat.le_refl _)
  intro s s' hs hb
  have ⟨_, hr⟩ := rounds_body hb
  have ⟨_, _, _, _, _, hk, _, hb, _, ht⟩ := settleRank_round hs hr
  exact ht.seatedRanks_lt hs hk hb

-- Both loops of `resolve` come to their end.
def Resolves (r : Roster Key) : Prop :=
  ∃ filled, (rounds fillSeat).Ends (r, []) filled ∧ (rounds settleRank).Ends filled r.resolve

theorem resolve_of_locked (h : r.locked) : r.resolve = (r, []) := by
  rw [resolve, if_pos h]

theorem resolve_ends (hs : r.Sound) (h : ¬r.locked) : r.Resolves := by
  have hf := fillSeats_ends hs []
  have hs := hf.preserves (I := fun s => s.fst.Sound) .fillSeat_body hs
  refine ⟨_, hf, ?_⟩
  rw [resolve, if_neg h]
  exact settleRanks_ends hs

-- What the rounds of both loops preserve, `resolve` preserves.
theorem resolve_preserves {P : Roster Key → Prop} (hs : r.Sound)
    (hf : ∀ {r r' more}, r.Sound → P r → r.fillSeat = some (r', more) → P r')
    (hr : ∀ {r r' more}, r.Sound → P r → r.settleRank = some (r', more) → P r') (hp : P r) :
    r.resolve.fst.Sound ∧ P r.resolve.fst := by
  by_cases h : r.locked
  case pos =>
    rw [resolve_of_locked h]
    exact ⟨hs, hp⟩
  case neg =>
    have ⟨_, he₁, he₂⟩ := resolve_ends hs h
    have h₁ := he₁.preserves (I := fun s => s.fst.Sound ∧ P s.fst) (fun hi hb => by
      have ⟨_, hb⟩ := rounds_body hb
      exact ⟨(fillSeat_round hi.left hb).left, hf hi.left hi.right hb⟩) ⟨hs, hp⟩
    exact he₂.preserves (I := fun s => s.fst.Sound ∧ P s.fst) (fun hi hb => by
      have ⟨_, hb⟩ := rounds_body hb
      exact ⟨(settleRank_round hi.left hb).left, hr hi.left hi.right hb⟩) h₁

theorem Sound.resolve (hs : r.Sound) : r.resolve.fst.Sound :=
  (resolve_preserves (P := fun _ => True) hs (fun _ _ _ => trivial) (fun _ _ _ => trivial) trivial).left

-- A held seat is nobody else's.
theorem held_resolve (hs : r.Sound) (h : r.slots.slots[i]? = some (.held key)) :
    r.resolve.fst.slots.slots[i]? = some (.held key) := by
  refine (resolve_preserves (P := fun r => r.slots.slots[i]? = some (.held key)) hs ?_ ?_ h).right
  case refine_1 =>
    intro r r' _ hs h hr
    have ⟨_, j, _, _, ho, _, _, ht⟩ := fillSeat_round hs hr
    have hne : j ≠ i := fun hj => by simp [← hj, ho] at h
    rw [ht.slots, List.getElem?_set_ne hne, h]
  case refine_2 =>
    intro r r' _ hs h hr
    have ⟨_, j, _, _, _, hk, _, _, _, ht⟩ := settleRank_round hs hr
    have hne : j ≠ i := fun hj => by simp [← hj, hk] at h
    rw [ht.slots, List.getElem?_set_ne hne, h]

-- No seat is open while somebody waits, and nobody waits with a better rank than that of somebody seated.
structure Settled (r : Roster Key) : Prop where
  filled : .open' ∈ r.slots.slots → r.queue.entries = []
  ranked : ∀ e ∈ r.queue.entries, ∀ (i : Nat) key, r.slots.slots[i]? = some (.human key) → r.rankOf key ≤ e.rank

theorem Sound.settled (hs : r.Sound) (h : ¬r.locked) : r.resolve.fst.Settled := by
  have ⟨filled, he₁, he₂⟩ := resolve_ends hs h
  have hs₁ := he₁.preserves (I := fun s => s.fst.Sound) .fillSeat_body hs
  constructor
  case filled =>
    refine (he₂.preserves
      (I := fun s => s.fst.Sound ∧ (.open' ∈ s.fst.slots.slots → s.fst.queue.entries = [])) ?_
      ⟨hs₁, ?_⟩).right
    case refine_1 =>
      intro s s' ⟨hs, ho⟩ hb
      have ⟨_, hb⟩ := rounds_body hb
      have ⟨hs', j, _, _, _, hk, hq, _, _, ht⟩ := settleRank_round hs hb
      refine ⟨hs', fun ho' => ?_⟩
      rw [ht.slots] at ho'
      cases List.mem_or_eq_of_mem_set ho'
      case inl ho' => simp [hq] at ho; contradiction
      case inr ho' => contradiction
    case refine_2 =>
      intro ho
      cases fillSeat_cases filled.fst
      case inl hn => exact hn.right.resolve_left (not_not_intro ho)
      case inr hr =>
        have ⟨_, _, _, _, _, hr⟩ := hr
        simp [rounds_left he₁.left] at hr
  case ranked =>
    intro e he i key hk
    cases settleRank_cases r.resolve.fst
    case inl hn =>
      cases hq : r.resolve.fst.queue.entries
      case nil => simp [hq] at he
      case cons e' rest =>
        exact Nat.le_trans (hn.right e' rest hq i key hk) (rank_le_of_head hs.resolve.sorted hq he)
    case inr hr =>
      have ⟨_, _, _, _, _, _, _, _, _, _, hr⟩ := hr
      simp [rounds_left he₂.left] at hr

protected theorem Sound.apply (hs : r.Sound) : (r.apply call).Sound := by
  cases call
  case admitRanked  => exact hs.admitRanked
  case depart       => exact hs.depart
  case expire       => exact hs.expire
  case resolve      => exact hs.resolve
  case lock         => exact hs.flags
  case unlock       => exact hs.flags
  case withWaitlist => exact hs.flags
  case holdingSeats => exact hs.flags

protected theorem Sound.step (hs : r.Sound) (h : (machine Key).step r call = some r') : r'.Sound := by
  cases h
  exact hs.apply

theorem Sound.of_steps (h : (machine Key).Steps (new capacity) calls r) : r.Sound :=
  h.preserves Sound.step .new

theorem calls_sound (h : (machine Key).Steps (new capacity) calls r) :
    r.Sound ∧ (¬r.locked → r.Resolves ∧ r.resolve.fst.Settled) ∧
    ∀ (i : Nat) key, r.slots.slots[i]? = some (.held key) → r.resolve.fst.slots.slots[i]? = some (.held key) :=
  have hs := Sound.of_steps h
  ⟨hs, fun hl => ⟨resolve_ends hs hl, hs.settled hl⟩, fun _ _ => held_resolve hs⟩

theorem calls_sound_displaced :
    let r := (new 1 : Roster Nat).withWaitlist |>.apply (.admitRanked 7 1) |>.apply (.admitRanked 8 0)
    r.Sound ∧ (¬r.locked → r.Resolves ∧ r.resolve.fst.Settled) ∧
    ∀ (i : Nat) key, r.slots.slots[i]? = some (.held key) → r.resolve.fst.slots.slots[i]? = some (.held key) :=
  calls_sound <| .step (e := .withWaitlist) rfl <| .step (e := .admitRanked 7 1) rfl <|
    .step (e := .admitRanked 8 0) rfl .refl

end Plaza.ServerUtils.Roster
