import Mathlib.Data.List.Basic
import Plaza.ServerUtils.Seats.Crew
import Plaza.ServerUtils.Seats.Roster
import Plaza.ServerUtils.Theorems.Seats.Settled

namespace Plaza.ServerUtils.Roster

variable {Key : Type} {r r' : Roster Key} {key : Key} {rank : Nat} {g g' : Granting Key}
variable {more : List (Shuffle Key)} {calls : List (Call Key)} {call : Call Key} {capacity : Nat}

theorem fair_of_rounds {round : Roster Key → Option (Round Key)} {s : Round Key} {n : Nat}
    (hi : ∀ {s s' : Round Key}, s.fst.Sound → (rounds round).body s = some s' → s'.fst.Sound)
    (hf : ∀ {p : Round Key × Round Key} {more}, p.fst.fst.Sound → round p.fst.fst = some (p.snd.fst, more) →
      ∀ grant ∈ roundGrant p, grant.Fair)
    (hs : s.fst.Sound) : ∀ p ∈ (rounds round).pairs n s, ∀ grant ∈ roundGrant p, grant.Fair := by
  refine Loop.pairs_forall (I := fun s => s.fst.Sound)
    (Q := fun s s' => ∀ grant ∈ roundGrant (s, s'), grant.Fair) hi ?_ hs
  intro s s' hs hb
  have ⟨_, hb⟩ := rounds_body hb
  exact hf hs hb

theorem promotedKeys_of_rounds {round : Roster Key → Option (Round Key)} {s : Round Key} {n : Nat}
    (hr : ∀ {r r' more}, round r = some (r', more) →
      more.filterMap Shuffle.promotedKey = (r.queue.entries.head?.map Entry.key).toList) :
    ((rounds round).run n s).snd.filterMap Shuffle.promotedKey =
      s.snd.filterMap Shuffle.promotedKey ++
        (((rounds round).pairs n s).filterMap roundGrant).map Grant.key := by
  rw [List.map_filterMap, List.filterMap_eq_flatMap_toList _ ((rounds round).pairs n s)]
  refine Loop.run_eq_flatMap (I := fun _ => True)
    (f := fun s : Round Key => s.snd.filterMap Shuffle.promotedKey)
    (fun _ _ => trivial) (fun {s s'} _ hb => ?_) trivial
  simp only [rounds, Option.map_eq_some_iff] at hb
  obtain ⟨⟨_, more⟩, hb, hs⟩ := hb
  simp [← hs, hr hb, roundGrant, Function.comp_def]

variable [DecidableEq Key]

theorem promotedKeys_fillSeat (h : r.fillSeat = some (r', more)) :
    more.filterMap Shuffle.promotedKey = (r.queue.entries.head?.map Entry.key).toList := by
  cases fillSeat_cases r
  case inl hn => simp [hn.left] at h
  case inr hr =>
    have ⟨_, _, _, _, hp, hr⟩ := hr
    cases hr.symm.trans h
    cases hq : r.queue.entries
    case nil  => simp [promote_eq_none hq] at hp
    case cons =>
      cases (promote_eq hq).symm.trans hp
      rfl

theorem promotedKeys_settleRank (h : r.settleRank = some (r', more)) :
    more.filterMap Shuffle.promotedKey = (r.queue.entries.head?.map Entry.key).toList := by
  cases settleRank_cases r
  case inl hn => simp [hn.left] at h
  case inr hr =>
    have ⟨_, _, _, _, _, _, _, hq, hb, hp, hr⟩ := hr
    cases hr.symm.trans h
    cases (promote_eq (entries_displace hq hb)).symm.trans hp
    rw [hq]
    rfl

-- The seats which `resolve` gives are those that it reports.
theorem promotedKeys_resolve :
    r.resolve.snd.filterMap Shuffle.promotedKey = r.resolveGrants.map Grant.key := by
  rw [resolve, resolveGrants]
  split
  case isTrue  => rfl
  case isFalse =>
    rw [promotedKeys_of_rounds promotedKeys_settleRank, promotedKeys_of_rounds promotedKeys_fillSeat]
    simp

theorem fair_of_fillSeat {p : Round Key × Round Key} (hs : p.fst.fst.Sound)
    (h : p.fst.fst.fillSeat = some (p.snd.fst, more)) : ∀ grant ∈ roundGrant p, grant.Fair := by
  intro grant hg
  have ⟨_, _, e, rest, _, hq, hq', _⟩ := fillSeat_round hs h
  have ho := hs.sorted.ordered
  simp only [roundGrant, hq, hq', List.head?_cons, Option.map_some, Option.mem_some_iff] at hg ho
  subst hg
  intro e' he' hr
  have hb : e.Before e' := List.rel_of_pairwise_cons ho he'
  simp only [Entry.Before] at hb hr ⊢
  omega

theorem fair_of_settleRank {p : Round Key × Round Key} (hs : p.fst.fst.Sound)
    (h : p.fst.fst.settleRank = some (p.snd.fst, more)) : ∀ grant ∈ roundGrant p, grant.Fair := by
  intro grant hg
  have ⟨_, _, key, e, rest, _, hq, hb, hq', _⟩ := settleRank_round hs h
  have ho := hs.sorted.ordered
  simp only [roundGrant, hq, hq', List.head?_cons, Option.map_some, Option.mem_some_iff] at hg ho
  subst hg
  intro e' he' hr
  rw [List.insertBefore_perm.mem_iff, List.mem_cons] at he'
  cases he'
  case inl he' =>
    subst he'
    exact absurd hb (Nat.not_lt.mpr hr)
  case inr he' =>
    have hb : e.Before e' := List.rel_of_pairwise_cons ho he'
    simp only [Entry.Before] at hb hr ⊢
    omega

theorem Sound.fair_resolve (hs : r.Sound) : ∀ grant ∈ r.resolveGrants, grant.Fair := by
  intro grant hg
  simp only [resolveGrants] at hg
  split at hg
  case isTrue  => contradiction
  case isFalse =>
    have ⟨p, hp, hg⟩ := List.mem_filterMap.mp hg
    have hs' : ((rounds fillSeat).run r.queue.entries.length (r, [])).fst.Sound :=
      Loop.run_preserves (I := fun s : Round Key => s.fst.Sound) .fillSeat_body hs
    cases List.mem_append.mp hp
    case inl hp => exact fair_of_rounds .fillSeat_body fair_of_fillSeat hs p hp grant hg
    case inr hp => exact fair_of_rounds .settleRank_body fair_of_settleRank hs' p hp grant hg

-- Nobody who waits arrived after the newcomer.
theorem Sound.fair_admit_iff (hs : r.Sound) :
    (∀ grant ∈ r.grants (.admitRanked key rank), grant.Fair) ↔ Call.isInTurn r (.admitRanked key rank) := by
  simp only [grants, admitRanked, Call.isInTurn]
  cases hk : r.slots.seatOf key
  case some seat => cases r.slots.isHeld key <;> simp
  case none =>
    cases r.queue.position key
    case some position => simp
    case none =>
      cases hl : r.locked
      case true => cases r.waitlistOn <;> simp
      case false =>
        cases r.slots.firstOpen
        case none      => cases r.waitlistOn <;> simp
        case some seat =>
          simp only [Grant.Fair, Bool.false_eq_true, if_false, List.forall_mem_singleton]
          simp only [Option.isSome_none, Option.isNone_some, Bool.or_false, Bool.false_or, List.all_eq_true,
            decide_eq_true_eq]
          refine forall₂_congr fun e he => ?_
          have := hs.sorted.latest e he
          omega

theorem Sound.fair_iff (hs : r.Sound) : (∀ grant ∈ r.grants call, grant.Fair) ↔ Call.isInTurn r call := by
  cases call
  case admitRanked => exact hs.fair_admit_iff
  case resolve     => exact iff_of_true hs.fair_resolve rfl
  all_goals exact iff_of_true nofun rfl

theorem grants_fair_iff (h : (granting Key).Steps { roster := new capacity, grants := [] } calls g) :
    (∀ grant ∈ g.grants, grant.Fair) ↔
      ((granting Key).restrict fun g call => call.isInTurn g.roster).Steps
        { roster := new capacity, grants := [] } calls g := by
  refine (Machine.Steps.restrict_iff (I := fun g => g.roster.Sound)
    (Q := fun g => ∀ grant ∈ g.grants, grant.Fair) (P := fun g call => call.isInTurn g.roster)
    ?_ ?_ h .new).trans ?_
  case refine_1 =>
    intro g call g' hs hb
    cases hb
    exact hs.apply
  case refine_2 =>
    intro g call g' hs hb
    cases hb
    rw [List.forall_mem_append, hs.fair_iff]
  case refine_3 => simp

theorem grants_fair_iff_promoted :
    ∃ g, (granting Nat).Steps { roster := new 1, grants := [] }
      [.withWaitlist, .admitRanked 1 0, .admitRanked 2 0, .depart 1, .resolve] g ∧
      ((∀ grant ∈ g.grants, grant.Fair) ↔
        ((granting Nat).restrict fun g call => call.isInTurn g.roster).Steps { roster := new 1, grants := [] }
          [.withWaitlist, .admitRanked 1 0, .admitRanked 2 0, .depart 1, .resolve] g) :=
  have h : (granting Nat).Steps { roster := new 1, grants := [] }
      [.withWaitlist, .admitRanked 1 0, .admitRanked 2 0, .depart 1, .resolve] _ :=
    .step rfl <| .step rfl <| .step rfl <| .step rfl <| .step rfl .refl
  ⟨_, h, grants_fair_iff h⟩

-- The newcomer takes the seat before the tick which would have given it to the first waiter.
theorem newcomer_overtakes :
    ¬∀ calls (g : Granting Nat), (granting Nat).Steps { roster := new 1, grants := [] } calls g →
      ∀ grant ∈ g.grants, grant.Fair := by
  intro h
  have hs : (granting Nat).Steps { roster := new 1, grants := [] }
      [.withWaitlist, .admitRanked 1 0, .admitRanked 2 0, .depart 1, .admitRanked 3 0] _ :=
    .step rfl <| .step rfl <| .step rfl <| .step rfl <| .step rfl .refl
  exact absurd (h _ _ hs) (by decide)

end Plaza.ServerUtils.Roster

namespace Plaza.ServerUtils

namespace SeatSlots

variable {Key : Type} {s : SeatSlots Key} {key key' : Key} {i : Nat} {x : Slot Key}

-- Whether a seat is held is decided in that seat.
theorem isHeld_set {slots : SeatSlots Key} (hi : s.Inverse) (hk : s.index key = some i) (hne : key' ≠ key)
    (hs : slots.slots = s.slots.set i x) (hx : slots.index key' = s.index key') :
    slots.isHeld key' = s.isHeld key' := by
  simp only [isHeld, hx]
  cases hk' : s.index key'
  case none   => rfl
  case some j =>
    have hj : i ≠ j := fun hj => by
      subst hj
      exact hne <| Option.some.inj <| ((hi key' i).mp hk').symm.trans ((hi key i).mp hk)
    simp [hs, List.getElem?_set_ne hj]

theorem isHeld_hold (hi : s.Inverse) (hne : key' ≠ key) : (s.hold key).isHeld key' = s.isHeld key' := by
  simp only [hold]
  split
  case h_1    => rfl
  case h_2 hk =>
    split
    case h_1 => exact isHeld_set hi hk hne rfl rfl
    case h_2 => rfl

theorem isHeld_open' [DecidableEq Key] (hi : s.Inverse) (hne : key' ≠ key) :
    (s.open' key).isHeld key' = s.isHeld key' := by
  simp only [open']
  split
  case h_1    => rfl
  case h_2 hk => exact isHeld_set hi hk hne rfl (Function.update_of_ne hne ..)

theorem Inverse.isHeld_hold_self (hi : s.Inverse) (hk : s.index key = some i) : (s.hold key).isHeld key := by
  cases hi.slot_of_index hk
  case inl h =>
    have ⟨hlt, _⟩ := List.getElem?_eq_some_iff.mp h
    have hh : s.hold key = { s with slots := s.slots.set i (.held key) } := by
      simp only [hold, hk, h]
    simp [hh, isHeld, hk, hlt]
  case inr h =>
    have hh : s.hold key = s := by
      simp only [hold, hk, h]
    simp only [hh, isHeld, hk, h, Option.any_some]

end SeatSlots

namespace RankedQueue

variable {Key : Type} [DecidableEq Key] {q : RankedQueue Key} {key key' : Key}

theorem position_isSome_iff : (q.position key).isSome ↔ ∃ e ∈ q.entries, e.key = key := by
  rw [Option.isSome_iff_ne_none, ne_eq, position_eq_none]
  push Not
  rfl

theorem entries_remove : (q.remove key).fst.entries = q.entries.eraseP (·.key = key) := by
  simp only [remove, List.eraseP_eq_eraseIdx]
  cases q.entries.findIdx? (·.key = key) <;> rfl

-- A removal takes the key's only entry.
theorem Sorted.mem_remove (h : q.Sorted) {e : Entry Key} :
    e ∈ (q.remove key).fst.entries ↔ e ∈ q.entries ∧ e.key ≠ key := by
  rw [entries_remove]
  have hd := h.distinct
  generalize q.entries = entries at hd
  induction entries
  case nil             => simp
  case cons e' rest ih =>
    rw [List.map_cons, List.nodup_cons] at hd
    by_cases hk : e'.key = key
    case pos =>
      have hne (he : e ∈ rest) : e.key ≠ key := fun hek => hd.left (hk.trans hek.symm ▸ List.mem_map_of_mem he)
      simp only [List.eraseP_cons, hk, decide_true, cond_true, List.mem_cons]
      constructor
      case mp => exact fun he => ⟨.inr he, hne he⟩
      case mpr =>
        rintro ⟨he, hek⟩
        cases he
        case inl he => exact absurd (he ▸ hk) hek
        case inr he => exact he
    case neg =>
      simp only [List.eraseP_cons, hk, decide_false, cond_false, List.mem_cons, ih hd.right]
      constructor
      case mp =>
        intro he
        cases he
        case inl he => exact ⟨.inl he, he ▸ hk⟩
        case inr he => exact ⟨.inr he.left, he.right⟩
      case mpr =>
        rintro ⟨he, hek⟩
        exact he.imp id fun he => ⟨he, hek⟩

end RankedQueue

namespace Roster

variable {Key : Type} [DecidableEq Key] {r r' : Roster Key} {key key' : Key} {rank i : Nat}
variable {shuffle : Shuffle Key} {more : List (Shuffle Key)} {keys : List Key}

theorem has_iff : r.has key ↔ (r.slots.index key).isSome ∨ ∃ e ∈ r.queue.entries, e.key = key := by
  simp only [has, SeatSlots.seatOf, Bool.or_eq_true, RankedQueue.position_isSome_iff]

theorem not_has_iff : ¬r.has key ↔ r.slots.index key = none ∧ ∀ e ∈ r.queue.entries, e.key ≠ key := by
  rw [has_iff]
  push Not
  simp

theorem has_of_index (h : r.slots.index key = some i) : r.has key :=
  has_iff.mpr <| .inl <| by simp [h]

theorem has_seat {ranks : Key → Option Nat} :
    has { r with slots := r.slots.seat key i, ranks } key' ↔ r.has key' ∨ key' = key := by
  simp only [has_iff, SeatSlots.index_seat]
  split
  case isTrue h  => simp [h]
  case isFalse h => simp [h]

theorem has_push : has { r with queue := (r.queue.push key rank).fst } key' ↔ r.has key' ∨ key' = key := by
  simp only [has_iff, RankedQueue.push_perm.mem_iff, List.mem_cons, exists_eq_or_imp, eq_comm (a := key)]
  rw [or_assoc, or_comm (a := key' = key)]

-- Only the place of a newcomer is new, who gets one unless turned away.
theorem has_admitRanked : (r.admitRanked key rank).fst.has key' ↔ r.has key' ∨ key' = key ∧ ¬r.turnsAway := by
  have old (h : r.has key) : r.has key' ↔ r.has key' ∨ key' = key ∧ ¬r.turnsAway :=
    ⟨.inl, fun h' => h'.elim id fun h' => h'.left ▸ h⟩
  simp only [admitRanked]
  split
  case h_1 hk =>
    have hr := old <| has_of_index hk
    split
    case isTrue  => simpa [has_iff] using hr
    case isFalse => exact hr
  case h_2 =>
    split
    case h_1 hq => exact old <| has_iff.mpr <| .inr <| RankedQueue.position_isSome_iff.mp (by simp [hq])
    case h_2 =>
      split
      case h_1 ho =>
        have ht : ¬r.turnsAway := by
          cases hl : r.locked <;> simp_all [turnsAway]
        rw [and_iff_left ht]
        exact has_seat
      case h_2 ho =>
        have ht : r.turnsAway ↔ ¬r.waitlistOn := by
          cases hl : r.locked <;> simp_all [turnsAway]
        split
        case isTrue hw =>
          rw [and_iff_left <| ht.not.mpr (not_not_intro hw)]
          exact has_push
        case isFalse hw => exact ⟨.inl, fun h => h.elim id fun h => absurd (ht.mpr hw) h.right⟩

-- What a key's leaving its place makes of those of all others.
structure Elsewhere (r : Roster Key) (key : Key) (r' : Roster Key) : Prop where
  holdOn : r'.holdOn = r.holdOn
  seatOf : ∀ key' ≠ key, r'.slots.seatOf key' = r.slots.seatOf key'
  isHeld : ∀ key' ≠ key, r'.slots.isHeld key' = r.slots.isHeld key'
  has    : ∀ key' ≠ key, r'.has key' = r.has key'

theorem Elsewhere.refl : r.Elsewhere key r :=
  ⟨rfl, fun _ _ => rfl, fun _ _ => rfl, fun _ _ => rfl⟩

theorem Elsewhere.trans {r'' : Roster Key} (h₁ : r.Elsewhere key r') (h₂ : r'.Elsewhere key r'') :
    r.Elsewhere key r'' where
  holdOn          := h₂.holdOn.trans h₁.holdOn
  seatOf key' hne := (h₂.seatOf key' hne).trans (h₁.seatOf key' hne)
  isHeld key' hne := (h₂.isHeld key' hne).trans (h₁.isHeld key' hne)
  has key' hne    := (h₂.has key' hne).trans (h₁.has key' hne)

theorem Sound.hold_elsewhere (hs : r.Sound) : r.Elsewhere key { r with slots := r.slots.hold key } where
  holdOn       := rfl
  seatOf _ _   := by simp [SeatSlots.seatOf]
  isHeld _ hne := SeatSlots.isHeld_hold hs.inverse hne
  has _ _      := by simp [Roster.has, SeatSlots.seatOf]

theorem Sound.open'_elsewhere {ranks : Key → Option Nat} (hs : r.Sound) :
    r.Elsewhere key { r with slots := r.slots.open' key, ranks } where
  holdOn       := rfl
  seatOf _ hne := by simp [SeatSlots.seatOf, SeatSlots.index_open', hne]
  isHeld _ hne := SeatSlots.isHeld_open' hs.inverse hne
  has _ hne    := by simp [Roster.has, SeatSlots.seatOf, SeatSlots.index_open', hne]

theorem Sound.remove_elsewhere (hs : r.Sound) (key : Key) :
    r.Elsewhere key { r with queue := (r.queue.remove key).fst } where
  holdOn       := rfl
  seatOf _ _   := rfl
  isHeld _ _   := rfl
  has key' hne := by
    rw [Bool.eq_iff_iff, has_iff, has_iff]
    refine or_congr Iff.rfl <| exists_congr fun e => ?_
    rw [hs.sorted.mem_remove]
    constructor
    case mp  => exact fun ⟨⟨he, _⟩, hek⟩ => ⟨he, hek⟩
    case mpr => exact fun ⟨he, hek⟩ => ⟨⟨he, hek ▸ hne⟩, hek⟩

theorem Sound.depart_elsewhere (hs : r.Sound) (key : Key) : r.Elsewhere key (r.depart key).fst := by
  simp only [depart]
  split
  case h_1 =>
    split
    case isTrue  => exact .refl
    case isFalse =>
      split
      case isTrue  => exact hs.hold_elsewhere
      case isFalse => exact hs.open'_elsewhere
  case h_2 =>
    have hr := hs.remove_elsewhere key
    split
    case isTrue  => exact hr
    case isFalse => exact .refl

theorem Sound.expire_elsewhere (hs : r.Sound) (key : Key) : r.Elsewhere key (r.expire key).fst := by
  simp only [expire]
  split
  case isTrue  => exact .refl
  case isFalse => exact hs.open'_elsewhere

theorem Sound.not_has_open' {ranks : Key → Option Nat} (hs : r.Sound) (hk : r.slots.index key = some i) :
    ¬has { r with slots := r.slots.open' key, ranks } key := by
  rw [not_has_iff]
  refine ⟨by simp [SeatSlots.index_open'], fun e he hek => ?_⟩
  simp [← hek, hs.apart e he] at hk

-- A departing key either has a seat and keeps it, or has no place any more.
theorem Sound.depart_cases (hs : r.Sound) (key : Key) :
    (r.keepsSeat key ∧ ∃ i, r.slots.seatOf key = some i ∧ (r.depart key).snd = .held i ∧
      (r.depart key).fst.slots.seatOf key = some i ∧ (r.depart key).fst.slots.isHeld key) ∨
    ((∀ i, r.slots.seatOf key = some i → ¬r.keepsSeat key) ∧ (∀ i, (r.depart key).snd ≠ .held i) ∧
      ¬(r.depart key).fst.has key) := by
  simp only [depart]
  split
  case h_1 i hk =>
    split
    case isTrue hh  => exact .inl ⟨by simp [keepsSeat, hh], i, hk, rfl, hk, hh⟩
    case isFalse hh =>
      split
      case isTrue ho =>
        refine .inl ⟨by simp [keepsSeat, ho], i, hk, rfl, ?_, hs.inverse.isHeld_hold_self hk⟩
        simpa [SeatSlots.seatOf] using hk
      case isFalse ho => exact .inr ⟨by simp [keepsSeat, ho, hh], by simp, hs.not_has_open' hk⟩
  case h_2 hk =>
    refine .inr ⟨fun i hi => by simp [hk] at hi, ?_⟩
    have hn : ¬has { r with queue := (r.queue.remove key).fst } key := by
      rw [not_has_iff]
      exact ⟨hk, fun e he => (hs.sorted.mem_remove.mp he).right⟩
    split
    case isTrue     => exact ⟨by simp, hn⟩
    case isFalse hr =>
      refine ⟨by simp, ?_⟩
      cases RankedQueue.remove_cases r.queue key
      case inl hr' => obtain ⟨_, _, hr'⟩ := hr'; simp [hr'] at hr
      case inr hr' => simpa [hr'] using hn

theorem Sound.not_has_expire (hs : r.Sound) (h : r.slots.isHeld key) : ¬(r.expire key).fst.has key := by
  have ⟨i, hi⟩ := hs.inverse.isHeld_iff.mp h
  simp only [expire, h, Bool.not_true, Bool.false_eq_true, if_false]
  exact hs.not_has_open' <| hs.inverse.index_of_slot hi rfl

theorem Sound.has_of_expire (hs : r.Sound) (h : (r.expire key).fst.has key') : r.has key' := by
  by_cases hh : r.slots.isHeld key
  case pos =>
    by_cases he : key' = key
    case pos => exact absurd (he ▸ h) (hs.not_has_expire hh)
    case neg => rwa [(hs.expire_elsewhere _).has key' he] at h
  case neg => simpa [expire, hh] using h

theorem has_promote (h : r.promote i = some (r', shuffle)) (hk : r'.has key) : r.has key := by
  cases hq : r.queue.entries
  case nil => simp [promote_eq_none hq] at h
  case cons e rest =>
    cases (promote_eq hq).symm.trans h
    rw [has_iff] at hk ⊢
    simp only [SeatSlots.index_seat] at hk
    rw [hq]
    split at hk
    case isTrue he  => exact .inr ⟨e, List.mem_cons_self .., he.symm⟩
    case isFalse he => exact hk.imp id fun ⟨e', he', hek⟩ => ⟨e', .tail _ he', hek⟩

theorem has_displace {rank : Nat} (hk : r.slots.index key = some i) (h : (r.displace key rank).has key') :
    r.has key' := by
  by_cases he : key' = key
  case pos => exact he ▸ has_of_index hk
  case neg =>
    rw [has_iff] at h ⊢
    simp only [displace, SeatSlots.index_open', if_neg he, RankedQueue.push_perm.mem_iff, List.mem_cons] at h
    cases h
    case inl h => exact .inl h
    case inr h =>
      obtain ⟨e, hm, hek⟩ := h
      refine .inr ⟨e, hm.resolve_left fun hm => ?_, hek⟩
      exact he <| hek.symm.trans (hm ▸ rfl)

-- Nobody gets a place by the promotions.
theorem Sound.has_resolve (hs : r.Sound) (h : r.resolve.fst.has key) : r.has key := by
  refine (resolve_preserves (P := fun r' => r'.has key → r.has key) hs ?_ ?_ id).right h
  case refine_1 =>
    intro r r' _ _ hp hr hk
    cases fillSeat_cases r
    case inl hn => simp [hn.left] at hr
    case inr hr' =>
      have ⟨_, _, _, _, hq, hr'⟩ := hr'
      cases hr'.symm.trans hr
      exact hp <| has_promote hq hk
  case refine_2 =>
    intro r r' _ hs hp hr hk
    cases settleRank_cases r
    case inl hn => simp [hn.left] at hr
    case inr hr' =>
      have ⟨_, _, _, _, _, _, hi, _, _, hq, hr'⟩ := hr'
      cases hr'.symm.trans hr
      exact hp <| has_displace (hs.inverse.index_of_slot hi rfl) <| has_promote hq hk

-- Departures one after the other.
def departAll (r : Roster Key) (keys : List Key) : Roster Key :=
  keys.foldl (fun r key => (r.depart key).fst) r

theorem Elsewhere.keepsSeat (h : r.Elsewhere key r') {key' : Key} (hne : key' ≠ key) :
    r'.keepsSeat key' = r.keepsSeat key' := by
  rw [Roster.keepsSeat, h.holdOn, h.isHeld key' hne, Roster.keepsSeat]

theorem Sound.departAll (hs : r.Sound) : (r.departAll keys).Sound := by
  induction keys generalizing r
  case nil        => exact hs
  case cons _ _ ih => exact ih hs.depart

theorem Sound.has_of_depart {key' : Key} (hs : r.Sound) (h : (r.depart key).fst.has key') : r.has key' := by
  by_cases he : key' = key
  case pos =>
    subst he
    cases hs.depart_cases key'
    case inl hd => have ⟨_, i, hi, _⟩ := hd; exact has_of_index hi
    case inr hd => exact absurd h hd.right.right
  case neg => rwa [(hs.depart_elsewhere _).has key' he] at h

theorem Sound.has_of_departAll (hs : r.Sound) (h : (r.departAll keys).has key) : r.has key := by
  induction keys generalizing r
  case nil         => exact h
  case cons _ _ ih => exact hs.has_of_depart <| ih hs.depart h

theorem Sound.seatOf_departAll (hs : r.Sound) (h : key ∉ keys) :
    (r.departAll keys).slots.seatOf key = r.slots.seatOf key := by
  induction keys generalizing r
  case nil          => rfl
  case cons k ks ih =>
    rw [List.mem_cons, not_or] at h
    exact (ih hs.depart h.right).trans <| (hs.depart_elsewhere _).seatOf key h.left

-- Who keeps the seat at a departure, keeps it at all.
theorem Sound.seated_departAll (hs : r.Sound) (h : r.keepsSeat key) (hi : r.slots.seatOf key = some i) :
    (r.departAll keys).slots.seatOf key = some i := by
  induction keys generalizing r
  case nil          => exact hi
  case cons k ks ih =>
    by_cases he : key = k
    case pos =>
      subst he
      cases hs.depart_cases key
      case inl hd =>
        have ⟨_, j, hj, _, hd, hh⟩ := hd
        exact ih hs.depart (by simp [Roster.keepsSeat, hh]) (hd.trans <| hj.symm.trans hi)
      case inr hd => exact absurd h <| hd.left i hi
    case neg =>
      have hd := hs.depart_elsewhere k
      exact ih hs.depart (hd.keepsSeat he ▸ h) ((hd.seatOf key he).trans hi)

theorem Sound.not_has_departAll (hs : r.Sound) (h : ∀ i, r.slots.seatOf key = some i → ¬r.keepsSeat key)
    (hk : key ∈ keys) : ¬(r.departAll keys).has key := by
  induction keys generalizing r
  case nil          => contradiction
  case cons k ks ih =>
    by_cases he : key = k
    case pos =>
      subst he
      cases hs.depart_cases key
      case inl hd => have ⟨hd, i, hi, _⟩ := hd; exact absurd hd <| h i hi
      case inr hd => exact fun hk => hd.right.right <| hs.depart.has_of_departAll hk
    case neg =>
      have hd := hs.depart_elsewhere k
      refine ih hs.depart (fun i hi => ?_) ((List.mem_cons.mp hk).resolve_left he)
      rw [hd.keepsSeat he]
      exact h i <| (hd.seatOf key he).symm.trans hi

end Roster

end Plaza.ServerUtils
