import Plaza.ServerUtils.Theorems.Seats.Places

namespace Plaza.ServerUtils.Crew

variable {Key : Type} {crew : Crew Key} {roster roster' : Roster Key} {isBot : Key → Bool}
variable {key key' : Key} {keys : List Key} {seats : Std.TreeMap Nat Key} {seat seat' rank capacity : Nat}
variable {s s' : Crew Key × Roster Key} {calls : List (Call Key)} {call : Call Key}

theorem getElem?_insert :
    (seats.insert seat key)[seat']? = if seat' = seat then some key else seats[seat']? := by
  simp [Std.TreeMap.getElem?_insert, eq_comm (a := seat')]

theorem getElem?_erase : (seats.erase seat)[seat']? = if seat' = seat then none else seats[seat']? := by
  simp [Std.TreeMap.getElem?_erase, eq_comm (a := seat')]

theorem mem_gone : (seat, key) ∈ crew.gone roster ↔
    crew.seats[seat]? = some key ∧ roster.slots.seatOf key ≠ some seat := by
  simp [gone, Std.TreeMap.mem_toList_iff_getElem?_eq_some]

theorem getElem?_foldl_erase {gone : List (Nat × Key)} :
    (gone.foldl (fun seats e => seats.erase e.fst) seats)[seat]? =
      if seat ∈ gone.map Prod.fst then none else seats[seat]? := by
  induction gone generalizing seats
  case nil         => simp
  case cons e _ ih =>
    rw [List.foldl_cons, ih, getElem?_erase, List.map_cons]
    simp only [List.mem_cons]
    split <;> split <;> simp_all

variable [DecidableEq Key]

theorem tracks_iff : crew.tracks key ↔ ∃ seat : Nat, crew.seats[seat]? = some key := by
  simp only [tracks, List.any_eq_true, Prod.exists, decide_eq_true_eq,
    Std.TreeMap.mem_toList_iff_getElem?_eq_some]
  constructor
  case mp  => exact fun ⟨seat, _, h, hk⟩ => ⟨seat, hk ▸ h⟩
  case mpr => exact fun ⟨seat, h⟩ => ⟨seat, key, h, rfl⟩

-- Every bot with a place is remembered.
def Tracked (isBot : Key → Bool) (s : Crew Key × Roster Key) : Prop :=
  ∀ key, isBot key → s.snd.has key → s.fst.tracks key

-- Nobody is remembered but bots with a place.
def Staffed (isBot : Key → Bool) (s : Crew Key × Roster Key) : Prop :=
  ∀ key, s.fst.tracks key → isBot key ∧ s.snd.has key

structure Sound (isBot : Key → Bool) (s : Crew Key × Roster Key) : Prop where
  roster : s.snd.Sound
  bots   : ∀ key, s.fst.tracks key → isBot key

theorem foldl_withdraw {gone : List (Nat × Key)} : gone.foldl withdraw (crew, roster) =
    ({ seats := gone.foldl (fun seats e => seats.erase e.fst) crew.seats },
      roster.departAll (gone.map Prod.snd)) := by
  induction gone generalizing crew roster
  case nil         => rfl
  case cons _ _ ih => exact ih

-- A pruned crew remembers the bots which sit where it remembered them.
theorem getElem?_prune : (crew.prune roster).fst.fst.seats[seat]? = some key ↔
    crew.seats[seat]? = some key ∧ roster.slots.seatOf key = some seat := by
  simp only [prune, foldl_withdraw, getElem?_foldl_erase]
  split
  case isTrue h =>
    have ⟨⟨_, key'⟩, hg, hs⟩ := List.mem_map.mp h
    cases hs
    have ⟨hc, hs⟩ := mem_gone.mp hg
    simp only [reduceCtorEq, false_iff, not_and]
    intro hk
    cases hc.symm.trans hk
    exact hs
  case isFalse h =>
    refine ⟨fun hk => ⟨hk, ?_⟩, And.left⟩
    by_contra hs
    exact h <| List.mem_map.mpr ⟨_, mem_gone.mpr ⟨hk, hs⟩, rfl⟩

theorem tracks_prune : (crew.prune roster).fst.fst.tracks key ↔
    ∃ seat : Nat, crew.seats[seat]? = some key ∧ roster.slots.seatOf key = some seat := by
  simp only [tracks_iff, getElem?_prune]

theorem snd_prune : (crew.prune roster).fst.snd = roster.departAll ((crew.gone roster).map Prod.snd) := by
  rw [prune, foldl_withdraw]

-- A bot which is remembered elsewhere only is withdrawn.
theorem mem_gone_of_tracks (h : crew.tracks key) (hn : ¬(crew.prune roster).fst.fst.tracks key) :
    key ∈ (crew.gone roster).map Prod.snd := by
  rw [tracks_prune] at hn
  have ⟨seat, hs⟩ := tracks_iff.mp h
  exact List.mem_map.mpr ⟨(seat, key), mem_gone.mpr ⟨hs, fun hk => hn ⟨seat, hs, hk⟩⟩, rfl⟩

theorem keepsPruning_iff : crew.keepsPruning roster ↔
    ∀ key ∈ (crew.gone roster).map Prod.snd, ∀ seat, roster.slots.seatOf key = some seat →
      (crew.seats[seat]? = some key ↔ roster.keepsSeat key) := by
  simp only [keepsPruning, List.all_eq_true, List.forall_mem_map]
  refine forall₂_congr fun ⟨_, key⟩ _ => ?_
  simp only
  split
  case h_1 hk => simp [hk]
  case h_2 hk =>
    rw [beq_iff_eq, Bool.eq_iff_iff, decide_eq_true_iff]
    simp [hk]

-- After a pruning, every bot with a place is remembered, and nobody else.
theorem prune_iff (hs : Sound isBot (crew, roster)) (ht : Tracked isBot (crew, roster)) :
    Tracked isBot (crew.prune roster).fst ∧ Staffed isBot (crew.prune roster).fst ↔
      crew.keepsPruning roster := by
  rw [keepsPruning_iff]
  constructor
  case mp =>
    intro ⟨ht', hst⟩ key hg seat hk
    constructor
    case mp =>
      intro hc
      by_contra hn
      have hh := (hst key <| tracks_prune.mpr ⟨seat, hc, hk⟩).right
      rw [snd_prune] at hh
      exact hs.roster.not_has_departAll (fun _ _ => hn) hg hh
    case mpr =>
      intro hn
      have hb := hs.bots key <| by
        have ⟨⟨seat, key⟩, hg, hk⟩ := List.mem_map.mp hg
        exact tracks_iff.mpr ⟨seat, hk ▸ (mem_gone.mp hg).left⟩
      have ⟨seat', hc, hk'⟩ := tracks_prune.mp <| ht' key hb <| by
        rw [snd_prune]
        exact Roster.has_of_index <| hs.roster.seated_departAll hn hk
      cases hk.symm.trans hk'
      exact hc
  case mpr =>
    intro h
    constructor
    case left =>
      intro key hb hh
      by_contra hn
      rw [snd_prune] at hh
      have ht := ht key hb <| hs.roster.has_of_departAll hh
      have hg := mem_gone_of_tracks ht hn
      refine hs.roster.not_has_departAll (fun seat hk hn' => hn ?_) hg hh
      exact tracks_prune.mpr ⟨seat, (h key hg seat hk).mpr hn', hk⟩
    case right =>
      intro key hc
      have ⟨seat, hc, hk⟩ := tracks_prune.mp hc
      refine ⟨hs.bots key <| tracks_iff.mpr ⟨seat, hc⟩, ?_⟩
      rw [snd_prune]
      by_cases hg : key ∈ (crew.gone roster).map Prod.snd
      case pos => exact Roster.has_of_index <| hs.roster.seated_departAll ((h key hg seat hk).mp hc) hk
      case neg => exact Roster.has_of_index <| (hs.roster.seatOf_departAll hg).trans hk

theorem tracks_erase : tracks { seats := crew.seats.erase seat } key ↔
    ∃ seat' ≠ seat, crew.seats[seat']? = some key := by
  rw [tracks_iff]
  refine exists_congr fun seat' => ?_
  rw [getElem?_erase]
  split
  case isTrue h  => simp [h]
  case isFalse h => simp [h]

theorem tracks_of_insert (h : tracks { seats := crew.seats.insert seat key } key') :
    key' = key ∨ crew.tracks key' := by
  have ⟨seat', hs⟩ := tracks_iff.mp h
  rw [getElem?_insert] at hs
  split at hs
  case isTrue  => exact .inl (Option.some.inj hs).symm
  case isFalse => exact .inr <| tracks_iff.mpr ⟨seat', hs⟩

theorem spares_iff : crew.spares roster seat key ↔ ∀ key', crew.seats[seat]? = some key' → key' ≠ key →
    roster.has key' → ∃ seat' ≠ seat, crew.seats[seat']? = some key' := by
  simp only [spares]
  split
  case h_1 h => simp [h]
  case h_2 key' h =>
    simp only [h, Option.some.injEq, forall_eq', Bool.or_eq_true, decide_eq_true_eq, Bool.not_eq_true',
      ← Bool.not_eq_true, tracks_erase]
    constructor
    case mp => exact fun h hne hh => (h.resolve_left (not_or.mpr ⟨hne, not_not_intro hh⟩))
    case mpr =>
      intro h
      by_cases hne : key' = key
      case pos => exact .inl <| .inl hne
      case neg =>
        by_cases hh : roster.has key'
        case pos => exact .inr <| h hne hh
        case neg => exact .inl <| .inr hh

-- A bot takes a seat.
theorem tracked_insert_iff (hb : ∀ key, crew.tracks key → isBot key)
    (ht : Tracked isBot (crew, roster)) (h₁ : ∀ key', roster'.has key' → roster.has key' ∨ key' = key)
    (h₂ : ∀ key', roster.has key' → roster'.has key') :
    Tracked isBot ({ seats := crew.seats.insert seat key }, roster') ↔ crew.spares roster seat key := by
  rw [spares_iff]
  constructor
  case mp =>
    intro ht' key' hc hne hh
    have ⟨seat', hs⟩ := tracks_iff.mp <| ht' key' (hb key' <| tracks_iff.mpr ⟨seat, hc⟩) (h₂ key' hh)
    rw [getElem?_insert] at hs
    split at hs
    case isTrue     => exact absurd (Option.some.inj hs).symm hne
    case isFalse he => exact ⟨seat', he, hs⟩
  case mpr =>
    intro h key' hb' hh
    rw [tracks_iff]
    by_cases he : key' = key
    case pos => exact ⟨seat, by simp [he]⟩
    case neg =>
      have hh := (h₁ key' hh).resolve_right he
      have ⟨seat', hs⟩ := tracks_iff.mp <| ht key' hb' hh
      by_cases hs' : seat' = seat
      case pos =>
        have ⟨seat', hne, hs⟩ := h key' (hs' ▸ hs) he hh
        exact ⟨seat', by simp [getElem?_insert, hne, hs]⟩
      case neg => exact ⟨seat', by simp [getElem?_insert, hs', hs]⟩

theorem admit_iff (hk : isBot key) (ht : Tracked isBot (crew, roster)) (rank : Nat) :
    Tracked isBot (crew, (roster.admitRanked key rank).fst) ↔ crew.tracks key || roster.turnsAway := by
  rw [Bool.or_eq_true]
  constructor
  case mp =>
    intro ht'
    by_contra hn
    rw [not_or] at hn
    exact hn.left <| ht' key hk <| Roster.has_admitRanked.mpr <| .inr ⟨rfl, hn.right⟩
  case mpr =>
    intro h key' hb hh
    cases Roster.has_admitRanked.mp hh
    case inl hh => exact ht key' hb hh
    case inr hh =>
      cases h
      case inl h => exact hh.left ▸ h
      case inr h => exact absurd h hh.right

theorem fillKeys_seated {fresh : Bool} (h : roster.admitRanked key rank = (roster', .seated seat fresh)) :
    (crew.fillKeys roster rank (key :: keys)).fst =
      (fillKeys { seats := crew.seats.insert seat key } roster' rank keys).fst := by
  simp only [fillKeys, h]

theorem fillKeys_refused {admission : Admission} (hn : ∀ seat fresh, admission ≠ .seated seat fresh)
    (h : roster.admitRanked key rank = (roster', admission)) :
    (crew.fillKeys roster rank (key :: keys)).fst = (crew, roster') := by
  cases admission
  case seated seat fresh => exact absurd rfl <| hn seat fresh
  all_goals simp only [fillKeys, h]

-- However many bots it admits, the crew remembers all.
theorem fillKeys_iff (hk : ∀ key ∈ keys, isBot key) (hb : ∀ key, crew.tracks key → isBot key)
    (ht : Tracked isBot (crew, roster)) :
    (∀ n, Tracked isBot (crew.fillKeys roster rank (keys.take n)).fst) ↔
      crew.keepsFilling roster rank keys := by
  induction keys generalizing crew roster
  case nil => simpa [fillKeys, keepsFilling] using ht
  case cons key keys ih =>
    have ⟨hk, hks⟩ := List.forall_mem_cons.mp hk
    rw [keepsFilling]
    split
    case h_1 roster' seat fresh ha =>
      have hr : (roster.admitRanked key rank).fst = roster' := congrArg Prod.fst ha
      have hi :
          Tracked isBot ({ seats := crew.seats.insert seat key }, roster') ↔ crew.spares roster seat key :=
        tracked_insert_iff hb ht
        (fun key' h => (Roster.has_admitRanked.mp (hr ▸ h)).imp id And.left)
        (fun key' h => hr ▸ Roster.has_admitRanked.mpr (.inl h))
      have hb' key' (h : tracks { seats := crew.seats.insert seat key } key') : isBot key' :=
        (tracks_of_insert h).elim (fun h => h ▸ hk) (hb key')
      rw [Bool.and_eq_true, ← hi]
      constructor
      case mp =>
        intro h
        have h n := fillKeys_seated ha ▸ h (n + 1)
        exact ⟨h 0, (ih hks hb' (h 0)).mp h⟩
      case mpr =>
        intro ⟨hi, h⟩ n
        cases n
        case zero   => exact ht
        case succ n => rw [List.take_succ_cons, fillKeys_seated ha]; exact (ih hks hb' hi).mpr h n
    case h_2 hn ha =>
      have hi := ha ▸ admit_iff hk ht rank
      rw [← hi]
      constructor
      case mp =>
        intro h
        have h := h 1
        rwa [List.take_succ_cons, fillKeys_refused hn ha] at h
      case mpr =>
        intro h n
        cases n
        case zero   => exact ht
        case succ n => rwa [List.take_succ_cons, fillKeys_refused hn ha]

theorem Sound.fillKeys (hs : Sound isBot (crew, roster)) (hk : ∀ key ∈ keys, isBot key) :
    Sound isBot (crew.fillKeys roster rank keys).fst := by
  induction keys generalizing crew roster
  case nil => exact hs
  case cons key keys ih =>
    have ⟨hk, hks⟩ := List.forall_mem_cons.mp hk
    have hr : (roster.admitRanked key rank).fst.Sound := hs.roster.admitRanked
    cases ha : roster.admitRanked key rank
    case mk roster' admission =>
      rw [ha] at hr
      cases admission
      case seated seat fresh =>
        rw [fillKeys_seated ha]
        exact ih ⟨hr, fun key' h => (tracks_of_insert h).elim (fun h => h ▸ hk) (hs.bots key')⟩ hks
      all_goals
        rw [fillKeys_refused (by simp) ha]
        exact ⟨hr, hs.bots⟩

-- A bot that is stood down has no place any more, nobody else is concerned.
theorem vacate_some (hs : roster.Sound) (h : crew.seats[seat]? = some key) :
    ∃ roster', (crew.vacate roster seat).fst = ({ seats := crew.seats.erase seat }, roster') ∧ roster'.Sound ∧
      roster.Elsewhere key roster' ∧ ¬roster'.has key := by
  have hd := hs.depart_elsewhere key
  simp only [vacate, h]
  cases hs.depart_cases key
  case inl hc =>
    obtain ⟨_, i, _, hh, _, hc⟩ := hc
    have hr : roster.depart key = ((roster.depart key).fst, .held i) := by
      rw [← hh]
    refine ⟨((roster.depart key).fst.expire key).fst, ?_, hs.depart.expire, ?_, hs.depart.not_has_expire hc⟩
    case refine_1 => rw [hr]
    case refine_2 => exact hd.trans <| hs.depart.expire_elsewhere key
  case inr hc =>
    refine ⟨(roster.depart key).fst, ?_, hs.depart, hd, hc.right.right⟩
    split
    case h_1 h => exact absurd (congrArg Prod.snd h) (hc.right.left _)
    case h_2 h => rw [h]

theorem Sound.vacate (hs : Sound isBot (crew, roster)) : Sound isBot (crew.vacate roster seat).fst := by
  cases h : crew.seats[seat]?
  case none     => simpa [Crew.vacate, h] using hs
  case some key =>
    have ⟨roster', hv, hr, _⟩ := vacate_some hs.roster h
    rw [hv]
    refine ⟨hr, fun key' ht => hs.bots key' ?_⟩
    have ⟨seat', _, ht⟩ := tracks_erase.mp ht
    exact tracks_iff.mpr ⟨seat', ht⟩

theorem Tracked.vacate (ht : Tracked isBot (crew, roster)) (hs : roster.Sound) :
    Tracked isBot (crew.vacate roster seat).fst := by
  cases h : crew.seats[seat]?
  case none     => simpa [Crew.vacate, h] using ht
  case some key =>
    have ⟨roster', hv, _, he, hn⟩ := vacate_some hs h
    rw [hv]
    intro key' hb hh
    have hne : key' ≠ key := fun he => hn (he ▸ hh)
    have ⟨seat', hs⟩ := tracks_iff.mp <| ht key' hb (he.has key' hne ▸ hh)
    refine tracks_erase.mpr ⟨seat', fun he => ?_, hs⟩
    exact hne <| Option.some.inj <| hs.symm.trans (he ▸ h)

theorem Sound.prune (hs : Sound isBot (crew, roster)) : Sound isBot (crew.prune roster).fst := by
  refine ⟨?_, fun key h => hs.bots key ?_⟩
  case refine_1 =>
    rw [snd_prune]
    exact hs.roster.departAll
  case refine_2 =>
    have ⟨seat, hs, _⟩ := tracks_prune.mp h
    exact tracks_iff.mpr ⟨seat, hs⟩

theorem Sound.step (hs : Sound isBot s) (h : (machine isBot).step s call = some s') : Sound isBot s' := by
  cases call
  case roster call => cases h; exact ⟨hs.roster.apply, hs.bots⟩
  case fill count rank keyOf =>
    simp only [machine] at h
    split at h
    case isTrue hk =>
      cases h
      exact hs.fillKeys (by simpa using hk)
    case isFalse => contradiction
  case vacate => cases h; exact hs.vacate
  case prune  => cases h; exact hs.prune

theorem tracked_step (hs : Sound isBot s) (ht : Tracked isBot s) (hk : keeps isBot s call)
    (h : (machine isBot).step s call = some s') : Tracked isBot s' := by
  cases call
  case roster call =>
    cases h
    cases call
    case admitRanked key rank =>
      cases hb : isBot key
      case true  => exact (admit_iff hb ht rank).mpr (by simpa [keeps, hb] using hk)
      case false =>
        intro key' hb' hh
        have hne : key' ≠ key := fun he => by simp [← he, hb'] at hb
        exact ht key' hb' <| (Roster.has_admitRanked.mp hh).resolve_right fun h => hne h.left
    case depart  => exact fun key hb hh => ht key hb <| hs.roster.has_of_depart hh
    case expire  => exact fun key hb hh => ht key hb <| hs.roster.has_of_expire hh
    case resolve => exact fun key hb hh => ht key hb <| hs.roster.has_resolve hh
    all_goals exact ht
  case fill count rank keyOf =>
    simp only [machine] at h
    split at h
    case isTrue hb =>
      cases h
      have h := (fillKeys_iff (by simpa using hb) hs.bots ht).mpr hk count
      rwa [List.take_of_length_le (by simp)] at h
    case isFalse => contradiction
  case vacate => cases h; exact ht.vacate hs.roster
  case prune  => cases h; exact ((prune_iff hs ht).mpr hk).left

theorem staffed_step (hs : Sound isBot s) (ht : Tracked isBot s) (hk : keeps isBot s .prune)
    (h : (machine isBot).step s .prune = some s') : Staffed isBot s' := by
  cases h
  exact ((prune_iff hs ht).mpr hk).right

theorem Sound.new : Sound isBot (new, .new capacity) where
  roster := .new
  bots   := by simp [Crew.new, tracks]

theorem Tracked.new : Tracked isBot (new, .new capacity) := by
  intro key _ h
  simp [Roster.has_iff, Roster.new, SeatSlots.new, RankedQueue.new] at h

-- The crew loses no bot in a run whose calls all keep them.
theorem tracked_of_steps
    (h : ((machine isBot).restrict fun s call => keeps isBot s call).Steps (new, .new capacity) calls s) :
    Tracked isBot s ∧ ∀ calls', calls = calls' ++ [.prune] → Staffed isBot s := by
  have hi {calls s}
      (h : ((machine isBot).restrict fun s call => keeps isBot s call).Steps (new, .new capacity) calls s) :
      Sound isBot s ∧ Tracked isBot s := by
    refine h.preserves (I := fun s => Sound isBot s ∧ Tracked isBot s) (fun hi hb => ?_) ⟨.new, .new⟩
    have ⟨hk, hb⟩ := Machine.restrict_step_iff.mp hb
    exact ⟨hi.left.step hb, tracked_step hi.left hi.right hk hb⟩
  refine ⟨(hi h).right, fun calls' hc => ?_⟩
  subst hc
  have ⟨s', h, hp⟩ := h.split
  cases hp
  case step hp he =>
    cases he
    have ⟨hs, ht⟩ := hi h
    have ⟨hk, hp⟩ := Machine.restrict_step_iff.mp hp
    exact staffed_step hs ht hk hp

theorem tracked_of_steps_displaced :
    let calls : List (Call Nat) :=
      [.roster .withWaitlist, .fill 1 1 (100 + ·), .roster (.admitRanked 7 0), .roster .resolve, .prune]
    ∃ s, ((machine (100 ≤ ·)).restrict fun s call => keeps (100 ≤ ·) s call).Steps (new, .new 1) calls s ∧
      Tracked (100 ≤ ·) s ∧ ∀ calls', calls = calls' ++ [.prune] → Staffed (100 ≤ ·) s := by
  have h : ((machine (100 ≤ ·)).restrict fun s call => keeps (100 ≤ ·) s call).Steps (new, .new 1)
      [.roster .withWaitlist, .fill 1 1 (100 + ·), .roster (.admitRanked 7 0), .roster .resolve, .prune] _ :=
    .step rfl <| .step rfl <| .step rfl <| .step rfl <| .step rfl .refl
  exact ⟨_, h, tracked_of_steps h⟩

-- The second bot waits, and the crew does not know.
theorem waitlisted_lost :
    ¬∀ (isBot : Nat → Bool) calls s, (machine isBot).Steps (new, .new 1) calls s →
      Tracked isBot s ∧ ∀ calls', calls = calls' ++ [.prune] → Staffed isBot s := by
  intro h
  have hs : (machine (100 ≤ ·)).Steps (new, .new 1) [.roster .withWaitlist, .fill 2 1 (100 + ·)] _ :=
    .step rfl <| .step rfl .refl
  exact absurd ((h _ _ _ hs).left 101) (by decide)

end Plaza.ServerUtils.Crew
