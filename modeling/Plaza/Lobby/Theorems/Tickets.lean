import Plaza.Lobby.Tickets

namespace Plaza.Lobby

variable {ID Room : Type}

namespace MapTicketRegistry

variable {r : MapTicketRegistry ID Room} {token token' : String} {room : Room} {now : Nat} {held : Held ID Room}
variable {ticket : Ticket ID Room} {player : ID}

theorem lapsed_eq_false_iff {issuedAt : Nat} :
    r.lapsed issuedAt now = false ↔ ∀ window, r.window = some window → now - issuedAt < window := by
  cases h : r.window <;> simp [lapsed, h]

theorem lapsed_iff {issuedAt : Nat} :
    r.lapsed issuedAt now ↔ ∃ window, r.window = some window ∧ window ≤ now - issuedAt := by
  cases h : r.window <;> simp [lapsed, h]

-- A sweep drops those which lapsed, or nothing.
theorem held_of_sweep (h : (r.sweep now).held token = some held) : r.inner.held token = some held := by
  simp only [sweep] at h
  split at h
  case h_1 =>
    split at h
    case isTrue  => exact (Option.filter_eq_some_iff.mp h).left
    case isFalse => exact h
  case h_2 => exact h

theorem held_sweep (h : r.inner.held token = some held) :
    (r.sweep now).held token = some held ∨ ∃ window, r.window = some window ∧ window ≤ now - held.issuedAt := by
  simp only [sweep]
  split
  case h_1 window hw =>
    by_cases hl : now - held.issuedAt < window
    case pos =>
      refine .inl ?_
      split
      case isTrue  => simpa [h] using hl
      case isFalse => exact h
    case neg => exact .inr ⟨window, hw, Nat.le_of_not_lt hl⟩
  case h_2 => exact .inl h

theorem lastSwept_sweep_le (h : r.inner.lastSwept ≤ now) : (r.sweep now).lastSwept ≤ now := by
  simp only [sweep]
  split
  case h_1 =>
    split
    case isTrue  => exact Nat.le_refl _
    case isFalse => exact h
  case h_2 => exact h

-- What is older than the last sweep was younger than the window then.
def Swept (r : MapTicketRegistry ID Room) : Prop :=
  ∀ window, r.window = some window → ∀ token held, r.inner.held token = some held →
    r.inner.lastSwept < held.issuedAt + window ∨ r.inner.lastSwept ≤ held.issuedAt

theorem Swept.sweep (h : r.Swept) : Swept { r with inner := r.sweep now } := by
  intro window hw token held hh
  have hh' := held_of_sweep hh
  simp only [MapTicketRegistry.sweep, show r.window = some window from hw] at hh ⊢
  split at hh
  case isTrue hs =>
    have := (Option.filter_eq_some_iff.mp hh).right
    rw [if_pos hs]
    simp only [decide_eq_true_eq] at this
    dsimp only
    omega
  case isFalse hs =>
    rw [if_neg hs]
    exact h window hw token held hh'

-- After a sweep that was due less than a window ago, everything is younger than two windows.
theorem Swept.young {window : Nat} (h : r.Swept) (hn : r.inner.lastSwept ≤ now) (hw : r.window = some window)
    (hh : (r.sweep now).held token = some held) : now - held.issuedAt < 2 * window := by
  have hh' := h window hw token held (held_of_sweep hh)
  simp only [MapTicketRegistry.sweep, hw] at hh
  split at hh
  case isTrue =>
    have := (Option.filter_eq_some_iff.mp hh).right
    simp only [decide_eq_true_eq] at this
    omega
  case isFalse => omega

theorem held_issueWithAt : (r.issueWithAt token player room now).inner.held token' =
    if token' = token then some ⟨⟨player, room⟩, now⟩ else (r.sweep now).held token' :=
  Function.update_apply ..

theorem held_remove : (r.remove token).inner.held token' = if token' = token then none else r.inner.held token' :=
  Function.update_apply ..

variable [DecidableEq Room]

theorem redeemAt_of_room_ne (h : ∀ held, r.inner.held token = some held → held.ticket.room ≠ room) :
    r.redeemAt token room now = (r, none) := by
  simp only [redeemAt]
  split
  case h_1         => rfl
  case h_2 held hh => exact if_pos (h held hh)

theorem redeemAt_of_room_eq (h : r.inner.held token = some held) (hr : held.ticket.room = room) :
    r.redeemAt token room now =
      (r.remove token, if r.lapsed held.issuedAt now then none else some held.ticket) := by
  rw [redeemAt, h]
  exact if_neg (· hr)

theorem redeemAt_eq_some_iff : (r.redeemAt token room now).snd = some ticket ↔
    ∃ held, r.inner.held token = some held ∧ held.ticket = ticket ∧ ticket.room = room ∧
      r.lapsed held.issuedAt now = false := by
  constructor
  case mp =>
    intro h
    simp only [redeemAt] at h
    split at h
    case h_1         => cases h
    case h_2 held hh =>
      split at h
      case isTrue     => cases h
      case isFalse hr =>
        cases hl : r.lapsed held.issuedAt now
        case true  => simp [hl] at h
        case false =>
          have ht : held.ticket = ticket := by simpa [hl] using h
          exact ⟨held, hh, ht, ht ▸ not_not.mp hr, hl⟩
  case mpr =>
    intro ⟨held, hh, ht, hr, hl⟩
    rw [redeemAt_of_room_eq hh (ht ▸ hr), hl, ht]
    rfl

end MapTicketRegistry

namespace Placement

open Trace

variable {s s' : Placement ID Room} {log : List (Entry ID Room)} {entry : Entry ID Room} {token : String}
variable {player : ID} {room : Room} {now : Nat} {held : Held ID Room} {ticket : Ticket ID Room}
variable {registry : MapTicketRegistry ID Room} {window : Option Nat}

namespace Outstanding

theorem not_nil : ¬Outstanding [] token held :=
  Latest.not_nil

theorem issued_iff {token' : String} {at' : Nat} :
    Outstanding (log ++ [.issued token' ticket at']) token held ↔
      if token = token' then held = ⟨ticket, at'⟩ else Outstanding log token held := by
  rw [Outstanding, Latest.snoc_iff]
  split
  case isTrue h =>
    subst h
    obtain ⟨_, _⟩ := held
    simp [Entry.token]
  case isFalse h => simp [Entry.token, Ne.symm h, Outstanding]

-- A ticket is not outstanding after it was redeemed or revoked.
theorem other_iff (h : ∀ token ticket at', entry ≠ .issued token ticket at') :
    Outstanding (log ++ [entry]) token held ↔ entry.token ≠ token ∧ Outstanding log token held := by
  rw [Outstanding, Latest.snoc_iff, or_iff_right fun hl => h _ _ _ hl.right.symm]
  rfl

theorem unique {held' : Held ID Room} (h : Outstanding log token held) (h' : Outstanding log token held') :
    held = held' := by
  obtain ⟨_, _⟩ := held
  have := Latest.unique h h'
  simp only [Entry.issued.injEq] at this
  simp [this]

end Outstanding

-- A redemption was of an outstanding ticket, and gave what had been issued.
def Redeems (log : List (Entry ID Room)) (entry : Entry ID Room) : Prop :=
  ∀ token ticket, entry = .redeemed token ticket → ∃ at', Outstanding log token ⟨ticket, at'⟩

-- What the registry holds is outstanding, and what is outstanding it holds, unless the window is over.
structure Invariant (window : Option Nat) (s : Placement ID Room) : Prop where
  expiry   : s.registry.window = window
  held     : ∀ token held, s.registry.inner.held token = some held → Outstanding s.log token held
  issued   : ∀ token held, Outstanding s.log token held → held.issuedAt ≤ s.clock
  kept     : ∀ token held, Outstanding s.log token held → s.registry.inner.held token = some held ∨
    ∃ w, window = some w ∧ w ≤ s.clock - held.issuedAt
  swept    : s.registry.inner.lastSwept ≤ s.clock
  young    : s.registry.Swept
  redeemed : Each Redeems s.log

namespace Invariant

protected theorem build {start : Nat} : (build window start : Placement ID Room).Invariant window where
  expiry        := rfl
  held          := nofun
  issued _ _ h  := absurd h Outstanding.not_nil
  kept _ _ h    := absurd h Outstanding.not_nil
  swept         := Nat.le_refl _
  young         := nofun
  redeemed      := .nil

-- The counter of the registry makes no difference.
theorem withNext {next : Nat} (h : s.Invariant window) :
    Invariant window { s with registry := { s.registry with next } } :=
  ⟨h.expiry, h.held, h.issued, h.kept, h.swept, h.young, h.redeemed⟩

-- A window which is over stays over.
theorem over_later {held : Held ID Room} (hw : ∃ w, window = some w ∧ w ≤ s.clock - held.issuedAt)
    (hn : s.clock ≤ now) :
    ∃ w, window = some w ∧ w ≤ now - held.issuedAt := by
  obtain ⟨w, hw, hl⟩ := hw
  exact ⟨w, hw, Nat.le_trans hl <| Nat.sub_le_sub_right hn _⟩

protected theorem issueWithAt (h : s.Invariant window) (hn : s.clock ≤ now) : Invariant window {
      registry := s.registry.issueWithAt token player room now
      log      := s.log ++ [.issued token { player, room } now]
      clock    := now
    } where
  expiry := h.expiry
  held token' held hh := by
    rw [MapTicketRegistry.held_issueWithAt] at hh
    rw [Outstanding.issued_iff]
    split at hh
    case isTrue he  => exact if_pos he ▸ (Option.some.inj hh).symm
    case isFalse he => exact if_neg he ▸ h.held token' held (MapTicketRegistry.held_of_sweep hh)
  issued token' held ho := by
    rw [Outstanding.issued_iff] at ho
    split at ho
    case isTrue  => exact ho ▸ Nat.le_refl _
    case isFalse => exact Nat.le_trans (h.issued token' held ho) hn
  kept token' held ho := by
    rw [Outstanding.issued_iff] at ho
    rw [MapTicketRegistry.held_issueWithAt]
    split at ho
    case isTrue he  => exact .inl (if_pos he ▸ ho ▸ rfl)
    case isFalse he =>
      rw [if_neg he]
      cases h.kept token' held ho
      case inl hh => exact h.expiry ▸ MapTicketRegistry.held_sweep hh
      case inr hw => exact .inr (over_later hw hn)
  swept := MapTicketRegistry.lastSwept_sweep_le (Nat.le_trans h.swept hn)
  young w hw token' held hh := by
    rw [MapTicketRegistry.held_issueWithAt] at hh
    split at hh
    case isTrue  => exact .inr (Option.some.inj hh ▸ MapTicketRegistry.lastSwept_sweep_le (Nat.le_trans h.swept hn))
    case isFalse => exact h.young.sweep w hw token' held hh
  redeemed := Each.snoc_iff.mpr ⟨h.redeemed, nofun⟩

-- A ticket which leaves the registry is not outstanding any more.
theorem remove (h : s.Invariant window) (entry : Entry ID Room) (hn : s.clock ≤ now)
    (hi : ∀ token ticket at', entry ≠ .issued token ticket at') (hr : Redeems s.log entry) :
    Invariant window { registry := s.registry.remove entry.token, log := s.log ++ [entry], clock := now } where
  expiry := h.expiry
  held token held hh := by
    rw [MapTicketRegistry.held_remove, ite_eq_iff, or_iff_right nofun] at hh
    exact (Outstanding.other_iff hi).mpr ⟨Ne.symm hh.left, h.held token held hh.right⟩
  issued token held ho := Nat.le_trans (h.issued token held ((Outstanding.other_iff hi).mp ho).right) hn
  kept token held ho := by
    have ⟨he, ho⟩ := (Outstanding.other_iff hi).mp ho
    rw [MapTicketRegistry.held_remove, if_neg (Ne.symm he)]
    exact (h.kept token held ho).imp_right (over_later · hn)
  swept := Nat.le_trans h.swept hn
  young w hw token held hh := by
    rw [MapTicketRegistry.held_remove, ite_eq_iff, or_iff_right nofun] at hh
    exact h.young w hw token held hh.right
  redeemed := Each.snoc_iff.mpr ⟨h.redeemed, hr⟩

theorem later (h : s.Invariant window) (hn : s.clock ≤ now) : Invariant window { s with clock := now } where
  expiry                := h.expiry
  held                  := h.held
  issued token held ho  := Nat.le_trans (h.issued token held ho) hn
  kept token held ho    := (h.kept token held ho).imp_right (over_later · hn)
  swept                 := Nat.le_trans h.swept hn
  young                 := h.young
  redeemed              := h.redeemed

-- A ticket whose window is over leaves the registry without an entry.
theorem expire (h : s.Invariant window) (hh : s.registry.inner.held token = some held)
    (hl : s.registry.lapsed held.issuedAt s.clock) :
    Invariant window { s with registry := s.registry.remove token } where
  expiry := h.expiry
  held token' held' hh' := by
    rw [MapTicketRegistry.held_remove, ite_eq_iff, or_iff_right nofun] at hh'
    exact h.held token' held' hh'.right
  issued := h.issued
  kept token' held' ho := by
    rw [MapTicketRegistry.held_remove]
    split
    case isTrue he =>
      -- What is outstanding for the token is what was removed.
      cases (h.held token held hh).unique (he ▸ ho)
      have ⟨w, hw, hl⟩ := MapTicketRegistry.lapsed_iff.mp hl
      exact .inr ⟨w, h.expiry ▸ hw, hl⟩
    case isFalse => exact h.kept token' held' ho
  swept := h.swept
  young w hw token' held' hh' := by
    rw [MapTicketRegistry.held_remove, ite_eq_iff, or_iff_right nofun] at hh'
    exact h.young w hw token' held' hh'.right
  redeemed := h.redeemed

variable [DecidableEq Room]

protected theorem redeem (h : s.Invariant window) (hn : s.clock ≤ now) :
    (s.apply (.redeem token room now)).Invariant window := by
  have hl := h.later hn
  by_cases hr : ∃ held, s.registry.inner.held token = some held ∧ held.ticket.room = room
  case neg =>
    have : s.registry.redeemAt token room now = (s.registry, none) :=
      MapTicketRegistry.redeemAt_of_room_ne fun held hh he => hr ⟨held, hh, he⟩
    simpa only [apply, this, Option.toList_none, List.map_nil, List.append_nil] using hl
  case pos =>
    have ⟨held, hh, hr⟩ := hr
    simp only [apply, MapTicketRegistry.redeemAt_of_room_eq hh hr]
    split
    case isTrue hw =>
      rw [Option.toList_none, List.map_nil, List.append_nil]
      exact hl.expire hh hw
    case isFalse =>
      refine h.remove (.redeemed token held.ticket) hn nofun fun token' ticket he => ?_
      cases he
      exact ⟨held.issuedAt, h.held token held hh⟩

protected theorem step {e : Event ID Room} (h : s.Invariant window) (hs : machine.step s e = some s') :
    s'.Invariant window := by
  simp only [machine, Option.ite_none_right_eq_some, Option.some.injEq] at hs
  obtain ⟨hn, rfl⟩ := hs
  cases e
  case issue player room now           => exact (h.withNext).issueWithAt (of_decide_eq_true hn)
  case issueWith token player room now => exact h.issueWithAt (of_decide_eq_true hn)
  case redeem token room now           => exact h.redeem (of_decide_eq_true hn)
  case revoke token                    => exact h.remove (.revoked token) (Nat.le_refl _) nofun nofun

end Invariant

variable {es : List (Event ID Room)} {start : Nat}

-- Between two redemptions of a token there was an issue of it, which is what the later one redeemed.
theorem issued_between {before mid after : List (Entry ID Room)} {ticket ticket' : Ticket ID Room}
    (h : Each Redeems s.log)
    (hl : s.log = before ++ .redeemed token ticket :: mid ++ .redeemed token ticket' :: after) :
    ∃ at', .issued token ticket' at' ∈ mid := by
  have ⟨at', ho⟩ := h _ _ _ hl token ticket' rfl
  cases Latest.mem_after ho rfl
  case inl he => cases he
  case inr hm => exact ⟨at', hm⟩

variable [DecidableEq Room]

-- Whichever way a ticket is issued, the registry sweeps and then holds it.
theorem held_of_issued {e : Event ID Room} {at' : Nat} (hs : machine.step s e = some s')
    (hl : s'.log = s.log ++ [.issued token ticket at']) : s.clock ≤ at' ∧ ∀ token',
      s'.registry.inner.held token' =
        if token' = token then some ⟨ticket, at'⟩ else (s.registry.sweep at').held token' := by
  simp only [machine, Option.ite_none_right_eq_some, Option.some.injEq] at hs
  obtain ⟨hn, rfl⟩ := hs
  cases e
  case issue player room now =>
    cases List.append_cancel_left hl
    exact ⟨of_decide_eq_true hn, fun _ => MapTicketRegistry.held_issueWithAt⟩
  case issueWith token player room now =>
    cases List.append_cancel_left hl
    exact ⟨of_decide_eq_true hn, fun _ => MapTicketRegistry.held_issueWithAt⟩
  case redeem token room now =>
    have ⟨_, _, he⟩ := List.mem_map.mp <| List.append_cancel_left hl ▸ List.mem_singleton_self _
    cases he
  case revoke token => cases List.append_cancel_left hl

-- A ticket is spent once and only at its own door, and the registry does not fill up with old ones.
theorem spent_once (h : machine.Steps (build window start) es s) :
    (∀ token room now ticket, s.clock ≤ now →
      ((s.registry.redeemAt token room now).snd = some ticket ↔ ticket.room = room ∧
        ∃ at', Outstanding s.log token ⟨ticket, at'⟩ ∧ ∀ w, window = some w → now - at' < w)) ∧
    (∀ token room now held, Outstanding s.log token held → held.ticket.room ≠ room →
      s.registry.redeemAt token room now = (s.registry, none)) ∧
    (∀ before mid after token ticket ticket',
      s.log = before ++ .redeemed token ticket :: mid ++ .redeemed token ticket' :: after →
        ∃ at', .issued token ticket' at' ∈ mid) ∧
    ∀ w, window = some w → ∀ e s' token ticket at', machine.step s e = some s' →
      s'.log = s.log ++ [.issued token ticket at'] → ∀ token' held, s'.registry.inner.held token' = some held →
        at' - held.issuedAt < 2 * w ∨ token' = token ∧ w = 0 := by
  have hi := h.preserves Invariant.step .build
  refine ⟨fun token room now ticket hn => ?_, fun token room now held ho hr => ?_,
    fun before mid after token ticket ticket' => issued_between hi.redeemed,
    fun w hw e s' token ticket at' hs hl token' held hh => ?_⟩
  case refine_1 =>
    rw [MapTicketRegistry.redeemAt_eq_some_iff]
    constructor
    case mp =>
      intro ⟨held, hh, ht, hr, hl⟩
      rw [MapTicketRegistry.lapsed_eq_false_iff, hi.expiry] at hl
      exact ⟨hr, held.issuedAt, ht ▸ hi.held token held hh, hl⟩
    case mpr =>
      intro ⟨hr, at', ho, hl⟩
      cases hi.kept token _ ho
      case inl hh =>
        refine ⟨_, hh, rfl, hr, ?_⟩
        rwa [MapTicketRegistry.lapsed_eq_false_iff, hi.expiry]
      case inr hw =>
        have ⟨w, hw, hw'⟩ := hw
        have := hl w hw
        dsimp only at hw'
        omega
  case refine_2 =>
    refine MapTicketRegistry.redeemAt_of_room_ne fun held' hh => ?_
    exact (hi.held token held' hh).unique ho ▸ hr
  case refine_3 =>
    have ⟨hn, hh'⟩ := held_of_issued hs hl
    rw [hh'] at hh
    split at hh
    case isTrue he =>
      cases hh
      rw [Nat.sub_self]
      cases w
      case zero   => exact .inr ⟨he, rfl⟩
      case succ w => exact .inl (by omega)
    case isFalse => exact .inl (hi.young.young (Nat.le_trans hi.swept hn) (hi.expiry.trans hw) hh)

theorem spent_once_reissued :
    ∃ s : Placement Nat Nat, machine.Steps (build (some 10) 0)
      [.issue 1 7 0, .redeem "t0" 8 1, .redeem "t0" 7 2, .issueWith "t0" 2 8 3] s ∧
      (s.registry.redeemAt "t0" 8 12).snd = some ⟨2, 8⟩ ∧
      (∀ token room now ticket, s.clock ≤ now →
        ((s.registry.redeemAt token room now).snd = some ticket ↔ ticket.room = room ∧
          ∃ at', Outstanding s.log token ⟨ticket, at'⟩ ∧ ∀ w, some 10 = some w → now - at' < w)) ∧
      (∀ token room now held, Outstanding s.log token held → held.ticket.room ≠ room →
        s.registry.redeemAt token room now = (s.registry, none)) ∧
      (∀ before mid after token ticket ticket',
        s.log = before ++ .redeemed token ticket :: mid ++ .redeemed token ticket' :: after →
          ∃ at', .issued token ticket' at' ∈ mid) ∧
      ∀ w, some 10 = some w → ∀ e s' token ticket at', machine.step s e = some s' →
        s'.log = s.log ++ [.issued token ticket at'] → ∀ token' held, s'.registry.inner.held token' = some held →
          at' - held.issuedAt < 2 * w ∨ token' = token ∧ w = 0 :=
  have h := .step rfl <| .step rfl <| .step rfl <| .step rfl .refl
  ⟨_, h, rfl, spent_once h⟩

-- With an empty window, the ticket just issued is not younger than two windows.
theorem issued_not_young : ¬∀ window start (es : List (Event Nat Nat)) s s' e token ticket at',
    machine.Steps (build (some window) start) es s → machine.step s e = some s' →
      s'.log = s.log ++ [.issued token ticket at'] → ∀ token' held, s'.registry.inner.held token' = some held →
        at' - held.issuedAt < 2 * window := by
  intro h
  exact Nat.lt_irrefl 0 <| h 0 0 [] _ _ (.issueWith "a" 1 1 0) "a" ⟨1, 1⟩ 0 .refl rfl rfl "a" ⟨⟨1, 1⟩, 0⟩ rfl

end Placement
end Plaza.Lobby
