import Plaza.Protocols.Presence
import Plaza.Session.Theorems.Registry

open Plaza.Core
open Plaza.Session

namespace Plaza.Protocols.Presence

variable {ID : Type} {s s' : State ID} {e : Event ID} {es : List (Event ID)}
variable {event : PresenceEvent ID} {agent : Agent ID} {connId connId' : Nat} {mayWait : Bool}

namespace State

-- Either the channel takes the event, or the event is dropped.
theorem announce_cases (h : s.announce event mayWait = some s') :
    (s.hasRoom = true ∧ s' = { s with stream := s.stream ++ [event] }) ∨
    (s.hasRoom = false ∧ s' = { s with dropped := s.dropped + 1 }) := by
  rw [announce] at h
  split at h
  case isTrue hr  => cases h; exact .inl ⟨hr, rfl⟩
  case isFalse hr =>
    split at h
    case isTrue  => cases h
    case isFalse => cases h; exact .inr ⟨by simpa using hr, rfl⟩

theorem not_given_next : ¬s.Given s.nextConnId :=
  fun h => Nat.lt_irrefl _ h.right

theorem countP_snoc {p : PresenceEvent ID → Bool} :
    (s.stream ++ [event]).countP p = s.stream.countP p + if p event then 1 else 0 := by
  rw [List.countP_append, List.countP_singleton]

variable [DecidableEq ID]

theorem get_insert : (s.insert agent).registry.get connId =
    if connId = s.nextConnId then some { agent, state := () } else s.registry.get connId :=
  Registry.lookup_byConn_insert

theorem get_remove : (s.remove connId mayWait).registry.get connId' =
    if connId' = connId then none else s.registry.get connId' :=
  Registry.lookup_byConn_remove

theorem leaving_remove : (s.remove connId mayWait).leaving =
    s.leaving ++ (((s.registry.get connId).bind (·.agent.id)).map ({ connId, agentId := ·, mayWait })).toList := by
  rw [remove, Registry.remove]
  cases h : s.registry.byConn.lookup connId <;> simp [Registry.get, h]

theorem mem_joining_insert :
    connId ∈ (s.insert agent).joining.map Prod.fst ↔ connId ∈ s.joining.map Prod.fst ∨ connId = s.nextConnId := by
  simp [insert]

omit [DecidableEq ID] in
theorem mem_leaving_filter : connId' ∈ (s.leaving.filter (·.connId ≠ connId)).map Departure.connId ↔
    connId' ∈ s.leaving.map Departure.connId ∧ connId' ≠ connId := by
  simp only [List.mem_map, List.mem_filter, decide_eq_true_eq]
  constructor
  case mp =>
    rintro ⟨departure, ⟨hm, hn⟩, rfl⟩
    exact ⟨⟨departure, hm, rfl⟩, hn⟩
  case mpr =>
    rintro ⟨⟨departure, hm, rfl⟩, hn⟩
    exact ⟨departure, ⟨hm, hn⟩, rfl⟩

-- A connection is in the registry, then its departure is pending, then in the stream.
structure Invariant (s : State ID) : Prop where
  next    : 1 ≤ s.nextConnId
  live    : ∀ connId, (s.registry.get connId).isSome → s.Given connId ∧
    connId ∉ s.leaving.map Departure.connId ∧ s.stream.countP (leaves connId) = 0
  leaving : ∀ connId ∈ s.leaving.map Departure.connId, s.Given connId ∧ s.stream.countP (leaves connId) = 0
  left    : ∀ connId, s.stream.countP (leaves connId) ≤ 1
  joining : ∀ connId ∈ s.joining.map Prod.fst, s.Given connId
  joined  : s.dropped = 0 → ∀ connId, s.Given connId →
    s.stream.countP (joins connId) = if connId ∈ s.joining.map Prod.fst then 0 else 1
  unused  : ∀ connId, ¬s.Given connId →
    s.stream.countP (joins connId) = 0 ∧ s.stream.countP (leaves connId) = 0

omit [DecidableEq ID] in
theorem Invariant.start {config : Config} : (start config : State ID).Invariant where
  next             := Nat.le_refl _
  live             := by simp [State.start, Registry.get, Registry.new]
  leaving          := nofun
  left _           := Nat.zero_le _
  joining          := nofun
  joined _ _ hg    := absurd hg.right (Nat.not_lt.mpr hg.left)
  unused _ _       := ⟨rfl, rfl⟩

theorem Invariant.given_insert (h : s.Invariant) :
    (s.insert agent).Given connId ↔ s.Given connId ∨ connId = s.nextConnId := by
  have := h.next
  simp only [Given, State.insert]
  omega

theorem Invariant.insert (h : s.Invariant) : (s.insert agent).Invariant where
  next := Nat.le_succ_of_le h.next
  live c hc := by
    rw [get_insert] at hc
    split at hc
    case isTrue he =>
      refine ⟨h.given_insert.mpr (.inr he), fun hm => ?_, ?_⟩
      case refine_1 => exact not_given_next (he ▸ (h.leaving c hm).left)
      case refine_2 => exact (h.unused c (he ▸ not_given_next)).right
    case isFalse =>
      have ⟨hg, hl⟩ := h.live c hc
      exact ⟨h.given_insert.mpr (.inl hg), hl⟩
  leaving c hc := (h.leaving c hc).imp_left fun hg => h.given_insert.mpr (.inl hg)
  left         := h.left
  joining c hc := h.given_insert.mpr <| (mem_joining_insert.mp hc).imp_left (h.joining c)
  joined hd c hg := by
    cases h.given_insert.mp hg
    case inl hg =>
      have hn : c ≠ s.nextConnId := fun he => not_given_next (he ▸ hg)
      simp only [mem_joining_insert, hn, or_false]
      exact h.joined hd c hg
    case inr he =>
      rw [if_pos (mem_joining_insert.mpr (.inr he))]
      exact he ▸ (h.unused _ not_given_next).left
  unused c hg := h.unused c fun h' => hg (h.given_insert.mpr (.inl h'))

-- The departure of a removed connection is pending, as far as its agent has an id.
theorem mem_leaving_remove : connId' ∈ (s.remove connId mayWait).leaving.map Departure.connId ↔
    connId' ∈ s.leaving.map Departure.connId ∨
    connId' = connId ∧ (s.registry.get connId).any (·.agent.id.isSome) := by
  rw [leaving_remove]
  cases hg : s.registry.get connId
  case none        => simp
  case some handle => cases hi : handle.agent.id <;> simp [hi, eq_comm]

theorem Invariant.remove (h : s.Invariant) : (s.remove connId mayWait).Invariant where
  next := h.next
  live c hc := by
    rw [get_remove] at hc
    split at hc
    case isTrue => cases hc
    case isFalse hn =>
      have ⟨hg, hl, hs⟩ := h.live c hc
      refine ⟨hg, fun hm => ?_, hs⟩
      cases mem_leaving_remove.mp hm
      case inl hm => exact hl hm
      case inr hm => exact hn hm.left
  leaving c hc := by
    cases mem_leaving_remove.mp hc
    case inl hm => exact h.leaving c hm
    case inr hm =>
      obtain ⟨rfl, hi⟩ := hm
      have ⟨handle, hg, _⟩ := (Option.any_eq_true ..).mp hi
      have ⟨hg, _, hs⟩ := h.live c (Option.isSome_of_eq_some hg)
      exact ⟨hg, hs⟩
  left    := h.left
  joining := h.joining
  joined  := h.joined
  unused  := h.unused

omit [DecidableEq ID] in
-- Once an arrival was announced, or dropped, it is not pending any more.
theorem Invariant.announceJoined {running : List Nat} (h : s.Invariant) (hm : connId ∈ s.joining.map Prod.fst)
    (ha : s.announce (.joined agent connId) mayWait = some s') :
    Invariant { s' with joining := s'.joining.filter (·.fst ≠ connId), running } := by
  have hj c : c ∈ (s.joining.filter (·.fst ≠ connId)).map Prod.fst ↔ c ∈ s.joining.map Prod.fst ∧ c ≠ connId := by
    simp
  rcases announce_cases ha with ⟨_, rfl⟩ | ⟨_, rfl⟩
  case inl =>
    have hl c : (s.stream ++ [PresenceEvent.joined agent connId]).countP (leaves c) = s.stream.countP (leaves c) :=
      countP_snoc
    have hc c : (s.stream ++ [PresenceEvent.joined agent connId]).countP (joins c) =
        s.stream.countP (joins c) + if connId = c then 1 else 0 := by
      rw [countP_snoc]
      simp [joins]
    refine ⟨h.next, fun c hs => ?_, fun c hs => ?_, fun c => ?_, fun c hs => ?_, fun hd c hg => ?_, fun c hg => ?_⟩
    case refine_1 => exact (hl c).symm ▸ h.live c hs
    case refine_2 => exact (hl c).symm ▸ h.leaving c hs
    case refine_3 => exact (hl c).symm ▸ h.left c
    case refine_4 => exact h.joining c ((hj c).mp hs).left
    case refine_5 =>
      have := h.joined hd c hg
      simp only [hc, hj, this]
      by_cases he : connId = c
      case pos =>
        subst he
        rw [if_pos hm, if_pos rfl, if_neg fun h => h.right rfl]
      case neg => simp only [if_neg he, Nat.add_zero, ne_eq, Ne.symm he, not_false_eq_true, and_true]
    case refine_6 =>
      have ⟨hu, hu'⟩ := h.unused c hg
      have he : connId ≠ c := fun he => hg (he ▸ h.joining connId hm)
      exact ⟨by rw [hc, hu, if_neg he], (hl c).trans hu'⟩
  case inr =>
    exact ⟨h.next, h.live, h.leaving, h.left, fun c hs => h.joining c ((hj c).mp hs).left, nofun, h.unused⟩

omit [DecidableEq ID] in
-- Once a departure was announced, or dropped, it is not pending any more.
theorem Invariant.announceLeft {agentId : ID} (h : s.Invariant) (hm : connId ∈ s.leaving.map Departure.connId)
    (ha : s.announce (.left agentId connId) mayWait = some s') :
    Invariant { s' with leaving := s'.leaving.filter (·.connId ≠ connId) } := by
  have hj c : c ∈ (s.leaving.filter (·.connId ≠ connId)).map Departure.connId ↔
      c ∈ s.leaving.map Departure.connId ∧ c ≠ connId := mem_leaving_filter
  rcases announce_cases ha with ⟨_, rfl⟩ | ⟨_, rfl⟩
  case inl =>
    have hl c : (s.stream ++ [PresenceEvent.left agentId connId]).countP (joins c) = s.stream.countP (joins c) :=
      countP_snoc
    have hc c : (s.stream ++ [PresenceEvent.left agentId connId]).countP (leaves c) =
        s.stream.countP (leaves c) + if connId = c then 1 else 0 := by
      rw [countP_snoc]
      simp [leaves]
    have ⟨hg, h0⟩ := h.leaving connId hm
    refine ⟨h.next, fun c hs => ?_, fun c hs => ?_, fun c => ?_, h.joining, fun hd c hg => ?_, fun c hg => ?_⟩
    case refine_1 =>
      have ⟨hg, hn, h0⟩ := h.live c hs
      have he : connId ≠ c := fun he => hn (he ▸ hm)
      exact ⟨hg, fun hm => hn ((hj c).mp hm).left, by rw [hc, h0, if_neg he]⟩
    case refine_2 =>
      have ⟨hm, he⟩ := (hj c).mp hs
      have ⟨hg, h0⟩ := h.leaving c hm
      exact ⟨hg, by rw [hc, h0, if_neg (Ne.symm he)]⟩
    case refine_3 =>
      rw [hc]
      split
      case isTrue he => rw [←he, h0]
      case isFalse   => exact h.left c
    case refine_4 => exact (hl c).trans (h.joined hd c hg)
    case refine_5 =>
      have ⟨hu, hu'⟩ := h.unused c hg
      have he : connId ≠ c := fun he => hg (he ▸ (h.leaving connId hm).left)
      exact ⟨(hl c).trans hu, by rw [hc, hu', if_neg he]⟩
  case inr =>
    refine ⟨h.next, fun c hs => ?_, fun c hs => h.leaving c ((hj c).mp hs).left, h.left, h.joining, nofun, h.unused⟩
    exact (h.live c hs).imp_right fun hl => hl.imp_left fun hn hm => hn ((hj c).mp hm).left

theorem stays_insert (hs : connId ≠ s.nextConnId) : (s.insert agent).Stays connId ↔ s.Stays connId := by
  rw [Stays, get_insert, if_neg hs]
  rfl

theorem stays_remove (hs : connId' ≠ connId) : (s.remove connId mayWait).Stays connId' ↔ s.Stays connId' := by
  simp only [Stays, get_remove, hs, if_false, mem_leaving_remove, false_and, or_false]

-- A removed connection stays until its departure is announced, for which its agent needs an id.
theorem stays_remove_self : (s.remove connId mayWait).Stays connId ↔
    connId ∈ s.leaving.map Departure.connId ∨ (s.registry.get connId).any (·.agent.id.isSome) := by
  rw [Stays, get_remove, if_pos rfl, mem_leaving_remove]
  simp

theorem announces_insert (h : s.Invariant) (ha : s.Announces) : (s.insert agent).Announces := by
  intro hd
  have ho := ha hd
  refine ⟨h.insert.joined hd, fun c hg => ?_, ho.order⟩
  cases h.given_insert.mp hg
  case inl hg =>
    have hn : c ≠ s.nextConnId := fun he => not_given_next (he ▸ hg)
    simp only [stays_insert hn]
    exact ho.left c hg
  case inr he =>
    have hst : (s.insert agent).Stays c := .inl (by rw [get_insert, if_pos he]; rfl)
    rw [if_pos hst]
    exact (h.unused c (he ▸ not_given_next)).right

-- A removal is announced exactly if the agent has an id.
theorem announces_remove_iff (h : s.Invariant) (ha : s.Announces) : (s.remove connId mayWait).Announces ↔
    (s.dropped = 0 → (s.registry.get connId).all (·.agent.id.isSome)) := by
  constructor
  case mp =>
    intro ha' hd
    cases hg : s.registry.get connId
    case none        => rfl
    case some handle =>
      have ⟨hgiven, hn, h0⟩ := h.live connId (Option.isSome_of_eq_some hg)
      have hl := (ha' hd).left connId hgiven
      simp only [stays_remove_self, hg, hn, false_or, Option.any_some] at hl
      by_contra hi
      rw [Option.all_some] at hi
      rw [if_neg hi] at hl
      exact absurd (h0.symm.trans hl) nofun
  case mpr =>
    intro hi hd
    have ho := ha hd
    refine ⟨ho.joined, fun c hg => ?_, ho.order⟩
    by_cases he : c = connId
    case neg =>
      simp only [stays_remove he]
      exact ho.left c hg
    case pos =>
      subst he
      have hi := hi hd
      simp only [stays_remove_self]
      cases hc : s.registry.get c
      case none =>
        have hl := ho.left c hg
        simp only [Stays, hc, Option.isSome_none, Bool.false_eq_true, false_or] at hl
        simp only [Option.any_none, Bool.false_eq_true, or_false]
        exact hl
      case some handle =>
        rw [hc] at hi
        rw [if_pos (.inr hi)]
        exact (h.live c (Option.isSome_of_eq_some hc)).right.right

omit [DecidableEq ID] in
theorem announces_announceJoined {running : List Nat} (h : s.Invariant) (ha : s.Announces)
    (hm : connId ∈ s.joining.map Prod.fst) (hs : s.announce (.joined agent connId) mayWait = some s') :
    Announces { s' with joining := s'.joining.filter (·.fst ≠ connId), running } := by
  have hi : Invariant { s' with joining := s'.joining.filter (·.fst ≠ connId), running } := h.announceJoined hm hs
  have hj := hi.joined
  rcases announce_cases hs with ⟨_, rfl⟩ | ⟨_, rfl⟩
  case inl =>
    intro hd
    have ho := ha hd
    refine ⟨hj hd, fun c hg => ?_, fun c => ?_⟩
    case refine_1 => exact (countP_snoc.trans (Nat.add_zero _)).trans (ho.left c hg)
    case refine_2 => exact Trace.Preceded.snoc_iff.mpr ⟨ho.order c, nofun⟩
  case inr => exact nofun

omit [DecidableEq ID] in
theorem Invariant.stays_announceLeft {stream : List (PresenceEvent ID)} (h : s.Invariant)
    (hm : connId ∈ s.leaving.map Departure.connId) :
    Stays { s with stream, leaving := s.leaving.filter (·.connId ≠ connId) } connId' ↔
      s.Stays connId' ∧ connId' ≠ connId := by
  have hl : connId' ∈ (s.leaving.filter (·.connId ≠ connId)).map Departure.connId ↔
      connId' ∈ s.leaving.map Departure.connId ∧ connId' ≠ connId := mem_leaving_filter
  have hr (hr : (s.registry.get connId').isSome) : connId' ≠ connId :=
    fun he => (h.live connId' hr).right.left (he ▸ hm)
  simp only [Stays, hl]
  tauto

omit [DecidableEq ID] in
-- A departure comes in order exactly if the arrival is not pending.
theorem announces_announceLeft_iff {agentId : ID} (h : s.Invariant) (ha : s.Announces)
    (hm : connId ∈ s.leaving.map Departure.connId) (hs : s.announce (.left agentId connId) mayWait = some s') :
    Announces { s' with leaving := s'.leaving.filter (·.connId ≠ connId) } ↔
      (s.dropped = 0 → s.hasRoom → connId ∉ s.joining.map Prod.fst) := by
  have hj := (h.announceLeft hm hs).joined
  have ⟨hg, h0⟩ := h.leaving connId hm
  rcases announce_cases hs with ⟨hr, rfl⟩ | ⟨hr, rfl⟩
  case inr => simp [Announces, hr]
  case inl =>
    have hp (hd : s.dropped = 0) : connId ∉ s.joining.map Prod.fst ↔ ∃ e ∈ s.stream, joins connId e := by
      rw [←List.countP_pos_iff, h.joined hd connId hg]
      split <;> simp [*]
    constructor
    case mp =>
      intro ha' hd _
      exact (hp hd).mpr <| (Trace.Preceded.snoc_iff.mp ((ha' hd).order connId)).right (by simp [leaves])
    case mpr =>
      intro ht hd
      have ho := ha hd
      refine ⟨hj hd, fun c hg => ?_, fun c => Trace.Preceded.snoc_iff.mpr ⟨ho.order c, fun hl => ?_⟩⟩
      case refine_1 =>
        have hl : (s.stream ++ [PresenceEvent.left agentId connId]).countP (leaves c) =
            s.stream.countP (leaves c) + if connId = c then 1 else 0 := by
          rw [countP_snoc]
          simp [leaves]
        have hs := @h.stays_announceLeft _ _ _ c (s.stream ++ [.left agentId connId]) hm
        simp only [hl, ho.left c hg]
        by_cases he : connId = c
        case pos =>
          subst he
          have hst : s.Stays connId := .inr hm
          rw [if_pos hst, if_pos rfl, if_neg fun hn => (hs.mp hn).right rfl]
        case neg => simp only [hs, he, Ne.symm he, ne_eq, not_false_eq_true, and_true, if_false, Nat.add_zero]
      case refine_2 =>
        have he : connId = c := by simpa [leaves] using hl
        exact he ▸ (hp hd).mp (ht hd hr)

end State

open State

variable [DecidableEq ID]

theorem step_announceJoined (h : machine.step s (.announceJoined connId) = some s') :
    ∃ agent s₁, connId ∈ s.joining.map Prod.fst ∧ s.announce (.joined agent connId) true = some s₁ ∧
      s' = { s₁ with joining := s₁.joining.filter (·.fst ≠ connId), running := s₁.running ++ [connId] } := by
  simp only [machine, Option.pure_def, Option.bind_eq_bind, Option.bind_eq_some_iff, Option.some.injEq] at h
  obtain ⟨⟨c, agent⟩, hf, s₁, ha, rfl⟩ := h
  have hc : c = connId := by simpa using List.find?_some hf
  exact ⟨agent, s₁, hc ▸ List.mem_map_of_mem (List.mem_of_find?_eq_some hf), ha, rfl⟩

theorem step_announceLeft (h : machine.step s (.announceLeft connId) = some s') :
    ∃ agentId mayWait s₁, connId ∈ s.leaving.map Departure.connId ∧
      s.announce (.left agentId connId) mayWait = some s₁ ∧
      s' = { s₁ with leaving := s₁.leaving.filter (·.connId ≠ connId) } := by
  simp only [machine, Option.pure_def, Option.bind_eq_bind, Option.bind_eq_some_iff, Option.some.injEq] at h
  obtain ⟨departure, hf, s₁, ha, rfl⟩ := h
  have hc : departure.connId = connId := by simpa using List.find?_some hf
  exact ⟨_, _, s₁, hc ▸ List.mem_map_of_mem (List.mem_of_find?_eq_some hf), ha, rfl⟩

theorem State.Invariant.step (h : s.Invariant) (hs : machine.step s e = some s') : s'.Invariant := by
  cases e
  case register agent => cases hs; exact h.insert
  case announceJoined =>
    obtain ⟨_, _, hm, ha, rfl⟩ := step_announceJoined hs
    exact h.announceJoined hm ha
  case broadcast => cases hs; exact ⟨h.next, h.live, h.leaving, h.left, h.joining, h.joined, h.unused⟩
  case recv =>
    cases (Option.ite_none_right_eq_some.mp hs).right
    exact ⟨h.next, h.live, h.leaving, h.left, h.joining, h.joined, h.unused⟩
  case disconnect =>
    cases (Option.ite_none_right_eq_some.mp hs).right
    exact Invariant.remove ⟨h.next, h.live, h.leaving, h.left, h.joining, h.joined, h.unused⟩
  case deregister =>
    cases (Option.ite_none_right_eq_some.mp hs).right
    exact Invariant.remove ⟨h.next, h.live, h.leaving, h.left, h.joining, h.joined, h.unused⟩
  case announceLeft =>
    obtain ⟨_, _, _, hm, ha, rfl⟩ := step_announceLeft hs
    exact h.announceLeft hm ha
  case read =>
    cases (Option.ite_none_right_eq_some.mp hs).right
    exact ⟨h.next, h.live, h.leaving, h.left, h.joining, h.joined, h.unused⟩

-- Only a departure which overtakes its arrival, or has no id to be announced under, breaks the order.
theorem announces_step_iff (h : s.Invariant) (ha : s.Announces) (hs : machine.step s e = some s') :
    s'.Announces ↔ s.Timely e := by
  have he {outbound : Nat → Nat} {running : List Nat} {reported : Multiset Nat} {n : Nat} :
      Announces { s with outbound, running, reported, read := n } :=
    fun hd => ⟨(ha hd).joined, (ha hd).left, (ha hd).order⟩
  cases e
  case register       => cases hs; exact iff_of_true (announces_insert h ha) trivial
  case announceJoined =>
    obtain ⟨_, _, hm, hn, rfl⟩ := step_announceJoined hs
    exact iff_of_true (announces_announceJoined h ha hm hn) trivial
  case broadcast      => cases hs; exact iff_of_true he trivial
  case recv           =>
    cases (Option.ite_none_right_eq_some.mp hs).right
    exact iff_of_true he trivial
  case disconnect connId =>
    cases (Option.ite_none_right_eq_some.mp hs).right
    exact announces_remove_iff ⟨h.next, h.live, h.leaving, h.left, h.joining, h.joined, h.unused⟩ he
  case deregister     =>
    cases (Option.ite_none_right_eq_some.mp hs).right
    exact announces_remove_iff ⟨h.next, h.live, h.leaving, h.left, h.joining, h.joined, h.unused⟩ he
  case announceLeft   =>
    obtain ⟨_, _, _, hm, hn, rfl⟩ := step_announceLeft hs
    exact announces_announceLeft_iff h ha hm hn
  case read           =>
    cases (Option.ite_none_right_eq_some.mp hs).right
    exact iff_of_true he trivial

omit [DecidableEq ID] in
theorem announces_start {config : Config} : (start config : State ID).Announces :=
  fun _ => ⟨fun _ hg => absurd hg.right (Nat.not_lt.mpr hg.left), fun _ hg => absurd hg.right (Nat.not_lt.mpr hg.left),
    fun _ => .nil⟩

-- Throughout an execution every connection arrives once and before it departs, and departs once, exactly if
-- no step announces a departure ahead of its arrival, or removes a connection whose agent has no id.
theorem announces_iff {config : Config} (h : machine.Steps (start config) es s) :
    machine.Always Announces (start config) es ↔ (machine.restrict Timely).Steps (start config) es s :=
  h.always_iff .step announces_step_iff .start announces_start

-- A single frame fits a connection's queue.
def cramped : Config where
  overflow := .backpressure
  presence := 4
  outbound := 1
  hello    := false

theorem announces_iff_cramped : machine.Always Announces (start cramped : State Nat) [.register (.human 7),
    .announceJoined 1, .broadcast .all, .broadcast .all, .disconnect 1, .announceLeft 1, .deregister 1] := by
  have hr : ((machine.restrict Timely).run (start cramped : State Nat) [.register (.human 7), .announceJoined 1,
    .broadcast .all, .broadcast .all, .disconnect 1, .announceLeft 1, .deregister 1]).isSome := by decide +kernel
  have ⟨s, hs⟩ := Option.isSome_iff_exists.mp hr
  have hs := Machine.run_eq_some_iff.mp hs
  exact (announces_iff hs.of_restrict).mpr hs

-- Two broadcasts between the steps of a registration have the departure announced ahead of the arrival.
theorem left_ahead_of_joined : ¬∀ config es (s : State Nat),
    machine.Steps (start config) es s → machine.Always Announces (start config) es := by
  intro h
  have hr : (machine.run (start cramped : State Nat) [.register (.human 7), .broadcast .all, .broadcast .all,
    .disconnect 1, .announceLeft 1, .announceJoined 1]).any fun s =>
      s.dropped = 0 ∧ s.stream = [.left 7 1, .joined (.human 7) 1] := by decide +kernel
  have ⟨s, hs, he⟩ := (Option.any_eq_true ..).mp hr
  have ⟨hd, hl⟩ := of_decide_eq_true he
  have hs := Machine.run_eq_some_iff.mp hs
  have ho := (hs.last (h _ _ _ hs) hd).order 1
  have ⟨_, hm, _⟩ := ho [] (.left 7 1) [.joined (.human 7) 1] hl rfl
  exact nomatch hm

end Plaza.Protocols.Presence
