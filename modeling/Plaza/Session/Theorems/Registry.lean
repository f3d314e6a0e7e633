import Plaza.Session.Registry

namespace Plaza.Session

open Plaza.Core

variable {ID State : Type} [DecidableEq ID]

-- What the operations of a registry do to its two maps.
namespace Registry

variable {r : Registry ID State} {connId connId' : Nat} {handle : ClientHandle ID State} {id : ID}

theorem lookup_byConn_insert : (r.insert connId handle).byConn.lookup connId' =
    if connId' = connId then some handle else r.byConn.lookup connId' := by
  split
  case isTrue h  => exact h ▸ Finmap.lookup_insert _
  case isFalse h => exact Finmap.lookup_insert_of_ne _ h

theorem lookup_byAgent_insert : (r.insert connId handle).byAgent.lookup id =
    if handle.agent.id = some id then some ((r.byAgent.lookup id).getD [] ++ [connId])
    else r.byAgent.lookup id := by
  simp only [insert]
  split
  case h_1 id' h =>
    by_cases he : id' = id
    case pos => rw [he, Finmap.lookup_insert, h, he, if_pos rfl]
    case neg => rw [Finmap.lookup_insert_of_ne _ (Ne.symm he), h, if_neg (by simpa using he)]
  case h_2 h => rw [h, if_neg nofun]

theorem remove_eq_none (h : r.byConn.lookup connId = none) : r.remove connId = (r, none) := by
  rw [remove, h]

theorem lookup_byConn_remove : (r.remove connId).fst.byConn.lookup connId' =
    if connId' = connId then none else r.byConn.lookup connId' := by
  cases h : r.byConn.lookup connId
  case none =>
    rw [remove_eq_none h]
    split
    case isTrue he => exact he ▸ h
    case isFalse   => rfl
  case some =>
    rw [remove, h]
    dsimp only
    split
    case isTrue he  => exact he ▸ Finmap.lookup_erase ..
    case isFalse he => exact Finmap.lookup_erase_ne he

-- The entry for a list in an index which has no empty ones.
def entry (conns : List Nat) : Option (List Nat) :=
  if conns = [] then none else some conns

theorem getD_entry {conns : List Nat} : (entry conns).getD [] = conns := by
  cases conns <;> rfl

theorem bind_entry {conns : List Nat} {p : Nat → Bool} :
    (entry conns).bind (fun conns => entry (conns.filter p)) = entry (conns.filter p) := by
  cases conns <;> rfl

theorem lookup_byAgent_remove (h : r.byConn.lookup connId = some handle) :
    (r.remove connId).fst.byAgent.lookup id =
      if handle.agent.id = some id then
        (r.byAgent.lookup id).bind fun conns => entry (conns.filter (· ≠ connId))
      else
        r.byAgent.lookup id := by
  rw [remove, h]
  simp only [unindex]
  split
  case h_1 hi      => rw [hi, if_neg nofun]
  case h_2 id' hi  =>
    rw [hi]
    by_cases he : id' = id
    case pos =>
      subst he
      rw [if_pos rfl]
      split
      case h_1 hn       => rw [hn]; rfl
      case h_2 conns hn =>
        rw [hn, Option.bind_some, entry]
        split
        case isTrue hc  => rw [Finmap.lookup_erase, if_pos (List.isEmpty_iff.mp hc)]
        case isFalse hc => rw [Finmap.lookup_insert, if_neg fun he => hc (List.isEmpty_iff.mpr he)]
    case neg =>
      rw [if_neg (by simpa using he)]
      split
      case h_1 => rfl
      case h_2 =>
        split
        case isTrue  => exact Finmap.lookup_erase_ne (Ne.symm he)
        case isFalse => exact Finmap.lookup_insert_of_ne _ (Ne.symm he)

end Registry

namespace Registration

variable {s s' : Registration ID State} {es : List (Event ID State)} {connId : Nat} {id : ID}
variable {handle : ClientHandle ID State}

-- The two maps of a registry say the same, which is what is live.
structure Represents (s : Registration ID State) : Prop where
  distinct : (s.live.map Prod.fst).Nodup
  byConn   : ∀ connId handle, s.registry.byConn.lookup connId = some handle ↔ (connId, handle) ∈ s.live
  byAgent  : ∀ id, s.registry.byAgent.lookup id = Registry.entry (s.conns id)

namespace Represents

protected theorem new : (new : Registration ID State).Represents where
  distinct    := .nil
  byConn _ _  := by simp [Registration.new, Registry.new]
  byAgent _   := by simp [Registration.new, Registry.new, conns, Registry.entry]

theorem mem_conns_iff (h : s.Represents) : connId ∈ s.conns id ↔
    ∃ handle, s.registry.byConn.lookup connId = some handle ∧ handle.agent.id = some id := by
  simp [conns, h.byConn]

protected theorem insert (h : s.Represents) (hs : machine.step s (.insert connId handle) = some s') :
    s'.Represents := by
  simp only [machine, Option.ite_none_left_eq_some, Option.some.injEq] at hs
  obtain ⟨hc, rfl⟩ := hs
  refine ⟨?_, fun connId' handle' => ?_, fun id => ?_⟩
  case refine_1 =>
    rw [List.map_append, List.map_singleton, ←List.concat_eq_append, List.nodup_concat]
    exact ⟨hc, h.distinct⟩
  case refine_2 =>
    rw [Registry.lookup_byConn_insert, List.mem_append, ←h.byConn, List.mem_singleton, Prod.mk.injEq]
    split
    case isTrue he =>
      subst he
      have hn : s.registry.byConn.lookup connId' ≠ some handle' := fun hl =>
        hc <| List.mem_map_of_mem (f := Prod.fst) ((h.byConn ..).mp hl)
      rw [or_iff_right hn, Option.some.injEq, and_iff_right rfl, eq_comm]
    case isFalse he => simp [he]
  case refine_3 =>
    have hc : conns { registry := s.registry.insert connId handle, live := s.live ++ [(connId, handle)] } id =
        s.conns id ++ if handle.agent.id = some id then [connId] else [] := by
      rw [conns, List.filter_append, List.map_append, conns]
      split <;> simp [*]
    rw [Registry.lookup_byAgent_insert, hc]
    split
    case isTrue  => rw [h.byAgent, Registry.getD_entry, Registry.entry, if_neg (by simp)]
    case isFalse => rw [List.append_nil, h.byAgent]

protected theorem remove (h : s.Represents) (hs : machine.step s (.remove connId) = some s') :
    s'.Represents := by
  cases hs
  refine ⟨?_, fun connId' handle' => ?_, fun id => ?_⟩
  case refine_1 => exact h.distinct.sublist (List.filter_sublist.map _)
  case refine_2 =>
    rw [Registry.lookup_byConn_remove, List.mem_filter, ←h.byConn]
    by_cases he : connId' = connId <;> simp [he]
  case refine_3 =>
    have hc : conns { registry := (s.registry.remove connId).fst, live := s.live.filter (·.fst ≠ connId) } id =
        (s.conns id).filter (· ≠ connId) := by
      simp only [conns, List.filter_map, List.filter_filter, Function.comp_def, Bool.and_comm]
    have hs (hm : connId ∉ s.conns id) : (s.conns id).filter (· ≠ connId) = s.conns id :=
      List.filter_eq_self.mpr fun c hc => decide_eq_true fun he => hm (he ▸ hc)
    rw [hc]
    cases hl : s.registry.byConn.lookup connId
    case none =>
      rw [Registry.remove_eq_none hl, hs, h.byAgent]
      simp [h.mem_conns_iff, hl]
    case some handle =>
      rw [Registry.lookup_byAgent_remove hl, h.byAgent]
      split
      case isTrue => exact Registry.bind_entry
      case isFalse hi =>
        rw [hs]
        simp [h.mem_conns_iff, hl, hi]

protected theorem step {e : Event ID State} (h : s.Represents) (hs : machine.step s e = some s') :
    s'.Represents := by
  cases e
  case insert => exact h.insert hs
  case remove => exact h.remove hs

-- What is looked up by a scan or through the index is what is live.
theorem handlesWithIds_eq (h : s.Represents) : s.registry.handlesWithIds = s.live := by
  refine Multiset.Nodup.ext ?_ ?_ |>.mpr fun (connId, handle) => ?_
  case refine_1 =>
    refine Multiset.Nodup.map (fun e e' he => ?_) s.registry.byConn.nodup_entries
    simpa [Sigma.ext_iff] using he
  case refine_2 => exact Multiset.coe_nodup.mpr h.distinct.of_map
  case refine_3 =>
    rw [Multiset.mem_coe, ←h.byConn, Finmap.lookup_eq_some_iff, Registry.handlesWithIds]
    simp

theorem forAgent_eq (h : s.Represents) :
    s.registry.forAgent id = s.live.filter (·.snd.agent.id = some id) := by
  rw [Registry.forAgent, h.byAgent, Registry.getD_entry, conns, List.filterMap_map]
  have hf : ∀ p ∈ s.live.filter (·.snd.agent.id = some id),
      ((fun connId => (s.registry.byConn.lookup connId).map (connId, ·)) ∘ Prod.fst) p = some p := by
    intro p hp
    have := (h.byConn p.fst p.snd).mpr (List.mem_filter.mp hp).left
    rw [Function.comp_apply, this]
    rfl
  rw [List.filterMap_congr hf, List.filterMap_some]

-- The ids of a list, each of them once, lead to the connections of those who are in the list.
theorem forAgents_eq (h : s.Represents) {passed ids : List ID} :
    (s.registry.forAgents passed ids : Multiset (Nat × ClientHandle ID State)) =
      (s.live : Multiset _).filter (fun p => ∃ id ∈ ids, p.snd.agent.id = some id ∧ id ∉ passed) := by
  induction ids generalizing passed
  case nil => simp [Registry.forAgents]
  case cons id ids ih =>
    rw [Registry.forAgents, ←Multiset.coe_add, ih]
    split
    case isTrue hp =>
      rw [Multiset.coe_nil, zero_add]
      refine Multiset.filter_congr fun p _ => ?_
      simp only [List.mem_append, List.mem_cons, List.not_mem_nil, or_false]
      constructor
      case mp  =>
        rintro ⟨id', hi, ha, hn⟩
        exact ⟨id', .inr hi, ha, fun h => hn (.inl h)⟩
      case mpr =>
        rintro ⟨id', hi, ha, hn⟩
        have he : id' ≠ id := fun he => hn (he ▸ hp)
        exact ⟨id', hi.resolve_left he, ha, fun h => h.elim hn he⟩
    case isFalse hp =>
      rw [h.forAgent_eq, ←Multiset.filter_coe, Multiset.filter_add_filter]
      -- No connection is of this id and of another one.
      have hn : (s.live : Multiset (Nat × ClientHandle ID State)).filter (fun p => p.snd.agent.id = some id ∧
          ∃ id' ∈ ids, p.snd.agent.id = some id' ∧ id' ∉ passed ++ [id]) = 0 := by
        refine Multiset.filter_eq_nil.mpr fun p _ hp => ?_
        obtain ⟨ha, id', _, ha', hi⟩ := hp
        cases ha.symm.trans ha'
        exact hi (by simp)
      rw [hn, add_zero]
      refine Multiset.filter_congr fun p _ => ?_
      simp only [List.mem_append, List.mem_cons, List.not_mem_nil, or_false]
      constructor
      case mp =>
        intro hp
        cases hp
        case inl ha => exact ⟨id, .inl rfl, ha, hp⟩
        case inr hp =>
          obtain ⟨id', hi, ha, hn⟩ := hp
          exact ⟨id', .inr hi, ha, fun h => hn (.inl h)⟩
      case mpr =>
        rintro ⟨id', hi, ha, hn⟩
        by_cases he : id' = id
        case pos => exact .inl (he ▸ ha)
        case neg => exact .inr ⟨id', hi.resolve_left he, ha, fun h => h.elim hn he⟩

theorem forTarget_eq (h : s.Represents) (target : MessageTarget ID) : s.registry.forTarget target =
    (s.live : Multiset (Nat × ClientHandle ID State)).filter (targetMatches target ·.snd.agent) := by
  cases target <;> simp only [Registry.forTarget, h.handlesWithIds_eq, h.forAgent_eq, h.forAgents_eq]
  case agent id =>
    rw [←Multiset.filter_coe]
    refine Multiset.filter_congr fun p _ => ?_
    cases ha : p.snd.agent.id <;> simp [targetMatches, ha, eq_comm (a := id)]
  all_goals
    refine Multiset.filter_congr fun p _ => ?_
    cases ha : p.snd.agent.id
  case allExcept.some id _ id' => simp [targetMatches, ha, eq_comm (a := id)]
  all_goals simp [targetMatches, ha]

end Represents

-- For every sequence of insertions and removals, whatever is addressed.
theorem addresses (h : machine.Steps new es s) :
    (∀ target, s.registry.forTarget target =
      (s.live : Multiset (Nat × ClientHandle ID State)).filter (targetMatches target ·.snd.agent)) ∧
    (s.live.map Prod.fst).Nodup ∧
    ∀ id, s.registry.byAgent.lookup id = if s.conns id = [] then none else some (s.conns id) := by
  have hr := h.preserves Represents.step .new
  exact ⟨hr.forTarget_eq, hr.distinct, hr.byAgent⟩

-- Two connections of one agent, of which the earlier one leaves.
theorem addresses_rejoined :
    ∃ s : Registration Nat Unit, machine.Steps new
      [.insert 1 ⟨.human 7, ()⟩, .insert 2 ⟨.system, ()⟩, .insert 3 ⟨.human 7, ()⟩, .remove 1] s ∧
      (∀ target, s.registry.forTarget target =
        (s.live : Multiset (Nat × ClientHandle Nat Unit)).filter (targetMatches target ·.snd.agent)) ∧
      (s.live.map Prod.fst).Nodup ∧
      ∀ id, s.registry.byAgent.lookup id = if s.conns id = [] then none else some (s.conns id) :=
  have h := .step rfl <| .step rfl <| .step rfl <| .step rfl .refl
  ⟨_, h, addresses h⟩

end Registration
end Plaza.Session
