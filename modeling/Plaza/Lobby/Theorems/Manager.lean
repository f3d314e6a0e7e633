import Mathlib.Data.Finset.Basic
import Plaza.Lobby.Manager

namespace Plaza.Lobby.Assignment

variable {ID RoomId : Type} [DecidableEq ID] [DecidableEq RoomId] {verifier : PasswordVerifier}
variable {s s' : State ID RoomId} {e : Event ID RoomId} {es : List (Event ID RoomId)}
variable {task task' : Task ID RoomId} {next : Multiset (Task ID RoomId)} {player : ID} {roomId roomId' : RoomId}

namespace State

theorem turn_eq_some : s.turn task next = some s' ↔
    task ∈ s.tasks ∧ s' = { s with tasks := s.tasks.erase task + next } := by
  rw [turn, Option.ite_none_right_eq_some, Option.some.injEq, eq_comm (b := s')]

theorem turn_map_eq_some {f : State ID RoomId → State ID RoomId} : (s.turn task next).map f = some s' ↔
    task ∈ s.tasks ∧ s' = f { s with tasks := s.tasks.erase task + next } := by
  simp only [Option.map_eq_some_iff, turn_eq_some]
  constructor
  case mp  => rintro ⟨_, ⟨ht, rfl⟩, rfl⟩; exact ⟨ht, rfl⟩
  case mpr => rintro ⟨ht, rfl⟩; exact ⟨_, ⟨ht, rfl⟩, rfl⟩

theorem mem_turn (h : task' ∈ s.tasks.erase task + next) : task' ∈ s.tasks ∨ task' ∈ next :=
  (Multiset.mem_add.mp h).imp_left Multiset.mem_of_mem_erase

theorem mem_turn_iff (h : task' ≠ task) :
    task' ∈ s.tasks.erase task + next ↔ task' ∈ s.tasks ∨ task' ∈ next := by
  rw [Multiset.mem_add, Multiset.mem_erase_of_ne h]

theorem step_join {payload : JoinRoomRequestPayload RoomId}
    (h : (machine verifier).step s (.join player payload) = some s') :
    (payload.roomId ∈ s.rooms ∧ s' = { s with tasks := s.tasks + {.check player payload} }) ∨ s' = s := by
  simp only [machine, Option.some.injEq] at h
  split at h
  case isTrue hm => exact .inl ⟨hm, h.symm⟩
  case isFalse   => exact .inr h.symm

theorem step_check {payload : JoinRoomRequestPayload RoomId}
    (h : (machine verifier).step s (.check player payload) = some s') :
    ∃ next, (∀ task ∈ next, task = .accept player payload.roomId) ∧ .check player payload ∈ s.tasks ∧
      s' = { s with tasks := s.tasks.erase (.check player payload) + next } := by
  have ⟨handle, _, h⟩ := Option.bind_eq_some_iff.mp h
  refine ⟨_, fun task hm => ?_, turn_eq_some.mp h⟩
  split at hm
  case isTrue  => exact Multiset.mem_singleton.mp hm
  case isFalse => exact absurd hm (Multiset.notMem_zero _)

theorem step_accept {accepted : Bool} (h : (machine verifier).step s (.accept player roomId accepted) = some s') :
    .accept player roomId ∈ s.tasks ∧
    (s' = { s with tasks := s.tasks.erase (.accept player roomId) + 0 } ∨
      s' = { s with
        seated := insert (player, roomId) s.seated
        tasks  := s.tasks.erase (.accept player roomId) + {.assign player roomId} }) := by
  cases accepted
  case false => exact (turn_eq_some.mp h).imp_right .inl
  case true  => exact (turn_map_eq_some.mp h).imp_right .inr

theorem step_leave (h : (machine verifier).step s (.leave player) = some s') :
    (∃ roomId, s.playerToRoomMap player = some roomId ∧ s' = { s with
      playerToRoomMap := Function.update s.playerToRoomMap player none
      tasks           := s.tasks + {.find player roomId} }) ∨ s' = s := by
  simp only [machine, Option.some.injEq] at h
  cases hm : s.playerToRoomMap player <;> rw [hm] at h
  case none        => exact .inr h.symm
  case some roomId => exact .inl ⟨roomId, rfl, h.symm⟩

-- Whatever names a room names one there is, or was.
structure Known (s : State ID RoomId) : Prop where
  rooms   : ∀ roomId ∈ s.rooms, (s.handles roomId).isSome
  entries : ∀ player roomId, s.playerToRoomMap player = some roomId → (s.handles roomId).isSome
  seated  : ∀ player roomId, (player, roomId) ∈ s.seated → (s.handles roomId).isSome
  reaped  : ∀ roomId ∈ s.reaped, (s.handles roomId).isSome
  tasks   : ∀ task ∈ s.tasks, ∀ roomId ∈ task.rooms, (s.handles roomId).isSome

omit [DecidableEq ID] in
theorem Known.spawn {handle : RoomHandle} (h : s.Known) :
    Known { s with handles := Function.update s.handles roomId handle } := by
  have hs r (hr : (s.handles r).isSome) : (Function.update s.handles roomId (some handle) r).isSome := by
    rw [Function.update_apply]
    split
    case isTrue  => rfl
    case isFalse => exact hr
  exact {
    rooms   := fun r hr => hs r (h.rooms r hr)
    entries := fun p r hr => hs r (h.entries p r hr)
    seated  := fun p r hr => hs r (h.seated p r hr)
    reaped  := fun r hr => hs r (h.reaped r hr)
    tasks   := fun t ht r hr => hs r (h.tasks t ht r hr)
  }

omit [DecidableEq ID] in
theorem Known.ask (h : s.Known) (hr : ∀ roomId ∈ task.rooms, (s.handles roomId).isSome) :
    Known { s with tasks := s.tasks + {task} } :=
  { h with tasks := fun t ht => (Multiset.mem_add.mp ht).elim (h.tasks t) fun ht =>
    Multiset.mem_singleton.mp ht ▸ hr }

theorem Known.turn (h : s.Known) (ht : task ∈ s.tasks) (hr : ∀ task' ∈ next, task'.rooms ⊆ task.rooms) :
    Known { s with tasks := s.tasks.erase task + next } :=
  { h with tasks := fun t hm r hm' =>
    (mem_turn hm).elim (h.tasks t · r hm') fun hm => h.tasks task ht r (hr t hm hm') }

theorem Known.done (h : s.Known) (ht : task ∈ s.tasks) : Known { s with tasks := s.tasks.erase task + 0 } :=
  h.turn ht fun _ hm => absurd hm (Multiset.notMem_zero _)

theorem Known.step (h : s.Known) (hs : (machine verifier).step s e = some s') : s'.Known := by
  cases e
  case create r handle =>
    cases (Option.ite_none_right_eq_some.mp hs).right
    refine { h.spawn with rooms := fun r' hr => ?_ }
    cases Finset.mem_insert.mp hr
    case inl he => simp [he]
    case inr hr => exact h.spawn.rooms r' hr
  case update =>
    cases (Option.ite_none_right_eq_some.mp hs).right
    exact h.spawn
  case join player payload =>
    rcases step_join hs with ⟨hr, rfl⟩ | rfl
    case inl => exact h.ask fun r hm => Finset.mem_singleton.mp hm ▸ h.rooms _ hr
    case inr => exact h
  case check =>
    obtain ⟨next, hn, ht, rfl⟩ := step_check hs
    exact h.turn ht fun t hm => hn t hm ▸ Finset.Subset.refl _
  case accept p r accepted =>
    obtain ⟨ht, rfl | rfl⟩ := step_accept hs
    case inl => exact h.done ht
    case inr =>
      have hk : Known { s with tasks := s.tasks.erase (.accept p r) + {.assign p r} } :=
        h.turn ht fun t hm => Multiset.mem_singleton.mp hm ▸ Finset.Subset.refl _
      refine { hk with seated := fun p' r' hm => ?_ }
      cases Finset.mem_insert.mp hm
      case inl he => cases he; exact h.tasks _ ht r (Finset.mem_singleton_self r)
      case inr hm => exact h.seated p' r' hm
  case assign p r =>
    obtain ⟨ht, rfl⟩ := turn_map_eq_some.mp hs
    refine { h.done ht with entries := fun p' r' hm => ?_ }
    simp only [Function.update_apply] at hm
    split at hm
    case isTrue  => cases hm; exact h.tasks _ ht r (Finset.mem_singleton_self r)
    case isFalse => exact h.entries p' r' hm
  case leave p =>
    rcases step_leave hs with ⟨r, hr, rfl⟩ | rfl
    case inr => exact h
    case inl =>
      have hk : Known { s with tasks := s.tasks + {.find p r} } :=
        h.ask fun _ hm => Finset.mem_singleton.mp hm ▸ h.entries p r hr
      refine { hk with entries := fun p' r' hm => ?_ }
      simp only [Function.update_apply] at hm
      split at hm
      case isTrue  => cases hm
      case isFalse => exact h.entries p' r' hm
  case find =>
    obtain ⟨ht, rfl⟩ := turn_eq_some.mp hs
    refine h.turn ht fun t hm => ?_
    split at hm
    case isTrue  => exact Multiset.mem_singleton.mp hm ▸ Finset.Subset.refl _
    case isFalse => exact absurd hm (Multiset.notMem_zero t)
  case notify =>
    obtain ⟨ht, rfl⟩ := turn_map_eq_some.mp hs
    exact { h.done ht with seated := fun p r hm => h.seated p r (Finset.mem_of_mem_erase hm) }
  case reap =>
    cases hs
    exact h.ask fun r hm => h.rooms r (Finset.mem_filter.mp hm).left
  case shutdown r finished =>
    have ⟨hr, hs⟩ := Option.ite_none_right_eq_some.mp hs
    obtain ⟨ht, rfl⟩ := turn_eq_some.mp hs
    exact h.turn ht fun t hm => Multiset.mem_singleton.mp hm ▸ (Finset.insert_erase hr).subset
  case remove r finished =>
    obtain ⟨ht, rfl⟩ := turn_map_eq_some.mp hs
    have hk : Known { s with tasks := s.tasks.erase (.remove r finished) + {.retain r finished} } :=
      h.turn ht fun t hm => Multiset.mem_singleton.mp hm ▸ Finset.Subset.refl _
    refine { hk with rooms := fun r' hm => h.rooms r' (Finset.mem_of_mem_erase hm), reaped := fun r' hm => ?_ }
    cases Finset.mem_insert.mp hm
    case inl he => exact he ▸ h.tasks _ ht r (Finset.mem_insert_self r finished)
    case inr hm => exact h.reaped r' hm
  case retain r finished =>
    obtain ⟨ht, rfl⟩ := turn_map_eq_some.mp hs
    have hk : Known { s with tasks := s.tasks.erase (.retain r finished) + {.reap finished} } :=
      h.turn ht fun t hm => Multiset.mem_singleton.mp hm ▸ Finset.subset_insert r finished
    exact { hk with entries := fun p r' hm => h.entries p r' (Option.filter_eq_some_iff.mp hm).left }
  case reaped =>
    obtain ⟨ht, rfl⟩ := turn_eq_some.mp hs
    exact h.done ht

omit [DecidableEq ID] in
theorem Known.start : (start : State ID RoomId).Known where
  rooms   := nofun
  entries := nofun
  seated  := nofun
  reaped  := nofun
  tasks   := nofun

structure Invariant (s : State ID RoomId) : Prop where
  known    : s.Known
  reaped   : ∀ roomId ∈ s.reaped, roomId ∉ s.rooms
  retained : ∀ roomId finished, .retain roomId finished ∈ s.tasks → roomId ∉ s.rooms
  entered  : ∀ player roomId, s.playerToRoomMap player = some roomId → roomId ∈ s.rooms ∨ s.Reaping roomId
  kept     : ∀ player, ∀ roomId ∈ s.rooms,
    s.playerToRoomMap player = some roomId ∨ .assign player roomId ∈ s.tasks → (player, roomId) ∈ s.seated
  seated   : ∀ player, ∀ roomId ∈ s.rooms,
    (player, roomId) ∈ s.seated → s.playerToRoomMap player = some roomId ∨ s.Pending player roomId

omit [DecidableEq ID] in
theorem Invariant.start : (start : State ID RoomId).Invariant where
  known    := .start
  reaped   := nofun
  retained := nofun
  entered  := nofun
  kept     := nofun
  seated   := nofun

theorem Reaping.turn (h : s.Reaping roomId)
    (hr : roomId ∈ task.reaps → ∃ task' ∈ next, roomId ∈ task'.reaps) :
    Reaping { s with tasks := s.tasks.erase task + next } roomId := by
  have ⟨t, ht, hm⟩ := h
  by_cases he : t = task
  case pos =>
    have ⟨t', ht', hm'⟩ := hr (he ▸ hm)
    exact ⟨t', Multiset.mem_add.mpr (.inr ht'), hm'⟩
  case neg => exact ⟨t, (mem_turn_iff he).mpr (.inl ht), hm⟩

theorem Pending.turn (h : s.Pending player roomId) (ha : .assign player roomId ≠ task)
    (hf : .find player roomId ≠ task) (hn : .notify player roomId ≠ task) :
    Pending { s with tasks := s.tasks.erase task + next } player roomId :=
  h.imp (fun h => (mem_turn_iff ha).mpr (.inl h)) <|
    .imp (fun h => (mem_turn_iff hf).mpr (.inl h)) (fun h => (mem_turn_iff hn).mpr (.inl h))

omit [DecidableEq ID] [DecidableEq RoomId] in
theorem Pending.mono {s' : State ID RoomId} (h : s.Pending player roomId) (hm : ∀ task ∈ s.tasks, task ∈ s'.tasks) :
    s'.Pending player roomId :=
  h.imp (hm _) (.imp (hm _) (hm _))

omit [DecidableEq ID] in
-- Other tasks may join those in progress, as long as they do not write an assignment.
theorem Invariant.ask (h : s.Invariant) (hk : Known { s with tasks := s.tasks + {task} })
    (ha : ∀ player roomId, task ≠ .assign player roomId) (hr : ∀ roomId finished, task ≠ .retain roomId finished) :
    Invariant { s with tasks := s.tasks + {task} } where
  known := hk
  reaped := h.reaped
  retained r f hm := (Multiset.mem_add.mp hm).elim (h.retained r f) fun hm =>
    absurd (Multiset.mem_singleton.mp hm).symm (hr r f)
  entered p r hm := (h.entered p r hm).imp_right fun ⟨t, ht, hm⟩ => ⟨t, Multiset.mem_add.mpr (.inl ht), hm⟩
  kept p r hr hm := h.kept p r hr <| hm.imp_right fun hm => (Multiset.mem_add.mp hm).elim id fun hm =>
    absurd (Multiset.mem_singleton.mp hm).symm (ha p r)
  seated p r hr hm := (h.seated p r hr hm).imp_right (·.mono fun _ ht => Multiset.mem_add.mpr (.inl ht))

-- A turn that has to do with no assignment.
theorem Invariant.turn (h : s.Invariant) (hk : Known { s with tasks := s.tasks.erase task + next })
    (hr : ∀ roomId ∈ task.reaps, ∃ task' ∈ next, roomId ∈ task'.reaps)
    (hn : ∀ player roomId, .assign player roomId ∉ next ∧ .assign player roomId ≠ task ∧
      .find player roomId ≠ task ∧ .notify player roomId ≠ task)
    (hf : ∀ roomId finished, .retain roomId finished ∉ next) :
    Invariant { s with tasks := s.tasks.erase task + next } where
  known := hk
  reaped := h.reaped
  retained r f hm := (mem_turn hm).elim (h.retained r f) (absurd · (hf r f))
  entered p r hm := (h.entered p r hm).imp_right (·.turn (hr r))
  kept p r hr hm := h.kept p r hr <| hm.imp_right fun hm => (mem_turn hm).elim id (absurd · (hn p r).left)
  seated p r hr hm := by
    have ⟨_, ha, hf, hn⟩ := hn p r
    exact (h.seated p r hr hm).imp_right (·.turn ha hf hn)

theorem Invariant.accept (h : s.Invariant) (hk : s'.Known) (hs : s' = { s with
      seated := insert (player, roomId) s.seated
      tasks  := s.tasks.erase (.accept player roomId) + {.assign player roomId} }) : s'.Invariant := by
  subst hs
  refine ⟨hk, h.reaped, fun r f hm => ?_, fun p r hm => ?_, fun p r hr hm => ?_, fun p r hr hm => ?_⟩
  case refine_1 => exact (mem_turn hm).elim (h.retained r f) (nomatch Multiset.mem_singleton.mp ·)
  case refine_2 => exact (h.entered p r hm).imp_right (·.turn (nomatch Finset.notMem_empty _ ·))
  case refine_3 =>
    rcases hm with hm | hm
    case inl => exact Finset.mem_insert_of_mem (h.kept p r hr (.inl hm))
    case inr =>
      cases mem_turn hm
      case inl hm => exact Finset.mem_insert_of_mem (h.kept p r hr (.inr hm))
      case inr hm => cases Multiset.mem_singleton.mp hm; exact Finset.mem_insert_self ..
  case refine_4 =>
    cases Finset.mem_insert.mp hm
    case inl he => cases he; exact .inr (.inl (Multiset.mem_add.mpr (.inr (Multiset.mem_singleton_self _))))
    case inr hm => exact (h.seated p r hr hm).imp_right (·.turn nofun nofun nofun)

-- The assignment which is replaced is to a room that is not listed, or that hears of it from another task.
theorem Invariant.assign (h : s.Invariant) (ht : .assign player roomId ∈ s.tasks)
    (hu : s.Undisturbed (.assign player roomId)) (hk : s'.Known) (hs : s' = { s with
      playerToRoomMap := Function.update s.playerToRoomMap player roomId
      tasks           := s.tasks.erase (.assign player roomId) + 0 }) : s'.Invariant := by
  have ⟨hp, hr⟩ := hu
  subst hs
  refine ⟨hk, h.reaped, fun r f hm => ?_, fun p r hm => ?_, fun p r hl hm => ?_, fun p r hl hm => ?_⟩
  case refine_1 => exact (mem_turn hm).elim (h.retained r f) (absurd · (Multiset.notMem_zero _))
  case refine_2 =>
    have ho : r ∈ s.rooms ∨ s.Reaping r := by
      simp only [Function.update_apply] at hm
      split at hm
      case isTrue  => cases hm; exact hr
      case isFalse => exact h.entered p r hm
    exact ho.imp_right (·.turn (nomatch Finset.notMem_empty _ ·))
  case refine_3 =>
    have ho : s.playerToRoomMap p = some r ∨ .assign p r ∈ s.tasks := by
      rcases hm with hm | hm
      case inr => exact .inr <| (mem_turn hm).elim id (absurd · (Multiset.notMem_zero _))
      case inl =>
        simp only [Function.update_apply] at hm
        split at hm
        case isTrue he => cases hm; exact .inr (he ▸ ht)
        case isFalse   => exact .inl hm
    exact h.kept p r hl ho
  case refine_4 =>
    simp only [Function.update_apply]
    by_cases he : p = player ∧ r = roomId
    case pos => exact .inl (by rw [if_pos he.left, he.right])
    case neg =>
      have hn : Task.assign p r ≠ .assign player roomId := fun h => he (by cases h; exact ⟨rfl, rfl⟩)
      rcases h.seated p r hl hm with hm' | hm'
      case inr => exact .inr (hm'.turn hn nofun nofun)
      case inl =>
        split
        case isFalse => exact .inl hm'
        case isTrue hp' =>
          subst hp'
          exact .inr <| (hp r hm' (fun hr => he ⟨rfl, hr⟩) hl).turn hn nofun nofun

theorem Invariant.leave (h : s.Invariant) (hm : s.playerToRoomMap player = some roomId) (hk : s'.Known)
    (hs : s' = { s with
      playerToRoomMap := Function.update s.playerToRoomMap player none
      tasks           := s.tasks + {.find player roomId} }) : s'.Invariant := by
  have ha {r p} (hm : Function.update s.playerToRoomMap player none p = some r) : s.playerToRoomMap p = some r := by
    rw [Function.update_apply] at hm
    split at hm
    case isTrue  => cases hm
    case isFalse => exact hm
  have ht {task} (ht : task ∈ s.tasks + {.find player roomId}) : task ∈ s.tasks ∨ task = .find player roomId :=
    (Multiset.mem_add.mp ht).imp_right Multiset.mem_singleton.mp
  subst hs
  refine ⟨hk, h.reaped, fun r f hm => ?_, fun p r hm => ?_, fun p r hl hm => ?_, fun p r hl hs => ?_⟩
  case refine_1 => exact (ht hm).elim (h.retained r f) nofun
  case refine_2 =>
    exact (h.entered p r (ha hm)).imp_right fun ⟨t, ht, hm⟩ => ⟨t, Multiset.mem_add.mpr (.inl ht), hm⟩
  case refine_3 => exact h.kept p r hl <| hm.imp ha fun hm => (ht hm).elim id nofun
  case refine_4 =>
    simp only [Function.update_apply]
    rcases h.seated p r hl hs with hm' | hm'
    case inr => exact .inr (hm'.mono fun _ ht => Multiset.mem_add.mpr (.inl ht))
    case inl =>
      split
      case isFalse => exact .inl hm'
      case isTrue he =>
        cases he
        cases hm.symm.trans hm'
        exact .inr (.inr (.inl (Multiset.mem_add.mpr (.inr (Multiset.mem_singleton_self _)))))

theorem Invariant.find (h : s.Invariant) (hk : s'.Known)
    (hs : s' = { s with tasks := s.tasks.erase (.find player roomId) +
      if roomId ∈ s.rooms then {.notify player roomId} else 0 }) : s'.Invariant := by
  have hn {task} (hm : task ∈ (if roomId ∈ s.rooms then {.notify player roomId} else 0 : Multiset (Task ID RoomId))) :
      task = .notify player roomId := by
    split at hm
    case isTrue  => exact Multiset.mem_singleton.mp hm
    case isFalse => exact absurd hm (Multiset.notMem_zero _)
  subst hs
  refine ⟨hk, h.reaped, fun r f hm => ?_, fun p r hm => ?_, fun p r hl hm => ?_, fun p r hl hs => ?_⟩
  case refine_1 => exact (mem_turn hm).elim (h.retained r f) (nomatch hn ·)
  case refine_2 => exact (h.entered p r hm).imp_right (·.turn (nomatch Finset.notMem_empty _ ·))
  case refine_3 => exact h.kept p r hl <| hm.imp_right fun hm => (mem_turn hm).elim id (nomatch hn ·)
  case refine_4 =>
    refine (h.seated p r hl hs).imp_right fun hp => ?_
    by_cases he : Task.find p r = .find player roomId
    case neg => exact hp.turn nofun he nofun
    case pos =>
      cases he
      rw [if_pos hl]
      exact .inr (.inr (Multiset.mem_add.mpr (.inr (Multiset.mem_singleton_self _))))

-- The room which is told has not accepted the player anew.
theorem Invariant.notify (h : s.Invariant) (hu : s.Undisturbed (.notify player roomId)) (hk : s'.Known)
    (hs : s' = { s with
      seated := s.seated.erase (player, roomId)
      tasks  := s.tasks.erase (.notify player roomId) + 0 }) : s'.Invariant := by
  subst hs
  refine ⟨hk, h.reaped, fun r f hm => ?_, fun p r hm => ?_, fun p r hl hm => ?_, fun p r hl hs => ?_⟩
  case refine_1 => exact (mem_turn hm).elim (h.retained r f) (absurd · (Multiset.notMem_zero _))
  case refine_2 => exact (h.entered p r hm).imp_right (·.turn (nomatch Finset.notMem_empty _ ·))
  case refine_3 =>
    have hm := hm.imp_right fun hm => (mem_turn hm).elim id (absurd · (Multiset.notMem_zero _))
    refine Finset.mem_erase.mpr ⟨fun he => ?_, h.kept p r hl hm⟩
    cases he
    exact hm.elim (hu hl).left (hu hl).right
  case refine_4 =>
    have ⟨hn, hs⟩ := Finset.mem_erase.mp hs
    have hn : Task.notify p r ≠ .notify player roomId := fun he => hn (by cases he; rfl)
    exact (h.seated p r hl hs).imp_right (·.turn nofun nofun hn)

theorem Invariant.remove {finished : Finset RoomId} (h : s.Invariant) (hk : s'.Known) (hs : s' = { s with
      rooms  := s.rooms.erase roomId
      reaped := insert roomId s.reaped
      tasks  := s.tasks.erase (.remove roomId finished) + {.retain roomId finished} }) : s'.Invariant := by
  have hn {task : Task ID RoomId} (hm : task ∈ ({.retain roomId finished} : Multiset (Task ID RoomId))) :
      task = .retain roomId finished := Multiset.mem_singleton.mp hm
  have ht : Task.retain roomId finished ∈ s'.tasks :=
    hs ▸ Multiset.mem_add.mpr (.inr (Multiset.mem_singleton_self _))
  subst hs
  refine ⟨hk, fun r hm hl => ?_, fun r f hm hl => ?_, fun p r hm => ?_, fun p r hl hm => ?_, fun p r hl hm => ?_⟩
  case refine_1 =>
    have ⟨he, hl⟩ := Finset.mem_erase.mp hl
    exact (Finset.mem_insert.mp hm).elim he (h.reaped r · hl)
  case refine_2 =>
    have ⟨he, hl⟩ := Finset.mem_erase.mp hl
    exact (mem_turn hm).elim (h.retained r f · hl) fun hm => by cases hn hm; exact he rfl
  case refine_3 =>
    by_cases he : r = roomId
    case pos => exact .inr ⟨_, ht, he ▸ Finset.mem_insert_self ..⟩
    case neg =>
      refine (h.entered p r hm).imp (Finset.mem_erase.mpr ⟨he, ·⟩) (·.turn fun hm => ?_)
      exact ⟨_, Multiset.mem_singleton_self _, hm⟩
  case refine_4 =>
    exact h.kept p r (Finset.mem_of_mem_erase hl) <| hm.imp_right fun hm => (mem_turn hm).elim id (nomatch hn ·)
  case refine_5 =>
    exact (h.seated p r (Finset.mem_of_mem_erase hl) hm).imp_right (·.turn nofun nofun nofun)

theorem Invariant.retain {finished : Finset RoomId} (h : s.Invariant) (ht : .retain roomId finished ∈ s.tasks)
    (hk : s'.Known) (hs : s' = { s with
      playerToRoomMap := fun player => (s.playerToRoomMap player).filter (· ≠ roomId)
      tasks           := s.tasks.erase (.retain roomId finished) + {.reap finished} }) : s'.Invariant := by
  have hn {task : Task ID RoomId} (hm : task ∈ ({.reap finished} : Multiset (Task ID RoomId))) :
      task = .reap finished := Multiset.mem_singleton.mp hm
  subst hs
  refine ⟨hk, h.reaped, fun r f hm => ?_, fun p r hm => ?_, fun p r hl hm => ?_, fun p r hl hm => ?_⟩
  case refine_1 => exact (mem_turn hm).elim (h.retained r f) (nomatch hn ·)
  case refine_2 =>
    have ⟨hm, he⟩ := Option.filter_eq_some_iff.mp hm
    refine (h.entered p r hm).imp_right (·.turn fun hm => ?_)
    have hf := (Finset.mem_insert.mp hm).resolve_left (of_decide_eq_true he)
    exact ⟨_, Multiset.mem_singleton_self _, hf⟩
  case refine_3 =>
    exact h.kept p r hl <| hm.imp (Option.filter_eq_some_iff.mp · |>.left) fun hm =>
      (mem_turn hm).elim id (nomatch hn ·)
  case refine_4 =>
    have he : r ≠ roomId := fun he => h.retained _ _ ht (he ▸ hl)
    exact (h.seated p r hl hm).imp (Option.filter_eq_some_iff.mpr ⟨·, decide_eq_true he⟩) (·.turn nofun nofun nofun)

omit [DecidableEq ID] in
theorem Invariant.create {handle : RoomHandle} (h : s.Invariant) (hn : (s.handles roomId).isNone) (hk : s'.Known)
    (hs : s' = { s with
      handles := Function.update s.handles roomId handle
      rooms   := insert roomId s.rooms }) : s'.Invariant := by
  -- Nothing has to do with the room yet.
  have hn : ¬(s.handles roomId).isSome := Option.not_isSome_iff_eq_none.mpr (Option.isNone_iff_eq_none.mp hn)
  have hm {task} (hm : task ∈ s.tasks) (hr : roomId ∈ task.rooms) : False := hn (h.known.tasks task hm _ hr)
  subst hs
  refine ⟨hk, fun r hm hr => ?_, fun r f hm' hr => ?_, fun p r hm => ?_, fun p r hr hm' => ?_, fun p r hr hs => ?_⟩
  case refine_1 =>
    cases Finset.mem_insert.mp hr
    case inl he => exact hn (he ▸ h.known.reaped r hm)
    case inr hr => exact h.reaped r hm hr
  case refine_2 =>
    cases Finset.mem_insert.mp hr
    case inl he => exact hm hm' (he ▸ Finset.mem_insert_self r f)
    case inr hr => exact h.retained r f hm' hr
  case refine_3 => exact (h.entered p r hm).imp_left Finset.mem_insert_of_mem
  case refine_4 =>
    cases Finset.mem_insert.mp hr
    case inr hr => exact h.kept p r hr hm'
    case inl he =>
      cases he
      exact (hm'.elim (fun hm => hn (h.known.entries p _ hm)) (hm · (Finset.mem_singleton_self _))).elim
  case refine_5 =>
    cases Finset.mem_insert.mp hr
    case inl he => exact absurd (he ▸ h.known.seated p r hs) hn
    case inr hr => exact h.seated p r hr hs

theorem Invariant.step (h : s.Invariant) (hu : s.Undisturbed e) (hs : (machine verifier).step s e = some s') :
    s'.Invariant := by
  have hk := h.known.step hs
  cases e
  case create =>
    have ⟨hn, hs⟩ := Option.ite_none_right_eq_some.mp hs
    exact h.create hn hk (Option.some.inj hs).symm
  case update =>
    cases (Option.ite_none_right_eq_some.mp hs).right
    exact ⟨hk, h.reaped, h.retained, h.entered, h.kept, h.seated⟩
  case join =>
    rcases step_join hs with ⟨_, rfl⟩ | rfl
    case inl => exact h.ask hk nofun nofun
    case inr => exact h
  case check =>
    obtain ⟨next, hn, _, rfl⟩ := step_check hs
    refine h.turn hk (fun _ hm => absurd hm (Finset.notMem_empty _)) (fun p r => ⟨fun hm => ?_, nofun, nofun, nofun⟩)
      fun r f hm => ?_
    case refine_1 => cases hn _ hm
    case refine_2 => cases hn _ hm
  case accept =>
    obtain ⟨_, rfl | hs⟩ := step_accept hs
    case inl =>
      exact h.turn hk (fun _ hm => absurd hm (Finset.notMem_empty _))
        (fun _ _ => ⟨Multiset.notMem_zero _, nofun, nofun, nofun⟩) fun _ _ => Multiset.notMem_zero _
    case inr => exact h.accept hk hs
  case assign =>
    have ⟨ht, hs⟩ := turn_map_eq_some.mp hs
    exact h.assign ht hu hk hs
  case leave =>
    rcases step_leave hs with ⟨_, hm, hs⟩ | rfl
    case inl => exact h.leave hm hk hs
    case inr => exact h
  case find   => exact h.find hk (turn_eq_some.mp hs).right
  case notify => exact h.notify hu hk (turn_map_eq_some.mp hs).right
  case reap   =>
    cases hs
    exact h.ask hk nofun nofun
  case shutdown r finished =>
    have ⟨hr, hs⟩ := Option.ite_none_right_eq_some.mp hs
    obtain ⟨_, rfl⟩ := turn_eq_some.mp hs
    refine h.turn hk (fun r' hm => ⟨_, Multiset.mem_singleton_self _, ?_⟩)
      (fun p r => ⟨fun hm => ?_, nofun, nofun, nofun⟩) fun r f hm => ?_
    case refine_1 => exact (Finset.insert_erase hr).symm.subset hm
    case refine_2 => cases Multiset.mem_singleton.mp hm
    case refine_3 => cases Multiset.mem_singleton.mp hm
  case remove => exact h.remove hk (turn_map_eq_some.mp hs).right
  case retain =>
    have ⟨ht, hs⟩ := turn_map_eq_some.mp hs
    exact h.retain ht hk hs
  case reaped =>
    obtain ⟨_, rfl⟩ := turn_eq_some.mp hs
    exact h.turn hk (fun _ hm => absurd hm (Finset.notMem_empty _))
      (fun _ _ => ⟨Multiset.notMem_zero _, nofun, nofun, nofun⟩) fun _ _ => Multiset.notMem_zero _

omit [DecidableEq ID] in
theorem Invariant.agrees (h : s.Invariant) (ht : s.tasks = 0) : s.Agrees := by
  have hn task : task ∉ s.tasks := ht ▸ Multiset.notMem_zero task
  have hr p r (hm : s.playerToRoomMap p = some r) : r ∈ s.rooms :=
    (h.entered p r hm).resolve_right fun ⟨t, hm, _⟩ => hn t hm
  refine ⟨fun p r => ⟨fun hm => ?_, fun ⟨hl, hs⟩ => ?_⟩, fun p r hm hl => h.reaped r hl (hr p r hm)⟩
  case refine_1 => exact ⟨hr p r hm, h.kept p r (hr p r hm) (.inl hm)⟩
  case refine_2 => exact (h.seated p r hl hs).resolve_right fun hp => hp.elim (hn _) (·.elim (hn _) (hn _))

end State

open State

-- Whenever no request is in progress, the lobby's assignments are those the rooms know of.
theorem assigned_of_undisturbed (h : ((machine verifier).restrict Undisturbed).Steps start es s)
    (ht : s.tasks = 0) : s.Agrees := by
  refine (h.preserves (I := Invariant) (fun hi hs => ?_) .start).agrees ht
  have ⟨hu, hs⟩ := Machine.restrict_step_iff.mp hs
  exact hi.step hu hs

def unlocked : RoomHandle where
  metadata     := { currentPlayers := 0, maxPlayers := 4, hasPassword := false, maxOneWayMs := none }
  passwordHash := none
  isFinished   := false

def plain : PasswordVerifier :=
  (· == ·)

def request (roomId : Nat) : JoinRoomRequestPayload Nat where
  measuredOneWayMs := none
  roomId           := roomId
  passwordAttempt  := none

theorem assigned_of_undisturbed_moved : ∃ s : State Nat Nat, ((machine plain).restrict Undisturbed).Steps start
    [.create 1 unlocked, .create 2 unlocked, .join 7 (request 1), .check 7 (request 1), .accept 7 1 true, .assign 7 1,
      .leave 7, .find 7 1, .notify 7 1, .join 7 (request 2), .check 7 (request 2), .accept 7 2 true, .assign 7 2,
      .update 1 { unlocked with isFinished := true }, .reap, .shutdown 1 {1}, .remove 1 ∅, .retain 1 ∅, .reaped] s ∧
    s.tasks = 0 ∧ s.Agrees := by
  have hr : (((machine plain).restrict Undisturbed).run (start : State Nat Nat)
    [.create 1 unlocked, .create 2 unlocked, .join 7 (request 1), .check 7 (request 1), .accept 7 1 true, .assign 7 1,
      .leave 7, .find 7 1, .notify 7 1, .join 7 (request 2), .check 7 (request 2), .accept 7 2 true, .assign 7 2,
      .update 1 { unlocked with isFinished := true }, .reap, .shutdown 1 {1}, .remove 1 ∅, .retain 1 ∅, .reaped]).any
      (·.tasks = 0) := by decide +kernel
  have ⟨s, hs, ht⟩ := (Option.any_eq_true ..).mp hr
  have hs := Machine.run_eq_some_iff.mp hs
  exact ⟨s, hs, of_decide_eq_true ht, assigned_of_undisturbed hs (of_decide_eq_true ht)⟩

-- Who joins a second room stays seated in the first, which will not be told.
theorem second_room_not_assigned : ¬∀ verifier es (s : State Nat Nat),
    (machine verifier).Steps start es s → s.tasks = 0 → s.Agrees := by
  intro h
  have hr : ((machine plain).run (start : State Nat Nat)
    [.create 1 unlocked, .create 2 unlocked, .join 7 (request 1), .check 7 (request 1), .accept 7 1 true, .assign 7 1,
      .join 7 (request 2), .check 7 (request 2), .accept 7 2 true, .assign 7 2]).any fun s =>
      s.tasks = 0 ∧ 1 ∈ s.rooms ∧ (7, 1) ∈ s.seated ∧ s.playerToRoomMap 7 ≠ some 1 := by decide +kernel
  have ⟨s, hs, he⟩ := (Option.any_eq_true ..).mp hr
  have ⟨ht, hl, hm, hn⟩ := of_decide_eq_true he
  exact hn <| ((h _ _ s (Machine.run_eq_some_iff.mp hs) ht).assigned 7 1).mpr ⟨hl, hm⟩

end Plaza.Lobby.Assignment
