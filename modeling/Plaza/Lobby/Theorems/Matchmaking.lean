import Mathlib.Data.List.Nodup
import Plaza.Lobby.Matchmaking

namespace Plaza.Lobby.MatchQueue

open Plaza.Core SchedulerInstant

variable {ID T : Type} [DecidableEq ID] [SchedulerInstant T]
variable {q : MatchQueue ID T} {waiting : List (Waiting ID T)} {player : ID} {clock now : T}

-- Nobody waits twice, the queue is in the order of arrival, and every deadline is the arrival's own. The
-- last of these makes the deadlines ascend along the queue, whoever leaves it.
structure Ordered (q : MatchQueue ID T) (clock : T) : Prop where
  distinct : q.players.Nodup
  arrivals : q.waiting.Pairwise (·.since ≤ ·.since)
  arrived  : ∀ w ∈ q.waiting, w.since ≤ clock
  patient  : ∀ w ∈ q.waiting, w.deadline = addInterval w.since q.patience

namespace Ordered

omit [DecidableEq ID]

protected theorem new {size : Nat} {patience : T} {hs : 0 < size} :
    (new size patience hs : MatchQueue ID T).Ordered clock where
  distinct := .nil
  arrivals := .nil
  arrived  := nofun
  patient  := nofun

theorem sublist (h : q.Ordered clock) (hs : waiting.Sublist q.waiting) : Ordered { q with waiting } clock where
  distinct      := h.distinct.sublist (hs.map _)
  arrivals      := h.arrivals.sublist hs
  arrived w hw  := h.arrived w (hs.subset hw)
  patient w hw  := h.patient w (hs.subset hw)

theorem later (h : q.Ordered clock) (hn : clock ≤ now) : q.Ordered now :=
  { h with arrived w hw := (h.arrived w hw).trans hn }

theorem deadlines (h : q.Ordered clock) : q.waiting.Pairwise (·.deadline ≤ ·.deadline) := by
  refine h.arrivals.imp_of_mem fun {a b} ha hb hab => ?_
  rw [h.patient a ha, h.patient b hb]
  exact addInterval_mono _ hab

end Ordered

omit [DecidableEq ID] [SchedulerInstant T] in
theorem mem_players : player ∈ q.players ↔ ∃ w ∈ q.waiting, w.player = player :=
  List.mem_map

-- A player is accepted exactly if they are not queued.
theorem enqueue_cases (q : MatchQueue ID T) (player : ID) (now : T) :
    (player ∈ q.players ∧ q.enqueue player now = (q, false)) ∨
    (player ∉ q.players ∧ ∃ w : Waiting ID T, w.player = player ∧ w.since = now ∧
      w.deadline = addInterval now q.patience ∧
      q.enqueue player now = ({ q with waiting := q.waiting ++ [w] }, true)) := by
  by_cases h : player ∈ q.players
  case pos =>
    refine .inl ⟨h, if_pos ?_⟩
    simpa [mem_players] using h
  case neg =>
    refine .inr ⟨h, _, rfl, rfl, rfl, if_neg ?_⟩
    simpa [mem_players] using h

theorem Ordered.enqueue (h : q.Ordered clock) (hn : clock ≤ now) : (q.enqueue player now).fst.Ordered now := by
  cases enqueue_cases q player now
  case inl hc =>
    rw [hc.right]
    exact h.later hn
  case inr hc =>
    have ⟨hp, w, hw, hs, hd, he⟩ := hc
    rw [he]
    exact {
      distinct := by
        rw [players, List.map_append, List.map_singleton, List.nodup_append]
        refine ⟨h.distinct, List.nodup_singleton _, fun a ha b hb => ?_⟩
        rw [List.mem_singleton.mp hb, hw]
        exact fun ha' => hp (ha' ▸ ha)
      arrivals := by
        refine List.pairwise_append.mpr ⟨h.arrivals, List.pairwise_singleton .., fun a ha b hb => ?_⟩
        rw [List.mem_singleton.mp hb, hs]
        exact (h.arrived a ha).trans hn
      arrived a ha := by
        cases List.mem_append.mp ha
        case inl ha => exact (h.arrived a ha).trans hn
        case inr ha => rw [List.mem_singleton.mp ha, hs]
      patient a ha := by
        cases List.mem_append.mp ha
        case inl ha => exact h.patient a ha
        case inr ha => rw [List.mem_singleton.mp ha, hs, hd]
    }

theorem Ordered.remove (h : q.Ordered clock) : (q.remove player).fst.Ordered clock :=
  h.sublist List.filter_sublist

omit [SchedulerInstant T] in
theorem players_remove : (q.remove player).fst.players = q.players.filter (· ≠ player) := by
  simp [remove, players, List.filter_map, Function.comp_def]

omit [DecidableEq ID] in
theorem Ordered.clear (h : q.Ordered clock) : q.clear.Ordered clock :=
  h.sublist (List.nil_sublist _)

-- What the rounds of `fill` keep: they form full matches from the front of the queue.
structure Filled (q q' : MatchQueue ID T) (formed : List (Formed ID)) : Prop where
  size     : q'.size = q.size
  patience : q'.patience = q.patience
  taken    : formed.flatMap Formed.players ++ q'.players = q.players
  rest     : q'.waiting.Sublist q.waiting
  full     : ∀ m ∈ formed, m.timedOut = false ∧ m.bots = 0 ∧ m.players.length = q.size

omit [DecidableEq ID] [SchedulerInstant T] in
theorem Filled.refl : Filled q q [] where
  size     := rfl
  patience := rfl
  taken    := rfl
  rest     := .refl _
  full     := nofun

omit [DecidableEq ID] [SchedulerInstant T] in
theorem fill_body_eq_some {s s' : MatchQueue ID T × List (Formed ID)} (h : fill.body s = some s') :
    s.fst.size ≤ s.fst.waiting.length ∧ s'.fst = { s.fst with waiting := s.fst.waiting.drop s.fst.size } ∧
    s'.snd = s.snd ++ [{ players := s.fst.players.take s.fst.size, bots := 0, timedOut := false }] := by
  simp only [fill, Option.ite_none_right_eq_some] at h
  have ⟨hl, he⟩ := h
  cases he
  exact ⟨hl, rfl, by simp [players]⟩

omit [DecidableEq ID] [SchedulerInstant T] in
theorem Filled.body {s s' : MatchQueue ID T × List (Formed ID)} (h : Filled q s.fst s.snd)
    (hb : fill.body s = some s') : Filled q s'.fst s'.snd := by
  have ⟨hl, hq, hf⟩ := fill_body_eq_some hb
  have hp : s'.fst.players = s.fst.players.drop s.fst.size := by rw [hq]; simp [players]
  refine ⟨by rw [hq, h.size], by rw [hq, h.patience], ?_, ?_, fun m hm => ?_⟩
  case refine_1 =>
    rw [hf, hp, ←h.taken]
    simp
  case refine_2 =>
    rw [hq]
    exact (List.drop_sublist ..).trans h.rest
  case refine_3 =>
    rw [hf] at hm
    cases List.mem_append.mp hm
    case inl hm => exact h.full m hm
    case inr hm =>
      rw [List.mem_singleton.mp hm]
      refine ⟨rfl, rfl, ?_⟩
      rw [List.length_take, players, List.length_map, ←h.size]
      exact Nat.min_eq_left hl

omit [DecidableEq ID] [SchedulerInstant T] in
-- The loop comes to its end, since every round takes somebody out of the queue.
theorem fill_ends (q : MatchQueue ID T) : fill.Ends (q, []) (fill.run q.waiting.length (q, [])) := by
  refine Loop.ends_run (I := fun _ => True) (μ := fun s => s.fst.waiting.length) (fun _ _ => trivial)
    (fun {s s'} _ h => ?_) trivial (Nat.le_refl _)
  have ⟨hl, hq, _⟩ := fill_body_eq_some h
  have := s.fst.size_pos
  rw [hq, List.length_drop]
  omega

omit [DecidableEq ID] [SchedulerInstant T] in
theorem filled_fill (q : MatchQueue ID T) :
    Filled q (fill.run q.waiting.length (q, [])).fst (fill.run q.waiting.length (q, [])).snd :=
  (fill_ends q).preserves (I := fun s => Filled q s.fst s.snd) Filled.body .refl

omit [DecidableEq ID] [SchedulerInstant T] in
theorem waiting_fill_lt (q : MatchQueue ID T) :
    (fill.run q.waiting.length (q, [])).fst.waiting.length < q.size := by
  have h := (fill_ends q).left
  rw [←(filled_fill q).size]
  simpa [fill] using h

-- What a drain does to the queue and what it forms.
structure Drained (q : MatchQueue ID T) (now : T) (q' : MatchQueue ID T) (formed : List (Formed ID)) : Prop where
  size     : q'.size = q.size
  patience : q'.patience = q.patience
  taken    : formed.flatMap Formed.players ++ q'.players = q.players
  rest     : q'.waiting.Sublist q.waiting
  full     : ∀ m ∈ formed, m.timedOut = false → m.bots = 0 ∧ m.players.length = q.size
  filled   : ∀ m ∈ formed, m.timedOut = true → m.players ≠ [] ∧ m.players.length + m.bots = q.size
  last     : ∀ m ∈ formed.dropLast, m.timedOut = false
  short    : q'.waiting.length < q.size
  future   : ∀ w ∈ q'.waiting, now < w.deadline

omit [DecidableEq ID] in
theorem Ordered.drained (h : q.Ordered clock) : Drained q now (q.drainReady now).fst (q.drainReady now).snd := by
  have hf := filled_fill q
  have hs := waiting_fill_lt q
  rw [drainReady]
  generalize fill.run q.waiting.length (q, []) = s at hf hs
  obtain ⟨q', formed⟩ := s
  dsimp only
  split
  case isTrue ht =>
    refine ⟨hf.size, hf.patience, ?_, List.nil_sublist _, fun m hm => ?_, fun m hm => ?_, fun m hm => ?_,
      q.size_pos, nofun⟩
    case refine_1 =>
      rw [←hf.taken]
      simp [players, MatchQueue.clear]
    case refine_2 =>
      intro hm'
      cases List.mem_append.mp hm
      case inl hm => exact (hf.full m hm).right
      case inr hm => simp [List.mem_singleton.mp hm] at hm'
    case refine_3 =>
      intro hm'
      cases List.mem_append.mp hm
      case inl hm => simp [(hf.full m hm).left] at hm'
      case inr hm =>
        rw [List.mem_singleton.mp hm]
        refine ⟨fun hn => ?_, ?_⟩
        case refine_1 => simp [List.map_eq_nil_iff.mp hn] at ht
        case refine_2 =>
          have : q'.players.length = q'.waiting.length := List.length_map _
          have := hf.size
          dsimp only at *
          omega
    case refine_4 =>
      rw [List.dropLast_concat] at hm
      exact (hf.full m hm).left
  case isFalse ht =>
    refine ⟨hf.size, hf.patience, hf.taken, hf.rest, fun m hm _ => (hf.full m hm).right, fun m hm hm' => ?_,
      fun m hm => (hf.full m (List.dropLast_subset _ hm)).left, hs, fun w hw => ?_⟩
    case refine_1 => simp [(hf.full m hm).left] at hm'
    case refine_2 =>
      -- Nobody's deadline is before the head's.
      have hd := h.deadlines.sublist hf.rest
      dsimp only at ht hd hw
      cases hq : q'.waiting
      case nil => simp [hq] at hw
      case cons w' rest =>
        rw [hq] at ht hd hw
        have hlt : now < w'.deadline := by simpa using ht
        cases hw
        case head      => exact hlt
        case tail _ hw => exact hlt.trans_le ((List.pairwise_cons.mp hd).left w hw)

omit [DecidableEq ID] in
theorem Ordered.drainReady (h : q.Ordered clock) (hn : clock ≤ now) : (q.drainReady now).fst.Ordered now := by
  have hd : Drained q now (q.drainReady now).fst (q.drainReady now).snd := h.drained
  have := (h.later hn).sublist hd.rest
  exact { this with patient := fun w hw => hd.patience ▸ this.patient w hw }

end Plaza.Lobby.MatchQueue

namespace Plaza.Lobby

open Plaza.Core

namespace Account

variable {ID : Type} {a : Account ID} {queued rest : List ID} {player : ID} {m : Formed ID}
variable {formed : List (Formed ID)} {index : Nat}

-- Every accepted player is in exactly one place, the queue and the matches are what the account says, and
-- players are matched in the order in which they were accepted.
structure Balanced (a : Account ID) (queued : List ID) : Prop where
  places  : (a.waiting ++ a.gone.map Prod.fst).Perm (List.range a.accepted.length)
  queued  : a.waiting.map (a.accepted[·]?) = queued.map some
  players : ∀ index m, a.formed[index]? = some m → (a.matchedIn index).map (a.accepted[·]?) = m.players.map some
  indices : ∀ index, a.formed.length ≤ index → a.matchedIn index = []
  order   : (a.matched ++ a.waiting).Pairwise (· < ·)

namespace Balanced

protected theorem empty : (empty : Account ID).Balanced [] where
  places         := .refl _
  queued         := rfl
  players        := nofun
  indices _ _    := rfl
  order          := .nil

theorem lt_of_mem {n : Nat} (h : a.Balanced queued) (hn : n ∈ a.waiting ∨ n ∈ a.gone.map Prod.fst) :
    n < a.accepted.length :=
  List.mem_range.mp <| h.places.mem_iff.mp <| List.mem_append.mpr hn

theorem lt_of_mem_matched {n : Nat} (h : a.Balanced queued) (hn : n ∈ a.matched) : n < a.accepted.length :=
  h.lt_of_mem <| .inr <| List.map_subset _ (List.filter_subset_self _) hn

end Balanced

theorem matchedIn_accept : (a.accept player).matchedIn index = a.matchedIn index :=
  rfl

-- The players of numbers which are known do not change by an acceptance.
theorem map_accepted_append {l : List Nat} (h : ∀ n ∈ l, n < a.accepted.length) :
    l.map ((a.accepted ++ [player])[·]?) = l.map (a.accepted[·]?) :=
  List.map_congr_left fun n hn => List.getElem?_append_left (h n hn)

protected theorem Balanced.accept (h : a.Balanced queued) : (a.accept player).Balanced (queued ++ [player]) where
  places := by
    simp only [accept, List.length_append, List.length_singleton, List.range_succ]
    rw [List.append_assoc]
    refine .trans (List.perm_append_comm.append_left _) ?_
    rw [←List.append_assoc]
    exact h.places.append_right _
  queued := by
    simp only [accept, List.map_append, map_accepted_append fun n hn => h.lt_of_mem (.inl hn), h.queued]
    simp
  players index m hm := by
    rw [matchedIn_accept]
    refine (map_accepted_append fun n hn => ?_).trans (h.players index m hm)
    exact h.lt_of_mem <| .inr <| List.map_subset _ (List.filter_subset_self _) hn
  indices index hi := h.indices index hi
  order := by
    rw [show (a.accept player).matched = a.matched from rfl, accept, ←List.append_assoc]
    refine List.pairwise_append.mpr ⟨h.order, List.pairwise_singleton .., fun n hn n' hn' => ?_⟩
    rw [List.mem_singleton.mp hn']
    cases List.mem_append.mp hn
    case inl hn => exact h.lt_of_mem_matched hn
    case inr hn => exact h.lt_of_mem (.inl hn)

-- What joins those who are gone with one fate.
theorem filter_map_fate {p : Fate → Bool} {f : Fate} {l : List Nat} :
    ((l.map (·, f)).filter (p ·.snd)).map Prod.fst = if p f then l else [] := by
  cases h : p f <;> simp [h, List.filter_map, Function.comp_def]

-- What leaves without a match changes no match.
theorem Balanced.leave {left waiting : List Nat} {f : Fate} (h : a.Balanced queued) (hf : f.isMatched = false)
    (hp : (waiting ++ left).Perm a.waiting) (hs : waiting.Sublist a.waiting)
    (hq : waiting.map (a.accepted[·]?) = rest.map some) :
    Balanced { a with waiting, gone := a.gone ++ left.map (·, f) } rest := by
  have hi index : matchedIn { a with waiting, gone := a.gone ++ left.map (·, f) } index = a.matchedIn index := by
    rw [matchedIn, List.filter_append, List.map_append, filter_map_fate (p := (· = .matched index)), if_neg,
      List.append_nil, matchedIn]
    exact fun he => by simp [of_decide_eq_true he, Fate.isMatched] at hf
  have hm : matched { a with waiting, gone := a.gone ++ left.map (·, f) } = a.matched := by
    rw [matched, List.filter_append, List.map_append, filter_map_fate (p := Fate.isMatched), hf, if_neg nofun,
      List.append_nil, matched]
  refine ⟨?_, hq, fun index m hm => ?_, fun index hl => ?_, ?_⟩
  case refine_1 =>
    refine .trans ?_ ((hp.append_right _).trans h.places)
    rw [List.map_append, List.map_map, List.append_assoc, show Prod.fst ∘ (·, f) = @id Nat from rfl, List.map_id]
    exact List.perm_append_comm.append_left _
  case refine_2 => exact hi index ▸ h.players index m hm
  case refine_3 => exact hi index ▸ h.indices index hl
  case refine_4 =>
    rw [hm]
    exact h.order.sublist (hs.append_left _)

protected theorem Balanced.remove [DecidableEq ID] (h : a.Balanced queued) :
    (a.remove player).Balanced (queued.filter (· ≠ player)) := by
  refine h.leave rfl ?_ List.filter_sublist ?_
  case refine_1 =>
    simp only [ne_eq, decide_not]
    exact List.perm_append_comm.trans (List.filter_append_perm ..)
  case refine_2 =>
    have hf := congrArg (List.filter (· ≠ some player)) h.queued
    rw [List.filter_map, List.filter_map] at hf
    exact hf.trans (by simp [Function.comp_def])

protected theorem Balanced.clear (h : a.Balanced queued) : a.clear.Balanced [] :=
  h.leave rfl (.refl _) (List.nil_sublist _) rfl

-- A match takes the players at the front of the queue.
protected theorem Balanced.form (h : a.Balanced (m.players ++ queued)) : (a.form m).Balanced queued := by
  have hw := List.take_append_drop m.players.length a.waiting
  have hq := h.queued
  rw [←hw, List.map_append, List.map_append] at hq
  have hl : m.players.length ≤ a.waiting.length := by
    have := congrArg List.length h.queued
    simp only [List.length_map, List.length_append] at this
    omega
  have ⟨ht, hd⟩ := List.append_inj hq (by simp [hl])
  have hi index : (a.form m).matchedIn index =
      a.matchedIn index ++ if a.formed.length = index then a.waiting.take m.players.length else [] := by
    rw [matchedIn, form, List.filter_append, List.map_append, filter_map_fate (p := (· = .matched index)),
      matchedIn]
    simp
  have hm : (a.form m).matched = a.matched ++ a.waiting.take m.players.length := by
    rw [matched, form, List.filter_append, List.map_append, filter_map_fate (p := Fate.isMatched), matched]
    rfl
  refine ⟨?_, hd, fun index m' hm' => ?_, fun index hl => ?_, ?_⟩
  case refine_1 =>
    refine .trans ?_ h.places
    rw [form, List.map_append, List.map_map, show Prod.fst ∘ (·, _) = @id Nat from rfl, List.map_id]
    refine .trans (List.perm_append_comm.trans ?_) ((List.Perm.of_eq hw).append_right _)
    rw [List.append_assoc]
    exact List.perm_append_comm
  case refine_2 =>
    rw [hi, List.map_append]
    rw [form, List.getElem?_append] at hm'
    split at hm'
    case isTrue hlt =>
      rw [if_neg (by omega), List.map_nil, List.append_nil]
      exact h.players index m' hm'
    case isFalse hge =>
      have ⟨hlt, he⟩ := List.getElem?_eq_some_iff.mp hm'
      rw [List.length_singleton] at hlt
      rw [h.indices index (by omega), if_pos (by omega), List.map_nil, List.nil_append]
      rw [List.getElem_singleton] at he
      exact he ▸ ht
  case refine_3 =>
    rw [form, List.length_append, List.length_singleton] at hl
    rw [hi, h.indices index (by omega), if_neg (by omega), List.append_nil]
  case refine_4 =>
    rw [hm, List.append_assoc, form, hw]
    exact h.order

theorem formed_foldl : (formed.foldl form a).formed = a.formed ++ formed := by
  induction formed generalizing a
  case nil          => simp
  case cons m ms ih => rw [List.foldl_cons, ih, form, List.append_assoc, List.singleton_append]

protected theorem Balanced.forms (h : a.Balanced (formed.flatMap Formed.players ++ queued)) :
    (formed.foldl form a).Balanced queued := by
  induction formed generalizing a
  case nil          => exact h
  case cons m ms ih =>
    rw [List.flatMap_cons, List.append_assoc] at h
    exact ih h.form

end Account

namespace Matchmaking

variable {ID T : Type} [DecidableEq ID] [SchedulerInstant T]
variable {s s' : Matchmaking ID T} {es : List (Event ID T)} {player : ID} {now patience clock : T} {size : Nat}

theorem enqueue_eq_some (h : machine.step s (.enqueue player now) = some s') :
    s.clock ≤ now ∧ s'.clock = now ∧ s'.queue = (s.queue.enqueue player now).fst ∧
    s'.account = if (s.queue.enqueue player now).snd then s.account.accept player else s.account := by
  simp only [machine, Option.ite_none_right_eq_some] at h
  have ⟨hn, he⟩ := h
  cases he
  exact ⟨hn, rfl, rfl, rfl⟩

theorem remove_eq_some (h : machine.step s (.remove player) = some s') :
    s'.clock = s.clock ∧ s'.queue = (s.queue.remove player).fst ∧
    s'.account = if (s.queue.remove player).snd then s.account.remove player else s.account := by
  cases h
  exact ⟨rfl, rfl, rfl⟩

theorem drainReady_eq_some (h : machine.step s (.drainReady now) = some s') :
    s.clock ≤ now ∧ s'.clock = now ∧ s'.queue = (s.queue.drainReady now).fst ∧
    s'.account = (s.queue.drainReady now).snd.foldl .form s.account := by
  simp only [machine, Option.ite_none_right_eq_some] at h
  have ⟨hn, he⟩ := h
  cases he
  exact ⟨hn, rfl, rfl, rfl⟩

structure Invariant (size : Nat) (s : Matchmaking ID T) : Prop where
  sized    : s.queue.size = size
  ordered  : s.queue.Ordered s.clock
  balanced : s.account.Balanced s.queue.players
  full     : ∀ m ∈ s.account.formed, m.timedOut = false →
    m.players.Nodup ∧ m.players.length = size ∧ m.bots = 0

namespace Invariant

omit [DecidableEq ID] in
protected theorem new {hs : 0 < size} : (new size patience clock hs : Matchmaking ID T).Invariant size where
  sized    := rfl
  ordered  := .new
  balanced := .empty
  full     := nofun

protected theorem enqueue (h : s.Invariant size) (hs : machine.step s (.enqueue player now) = some s') :
    s'.Invariant size := by
  have ⟨hn, hc, hq, ha⟩ := enqueue_eq_some hs
  have ho : (s.queue.enqueue player now).fst.Ordered now := h.ordered.enqueue hn
  rw [←hq] at ho
  cases MatchQueue.enqueue_cases s.queue player now
  case inl he =>
    rw [he.right] at hq ha
    rw [if_neg nofun] at ha
    exact ⟨hq ▸ h.sized, hc ▸ ho, hq ▸ ha ▸ h.balanced, ha ▸ h.full⟩
  case inr he =>
    have ⟨_, w, hw, _, _, he⟩ := he
    rw [he] at hq ha
    rw [if_pos rfl] at ha
    refine ⟨hq ▸ h.sized, hc ▸ ho, ?_, ha ▸ h.full⟩
    rw [hq, ha, MatchQueue.players, List.map_append, List.map_singleton, hw]
    exact h.balanced.accept

protected theorem remove (h : s.Invariant size) (hs : machine.step s (.remove player) = some s') :
    s'.Invariant size := by
  have ⟨hc, hq, ha⟩ := remove_eq_some hs
  refine ⟨hq ▸ h.sized, hc ▸ hq ▸ h.ordered.remove, ?_, ?_⟩
  case refine_1 =>
    rw [ha, hq, MatchQueue.players_remove]
    split
    case isTrue     => exact h.balanced.remove
    case isFalse hr =>
      -- Nobody was removed, so that filtering the players changes nothing.
      have hl : (s.queue.remove player).fst.waiting.length = s.queue.waiting.length := by
        simpa [MatchQueue.remove] using hr
      have hf := List.filter_sublist.eq_of_length hl
      have hp : (s.queue.remove player).fst.players = s.queue.players.filter (· ≠ player) :=
        MatchQueue.players_remove
      rw [MatchQueue.players, MatchQueue.remove, hf] at hp
      exact hp ▸ h.balanced
  case refine_2 =>
    rw [ha]
    split
    case isTrue  => exact h.full
    case isFalse => exact h.full

protected theorem clear (h : s.Invariant size) (hs : machine.step s .clear = some s') : s'.Invariant size := by
  cases hs
  exact ⟨h.sized, h.ordered.clear, h.balanced.clear, h.full⟩

theorem drained (h : s.Invariant size) (hs : machine.step s (.drainReady now) = some s') :
    ∃ formed, s'.account = formed.foldl .form s.account ∧ MatchQueue.Drained s.queue now s'.queue formed := by
  have ⟨_, _, hq, ha⟩ := drainReady_eq_some hs
  exact ⟨_, ha, hq ▸ h.ordered.drained⟩

protected theorem drainReady (h : s.Invariant size) (hs : machine.step s (.drainReady now) = some s') :
    s'.Invariant size := by
  have ⟨hn, hc, hq, _⟩ := drainReady_eq_some hs
  have ⟨formed, ha, hd⟩ := h.drained hs
  refine ⟨hd.size.trans h.sized, hc ▸ hq ▸ h.ordered.drainReady hn, ?_, fun m hm ht => ?_⟩
  case refine_1 =>
    rw [ha]
    exact .forms (hd.taken ▸ h.balanced)
  case refine_2 =>
    rw [ha, Account.formed_foldl] at hm
    cases List.mem_append.mp hm
    case inl hm => exact h.full m hm ht
    case inr hm =>
      have ⟨hb, hl⟩ := hd.full m hm ht
      refine ⟨?_, hl.trans h.sized, hb⟩
      have hp := h.ordered.distinct
      rw [←hd.taken] at hp
      exact (List.nodup_flatMap.mp (List.nodup_append.mp hp).left).left m hm

protected theorem step {e : Event ID T} (h : s.Invariant size) (hs : machine.step s e = some s') :
    s'.Invariant size := by
  cases e
  case enqueue    => exact h.enqueue hs
  case remove     => exact h.remove hs
  case clear      => exact h.clear hs
  case drainReady => exact h.drainReady hs

end Invariant

-- Nobody who is accepted is lost or matched twice, players are matched in the order of the queue, and a drain
-- leaves nobody waiting who need not.
theorem conserves {hp : 0 < size} (h : machine.Steps (new size patience clock hp) es s) :
    s.account.Balanced s.queue.players ∧
    (∀ m ∈ s.account.formed, m.timedOut = false → m.players.Nodup ∧ m.players.length = size ∧ m.bots = 0) ∧
    ∀ now s', machine.step s (.drainReady now) = some s' →
      ∃ formed, s'.account.formed = s.account.formed ++ formed ∧ MatchQueue.Drained s.queue now s'.queue formed := by
  have hi := h.preserves Invariant.step .new
  refine ⟨hi.balanced, hi.full, fun now s' hs => ?_⟩
  have ⟨formed, ha, hd⟩ := hi.drained hs
  exact ⟨formed, by rw [ha, Account.formed_foldl], hd⟩

-- A match of two, one who left, and one whose patience ran out.
theorem conserves_timed_out :
    ∃ s : Matchmaking Nat (Fin 1000), machine.Steps (new 2 100 0 (by decide))
      [.enqueue 7 0, .enqueue 8 10, .enqueue 9 10, .drainReady 20, .enqueue 7 30, .remove 9, .drainReady 130] s ∧
      s.account.accepted = [7, 8, 9, 7] ∧ s.account.gone.map Prod.fst = [0, 1, 2, 3] ∧
      s.account.Balanced s.queue.players ∧
      (∀ m ∈ s.account.formed, m.timedOut = false → m.players.Nodup ∧ m.players.length = 2 ∧ m.bots = 0) ∧
      ∀ now s', machine.step s (.drainReady now) = some s' →
        ∃ formed, s'.account.formed = s.account.formed ++ formed ∧
          MatchQueue.Drained s.queue now s'.queue formed :=
  have h := .step rfl <| .step rfl <| .step rfl <| .step rfl <| .step rfl <| .step rfl <| .step rfl .refl
  ⟨_, h, rfl, rfl, conserves h⟩

end Matchmaking
end Plaza.Lobby
