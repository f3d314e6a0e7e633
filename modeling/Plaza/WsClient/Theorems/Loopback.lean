import Plaza.WsClient.Loopback

namespace Plaza.WsClient.Pair

variable {p q : Pair} {ws ws' : List Wire} {w : Wire} {op : Op} {e : Side × Op} {es : List (Side × Op)} {side : Side}
  {pending : Bool} {reason : Option CloseReason}

theorem receive_messages (h : .close ∉ ws) : receive ws = (ws.map Wire.event, [], false) := by
  induction ws
  case nil => rfl
  case cons w ws hi =>
    have ⟨hw, ht⟩ := not_or.mp (mt List.mem_cons.mpr h)
    cases w
    case close => exact absurd rfl hw
    all_goals simp [receive, hi ht, Wire.event]

theorem receive_close (h : .close ∉ ws) :
    receive (ws ++ [.close]) = (ws.map Wire.event ++ [Wire.close.event], [], true) := by
  induction ws
  case nil => rfl
  case cons w ws hi =>
    have ⟨hw, ht⟩ := not_or.mp (mt List.mem_cons.mpr h)
    cases w
    case close => exact absurd rfl hw
    all_goals simp [receive, hi ht, Wire.event]

-- How the near end stands: it has polled the messages `ws` and, if there is a reason, been told of the end;
-- `ws'` are on their way, with a close behind them if one is pending.
structure Stands (p : Pair) (ws ws' : List Wire) (pending : Bool) (reason : Option CloseReason) : Prop where
  polled   : p.near.polled = (if p.near.announcedOpen then [.opened] else []) ++ ws.map Wire.event ++ reason.toList.map .closed
  silent   : p.near.announcedOpen = false → ws = [] ∧ reason = none
  accepted : p.far.accepted = ws ++ ws'
  messages : .close ∉ ws ++ ws'
  inbound  : p.near.inbound = ws' ++ (if pending then [.close] else [])
  told     : reason.isSome → ws' = [] ∧ pending = false ∧ p.closed
  coming   : pending → p.closed
  first    : p.near.closedFirst → p.closed ∧ pending = false ∧ reason = none
  closing  : p.near.closing ∨ p.far.closing → p.closed
  cause    : p.closed → p.near.closing ∨ p.far.closing ∨ p.far.alive = false
  news     : p.closed → p.near.closedFirst ∨ pending ∨ reason.isSome

-- What holds of each end that was not dropped.
def Kept (p : Pair) : Prop :=
  p.near.alive → ∃ ws ws' pending reason, Stands p ws ws' pending reason

theorem pair_kept : pair.Kept := by
  intro _
  exact ⟨[], [], false, none, by constructor <;> simp [pair]⟩

-- A message is refused, or put into the channel.
theorem accept_cases :
    p.accept w = p ∨ p.closed = false ∧ p.far.alive ∧
      p.accept w = { p with far.inbound := p.far.inbound ++ [w], near.accepted := p.near.accepted ++ [w] } := by
  unfold accept send deliver
  by_cases hc : p.closed <;> by_cases ha : p.far.alive <;> simp [hc, ha]

-- The first close reaches the far end if that was not dropped.
theorem close_cases :
    p.closed ∧ p.close = p ∨ p.closed = false ∧ ∃ ws, (p.far.alive → ws = [.close]) ∧
      p.close = { p with far.inbound := p.far.inbound ++ ws, closed := true } := by
  unfold close deliver
  by_cases hc : p.closed
  case pos => exact .inl ⟨hc, if_pos hc⟩
  case neg =>
    rw [if_neg hc]
    refine .inr ⟨by simpa using hc, ?_⟩
    split
    case isTrue    => exact ⟨[.close], fun _ => rfl, rfl⟩
    case isFalse h => exact ⟨[], (absurd · h), by simp⟩

-- A poll leaves all but the channel and the flag as they are.
theorem poll_cases :
    ∃ ws c, p.poll.fst = { p with near.announcedOpen := true, near.inbound := ws, closed := c } := by
  rw [poll]
  obtain ⟨_, ws, close⟩ := receive p.near.inbound
  cases close
  case true  => exact ⟨ws, true, rfl⟩
  case false =>
    dsimp only
    rw [if_neg Bool.false_ne_true]
    split
    case isTrue  => exact ⟨ws, true, rfl⟩
    case isFalse => exact ⟨ws, p.closed, rfl⟩

-- All that an operation on one end does to the other is to send something.
theorem far_act (p : Pair) (op : Op) : ∃ ws, (p.act op).far = { p.far with inbound := p.far.inbound ++ ws } := by
  have ha : ∀ w, ∃ ws, (p.accept w).far = { p.far with inbound := p.far.inbound ++ ws } := by
    intro w
    cases accept_cases (p := p) (w := w)
    case inl he => exact ⟨[], by simp [he]⟩
    case inr he => exact ⟨[w], by rw [he.right.right]⟩
  cases op
  case send     => exact ha _
  case sendText => exact ha _
  case poll     =>
    have ⟨_, _, he⟩ := poll_cases (p := p)
    exact ⟨[], by simp [act, he]⟩
  case close    =>
    cases close_cases (p := p)
    case inl he => exact ⟨[], by simp [act, he.right]⟩
    case inr he =>
      have ⟨_, ws, _, he⟩ := he
      exact ⟨ws, by rw [act, he]⟩
  case drop     => exact ⟨[], by simp [act, drop]⟩

theorem closedFirst_act :
    (p.act op).near.closedFirst = false ↔ p.near.closedFirst = false ∧ (op = .close → p.closed) := by
  have ha : ∀ w, (p.accept w).near.closedFirst = p.near.closedFirst := by
    intro w
    cases accept_cases (p := p) (w := w)
    case inl he => rw [he]
    case inr he => rw [he.right.right]
  cases op
  case send     => simp [act, ha]
  case sendText => simp [act, ha]
  case poll     =>
    have ⟨_, _, he⟩ := poll_cases (p := p)
    simp [act, he]
  case close    => simp [act]
  case drop     => simp [act, drop]

-- How a poll ends.
def ending (p : Pair) (pending : Bool) : Option CloseReason :=
  if pending then some (.remote 1000 "")
  else if !p.far.alive && !p.closed then some (.error "loopback peer dropped")
  else none

theorem ending_isSome_iff : (p.ending pending).isSome ↔ pending ∨ p.far.alive = false ∧ p.closed = false := by
  cases pending <;> cases ha : p.far.alive <;> cases hc : p.closed <;> simp [ending, ha, hc]

namespace Stands

theorem send (h : Stands p ws ws' pending reason) : Stands (p.accept w) ws ws' pending reason := by
  cases accept_cases (p := p) (w := w)
  case inl he => rwa [he]
  case inr he =>
    rw [he.right.right]
    exact { h with }

-- A message is accepted only as long as nothing stands in its way.
theorem sent (h : Stands p ws ws' pending reason) (hw : w ≠ .close) :
    ∃ ws', Stands (p.swap.accept w).swap ws ws' pending reason := by
  cases accept_cases (p := p.swap) (w := w)
  case inl he => exact ⟨ws', by rwa [he]⟩
  case inr he =>
    have hc : p.closed = false := he.left
    have hp : pending = false := by simpa [hc] using h.coming
    have hr : reason = none := by simpa [hc] using h.told
    refine ⟨ws' ++ [w], ?_⟩
    rw [he.right.right]
    exact {
      h with
      accepted := by simp [swap, h.accepted]
      messages := by simpa [hw.symm] using h.messages
      inbound  := by simp [swap, h.inbound, hp]
      told     := by simp [hr]
    }

theorem close (h : Stands p ws ws' pending reason) : Stands (p.act .close) ws ws' pending reason := by
  cases close_cases (p := p)
  case inl he =>
    rw [act, he.right]
    exact {
      h with
      first   := by simpa [he.left] using h.first
      closing := by simp [he.left]
      cause   := by simp
      news    := by simpa [he.left] using h.news
    }
  case inr he =>
    obtain ⟨hc, _, _, he⟩ := he
    have hp : pending = false := by simpa [hc] using h.coming
    have hr : reason = none := by simpa [hc] using h.told
    rw [act, he]
    exact {
      h with
      told    := by simp [hr]
      coming  := by simp
      first   := by simp [hp, hr]
      closing := by simp
      cause   := by simp
      news    := by simp [hc]
    }

theorem closed (h : Stands p ws ws' pending reason) (ha : p.near.alive) :
    ∃ pending, Stands (p.swap.act .close).swap ws ws' pending reason := by
  cases close_cases (p := p.swap)
  case inl he =>
    have hc : p.closed := he.left
    refine ⟨pending, ?_⟩
    rw [act, he.right]
    exact {
      h with
      closing := by simp [swap, hc]
      cause   := by simp [swap]
    }
  case inr he =>
    obtain ⟨hc, _, hw, he⟩ := he
    have hc : p.closed = false := hc
    have hp : pending = false := by simpa [hc] using h.coming
    have hr : reason = none := by simpa [hc] using h.told
    have hf : p.near.closedFirst = false := by simpa [hc] using h.first
    refine ⟨true, ?_⟩
    rw [act, he]
    exact {
      h with
      inbound := by simp [swap, h.inbound, hp, hw ha]
      told    := by simp [hr]
      coming  := by simp [swap]
      first   := by simp [swap, hf]
      closing := by simp [swap]
      cause   := by simp [swap]
      news    := by simp
    }

theorem dropped (h : Stands p ws ws' pending reason) : Stands (p.swap.act .drop).swap ws ws' pending reason :=
  { h with cause := by simp [act, drop, swap] }

-- What a poll finds: all that is on its way, and the end of it.
theorem poll_eq (h : Stands p ws ws' pending reason) :
    p.poll = ({ p with near.announcedOpen := true, near.inbound := [], closed := p.closed || !p.far.alive },
      (if p.near.announcedOpen then [] else [.opened]) ++ ws'.map Wire.event ++ (p.ending pending).toList.map .closed) := by
  have hm : .close ∉ ws' := fun hw => h.messages (List.mem_append_right _ hw)
  rw [poll, h.inbound, ending]
  cases pending
  case true =>
    simp only [↓reduceIte, receive_close hm, h.coming rfl, Bool.true_or]
    simp [Wire.event]
  case false =>
    simp only [Bool.false_eq_true, ↓reduceIte, List.append_nil, receive_messages hm]
    cases p.closed <;> cases p.far.alive <;> simp

theorem poll (h : Stands p ws ws' pending reason) :
    Stands (p.act .poll) (ws ++ ws') [] false (reason <|> p.ending pending) := by
  rw [act, h.poll_eq]
  cases hr : reason
  case some r =>
    have ⟨hw, hp, hc⟩ := h.told (by simp [hr])
    have ha : p.near.announcedOpen := by
      by_contra ha
      simp [(h.silent (by simpa using ha)).right] at hr
    subst hr hw hp
    exact {
      polled   := by simp [h.polled, ha, ending, hc]
      silent   := by simp
      accepted := by simpa using h.accepted
      messages := by simpa using h.messages
      inbound  := rfl
      told     := by simp [hc]
      coming   := by simp
      first    := by simpa using h.first
      closing  := by simp [hc]
      cause    := fun _ => h.cause hc
      news     := by simp
    }
  case none =>
    subst hr
    exact {
      polled   := by
        cases ha : p.near.announcedOpen
        case false => simp [h.polled, ha, (h.silent ha).left]
        case true  => simp [h.polled, ha]
      silent   := by simp
      accepted := by simpa using h.accepted
      messages := by simpa using h.messages
      inbound  := rfl
      told     := by
        intro he
        cases ending_isSome_iff.mp he
        case inl hp => simp [h.coming hp]
        case inr he => simp [he.left]
      coming   := by simp
      first    := by
        intro hf
        have ⟨hc, hp, _⟩ := h.first hf
        simp [hc, hp, ending]
      closing  := fun hc => by simp [h.closing hc]
      cause    := by
        intro hc
        cases hc' : p.closed
        case true  => exact h.cause hc'
        case false => simpa [hc'] using Or.inr (Or.inr hc)
      news     := by
        intro hc
        cases hc' : p.closed
        case false => exact .inr <| .inr <| ending_isSome_iff.mpr <| .inr ⟨by simpa [hc'] using hc, hc'⟩
        case true  =>
          match h.news hc' with
          | .inl hf        => exact .inl hf
          | .inr (.inl hp) => exact .inr <| .inr <| ending_isSome_iff.mpr <| .inl hp
    }

-- The poll of the other end changes nothing that this one sees.
theorem overheard (h : Stands p ws ws' pending reason) (hk : p.swap.Kept) (hn : p.near.alive) (hf : p.far.alive) :
    Stands (p.swap.act .poll).swap ws ws' pending reason := by
  obtain ⟨_, _, _, _, hs⟩ := hk hf
  have hn : p.swap.far.alive := hn
  rw [act, hs.poll_eq, hn]
  exact { h with
    told    := by simpa [swap] using h.told
    coming  := by simpa [swap] using h.coming
    first   := by simpa [swap] using h.first
    closing := by simpa [swap] using h.closing
    cause   := by simpa [swap] using h.cause
    news    := by simpa [swap] using h.news
  }

end Stands

theorem Kept.act (h : p.Kept) (ha : p.near.alive) : (p.act op).Kept := by
  obtain ⟨ws, ws', pending, reason, h⟩ := h ha
  intro hd
  cases op
  case send     => exact ⟨_, _, _, _, h.send⟩
  case sendText => exact ⟨_, _, _, _, h.send⟩
  case poll     => exact ⟨_, _, _, _, h.poll⟩
  case close    => exact ⟨_, _, _, _, h.close⟩
  case drop     => simp [Pair.act, Pair.drop] at hd

theorem Kept.act_far (h : p.Kept) (hk : p.swap.Kept) (hf : p.far.alive) : (p.swap.act op).swap.Kept := by
  intro ha
  have ⟨_, hp⟩ := far_act p.swap op
  have hn : p.near.alive := (congrArg LoopbackSocket.alive hp).symm.trans ha
  obtain ⟨ws, ws', pending, reason, h⟩ := h hn
  cases op
  case send bytes =>
    have ⟨_, h⟩ := h.sent (w := .binary bytes) nofun
    exact ⟨_, _, _, _, h⟩
  case sendText text =>
    have ⟨_, h⟩ := h.sent (w := .text text) nofun
    exact ⟨_, _, _, _, h⟩
  case poll => exact ⟨_, _, _, _, h.overheard hk hn hf⟩
  case close =>
    have ⟨_, h⟩ := h.closed hn
    exact ⟨_, _, _, _, h⟩
  case drop => exact ⟨_, _, _, _, h.dropped⟩

-- Both ends are kept, from any point of view.
def Invariant (p : Pair) : Prop :=
  p.Kept ∧ p.swap.Kept

theorem Invariant.of (h : Invariant p) (side : Side) : Invariant (p.of side) := by
  cases side
  case client => exact h
  case host   => exact h.symm

theorem of_of : (p.of side).of side = p := by
  cases side <;> rfl

theorem Invariant.step (h : Invariant p) (hs : machine.step p e = some q) : Invariant q := by
  simp only [machine, Option.ite_none_right_eq_some, Option.some.injEq] at hs
  have ⟨ha, hq⟩ := hs
  have h := h.of e.fst
  exact hq ▸ Invariant.of ⟨h.left.act ha, h.right.act_far h.left ha⟩ _

theorem Invariant.steps (h : machine.Steps pair es p) : Invariant p :=
  h.preserves Invariant.step ⟨pair_kept, pair_kept⟩

-- Whether an end has closed the pair as the first of the two is decided by how it closes.
theorem closedFirst_step (hs : machine.step p e = some q) :
    (q.of side).near.closedFirst = false ↔ (p.of side).near.closedFirst = false ∧ Yields side p e := by
  simp only [machine, Option.ite_none_right_eq_some, Option.some.injEq] at hs
  obtain ⟨_, hq⟩ := hs
  by_cases he : e.fst = side
  case pos =>
    subst hq he
    have hc : (p.of e.fst).closed = p.closed := by cases e.fst <;> rfl
    rw [of_of, closedFirst_act, hc]
    simp [Yields, Prod.ext_iff]
  case neg =>
    have hy : Yields side p e := fun h => absurd (congrArg Prod.fst h) he
    have hn : (q.of side).near.closedFirst = (p.of side).near.closedFirst := by
      have ⟨_, hf⟩ := far_act (p.of e.fst) e.snd
      have hf := congrArg LoopbackSocket.closedFirst hf
      rw [←hq]
      cases side <;> cases h : e.fst
      case client.client => exact absurd h he
      case host.host     => exact absurd h he
      all_goals simpa [h, of, swap] using hf
    rw [hn, and_iff_left hy]

-- Where nothing is on its way any more, the end has seen it all, unless it was the first to close.
theorem Stands.lawful_iff (h : Stands p ws [] false reason) (ha : p.near.announcedOpen)
    (hd : p.far.alive = false → p.closed) : p.Lawful ↔ p.near.closedFirst = false := by
  constructor
  case mp =>
    intro ⟨n, reason', hp, hr, _⟩
    by_contra hf
    have ⟨hc, _, hn⟩ := h.first (by simpa using hf)
    have ⟨r, hr⟩ := Option.isSome_iff_exists.mp <| hr.mpr (h.cause hc)
    have hm : .closed r ∈ p.near.polled := by simp [hp, hr]
    rw [h.polled, ha, hn] at hm
    simp only [↓reduceIte, Option.toList_none, List.map_nil, List.append_nil, List.mem_append,
      List.mem_singleton, reduceCtorEq, false_or, List.mem_map] at hm
    have ⟨w, hw, he⟩ := hm
    cases w <;> simp [Wire.event] at he
    exact h.messages (List.mem_append_left _ hw)
  case mpr =>
    intro hf
    have hw : p.far.accepted = ws := by simpa using h.accepted
    refine ⟨ws.length, reason, ?_, ?_, ?_⟩
    case refine_1 => simp [h.polled, ha, hw]
    case refine_2 =>
      constructor
      case mp => exact fun hr => h.cause (h.told hr).right.right
      case mpr =>
        intro hc
        have hc : p.closed := by
          match hc with
          | .inl hc        => exact h.closing (.inl hc)
          | .inr (.inl hc) => exact h.closing (.inr hc)
          | .inr (.inr hc) => exact hd hc
        simpa [hf] using h.news hc
    case refine_3 => exact fun _ _ => hw ▸ Nat.le_refl _

theorem lawful_poll (h : Invariant p) (ha : p.near.alive) :
    (p.act .poll).Lawful ↔ (p.act .poll).near.closedFirst = false := by
  obtain ⟨_, _, _, _, h⟩ := h.left ha
  refine h.poll.lawful_iff ?_ ?_
  case refine_1 => rw [act, h.poll_eq]
  case refine_2 =>
    rw [act, h.poll_eq]
    intro hd
    simpa using .inr hd

-- Exactly those ends are told of the end which were not the first to close.
theorem lawful_iff_yields (h : machine.Steps pair (es ++ [(side, .poll)]) p) :
    (p.of side).Lawful ↔ (machine.restrict (Yields side)).Steps pair (es ++ [(side, .poll)]) p := by
  have hr := h.restrict_iff (I := fun _ => True) (Q := fun s => (s.of side).near.closedFirst = false)
    (P := Yields side) (fun _ _ => trivial) (fun _ hs => closedFirst_step hs) trivial
  have h₀ : (pair.of side).near.closedFirst = false := by cases side <;> rfl
  rw [and_iff_right h₀] at hr
  rw [←hr]
  obtain ⟨q, hq, hp⟩ := h.split
  cases hp
  case step hs hp =>
    cases hp
    simp only [machine, Option.ite_none_right_eq_some, Option.some.injEq] at hs
    obtain ⟨ha, hs⟩ := hs
    rw [←hs, of_of]
    exact lawful_poll ((Invariant.steps hq).of side) ha

-- The peer of an end that closes is told of it, behind the message which was sent before.
theorem lawful_peer :
    ∃ p, machine.Steps pair ([(.client, .send [1]), (.client, .close)] ++ [(.host, .poll)]) p ∧ (p.of .host).Lawful := by
  have hr : (machine.restrict (Yields .host)).run pair
      ([(.client, .send [1]), (.client, .close)] ++ [(.host, .poll)]) |>.isSome := by decide +kernel
  have ⟨p, hp⟩ := Option.isSome_iff_exists.mp hr
  have hp := Machine.run_eq_some_iff.mp hp
  exact ⟨p, hp.of_restrict, (lawful_iff_yields hp.of_restrict).mpr hp⟩

-- An end that closes is never told of it itself.
theorem own_close_unreported :
    ∃ p, machine.Steps pair [(.client, .close), (.client, .poll)] p ∧ p.near.polled = [.opened] ∧
      ¬(p.of .client).Lawful := by
  have hr : (machine.run pair [(.client, .close), (.client, .poll)]).any fun p =>
      p.near.polled = [.opened] && p.near.closing := by decide +kernel
  have ⟨p, hs, hp⟩ := Option.any_eq_true .. |>.mp hr
  simp only [Bool.and_eq_true, decide_eq_true_eq] at hp
  refine ⟨p, Machine.run_eq_some_iff.mp hs, hp.left, ?_⟩
  intro ⟨n, reason, hl, hc, _⟩
  have ⟨r, hr⟩ := Option.isSome_iff_exists.mp <| hc.mpr (.inl hp.right)
  simp [of, hp.left, hr] at hl

end Plaza.WsClient.Pair
