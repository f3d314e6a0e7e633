import Plaza.ClientUtils.NetSim
import Plaza.Lib.Ordered

namespace Plaza.ClientUtils.LatencyLink

open Rust

variable {α : Type}

-- What the wire took on, and the times between which it can be delivered, unless it is held back.
structure Shipment (α : Type) where
  packet   : α
  earliest : Nat
  latest   : Nat

-- A wire in use: the packets it was given, those of them which it did not lose, and what was drained from it when.
structure Journal (α : Type) where
  link      : LatencyLink α
  rng       : Rng
  given     : List α
  carried   : List (Shipment α)
  delivered : List (Nat × α)

def Journal.start (ordering : Ordering) (seed : UInt64) : Journal α where
  link      := new.withOrdering ordering
  rng       := .new seed
  given     := []
  carried   := []
  delivered := []

def machine : Machine (Journal α) (Op α) where
  step j
    | .send nowMs packet latencyMs jitterMs lossPct => do
      let (link, rng) ← j.link.send nowMs packet latencyMs jitterMs lossPct j.rng
      let shipment := ⟨packet, nowMs + latencyMs, nowMs + latencyMs + jitterMs.toNat⟩
      some { j with
        link, rng
        given   := j.given ++ [packet]
        carried := if (loses lossPct j.rng).snd then j.carried else j.carried ++ [shipment] }
    | .drain nowMs =>
      let (link, due) := j.link.drainDue nowMs
      some { j with link, delivered := j.delivered ++ due.map (nowMs, ·) }

-- The packet of a call to `send` cannot be lost.
def Op.Lossless : Op α → Prop
  | .send _ _ _ _ lossPct => lossPct ≤ 0
  | .drain _              => True

variable {l l' : LatencyLink α} {j j' : Journal α} {op : Op α} {ops : List (Op α)} {rng rng' : Rng}
  {now latency : Nat} {packet : α} {jitter : UInt64} {loss : F32} {seed : UInt64} {ordering : Ordering}

theorem upTo_le {x : UInt64} (h : rng.upTo jitter = some (rng', x)) : x.toNat ≤ jitter.toNat := by
  simp only [Rng.upTo] at h
  split at h
  case isTrue =>
    cases h
    simp
  case isFalse =>
    simp only [Option.ite_none_left_eq_some, Option.some.injEq, Prod.mk.injEq] at h
    obtain ⟨hz, -, rfl⟩ := h
    have hm : (jitter + 1).toNat = jitter.toNat + 1 := by
      have hn : (jitter + 1).toNat ≠ 0 := mt (UInt64.toNat_inj (b := 0)).mp hz
      rw [UInt64.toNat_add] at hn ⊢
      have := jitter.toNat_lt
      simp at hn ⊢
      omega
    rw [UInt64.toNat_mod, hm]
    exact Nat.lt_succ_iff.mp <| Nat.mod_lt _ (Nat.succ_pos _)

-- What `send` can do: lose the packet, or queue it for a time in its range, or for that of its predecessor.
theorem send_cases (h : l.send now packet latency jitter loss rng = some (l', rng')) :
    ((loses loss rng).snd ∧ l' = l) ∨
    (¬(loses loss rng).snd ∧ ∃ at', l' = { l with queue := l.queue ++ [(at', packet)], lastDeliverMs := at' } ∧
      now + latency ≤ at' ∧ (l.ordering = .ordered → l.lastDeliverMs ≤ at') ∧
      (at' ≤ now + latency + jitter.toNat ∨ l.ordering = .ordered ∧ at' = l.lastDeliverMs)) := by
  simp only [send] at h
  split at h
  case isTrue hl =>
    cases h
    exact .inl ⟨hl, rfl⟩
  case isFalse hl =>
    simp only [Option.bind_eq_bind, Option.bind_eq_some_iff, Option.some.injEq, Prod.mk.injEq] at h
    obtain ⟨⟨r, x⟩, hx, hl', -⟩ := h
    have hx : x.toNat ≤ jitter.toNat := upTo_le hx
    refine .inr ⟨hl, _, hl'.symm, ?_⟩
    split
    case isTrue ho =>
      dsimp only
      exact ⟨by omega, fun _ => by omega, by simp only [ho, true_and]; omega⟩
    case isFalse ho =>
      dsimp only
      exact ⟨by omega, fun h => absurd h ho, .inl (by omega)⟩

theorem not_loses (h : loss ≤ 0) : ¬(loses loss rng).snd := by
  simp [loses, not_lt.mpr h]

theorem pairwise_due {queue : List (Nat × α)} (h : queue.Pairwise (·.fst ≤ ·.fst)) (now : Nat) :
    queue.Pairwise fun a b => decide (b.fst ≤ now) → decide (a.fst ≤ now) :=
  h.imp fun h => by simpa using h.trans

-- Wherever deliveries are in order, what is due is at the front of the queue.
theorem drainDue_eq (h : l.queue.Pairwise (·.fst ≤ ·.fst)) :
    l.drainDue now = ({ l with queue := l.queue.dropWhile (·.fst ≤ now) },
      (l.queue.takeWhile (·.fst ≤ now)).map Prod.snd) := by
  have hp := pairwise_due h now
  have hs : (l.queue.takeWhile (·.fst ≤ now)).Pairwise fun a b => decide (a.fst ≤ b.fst) :=
    (h.sublist (List.takeWhile_sublist _)).imp decide_eq_true
  simp only [drainDue, ← List.takeWhile_eq_filter hp, List.mergeSort_of_pairwise hs,
    List.dropWhile_eq_filter_iff.mpr hp, decide_not]

theorem ordering_send (h : l.send now packet latency jitter loss rng = some (l', rng')) : l'.ordering = l.ordering := by
  rcases send_cases h with ⟨-, rfl⟩ | ⟨-, _, rfl, -⟩ <;> rfl

namespace Journal

-- What is drained are the packets which were taken, in that order, each once and not before its latency has passed.
-- It is drained as soon as the jitter of all packets up to it must have passed, too.
structure Fifo (j : Journal α) : Prop where
  packets : (j.delivered ++ j.link.queue).map Prod.snd = j.carried.map Shipment.packet
  early   : ∀ (k : Nat) s d, j.carried[k]? = some s → j.delivered[k]? = some d → s.earliest ≤ d.fst
  late    : ∀ now k, k < j.carried.length → (∀ s ∈ j.carried.take (k + 1), s.latest ≤ now) →
    k < j.delivered.length + (j.link.drainDue now).snd.length

-- What is drained are packets which were taken, each once and not before its latency has passed. A wire is empty once
-- the jitter of all packets must have passed, too.
structure Conserves (j : Journal α) : Prop where
  packets : ∃ out held, ((out ++ held : List (Shipment α))).Perm j.carried ∧
    out.Forall₂ (fun s d => s.packet = d.snd ∧ s.earliest ≤ d.fst) j.delivered ∧
    held.map Shipment.packet = j.link.queue.map Prod.snd
  late    : ∀ now, (∀ s ∈ j.carried, s.latest ≤ now) → (j.link.drainDue now).fst.queue = []

-- The packets are on their way in the order in which they were taken, none of them earlier than it may be or later
-- than the last of those up to it.
structure InOrder (j : Journal α) : Prop where
  ordered : j.link.ordering = .ordered
  sorted  : j.link.queue.Pairwise (·.fst ≤ ·.fst)
  le_last : ∀ e ∈ j.link.queue, e.fst ≤ j.link.lastDeliverMs
  last    : j.link.lastDeliverMs = 0 ∨ ∃ s ∈ j.carried, j.link.lastDeliverMs ≤ s.latest
  early   : j.carried.Forall₂ (fun s d => s.packet = d.snd ∧ s.earliest ≤ d.fst) (j.delivered ++ j.link.queue)
  late    : ∀ k e, j.link.queue[k]? = some e →
    ∃ s ∈ j.carried.take (j.delivered.length + k + 1), e.fst ≤ s.latest

namespace InOrder

theorem start : (Journal.start .ordered seed : Journal α).InOrder where
  ordered := rfl
  sorted  := .nil
  le_last := by simp [Journal.start, new, withOrdering]
  last    := .inl rfl
  early   := .nil
  late    := by simp [Journal.start, new, withOrdering]

theorem length_eq (h : j.InOrder) : j.carried.length = j.delivered.length + j.link.queue.length := by
  rw [h.early.length_eq, List.length_append]

theorem send (h : j.InOrder) (hs : machine.step j (.send now packet latency jitter loss) = some j') : j'.InOrder := by
  simp only [machine, Option.bind_eq_bind, Option.bind_eq_some_iff, Option.some.injEq] at hs
  obtain ⟨⟨l, rng⟩, hs, rfl⟩ := hs
  have hn := h.length_eq
  rcases send_cases hs with ⟨hl, rfl⟩ | ⟨hl, at', rfl, he, hm, hu⟩
  case inl => exact ⟨h.ordered, h.sorted, h.le_last, by simpa [hl] using h.last, by simpa [hl] using h.early,
    by simpa [hl] using h.late⟩
  case inr =>
    have hm := hm h.ordered
    simp only [if_neg hl]
    have hd : ∃ s ∈ j.carried ++ [⟨packet, now + latency, now + latency + jitter.toNat⟩], at' ≤ s.latest := by
      rcases hu with hu | ⟨-, rfl⟩
      case inl => exact ⟨_, List.mem_concat_self, hu⟩
      case inr =>
        rcases h.last with h | ⟨s, hs, hl⟩
        case inl => exact ⟨_, List.mem_concat_self, by omega⟩
        case inr => exact ⟨s, List.mem_append_left _ hs, hl⟩
    refine ⟨h.ordered, ?sorted, ?le_last, .inr hd, ?early, ?late⟩
    case sorted =>
      refine List.pairwise_append.mpr ⟨h.sorted, List.pairwise_singleton .., fun e he' d hd => ?_⟩
      exact List.mem_singleton.mp hd ▸ (h.le_last e he').trans hm
    case le_last =>
      intro e he'
      cases List.mem_append.mp he'
      case inl he' => exact (h.le_last e he').trans hm
      case inr he' => simp [List.mem_singleton.mp he']
    case early =>
      rw [← List.append_assoc]
      exact List.rel_append h.early (.cons ⟨rfl, he⟩ .nil)
    case late =>
      intro k e hk
      dsimp only at hk ⊢
      rcases Nat.lt_or_ge k j.link.queue.length with hlt | hge
      case inl =>
        rw [List.getElem?_append_left hlt] at hk
        obtain ⟨s, hs, hl⟩ := h.late k e hk
        refine ⟨s, ?_, hl⟩
        rwa [List.take_append_of_le_length (by omega)]
      case inr =>
        rw [List.getElem?_append_right hge, List.getElem?_singleton] at hk
        split at hk
        case isFalse => cases hk
        case isTrue  =>
          cases hk
          rw [List.take_of_length_le (by simp; omega)]
          exact hd

theorem drain (h : j.InOrder) (hs : machine.step j (.drain now) = some j') : j'.InOrder := by
  simp only [machine, drainDue_eq h.sorted, Option.some.injEq] at hs
  subst hs
  have hd := List.dropWhile_sublist (·.fst ≤ now) (l := j.link.queue)
  have hw : ∀ e ∈ j.link.queue.takeWhile (·.fst ≤ now), e.fst ≤ now := by
    intro e he
    simpa using List.mem_takeWhile_imp he
  have hq := List.takeWhile_append_dropWhile (p := (·.fst ≤ now)) (l := j.link.queue)
  refine ⟨h.ordered, h.sorted.sublist hd, fun e he => h.le_last e (hd.mem he), h.last, ?early, ?late⟩
  all_goals
    dsimp only
    generalize j.link.queue.takeWhile (·.fst ≤ now) = due at *
    generalize j.link.queue.dropWhile (·.fst ≤ now) = rest at *
  case early =>
    have he := hq ▸ h.early
    obtain ⟨out, held, hc, ho, hr⟩ := List.Forall₂.split he
    obtain ⟨l₁, l₂, rfl, hd, hl⟩ := List.Forall₂.split hr
    have hs := (List.forall₂_and_left ..).mpr ⟨hw, hd.flip⟩ |>.flip
    have hs : List.Forall₂ (fun (s : Shipment α) d => s.packet = d.snd ∧ s.earliest ≤ d.fst) _
        (due.map fun d => (now, d.snd)) :=
      List.forall₂_map_right_iff.mpr <| hs.imp fun _ _ h => ⟨h.right.left, h.right.right.trans h.left⟩
    have hs := List.rel_append ho (List.rel_append hs hl)
    simpa [Function.comp_def, hc] using hs
  case late =>
    intro k e hk
    have hk : j.link.queue[due.length + k]? = some e := by
      rwa [← hq, List.getElem?_append_right (by omega), Nat.add_sub_cancel_left]
    simpa [Nat.add_assoc] using h.late _ e hk

theorem step (h : j.InOrder) (hs : machine.step j op = some j') : j'.InOrder := by
  cases op
  case send  => exact h.send hs
  case drain => exact h.drain hs

theorem fifo (h : j.InOrder) : j.Fifo where
  packets := by
    have he := h.early.imp fun _ _ h => h.left
    have he := List.forall₂_map_left_iff.mpr (List.forall₂_map_right_iff.mpr he)
    exact (List.forall₂_eq_eq_eq ▸ he).symm
  early k s d hs hd := by
    have hk := (List.getElem?_eq_some_iff.mp hd).choose
    exact (h.early.rel_of_getElem? hs <| by rwa [List.getElem?_append_left hk]).right
  late now k hk hl := by
    rw [drainDue_eq h.sorted, List.length_map]
    by_contra hn
    have hlt := h.length_eq ▸ hk
    have he := List.getElem?_eq_getElem (by omega : k - j.delivered.length < j.link.queue.length)
    obtain ⟨s, hs, hle⟩ := h.late _ _ he
    have hn := List.Pairwise.not_of_length_takeWhile_le (pairwise_due h.sorted now) (by omega) he
    have hs := hl s (by rwa [show j.delivered.length + (k - j.delivered.length) + 1 = k + 1 by omega] at hs)
    simp only [decide_eq_true_eq] at hn
    omega

end InOrder

-- The packets are on their way in any order.
structure AnyOrder (j : Journal α) (out held : List (Shipment α)) : Prop where
  ordering : j.link.ordering = .unordered
  perm     : (out ++ held).Perm j.carried
  out      : out.Forall₂ (fun s d => s.packet = d.snd ∧ s.earliest ≤ d.fst) j.delivered
  held     : held.Forall₂ (fun s e => s.packet = e.snd ∧ s.earliest ≤ e.fst ∧ e.fst ≤ s.latest) j.link.queue

namespace AnyOrder

variable {out held : List (Shipment α)}

theorem send (h : j.AnyOrder out held) (hs : machine.step j (.send now packet latency jitter loss) = some j') :
    ∃ out held, j'.AnyOrder out held := by
  simp only [machine, Option.bind_eq_bind, Option.bind_eq_some_iff, Option.some.injEq] at hs
  obtain ⟨⟨l, rng⟩, hs, rfl⟩ := hs
  rcases send_cases hs with ⟨hl, rfl⟩ | ⟨hl, at', rfl, he, -, hu⟩
  case inl => exact ⟨out, held, h.ordering, by simpa [hl] using h.perm, h.out, h.held⟩
  case inr =>
    have hu : at' ≤ now + latency + jitter.toNat := hu.resolve_right fun ho => by simp [h.ordering] at ho
    refine ⟨out, held ++ [⟨packet, now + latency, now + latency + jitter.toNat⟩], h.ordering, ?_, h.out, ?_⟩
    case refine_1 => simpa [if_neg hl, ← List.append_assoc] using h.perm.append_right _
    case refine_2 => exact List.rel_append h.held (.cons ⟨rfl, he, hu⟩ .nil)

theorem drain (h : j.AnyOrder out held) (hs : machine.step j (.drain now) = some j') :
    ∃ out held, j'.AnyOrder out held := by
  simp only [machine, drainDue, Option.some.injEq] at hs
  subst hs
  have hq := List.filter_append_perm (·.fst ≤ now) j.link.queue
  have hw : ∀ e ∈ (j.link.queue.filter (·.fst ≤ now)).mergeSort (·.fst ≤ ·.fst), e.fst ≤ now := by simp
  have hp := hq.symm.trans <| (List.mergeSort_perm _ (·.fst ≤ ·.fst)).symm.append_right _
  obtain ⟨held', hh, hf⟩ := h.held.exists_perm hp
  obtain ⟨l₁, l₂, rfl, hd, hl⟩ := hf.split
  have hs := (List.forall₂_and_left ..).mpr ⟨hw, hd.flip⟩ |>.flip
  refine ⟨out ++ l₁, l₂, h.ordering, ?_, List.rel_append h.out ?_, by simpa only [decide_not] using hl⟩
  case refine_1 => simpa using (hh.symm.append_left out).trans h.perm
  case refine_2 =>
    simp only [List.map_map, List.forall₂_map_right_iff]
    exact hs.imp fun _ _ h => ⟨h.right.left, h.right.right.left.trans h.left⟩

theorem step (h : j.AnyOrder out held) (hs : machine.step j op = some j') : ∃ out held, j'.AnyOrder out held := by
  cases op
  case send  => exact h.send hs
  case drain => exact h.drain hs

theorem balances (h : j.AnyOrder out held) : j.Conserves where
  packets := ⟨out, held, h.perm, h.out, by
    have hh := h.held.imp fun _ _ h => h.left
    have hh := List.forall₂_map_left_iff.mpr (List.forall₂_map_right_iff.mpr hh)
    exact List.forall₂_eq_eq_eq ▸ hh⟩
  late now hl := by
    refine List.filter_eq_nil_iff.mpr fun e he => ?_
    obtain ⟨s, hs, -, -, hle⟩ := h.held.exists_of_mem_right he
    have hs := hl s (h.perm.mem_iff.mp (List.mem_append_right _ hs))
    simp only [decide_not, Bool.not_eq_true', decide_eq_false_iff_not, not_not]
    omega

end AnyOrder

-- Whatever is not lost is carried.
theorem took_step (h : (j.carried.map Shipment.packet).Sublist j.given) (hs : machine.step j op = some j') :
    (j'.carried.map Shipment.packet).Sublist j'.given ∧
      (op.Lossless → j.carried.map Shipment.packet = j.given → j'.carried.map Shipment.packet = j'.given) := by
  cases op
  case drain now =>
    simp only [machine, Option.some.injEq] at hs
    subst hs
    exact ⟨h, fun _ h => h⟩
  case send now packet latency jitter loss =>
    simp only [machine, Option.bind_eq_bind, Option.bind_eq_some_iff, Option.some.injEq] at hs
    obtain ⟨⟨l, rng⟩, hs, rfl⟩ := hs
    dsimp only
    split
    case isTrue hl  => exact ⟨h.trans (List.sublist_append_left ..), fun hn => absurd hl (not_loses hn)⟩
    case isFalse hl =>
      rw [List.map_append]
      exact ⟨h.append (.refl _), fun _ h => h ▸ rfl⟩

theorem took (h : machine.Steps j ops j') (ht : (j.carried.map Shipment.packet).Sublist j.given) :
    (j'.carried.map Shipment.packet).Sublist j'.given ∧
      ((∀ op ∈ ops, op.Lossless) → j.carried.map Shipment.packet = j.given →
        j'.carried.map Shipment.packet = j'.given) := by
  induction h
  case refl => exact ⟨ht, fun _ h => h⟩
  case step he _ ih =>
    have ⟨ht', hn⟩ := took_step ht he
    refine ⟨(ih ht').left, fun hl hg => ?_⟩
    have ⟨ho, hl⟩ := List.forall_mem_cons.mp hl
    exact (ih ht').right hl (hn ho hg)

end Journal

-- However packets are sent and drained, and whatever the clocks say, an ordered wire is a queue, and an unordered one
-- a bag. Both take all packets which are not drawn to be lost.
theorem carries (h : machine.Steps (.start ordering seed) ops j) :
    (j.carried.map Shipment.packet).Sublist j.given ∧
    ((∀ op ∈ ops, op.Lossless) → j.carried.map Shipment.packet = j.given) ∧
    (ordering = .ordered → j.Fifo) ∧
    (ordering = .unordered → j.Conserves) := by
  have ht := Journal.took h (.refl _)
  refine ⟨ht.left, fun hl => ht.right hl rfl, ?_, ?_⟩
  case refine_1 =>
    rintro rfl
    exact (h.preserves Journal.InOrder.step .start).fifo
  case refine_2 =>
    rintro rfl
    have hi := h.preserves (I := fun j => ∃ out held, j.AnyOrder out held) (fun ⟨_, _, hi⟩ => hi.step)
      ⟨[], [], rfl, .refl _, .nil, .nil⟩
    obtain ⟨_, _, hi⟩ := hi
    exact hi.balances

theorem carries_two : ∃ j : Journal Nat,
    machine.Steps (.start .ordered 1) [.send 0 7 20 5 0, .send 1 8 20 0 0, .drain 30] j ∧ j.Fifo := by
  obtain ⟨j, h⟩ := Option.isSome_iff_exists.mp (by decide +kernel : (machine.run (.start .ordered 1 : Journal Nat)
    [.send 0 7 20 5 0, .send 1 8 20 0 0, .drain 30]).isSome)
  have h := Machine.run_eq_some_iff.mp h
  exact ⟨j, h, (carries h).right.right.left rfl⟩

end Plaza.ClientUtils.LatencyLink
