import Plaza.Protocols.Acks
import Plaza.ServerUtils.Theorems.Delta

open Plaza.ClientUtils Plaza.ServerUtils DeltaBaseline

namespace Plaza.Protocols.Acks

variable {r r₁ r₂ r₃ : Report} {s s' : State} {e : Event} {es : List Event} {history : Nat}

namespace Report

instance : PartialOrder Report where
  le_refl r := .inr ⟨rfl, BitVec.and_self⟩
  le_trans r₁ r₂ r₃ h₁ h₂ := by
    match h₁, h₂ with
    | .inl h₁, .inl h₂             => exact .inl <| h₁.trans h₂
    | .inl h₁, .inr ⟨h₂, _⟩        => exact .inl <| h₂ ▸ h₁
    | .inr ⟨h₁, _⟩, .inl h₂        => exact .inl <| h₁ ▸ h₂
    | .inr ⟨h₁, m₁⟩, .inr ⟨h₂, m₂⟩ =>
      refine .inr ⟨h₁.trans h₂, ?_⟩
      rw [←m₁, BitVec.and_assoc, m₂]
  le_antisymm r₁ r₂ h₁ h₂ := by
    match h₁, h₂ with
    | .inl h₁, .inl h₂            => exact absurd h₂ h₁.asymm
    | .inl h₁, .inr ⟨h₂, _⟩       => exact absurd h₁ (h₂ ▸ Nat.lt_irrefl _)
    | .inr ⟨h₁, _⟩, .inl h₂       => exact absurd h₂ (h₁ ▸ Nat.lt_irrefl _)
    | .inr ⟨h₁, m₁⟩, .inr ⟨_, m₂⟩ =>
      have hm : r₁.mask = r₂.mask := by rw [←m₁, BitVec.and_comm, m₂]
      cases r₁
      cases r₂
      simp_all

-- A client's later report is a greater one.
theorem le_observe {w : AckWindow} (hs : w.started) (seq : Nat) :
    (⟨w.newest, w.mask⟩ : Report) ≤ ⟨(w.observe seq).fst.newest, (w.observe seq).fst.mask⟩ := by
  simp only [AckWindow.observe, hs, Bool.not_true, Bool.false_eq_true, ↓reduceIte]
  split
  case isTrue hn => exact .inl hn
  case isFalse =>
    split <;> [exact le_rfl; split] <;> [exact le_rfl; skip]
    refine .inr ⟨rfl, BitVec.eq_of_getLsbD_eq fun i _ => ?_⟩
    simp only [BitVec.getLsbD_and, BitVec.getLsbD_or]
    cases w.mask.getLsbD i <;> rfl

end Report

-- The reports which one client has made so far.
structure Chain (s : State) : Prop where
  sent     : s.sent.Pairwise (· ≤ ·)
  last     : ∀ r ∈ s.sent, s.client.started ∧ r ≤ ⟨s.client.newest, s.client.mask⟩
  received : ∀ r ∈ s.received, r ∈ s.sent

theorem step_chain (h : Chain s) (hs : machine.step s e = some s') : Chain s' := by
  cases e <;> simp only [machine, Option.some.injEq] at hs
  case plan => exact hs ▸ { h with }
  case arrive seq =>
    refine hs ▸ { h with last := fun r hr => ?_ }
    have ⟨hc, hl⟩ := h.last r hr
    exact ⟨AckWindow.observe_started .., hl.trans <| Report.le_observe hc seq⟩
  case acknowledge =>
    have ⟨⟨newest, mask⟩, he, hs⟩ := Option.map_eq_some_iff.mp hs
    have hc := AckWindow.encode_eq_some_iff.mp he
    subst hs
    constructor
    case sent =>
      refine List.pairwise_append.mpr ⟨h.sent, List.pairwise_singleton .., fun r hr r' hr' => ?_⟩
      rw [List.mem_singleton.mp hr']
      have := (h.last r hr).right
      rwa [←hc] at this
    case last =>
      intro r hr
      rw [List.mem_append, List.mem_singleton] at hr
      cases hr
      case inl hr => exact h.last r hr
      case inr hr =>
        rw [hr, ←hc]
        exact ⟨rfl, le_rfl⟩
    case received => exact fun r hr => List.mem_append_left _ <| h.received r hr
  case observe =>
    have ⟨r, hr, hs⟩ := Option.map_eq_some_iff.mp hs
    refine hs ▸ { h with received := fun r' hr' => ?_ }
    rw [List.mem_append, List.mem_singleton] at hr'
    cases hr'
    case inl hr' => exact h.received r' hr'
    case inr hr' => exact List.mem_of_getElem? (hr' ▸ hr)

theorem steps_chain (h : machine.Steps (.start history) es s) : Chain s :=
  h.preserves step_chain ⟨.nil, nofun, nofun⟩

theorem Chain.total (h : Chain s) (h₁ : r₁ ∈ s.received) (h₂ : r₂ ∈ s.received) :
    r₁ ≤ r₂ ∨ r₂ ≤ r₁ :=
  List.Pairwise.forall_of_forall_of_flip (R := fun r₁ r₂ => r₁ ≤ r₂ ∨ r₂ ≤ r₁)
    (fun _ _ => .inl le_rfl) (h.sent.imp .inl) (h.sent.imp .inr) (h.received _ h₁) (h.received _ h₂)

theorem exists_isGreatest {reports : List Report} (hr : reports ≠ [])
    (ht : ∀ r₁ ∈ reports, ∀ r₂ ∈ reports, r₁ ≤ r₂ ∨ r₂ ≤ r₁) : ∃ r, IsGreatest { r | r ∈ reports } r := by
  induction reports
  case nil => contradiction
  case cons r₁ reports hi =>
    by_cases hn : reports = []
    case pos => exact ⟨r₁, by simp [hn]⟩
    case neg =>
      simp only [List.forall_mem_cons] at ht
      have ⟨r₂, hm, hl⟩ := hi hn fun r hr => (ht.right r hr).right
      cases ht.left.right r₂ hm
      case inl h₁ =>
        refine ⟨r₂, List.mem_cons_of_mem _ hm, fun r hr => ?_⟩
        cases hr
        case head    => exact h₁
        case tail hr => exact hl hr
      case inr h₂ =>
        refine ⟨r₁, List.mem_cons_self .., fun r hr => ?_⟩
        cases hr
        case head    => exact le_rfl
        case tail hr => exact (hl hr).trans h₂

-- What the server keeps as its last window is the last report it observed, and no other one that
-- it observed is greater.
structure Timely (s : State) : Prop where
  policy  : s.server.policy = .ackRecovery
  window  : s.server.lastAckWindow = s.received.getLast?.map fun r => (r.newest, r.mask)
  last    : ∀ r ∈ s.received.getLast?, ∀ r' ∈ s.received, r' ≤ r
  unacked : s.server.unacked = s.server.recountUnacked.unacked

theorem step_timely (h : Timely s) (hs : timely.step s e = some s') : Timely s' := by
  have ⟨ht, hs⟩ := Machine.restrict_step_iff.mp hs
  cases e <;> simp only [machine, Option.some.injEq] at hs
  case plan =>
    subst hs
    exact { h with
      policy  := plan_policy.trans h.policy
      window  := plan_lastAckWindow.trans h.window
      unacked := plan_unacked }
  case arrive => exact hs ▸ { h with }
  case acknowledge =>
    have ⟨_, _, hs⟩ := Option.map_eq_some_iff.mp hs
    exact hs ▸ { h with }
  case observe =>
    have ⟨r, hr, hs⟩ := Option.map_eq_some_iff.mp hs
    subst hs
    constructor
    case policy  => exact observeAck_policy.trans h.policy
    case window  => simp [observeAck_lastAckWindow h.policy]
    case unacked =>
      rw [observeAck_unacked h.policy, recountUnacked, observeAck_lastAckWindow h.policy,
        observeAck_sent]
    case last =>
      simp only [Event.isTimely, hr, Option.all_some, List.all_eq_true, decide_eq_true_eq] at ht
      intro r₁ h₁ r₂ h₂
      simp only [List.getLast?_append, List.getLast?_singleton, Option.some_or, Option.mem_def,
        Option.some.injEq] at h₁
      rw [List.mem_append, List.mem_singleton] at h₂
      cases h₂
      case inl h₂ => exact h₁ ▸ ht r₂ h₂
      case inr h₂ => exact h₁ ▸ h₂ ▸ le_rfl

theorem steps_timely (h : timely.Steps (.start history) es s) : Timely s :=
  h.preserves step_timely ⟨rfl, rfl, nofun, rfl⟩

theorem Timely.unacked_of_none (h : Timely s) (hr : s.received = []) :
    s.server.unacked = s.server.sent.length := by
  rw [h.unacked, recountUnacked, h.window, hr]
  rfl

theorem Timely.unacked_of_isGreatest (h : Timely s) (hr : IsGreatest { r | r ∈ s.received } r) :
    s.server.unacked = s.server.sent.countP fun e => !r.window.contains e.fst := by
  have ⟨l, hl⟩ : ∃ l, s.received.getLast? = some l := by
    rw [←Option.isSome_iff_exists, List.getLast?_isSome]
    exact List.ne_nil_of_mem hr.left
  have he : r = l := (h.last l hl r hr.left).antisymm <| hr.right <| List.mem_of_getLast? hl
  rw [h.unacked, recountUnacked, h.window, hl, he]
  rfl

-- The server counts the retained packets which the greatest report does not cover, as long as no
-- report arrives after a greater one.
theorem unacked_eq (h : timely.Steps (.start history) es s) :
    (s.received = [] → s.server.unacked = s.server.sent.length) ∧
    (s.received ≠ [] → ∃ r, IsGreatest { r | r ∈ s.received } r) ∧
    (∀ r, IsGreatest { r | r ∈ s.received } r →
      s.server.unacked = s.server.sent.countP fun e => !r.window.contains e.fst) := by
  have ht := steps_timely h
  refine ⟨ht.unacked_of_none, fun hr => ?_, fun r => ht.unacked_of_isGreatest⟩
  exact exists_isGreatest hr fun _ h₁ _ h₂ => (steps_chain h.of_restrict).total h₁ h₂

theorem unacked_eq_acknowledged :
    ∃ s, timely.Steps (.start 4) [.plan {1} 0, .arrive 0, .acknowledge, .plan {1} 1, .observe 0 0] s ∧
      s.server.unacked = s.server.sent.countP fun e => !(Report.window ⟨0, 0⟩).contains e.fst :=
  have h : timely.Steps (.start 4) [.plan {1} 0, .arrive 0, .acknowledge, .plan {1} 1, .observe 0 0] _ :=
    .step rfl <| .step rfl <| .step rfl <| .step rfl <| .step rfl .refl
  have hg : ∀ r ∈ [⟨0, 0⟩], r ≤ (⟨0, 0⟩ : Report) := by decide
  ⟨_, h, (unacked_eq h).right.right _ ⟨List.mem_cons_self .., hg⟩⟩

-- A report that was overtaken takes the place of the greater one, and the count goes back up.
theorem unacked_overtaken :
    ¬∀ (history : Nat) (es : List Event) (s : State) (r : Report),
      machine.Steps (.start history) es s → IsGreatest { r | r ∈ s.received } r →
      s.server.unacked = s.server.sent.countP fun e => !r.window.contains e.fst :=
  fun hc =>
    have h : machine.Steps (.start 4) [.plan {1} 0, .plan {1} 1, .arrive 0, .acknowledge, .arrive 1,
      .acknowledge, .observe 1 0, .observe 0 0] _ :=
      .step rfl <| .step rfl <| .step rfl <| .step rfl <| .step rfl <| .step rfl <| .step rfl <|
        .step rfl .refl
    have hg : ∀ r ∈ [⟨1, 1⟩, ⟨0, 0⟩], r ≤ (⟨1, 1⟩ : Report) := by decide
    absurd (hc 4 _ _ ⟨1, 1⟩ h ⟨List.mem_cons_self .., hg⟩) (by decide)

end Plaza.Protocols.Acks
