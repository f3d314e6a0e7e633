import Mathlib.Data.List.Basic
import Mathlib.Order.Bounds.Defs
import Plaza.Session.Admission

namespace Plaza.Session

open Wire Plaza.Core

variable {ID : Type}

-- Neither a credential nor data.
def Ignored (bytes : Frame) : Prop :=
  ∀ body, bytes ≠ Frame.Kind.credential.asByte :: body ∧ bytes ≠ Frame.Kind.ops.asByte :: body

theorem forall_append {read : List Frame} {bytes : Frame} (h : ∀ f ∈ read, Ignored f) (hb : Ignored bytes) :
    ∀ f ∈ read ++ [bytes], Ignored f := by
  intro f hf
  rcases List.mem_append.mp hf with hf | hf
  case inl => exact h f hf
  case inr => exact List.mem_singleton.mp hf ▸ hb

def Phase.ended? : Phase ID → Option (PendingEnd ID)
  | ended how => how
  | _         => none

namespace Door

-- How many sockets came to such an end, or are yet to come to one.
def tally (sockets : List (Socket ID)) (p : Option (PendingEnd ID) → Bool) : Nat :=
  sockets.countP fun s => p s.phase.ended?

-- Every counter is what it says.
structure Tallies (d : Door ID) : Prop where
  pending  : d.stats.pending = tally d.sockets (· matches none)
  admitted : d.stats.admitted = tally d.sockets (· matches some (.admitted _))
  refused  : d.stats.refused = tally d.sockets (· matches some (.refused _))
  timedOut : d.stats.timedOut = tally d.sockets (· matches some .timedOut)

-- The agents that are announced are those whose sockets are admitted, each of them once.
structure Announces (d : Door ID) : Prop where
  mem_iff : ∀ {i agent version}, (i, agent, version) ∈ d.announced ↔
    ∃ s ∈ d.sockets[i]?, s.phase = .ended (.admitted agent) ∧ s.pending.declared = version
  nodup   : (d.announced.map Prod.fst).Nodup

variable {d : Door ID} {i : Nat} {s s' : Socket ID} {sockets : List (Socket ID)}
  {p : Option (PendingEnd ID) → Bool}

theorem tally_set (hi : sockets[i]? = some s) :
    tally (sockets.set i s') p + (p s.phase.ended?).toNat = tally sockets p + (p s'.phase.ended?).toNat := by
  have ⟨hl, he⟩ := List.getElem?_eq_some_iff.mp hi
  have hle := List.boole_getElem_le_countP (p := fun s => p s.phase.ended?) hl
  simp only [tally, List.countP_set hl, he, Bool.toNat] at hle ⊢
  grind

theorem tally_set_of_eq (hi : sockets[i]? = some s) (h : s'.phase.ended? = s.phase.ended?) :
    tally (sockets.set i s') p = tally sockets p :=
  Nat.add_right_cancel (h ▸ tally_set hi)

theorem tally_concat : tally (sockets ++ [s]) p = tally sockets p + (p s.phase.ended?).toNat := by
  simp [tally, List.countP_append, List.countP_singleton, Bool.toNat]

-- A socket which is not admitted yet is not announced.
theorem Announces.not_mem (h : d.Announces) (hi : d.sockets[i]? = some s) (he : s.phase.ended? = none) :
    i ∉ d.announced.map Prod.fst := by
  intro hm
  obtain ⟨⟨_, agent, version⟩, ha, rfl⟩ := List.mem_map.mp hm
  obtain ⟨s₁, hs₁, hp, _⟩ := h.mem_iff.mp ha
  cases hi.symm.trans hs₁
  simp [hp, Phase.ended?] at he

-- A step that ends nothing leaves the announcements as they are.
theorem Announces.set (h : d.Announces) (hi : d.sockets[i]? = some s)
    (hs : (s.phase.ended? = none ∧ s'.phase.ended? = none) ∨ (s'.phase = s.phase ∧ s'.pending = s.pending)) :
    Announces { d with sockets := d.sockets.set i s' } where
  nodup   := h.nodup
  mem_iff := by
    intro j agent version
    by_cases hj : i = j
    case neg => simp only [h.mem_iff, List.getElem?_set_ne hj]
    case pos =>
      cases hj
      have hl := (List.getElem?_eq_some_iff.mp hi).fst
      simp only [h.mem_iff, hi, List.getElem?_set_self hl, Option.mem_def, Option.some.injEq, exists_eq_left']
      rcases hs with ⟨h₁, h₂⟩ | ⟨h₁, h₂⟩
      case inl =>
        constructor <;> intro hp
        · rw [hp.left] at h₁; exact nomatch h₁
        · rw [hp.left] at h₂; exact nomatch h₂
      case inr => rw [h₁, h₂]

theorem Announces.settle {how : PendingEnd ID} (h : d.Announces) (hi : d.sockets[i]? = some s)
    (he : s.phase.ended? = none) (he' : s'.phase.ended? = some how) :
    Announces ({ d with sockets := d.sockets.set i s' }.settle i s' how) where
  nodup   := by
    cases how <;> simp only [Door.settle, PendingEnd.agent?, Option.toList_none, Option.toList_some, List.map_nil,
      List.map_cons, List.append_nil, List.map_append] <;> try exact h.nodup
    case admitted agent =>
      refine List.nodup_append.mpr ⟨h.nodup, List.nodup_singleton i, ?_⟩
      intro a ha b hb
      exact fun hab => h.not_mem hi he (List.mem_singleton.mp hb ▸ hab ▸ ha)
  mem_iff := by
    intro j agent version
    simp only [Door.settle, List.mem_append]
    by_cases hj : i = j
    case neg =>
      rw [List.getElem?_set_ne hj, ← h.mem_iff]
      refine or_iff_left ?_
      simp only [List.mem_map, Prod.mk.injEq, not_exists, not_and]
      exact fun _ _ he => absurd he hj
    case pos =>
      cases hj
      have hl := (List.getElem?_eq_some_iff.mp hi).fst
      simp only [List.getElem?_set_self hl, Option.mem_def, Option.some.injEq, exists_eq_left']
      rw [or_iff_right fun hm => h.not_mem hi he (List.mem_map_of_mem hm)]
      cases hp : s'.phase <;> simp only [hp, Phase.ended?, Option.some.injEq, reduceCtorEq] at he'
      case ended => cases he'; cases how <;> simp [PendingEnd.agent?, eq_comm]

end Door

variable [AdmissionCodec]

-- The version that a frame declares, if it is one which does.
def hello? : Frame → Option (BitVec 32)
  | []          => none
  | tag :: body => if tag = Frame.Kind.hello.asByte then AdmissionCodec.decodeVersion body else none

namespace Pending

variable {p : Pending} {bytes body : Frame}

theorem onFrame_of_ignored (h : Ignored bytes) :
    p.onFrame bytes = ({ p with declared := (hello? bytes).or p.declared }, .nothing) := by
  cases bytes
  case nil => rfl
  case cons tag body =>
    have h := h body
    simp only [ne_eq, List.cons.injEq, and_true, Frame.Kind.asByte] at h
    simp only [onFrame, Frame.split, hello?, Frame.Kind.fromByte, Frame.Kind.asByte, h.left, h.right, if_false]
    by_cases ht : tag = 1
    case pos =>
      cases AdmissionCodec.decodeVersion body <;> simp_all
    case neg =>
      simp only [ht, if_false]
      split_ifs <;> rfl

theorem onFrame_credential (h : body.length ≤ p.maxCredentialBytes) :
    p.onFrame (Frame.Kind.credential.asByte :: body) = (p, .credential body) := by
  simp [onFrame, Frame.split, Frame.Kind.fromByte_asByte, Nat.not_lt.mpr h]

theorem onFrame_tooBig (h : p.maxCredentialBytes < body.length) :
    p.onFrame (Frame.Kind.credential.asByte :: body) = (p, .refuse <| .new messageTooBig) := by
  simp [onFrame, Frame.split, Frame.Kind.fromByte_asByte, h]

theorem onFrame_ops : p.onFrame (Frame.Kind.ops.asByte :: body) = (p, .refuse .credentialExpected) := by
  simp [onFrame, Frame.split, Frame.Kind.fromByte_asByte]

end Pending

namespace Phase

-- What the client was told.
def farewells (phase : Phase ID) : List Frame :=
  (phase.ended?.bind PendingEnd.farewell).toList.map Farewell.encode

end Phase

-- How a socket comes to a phase: the frames that were read until then, and what the admitter answered.
inductive Course (limits : Limits) : List Frame → Option (Frame × ConnectionAdmission ID) → Phase ID → Prop
  | reading {read : List Frame} : (∀ f ∈ read, Ignored f) → Course limits read none .reading
  | closing {read : List Frame} : (∀ f ∈ read, Ignored f) → Course limits read none .closing
  | gone {read : List Frame} : (∀ f ∈ read, Ignored f) → Course limits read none (.ended .gone)
  | timedOut {read : List Frame} : (∀ f ∈ read, Ignored f) → Course limits read none (.ended .timedOut)
  | expected {read : List Frame} {body : Frame} :
    (∀ f ∈ read, Ignored f) →
    Course limits (read ++ [Frame.Kind.ops.asByte :: body]) none (.ended <| .refused .credentialExpected)
  | tooBig {read : List Frame} {body : Frame} :
    (∀ f ∈ read, Ignored f) → (limits.maxCredentialBytes < body.length) →
    Course limits (read ++ [Frame.Kind.credential.asByte :: body]) none (.ended <| .refused <| .new messageTooBig)
  | asking {read : List Frame} {credential : Frame} :
    (∀ f ∈ read, Ignored f) → (credential.length ≤ limits.maxCredentialBytes) →
    Course limits (read ++ [Frame.Kind.credential.asByte :: credential]) none (.asking credential)
  | answered {read : List Frame} {credential : Frame} {admission : ConnectionAdmission ID} :
    (∀ f ∈ read, Ignored f) → (credential.length ≤ limits.maxCredentialBytes) →
    Course limits (read ++ [Frame.Kind.credential.asByte :: credential]) (some (credential, admission))
      (.ended admission.pendingEnd)

omit [AdmissionCodec] in
theorem Course.ignored {limits : Limits} {read : List Frame} {answered : Option (Frame × ConnectionAdmission ID)}
    {phase : Phase ID} (h : Course limits read answered phase) (hp : phase = .reading ∨ phase = .closing) :
    answered = none ∧ ∀ f ∈ read, Ignored f := by
  cases h
  case reading h => exact ⟨rfl, h⟩
  case closing h => exact ⟨rfl, h⟩
  all_goals simp at hp

namespace Socket

-- A socket is in a phase that its frames and its answer lead to. The version is the last one it declared, and
-- until it is admitted nothing crosses it other than the goodbye.
structure Sound (limits : Limits) (s : Socket ID) : Prop where
  limit    : s.pending.maxCredentialBytes = limits.maxCredentialBytes
  course   : Course limits s.read s.answered s.phase
  declared : s.pending.declared = (s.read.filterMap hello?).getLast?
  crossed  : (∀ agent, s.phase ≠ .ended (.admitted agent)) → s.forwarded = [] ∧ s.written = s.phase.farewells

variable {limits : Limits} {s s' : Socket ID} {how : Option (PendingEnd ID)} {e : SocketEvent ID}
  {bytes body : Frame} {now : Nat}

-- Who was told nothing before is told why the loop is left, and nothing else.
theorem written_finish {ending : PendingEnd ID} (h : s.written = []) :
    (s.finish ending).written = (s.finish ending).phase.farewells := by
  simp [finish, h, Phase.farewells, Phase.ended?]

namespace Sound

protected theorem new : (Socket.new limits now : Socket ID).Sound limits where
  limit    := rfl
  course   := .reading nofun
  declared := rfl
  crossed  := fun _ => ⟨rfl, rfl⟩

theorem silent (h : s.Sound limits) (hp : s.phase.ended? = none) : s.forwarded = [] ∧ s.written = [] := by
  have hc := h.crossed fun agent ha => by simp [ha, Phase.ended?] at hp
  simpa [Phase.farewells, hp] using hc

theorem declared_append (h : s.Sound limits) (hb : hello? bytes = none) :
    s.pending.declared = ((s.read ++ [bytes]).filterMap hello?).getLast? := by
  simp [h.declared, hb]

protected theorem onFrame (h : s.Sound limits) (hp : s.phase = .reading) : (s.onFrame bytes).fst.Sound limits := by
  have ⟨ha, hi⟩ := h.course.ignored (.inl hp)
  have ⟨hf, hw⟩ := h.silent (by rw [hp]; rfl)
  by_cases hb : Ignored bytes
  case pos =>
    simp only [Socket.onFrame, Pending.onFrame_of_ignored hb]
    refine ⟨h.limit, ?course, ?declared, fun _ => ⟨hf, ?crossed⟩⟩
    case course   => exact hp ▸ ha ▸ .reading (forall_append hi hb)
    case declared => cases hh : hello? bytes <;> simp [h.declared, hh]
    case crossed  => rw [hw, hp]; rfl
  case neg =>
    simp only [Ignored, not_forall, not_and_or, not_not] at hb
    obtain ⟨body, rfl | rfl⟩ := hb
    case inl =>
      rcases Nat.lt_or_ge limits.maxCredentialBytes body.length with hl | hl
      case inl =>
        simp only [Socket.onFrame, Pending.onFrame_tooBig (h.limit ▸ hl)]
        exact ⟨h.limit, ha ▸ .tooBig hi hl, h.declared_append rfl, fun _ => ⟨hf, written_finish hw⟩⟩
      case inr =>
        simp only [Socket.onFrame, Pending.onFrame_credential (h.limit ▸ hl)]
        exact ⟨h.limit, ha ▸ .asking hi hl, h.declared_append rfl, fun _ => ⟨hf, hw⟩⟩
    case inr =>
      simp only [Socket.onFrame, Pending.onFrame_ops]
      exact ⟨h.limit, ha ▸ .expected hi, h.declared_append rfl, fun _ => ⟨hf, written_finish hw⟩⟩

protected theorem finish {ending : PendingEnd ID} (h : s.Sound limits) (he : s.phase.ended? = none)
    (hc : Course limits s.read s.answered (.ended ending)) : (s.finish ending).Sound limits where
  limit    := h.limit
  course   := hc
  declared := h.declared
  crossed  := fun _ => ⟨(h.silent he).left, written_finish (h.silent he).right⟩

protected theorem answer {credential : Frame} (h : s.Sound limits) (hp : s.phase = .asking credential)
    (admission : ConnectionAdmission ID) :
    ({ s with answered := some (credential, admission) }.finish admission.pendingEnd).Sound limits where
  limit    := h.limit
  course   := by
    have hc := h.course
    simp only [finish]
    rw [hp] at hc
    generalize s.answered = a, s.read = read at hc ⊢
    cases hc with
    | asking hi hl => exact .answered hi hl
  declared := h.declared
  crossed  := fun _ =>
    have ⟨hf, hw⟩ := h.silent (by rw [hp]; rfl)
    ⟨hf, written_finish hw⟩

protected theorem step (h : s.Sound limits) (hs : s.step e = some (s', how)) : s'.Sound limits := by
  cases e
  case frame bytes =>
    simp only [Socket.step] at hs
    split at hs
    case h_1 hp   =>
      have he : (s.onFrame bytes).fst = s' := congrArg Prod.fst (Option.some.inj hs)
      exact he ▸ h.onFrame hp
    case h_2 a hp =>
      cases hs
      exact ⟨h.limit, h.course, h.declared, fun hn => absurd hp (hn a)⟩
    case h_3      => cases hs
  case answer admission =>
    simp only [Socket.step] at hs
    split at hs
    case h_1 hp => cases hs; exact h.answer hp admission
    case h_2    => cases hs
  case timeout now =>
    simp only [Socket.step] at hs
    split at hs
    case h_1 hp =>
      have ⟨ha, hi⟩ := h.course.ignored (.inl hp)
      split at hs <;> cases hs
      exact h.finish (by rw [hp]; rfl) (ha ▸ .timedOut hi)
    case h_2 => cases hs
  case gone =>
    simp only [Socket.step] at hs
    split at hs <;> cases hs
    case h_1 hp =>
      have ⟨ha, hi⟩ := h.course.ignored (.inl hp)
      exact ⟨h.limit, ha ▸ .closing hi, h.declared, fun _ => h.silent (by rw [hp]; rfl)⟩
  case closed =>
    simp only [Socket.step] at hs
    split at hs <;> cases hs
    case h_1 hp =>
      have ⟨ha, hi⟩ := h.course.ignored (.inr hp)
      exact h.finish (by rw [hp]; rfl) (ha ▸ .gone hi)
  case outbound frame =>
    simp only [Socket.step] at hs
    split at hs
    case h_1 a hp =>
      cases hs
      exact ⟨h.limit, h.course, h.declared, fun hn => absurd hp (hn a)⟩
    case h_2 => cases hs

end Sound

-- The task gives its slot back at the step it ends with, and a connection that is registered keeps its version.
theorem step_cases (hs : s.step e = some (s', how)) :
    (s.phase.ended? = none ∧ s'.phase.ended? = how) ∨
      (how = none ∧ s'.phase = s.phase ∧ s'.pending = s.pending ∧ ∃ agent, s.phase = .ended (.admitted agent)) := by
  cases e <;> simp only [Socket.step] at hs
  case frame bytes =>
    split at hs
    case h_1 hp =>
      refine .inl ⟨by rw [hp]; rfl, ?_⟩
      simp only [onFrame, Option.some.injEq] at hs
      split at hs <;> cases hs <;> simp [finish, Phase.ended?, hp]
    case h_2 a hp => cases hs; exact .inr ⟨rfl, rfl, rfl, a, hp⟩
    case h_3      => cases hs
  case answer =>
    split at hs <;> cases hs
    case h_1 hp => exact .inl ⟨by rw [hp]; rfl, rfl⟩
  case timeout =>
    split at hs
    case h_1 hp =>
      split at hs <;> cases hs
      exact .inl ⟨by rw [hp]; rfl, rfl⟩
    case h_2 => cases hs
  case gone =>
    split at hs <;> cases hs
    case h_1 hp => exact .inl ⟨by rw [hp]; rfl, rfl⟩
  case closed =>
    split at hs <;> cases hs
    case h_1 hp => exact .inl ⟨by rw [hp]; rfl, rfl⟩
  case outbound =>
    split at hs <;> cases hs
    case h_1 a hp => exact .inr ⟨rfl, rfl, rfl, a, hp⟩

end Socket

namespace Door

-- Sockets wait behind a cap, which the workers other than the one that fills it may each overrun once.
def Capped (d : Door ID) : Prop :=
  ∀ cap ∈ d.limits.pendingConnections, d.stats.pending + d.passed ≤ cap + (d.workers - 1)

structure Sound (d : Door ID) : Prop where
  sockets   : ∀ s ∈ d.sockets, s.Sound d.limits
  tallies   : d.Tallies
  announces : d.Announces
  passed    : d.passed ≤ d.workers
  capped    : d.Capped

variable {d d' : Door ID} {limits : Limits} {workers i now : Nat} {s s' : Socket ID} {sockets : List (Socket ID)}
  {e : DoorEvent ID} {es : List (DoorEvent ID)} {how : Option (PendingEnd ID)}

namespace Sound

protected theorem new : (Door.new limits workers : Door ID).Sound where
  sockets   := nofun
  tallies   := ⟨rfl, rfl, rfl, rfl⟩
  announces := ⟨by simp [Door.new], .nil⟩
  passed    := Nat.zero_le _
  capped    := fun _ _ => Nat.zero_le _

protected theorem check (h : d.Sound) (hw : d.passed < d.workers) : d.check.Sound := by
  simp only [check]
  split
  case isTrue => exact ⟨h.sockets, ⟨h.tallies.1, h.tallies.2, h.tallies.3, h.tallies.4⟩, ⟨h.announces.1, h.announces.2⟩,
    h.passed, h.capped⟩
  case isFalse hc =>
    refine ⟨h.sockets, ⟨h.tallies.1, h.tallies.2, h.tallies.3, h.tallies.4⟩, ⟨h.announces.1, h.announces.2⟩, hw, ?_⟩
    intro cap hcap
    have : d.stats.pending < cap := by simpa [show d.limits.pendingConnections = some cap from hcap] using hc
    dsimp only
    omega

protected theorem enter (h : d.Sound) (hp : 0 < d.passed) : (d.enter now).Sound where
  sockets s hs := by
    rcases List.mem_append.mp hs with hs | hs
    case inl => exact h.sockets s hs
    case inr => exact List.mem_singleton.mp hs ▸ .new
  tallies   := by
    have ⟨h₁, h₂, h₃, h₄⟩ := h.tallies
    constructor <;> simp [Door.enter, tally_concat, Socket.new, Phase.ended?, *]
  announces := by
    refine ⟨?_, h.announces.nodup⟩
    intro i agent version
    simp only [Door.enter, h.announces.mem_iff, Option.mem_def, List.getElem?_append]
    split
    case isTrue      => exact Iff.rfl
    case isFalse hge =>
      simp only [List.getElem?_eq_none (Nat.not_lt.mp hge), reduceCtorEq, false_and, exists_false, false_iff]
      rintro ⟨s, hs, hph, _⟩
      cases List.mem_singleton.mp (List.mem_of_getElem? hs)
      exact nomatch hph
  passed    := Nat.le_trans (Nat.sub_le ..) h.passed
  capped    := by
    intro cap hcap
    have := h.capped cap hcap
    simp only [Door.enter]
    omega

end Sound

theorem socketStep_cases {event : SocketEvent ID} (hs : d.socketStep i event = some d') :
    ∃ s s' how, d.sockets[i]? = some s ∧ s.step event = some (s', how) ∧
      d' = how.elim { d with sockets := d.sockets.set i s' }
        ({ d with sockets := d.sockets.set i s' }.settle i s') := by
  simp only [socketStep, Option.bind_eq_bind, Option.bind_eq_some_iff, Option.pure_def, Option.some.injEq] at hs
  obtain ⟨s, hi, ⟨s', how⟩, hst, rfl⟩ := hs
  exact ⟨s, s', how, hi, hst, rfl⟩

namespace Sound

protected theorem socketStep {event : SocketEvent ID} (h : d.Sound) (hs : d.socketStep i event = some d') :
    d'.Sound := by
  obtain ⟨s, s', how, hi, hst, rfl⟩ := socketStep_cases hs
  have hsound : ∀ t ∈ d.sockets.set i s', t.Sound d.limits := by
    intro t ht
    rcases List.mem_or_eq_of_mem_set ht with ht | rfl
    case inl => exact h.sockets t ht
    case inr => exact (h.sockets s (List.mem_of_getElem? hi)).step hst
  have ⟨h₁, h₂, h₃, h₄⟩ := h.tallies
  rcases Socket.step_cases hst with ⟨he, he'⟩ | ⟨rfl, hp, hd, -⟩
  case inr =>
    refine ⟨hsound, ?_, h.announces.set hi (.inr ⟨hp, hd⟩), h.passed, h.capped⟩
    constructor <;> simp only [Option.elim, tally_set_of_eq hi (congrArg Phase.ended? hp), *]
  case inl =>
    cases how
    case none =>
      refine ⟨hsound, ?_, h.announces.set hi (.inl ⟨he, he'⟩), h.passed, h.capped⟩
      constructor <;> simp only [Option.elim, tally_set_of_eq hi (he'.trans he.symm), *]
    case some how =>
      refine ⟨hsound, ?_, h.announces.settle hi he he', h.passed, ?_⟩
      case refine_1 =>
        have ht (p : Option (PendingEnd ID) → Bool) : tally (d.sockets.set i s') p + (p s.phase.ended?).toNat =
            tally d.sockets p + (p s'.phase.ended?).toNat := tally_set hi
        simp only [he, he'] at ht
        have := ht (· matches none)
        have := ht (· matches some (.admitted _))
        have := ht (· matches some (.refused _))
        have := ht (· matches some .timedOut)
        constructor <;> cases how <;> simp_all [Door.settle, TransportStats.settle] <;> omega
      case refine_2 =>
        intro cap hcap
        refine Nat.le_trans (Nat.add_le_add_right ?_ _) (h.capped cap hcap)
        cases how <;> exact Nat.sub_le ..

protected theorem step (h : d.Sound) (hs : machine.step d e = some d') : d'.Sound := by
  cases e <;> simp only [machine] at hs
  case check =>
    split at hs <;> cases hs
    case isTrue hw => exact h.check hw
  case enter =>
    split at hs <;> cases hs
    case isTrue hp => exact h.enter hp
  case socket => exact h.socketStep hs

end Sound

theorem constant (h : machine.Steps d es d') : d'.limits = d.limits ∧ d'.workers = d.workers := by
  refine h.preserves (I := fun d' => d'.limits = d.limits ∧ d'.workers = d.workers) ?_ ⟨rfl, rfl⟩
  rintro d₁ e d₂ ⟨hl, hw⟩ hs
  cases e <;> simp only [machine] at hs
  case check =>
    split at hs <;> cases hs
    simp only [check]
    split <;> exact ⟨hl, hw⟩
  case enter => split at hs <;> cases hs; exact ⟨hl, hw⟩
  case socket =>
    obtain ⟨_, _, how, _, _, rfl⟩ := socketStep_cases hs
    cases how <;> exact ⟨hl, hw⟩

-- Workers which all look at the counter before any of them increments it all come in.
theorem steps_check {n : Nat} (hc : ∀ cap ∈ d.limits.pendingConnections, d.stats.pending < cap)
    (hw : d.passed + n ≤ d.workers) :
    machine.Steps d (.replicate n .check) { d with passed := d.passed + n } := by
  induction n generalizing d
  case zero      => exact .refl
  case succ n ih =>
    have hs : machine.step d .check = some { d with passed := d.passed + 1 } := by
      cases hl : d.limits.pendingConnections
      case none     => simp [machine, check, hl, show d.passed < d.workers by omega]
      case some cap => simp [machine, check, hl, Nat.not_le.mpr (hc cap hl), show d.passed < d.workers by omega]
    have := ih (d := { d with passed := d.passed + 1 }) hc (by dsimp only; omega)
    rw [show d.passed + 1 + n = d.passed + (n + 1) by omega] at this
    exact .step hs this

theorem steps_enter {n : Nat} (hn : n ≤ d.passed) :
    ∃ d', machine.Steps d (.replicate n (.enter 0)) d' ∧ d'.stats.pending = d.stats.pending + n ∧
      d'.passed = d.passed - n ∧ d'.limits = d.limits ∧ d'.workers = d.workers := by
  induction n generalizing d
  case zero      => exact ⟨d, .refl, rfl, rfl, rfl, rfl⟩
  case succ n ih =>
    have ⟨d', hs, hp, hd, hl, hw⟩ := ih (d := d.enter 0) (by simp only [enter]; omega)
    simp only [enter] at hp hd hl hw
    exact ⟨d', .step (by simp [machine, show 0 < d.passed by omega]) hs, by omega, by omega, hl, hw⟩

-- A single worker fills the places behind the cap one after the other.
theorem steps_fill {cap n : Nat} (hc : limits.pendingConnections = some cap) (hw : 0 < workers) (hn : n ≤ cap) :
    ∃ es d, machine.Steps (.new limits workers : Door ID) es d ∧ d.stats.pending = n ∧ d.passed = 0 ∧
      d.limits = limits ∧ d.workers = workers := by
  induction n
  case zero      => exact ⟨[], _, .refl, rfl, rfl, rfl, rfl⟩
  case succ n ih =>
    have ⟨es, d, hs, hp, hd, hl, hk⟩ := ih (by omega)
    have h₁ := steps_check (d := d) (n := 1) (fun _ hm => by cases hc.symm.trans (hl ▸ hm); omega) (by omega)
    have ⟨d', h₂, hp', hd', hl', hk'⟩ := steps_enter (d := { d with passed := d.passed + 1 }) (n := 1) (by simp)
    dsimp only at hp' hd' hl' hk'
    exact ⟨_, d', hs.trans (h₁.trans h₂), by omega, by omega, hl'.trans hl, hk'.trans hk⟩

-- Over every interleaving of the workers and the sockets: every socket is in a phase that what it presented leads
-- to, the counters are what they say, and an agent is announced once for each socket that is admitted as it.
theorem nothing_crosses (h : machine.Steps (.new limits workers : Door ID) es d) :
    (∀ s ∈ d.sockets, s.Sound limits) ∧ d.Tallies ∧ d.Announces := by
  have hs : d.Sound := h.preserves Sound.step .new
  refine ⟨fun s hm => ?_, hs.tallies, hs.announces⟩
  have := hs.sockets s hm
  rwa [(constant h).left] at this

omit [AdmissionCodec] in
theorem nothing_crosses_two : let _ : AdmissionCodec := bitCodec
    ∃ d, machine.Steps (.new ⟨some 1, 64, 9⟩ 2 : Door Nat)
      [.check, .check, .enter 0, .enter 1, .socket 0 (.frame [1, 7]), .socket 0 (.frame [4, 65]),
        .socket 1 (.frame [0, 65]), .socket 0 (.answer (.admitted (.human 3))), .socket 0 (.frame [0, 66])] d ∧
      d.announced = [(0, .human 3, some 7)] ∧ d.Announces ∧ d.Tallies := by
  let _ : AdmissionCodec := bitCodec
  obtain ⟨d, h⟩ : ∃ d, machine.run (.new ⟨some 1, 64, 9⟩ 2 : Door Nat)
      [.check, .check, .enter 0, .enter 1, .socket 0 (.frame [1, 7]), .socket 0 (.frame [4, 65]),
        .socket 1 (.frame [0, 65]), .socket 0 (.answer (.admitted (.human 3))), .socket 0 (.frame [0, 66])] = some d ∧
      d.announced = [(0, .human 3, some 7)] := ⟨_, rfl, by decide +kernel⟩
  have hs := Machine.run_eq_some_iff.mp h.left
  exact ⟨d, hs, h.right, (nothing_crosses hs).right.right, (nothing_crosses hs).right.left⟩

-- Every worker other than one can overrun the cap, and each of them by a single socket.
theorem greatest_pending {cap : Nat} (hc : limits.pendingConnections = some cap) (hp : 0 < cap) (hw : 0 < workers) :
    IsGreatest { n | ∃ es d, machine.Steps (.new limits workers : Door ID) es d ∧ d.stats.pending = n }
      (cap + (workers - 1)) := by
  constructor
  case left =>
    obtain ⟨es, d, h, hn, hd, hl, hk⟩ : ∃ es, ∃ d : Door ID, _ := steps_fill hc hw (Nat.sub_le cap 1)
    have h₁ := steps_check (d := d) (n := workers) (fun _ hm => by cases hc.symm.trans (hl ▸ hm); omega) (by omega)
    obtain ⟨d', h₂, hp', -⟩ := steps_enter (d := { d with passed := d.passed + workers }) (n := workers) (by simp)
    dsimp only at hp'
    exact ⟨_, d', h.trans (h₁.trans h₂), by omega⟩
  case right =>
    rintro n ⟨es, d, h, rfl⟩
    have ⟨hl, hk⟩ := constant h
    have hs : d.Sound := h.preserves Sound.step .new
    have := hs.capped cap (by rw [hl]; exact hc)
    simp only [hk, Door.new] at this
    omega

omit [AdmissionCodec] in
theorem greatest_pending_four : let _ : AdmissionCodec := bitCodec
    IsGreatest { n | ∃ es d, machine.Steps (.new ⟨some 256, 64, 9⟩ 4 : Door Nat) es d ∧ d.stats.pending = n } 259 := by
  let _ : AdmissionCodec := bitCodec
  have h : (⟨some 256, 64, 9⟩ : Limits).pendingConnections = some 256 := rfl
  exact greatest_pending h (by decide) (by decide)

end Door

end Plaza.Session
