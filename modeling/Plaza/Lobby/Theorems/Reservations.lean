import Mathlib.Algebra.BigOperators.Group.List.Basic
import Mathlib.Algebra.Ring.Nat
import Plaza.Lib.Trace
import Plaza.Lobby.Reservations

namespace Plaza.Lobby.SeatReservations

-- What a lobby and a room do with the reservations.
inductive Op (ID : Type)
  | reserve (player : ID)
  | consume (player : ID)
  | withdraw (player : ID)
  | clear
  | tick (delta : Nat)

namespace Op

variable {ID : Type}

def delta : Op ID → Nat
  | tick delta => delta
  | _          => 0

def IsTick : Op ID → Prop
  | tick _ => True
  | _      => False

-- Takes the player's reservation away, whatever the time is.
def Ends (player : ID) : Op ID → Prop
  | consume p | withdraw p => p = player
  | clear                  => True
  | _                      => False

end Op

variable {ID : Type} {ops before after : List (Op ID)} {op : Op ID} {player p q : ID} {window : Option Nat}
  {made δ w : Nat}

-- The time which these calls let pass.
def time (ops : List (Op ID)) : Nat :=
  (ops.map Op.delta).sum

theorem time_append : time (before ++ after) = time before + time after := by
  simp [time]

@[simp] theorem time_nil : time ([] : List (Op ID)) = 0 := rfl

@[simp] theorem time_cons : time (op :: ops) = op.delta + time ops := by
  simp [time]

variable [DecidableEq ID] {r : SeatReservations ID}

def apply (r : SeatReservations ID) : Op ID → SeatReservations ID
  | .reserve player  => (r.reserve player).fst
  | .consume player  => (r.consume player).fst
  | .withdraw player => (r.withdraw player).fst
  | .clear           => r.clear
  | .tick delta      => (r.tick delta).fst

def run (window : Option Nat) (ops : List (Op ID)) : SeatReservations ID :=
  ops.foldl apply (.new window)

theorem run_snoc : run window (ops ++ [op]) = (run window ops).apply op := by
  simp [run]

theorem window_apply : (r.apply op).window = r.window := by
  cases op
  case reserve p =>
    simp only [apply, reserve]
    split <;> rfl
  case tick δ =>
    simp only [apply, tick]
    split <;> rfl
  all_goals rfl

theorem window_run : (run window ops).window = window := by
  induction ops using List.reverseRecOn
  case nil                     => rfl
  case append_singleton _ _ ih => rw [run_snoc, window_apply, ih]

theorem elapsed_tick : (r.tick δ).fst.elapsed = min (r.elapsed + δ) durationMax := by
  unfold tick
  split <;> rfl

theorem elapsed_apply (h : r.elapsed ≤ durationMax) :
    (r.apply op).elapsed = min (r.elapsed + op.delta) durationMax := by
  cases op
  case tick δ => exact elapsed_tick
  case reserve p =>
    simp only [apply, reserve, Op.delta, Nat.add_zero, min_eq_left h]
    split <;> rfl
  all_goals exact (min_eq_left h).symm

theorem elapsed_run : (run window ops).elapsed = min (time ops) durationMax := by
  induction ops using List.reverseRecOn
  case nil => rfl
  case append_singleton _ _ ih =>
    rw [run_snoc, elapsed_apply (ih ▸ min_le_right _ _), ih, time_append, time_cons, time_nil]
    omega

theorem lookup_reserve : (r.reserve q).fst.held.lookup p =
    if q = p ∧ r.held.lookup p = none then some r.elapsed else r.held.lookup p := by
  unfold reserve
  split
  case h_1 h => rw [if_neg fun hn => by rw [hn.left, hn.right] at h; cases h]
  case h_2 h =>
    by_cases he : q = p
    case pos =>
      subst he
      rw [if_pos ⟨rfl, h⟩, AList.lookup_insert]
    case neg => rw [if_neg (he ·.left), AList.lookup_insert_ne (Ne.symm he)]

-- The reservation of that time lapses if the clock goes on by `δ`.
def Due (r : SeatReservations ID) (δ made : Nat) : Prop :=
  ∃ w ∈ r.window, w ≤ min (r.elapsed + δ) durationMax - made

theorem mem_tick : p ∈ (r.tick δ).snd ↔ ∃ made ∈ r.held.lookup p, r.Due δ made := by
  unfold tick Due
  split
  case h_1 h => simp [h]
  case h_2 w h =>
    simp only [h, Option.mem_some_iff, exists_eq_left', List.mem_map, List.mem_filter, decide_eq_true_iff]
    constructor
    case mp =>
      rintro ⟨e, ⟨he, hw⟩, rfl⟩
      exact ⟨e.snd, AList.lookup_of_mem he, hw⟩
    case mpr =>
      rintro ⟨made, hm, hw⟩
      exact ⟨⟨p, made⟩, ⟨AList.mem_lookup_iff.mp hm, hw⟩, rfl⟩

theorem nodup_tick : (r.tick δ).snd.Nodup := by
  unfold tick
  split
  case h_1 => exact List.nodup_nil
  case h_2 => exact List.Nodup.sublist (List.filter_sublist.map Sigma.fst) r.held.nodupKeys

theorem lookup_tick : (r.tick δ).fst.held.lookup p = if p ∈ (r.tick δ).snd then none else r.held.lookup p := by
  unfold tick
  split
  case h_1 => rfl
  case h_2 => exact AList.lookup_foldl_erase

theorem lookup_apply (hr : ∀ q, op ≠ .reserve q) (ht : ¬op.IsTick) :
    (r.apply op).held.lookup p = some made ↔ r.held.lookup p = some made ∧ ¬op.Ends p := by
  have he (q : ID) : (r.held.erase q).lookup p = some made ↔ r.held.lookup p = some made ∧ q ≠ p := by
    by_cases h : q = p
    case pos =>
      subst h
      simp
    case neg => simp [h, AList.lookup_erase_ne (Ne.symm h)]
  cases op
  case reserve q  => exact absurd rfl (hr q)
  case consume q  => exact he q
  case withdraw q => exact he q
  case clear      => simp [apply, clear, Op.Ends]
  case tick       => exact absurd trivial ht

theorem lookup_tick_eq_some_iff :
    (r.tick δ).fst.held.lookup p = some made ↔ r.held.lookup p = some made ∧ ¬r.Due δ made := by
  rw [lookup_tick]
  split
  case isTrue h =>
    obtain ⟨made', hm, hd⟩ := mem_tick.mp h
    simp only [reduceCtorEq, false_iff, not_and, not_not]
    exact fun h => Option.some.inj (hm.symm.trans h) ▸ hd
  case isFalse h => exact (and_iff_left_of_imp fun hl hd => h <| mem_tick.mpr ⟨made, hl, hd⟩).symm

-- A call which reserves for the player, and calls which came after it: the player held nothing before, none of
-- the calls took the reservation away, and they did not let the window pass. It passes at a tick only.
structure Kept (window : Option Nat) (player : ID) (before after : List (Op ID)) : Prop where
  first : (run window before).holds player = false
  quiet : ∀ op ∈ after, ¬op.Ends player
  fresh : ∀ w ∈ window, (∀ op ∈ after, ¬op.IsTick) ∨ time after < w

namespace Kept

theorem nil_iff : Kept window p before [] ↔ (run window before).held.lookup p = none := by
  constructor
  case mp  => exact fun h => by simpa [holds] using h.first
  case mpr => exact fun h => ⟨by simp [holds, h], by simp, by simp⟩

theorem of_snoc (h : Kept window p before (after ++ [op])) : Kept window p before after where
  first := h.first
  quiet op ho := h.quiet op (List.mem_append_left _ ho)
  fresh w hw := (h.fresh w hw).imp (fun h op ho => h op (List.mem_append_left _ ho)) fun h => by
    rw [time_append] at h
    omega

theorem snoc_iff_of_not_tick (h : ¬op.IsTick) :
    Kept window p before (after ++ [op]) ↔ Kept window p before after ∧ ¬op.Ends p := by
  have hd : op.delta = 0 := by
    cases op
    case tick => exact absurd trivial h
    all_goals rfl
  constructor
  case mp  => exact fun hk => ⟨hk.of_snoc, hk.quiet op (by simp)⟩
  case mpr =>
    rintro ⟨hk, he⟩
    refine ⟨hk.first, List.forall_mem_append.mpr ⟨hk.quiet, by simpa using he⟩, fun w hw => ?_⟩
    rw [time_append, time_cons, time_nil, hd]
    exact (hk.fresh w hw).imp_left fun hn => List.forall_mem_append.mpr ⟨hn, by simpa using h⟩

theorem snoc_tick_iff :
    Kept window p before (after ++ [.tick δ]) ↔ Kept window p before after ∧ ∀ w ∈ window, time after + δ < w := by
  have ht : time (after ++ [.tick δ]) = time after + δ := time_append
  constructor
  case mp  =>
    intro hk
    refine ⟨hk.of_snoc, fun w hw => ht ▸ (hk.fresh w hw).resolve_left fun hn => ?_⟩
    exact hn (.tick δ) (by simp) trivial
  case mpr =>
    rintro ⟨hk, hw⟩
    exact ⟨hk.first, List.forall_mem_append.mpr ⟨hk.quiet, by simp [Op.Ends]⟩, fun w h => .inr (ht ▸ hw w h)⟩

end Kept

-- The calls end with what a reservation was made by, and with what came after it.
def Promised (window : Option Nat) (player : ID) (ops : List (Op ID)) (made : Nat) : Prop :=
  ∃ before after, ops = before ++ .reserve player :: after ∧ (Kept window player before after ∧ made = time before)

theorem promised_snoc_iff : Promised window p (ops ++ [op]) made ↔
    op = .reserve p ∧ ((run window ops).held.lookup p = none ∧ made = time ops) ∨
      ∃ before after, ops = before ++ .reserve p :: after ∧
        (Kept window p before (after ++ [op]) ∧ made = time before) := by
  rw [← Kept.nil_iff]
  exact Trace.split_snoc_iff (P := fun before after => Kept window p before after ∧ made = time before)

theorem promised_snoc_iff_of_quiet (ht : ¬op.IsTick) (hr : op ≠ .reserve p) :
    Promised window p (ops ++ [op]) made ↔ Promised window p ops made ∧ ¬op.Ends p := by
  simp only [promised_snoc_iff, hr, false_and, false_or, Kept.snoc_iff_of_not_tick ht]
  constructor
  case mp =>
    rintro ⟨before, after, hs, ⟨hk, he⟩, hm⟩
    exact ⟨⟨before, after, hs, hk, hm⟩, he⟩
  case mpr =>
    rintro ⟨⟨before, after, hs, hk, hm⟩, he⟩
    exact ⟨before, after, hs, ⟨hk, he⟩, hm⟩

-- The age of a reservation is what the ticks since then add up to.
theorem due_iff (ht : time (before ++ .reserve p :: after) + δ ≤ durationMax) :
    (run window (before ++ .reserve p :: after)).Due δ (time before) ↔ ∃ w ∈ window, w ≤ time after + δ := by
  have hz : (Op.reserve p).delta = 0 := rfl
  rw [Due, window_run, elapsed_run]
  rw [time_append, time_cons, hz, Nat.zero_add] at ht ⊢
  rw [min_eq_left (by omega : time before + time after ≤ durationMax), min_eq_left ht, Nat.add_assoc,
    Nat.add_sub_cancel_left]

-- Where the reservation came from.
theorem lookup_run (ht : time ops ≤ durationMax) :
    (run window ops).held.lookup p = some made ↔ Promised window p ops made := by
  induction ops using List.reverseRecOn
  case nil => simp [run, new, Promised]
  case append_singleton ops op ih =>
    rw [time_append] at ht
    have ih := ih (by omega)
    rw [run_snoc]
    cases op
    case reserve q =>
      rw [apply, lookup_reserve, elapsed_run, min_eq_left (by omega)]
      split
      case isTrue h =>
        obtain ⟨rfl, hn⟩ := h
        constructor
        case mp  => exact fun hm => promised_snoc_iff.mpr <| .inl ⟨rfl, hn, (Option.some.inj hm).symm⟩
        case mpr =>
          intro hp
          cases promised_snoc_iff.mp hp
          case inl hp => rw [hp.right.right]
          case inr hp =>
            obtain ⟨before, after, hs, hk, hm⟩ := hp
            exact absurd (ih.mpr ⟨before, after, hs, hk.of_snoc, hm⟩) (by simp [hn])
      case isFalse h =>
        constructor
        case mp =>
          intro hm
          obtain ⟨before, after, hs, hk, hm⟩ := ih.mp hm
          exact promised_snoc_iff.mpr <| .inr ⟨before, after, hs, (Kept.snoc_iff_of_not_tick id).mpr ⟨hk, id⟩, hm⟩
        case mpr =>
          intro hp
          cases promised_snoc_iff.mp hp
          case inl hp => exact absurd ⟨Op.reserve.inj hp.left, hp.right.left⟩ h
          case inr hp =>
            obtain ⟨before, after, hs, hk, hm⟩ := hp
            exact ih.mpr ⟨before, after, hs, hk.of_snoc, hm⟩
    case tick δ =>
      rw [apply, lookup_tick_eq_some_iff]
      constructor
      case mp =>
        rintro ⟨hl, hd⟩
        obtain ⟨before, after, rfl, hk, rfl⟩ := ih.mp hl
        refine promised_snoc_iff.mpr <| .inr ⟨before, after, rfl, Kept.snoc_tick_iff.mpr ⟨hk, fun w hw => ?_⟩, rfl⟩
        have hd : ¬w ≤ time after + δ := fun hle => hd <| (due_iff ht).mpr ⟨w, hw, hle⟩
        omega
      case mpr =>
        intro hp
        obtain ⟨before, after, rfl, hk, rfl⟩ := (promised_snoc_iff.mp hp).resolve_left (by simp)
        obtain ⟨hk, hw⟩ := Kept.snoc_tick_iff.mp hk
        refine ⟨ih.mpr ⟨before, after, rfl, hk, rfl⟩, fun hd => ?_⟩
        obtain ⟨w, h, hle⟩ := (due_iff ht).mp hd
        exact hle.not_gt (hw w h)
    all_goals
      rw [lookup_apply (by simp) id, ih, promised_snoc_iff_of_quiet id (by simp)]

-- A player holds a seat while the window has not passed since the first call that reserved it, unless a call took
-- it away. The tick at which the window has passed reports the lapse, and no other one does. Reserving a seat
-- which is held changes nothing.
theorem held_until_lapse (ht : time ops ≤ durationMax) :
    ((run window ops).holds player ↔
      ∃ before after, ops = before ++ .reserve player :: after ∧ Kept window player before after) ∧
    (∀ δ, time ops + δ ≤ durationMax →
      (player ∈ ((run window ops).tick δ).snd ↔ ∃ before after, ops = before ++ .reserve player :: after ∧
        Kept window player before after ∧ ∃ w ∈ window, w ≤ time after + δ) ∧
      (player ∈ ((run window ops).tick δ).snd ↔
        (run window ops).holds player ∧ ¬((run window ops).tick δ).fst.holds player) ∧
      ((run window ops).tick δ).snd.Nodup) ∧
    ((run window ops).holds player → (run window ops).reserve player = (run window ops, false)) := by
  refine ⟨?_, fun δ hδ => ⟨?_, ?_, nodup_tick⟩, fun h => ?_⟩
  case refine_1 =>
    rw [holds, Option.isSome_iff_exists]
    constructor
    case mp =>
      rintro ⟨made, hm⟩
      obtain ⟨before, after, hs, hk, _⟩ := (lookup_run ht).mp hm
      exact ⟨before, after, hs, hk⟩
    case mpr =>
      rintro ⟨before, after, hs, hk⟩
      exact ⟨time before, (lookup_run ht).mpr ⟨before, after, hs, hk, rfl⟩⟩
  case refine_2 =>
    rw [mem_tick]
    constructor
    case mp =>
      rintro ⟨made, hm, hd⟩
      obtain ⟨before, after, rfl, hk, rfl⟩ := (lookup_run ht).mp hm
      exact ⟨before, after, rfl, hk, (due_iff hδ).mp hd⟩
    case mpr =>
      rintro ⟨before, after, rfl, hk, hw⟩
      exact ⟨time before, (lookup_run ht).mpr ⟨before, after, rfl, hk, rfl⟩, (due_iff hδ).mpr hw⟩
  case refine_3 =>
    rw [holds, holds, lookup_tick]
    constructor
    case mp =>
      intro h
      obtain ⟨made, hm, _⟩ := mem_tick.mp h
      exact ⟨Option.isSome_iff_exists.mpr ⟨made, hm⟩, by simp [h]⟩
    case mpr =>
      rintro ⟨hh, hn⟩
      by_contra h
      exact hn (by rwa [if_neg h])
  case refine_4 =>
    obtain ⟨made, hm⟩ := Option.isSome_iff_exists.mp h
    rw [reserve, hm]

theorem lapses_on_time : 1 ∈ ((run (some 45) [.reserve 1, .tick 30, .reserve 2]).tick 15).snd :=
  ((held_until_lapse (by decide)).right.left 15 (by decide)).left.mpr
    ⟨[], [.tick 30, .reserve 2], rfl, ⟨by decide, by simp [Op.Ends], by simp [Op.delta]⟩, 45, rfl, by decide⟩

-- A reservation made and not ticked yet is held whatever the window, a window of nothing included.
theorem held_at_once : (run (some 0) [.reserve 1]).holds 1 ∧ ¬∃ before after,
    [Op.reserve 1] = before ++ .reserve 1 :: after ∧ ∀ w ∈ some 0, time after < w := by
  refine ⟨by decide, ?_⟩
  rintro ⟨_, after, _, hw⟩
  exact Nat.not_lt_zero _ (hw 0 rfl)

end Plaza.Lobby.SeatReservations
