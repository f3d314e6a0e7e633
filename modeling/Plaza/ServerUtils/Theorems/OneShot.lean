import Mathlib.Data.List.Induction
import Plaza.ServerUtils.OneShot

namespace Plaza.ServerUtils.Pending

-- What a server does with its ops on a link that is lossy.
inductive Call (K Op : Type)
  | declare (key : K) (op : Op) (nowMs : Nat)
  | due (nowMs : Nat)
  | confirm (key : K)

namespace Call

variable {K Op : Type}

def nowMs : Call K Op → Nat
  | declare _ _ nowMs | due nowMs => nowMs
  | confirm _                     => 0

-- Ends the repeats for a key, by a confirmation or by a newer verdict.
def Settles (key : K) : Call K Op → Prop
  | declare k _ _ | confirm k => k = key
  | due _                     => False

def concerns [DecidableEq K] (key : K) : Call K Op → Bool
  | declare k _ _ | confirm k => k = key
  | due _                     => true

end Call

variable {K Op : Type} [DecidableEq K] {p : Pending K Op} {key : K} {retry attempts : Nat}
  {calls before after : List (Call K Op)} {c : Call K Op} {held : Option (Entry Op)} {op : Op} {now : Nat}

def apply (p : Pending K Op) : Call K Op → Pending K Op
  | .declare key op nowMs => (p.declare key op nowMs).fst
  | .due nowMs            => (p.due nowMs true).fst
  | .confirm key          => p.confirm key

-- What is handed out for sending.
def sent (p : Pending K Op) : Call K Op → List (K × Op)
  | .declare key op nowMs => [(key, (p.declare key op nowMs).snd)]
  | .due nowMs            => (p.due nowMs true).snd
  | .confirm _            => []

-- What comes of the calls, and all that they hand out, with the times.
def run (p : Pending K Op) (calls : List (Call K Op)) : Pending K Op × List (K × Op × Nat) :=
  calls.foldl (fun s c => (s.fst.apply c, s.snd ++ (s.fst.sent c).map fun e => (e.fst, e.snd, c.nowMs))) (p, [])

def toKey {β : Type} (key : K) (l : List (K × β)) : List β :=
  l.filterMap fun e => if e.fst = key then some e.snd else none

theorem run_snoc : p.run (calls ++ [c]) = ((p.run calls).fst.apply c,
    (p.run calls).snd ++ ((p.run calls).fst.sent c).map fun e => (e.fst, e.snd, c.nowMs)) := by
  simp [run]

-- What a call does for one key.
def turn (retry attempts : Nat) (key : K) (held : Option (Entry Op)) : Call K Op → Option (Entry Op) × List Op
  | .declare k op now => if k = key then (some { op, dueMs := now + retry, attempts := 1 }, [op]) else (held, [])
  | .due now          =>
    (held.bind fun e => (visit retry attempts now e).fst, (held.bind fun e => (visit retry attempts now e).snd).toList)
  | .confirm k        => if k = key then (none, []) else (held, [])

theorem apply_schedule : (p.apply c).retryMs = p.retryMs ∧ (p.apply c).attempts = p.attempts := by
  cases c <;> exact ⟨rfl, rfl⟩

-- A key is served as if there were no other.
theorem lookup_apply :
    (p.apply c).entries.lookup key = (turn p.retryMs p.attempts key (p.entries.lookup key) c).fst := by
  cases c
  case declare k op now =>
    rw [turn]
    split
    case isTrue h  => exact h ▸ AList.lookup_insert p.entries
    case isFalse h => exact AList.lookup_insert_ne (Ne.symm h)
  case due now   => exact AList.lookup_retain
  case confirm k =>
    rw [turn]
    split
    case isTrue h  => exact h ▸ AList.lookup_erase k p.entries
    case isFalse h => exact AList.lookup_erase_ne (Ne.symm h)

theorem toKey_sent : toKey key (p.sent c) = (turn p.retryMs p.attempts key (p.entries.lookup key) c).snd := by
  cases c
  case declare k op now =>
    rw [turn]
    split <;> simp_all [toKey, sent, declare]
  case due now   =>
    change toKey key (p.entries.entries.filterMap _) = ((p.entries.lookup key).bind _).toList
    rw [toKey, List.filterMap_filterMap, ← AList.filterMap_entries]
    refine List.filterMap_congr fun e _ => ?_
    cases (visit p.retryMs p.attempts now e.snd).snd <;> simp
  case confirm k =>
    rw [turn]
    split <;> rfl

theorem toKey_due {t : Nat} : toKey key (p.due t true).snd =
    ((p.entries.lookup key).bind fun e => (visit p.retryMs p.attempts t e).snd).toList :=
  @toKey_sent _ _ _ p key (.due t)

theorem lookup_due {t : Nat} : (p.due t true).fst.entries.lookup key =
    (p.entries.lookup key).bind fun e => (visit p.retryMs p.attempts t e).fst :=
  AList.lookup_retain

-- What the calls do for one key, and what they hand out for it.
def track (retry attempts : Nat) (key : K) (held : Option (Entry Op)) (calls : List (Call K Op)) :
    Option (Entry Op) × List (Op × Nat) :=
  calls.foldl (fun s c =>
    let (held, ops) := turn retry attempts key s.fst c
    (held, s.snd ++ ops.map (·, c.nowMs))) (held, [])

theorem track_snoc : track retry attempts key held (calls ++ [c]) =
    ((turn retry attempts key (track retry attempts key held calls).fst c).fst,
      (track retry attempts key held calls).snd ++
        (turn retry attempts key (track retry attempts key held calls).fst c).snd.map (·, c.nowMs)) := by
  simp [track]

theorem track_append : (track retry attempts key held (before ++ after)).fst =
    (track retry attempts key (track retry attempts key held before).fst after).fst := by
  induction after using List.reverseRecOn
  case nil                     => rw [List.append_nil]; rfl
  case append_singleton _ _ ih => rw [← List.append_assoc, track_snoc, track_snoc, ih]

theorem run_schedule : (p.run calls).fst.retryMs = p.retryMs ∧ (p.run calls).fst.attempts = p.attempts := by
  induction calls using List.reverseRecOn
  case nil => exact ⟨rfl, rfl⟩
  case append_singleton _ _ ih =>
    rw [run_snoc]
    exact ⟨apply_schedule.left.trans ih.left, apply_schedule.right.trans ih.right⟩

-- By induction over the calls.
theorem run_eq_track : ((p.run calls).fst.entries.lookup key, toKey key (p.run calls).snd) =
    track p.retryMs p.attempts key (p.entries.lookup key) calls := by
  induction calls using List.reverseRecOn
  case nil => rfl
  case append_singleton calls c ih =>
    obtain ⟨hr, ha⟩ := @run_schedule _ _ _ p calls
    rw [run_snoc, track_snoc, ← ih, lookup_apply, hr, ha, toKey, List.filterMap_append]
    congr 2
    rw [← hr, ← ha, ← toKey_sent, toKey, List.filterMap_map, List.map_filterMap]
    refine List.filterMap_congr fun e _ => ?_
    by_cases h : e.fst = key <;> simp [h]

theorem lookup_run : (p.run calls).fst.entries.lookup key =
    (track p.retryMs p.attempts key (p.entries.lookup key) calls).fst :=
  congrArg Prod.fst run_eq_track

theorem eq_due_of_not_settles (h : ¬c.Settles key) : ¬c.concerns key ∨ ∃ t, c = .due t := by
  cases c
  case declare k op now => exact .inl (by simpa [Call.concerns, Call.Settles] using h)
  case due t            => exact .inr ⟨t, rfl⟩
  case confirm k        => exact .inl (by simpa [Call.concerns, Call.Settles] using h)

theorem turn_of_not_concerns (h : ¬c.concerns key) : turn retry attempts key held c = (held, []) := by
  cases c
  case declare k op now => exact if_neg (by simpa [Call.concerns] using h)
  case due              => exact absurd rfl h
  case confirm k        => exact if_neg (by simpa [Call.concerns] using h)

theorem track_filter :
    track retry attempts key held (calls.filter (·.concerns key)) = track retry attempts key held calls := by
  induction calls using List.reverseRecOn
  case nil => rfl
  case append_singleton calls c ih =>
    rw [List.filter_append, List.filter_singleton, track_snoc]
    cases h : c.concerns key
    case true  => rw [cond_true, track_snoc, ih]
    case false =>
      rw [cond_false, List.append_nil, turn_of_not_concerns (by simp [h]), ih, List.map_nil, List.append_nil]

theorem visit_mk {due n t : Nat} : visit retry attempts t { op, dueMs := due, attempts := n } =
    if t < due then (some { op, dueMs := due, attempts := n }, none)
    else if n ≥ attempts then (none, none)
    else (some { op, dueMs := t + retry, attempts := n + 1 }, some op) := rfl

-- How an op stands which was sent at these times and neither confirmed nor superseded.
structure Repeated (retry attempts : Nat) (op : Op) (held : Option (Entry Op)) (sends : List (Op × Nat))
    (last : Nat) : Prop where
  same   : ∀ s ∈ sends, s.fst = op
  few    : sends.length ≤ max attempts 1
  apart  : sends.Pairwise fun s t => s.snd + retry ≤ t.snd
  late   : ∀ s ∈ sends, s.snd ≤ last
  latest : sends.getLast? = some (op, last)
  stands : held = some { op, dueMs := last + retry, attempts := sends.length } ∨ held = none ∧ attempts ≤ sends.length

namespace Repeated

variable {sends : List (Op × Nat)} {last t : Nat}

theorem declared : Repeated retry attempts op (some { op, dueMs := now + retry, attempts := 1 }) [(op, now)] now where
  same   := by simp
  few    := le_max_right ..
  apart  := by simp
  late   := by simp
  latest := rfl
  stands := .inl rfl

-- Which call of `due` hands the op out again.
theorem visits (h : Repeated retry attempts op held sends last) :
    held.bind (fun e => (visit retry attempts t e).snd) =
      if sends.length < attempts ∧ last + retry ≤ t then some op else none := by
  cases h.stands
  case inl he =>
    rw [he, Option.bind_some, visit_mk]
    split
    case isTrue hl  => rw [if_neg (by omega)]
    case isFalse hl =>
      split
      case isTrue ha  => rw [if_neg (by omega)]
      case isFalse ha => rw [if_pos (by omega)]
  case inr he =>
    rw [he.left, if_neg (by omega)]
    rfl

theorem forgotten (h : Repeated retry attempts op held sends last) (ha : attempts ≤ sends.length)
    (ht : last + retry ≤ t) : held.bind (fun e => (visit retry attempts t e).fst) = none := by
  cases h.stands
  case inl he => rw [he, Option.bind_some, visit_mk, if_neg (Nat.not_lt.mpr ht), if_pos ha]
  case inr he => rw [he.left]; rfl

-- A call of `due` repeats the op or leaves it as it stands.
theorem due (h : Repeated retry attempts op held sends last) : ∃ last',
    Repeated retry attempts op (held.bind fun e => (visit retry attempts t e).fst)
      (sends ++ ((held.bind fun e => (visit retry attempts t e).snd).toList.map (·, t))) last' := by
  rw [h.visits]
  split
  case isTrue hs =>
    have hl : ∀ s ∈ sends, s.snd + retry ≤ t := fun s hm =>
      Nat.le_trans (Nat.add_le_add_right (h.late s hm) retry) hs.right
    refine ⟨t, ?_, ?_, ?_, ?_, by simp, .inl ?_⟩
    case refine_1 => exact List.forall_mem_append.mpr ⟨h.same, by simp⟩
    case refine_2 =>
      rw [List.length_append, Option.toList_some, List.map_singleton, List.length_singleton]
      omega
    case refine_3 =>
      refine List.pairwise_append.mpr ⟨h.apart, List.pairwise_singleton .., fun s hm s' hm' => ?_⟩
      rw [List.mem_singleton.mp hm']
      exact hl s hm
    case refine_4 =>
      refine List.forall_mem_append.mpr ⟨fun s hm => Nat.le_of_add_right_le (hl s hm), ?_⟩
      simp
    case refine_5 =>
      have he := h.stands.resolve_right fun hn => hs.left.not_ge hn.right
      rw [he, Option.bind_some, visit_mk, if_neg (Nat.not_lt.mpr hs.right), if_neg (Nat.not_le.mpr hs.left)]
      simp
  case isFalse hs =>
    refine ⟨last, ?_⟩
    rw [Option.toList_none, List.map_nil, List.append_nil]
    refine { h with stands := ?_ }
    cases h.stands
    case inl he =>
      rw [he, Option.bind_some, visit_mk]
      split
      case isTrue ht  => exact .inl rfl
      case isFalse ht =>
        have ha : attempts ≤ sends.length := Nat.le_of_not_lt fun ha => hs ⟨ha, Nat.not_lt.mp ht⟩
        exact .inr ⟨by rw [if_pos ha], ha⟩
    case inr he => exact .inr ⟨by rw [he.left]; rfl, he.right⟩

end Repeated

-- By induction over the calls since the declaration.
theorem track_repeated (hq : ∀ c ∈ after, ¬c.Settles key) : ∃ last,
    Repeated retry attempts op (track retry attempts key held (.declare key op now :: after)).fst
      (track retry attempts key held (.declare key op now :: after)).snd last := by
  induction after using List.reverseRecOn
  case nil =>
    refine ⟨now, ?_⟩
    simpa [track, turn, Call.nowMs] using Repeated.declared
  case append_singleton after c ih =>
    obtain ⟨hq, hc⟩ := List.forall_mem_append.mp hq
    obtain ⟨last, h⟩ := ih hq
    rw [← List.cons_append, track_snoc]
    cases eq_due_of_not_settles (hc c (by simp))
    case inl hn => exact ⟨last, by simpa [turn_of_not_concerns hn] using h⟩
    case inr hd =>
      obtain ⟨t, rfl⟩ := hd
      exact h.due

-- What is not declared, or is settled and not declared again, is not held.
theorem track_idle (hq : ∀ c ∈ after, ¬c.Settles key) : track retry attempts key none after = (none, []) := by
  induction after using List.reverseRecOn
  case nil => rfl
  case append_singleton after c ih =>
    obtain ⟨hq, hc⟩ := List.forall_mem_append.mp hq
    rw [track_snoc, ih hq]
    cases eq_due_of_not_settles (hc c (by simp))
    case inl hn => simp [turn_of_not_concerns hn]
    case inr hd =>
      obtain ⟨t, rfl⟩ := hd
      rfl

theorem track_confirmed (hq : ∀ c ∈ after, ¬c.Settles key) :
    (track retry attempts key held (before ++ .confirm key :: after)).fst = none := by
  rw [List.append_cons, track_append, track_snoc, turn, if_pos rfl, track_idle hq]

-- An op is sent with its declaration and by every call of `due` from its due time on, up to the number of
-- attempts. The next such call forgets it. A confirmation or a newer op for the key stops the repeats, and calls for
-- other keys make no difference.
theorem repeats_until_settled :
    (∀ before after op now, (∀ c ∈ after, ¬c.Settles key) →
      let p : Pending K Op := ((withSchedule retry attempts).run before).fst
      let s := p.run (.declare key op now :: after)
      (∀ e ∈ toKey key s.snd, e.fst = op) ∧
        (1 ≤ attempts → (toKey key s.snd).length ≤ attempts) ∧
        (toKey key s.snd).Pairwise (fun e e' => e.snd + retry ≤ e'.snd) ∧
        ∃ last, (toKey key s.snd).getLast? = some (op, last) ∧ ∀ t,
          toKey key (s.fst.due t true).snd =
            (if (toKey key s.snd).length < attempts ∧ last + retry ≤ t then [op] else []) ∧
          (attempts ≤ (toKey key s.snd).length → last + retry ≤ t →
            (s.fst.due t true).fst.entries.lookup key = none)) ∧
    (∀ before after, (∀ c ∈ after, ¬c.Settles key) → ∀ t,
      toKey key ((((withSchedule retry attempts : Pending K Op).run after).fst.due t true).snd) = [] ∧
      toKey key ((((withSchedule retry attempts : Pending K Op).run (before ++ .confirm key :: after)).fst.due t true).snd)
        = []) ∧
    ∀ calls, toKey key ((withSchedule retry attempts : Pending K Op).run calls).snd =
      toKey key ((withSchedule retry attempts : Pending K Op).run (calls.filter (·.concerns key))).snd := by
  refine ⟨fun before after op now hq => ?_, fun before after hq t => ⟨?_, ?_⟩, fun calls => ?_⟩
  case refine_1 =>
    intro p s
    obtain ⟨hr, ha⟩ : p.retryMs = retry ∧ p.attempts = attempts := run_schedule
    obtain ⟨hr', ha'⟩ : s.fst.retryMs = p.retryMs ∧ s.fst.attempts = p.attempts := run_schedule
    obtain ⟨last, h⟩ := @track_repeated _ _ _ _ retry attempts _ (p.entries.lookup key) op now hq
    rw [← hr, ← ha, ← run_eq_track, hr, ha] at h
    refine ⟨h.same, fun h1 => ?_, h.apart, last, h.latest, fun t => ⟨?_, fun hl ht => ?_⟩⟩
    case refine_1 => exact max_eq_left h1 ▸ h.few
    case refine_2 =>
      rw [toKey_due, hr', ha', hr, ha, h.visits]
      split <;> rfl
    case refine_3 =>
      rw [lookup_due, hr', ha', hr, ha]
      exact h.forgotten hl ht
  case refine_2 =>
    have hn : (withSchedule retry attempts : Pending K Op).entries.lookup key = none := rfl
    rw [toKey_due, lookup_run, hn, track_idle hq]
    rfl
  case refine_3 =>
    rw [toKey_due, lookup_run, track_confirmed hq]
    rfl
  case refine_4 =>
    have h := @run_eq_track _ _ _ (withSchedule retry attempts) key calls
    rw [← track_filter, ← run_eq_track] at h
    exact (Prod.mk.inj h).right

end Plaza.ServerUtils.Pending
