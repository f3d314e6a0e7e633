import Mathlib.Analysis.Normed.Field.Lemmas
import Mathlib.Analysis.Normed.Group.AddTorsor
import Mathlib.Data.List.Induction
import Mathlib.LinearAlgebra.AffineSpace.AffineMap
import Mathlib.Tactic.Linarith
import Plaza.ClientUtils.Interpolation
import Plaza.Lib.Ordered
import Plaza.ServerUtils.History

open Plaza.ClientUtils

namespace Plaza.ServerUtils.HistoricalStateBuffer

variable {ε σ : Type*} {l : List (ServerSnapshot σ)} {target n : Nat}
variable {interpolate : σ → σ → ℚ → Nat → Nat → σ}

-- What the server calls a snapshot.
def timed (s : ServerSnapshot σ) : TimedState σ where
  time  := s.serverTimestamp
  state := s.state

-- Between two samples both blend by the same share, and on the later one nothing is left of the earlier.
theorem between_eq_blend (h : ∀ a b t₁ t₂, interpolate a b 1 t₁ t₂ = b) {before after : ServerSnapshot σ}
    (hb : before.serverTimestamp < target) (ha : target ≤ after.serverTimestamp) :
    (if after.serverTimestamp = target then after.state
      else between interpolate (timed before) (timed after) target) =
    SnapshotBuffer.blend interpolate before after target := by
  have ht : (1 : ℚ) ≤ (after.serverTimestamp - before.serverTimestamp : Nat) := by
    exact_mod_cast (by omega : 1 ≤ after.serverTimestamp - before.serverTimestamp)
  have hs : ¬|((after.serverTimestamp - before.serverTimestamp : Nat) : ℚ)| < 1 / 1000000000 := by
    rw [abs_of_nonneg (by linarith)]
    linarith
  rw [SnapshotBuffer.blend, if_neg hs]
  split
  case isTrue he =>
    dsimp only
    rw [← he, div_self (by linarith), min_self, max_eq_right zero_le_one, h]
  case isFalse =>
    rw [between, timed, timed, if_pos (by linarith)]

-- The search of the server, on the samples of the client.
theorem getStateAtOrBefore_eq [DecidableEq ε] {b : HistoricalStateBuffer ε σ} {id : ε}
    (hb : (b.history.lookup id).getD [] = l.map timed) :
    b.getStateAtOrBefore interpolate id target =
      let i := l.findIdx (target ≤ ·.serverTimestamp)
      if i = 0 then l.head?.map (·.state)
      else if i = l.length then l.getLast?.map (·.state)
      else l[i - 1]?.bind fun before => l[i]?.map fun after =>
        if after.serverTimestamp = target then after.state
        else between interpolate (timed before) (timed after) target := by
  unfold getStateAtOrBefore
  cases hh : b.history.lookup id
  case none =>
    have hl : l = [] := List.map_eq_nil_iff.mp (hh ▸ hb).symm
    simp [hl]
  case some history =>
    have hl : history = l.map timed := by rwa [hh] at hb
    have hi : (l.map timed).findIdx (target ≤ ·.time) = l.findIdx (target ≤ ·.serverTimestamp) := by
      rw [List.findIdx_map]
      rfl
    subst hl
    simp only [Option.bind_eq_bind, Option.bind_some, hi, List.length_map, List.head?_map, List.getLast?_map,
      Option.map_map, List.getElem?_map]
    split
    case isTrue  => rfl
    case isFalse =>
      split
      case isTrue  => rfl
      case isFalse =>
        cases l[l.findIdx (target ≤ ·.serverTimestamp) - 1]?
        case none => rfl
        case some before =>
          cases l[l.findIdx (target ≤ ·.serverTimestamp)]?
          case none => rfl
          case some after => simp [timed]; split <;> rfl

-- What the server finds in a history is what the client makes of the same samples.
theorem rewind_eq_render [DecidableEq ε] (h : ∀ a b t₁ t₂, interpolate a b 1 t₁ t₂ = b)
    (hl : l.Pairwise (·.serverTimestamp < ·.serverTimestamp)) {b : HistoricalStateBuffer ε σ} {id : ε}
    (hb : (b.history.lookup id).getD [] = l.map timed) {c : SnapshotBuffer σ} (hc : c.snapshots = l) :
    b.getStateAtOrBefore interpolate id target = c.getInterpolatedState interpolate target := by
  have hp : SnapshotBuffer.partitionPoint (·.serverTimestamp < target) l =
      l.findIdx (target ≤ ·.serverTimestamp) := by
    simp only [SnapshotBuffer.partitionPoint, ← decide_not, Nat.not_lt]
  rw [getStateAtOrBefore_eq hb, SnapshotBuffer.getInterpolatedState, hc, hp]
  generalize hi : l.findIdx (target ≤ ·.serverTimestamp) = i
  cases l.eq_nil_or_concat'
  case inl hnil =>
    subst hnil
    cases hi
    rfl
  case inr hcons =>
    obtain ⟨init, newest, rfl⟩ := hcons
    have ⟨oldest, ho⟩ : ∃ oldest, (init ++ [newest]).head? = some oldest :=
      Option.isSome_iff_exists.mp (by simp)
    have hlt s (hs : s ∈ init) : s.serverTimestamp < newest.serverTimestamp :=
      (List.pairwise_append.mp hl).right.right s hs newest (List.mem_singleton_self _)
    have hle s (hs : s ∈ init ++ [newest]) : s.serverTimestamp ≤ newest.serverTimestamp := by
      cases List.mem_append.mp hs
      case inl hs => exact (hlt s hs).le
      case inr hs => rw [List.mem_singleton.mp hs]
    have hzero : i = 0 ↔ target ≤ oldest.serverTimestamp := by
      have ⟨_, ho⟩ := List.head?_eq_some_iff.mp ho
      rw [← hi, ho, List.findIdx_cons]
      by_cases ht : target ≤ oldest.serverTimestamp <;> simp [ht]
    have hend : i = (init ++ [newest]).length ↔ newest.serverTimestamp < target := by
      rw [← hi, List.findIdx_eq_length]
      simp only [decide_eq_false_iff_not, Nat.not_le]
      exact ⟨fun h => h newest (by simp), fun h s hs => (hle s hs).trans_lt h⟩
    have hlen : i ≤ (init ++ [newest]).length := hi ▸ List.findIdx_le_length
    rw [ho, List.getLast?_concat]
    dsimp only [Option.map_some]
    by_cases h0 : i = 0
    case pos =>
      rw [if_pos h0, if_pos (hzero.mp h0)]
      split <;> rfl
    case neg =>
      rw [if_neg h0, if_neg (hzero.not.mp h0), if_neg h0]
      by_cases he : i = (init ++ [newest]).length
      case pos =>
        rw [if_pos he, if_pos (hend.mp he).le]
        split
        case isTrue hone =>
          have hnil : init = [] := by simpa using hone
          subst hnil
          cases ho
          rfl
        case isFalse => rfl
      case neg =>
        have hil : i < (init ++ [newest]).length := hlen.lt_of_ne he
        have hbefore : (init ++ [newest])[i - 1].serverTimestamp < target := by
          subst hi
          simpa using List.not_of_lt_findIdx (Nat.sub_one_lt h0)
        have hafter : target ≤ (init ++ [newest])[i].serverTimestamp := by
          subst hi
          simpa using List.findIdx_getElem (w := hil)
        rw [if_neg he, if_neg (by omega), List.getElem?_eq_getElem hil, List.getElem?_eq_getElem (by omega)]
        dsimp only [Option.bind_some, Option.map_some]
        rw [between_eq_blend h hbefore hafter]
        split
        case isTrue hn =>
          -- The later of the two samples is the newest one, and exactly hit.
          have heq : (init ++ [newest])[i] = newest := by
            cases List.mem_append.mp (List.getElem_mem hil)
            case inl hs =>
              have := hlt _ hs
              omega
            case inr hs => exact List.mem_singleton.mp hs
          have ht : (init ++ [newest])[i].serverTimestamp = target := by
            rw [heq] at hafter ⊢
            omega
          rw [← between_eq_blend h hbefore hafter, if_pos ht, heq]
        case isFalse => rfl

variable [DecidableEq ε]

-- The samples of one entity.
def samples (id : ε) (records : List (ε × Nat × σ)) : List (ServerSnapshot σ) :=
  (records.filter (·.fst = id)).map fun r => { serverTimestamp := r.snd.fst, state := r.snd.snd }

def recordAll (b : HistoricalStateBuffer ε σ) (records : List (ε × Nat × σ)) : HistoricalStateBuffer ε σ :=
  records.foldl (fun b r => b.recordState r.fst r.snd.fst r.snd.snd) b

def addAll (c : SnapshotBuffer σ) (samples : List (ServerSnapshot σ)) : SnapshotBuffer σ :=
  samples.foldl (fun c s => c.addSnapshot s.serverTimestamp s.state) c

theorem last_lt {s a : ServerSnapshot σ} (hl : (l ++ [a]).Pairwise (·.serverTimestamp < ·.serverTimestamp))
    (hs : (l.rtake n).getLast? = some s) : s.serverTimestamp < a.serverTimestamp := by
  have hm : s ∈ l := (List.drop_sublist _ _).subset <| List.mem_of_getLast? hs
  exact (List.pairwise_append.mp hl).right.right s hm a (List.mem_singleton_self a)

theorem addAll_eq {c : SnapshotBuffer σ} (hc : SnapshotBuffer.new n = some c)
    (hl : l.Pairwise (·.serverTimestamp < ·.serverTimestamp)) :
    addAll c l = { snapshots := l.rtake n, maxBufferSize := n } := by
  simp only [SnapshotBuffer.new, Option.ite_none_left_eq_some, Option.some.injEq] at hc
  have ⟨hn, hc⟩ := hc
  induction l using List.reverseRecOn
  case nil => simp [addAll, ← hc]
  case append_singleton l a ih =>
    rw [addAll, List.foldl_concat, ← addAll, ih (List.pairwise_append.mp hl).left]
    have ha : (l.rtake n).getLast?.all (·.serverTimestamp ≤ a.serverTimestamp) := by
      cases hs : (l.rtake n).getLast?
      case none   => rfl
      case some s => exact decide_eq_true (last_lt hl hs).le
    rw [SnapshotBuffer.addSnapshot, if_pos ha, ← List.rtake_rtake_concat (by omega : 0 < n)]
    rfl

theorem recordAll_eq {b : HistoricalStateBuffer ε σ} (hb : new n = some b) {id : ε}
    {records : List (ε × Nat × σ)} (hl : (samples id records).Pairwise (·.serverTimestamp < ·.serverTimestamp)) :
    (recordAll b records).maxSnapshotsPerEntity = n ∧
    ((recordAll b records).history.lookup id).getD [] = ((samples id records).rtake n).map timed := by
  simp only [new, Option.ite_none_left_eq_some, Option.some.injEq] at hb
  have ⟨hn, hb⟩ := hb
  induction records using List.reverseRecOn
  case nil => simp [recordAll, samples, ← hb]
  case append_singleton records r ih =>
    have hr : recordAll b (records ++ [r]) = (recordAll b records).recordState r.fst r.snd.fst r.snd.snd :=
      List.foldl_concat ..
    rw [hr]
    by_cases hid : r.fst = id
    case neg =>
      have hs : samples id (records ++ [r]) = samples id records := by
        simp [samples, hid]
      rw [hs] at hl ⊢
      have ⟨hm, ih⟩ := ih hl
      refine ⟨hm, ?_⟩
      rw [recordState, Finmap.lookup_insert_of_ne _ (Ne.symm hid), ih]
    case pos =>
      have hs : samples id (records ++ [r]) = samples id records ++ [⟨r.snd.fst, r.snd.snd⟩] := by
        simp [samples, hid]
      rw [hs] at hl ⊢
      have ⟨hm, ih⟩ := ih (List.pairwise_append.mp hl).left
      refine ⟨hm, ?_⟩
      have ha : ¬((((samples id records).rtake n).map timed).getLast?.any (r.snd.fst ≤ ·.time)) := by
        rw [List.getLast?_map]
        cases hs : ((samples id records).rtake n).getLast?
        case none   => simp
        case some s => simpa [timed] using last_lt hl hs
      rw [recordState, hid, Finmap.lookup_insert, Option.getD_some, ih, hm, if_neg ha,
        ← List.rtake_rtake_concat (by omega : 0 < n), List.map_rtake (l := _ ++ _), List.map_append, List.map_rtake]
      rfl

-- The server rewinds to what a client with a buffer of the same size drew for that time.
theorem rewinds_to_rendered {V P : Type*} [AddCommGroup V] [Module ℚ V] [AddTorsor V P]
    {b : HistoricalStateBuffer ε P} {c : SnapshotBuffer P} (hb : new n = some b) (hc : SnapshotBuffer.new n = some c)
    {id : ε} {records : List (ε × Nat × P)}
    (hl : (samples id records).Pairwise (·.serverTimestamp < ·.serverTimestamp)) (target : Nat) :
    (recordAll b records).getStateAtOrBefore (fun p q t _ _ => AffineMap.lineMap p q t) id target =
      (addAll c (samples id records)).getInterpolatedState (fun p q t _ _ => AffineMap.lineMap p q t) target := by
  have hs := hl.sublist (List.drop_sublist ((samples id records).length - n) _)
  exact rewind_eq_render (fun _ _ _ _ => AffineMap.lineMap_apply_one ..) hs (recordAll_eq hb hl).right
    (congrArg SnapshotBuffer.snapshots (addAll_eq hc hl))

theorem rewinds_to_rendered_three :
    ∃ b : HistoricalStateBuffer Nat ℚ, new 2 = some b ∧ ∃ c : SnapshotBuffer ℚ, SnapshotBuffer.new 2 = some c ∧
      (recordAll b [(7, 1, 10), (8, 1, 0), (7, 3, 20), (7, 5, 40)]).getStateAtOrBefore
          (fun p q t _ _ => AffineMap.lineMap p q t) 7 4 =
        (addAll c (samples 7 [(7, 1, 10), (8, 1, 0), (7, 3, 20), (7, 5, 40)])).getInterpolatedState
          (fun p q t _ _ => AffineMap.lineMap p q t) 4 :=
  ⟨_, rfl, _, rfl, rewinds_to_rendered (n := 2) rfl rfl (by simp [samples]) 4⟩

end Plaza.ServerUtils.HistoricalStateBuffer
