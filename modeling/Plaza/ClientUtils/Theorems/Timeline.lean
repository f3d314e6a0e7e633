import Mathlib.Data.Rat.Floor
import Plaza.ClientUtils.Timeline

namespace Plaza.ClientUtils.StampedTimeline

variable {K : Type*} [Field K] [LinearOrder K] [FloorSemiring K] {t : StampedTimeline K} {c c' : Client K}
  {e : Nat × Call} {es : List (Nat × Call)} {stamp now : Nat} {offset : K}

-- A stamp that the timeline does not take, or one which is not behind what the newest has come to. It may be
-- behind if the fit is not.
def Upholds (t : StampedTimeline K) (stamp now : Nat) : Prop :=
  t.stamp.all fun (newest, atLocal) => stamp < newest || newest + (now - atLocal) ≤ max stamp (t.fitted now)

def Client.Upholds (c : Client K) : Nat × Call → Prop
  | (now, .noteStamp stamp) => c.timeline.Upholds stamp now
  | _                       => True

instance : ∀ (c : Client K) (e : Nat × Call), Decidable (c.Upholds e)
  | _, (_, .noteStamp _)  => inferInstanceAs <| Decidable (_ = true)
  | _, (_, .complete _ _) => inferInstanceAs <| Decidable True
  | _, (_, .onReconnect)  => inferInstanceAs <| Decidable True
  | _, (_, .onResume)     => inferInstanceAs <| Decidable True

-- The stamp was written at a server time which had come.
def Truthful (offset : K) (e : Nat × Call) : Prop :=
  ∀ stamp, e.snd = .noteStamp stamp → (stamp : K) ≤ e.fst + offset

theorem not_lowered_iff : t.serverTimeMs now ≤ (t.noteStamp stamp now).serverTimeMs now ↔ t.Upholds stamp now := by
  cases hs : t.stamp
  case none => simp [noteStamp, serverTimeMs, carried, fitted, Upholds, hs]
  case some held =>
    obtain ⟨newest, atLocal⟩ := held
    have hb : t.serverTimeMs now = max (t.fitted now) (newest + (now - atLocal)) := by
      simp [serverTimeMs, carried, hs]
    by_cases hn : newest ≤ stamp
    case pos =>
      have ha : (t.noteStamp stamp now).serverTimeMs now = max (t.fitted now) stamp := by
        simp [noteStamp, serverTimeMs, carried, fitted, hs, hn]
      simp only [ha, hb, Upholds, hs, Option.all_some, Bool.or_eq_true, decide_eq_true_eq]
      omega
    case neg =>
      have ha : t.noteStamp stamp now = t := by simp [noteStamp, hs, hn]
      simp [ha, Upholds, hs, Nat.lt_of_not_le hn]

theorem step_setBack (h : machine.step c e = some c') : c'.setBack = false ↔ c.setBack = false ∧ c.Upholds e := by
  obtain ⟨now, call⟩ := e
  simp only [machine, Option.ite_none_left_eq_some, Option.some.injEq] at h
  rw [← h.right]
  cases call
  case noteStamp stamp =>
    rw [Bool.or_eq_false_iff, decide_eq_false_iff_not, Nat.not_lt]
    exact and_congr_right' not_lowered_iff
  case complete        => simp [Client.Upholds]
  case onReconnect     => simp [Client.Upholds]
  case onResume        => simp [Client.Upholds]

-- The newest stamp was not ahead of the server's clock when it was noted.
def Client.Behind (c : Client K) (offset : K) : Prop :=
  ∀ newest atLocal, c.timeline.stamp = some (newest, atLocal) → atLocal ≤ c.now ∧ (newest : K) ≤ atLocal + offset

theorem step_behind (h : machine.step c e = some c') (ht : Truthful offset e) (hb : c.Behind offset) :
    c'.Behind offset := by
  obtain ⟨now, call⟩ := e
  simp only [machine, Option.ite_none_left_eq_some, Option.some.injEq, not_lt] at h
  obtain ⟨hn, rfl⟩ := h
  have hk : ∀ newest atLocal, c.timeline.stamp = some (newest, atLocal) →
      atLocal ≤ now ∧ (newest : K) ≤ atLocal + offset := by
    intro newest atLocal hs
    exact (hb newest atLocal hs).imp_left fun h => h.trans hn
  intro newest atLocal hs
  cases call
  case noteStamp stamp =>
    simp only [apply, noteStamp] at hs
    split at hs
    case isFalse => exact hk newest atLocal hs
    case isTrue =>
      obtain ⟨rfl, rfl⟩ := Prod.mk.inj <| Option.some.inj hs
      exact ⟨le_rfl, ht stamp rfl⟩
  case complete    => exact hk newest atLocal hs
  case onReconnect => exact hk newest atLocal hs
  case onResume    => exact hk newest atLocal hs

theorem steps_behind (h : machine.Steps c es c') (ht : ∀ e ∈ es, Truthful offset e) (hb : c.Behind offset) :
    c'.Behind offset := by
  induction h
  case refl         => exact hb
  case step he _ hi =>
    have ⟨hte, ht⟩ := List.forall_mem_cons.mp ht
    exact hi ht (step_behind he hte hb)

variable [IsStrictOrderedRing K] {fit : ClockSyncEstimator K} {start : Nat}

-- Exactly a stamp that is behind what the newest has come to, but not older than it, sets the estimate back. What
-- comes of the stamps does not get ahead of the server.
theorem stamps_floor (h : machine.Steps (.start fit start) es c) :
    (c.setBack = false ↔ (machine.restrict Client.Upholds).Steps (.start fit start) es c) ∧
    ∀ offset, (∀ e ∈ es, Truthful offset e) → ∀ now, c.now ≤ now → ∀ floor, c.timeline.carried now = some floor →
      (floor : K) ≤ now + offset := by
  constructor
  case left =>
    have hi := h.restrict_iff (I := fun _ => True) (Q := fun c => c.setBack = false) (fun _ _ => trivial)
      (fun _ h => step_setBack h) trivial
    exact hi.trans (and_iff_right rfl)
  case right =>
    intro offset ht now hn floor hf
    obtain ⟨⟨newest, atLocal⟩, hs, rfl⟩ := Option.map_eq_some_iff.mp hf
    have hb : c.Behind offset := steps_behind h ht fun _ _ hs => by cases hs
    obtain ⟨hle, hlt⟩ := hb newest atLocal hs
    calc ((newest + (now - atLocal) : Nat) : K)
      _ = newest + (now - atLocal)            := by rw [Nat.cast_add, Nat.cast_sub (hle.trans hn)]
      _ ≤ atLocal + offset + (now - atLocal)  := by gcongr
      _ = now + offset                        := by ring

theorem stamps_floor_two :
    ∃ c : Client ℚ, machine.Steps (.start ⟨[], 32⟩ 0) [(500, .noteStamp 100000), (700, .noteStamp 100300)] c ∧
      (machine.restrict Client.Upholds).Steps (.start ⟨[], 32⟩ 0)
        [(500, .noteStamp 100000), (700, .noteStamp 100300)] c := by
  obtain ⟨c, hc⟩ : ∃ c : Client ℚ, machine.run (.start ⟨[], 32⟩ 0)
      [(500, .noteStamp 100000), (700, .noteStamp 100300)] = some c := ⟨_, rfl⟩
  have hs := Machine.run_eq_some_iff.mp hc
  have hb : c.setBack = false := by
    have hb : ((machine (K := ℚ)).run (.start ⟨[], 32⟩ 0)
        [(500, .noteStamp 100000), (700, .noteStamp 100300)]).all (!·.setBack) := by decide +kernel
    simpa [hc] using hb
  exact ⟨c, hs, (stamps_floor hs).left.mp hb⟩

-- Of two messages with one stamp the later one takes away what the first has come to.
theorem estimate_set_back :
    ¬∀ {K : Type} [Field K] [LinearOrder K] [FloorSemiring K] (fit : ClockSyncEstimator K) (start : Nat)
      (es : List (Nat × Call)) (c : Client K), machine.Steps (.start fit start) es c → c.setBack = false := by
  intro h
  have hb : ((machine (K := ℚ)).run (.start ⟨[], 32⟩ 0)
      [(500, .noteStamp 100000), (700, .noteStamp 100000)]).any (·.setBack) := by decide +kernel
  obtain ⟨c, hc, hb⟩ := (Option.any_eq_true ..).mp hb
  exact absurd hb (by simp [h _ _ _ c (Machine.run_eq_some_iff.mp hc)])

end Plaza.ClientUtils.StampedTimeline
