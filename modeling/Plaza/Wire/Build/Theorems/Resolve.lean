import Mathlib.Algebra.Order.BigOperators.Group.Finset
import Plaza.Lib.Worklist
import Plaza.Wire.Build.Resolve

namespace Plaza.Build.Wire

-- The least set that has the roots and every indexed definition which a member refers to, but for declared leaves.
inductive Covered (w : Wire) (index : Index) (roots : List String) : String → Prop
  | root {name} : (name ∈ roots) → (name ∈ index) → Covered w index roots name
  | reference {name d reference} :
    (Covered w index roots name) → (index.lookup name = some d) → (reference ∈ d.refs) → (reference ∈ index) →
    (reference ∉ w.leaves) → Covered w index roots reference

-- The lists on which the walk looks a reference up before it asks the index.
def Listed (name : String) : Prop :=
  name ∈ stdLeaves ∨ name ∈ vocabLeaves

-- A report which names a definition and what it refers to.
def Report.About (name reference : String) : Report → Prop
  | shapeless ..             => False
  | uncovered target from' _ => target = reference ∧ from' = name
  | unresolved target from' _ => target = reference ∧ from' = name

-- The walk comes to its end, includes the covered definitions and no others, and reports what it cannot place.
structure Exact (w : Wire) (index : Index) (roots : List String) : Prop where
  ends     : (w.loop index).Ends (.start roots) (w.resolve index roots)
  included : ∀ name, name ∈ (w.resolve index roots).included ↔ w.Covered index roots name
  reports  : ∀ {name d reference}, w.Covered index roots name → index.lookup name = some d → reference ∈ d.refs →
    reference ∉ index → ¬Listed reference → reference ∉ w.leaves →
    ∃ report ∈ (w.resolve index roots).reports, report.About name reference

variable {w : Wire} {index : Index} {roots refs : List String} {name reference : String} {d : Definition}

-- What a visit pushes, and what it has to report of a reference.
def Follows (w : Wire) (index : Index) (reference : String) : Prop :=
  ¬Listed reference ∧ reference ∉ w.leaves ∧ reference ∈ index

instance : DecidablePred Listed :=
  fun _ => inferInstanceAs (Decidable (_ ∨ _))

instance : DecidablePred (w.Follows index) :=
  fun _ => inferInstanceAs (Decidable (_ ∧ _ ∧ _))

def complaint (w : Wire) (index : Index) (name : String) (d : Definition) (reference : String) : Option Report :=
  if Listed reference ∨ reference ∈ w.leaves ∨ reference ∈ index then none
  else match bundleHint reference with
    | some hint => some (.uncovered reference name hint)
    | none      => some (.unresolved reference name d.file)

-- The walk as a traversal of the index.
def worklist (w : Wire) (index : Index) : Worklist String Report where
  nodes     := index.keys
  next name := (index.lookup name).elim [] fun d => d.refs.filter (w.Follows index)
  emit name := (index.lookup name).elim [] fun d =>
    d.opaques.map (.shapeless name d.file) ++ d.refs.filterMap (w.complaint index name d)

def Walk.toState (s : Walk) : Worklist.State String Report where
  queue := s.queue
  found := s.included
  out   := s.reports

theorem follow_eq (s : Walk) : w.follow index name d s reference = { s with
      queue   := (if w.Follows index reference then [reference] else []) ++ s.queue
      reports := s.reports ++ (w.complaint index name d reference).toList } := by
  unfold follow complaint Follows Listed
  by_cases h₁ : reference ∈ stdLeaves <;> by_cases h₂ : reference ∈ vocabLeaves <;>
    by_cases h₃ : reference ∈ w.leaves <;> by_cases h₄ : reference ∈ index <;> simp [h₁, h₂, h₃, h₄]
  case neg => cases bundleHint reference <;> rfl

theorem foldl_follow (s : Walk) : refs.foldl (w.follow index name d) s = { s with
      queue   := (refs.filter (w.Follows index)).reverse ++ s.queue
      reports := s.reports ++ refs.filterMap (w.complaint index name d) } := by
  induction refs generalizing s
  case nil => simp
  case cons reference refs hi =>
    rw [List.foldl_cons, hi, follow_eq]
    by_cases hf : w.Follows index reference <;> cases hc : w.complaint index name d reference <;> simp [hf, hc]

theorem worklist_body (s : Walk) :
    (w.worklist index).loop.body s.toState = ((w.loop index).body s).map Walk.toState := by
  cases hq : s.queue
  case nil => simp [Worklist.loop, loop, Walk.toState, hq]
  case cons name queue =>
    have hm : name ∈ index.keys ↔ index.lookup name ≠ none := by
      rw [Finmap.mem_keys, ne_eq, Finmap.lookup_eq_none, not_not]
    cases hl : index.lookup name
    case none => simp [Worklist.loop, loop, worklist, Walk.toState, hq, hl, hm]
    case some d =>
      by_cases hi : name ∈ s.included <;>
        simp [Worklist.loop, loop, worklist, Walk.toState, hq, hl, hm, hi, foldl_follow]

-- As many rounds as there are roots and references suffice.
theorem ends_resolve (w : Wire) (index : Index) (roots : List String) :
    (w.loop index).Ends (.start roots) (w.resolve index roots) := by
  have hb {s s'} (h : (w.loop index).body s = some s') :
      (w.worklist index).left s'.toState < (w.worklist index).left s.toState :=
    Worklist.left_body (by rw [worklist_body, h, Option.map_some])
  have hs : (∑ name ∈ index.keys, ((w.worklist index).next name).length) ≤
      ∑ name ∈ index.keys, (index.lookup name).elim 0 (·.refs.length) := by
    apply Finset.sum_le_sum
    intro name _
    cases h : index.lookup name
    case none   => simp [worklist, h]
    case some d => simpa [worklist, h] using List.length_filter_le ..
  apply Loop.ends_run (I := fun _ => True) (fun _ _ => trivial) (fun _ => hb) trivial
  simpa [Worklist.left, Walk.toState, Walk.start, worklist] using hs

theorem ends_worklist :
    (w.worklist index).loop.Ends (Worklist.start roots.reverse) (w.resolve index roots).toState :=
  (w.ends_resolve index roots).map worklist_body

theorem mem_included_iff :
    name ∈ (w.resolve index roots).included ↔ (w.worklist index).Reach roots.reverse name :=
  Worklist.mem_found_iff ends_worklist

theorem mem_next_iff : reference ∈ (w.worklist index).next name ↔
    ∃ d, index.lookup name = some d ∧ reference ∈ d.refs ∧ w.Follows index reference := by
  cases h : index.lookup name <;> simp [worklist, h]

theorem covered_of_reach (h : (w.worklist index).Reach roots.reverse name) : w.Covered index roots name := by
  induction h
  case root hr hn         => exact .root (List.mem_reverse.mp hr) (Finmap.mem_keys.mp hn)
  case next hb hn ih =>
    have ⟨d, hl, hr, hf⟩ := mem_next_iff.mp hb
    exact .reference ih hl hr hf.right.right hf.right.left

-- A listed name is not gone after, so that it is included as a root only.
theorem mem_roots_of_reach (h : (w.worklist index).Reach roots.reverse name) (hl : Listed name) : name ∈ roots := by
  cases h
  case root hr _   => exact List.mem_reverse.mp hr
  case next hb _ =>
    have ⟨_, _, _, hf⟩ := mem_next_iff.mp hb
    exact absurd hl hf.left

theorem reach_of_covered (hc : ∀ name, w.Covered index roots name → Listed name → name ∈ roots)
    (h : w.Covered index roots name) : (w.worklist index).Reach roots.reverse name := by
  induction h
  case root hr hn => exact .root (List.mem_reverse.mpr hr) (Finmap.mem_keys.mpr hn)
  case reference reference h hl hr hn hw ih =>
    by_cases hs : Listed reference
    case pos =>
      have := hc reference (.reference h hl hr hn hw) hs
      exact .root (List.mem_reverse.mpr this) (Finmap.mem_keys.mpr hn)
    case neg => exact .next ih (mem_next_iff.mpr ⟨_, hl, hr, hs, hw, hn⟩) (Finmap.mem_keys.mpr hn)

theorem reported_of_reach (h : (w.worklist index).Reach roots.reverse name) (hd : index.lookup name = some d)
    (hr : reference ∈ d.refs) (hn : reference ∉ index) (hs : ¬Listed reference) (hw : reference ∉ w.leaves) :
    ∃ report ∈ (w.resolve index roots).reports, report.About name reference := by
  have ⟨report, hc, ha⟩ : ∃ report, w.complaint index name d reference = some report ∧ report.About name reference := by
    cases hb : bundleHint reference <;> simp [complaint, hs, hw, hn, hb, Report.About]
  have he : report ∈ (w.worklist index).emit name := by
    simp only [worklist, hd, Option.elim_some, List.mem_append, List.mem_filterMap]
    exact .inr ⟨reference, hr, hc⟩
  exact ⟨report, (Worklist.mem_out_iff ends_worklist).mpr ⟨name, h, he⟩, ha⟩

-- The walk asks its lists before the index, so that a definition under a listed name is left out.
theorem exact_iff (w : Wire) (index : Index) (roots : List String) :
    w.Exact index roots ↔ ∀ name, w.Covered index roots name → Listed name → name ∈ roots := by
  constructor
  case mp =>
    intro h name hc hl
    exact mem_roots_of_reach (mem_included_iff.mp <| (h.included name).mpr hc) hl
  case mpr =>
    intro hc
    exact {
      ends         := w.ends_resolve index roots
      included _   := mem_included_iff.trans ⟨covered_of_reach, reach_of_covered hc⟩
      reports h    := reported_of_reach (reach_of_covered hc h)
    }

-- An application with a `Duration` of its own.
def timers : Wire where
  roots  := some ["Op"]
  vocab  := []
  leaves := []
  files  := [("ops.rs", [
    .enum ⟨[], "Op", [], "pub enum Op { Wait(Duration) }".toList⟩
      [⟨[], "Wait", .unnamed [⟨[], none, .path "Duration" []⟩]⟩],
    .struct ⟨[], "Duration", [], "pub struct Duration { pub ms: u64 }".toList⟩
      (.named [⟨[], some "ms", .path "u64" []⟩])
  ])]

theorem own_duration_left_out :
    ∃ index, timers.index = .ok index ∧ timers.findRoots index = .ok ["Op"] ∧ ¬timers.Exact index ["Op"] := by
  have h : timers.index.toOption.any fun index =>
      timers.findRoots index = .ok ["Op"] && (index.lookup "Op").any (fun d => "Duration" ∈ d.refs) &&
      "Duration" ∈ index && "Duration" ∉ (timers.resolve index ["Op"]).included := by decide +kernel
  cases hi : timers.index
  case error => simp [hi, Except.toOption] at h
  case ok index =>
    simp only [hi, Except.toOption, Option.any_some, Bool.and_eq_true, decide_eq_true_eq] at h
    have ⟨⟨⟨hr, ho⟩, hd⟩, hn⟩ := h
    have ⟨d, hl, ho⟩ := Option.any_eq_true .. |>.mp ho
    refine ⟨index, rfl, hr, fun he => hn ((he.included "Duration").mpr ?_)⟩
    have hop : "Op" ∈ index := Finmap.mem_of_lookup_eq_some hl
    exact .reference (.root (by simp) hop) hl (of_decide_eq_true ho) hd (by simp [timers])

end Plaza.Build.Wire
