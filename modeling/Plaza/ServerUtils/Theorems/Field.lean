import Mathlib.Data.Rat.Floor
import Plaza.Lib.Grid
import Plaza.ServerUtils.Field

namespace Plaza.ServerUtils

open Rust

section

variable {α : Type}

-- The numbers of the points with a property.
def numbered (ps : List α) (P : α → Bool) : List Nat :=
  (ps.zipIdx.filter fun q => P q.fst).map Prod.snd

theorem mem_numbered {id : Nat} {ps : List α} {P : α → Bool} : id ∈ numbered ps P ↔ ∃ p, ps[id]? = some p ∧ P p := by
  simp only [numbered, List.mem_map, List.mem_filter, Prod.exists, List.mem_zipIdx_iff_getElem?, exists_eq_right]

theorem nodup_numbered {ps : List α} {P : α → Bool} : (numbered ps P).Nodup := by
  have hs : (numbered ps P).Sublist (ps.zipIdx.map Prod.snd) := List.filter_sublist.map _
  rw [List.zipIdx_map_snd] at hs
  exact hs.nodup List.nodup_range'

end

variable {K : Type} [Field K] [LinearOrder K]

namespace PointField

variable {f : PointField K} {ps : List (Vec3 K)} {p eye : Vec3 K} {radius : K} {o : Overflow} {id : Nat}
variable {centre d low reach : CellKey} {ds : List CellKey} {ids : List Nat} {out : List Nat} {stats : Query}

-- Whether the point of that id is near.
def nearId (f : PointField K) (eye : Vec3 K) (radius : K) (id : Nat) : Bool :=
  f.points[id]?.any (f.near eye radius)

theorem examine_all (h : ∀ id ∈ ids, id < f.points.length) :
    ∃ stats', ids.foldlM (f.examine eye radius) (out, stats) = some (out ++ ids.filter (f.nearId eye radius), stats') := by
  induction ids generalizing out stats
  case nil => exact ⟨stats, by simp⟩
  case cons id ids hi =>
    obtain ⟨p, hp⟩ : ∃ p, f.points[id]? = some p := ⟨_, List.getElem?_eq_getElem (h id List.mem_cons_self)⟩
    obtain ⟨stats', hs⟩ := @hi (out ++ [id].filter (f.nearId eye radius)) { stats with examined := stats.examined + 1 }
      fun id hid => h id (List.mem_cons_of_mem _ hid)
    refine ⟨stats', ?_⟩
    rw [List.append_assoc, ← List.filter_append, List.singleton_append] at hs
    rw [← hs, List.foldlM_cons]
    cases hn : f.near eye radius p <;> simp [examine, nearId, hp, hn]

-- The cell which is so far from another one.
def moved (c d : CellKey) : CellKey :=
  (c.fst + d.fst, c.snd.fst + d.snd.fst, c.snd.snd + d.snd.snd)

-- No index leaves the signed words on a way of `r` cells to either side.
def Fits (c : CellKey) (r : I32) : Prop :=
  ∀ i ∈ [c.fst, c.snd.fst, c.snd.snd], -2 ^ 31 ≤ i.toInt - r.toInt ∧ i.toInt + r.toInt < 2 ^ 31

variable {c key : CellKey} {r : I32}

theorem mem_offsets {low r : I32} :
    d ∈ f.offsets low r ↔
      d.fst ∈ I32.inclusive low r ∧ d.snd.fst ∈ f.layers low r ∧ d.snd.snd ∈ I32.inclusive low r := by
  simp only [offsets, List.mem_flatMap, List.mem_map]
  constructor
  case mp =>
    rintro ⟨_, hy, _, hx, _, hz, rfl⟩
    exact ⟨hx, hy, hz⟩
  case mpr => exact fun ⟨hx, hy, hz⟩ => ⟨_, hy, _, hx, _, hz, rfl⟩

theorem nodup_offsets {low r : I32} : (f.offsets low r).Nodup := by
  have hp : f.offsets low r = (f.layers low r ×ˢ (I32.inclusive low r ×ˢ I32.inclusive low r)).map
      fun t => (t.snd.fst, t.fst, t.snd.snd) := by
    simp only [offsets, SProd.sprod, List.product, List.map_flatMap, List.map_map, Function.comp_def]
  rw [hp]
  refine List.Nodup.map ?_ (List.Nodup.product ?_ (I32.nodup_inclusive.product I32.nodup_inclusive))
  · rintro ⟨_, _, _⟩ ⟨_, _, _⟩ h
    simp only [Prod.mk.injEq] at h ⊢
    exact ⟨h.right.left, h.left, h.right.right⟩
  · unfold layers
    split
    · exact I32.nodup_inclusive
    · exact List.nodup_singleton _

theorem moved_inj {d' : CellKey} (h : moved c d = moved c d') : d = d' := by
  simp only [moved, Prod.mk.injEq, BitVec.add_right_inj] at h
  exact Prod.ext h.left (Prod.ext h.right.left h.right.right)

-- A cell is gone through if on each axis its index is close enough as words go.
theorem mem_window {low r : I32} :
    key ∈ (f.offsets low r).map (moved c) ↔
      key.fst - c.fst ∈ I32.inclusive low r ∧ key.snd.fst - c.snd.fst ∈ f.layers low r ∧
        key.snd.snd - c.snd.snd ∈ I32.inclusive low r := by
  rw [List.mem_map]
  constructor
  case mp =>
    rintro ⟨d, hd, rfl⟩
    simpa [moved, BitVec.add_comm c.fst, BitVec.add_comm c.snd.fst, BitVec.add_comm c.snd.snd] using mem_offsets.mp hd
  case mpr =>
    intro h
    refine ⟨(key.fst - c.fst, key.snd.fst - c.snd.fst, key.snd.snd - c.snd.snd), mem_offsets.mpr h, ?_⟩
    simp [moved, BitVec.add_comm c.fst, BitVec.add_comm c.snd.fst, BitVec.add_comm c.snd.snd]

theorem shift_of_fits (hc : o = .panics → Fits c r) (hr : 0 ≤ r.toInt) (hd : d ∈ f.offsets (-r) r) :
    shift o c d = some (moved c d) := by
  have ha : ∀ i ∈ [c.fst, c.snd.fst, c.snd.snd], ∀ e ∈ I32.inclusive (-r) r, I32.add o i e = some (i + e) := by
    intro i hi e he
    rw [I32.mem_inclusive, I32.toInt_neg hr] at he
    refine I32.add_of_fits fun ho => ?_
    have hf := hc ho i hi
    omega
  have hy : I32.add o c.snd.fst d.snd.fst = some (c.snd.fst + d.snd.fst) := by
    have hl := (mem_offsets.mp hd).right.left
    unfold layers at hl
    split at hl
    · exact ha _ (by simp) _ hl
    · have hlo := @BitVec.le_toInt 32 c.snd.fst
      have hhi := @BitVec.toInt_lt 32 c.snd.fst
      rw [List.mem_singleton.mp hl]
      have h₀ : BitVec.toInt (0 : I32) = 0 := rfl
      refine I32.add_of_fits fun _ => ?_
      omega
  have hx := ha c.fst (by simp) _ (mem_offsets.mp hd).left
  have hz := ha c.snd.snd (by simp) _ (mem_offsets.mp hd).right.right
  simp [shift, moved, hx, hy, hz]

def inside (eye : Vec3 K) (radius : K) (p : Vec3 K) : Bool :=
  Vec3.lengthSquared ⟨p.x - eye.x, p.y - eye.y, p.z - eye.z⟩ ≤ radius * radius

theorem truth_eq : truth ps eye radius = numbered ps (inside eye radius) :=
  rfl

theorem nodup_truth : (truth ps eye radius).Nodup :=
  @nodup_numbered _ ps (inside eye radius)

theorem inside_of_near (hs : f.strategy ≠ .flat) (h : f.near eye radius p) : inside eye radius p := by
  cases hv : f.strategy
  case flat => exact absurd hv hs
  all_goals simpa [near, inside, hv] using h

section

variable [IsStrictOrderedRing K]

theorem near_of_inside (h : inside eye radius p) : f.near eye radius p := by
  cases hs : f.strategy
  case flat =>
    have h := of_decide_eq_true h
    have hy := mul_self_nonneg (p.y - eye.y)
    rw [Vec3.lengthSquared] at h
    simp only [near, hs, decide_eq_true_iff]
    linarith
  all_goals simpa [near, inside, hs] using h

end

variable [FloorRing K]

def members (f : PointField K) (key : CellKey) : List Nat :=
  (f.cells key).getD []

-- The points are numbered in their order, and filed under those numbers.
structure Holds (g f : PointField K) (ps : List (Vec3 K)) : Prop where
  cell     : f.cell = g.cell
  strategy : f.strategy = g.strategy
  points   : f.points = ps
  files    : Buckets.Files (fun q => g.index q.fst) Prod.snd f.members ps.zipIdx

namespace Holds

variable {g : PointField K}

theorem axis (h : Holds g f ps) : f.axis = g.axis := by
  funext x
  rw [PointField.axis, PointField.axis, h.cell]

theorem index (h : Holds g f ps) : f.index = g.index := by
  funext p
  rw [PointField.index, PointField.index, h.axis, h.strategy]

theorem insert (h : Holds g f ps) : Holds g (f.insert ps.length p) (ps ++ [p]) where
  cell     := h.cell
  strategy := h.strategy
  points   := by simp [PointField.insert, h.points]
  files    := by
    rw [List.zipIdx_append, List.zipIdx_singleton, Nat.zero_add]
    refine h.files.push ?_ fun key hk => ?_
    · simp [PointField.insert, members, h.index]
    · simp [PointField.insert, members, h.index, hk]

theorem rebuild (f : PointField K) (ps : List (Vec3 K)) : Holds f (f.rebuild ps) ps := by
  induction ps using List.reverseRecOn
  case nil =>
    exact { cell := rfl, strategy := rfl, points := rfl, files := .nil fun _ => rfl }
  case append_singleton ps p h =>
    have hr : f.rebuild (ps ++ [p]) = (f.rebuild ps).insert ps.length p := by
      simp [PointField.rebuild, List.zipIdx_append]
    exact hr ▸ h.insert

end Holds

theorem visit_of_shift {key : CellKey} (radius : K) (out : List Nat) (stats : Query)
    (hk : shift o (f.index eye) d = some key) (h : ∀ id ∈ f.members key, id < f.points.length) :
    ∃ stats', f.visit o eye radius (out, stats) d =
      some (out ++ (f.members key).filter (f.nearId eye radius), stats') := by
  simp only [visit, hk, bind, Option.bind_some, members] at h ⊢
  cases hc : f.cells key
  case none => exact ⟨stats, by simp⟩
  case some bucket =>
    rw [hc] at h
    exact examine_all h

theorem visit_all {keys : List CellKey} (radius : K) (out : List Nat) (stats : Query)
    (hk : List.Forall₂ (fun d key => shift o (f.index eye) d = some key) ds keys)
    (h : ∀ key, ∀ id ∈ f.members key, id < f.points.length) :
    ∃ stats', ds.foldlM (f.visit o eye radius) (out, stats) =
      some (out ++ (keys.flatMap f.members).filter (f.nearId eye radius), stats') := by
  induction hk generalizing out stats
  case nil => exact ⟨stats, by simp⟩
  case cons hk _ hi =>
    obtain ⟨_, hv⟩ := visit_of_shift radius out stats hk (h _)
    obtain ⟨stats', hs⟩ := @hi (out ++ (f.members _).filter (f.nearId eye radius)) _
    exact ⟨stats', by simpa [List.foldlM_cons, hv] using hs⟩

theorem shift_of_visit_all {s s' : List Nat × Query} (h : ds.foldlM (f.visit o eye radius) s = some s') (hd : d ∈ ds) :
    ∃ key, shift o (f.index eye) d = some key := by
  induction ds generalizing s
  case nil => cases hd
  case cons d' ds hi =>
    rw [List.foldlM_cons] at h
    obtain ⟨s'', hv, hs⟩ := Option.bind_eq_some_iff.mp h
    cases List.mem_cons.mp hd
    case inr hd => exact hi hs hd
    case inl hd =>
      obtain ⟨key, hk, _⟩ := Option.bind_eq_some_iff.mp (hd ▸ hv)
      exact ⟨key, hk⟩

-- The loops get to either end of the reach on every axis that they go along.
theorem fits_of_shift (hr : 0 ≤ r.toInt)
    (h : ∀ d ∈ f.offsets (-r) r, ∃ key, shift .panics (f.index eye) d = some key) : Fits (f.index eye) r := by
  have hlo := @BitVec.le_toInt 32 r
  have hhi := @BitVec.toInt_lt 32 r
  have hn := I32.toInt_neg hr
  have hends : ∀ e ∈ [-r, r], e ∈ I32.inclusive (-r) r := by
    intro e he
    simp only [List.mem_cons, List.not_mem_nil, or_false] at he
    cases he
    all_goals
      subst_vars
      rw [I32.mem_inclusive]
      omega
  have hs : ∀ e ∈ [-r, r], ∀ y ∈ f.layers (-r) r, ∃ key, shift .panics (f.index eye) (e, y, e) = some key :=
    fun e he y hy => h _ (mem_offsets.mpr ⟨hends e he, hy, hends e he⟩)
  simp only [shift, bind, pure, Option.bind_eq_some_iff, I32.add_panics_iff, Option.some.injEq] at hs
  cases hv : f.strategy
  case volume =>
    have hl : ∀ e ∈ [-r, r], e ∈ f.layers (-r) r := by simpa [layers, hv] using hends
    obtain ⟨_, _, ⟨hx, -⟩, _, ⟨hy, -⟩, _, ⟨hz, -⟩, -⟩ := hs r (by simp) r (hl r (by simp))
    obtain ⟨_, _, ⟨hx', -⟩, _, ⟨hy', -⟩, _, ⟨hz', -⟩, -⟩ := hs (-r) (by simp) (-r) (hl (-r) (by simp))
    intro i hi
    simp only [List.mem_cons, List.not_mem_nil, or_false] at hi
    rcases hi with rfl | rfl | rfl <;> omega
  all_goals
    have hl : (0 : I32) ∈ f.layers (-r) r := by simp [layers, hv]
    obtain ⟨_, _, ⟨hx, -⟩, _, -, _, ⟨hz, -⟩, -⟩ := hs r (by simp) 0 hl
    obtain ⟨_, _, ⟨hx', -⟩, _, -, _, ⟨hz', -⟩, -⟩ := hs (-r) (by simp) 0 hl
    have hy : (f.index eye).snd.fst.toInt = 0 := by simp [index, hv]
    intro i hi
    simp only [List.mem_cons, List.not_mem_nil, or_false] at hi
    rcases hi with rfl | rfl | rfl <;> omega

-- The cells which a query goes through.
def window (f : PointField K) (eye : Vec3 K) (radius : K) : List CellKey :=
  (f.offsets (-f.reach radius) (f.reach radius)).map (moved (f.index eye))

theorem nodup_window : (f.window eye radius).Nodup :=
  nodup_offsets.map fun _ _ => moved_inj

-- What a query finds in the cells that it goes through.
def found (f : PointField K) (ps : List (Vec3 K)) (eye : Vec3 K) (radius : K) : List Nat :=
  numbered ps fun p => f.index p ∈ f.window eye radius ∧ f.near eye radius p

theorem mem_found : id ∈ f.found ps eye radius ↔
    ∃ p, ps[id]? = some p ∧ f.index p ∈ f.window eye radius ∧ f.near eye radius p := by
  simp [found, mem_numbered]

theorem found_subset_truth (hs : f.strategy ≠ .flat) : f.found ps eye radius ⊆ truth ps eye radius := by
  intro id hid
  obtain ⟨p, hp, -, hn⟩ := mem_found.mp hid
  exact mem_numbered.mpr ⟨p, hp, inside_of_near hs hn⟩

namespace Holds

variable {g : PointField K}

theorem id_lt (h : Holds g f ps) {key : CellKey} (hid : id ∈ f.members key) : id < f.points.length := by
  obtain ⟨⟨p, i⟩, hp, -, rfl⟩ := h.files.mem_iff.mp hid
  rw [h.points]
  exact (List.getElem?_eq_some_iff.mp (List.mem_zipIdx_iff_getElem?.mp hp)).choose

theorem gather (h : Holds g f ps) :
    (((f.window eye radius).flatMap f.members).filter (f.nearId eye radius)).Perm (f.found ps eye radius) := by
  refine ((h.files.gather nodup_window).filter _).trans (.of_eq ?_)
  rw [List.filter_map, List.filter_filter, found, numbered, h.index]
  congr 1
  refine List.filter_congr fun q hq => ?_
  have hp := List.mem_zipIdx_iff_getElem?.mp hq
  rw [Bool.eq_iff_iff]
  simp [nearId, h.points, hp, and_comm]

end Holds

variable [IsStrictOrderedRing K]

theorem reach_nonneg (h : 0 ≤ radius) : 0 ≤ (f.reach radius).toInt := by
  have hc := Int.ceil_nonneg (div_nonneg h f.cell_pos.le)
  rw [reach, I32.toInt_saturating]
  omega

theorem query_of_fits {g : PointField K} (h : Holds g f ps) (hr : 0 ≤ radius) (t : List Nat)
    (hf : o = .panics → Fits (f.index eye) (f.reach radius)) :
    ∃ out stats, f.query o eye radius t = some (out, stats) ∧ out.Perm (f.found ps eye radius) := by
  have hk : List.Forall₂ (fun d key => shift o (f.index eye) d = some key)
      (f.offsets (-f.reach radius) (f.reach radius)) (f.window eye radius) := by
    rw [window, List.forall₂_map_right_iff, List.forall₂_same]
    exact fun _ hd => shift_of_fits hf (reach_nonneg hr) hd
  obtain ⟨stats, hq⟩ := visit_all radius [] {} hk fun _ _ => h.id_lt
  simp only [query, I32.neg_of_nonneg (reach_nonneg hr), hq, bind, pure, Option.bind_some]
  exact ⟨_, _, rfl, h.gather⟩

theorem fits_of_query (hr : 0 ≤ radius) {t : List Nat} {r : List Nat × Query}
    (h : f.query .panics eye radius t = some r) : Fits (f.index eye) (f.reach radius) := by
  simp only [query, I32.neg_of_nonneg (reach_nonneg hr), bind, Option.bind_some] at h
  obtain ⟨s, hs, -⟩ := Option.bind_eq_some_iff.mp h
  exact fits_of_shift (reach_nonneg hr) fun _ hd => shift_of_visit_all hs hd

-- Two cells have indices that are half of all signed words apart on some axis.
def Opposite (c d : CellKey) : Prop :=
  c.fst - d.fst = .intMin 32 ∨ c.snd.fst - d.snd.fst = .intMin 32 ∨ c.snd.snd - d.snd.snd = .intMin 32

theorem axis_sub_mem {x y : K} (hr : 0 ≤ radius) (h : (x - y) * (x - y) ≤ radius * radius) :
    f.axis x - f.axis y ∈ I32.inclusive (-f.reach radius) (f.reach radius) ↔ f.axis x - f.axis y ≠ .intMin 32 := by
  rw [← sq, ← sq] at h
  obtain ⟨hl, hu⟩ := abs_le.mp (abs_le_of_sq_le_sq h hr)
  exact I32.sub_mem_inclusive (Cells.floor_div_le_add f.cell_pos (by linarith))
    (Cells.floor_div_le_add f.cell_pos (by linarith))

-- A query goes through the cells of all points in the sphere, but for those which are opposite to its centre.
theorem index_mem_window (hr : 0 ≤ radius) (h : inside eye radius p) :
    f.index p ∈ f.window eye radius ↔ ¬Opposite (f.index p) (f.index eye) := by
  have h := of_decide_eq_true h
  rw [Vec3.lengthSquared] at h
  have hx := mul_self_nonneg (p.x - eye.x)
  have hy := mul_self_nonneg (p.y - eye.y)
  have hz := mul_self_nonneg (p.z - eye.z)
  have hl : (f.index p).snd.fst - (f.index eye).snd.fst ∈ f.layers (-f.reach radius) (f.reach radius) ↔
      (f.index p).snd.fst - (f.index eye).snd.fst ≠ .intMin 32 := by
    cases hs : f.strategy
    case volume => simpa [index, layers, hs] using axis_sub_mem hr (by linarith)
    all_goals
      simp only [index, layers, hs]
      decide
  rw [window, mem_window, hl, Opposite, not_or, not_or]
  exact and_congr (axis_sub_mem hr (by linarith)) (and_congr_right' (axis_sub_mem hr (by linarith)))

theorem truth_subset_found_iff (hr : 0 ≤ radius) :
    truth ps eye radius ⊆ f.found ps eye radius ↔
      ∀ p ∈ ps, inside eye radius p → ¬Opposite (f.index p) (f.index eye) := by
  simp only [truth_eq, List.subset_def, mem_numbered, mem_found]
  constructor
  case mp =>
    intro h p hp hin
    obtain ⟨id, hid⟩ := List.mem_iff_getElem?.mp hp
    obtain ⟨p', hp', hw, -⟩ := h ⟨p, hid, hin⟩
    cases hid.symm.trans hp'
    exact (index_mem_window hr hin).mp hw
  case mpr =>
    rintro h id ⟨p, hid, hin⟩
    exact ⟨p, hid, (index_mem_window hr hin).mpr (h p (List.mem_of_getElem? hid) hin), near_of_inside hin⟩

-- What is asked of the answer to a query by each of the strategies.
def Answers (strategy : Strategy) (truth : List Nat) (answer : Option (List Nat × Query)) : Prop :=
  ∃ out stats, answer = some (out, stats) ∧ out.Nodup ∧
    if strategy = .flat then truth ⊆ out else out.Perm truth

-- A query is right unless the way to the end of its reach leaves the words in a build which panics, or someone in the
-- sphere is in a cell that is opposite to that of the centre.
theorem query_answers_iff (f : PointField K) (ps : List (Vec3 K)) (eye : Vec3 K) (radius : K) (hr : 0 ≤ radius)
    (o : Overflow) (t : List Nat) :
    Answers f.strategy (truth ps eye radius) ((f.rebuild ps).query o eye radius t) ↔
      (o = .panics → Fits (f.index eye) (f.reach radius)) ∧
      ∀ p ∈ ps, inside eye radius p → ¬Opposite (f.index p) (f.index eye) := by
  have h := Holds.rebuild f ps
  have hreach : (f.rebuild ps).reach = f.reach := by
    funext r
    rw [reach, reach, h.cell]
  rw [← hreach, ← h.index, ← h.strategy, ← truth_subset_found_iff hr]
  constructor
  case mp =>
    rintro ⟨out, stats, hq, -, hc⟩
    have hf : o = .panics → Fits ((f.rebuild ps).index eye) ((f.rebuild ps).reach radius) := by
      rintro rfl
      exact fits_of_query hr hq
    obtain ⟨_, _, hq', hp⟩ := query_of_fits h hr t hf
    cases hq.symm.trans hq'
    refine ⟨hf, fun id hid => hp.mem_iff.mp ?_⟩
    split at hc
    · exact hc hid
    · exact hc.mem_iff.mpr hid
  case mpr =>
    rintro ⟨hf, hs⟩
    obtain ⟨out, stats, hq, hp⟩ := query_of_fits h hr t hf
    have hn : out.Nodup := hp.nodup_iff.mpr nodup_numbered
    refine ⟨out, stats, hq, hn, ?_⟩
    split
    case isTrue => exact fun _ hid => hp.mem_iff.mpr (hs hid)
    case isFalse hv =>
      refine (List.perm_ext_iff_of_nodup hn nodup_truth).mpr fun id => ?_
      exact ⟨fun hid => found_subset_truth hv (hp.mem_iff.mp hid), fun hid => hp.mem_iff.mpr (hs hid)⟩

theorem query_answers_two_points :
    Answers .volume (truth [⟨0, 0, 0⟩, ⟨3, 0, 0⟩] ⟨0, 0, 0⟩ (2 : ℚ))
      (((new 1 .volume).rebuild [⟨0, 0, 0⟩, ⟨3, 0, 0⟩]).query .panics ⟨0, 0, 0⟩ (2 : ℚ) []) := by
  have hc : (new 1 .volume : PointField ℚ).cell = 1 := by norm_num [new]
  have ha : (new 1 .volume : PointField ℚ).axis 0 = 0 := by
    rw [axis, zero_div, Int.floor_zero]
    decide
  have hi : (new 1 .volume : PointField ℚ).index ⟨0, 0, 0⟩ = (0, 0, 0) := by
    change ((new 1 .volume).axis 0, (new 1 .volume).axis 0, (new 1 .volume).axis 0) = _
    rw [ha]
  have hr : (new 1 .volume : PointField ℚ).reach 2 = 2 := by
    rw [reach, hc, div_one, show ⌈(2 : ℚ)⌉ = 2 from Int.ceil_ofNat 2]
    decide
  refine (query_answers_iff (new 1 .volume) _ _ 2 (by norm_num) .panics []).mpr ⟨fun _ => ?_, fun p hp hin => ?_⟩
  · have h₀ : BitVec.toInt (0 : I32) = 0 := rfl
    have h₂ : BitVec.toInt (2 : I32) = 2 := rfl
    rw [hi, hr]
    intro i hi
    obtain rfl : i = 0 := by simpa using hi
    omega
  · simp only [List.mem_cons, List.not_mem_nil, or_false] at hp
    cases hp
    case inl h =>
      rw [h, hi, Opposite]
      decide
    case inr h => norm_num [h, inside, Vec3.lengthSquared] at hin

-- At the last index of all a reach of one cell leaves the words.
theorem query_at_the_last_index :
    ¬∀ {K : Type} [Field K] [LinearOrder K] [IsStrictOrderedRing K] [FloorRing K] (f : PointField K)
      (ps : List (Vec3 K)) (eye : Vec3 K) (radius : K) (o : Overflow) (t : List Nat), 0 ≤ radius →
        Answers f.strategy (truth ps eye radius) ((f.rebuild ps).query o eye radius t) := by
  intro h
  let f : PointField ℚ := new 1 .volume
  have hc : f.cell = 1 := by norm_num [f, new]
  have ha : f.axis (2 ^ 31) = .intMax 32 := by
    rw [axis, hc, div_one, show ⌊(2 ^ 31 : ℚ)⌋ = 2 ^ 31 from Int.floor_eq_iff.mpr (by norm_num)]
    decide
  have hr : f.reach 1 = 1 := by
    rw [reach, hc, div_one, Int.ceil_one]
    decide
  obtain ⟨out, stats, hq, -⟩ := h f [⟨2 ^ 31, 0, 0⟩] ⟨2 ^ 31, 0, 0⟩ 1 .panics [] (by norm_num)
  have hf := fits_of_query (by norm_num) hq
  have hb := Holds.rebuild f [⟨2 ^ 31, 0, 0⟩]
  rw [hb.index, reach, hb.cell] at hf
  have hx := (hf (f.axis (2 ^ 31)) (by simp [index])).right
  rw [ha, show I32.saturating ⌈(1 : ℚ) / f.cell⌉ = 1 from hr] at hx
  exact absurd hx (by decide)

end PointField
end Plaza.ServerUtils
