import Plaza.Lib.Trace
import Plaza.ServerUtils.Told

namespace Plaza.ServerUtils.Told

variable {ν K V : Type} [DecidableEq ν] [LinearOrder K]

-- The map of a list, in which the last value of a key counts.
def mapOf (current : List (K × V)) : Finmap fun _ : K => V :=
  current.foldl (fun m (key, value) => m.insert key value) ∅

-- What a receiver makes of what is said to it.
def hear (m : Finmap fun _ : K => V) : K × Option V → Finmap fun _ : K => V
  | (key, some value) => m.insert key value
  | (key, none)       => m.erase key

variable {known next left record held : Finmap fun _ : K => V} {said : List (K × Option V)} {key k : K} {value v : V}
variable {current : List (K × V)}

theorem lookup_insert_eq : (held.insert key value).lookup k = if k = key then some value else held.lookup k := by
  split
  case isTrue h  => rw [h, Finmap.lookup_insert]
  case isFalse h => rw [Finmap.lookup_insert_of_ne _ h]

theorem lookup_erase_eq : (held.erase key).lookup k = if k = key then none else held.lookup k := by
  split
  case isTrue h  => rw [h, Finmap.lookup_erase]
  case isFalse h => rw [Finmap.lookup_erase_ne h]

theorem lookup_fold_insert : (current.foldl (fun m (key, value) => m.insert key value) held).lookup k =
    (((current.filter (·.fst = k)).getLast?).map Prod.snd).or (held.lookup k) := by
  induction current generalizing held
  case nil => simp
  case cons c current hi =>
    obtain ⟨key, value⟩ := c
    rw [List.foldl_cons, hi, lookup_insert_eq]
    by_cases h : k = key
    case pos =>
      subst h
      rw [List.filter_cons_of_pos (by simp), if_pos rfl]
      cases hl : (current.filter (·.fst = k)).getLast? <;> simp [List.getLast?_cons, hl]
    case neg => rw [List.filter_cons_of_neg (by simpa using Ne.symm h), if_neg h]

theorem lookup_mapOf : (mapOf current).lookup k = ((current.filter (·.fst = k)).getLast?).map Prod.snd := by
  rw [mapOf, lookup_fold_insert, Finmap.lookup_empty, Option.or_none]

theorem foldl_hear_gone {gone : List K} :
    ((gone.map (·, none)).foldl hear held).lookup k = if k ∈ gone then none else held.lookup k := by
  induction gone generalizing held
  case nil => simp
  case cons key gone hi =>
    simp only [List.map_cons, List.foldl_cons, hi, hear, lookup_erase_eq, List.mem_cons]
    by_cases h : k = key <;> simp [h]

variable [DecidableEq V]

theorem compare_left : (compare known next current).fst.lookup k =
    if k ∈ current.map Prod.fst then none else known.lookup k := by
  induction current generalizing known next
  case nil => simp [compare]
  case cons c current hi =>
    obtain ⟨key, value⟩ := c
    simp only [compare, hi, lookup_erase_eq]
    by_cases h : k = key
    case pos => rw [if_pos h, ite_self, if_pos (by simp [h])]
    case neg =>
      have hm : k ∈ ((key, value) :: current).map Prod.fst ↔ k ∈ current.map Prod.fst := by
        rw [List.map_cons, List.mem_cons, or_iff_right h]
      rw [if_neg h]
      exact if_congr hm.symm rfl rfl

theorem compare_next : (compare known next current).snd.fst =
    current.foldl (fun m (key, value) => m.insert key value) next := by
  induction current generalizing known next
  case nil       => rfl
  case cons _ hi => rw [compare, hi, List.foldl_cons]

-- A receiver which holds the record, and over it what is left to compare with, goes on to do so.
theorem compare_heard (h : ∀ k, held.lookup k = (next.lookup k).or (known.lookup k))
    (hn : ∀ k, k ∈ known → k ∉ next) :
    ((compare known next current).snd.snd.foldl hear held).lookup k =
      ((compare known next current).snd.fst.lookup k).or ((compare known next current).fst.lookup k) := by
  induction current generalizing known next held
  case nil => exact h k
  case cons c current hi =>
    obtain ⟨key, value⟩ := c
    have hn' : ∀ k, k ∈ known.erase key → k ∉ next.insert key value := by
      intro k hk
      rw [Finmap.mem_erase] at hk
      simpa [Finmap.mem_insert, hk.left] using hn k hk.right
    simp only [compare]
    by_cases hk : known.lookup key = some value
    case pos =>
      rw [if_pos hk]
      refine hi (fun k => ?_) hn'
      rw [h, lookup_insert_eq, lookup_erase_eq]
      by_cases hkey : k = key
      case pos =>
        subst hkey
        have hl := Finmap.lookup_eq_none.mpr <| hn k <| Finmap.mem_of_lookup_eq_some hk
        simp [hk, hl]
      case neg => simp [hkey]
    case neg =>
      rw [if_neg hk, List.foldl_cons, hear]
      refine hi (fun k => ?_) hn'
      rw [lookup_insert_eq, lookup_insert_eq, lookup_erase_eq, h]
      by_cases hkey : k = key <;> simp [hkey]

-- What is said of a key: nothing, if it occurs once, and with the value that is known.
theorem not_said_iff : (∀ v, (k, some v) ∉ (compare known next current).snd.snd) ↔
    current.filter (·.fst = k) = [] ∨ ∃ v, known.lookup k = some v ∧ current.filter (·.fst = k) = [(k, v)] := by
  induction current generalizing known next
  case nil => simp [compare]
  case cons c current hi =>
    obtain ⟨key, value⟩ := c
    simp only [compare]
    by_cases hkey : key = k
    case neg =>
      have hs : (∀ v, (k, some v) ∉ (if known.lookup key = some value then
          (compare (known.erase key) (next.insert key value) current).snd.snd
        else (key, some value) :: (compare (known.erase key) (next.insert key value) current).snd.snd)) ↔
          ∀ v, (k, some v) ∉ (compare (known.erase key) (next.insert key value) current).snd.snd := by
        split <;> simp [Ne.symm hkey]
      rw [hs, hi, lookup_erase_eq, if_neg (Ne.symm hkey), List.filter_cons_of_neg (by simpa using hkey)]
    case pos =>
      subst hkey
      have he := @hi (known.erase key) (next.insert key value)
      simp only [Finmap.lookup_erase, reduceCtorEq, false_and, exists_false, or_false] at he
      rw [List.filter_cons_of_pos (by simp)]
      by_cases hk : known.lookup key = some value
      case pos => simp [hk, he]
      case neg =>
        rw [if_neg hk]
        constructor
        case mp  => exact fun h => absurd List.mem_cons_self (h value)
        case mpr =>
          rintro (h | ⟨v, hv, h⟩)
          · exact absurd h (List.cons_ne_nil _ _)
          · simp only [List.cons.injEq, Prod.mk.injEq, true_and] at h
            exact absurd (h.left ▸ hv) hk

variable {t : Told ν K V} {viewer : ν} {calls : List (ν × List (K × V))}

-- What a viewer was told.
def told (t : Told ν K V) (viewer : ν) : Finmap fun _ : K => V :=
  (t.known.lookup viewer).getD ∅

-- The keys which are handed back.
def goneKeys (said : List (K × Option V)) : List K :=
  said.filterMap fun (key, value) => if value.isNone then some key else none

theorem diff_snd : (t.diff viewer current).snd = (compare (t.told viewer) ∅ current).snd.snd ++
    ((compare (t.told viewer) ∅ current).fst.keys.sort (· ≤ ·)).map (·, none) :=
  rfl

theorem diff_told : (t.diff viewer current).fst.told viewer = mapOf current := by
  simp only [diff, told, Finmap.lookup_insert, compare_next]
  rfl

theorem diff_told_ne {viewer' : ν} (h : viewer' ≠ viewer) :
    (t.diff viewer current).fst.told viewer' = t.told viewer' := by
  simp only [diff, told, Finmap.lookup_insert_of_ne _ h]

omit [DecidableEq V] in
theorem mem_mapOf : k ∈ mapOf current ↔ k ∈ current.map Prod.fst := by
  rw [← not_iff_not, ← Finmap.lookup_eq_none, lookup_mapOf, Option.map_eq_none_iff, List.getLast?_eq_none_iff,
    List.filter_eq_nil_iff]
  simp only [decide_eq_true_eq, List.mem_map, not_exists, not_and]

theorem mem_left : k ∈ (compare known next current).fst ↔ k ∈ known ∧ k ∉ mapOf current := by
  rw [← not_iff_not, ← Finmap.lookup_eq_none, compare_left, ite_eq_left_iff, Finmap.lookup_eq_none, mem_mapOf]
  tauto

-- In going through what is seen, no key is gone yet.
theorem compare_said {s : K × Option V} (h : s ∈ (compare known next current).snd.snd) : s.snd.isSome := by
  induction current generalizing known next
  case nil => nomatch h
  case cons c current hi =>
    simp only [compare] at h
    split at h
    case isTrue  => exact hi h
    case isFalse =>
      cases h
      case head   => rfl
      case tail h => exact hi h

-- A receiver which holds what its viewer was told, then holds what its viewer sees.
theorem diff_heard : (t.diff viewer current).snd.foldl hear (t.told viewer) = mapOf current := by
  apply Finmap.ext_lookup
  intro k
  rw [diff_snd, List.foldl_append, foldl_hear_gone]
  split
  case isTrue h =>
    rw [Finset.mem_sort, Finmap.mem_keys, mem_left] at h
    exact (Finmap.lookup_eq_none.mpr h.right).symm
  case isFalse h =>
    rw [Finset.mem_sort, Finmap.mem_keys] at h
    have hh := @compare_heard K V _ (t.told viewer) ∅ (t.told viewer) k current _ (by simp)
      fun _ _ => Finmap.notMem_empty
    rw [Finmap.lookup_eq_none.mpr h, Option.or_none, compare_next] at hh
    exact hh

theorem diff_gone : goneKeys (t.diff viewer current).snd =
    ((t.told viewer).keys \ (mapOf current).keys).sort (· ≤ ·) := by
  have hk : (compare (t.told viewer) ∅ current).fst.keys = (t.told viewer).keys \ (mapOf current).keys := by
    ext k
    rw [Finset.mem_sdiff, Finmap.mem_keys, Finmap.mem_keys, Finmap.mem_keys, mem_left]
  have hs : goneKeys (compare (t.told viewer) ∅ current).snd.snd = [] := by
    rw [goneKeys, List.filterMap_eq_nil_iff]
    intro s hs
    simpa [Option.isSome_iff_ne_none] using compare_said hs
  rw [goneKeys] at hs ⊢
  rw [diff_snd, List.filterMap_append, hs, hk, List.nil_append, List.filterMap_map]
  exact List.filterMap_some

-- A key is not said to a viewer who holds its value, as long as it occurs only once.
theorem diff_unsaid_iff (h : (t.told viewer).lookup k = some v) (hc : (mapOf current).lookup k = some v) :
    (∀ v, (k, some v) ∉ (t.diff viewer current).snd) ↔ current.countP (·.fst = k) = 1 := by
  have hs : (∀ v, (k, some v) ∉ (t.diff viewer current).snd) ↔
      ∀ v, (k, some v) ∉ (compare (t.told viewer) ∅ current).snd.snd := by
    simp [diff_snd]
  rw [lookup_mapOf] at hc
  rw [hs, not_said_iff, List.countP_eq_length_filter]
  constructor
  case mp =>
    rintro (hn | ⟨_, _, hn⟩)
    · simp [hn] at hc
    · rw [hn, List.length_singleton]
  case mpr =>
    intro hl
    obtain ⟨⟨key, value⟩, hl⟩ := List.length_eq_one_iff.mp hl
    have hm : (key, value) ∈ current.filter (·.fst = k) := hl ▸ List.mem_singleton_self _
    have hk : key = k := of_decide_eq_true (List.mem_filter.mp hm).right
    simp only [hl, List.getLast?_singleton, Option.map_some, Option.some.injEq] at hc
    exact .inr ⟨v, h, by rw [hl, hk, hc]⟩

-- The memory after some diffs, and what the viewers have made of all that was said to them.
def run (calls : List (ν × List (K × V))) : Told ν K V × (ν → Finmap fun _ : K => V) :=
  calls.foldl (fun (t, heard) (viewer, current) =>
    let (t, said) := t.diff viewer current
    (t, Function.update heard viewer (said.foldl hear (heard viewer)))) (new, fun _ => ∅)

-- The map of the last list of a viewer.
def shown (calls : List (ν × List (K × V))) (viewer : ν) : Finmap fun _ : K => V :=
  (calls.filter (·.fst = viewer)).getLast?.elim ∅ (mapOf ·.snd)

omit [DecidableEq V] in
theorem shown_concat {viewer' : ν} : shown (calls ++ [(viewer, current)]) viewer' =
    if viewer' = viewer then mapOf current else shown calls viewer' := by
  rw [shown, List.filter_append]
  by_cases h : viewer' = viewer
  case pos => simp [h]
  case neg => simp [h, Ne.symm h, shown]

theorem run_told : (run calls).fst.told viewer = shown calls viewer ∧ (run calls).snd viewer = shown calls viewer := by
  induction calls using List.reverseRecOn generalizing viewer
  case nil => exact ⟨rfl, rfl⟩
  case append_singleton calls c hi =>
    obtain ⟨viewer', current⟩ := c
    have hr : run (calls ++ [(viewer', current)]) = (((run calls).fst.diff viewer' current).fst,
        Function.update (run calls).snd viewer'
          (((run calls).fst.diff viewer' current).snd.foldl hear ((run calls).snd viewer'))) := by
      simp [run]
    simp only [hr, shown_concat]
    split
    case isTrue h =>
      subst h
      rw [Function.update_self, hi.right, ← hi.left, diff_heard]
      exact ⟨diff_told, rfl⟩
    case isFalse h =>
      rw [Function.update_of_ne h]
      exact ⟨(diff_told_ne h).trans hi.left, hi.right⟩

-- A list that names an unchanged key twice has it said again.
theorem said_again :
    let told : Told Unit Nat Nat := (run [((), [(1, 7)])]).fst
    (told.told ()).lookup 1 = some 7 ∧ (mapOf [(1, 7), (1, 7)]).lookup 1 = some 7 ∧
      (1, some 7) ∈ (told.diff () [(1, 7), (1, 7)]).snd :=
  ⟨by decide, by decide, List.mem_append_left _ (by decide)⟩

theorem diffs_exact_iff (calls : List (ν × List (K × V))) :
    (∀ viewer, (run calls).snd viewer = shown calls viewer) ∧
      Trace.Each (fun before (viewer, current) =>
        let said := ((run before).fst.diff viewer current).snd
        goneKeys said = ((shown before viewer).keys \ (mapOf current).keys).sort (· ≤ ·) ∧
          ∀ k v, (shown before viewer).lookup k = some v → (mapOf current).lookup k = some v →
            ∀ w, (k, some w) ∉ said) calls ↔
      Trace.Each (fun before (viewer, current) =>
        ∀ k v, (shown before viewer).lookup k = some v → (mapOf current).lookup k = some v →
          current.countP (·.fst = k) = 1) calls := by
  rw [and_iff_right fun _ => run_told.right]
  constructor
  case mp =>
    intro h before c after hc k v hk hv
    have hu := (h before c after hc).right k v hk hv
    rw [← run_told.left] at hk
    exact (diff_unsaid_iff hk hv).mp hu
  case mpr =>
    intro h before c after hc
    refine ⟨?_, fun k v hk hv => ?_⟩
    case refine_1 =>
      rw [← run_told.left]
      exact diff_gone
    have hu := h before c after hc k v hk hv
    rw [← run_told.left] at hk
    exact (diff_unsaid_iff hk hv).mpr hu

end Plaza.ServerUtils.Told
