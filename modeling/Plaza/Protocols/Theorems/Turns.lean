import Mathlib.Data.List.InsertIdx
import Mathlib.Data.List.Nodup
import Plaza.Protocols.Turns

open Plaza.Core

namespace Plaza.Protocols.Turns

variable {Op ID α : Type} {m m' : RoundRobinTurnManager Op ID (Entry α)} {s s' : Table Op ID α} {e : Event α}
variable {l : List Nat} {i j : Nat}

theorem onTurn_eq : onTurn m = m.current.bind ((roster m)[·]?) := by
  rw [onTurn, RoundRobinTurnManager.currentTurnActor, Option.map_bind]
  simp only [Function.comp_def, roster, List.getElem?_map]

-- Seats are numbered in the order of play.
structure Seated (m : RoundRobinTurnManager Op ID (Entry α)) : Prop where
  sorted : (roster m).Pairwise (· < ·)
  valid  : ∀ i, m.current = some i → i < (roster m).length

-- The turn goes to the one who plays next.
structure Follows (m m' : RoundRobinTurnManager Op ID (Entry α)) (seat next : Nat) : Prop where
  before : onTurn m = some seat
  after  : onTurn m' = some next
  later  : (roster m).idxOf seat < (roster m).idxOf next
  lt     : seat < next
  gap    : ∀ x ∈ roster m', x < next → x ≤ seat

-- The turn goes from the last to the first.
structure StartsOver (m m' : RoundRobinTurnManager Op ID (Entry α)) (seat next : Nat) : Prop where
  before  : onTurn m = some seat
  after   : onTurn m' = some next
  earlier : (roster m).idxOf next ≤ (roster m).idxOf seat
  last    : ∀ x ∈ roster m, x ≤ seat
  first   : ∀ x ∈ roster m', next ≤ x

theorem onTurn_some (hi : m.current = some i) (hl : i < (roster m).length) : onTurn m = some (roster m)[i] := by
  rw [onTurn_eq, hi]
  exact List.getElem?_eq_getElem hl

theorem sorted_le (h : l.Pairwise (· < ·)) (hij : i ≤ j) (hj : j < l.length) : l[i] ≤ l[j] := by
  cases Nat.lt_or_eq_of_le hij
  case inl hlt => exact Nat.le_of_lt <| List.pairwise_iff_getElem.mp h i j _ hj hlt
  case inr he  => exact Nat.le_of_eq <| getElem_congr_idx he

theorem sorted_idxOf (h : l.Pairwise (· < ·)) (hi : i < l.length) : l.idxOf l[i] = i :=
  List.Nodup.idxOf_getElem (h.imp Nat.ne_of_lt) i hi

theorem Seated.follows (h : Seated m) (hi : m.current = some i) (hl : i + 1 < (roster m).length)
    (ha : onTurn m' = some (roster m)[i + 1]) (hs : roster m' ⊆ roster m) :
    Follows m m' (roster m)[i] (roster m)[i + 1] where
  before := onTurn_some hi _
  after  := ha
  later  := by
    rw [sorted_idxOf h.sorted, sorted_idxOf h.sorted]
    exact Nat.lt_succ_self i
  lt     := List.pairwise_iff_getElem.mp h.sorted i (i + 1) _ hl (Nat.lt_succ_self i)
  gap    := by
    intro x hx hlt
    have ⟨j, hj, he⟩ := List.getElem_of_mem (hs hx)
    refine he ▸ sorted_le h.sorted (Nat.not_lt.mp fun hij => ?_) _
    have : (roster m)[i + 1] ≤ (roster m)[j] := sorted_le h.sorted hij hj
    omega

theorem Seated.startsOver (h : Seated m) (hi : m.current = some i) (hl : i + 1 = (roster m).length)
    (ha : onTurn m' = some (roster m)[0]) (hs : roster m' ⊆ roster m) :
    StartsOver m m' (roster m)[i] (roster m)[0] where
  before  := onTurn_some hi _
  after   := ha
  earlier := by
    rw [sorted_idxOf h.sorted, sorted_idxOf h.sorted]
    exact Nat.zero_le i
  last    := by
    intro x hx
    have ⟨j, hj, he⟩ := List.getElem_of_mem hx
    exact he ▸ sorted_le h.sorted (by omega) _
  first   := by
    intro x hx
    have ⟨j, hj, he⟩ := List.getElem_of_mem (hs hx)
    exact he ▸ sorted_le h.sorted (Nat.zero_le j) _

-- What an advance does.
theorem Seated.advance (h : Seated m) {r} (hr : m.endCurrentTurnAndAdvance = r) :
    roster r.fst = roster m ∧ Seated r.fst ∧
    ((∃ error, r.snd.snd = .error error) ∧ r.fst = m ∨
    (∃ actor, r.snd.snd = .ok (.next actor)) ∧ (∃ seat next, Follows m r.fst seat next) ∨
    (∃ actor, r.snd.snd = .ok (.passClosed actor)) ∧ ∃ seat next, StartsOver m r.fst seat next) := by
  unfold RoundRobinTurnManager.endCurrentTurnAndAdvance at hr
  split at hr
  case isTrue => exact hr ▸ ⟨rfl, h, .inl ⟨⟨_, rfl⟩, rfl⟩⟩
  case isFalse he =>
    split at hr
    case h_1 => exact hr ▸ ⟨rfl, h, .inl ⟨⟨_, rfl⟩, rfl⟩⟩
    case h_2 i hi =>
      have hlen : (roster m).length = m.actors.length := List.length_map ..
      have hl : i < m.actors.length := hlen ▸ h.valid i hi
      have hn : (i + 1) % m.actors.length < m.actors.length := Nat.mod_lt _ (by omega)
      have ho {j} (hj : (i + 1) % m.actors.length = j) (hlt : j < (roster m).length) :
          onTurn r.fst = some (roster m)[j] := by
        subst hj
        rw [← hr, onTurn_eq]
        exact List.getElem?_eq_getElem hlt
      refine ⟨hr ▸ rfl, ⟨hr ▸ h.sorted, fun j hj => ?_⟩, .inr ?_⟩
      case refine_1 =>
        rw [← hr] at hj ⊢
        exact Option.some.inj hj ▸ hlen ▸ hn
      case refine_2 =>
        by_cases hw : i + 1 < m.actors.length
        case pos =>
          have hm : (i + 1) % m.actors.length = i + 1 := Nat.mod_eq_of_lt hw
          refine .inl ⟨⟨m.actors[i + 1], ?_⟩, _, _, h.follows hi (hlen ▸ hw) (ho hm _) (hr ▸ fun _ => id)⟩
          simp [← hr, RoundRobinTurnManager.currentTurnActor, hm, hw]
        case neg =>
          have hm : (i + 1) % m.actors.length = 0 := by
            rw [show i + 1 = m.actors.length by omega, Nat.mod_self]
          refine .inr ⟨⟨m.actors[0], ?_⟩, _, _, h.startsOver hi (by omega) (ho hm _) (hr ▸ fun _ => id)⟩
          simp [← hr, RoundRobinTurnManager.currentTurnActor, hm, Nat.zero_lt_of_lt hl]

-- What a removal does. The order starts over exactly if the actor on turn leaves from its end.
theorem Seated.remove [BEq α] (h : Seated m) (entry : Entry α) {m' : RoundRobinTurnManager Op ID (Entry α)}
    (hr : (m.removeActor entry).fst = m') :
    (roster m').Sublist (roster m) ∧ Seated m' ∧
    (¬LeavesLast m entry ∧ (onTurn m' = onTurn m ∨ onTurn m' = none) ∨
    ∃ seat next, seat ∉ roster m' ∧
      (¬LeavesLast m entry ∧ Follows m m' seat next ∨ LeavesLast m entry ∧ StartsOver m m' seat next)) := by
  unfold RoundRobinTurnManager.removeActor at hr
  split at hr
  case h_1 hf => exact hr ▸ ⟨.refl _, h, .inl ⟨fun hl => (nomatch hf.symm.trans hl.right.right), .inl rfl⟩⟩
  case h_2 index hf =>
    have hlen : (roster m).length = m.actors.length := List.length_map ..
    have hi : index < m.actors.length := (List.findIdx?_eq_some_iff_getElem.mp hf).choose
    have hro : roster m' = (roster m).eraseIdx index := by
      rw [← hr, roster, roster, List.eraseIdx_map]
    have hsub : (roster m').Sublist (roster m) := hro ▸ List.eraseIdx_sublist ..
    have hlen' : (roster m').length = m.actors.length - 1 := by
      rw [hro, List.length_eraseIdx_of_lt (hlen ▸ hi), hlen]
    have hso : (roster m').Pairwise (· < ·) := h.sorted.sublist hsub
    have hel : (m.actors.eraseIdx index).length = m.actors.length - 1 := List.length_eraseIdx_of_lt hi
    have hemp : (m.actors.eraseIdx index).isEmpty ↔ m.actors.length = 1 := by
      rw [List.isEmpty_iff_length_eq_zero, hel]
      omega
    -- The turn where the cursor is moved to `j`.
    have moves {j k} (hc : m'.current = some j) (hjk : (if j < index then j else j + 1) = k)
        (hk : k < (roster m).length) (hj : j < m.actors.length - 1) :
        Seated m' ∧ onTurn m' = some (roster m)[k] := by
      refine ⟨⟨hso, fun j' hj' => ?_⟩, ?_⟩
      case refine_1 =>
        cases hc.symm.trans hj'
        exact hlen' ▸ hj
      case refine_2 =>
        rw [onTurn_eq, hc, Option.bind_some, hro, List.getElem?_eraseIdx, ← List.getElem?_eq_getElem hk, ← hjk]
        split <;> rfl
    refine ⟨hsub, ?_⟩
    by_cases he : m.actors.length = 1
    case pos =>
      have hc : m'.current = none := by
        rw [← hr]
        exact if_pos (hemp.mpr he)
      refine ⟨⟨hso, fun j hj => by cases hc.symm.trans hj⟩, .inl ⟨fun hl => Nat.ne_of_gt hl.left he, .inr ?_⟩⟩
      rw [onTurn_eq, hc]
      rfl
    case neg =>
      have hc : m'.current = m.current.map fun current =>
          if index < current then current - 1
          else if index = current ∧ m.actors.length - 1 ≤ current then 0
          else current := by
        rw [← hr, ← hel]
        exact if_neg (hemp.not.mpr he)
      cases hcur : m.current
      case none =>
        rw [hcur] at hc
        refine ⟨⟨hso, fun j hj => by cases hc.symm.trans hj⟩, .inl ⟨fun hl => ?_, .inr ?_⟩⟩
        case refine_1 => cases hcur.symm.trans hl.right.left
        case refine_2 =>
          rw [onTurn_eq, hc]
          rfl
      case some i =>
        have hl := hlen ▸ h.valid i hcur
        have hlr := h.valid i hcur
        have hon := onTurn_some hcur hlr
        -- The one who leaves from the end is the one on turn.
        have hend (hl : LeavesLast m entry) : index + 1 = m.actors.length ∧ i + 1 = m.actors.length := by
          have := Option.some.inj (hcur.symm.trans hl.right.left)
          have := Option.some.inj (hf.symm.trans hl.right.right)
          omega
        rw [hcur, Option.map_some] at hc
        cases Nat.lt_trichotomy index i
        case inl hlt =>
          rw [if_pos hlt] at hc
          have ⟨hs, ho⟩ := moves hc (k := i) (by split <;> omega) (hlen ▸ hl) (by omega)
          exact ⟨hs, .inl ⟨fun hl => by have := hend hl; omega, .inl (ho.trans hon.symm)⟩⟩
        case inr hge =>
          cases hge
          case inr hgt =>
            rw [if_neg (by omega), if_neg (by omega)] at hc
            have ⟨hs, ho⟩ := moves hc (k := i) (if_pos hgt) (hlen ▸ hl) (by omega)
            exact ⟨hs, .inl ⟨fun hl => by have := hend hl; omega, .inl (ho.trans hon.symm)⟩⟩
          case inl heq =>
            subst heq
            have hnot : (roster m)[index] ∉ roster m' := by
              rw [hro, List.mem_eraseIdx_iff_getElem]
              intro ⟨k, hk, hne, hg⟩
              have hnd : (roster m).Nodup := h.sorted.imp Nat.ne_of_lt
              exact hne <| hnd.getElem_inj_iff.mp hg
            rw [if_neg (Nat.lt_irrefl _)] at hc
            by_cases hlast : index + 1 < m.actors.length
            case pos =>
              rw [if_neg (by omega)] at hc
              have ⟨hs, ho⟩ := moves hc (if_neg (Nat.lt_irrefl _)) (hlen ▸ hlast) (by omega)
              have hf := h.follows hcur (hlen ▸ hlast) ho hsub.subset
              exact ⟨hs, .inr ⟨_, _, hnot, .inl ⟨fun hl => by have := hend hl; omega, hf⟩⟩⟩
            case neg =>
              rw [if_pos (by omega)] at hc
              have ⟨hs, ho⟩ := moves hc (k := 0) (if_pos (by omega)) (by omega) (by omega)
              have hl : index = m.actors.length - 1 := by omega
              refine ⟨hs, .inr ⟨_, _, hnot, .inr ⟨⟨by omega, ?_, ?_⟩, h.startsOver hcur (by omega) ho hsub.subset⟩⟩⟩
              case refine_1 => rw [hcur, ← hl]
              case refine_2 => rw [hf, ← hl]

-- Those who stayed and whose turn it has been in the pass under way.
structure Fair (s : Table Op ID α) : Prop where
  sorted : s.pass.turns.Pairwise (· < ·)
  le     : ∀ seat, onTurn s.manager = some seat → ∀ x ∈ s.pass.turns, x ≤ seat
  stayed : ∀ x ∈ s.pass.stayed, x ∈ roster s.manager
  had    : ∀ seat, onTurn s.manager = some seat → ∀ x ∈ s.pass.stayed, x ≤ seat → x ∈ s.pass.turns

structure Sound (s : Table Op ID α) : Prop where
  seated : Seated s.manager
  lt     : ∀ x ∈ roster s.manager, x < s.taken
  fair   : s.Accounted → Fair s

theorem Fair.opens (hf : ∀ seat, onTurn m = some seat → ∀ x ∈ roster m, seat ≤ x) :
    Fair (s.opens m) where
  sorted := by
    cases ho : onTurn m <;> simp [Table.opens, ho]
  le seat ho x hx := by
    have ho : onTurn m = some seat := ho
    simp only [Table.opens, ho, Option.toList_some, List.mem_singleton] at hx
    exact Nat.le_of_eq hx
  stayed x hx := hx
  had seat ho x hx hle := by
    have ho : onTurn m = some seat := ho
    simp only [Table.opens, ho, Option.toList_some, List.mem_singleton]
    exact Nat.le_antisymm hle (hf seat ho x hx)

theorem mem_of_onTurn {seat : Nat} (h : onTurn m = some seat) : seat ∈ roster m := by
  rw [onTurn_eq, Option.bind_eq_some_iff] at h
  have ⟨_, _, h⟩ := h
  exact List.mem_of_getElem? h

theorem hands_none (h : onTurn m = none) : s.hands m = { s with manager := m } := by
  rw [Table.hands, h]
  split <;> first | rfl | contradiction

theorem hands_follows {seat next : Nat} (h : Follows s.manager m seat next) :
    s.hands m = { s with manager := m, pass.turns := s.pass.turns ++ [next] } := by
  simp [Table.hands, h.before, h.after, h.later]

theorem Fair.hands {seat next : Nat} (h : Fair s) (ht : Follows s.manager m seat next)
    (hs : ∀ x ∈ s.pass.stayed, x ∈ roster m) : Fair (s.hands m) := by
  rw [hands_follows ht]
  constructor
  case sorted =>
    refine List.pairwise_append.mpr ⟨h.sorted, List.pairwise_singleton .., fun x hx y hy => ?_⟩
    cases List.mem_singleton.mp hy
    exact Nat.lt_of_le_of_lt (h.le seat ht.before x hx) ht.lt
  case le =>
    intro y ho x hx
    cases ht.after.symm.trans ho
    cases List.mem_append.mp hx
    case inl hx => exact Nat.le_of_lt <| Nat.lt_of_le_of_lt (h.le seat ht.before x hx) ht.lt
    case inr hx => exact Nat.le_of_eq <| List.mem_singleton.mp hx
  case stayed => exact hs
  case had =>
    intro y ho x hx hle
    cases ht.after.symm.trans ho
    cases Nat.lt_or_eq_of_le hle
    case inl hlt => exact List.mem_append_left _ <| h.had seat ht.before x hx <| ht.gap x (hs x hx) hlt
    case inr he  => exact List.mem_append_right _ <| List.mem_singleton.mpr he

theorem Fair.drops (h : Fair s) (m : RoundRobinTurnManager Op ID (Entry α)) : Fair (s.drops m) where
  sorted              := h.sorted
  le                  := h.le
  stayed x hx         := h.stayed x (List.mem_filter.mp hx).left
  had seat ho x hx hl := h.had seat ho x (List.mem_filter.mp hx).left hl

-- An order that starts over without a report is on record.
theorem not_accounted {seat next : Nat} (h : StartsOver s.manager m seat next) : ¬(s.hands m).Accounted := by
  intro ha
  have hu := ha.right
  simp [Table.hands, h.before, h.after, h.earlier] at hu

-- The pass that ends with the last one on the roster has given each of those who stayed one turn.
theorem Fair.closed {seat next : Nat} (h : Fair s) (ht : StartsOver s.manager m seat next) {x : Nat}
    (hx : x ∈ s.pass.stayed) : s.pass.turns.count x = 1 := by
  have hn : s.pass.turns.Nodup := h.sorted.imp Nat.ne_of_lt
  exact List.count_eq_one_of_mem hn <| h.had seat ht.before x hx <| ht.last x <| h.stayed x hx

theorem Seated.begin (h : Seated m) {m' : RoundRobinTurnManager Op ID (Entry α)} (hr : m.begin.fst = m') :
    roster m' = roster m ∧ Seated m' ∧ ((onTurn m).isSome → m' = m) ∧
    (onTurn m = none → ∀ seat, onTurn m' = some seat → ∀ x ∈ roster m', seat ≤ x) := by
  unfold RoundRobinTurnManager.begin at hr
  split at hr
  case isTrue =>
    cases hr
    exact ⟨rfl, h, fun _ => rfl, fun hn seat ho => by cases hn.symm.trans ho⟩
  case isFalse hb =>
    have ⟨hc, he⟩ := not_or.mp hb
    have hc : m.current = none := by simpa using hc
    have hlen : 0 < (roster m).length := by
      rw [roster, List.length_map, List.length_pos_iff]
      simpa using he
    subst hr
    have hs : Seated ({ m with current := some 0, turnNumber := 1 } : RoundRobinTurnManager Op ID (Entry α)) :=
      ⟨h.sorted, fun i hi => Option.some.inj hi ▸ hlen⟩
    refine ⟨rfl, hs, fun ho => ?_, fun _ seat ho x hx => ?_⟩
    case refine_1 => simp [Turns.onTurn_eq, hc] at ho
    case refine_2 =>
      have hz : onTurn _ = some (roster m)[0] := onTurn_some (by rfl) (hs.valid 0 rfl)
      cases hz.symm.trans ho
      have ⟨j, hj, he⟩ := List.getElem_of_mem hx
      exact he ▸ sorted_le h.sorted (Nat.zero_le j) hj

theorem Seated.add (h : Seated m) (entry : Entry α) (hl : ∀ x ∈ roster m, x < entry.seat) :
    roster (m.addActor entry) = roster m ++ [entry.seat] ∧ Seated (m.addActor entry) ∧
    onTurn (m.addActor entry) = onTurn m := by
  have hr : roster (m.addActor entry) = roster m ++ [entry.seat] := List.map_append ..
  refine ⟨hr, ⟨?_, fun i hi => ?_⟩, ?_⟩
  case refine_1 =>
    rw [hr, List.pairwise_append]
    exact ⟨h.sorted, List.pairwise_singleton .., fun x hx y hy => List.mem_singleton.mp hy ▸ hl x hx⟩
  case refine_2 =>
    rw [hr, List.length_append]
    exact Nat.lt_add_right _ (h.valid i hi)
  case refine_3 =>
    rw [onTurn_eq, onTurn_eq, hr]
    cases hc : m.current
    case none   => simp [RoundRobinTurnManager.addActor, hc]
    case some i =>
      have hi := h.valid i hc
      simp [RoundRobinTurnManager.addActor, hc, List.getElem?_append_left hi]

namespace Sound

theorem hands {seat next : Nat} (hs : Seated m) (hlt : ∀ x ∈ roster m, x < s.taken)
    (ht : Follows s.manager m seat next) (hf : s.Accounted → Fair s) (hst : ∀ x ∈ s.pass.stayed, x ∈ roster m) :
    Sound (s.hands m) ∧ ((s.hands m).Accounted ↔ s.Accounted) := by
  have hh (ha : s.Accounted) := (hf ha).hands ht hst
  rw [hands_follows ht] at *
  exact ⟨⟨hs, hlt, hh⟩, .rfl⟩

theorem startsOver {seat next : Nat} (hs : Seated m) (hlt : ∀ x ∈ roster m, x < s.taken)
    (ht : StartsOver s.manager m seat next) : Sound (s.hands m) ∧ ¬(s.hands m).Accounted := by
  have hn := not_accounted ht
  have hm : (s.hands m).manager = m ∧ (s.hands m).taken = s.taken := by
    simp [Table.hands, ht.before, ht.after]
  refine ⟨⟨?_, ?_, fun ha => absurd ha hn⟩, hn⟩
  case refine_1 =>
    rw [hm.left]
    exact hs
  case refine_2 =>
    rw [hm.left, hm.right]
    exact hlt

theorem step [BEq α] (h : Sound s) (he : machine.step s e = some s') :
    Sound s' ∧ (s.Accounted → (s'.Accounted ↔ Keeps s e)) := by
  cases e
  case begin =>
    have ⟨hr, hs, hsame, hfirst⟩ := h.seated.begin rfl
    simp only [machine] at he
    split at he <;> cases he
    case isTrue ho =>
      rw [hsame ho]
      exact ⟨h, fun ha => iff_of_true ha trivial⟩
    case isFalse ho =>
      refine ⟨⟨hs, hr ▸ h.lt, fun _ => .opens <| hfirst ?_⟩, fun ha => iff_of_true ha trivial⟩
      simpa using ho
  case add actor =>
    cases he
    have ⟨hr, hs, ho⟩ := h.seated.add { seat := s.taken, actor } h.lt
    refine ⟨⟨hs, fun x hx => ?_, fun ha => ?_⟩, fun ha => iff_of_true ha trivial⟩
    case refine_1 =>
      cases List.mem_append.mp (hr ▸ hx)
      case inl hx => exact Nat.lt_succ_of_lt (h.lt x hx)
      case inr hx => exact List.mem_singleton.mp hx ▸ Nat.lt_succ_self _
    case refine_2 =>
      have hf := h.fair ha
      constructor
      case sorted => exact hf.sorted
      case le     => exact ho ▸ hf.le
      case stayed => exact fun x hx => hr ▸ List.mem_append_left _ (hf.stayed x hx)
      case had    => exact ho ▸ hf.had
  case remove actor =>
    have ⟨hsub, hs, hcase⟩ := h.seated.remove { seat := s.taken, actor } rfl
    simp only [machine] at he
    generalize hm : (s.manager.removeActor { seat := s.taken, actor }).fst = m at *
    have hlt x (hx : x ∈ roster m) : x < s.taken := h.lt x (hsub.subset hx)
    have hf (ha : s.Accounted) := (h.fair ha).drops m
    have hst x (hx : x ∈ (s.drops m).pass.stayed) : x ∈ roster m := of_decide_eq_true (List.mem_filter.mp hx).right
    cases hcase
    case inl hcase =>
      have ⟨hk, ho⟩ := hcase
      have he : s' = { s.drops m with manager := m } := by
        split at he <;> cases he
        case isTrue     => rfl
        case isFalse hn => exact hands_none (ho.resolve_left hn)
      subst he
      refine ⟨⟨hs, hlt, fun ha => ?_⟩, fun ha => iff_of_true ha hk⟩
      have hf := hf ha
      have ho seat (h : onTurn m = some seat) : onTurn s.manager = some seat :=
        (ho.resolve_right fun hn => nomatch hn.symm.trans h) ▸ h
      exact ⟨hf.sorted, fun seat h => hf.le seat (ho seat h), hst, fun seat h => hf.had seat (ho seat h)⟩
    case inr hcase =>
      obtain ⟨seat, next, hnot, hcase⟩ := hcase
      have hne (hb : onTurn s.manager = some seat) (ha : onTurn m = some next) :
          onTurn m ≠ onTurn (s.drops m).manager := by
        intro h
        cases ha.symm.trans (h.trans hb)
        exact hnot (mem_of_onTurn ha)
      cases hcase
      case inl hcase =>
        have ⟨hk, ht⟩ := hcase
        rw [if_neg (hne ht.before ht.after)] at he
        cases he
        have ⟨h, ha⟩ := hands (s := s.drops m) hs hlt ht hf hst
        exact ⟨h, fun h => iff_of_true (ha.mpr h) hk⟩
      case inr hcase =>
        have ⟨hk, ht⟩ := hcase
        rw [if_neg (hne ht.before ht.after)] at he
        cases he
        have ⟨h, hn⟩ := startsOver (s := s.drops m) hs hlt ht
        exact ⟨h, fun _ => iff_of_false hn (not_not_intro hk)⟩
  case advance =>
    have ⟨hr, hs, hcase⟩ := h.seated.advance rfl
    simp only [machine] at he
    have hlt := hr ▸ h.lt
    cases hcase
    case inl hcase =>
      obtain ⟨⟨error, ho⟩, hm⟩ := hcase
      rw [ho] at he
      cases he
      rw [hm]
      exact ⟨h, fun ha => iff_of_true ha trivial⟩
    case inr hcase =>
      cases hcase
      case inl hcase =>
        obtain ⟨⟨actor, ho⟩, seat, next, ht⟩ := hcase
        rw [ho] at he
        cases he
        by_cases ha : s.Accounted
        case pos =>
          have ⟨h', hh⟩ := hands hs hlt ht h.fair fun x hx => hr ▸ (h.fair ha).stayed x hx
          exact ⟨h', fun h => iff_of_true (hh.mpr h) trivial⟩
        case neg =>
          rw [hands_follows ht]
          exact ⟨⟨hs, hlt, fun h => absurd h ha⟩, fun h => absurd h ha⟩
      case inr hcase =>
        obtain ⟨⟨actor, ho⟩, seat, next, ht⟩ := hcase
        rw [ho] at he
        cases he
        refine ⟨⟨hs, hlt, fun _ => .opens fun y hy => ?_⟩, fun ha => iff_of_true ⟨fun pass hp => ?_, ha.right⟩ trivial⟩
        case refine_1 =>
          cases ht.after.symm.trans hy
          exact ht.first
        case refine_2 =>
          cases List.mem_append.mp hp
          case inl hp => exact ha.left pass hp
          case inr hp =>
            cases List.mem_singleton.mp hp
            exact fun x hx => (h.fair ha).closed ht hx

theorem start {actors : List α} {notice : TurnChangedNoticePayload (Entry α) → Op} :
    Sound (.start actors notice : Table Op ID α) := by
  have hr : roster (Table.start actors notice : Table Op ID α).manager = List.range' 0 actors.length := by
    rw [← List.zipIdx_map_snd, roster, Table.start, RoundRobinTurnManager.new, List.map_map]
    rfl
  constructor
  case seated => exact ⟨hr ▸ List.pairwise_lt_range', fun _ hi => nomatch hi⟩
  case lt     =>
    intro x hx
    have hx := (List.mem_range'_1.mp (hr ▸ hx)).right
    rwa [Nat.zero_add] at hx
  case fair   => exact fun _ => ⟨.nil, nofun, nofun, nofun⟩

end Sound

-- Through a run turns are accounted for as long as nobody whose turn it is leaves from the end of the order,
-- and no longer.
theorem accounted_iff [BEq α] {actors : List α} {notice : TurnChangedNoticePayload (Entry α) → Op} {es}
    (h : machine.Steps (.start actors notice : Table Op ID α) es s) :
    machine.Always Table.Accounted (.start actors notice : Table Op ID α) es ↔
      (machine.restrict Keeps).Steps (.start actors notice) es s :=
  h.always_iff (I := Sound) (fun h he => (h.step he).left) (fun h ha he => (h.step he).right ha) .start
    ⟨by simp [Table.start], rfl⟩

theorem accounted_two : ∃ s : Table (TurnChangedNoticePayload (Entry Nat)) Unit Nat,
    machine.Steps (.start [4, 5] id) [.begin, .advance, .remove 4, .add 4, .advance] s ∧
    machine.Always Table.Accounted (.start [4, 5] id : Table (TurnChangedNoticePayload (Entry Nat)) Unit Nat)
      [.begin, .advance, .remove 4, .add 4, .advance] := by
  have h : ∃ s : Table (TurnChangedNoticePayload (Entry Nat)) Unit Nat,
      machine.Steps (.start [4, 5] id) [.begin, .advance, .remove 4, .add 4, .advance] s ∧
      (machine.restrict Keeps).Steps (.start [4, 5] id) [.begin, .advance, .remove 4, .add 4, .advance] s :=
    ⟨_, .step rfl <| .step rfl <| .step rfl <| .step rfl <| .step rfl .refl,
      .step rfl <| .step rfl <| .step rfl <| .step rfl <| .step rfl .refl⟩
  have ⟨s, h, hk⟩ := h
  exact ⟨s, h, (accounted_iff h).mpr hk⟩

-- The last of three leaves in his turn. The others get a second one before the pass is reported to be closed.
theorem leaves_last : ∃ s : Table (TurnChangedNoticePayload (Entry Nat)) Unit Nat,
    machine.Steps (.start [4, 5, 6] id) [.begin, .advance, .advance, .remove 6, .advance, .advance] s ∧
    s.unreported = 1 ∧ s.passes = [{ turns := [0, 1, 2, 0, 1], stayed := [0, 1] }] ∧ ¬s.Accounted := by
  refine ⟨_, .step rfl <| .step rfl <| .step rfl <| .step rfl <| .step rfl <| .step rfl .refl, rfl, rfl, ?_⟩
  exact fun h => absurd h.right (by decide)

end Plaza.Protocols.Turns
