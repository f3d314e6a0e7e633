import Plaza.ServerUtils.Subscription

namespace Plaza.ServerUtils.Subscriptions

variable {K : Type} [DecidableEq K] {s s' : Subscriptions K} {a b k x y : K} {members : Multiset K}
variable {calls : List (Call K)} {call : Call K} {limit : Nat}

@[simp]
theorem isSubscribed_iff : s.isSubscribed a b ↔ b ∈ s.out.get a := by
  simp [isSubscribed]

theorem mem_out_link : y ∈ (s.link a b).out.get x ↔ y ∈ s.out.get x ∨ x = a ∧ y = b := by
  by_cases h : x = a <;> simp [link, h, or_comm]

theorem mem_out_unsubscribe :
    y ∈ (s.unsubscribe a b).out.get x ↔ y ∈ s.out.get x ∧ ¬(x = a ∧ y = b) :=
  Multimap.mem_get_erase

theorem mem_out_linkDistinct {p : K × K} :
    y ∈ (s.linkDistinct p).out.get x ↔ y ∈ s.out.get x ∨ x ≠ y ∧ p = (x, y) := by
  obtain ⟨a, b⟩ := p
  simp only [linkDistinct]
  split
  case isTrue h  => rw [mem_out_link]; grind
  case isFalse h => grind

theorem mem_out_linkAll :
    y ∈ ((members ×ˢ members).foldl linkDistinct s).out.get x ↔
      y ∈ s.out.get x ∨ x ≠ y ∧ x ∈ members ∧ y ∈ members := by
  rw [Multiset.foldl_or_iff (Q := fun s : Subscriptions K => y ∈ s.out.get x)
    fun _ p => mem_out_linkDistinct (p := p)]
  simp [and_comm]

theorem mem_out_unsubscribeBoth :
    y ∈ (s.unsubscribeBoth k a).out.get x ↔ y ∈ s.out.get x ∧ ¬(x = k ∧ y = a ∨ x = a ∧ y = k) := by
  simp only [unsubscribeBoth, mem_out_unsubscribe]
  tauto

theorem mem_out_unsubscribeAll :
    y ∈ (members.foldl (unsubscribeBoth k) s).out.get x ↔
      y ∈ s.out.get x ∧ ¬(x = k ∧ y ∈ members ∨ y = k ∧ x ∈ members) := by
  rw [Multiset.foldl_and_iff (Q := fun s : Subscriptions K => y ∈ s.out.get x)
    fun _ a => mem_out_unsubscribeBoth (a := a)]
  grind

-- Leaving a group adds nothing.
theorem mem_out_leaveGroup (h : y ∈ (s.leaveGroup k).fst.out.get x) : y ∈ s.out.get x := by
  simp only [leaveGroup] at h
  split at h
  case h_1 => exact (mem_out_unsubscribeAll.mp h).left
  case h_2 => exact (mem_out_unsubscribeAll.mp (mem_out_unsubscribeAll.mp h).left).left

-- Every subscription is recorded from both ends, nobody is subscribed to itself and no empty set is
-- kept.
structure Indexed (s : Subscriptions K) : Prop where
  inverse    : ∀ a b, b ∈ s.out.get a ↔ a ∈ s.back.get b
  irrefl     : ∀ a, a ∉ s.out.get a
  out_tight  : s.out.Tight
  back_tight : s.back.Tight

namespace Indexed

omit [DecidableEq K] in
protected theorem new : (new limit : Subscriptions K).Indexed where
  inverse    := by simp [Subscriptions.new]
  irrefl     := by simp [Subscriptions.new]
  out_tight  := .empty
  back_tight := .empty

omit [DecidableEq K] in
protected theorem clear : s.clear.Indexed where
  inverse    := by simp [Subscriptions.clear]
  irrefl     := by simp [Subscriptions.clear]
  out_tight  := .empty
  back_tight := .empty

protected theorem link (hi : s.Indexed) (h : a ≠ b) : (s.link a b).Indexed where
  inverse x y := by
    have hi := hi.inverse x y
    by_cases hx : x = a <;> by_cases hy : y = b <;> simp_all [link]
  irrefl x := by
    rw [mem_out_link]
    intro hx
    cases hx
    case inl hx => exact hi.irrefl x hx
    case inr hx => exact h <| hx.left.symm.trans hx.right
  out_tight  := hi.out_tight.insert
  back_tight := hi.back_tight.insert

protected theorem unsubscribe (hi : s.Indexed) : (s.unsubscribe a b).Indexed where
  inverse x y := by
    have hi := hi.inverse x y
    by_cases hx : x = a <;> by_cases hy : y = b <;> simp_all [unsubscribe]
  irrefl x h := hi.irrefl x (mem_out_unsubscribe.mp h).left
  out_tight  := hi.out_tight.erase
  back_tight := hi.back_tight.erase

protected theorem subscribe (hi : s.Indexed) : (s.subscribe a b).fst.Indexed := by
  simp only [subscribe]
  split
  case isTrue    => exact hi
  case isFalse h =>
    split
    case isTrue  => exact hi
    case isFalse => exact hi.link h

protected theorem pair (hi : s.Indexed) : (s.pair a b).fst.Indexed := by
  simp only [pair]
  split
  case isTrue  => exact hi
  case isFalse =>
    split
    case isTrue  => exact hi
    case isFalse => exact hi.subscribe.subscribe

protected theorem linkAll (hi : s.Indexed) : ((members ×ˢ members).foldl linkDistinct s).Indexed := by
  refine Multiset.foldl_preserves (fun s p _ hi => ?_) hi
  simp only [linkDistinct]
  split
  case isTrue h => exact hi.link h
  case isFalse  => exact hi

protected theorem group (hi : s.Indexed) : (s.group a b).fst.Indexed := by
  simp only [group]
  split
  case isTrue  => exact hi
  case isFalse =>
    split
    case isTrue  => exact hi
    case isFalse => exact hi.linkAll

protected theorem unsubscribeAll (hi : s.Indexed) : (members.foldl (unsubscribeBoth k) s).Indexed :=
  Multiset.foldl_preserves (fun _ _ _ hi => hi.unsubscribe.unsubscribe) hi

protected theorem leaveGroup (hi : s.Indexed) : (s.leaveGroup k).fst.Indexed := by
  simp only [leaveGroup]
  split
  case h_1 => exact hi.unsubscribeAll
  case h_2 => exact hi.unsubscribeAll.unsubscribeAll

theorem mem_out_remove (hi : s.Indexed) :
    y ∈ (s.remove k).fst.out.get x ↔ y ∈ s.out.get x ∧ x ≠ k ∧ y ≠ k := by
  have h := hi.inverse x y
  by_cases hx : x = k
  case pos => simp [Subscriptions.remove, hx]
  case neg =>
    simp only [Subscriptions.remove, Multimap.get_remove, hx, if_false, Multimap.mem_get_eraseAll]
    grind

theorem mem_back_remove (hi : s.Indexed) :
    x ∈ (s.remove k).fst.back.get y ↔ x ∈ s.back.get y ∧ x ≠ k ∧ y ≠ k := by
  have h  := hi.inverse x y
  have hk := hi.inverse k k
  have hr := hi.irrefl k
  simp only [Subscriptions.remove, Multimap.mem_get_eraseAll, Multimap.get_remove, Finset.mem_val]
  grind

protected theorem remove (hi : s.Indexed) : (s.remove k).fst.Indexed where
  inverse x y    := by rw [hi.mem_out_remove, hi.mem_back_remove, hi.inverse]
  irrefl x h     := hi.irrefl x (hi.mem_out_remove.mp h).left
  out_tight      := hi.out_tight.eraseAll.remove
  back_tight     := hi.back_tight.remove.eraseAll

protected theorem apply (hi : s.Indexed) : (s.apply call).Indexed := by
  cases call
  case subscribe   => exact hi.subscribe
  case pair        => exact hi.pair
  case group       => exact hi.group
  case unsubscribe => exact hi.unsubscribe
  case leaveGroup  => exact hi.leaveGroup
  case remove      => exact hi.remove
  case clear       => exact .clear

protected theorem step (hi : s.Indexed) (h : (machine K).step s call = some s') : s'.Indexed := by
  cases h
  exact hi.apply

theorem of_steps (h : (machine K).Steps (new limit) calls s) : s.Indexed :=
  h.preserves Indexed.step .new

end Indexed

-- The key is in neither map, be it as an entry or as a member.
def Lacks (s : Subscriptions K) (k : K) : Prop :=
  s.out k = none ∧ s.back k = none ∧ ∀ x, k ∉ s.out.get x ∧ k ∉ s.back.get x

theorem Indexed.remove_lacks (hi : s.Indexed) : (s.remove k).fst.Lacks k := by
  refine ⟨hi.remove.out_tight.eq_none ?_, hi.remove.back_tight.eq_none ?_, fun x => ⟨?_, ?_⟩⟩
  case refine_1 => exact Finset.eq_empty_of_forall_notMem fun x h => (hi.mem_out_remove.mp h).right.left rfl
  case refine_2 => exact Finset.eq_empty_of_forall_notMem fun x h => (hi.mem_back_remove.mp h).right.right rfl
  case refine_3 => exact fun h => (hi.mem_out_remove.mp h).right.right rfl
  case refine_4 => exact fun h => (hi.mem_back_remove.mp h).right.left rfl

omit [DecidableEq K] in
-- A call behind two guards leaves the state alone unless it passes both of them.
theorem guarded_refused {p q : Prop} [Decidable p] [Decidable q]
    (h : (if p then (s, false) else if q then (s, false) else (s', true)).snd = false) :
    (if p then (s, false) else if q then (s, false) else (s', true)).fst = s := by
  by_cases hp : p <;> by_cases hq : q <;> simp_all

theorem apply_refused (h : s.accepts call = false) : s.apply call = s := by
  cases call
  case subscribe => exact guarded_refused h
  case pair      => exact guarded_refused h
  case group     => exact guarded_refused h
  all_goals contradiction

theorem Indexed.mem_remove_snd (hi : s.Indexed) : x ∈ (s.remove k).snd ↔ s.isSubscribed x k := by
  rw [isSubscribed_iff, hi.inverse]
  rfl

theorem calls_indexed (h : (machine K).Steps (new limit) calls s) :
    s.Indexed ∧
    (∀ k, (s.remove k).fst.Lacks k ∧ (s.remove k).snd.Nodup ∧
      ∀ who, who ∈ (s.remove k).snd ↔ s.isSubscribed who k) ∧
    ∀ call, s.accepts call = false → s.apply call = s := by
  have hi := Indexed.of_steps h
  exact ⟨hi, fun k => ⟨hi.remove_lacks, (s.back.get k).nodup, fun _ => hi.mem_remove_snd⟩,
    fun _ => apply_refused⟩

theorem calls_indexed_pair :
    let s := (new 1 : Subscriptions Nat).apply (.pair 1 2)
    s.Indexed ∧
    (∀ k, (s.remove k).fst.Lacks k ∧ (s.remove k).snd.Nodup ∧
      ∀ who, who ∈ (s.remove k).snd ↔ s.isSubscribed who k) ∧
    ∀ call, s.accepts call = false → s.apply call = s :=
  calls_indexed <| .step (e := .pair 1 2) rfl .refl

end Plaza.ServerUtils.Subscriptions

namespace Plaza.ServerUtils.Subscriptions

variable {K : Type} [DecidableEq K] {s : Subscriptions K} {a b k x y : K} {calls : List (Call K)}
variable {limit : Nat}

theorem Indexed.mem_groupOf (hi : s.Indexed) :
    y ∈ s.groupOf x ↔ y = x ∨ y ∈ s.out.get x ∧ x ∈ s.out.get y := by
  simp [groupOf, hi.inverse y x]

theorem Indexed.mem_others (hi : s.Indexed) : y ∈ s.others x ↔ y ∈ s.out.get x ∧ x ∈ s.out.get y := by
  have h := hi.irrefl x
  simp only [others, Multiset.mem_filter, hi.mem_groupOf]
  grind

theorem Indexed.mem_others_comm (hi : s.Indexed) : y ∈ s.others x ↔ x ∈ s.others y := by
  rw [hi.mem_others, hi.mem_others, and_comm]

theorem Indexed.nodup_others (hi : s.Indexed) : (s.others x).Nodup := by
  have h := hi.irrefl x
  exact .filter _ <| Multiset.nodup_cons.mpr ⟨by simp [h], Finset.nodup _⟩

-- Besides its own links a key which leaves takes along those of a partner that is left alone.
theorem Indexed.mem_out_leaveGroup_iff (hi : s.Indexed) :
    y ∈ (s.leaveGroup k).fst.out.get x ↔
      y ∈ s.out.get x ∧ ¬(x = k ∧ y ∈ s.others k ∨ y = k ∧ x ∈ s.others k) ∧
      ∀ alone, s.others k = {alone} → ¬(x = alone ∧ y ∈ s.others x ∨ y = alone ∧ x ∈ s.others y) := by
  simp only [leaveGroup]
  split
  case h_1 hn =>
    have hn alone : s.others k ≠ {alone} := by simp [← Multiset.sole_eq_some_iff, hn]
    simp [mem_out_unsubscribeAll, hn]
  case h_2 alone ha =>
    rw [Multiset.sole_eq_some_iff] at ha
    rw [mem_out_unsubscribeAll, mem_out_unsubscribeAll, hi.unsubscribeAll.mem_others,
      hi.unsubscribeAll.mem_others]
    simp only [mem_out_unsubscribeAll, hi.mem_others, ha, Multiset.singleton_inj]
    grind

-- Leaving concerns nobody else: what two other keys had subscribed to stays.
def LeavesFrame (s : Subscriptions K) (k : K) : Prop :=
  ∀ x y, x ≠ k → y ≠ k → s.isSubscribed x y → (s.leaveGroup k).fst.isSubscribed x y

-- The one case in which it does not is that of a single partner who has another partner of its own, as
-- in a chain of pairs.
theorem leavesFrame_iff (h : (machine K).Steps (new limit) calls s) :
    s.LeavesFrame k ↔ ∀ alone, s.others k = {alone} → s.others alone = {k} := by
  have hi := Indexed.of_steps h
  simp only [LeavesFrame, isSubscribed_iff, hi.mem_out_leaveGroup_iff]
  constructor
  case mp =>
    intro hf alone ha
    have hk : k ∈ s.others alone := by rw [hi.mem_others_comm, ha, Multiset.mem_singleton]
    have hne : alone ≠ k := fun he => hi.irrefl k (hi.mem_others.mp (he ▸ hk)).left
    refine Multiset.Nodup.ext hi.nodup_others (Multiset.nodup_singleton k) |>.mpr fun z => ?_
    rw [Multiset.mem_singleton]
    constructor
    case mpr => exact fun hz => hz ▸ hk
    case mp =>
      intro hz
      by_contra hzk
      exact (hf alone z hne hzk (hi.mem_others.mp hz).left).right.right alone ha (.inl ⟨rfl, hz⟩)
  case mpr =>
    intro ha x y hx hy hxy
    refine ⟨hxy, by simp [hx, hy], fun alone hk hl => ?_⟩
    have ha := ha alone hk
    cases hl
    case inl hl => exact hy <| Multiset.mem_singleton.mp <| ha ▸ hl.left ▸ hl.right
    case inr hl => exact hx <| Multiset.mem_singleton.mp <| ha ▸ hl.left ▸ hl.right

theorem leavesFrame_iff_trio :
    let s := (new 8 : Subscriptions Nat).apply (.group 1 2) |>.apply (.group 2 3)
    s.LeavesFrame 1 ↔ ∀ alone, s.others 1 = {alone} → s.others alone = {1} :=
  leavesFrame_iff <| .step (e := .group 1 2) rfl <| .step (e := .group 2 3) rfl .refl

-- The middle of a chain loses the link to its other end.
theorem leaveGroup_unlinks_others :
    ¬∀ (limit : Nat) (calls : List (Call Nat)) (s : Subscriptions Nat) (k : Nat),
      (machine Nat).Steps (new limit) calls s → s.LeavesFrame k :=
  fun h => absurd
    (h 8 [.pair 1 2, .pair 2 3] _ 1 (.step rfl <| .step rfl .refl) 2 3 (by decide) (by decide)) (by decide)

theorem mem_merged : x ∈ s.merged a b ↔ x ∈ s.groupOf a ∨ x ∈ s.groupOf b := by
  simp [merged, or_comm]

theorem group_accepted (h : (s.group a b).snd) :
    (s.group a b).fst = (s.merged a b ×ˢ s.merged a b).foldl linkDistinct s := by
  simp only [group] at h ⊢
  split at h
  case isTrue     => contradiction
  case isFalse h₁ =>
    split at h
    case isTrue     => contradiction
    case isFalse h₂ => rw [if_neg h₁, if_neg h₂]

-- What the group of a member becomes: the merged group and whoever it was paired with before.
theorem Indexed.mem_groupOf_linkAll {members : Multiset K} (hi : s.Indexed) (hx : x ∈ members) :
    y ∈ ((members ×ˢ members).foldl linkDistinct s).groupOf x ↔ y ∈ members ∨ y ∈ s.groupOf x := by
  rw [hi.linkAll.mem_groupOf, hi.mem_groupOf, mem_out_linkAll, mem_out_linkAll]
  grind

-- Everyone of a merged group is subscribed to everyone else in it and has it for a group.
structure Merges (s : Subscriptions K) (members : Multiset K) : Prop where
  subscribed : ∀ m ∈ members, ∀ n ∈ members, m ≠ n → s.isSubscribed m n
  same_group : ∀ m ∈ members, ∀ n ∈ members, ∀ x, x ∈ s.groupOf m ↔ x ∈ s.groupOf n

theorem merges_iff (h : (machine K).Steps (new limit) calls s) (hg : (s.group a b).snd) :
    (s.group a b).fst.Merges (s.merged a b) ↔
      ∀ m ∈ s.merged a b, ∀ x ∈ s.groupOf m, x ∈ s.merged a b := by
  have hi := Indexed.of_steps h
  rw [group_accepted hg]
  constructor
  case mp =>
    intro hm m hmem x hx
    have ha : a ∈ s.merged a b := mem_merged.mpr <| .inl <| Multiset.mem_cons_self ..
    have hx := (hm.same_group m hmem a ha x).mp <| (hi.mem_groupOf_linkAll hmem).mpr (.inr hx)
    cases (hi.mem_groupOf_linkAll ha).mp hx
    case inl hx => exact hx
    case inr hx => exact mem_merged.mpr (.inl hx)
  case mpr =>
    intro hc
    have hg m (hm : m ∈ s.merged a b) x :
        x ∈ ((s.merged a b ×ˢ s.merged a b).foldl linkDistinct s).groupOf m ↔ x ∈ s.merged a b := by
      rw [hi.mem_groupOf_linkAll hm, or_iff_left_of_imp (hc m hm x)]
    constructor
    case subscribed =>
      intro m hm n hn hne
      exact isSubscribed_iff.mpr <| mem_out_linkAll.mpr <| .inr ⟨hne, hm, hn⟩
    case same_group => exact fun m hm n hn x => (hg m hm x).trans (hg n hn x).symm

theorem merges_iff_trio :
    let s := (new 8 : Subscriptions Nat).apply (.group 1 2)
    (s.group 2 3).fst.Merges (s.merged 2 3) ↔ ∀ m ∈ s.merged 2 3, ∀ x ∈ s.groupOf m, x ∈ s.merged 2 3 :=
  merges_iff (.step (e := .group 1 2) rfl .refl) (by decide)

-- A chain of pairs is no group: only one of its neighbours is merged with the new member.
theorem group_not_closed :
    ¬∀ (limit : Nat) (calls : List (Call Nat)) (s : Subscriptions Nat) (a b : Nat),
      (machine Nat).Steps (new limit) calls s → (s.group a b).snd → (s.group a b).fst.Merges (s.merged a b) :=
  fun h => absurd
    ((h 8 [.pair 1 2, .pair 2 3] _ 1 4 (.step rfl <| .step rfl .refl) (by decide)).same_group
      2 (by decide) 1 (by decide) 3)
    (by decide)

end Plaza.ServerUtils.Subscriptions

namespace Plaza.ServerUtils.Subscriptions

variable {K : Type} [DecidableEq K] {s s' : Subscriptions K} {a b k x y : K} {members : Multiset K}
variable {calls : List (Call K)} {call : Call K} {limit : Nat}

-- No key has more outgoing subscriptions than the configured limit.
def Limited (s : Subscriptions K) : Prop :=
  ∀ k, s.countOf k ≤ s.limit

-- A member of a merged group follows everyone else in it beside those that it followed before and
-- that are not in it.
def joinedCount (s : Subscriptions K) (members : Multiset K) (k : K) : Nat :=
  ((s.out.get k).filter (· ∉ members)).card + (members.card - 1)

-- A merger leaves every member the room for what it follows outside the merged group.
def Call.fits (s : Subscriptions K) : Call K → Bool
  | .group a b => a = b ∨ s.limit < (s.merged a b).card - 1 ∨
      ∀ k ∈ s.merged a b, s.joinedCount (s.merged a b) k ≤ s.limit
  | _          => true

theorem nodup_groupOf (hi : s.Indexed) : (s.groupOf k).Nodup := by
  have h := hi.irrefl k
  refine Multiset.nodup_cons.mpr ⟨?_, Finset.nodup _⟩
  simp [h]

theorem nodup_merged (hi : s.Indexed) : (s.merged a b).Nodup :=
  Multiset.Nodup.ndunion _ (nodup_groupOf hi)

theorem countOf_linkAll (hi : s.Indexed) (hn : members.Nodup) (hk : k ∈ members) :
    ((members ×ˢ members).foldl linkDistinct s).countOf k = s.joinedCount members k := by
  have hf : ((members ×ˢ members).foldl linkDistinct s).out.get k =
      (s.out.get k).filter (· ∉ members) ∪ members.toFinset.erase k := by
    ext y
    have h := hi.irrefl k
    rw [mem_out_linkAll]
    grind
  have hd : Disjoint ((s.out.get k).filter (· ∉ members)) (members.toFinset.erase k) := by
    rw [Finset.disjoint_left]
    grind
  rw [countOf, hf, Finset.card_union_of_disjoint hd, joinedCount, Finset.card_erase_of_mem (by simpa),
    Multiset.toFinset_card_of_nodup hn]

@[simp]
theorem limit_subscribe : (s.subscribe a b).fst.limit = s.limit := by
  simp only [subscribe]
  split
  case isTrue  => rfl
  case isFalse => split <;> rfl

@[simp]
theorem limit_linkAll {ps : Multiset (K × K)} : (ps.foldl linkDistinct s).limit = s.limit := by
  refine Multiset.foldl_preserves (Q := fun s' : Subscriptions K => s'.limit = s.limit) (fun s p _ h => ?_) rfl
  simp only [linkDistinct]
  split <;> exact h

@[simp]
theorem limit_unsubscribeAll : (members.foldl (unsubscribeBoth k) s).limit = s.limit :=
  Multiset.foldl_preserves (Q := fun s' : Subscriptions K => s'.limit = s.limit) (fun _ _ _ h => h) rfl

theorem limit_apply : (s.apply call).limit = s.limit := by
  cases call
  case pair a b =>
    simp only [apply, pair]
    split
    case isTrue  => rfl
    case isFalse => split <;> simp
  case group a b =>
    simp only [apply, group]
    split
    case isTrue  => rfl
    case isFalse => split <;> simp
  case leaveGroup k =>
    simp only [apply, leaveGroup]
    split <;> simp
  case subscribe => exact limit_subscribe
  all_goals rfl

namespace Limited

omit [DecidableEq K] in
-- A call that only drops subscriptions keeps the limit.
theorem of_subset (hl : s.Limited) (hs : ∀ k, s'.out.get k ⊆ s.out.get k) (h : s'.limit = s.limit) :
    s'.Limited :=
  fun k => h ▸ (Finset.card_le_card <| hs k).trans (hl k)

protected theorem subscribe (hl : s.Limited) : (s.subscribe a b).fst.Limited := by
  simp only [subscribe]
  split
  case isTrue  => exact hl
  case isFalse =>
    split
    case isTrue    => exact hl
    case isFalse h =>
      intro k
      by_cases hk : k = a
      case neg => simpa [countOf, link, hk] using hl k
      case pos =>
        subst hk
        have hb : (Insert.insert b (s.out.get k)).card ≤ s.limit := by
          by_cases hb : b ∈ s.out.get k
          case pos => simpa [Finset.insert_eq_of_mem hb, countOf] using hl k
          case neg =>
            rw [Finset.card_insert_of_notMem hb]
            have h : ¬s.limit ≤ (s.out.get k).card := fun hl => h <| by simp [countOf, isSubscribed, hl, hb]
            omega
        simpa [countOf, link] using hb

protected theorem pair (hl : s.Limited) : (s.pair a b).fst.Limited := by
  simp only [pair]
  split
  case isTrue  => exact hl
  case isFalse =>
    split
    case isTrue  => exact hl
    case isFalse => exact hl.subscribe.subscribe

theorem group_iff (hi : s.Indexed) (hl : s.Limited) :
    (s.group a b).fst.Limited ↔ (Call.group a b).fits s := by
  by_cases h : a = b
  case pos => simpa [group, Call.fits, h] using hl
  case neg =>
    by_cases hc : s.limit < (s.merged a b).card - 1
    case pos => simpa [group, Call.fits, h, hc] using hl
    case neg =>
      simp only [group, Call.fits, h, hc, Limited, if_false, limit_linkAll, false_or, decide_eq_true_eq]
      constructor
      case mp => exact fun hl k hk => countOf_linkAll hi (nodup_merged hi) hk ▸ hl k
      case mpr =>
        intro hf k
        by_cases hk : k ∈ s.merged a b
        case pos => exact countOf_linkAll hi (nodup_merged hi) hk ▸ hf k hk
        case neg =>
          refine (Finset.card_le_card fun y hy => ?_).trans (hl k)
          simpa [hk] using mem_out_linkAll.mp hy

omit [DecidableEq K] in
protected theorem clear (s : Subscriptions K) : s.clear.Limited :=
  fun _ => Nat.zero_le _

theorem apply_iff (hi : s.Indexed) (hl : s.Limited) : (s.apply call).Limited ↔ call.fits s := by
  cases call
  case subscribe   => exact iff_of_true hl.subscribe rfl
  case pair        => exact iff_of_true hl.pair rfl
  case group       => exact group_iff hi hl
  case clear       => exact iff_of_true (.clear s) rfl
  case unsubscribe => exact iff_of_true (hl.of_subset (fun _ _ h => (mem_out_unsubscribe.mp h).left) rfl) rfl
  case leaveGroup  => exact iff_of_true (hl.of_subset (fun _ _ h => mem_out_leaveGroup h) limit_apply) rfl
  case remove      => exact iff_of_true (hl.of_subset (fun _ _ h => (hi.mem_out_remove.mp h).left) rfl) rfl

end Limited

theorem always_limited_iff (h : (machine K).Steps (new limit) calls s) :
    (machine K).Always (·.Limited) (new limit) calls ↔
      ((machine K).restrict (fun s call => call.fits s)).Steps (new limit) calls s := by
  refine h.always_iff Indexed.step (fun hi hl hs => ?_) .new fun k => Nat.zero_le _
  cases hs
  exact Limited.apply_iff hi hl

-- One key follows a spectator's target and then joins a group: the group has room for it, while it has
-- no room for the group.
theorem group_exceeds_limit :
    ¬∀ (limit : Nat) (calls : List (Call Nat)) (s : Subscriptions Nat),
      (machine Nat).Steps (new limit) calls s → s.Limited :=
  fun h => absurd (h 1 [.subscribe 1 5, .group 1 2] _ (.step rfl <| .step rfl .refl) 1) (by decide)

theorem always_limited_iff_trio :
    (machine Nat).Always (·.Limited) (new 2) [.group 1 2, .group 2 3] ↔
      ((machine Nat).restrict (fun s call => call.fits s)).Steps (new 2) [.group 1 2, .group 2 3]
        (((new 2 : Subscriptions Nat).apply (.group 1 2)).apply (.group 2 3)) :=
  always_limited_iff <| .step rfl <| .step rfl .refl

end Plaza.ServerUtils.Subscriptions
