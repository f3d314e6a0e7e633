import Plaza.Flutter.Theorems.Interpolation

namespace Plaza.ClientUtils

open Flutter.SnapshotBuffer (Earlier addSnapshot_eq)

variable {σ ν : Type*} {k maxMs : Nat} {samples others : List (ServerSnapshot σ × ν)}

namespace SnapshotBuffer

variable {b : SnapshotBuffer σ} {l : List (ServerSnapshot σ)}

-- The samples in the order of their arrival.
def receive (b : SnapshotBuffer σ) (samples : List (ServerSnapshot σ)) : SnapshotBuffer σ :=
  samples.foldl (fun b s => b.addSnapshot s.serverTimestamp s.state) b

-- What is held are the newest `k` of the samples, in the order of time.
structure Newest (k : Nat) (samples held : List (ServerSnapshot σ)) : Prop where
  ordered : held.Pairwise Earlier
  length  : held.length = min k samples.length
  subset  : held ⊆ samples
  newest  : ∀ s ∈ samples, s ∉ held → ∀ t ∈ held, Earlier s t

theorem Newest.of_rtake (hl : l.Pairwise Earlier) : Newest k l (l.rtake k) where
  ordered := hl.sublist (List.drop_sublist ..)
  length  := by rw [List.rtake, List.length_drop]; omega
  subset  := (List.drop_sublist ..).subset
  newest s hs hn t ht := by
    rw [← List.take_append_drop (l.length - k) l] at hs hl
    cases List.mem_append.mp hs
    case inl hs => exact (List.pairwise_append.mp hl).right.right s hs t ht
    case inr hs => exact absurd hs hn

theorem Newest.of_perm {l' held : List (ServerSnapshot σ)} (hp : l.Perm l') (h : Newest k l held) :
    Newest k l' held where
  ordered     := h.ordered
  length      := hp.length_eq ▸ h.length
  subset      := fun _ hs => hp.subset (h.subset hs)
  newest s hs := h.newest s (hp.mem_iff.mpr hs)

end SnapshotBuffer

namespace RemoteView

variable {v : RemoteView σ ν}

def receive (v : RemoteView σ ν) (samples : List (ServerSnapshot σ × ν)) : RemoteView σ ν :=
  samples.foldl (fun v s => v.push s.fst.serverTimestamp s.fst.state s.snd) v

theorem receive_buffer : (v.receive samples).buffer = v.buffer.receive (samples.map Prod.fst) := by
  induction samples generalizing v
  case nil         => rfl
  case cons s _ hi => exact hi (v := v.push s.fst.serverTimestamp s.fst.state s.snd)

def sample (s : ServerSnapshot σ × ν) : Nat × σ × ν :=
  (s.fst.serverTimestamp, s.fst.state, s.snd)

-- The view after everything on a line of time has arrived: the buffer has its end, and the newest is the last.
def drawn (k maxMs : Nat) (line : List (ServerSnapshot σ × ν)) : RemoteView σ ν where
  buffer             := { snapshots := (line.map Prod.fst).rtake k, maxBufferSize := k }
  latest             := line.getLast?.map sample
  maxExtrapolationMs := maxMs
  overExtrapolations := 0

-- The newest is the last one of the buffer.
theorem latest_drawn {line : List (ServerSnapshot σ × ν)} (hk : 0 < k) :
    (drawn k maxMs line).latest.map (fun l => ⟨l.fst, l.snd.fst⟩) =
      (drawn k maxMs line).buffer.snapshots.getLast? := by
  simp only [drawn, List.getLast?_rtake hk, List.getLast?_map, Option.map_map]
  rfl

-- One more sample takes its place on the line.
theorem push_drawn {line : List (ServerSnapshot σ × ν)} {s : ServerSnapshot σ × ν}
    (hl : line.Pairwise (Earlier ·.fst ·.fst)) (hs : ∀ a ∈ line, a.fst.serverTimestamp ≠ s.fst.serverTimestamp) :
    (drawn k maxMs line).push s.fst.serverTimestamp s.fst.state s.snd =
      drawn k maxMs (line.insertBefore (Earlier ·.fst ·.fst) s) := by
  have hm : (line.map Prod.fst).Pairwise Earlier := List.pairwise_map.mpr hl
  have hb : (drawn k maxMs line).buffer.addSnapshot s.fst.serverTimestamp s.fst.state =
      (drawn k maxMs (line.insertBefore (Earlier ·.fst ·.fst) s)).buffer := by
    have hd : ∀ a ∈ (line.map Prod.fst).rtake k, a.serverTimestamp ≠ s.fst.serverTimestamp := by
      intro a ha
      obtain ⟨c, hc, rfl⟩ := List.mem_map.mp <| (List.drop_sublist ..).mem ha
      exact hs c hc
    have he := addSnapshot_eq (b := (drawn k maxMs line).buffer) (x := s.fst.state)
      (hm.sublist (List.drop_sublist ..)) hd
    have hr := hm.rtake_insertBefore_rtake (k := k) (a := s.fst) fun h h' => Nat.lt_trans h h'
    rw [List.rtake, List.insertBefore_perm.length_eq, List.length_cons, ← List.map_insertBefore] at hr
    exact congrArg (SnapshotBuffer.mk · k) (he.trans hr)
  have hn : (if (line.getLast?.map sample).all (·.fst ≤ s.fst.serverTimestamp) then some (sample s) else
      line.getLast?.map sample) = (line.insertBefore (Earlier ·.fst ·.fst) s).getLast?.map sample := by
    rw [hl.getLast?_insertBefore fun h h' => Nat.lt_trans h h']
    cases line.getLast?
    case none   => rfl
    case some a =>
      simp only [Option.map_some, Option.all_some, Option.any_some, decide_eq_true_eq]
      by_cases h : (sample a).fst ≤ s.fst.serverTimestamp
      case pos =>
        have hn : ¬Earlier s.fst a.fst := Nat.not_lt.mpr h
        rw [if_pos h, if_neg hn, Option.map_some]
      case neg =>
        have hn : Earlier s.fst a.fst := Nat.lt_of_not_le h
        rw [if_neg h, if_pos hn, Option.map_some]
  calc (drawn k maxMs line).push s.fst.serverTimestamp s.fst.state s.snd
    _ = ⟨_, _, maxMs, 0⟩                                         := rfl
    _ = drawn k maxMs (line.insertBefore (Earlier ·.fst ·.fst) s) := congrArg₂ (mk · · maxMs 0) hb hn

-- Whatever the order is in which the samples arrive, the view is drawn from the one line of time through them.
theorem receive_eq (hv : new k maxMs = some v) (hn : (samples.map (·.fst.serverTimestamp)).Nodup) :
    ∃ line, line.Perm samples ∧ line.Pairwise (Earlier ·.fst ·.fst) ∧ v.receive samples = drawn k maxMs line := by
  induction samples using List.reverseRecOn
  case nil =>
    simp only [new, SnapshotBuffer.new, Option.map_eq_some_iff, Option.ite_none_left_eq_some] at hv
    obtain ⟨b, ⟨_, hb⟩, rfl⟩ := hv
    exact ⟨[], .nil, .nil, by simp [receive, drawn, ← Option.some.inj hb]⟩
  case append_singleton samples s hi =>
    rw [List.map_append, List.nodup_append'] at hn
    obtain ⟨line, hp, hl, he⟩ := hi hn.left
    have hs : ∀ a ∈ line, a.fst.serverTimestamp ≠ s.fst.serverTimestamp := by
      intro a ha h
      exact hn.right.right (List.mem_map_of_mem (hp.subset ha)) (h ▸ List.mem_singleton_self _)
    refine ⟨line.insertBefore (Earlier ·.fst ·.fst) s, ?_, ?_, ?_⟩
    case refine_1 =>
      exact List.insertBefore_perm.trans <| (hp.cons s).trans (List.perm_append_singleton ..).symm
    case refine_2 =>
      exact hl.insertBefore (fun h h' => Nat.lt_trans h h') fun a ha => (Nat.lt_or_gt_of_ne (hs a ha)).symm
    case refine_3 => rw [receive, List.foldl_concat, ← receive, he, push_drawn hl hs]

-- There is one line of time only.
theorem line_unique {line line' : List (ServerSnapshot σ × ν)} (hl : line.Pairwise (Earlier ·.fst ·.fst))
    (hl' : line'.Pairwise (Earlier ·.fst ·.fst)) (hp : line.Perm line') : line = line' := by
  refine hp.eq_of_pairwise (fun a b _ _ h h' => ?_) hl hl'
  exact absurd (Nat.lt_trans h h') (Nat.lt_irrefl _)

-- The order of arrival leaves no trace, neither in what the buffer holds nor in what is seen of the entity.
theorem arrival_order (interpolate : σ → σ → ℚ → Nat → Nat → σ) (extrapolate : σ → ν → ℚ → σ)
    {b : SnapshotBuffer σ} (hb : SnapshotBuffer.new k = some b) (hv : new k maxMs = some v)
    (hn : (samples.map (·.fst.serverTimestamp)).Nodup) (hp : samples.Perm others) :
    SnapshotBuffer.Newest k (samples.map Prod.fst) (b.receive (samples.map Prod.fst)).snapshots ∧
    b.receive (others.map Prod.fst) = b.receive (samples.map Prod.fst) ∧
    (v.receive samples).buffer = b.receive (samples.map Prod.fst) ∧
    (v.receive samples).latest.map (fun l => ⟨l.fst, l.snd.fst⟩) = (v.receive samples).buffer.snapshots.getLast? ∧
    (v.receive others).latest = (v.receive samples).latest ∧
    ∀ target opts, ((v.receive others).render interpolate extrapolate target opts).fst =
      ((v.receive samples).render interpolate extrapolate target opts).fst := by
  obtain ⟨line, hl, hs, he⟩ := receive_eq hv hn
  obtain ⟨line', hl', hs', he'⟩ := receive_eq hv ((hp.map _).nodup hn)
  obtain rfl := line_unique hs hs' <| (hl.trans hp).trans hl'.symm
  have hk : 2 ≤ k := by
    by_contra hk
    rw [SnapshotBuffer.new, if_pos (by omega)] at hb
    contradiction
  have hb : v.buffer = b := by
    simp only [new, hb, Option.map_some, Option.some.injEq] at hv
    rw [← hv]
  have hbuf : (v.receive samples).buffer = b.receive (samples.map Prod.fst) := hb ▸ receive_buffer
  have hbuf' : (v.receive others).buffer = b.receive (others.map Prod.fst) := hb ▸ receive_buffer
  refine ⟨?_, ?_, hbuf, ?_, ?_, fun target opts => ?_⟩
  case refine_1 =>
    rw [← hbuf, he]
    exact (SnapshotBuffer.Newest.of_rtake (List.pairwise_map.mpr hs)).of_perm (hl.map _)
  case refine_2 => rw [← hbuf, ← hbuf', he, he']
  case refine_3 => rw [he, latest_drawn (by omega)]
  case refine_4 => rw [he, he']
  case refine_5 => rw [he, he']

theorem arrival_order_two :
    ∃ (b : SnapshotBuffer Nat) (v : RemoteView Nat Nat),
      SnapshotBuffer.Newest 2 [⟨3, 30⟩, ⟨1, 10⟩, ⟨2, 20⟩] (b.receive [⟨3, 30⟩, ⟨1, 10⟩, ⟨2, 20⟩]).snapshots ∧
      ∀ target opts,
        ((v.receive [(⟨1, 10⟩, 0), (⟨2, 20⟩, 1), (⟨3, 30⟩, 2)]).render (fun a _ _ _ _ => a) (fun a _ _ => a)
          target opts).fst =
        ((v.receive [(⟨3, 30⟩, 2), (⟨1, 10⟩, 0), (⟨2, 20⟩, 1)]).render (fun a _ _ _ _ => a) (fun a _ _ => a)
          target opts).fst := by
  have hv : new 2 500 = some (⟨⟨[], 2⟩, none, 500, 0⟩ : RemoteView Nat Nat) := rfl
  have hp : List.Perm [((⟨3, 30⟩ : ServerSnapshot Nat), 2), (⟨1, 10⟩, 0), (⟨2, 20⟩, 1)]
      [(⟨1, 10⟩, 0), (⟨2, 20⟩, 1), (⟨3, 30⟩, 2)] := by decide
  have h := arrival_order (fun a _ _ _ _ => a) (fun a _ _ => a) rfl hv (by decide) hp
  exact ⟨_, _, h.left, h.right.right.right.right.right⟩

end RemoteView
end Plaza.ClientUtils
