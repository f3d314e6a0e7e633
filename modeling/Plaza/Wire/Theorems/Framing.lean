import Plaza.Lib.Bits
import Plaza.Wire.Frame

namespace Plaza.Wire

variable {n : Nat} {frame : List (BitVec 8)} {frames : List (List (BitVec 8))} {out : List (BitVec 8)}

@[simp]
theorem length_lengthPrefix : (lengthPrefix n).length = lengthPrefixBytes :=
  rfl

theorem fromBeBytes_lengthPrefix (h : n < 2 ^ 32) : fromBeBytes (lengthPrefix n) = n := by
  simp [fromBeBytes, lengthPrefix]
  omega

theorem lengthPrefix_fromBeBytes {bytes : List (BitVec 8)} (h : bytes.length = lengthPrefixBytes) :
    lengthPrefix (fromBeBytes bytes) = bytes := by
  match bytes, h with
  | [b₀, b₁, b₂, b₃], _ =>
    have h₀ := b₀.isLt
    have h₁ := b₁.isLt
    have h₂ := b₂.isLt
    have h₃ := b₃.isLt
    simp [fromBeBytes, lengthPrefix, ← BitVec.toNat_inj]
    omega

theorem fromBeBytes_lt {bytes : List (BitVec 8)} (h : bytes.length = lengthPrefixBytes) :
    fromBeBytes bytes < 2 ^ 32 := by
  match bytes, h with
  | [b₀, b₁, b₂, b₃], _ =>
    have h₀ := b₀.isLt
    have h₁ := b₁.isLt
    have h₂ := b₂.isLt
    have h₃ := b₃.isLt
    simp [fromBeBytes]
    omega

-- The bytes of one frame on a stream.
def delimited (frame : List (BitVec 8)) : List (BitVec 8) :=
  delimit frame []

theorem delimited_eq : delimited frame = lengthPrefix frame.length ++ frame := by
  simp [delimited, delimit]

-- A frame that a reader accepts and whose length fits into the prefix.
def Within (maxFrameBytes : Nat) (frame : List (BitVec 8)) : Prop :=
  frame.length ≤ maxFrameBytes ∧ frame.length < 2 ^ 32

theorem prefixCode {maxFrameBytes : Nat} : PrefixCode delimited (Within maxFrameBytes) := by
  intro f₁ f₂ x y h₁ h₂ h
  simp only [delimited_eq, List.append_assoc] at h
  have ⟨hp, h⟩ := List.append_inj h rfl
  have hl : f₁.length = f₂.length := by
    rw [← fromBeBytes_lengthPrefix h₁.right, hp, fromBeBytes_lengthPrefix h₂.right]
  exact List.append_inj_left h hl

namespace LengthDelimited

variable {l : LengthDelimited} {rest : List (BitVec 8)}

theorem nextFrame_of_short (h : l.buf.length < lengthPrefixBytes) : l.nextFrame = (l, .ok none) := by
  rw [nextFrame, if_pos h]

-- The declared length is read as soon as the prefix is complete.
theorem nextFrame_of_declared (hn : n < 2 ^ 32) (h : l.buf = lengthPrefix n ++ rest) :
    l.nextFrame =
      if l.maxFrameBytes < n then
        (l, .error { frameBytes := n, maxFrameBytes := l.maxFrameBytes })
      else if rest.length < n then
        (l, .ok none)
      else
        ({ l with buf := rest.drop n }, .ok (some (rest.take n))) := by
  have ht : l.buf.take lengthPrefixBytes = lengthPrefix n := h ▸ List.take_left' rfl
  have hd : l.buf.drop lengthPrefixBytes = rest := h ▸ List.drop_left' rfl
  have hl : l.buf.length = lengthPrefixBytes + rest.length := by simp [h]
  rw [nextFrame, if_neg (by omega)]
  simp only [ht, fromBeBytes_lengthPrefix hn, hl, ← List.drop_drop, hd, Nat.add_lt_add_iff_left]

theorem nextFrame_of_oversize (hn : n < 2 ^ 32) (hm : l.maxFrameBytes < n)
    (h : l.buf = lengthPrefix n ++ rest) :
    l.nextFrame = (l, .error { frameBytes := n, maxFrameBytes := l.maxFrameBytes }) := by
  rw [nextFrame_of_declared hn h, if_pos hm]

theorem nextFrame_of_frame (hw : Within l.maxFrameBytes frame) (h : l.buf = delimited frame ++ rest) :
    l.nextFrame = ({ l with buf := rest }, .ok (some frame)) := by
  rw [delimited_eq, List.append_assoc] at h
  rw [nextFrame_of_declared hw.right h, if_neg (Nat.not_lt.mpr hw.left)]
  simp

theorem nextFrame_unfinished (hw : Within l.maxFrameBytes frame) (h : l.buf <+: delimited frame)
    (hl : l.buf.length < (delimited frame).length) : l.nextFrame = (l, .ok none) := by
  by_cases hs : l.buf.length < lengthPrefixBytes
  case pos => exact nextFrame_of_short hs
  case neg =>
    rw [delimited_eq] at h hl
    have hp : lengthPrefix frame.length <+: l.buf :=
      List.prefix_of_prefix_length_le (List.prefix_append ..) h (by simpa using hs)
    have ⟨rest, hr⟩ := hp
    rw [nextFrame_of_declared hw.right hr.symm, if_neg (Nat.not_lt.mpr hw.left), if_pos]
    simpa [← hr] using hl

-- Nothing else can come of a call: the first word of the buffer is taken from it, or the buffer stays.
theorem nextFrame_cases (l : LengthDelimited) :
    (∃ frame rest, l.nextFrame = ({ l with buf := rest }, .ok (some frame)) ∧
      Within l.maxFrameBytes frame ∧ l.buf = delimited frame ++ rest) ∨
    l.nextFrame = (l, .ok none) ∨
    (∃ n rest, l.nextFrame = (l, .error { frameBytes := n, maxFrameBytes := l.maxFrameBytes }) ∧
      l.maxFrameBytes < n ∧ n < 2 ^ 32 ∧ l.buf = lengthPrefix n ++ rest) := by
  by_cases hs : l.buf.length < lengthPrefixBytes
  case pos => exact .inr <| .inl <| nextFrame_of_short hs
  case neg =>
    have hl := List.length_take_of_le (Nat.not_lt.mp hs)
    have hn := fromBeBytes_lt hl
    have hb :
        l.buf = lengthPrefix (fromBeBytes (l.buf.take lengthPrefixBytes)) ++ l.buf.drop lengthPrefixBytes := by
      rw [lengthPrefix_fromBeBytes hl, List.take_append_drop]
    generalize fromBeBytes (l.buf.take lengthPrefixBytes) = n at hn hb
    generalize l.buf.drop lengthPrefixBytes = rest at hb
    rw [nextFrame_of_declared hn hb]
    split
    case isTrue hm  => exact .inr <| .inr ⟨n, rest, rfl, hm, hn, hb⟩
    case isFalse hm =>
      split
      case isTrue     => exact .inr <| .inl rfl
      case isFalse hr =>
        have hr := List.length_take_of_le (Nat.not_lt.mp hr)
        refine .inl ⟨rest.take n, rest.drop n, rfl, ⟨by omega, by omega⟩, ?_⟩
        rw [delimited_eq, hr, List.append_assoc, List.take_append_drop, hb]

end LengthDelimited

end Plaza.Wire

namespace Plaza.Wire.LengthDelimited

variable {limit n k : Nat} {frame : List (BitVec 8)} {frames done : List (List (BitVec 8))}
variable {tail rest : List (BitVec 8)} {r r' : Reading} {calls : List Call} {call : Call}

-- What a reading end was fed is what it has drained and what it still holds.
structure Accounted (limit : Nat) (r : Reading) : Prop where
  bound  : r.framing.maxFrameBytes = limit
  fed    : r.fed = r.drained.flatMap delimited ++ r.framing.buf
  within : ∀ frame ∈ r.drained, Within limit frame

@[simp]
theorem framing_next : r.next.framing = r.framing.nextFrame.fst :=
  rfl

@[simp]
theorem fed_next : r.next.fed = r.fed :=
  rfl

@[simp]
theorem results_next : r.next.results = r.results ++ [r.framing.nextFrame.snd] :=
  rfl

theorem drained_next_of_frame (h : r.framing.nextFrame.snd = .ok (some frame)) :
    r.next.drained = r.drained ++ [frame] := by
  simp [Reading.drained, h]

theorem drained_next_of_none (h : r.framing.nextFrame.snd = .ok none) : r.next.drained = r.drained := by
  simp [Reading.drained, h]

theorem drained_next_of_error {e : Oversize} (h : r.framing.nextFrame.snd = .error e) :
    r.next.drained = r.drained := by
  simp [Reading.drained, h]

namespace Accounted

protected theorem start : Accounted limit (.start limit) where
  bound  := rfl
  fed    := rfl
  within := nofun

protected theorem feed {bytes : List (BitVec 8)} (h : Accounted limit r) : Accounted limit (r.feed bytes) where
  bound  := h.bound
  fed    := by simp [Reading.feed, LengthDelimited.feed, h.fed, Reading.drained]
  within := h.within

-- A drain that yields no frame changes nothing but the results.
theorem next_of_same (h : Accounted limit r) (hf : r.next.framing = r.framing)
    (hd : r.next.drained = r.drained) : Accounted limit r.next where
  bound  := hf ▸ h.bound
  fed    := by rw [fed_next, hf, hd, h.fed]
  within := hd ▸ h.within

protected theorem next (h : Accounted limit r) : Accounted limit r.next := by
  cases nextFrame_cases r.framing
  case inl hn =>
    have ⟨frame, rest, hn, hw, hb⟩ := hn
    have hd := drained_next_of_frame (congrArg Prod.snd hn)
    refine ⟨?_, ?_, ?_⟩
    case refine_1 => simp [hn, h.bound]
    case refine_2 => simp [hd, hn, h.fed, hb]
    case refine_3 =>
      intro frame' hf
      rw [hd, List.mem_append, List.mem_singleton] at hf
      cases hf
      case inl hf => exact h.within frame' hf
      case inr hf => exact hf ▸ h.bound ▸ hw
  case inr hn =>
    cases hn
    case inl hn =>
      exact h.next_of_same (by simp [hn]) (drained_next_of_none (congrArg Prod.snd hn))
    case inr hn =>
      have ⟨_, _, hn, _⟩ := hn
      exact h.next_of_same (by simp [hn]) (drained_next_of_error (congrArg Prod.snd hn))

protected theorem step (h : Accounted limit r) (hs : machine.step r call = some r') : Accounted limit r' := by
  cases call <;> cases hs
  case feed      => exact h.feed
  case nextFrame => exact h.next

end Accounted

-- No frame can be read from what follows the frames on a stream.
def Barred (limit : Nat) (tail : List (BitVec 8)) : Prop :=
  ∀ frame, Within limit frame → ¬delimited frame <+: tail

theorem barred_nil : Barred limit [] := by
  intro frame _ h
  simp [delimited_eq, lengthPrefix] at h

theorem barred_of_oversize (hn : n < 2 ^ 32) (h : limit < n) : Barred limit (lengthPrefix n ++ rest) := by
  intro frame hw hp
  have ⟨_, hp⟩ := hp
  rw [delimited_eq, List.append_assoc] at hp
  have hl := congrArg fromBeBytes <| List.append_inj_left hp rfl
  rw [fromBeBytes_lengthPrefix hw.right, fromBeBytes_lengthPrefix hn] at hl
  exact absurd hw.left (by omega)

-- What has been drained from a stream of frames are the first of them, and the buffer goes on where they
-- end.
theorem Accounted.reads (ha : Accounted limit r) (hf : ∀ frame ∈ frames, Within limit frame)
    (hb : Barred limit tail) (h : r.fed <+: frames.flatMap delimited ++ tail) :
    ∃ more, frames = r.drained ++ more ∧ r.framing.buf <+: more.flatMap delimited ++ tail :=
  prefixCode.reads_prefix ha.within hf hb (ha.fed ▸ h)

-- A drain with further frames to come yields the first of them as soon as all of its bytes are there.
theorem Accounted.next_of_cons (ha : Accounted limit r) (hw : Within limit frame)
    (h : r.framing.buf <+: delimited frame ++ rest) :
    r.framing.nextFrame.snd =
      .ok (if (delimited frame).length ≤ r.framing.buf.length then some frame else none) := by
  have hw := ha.bound.symm ▸ hw
  split
  case isTrue hl =>
    have ⟨rest', hr⟩ := List.prefix_of_prefix_length_le (List.prefix_append ..) h hl
    rw [nextFrame_of_frame hw hr.symm]
  case isFalse hl =>
    have hl := Nat.not_le.mp hl
    rw [nextFrame_unfinished hw (List.prefix_of_prefix_length_le h (List.prefix_append ..) hl.le) hl]

-- Every further byte leaves the oversized prefix where it is.
structure Stuck (limit n : Nat) (r : Reading) : Prop where
  bound   : r.framing.maxFrameBytes = limit
  blocked : lengthPrefix n <+: r.framing.buf

theorem Stuck.nextFrame (hs : Stuck limit n r) (hn : n < 2 ^ 32) (hl : limit < n) :
    r.framing.nextFrame = (r.framing, .error { frameBytes := n, maxFrameBytes := limit }) := by
  have ⟨rest, hr⟩ := hs.blocked
  rw [nextFrame_of_oversize hn (hs.bound.symm ▸ hl) hr.symm, hs.bound]

theorem Stuck.steps (hs : Stuck limit n r) (hn : n < 2 ^ 32) (hl : limit < n)
    (h : machine.Steps r calls r') : ∃ more, r'.results = r.results ++ more ∧
      ∀ result ∈ more, result = .error { frameBytes := n, maxFrameBytes := limit } := by
  induction h
  case refl => exact ⟨[], by simp, nofun⟩
  case step r₁ _ _ call _ he _ hi =>
    cases call <;> cases he
    case feed bytes =>
      exact hi ⟨hs.bound, hs.blocked.trans (List.prefix_append ..)⟩
    case nextFrame =>
      have hf := hs.nextFrame hn hl
      have ⟨more, hm, he⟩ := hi ⟨by simp [hf, hs.bound], by simpa [hf] using hs.blocked⟩
      refine ⟨.error { frameBytes := n, maxFrameBytes := limit } :: more, by simp [hm, hf], ?_⟩
      intro result hr
      cases hr
      case head     => rfl
      case tail _ hr => exact he result hr

-- The frames of a stream are drained in order, none before its last byte was fed, and all that were fed
-- whole are drained once there were drains enough.
structure Delivered (frames : List (List (BitVec 8))) (r : Reading) : Prop where
  ok        : ∀ result ∈ r.results, ∃ frame, result = .ok frame
  in_order  : r.drained <+: frames
  not_early : r.drained.flatMap delimited <+: r.fed
  complete  : ∀ done, done <+: frames → done.flatMap delimited <+: r.fed →
    ∀ k r', machine.Steps r (.replicate k .nextFrame) r' → done.length ≤ r.drained.length + k →
    done <+: r'.drained

-- An oversized length fails the first drain which comes upon it, be it followed by a body or not, and every
-- later one.
structure Halted (limit n : Nat) (frames : List (List (BitVec 8))) (r : Reading) : Prop where
  not_early : ∀ e, .error e ∈ r.results →
    e = { frameBytes := n, maxFrameBytes := limit } ∧
    frames.flatMap delimited ++ lengthPrefix n <+: r.fed
  prompt    : frames.flatMap delimited ++ lengthPrefix n <+: r.fed →
    ∀ k r', machine.Steps r (.replicate k .nextFrame) r' → frames.length < r.drained.length + k →
    r'.results.getLast? = some (.error { frameBytes := n, maxFrameBytes := limit })
  lasting   : ∀ e, .error e ∈ r.results →
    ∀ calls r', machine.Steps r calls r' → ∃ more, r'.results = r.results ++ more ∧
      ∀ result ∈ more, result = .error { frameBytes := n, maxFrameBytes := limit }

theorem length_drained_next : r.drained.length ≤ r.next.drained.length := by
  simp [Reading.drained]

namespace Accounted

theorem next_advances (ha : Accounted limit r) (hf : ∀ frame ∈ frames, Within limit frame)
    (hb : Barred limit tail) (h : r.fed <+: frames.flatMap delimited ++ tail) (hd : done <+: frames)
    (hdf : done.flatMap delimited <+: r.fed) (hl : r.drained.length < done.length) :
    r.next.drained.length = r.drained.length + 1 := by
  have ⟨more, hm, hbuf⟩ := ha.reads hf hb h
  have ⟨more', hm'⟩ : r.drained <+: done :=
    List.prefix_of_prefix_length_le ⟨more, hm.symm⟩ hd hl.le
  cases more'
  case nil => simp [← hm'] at hl
  case cons frame more' =>
    have ⟨last, hd⟩ := hd
    have hm : more = frame :: (more' ++ last) := by
      rw [← hd, ← hm', List.append_assoc] at hm
      exact (List.append_cancel_left hm).symm
    have hbf : delimited frame <+: r.framing.buf := by
      rw [ha.fed, ← hm', List.flatMap_append, List.prefix_append_right_inj] at hdf
      exact (List.prefix_append ..).trans hdf
    have hw : Within limit frame := hf frame (by simp [← hd, ← hm'])
    simp only [hm, List.flatMap_cons, List.append_assoc] at hbuf
    have hn := ha.next_of_cons hw hbuf
    rw [if_pos hbf.length_le] at hn
    simp [drained_next_of_frame hn]

theorem drains (ha : Accounted limit r) (hf : ∀ frame ∈ frames, Within limit frame)
    (hb : Barred limit tail) (h : r.fed <+: frames.flatMap delimited ++ tail) (hd : done <+: frames)
    (hdf : done.flatMap delimited <+: r.fed) (hs : machine.Steps r (.replicate k .nextFrame) r')
    (hk : done.length ≤ r.drained.length + k) : done <+: r'.drained := by
  induction k generalizing r
  case zero =>
    cases hs
    have ⟨more, hm, _⟩ := ha.reads hf hb h
    exact List.prefix_of_prefix_length_le hd ⟨more, hm.symm⟩ hk
  case succ k hi =>
    cases hs
    case step he hs =>
      cases he
      refine hi ha.next h hdf hs ?_
      by_cases hl : r.drained.length < done.length
      case pos =>
        have := ha.next_advances hf hb h hd hdf hl
        omega
      case neg =>
        have := length_drained_next (r := r)
        omega

-- A stream of frames fails no drain.
theorem next_ok (ha : Accounted limit r) (hf : ∀ frame ∈ frames, Within limit frame)
    (h : r.fed <+: frames.flatMap delimited) : ∃ frame, r.framing.nextFrame.snd = .ok frame := by
  rw [← List.append_nil (frames.flatMap delimited)] at h
  have ⟨more, hm, hbuf⟩ := ha.reads hf barred_nil h
  cases more
  case nil =>
    have hbuf : r.framing.buf = [] := by simpa using hbuf
    exact ⟨none, congrArg Prod.snd <| nextFrame_of_short <| by simp [hbuf, lengthPrefixBytes]⟩
  case cons frame more =>
    rw [List.append_nil] at hbuf
    exact ⟨_, ha.next_of_cons (hf frame (by simp [hm])) hbuf⟩

end Accounted

theorem Accounted.of_steps (h : machine.Steps (.start limit) calls r) : Accounted limit r :=
  h.preserves Accounted.step .start

theorem results_ok (hf : ∀ frame ∈ frames, Within limit frame) (h : machine.Steps (.start limit) calls r) :
    r.fed <+: frames.flatMap delimited → ∀ result ∈ r.results, ∃ frame, result = .ok frame := by
  refine And.right <| h.preserves (I := fun r => Accounted limit r ∧
    (r.fed <+: frames.flatMap delimited → ∀ result ∈ r.results, ∃ frame, result = .ok frame)) ?_
    ⟨.start, fun _ => nofun⟩
  intro r call r' ⟨ha, hi⟩ hs
  refine ⟨ha.step hs, fun hw => ?_⟩
  cases call <;> cases hs
  case feed bytes => exact hi <| (List.prefix_append ..).trans hw
  case nextFrame  =>
    intro result hr
    rw [results_next, List.mem_append, List.mem_singleton] at hr
    cases hr
    case inl hr => exact hi hw result hr
    case inr hr => exact hr ▸ ha.next_ok hf hw

-- An error means that all frames have been drained and the oversized length is next.
structure Failed (limit n : Nat) (frames : List (List (BitVec 8))) (r : Reading) (e : Oversize) : Prop extends
    Stuck limit n r where
  drained : r.drained = frames
  error   : e = { frameBytes := n, maxFrameBytes := limit }

namespace Failed

variable {e : Oversize}

protected theorem feed {bytes : List (BitVec 8)} (h : Failed limit n frames r e) :
    Failed limit n frames (r.feed bytes) e where
  bound   := h.bound
  blocked := h.blocked.trans (List.prefix_append ..)
  drained := h.drained
  error   := h.error

theorem next_of_stuck (hn : n < 2 ^ 32) (hl : limit < n) (hs : Stuck limit n r) (hd : r.drained = frames)
    (he : e = { frameBytes := n, maxFrameBytes := limit }) : Failed limit n frames r.next e := by
  have hf := hs.nextFrame hn hl
  exact {
    bound   := by simp [hf, hs.bound]
    blocked := by simpa [hf] using hs.blocked
    drained := drained_next_of_error (congrArg Prod.snd hf) ▸ hd
    error   := he }

end Failed

-- An error cannot come of anything but the oversized length, once all frames ahead of it are drained.
theorem Accounted.stuck_of_error {e : Oversize} (ha : Accounted limit r)
    (hf : ∀ frame ∈ frames, Within limit frame) (hn : n < 2 ^ 32) (hl : limit < n)
    (h : r.fed <+: frames.flatMap delimited ++ (lengthPrefix n ++ rest))
    (he : r.framing.nextFrame.snd = .error e) : Stuck limit n r ∧ r.drained = frames := by
  have ⟨more, hm, hbuf⟩ := ha.reads hf (barred_of_oversize hn hl) h
  cases more
  case cons frame more =>
    simp only [List.flatMap_cons, List.append_assoc] at hbuf
    rw [ha.next_of_cons (hf frame (by simp [hm])) hbuf] at he
    contradiction
  case nil =>
    by_cases hs : r.framing.buf.length < lengthPrefixBytes
    case pos =>
      rw [nextFrame_of_short hs] at he
      contradiction
    case neg =>
      refine ⟨⟨ha.bound, ?_⟩, by simpa using hm.symm⟩
      exact List.prefix_of_prefix_length_le (List.prefix_append ..) hbuf (by simpa using hs)

theorem failed_of_error (hf : ∀ frame ∈ frames, Within limit frame) (hn : n < 2 ^ 32) (hl : limit < n)
    (h : machine.Steps (.start limit) calls r) :
    r.fed <+: frames.flatMap delimited ++ (lengthPrefix n ++ rest) →
    ∀ e, .error e ∈ r.results → Failed limit n frames r e := by
  refine And.right <| h.preserves (I := fun r => Accounted limit r ∧
    (r.fed <+: frames.flatMap delimited ++ (lengthPrefix n ++ rest) →
      ∀ e, .error e ∈ r.results → Failed limit n frames r e)) ?_ ⟨.start, fun _ _ => nofun⟩
  intro r call r' ⟨ha, hi⟩ hs
  refine ⟨ha.step hs, fun hw => ?_⟩
  cases call <;> cases hs
  case feed bytes =>
    exact fun e he => (hi ((List.prefix_append ..).trans hw) e he).feed
  case nextFrame  =>
    intro e he
    rw [results_next, List.mem_append, List.mem_singleton] at he
    cases he
    case inl he =>
      have hf := hi hw e he
      exact .next_of_stuck hn hl hf.toStuck hf.drained hf.error
    case inr he =>
      have ⟨hs, hd⟩ := ha.stuck_of_error hf hn hl hw he.symm
      rw [hs.nextFrame hn hl] at he
      cases he
      exact .next_of_stuck hn hl hs hd rfl

theorem delivered (h : machine.Steps (.start limit) calls r) (hf : ∀ frame ∈ frames, Within limit frame)
    (hw : r.fed <+: frames.flatMap delimited) : Delivered frames r := by
  have ha := Accounted.of_steps h
  have hw' := hw
  rw [← List.append_nil (frames.flatMap delimited)] at hw'
  constructor
  case ok => exact results_ok hf h hw
  case in_order =>
    have ⟨more, hm, _⟩ := ha.reads hf barred_nil hw'
    exact ⟨more, hm.symm⟩
  case not_early => exact ⟨_, ha.fed.symm⟩
  case complete  => exact fun done hd hdf k r' hs hk => ha.drains hf barred_nil hw' hd hdf hs hk

-- A drain that comes upon the oversized length fails, and so does every drain after it.
theorem Stuck.getLast (hs : Stuck limit n r) (hn : n < 2 ^ 32) (hl : limit < n)
    (h : machine.Steps r.next calls r') :
    r'.results.getLast? = some (.error { frameBytes := n, maxFrameBytes := limit }) := by
  have hf := hs.nextFrame hn hl
  have hs : Stuck limit n r.next := ⟨by simp [hf, hs.bound], by simpa [hf] using hs.blocked⟩
  have ⟨more, hm, he⟩ := hs.steps hn hl h
  cases List.eq_nil_or_concat more
  case inl h => simp [hm, h, hf]
  case inr h =>
    have ⟨_, result, h⟩ := h
    rw [hm, h, List.concat_eq_append, ← List.append_assoc, List.getLast?_concat, he result (by simp [h])]

theorem fails_promptly (ha : Accounted limit r) (hf : ∀ frame ∈ frames, Within limit frame) (hn : n < 2 ^ 32)
    (hl : limit < n) (h : r.fed <+: frames.flatMap delimited ++ (lengthPrefix n ++ rest))
    (hp : frames.flatMap delimited ++ lengthPrefix n <+: r.fed)
    (hs : machine.Steps r (.replicate k .nextFrame) r') (hk : frames.length < r.drained.length + k) :
    r'.results.getLast? = some (.error { frameBytes := n, maxFrameBytes := limit }) := by
  have hb : Barred limit (lengthPrefix n ++ rest) := barred_of_oversize hn hl
  induction k generalizing r
  case zero =>
    have ⟨more, hm, _⟩ := ha.reads hf hb h
    have := congrArg List.length hm
    rw [List.length_append] at this
    omega
  case succ k hi =>
    cases hs
    case step he hs =>
      cases he
      by_cases hd : r.drained.length < frames.length
      case pos =>
        have := ha.next_advances hf hb h (List.prefix_refl _) ((List.prefix_append ..).trans hp) hd
        exact hi ha.next h hp hs (by omega)
      case neg =>
        have ⟨more, hm, _⟩ := ha.reads hf hb h
        have hm : r.drained = frames := by
          have := congrArg List.length hm
          rw [List.length_append] at this
          rw [hm, List.eq_nil_of_length_eq_zero (l := more) (by omega), List.append_nil]
        rw [ha.fed, hm, List.prefix_append_right_inj] at hp
        exact Stuck.getLast ⟨ha.bound, hp⟩ hn hl hs

theorem halted (h : machine.Steps (.start limit) calls r) (hf : ∀ frame ∈ frames, Within limit frame)
    (hn : n < 2 ^ 32) (hl : limit < n) (hw : r.fed <+: frames.flatMap delimited ++ (lengthPrefix n ++ rest)) :
    Halted limit n frames r := by
  have ha := Accounted.of_steps h
  have he := failed_of_error hf hn hl h hw
  constructor
  case not_early =>
    intro e hr
    have he := he e hr
    refine ⟨he.error, ?_⟩
    rw [ha.fed, he.drained, List.prefix_append_right_inj]
    exact he.blocked
  case prompt  => exact fun hp k r' hs hk => fails_promptly ha hf hn hl hw hp hs hk
  case lasting => exact fun e hr calls r' hs => (he e hr).toStuck.steps hn hl hs

theorem stream_delivered (hf : ∀ frame ∈ frames, Within limit frame)
    (h : machine.Steps (.start limit) calls r) :
    (r.fed <+: frames.flatMap delimited → Delivered frames r) ∧
    ∀ n rest, limit < n → n < 2 ^ 32 →
      r.fed <+: frames.flatMap delimited ++ (lengthPrefix n ++ rest) → Halted limit n frames r :=
  ⟨delivered h hf, fun _ _ hl hn => halted h hf hn hl⟩

-- One frame, cut within its prefix.
theorem stream_delivered_cut :
    let r := (Reading.start 16).feed [0, 0] |>.next |>.feed [0, 1, 7] |>.next
    (r.fed <+: [[7]].flatMap delimited → Delivered [[7]] r) ∧
    ∀ n rest, 16 < n → n < 2 ^ 32 →
      r.fed <+: [[7]].flatMap delimited ++ (lengthPrefix n ++ rest) → Halted 16 n [[7]] r :=
  stream_delivered (by simp [Within]) <|
    .step (e := .feed [0, 0]) rfl <| .step (e := .nextFrame) rfl <|
    .step (e := .feed [0, 1, 7]) rfl <| .step (e := .nextFrame) rfl .refl

end Plaza.Wire.LengthDelimited
