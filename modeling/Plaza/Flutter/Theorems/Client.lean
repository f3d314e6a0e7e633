import Plaza.Flutter.Client

namespace Plaza.Flutter.PlazaClient

variable {g : PlazaConfig} {c c' : PlazaClient} {i j : Nat} {step : Step} {steps : List Step}

-- A listener belongs to the current socket of a client that no one stops, and only the current socket is open, until
-- `stop` closes it.
structure Sole (c : PlazaClient) : Prop where
  subscribed : ∀ i, c.subscribed i →
    c.socket = some i ∧ c.sub = some i ∧ ¬c.stopped ∧ .sub ∉ c.stopping ∧ .socket ∉ c.stopping
  isOpen     : ∀ i, c.isOpen i → c.socket = some i ∧ .socket ∉ c.stopping ∧ (c.stopped → .sub ∈ c.stopping)
  carried    : ∀ frame ∈ c.carried, frame.snd = some frame.fst

theorem any_modify {l : List PlazaSocket} {f : PlazaSocket → PlazaSocket} {p : PlazaSocket → Bool} :
    (l.modify i f)[j]?.any p = if i = j then l[j]?.any (fun s => p (f s)) else l[j]?.any p := by
  rw [List.getElem?_modify]
  split <;> simp [Option.any_map]

theorem any_concat {l : List PlazaSocket} {s : PlazaSocket} {p : PlazaSocket → Bool} (h : (l ++ [s])[i]?.any p) :
    l[i]?.any p ∨ i = l.length ∧ p s := by
  rw [List.getElem?_append] at h
  split at h
  case isTrue  => exact .inl h
  case isFalse =>
    by_cases hi : i = l.length
    case pos => simpa [hi] using h
    case neg =>
      have hn : i - l.length ≠ 0 := by omega
      simp [hn] at h

theorem subscribed_cancelled : c.cancelled[i]?.any (·.subscribed) ↔ c.subscribed i ∧ c.sub ≠ some i := by
  unfold cancelled
  cases c.sub
  case none => simp [subscribed]
  case some j =>
    rw [Option.elim_some, any_modify]
    by_cases h : j = i <;> simp [h, subscribed]

theorem isOpen_cancelled : c.cancelled[i]?.any (·.isOpen) = c.isOpen i := by
  unfold cancelled
  cases c.sub
  case none   => rfl
  case some j =>
    rw [Option.elim_some, any_modify]
    split <;> rfl

theorem isOpen_closed : c.closed[i]?.any (·.isOpen) ↔ c.isOpen i ∧ c.socket ≠ some i := by
  unfold closed
  cases c.socket
  case none => simp [isOpen]
  case some j =>
    rw [Option.elim_some, any_modify]
    by_cases h : j = i <;> simp [h, isOpen]

theorem subscribed_closed : c.closed[i]?.any (·.subscribed) = c.subscribed i := by
  unfold closed
  cases c.socket
  case none   => rfl
  case some j =>
    rw [Option.elim_some, any_modify]
    split <;> rfl

namespace Sole

theorem new : Sole new where
  subscribed := nofun
  isOpen     := nofun
  carried    := nofun

theorem «open» (h : c.Sole) : c.open.Sole := by
  unfold PlazaClient.open
  split
  case isTrue  => exact h
  case isFalse => exact ⟨h.subscribed, h.isOpen, h.carried⟩

theorem scheduleRetry (h : c.Sole) : (c.scheduleRetry g).Sole := by
  unfold PlazaClient.scheduleRetry
  split
  case isTrue => exact h
  case isFalse =>
    split
    case isTrue  => exact ⟨h.subscribed, h.isOpen, h.carried⟩
    case isFalse => exact ⟨h.subscribed, h.isOpen, h.carried⟩

theorem start (h : c.Sole) : c.start.Sole := by
  have hs : { c with stopped := false }.Sole := {
    subscribed := fun i hi => by have := h.subscribed i hi; simp_all
    isOpen     := fun i hi => by have := h.isOpen i hi; simp_all
    carried    := h.carried
  }
  exact hs.open

theorem resume (h : c.Sole) : c.resume.Sole := by
  unfold PlazaClient.resume
  split
  case isTrue => exact h
  case isFalse =>
    split
    case isTrue => exact h
    case isFalse =>
      have hs : { c with resuming := true, retryTimer := false, attempt := 0 }.Sole :=
        ⟨h.subscribed, h.isOpen, h.carried⟩
      exact hs.open

theorem sendFrame (h : c.Sole) : c.sendFrame.Sole := by
  unfold PlazaClient.sendFrame
  split
  case h_1 => exact h
  case h_2 i hi =>
    split
    case isFalse => exact h
    case isTrue =>
      refine ⟨h.subscribed, h.isOpen, ?_⟩
      simpa [or_imp, forall_and, hi] using h.carried

theorem failed (h : c.Sole) : (c.failed g).Sole := by
  have hs : { c with opening := c.opening - 1 }.Sole := ⟨h.subscribed, h.isOpen, h.carried⟩
  simp only [PlazaClient.failed]
  split
  case isTrue  => exact hs
  case isFalse => exact hs.scheduleRetry

-- A socket that comes when there is none takes up both places.
theorem connected {isOpen : Bool} {closeCode : Option Int} (h : c.Sole)
    (ho : c.Orderly (.connected isOpen closeCode)) : (c.connected g isOpen closeCode).Sole := by
  simp only [PlazaClient.connected]
  split
  case isTrue hs =>
    exact {
      subscribed i hi := (any_concat hi).elim (h.subscribed i) fun hi => absurd hi.right nofun
      isOpen i hi     := (any_concat hi).elim (h.isOpen i) fun hi => absurd hi.right nofun
      carried         := h.carried
    }
  case isFalse hs =>
    have ⟨hn, hb, hk⟩ := ho.resolve_left hs
    exact {
      subscribed i hi := by
        cases any_concat hi
        case inl hi => exact absurd (h.subscribed i hi).left (by simp [hn])
        case inr hi => exact ⟨congrArg some hi.left.symm, congrArg some hi.left.symm, hs, hb, hk⟩
      isOpen i hi     := by
        cases any_concat hi
        case inl hi => exact absurd (h.isOpen i hi).left (by simp [hn])
        case inr hi => exact ⟨congrArg some hi.left.symm, hk, fun h => absurd h hs⟩
      carried         := by
        intro frame hf
        cases List.mem_append.mp hf
        case inl hf => exact h.carried frame hf
        case inr hf => rw [List.eq_of_mem_replicate hf]
    }

theorem onFrame {frame : Frame} (h : c.Sole) (hi : c.subscribed i) : (c.onFrame i frame).Sole := by
  have hs : { c with carried := c.carried ++ [(i, c.socket)] }.Sole := by
    refine ⟨h.subscribed, h.isOpen, ?_⟩
    simpa [or_imp, forall_and, (h.subscribed i hi).left] using h.carried
  cases frame
  case goodbye code => exact ⟨hs.subscribed, hs.isOpen, hs.carried⟩
  case ping         => exact hs.sendFrame
  case other        => exact hs

-- The event of the only listener ends what there is.
theorem onClosed (h : c.Sole) (ho : ∀ i, ¬c.isOpen i) : (c.onClosed g).Sole := by
  have hs : { c with sockets := c.cancelled, sub := none, goodbye := none, socket := none }.Sole := {
    subscribed i hi := by
      have ⟨hi, hn⟩ := subscribed_cancelled.mp hi
      exact absurd (h.subscribed i hi).right.left hn
    isOpen i hi     := absurd (isOpen_cancelled ▸ hi) (ho i)
    carried         := h.carried
  }
  simp only [PlazaClient.onClosed]
  split
  case isTrue => exact hs
  case isFalse =>
    split
    case isTrue  => exact ⟨hs.subscribed, hs.isOpen, hs.carried⟩
    case isFalse => exact hs.scheduleRetry

theorem stop (h : c.Sole) : c.stop.Sole where
  subscribed i hi := by
    have ⟨hi, hn⟩ := subscribed_cancelled.mp hi
    exact absurd (h.subscribed i hi).right.left hn
  isOpen i hi     := by
    have ⟨hs, hk, _⟩ := h.isOpen i (isOpen_cancelled ▸ hi)
    exact ⟨hs, by simp [PlazaClient.stop, hk], fun _ => List.mem_cons_self⟩
  carried         := h.carried

theorem stopOn {stopping : Stopping} (h : c.Sole) (hs : stopping ∈ c.stopping) : (c.stopOn stopping).Sole := by
  cases stopping
  case sub =>
    exact {
      subscribed i hi := absurd hs (h.subscribed i (subscribed_closed ▸ hi)).right.right.right.left
      isOpen i hi     := by
        have ⟨hi, hn⟩ := isOpen_closed.mp hi
        exact absurd (h.isOpen i hi).left hn
      carried         := h.carried
    }
  case socket =>
    exact {
      subscribed i hi := absurd hs (h.subscribed i hi).right.right.right.right
      isOpen i hi     := absurd hs (h.isOpen i hi).right.left
      carried         := h.carried
    }
  case ops =>
    refine ⟨fun i hi => ?_, fun i hi => ?_, h.carried⟩
    case refine_1 => simpa [PlazaClient.stopOn, List.mem_erase_of_ne] using h.subscribed i hi
    case refine_2 => simpa [PlazaClient.stopOn, List.mem_erase_of_ne] using h.isOpen i hi
  case pongs =>
    refine ⟨fun i hi => ?_, fun i hi => ?_, h.carried⟩
    case refine_1 => simpa [PlazaClient.stopOn, List.mem_erase_of_ne] using h.subscribed i hi
    case refine_2 => simpa [PlazaClient.stopOn, List.mem_erase_of_ne] using h.isOpen i hi

end Sole

-- The socket that is listened to is the only one that can be open.
theorem Sole.not_isOpen (h : c.Sole) (hi : c.subscribed i) (hn : ¬c.isOpen i) (j : Nat) : ¬c.isOpen j := by
  intro hj
  have he := (h.isOpen j hj).left.symm.trans (h.subscribed i hi).left
  exact hn (Option.some.inj he ▸ hj)

theorem sole_step (h : c.Sole) (ho : c.Orderly step) (hs : (machine g).step c step = some c') : c'.Sole := by
  cases step <;> simp only [machine, Option.some.injEq, Option.ite_none_right_eq_some] at hs
  case start => exact hs ▸ h.start
  case resume => exact hs ▸ h.resume
  case stop => exact hs ▸ h.stop
  case send => exact hs ▸ h.sendFrame
  case retry =>
    have hr : { c with retryTimer := false }.Sole := ⟨h.subscribed, h.isOpen, h.carried⟩
    exact hs.right ▸ hr.open
  case connected => exact hs.right ▸ h.connected ho
  case failed => exact hs.right ▸ h.failed
  case drop i code =>
    obtain ⟨_, rfl⟩ := hs
    exact {
      subscribed j hj := h.subscribed j <| by simpa [PlazaClient.subscribed, any_modify] using hj
      isOpen j hj     := by
        rw [PlazaClient.isOpen, any_modify] at hj
        split at hj
        case isTrue  => simp at hj
        case isFalse => exact h.isOpen j hj
      carried         := h.carried
    }
  case done i =>
    obtain ⟨hi, rfl⟩ := hs
    have ho' : ∀ j, ({ c with sockets := c.sockets.modify i ({ · with subscribed := false }) } : PlazaClient).isOpen j =
        c.isOpen j := by
      intro j
      rw [isOpen, any_modify]
      split <;> rfl
    have hd : Sole { c with sockets := c.sockets.modify i ({ · with subscribed := false }) } := {
      subscribed j hj := by
        rw [subscribed, any_modify] at hj
        split at hj
        case isTrue  => simp at hj
        case isFalse => exact h.subscribed j hj
      isOpen j hj     := h.isOpen j (ho' j ▸ hj)
      carried         := h.carried
    }
    exact hd.onClosed fun j => ho' j ▸ h.not_isOpen hi ho j
  case error i =>
    obtain ⟨hi, rfl⟩ := hs
    exact h.onClosed (h.not_isOpen hi ho)
  case frame i frame => exact hs.right ▸ h.onFrame hs.left
  case stopOn stopping => exact hs.right ▸ h.stopOn hs.left

theorem Sole.oneLive (h : c.Sole) : c.OneLive g where
  single i j _ hi _ hj := Option.some.inj <| (h.subscribed i hi).left.symm.trans (h.subscribed j hj).left
  carried              := h.carried
  superseded i step c' hi hp hs := by
    have hn : ¬c.subscribed i := fun hs => hi (h.subscribed i hs).left
    match hp with
    | .inl he        => simp [machine, he, hn] at hs
    | .inr (.inl he) => simp [machine, he, hn] at hs
    | .inr (.inr ⟨code, he⟩) =>
      simp only [machine, he, Option.ite_none_right_eq_some, Option.some.injEq] at hs
      obtain ⟨_, rfl⟩ := hs
      refine ⟨rfl, rfl, fun j hj => ?_⟩
      have hne : i ≠ j := fun he => hi (he ▸ hj)
      simp [hne]
  stopped hs hn i     := ⟨fun hi => hn ((h.isOpen i hi).right.right hs), fun hi => (h.subscribed i hi).right.right.left hs⟩

-- Orderly steps keep the one socket.
theorem one_live_of_orderly (h : ((machine g).restrict Orderly).Steps new steps c) : c.OneLive g := by
  refine Sole.oneLive (h.preserves (fun {c step c'} hi hs => ?_) Sole.new)
  have ⟨ho, hs⟩ := Machine.restrict_step_iff.mp hs
  exact sole_step hi ho hs

-- The client that its constructor makes by default.
def defaults : PlazaConfig where
  retryOn     := retryUnlessRefused
  maxAttempts := none
  credential  := false

-- A connection that is lost and made again, and then stopped.
theorem one_live_of_orderly_reconnect : ∃ c,
    ((machine defaults).restrict Orderly).Steps new
      [.start, .connected true none, .frame 0 .ping, .drop 0 none, .done 0, .retry, .connected true none, .send, .stop,
        .stopOn .sub, .stopOn .socket] c ∧
    c.OneLive defaults := by
  have hr : (((machine defaults).restrict Orderly).run new
      [.start, .connected true none, .frame 0 .ping, .drop 0 none, .done 0, .retry, .connected true none, .send, .stop,
        .stopOn .sub, .stopOn .socket]).isSome := by decide +kernel
  have ⟨c, hc⟩ := Option.isSome_iff_exists.mp hr
  have hs := Machine.run_eq_some_iff.mp hc
  exact ⟨c, hs, one_live_of_orderly hs⟩

-- A client that is resumed while its first attempt is under way gets two sockets and listens to both.
theorem resumed_while_connecting : ¬∀ g steps c, (machine g).Steps new steps c → c.OneLive g := by
  intro h
  have hr : ((machine defaults).run new [.start, .resume, .connected true none, .connected true none]).any fun c =>
      c.isOpen 0 && c.subscribed 0 && c.isOpen 1 && c.subscribed 1 := by decide +kernel
  have ⟨c, hc, hl⟩ := Option.any_eq_true .. |>.mp hr
  simp only [Bool.and_eq_true] at hl
  have ho := h defaults _ c (Machine.run_eq_some_iff.mp hc)
  exact absurd (ho.single 0 1 hl.left.left.left hl.left.left.right hl.left.right hl.right) nofun

end Plaza.Flutter.PlazaClient
