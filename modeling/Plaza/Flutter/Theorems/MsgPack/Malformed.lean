import Plaza.Flutter.Theorems.MsgPack.Reading

namespace Plaza.Flutter.MsgPack

open Dart (utf8Decode)

variable {b : UInt8} {bytes : List UInt8} {size : Size} {n pending rounds width each : Nat} {t : Token}

theorem texts_zero : texts rounds 0 bytes = [] := by
  cases rounds <;> cases bytes <;> rfl

theorem texts_nil : texts rounds pending [] = [] := by
  cases rounds <;> cases pending <;> rfl

theorem texts_token (ht : token b bytes = some t) :
    texts (rounds + 1) (pending + 1) (b :: bytes) =
      t.text.toList ++ texts rounds (t.nested + pending) t.further := by
  rw [texts, ht]

theorem texts_of_no_token (ht : token b bytes = none) : texts (rounds + 1) (pending + 1) (b :: bytes) = [] := by
  rw [texts, ht]

theorem length_cut {body further : List UInt8} (h : cut n bytes = some (body, further)) :
    further.length ≤ bytes.length := by
  rw [cut] at h
  split at h
  case isTrue  =>
    cases h
    rw [List.length_drop]
    omega
  case isFalse => cases h

theorem length_size_cut {further : List UInt8} (h : size.cut bytes = some (n, further)) :
    further.length ≤ bytes.length := by
  cases size
  case inline => cases h; rfl
  case behind =>
    rw [Size.cut, Option.map_eq_some_iff] at h
    obtain ⟨⟨body, further⟩, hc, he⟩ := h
    cases he
    exact length_cut hc

-- A token leaves fewer bytes than it starts with.
theorem length_token (h : token b bytes = some t) : t.further.length ≤ bytes.length := by
  rw [token, Option.bind_eq_some_iff] at h
  obtain ⟨format, -, h⟩ := h
  cases format <;> simp only [Format.token, Option.bind_eq_bind, Option.bind_eq_some_iff, Prod.exists] at h
  case fixed =>
    obtain ⟨_, _, hc, he⟩ := h
    cases he
    exact length_cut hc
  case text =>
    obtain ⟨_, _, hs, _, _, hc, he⟩ := h
    cases he
    exact (length_cut hc).trans <| length_size_cut hs
  case binary =>
    obtain ⟨_, _, hs, _, _, hc, he⟩ := h
    cases he
    exact (length_cut hc).trans <| length_size_cut hs
  case nested =>
    obtain ⟨_, _, hs, he⟩ := h
    cases he
    exact length_size_cut hs

-- As many rounds as there are bytes are enough, and more of them find nothing else.
theorem texts_eq {rounds' : Nat} (h : bytes.length ≤ rounds) (h' : bytes.length ≤ rounds') :
    texts rounds pending bytes = texts rounds' pending bytes := by
  induction rounds generalizing rounds' pending bytes
  case zero           => rw [List.length_eq_zero_iff.mp (Nat.le_zero.mp h), texts_nil, texts_nil]
  case succ rounds hi =>
    cases pending
    case zero         => rw [texts_zero, texts_zero]
    case succ pending =>
      cases bytes
      case nil          => rw [texts_nil, texts_nil]
      case cons b bytes =>
        obtain _ | rounds' := rounds'
        case zero => cases h'
        case succ =>
          cases ht : token b bytes
          case none   => rw [texts_of_no_token ht, texts_of_no_token ht]
          case some t =>
            have hl := length_token ht
            rw [List.length_cons] at h h'
            rw [texts_token ht, texts_token ht]
            congr 1
            exact hi (by omega) (by omega)

-- All texts among the next values are valid.
def Valid (pending : Nat) (bytes : List UInt8) : Prop :=
  ∀ text ∈ texts bytes.length pending bytes, ValidText text

namespace Valid

theorem zero : Valid 0 bytes := by
  simp [Valid, texts_zero]

theorem nil : Valid pending [] := by
  simp [Valid, texts_nil]

theorem of_no_token (ht : token b bytes = none) : Valid (pending + 1) (b :: bytes) := by
  simp [Valid, texts_of_no_token ht]

theorem of_no_format (hf : format b.toNat = none) : Valid (pending + 1) (b :: bytes) := by
  apply of_no_token
  rw [token, hf, Option.bind_none]

theorem token_iff (ht : token b bytes = some t) :
    Valid (pending + 1) (b :: bytes) ↔
      (∀ text ∈ t.text, ValidText text) ∧ Valid (t.nested + pending) t.further := by
  have he : texts bytes.length (t.nested + pending) t.further =
      texts t.further.length (t.nested + pending) t.further :=
    texts_eq (length_token ht) le_rfl
  simp only [Valid, List.length_cons, texts_token ht, he, List.forall_mem_append, Option.mem_toList, Option.mem_def]

theorem cons_iff :
    Valid (pending + 1) (b :: bytes) ↔
      ∀ t, token b bytes = some t → (∀ text ∈ t.text, ValidText text) ∧ Valid (t.nested + pending) t.further := by
  cases ht : token b bytes
  case none   => simp [of_no_token ht]
  case some t => simp [token_iff ht]

-- The texts behind each kind of format byte.

theorem fixed_iff (hf : format b.toNat = some (.fixed width)) :
    Valid (pending + 1) (b :: bytes) ↔ ∀ c further, cut width bytes = some (c, further) → Valid pending further := by
  rw [cons_iff, token, hf, Option.bind_some, Format.token]
  cases cut width bytes <;> simp [Prod.ext_iff]

theorem single_iff (hf : format b.toNat = some (.fixed 0)) :
    Valid (pending + 1) (b :: bytes) ↔ Valid pending bytes := by
  simp [fixed_iff hf, cut]

theorem text_iff (hf : format b.toNat = some (.text size)) :
    Valid (pending + 1) (b :: bytes) ↔ ∀ n rest, size.cut bytes = some (n, rest) →
      ∀ text further, cut n rest = some (text, further) → ValidText text ∧ Valid pending further := by
  rw [cons_iff, token, hf, Option.bind_some, Format.token]
  obtain _ | ⟨n, rest⟩ := size.cut bytes
  case none => simp
  case some => cases hc : cut n rest <;> simp [hc, Prod.ext_iff]

theorem inline_iff {P : Nat → List UInt8 → Prop} :
    (∀ n' rest, (Size.inline n).cut bytes = some (n', rest) → P n' rest) ↔ P n bytes := by
  simp [Size.cut]

theorem binary_iff (hf : format b.toNat = some (.binary size)) :
    Valid (pending + 1) (b :: bytes) ↔ ∀ n rest, size.cut bytes = some (n, rest) →
      ∀ c further, cut n rest = some (c, further) → Valid pending further := by
  rw [cons_iff, token, hf, Option.bind_some, Format.token]
  obtain _ | ⟨n, rest⟩ := size.cut bytes
  case none => simp
  case some => cases hc : cut n rest <;> simp [hc, Prod.ext_iff]

theorem nested_iff (hf : format b.toNat = some (.nested each size)) :
    Valid (pending + 1) (b :: bytes) ↔
      ∀ n further, size.cut bytes = some (n, further) → Valid (each * n + pending) further := by
  rw [cons_iff, token, hf, Option.bind_some, Format.token]
  cases size.cut bytes <;> simp [Prod.ext_iff]

end Valid

-- What came out of reading tells whether the texts which it came across were valid. `before` is whether the texts
-- ahead are valid, `after` whether the ones behind are.
def Accounts {α : Type} (before : Prop) (after : α → List UInt8 → Prop) : Except Failure (α × Reader) → Prop
  | .ok (v, r)               => before ↔ after v r.rest
  | .error (.msgPackError _) => before
  | .error .formatException  => ¬before
  | .error .exhausted        => True

namespace Accounts

variable {α β : Type} {before before' : Prop} {after : α → List UInt8 → Prop} {x : Except Failure (α × Reader)}
  {r : Reader} {next : Reader → Except Failure (Value × Reader)} {f : Floats}

theorem congr (h : Accounts before after x) (he : before' ↔ before) : Accounts before' after x :=
  propext he ▸ h

theorem bind {k : α × Reader → Except Failure (β × Reader)} {behind : β → List UInt8 → Prop}
    (h : Accounts before after x) (hk : ∀ v r, Accounts (after v r.rest) behind (k (v, r))) :
    Accounts before behind (x >>= k) := by
  obtain e | ⟨v, r⟩ := x
  case ok    => exact (hk v r).congr h
  case error => cases e <;> exact h

theorem map {g : α → β} {behind : β → List UInt8 → Prop} (h : Accounts before (fun v => behind (g v)) x) :
    Accounts before behind (x.map (.map g id)) := by
  obtain e | ⟨v, r⟩ := x
  case ok    => exact h
  case error => cases e <;> exact h

theorem chunk (after : List UInt8 → List UInt8 → Prop) :
    Accounts (∀ c further, cut n r.rest = some (c, further) → after c further) after (r.chunk n) := by
  simp only [Reader.chunk, Reader.need, Reader.take, cut]
  by_cases h : r.rest.length < n
  case pos => simp [h, Accounts, Bind.bind, Except.bind]
  case neg => simp [h, Accounts, Bind.bind, Except.bind, pure, Except.pure, Nat.not_lt.mp h]

theorem behind {after : Nat → List UInt8 → Prop} :
    Accounts (∀ n further, (Size.behind width).cut r.rest = some (n, further) → after n further) after
      (r.uint width) := by
  refine (map <| chunk fun c => after <| BigEndian.value c).congr ?_
  rw [Size.cut]
  cases cut width r.rest <;> simp [Prod.ext_iff]

-- A number which is a value of its own.
theorem fixed {g : Nat → Value} :
    Accounts (∀ c further, cut width r.rest = some (c, further) → Valid pending further) (fun _ => Valid pending)
      (r.uint width |>.map (.map g id)) :=
  map <| map <| chunk _

theorem sint :
    Accounts (∀ c further, cut width r.rest = some (c, further) → Valid pending further) (fun _ => Valid pending)
      (r.sint width |>.map (.map Value.int id)) :=
  map <| map <| map <| chunk _

theorem string :
    Accounts (∀ text further, cut n r.rest = some (text, further) → ValidText text ∧ Valid pending further)
      (fun _ => Valid pending) (r.string n) := by
  refine bind (chunk fun text further => ValidText text ∧ Valid pending further) fun text r => ?_
  dsimp only
  split
  case h_1 hs => simp [Accounts, pure, Except.pure, ValidText, hs]
  case h_2 hs => simp [Accounts, ValidText, hs]

theorem binary :
    Accounts (∀ c further, cut n r.rest = some (c, further) → Valid pending further) (fun _ => Valid pending)
      (r.binary n) :=
  map <| chunk _

variable (hn : ∀ pending r, Accounts (Valid (pending + 1) r.rest) (fun _ => Valid pending) (next r))

include hn in
theorem array : Accounts (Valid (n + pending) r.rest) (fun _ => Valid pending) (r.array next n) := by
  induction n generalizing r
  case zero      => exact (iff_of_eq <| by rw [Nat.zero_add])
  case succ n hi =>
    rw [Nat.add_right_comm]
    exact bind (hn _ r) fun _ r => bind hi fun _ _ => .rfl

include hn in
theorem list :
    Accounts (Valid (1 * n + pending) r.rest) (fun _ => Valid pending) (r.array next n |>.map (.map Value.list id)) := by
  rw [Nat.one_mul]
  exact map <| array hn

include hn in
theorem entries {m : List (Value × Value)} {b : Bool} :
    Accounts (Valid (2 * n + pending) r.rest) (fun _ => Valid pending) (r.map f next m b n) := by
  induction n generalizing r m b
  case zero      => exact (iff_of_eq <| by rw [Nat.mul_zero, Nat.zero_add])
  case succ n hi =>
    have he : 2 * (n + 1) + pending = 2 * n + pending + 1 + 1 := by omega
    rw [he]
    exact bind (hn _ r) fun _ r => bind (hn _ r) fun _ _ => hi


-- By induction on the rounds, with a case for every format byte.
theorem read : Accounts (Valid (pending + 1) r.rest) (fun _ => Valid pending) (read f rounds r) := by
  induction rounds generalizing pending r
  case zero           => trivial
  case succ rounds hi =>
    obtain ⟨i, _ | ⟨b, bytes⟩⟩ := r
    case nil  => exact .nil
    case cons =>
      have hn (pending r) : Accounts (Valid (pending + 1) r.rest) (fun _ => Valid pending) (MsgPack.read f rounds r) :=
        hi
      simp only [MsgPack.read, Reader.u8_cons, Bind.bind, Except.bind]
      split_ifs
      case pos h =>
        exact Valid.single_iff <| if_pos h
      case pos h₁ h =>
        exact Valid.single_iff <| (if_neg h₁).trans <| if_pos h
      case pos h₁ h₂ h =>
        have hf : format b.toNat = some (.text (.inline (b.toNat &&& 0x1f))) :=
          (if_neg h₁).trans <| (if_neg h₂).trans <| if_pos h
        exact string.congr <| (Valid.text_iff hf).trans Valid.inline_iff
      case pos h₁ h₂ h₃ h =>
        have hf : format b.toNat = some (.nested 1 (.inline (b.toNat &&& 0x0f))) :=
          (if_neg h₁).trans <| (if_neg h₂).trans <| (if_neg h₃).trans <| if_pos h
        exact (list hn).congr <| (Valid.nested_iff hf).trans Valid.inline_iff
      case pos h₁ h₂ h₃ h₄ h =>
        have hf : format b.toNat = some (.nested 2 (.inline (b.toNat &&& 0x0f))) :=
          (if_neg h₁).trans <| (if_neg h₂).trans <| (if_neg h₃).trans <| (if_neg h₄).trans <| if_pos h
        exact (entries hn).congr <| (Valid.nested_iff hf).trans Valid.inline_iff
      case neg h₁ h₂ h₃ h₄ h₅ =>
        have hf : format b.toNat = _ :=
          (if_neg h₁).trans <| (if_neg h₂).trans <| (if_neg h₃).trans <| (if_neg h₄).trans <| if_neg h₅
        split at hf
        all_goals
          rename_i hb
          simp only [hb]
          first
            | exact Valid.single_iff hf
            | exact fixed.congr <| Valid.fixed_iff hf
            | exact sint.congr <| Valid.fixed_iff hf
            | exact (bind behind fun _ _ => string).congr <| Valid.text_iff hf
            | exact (bind behind fun _ _ => binary).congr <| Valid.binary_iff hf
            | exact (bind behind fun _ _ => list hn).congr <| Valid.nested_iff hf
            | exact (bind behind fun _ _ => entries hn).congr <| Valid.nested_iff hf
            | exact .of_no_format hf

end Accounts

theorem Reader.Inside.drop {r : Reader} (h : r.Inside bytes) (hn : n ≤ r.rest.length) :
    Reader.Inside { i := r.i + n, rest := r.rest.drop n } bytes where
  i_le    := by
    rw [h.rest_eq, List.length_drop] at hn
    have hi := h.i_le
    dsimp only
    omega
  rest_eq := by
    rw [h.rest_eq, List.drop_drop]

theorem Reader.chunk_ok {r r' : Reader} {c : List UInt8} (h : r.chunk n = .ok (c, r')) :
    n ≤ r.rest.length ∧ c = r.rest.take n ∧ r' = { i := r.i + n, rest := r.rest.drop n } := by
  rw [Reader.chunk, Reader.need] at h
  split at h
  case isTrue     => cases h
  case isFalse hn =>
    cases h
    exact ⟨Nat.not_lt.mp hn, rfl, rfl⟩

-- What holds of the reader behind a value, or else of the failure.
def Ends {α : Type} (P : Reader → Prop) (E : Failure → Prop) : Except Failure (α × Reader) → Prop
  | .ok (_, r) => P r
  | .error e   => E e

namespace Ends

variable {α β : Type} {P : Reader → Prop} {E : Failure → Prop} {x : Except Failure (α × Reader)} {r : Reader}
  {f : Floats} {next : Reader → Except Failure (Value × Reader)}

theorem mono {Q : Reader → Prop} (hp : ∀ r, P r → Q r) (h : Ends P E x) : Ends Q E x := by
  obtain e | ⟨v, r⟩ := x
  case ok    => exact hp r h
  case error => exact h

theorem bind {k : α × Reader → Except Failure (β × Reader)} (h : Ends P E x)
    (hk : ∀ v r, P r → Ends P E (k (v, r))) : Ends P E (x >>= k) := by
  obtain e | ⟨v, r⟩ := x
  case ok    => exact hk v r h
  case error => exact h

theorem map {g : α → β} (h : Ends P E x) : Ends P E (x.map (.map g id)) := by
  obtain e | ⟨v, r⟩ := x
  case ok    => exact h
  case error => exact h

theorem array (hn : ∀ r, P r → Ends P E (next r)) (h : P r) : Ends P E (r.array next n) := by
  induction n generalizing r
  case zero      => exact h
  case succ n hi => exact bind (hn r h) fun _ r h => bind (hi h) fun _ _ h => h

theorem entries {m : List (Value × Value)} {b : Bool} (hn : ∀ r, P r → Ends P E (next r)) (h : P r) :
    Ends P E (r.map f next m b n) := by
  induction n generalizing r m b
  case zero      => exact h
  case succ n hi => exact bind (hn r h) fun _ r h => bind (hn r h) fun _ _ h => hi h

-- What holds of every failure of the source, and what every read keeps.
variable (he : ∀ e, e ≠ .exhausted → E e) (hc : ∀ n r, P r → Ends P E (r.chunk n))

include he in
theorem chunk (hp : n ≤ r.rest.length → P { i := r.i + n, rest := r.rest.drop n }) : Ends P E (r.chunk n) := by
  by_cases hn : r.rest.length < n
  case pos =>
    rw [Reader.chunk, Reader.need, if_pos hn]
    exact he _ Failure.noConfusion
  case neg =>
    rw [Reader.chunk, Reader.need, if_neg hn]
    exact hp <| Nat.not_lt.mp hn

include hc in
theorem uint (h : P r) : Ends P E (r.uint width) :=
  map <| hc width r h

include he hc in
theorem string (h : P r) : Ends P E (r.string n) := by
  refine bind (hc n r h) fun text r h => ?_
  dsimp only
  split
  case h_1 => exact h
  case h_2 => exact he _ Failure.noConfusion

include he hc in
theorem read_succ (hu : Ends P E r.u8) (hn : ∀ r, P r → Ends P E (read f rounds r)) :
    Ends P E (read f (rounds + 1) r) := by
  refine bind hu fun b r h => ?_
  dsimp only
  split_ifs
  case pos => exact h
  case pos => exact h
  case pos => exact string he hc h
  case pos => exact map <| array hn h
  case pos => exact entries hn h
  case neg =>
    split
    all_goals first
      | exact h
      | exact map <| uint hc h
      | exact map <| map <| uint hc h
      | exact bind (uint hc h) fun _ _ h => string he hc h
      | exact bind (uint hc h) fun n r h => map <| hc n r h
      | exact bind (uint hc h) fun _ _ h => map <| array hn h
      | exact bind (uint hc h) fun _ _ h => entries hn h
      | exact he _ Failure.noConfusion

-- By induction on the rounds. What is nested in a value has at least one byte less.
theorem within (h : r.rest.length < rounds) :
    Ends (·.rest.length ≤ r.rest.length) (· ≠ .exhausted) (MsgPack.read f rounds r) := by
  induction rounds generalizing r
  case zero           => omega
  case succ rounds hi =>
    have he (e : Failure) (h : e ≠ .exhausted) : e ≠ .exhausted := h
    have hc (l n) (r : Reader) (hl : r.rest.length ≤ l) : Ends (·.rest.length ≤ l) (· ≠ .exhausted) (r.chunk n) :=
      chunk he fun _ => (List.length_drop ▸ Nat.sub_le ..).trans hl
    obtain ⟨i, _ | ⟨b, bytes⟩⟩ := r
    case nil  => exact Failure.noConfusion
    case cons =>
      rw [List.length_cons] at h
      have hl : Ends (·.rest.length ≤ bytes.length) (· ≠ .exhausted)
          (MsgPack.read f (rounds + 1) ⟨i, b :: bytes⟩) := by
        refine read_succ he (hc _) ?_ fun r hr => (hi (by omega)).mono fun _ h => h.trans hr
        rw [Reader.u8_cons]
        exact le_rfl
      exact hl.mono fun _ h => h.trans <| Nat.le_succ _

theorem inside (h : r.Inside bytes) :
    Ends (fun r' => r.i ≤ r'.i ∧ r'.Inside bytes) (fun _ => True) (MsgPack.read f rounds r) := by
  have he (e : Failure) (_ : e ≠ .exhausted) : True := trivial
  have hc (n) (r' : Reader) (h : r.i ≤ r'.i ∧ r'.Inside bytes) :
      Ends (fun r' => r.i ≤ r'.i ∧ r'.Inside bytes) (fun _ => True) (r'.chunk n) :=
    chunk he fun hn => ⟨h.left.trans <| Nat.le_add_right .., h.right.drop hn⟩
  have hr (r' : Reader) (h : r.i ≤ r'.i ∧ r'.Inside bytes) :
      Ends (fun r' => r.i ≤ r'.i ∧ r'.Inside bytes) (fun _ => True) (MsgPack.read f rounds r') := by
    induction rounds generalizing r'
    case zero           => trivial
    case succ rounds hi => exact read_succ he hc (uint hc h) hi
  exact hr r ⟨le_rfl, h⟩

end Ends

theorem readFirst_not_exhausted {f : Floats} : readFirst f bytes ≠ .error .exhausted := by
  have h : Ends _ (· ≠ .exhausted) (readFirst f bytes) := .within <| Nat.lt_succ_self _
  intro he
  rw [he] at h
  exact h rfl

theorem msgPackDecode_of_ok {f : Floats} {v : Value} {r : Reader} (h : readFirst f bytes = .ok (v, r)) :
    (∃ v, msgPackDecode f bytes = .ok v) ∨ ∃ m, msgPackDecode f bytes = .error (.msgPackError m) := by
  simp only [msgPackDecode, h, bind, Except.bind]
  split
  case isTrue  => exact .inr ⟨_, rfl⟩
  case isFalse => exact .inl ⟨v, rfl⟩

theorem msgPackDecode_of_error {f : Floats} {e : Failure} (h : readFirst f bytes = .error e) :
    msgPackDecode f bytes = .error e := by
  rw [msgPackDecode, h]
  rfl

theorem outcome_iff {f : Floats} :
    ((∃ v, msgPackDecode f bytes = .ok v) ∨ ∃ m, msgPackDecode f bytes = .error (.msgPackError m)) ↔
      Valid 1 bytes := by
  have ha : Accounts (Valid 1 bytes) (fun _ => Valid 0) (readFirst f bytes) := .read
  cases hr : readFirst f bytes
  case ok p =>
    rw [hr] at ha
    exact iff_of_true (msgPackDecode_of_ok hr) <| ha.mpr .zero
  case error e =>
    rw [hr] at ha
    rw [msgPackDecode_of_error hr]
    cases e
    case msgPackError m  => exact iff_of_true (.inr ⟨m, rfl⟩) ha
    case formatException => exact iff_of_false (by simp) ha
    case exhausted       => exact absurd hr readFirst_not_exhausted

-- The library's exception gets through wherever a text of a size which fits is not valid, and nowhere else.
theorem guarded_iff (f : Floats) (bytes : List UInt8) :
    Guarded f bytes ↔ ∀ text ∈ textsIn bytes, ValidText text := by
  constructor
  case mp  => exact fun h => outcome_iff.mp h.outcome
  case mpr =>
    intro h
    exact {
      outcome := outcome_iff.mpr h
      first   := { i_le := Nat.zero_le _, rest_eq := rfl }
      chunk   := by
        intro r n c r' hi hc
        obtain ⟨hn, rfl, rfl⟩ := Reader.chunk_ok hc
        have hl := (hi.drop hn).i_le
        exact ⟨hl, by rw [hi.rest_eq], rfl, hi.drop hn⟩
      value   := by
        intro rounds r v r' hi hv
        have hr : Ends _ _ (read f rounds r) := .inside hi
        rwa [hv] at hr
    }

theorem text_lets_formatException_through :
    ¬∀ f bytes, (∃ v, msgPackDecode f bytes = .ok v) ∨ ∃ m, msgPackDecode f bytes = .error (.msgPackError m) := by
  intro h
  have he : msgPackDecode ⟨fun _ => 0, fun _ _ => false⟩ [0xa1, 0xff] = .error .formatException := rfl
  rcases he ▸ h ⟨fun _ => 0, fun _ _ => false⟩ [0xa1, 0xff] with ⟨_, h⟩ | ⟨_, h⟩ <;> cases h

end Plaza.Flutter.MsgPack
