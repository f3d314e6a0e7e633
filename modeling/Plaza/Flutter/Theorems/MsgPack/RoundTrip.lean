import Plaza.Flutter.Theorems.MsgPack.Reading

namespace Plaza.Flutter.MsgPack

open Dart (Word utf8Encode utf8Decode Marked dropMark)

variable {f : Floats} {v : Value} {vs : List Value} {k : Value} {m es : List (Value × Value)} {i rounds : Nat}
  {further : List UInt8} {b : Bool}

-- A map with the entries added one after the other, and copied if all keys are strings.
def assignAll (f : Floats) (m es : List (Value × Value)) : List (Value × Value) :=
  es.foldl (fun m e => assign f m e.fst e.snd) m

def collect (f : Floats) (m : List (Value × Value)) (allStrings : Bool) (es : List (Value × Value)) :
    List (Value × Value) :=
  let m := assignAll f m es
  if allStrings && es.all (·.fst.isString) then assignAll f [] m else m

mutual

-- What a value is once it was written and read.
def decoded (f : Floats) : Value → Value
  | .null        => .null
  | .bool b      => .bool b
  | .int v       => .int v
  | .double bits => .double bits
  | .string s    => .string (dropMark s)
  | .bytes v     => .bytes v
  | .list vs     => .list (decodedAll f vs)
  | .map es      => .map (collect f [] true (decodedEntries f es))

def decodedAll (f : Floats) : List Value → List Value
  | []      => []
  | v :: vs => decoded f v :: decodedAll f vs

def decodedEntries (f : Floats) : List (Value × Value) → List (Value × Value)
  | []           => []
  | (k, v) :: es => (decoded f k, decoded f v) :: decodedEntries f es

end

theorem Header.written_length_pos {h : Header} (hf : h.Fits) : 0 < h.written.length := by
  rw [Header.written_eq hf]
  cases h <;> simp only [Header.chosen] <;> split_ifs <;> simp

theorem Reader.string_utf8Encode {s : String} :
    string { i, rest := utf8Encode s ++ further } (utf8Encode s).length =
      .ok (.string (dropMark s), { i := i + (utf8Encode s).length, rest := further }) := by
  simp [string, bind, Except.bind, Dart.utf8Decode_utf8Encode, pure, Except.pure]

theorem Reader.binary_append {bytes : List UInt8} :
    binary { i, rest := bytes ++ further } bytes.length =
      .ok (.bytes bytes, { i := i + bytes.length, rest := further }) := by
  simp [binary, Except.map]

theorem collect_cons {e : Value × Value} :
    collect f m b (e :: es) = collect f (assign f m e.fst e.snd) (b && e.fst.isString) es := by
  rw [collect, collect, List.all_cons, Bool.and_assoc]
  rfl

theorem collect_nil : collect f m b [] = if b then assignAll f [] m else m := by
  simp [collect, assignAll]

theorem length_write_pos : 0 < (write v).length := by
  cases v <;> simp only [write, int, str, strHeader, bin, binHeader, len] <;> (try split_ifs) <;> simp

-- A header takes one of the rounds.
theorem read_header (h : Header) (i : Nat) (further : List UInt8) {body : List UInt8} (hf : h.Fits) (hw : write v = h.written ++ body)
    (hr : (write v).length ≤ rounds + 1) :
    body.length ≤ rounds ∧ read f (rounds + 1) { i, rest := write v ++ further } =
      afterHeader f rounds { i := i + h.written.length, rest := body ++ further } h := by
  have hl := Header.written_length_pos hf
  rw [hw, List.length_append] at hr
  exact ⟨by omega, by rw [hw, List.append_assoc, read_written hf]⟩

mutual

-- By induction on the value, with as many rounds as there are bytes.
theorem read_write (v : Value) (hs : v.Supported f) (i : Nat) (further : List UInt8) (rounds : Nat)
    (hr : (write v).length ≤ rounds) :
    read f rounds { i, rest := write v ++ further } =
      .ok (decoded f v, { i := i + (write v).length, rest := further }) := by
  have hp := length_write_pos (v := v)
  obtain ⟨rounds, rfl⟩ : ∃ k, rounds = k + 1 := ⟨rounds - 1, by omega⟩
  match v, hs with
  | .null,        _ => rfl
  | .bool true,   _ => rfl
  | .bool false,  _ => rfl
  | .int v,       _ => exact read_int
  | .double bits, _ =>
    have hb : read f (rounds + 1) { i, rest := write (.double bits) ++ further } =
        (Reader.uint { i := i + 1, rest := be 8 bits.toNat ++ further } 8).map
          (.map (fun n => .double <| .ofNat 64 n) id) := rfl
    rw [hb, Reader.uint_be bits.isLt]
    simp [Except.map, decoded, write]
  | .string s, hs =>
    have ⟨_, hh⟩ := read_header (f := f) (.string (utf8Encode s).length) i further hs rfl hr
    rw [hh, afterHeader, Reader.string_utf8Encode, decoded, write, str, List.length_append, Nat.add_assoc]
    rfl
  | .bytes v, hs =>
    have ⟨_, hh⟩ := read_header (f := f) (.binary v.length) i further hs rfl hr
    rw [hh, afterHeader, Reader.binary_append, decoded, write, bin, List.length_append, Nat.add_assoc]
    rfl
  | .list vs, hs =>
    have ⟨hl, hh⟩ := read_header (f := f) (.array vs.length) i further hs.left rfl hr
    rw [hh, afterHeader, array_writeAll vs hs.right _ further rounds hl, decoded, write, List.length_append,
      Nat.add_assoc]
    rfl
  | .map es, hs =>
    have ⟨hl, hh⟩ := read_header (f := f) (.map es.length) i further hs.left rfl hr
    rw [hh, afterHeader, map_writeEntries es hs.right.right _ further [] true rounds hl, decoded, write,
      List.length_append, Nat.add_assoc]
    rfl

theorem array_writeAll (vs : List Value) (hs : Value.AllSupported f vs) (i : Nat) (further : List UInt8)
    (rounds : Nat) (hr : (writeAll vs).length ≤ rounds) :
    Reader.array (read f rounds) { i, rest := writeAll vs ++ further } vs.length =
      .ok (decodedAll f vs, { i := i + (writeAll vs).length, rest := further }) := by
  match vs, hs with
  | [],      _  => rfl
  | v :: vs, hs =>
    simp only [writeAll, List.length_append] at hr
    have hv := read_write v hs.left i (writeAll vs ++ further) rounds (by omega)
    have hvs := array_writeAll vs hs.right (i + (write v).length) further rounds (by omega)
    simp only [writeAll, List.append_assoc, List.length_cons, Reader.array, bind, Except.bind, hv, hvs, pure,
      Except.pure, decodedAll, List.length_append, Nat.add_assoc]

theorem map_writeEntries (es : List (Value × Value)) (hs : Value.EntriesSupported f es) (i : Nat)
    (further : List UInt8) (m : List (Value × Value)) (b : Bool) (rounds : Nat)
    (hr : (writeEntries es).length ≤ rounds) :
    Reader.map f (read f rounds) m b { i, rest := writeEntries es ++ further } es.length =
      .ok (.map (collect f m b (decodedEntries f es)), { i := i + (writeEntries es).length, rest := further }) := by
  match es, hs with
  | [],           _  =>
    rw [decodedEntries, collect_nil]
    rfl
  | (k, v) :: es, hs =>
    simp only [writeEntries, List.length_append] at hr
    have hk := read_write k hs.left i (write v ++ (writeEntries es ++ further)) rounds (by omega)
    have hv := read_write v hs.right.left (i + (write k).length) (writeEntries es ++ further) rounds (by omega)
    have hes := map_writeEntries es hs.right.right (i + (write k).length + (write v).length) further
      (assign f m (decoded f k) (decoded f v)) (b && (decoded f k).isString) rounds (by omega)
    simp only [writeEntries, List.append_assoc, List.length_cons, Reader.map, bind, Except.bind, hk, hv, hes,
      decodedEntries, collect_cons, List.length_append]
    simp only [Nat.add_assoc]

end

-- Two keys of a map differ, so that each of them adds an entry.
theorem assign_append (h : ∀ e ∈ m, ¬equals f e.fst k) : assign f m k v = m ++ [(k, v)] := by
  induction m
  case nil => rfl
  case cons e m hi =>
    have ⟨he, h⟩ := List.forall_mem_cons.mp h
    rw [assign, if_neg he, hi h, List.cons_append]

theorem assignAll_append (h : (m ++ es).Pairwise (¬equals f ·.fst ·.fst)) : assignAll f m es = m ++ es := by
  induction es generalizing m
  case nil => simp [assignAll]
  case cons e es hi =>
    have he : ∀ e' ∈ m, ¬equals f e'.fst e.fst := fun e' he' => (List.pairwise_append.mp h).right.right e' he' e (.head _)
    rw [List.append_cons] at h
    have hc : assignAll f m (e :: es) = assignAll f (assign f m e.fst e.snd) es := rfl
    rw [hc, assign_append he, hi h, List.append_assoc, List.singleton_append]

theorem collect_of_pairwise (h : es.Pairwise (¬equals f ·.fst ·.fst)) : collect f [] b es = es := by
  have ha : assignAll f [] es = es := assignAll_append h
  rw [collect, ha, ha, ite_self]

mutual

theorem decoded_eq (v : Value) (hs : v.Supported f) (hu : v.Unmarked) : decoded f v = v := by
  match v, hs, hu with
  | .null,     _,  _  => rfl
  | .bool _,   _,  _  => rfl
  | .int _,    _,  _  => rfl
  | .double _, _,  _  => rfl
  | .bytes _,  _,  _  => rfl
  | .string s, _,  hu => rw [decoded, Dart.dropMark_of_not_marked hu]
  | .list vs,  hs, hu => rw [decoded, decodedAll_eq vs hs.right hu]
  | .map es,   hs, hu => rw [decoded, decodedEntries_eq es hs.right.right hu, collect_of_pairwise hs.right.left]

theorem decodedAll_eq (vs : List Value) (hs : Value.AllSupported f vs) (hu : Value.AllUnmarked vs) :
    decodedAll f vs = vs := by
  match vs, hs, hu with
  | [],      _,  _  => rfl
  | v :: vs, hs, hu => rw [decodedAll, decoded_eq v hs.left hu.left, decodedAll_eq vs hs.right hu.right]

theorem decodedEntries_eq (es : List (Value × Value)) (hs : Value.EntriesSupported f es)
    (hu : Value.EntriesUnmarked es) : decodedEntries f es = es := by
  match es, hs, hu with
  | [],           _,  _  => rfl
  | (k, v) :: es, hs, hu =>
    rw [decodedEntries, decoded_eq k hs.left hu.left, decoded_eq v hs.right.left hu.right.left,
      decodedEntries_eq es hs.right.right hu.right.right]

end

end Plaza.Flutter.MsgPack

namespace Plaza.Flutter.MsgPack

open Dart (utf8Encode Marked dropMark)

variable {f : Floats} {k v v' : Value} {vs vs' : List Value} {m es es' : List (Value × Value)} {b : Bool}
  {h : Header}

namespace Value

mutual

-- How many characters a value has in all of its strings.
def weight : Value → Nat
  | string s => s.length
  | list vs  => weightAll vs
  | map es   => weightEntries es
  | _        => 0

def weightAll : List Value → Nat
  | []      => 0
  | v :: vs => weight v + weightAll vs

def weightEntries : List (Value × Value) → Nat
  | []           => 0
  | (k, v) :: es => weight k + (weight v + weightEntries es)

end

theorem weightEntries_append : weightEntries (es ++ es') = weightEntries es + weightEntries es' := by
  induction es
  case nil          => simp [weightEntries]
  case cons e es hi =>
    simp only [List.cons_append, weightEntries, hi]
    omega

theorem weightEntries_assign_le : weightEntries (assign f m k v) ≤ weightEntries m + (weight k + weight v) := by
  induction m
  case nil         => simp [assign, weightEntries]
  case cons e m hi =>
    rw [assign]
    split
    case isTrue  => simp only [weightEntries]; omega
    case isFalse => simp only [weightEntries]; omega

theorem weightEntries_assignAll_le : weightEntries (assignAll f m es) ≤ weightEntries m + weightEntries es := by
  induction es generalizing m
  case nil          => simp [assignAll, weightEntries]
  case cons e es hi =>
    have ha : weightEntries (assign f m e.fst e.snd) ≤ weightEntries m + (weight e.fst + weight e.snd) :=
      weightEntries_assign_le
    have hi := @hi (assign f m e.fst e.snd)
    have hc : assignAll f m (e :: es) = assignAll f (assign f m e.fst e.snd) es := rfl
    simp only [hc, weightEntries]
    omega

-- Entries can be lost to others with the same key, but none are added.
theorem weightEntries_collect_le : weightEntries (collect f [] b es) ≤ weightEntries es := by
  have ha : weightEntries (assignAll f [] es) ≤ 0 + weightEntries es := weightEntries_assignAll_le
  have hb : weightEntries (assignAll f [] (assignAll f [] es)) ≤ 0 + weightEntries (assignAll f [] es) :=
    weightEntries_assignAll_le
  rw [collect]
  split <;> omega

mutual

theorem weight_decoded_le (v : Value) : weight (decoded f v) ≤ weight v := by
  match v with
  | .null     => rfl
  | .bool _   => rfl
  | .int _    => rfl
  | .double _ => rfl
  | .bytes _  => rfl
  | .string s => exact Dart.length_dropMark_le
  | .list vs  => exact weightAll_decoded_le vs
  | .map es   => exact weightEntries_collect_le.trans <| weightEntries_decoded_le es

theorem weightAll_decoded_le (vs : List Value) : weightAll (decodedAll f vs) ≤ weightAll vs := by
  match vs with
  | []      => rfl
  | v :: vs => exact Nat.add_le_add (weight_decoded_le v) (weightAll_decoded_le vs)

theorem weightEntries_decoded_le (es : List (Value × Value)) :
    weightEntries (decodedEntries f es) ≤ weightEntries es := by
  match es with
  | []           => rfl
  | (k, v) :: es =>
    exact Nat.add_le_add (weight_decoded_le k) <| Nat.add_le_add (weight_decoded_le v) (weightEntries_decoded_le es)

end

mutual

-- A mark is a character that is lost.
theorem weight_decoded_lt (v : Value) (h : ¬v.Unmarked) : weight (decoded f v) < weight v := by
  match v, h with
  | .null,     h => exact absurd trivial h
  | .bool _,   h => exact absurd trivial h
  | .int _,    h => exact absurd trivial h
  | .double _, h => exact absurd trivial h
  | .bytes _,  h => exact absurd trivial h
  | .string s, h => exact Dart.length_dropMark_lt <| not_not.mp h
  | .list vs,  h => exact weightAll_decoded_lt vs h
  | .map es,   h => exact weightEntries_collect_le.trans_lt <| weightEntries_decoded_lt es h

theorem weightAll_decoded_lt (vs : List Value) (h : ¬AllUnmarked vs) :
    weightAll (decodedAll f vs) < weightAll vs := by
  match vs, h with
  | [],      h => exact absurd trivial h
  | v :: vs, h =>
    by_cases hv : v.Unmarked
    case pos => exact Nat.add_lt_add_of_le_of_lt (weight_decoded_le v) (weightAll_decoded_lt vs fun hs => h ⟨hv, hs⟩)
    case neg => exact Nat.add_lt_add_of_lt_of_le (weight_decoded_lt v hv) (weightAll_decoded_le vs)

theorem weightEntries_decoded_lt (es : List (Value × Value)) (h : ¬EntriesUnmarked es) :
    weightEntries (decodedEntries f es) < weightEntries es := by
  match es, h with
  | [],           h => exact absurd trivial h
  | (k, v) :: es, h =>
    have hkl := weight_decoded_le (f := f) k
    have hvl := weight_decoded_le (f := f) v
    have hel := weightEntries_decoded_le (f := f) es
    simp only [decodedEntries, weightEntries]
    by_cases hk : k.Unmarked
    case neg =>
      have := weight_decoded_lt k hk
      omega
    case pos =>
      by_cases hv : v.Unmarked
      case neg =>
        have := weight_decoded_lt v hv
        omega
      case pos =>
        have := weightEntries_decoded_lt es fun hs => h ⟨hk, hv, hs⟩
        omega

end

theorem weight_eq (h : DeepEq v v') : weight v = weight v' := by
  refine @DeepEq.rec (fun v v' _ => weight v = weight v') (fun vs vs' _ => weightAll vs = weightAll vs')
    (fun es es' _ => weightEntries es = weightEntries es') ?refl ?list ?map ?nil ?cons ?none ?entry v v' h
  case refl  => exact rfl
  case list  => exact fun _ hi => hi
  case map   => exact fun _ hi => hi
  case nil   => rfl
  case cons  => exact fun _ _ hv hvs => by rw [weightAll, weightAll, hv, hvs]
  case none  => rfl
  case entry =>
    intro k k' v v' es es₁ es₂ _ _ _ hk hv hes
    simp only [weightEntries, weightEntries_append] at hes ⊢
    omega

end Value

mutual

theorem write_eq_pieces (v : Value) : write v = v.pieces.flatMap (·.bytes) := by
  match v with
  | .null     => rfl
  | .bool _   => rfl
  | .double _ => rfl
  | .int v    => exact (List.append_nil _).symm
  | .string s => rw [write, str, Value.pieces, List.flatMap_cons, List.flatMap_cons, List.flatMap_nil, List.append_nil]; rfl
  | .bytes v  => rw [write, bin, Value.pieces, List.flatMap_cons, List.flatMap_cons, List.flatMap_nil, List.append_nil]; rfl
  | .list vs  => rw [write, writeAll_eq_pieces vs, Value.pieces, List.flatMap_cons]; rfl
  | .map es   => rw [write, writeEntries_eq_pieces es, Value.pieces, List.flatMap_cons]; rfl

theorem writeAll_eq_pieces (vs : List Value) : writeAll vs = (Value.allPieces vs).flatMap (·.bytes) := by
  match vs with
  | []      => rfl
  | v :: vs => rw [writeAll, Value.allPieces, List.flatMap_append, write_eq_pieces v, writeAll_eq_pieces vs]

theorem writeEntries_eq_pieces (es : List (Value × Value)) :
    writeEntries es = (Value.entryPieces es).flatMap (·.bytes) := by
  match es with
  | []           => rfl
  | (k, v) :: es =>
    rw [writeEntries, Value.entryPieces, List.flatMap_append, List.flatMap_append, write_eq_pieces k,
      write_eq_pieces v, writeEntries_eq_pieces es]

end

mutual

theorem fits_of_mem_pieces (v : Value) (hs : v.Supported f) (hm : .header h ∈ v.pieces) : h.Fits := by
  match v, hs with
  | .null,     _  => simp [Value.pieces] at hm
  | .bool _,   _  => simp [Value.pieces] at hm
  | .double _, _  => simp [Value.pieces] at hm
  | .int _,    _  =>
    cases List.mem_singleton.mp hm
    trivial
  | .string s, hs =>
    simp only [Value.pieces, List.mem_cons, Piece.header.injEq, reduceCtorEq, List.not_mem_nil, or_false] at hm
    exact hm ▸ hs
  | .bytes v,  hs =>
    simp only [Value.pieces, List.mem_cons, Piece.header.injEq, reduceCtorEq, List.not_mem_nil, or_false] at hm
    exact hm ▸ hs
  | .list vs,  hs =>
    cases hm
    case head      => exact hs.left
    case tail _ hm => exact fits_of_mem_allPieces vs hs.right hm
  | .map es,   hs =>
    cases hm
    case head      => exact hs.left
    case tail _ hm => exact fits_of_mem_entryPieces es hs.right.right hm

theorem fits_of_mem_allPieces (vs : List Value) (hs : Value.AllSupported f vs)
    (hm : .header h ∈ Value.allPieces vs) : h.Fits := by
  match vs, hs with
  | [],      _  => nomatch hm
  | v :: vs, hs =>
    cases List.mem_append.mp hm
    case inl hm => exact fits_of_mem_pieces v hs.left hm
    case inr hm => exact fits_of_mem_allPieces vs hs.right hm

theorem fits_of_mem_entryPieces (es : List (Value × Value)) (hs : Value.EntriesSupported f es)
    (hm : .header h ∈ Value.entryPieces es) : h.Fits := by
  match es, hs with
  | [],           _  => nomatch hm
  | (k, v) :: es, hs =>
    obtain hm | hm := List.mem_append.mp hm
    · exact fits_of_mem_pieces k hs.left hm
    obtain hm | hm := List.mem_append.mp hm
    · exact fits_of_mem_pieces v hs.right.left hm
    · exact fits_of_mem_entryPieces es hs.right.right hm

end

theorem readFirst_encode (hs : v.Supported f) (further : List UInt8) :
    readFirst f (msgPackEncode v ++ further) =
      .ok (decoded f v, { i := (msgPackEncode v).length, rest := further }) := by
  rw [readFirst, msgPackEncode, read_write v hs 0 further _ (by rw [List.length_append]; omega), Nat.zero_add]

theorem msgPackDecode_encode (hs : v.Supported f) : msgPackDecode f (msgPackEncode v) = .ok (decoded f v) := by
  have h := readFirst_encode hs []
  rw [List.append_nil] at h
  simp [msgPackDecode, h, bind, Except.bind, pure, Except.pure]

-- What is encoded is faithful exactly if no string in it starts with a byte order mark, which the reader takes
-- as part of the encoding.
theorem faithful_iff_unmarked (f : Floats) (v : Value) (hs : v.Supported f) : Faithful f v ↔ v.Unmarked := by
  constructor
  case mp  =>
    intro h
    by_contra hu
    obtain ⟨v', hd, he⟩ := h.decodes
    rw [msgPackDecode_encode hs] at hd
    cases hd
    exact (Value.weight_decoded_lt v hu).ne (Value.weight_eq he)
  case mpr =>
    intro hu
    have hd : DeepEq (decoded f v) v := by
      rw [decoded_eq v hs hu]
      exact .refl
    constructor
    case decodes  => exact ⟨_, msgPackDecode_encode hs, hd⟩
    case stops    => exact fun further => ⟨_, hd, readFirst_encode hs further⟩
    case pieces   => exact write_eq_pieces v
    case shortest => exact fun h hm => Header.shortest <| fits_of_mem_pieces v hs hm

-- A value without doubles does not depend on them.
theorem faithful_pair :
    Faithful { widen := fun _ => 0, equals := fun _ _ => false }
      (.map [(.string "id", .int 300), (.int (-5), .list [.null, .bytes [1, 2]])]) := by
  have hl : (utf8Encode "id").length < 2 ^ 32 := by decide
  have hb : ([1, 2] : List UInt8).length < 2 ^ 32 := by decide
  have hm : ¬Marked "id" := by decide
  apply (faithful_iff_unmarked _ _ ?_).mpr
  · exact ⟨hm, trivial, trivial, ⟨trivial, trivial, trivial⟩, trivial⟩
  · refine ⟨by decide, ?_, hl, trivial, trivial, ⟨by decide, trivial, hb, trivial⟩, trivial⟩
    simp [equals]

-- The mark at the start of the string is gone, although the string is an ordinary one.
theorem mark_lost :
    Value.Supported { widen := fun _ => 0, equals := fun _ _ => false } (.string "\uFEFFid") ∧
      ¬Faithful { widen := fun _ => 0, equals := fun _ _ => false } (.string "\uFEFFid") := by
  have hs : Value.Supported { widen := fun _ => 0, equals := fun _ _ => false } (.string "\uFEFFid") :=
    (by decide : (utf8Encode "\uFEFFid").length < 2 ^ 32)
  refine ⟨hs, fun h => ?_⟩
  obtain ⟨v', hd, he⟩ := h.decodes
  rw [msgPackDecode_encode hs] at hd
  cases hd
  have hm : ¬Value.Unmarked (.string "\uFEFFid") := not_not.mpr (by decide : Marked "\uFEFFid")
  exact (Value.weight_decoded_lt _ hm).ne (Value.weight_eq he)

end Plaza.Flutter.MsgPack
