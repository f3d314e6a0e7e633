import Mathlib.Tactic.Positivity
import Mathlib.Tactic.Zify
import Plaza.Flutter.MsgPack

namespace Plaza.Flutter.MsgPack

open Dart (Word)

variable {form : Form} {h : Header} {v : Word} {width n : Nat} {x low high : Int}
  {first : UInt8}

namespace Form

@[simp]
theorem length_fix : ((fix n low high).bytes x).length = 1 :=
  rfl

@[simp]
theorem length_unsigned : ((unsigned first width).bytes x).length = width + 1 := by
  simp [unsigned]

@[simp]
theorem length_signed : ((signed first width).bytes x).length = width + 1 := by
  simp [signed]

@[simp]
theorem has_fix : (fix n low high).Has x ↔ low ≤ x ∧ x < high :=
  .rfl

@[simp]
theorem has_unsigned : (unsigned first width).Has x ↔ 0 ≤ x ∧ x < 256 ^ width :=
  .rfl

@[simp]
theorem has_signed : (signed first width).Has x ↔ -(256 ^ width / 2) ≤ x ∧ x < 256 ^ width / 2 :=
  .rfl

end Form

theorem toNat_eq (h : 0 ≤ v.toInt) : v.toNat = v.toInt.toNat := by
  rw [BitVec.toInt_eq_toNat_cond] at h ⊢
  split <;> omega

-- The lowest bytes of a word do not depend on its sign.
theorem be_eq (h : width = 1 ∨ width = 2 ∨ width = 4 ∨ width = 8) :
    be width v.toNat = be width (v.toInt % 256 ^ width).toNat := by
  apply BigEndian.bytes_congr
  rw [BitVec.toInt_eq_toNat_cond]
  obtain rfl | rfl | rfl | rfl := h <;> split <;> omega

namespace Header

-- The length of what is headed fits into 32 bits.
def Fits (h : Header) : Prop :=
  match h with
  | int _ => True
  | array n | map n | string n | binary n => n < 2 ^ 32

-- The form which the ladders of the writer arrive at.
def chosen : Header → Form
  | int v    =>
    if 0 ≤ v.toInt then
      if v.toInt < 128 then .fix 0 0 128
      else if v.toInt ≤ 0xff then .unsigned 0xcc 1
      else if v.toInt ≤ 0xffff then .unsigned 0xcd 2
      else if v.toInt ≤ 0xffffffff then .unsigned 0xce 4
      else .unsigned 0xcf 8
    else if -32 ≤ v.toInt then .fix 0xe0 (-32) 0
    else if -128 ≤ v.toInt then .signed 0xd0 1
    else if -32768 ≤ v.toInt then .signed 0xd1 2
    else if -2147483648 ≤ v.toInt then .signed 0xd2 4
    else .signed 0xd3 8
  | array n  => if n < 16 then .fix 0x90 0 16 else if n ≤ 0xffff then .unsigned 0xdc 2 else .unsigned 0xdd 4
  | map n    => if n < 16 then .fix 0x80 0 16 else if n ≤ 0xffff then .unsigned 0xde 2 else .unsigned 0xdf 4
  | string n =>
    if n < 32 then .fix 0xa0 0 32
    else if n ≤ 0xff then .unsigned 0xd9 1
    else if n ≤ 0xffff then .unsigned 0xda 2
    else .unsigned 0xdb 4
  | binary n => if n ≤ 0xff then .unsigned 0xc4 1 else if n ≤ 0xffff then .unsigned 0xc5 2 else .unsigned 0xc6 4

theorem chosen_mem : h.chosen ∈ h.forms := by
  cases h <;> simp only [chosen, forms] <;> split_ifs <;> simp

theorem chosen_has (hf : h.Fits) : h.chosen.Has h.number := by
  cases h <;> simp only [chosen, number, Fits] at hf ⊢
  case int v =>
    have hl := BitVec.le_toInt v
    have hu := BitVec.toInt_lt (x := v)
    split_ifs <;> simp <;> omega
  all_goals split_ifs <;> simp <;> omega

theorem chosen_shortest :
    ∀ form ∈ h.forms, form.Has h.number → (h.chosen.bytes h.number).length ≤ (form.bytes h.number).length := by
  cases h <;> simp only [forms, chosen, number, List.forall_mem_cons, Form.has_fix, Form.has_unsigned,
    Form.has_signed, Form.length_fix, Form.length_unsigned, Form.length_signed]
  all_goals split_ifs <;> simp <;> omega

theorem le_eq {x y : Word} : Word.le x y = decide (x.toInt ≤ y.toInt) :=
  rfl

theorem lt_eq {x y : Word} : Word.lt x y = decide (x.toInt < y.toInt) :=
  rfl

-- The base of a form and the number do not share a bit.
theorem or_eq (a i : Nat) (h : n < 2 ^ i) : 2 ^ i * a ||| n = 2 ^ i * a + n :=
  (Nat.two_pow_add_eq_or_of_lt h a).symm

theorem written_int : MsgPack.int v = (chosen (.int v)).bytes v.toInt := by
  have hl := BitVec.le_toInt v
  have hu := BitVec.toInt_lt (x := v)
  simp only [MsgPack.int, chosen, le_eq, lt_eq, decide_eq_true_eq, BitVec.reduceToInt, BitVec.reduceNeg]
  split_ifs
  case pos => simp [Form.fix, toNat_eq ‹_›]
  case pos => simp [Form.unsigned, toNat_eq ‹_›, BigEndian.bytes]
  case pos => simp [Form.unsigned, toNat_eq ‹_›]
  case pos => simp [Form.unsigned, toNat_eq ‹_›]
  case neg => simp [Form.unsigned, toNat_eq ‹_›]
  case pos h₁ h₂ =>
    have ha : (v + 32).toNat = (v.toInt + 32).toNat := by
      rw [BitVec.toInt_eq_toNat_cond] at h₁ h₂ ⊢
      rw [BitVec.toNat_add]
      split <;> simp <;> omega
    have ho : 0xe0 ||| (v + 32).toNat = 0xe0 + (v + 32).toNat := or_eq 7 5 (by omega)
    rw [ho, ha]
    simp [Form.fix]
  case pos => rw [be_eq (by simp)]; rfl
  case pos => rw [be_eq (by simp)]; rfl
  case pos => rw [be_eq (by simp)]; rfl
  case neg => rw [be_eq (by simp)]; rfl

theorem written_eq (hf : h.Fits) : h.written = h.chosen.bytes h.number := by
  cases h <;> simp only [written, number, Fits, len, strHeader, binHeader, chosen] at hf ⊢
  case int v => exact written_int
  case array n =>
    split_ifs
    case pos hn =>
      have ho : 0x90 ||| n = 0x90 + n := or_eq 9 4 hn
      simp [Form.fix, ho]
    all_goals simp [Form.unsigned]
  case map n =>
    split_ifs
    case pos hn =>
      have ho : 0x80 ||| n = 0x80 + n := or_eq 8 4 hn
      simp [Form.fix, ho]
    all_goals simp [Form.unsigned]
  case string n =>
    split_ifs
    case pos hn =>
      have ho : 0xa0 ||| n = 0xa0 + n := or_eq 5 5 hn
      simp [Form.fix, ho]
    all_goals simp [Form.unsigned, BigEndian.bytes]
  case binary n => split_ifs <;> simp [Form.unsigned, BigEndian.bytes]

theorem shortest (hf : h.Fits) : h.Shortest where
  form     := ⟨h.chosen, chosen_mem, chosen_has hf, written_eq hf⟩
  shortest := by
    rw [written_eq hf]
    exact chosen_shortest

end Header
end Plaza.Flutter.MsgPack

namespace Plaza.Flutter.MsgPack

open Dart (Word)

variable {f : Floats} {h : Header} {v : Word} {width i n rounds : Nat} {first : UInt8}
  {bytes further : List UInt8}

namespace Reader

@[simp]
theorem chunk_append :
    chunk { i, rest := bytes ++ further } bytes.length =
      .ok (bytes, { i := i + bytes.length, rest := further }) := by
  simp [chunk, need, take, bind, Except.bind, pure, Except.pure]

theorem chunk_be :
    chunk { i, rest := be width n ++ further } width = .ok (be width n, { i := i + width, rest := further }) := by
  have h : chunk { i, rest := be width n ++ further } (be width n).length = _ := chunk_append
  rwa [BigEndian.length_bytes] at h

theorem uint_be (hn : n < 256 ^ width) :
    uint { i, rest := be width n ++ further } width = .ok (n, { i := i + width, rest := further }) := by
  rw [uint, chunk_be]
  simp [Except.map, BigEndian.value_bytes_of_lt hn]

theorem u8_cons : u8 { i, rest := first :: further } = .ok (first.toNat, { i := i + 1, rest := further }) := by
  simp [u8, uint, chunk, need, take, BigEndian.value, Except.map, bind, Except.bind, pure, Except.pure]

-- Extending the sign brings back a number from its lowest bytes.
theorem signExtend_eq (hw : width = 1 ∨ width = 2 ∨ width = 4 ∨ width = 8)
    (hv : (Form.signed first width).Has v.toInt) :
    (BitVec.ofNat (8 * width) (v.toInt % 256 ^ width).toNat).signExtend 64 = v := by
  apply BitVec.eq_of_toInt_eq
  rw [Form.has_signed] at hv
  obtain rfl | rfl | rfl | rfl := hw <;>
    rw [BitVec.toInt_signExtend_of_le (by decide), BitVec.toInt_ofNat', Int.bmod] <;> simp at hv ⊢ <;> omega

theorem sint_be (hw : width = 1 ∨ width = 2 ∨ width = 4 ∨ width = 8)
    (hv : (Form.signed first width).Has v.toInt) :
    sint { i, rest := be width (v.toInt % 256 ^ width).toNat ++ further } width =
      .ok (v, { i := i + width, rest := further }) := by
  have hp : (0 : Int) < 256 ^ width := by positivity
  have hl := Int.emod_lt_of_pos v.toInt hp
  have hn := Int.emod_nonneg v.toInt hp.ne'
  have hb : (v.toInt % 256 ^ width).toNat < 256 ^ width := by
    zify
    omega
  rw [sint, uint_be hb]
  simp [Except.map, signExtend_eq hw hv]

end Reader

-- What follows a header when it is read.
def afterHeader (f : Floats) (rounds : Nat) (r : Reader) : Header → Except Failure (Value × Reader)
  | .int v    => .ok (.int v, r)
  | .array n  => r.array (read f rounds) n |>.map (.map .list id)
  | .map n    => r.map f (read f rounds) [] true n
  | .string n => r.string n
  | .binary n => r.binary n

-- An integer which is read from a number without a sign.
theorem ofNat_toInt (h : 0 ≤ v.toInt) : BitVec.ofNat 64 v.toInt.toNat = v := by
  rw [←toNat_eq h, BitVec.ofNat_toNat, BitVec.setWidth_eq]

-- A number of some bytes behind the first one, of which `mk` makes the header.
theorem read_unsigned (mk : Nat → Header) {x : Int} (hx : (Form.unsigned first width).Has x)
    (hr : ∀ bytes, read f (rounds + 1) { i, rest := first :: bytes } =
      (Reader.uint { i := i + 1, rest := bytes } width).bind fun (n, r) => afterHeader f rounds r (mk n)) :
    read f (rounds + 1) { i, rest := (Form.unsigned first width).bytes x ++ further } =
      afterHeader f rounds { i := i + (width + 1), rest := further } (mk x.toNat) := by
  have hn : x.toNat < 256 ^ width := by
    rw [Form.has_unsigned] at hx
    zify
    omega
  rw [Form.unsigned, List.cons_append, hr, Reader.uint_be hn, Nat.add_assoc, Nat.add_comm 1]
  rfl

theorem read_signed (hw : width = 1 ∨ width = 2 ∨ width = 4 ∨ width = 8)
    (hv : (Form.signed first width).Has v.toInt)
    (hr : ∀ bytes, read f (rounds + 1) { i, rest := first :: bytes } =
      (Reader.sint { i := i + 1, rest := bytes } width).map (.map .int id)) :
    read f (rounds + 1) { i, rest := (Form.signed first width).bytes v.toInt ++ further } =
      .ok (.int v, { i := i + (width + 1), rest := further }) := by
  rw [Form.signed, List.cons_append, hr, Reader.sint_be hw hv, Nat.add_assoc, Nat.add_comm 1]
  rfl

-- A single byte which stands for a number.
theorem toNat_fix (h : n < 256) : (UInt8.ofNat n).toNat = n := by
  rw [UInt8.toNat_ofNat']
  omega

theorem read_fixint (h : 0 ≤ v.toInt) (hv : v.toInt < 128) :
    read f (rounds + 1) { i, rest := (Form.fix 0 0 128).bytes v.toInt ++ further } =
      .ok (.int v, { i := i + 1, rest := further }) := by
  have hb : (UInt8.ofNat (0 + (v.toInt - 0).toNat)).toNat = v.toInt.toNat := by
    rw [toNat_fix (by omega)]
    omega
  simp only [read, Form.fix, List.singleton_append, Reader.u8_cons, bind, Except.bind, hb]
  rw [if_pos (by omega), ofNat_toInt h]
  rfl

theorem read_negative (h : -32 ≤ v.toInt) (hv : v.toInt < 0) :
    read f (rounds + 1) { i, rest := (Form.fix 0xe0 (-32) 0).bytes v.toInt ++ further } =
      .ok (.int v, { i := i + 1, rest := further }) := by
  have hb : (UInt8.ofNat (0xe0 + (v.toInt - -32).toNat)).toNat = (v.toInt + 256).toNat := by
    rw [toNat_fix (by omega)]
    omega
  have hw : BitVec.ofNat 64 (v.toInt + 256).toNat - 256 = v := by
    apply BitVec.eq_of_toNat_eq
    rw [BitVec.toInt_eq_toNat_cond] at h hv ⊢
    rw [BitVec.toNat_sub]
    split <;> simp <;> omega
  simp only [read, Form.fix, List.singleton_append, Reader.u8_cons, bind, Except.bind, hb]
  rw [if_neg (by omega), if_pos (by omega), hw]
  rfl

theorem read_int :
    read f (rounds + 1) { i, rest := int v ++ further } =
      .ok (.int v, { i := i + (int v).length, rest := further }) := by
  have hh := Header.chosen_has (h := .int v) trivial
  have he := Header.written_int (v := v)
  rw [Header.chosen] at hh he
  have hu {first width} (h₀ : 0 ≤ v.toInt) (hx : (Form.unsigned first width).Has v.toInt)
      (hr : ∀ bytes, read f (rounds + 1) { i, rest := first :: bytes } =
        (Reader.uint { i := i + 1, rest := bytes } width).bind fun (n, r) =>
          afterHeader f rounds r (.int <| .ofNat 64 n)) :
      read f (rounds + 1) { i, rest := (Form.unsigned first width).bytes v.toInt ++ further } =
        .ok (.int v, { i := i + (width + 1), rest := further }) := by
    rw [read_unsigned (fun n => .int <| .ofNat 64 n) hx hr, ofNat_toInt h₀]
    rfl
  rw [he]
  split_ifs at hh ⊢
  case pos h₀ h₁      => exact read_fixint h₀ h₁
  case pos h₀ _ _     => exact hu h₀ hh fun _ => rfl
  case pos h₀ _ _ _   => exact hu h₀ hh fun _ => rfl
  case pos h₀ _ _ _ _ => exact hu h₀ hh fun _ => rfl
  case neg h₀ _ _ _ _ => exact hu h₀ hh fun _ => rfl
  case pos h₀ h₁      => exact read_negative h₁ (Int.not_le.mp h₀)
  case pos => exact read_signed (by simp) hh fun _ => rfl
  case pos => exact read_signed (by simp) hh fun _ => rfl
  case pos => exact read_signed (by simp) hh fun _ => rfl
  case neg => exact read_signed (by simp) hh fun _ => rfl

-- The length in the lowest bits of the first byte.
theorem and_eq (i base : Nat) (hb : base % 2 ^ i = 0) (h : n < 2 ^ i) : (base + n) &&& (2 ^ i - 1) = n := by
  rw [Nat.and_two_pow_sub_one_eq_mod, Nat.add_mod, hb, Nat.zero_add, Nat.mod_mod, Nat.mod_eq_of_lt h]

theorem toNat_fix_add {base : Nat} (h : base + n < 256) :
    (UInt8.ofNat (base + (n - 0 : Int).toNat)).toNat = base + n := by
  rw [sub_zero, Int.toNat_natCast, toNat_fix h]

theorem read_fixarray (h : n < 16) :
    read f (rounds + 1) { i, rest := (Form.fix 0x90 0 16).bytes n ++ further } =
      afterHeader f rounds { i := i + 1, rest := further } (.array n) := by
  have hb : (UInt8.ofNat (0x90 + (n - 0 : Int).toNat)).toNat = 0x90 + n := toNat_fix_add (by omega)
  have ha : (0x90 + n) &&& 0x0f = n := and_eq 4 0x90 rfl h
  simp only [read, Form.fix, List.singleton_append, Reader.u8_cons, bind, Except.bind, hb]
  rw [if_neg (by omega), if_neg (by omega), if_neg (by omega), if_pos (by omega), ha]
  rfl

theorem read_fixmap (h : n < 16) :
    read f (rounds + 1) { i, rest := (Form.fix 0x80 0 16).bytes n ++ further } =
      afterHeader f rounds { i := i + 1, rest := further } (.map n) := by
  have hb : (UInt8.ofNat (0x80 + (n - 0 : Int).toNat)).toNat = 0x80 + n := toNat_fix_add (by omega)
  have ha : (0x80 + n) &&& 0x0f = n := and_eq 4 0x80 rfl h
  simp only [read, Form.fix, List.singleton_append, Reader.u8_cons, bind, Except.bind, hb]
  rw [if_neg (by omega), if_neg (by omega), if_neg (by omega), if_neg (by omega), if_pos (by omega), ha]
  rfl

theorem read_fixstr (h : n < 32) :
    read f (rounds + 1) { i, rest := (Form.fix 0xa0 0 32).bytes n ++ further } =
      afterHeader f rounds { i := i + 1, rest := further } (.string n) := by
  have hb : (UInt8.ofNat (0xa0 + (n - 0 : Int).toNat)).toNat = 0xa0 + n := toNat_fix_add (by omega)
  have ha : (0xa0 + n) &&& 0x1f = n := and_eq 5 0xa0 rfl h
  simp only [read, Form.fix, List.singleton_append, Reader.u8_cons, bind, Except.bind, hb]
  rw [if_neg (by omega), if_neg (by omega), if_pos (by omega), ha]
  rfl

-- Every header is read back, whatever is behind it.
theorem read_written (hf : h.Fits) :
    read f (rounds + 1) { i, rest := h.written ++ further } =
      afterHeader f rounds { i := i + h.written.length, rest := further } h := by
  have hh := Header.chosen_has hf
  rw [Header.written_eq hf]
  cases h <;> simp only [Header.chosen, Header.number] at hh ⊢
  case int v =>
    have hr : read f (rounds + 1) { i, rest := int v ++ further } =
      .ok (.int v, { i := i + (int v).length, rest := further }) := read_int
    rwa [Header.written_int] at hr
  case array n =>
    split_ifs at hh ⊢
    case pos hn => exact read_fixarray hn
    case pos => exact read_unsigned .array hh fun _ => rfl
    case neg => exact read_unsigned .array hh fun _ => rfl
  case map n =>
    split_ifs at hh ⊢
    case pos hn => exact read_fixmap hn
    case pos => exact read_unsigned .map hh fun _ => rfl
    case neg => exact read_unsigned .map hh fun _ => rfl
  case string n =>
    split_ifs at hh ⊢
    case pos hn => exact read_fixstr hn
    case pos => exact read_unsigned .string hh fun _ => rfl
    case pos => exact read_unsigned .string hh fun _ => rfl
    case neg => exact read_unsigned .string hh fun _ => rfl
  case binary n =>
    split_ifs at hh ⊢
    case pos => exact read_unsigned .binary hh fun _ => rfl
    case pos => exact read_unsigned .binary hh fun _ => rfl
    case neg => exact read_unsigned .binary hh fun _ => rfl

end Plaza.Flutter.MsgPack
