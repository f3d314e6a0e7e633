import Plaza.ClientUtils.Interpolation

open Rust

namespace Rust.F32

variable {x y : U64} {a b : F32}

-- The words that a float has room for. The greatest one is rounded up, but cut off again on the way back.
def Exact (x : U64) : Prop :=
  (∃ m k, m < 2 ^ 24 ∧ x.toNat = m * 2 ^ k) ∨ x.toNat = 2 ^ 64 - 1

theorem val_zero : (0 : F32).val = 0 := by
  decide +kernel

theorem val_one : (1 : F32).val = 1 := by
  decide +kernel

theorem val_ofU64_nonneg : 0 ≤ (ofU64 x).val :=
  FloatGrid.round_nonneg (Nat.cast_nonneg _)

theorem val_ofU64_le : (ofU64 x).val ≤ 2 ^ 64 := by
  have hp : f32.Holds (2 ^ (64 : Int)) := FloatGrid.holds_pow (by decide)
  have hx : (x.toNat : ℚ) ≤ 2 ^ (64 : Int) := by exact_mod_cast x.isLt.le
  exact_mod_cast hp.round_le hx

theorem ofU64_mono (h : x ≤ y) : ofU64 x ≤ ofU64 y :=
  FloatGrid.round_mono (Nat.cast_le.mpr <| BitVec.le_def.mp h)

theorem exists_val_ofU64 : ∃ n : Int, (ofU64 x).val = n := by
  simpa [ofU64, FloatGrid.Number.of] using @FloatGrid.exists_round_eq f32 x.toNat 0

theorem toNat_toU64 : a.toU64.toNat = min ⌊a.val⌋.toNat (2 ^ 64 - 1) := by
  rw [toU64, BitVec.toNat_ofNat]
  omega

theorem toU64_mono (h : a ≤ b) : a.toU64.toNat ≤ b.toU64.toNat := by
  have := Int.floor_mono (FloatGrid.Number.le_def.mp h)
  rw [toNat_toU64, toNat_toU64]
  omega

theorem round_max : f32.round (2 ^ 64 - 1 : Nat) = 2 ^ 64 := by
  decide +kernel

theorem toU64_ofU64_iff : (ofU64 x).toU64 = x ↔ Exact x := by
  have hx := x.isLt
  have hk := @FloatGrid.holds_natCast_iff f32 x.toNat (by decide)
  rw [← BitVec.toNat_inj, toNat_toU64]
  constructor
  case mp =>
    intro h
    by_cases hm : x.toNat = 2 ^ 64 - 1
    case pos => exact .inr hm
    case neg =>
      obtain ⟨n, hn⟩ := @exists_val_ofU64 x
      have h0 := @val_ofU64_nonneg x
      rw [hn] at h h0
      rw [Int.floor_intCast] at h
      have h0 : 0 ≤ n := by exact_mod_cast h0
      have he : (x.toNat : Int) = n := by omega
      exact .inl <| hk.mp <| hn.trans <| by exact_mod_cast he.symm
  case mpr =>
    intro h
    cases h
    case inl h =>
      have hv : (ofU64 x).val = x.toNat := hk.mpr h
      rw [hv, Int.floor_natCast]
      omega
    case inr h =>
      have hv : (ofU64 x).val = (2 ^ 64 : Nat) := by
        rw [ofU64, h]
        exact_mod_cast round_max
      rw [hv, Int.floor_natCast]
      omega

end Rust.F32

namespace Plaza.ClientUtils.InterpolationClock

open F32 (Exact val_zero val_one)

variable {c : InterpolationClock} {a b now newest : U64} {s : F32} {o : Overflow} {dt : U64}

-- The estimate stays between what it was and the newest time, whatever the strength.
def Steers (now newest : U64) : Prop :=
  ∀ (c : InterpolationClock) (s : F32), c.now = some now → 0 ≤ s → s ≤ 1 →
    ∃ t ∈ (c.resync newest s).now, min now.toNat newest.toNat ≤ t.toNat ∧ t.toNat ≤ max now.toNat newest.toNat

-- How far apart two times are as floats, before it is rounded.
def gap (a b : U64) : ℚ :=
  |(F32.ofU64 b).val - (F32.ofU64 a).val|

theorem resync_now (hc : c.now = some now) (h0 : 0 ≤ s) (h1 : s ≤ 1) :
    (c.resync newest s).now =
      some (F32.toU64 (max (F32.ofU64 now + (F32.ofU64 newest - F32.ofU64 now) * s) 0)) := by
  simp only [resync, FloatGrid.Number.clamp_of_mem h0 h1, hc]

theorem gap_comm : gap a b = gap b a :=
  abs_sub_comm ..

theorem zero_le_ofU64 : 0 ≤ F32.ofU64 a := by
  rw [FloatGrid.Number.le_def, val_zero]
  exact F32.val_ofU64_nonneg

theorem steers_of_exact (ha : Exact now) (hb : Exact newest) (hg : f32.round (gap now newest) ≤ gap now newest) :
    Steers now newest := by
  intro c s hc h0 h1
  have hs : 0 ≤ s.val ∧ s.val ≤ 1 := ⟨val_zero ▸ h0, val_one ▸ h1⟩
  obtain ⟨hl, hr⟩ := FloatGrid.Number.part_between hs hg
  refine ⟨_, resync_now hc h0 h1, ?_⟩
  rw [max_eq_left ((le_min zero_le_ofU64 zero_le_ofU64).trans hl)]
  have hl := F32.toU64_mono hl
  have hr := F32.toU64_mono hr
  rw [← F32.toU64_ofU64_iff, ← BitVec.toNat_inj] at ha hb
  rcases BitVec.le_total now newest with h | h
  case inl =>
    have ho := F32.ofU64_mono h
    rw [min_eq_left ho] at hl
    rw [max_eq_right ho] at hr
    omega
  case inr =>
    have ho := F32.ofU64_mono h
    rw [min_eq_right ho] at hl
    rw [max_eq_left ho] at hr
    omega

theorem exact_of_steers (h : Steers now now) : Exact now := by
  have h1 : (0 : F32) ≤ 1 := by decide +kernel
  obtain ⟨t, ht, hl, hr⟩ := h { new 0 with now := some now } 1 rfl h1 le_rfl
  rw [resync_now rfl h1 le_rfl, FloatGrid.Number.add_part_self, max_eq_left zero_le_ofU64, Option.mem_some_iff] at ht
  rw [← F32.toU64_ofU64_iff, ht, ← BitVec.toNat_inj]
  omega

-- The greater of two times is pulled below the lesser one, where their difference is rounded up.
theorem not_steers (ha : Exact a) (hab : a ≤ b) (hg : gap a b < f32.round (gap a b)) : ¬Steers b a := by
  intro h
  have h1 : (0 : F32) ≤ 1 := by decide +kernel
  have ho := F32.ofU64_mono hab
  have hle := FloatGrid.Number.le_def.mp ho
  rw [gap, abs_of_nonneg (sub_nonneg.mpr hle)] at hg
  obtain ⟨t, ht, hl, _⟩ := h { new 0 with now := some b } 1 rfl h1 le_rfl
  rw [resync_now rfl h1 le_rfl, Option.mem_some_iff] at ht
  have hv := FloatGrid.Number.whole_val F32.val_ofU64_nonneg ho val_one hg
  have hz : (F32.ofU64 b).val - f32.round ((F32.ofU64 b).val - (F32.ofU64 a).val) ≥ 0 :=
    sub_nonneg.mpr <| (F32.ofU64 b).holds.round_le <| sub_le_self _ F32.val_ofU64_nonneg
  rw [max_eq_left (FloatGrid.Number.le_def.mpr (by rw [val_zero, hv]; exact hz))] at ht
  have ht := congrArg BitVec.toNat ht
  rw [F32.toNat_toU64, hv] at ht
  obtain ⟨n, hn⟩ := @F32.exists_val_ofU64 a
  have hlt : ⌊(F32.ofU64 b).val - f32.round ((F32.ofU64 b).val - (F32.ofU64 a).val)⌋ < n :=
    Int.floor_lt.mpr (by linarith)
  rw [← F32.toU64_ofU64_iff, ← BitVec.toNat_inj, F32.toNat_toU64, hn, Int.floor_intCast] at ha
  have hn' : (2 : Int) ^ 64 ≤ n := by
    have := Int.floor_nonneg.mpr hz
    have := BitVec.le_def.mp hab
    omega
  -- Both of the times are then the greatest one, and nothing is between them.
  have hn' : (2 : ℚ) ^ 64 ≤ n := by exact_mod_cast hn'
  have hb := @F32.val_ofU64_le b
  rw [show (F32.ofU64 b).val = (F32.ofU64 a).val by linarith, sub_self, show f32.round 0 = 0 from FloatGrid.holds_zero] at hg
  exact lt_irrefl _ hg

theorem rate_eq (hc : c.now = some now) :
    (c.observeRate newest s).rate = 1 + s.clamp 0 1 *
      ((F32.ofU64 newest - F32.ofU64 now) / max (F32.ofU64 c.delay) 1).clamp (-1) 1 := by
  simp only [observeRate, hc]

theorem scale_nonneg : 0 ≤ (max (F32.ofU64 a) 1).val := by
  rw [← val_zero]
  exact FloatGrid.Number.le_def.mp <| zero_le_ofU64.trans (le_max_left ..)

theorem adjust_nonneg : 0 ≤ (s.clamp 0 1).val := by
  rw [← val_zero]
  exact FloatGrid.Number.le_def.mp (le_max_left ..)

-- The speed is on the side of the newest time.
theorem rate_le_one (hc : c.now = some now) (h : newest ≤ now) : (c.observeRate newest s).rate ≤ 1 := by
  have he : (F32.ofU64 newest - F32.ofU64 now).val ≤ 0 :=
    FloatGrid.round_nonpos <| sub_nonpos.mpr <| FloatGrid.Number.le_def.mp <| F32.ofU64_mono h
  have hq : ((F32.ofU64 newest - F32.ofU64 now) / max (F32.ofU64 c.delay) 1).val ≤ 0 :=
    FloatGrid.round_nonpos <| div_nonpos_of_nonpos_of_nonneg he scale_nonneg
  rw [← val_zero, ← FloatGrid.Number.le_def] at hq
  have hn := FloatGrid.Number.le_def.mp <| max_le (by decide +kernel : (-1 : F32) ≤ 0) ((min_le_left _ 1).trans hq)
  rw [val_zero] at hn
  have hm : (s.clamp 0 1 * ((F32.ofU64 newest - F32.ofU64 now) / max (F32.ofU64 c.delay) 1).clamp (-1) 1).val ≤ 0 :=
    FloatGrid.round_nonpos <| mul_nonpos_of_nonneg_of_nonpos adjust_nonneg hn
  rw [rate_eq hc]
  exact FloatGrid.Holds.round_le (1 : F32).holds <| add_le_of_nonpos_right hm

theorem one_le_rate (hc : c.now = some now) (h : now ≤ newest) : 1 ≤ (c.observeRate newest s).rate := by
  have he : 0 ≤ (F32.ofU64 newest - F32.ofU64 now).val :=
    FloatGrid.round_nonneg <| sub_nonneg.mpr <| FloatGrid.Number.le_def.mp <| F32.ofU64_mono h
  have hq : 0 ≤ ((F32.ofU64 newest - F32.ofU64 now) / max (F32.ofU64 c.delay) 1).val :=
    FloatGrid.round_nonneg <| div_nonneg he scale_nonneg
  rw [← val_zero, ← FloatGrid.Number.le_def] at hq
  have hn := FloatGrid.Number.le_def.mp <|
    (le_min hq (by decide +kernel : (0 : F32) ≤ 1)).trans (le_max_right (-1) _)
  rw [val_zero] at hn
  have hm : 0 ≤ (s.clamp 0 1 * ((F32.ofU64 newest - F32.ofU64 now) / max (F32.ofU64 c.delay) 1).clamp (-1) 1).val :=
    FloatGrid.round_nonneg <| mul_nonneg adjust_nonneg hn
  rw [rate_eq hc]
  exact FloatGrid.Holds.le_round (1 : F32).holds <| le_add_of_nonneg_right hm

theorem advanceScaled_eq_iff (hc : c.now = some now) (hr : c.rate = 1) (hf : now.toNat + dt.toNat < 2 ^ 64) :
    c.advanceScaled o dt = c.advance o dt ↔ Exact dt := by
  obtain ⟨n, hn⟩ := @F32.exists_val_ofU64 dt
  have hs : (F32.ofU64 dt * c.rate).round = F32.ofU64 dt := by
    have hm : F32.ofU64 dt * c.rate = F32.ofU64 dt := by
      rw [FloatGrid.Number.ext_iff, FloatGrid.Number.val_mul, hr, val_one, mul_one, (F32.ofU64 dt).holds]
    rw [hm, FloatGrid.Number.round_of_intCast hn]
  simp only [advanceScaled, advance, hc, hs]
  rw [← F32.toU64_ofU64_iff, U64.add_of_fits hf]
  constructor
  case mp =>
    intro h
    obtain ⟨_, ha, hz⟩ := Option.map_eq_some_iff.mp h
    injection hz with hz
    rw [U64.eq_of_add ha] at hz
    exact BitVec.add_right_inj _ |>.mp <| Option.some.inj hz
  case mpr => exact fun h => by rw [h, U64.add_of_fits hf]

-- The speed is always on the side of the newest time. At rate one a step is what it should be iff a float has room
-- for it. And between two times the estimate stays where it should iff floats have room for both, and their
-- difference is not rounded up.
theorem steers_iff (a b : U64) :
    (∀ (c : InterpolationClock) (now newest : U64) (maxRateAdjust : F32), c.now = some now →
      (1 < (c.observeRate newest maxRateAdjust).rate → now < newest) ∧
      ((c.observeRate newest maxRateAdjust).rate < 1 → newest < now)) ∧
    (∀ (o : Overflow) (c : InterpolationClock) (now dt : U64), c.now = some now → c.rate = 1 →
      now.toNat + dt.toNat < 2 ^ 64 → (c.advanceScaled o dt = c.advance o dt ↔ Exact dt)) ∧
    ((∀ now ∈ [a, b], ∀ newest ∈ [a, b], Steers now newest) ↔
      Exact a ∧ Exact b ∧ f32.round (gap a b) ≤ gap a b) := by
  refine ⟨fun c now newest s hc => ⟨fun h => ?_, fun h => ?_⟩,
    fun o c now dt hc hr hf => advanceScaled_eq_iff hc hr hf, fun h => ?_, fun h now hn newest hn' => ?_⟩
  case refine_1 => exact BitVec.not_le.mp fun hle => not_le.mpr h (rate_le_one hc hle)
  case refine_2 => exact BitVec.not_le.mp fun hle => not_le.mpr h (one_le_rate hc hle)
  case refine_3 =>
    have ha := exact_of_steers <| h a (by simp) a (by simp)
    have hb := exact_of_steers <| h b (by simp) b (by simp)
    refine ⟨ha, hb, not_lt.mp fun hg => ?_⟩
    rcases BitVec.le_total a b with hab | hab
    · exact not_steers ha hab hg <| h b (by simp) a (by simp)
    · rw [gap_comm] at hg
      exact not_steers hb hab hg <| h a (by simp) b (by simp)
  case refine_4 =>
    obtain ⟨ha, hb, hg⟩ := h
    have hz {a : U64} : f32.round (gap a a) ≤ gap a a := by
      rw [gap, sub_self, abs_zero, show f32.round 0 = 0 from FloatGrid.holds_zero]
    simp only [List.mem_cons, List.not_mem_nil, or_false] at hn hn'
    rcases hn with rfl | rfl <;> rcases hn' with rfl | rfl
    · exact steers_of_exact ha ha hz
    · exact steers_of_exact ha hb hg
    · exact steers_of_exact hb ha (gap_comm ▸ hg)
    · exact steers_of_exact hb hb hz

-- For the first hours of a server all of this holds.
theorem steers_early (ha : a.toNat ≤ 2 ^ 24) (hb : b.toNat ≤ 2 ^ 24) : Exact a ∧ Steers a b := by
  have hn {n : Nat} (h : n ≤ 2 ^ 24) : ∃ m k, m < 2 ^ 24 ∧ n = m * 2 ^ k := by
    rcases h.lt_or_eq with h | h
    · exact ⟨n, 0, h, by simp⟩
    · exact ⟨1, 24, by decide, by simpa using h⟩
  have hv {x : U64} (h : x.toNat ≤ 2 ^ 24) : (F32.ofU64 x).val = x.toNat :=
    @FloatGrid.holds_natCast_iff f32 _ (by decide) |>.mpr (hn h)
  have hg : gap a b = (b.toNat - a.toNat : Int).natAbs := by
    rw [gap, hv ha, hv hb, Nat.cast_natAbs]
    push_cast
    rfl
  refine ⟨.inl (hn ha), steers_of_exact (.inl (hn ha)) (.inl (hn hb)) ?_⟩
  rw [hg]
  exact le_of_eq <| FloatGrid.holds_natCast_iff (by decide) |>.mpr (hn (by omega))

-- After some five hours in milliseconds an estimate is moved although it is right, a step is cut, and a time is
-- passed on the way to it.
theorem late_clock_slips :
    let c : InterpolationClock := { new 100 with now := some 16777217 }
    let c' : InterpolationClock := { new 100 with now := some 3 }
    (c.resync 16777217 1).now = some 16777216 ∧ (c'.resync 16777226 1).now = some 16777228 ∧
      (c.advanceScaled .panics 16777217).map InterpolationClock.now = some (some 33554433) := by
  decide +kernel

end Plaza.ClientUtils.InterpolationClock
