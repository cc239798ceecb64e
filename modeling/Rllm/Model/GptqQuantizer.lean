import Rllm.Library.Checked
import Rllm.Library.Rounding
import Rllm.Model.Gptq

/-! # The quantizer of a GPTQ group

A scale and a zero point for a group of weights, and the quantized value of a
weight. The zero point is clamped to what the packed format can hold, so a group
far from zero is not met by its values.
-/

namespace Rllm

namespace Gptq

structure QuantParams where
  scale : ℚ
  zero : UInt8

structure QuantizedValue where
  q : ℤ
  dequant : ℚ
  error : ℚ

/-- A float without a fraction as a `u8`, which saturates. -/
def castU8 (n : ℤ) : UInt8 := UInt8.ofNat (min n.toNat 255)

def quantParams (group : List ℚ) (qmax : ℤ) : Except String QuantParams :=
  match group.min?, group.max? with
  | some minV, some maxV =>
    if |maxV - minV| < 1 / 10 ^ 12 then .ok ⟨1, castU8 ((qmax + 2) / 2)⟩
    else
      let scale := max ((maxV - minV) / qmax) (1 / 10 ^ 8)
      .ok ⟨scale, castU8 (clamp 1 (qmax + 1) (roundAway (-minV / scale)))⟩
  | _, _ => .error "cannot derive quantization parameters from an empty group"

/-- The sum is one of `i32` values. -/
def quantizeValue (value scale : ℚ) (zero : UInt8) (qmax : ℤ) : Except String QuantizedValue := do
  let q ← Checked.addI32 (Checked.castI32 (roundAway (value / scale))) zero.toNat
  let q := clamp 0 qmax q
  let dequant := ((q - zero.toNat : ℤ) : ℚ) * scale
  pure ⟨q, dequant, value - dequant⟩

/-! ## One value -/

/-- The value is decoded to within one scale. -/
def Represents (params : QuantParams) (value : ℚ) : Prop :=
  ∃ r, quantizeValue value params.scale params.zero 15 = .ok r ∧ 0 ≤ r.q ∧ r.q ≤ 15 ∧
    |value - (r.q - params.zero.toNat) * params.scale| ≤ params.scale

variable {params : QuantParams} {group : List ℚ} {value lo hi : ℚ}

theorem error_le_scale_iff {s : ℚ} (hs : 0 < s) (value q : ℚ) :
    |value - q * s| ≤ s ↔ |value / s - q| ≤ 1 := by
  have hsplit : value - q * s = (value / s - q) * s := by
    rw [sub_mul, div_mul_cancel₀ _ (ne_of_gt hs)]
  rw [hsplit, abs_mul, abs_of_pos hs]
  constructor
  · exact fun h => le_of_mul_le_mul_right (by rwa [one_mul]) hs
  · intro h
    calc |value / s - q| * s ≤ 1 * s := mul_le_mul_of_nonneg_right h hs.le
      _ = s := one_mul s

theorem clamp_add_sub {z : ℕ} (hz : z ≤ 16) (n : ℤ) :
    clamp 0 15 (Checked.castI32 n + z) - z = clamp (-z : ℤ) (15 - z) n := by
  simp only [clamp, Checked.castI32, Checked.i32Min, Checked.i32Max]
  split_ifs <;> omega

theorem quantizeValue_eq_ok {s : ℚ} {zero : UInt8} {r : QuantizedValue}
    (h : quantizeValue value s zero 15 = .ok r) :
    r.q = clamp 0 15 (Checked.castI32 (roundAway (value / s)) + zero.toNat) := by
  obtain ⟨n, hn, hr⟩ := bind_eq_ok.mp h
  obtain rfl := Checked.toI32_eq_ok hn
  obtain rfl := Except.ok.inj hr
  rfl

theorem quantizeValue_ok {s : ℚ} {zero : UInt8} {n : ℤ} (hn : roundAway (value / s) = n)
    (hlo : -17 ≤ n) (hhi : n ≤ 16) :
    ∃ r, quantizeValue value s zero 15 = .ok r := by
  have hz : zero.toNat < 256 := zero.toNat_lt
  have hcast : Checked.castI32 n = n := by
    refine Checked.castI32_of_le ?_ ?_ <;> simp only [Checked.i32Min, Checked.i32Max] <;> omega
  have hsum : Checked.addI32 n zero.toNat = .ok (n + zero.toNat) := by
    refine Checked.toI32_of_le ?_ ?_ <;> simp only [Checked.i32Min, Checked.i32Max] <;> omega
  rw [quantizeValue, hn, hcast, hsum]
  exact ⟨_, rfl⟩

/-- The values that a scale and a zero point can represent reach one scale beyond the codes. -/
theorem represents_iff (hs : 0 < params.scale) (hz : 1 ≤ params.zero.toNat)
    (hz' : params.zero.toNat ≤ 16) :
    Represents params value ↔ -(params.zero.toNat + 1) * params.scale ≤ value ∧
      value ≤ (16 - params.zero.toNat) * params.scale := by
  obtain ⟨s, zero⟩ := params
  dsimp only at hs hz hz' ⊢
  have hrange : (-((zero.toNat : ℚ) + 1) * s ≤ value ∧ value ≤ (16 - zero.toNat) * s) ↔
      |value / s - clamp (-zero.toNat : ℤ) (15 - zero.toNat) (roundAway (value / s))| ≤ 1 := by
    rw [abs_sub_clamp_roundAway_le_one (by omega), ← le_div_iff₀ hs, ← div_le_iff₀ hs]
    push_cast
    constructor
    · rintro ⟨hlow, hhigh⟩
      constructor <;> linarith
    · rintro ⟨hlow, hhigh⟩
      constructor <;> linarith
  have herror : ∀ r : QuantizedValue, quantizeValue value s zero 15 = .ok r →
      (|value - (r.q - zero.toNat) * s| ≤ s ↔
        |value / s - clamp (-zero.toNat : ℤ) (15 - zero.toNat) (roundAway (value / s))| ≤ 1) := by
    intro r hr
    rw [error_le_scale_iff hs, ← clamp_add_sub hz', ← quantizeValue_eq_ok hr]
    push_cast
    rfl
  constructor
  · rintro ⟨r, hr, -, -, herr⟩
    exact hrange.mpr ((herror r hr).mp herr)
  · intro h
    have hn : -17 ≤ roundAway (value / s) ∧ roundAway (value / s) ≤ 16 := by
      have hlow := (le_div_iff₀ hs).mpr h.1
      have hhigh := (div_le_iff₀ hs).mpr h.2
      have hz₁ : (1 : ℚ) ≤ zero.toNat := by exact_mod_cast hz
      have hz₂ : (zero.toNat : ℚ) ≤ 16 := by exact_mod_cast hz'
      constructor
      · refine le_roundAway ?_
        push_cast
        linarith
      · refine roundAway_le ?_
        push_cast
        linarith
    obtain ⟨r, hr⟩ : ∃ r, quantizeValue value s zero 15 = .ok r := quantizeValue_ok rfl hn.1 hn.2
    refine ⟨r, hr, ?_, ?_, (herror r hr).mpr (hrange.mp h)⟩
    · rw [quantizeValue_eq_ok hr]
      exact le_clamp _ _ _
    · rw [quantizeValue_eq_ok hr]
      exact clamp_le (by decide) _

/-! ## One group -/

theorem toNat_castU8 {n : ℤ} (hlo : 0 ≤ n) (hhi : n ≤ 255) : ((castU8 n).toNat : ℤ) = n := by
  rw [castU8, UInt8.toNat_ofNat']
  omega

theorem quantParams_small (hlo : group.min? = some lo) (hhi : group.max? = some hi)
    (hsmall : |hi - lo| < 1 / 10 ^ 12) : quantParams group 15 = .ok ⟨1, castU8 8⟩ := by
  rw [quantParams, hlo, hhi]
  exact if_pos hsmall

theorem quantParams_wide (hlo : group.min? = some lo) (hhi : group.max? = some hi)
    (hwide : ¬ |hi - lo| < 1 / 10 ^ 12) {s : ℚ} (hs : max ((hi - lo) / 15) (1 / 10 ^ 8) = s) :
    quantParams group 15 = .ok ⟨s, castU8 (clamp 1 16 (roundAway (-lo / s)))⟩ := by
  rw [quantParams, hlo, hhi]
  dsimp only
  rw [if_neg hwide]
  push_cast
  rw [hs]

/-- The zero point of a group does not leave what its range needs, unless it is clamped. -/
theorem clamp_zero_iff {s : ℚ} (hs : 0 < s) (hrange : hi ≤ lo + 15 * s) {z : ℤ}
    (hz : clamp 1 16 (roundAway (-lo / s)) = z) :
    (-(z + 1) * s ≤ lo ∧ hi ≤ (16 - z) * s) ↔ hi ≤ 15 * s ∧ -(17 * s) ≤ lo := by
  rcases lt_or_ge (roundAway (-lo / s)) 1 with hone | hone
  · have hle := (div_le_iff₀ hs).mp (le_half_of_roundAway_lt hone)
    obtain rfl : 1 = z := by rw [← hz, clamp_of_le hone.le]
    push_cast at hle ⊢
    constructor
    · rintro ⟨-, hhigh⟩
      constructor <;> linarith
    · rintro ⟨hhigh, -⟩
      constructor <;> linarith
  rcases lt_or_ge 16 (roundAway (-lo / s)) with hmax | hmax
  · have hge := (le_div_iff₀ hs).mp (half_le_of_lt_roundAway hmax)
    obtain rfl : 16 = z := by rw [← hz, clamp_of_ge (by decide) hmax.le]
    push_cast at hge ⊢
    constructor
    · rintro ⟨hlow, -⟩
      constructor <;> linarith
    · rintro ⟨-, hlow⟩
      constructor <;> linarith
  · -- the zero point is not clamped
    rw [clamp_of_mem hone hmax] at hz
    rw [hz] at hone hmax
    have herr := abs_le.mp (abs_sub_roundAway_le (-lo / s))
    rw [hz] at herr
    have hlow : ((z : ℚ) - 1 / 2) * s ≤ -lo := (le_div_iff₀ hs).mp (by linarith [herr.1])
    have hhigh : -lo ≤ ((z : ℚ) + 1 / 2) * s := (div_le_iff₀ hs).mp (by linarith [herr.2])
    have hone' : 1 * s ≤ z * s := mul_le_mul_of_nonneg_right (by exact_mod_cast hone) hs.le
    have hmax' : z * s ≤ 16 * s := mul_le_mul_of_nonneg_right (by exact_mod_cast hmax) hs.le
    constructor
    · intro _
      constructor <;> linarith
    · intro _
      constructor <;> linarith

/-- Every weight of the group is decoded to within the scale. -/
def WithinScale (group : List ℚ) : Prop :=
  ∃ params, quantParams group 15 = .ok params ∧ 0 < params.scale ∧ 1 ≤ params.zero.toNat ∧
    params.zero.toNat ≤ 16 ∧ ∀ value ∈ group, Represents params value

/-- A nearly constant group is within the codes of scale one. Another one starts at or below zero
and ends below it by two fifteenths of its range at most, unless the least scale reaches it. -/
def NearZero (lo hi : ℚ) : Prop :=
  if hi - lo < 1 / 10 ^ 12 then -9 ≤ lo ∧ hi ≤ 8
  else (lo ≤ 0 ∨ hi ≤ 15 / 10 ^ 8) ∧ (2 * lo ≤ 17 * hi ∨ -(17 / 10 ^ 8) ≤ lo)

theorem nearZero_of_wide (hwide : ¬ hi - lo < 1 / 10 ^ 12) {s : ℚ}
    (hs : max ((hi - lo) / 15) (1 / 10 ^ 8) = s) :
    NearZero lo hi ↔ hi ≤ 15 * s ∧ -(17 * s) ≤ lo := by
  have hhigh : hi ≤ 15 * s ↔ lo ≤ 0 ∨ hi ≤ 15 / 10 ^ 8 := by
    rw [← hs, mul_max_of_nonneg _ _ (by norm_num), le_max_iff]
    refine or_congr ?_ (by norm_num)
    constructor <;> intro h <;> linarith
  have hlow : -(17 * s) ≤ lo ↔ 2 * lo ≤ 17 * hi ∨ -(17 / 10 ^ 8) ≤ lo := by
    rw [neg_le, ← hs, mul_max_of_nonneg _ _ (by norm_num), le_max_iff]
    refine or_congr ?_ ?_
    · constructor <;> intro h <;> linarith
    · rw [neg_le, mul_one_div]
  rw [NearZero, if_neg hwide, hhigh, hlow]

variable (hlo : group.min? = some lo) (hhi : group.max? = some hi)
include hlo hhi

theorem mem_range {value : ℚ} (h : value ∈ group) : lo ≤ value ∧ value ≤ hi :=
  ⟨(List.min?_eq_some_iff.mp hlo).2 value h, (List.max?_eq_some_iff.mp hhi).2 value h⟩

theorem forall_represents_iff (hs : 0 < params.scale) (hz : 1 ≤ params.zero.toNat)
    (hz' : params.zero.toNat ≤ 16) :
    (∀ value ∈ group, Represents params value) ↔
      -(params.zero.toNat + 1) * params.scale ≤ lo ∧
        hi ≤ (16 - params.zero.toNat) * params.scale := by
  simp only [represents_iff hs hz hz']
  constructor
  · intro h
    exact ⟨(h lo (List.min?_mem hlo)).1, (h hi (List.max?_mem hhi)).2⟩
  · rintro ⟨hlow, hhigh⟩ value hvalue
    obtain ⟨hle, hge⟩ := mem_range hlo hhi hvalue
    exact ⟨hlow.trans hle, hge.trans hhigh⟩

theorem withinScale_of_params (hparams : quantParams group 15 = .ok params)
    (hs : 0 < params.scale) (hz : 1 ≤ params.zero.toNat) (hz' : params.zero.toNat ≤ 16) :
    WithinScale group ↔ -(params.zero.toNat + 1) * params.scale ≤ lo ∧
      hi ≤ (16 - params.zero.toNat) * params.scale := by
  rw [← forall_represents_iff hlo hhi hs hz hz']
  constructor
  · rintro ⟨params', hparams', -, -, -, h⟩
    obtain rfl := Except.ok.inj (hparams.symm.trans hparams')
    exact h
  · exact fun h => ⟨params, hparams, hs, hz, hz', h⟩

theorem withinScale_iff_of_range : WithinScale group ↔ NearZero lo hi := by
  have hle : lo ≤ hi := (mem_range hlo hhi (List.min?_mem hlo)).2
  have habs : |hi - lo| = hi - lo := abs_of_nonneg (sub_nonneg.mpr hle)
  by_cases hsmall : hi - lo < 1 / 10 ^ 12
  · have hparams := quantParams_small hlo hhi (habs.trans_lt hsmall)
    have hzero : (castU8 8).toNat = 8 := rfl
    rw [withinScale_of_params hlo hhi hparams one_pos (by decide) (by decide), NearZero,
      if_pos hsmall, hzero]
    norm_num
  · generalize hs : max ((hi - lo) / 15) (1 / 10 ^ 8) = s
    generalize hz : clamp 1 16 (roundAway (-lo / s)) = z
    have hparams := quantParams_wide hlo hhi (by rwa [habs]) hs
    rw [hz] at hparams
    have hpos : 0 < s := hs ▸ lt_max_of_lt_right (by norm_num)
    have hone : 1 ≤ z := hz ▸ le_clamp _ _ _
    have hmax : z ≤ 16 := hz ▸ clamp_le (by decide) _
    have hcast : ((castU8 z).toNat : ℤ) = z := toNat_castU8 (by omega) (by omega)
    have hcast' : ((castU8 z).toNat : ℚ) = z := by exact_mod_cast hcast
    have hrange : hi ≤ lo + 15 * s := by
      have hscale : (hi - lo) / 15 ≤ s := hs ▸ le_max_left _ _
      linarith
    rw [withinScale_of_params hlo hhi hparams hpos (by dsimp only; omega) (by dsimp only; omega),
      hcast', clamp_zero_iff hpos hrange hz, nearZero_of_wide hsmall hs]

omit hlo hhi

/-- The groups whose weights are all decoded to within the scale. -/
theorem withinScale_iff (hne : group ≠ []) :
    WithinScale group ↔ ∃ lo hi, group.min? = some lo ∧ group.max? = some hi ∧ NearZero lo hi := by
  obtain ⟨lo, hlo⟩ := Option.ne_none_iff_exists'.mp (mt List.min?_eq_none_iff.mp hne)
  obtain ⟨hi, hhi⟩ := Option.ne_none_iff_exists'.mp (mt List.max?_eq_none_iff.mp hne)
  rw [withinScale_iff_of_range hlo hhi]
  constructor
  · exact fun h => ⟨lo, hi, hlo, hhi, h⟩
  · rintro ⟨lo', hi', hlo', hhi', h⟩
    obtain rfl := Option.some.inj (hlo.symm.trans hlo')
    obtain rfl := Option.some.inj (hhi.symm.trans hhi')
    exact h

theorem withinScale_iff_mixed :
    WithinScale [-3 / 4, 3 / 4] ↔ ∃ lo hi, [(-3 / 4 : ℚ), 3 / 4].min? = some lo ∧
      [(-3 / 4 : ℚ), 3 / 4].max? = some hi ∧ NearZero lo hi :=
  withinScale_iff (by decide)

/-- Weights that lie close together far from zero, and a constant group beyond the codes. -/
theorem not_withinScale : ¬ WithinScale [10, 23 / 2] ∧ ¬ WithinScale [100] := by
  constructor
  · have hlo : [(10 : ℚ), 23 / 2].min? = some 10 := by decide +kernel
    have hhi : [(10 : ℚ), 23 / 2].max? = some (23 / 2) := by decide +kernel
    rw [withinScale_iff_of_range hlo hhi, NearZero]
    norm_num
  · rw [withinScale_iff_of_range List.min?_singleton List.max?_singleton, NearZero]
    norm_num

end Gptq

end Rllm
