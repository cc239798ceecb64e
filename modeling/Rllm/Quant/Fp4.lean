import Mathlib.Data.Int.Log
import Mathlib.Data.Rat.Floor
import Rllm.Library.Checked
import Rllm.Library.Codebook
import Rllm.Library.Loops

/-! # FP4 weights

Two codes to a byte and a scale to each group of a row. The formats differ in the
scale of a group: a power of two, or the greatest value over six.
-/

namespace Rllm

namespace Fp4

/-! ## Codes -/

/-- The values of the codes. The sign bit gives zero as well. -/
def fp4Values : List ℚ :=
  [0, 1 / 2, 1, 3 / 2, 2, 3, 4, 6, 0, -1 / 2, -1, -3 / 2, -2, -3, -4, -6]

/-- The greatest `f32` value, where the search for the least distance starts. -/
def f32Max : ℚ := (2 ^ 24 - 1) * 2 ^ 104

def findClosestFp4 (val : ℚ) : UInt8 := UInt8.ofNat (nearestScan f32Max val fp4Values).1

def powerOfTwoScale (absmax maxValue : ℚ) : ℚ :=
  if absmax = 0 then 1 else 2 ^ Int.clog 2 (absmax / maxValue)

def absmaxScale (absMax : ℚ) : ℚ := if 0 < absMax then absMax / 6 else 1

/-! ## Quantizing -/

def groupAbsMax (wData : List ℚ) (start groupSize : ℕ) : Except String ℚ :=
  (List.range groupSize).foldlM (fun absMax k => do
    let val ← Checked.index wData (start + k)
    pure (max absMax |val|)) 0

/-- The bytes of a group. -/
def quantizeGroup (wData : List ℚ) (scale : ℚ) (inFeatures groupSize o g : ℕ)
    (qData : List UInt8) : Except String (List UInt8) :=
  (List.range ((groupSize + 1) / 2)).foldlM (fun qData step => do
    let k := 2 * step
    let i0 := g * groupSize + k
    let i1 := g * groupSize + k + 1
    let w0 ← Checked.index wData (o * inFeatures + i0)
    let w1 ← Checked.index wData (o * inFeatures + i1)
    let code0 := findClosestFp4 (w0 / scale)
    let code1 := findClosestFp4 (w1 / scale)
    Checked.set qData (o * (inFeatures / 2) + i0 / 2) (code0 ||| code1 <<< 4)) qData

/-- The scale and the bytes of a group. -/
def quantizeTurn (scaleOf : ℚ → ℚ) (wData : List ℚ) (inFeatures groupSize numGroups o : ℕ)
    (s : List UInt8 × List ℚ) (g : ℕ) : Except String (List UInt8 × List ℚ) := do
  let absMax ← groupAbsMax wData (o * inFeatures + g * groupSize) groupSize
  let scale := scaleOf absMax
  let scales ← Checked.set s.2 (o * numGroups + g) scale
  let qData ← quantizeGroup wData scale inFeatures groupSize o g s.1
  pure (qData, scales)

def quantizeGroups (scaleOf : ℚ → ℚ) (wData : List ℚ) (outFeatures inFeatures groupSize : ℕ) :
    Except String (List UInt8 × List ℚ) :=
  let numGroups := inFeatures / groupSize
  (List.range outFeatures).foldlM (fun s o => (List.range numGroups).foldlM
      (quantizeTurn scaleOf wData inFeatures groupSize numGroups o) s)
    (List.replicate (outFeatures * (inFeatures / 2)) 0,
      List.replicate (outFeatures * numGroups) 0)

/-! ## Dequantizing -/

def dequantizeEntry (qData : List UInt8) (scale : ℚ) (inFeatures groupSize o g : ℕ)
    (dequant : List ℚ) (k : ℕ) : Except String (List ℚ) := do
  let i := g * groupSize + k
  let byteIdx := o * (inFeatures / 2) + i / 2
  let byte ← Checked.index qData byteIdx
  let code := if i % 2 = 0 then byte &&& 0x0F else byte >>> 4
  let val ← Checked.index fp4Values code.toNat
  let idx := o * inFeatures + i
  Checked.set dequant idx (val * scale)

def dequantizeTurn (qData : List UInt8) (scales : List ℚ) (inFeatures groupSize numGroups o : ℕ)
    (dequant : List ℚ) (g : ℕ) : Except String (List ℚ) := do
  let scale ← Checked.index scales (o * numGroups + g)
  (List.range groupSize).foldlM (dequantizeEntry qData scale inFeatures groupSize o g) dequant

def dequantizeGroups (qData : List UInt8) (scales : List ℚ)
    (outFeatures inFeatures groupSize : ℕ) : Except String (List ℚ) :=
  let numGroups := inFeatures / groupSize
  (List.range outFeatures).foldlM (fun dequant o => (List.range numGroups).foldlM
      (dequantizeTurn qData scales inFeatures groupSize numGroups o) dequant)
    (List.replicate (outFeatures * inFeatures) 0)

end Fp4

/-! ## MXFP -/

namespace Mxfp

def validateOnlineShape (dims : List ℕ) (groupSize : ℕ) (packed : Bool) :
    Except String (ℕ × ℕ) :=
  match dims with
  | [outFeatures, inFeatures] =>
    if outFeatures = 0 ∨ inFeatures = 0 then
      .error s!"MXFP source weight must be a non-empty rank-2 tensor, got {dims}"
    else if groupSize = 0 ∨ inFeatures % groupSize ≠ 0 ∨ (packed ∧ groupSize % 2 ≠ 0) then
      .error (s!"MXFP group size {groupSize} must divide {inFeatures} input features " ++
        "and be even for 4-bit weights")
    else .ok (outFeatures, inFeatures)
  | _ => .error s!"MXFP source weight must be a non-empty rank-2 tensor, got {dims}"

def quantizeMxfp4Cpu (weight : Tensor ℚ) (groupSize : ℕ) :
    Except String (Tensor UInt8 × Tensor ℚ) := do
  let (outFeatures, inFeatures) ← validateOnlineShape weight.shape groupSize true
  let (qData, scales) ← Fp4.quantizeGroups (Fp4.powerOfTwoScale · 6) weight.data outFeatures
    inFeatures groupSize
  let qweight ← Tensor.fromVec qData [outFeatures, inFeatures / 2]
  let scaleTensor ← Tensor.fromVec scales [outFeatures, inFeatures / groupSize]
  pure (qweight, scaleTensor)

end Mxfp

structure MxfpLinear where
  qweight : Tensor UInt8
  scales : Tensor ℚ
  bits : ℕ
  groupSize : ℕ
  inFeatures : ℕ
  outFeatures : ℕ

namespace MxfpLinear

def new (qweight : Tensor UInt8) (scales : Tensor ℚ) (bits groupSize : ℕ) :
    Except String MxfpLinear :=
  match qweight.shape with
  | [outFeatures, cols] =>
    if outFeatures = 0 ∨ cols = 0 then
      .error s!"MXFP weight must be a non-empty rank-2 tensor, got {qweight.shape}"
    else if bits ≠ 4 ∧ bits ≠ 8 then .error s!"MXFP supports 4 or 8 bits, got {bits}"
    else
      let inFeatures := if bits = 4 then cols * 2 else cols
      if groupSize = 0 ∨ inFeatures % groupSize ≠ 0 ∨ (bits = 4 ∧ groupSize % 2 ≠ 0) then
        .error (s!"MXFP group size {groupSize} must divide {inFeatures} input features " ++
          "and be even for 4-bit weights")
      else if scales.shape ≠ [outFeatures, inFeatures / groupSize] then
        .error (s!"MXFP scales must have shape [{outFeatures}, {inFeatures / groupSize}], " ++
          s!"got {scales.shape}")
      else if scales.data.any (· ≤ 0) then .error "MXFP scales must be finite and positive"
      else .ok { qweight, scales, bits, groupSize, inFeatures, outFeatures }
  | _ => .error s!"MXFP weight must be a non-empty rank-2 tensor, got {qweight.shape}"

def dequantizeMxfp4Cpu (linear : MxfpLinear) : Except String (Tensor ℚ) := do
  let dequant ← Fp4.dequantizeGroups linear.qweight.data linear.scales.data linear.outFeatures
    linear.inFeatures linear.groupSize
  Tensor.fromVec dequant [linear.outFeatures, linear.inFeatures]

end MxfpLinear

/-! ## NVFP -/

namespace Nvfp

def validateGroupSize (inFeatures groupSize : ℕ) : Except String Unit :=
  if groupSize ≠ 16 ∨ inFeatures % groupSize ≠ 0 then
    .error (s!"NVFP4 requires group size 16, which must divide {inFeatures} input features; " ++
      s!"got {groupSize}")
  else .ok ()

def quantizeNvfp4Cpu (weight : Tensor ℚ) (groupSize : ℕ) :
    Except String (Tensor UInt8 × Tensor ℚ) :=
  match weight.shape with
  | [outFeatures, inFeatures] => do
    if outFeatures = 0 ∨ inFeatures = 0 then
      throw s!"NVFP4 source weight must be a non-empty rank-2 tensor, got {weight.shape}"
    validateGroupSize inFeatures groupSize
    let (qData, scales) ← Fp4.quantizeGroups Fp4.absmaxScale weight.data outFeatures inFeatures
      groupSize
    let qweight ← Tensor.fromVec qData [outFeatures, inFeatures / 2]
    let scaleTensor ← Tensor.fromVec scales [outFeatures, inFeatures / groupSize]
    pure (qweight, scaleTensor)
  | _ => .error s!"NVFP4 source weight must be a non-empty rank-2 tensor, got {weight.shape}"

end Nvfp

structure NvfpLinear where
  qweight : Tensor UInt8
  scales : Tensor ℚ
  groupSize : ℕ
  inFeatures : ℕ
  outFeatures : ℕ

namespace NvfpLinear

def new (qweight : Tensor UInt8) (scales : Tensor ℚ) (groupSize : ℕ) :
    Except String NvfpLinear :=
  match qweight.shape with
  | [outFeatures, cols] => do
    if outFeatures = 0 ∨ cols = 0 then
      throw s!"NVFP4 weight must be a non-empty rank-2 tensor, got {qweight.shape}"
    let inFeatures := cols * 2
    Nvfp.validateGroupSize inFeatures groupSize
    if scales.shape ≠ [outFeatures, inFeatures / groupSize] then
      throw (s!"NVFP4 scales must have shape [{outFeatures}, {inFeatures / groupSize}], " ++
        s!"got {scales.shape}")
    if scales.data.any (· ≤ 0) then throw "NVFP4 scales must be finite and positive"
    pure { qweight, scales, groupSize, inFeatures, outFeatures }
  | _ => .error s!"NVFP4 weight must be a non-empty rank-2 tensor, got {qweight.shape}"

def dequantizeNvfp4Cpu (linear : NvfpLinear) : Except String (Tensor ℚ) := do
  let dequant ← Fp4.dequantizeGroups linear.qweight.data linear.scales.data linear.outFeatures
    linear.inFeatures linear.groupSize
  Tensor.fromVec dequant [linear.outFeatures, linear.inFeatures]

end NvfpLinear

namespace Fp4

/-! ## The table -/

variable {x c m s a : ℚ}

theorem mem_fp4Values : c ∈ fp4Values ↔ |c| = 0 ∨ |c| = 1 / 2 ∨ |c| = 1 ∨ |c| = 3 / 2 ∨ |c| = 2 ∨
    |c| = 3 ∨ |c| = 4 ∨ |c| = 6 := by
  simp only [fp4Values, List.mem_cons, List.not_mem_nil, or_false, abs_eq_zero,
    abs_eq (by norm_num : (0 : ℚ) ≤ 1 / 2), abs_eq (by norm_num : (0 : ℚ) ≤ 1),
    abs_eq (by norm_num : (0 : ℚ) ≤ 3 / 2), abs_eq (by norm_num : (0 : ℚ) ≤ 2),
    abs_eq (by norm_num : (0 : ℚ) ≤ 3), abs_eq (by norm_num : (0 : ℚ) ≤ 4),
    abs_eq (by norm_num : (0 : ℚ) ≤ 6), neg_div]
  tauto

theorem abs_mem (h : c ∈ fp4Values) : |c| ∈ fp4Values := by
  rw [mem_fp4Values, abs_abs]
  exact mem_fp4Values.mp h

theorem exists_near (h : |x| ≤ 6) : ∃ c ∈ fp4Values, |x - c| ≤ 1 := by
  obtain ⟨hlo, hhi⟩ := abs_le.mp h
  have hcover : |x - -6| ≤ 1 ∨ |x - -4| ≤ 1 ∨ |x - -2| ≤ 1 ∨ |x - 0| ≤ 1 ∨ |x - 2| ≤ 1 ∨
      |x - 4| ≤ 1 ∨ |x - 6| ≤ 1 := by
    simp only [abs_le]
    grind
  rcases hcover with h | h | h | h | h | h | h
  · exact ⟨-6, by decide +kernel, h⟩
  · exact ⟨-4, by decide +kernel, h⟩
  · exact ⟨-2, by decide +kernel, h⟩
  · exact ⟨0, by decide +kernel, h⟩
  · exact ⟨2, by decide +kernel, h⟩
  · exact ⟨4, by decide +kernel, h⟩
  · exact ⟨6, by decide +kernel, h⟩

theorem abs_sub_le_one (h : |x| ≤ 6) (hc : IsNearest fp4Values x c) : |x - c| ≤ 1 := by
  obtain ⟨c', hc', hnear⟩ := exists_near h
  exact (hc.2 c' hc').trans hnear

theorem three_le_abs (hx : 3 < |x|) (h : |x| ≤ 6) (hc : IsNearest fp4Values x c) : 3 ≤ |c| := by
  have hone := abs_sub_le_one h hc
  have htriangle := abs_sub_abs_le_abs_sub x c
  rcases mem_fp4Values.mp hc.1 with h | h | h | h | h | h | h | h <;> linarith

theorem findClosestFp4_spec (h : |x| ≤ 6) :
    ∃ c, fp4Values[(findClosestFp4 x).toNat]? = some c ∧ IsNearest fp4Values x c := by
  obtain ⟨c, hc, hnear⟩ := exists_near h
  have hlimit : |x - c| < f32Max := by
    have hone : (1 : ℚ) < f32Max := by norm_num [f32Max]
    linarith
  obtain ⟨c', hget, hnearest⟩ := nearestScan_isNearest hc hlimit
  have hlt : (nearestScan f32Max x fp4Values).1 < 16 := (List.getElem?_eq_some_iff.mp hget).1
  refine ⟨c', ?_, hnearest⟩
  rwa [findClosestFp4, UInt8.toNat_ofNat', Nat.mod_eq_of_lt (by omega)]

/-! ## Scales -/

/-- What both ways to choose a scale have in common: the table reaches the greatest value `a`, and
after it is rounded to `m` scales the scale that is chosen again represents all codes up to `m`. -/
structure IsScaleRule (scaleOf : ℚ → ℚ) : Prop where
  pos : ∀ {a}, 0 ≤ a → 0 < scaleOf a
  le_six : ∀ {a}, 0 ≤ a → a ≤ 6 * scaleOf a
  stable : ∀ {a x y m}, 0 < a → |x| = a / scaleOf a → IsNearest fp4Values x y → m ∈ fp4Values →
    |y| ≤ m → ∀ c ∈ fp4Values, |c| ≤ m →
      ∃ c' ∈ fp4Values, c * scaleOf a = c' * scaleOf (m * scaleOf a)

theorem le_six_of_mem (h : m ∈ fp4Values) : m ≤ 6 := by
  refine (le_abs_self m).trans ?_
  rcases mem_fp4Values.mp h with h | h | h | h | h | h | h | h <;> linarith

theorem isScaleRule_absmax : IsScaleRule absmaxScale where
  pos {a} _ := by
    rw [absmaxScale]
    split
    · linarith
    · exact one_pos
  le_six {a} _ := by
    rw [absmaxScale]
    split <;> linarith
  stable {a x y m} ha hx hy hm hym c hc _ := by
    have hscale : absmaxScale a = a / 6 := if_pos ha
    have hsix : |x| = 6 := by
      rw [hx, hscale]
      field_simp
    obtain rfl := hy.eq_of_mem (mem_fp4Values.mpr (by tauto))
    obtain rfl : m = 6 := le_antisymm (le_six_of_mem hm) (hsix ▸ hym)
    refine ⟨c, hc, ?_⟩
    rw [hscale, mul_div_cancel₀ _ (by norm_num), hscale]

theorem powerOfTwoScale_of_pos (ha : 0 < a) :
    powerOfTwoScale a 6 = 2 ^ Int.clog 2 (a / 6) := if_neg ha.ne'

theorem powerOfTwoScale_of_between {e : ℤ} (hlo : 2 ^ (e - 1) < a / 6) (hhi : a / 6 ≤ 2 ^ e) :
    powerOfTwoScale a 6 = 2 ^ e := by
  have hpos : (0 : ℚ) < a / 6 := (zpow_pos two_pos _).trans hlo
  have hle : Int.clog 2 (a / 6) ≤ e :=
    (Int.le_zpow_iff_clog_le (by decide) hpos).mp (by simpa using hhi)
  have hlt : e - 1 < Int.clog 2 (a / 6) :=
    (Int.zpow_lt_iff_lt_clog (by decide) hpos).mp (by simpa using hlo)
  rw [powerOfTwoScale_of_pos (by linarith)]
  congr 1
  omega

theorem isScaleRule_powerOfTwo : IsScaleRule (powerOfTwoScale · 6) where
  pos {a} _ := by
    rw [powerOfTwoScale]
    split
    · exact one_pos
    · exact zpow_pos two_pos _
  le_six {a} ha := by
    rcases ha.eq_or_lt with rfl | ha
    · simp [powerOfTwoScale]
    · have hle := Int.self_le_zpow_clog Nat.one_lt_two (a / 6)
      rw [powerOfTwoScale_of_pos ha]
      push_cast at hle
      linarith
  stable {a x y m} ha hx hy hm hym c hc hcm := by
    have hhi := Int.self_le_zpow_clog Nat.one_lt_two (a / 6)
    have hlo := Int.zpow_pred_clog_lt_self Nat.one_lt_two (show 0 < a / 6 by linarith)
    push_cast at hhi hlo
    have hscale := powerOfTwoScale_of_pos ha
    rw [hscale] at hx ⊢
    generalize Int.clog 2 (a / 6) = e at hhi hlo hx
    have hpos : (0 : ℚ) < 2 ^ e := zpow_pos two_pos e
    have hhalf : (2 : ℚ) ^ e = 2 * 2 ^ (e - 1) := by
      rw [zpow_sub_one₀ two_ne_zero]
      ring
    have hquarter : (2 : ℚ) ^ (e - 1) = 2 * 2 ^ (e - 1 - 1) := by
      rw [zpow_sub_one₀ two_ne_zero (e - 1)]
      ring
    have hthree : 3 < |x| := by
      rw [hx, lt_div_iff₀ hpos]
      linarith
    have hsix : |x| ≤ 6 := by
      rw [hx, div_le_iff₀ hpos]
      linarith
    have hy3 := three_le_abs hthree hsix hy
    have hmabs : |m| = m := abs_of_nonneg (by linarith)
    have hcases : m = 3 ∨ m = 4 ∨ m = 6 := by
      rw [mem_fp4Values, hmabs] at hm
      rcases hm with h | h | h | h | h | h | h | h
      iterate 5 linarith
      · exact .inl h
      · exact .inr (.inl h)
      · exact .inr (.inr h)
    rcases hcases with rfl | rfl | rfl
    · -- the scale is halved, and the codes up to three are doubled
      rw [powerOfTwoScale_of_between (e := e - 1) (by linarith) (by linarith)]
      refine ⟨2 * c, ?_, by rw [hhalf]; ring⟩
      rw [mem_fp4Values, abs_mul, abs_two]
      rcases mem_fp4Values.mp hc with h | h | h | h | h | h | h | h
      iterate 6
        rw [h]
        norm_num
      iterate 2 linarith
    · exact ⟨c, hc, by rw [powerOfTwoScale_of_between (e := e) (by linarith) (by linarith)]⟩
    · exact ⟨c, hc, by rw [powerOfTwoScale_of_between (e := e) (by linarith) (by linarith)]⟩

end Fp4

end Rllm
