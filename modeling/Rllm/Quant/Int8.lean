import Mathlib.Algebra.Order.BigOperators.Ring.Finset
import Mathlib.Data.Rat.Floor
import Rllm.Library.Codebook
import Rllm.Library.Loops
import Rllm.Library.Rounding

/-! # INT8 weights and activations

Weights are quantized by output, activations by input row. The products are
summed in an `i32`, which a long row almost fills.
-/

namespace Rllm

namespace Int8Quant

/-! ## The reference product -/

/-- The scale of a row whose greatest absolute value this is. -/
def scaleOf (absmax : ℚ) : ℚ := if 0 < absmax then absmax / 127 else 1

/-- One product, summed in an `i32`. -/
def dotTurn (qx : List ℤ) (wRow : List Int8) (acc : ℤ) (k : ℕ) : Except String ℤ := do
  let q ← Checked.index qx k
  let w ← Checked.index wRow k
  let product ← Checked.mulI32 q w.toInt
  Checked.addI32 acc product

def quantizeRow (xRow : List ℚ) (invActScale : ℚ) : List ℤ :=
  xRow.map fun v => Checked.castI32 (clamp (-127) 127 (roundAway (v * invActScale)))

def w8a8MatmulReferenceF32 (x : List ℚ) (rows inFeatures : ℕ) (qweight : List Int8)
    (weightScale : List ℚ) (outFeatures : ℕ) : Except String (List ℚ) :=
  (List.range rows).foldlM (fun output r => do
    let xRow ← Checked.slice x (r * inFeatures) ((r + 1) * inFeatures)
    let absmax := maxAbs xRow
    let actScale := scaleOf absmax
    let invActScale := 1 / actScale
    let qx := quantizeRow xRow invActScale
    writeOutputs outFeatures (fun o => do
      let wRow ← Checked.slice qweight (o * inFeatures) ((o + 1) * inFeatures)
      let acc ← (List.range inFeatures).foldlM (dotTurn qx wRow) 0
      let scale ← Checked.index weightScale o
      pure (acc * actScale * scale)) r output)
    (List.replicate (rows * outFeatures) 0)

/-! ## Quantizing weights -/

structure QuantTensor where
  data : List Int8
  shape : List ℕ

def QuantTensor.new (data : List Int8) (shape : List ℕ) : Except String QuantTensor :=
  if data.length = shape.prod then .ok { data, shape }
  else .error (s!"quant tensor data length {data.length} does not match shape {shape} " ++
    s!"({shape.prod} elements)")

/-- A float without a fraction as an `i8`, which saturates. -/
def castI8 (n : ℤ) : Int8 := Int8.ofInt (clamp (-128) 127 n)

def quantizeChannel (row : List ℚ) (scale : ℚ) : List Int8 :=
  row.map fun value => castI8 (clamp (-127) 127 (roundAway (value / scale)))

def quantizeWeightPerChannel (weight : Tensor ℚ) : Except String (QuantTensor × Tensor ℚ) :=
  match weight.shape with
  | [outFeatures, inFeatures] => do
    let rows := weight.toRows outFeatures inFeatures
    let scales := rows.map fun row => scaleOf (maxAbs row)
    let qdata := rows.flatMap fun row => quantizeChannel row (scaleOf (maxAbs row))
    let qweight ← QuantTensor.new qdata [outFeatures, inFeatures]
    let scale ← Tensor.fromVec scales [outFeatures]
    pure (qweight, scale)
  | dims => .error s!"INT8 linear weight must be rank 2, got shape {dims}"

/-! ## One value -/

variable {v absmax : ℚ}

theorem scaleOf_pos (absmax : ℚ) : 0 < scaleOf absmax := by
  rw [scaleOf]
  split
  · linarith
  · exact one_pos

theorem absmax_le (h : 0 ≤ absmax) : absmax / 127 ≤ scaleOf absmax ∧
    (absmax / 127 = scaleOf absmax ∨ absmax = 0) := by
  rcases h.eq_or_lt with rfl | hpos
  · exact ⟨by norm_num [scaleOf], .inr rfl⟩
  · rw [scaleOf, if_pos hpos]
    exact ⟨le_rfl, .inl rfl⟩

theorem roundAway_mem (h : |v| ≤ absmax) : -127 ≤ roundAway (v / scaleOf absmax) ∧
    roundAway (v / scaleOf absmax) ≤ 127 := by
  have hpos := scaleOf_pos absmax
  have hscale := (absmax_le ((abs_nonneg v).trans h)).1
  obtain ⟨hlo, hhi⟩ := abs_le.mp h
  constructor
  · refine le_roundAway ?_
    rw [le_div_iff₀ hpos]
    push_cast
    linarith
  · refine roundAway_le ?_
    rw [div_le_iff₀ hpos]
    push_cast
    linarith

theorem abs_sub_round_mul_le (h : |v| ≤ absmax) :
    |v - roundAway (v / scaleOf absmax) * scaleOf absmax| ≤ absmax / 254 := by
  have hpos := scaleOf_pos absmax
  have hround := abs_sub_roundAway_le (v / scaleOf absmax)
  have hsplit : v - roundAway (v / scaleOf absmax) * scaleOf absmax =
      (v / scaleOf absmax - roundAway (v / scaleOf absmax)) * scaleOf absmax := by
    rw [sub_mul, div_mul_cancel₀ _ hpos.ne']
  rcases (absmax_le ((abs_nonneg v).trans h)).2 with hscale | rfl
  · rw [hsplit, abs_mul, abs_of_pos hpos]
    calc _ ≤ 1 / 2 * scaleOf absmax := mul_le_mul_of_nonneg_right hround hpos.le
      _ = absmax / 254 := by rw [← hscale]; ring
  · obtain rfl : v = 0 := abs_nonpos_iff.mp h
    have hzero : roundAway (0 / scaleOf 0) = 0 := by
      rw [zero_div]
      exact le_antisymm (roundAway_le Int.cast_zero.ge) (le_roundAway Int.cast_zero.le)
    rw [hzero, Int.cast_zero, zero_mul, sub_zero, abs_zero, zero_div]

/-! ## One sum -/

variable {qx : List ℤ} {wRow : List Int8} {n : ℕ}

theorem abs_toInt_le (w : Int8) : |w.toInt| ≤ 128 := by
  have hlo := w.le_toInt
  have hhi := w.toInt_lt
  rw [abs_le]
  omega

theorem mem_i32 {a : ℤ} (h : |a| ≤ 2 ^ 31 - 1) : Checked.i32Min ≤ a ∧ a ≤ Checked.i32Max := by
  obtain ⟨hlo, hhi⟩ := abs_le.mp h
  rw [Checked.i32Min, Checked.i32Max]
  omega

/-- A row of up to `131072` inputs fits in an `i32`. -/
theorem dot_ok (hn : n ≤ 131072) (hq : qx.length = n) (hw : wRow.length = n)
    (hbound : ∀ q ∈ qx, |q| ≤ 127) :
    (List.range n).foldlM (dotTurn qx wRow) 0 =
      .ok (∑ k ∈ Finset.range n, qx.getD k 0 * (wRow.getD k 0).toInt) := by
  obtain ⟨acc, hacc, rfl, -⟩ : ∃ acc, (List.range n).foldlM (dotTurn qx wRow) 0 = .ok acc ∧
      acc = ∑ k ∈ Finset.range n, qx.getD k 0 * (wRow.getD k 0).toInt ∧ |acc| ≤ n * 16256 := by
    refine foldlM_range_inv (fun i acc => acc = ∑ k ∈ Finset.range i,
      qx.getD k 0 * (wRow.getD k 0).toInt ∧ |acc| ≤ i * 16256) (by simp) ?_
    rintro i hi acc ⟨hsum, hle⟩
    have hqi : |qx.getD i 0| ≤ 127 := by
      rw [List.getD_eq_getElem?_getD, List.getElem?_eq_getElem (hi.trans_eq hq.symm),
        Option.getD_some]
      exact hbound _ (List.getElem_mem _)
    have hproduct : |qx.getD i 0 * (wRow.getD i 0).toInt| ≤ 16256 := by
      rw [abs_mul]
      calc _ ≤ 127 * 128 := mul_le_mul hqi (abs_toInt_le _) (abs_nonneg _) (by norm_num)
        _ = 16256 := by norm_num
    have hnext : |acc + qx.getD i 0 * (wRow.getD i 0).toInt| ≤ ((i + 1 : ℕ) : ℤ) * 16256 := by
      refine (abs_add_le _ _).trans ?_
      push_cast
      linarith
    have hmul := mem_i32 (hproduct.trans (by norm_num))
    have hadd := mem_i32 (hnext.trans (by push_cast; omega))
    refine ⟨_, ?_, ?_, hnext⟩
    · rw [dotTurn, Checked.index_getD 0 (hi.trans_eq hq.symm), ok_bind,
        Checked.index_getD 0 (hi.trans_eq hw.symm), ok_bind, Checked.mulI32,
        Checked.toI32_of_le hmul.1 hmul.2, ok_bind, Checked.addI32,
        Checked.toI32_of_le hadd.1 hadd.2]
      rfl
    · rw [Finset.sum_range_succ, hsum]
  exact hacc

/-- The error of a sum whose factors are each off by at most a bound. -/
theorem abs_dot_error {f g w : ℕ → ℚ} {act scale bound : ℚ} (hscale : 0 ≤ scale)
    (h : ∀ k < n, |g k - f k * act| ≤ bound) :
    |(∑ k ∈ Finset.range n, f k * w k) * act * scale - ∑ k ∈ Finset.range n, g k * w k * scale| ≤
      bound * scale * ∑ k ∈ Finset.range n, |w k| := by
  rw [Finset.sum_mul, Finset.sum_mul, ← Finset.sum_sub_distrib, Finset.mul_sum]
  refine (Finset.abs_sum_le_sum_abs _ _).trans (Finset.sum_le_sum fun k hk => ?_)
  have hsplit : f k * w k * act * scale - g k * w k * scale =
      -((g k - f k * act) * scale * w k) := by ring
  rw [hsplit, abs_neg, abs_mul, abs_mul, abs_of_nonneg hscale]
  exact mul_le_mul_of_nonneg_right
    (mul_le_mul_of_nonneg_right (h k (Finset.mem_range.mp hk)) hscale) (abs_nonneg _)

/-! ## The product -/

variable {x xRow weightScale : List ℚ} {qweight : List Int8} {rows inFeatures outFeatures : ℕ}

/-- The greatest absolute value of a row. -/
def absmaxOf (x : List ℚ) (inFeatures r : ℕ) : ℚ :=
  maxAbs ((x.drop (r * inFeatures)).take inFeatures)

/-- The product with the weights alone quantized. -/
def w8a16 (x : List ℚ) (inFeatures : ℕ) (qweight : List Int8) (weightScale : List ℚ)
    (r o : ℕ) : ℚ :=
  ∑ k ∈ Finset.range inFeatures,
    gridAt 0 x inFeatures r k * (gridAt 0 qweight inFeatures o k).toInt * weightScale.getD o 0

theorem quantizeRow_eq (xRow : List ℚ) : quantizeRow xRow (1 / scaleOf (maxAbs xRow)) =
    xRow.map fun v => roundAway (v / scaleOf (maxAbs xRow)) := by
  refine List.map_congr_left fun v hv => ?_
  obtain ⟨hlo, hhi⟩ := roundAway_mem (abs_le_maxAbs hv)
  rw [mul_one_div, clamp_of_mem hlo hhi]
  exact Checked.castI32_of_le (le_trans (by decide) hlo) (hhi.trans (by decide))

theorem abs_le_of_mem_quantizeRow {q : ℤ}
    (hq : q ∈ quantizeRow xRow (1 / scaleOf (maxAbs xRow))) : |q| ≤ 127 := by
  rw [quantizeRow_eq] at hq
  obtain ⟨v, hv, rfl⟩ := List.mem_map.mp hq
  exact abs_le.mpr (roundAway_mem (abs_le_maxAbs hv))

/-- The entry of the output, as the loop computes it. -/
def w8a8At (x : List ℚ) (inFeatures : ℕ) (qweight : List Int8) (weightScale : List ℚ)
    (r o : ℕ) : ℚ :=
  let scale := scaleOf (absmaxOf x inFeatures r)
  (∑ k ∈ Finset.range inFeatures, (roundAway (gridAt 0 x inFeatures r k / scale) *
    (gridAt 0 qweight inFeatures o k).toInt : ℤ)) * scale * weightScale.getD o 0

theorem row_dot_ok {r o : ℕ} (hin : inFeatures ≤ 131072)
    (hx : (r + 1) * inFeatures ≤ x.length) (hq : (o + 1) * inFeatures ≤ qweight.length) :
    (List.range inFeatures).foldlM
        (dotTurn (quantizeRow ((x.drop (r * inFeatures)).take inFeatures)
            (1 / scaleOf (absmaxOf x inFeatures r)))
          ((qweight.drop (o * inFeatures)).take inFeatures)) 0 =
      .ok (∑ k ∈ Finset.range inFeatures,
        roundAway (gridAt 0 x inFeatures r k / scaleOf (absmaxOf x inFeatures r)) *
          (gridAt 0 qweight inFeatures o k).toInt) := by
  rw [absmaxOf, dot_ok hin _ (length_block hq) fun q => abs_le_of_mem_quantizeRow]
  · congr 1
    refine Finset.sum_congr rfl fun k hk => ?_
    have hk := Finset.mem_range.mp hk
    rw [getD_block _ _ hk, quantizeRow_eq, gridAt_eq_get 0 hx hk, List.getD_eq_getElem?_getD,
      List.getElem?_map, List.getElem?_eq_getElem (hk.trans_eq (length_block hx).symm),
      Option.map_some, Option.getD_some]
    rfl
  · rw [quantizeRow, List.length_map, length_block hx]

theorem w8a8MatmulReferenceF32_ok (hin : inFeatures ≤ 131072) (hx : rows * inFeatures ≤ x.length)
    (hq : outFeatures * inFeatures ≤ qweight.length) (hs : outFeatures ≤ weightScale.length) :
    w8a8MatmulReferenceF32 x rows inFeatures qweight weightScale outFeatures =
      .ok ((List.range (rows * outFeatures)).map fun p =>
        w8a8At x inFeatures qweight weightScale (p / outFeatures) (p % outFeatures)) := by
  obtain ⟨output, houtput, hfilled⟩ : ∃ output,
      w8a8MatmulReferenceF32 x rows inFeatures qweight weightScale outFeatures = .ok output ∧
        Filled (fun p => w8a8At x inFeatures qweight weightScale (p / outFeatures)
          (p % outFeatures)) (rows * outFeatures) (rows * outFeatures) output := by
    refine foldlM_range_inv (fun r => Filled _ (rows * outFeatures) (r * outFeatures)) ?_ ?_
    · exact ⟨List.length_replicate, fun p hp => by simp at hp⟩
    · intro r hr output hfilled
      have hrow : (r + 1) * inFeatures ≤ x.length := (Nat.mul_le_mul_right _ hr).trans hx
      rw [Checked.slice_block hrow, ok_bind]
      refine writeOutputs_filled hr (fun o ho => ?_) hfilled
      have hweights : (o + 1) * inFeatures ≤ qweight.length :=
        (Nat.mul_le_mul_right _ ho).trans hq
      have hdot := row_dot_ok hin hrow hweights
      rw [absmaxOf] at hdot
      rw [Checked.slice_block hweights, ok_bind]
      rw [hdot, ok_bind, Checked.index_getD 0 (ho.trans_le hs), ok_bind]
      rfl
  rw [houtput, hfilled.eq_map]

theorem abs_w8a8At_sub_le {r o : ℕ} (hx : (r + 1) * inFeatures ≤ x.length)
    (hs : 0 ≤ weightScale.getD o 0) :
    |w8a8At x inFeatures qweight weightScale r o - w8a16 x inFeatures qweight weightScale r o| ≤
      absmaxOf x inFeatures r / 254 * weightScale.getD o 0 *
        ∑ k ∈ Finset.range inFeatures, |((gridAt 0 qweight inFeatures o k).toInt : ℚ)| := by
  rw [w8a8At, w8a16]
  push_cast
  refine abs_dot_error hs fun k hk => ?_
  have hmem : gridAt 0 x inFeatures r k ∈ (x.drop (r * inFeatures)).take inFeatures := by
    rw [gridAt_eq_get 0 hx hk]
    exact List.getElem_mem _
  exact abs_sub_round_mul_le (abs_le_maxAbs hmem)

/-! ## The weights -/

theorem toInt_castI8 {m : ℤ} (hlo : -127 ≤ m) (hhi : m ≤ 127) : (castI8 m).toInt = m := by
  rw [castI8, clamp_of_mem (by omega) hhi]
  exact Int8.toInt_ofInt_of_le (by omega) (by omega)

/-- A weight and its quantized value. -/
structure EntryQuantized (w scale : ℚ) (q : ℤ) : Prop where
  scale_pos : 0 < scale
  error_le : |w - q * scale| ≤ scale / 2
  q_le : |q| ≤ 127

theorem entryQuantized {w : ℚ} {row : List ℚ} (hw : w ∈ row) :
    EntryQuantized w (scaleOf (maxAbs row)) (castI8 (clamp (-127) 127
      (roundAway (w / scaleOf (maxAbs row))))).toInt := by
  have hle := abs_le_maxAbs hw
  obtain ⟨hlo, hhi⟩ := roundAway_mem hle
  rw [clamp_of_mem hlo hhi, toInt_castI8 hlo hhi]
  refine ⟨scaleOf_pos _, (abs_sub_round_mul_le hle).trans ?_, abs_le.mpr ⟨hlo, hhi⟩⟩
  have hscale := (absmax_le (maxAbs_nonneg row)).1
  linarith

theorem quantizeWeightPerChannel_ok {weight : Tensor ℚ}
    (hshape : weight.shape = [outFeatures, inFeatures]) :
    ∃ qweight scale, quantizeWeightPerChannel weight = .ok (qweight, scale) ∧
      qweight.data.length = outFeatures * inFeatures ∧ scale.data.length = outFeatures ∧
      ∀ o < outFeatures, ∀ k < inFeatures, EntryQuantized (gridAt 0 weight.data inFeatures o k)
        (scale.data.getD o 0) (gridAt 0 qweight.data inFeatures o k).toInt := by
  have hsize : weight.data.length = outFeatures * inFeatures := by
    rw [weight.size_eq, hshape, List.prod_cons, List.prod_singleton]
  set rows := weight.toRows outFeatures inFeatures with hrows
  have hlen : ∀ row ∈ rows, (quantizeChannel row (scaleOf (maxAbs row))).length = inFeatures := by
    intro row hrow
    rw [quantizeChannel, List.length_map, Tensor.length_of_mem_toRows hsize row hrow]
  have hdata : (rows.flatMap fun row => quantizeChannel row (scaleOf (maxAbs row))).length =
      outFeatures * inFeatures := by
    rw [length_flatMap_block hlen, Tensor.length_toRows]
  have hscales : (rows.map fun row => scaleOf (maxAbs row)).length = outFeatures := by
    rw [List.length_map, Tensor.length_toRows]
  refine ⟨⟨_, [outFeatures, inFeatures]⟩, ⟨[outFeatures], _, ?_⟩, ?_, hdata, hscales, ?_⟩
  · rw [hscales, List.prod_singleton]
  · rw [quantizeWeightPerChannel, hshape]
    dsimp only
    rw [← hrows, QuantTensor.new, if_pos (by rw [hdata, List.prod_cons, List.prod_singleton]),
      ok_bind, Tensor.fromVec_ok (by rw [hscales, List.prod_singleton])]
    rfl
  · intro o ho k hk
    have hend : (o + 1) * inFeatures ≤ weight.data.length :=
      (Nat.mul_le_mul_right _ ho).trans_eq hsize.symm
    have hrow : rows[o]? = some ((weight.data.drop (o * inFeatures)).take inFeatures) :=
      Tensor.getElem?_toRows ho
    have hin : k < ((weight.data.drop (o * inFeatures)).take inFeatures).length := by
      rwa [length_block hend]
    have hscale : (rows.map fun row => scaleOf (maxAbs row)).getD o 0 =
        scaleOf (maxAbs ((weight.data.drop (o * inFeatures)).take inFeatures)) := by
      rw [List.getD_eq_getElem?_getD, List.getElem?_map, hrow, Option.map_some, Option.getD_some]
    have hcode : gridAt 0 (rows.flatMap fun row => quantizeChannel row (scaleOf (maxAbs row)))
        inFeatures o k = castI8 (clamp (-127) 127 (roundAway
          (((weight.data.drop (o * inFeatures)).take inFeatures).get ⟨k, hin⟩ /
            scaleOf (maxAbs ((weight.data.drop (o * inFeatures)).take inFeatures))))) := by
      rw [gridAt, List.getD_eq_getElem?_getD, getElem?_flatMap_block hlen hk, hrow,
        Option.bind_some, quantizeChannel, List.getElem?_map, List.getElem?_eq_getElem hin,
        Option.map_some, Option.getD_some]
      rfl
    change EntryQuantized _ ((rows.map _).getD o 0)
      (gridAt (0 : Int8) (rows.flatMap _) inFeatures o k).toInt
    rw [gridAt_eq_get 0 hend hk, hscale, hcode]
    exact entryQuantized (List.getElem_mem _)

variable (x weightScale qweight rows inFeatures outFeatures) in
/-- The product is near that with the weights alone quantized, and quantized weights are near. -/
theorem w8a8_error (hin : inFeatures ≤ 131072) (hx : rows * inFeatures ≤ x.length)
    (hq : outFeatures * inFeatures ≤ qweight.length) (hs : outFeatures ≤ weightScale.length)
    (hpos : ∀ scale ∈ weightScale, 0 < scale) :
    (∃ output, w8a8MatmulReferenceF32 x rows inFeatures qweight weightScale outFeatures =
        .ok output ∧ output.length = rows * outFeatures ∧
      ∀ r < rows, ∀ o < outFeatures,
        |gridAt 0 output outFeatures r o - w8a16 x inFeatures qweight weightScale r o| ≤
          absmaxOf x inFeatures r / 254 * weightScale.getD o 0 *
            ∑ k ∈ Finset.range inFeatures, |((gridAt 0 qweight inFeatures o k).toInt : ℚ)|) ∧
    ∀ weight : Tensor ℚ, ∀ outputs inputs, weight.shape = [outputs, inputs] →
      ∃ qweight scale, quantizeWeightPerChannel weight = .ok (qweight, scale) ∧
        qweight.data.length = outputs * inputs ∧ scale.data.length = outputs ∧
        ∀ o < outputs, ∀ k < inputs, EntryQuantized (gridAt 0 weight.data inputs o k)
          (scale.data.getD o 0) (gridAt 0 qweight.data inputs o k).toInt := by
  refine ⟨⟨_, w8a8MatmulReferenceF32_ok hin hx hq hs, ?_, ?_⟩, ?_⟩
  · rw [List.length_map, List.length_range]
  · intro r hr o ho
    have hscale : 0 ≤ weightScale.getD o 0 := by
      rw [List.getD_eq_getElem?_getD, List.getElem?_eq_getElem (ho.trans_le hs), Option.getD_some]
      exact (hpos _ (List.getElem_mem _)).le
    rw [gridAt, getD_map_range _ (block_lt hr ho), block_div ho, block_mod ho]
    exact abs_w8a8At_sub_le ((Nat.mul_le_mul_right _ hr).trans hx) hscale
  · intro weight outputs inputs
    exact quantizeWeightPerChannel_ok

/-- Two inputs, one quantized exactly and one not, and two outputs. -/
theorem w8a8_error_pair :
    ∃ output, w8a8MatmulReferenceF32 [2, 4] 1 2 [2, -4, 8, 3] [1 / 2, 1 / 4] 2 = .ok output ∧
      |gridAt 0 output 2 0 1 - w8a16 [2, 4] 2 [2, -4, 8, 3] [1 / 2, 1 / 4] 0 1| ≤
        absmaxOf [2, 4] 2 0 / 254 * (1 / 4) * 11 := by
  obtain ⟨output, houtput, -, herror⟩ := (w8a8_error [2, 4] [1 / 2, 1 / 4] [2, -4, 8, 3] 1 2 2
    (by decide) (by decide) (by decide) (by decide) (by decide +kernel)).1
  refine ⟨output, houtput, (herror 0 Nat.one_pos 1 Nat.one_lt_two).trans_eq ?_⟩
  decide +kernel

end Int8Quant

end Rllm
