import Rllm.Core.Config
import Rllm.Library.Checked
import Rllm.Library.Loops
import Rllm.Model.Gptq
import Rllm.Model.Routing

/-! # Block-scaled matrices

FP8 weights that share a scale in square blocks, the last ones of a row or column
in part. One layer expands the scales to the shape of the weights, the stacked
experts look up the scale of every weight. Both are sums of scaled products.
-/

namespace Rllm

open Gptq

section Layers

variable {V : Type}

def dims3 {α : Type} (t : Tensor α) : Except String (ℕ × ℕ × ℕ) :=
  match t.shape with
  | [depth, rows, cols] => .ok (depth, rows, cols)
  | _ => .error "unexpected rank"

theorem dims3_ok {α : Type} {t : Tensor α} {depth rows cols : ℕ}
    (ht : t.shape = [depth, rows, cols]) : dims3 t = .ok (depth, rows, cols) := by
  rw [dims3, ht]

/-- `div_ceil`, which panics for a zero divisor. -/
def checkedDivCeil (n d : ℕ) : Except String ℕ :=
  if d = 0 then .error "attempt to divide by zero" else .ok (divCeil n d)

/-- A sum of terms, one for each column. -/
def accumulate (O : MoeOps V) (inFeatures : ℕ) (term : ℕ → Except String V) : Except String V :=
  (List.range inFeatures).foldlM (fun acc col => do
    let x ← term col
    pure (O.add acc x)) O.zero

/-! ## Stacked experts -/

/-- Stacked FP8 matrices for routed experts. -/
structure SelectedBlockFp8Experts (V : Type) where
  weights : Tensor UInt8
  scales : Tensor V
  blockSize : ℕ

namespace SelectedBlockFp8Experts

/-- The weights are bytes, so that their type is the expected one. -/
def new (weights : Tensor UInt8) (scales : Tensor V) (blockSize : ℕ) :
    Except String (SelectedBlockFp8Experts V) := do
  let (numExperts, outFeatures, inFeatures) ← dims3 weights
  let outBlocks ← checkedDivCeil outFeatures blockSize
  let inBlocks ← checkedDivCeil inFeatures blockSize
  let expected := [numExperts, outBlocks, inBlocks]
  if scales.shape = expected then pure { weights, scales, blockSize }
  else .error ("selected expert FP8 tensors have invalid dtype/shape: weights=F8E4M3 scales=" ++
    toString scales.shape ++ ", expected scales=" ++ toString expected)

variable (O : MoeOps V) (decode : UInt8 → V)

/-- What one column adds to an output. -/
def term (inputValues weightValues scaleValues : List V)
    (outFeatures inFeatures outBlocks inBlocks blockSize expert inputRow out col : ℕ) :
    Except String V := do
  let weightIndex := (expert * outFeatures + out) * inFeatures + col
  let scaleIndex := expert * outBlocks * inBlocks + (out / blockSize) * inBlocks + col / blockSize
  let x ← Checked.index inputValues (inputRow * inFeatures + col)
  let w ← Checked.index weightValues weightIndex
  let s ← Checked.index scaleValues scaleIndex
  pure (O.mul (O.mul x w) s)

/-- The rows of the input times the matrices of the given experts. -/
def forwardReference (experts : SelectedBlockFp8Experts V) (input : Tensor V)
    (expertIds : Tensor UInt32) (sharedInput : Bool) : Except String (Tensor V) := do
  let (numExperts, outFeatures, inFeatures) ← dims3 experts.weights
  let (tokens, topK) ← dims2 expertIds
  let weightValues := experts.weights.data.map decode
  let inBlocks ← checkedDivCeil inFeatures experts.blockSize
  let outBlocks ← checkedDivCeil outFeatures experts.blockSize
  let output ← (List.range tokens).foldlM (fun output token =>
    (List.range topK).foldlM (fun output route => do
      let id ← Checked.index expertIds.data (token * topK + route)
      let expert := id.toNat
      if numExperts ≤ expert then
        .error ("expert id " ++ toString expert ++ " is out of range")
      else
        let inputRow := if sharedInput then token else token * topK + route
        writeOutputs outFeatures (fun out => accumulate O inFeatures (term O input.data weightValues
          experts.scales.data outFeatures inFeatures outBlocks inBlocks experts.blockSize expert
          inputRow out)) (token * topK + route) output) output)
    (List.replicate (tokens * topK * outFeatures) O.zero)
  Tensor.fromVec output [tokens, topK, outFeatures]

end SelectedBlockFp8Experts

/-! ## One layer -/

/-- Linear weight using DeepSeek's two-dimensional block-scaled FP8 format. -/
structure BlockFp8Linear (V : Type) where
  weight : Tensor UInt8
  scales : Tensor V
  blockSize : ℕ

namespace BlockFp8Linear

def new (weight : Tensor UInt8) (scales : Tensor V) (blockSize : ℕ) :
    Except String (BlockFp8Linear V) := do
  let (outFeatures, inFeatures) ← dims2 weight
  let outBlocks ← checkedDivCeil outFeatures blockSize
  let inBlocks ← checkedDivCeil inFeatures blockSize
  let expected := [outBlocks, inBlocks]
  if scales.shape = expected then pure { weight, scales, blockSize }
  else .error ("DeepSeek FP8 scale shape must be " ++ toString expected ++ ", got " ++
    toString scales.shape)

variable (O : MoeOps V) (decode : UInt8 → V)

/-- All dimensions of a shape but the last one. -/
def leading (shape : List ℕ) : Except String (List ℕ) :=
  if shape.length = 0 then .error "attempt to subtract with overflow" else .ok shape.dropLast

/-- The scales in the shape of the weights. -/
def expandScales (scales : Tensor V) (outBlocks inBlocks blockSize outFeatures inFeatures : ℕ) :
    Except String (Tensor V) := do
  let scales ← O.reshape scales [outBlocks, 1, inBlocks, 1]
  let scales ← O.repeatDim scales 1 blockSize
  let scales ← O.repeatDim scales 3 blockSize
  let scales ← O.reshape scales [outBlocks * blockSize, inBlocks * blockSize]
  let scales ← O.narrow scales 0 0 outFeatures
  O.narrow scales 1 0 inFeatures

def forwardReference (linear : BlockFp8Linear V) (input : Tensor V) :
    Except String (Tensor V) := do
  let (outFeatures, inFeatures) ← dims2 linear.weight
  let outBlocks ← checkedDivCeil outFeatures linear.blockSize
  let inBlocks ← checkedDivCeil inFeatures linear.blockSize
  let expandedScales ←
    expandScales O linear.scales outBlocks inBlocks linear.blockSize outFeatures inFeatures
  let weight ← O.zipWith O.mul (linear.weight.map decode) expandedScales
  let dims ← leading input.shape
  let rows := dims.prod
  let input ← O.reshape input [rows, inFeatures]
  let weight ← O.transpose weight
  let output ← O.matmul O.mul O.sum input weight
  O.reshape output (dims ++ [outFeatures])

end BlockFp8Linear

/-! ## The product -/

/-- The weight of a column for an output of an expert. A layer is a stack of one matrix. -/
def weightAt (weights : List UInt8) (outFeatures inFeatures expert out col : ℕ) : UInt8 :=
  gridAt 0 weights inFeatures (expert * outFeatures + out) col

variable (O : MoeOps V) (decode : UInt8 → V)

/-- The scale of the block that the weight is in. -/
def scaleAt (scales : List V) (blockSize outFeatures inFeatures expert out col : ℕ) : V :=
  gridAt O.zero scales (divCeil inFeatures blockSize)
    (expert * divCeil outFeatures blockSize + out / blockSize) (col / blockSize)

/-- `x[row][col] * w[out][col] * scale[out / block_size][col / block_size]` for the matrix of an
expert, summed over the columns. -/
def scaledDot (weights : List UInt8) (scales xs : List V) (blockSize outFeatures inFeatures : ℕ)
    (expert row out : ℕ) : V :=
  O.sum ((List.range inFeatures).map fun col =>
    O.mul (O.mul (gridAt O.zero xs inFeatures row col)
        (decode (weightAt weights outFeatures inFeatures expert out col)))
      (scaleAt O scales blockSize outFeatures inFeatures expert out col))

/-- The call returns the table of these entries. -/
def Computes (result : Except String (Tensor V)) (shape : List ℕ) (rows cols : ℕ)
    (f : ℕ → ℕ → V) : Prop :=
  ∃ y, result = .ok y ∧ y.shape = shape ∧ y.data = grid rows cols f

variable {O decode}

theorem accumulate_ok {n : ℕ} {term : ℕ → Except String V} {f : ℕ → V}
    (h : ∀ col < n, term col = .ok (f col)) :
    accumulate O n term = .ok (O.sum ((List.range n).map f)) := by
  rw [MoeOps.sum, List.foldl_map]
  refine foldlM_eq_pure (fun acc col hcol => ?_) O.zero
  rw [h col (List.mem_range.mp hcol), ok_bind]

theorem checkedDivCeil_eq_ok {n d m : ℕ} :
    checkedDivCeil n d = .ok m ↔ 0 < d ∧ divCeil n d = m := by
  rw [checkedDivCeil]
  split
  · rename_i h
    simp [h]
  · rename_i h
    simp [Nat.pos_of_ne_zero h]

theorem checkedDivCeil_of_pos {d : ℕ} (n : ℕ) (hd : 0 < d) :
    checkedDivCeil n d = .ok (divCeil n d) := checkedDivCeil_eq_ok.mpr ⟨hd, rfl⟩

/-! ## The stacked experts -/

variable {numExperts outFeatures inFeatures blockSize tokens topK : ℕ}

theorem SelectedBlockFp8Experts.new_eq_ok {weights : Tensor UInt8} {scales : Tensor V}
    {experts : SelectedBlockFp8Experts V} (h : new weights scales blockSize = .ok experts)
    (hw : weights.shape = [numExperts, outFeatures, inFeatures]) :
    experts = ⟨weights, scales, blockSize⟩ ∧ 0 < blockSize ∧ scales.data.length =
      numExperts * divCeil outFeatures blockSize * divCeil inFeatures blockSize := by
  rw [new, dims3_ok hw, ok_bind] at h
  obtain ⟨outBlocks, hout, h⟩ := bind_eq_ok.mp h
  obtain ⟨inBlocks, hin, h⟩ := bind_eq_ok.mp h
  obtain ⟨hpos, rfl⟩ := checkedDivCeil_eq_ok.mp hout
  obtain ⟨-, rfl⟩ := checkedDivCeil_eq_ok.mp hin
  dsimp only at h
  split_ifs at h with hshape
  refine ⟨(Except.ok.inj h).symm, hpos, ?_⟩
  rw [scales.size_eq, hshape]
  simp [Nat.mul_assoc]

theorem SelectedBlockFp8Experts.new_ok {weights : Tensor UInt8} {scales : Tensor V}
    (hbs : 0 < blockSize) (hw : weights.shape = [numExperts, outFeatures, inFeatures])
    (hs : scales.shape =
      [numExperts, divCeil outFeatures blockSize, divCeil inFeatures blockSize]) :
    new weights scales blockSize = .ok ⟨weights, scales, blockSize⟩ := by
  rw [new, dims3_ok hw, ok_bind]
  dsimp only
  rw [checkedDivCeil_of_pos _ hbs, ok_bind, checkedDivCeil_of_pos _ hbs, ok_bind, if_pos hs]
  rfl

/-- The tensors of a call have the shapes of the experts, and its expert ids are in range. -/
structure ExpertCall (numExperts outFeatures inFeatures tokens topK : ℕ) (sharedInput : Bool)
    (weights : Tensor UInt8) (input : Tensor V) (expertIds : Tensor UInt32) : Prop where
  weights_shape : weights.shape = [numExperts, outFeatures, inFeatures]
  input_length : input.data.length =
    (if sharedInput then tokens else tokens * topK) * inFeatures
  ids_shape : expertIds.shape = [tokens, topK]
  ids_lt : ∀ id ∈ expertIds.data, id.toNat < numExperts

variable (O decode) in
/-- The entry of a row, of which there is one for each token and route. -/
def expertEntry (weights : Tensor UInt8) (scales input : Tensor V) (expertIds : Tensor UInt32)
    (blockSize outFeatures inFeatures topK : ℕ) (sharedInput : Bool) (row out : ℕ) : V :=
  scaledDot O decode weights.data scales.data input.data blockSize outFeatures inFeatures
    (expertIds.data.getD row 0).toNat (if sharedInput then row / topK else row) out

section Expert

variable {sharedInput : Bool} {weights : Tensor UInt8} {scales input : Tensor V}
  {expertIds : Tensor UInt32}

theorem inputRow_lt {row : ℕ} (hrow : row < tokens * topK) :
    (if sharedInput then row / topK else row) <
      if sharedInput then tokens else tokens * topK := by
  cases sharedInput with
  | true => exact Nat.div_lt_of_lt_mul (by rwa [Nat.mul_comm])
  | false => exact hrow

namespace ExpertCall

variable (h : ExpertCall numExperts outFeatures inFeatures tokens topK sharedInput weights input
  expertIds)
include h

theorem ids_length : expertIds.data.length = tokens * topK := by
  rw [expertIds.size_eq, h.ids_shape, List.prod_pair]

theorem getElem?_ids {row : ℕ} (hrow : row < tokens * topK) :
    expertIds.data[row]? = some (expertIds.data.getD row 0) := by
  rw [List.getD_eq_getElem?_getD, List.getElem?_eq_getElem (hrow.trans_eq h.ids_length.symm),
    Option.getD_some]

theorem id_lt {row : ℕ} (hrow : row < tokens * topK) :
    (expertIds.data.getD row 0).toNat < numExperts :=
  h.ids_lt _ (List.mem_of_getElem? (h.getElem?_ids hrow))

theorem getElem?_input {row col : ℕ} (hrow : row < tokens * topK) (hcol : col < inFeatures) :
    input.data[(if sharedInput then row / topK else row) * inFeatures + col]? =
      some (gridAt O.zero input.data inFeatures (if sharedInput then row / topK else row) col) := by
  exact getElem?_gridAt _ h.input_length (inputRow_lt hrow) hcol

theorem weights_length : weights.data.length = numExperts * outFeatures * inFeatures := by
  rw [weights.size_eq, h.weights_shape]
  simp [Nat.mul_assoc]

end ExpertCall

theorem getElem?_weights {expert out col : ℕ}
    (hw : weights.data.length = numExperts * outFeatures * inFeatures)
    (hexpert : expert < numExperts) (hout : out < outFeatures) (hcol : col < inFeatures) :
    weights.data[(expert * outFeatures + out) * inFeatures + col]? =
      some (weightAt weights.data outFeatures inFeatures expert out col) :=
  getElem?_gridAt _ hw (block_lt hexpert hout) hcol

theorem getElem?_scales {expert out col : ℕ} (hbs : 0 < blockSize)
    (hs : scales.data.length =
      numExperts * divCeil outFeatures blockSize * divCeil inFeatures blockSize)
    (hexpert : expert < numExperts) (hout : out < outFeatures) (hcol : col < inFeatures) :
    scales.data[(expert * divCeil outFeatures blockSize + out / blockSize) *
        divCeil inFeatures blockSize + col / blockSize]? =
      some (scaleAt O scales.data blockSize outFeatures inFeatures expert out col) :=
  getElem?_gridAt _ hs (block_lt hexpert (lt_divCeil_of_lt hbs hout)) (lt_divCeil_of_lt hbs hcol)

namespace SelectedBlockFp8Experts

variable (O decode) in
theorem accumulate_term (hbs : 0 < blockSize)
    (hscales : scales.data.length =
      numExperts * divCeil outFeatures blockSize * divCeil inFeatures blockSize)
    (h : ExpertCall numExperts outFeatures inFeatures tokens topK sharedInput weights input
      expertIds) {row : ℕ} (hrow : row < tokens * topK) : ∀ out < outFeatures,
    accumulate O inFeatures (term O input.data (weights.data.map decode) scales.data outFeatures
        inFeatures (divCeil outFeatures blockSize) (divCeil inFeatures blockSize) blockSize
        (expertIds.data.getD row 0).toNat (if sharedInput then row / topK else row) out) =
      .ok (expertEntry O decode weights scales input expertIds blockSize outFeatures inFeatures
        topK sharedInput row out) := by
  refine fun out hout => accumulate_ok fun col hcol => ?_
  have hweight := getElem?_weights h.weights_length (h.id_lt hrow) hout hcol
  have hscale := getElem?_scales (O := O) hbs hscales (h.id_lt hrow) hout hcol
  rw [Nat.add_mul] at hscale
  rw [term, Checked.index_of_eq (h.getElem?_input (O := O) hrow hcol), ok_bind,
    Checked.index_of_eq (by rw [List.getElem?_map, hweight, Option.map_some]), ok_bind,
    Checked.index_of_eq hscale, ok_bind]
  rfl

variable (O decode) in
/-- The reference computes every row and output. -/
theorem forwardReference_spec {experts : SelectedBlockFp8Experts V}
    (hnew : new weights scales blockSize = .ok experts)
    (h : ExpertCall numExperts outFeatures inFeatures tokens topK sharedInput weights input
      expertIds) :
    Computes (experts.forwardReference O decode input expertIds sharedInput)
      [tokens, topK, outFeatures] (tokens * topK) outFeatures
      (expertEntry O decode weights scales input expertIds blockSize outFeatures inFeatures topK
        sharedInput) := by
  obtain ⟨rfl, hbs, hscales⟩ := new_eq_ok hnew h.weights_shape
  set entry := expertEntry O decode weights scales input expertIds blockSize outFeatures
    inFeatures topK sharedInput with hentry
  have hstart : Filled (fun k => entry (k / outFeatures) (k % outFeatures))
      (tokens * topK * outFeatures) (0 * outFeatures)
      (List.replicate (tokens * topK * outFeatures) O.zero) :=
    ⟨List.length_replicate, fun p hp => absurd hp (by rw [Nat.zero_mul]; exact Nat.not_lt_zero p)⟩
  rw [forwardReference, dims3_ok h.weights_shape, ok_bind]
  dsimp only
  rw [dims2_ok h.ids_shape, ok_bind]
  dsimp only
  rw [checkedDivCeil_of_pos _ hbs, ok_bind, checkedDivCeil_of_pos _ hbs, ok_bind]
  refine exists_bind (foldlM_nested_inv (fun row => Filled _ _ (row * outFeatures)) hstart ?_)
    fun output hfilled => ?_
  · intro token htoken route hroute output hfilled
    have hrow : token * topK + route < tokens * topK := block_lt htoken hroute
    have hdot := accumulate_term O decode hbs hscales h hrow
    rw [block_div hroute] at hdot
    rw [Checked.index_of_eq (h.getElem?_ids hrow), ok_bind,
      if_neg (Nat.not_le.mpr (h.id_lt hrow))]
    exact writeOutputs_filled hrow hdot hfilled
  · have hfinal : output = grid (tokens * topK) outFeatures entry := by
      rw [hfilled.eq_map, map_range_eq_grid]
    have hlen : output.length = [tokens, topK, outFeatures].prod := by
      rw [hfinal, length_grid]
      simp [Nat.mul_assoc]
    exact ⟨_, Tensor.fromVec_ok hlen, rfl, hfinal⟩

end SelectedBlockFp8Experts

end Expert

/-! ## The layer -/

namespace BlockFp8Linear

theorem new_eq_ok {weight : Tensor UInt8} {scales : Tensor V} {linear : BlockFp8Linear V}
    (h : new weight scales blockSize = .ok linear) (hw : weight.shape = [outFeatures, inFeatures]) :
    linear = ⟨weight, scales, blockSize⟩ ∧ 0 < blockSize ∧
      scales.shape = [divCeil outFeatures blockSize, divCeil inFeatures blockSize] := by
  rw [new, dims2_ok hw, ok_bind] at h
  obtain ⟨outBlocks, hout, h⟩ := bind_eq_ok.mp h
  obtain ⟨inBlocks, hin, h⟩ := bind_eq_ok.mp h
  obtain ⟨hpos, rfl⟩ := checkedDivCeil_eq_ok.mp hout
  obtain ⟨-, rfl⟩ := checkedDivCeil_eq_ok.mp hin
  dsimp only at h
  split_ifs at h with hshape
  exact ⟨(Except.ok.inj h).symm, hpos, hshape⟩

theorem new_ok {weight : Tensor UInt8} {scales : Tensor V} (hbs : 0 < blockSize)
    (hw : weight.shape = [outFeatures, inFeatures])
    (hs : scales.shape = [divCeil outFeatures blockSize, divCeil inFeatures blockSize]) :
    new weight scales blockSize = .ok ⟨weight, scales, blockSize⟩ := by
  rw [new, dims2_ok hw, ok_bind]
  dsimp only
  rw [checkedDivCeil_of_pos _ hbs, ok_bind, checkedDivCeil_of_pos _ hbs, ok_bind, if_pos hs]
  rfl

theorem expandScales_ok (hT : O.toTensorOps.Lawful) {scales : Tensor V} (hbs : 0 < blockSize)
    (hs : scales.shape = [divCeil outFeatures blockSize, divCeil inFeatures blockSize]) :
    ∃ r, expandScales O scales (divCeil outFeatures blockSize) (divCeil inFeatures blockSize)
        blockSize outFeatures inFeatures = .ok r ∧ r.shape = [outFeatures, inFeatures] ∧
      ∀ out < outFeatures, ∀ col < inFeatures, r.data[out * inFeatures + col]? =
        scales.data[(out / blockSize) * divCeil inFeatures blockSize + col / blockSize]? := by
  have houtle : outFeatures ≤ divCeil outFeatures blockSize * blockSize := le_divCeil_mul hbs
  have hinle : inFeatures ≤ divCeil inFeatures blockSize * blockSize := le_divCeil_mul hbs
  have hlt : ∀ out < outFeatures, out / blockSize < divCeil outFeatures blockSize :=
    fun out => lt_divCeil_of_lt hbs
  have hlt' : ∀ col < inFeatures, col / blockSize < divCeil inFeatures blockSize :=
    fun col => lt_divCeil_of_lt hbs
  generalize divCeil outFeatures blockSize = outBlocks at *
  generalize divCeil inFeatures blockSize = inBlocks at *
  obtain ⟨s₁, h₁, hshape₁, hdata₁⟩ :=
    hT.reshape_ok (t := scales) [outBlocks, 1, inBlocks, 1] (by simp [hs])
  obtain ⟨s₂, (h₂ : O.repeatDim s₁ 1 blockSize = .ok s₂), hshape₂, hdata₂⟩ :=
    hT.repeatDim_ok [outBlocks] blockSize hshape₁
  obtain ⟨s₃, (h₃ : O.repeatDim s₂ 3 blockSize = .ok s₃), hshape₃, hdata₃⟩ :=
    hT.repeatDim_ok [outBlocks, blockSize * 1, inBlocks] blockSize hshape₂
  obtain ⟨s₄, h₄, hshape₄, hdata₄⟩ :=
    hT.reshape_ok (t := s₃) [outBlocks * blockSize, inBlocks * blockSize]
      (by rw [hshape₃]; simp; ring)
  obtain ⟨s₅, (h₅ : O.narrow s₄ 0 0 outFeatures = .ok s₅), hshape₅, hdata₅⟩ :=
    hT.narrow_ok [] 0 outFeatures hshape₄ (by omega)
  obtain ⟨s₆, (h₆ : O.narrow s₅ 1 0 inFeatures = .ok s₆), hshape₆, hdata₆⟩ :=
    hT.narrow_ok [outFeatures] 0 inFeatures hshape₅ (by omega)
  simp only [List.prod_nil, List.prod_cons, Nat.mul_one, Nat.one_mul, Nat.add_zero]
    at hdata₂ hdata₃ hdata₅ hdata₆
  refine ⟨s₆, ?_, hshape₆, fun out hout col hcol => ?_⟩
  · rw [expandScales, h₁, ok_bind, h₂, ok_bind, h₃, ok_bind, h₄, ok_bind, h₅, ok_bind, h₆]
  · have hcut : s₆.data[out * inFeatures + col]? =
        s₃.data[out * (inBlocks * blockSize) + col]? := by
      have hrows := hdata₅ 0 (out * (inBlocks * blockSize) + col) Nat.one_pos
        (block_lt hout (by omega))
      rw [Nat.zero_mul, Nat.zero_mul, Nat.zero_mul, Nat.zero_add] at hrows
      rw [hdata₆ out col hout hcol, hrows, hdata₄]
    have hcolumns : s₃.data[out * (inBlocks * blockSize) + col]? =
        s₂.data[out * inBlocks + col / blockSize]? := by
      have hlt : out * inBlocks + col / blockSize < outBlocks * blockSize * inBlocks :=
        block_lt (by omega) (hlt' col hcol)
      rw [Nat.mul_assoc] at hlt
      have hplace : out * (inBlocks * blockSize) + col =
          (out * inBlocks + col / blockSize) * blockSize + (col % blockSize + 0) := by
        rw [Nat.add_zero, Nat.add_mul, Nat.mul_assoc, Nat.add_assoc, Nat.div_add_mod']
      rw [hplace, hdata₃ _ _ 0 hlt (Nat.mod_lt col hbs) Nat.one_pos, Nat.add_zero]
    have hrows : s₂.data[out * inBlocks + col / blockSize]? =
        s₁.data[(out / blockSize) * inBlocks + col / blockSize]? := by
      have hplace : out * inBlocks + col / blockSize = (out / blockSize) * (blockSize * inBlocks) +
          ((out % blockSize) * inBlocks + col / blockSize) := by
        rw [← Nat.add_assoc, ← Nat.mul_assoc, ← Nat.add_mul, Nat.div_add_mod']
      rw [hplace, hdata₂ _ _ _ (hlt out hout) (Nat.mod_lt out hbs) (hlt' col hcol)]
    rw [hcut, hcolumns, hrows, hdata₁]

variable (O decode) in
/-- The layer computes every row and output. -/
theorem forwardReference_spec (hT : O.toTensorOps.Lawful) [Std.Associative O.mul]
    {weight : Tensor UInt8} {scales input : Tensor V} {linear : BlockFp8Linear V} {dims : List ℕ}
    (hnew : new weight scales blockSize = .ok linear)
    (hw : weight.shape = [outFeatures, inFeatures]) (hx : input.shape = dims ++ [inFeatures]) :
    Computes (linear.forwardReference O decode input) (dims ++ [outFeatures]) dims.prod outFeatures
      (scaledDot O decode weight.data scales.data input.data blockSize outFeatures inFeatures
        0) := by
  obtain ⟨rfl, hbs, hscales⟩ := new_eq_ok hnew hw
  obtain ⟨expanded, hexpand, hexpshape, hexpdata⟩ := expandScales_ok hT hbs hscales
  obtain ⟨w, hmul, hwshape, hwdata⟩ := hT.zipWith_ok (t := weight.map decode) (u := expanded)
    O.mul (hw.trans hexpshape.symm)
  obtain ⟨x, hreshape, hxshape, hxdata⟩ := hT.reshape_ok (t := input) [dims.prod, inFeatures]
    (by simp [hx])
  obtain ⟨wt, htrans, hwtshape, hwtdata⟩ := hT.transpose_ok (t := w) (hwshape.trans hw)
  obtain ⟨y, hprod, hyshape, hydata⟩ := hT.matmul_ok O.mul O.sum hxshape hwtshape
  obtain ⟨z, hz, hzshape, hzdata⟩ := hT.reshape_ok (t := y) (dims ++ [outFeatures])
    (by simp [hyshape])
  have hleading : leading input.shape = .ok dims := by
    rw [leading, hx, List.dropLast_concat, if_neg (by simp)]
  refine ⟨z, ?_, hzshape, ?_⟩
  · rw [forwardReference, dims2_ok hw, ok_bind]
    dsimp only
    rw [checkedDivCeil_of_pos _ hbs, ok_bind, checkedDivCeil_of_pos _ hbs, ok_bind, hexpand,
      ok_bind, hmul, ok_bind, hleading, ok_bind, hreshape, ok_bind, htrans, ok_bind, hprod, ok_bind,
      hz]
  · have hylen : y.data.length = dims.prod * outFeatures := by
      rw [y.size_eq, hyshape, List.prod_pair]
    rw [hzdata]
    refine eq_grid hylen fun row hrow out hout => ?_
    have hxlen : input.data.length = dims.prod * inFeatures := by
      rw [input.size_eq, hx, List.prod_append, List.prod_singleton]
    have hwlen : weight.data.length = 1 * outFeatures * inFeatures := by
      rw [weight.size_eq, hw, List.prod_pair, Nat.one_mul]
    have hslen : scales.data.length =
        1 * divCeil outFeatures blockSize * divCeil inFeatures blockSize := by
      rw [scales.size_eq, hscales, List.prod_pair, Nat.one_mul]
    have hentry := hydata row hrow out hout
      (fun col => gridAt O.zero input.data inFeatures row col)
      (fun col => O.mul (decode (weightAt weight.data outFeatures inFeatures 0 out col))
        (scaleAt O scales.data blockSize outFeatures inFeatures 0 out col))
      (fun col hcol => by rw [hxdata, getElem?_gridAt O.zero hxlen hrow hcol]) fun col hcol => by
        have hweight := getElem?_weights hwlen Nat.one_pos hout hcol
        have hscale := getElem?_scales (O := O) hbs hslen Nat.one_pos hout hcol
        rw [Nat.zero_mul, Nat.zero_add] at hweight hscale
        rw [hwtdata out col hout hcol]
        refine hwdata _ _ _ ?_ ((hexpdata out hout col hcol).trans hscale)
        exact (List.getElem?_map ..).trans (congrArg (Option.map decode) hweight)
    have hassoc : ∀ col, O.mul (gridAt O.zero input.data inFeatures row col)
        (O.mul (decode (weightAt weight.data outFeatures inFeatures 0 out col))
          (scaleAt O scales.data blockSize outFeatures inFeatures 0 out col)) = _ :=
      fun col => (Std.Associative.assoc _ _ _).symm
    rw [hentry, List.map_congr_left fun col _ => hassoc col]
    rfl

end BlockFp8Linear

end Layers

end Rllm
