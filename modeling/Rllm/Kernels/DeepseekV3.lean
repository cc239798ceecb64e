import Rllm.Model.BlockFp8

/-! # Kernels for block-scaled matrices

One thread computes one output. The grid is as large as the launch can say: the
number of its blocks is an `unsigned int`, and so is the number of experts that an
expert id is compared with.
-/

namespace Rllm

section Kernels

variable {V : Type} (O : MoeOps V) (decode : UInt8 → V)

/-! ## Launches -/

/-- The orders in which the threads of a grid may run. -/
structure Schedule where
  order : ℕ → List ℕ
  perm : ∀ n, (order n).Perm (List.range n)

/-- `<<<blocks, 256>>>`. A grid has less than `2 ^ 31` blocks. -/
def launch (schedule : Schedule) (total : ℕ) (kernel : List V → ℕ → Except String (List V))
    (output : List V) : Except String (List V) :=
  let threads := 256
  let blocks := (total + threads - 1) / threads
  let gridDim := blocks % 2 ^ 32
  if gridDim = 0 ∨ 2 ^ 31 ≤ gridDim then .error "CUDA kernel returned error code 9"
  else (schedule.order (gridDim * threads)).foldlM kernel output

/-! ## One layer -/

def deepseekFp8BlockMatmulF16Kernel (x : List V) (weight : List UInt8) (scales : List V)
    (rows outFeatures inFeatures blockSize inBlocks : ℕ) (output : List V) (index : ℕ) :
    Except String (List V) :=
  let total := rows * outFeatures
  if total ≤ index then .ok output
  else do
    let row := index / outFeatures
    let out := index % outFeatures
    let outBlock := out / blockSize
    let acc ← accumulate O inFeatures fun col => do
      let inBlock := col / blockSize
      let scale ← Checked.index scales (outBlock * inBlocks + inBlock)
      let bits ← Checked.index weight (out * inFeatures + col)
      let w := O.mul (decode bits) scale
      let input ← Checked.index x (row * inFeatures + col)
      pure (O.mul input w)
    Checked.set output index acc

def deepseekFp8BlockMatmulF16 (schedule : Schedule) (x : List V) (weight : List UInt8)
    (scales output : List V) (rows outFeatures inFeatures blockSize : ℕ) :
    Except String (List V) :=
  if rows = 0 ∨ outFeatures = 0 ∨ inFeatures = 0 ∨ blockSize = 0 then .ok output
  else do
    let inBlocks ← checkedDivCeil inFeatures blockSize
    launch schedule (rows * outFeatures) (deepseekFp8BlockMatmulF16Kernel O decode x weight scales
      rows outFeatures inFeatures blockSize inBlocks) output

/-- The layer on a device. -/
def BlockFp8Linear.forwardCuda (schedule : Schedule) (linear : BlockFp8Linear V)
    (input : Tensor V) : Except String (Tensor V) := do
  let (outFeatures, inFeatures) ← Gptq.dims2 linear.weight
  let dims ← leading input.shape
  let rows := dims.prod
  let input ← O.reshape input [rows, inFeatures]
  let output ← deepseekFp8BlockMatmulF16 O decode schedule input.data linear.weight.data
    linear.scales.data (List.replicate (rows * outFeatures) O.zero) rows outFeatures inFeatures
    linear.blockSize
  let output ← Tensor.fromVec output [rows, outFeatures]
  O.reshape output (dims ++ [outFeatures])

/-! ## Stacked experts -/

/-- The number of experts is cast to `uint32_t`. -/
def deepseekFp8SelectedExpertMatmulF16Kernel (x : List V) (expertIds : List UInt32)
    (weights : List UInt8) (scales : List V)
    (tokens topK numExperts outFeatures inFeatures blockSize inBlocks : ℕ) (sharedInput : Bool)
    (output : List V) (index : ℕ) : Except String (List V) :=
  let total := tokens * topK * outFeatures
  if total ≤ index then .ok output
  else do
    let out := index % outFeatures
    let route := (index / outFeatures) % topK
    let token := index / (outFeatures * topK)
    let id ← Checked.index expertIds (token * topK + route)
    let expert := id.toNat
    if numExperts % 2 ^ 32 ≤ expert then Checked.set output index O.zero
    else
      let inputRow := if sharedInput then token else token * topK + route
      let outBlock := out / blockSize
      let expertWeightOffset := expert * outFeatures * inFeatures
      let expertScaleOffset := expert * ((outFeatures + blockSize - 1) / blockSize) * inBlocks
      let acc ← accumulate O inFeatures fun col => do
        let inBlock := col / blockSize
        let scale ← Checked.index scales (expertScaleOffset + outBlock * inBlocks + inBlock)
        let bits ← Checked.index weights (expertWeightOffset + out * inFeatures + col)
        let w := O.mul (decode bits) scale
        let input ← Checked.index x (inputRow * inFeatures + col)
        pure (O.mul input w)
      Checked.set output index acc

def deepseekFp8SelectedExpertMatmulF16 (schedule : Schedule) (x : List V) (expertIds : List UInt32)
    (weights : List UInt8) (scales output : List V)
    (tokens topK numExperts outFeatures inFeatures blockSize : ℕ) (sharedInput : Bool) :
    Except String (List V) :=
  if tokens = 0 ∨ topK = 0 ∨ outFeatures = 0 ∨ inFeatures = 0 then .ok output
  else do
    let inBlocks ← checkedDivCeil inFeatures blockSize
    launch schedule (tokens * topK * outFeatures) (deepseekFp8SelectedExpertMatmulF16Kernel O decode
      x expertIds weights scales tokens topK numExperts outFeatures inFeatures blockSize inBlocks
      sharedInput) output

/-- The experts on a device. -/
def SelectedBlockFp8Experts.forwardCuda (schedule : Schedule) (experts : SelectedBlockFp8Experts V)
    (input : Tensor V) (expertIds : Tensor UInt32) (sharedInput : Bool) :
    Except String (Tensor V) := do
  let (numExperts, outFeatures, inFeatures) ← dims3 experts.weights
  let (tokens, topK) ← Gptq.dims2 expertIds
  let output ← deepseekFp8SelectedExpertMatmulF16 O decode schedule input.data expertIds.data
    experts.weights.data experts.scales.data
    (List.replicate (tokens * topK * outFeatures) O.zero) tokens topK numExperts outFeatures
    inFeatures experts.blockSize sharedInput
  Tensor.fromVec output [tokens, topK, outFeatures]

/-! ## Which outputs have a thread -/

variable {O decode} {total : ℕ} {kernel : List V → ℕ → Except String (List V)} {f : ℕ → V}

theorem Schedule.mem_order (schedule : Schedule) {n i : ℕ} : i ∈ schedule.order n ↔ i < n := by
  rw [(schedule.perm n).mem_iff, List.mem_range]

/-- A grid within the limits covers all outputs. -/
theorem launch_ok (schedule : Schedule) {output : List V} (hpos : 0 < total)
    (hfits : divCeil total 256 < 2 ^ 31) (hlen : output.length = total)
    (hkernel : ∀ i, ∀ out : List V, out.length = total → kernel out i = .ok (out.set i (f i))) :
    launch schedule total kernel output = .ok ((List.range total).map f) := by
  have hblocks : 0 < divCeil total 256 := divCeil_pos (by decide) hpos
  have hcover : total ≤ divCeil total 256 * 256 := le_divCeil_mul (by decide)
  have hgrid : (total + 256 - 1) / 256 % 2 ^ 32 = divCeil total 256 :=
    Nat.mod_eq_of_lt (hfits.trans (by decide))
  rw [launch, hgrid, if_neg (by omega)]
  refine foldlM_threads_all (fun i _ => hkernel i) hlen fun p hp => ?_
  rw [schedule.mem_order]
  omega

/-- Beyond the limits the launch fails, or some output is left as it was. -/
theorem launch_of_not_fits (schedule : Schedule) {output out : List V}
    (hfits : ¬ divCeil total 256 < 2 ^ 31) (hlen : output.length = total)
    (hkernel : ∀ i, ∀ out : List V, out.length = total → kernel out i = .ok (out.set i (f i)))
    (h : launch schedule total kernel output = .ok out) :
    ∃ p < total, out[p]? = output[p]? := by
  rw [launch] at h
  split_ifs at h with hgrid
  obtain ⟨out', hout', -, hget⟩ := foldlM_threads (fun i _ => hkernel i) hlen
  obtain rfl : out = out' := Except.ok.inj (h.symm.trans hout')
  have hlt : (total + 256 - 1) / 256 % 2 ^ 32 * 256 < total := by
    rw [divCeil] at hfits
    omega
  refine ⟨_, hlt, ?_⟩
  rw [hget _ hlt, if_neg]
  rw [schedule.mem_order]
  exact Nat.lt_irrefl _

/-! ## What a thread computes -/

variable {numExperts rows outFeatures inFeatures blockSize tokens topK : ℕ} {sharedInput : Bool}
  {weights : Tensor UInt8} {scales input : Tensor V} {expertIds : Tensor UInt32}

theorem accumulate_scaled [Std.Associative O.mul] {weights : List UInt8} {scales xs : List V}
    {expert row out : ℕ} {scaleIndex weightIndex inputIndex : ℕ → ℕ}
    (hs : ∀ col < inFeatures, scales[scaleIndex col]? =
      some (scaleAt O scales blockSize outFeatures inFeatures expert out col))
    (hw : ∀ col < inFeatures, weights[weightIndex col]? =
      some (weightAt weights outFeatures inFeatures expert out col))
    (hx : ∀ col < inFeatures, xs[inputIndex col]? = some (gridAt O.zero xs inFeatures row col)) :
    (accumulate O inFeatures fun col => do
        let scale ← Checked.index scales (scaleIndex col)
        let bits ← Checked.index weights (weightIndex col)
        let input ← Checked.index xs (inputIndex col)
        pure (O.mul input (O.mul (decode bits) scale))) =
      .ok
        (scaledDot O decode weights scales xs blockSize outFeatures inFeatures expert row out) := by
  have hassoc : ∀ col, O.mul (O.mul (gridAt O.zero xs inFeatures row col)
      (decode (weightAt weights outFeatures inFeatures expert out col)))
        (scaleAt O scales blockSize outFeatures inFeatures expert out col) = _ :=
    fun col => Std.Associative.assoc _ _ _
  rw [scaledDot, List.map_congr_left fun col _ => hassoc col]
  refine accumulate_ok fun col hcol => ?_
  rw [Checked.index_of_eq (hs col hcol), ok_bind, Checked.index_of_eq (hw col hcol), ok_bind,
    Checked.index_of_eq (hx col hcol), ok_bind]
  rfl

theorem deepseekFp8BlockMatmulF16Kernel_ok [Std.Associative O.mul] (hbs : 0 < blockSize)
    (hx : input.data.length = rows * inFeatures)
    (hw : weights.data.length = 1 * outFeatures * inFeatures)
    (hs : scales.data.length =
      1 * divCeil outFeatures blockSize * divCeil inFeatures blockSize)
    (index : ℕ) (output : List V) (hlen : output.length = rows * outFeatures) :
    deepseekFp8BlockMatmulF16Kernel O decode input.data weights.data scales.data rows outFeatures
        inFeatures blockSize (divCeil inFeatures blockSize) output index =
      .ok (output.set index (scaledDot O decode weights.data scales.data input.data blockSize
        outFeatures inFeatures 0 (index / outFeatures) (index % outFeatures))) := by
  rw [deepseekFp8BlockMatmulF16Kernel]
  dsimp only
  rcases Nat.lt_or_ge index (rows * outFeatures) with hlt | htotal
  · have hindex : index < outFeatures * rows := by rwa [Nat.mul_comm]
    have hout : 0 < outFeatures := Nat.pos_of_mul_pos_right (Nat.zero_lt_of_lt hindex)
    have hrow : index / outFeatures < rows := Nat.div_lt_of_lt_mul hindex
    have hmod : index % outFeatures < outFeatures := Nat.mod_lt index hout
    rw [if_neg (Nat.not_le.mpr hlt),
      accumulate_scaled ?_ ?_ fun col => getElem?_gridAt O.zero hx hrow, ok_bind,
      Checked.set_of_lt (hlt.trans_eq hlen.symm)]
    · intro col hcol
      have hscale := getElem?_scales (O := O) hbs hs Nat.one_pos hmod hcol
      rwa [Nat.zero_mul, Nat.zero_add] at hscale
    · intro col hcol
      have hweight := getElem?_weights hw Nat.one_pos hmod hcol
      rwa [Nat.zero_mul, Nat.zero_add] at hweight
  · rw [if_pos htotal, List.set_eq_of_length_le (hlen.trans_le htotal)]

variable (O decode) in
/-- What the kernel writes: zero where the cast number of experts excludes the id. -/
def kernelEntry (weights : Tensor UInt8) (scales input : Tensor V) (expertIds : Tensor UInt32)
    (blockSize numExperts outFeatures inFeatures topK : ℕ) (sharedInput : Bool) (row out : ℕ) : V :=
  if numExperts % 2 ^ 32 ≤ (expertIds.data.getD row 0).toNat then O.zero
  else expertEntry O decode weights scales input expertIds blockSize outFeatures inFeatures topK
    sharedInput row out

theorem deepseekFp8SelectedExpertMatmulF16Kernel_ok [Std.Associative O.mul] (hbs : 0 < blockSize)
    (h : ExpertCall numExperts outFeatures inFeatures tokens topK sharedInput weights input
      expertIds)
    (hs : scales.data.length =
      numExperts * divCeil outFeatures blockSize * divCeil inFeatures blockSize)
    (index : ℕ) (output : List V) (hlen : output.length = tokens * topK * outFeatures) :
    deepseekFp8SelectedExpertMatmulF16Kernel O decode input.data expertIds.data weights.data
        scales.data tokens topK numExperts outFeatures inFeatures blockSize
        (divCeil inFeatures blockSize) sharedInput output index =
      .ok (output.set index (kernelEntry O decode weights scales input expertIds blockSize
        numExperts outFeatures inFeatures topK sharedInput (index / outFeatures)
        (index % outFeatures))) := by
  have hroute : index / (outFeatures * topK) * topK + index / outFeatures % topK =
      index / outFeatures := by
    rw [← Nat.div_div_eq_div_mul, Nat.div_add_mod']
  have htoken : index / (outFeatures * topK) = index / outFeatures / topK :=
    (Nat.div_div_eq_div_mul ..).symm
  rw [deepseekFp8SelectedExpertMatmulF16Kernel]
  dsimp only
  rcases Nat.lt_or_ge index (tokens * topK * outFeatures) with hlt | htotal
  · have hindex : index < outFeatures * (tokens * topK) := by rwa [Nat.mul_comm]
    have hout : 0 < outFeatures := Nat.pos_of_mul_pos_right (Nat.zero_lt_of_lt hindex)
    have hrow : index / outFeatures < tokens * topK := Nat.div_lt_of_lt_mul hindex
    have hmod : index % outFeatures < outFeatures := Nat.mod_lt index hout
    rw [if_neg (Nat.not_le.mpr hlt), hroute, htoken, Checked.index_of_eq (h.getElem?_ids hrow),
      ok_bind, kernelEntry]
    split
    · exact Checked.set_of_lt (hlt.trans_eq hlen.symm) _
    · rw [accumulate_scaled ?_ ?_ fun col => h.getElem?_input hrow, ok_bind,
        Checked.set_of_lt (hlt.trans_eq hlen.symm)]
      · rfl
      · intro col hcol
        have hscale := getElem?_scales (O := O) hbs hs (h.id_lt hrow) hmod hcol
        rwa [Nat.add_mul] at hscale
      · intro col hcol
        have hweight := getElem?_weights h.weights_length (h.id_lt hrow) hmod hcol
        rwa [Nat.add_mul] at hweight
  · rw [if_pos htotal, List.set_eq_of_length_le (hlen.trans_le htotal)]

/-! ## Both devices -/

/-- Nothing is to be computed, or the grid has a thread for each output. -/
def Launches (total inFeatures : ℕ) : Prop :=
  total * inFeatures = 0 ∨ divCeil total 256 < 2 ^ 31

theorem replicate_eq_grid {f : ℕ → ℕ → V} {cols : ℕ}
    (h : ∀ r < rows, ∀ c < cols, f r c = O.zero) :
    List.replicate (rows * cols) O.zero = grid rows cols f := by
  refine eq_grid List.length_replicate fun r hr c hc => ?_
  rw [List.getElem?_replicate_of_lt (block_lt hr hc), h r hr c hc]

theorem scaledDot_zero (weights : List UInt8) (scales xs : List V) (expert row out : ℕ) :
    scaledDot O decode weights scales xs blockSize outFeatures 0 expert row out = O.zero := rfl

theorem deepseekFp8BlockMatmulF16_ok [Std.Associative O.mul] (schedule : Schedule)
    (hbs : 0 < blockSize) (hlaunch : Launches (rows * outFeatures) inFeatures)
    (hx : input.data.length = rows * inFeatures)
    (hw : weights.data.length = 1 * outFeatures * inFeatures)
    (hs : scales.data.length =
      1 * divCeil outFeatures blockSize * divCeil inFeatures blockSize) :
    deepseekFp8BlockMatmulF16 O decode schedule input.data weights.data scales.data
        (List.replicate (rows * outFeatures) O.zero) rows outFeatures inFeatures blockSize =
      .ok (grid rows outFeatures (scaledDot O decode weights.data scales.data input.data blockSize
        outFeatures inFeatures 0)) := by
  rw [deepseekFp8BlockMatmulF16]
  split
  · rename_i hzero
    refine congrArg Except.ok (replicate_eq_grid fun r hr c hc => ?_)
    obtain rfl : inFeatures = 0 := by omega
    exact scaledDot_zero ..
  · rename_i hpos
    have htotal : 0 < rows * outFeatures := Nat.mul_pos (by omega) (by omega)
    have hfits : divCeil (rows * outFeatures) 256 < 2 ^ 31 := by
      refine hlaunch.resolve_left (Nat.ne_of_gt (Nat.mul_pos htotal (by omega)))
    rw [checkedDivCeil_of_pos _ hbs, ok_bind, launch_ok schedule htotal hfits List.length_replicate
      fun i out hlen => deepseekFp8BlockMatmulF16Kernel_ok hbs hx hw hs i out hlen,
      map_range_eq_grid]

theorem deepseekFp8SelectedExpertMatmulF16_ok [Std.Associative O.mul] (schedule : Schedule)
    (hbs : 0 < blockSize) (hlaunch : Launches (tokens * topK * outFeatures) inFeatures)
    (h : ExpertCall numExperts outFeatures inFeatures tokens topK sharedInput weights input
      expertIds)
    (hs : scales.data.length =
      numExperts * divCeil outFeatures blockSize * divCeil inFeatures blockSize) :
    deepseekFp8SelectedExpertMatmulF16 O decode schedule input.data expertIds.data weights.data
        scales.data (List.replicate (tokens * topK * outFeatures) O.zero) tokens topK numExperts
        outFeatures inFeatures blockSize sharedInput =
      .ok (grid (tokens * topK) outFeatures (kernelEntry O decode weights scales input expertIds
        blockSize numExperts outFeatures inFeatures topK sharedInput)) := by
  rw [deepseekFp8SelectedExpertMatmulF16]
  split
  · rename_i hzero
    refine congrArg Except.ok (replicate_eq_grid fun r hr c hc => ?_)
    have htokens : 0 < tokens * topK := Nat.zero_lt_of_lt hr
    have htoken : tokens ≠ 0 := fun h => by simp [h] at htokens
    have hroute : topK ≠ 0 := fun h => by simp [h] at htokens
    obtain rfl : inFeatures = 0 := by omega
    rw [kernelEntry, expertEntry, scaledDot_zero, ite_self]
  · rename_i hpos
    simp only [not_or] at hpos
    obtain ⟨htoken, hroute, hout, hin⟩ := hpos
    have htotal : 0 < tokens * topK * outFeatures :=
      Nat.mul_pos (Nat.mul_pos (Nat.pos_of_ne_zero htoken) (Nat.pos_of_ne_zero hroute))
        (Nat.pos_of_ne_zero hout)
    have hfits : divCeil (tokens * topK * outFeatures) 256 < 2 ^ 31 :=
      hlaunch.resolve_left (Nat.ne_of_gt (Nat.mul_pos htotal (Nat.pos_of_ne_zero hin)))
    rw [checkedDivCeil_of_pos _ hbs, ok_bind, launch_ok schedule htotal hfits List.length_replicate
      fun i out hlen => deepseekFp8SelectedExpertMatmulF16Kernel_ok hbs h hs i out hlen,
      map_range_eq_grid]

theorem BlockFp8Linear.computes_forwardCuda_iff (hT : O.toTensorOps.Lawful) {schedule : Schedule}
    {dims : List ℕ} {f : ℕ → ℕ → V} (hw : weights.shape = [outFeatures, inFeatures])
    (hx : input.shape = dims ++ [inFeatures]) :
    Computes (forwardCuda O decode schedule ⟨weights, scales, blockSize⟩ input)
        (dims ++ [outFeatures]) dims.prod outFeatures f ↔
      deepseekFp8BlockMatmulF16 O decode schedule input.data weights.data scales.data
          (List.replicate (dims.prod * outFeatures) O.zero) dims.prod outFeatures inFeatures
          blockSize = .ok (grid dims.prod outFeatures f) := by
  obtain ⟨x, hreshape, -, hxdata⟩ := hT.reshape_ok (t := input) [dims.prod, inFeatures]
    (by simp [hx])
  have hleading : leading input.shape = .ok dims := by
    rw [leading, hx, List.dropLast_concat, if_neg (by simp)]
  rw [forwardCuda, Gptq.dims2_ok hw, ok_bind]
  dsimp only
  rw [hleading, ok_bind, hreshape, ok_bind, hxdata]
  constructor
  · rintro ⟨y, hy, -, hdata⟩
    obtain ⟨out, hout, hy⟩ := bind_eq_ok.mp hy
    obtain ⟨t, ht, hy⟩ := bind_eq_ok.mp hy
    obtain ⟨htshape, htdata⟩ := Tensor.fromVec_eq_ok ht
    obtain ⟨r, hr, -, hrdata⟩ := hT.reshape_ok (t := t) (dims ++ [outFeatures]) (by simp [htshape])
    obtain rfl := Except.ok.inj (hr.symm.trans hy)
    rw [hout, ← hdata, hrdata, htdata]
  · intro hout
    have hlen : (grid dims.prod outFeatures f).length = [dims.prod, outFeatures].prod := by
      rw [length_grid, List.prod_pair]
    obtain ⟨y, hy, hshape, hdata⟩ := hT.reshape_ok
      (t := ⟨[dims.prod, outFeatures], grid dims.prod outFeatures f, hlen⟩) (dims ++ [outFeatures])
      (by simp)
    refine ⟨y, ?_, hshape, hdata⟩
    rw [hout, ok_bind, Tensor.fromVec_ok hlen, ok_bind, hy]

theorem SelectedBlockFp8Experts.computes_forwardCuda_iff {schedule : Schedule} {f : ℕ → ℕ → V}
    (h : ExpertCall numExperts outFeatures inFeatures tokens topK sharedInput weights input
      expertIds) :
    Computes (forwardCuda O decode schedule ⟨weights, scales, blockSize⟩ input expertIds
        sharedInput) [tokens, topK, outFeatures] (tokens * topK) outFeatures f ↔
      deepseekFp8SelectedExpertMatmulF16 O decode schedule input.data expertIds.data weights.data
          scales.data (List.replicate (tokens * topK * outFeatures) O.zero) tokens topK numExperts
          outFeatures inFeatures blockSize sharedInput =
        .ok (grid (tokens * topK) outFeatures f) := by
  rw [forwardCuda, dims3_ok h.weights_shape, ok_bind]
  dsimp only
  rw [Gptq.dims2_ok h.ids_shape, ok_bind]
  constructor
  · rintro ⟨y, hy, -, hdata⟩
    obtain ⟨out, hout, hy⟩ := bind_eq_ok.mp hy
    rw [hout, ← hdata, (Tensor.fromVec_eq_ok hy).2]
  · intro hout
    have hlen : (grid (tokens * topK) outFeatures f).length = [tokens, topK, outFeatures].prod := by
      rw [length_grid]
      simp [Nat.mul_assoc]
    refine ⟨⟨_, _, hlen⟩, ?_, rfl, rfl⟩
    rw [hout, ok_bind, Tensor.fromVec_ok hlen]

/-! ## Agreement -/

/-- The reference and the kernel of a layer compute the sums, for all weights, scales and inputs of
these dimensions and however the threads are scheduled. -/
def BlockFp8Linear.Agrees (O : MoeOps V) (blockSize outFeatures inFeatures : ℕ) (dims : List ℕ) :
    Prop :=
  ∀ (decode : UInt8 → V) (weight : Tensor UInt8) (scales input : Tensor V)
    (linear : BlockFp8Linear V) (schedule : Schedule), weight.shape = [outFeatures, inFeatures] →
    new weight scales blockSize = .ok linear → input.shape = dims ++ [inFeatures] →
    Computes (linear.forwardReference O decode input) (dims ++ [outFeatures]) dims.prod outFeatures
      (scaledDot O decode weight.data scales.data input.data blockSize outFeatures inFeatures 0) ∧
    Computes (linear.forwardCuda O decode schedule input) (dims ++ [outFeatures]) dims.prod
      outFeatures
      (scaledDot O decode weight.data scales.data input.data blockSize outFeatures inFeatures 0)

/-- The same for stacked experts and all expert ids in range. -/
def SelectedBlockFp8Experts.Agrees (O : MoeOps V)
    (blockSize numExperts outFeatures inFeatures tokens topK : ℕ) (sharedInput : Bool) : Prop :=
  ∀ (decode : UInt8 → V) (weights : Tensor UInt8) (scales input : Tensor V)
    (expertIds : Tensor UInt32) (experts : SelectedBlockFp8Experts V) (schedule : Schedule),
    ExpertCall numExperts outFeatures inFeatures tokens topK sharedInput weights input expertIds →
    new weights scales blockSize = .ok experts →
    Computes (experts.forwardReference O decode input expertIds sharedInput)
      [tokens, topK, outFeatures] (tokens * topK) outFeatures
      (expertEntry O decode weights scales input expertIds blockSize outFeatures inFeatures topK
        sharedInput) ∧
    Computes (experts.forwardCuda O decode schedule input expertIds sharedInput)
      [tokens, topK, outFeatures] (tokens * topK) outFeatures
      (expertEntry O decode weights scales input expertIds blockSize outFeatures inFeatures topK
        sharedInput)

theorem BlockFp8Linear.agrees_of_launches (hT : O.toTensorOps.Lawful) [Std.Associative O.mul]
    {dims : List ℕ} (h : Launches (dims.prod * outFeatures) inFeatures) :
    Agrees O blockSize outFeatures inFeatures dims := by
  intro decode weight scales input linear schedule hw hnew hx
  refine ⟨forwardReference_spec O decode hT hnew hw hx, ?_⟩
  obtain ⟨rfl, hbs, hscales⟩ := new_eq_ok hnew hw
  refine (computes_forwardCuda_iff hT hw hx).mpr
    (deepseekFp8BlockMatmulF16_ok schedule hbs h ?_ ?_ ?_)
  · rw [input.size_eq, hx, List.prod_append, List.prod_singleton]
  · rw [weight.size_eq, hw, List.prod_pair, Nat.one_mul]
  · rw [scales.size_eq, hscales, List.prod_pair, Nat.one_mul]

theorem kernelEntry_eq_zero {row out : ℕ}
    (h : numExperts % 2 ^ 32 ≤ (expertIds.data.getD row 0).toNat) :
    kernelEntry O decode weights scales input expertIds blockSize numExperts outFeatures inFeatures
      topK sharedInput row out = O.zero :=
  if_pos h

theorem kernelEntry_eq {row out : ℕ} (hlt : numExperts < 2 ^ 32)
    (h : ExpertCall numExperts outFeatures inFeatures tokens topK sharedInput weights input
      expertIds) (hrow : row < tokens * topK) :
    kernelEntry O decode weights scales input expertIds blockSize numExperts outFeatures inFeatures
        topK sharedInput row out =
      expertEntry O decode weights scales input expertIds blockSize outFeatures inFeatures topK
        sharedInput row out := by
  rw [kernelEntry, Nat.mod_eq_of_lt hlt, if_neg (Nat.not_le.mpr (h.id_lt hrow))]

theorem SelectedBlockFp8Experts.agrees_of_launches [Std.Associative O.mul]
    (h : tokens * topK * numExperts * outFeatures * inFeatures = 0 ∨
      divCeil (tokens * topK * outFeatures) 256 < 2 ^ 31 ∧ numExperts < 2 ^ 32) :
    Agrees O blockSize numExperts outFeatures inFeatures tokens topK sharedInput := by
  intro decode weights scales input expertIds experts schedule hcall hnew
  refine ⟨forwardReference_spec O decode hnew hcall, ?_⟩
  obtain ⟨rfl, hbs, hscales⟩ := new_eq_ok hnew hcall.weights_shape
  have hlaunch : Launches (tokens * topK * outFeatures) inFeatures := by
    refine h.imp (fun hzero => ?_) And.left
    have hexperts : numExperts = 0 → tokens * topK = 0 := by
      rintro rfl
      refine Nat.eq_zero_of_not_pos fun hpos => ?_
      exact Nat.not_lt_zero _ (hcall.id_lt hpos)
    simp only [Nat.mul_eq_zero] at hzero hexperts ⊢
    tauto
  refine (computes_forwardCuda_iff hcall).mpr ?_
  rw [deepseekFp8SelectedExpertMatmulF16_ok schedule hbs hlaunch hcall hscales]
  refine congrArg Except.ok (grid_congr fun row hrow out hout => ?_)
  rcases h with hzero | ⟨-, hlt⟩
  · have hpos : 0 < tokens * topK * numExperts * outFeatures :=
      Nat.mul_pos (Nat.mul_pos (Nat.zero_lt_of_lt hrow) (Nat.zero_lt_of_lt (hcall.id_lt hrow)))
        (Nat.zero_lt_of_lt hout)
    obtain rfl := (Nat.mul_eq_zero.mp hzero).resolve_left (Nat.ne_of_gt hpos)
    rw [kernelEntry, expertEntry, scaledDot_zero, ite_self]
  · exact kernelEntry_eq hlt hcall hrow

end Kernels

/-! ## Everything one -/

section Ones

variable {K : Type} [Field K] [LinearOrder K] (X : ExactOps K)

theorem sum_ones (n : ℕ) :
    X.moeOps.sum (List.replicate n ((1 : K) : WithBot K)) = ((n : K) : WithBot K) := by
  have hadd : ∀ x y : K, X.moeOps.add (x : WithBot K) y = ((x + y : K) : WithBot K) :=
    fun _ _ => rfl
  induction n with
  | zero =>
    change (((0 : ℚ) : K) : WithBot K) = _
    rw [Rat.cast_zero, Nat.cast_zero]
  | succ n ih =>
    rw [MoeOps.sum] at ih
    rw [MoeOps.sum, List.replicate_succ', List.foldl_append, ih, Nat.cast_succ]
    exact hadd n 1

variable {blockSize numExperts outFeatures inFeatures tokens topK : ℕ}

theorem scaledDot_ones {rows expert row out : ℕ} (hbs : 0 < blockSize)
    (hexpert : expert < numExperts) (hrow : row < rows) (hout : out < outFeatures)
    {shape dims : List ℕ}
    (hs : shape.prod = numExperts * divCeil outFeatures blockSize * divCeil inFeatures blockSize)
    (hx : dims.prod = rows * inFeatures) (weights : List UInt8) :
    scaledDot X.moeOps (fun _ => ((1 : K) : WithBot K)) weights
        (Tensor.full shape ((1 : K) : WithBot K)).data (Tensor.full dims ((1 : K) : WithBot K)).data
        blockSize outFeatures inFeatures expert row out = ((inFeatures : K) : WithBot K) := by
  have hterm : ∀ col ∈ List.range inFeatures, X.moeOps.mul (X.moeOps.mul
      (gridAt X.moeOps.zero (Tensor.full dims ((1 : K) : WithBot K)).data inFeatures row col)
      ((1 : K) : WithBot K)) (scaleAt X.moeOps (Tensor.full shape ((1 : K) : WithBot K)).data
        blockSize outFeatures inFeatures expert out col) = ((1 : K) : WithBot K) := by
    intro col hcol
    have hcol := List.mem_range.mp hcol
    have hinput := getElem?_gridAt X.moeOps.zero
      ((Tensor.full dims ((1 : K) : WithBot K)).size_eq.trans hx) hrow hcol
    have hscale := getElem?_scales (O := X.moeOps) hbs
      ((Tensor.full shape ((1 : K) : WithBot K)).size_eq.trans hs) hexpert hout hcol
    rw [Tensor.getElem?_full (hx ▸ block_lt hrow hcol)] at hinput
    rw [Tensor.getElem?_full (hs ▸ block_lt (block_lt hexpert (lt_divCeil_of_lt hbs hout))
      (lt_divCeil_of_lt hbs hcol))] at hscale
    rw [← Option.some.inj hinput, ← Option.some.inj hscale]
    have hmul : ∀ x y : K, X.moeOps.mul (x : WithBot K) y = ((x * y : K) : WithBot K) :=
      fun _ _ => rfl
    rw [hmul, hmul, mul_one, mul_one]
  rw [scaledDot, List.map_congr_left hterm, List.map_const', List.length_range, sum_ones]

variable [IsStrictOrderedRing K]

theorem getElem?_grid_ne_zero {rows cols p : ℕ} {f : ℕ → ℕ → WithBot K} (hin : inFeatures ≠ 0)
    (hf : ∀ r < rows, ∀ c < cols, f r c = ((inFeatures : K) : WithBot K)) (hp : p < rows * cols) :
    (grid rows cols f)[p]? ≠ (List.replicate (rows * cols) X.moeOps.zero)[p]? := by
  have hp' : p < cols * rows := by rwa [Nat.mul_comm]
  have hcols : 0 < cols := Nat.pos_of_mul_pos_right (Nat.zero_lt_of_lt hp')
  have hzero : X.moeOps.zero = ((0 : K) : WithBot K) := by
    change (((0 : ℚ) : K) : WithBot K) = _
    rw [Rat.cast_zero]
  have hget := getElem?_grid (f := f) (Nat.div_lt_of_lt_mul hp') (Nat.mod_lt p hcols)
  rw [Nat.div_add_mod', hf _ (Nat.div_lt_of_lt_mul hp') _ (Nat.mod_lt p hcols)] at hget
  rw [hget, List.getElem?_replicate_of_lt hp, hzero]
  intro h
  exact hin (Nat.cast_eq_zero.mp (WithBot.coe_injective (Option.some.inj h)))

def inOrder : Schedule := ⟨List.range, fun _ => .refl _⟩

theorem BlockFp8Linear.launches_of_agrees {dims : List ℕ} (hbs : 0 < blockSize)
    (h : Agrees X.moeOps blockSize outFeatures inFeatures dims) :
    Launches (dims.prod * outFeatures) inFeatures := by
  by_contra hnot
  obtain ⟨hne, hfits⟩ := not_or.mp hnot
  have hin : inFeatures ≠ 0 := right_ne_zero_of_mul hne
  have hout : outFeatures ≠ 0 := right_ne_zero_of_mul (left_ne_zero_of_mul hne)
  have hrows : dims.prod ≠ 0 := left_ne_zero_of_mul (left_ne_zero_of_mul hne)
  have hx : (dims ++ [inFeatures]).prod = dims.prod * inFeatures := by
    rw [List.prod_append, List.prod_singleton]
  have hs : [divCeil outFeatures blockSize, divCeil inFeatures blockSize].prod =
      1 * divCeil outFeatures blockSize * divCeil inFeatures blockSize := by
    rw [List.prod_pair, Nat.one_mul]
  obtain ⟨-, hcuda⟩ := h (fun _ => ((1 : K) : WithBot K)) (.full [outFeatures, inFeatures] 0)
    (.full _ ((1 : K) : WithBot K)) (.full (dims ++ [inFeatures]) ((1 : K) : WithBot K)) _ inOrder
    rfl (new_ok hbs rfl rfl) rfl
  have hkernel := (computes_forwardCuda_iff X.moeOps_lawful.toLawful rfl rfl).mp hcuda
  rw [deepseekFp8BlockMatmulF16, if_neg (by omega), checkedDivCeil_of_pos _ hbs, ok_bind] at hkernel
  obtain ⟨p, hp, hget⟩ := launch_of_not_fits inOrder hfits List.length_replicate
    (fun i out hlen => deepseekFp8BlockMatmulF16Kernel_ok hbs ((Tensor.size_eq _).trans hx)
      (by rw [Tensor.size_eq]; exact (List.prod_pair).trans (by rw [Nat.one_mul]))
      ((Tensor.size_eq _).trans hs) i out hlen) hkernel
  exact getElem?_grid_ne_zero X hin
    (fun r hr c hc => scaledDot_ones X hbs Nat.one_pos hr hc hs hx _) hp hget

namespace SelectedBlockFp8Experts

omit [LinearOrder K] [IsStrictOrderedRing K] in
theorem expertCall_full (sharedInput : Bool) {id : UInt32} (hid : id.toNat < numExperts) :
    ExpertCall numExperts outFeatures inFeatures tokens topK sharedInput
      (.full [numExperts, outFeatures, inFeatures] 0)
      (.full [if sharedInput then tokens else tokens * topK, inFeatures] ((1 : K) : WithBot K))
      (.full [tokens, topK] id) where
  weights_shape := rfl
  input_length := (Tensor.size_eq _).trans List.prod_pair
  ids_shape := rfl
  ids_lt id' hid' := by
    rw [List.eq_of_mem_replicate hid']
    exact hid

theorem launches_of_agrees {sharedInput : Bool} (hbs : 0 < blockSize)
    (h : Agrees X.moeOps blockSize numExperts outFeatures inFeatures tokens topK sharedInput) :
    tokens * topK * numExperts * outFeatures * inFeatures = 0 ∨
      divCeil (tokens * topK * outFeatures) 256 < 2 ^ 31 ∧ numExperts < 2 ^ 32 := by
  by_contra hnot
  obtain ⟨hne, hfits⟩ := not_or.mp hnot
  have hin : inFeatures ≠ 0 := right_ne_zero_of_mul hne
  have hout : outFeatures ≠ 0 := right_ne_zero_of_mul (left_ne_zero_of_mul hne)
  have hexperts : tokens * topK * numExperts ≠ 0 :=
    left_ne_zero_of_mul (left_ne_zero_of_mul hne)
  have hrows : tokens * topK ≠ 0 := left_ne_zero_of_mul hexperts
  have hs : [numExperts, divCeil outFeatures blockSize, divCeil inFeatures blockSize].prod =
      numExperts * divCeil outFeatures blockSize * divCeil inFeatures blockSize := by
    simp [Nat.mul_assoc]
  -- From `2 ^ 32` experts on, an id that is not below the cast number of experts.
  obtain ⟨id, hid, hcast⟩ : ∃ id : UInt32, id.toNat < numExperts ∧
      (numExperts < 2 ^ 32 ∨ numExperts % 2 ^ 32 ≤ id.toNat) := by
    rcases Nat.lt_or_ge numExperts (2 ^ 32) with hlt | hge
    · exact ⟨0, Nat.pos_of_ne_zero (right_ne_zero_of_mul hexperts), .inl hlt⟩
    · have hmod : numExperts % 2 ^ 32 < 2 ^ 32 := Nat.mod_lt _ (by decide)
      have hnat : (UInt32.ofNat (numExperts % 2 ^ 32)).toNat = numExperts % 2 ^ 32 :=
        UInt32.toNat_ofNat_of_lt' hmod
      exact ⟨.ofNat (numExperts % 2 ^ 32), by omega, .inr hnat.ge⟩
  have hcall : ExpertCall numExperts outFeatures inFeatures tokens topK sharedInput _
    (.full _ ((1 : K) : WithBot K)) _ := expertCall_full sharedInput hid
  obtain ⟨-, hcuda⟩ := h (fun _ => ((1 : K) : WithBot K)) _ (.full _ ((1 : K) : WithBot K)) _ _ _
    inOrder hcall (new_ok hbs rfl rfl)
  have hkernel := (computes_forwardCuda_iff hcall).mp hcuda
  obtain ⟨p, hp, hget⟩ : ∃ p < tokens * topK * outFeatures, (grid (tokens * topK) outFeatures
      (expertEntry X.moeOps _ _ _ _ _ blockSize outFeatures inFeatures topK sharedInput))[p]? =
        (List.replicate (tokens * topK * outFeatures) X.moeOps.zero)[p]? := by
    have hpos : 0 < tokens * topK * outFeatures :=
      Nat.mul_pos (Nat.pos_of_ne_zero hrows) (Nat.pos_of_ne_zero hout)
    by_cases hfit : divCeil (tokens * topK * outFeatures) 256 < 2 ^ 31
    · have hge : numExperts % 2 ^ 32 ≤ id.toNat := hcast.resolve_left fun hlt => hfits ⟨hfit, hlt⟩
      rw [deepseekFp8SelectedExpertMatmulF16_ok inOrder hbs (.inr hfit) hcall
        ((Tensor.size_eq _).trans hs)] at hkernel
      have hrow : ∀ r < tokens * topK,
          numExperts % 2 ^ 32 ≤ ((Tensor.full [tokens, topK] id).data.getD r 0).toNat := by
        intro r hr
        have hget := hcall.getElem?_ids hr
        rw [Tensor.getElem?_full (hr.trans_eq List.prod_pair.symm)] at hget
        rwa [← Option.some.inj hget]
      rw [← replicate_eq_grid fun r hr c hc => kernelEntry_eq_zero (hrow r hr)] at hkernel
      exact ⟨0, hpos, by rw [← Except.ok.inj hkernel]⟩
    · have hpos' : ¬ (tokens = 0 ∨ topK = 0 ∨ outFeatures = 0 ∨ inFeatures = 0) := by
        obtain ⟨htokens, htopK⟩ := mul_ne_zero_iff.mp hrows
        tauto
      rw [deepseekFp8SelectedExpertMatmulF16, if_neg hpos', checkedDivCeil_of_pos _ hbs,
        ok_bind] at hkernel
      exact launch_of_not_fits inOrder hfit List.length_replicate
        (fun i out hlen => deepseekFp8SelectedExpertMatmulF16Kernel_ok hbs hcall
          ((Tensor.size_eq _).trans hs) i out hlen) hkernel
  exact getElem?_grid_ne_zero X hin (fun r hr c hc => scaledDot_ones X hbs (hcall.id_lt hr)
    (inputRow_lt hr) hc hs List.prod_pair _) hp hget

end SelectedBlockFp8Experts

/-- Both layers and both kernels compute the same sums, for dimensions of all sizes, exactly if the
grids can be launched and the number of experts fits into 32 bits. -/
theorem blockFp8_agree_iff (hbs : 0 < blockSize) (dims : List ℕ) (sharedInput : Bool) :
    (BlockFp8Linear.Agrees X.moeOps blockSize outFeatures inFeatures dims ∧
      SelectedBlockFp8Experts.Agrees X.moeOps blockSize numExperts outFeatures inFeatures tokens
        topK sharedInput) ↔
    (dims.prod * outFeatures * inFeatures = 0 ∨ divCeil (dims.prod * outFeatures) 256 < 2 ^ 31) ∧
      (tokens * topK * numExperts * outFeatures * inFeatures = 0 ∨
        divCeil (tokens * topK * outFeatures) 256 < 2 ^ 31 ∧ numExperts < 2 ^ 32) := by
  constructor
  · rintro ⟨hlinear, hexperts⟩
    exact ⟨BlockFp8Linear.launches_of_agrees X hbs hlinear,
      SelectedBlockFp8Experts.launches_of_agrees X hbs hexperts⟩
  · rintro ⟨hlinear, hexperts⟩
    exact ⟨BlockFp8Linear.agrees_of_launches X.moeOps_lawful.toLawful hlinear,
      SelectedBlockFp8Experts.agrees_of_launches hexperts⟩

end Ones

/-- Matrices of three rows and columns in blocks of two. -/
theorem blockFp8_agree_iff_ragged :
    (BlockFp8Linear.Agrees ExactOps.rational.moeOps 2 3 3 [2] ∧
      SelectedBlockFp8Experts.Agrees ExactOps.rational.moeOps 2 4 3 3 2 2 false) ↔
    ([2].prod * 3 * 3 = 0 ∨ divCeil ([2].prod * 3) 256 < 2 ^ 31) ∧
      (2 * 2 * 4 * 3 * 3 = 0 ∨ divCeil (2 * 2 * 3) 256 < 2 ^ 31 ∧ 4 < 2 ^ 32) := by
  have hbs : 0 < 2 := by decide
  exact blockFp8_agree_iff ExactOps.rational hbs [2] false

/-- With `2 ^ 32` experts the kernel takes every id to be out of range. -/
theorem not_blockFp8_agree : ¬ (BlockFp8Linear.Agrees ExactOps.rational.moeOps 1 1 1 [1] ∧
    SelectedBlockFp8Experts.Agrees ExactOps.rational.moeOps 1 (2 ^ 32) 1 1 1 1 true) := by
  rintro ⟨-, hexperts⟩
  rcases SelectedBlockFp8Experts.launches_of_agrees ExactOps.rational Nat.one_pos hexperts with
    hzero | ⟨-, hlt⟩
  · exact absurd hzero (by decide)
  · exact Nat.lt_irrefl _ hlt

end Rllm
