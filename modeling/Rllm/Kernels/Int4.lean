import Mathlib.Algebra.BigOperators.Group.List.Basic
import Rllm.Library.Loops
import Rllm.Model.Awq

/-! # Kernels for packed INT4 matrices

A thread computes one output and decodes the weights on its way by shifts. The
group of an input is compared with a number of groups cast to `uint32_t`.
-/

namespace Rllm

namespace Int4

/-! ## GPTQ -/

def unpackQweight (word : Int32) (nibble : ℕ) : ℤ :=
  (word.toUInt32 >>> (4 * nibble).toUInt32 &&& 0xF).toNat

def unpackQzero (word : Int32) (nibble : ℕ) : ℤ :=
  (word.toUInt32 >>> (4 * nibble).toUInt32 &&& 0xF).toNat + 1

/-- The weight of an input. A group out of range ends the thread. -/
def gptqWeight (qweight qzeros : List Int32) (scales : List ℚ) (gIdx : List UInt32)
    (outFeatures numGroups k col : ℕ) : Except String (Option ℚ) := do
  let packedOutCols := outFeatures / 8
  let packedK := k / 8
  let nibbleK := k % 8
  let qweightWord ← Checked.index qweight (packedK * outFeatures + col)
  let q := unpackQweight qweightWord nibbleK
  let group ← Checked.index gIdx k
  if numGroups % 2 ^ 32 ≤ group.toNat then pure none
  else do
    let qzeroWord ← Checked.index qzeros (group.toNat * packedOutCols + col / 8)
    let zero := unpackQzero qzeroWord (col % 8)
    let scale ← Checked.index scales (group.toNat * outFeatures + col)
    pure (some ((q - zero : ℤ) * scale))

/-- One input, unless the thread has ended. -/
def gptqTurn (x : List ℚ) (qweight qzeros : List Int32) (scales : List ℚ) (gIdx : List UInt32)
    (inFeatures outFeatures numGroups row col : ℕ) (acc : Option ℚ) (k : ℕ) :
    Except String (Option ℚ) :=
  match acc with
  | none => pure none
  | some acc => do
    match ← gptqWeight qweight qzeros scales gIdx outFeatures numGroups k col with
    | none => pure none
    | some weight => do
      let xVal ← Checked.index x (row * inFeatures + k)
      pure (some (acc + xVal * weight))

/-- A thread that ends early leaves its output as it is. -/
def gptqGemmF16Kernel (x : List ℚ) (qweight qzeros : List Int32) (scales : List ℚ)
    (gIdx : List UInt32) (m inFeatures outFeatures numGroups : ℕ) (out : List ℚ) (row col : ℕ) :
    Except String (List ℚ) :=
  if m ≤ row ∨ outFeatures ≤ col then .ok out
  else do
    let acc ← (List.range inFeatures).foldlM
      (gptqTurn x qweight qzeros scales gIdx inFeatures outFeatures numGroups row col) (some 0)
    match acc with
    | none => .ok out
    | some acc => Checked.set out (row * outFeatures + col) acc

/-! ## AWQ -/

def unpackAwqQweight (word : Int32) (nibble : ℕ) : ℤ :=
  (word.toUInt32 >>> (4 * nibble).toUInt32 &&& 0xF).toNat

def unpackAwqQzero (word : Int32) (nibble : ℕ) : ℤ :=
  (word.toUInt32 >>> (4 * nibble).toUInt32 &&& 0xF).toNat

def awqWeight (qweight qzeros : List Int32) (scales : List ℚ) (outFeatures groupSize k col : ℕ) :
    Except String ℚ := do
  let packedOutCols := outFeatures / 8
  let colIdx8 := col / 8
  let j := col % 8
  let nibble ← Checked.index Awq.awqReverseOrder j
  let qweightWord ← Checked.index qweight (k * packedOutCols + colIdx8)
  let q := unpackAwqQweight qweightWord nibble
  let group ← Checked.div k groupSize
  let qzeroWord ← Checked.index qzeros (group * packedOutCols + colIdx8)
  let zero := unpackAwqQzero qzeroWord nibble
  let scale ← Checked.index scales (group * outFeatures + col)
  pure ((q - zero : ℤ) * scale)

def awqTurn (x : List ℚ) (qweight qzeros : List Int32) (scales : List ℚ)
    (inFeatures outFeatures groupSize row col : ℕ) (acc : ℚ) (k : ℕ) : Except String ℚ := do
  let weight ← awqWeight qweight qzeros scales outFeatures groupSize k col
  let xVal ← Checked.index x (row * inFeatures + k)
  pure (acc + xVal * weight)

def awqGemmF16Kernel (x : List ℚ) (qweight qzeros : List Int32) (scales : List ℚ)
    (m inFeatures outFeatures groupSize : ℕ) (out : List ℚ) (row col : ℕ) :
    Except String (List ℚ) :=
  if m ≤ row ∨ outFeatures ≤ col then .ok out
  else do
    let acc ← (List.range inFeatures).foldlM
      (awqTurn x qweight qzeros scales inFeatures outFeatures groupSize row col) 0
    Checked.set out (row * outFeatures + col) acc

/-! ## The weights -/

variable {T : TensorOps} {rows cols groups groupSize k col : ℕ} {qweight qzeros : Tensor Int32}
  {scales : Tensor ℚ} {gIdx : Tensor UInt32}

theorem unpackQweight_eq (w : Int32) {i : ℕ} (hi : i < 8) :
    unpackQweight w i = (Gptq.nibble w i : ℕ) :=
  congrArg Nat.cast (Gptq.toNat_nibble w hi)

theorem unpackQzero_eq (w : Int32) {i : ℕ} (hi : i < 8) :
    unpackQzero w i = (Gptq.nibble w i : ℕ) + 1 :=
  congrArg (fun n : ℕ => (n : ℤ) + 1) (Gptq.toNat_nibble w hi)

theorem exists_getElem? {α : Type} {t : Tensor α} {n m i j : ℕ} (ht : t.shape = [n, m])
    (hi : i < n) (hj : j < m) : ∃ a, t.data[i * m + j]? = some a := by
  have hlt : i * m + j < t.data.length := by
    rw [t.size_eq, ht, List.prod_pair]
    exact block_lt hi hj
  exact ⟨_, List.getElem?_eq_getElem hlt⟩

/-- The kernel uses the entry of the decoded matrix, as long as it compares the group with the
number of groups. -/
theorem gptqWeight_ok (hT : T.Lawful) (hw : qweight.shape = [rows, cols * 8])
    (hz : qzeros.shape = [groups, cols])
    (hs : scales.shape = [groups, cols * 8]) (hg : gIdx.shape = [rows * 8])
    (hin : ∀ g ∈ gIdx.data, g.toNat < groups) :
    ∃ r, Gptq.dequantizeGptqImpl T qweight qzeros scales gIdx 4 = .ok r ∧
      r.shape = [cols * 8, rows * 8] ∧
      ∀ k < rows * 8, ∀ col < cols * 8, ∃ g value, gIdx.data[k]? = some g ∧
        r.data[col * (rows * 8) + k]? = some value ∧
        gptqWeight qweight.data qzeros.data scales.data gIdx.data (cols * 8) groups k col =
          .ok (if g.toNat < groups % 2 ^ 32 then some value else none) := by
  obtain ⟨r, hr, hshape, hdata⟩ := Gptq.dequantizeGptqImpl_ok hT hw hz hs hg hin
  refine ⟨r, hr, hshape, fun k hk col hcol => ?_⟩
  have hrow : k / 8 < rows := Gptq.div_packFactor_lt hk
  have hword : col / 8 < cols := Gptq.div_packFactor_lt hcol
  have hlen : gIdx.data.length = rows * 8 := by rw [gIdx.size_eq, hg, List.prod_singleton]
  obtain ⟨g, hgk⟩ : ∃ g, gIdx.data[k]? = some g :=
    ⟨_, List.getElem?_eq_getElem (hk.trans_eq hlen.symm)⟩
  have hgroup := hin g (List.mem_of_getElem? hgk)
  obtain ⟨w, hwk⟩ := exists_getElem? hw hrow hcol
  obtain ⟨z, hzk⟩ := exists_getElem? hz hgroup hword
  obtain ⟨s, hsk⟩ := exists_getElem? hs hgroup hcol
  refine ⟨g, _, hgk, hdata k hk col hcol w g z s hwk hgk hzk hsk, ?_⟩
  rw [gptqWeight, Checked.index_of_eq hwk, ok_bind, Checked.index_of_eq hgk, ok_bind,
    Nat.mul_div_cancel _ (by decide)]
  dsimp only
  split
  · rw [if_neg (by omega)]
    rfl
  · rw [Checked.index_of_eq hzk, ok_bind, Checked.index_of_eq hsk, ok_bind, if_pos (by omega),
      unpackQweight_eq _ (Nat.mod_lt _ (by decide)), unpackQzero_eq _ (Nat.mod_lt _ (by decide))]
    push_cast
    rfl

theorem awqWeight_ok (hT : T.Lawful) (hpos : 0 < groupSize)
    (hw : qweight.shape = [groups * groupSize, cols])
    (hz : qzeros.shape = [groups, cols]) (hs : scales.shape = [groups, cols * 8]) :
    ∃ r, Awq.dequantizeAwqImpl T qweight qzeros scales 4 groupSize = .ok r ∧
      r.shape = [cols * 8, groups * groupSize] ∧
      ∀ k < groups * groupSize, ∀ col < cols * 8, ∃ value,
        r.data[col * (groups * groupSize) + k]? = some value ∧
        awqWeight qweight.data qzeros.data scales.data (cols * 8) groupSize k col = .ok value := by
  obtain ⟨r, hr, hshape, hdata⟩ := Awq.dequantizeAwqImpl_ok hT hpos hw hz hs
  refine ⟨r, hr, hshape, fun k hk col hcol => ?_⟩
  have hword : col / 8 < cols := Gptq.div_packFactor_lt hcol
  have hgroup : k / groupSize < groups := Nat.div_lt_of_lt_mul (by rwa [Nat.mul_comm])
  have hj : col % 8 < 8 := Nat.mod_lt _ (by decide)
  obtain ⟨w, hwk⟩ := exists_getElem? hw hk hword
  obtain ⟨z, hzk⟩ := exists_getElem? hz hgroup hword
  obtain ⟨s, hsk⟩ := exists_getElem? hs hgroup hcol
  refine ⟨_, hdata k hk col hcol w z s hwk hzk hsk, ?_⟩
  rw [awqWeight, Checked.index_of_eq (Awq.getElem?_awqReverseOrder hj), ok_bind,
    Nat.mul_div_cancel _ (by decide)]
  dsimp only
  rw [Checked.index_of_eq hwk, ok_bind, Checked.div_of_pos hpos, ok_bind, Checked.index_of_eq hzk,
    ok_bind, Checked.index_of_eq hsk, ok_bind]
  have hq : unpackAwqQweight w (Awq.nibbleOf (col % 8)) = _ :=
    unpackQweight_eq w (Awq.nibbleOf_lt hj)
  have hzero : unpackAwqQzero z (Awq.nibbleOf (col % 8)) = _ :=
    unpackQweight_eq z (Awq.nibbleOf_lt hj)
  rw [hq, hzero]
  push_cast
  rfl

/-! ## The products -/

theorem foldl_add_mul (xs ws : ℕ → ℚ) (n : ℕ) :
    (List.range n).foldl (fun acc k => acc + xs k * ws k) 0 =
      ((List.range n).map fun k => xs k * ws k).sum := by
  rw [List.sum_eq_foldl, List.foldl_map]

variable {qweight qzeros : List Int32} {scales : List ℚ} {gIdx : List UInt32} {x out : List ℚ}
  {m inFeatures outFeatures numGroups row : ℕ} {xs ws : ℕ → ℚ}

theorem gptqGemmF16Kernel_ok (hrow : row < m) (hcol : col < outFeatures)
    (hout : row * outFeatures + col < out.length)
    (hx : ∀ k < inFeatures, x[row * inFeatures + k]? = some (xs k))
    (hw : ∀ k < inFeatures,
      gptqWeight qweight qzeros scales gIdx outFeatures numGroups k col = .ok (some (ws k))) :
    gptqGemmF16Kernel x qweight qzeros scales gIdx m inFeatures outFeatures numGroups out row col =
      .ok (out.set (row * outFeatures + col)
        ((List.range inFeatures).map fun k => xs k * ws k).sum) := by
  obtain ⟨acc, hacc, rfl⟩ : ∃ acc, (List.range inFeatures).foldlM (gptqTurn x qweight qzeros scales
      gIdx inFeatures outFeatures numGroups row col) (some 0) = .ok acc ∧
      acc = some ((List.range inFeatures).foldl (fun acc k => acc + xs k * ws k) 0) := by
    refine foldlM_range_inv
      (fun i acc => acc = some ((List.range i).foldl (fun acc k => acc + xs k * ws k) 0)) rfl ?_
    rintro i hi _ rfl
    refine ⟨_, ?_, rfl⟩
    rw [gptqTurn, hw i hi, ok_bind, Checked.index_of_eq (hx i hi)]
    dsimp only
    rw [ok_bind, List.range_succ, List.foldl_append]
    rfl
  rw [gptqGemmF16Kernel, if_neg (by omega), hacc, ok_bind, foldl_add_mul]
  exact Checked.set_of_lt hout _

theorem awqGemmF16Kernel_ok (hrow : row < m) (hcol : col < outFeatures)
    (hout : row * outFeatures + col < out.length)
    (hx : ∀ k < inFeatures, x[row * inFeatures + k]? = some (xs k))
    (hw : ∀ k < inFeatures,
      awqWeight qweight qzeros scales outFeatures groupSize k col = .ok (ws k)) :
    awqGemmF16Kernel x qweight qzeros scales m inFeatures outFeatures groupSize out row col =
      .ok (out.set (row * outFeatures + col)
        ((List.range inFeatures).map fun k => xs k * ws k).sum) := by
  have hsum : (List.range inFeatures).foldlM (awqTurn x qweight qzeros scales inFeatures
      outFeatures groupSize row col) 0 =
      .ok ((List.range inFeatures).foldl (fun acc k => acc + xs k * ws k) 0) := by
    refine foldlM_eq_pure (fun acc k hk => ?_) 0
    have hk := List.mem_range.mp hk
    rw [awqTurn, hw k hk, ok_bind, Checked.index_of_eq (hx k hk), ok_bind]
  rw [awqGemmF16Kernel, if_neg (by omega), hsum, ok_bind, foldl_add_mul]
  exact Checked.set_of_lt hout _

/-! ## Both devices -/

/-- Each weight that the kernel uses is the entry of the decoded matrix, and it uses one unless
the cast number of groups excludes the group. -/
def GptqAgrees (T : TensorOps) (qweight qzeros : Tensor Int32) (scales : Tensor ℚ)
    (gIdx : Tensor UInt32) (inFeatures outFeatures numGroups : ℕ) : Prop :=
  ∃ r, Gptq.dequantizeGptqImpl T qweight qzeros scales gIdx 4 = .ok r ∧
    r.shape = [outFeatures, inFeatures] ∧
    ∀ k < inFeatures, ∀ col < outFeatures, ∃ g value, gIdx.data[k]? = some g ∧
      r.data[col * inFeatures + k]? = some value ∧
      gptqWeight qweight.data qzeros.data scales.data gIdx.data outFeatures numGroups k col =
        .ok (if g.toNat < numGroups % 2 ^ 32 then some value else none)

def AwqAgrees (T : TensorOps) (qweight qzeros : Tensor Int32) (scales : Tensor ℚ)
    (inFeatures outFeatures groupSize : ℕ) : Prop :=
  ∀ k < inFeatures, ∀ col < outFeatures, ∃ r value,
    Awq.dequantizeAwqImpl T qweight qzeros scales 4 groupSize = .ok r ∧
    r.shape = [outFeatures, inFeatures] ∧ r.data[col * inFeatures + k]? = some value ∧
    awqWeight qweight.data qzeros.data scales.data outFeatures groupSize k col = .ok value

end Int4

end Rllm
