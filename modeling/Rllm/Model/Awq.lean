import Rllm.Library.Checked
import Rllm.Model.Gptq

/-! # Packed AWQ layers

Weights and zero points are both packed along the outputs, in an interleaved
order, and a zero point stands for itself. The groups are runs of inputs.
-/

namespace Rllm

namespace Awq

open Gptq

/-- The nibble of each of the eight outputs of a word. -/
def awqReverseOrder : List ℕ := [0, 4, 1, 5, 2, 6, 3, 7]

/-- The nibbles of a matrix of words, side by side in the order of the outputs. -/
def unpackReordered (T : TensorOps) (t : Tensor Int32) (rows outFeatures : ℕ) :
    Except String (Tensor ℚ) := do
  let unpacked := (List.range 8).map fun i => (t.map unsigned).map (unpackNibble i)
  let reordered ← awqReverseOrder.mapM (Checked.index unpacked)
  let stacked ← T.stack reordered 2
  T.reshape stacked [rows, outFeatures]

/-- The row of a group for each of its inputs. -/
def expandGroups (T : TensorOps) (t : Tensor ℚ) (numGroups groupSize inFeatures outFeatures : ℕ) :
    Except String (Tensor ℚ) := do
  let t ← T.unsqueeze t 1
  let t ← T.expand t [numGroups, groupSize, outFeatures]
  T.reshape t [inFeatures, outFeatures]

def dequantizeAwqImpl (T : TensorOps) (qweight qzeros : Tensor Int32) (scales : Tensor ℚ)
    (bits groupSize : ℕ) : Except String (Tensor ℚ) := do
  if bits ≠ 4 then throw s!"Only 4-bit AWQ is supported, got {bits}"
  let (inFeatures, packedOutFeatures) ← dims2 qweight
  let outFeatures := packedOutFeatures * 8
  let numGroups ← Checked.div inFeatures groupSize
  let wRaw ← unpackReordered T qweight inFeatures outFeatures
  let zRaw ← unpackReordered T qzeros numGroups outFeatures
  let scalesExpanded ← expandGroups T scales numGroups groupSize inFeatures outFeatures
  let zExpanded ← expandGroups T zRaw numGroups groupSize inFeatures outFeatures
  let wDequant ← T.zipWith (· - ·) wRaw zExpanded
  let wDequant ← T.zipWith (· * ·) wDequant scalesExpanded
  T.transpose wDequant

/-! ## The order of the nibbles -/

/-- The nibble of an output within its word. -/
def nibbleOf (j : ℕ) : ℕ := awqReverseOrder.getD j 0

theorem getElem?_awqReverseOrder {j : ℕ} (hj : j < 8) :
    awqReverseOrder[j]? = some (nibbleOf j) := by
  have hlt : j < awqReverseOrder.length := hj
  rw [nibbleOf, List.getD_eq_getElem?_getD, List.getElem?_eq_getElem hlt, Option.getD_some]

theorem nibbleOf_lt {j : ℕ} (hj : j < 8) : nibbleOf j < 8 := by
  have hall : ∀ i ∈ awqReverseOrder, i < 8 := by decide
  exact hall _ (List.mem_of_getElem? (getElem?_awqReverseOrder hj))

/-! ## The decoded weights -/

variable {T : TensorOps} {rows cols groups groupSize : ℕ}

theorem unpackReordered_ok (hT : T.Lawful) {t : Tensor Int32} (ht : t.shape = [rows, cols]) :
    ∃ r, unpackReordered T t rows (cols * 8) = .ok r ∧ r.shape = [rows, cols * 8] ∧
      ∀ i < rows, ∀ o < cols * 8, ∀ w, t.data[i * cols + o / 8]? = some w →
        r.data[i * (cols * 8) + o]? = some (nibble w (nibbleOf (o % 8)) : ℚ) := by
  have hreorder : awqReverseOrder.mapM (Checked.index ((List.range 8).map fun i =>
      (t.map unsigned).map (unpackNibble i))) =
      .ok (awqReverseOrder.map fun i => (t.map unsigned).map (unpackNibble i)) := rfl
  have hshape : ∀ u ∈ awqReverseOrder.map fun i => (t.map unsigned).map (unpackNibble i),
      u.shape = [rows, cols] := by
    intro u hu
    obtain ⟨i, -, rfl⟩ := List.mem_map.mp hu
    exact ht
  obtain ⟨stacked, hstack, hstackShape, hstackData⟩ :=
    hT.stack_ok 2 (by simp [awqReverseOrder]) hshape
  obtain ⟨r, hr, hrShape, hrData⟩ := hT.reshape_ok [rows, cols * 8]
    (show _ = stacked.shape.prod by
      rw [hstackShape]
      simp [awqReverseOrder])
  refine ⟨r, ?_, hrShape, fun i hi o ho w hw => ?_⟩
  · rw [unpackReordered, hreorder, ok_bind, hstack, ok_bind, hr]
  · have hj : o % 8 < 8 := Nat.mod_lt o (by decide)
    have hword : o / 8 < cols := div_packFactor_lt ho
    have hget := hstackData (i * cols + o / 8) (o % 8) 0
      (by simpa using block_lt hi hword) (by simp) _ (by
        rw [List.getElem?_map, getElem?_awqReverseOrder hj, Option.map_some])
    have hplace : (i * cols + o / 8) * 8 + o % 8 = i * (cols * 8) + o := by
      rw [Nat.add_mul, Nat.add_assoc, Nat.div_add_mod' o 8, Nat.mul_assoc]
    rw [hrData]
    simpa [awqReverseOrder, hplace, Tensor.map, hw, unpackNibble_eq] using hget

theorem expandGroups_ok (hT : T.Lawful) {t : Tensor ℚ} (hpos : 0 < groupSize)
    (ht : t.shape = [groups, cols]) :
    ∃ r, expandGroups T t groups groupSize (groups * groupSize) cols = .ok r ∧
      r.shape = [groups * groupSize, cols] ∧
      ∀ k < groups * groupSize, ∀ o < cols,
        r.data[k * cols + o]? = t.data[k / groupSize * cols + o]? := by
  have hdim : 1 ≤ t.shape.length := by simp [ht]
  obtain ⟨single, hsingle, hsingleShape, hsingleData⟩ := hT.unsqueeze_ok hdim
  have hsingleShape : single.shape = [groups, 1, cols] := by
    rw [hsingleShape, ht]
    rfl
  obtain ⟨wide, hwide, hwideShape, hwideData⟩ := hT.expand_rows_ok groupSize hsingleShape
  obtain ⟨r, hr, hrShape, hrData⟩ := hT.reshape_ok [groups * groupSize, cols]
    (show _ = wide.shape.prod by
      rw [hwideShape]
      simp [Nat.mul_assoc])
  refine ⟨r, ?_, hrShape, fun k hk o ho => ?_⟩
  · rw [expandGroups, hsingle, ok_bind, hwide, ok_bind, hr]
  · have hgroup : k / groupSize < groups := Nat.div_lt_of_lt_mul (by rwa [Nat.mul_comm])
    have hget := hwideData (k / groupSize) (k % groupSize) o hgroup (Nat.mod_lt k hpos) ho
    rwa [Nat.div_add_mod' k groupSize, ← hrData, hsingleData] at hget

theorem dequantizeAwqImpl_ok (hT : T.Lawful) {qweight qzeros : Tensor Int32} {scales : Tensor ℚ}
    (hpos : 0 < groupSize) (hw : qweight.shape = [groups * groupSize, cols])
    (hz : qzeros.shape = [groups, cols]) (hs : scales.shape = [groups, cols * 8]) :
    ∃ r, dequantizeAwqImpl T qweight qzeros scales 4 groupSize = .ok r ∧
      r.shape = [cols * 8, groups * groupSize] ∧
      ∀ k < groups * groupSize, ∀ o < cols * 8, ∀ w z s,
        qweight.data[k * cols + o / 8]? = some w →
        qzeros.data[k / groupSize * cols + o / 8]? = some z →
        scales.data[k / groupSize * (cols * 8) + o]? = some s →
        r.data[o * (groups * groupSize) + k]? =
          some ((nibble w (nibbleOf (o % 8)) - nibble z (nibbleOf (o % 8))) * s) := by
  obtain ⟨wRaw, hwRaw, hwRawShape, hwRawData⟩ := unpackReordered_ok hT hw
  obtain ⟨zRaw, hzRaw, hzRawShape, hzRawData⟩ := unpackReordered_ok hT hz
  obtain ⟨sExp, hsExp, hsExpShape, hsExpData⟩ := expandGroups_ok hT hpos hs
  obtain ⟨zExp, hzExp, hzExpShape, hzExpData⟩ := expandGroups_ok hT hpos hzRawShape
  obtain ⟨diff, hdiff, hdiffShape, hdiffData⟩ :=
    hT.zipWith_ok (t := wRaw) (u := zExp) (· - ·) (by rw [hwRawShape, hzExpShape])
  obtain ⟨prod, hprod, hprodShape, hprodData⟩ :=
    hT.zipWith_ok (t := diff) (u := sExp) (· * ·) (by rw [hdiffShape, hwRawShape, hsExpShape])
  obtain ⟨r, hr, hrShape, hrData⟩ :=
    hT.transpose_ok (hprodShape.trans (hdiffShape.trans hwRawShape))
  have hgroups : groups * groupSize / groupSize = groups := Nat.mul_div_cancel _ hpos
  refine ⟨r, ?_, hrShape, fun k hk o ho w z s hwk hzk hsk => ?_⟩
  · rw [dequantizeAwqImpl, dims2_ok hw]
    simp only [ne_eq, not_true_eq_false, if_false, ok_bind, Checked.div_of_pos hpos,
      hgroups, hwRaw, hzRaw, hsExp, hzExp, hdiff, hprod, hr]
  · have hgroup : k / groupSize < groups := Nat.div_lt_of_lt_mul (by rwa [Nat.mul_comm])
    rw [hrData k o hk ho]
    refine hprodData _ _ _ (hdiffData _ _ _ (hwRawData k hk o ho w hwk) ?_) ?_
    · rw [hzExpData k hk o ho]
      exact hzRawData _ hgroup o ho z hzk
    · rw [hsExpData k hk o ho]
      exact hsk

end Awq

end Rllm
