import Mathlib.Data.Set.Function
import Rllm.Kernels.Attention
import Rllm.Library.RowMajor

/-! # Layouts of the key-value cache

A layout is an order of the dimensions of a layer's cache. The place of an
element is the row-major place of its index in that order, so the elements of a
layer have places of their own, without a gap, and those of a block lie side by
side.
-/

namespace Rllm

/-- The index of an element of a layer's cache. -/
structure KvIndex where
  block : ℕ
  slot : ℕ
  head : ℕ
  d : ℕ
  deriving DecidableEq, Repr

/-- An index is within the bounds of a layer's cache. -/
structure KvIndex.Inside (numBlocks blockSize numKvHeads headDim : ℕ) (i : KvIndex) : Prop where
  block_lt : i.block < numBlocks
  slot_lt : i.slot < blockSize
  head_lt : i.head < numKvHeads
  d_lt : i.d < headDim

namespace KvLayout

variable {layout : KvLayout} {numBlocks blockSize numKvHeads headDim : ℕ}
  {block slot head d block' slot' head' d' : ℕ}

theorem prod_shape (layout : KvLayout) (numBlocks blockSize numKvHeads headDim : ℕ) :
    (layout.shape numBlocks blockSize numKvHeads headDim).prod =
      numBlocks * blockSize * numKvHeads * headDim := by
  cases layout <;> simp only [shape, List.prod_cons, List.prod_nil] <;> ring

theorem offset_eq_rowMajor (layout : KvLayout)
    (numBlocks blockSize numKvHeads headDim block slot head d : ℕ) :
    layout.offset block slot head d blockSize numKvHeads headDim =
      rowMajor (layout.shape numBlocks blockSize numKvHeads headDim)
        (layout.shape block slot head d) := by
  cases layout <;> simp only [offset, shape, rowMajor, List.prod_cons, List.prod_nil] <;> ring

theorem within_shape (hblock : block < numBlocks) (hslot : slot < blockSize)
    (hhead : head < numKvHeads) (hd : d < headDim) :
    Within (layout.shape numBlocks blockSize numKvHeads headDim)
      (layout.shape block slot head d) := by
  cases layout with
  | legacy => exact .cons hblock (.cons hhead (.cons hd (.cons hslot .nil)))
  | nhd => exact .cons hblock (.cons hslot (.cons hhead (.cons hd .nil)))
  | hnd => exact .cons hblock (.cons hhead (.cons hslot (.cons hd .nil)))

theorem exists_of_within {index : List ℕ}
    (h : Within (layout.shape numBlocks blockSize numKvHeads headDim) index) :
    ∃ i : KvIndex, i.Inside numBlocks blockSize numKvHeads headDim ∧
      layout.shape i.block i.slot i.head i.d = index := by
  cases layout with
  | legacy =>
    rcases h with _ | ⟨hblock, _ | ⟨hhead, _ | ⟨hd, _ | ⟨hslot, ⟨⟩⟩⟩⟩⟩
    exact ⟨⟨_, _, _, _⟩, ⟨hblock, hslot, hhead, hd⟩, rfl⟩
  | nhd =>
    rcases h with _ | ⟨hblock, _ | ⟨hslot, _ | ⟨hhead, _ | ⟨hd, ⟨⟩⟩⟩⟩⟩
    exact ⟨⟨_, _, _, _⟩, ⟨hblock, hslot, hhead, hd⟩, rfl⟩
  | hnd =>
    rcases h with _ | ⟨hblock, _ | ⟨hhead, _ | ⟨hslot, _ | ⟨hd, ⟨⟩⟩⟩⟩⟩
    exact ⟨⟨_, _, _, _⟩, ⟨hblock, hslot, hhead, hd⟩, rfl⟩

theorem shape_inj
    (h : layout.shape block slot head d = layout.shape block' slot' head' d') :
    block = block' ∧ slot = slot' ∧ head = head' ∧ d = d' := by
  cases layout with
  | legacy =>
    simp only [shape, List.cons.injEq] at h
    exact ⟨h.1, h.2.2.2.1, h.2.1, h.2.2.1⟩
  | nhd =>
    simp only [shape, List.cons.injEq] at h
    exact ⟨h.1, h.2.1, h.2.2.1, h.2.2.2.1⟩
  | hnd =>
    simp only [shape, List.cons.injEq] at h
    exact ⟨h.1, h.2.2.1, h.2.1, h.2.2.2.1⟩

theorem offset_lt (layout : KvLayout) (hblock : block < numBlocks) (hslot : slot < blockSize)
    (hhead : head < numKvHeads) (hd : d < headDim) :
    layout.offset block slot head d blockSize numKvHeads headDim <
      (layout.shape numBlocks blockSize numKvHeads headDim).prod := by
  rw [offset_eq_rowMajor layout numBlocks]
  exact rowMajor_lt (within_shape hblock hslot hhead hd)

theorem offset_inj (hslot : slot < blockSize) (hhead : head < numKvHeads) (hd : d < headDim)
    (hslot' : slot' < blockSize) (hhead' : head' < numKvHeads) (hd' : d' < headDim)
    (h : layout.offset block slot head d blockSize numKvHeads headDim =
      layout.offset block' slot' head' d' blockSize numKvHeads headDim) :
    block = block' ∧ slot = slot' ∧ head = head' ∧ d = d' := by
  have hblock : block < max block block' + 1 := Nat.lt_succ_of_le (le_max_left _ _)
  have hblock' : block' < max block block' + 1 := Nat.lt_succ_of_le (le_max_right _ _)
  rw [offset_eq_rowMajor layout (max block block' + 1),
    offset_eq_rowMajor layout (max block block' + 1)] at h
  exact shape_inj (rowMajor_inj (within_shape hblock hslot hhead hd)
    (within_shape hblock' hslot' hhead' hd') h)

theorem offset_div (layout : KvLayout) (block : ℕ) (hslot : slot < blockSize)
    (hhead : head < numKvHeads) (hd : d < headDim) :
    layout.offset block slot head d blockSize numKvHeads headDim /
      (blockSize * numKvHeads * headDim) = block := by
  have hsize : (layout.shape 1 blockSize numKvHeads headDim).prod =
      blockSize * numKvHeads * headDim := by
    rw [prod_shape, Nat.one_mul]
  have hlt := offset_lt layout Nat.one_pos hslot hhead hd
  have hsplit : layout.offset block slot head d blockSize numKvHeads headDim =
      block * (blockSize * numKvHeads * headDim) +
        layout.offset 0 slot head d blockSize numKvHeads headDim := by
    cases layout <;> simp only [offset] <;> ring
  rw [hsplit]
  exact block_div (hlt.trans_eq hsize)

/-! ## One place for each element -/

/-- Where an element lies, on `usize`. -/
def checkedOffset (layout : KvLayout) (block slot head d blockSize numKvHeads headDim : ℕ) :
    Except String ℕ :=
  match layout with
  | legacy => do
    let row ← Checked.mulAdd block numKvHeads head
    let column ← Checked.mulAdd row headDim d
    Checked.mulAdd column blockSize slot
  | nhd => do
    let row ← Checked.mulAdd block blockSize slot
    let column ← Checked.mulAdd row numKvHeads head
    Checked.mulAdd column headDim d
  | hnd => do
    let row ← Checked.mulAdd block numKvHeads head
    let column ← Checked.mulAdd row blockSize slot
    Checked.mulAdd column headDim d

theorem mulAdd_three {a b c e n₁ n₂ n₃ n₄ : ℕ} (ha : a < n₁) (hb : b < n₂) (hc : c < n₃)
    (he : e < n₄) (hsize : n₁ * n₂ * n₃ * n₄ ≤ Checked.usizeBound) :
    (do
      let row ← Checked.mulAdd a n₂ b
      let column ← Checked.mulAdd row n₃ c
      Checked.mulAdd column n₄ e) = .ok (((a * n₂ + b) * n₃ + c) * n₄ + e) := by
  have hsize₃ : n₁ * n₂ * n₃ ≤ Checked.usizeBound :=
    (Nat.le_mul_of_pos_right _ (Nat.zero_lt_of_lt he)).trans hsize
  have hsize₂ : n₁ * n₂ ≤ Checked.usizeBound :=
    (Nat.le_mul_of_pos_right _ (Nat.zero_lt_of_lt hc)).trans hsize₃
  rw [Checked.mulAdd_of_lt ha hb hsize₂, ok_bind,
    Checked.mulAdd_of_lt (block_lt ha hb) hc hsize₃, ok_bind,
    Checked.mulAdd_of_lt (block_lt (block_lt ha hb) hc) he hsize]

theorem checkedOffset_eq {i : KvIndex} (layout : KvLayout)
    (h : i.Inside numBlocks blockSize numKvHeads headDim)
    (hsize : numBlocks * blockSize * numKvHeads * headDim ≤ Checked.usizeBound) :
    layout.checkedOffset i.block i.slot i.head i.d blockSize numKvHeads headDim =
      .ok (layout.offset i.block i.slot i.head i.d blockSize numKvHeads headDim) := by
  obtain ⟨hblock, hslot, hhead, hd⟩ := h
  cases layout with
  | legacy =>
    refine mulAdd_three hblock hhead hd hslot (le_trans (le_of_eq ?_) hsize)
    ring
  | nhd => exact mulAdd_three hblock hslot hhead hd hsize
  | hnd =>
    refine mulAdd_three hblock hhead hslot hd (le_trans (le_of_eq ?_) hsize)
    ring

theorem offset_bijOn_layer (layout : KvLayout) (numBlocks blockSize numKvHeads headDim : ℕ) :
    Set.BijOn (fun i : KvIndex =>
        layout.offset i.block i.slot i.head i.d blockSize numKvHeads headDim)
      {i | i.Inside numBlocks blockSize numKvHeads headDim}
      (Set.Iio (numBlocks * blockSize * numKvHeads * headDim)) := by
  refine ⟨fun i h => ?_, fun i h j h' heq => ?_, fun k hk => ?_⟩
  · have hlt := offset_lt layout h.block_lt h.slot_lt h.head_lt h.d_lt
    rwa [prod_shape] at hlt
  · obtain ⟨hblock, hslot, hhead, hd⟩ :=
      offset_inj h.slot_lt h.head_lt h.d_lt h'.slot_lt h'.head_lt h'.d_lt heq
    cases i
    cases j
    cases hblock
    cases hslot
    cases hhead
    cases hd
    rfl
  · rw [Set.mem_Iio, ← prod_shape layout] at hk
    obtain ⟨index, hindex, hplace⟩ := exists_rowMajor hk
    obtain ⟨i, hi, rfl⟩ := exists_of_within hindex
    refine ⟨i, hi, ?_⟩
    exact (offset_eq_rowMajor layout numBlocks _ _ _ _ _ _ _).trans hplace

theorem offset_bijOn_block (layout : KvLayout) {numBlocks block : ℕ} (hblock : block < numBlocks)
    (blockSize numKvHeads headDim : ℕ) :
    Set.BijOn (fun i : KvIndex =>
        layout.offset i.block i.slot i.head i.d blockSize numKvHeads headDim)
      {i | i.Inside numBlocks blockSize numKvHeads headDim ∧ i.block = block}
      (Set.Ico (block * (blockSize * numKvHeads * headDim))
        (block * (blockSize * numKvHeads * headDim) + blockSize * numKvHeads * headDim)) := by
  have hlayer := offset_bijOn_layer layout numBlocks blockSize numKvHeads headDim
  refine ⟨?_, hlayer.injOn.mono fun i h => h.1, fun k hk => ?_⟩
  · rintro i ⟨h, rfl⟩
    have hpos : 0 < blockSize * numKvHeads * headDim :=
      Nat.mul_pos (Nat.mul_pos (Nat.zero_lt_of_lt h.slot_lt) (Nat.zero_lt_of_lt h.head_lt))
        (Nat.zero_lt_of_lt h.d_lt)
    have hle := Nat.div_mul_le_self
      (layout.offset i.block i.slot i.head i.d blockSize numKvHeads headDim)
      (blockSize * numKvHeads * headDim)
    have hlt := Nat.lt_div_mul_add
      (a := layout.offset i.block i.slot i.head i.d blockSize numKvHeads headDim) hpos
    rw [offset_div layout i.block h.slot_lt h.head_lt h.d_lt] at hle hlt
    exact ⟨hle, hlt⟩
  · have hnext : k < (block + 1) * (blockSize * numKvHeads * headDim) :=
      hk.2.trans_eq (Nat.succ_mul ..).symm
    have htotal : k < numBlocks * blockSize * numKvHeads * headDim :=
      calc k < (block + 1) * (blockSize * numKvHeads * headDim) := hnext
        _ ≤ numBlocks * (blockSize * numKvHeads * headDim) := Nat.mul_le_mul_right _ hblock
        _ = numBlocks * blockSize * numKvHeads * headDim := by ring
    obtain ⟨i, hi, rfl⟩ := hlayer.surjOn htotal
    have hdiv := offset_div layout i.block hi.slot_lt hi.head_lt hi.d_lt
    refine ⟨i, ⟨hi, ?_⟩, rfl⟩
    rw [← hdiv]
    exact Nat.div_eq_of_lt_le hk.1 hnext

/-- Every place of a layer is the place of one element, those of a block are side by side, and
no place of a layer that fits in a `usize` overflows. -/
theorem offset_bijOn (layout : KvLayout) (numBlocks blockSize numKvHeads headDim : ℕ) :
    (layout.shape numBlocks blockSize numKvHeads headDim).prod =
      numBlocks * blockSize * numKvHeads * headDim ∧
    Set.BijOn (fun i : KvIndex =>
        layout.offset i.block i.slot i.head i.d blockSize numKvHeads headDim)
      {i | i.Inside numBlocks blockSize numKvHeads headDim}
      (Set.Iio (numBlocks * blockSize * numKvHeads * headDim)) ∧
    (∀ block < numBlocks, Set.BijOn (fun i : KvIndex =>
        layout.offset i.block i.slot i.head i.d blockSize numKvHeads headDim)
      {i | i.Inside numBlocks blockSize numKvHeads headDim ∧ i.block = block}
      (Set.Ico (block * (blockSize * numKvHeads * headDim))
        (block * (blockSize * numKvHeads * headDim) + blockSize * numKvHeads * headDim))) ∧
    (numBlocks * blockSize * numKvHeads * headDim ≤ Checked.usizeBound →
      ∀ i : KvIndex, i.Inside numBlocks blockSize numKvHeads headDim →
        layout.checkedOffset i.block i.slot i.head i.d blockSize numKvHeads headDim =
          .ok (layout.offset i.block i.slot i.head i.d blockSize numKvHeads headDim)) := by
  refine ⟨prod_shape .., offset_bijOn_layer .., fun block hblock => ?_, fun hsize i h => ?_⟩
  · exact offset_bijOn_block layout hblock ..
  · exact checkedOffset_eq layout h hsize

end KvLayout

end Rllm
