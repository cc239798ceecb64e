import Rllm.Kernels.Metadata
import Rllm.Kernels.Paged

/-! # Batches of sequences

A batch as a scheduler step has it: sequences with their histories, query lengths
and block tables. Its metadata say where the tokens and pages of a sequence start
as long as their numbers are small enough, and then paged attention over it is
dense attention in every layout.
-/

namespace Rllm

/-- A sequence with its whole history; the block ids are `i32`. -/
structure Sequence (F32 : Type) where
  qLen : ℕ
  kvLen : ℕ
  blockTable : List ℤ
  /-- Keys and values, `[kv_len, num_kv_heads, head_dim]`. -/
  k : List F32
  v : List F32
  deriving DecidableEq

namespace Sequence

variable {F32 : Type}

def pages (blockSize : ℕ) (s : Sequence F32) : ℕ := divCeil s.kvLen blockSize

/-- The slot of a position. -/
def slot (blockSize : ℕ) (s : Sequence F32) (p : ℕ) : ℤ :=
  s.blockTable.getD (p / blockSize) 0 * blockSize + (p % blockSize : ℕ)

/-- The used pages of the sequence are there and lie inside the cache. -/
structure WellFormed (numBlocks blockSize row : ℕ) (s : Sequence F32) : Prop where
  qLen_le : s.qLen ≤ s.kvLen
  kLength : s.k.length = s.kvLen * row
  vLength : s.v.length = s.kvLen * row
  enough : s.pages blockSize ≤ s.blockTable.length
  inside : ∀ block ∈ s.blockTable.take (s.pages blockSize),
    0 ≤ block ∧ block < numBlocks ∧ block < 2 ^ 31

end Sequence

section Batch

variable {F32 F64 : Type}

/-- The metadata of a batch. -/
def batchMetadata (batch : List (Sequence F32)) : AttentionMetadata where
  seqLens := batch.map (·.kvLen)
  queryStartLoc := (List.range (batch.length + 1)).map (blockStart (·.qLen) batch)
  blockTables := batch.map (·.blockTable)

/-- The slots of all histories, sequence by sequence. -/
def batchSlots (blockSize : ℕ) (batch : List (Sequence F32)) : List ℤ :=
  batch.flatMap fun s => (List.range s.kvLen).map (s.slot blockSize)

/-- Write all histories into the cache, build the metadata and attend. -/
def pagedAttention (ops : ScalarOps F32 F64) (spec : AttnSpec F32) (kScale vScale : F32)
    (q : List F32) (batch : List (Sequence F32)) (layout : KvLayout) (kCache vCache : List F32) :
    Option (List F32) := do
  let (k, v) ← writeKvHost kCache vCache layout (batch.flatMap (·.k)) (batch.flatMap (·.v))
    (batchSlots spec.blockSize batch) spec.blockSize spec.numKvHeads spec.headDim
  let md ← (StepMetadata.fromAttentionMetadata (batchMetadata batch) spec.blockSize).toOption
  runHost ops q
    { k, v, layout, blockSize := spec.blockSize, numKvHeads := spec.numKvHeads,
      headDim := spec.headDim, kScale, vScale } md spec

/-- Dense attention over the histories of a batch. -/
def denseAttention (ops : ScalarOps F32 F64) (spec : AttnSpec F32) (kScale vScale : F32)
    (q : List F32) (batch : List (Sequence F32)) : Option (List F32) :=
  denseReference ops q (batch.map (·.k)) (batch.map (·.v)) (batch.map (·.qLen))
    (batch.map (·.kvLen)) spec kScale vScale

/-- Positions that share a slot have the same keys and values. -/
def Shares (blockSize row : ℕ) (batch : List (Sequence F32)) : Prop :=
  ∀ s ∈ batch, ∀ s' ∈ batch, ∀ p < s.kvLen, ∀ p' < s'.kvLen,
    s.slot blockSize p = s'.slot blockSize p' → ∀ c < row,
      s.k[p * row + c]? = s'.k[p' * row + c]? ∧ s.v[p * row + c]? = s'.v[p' * row + c]?

end Batch

/-! ## Metadata -/

section Metadata

variable {F32 : Type} {batch : List (Sequence F32)} {numBlocks blockSize row i : ℕ}
  {s : Sequence F32}

theorem asUsize_asI32 {n : ℕ} (h : n < 2 ^ 31) : asUsize (asI32 n) = n := by
  rw [asI32_of_lt h, asUsize, Int.emod_eq_of_lt (by omega) (by omega), Int.toNat_natCast]

theorem asUsize_block {block : ℤ} (h0 : 0 ≤ block) (h : block < 2 ^ 31) :
    asUsize block = block.toNat := by
  rw [asUsize, Int.emod_eq_of_lt h0 (by omega)]

theorem getD_queryStartLoc (hi : i ≤ batch.length) :
    (batchMetadata batch).queryStartLoc.getD i 0 = blockStart (·.qLen) batch i := by
  have hlt : i < batch.length + 1 := Nat.lt_succ_of_le hi
  simp [batchMetadata, List.getD_eq_getElem?_getD, List.getElem?_range hlt]

theorem seqLen_batchMetadata (hs : batch[i]? = some s) :
    (batchMetadata batch).seqLen i = s.kvLen := by
  simp [batchMetadata, AttentionMetadata.seqLen, List.getD_eq_getElem?_getD, hs]

theorem pages_batchMetadata (hs : batch[i]? = some s) :
    (batchMetadata batch).pages blockSize i = s.pages blockSize := by
  rw [AttentionMetadata.pages, seqLen_batchMetadata hs, Sequence.pages]

theorem row_batchMetadata (hs : batch[i]? = some s) :
    (batchMetadata batch).row i = s.blockTable := by
  simp [batchMetadata, AttentionMetadata.row, List.getD_eq_getElem?_getD, hs]

theorem usedBlocks_batchMetadata (hs : batch[i]? = some s) :
    (batchMetadata batch).usedBlocks blockSize i = s.blockTable.take (s.pages blockSize) := by
  rw [AttentionMetadata.usedBlocks, row_batchMetadata hs, pages_batchMetadata hs]

theorem qLen_batchMetadata (hs : batch[i]? = some s) : (batchMetadata batch).qLen i = s.qLen := by
  have hi : i < batch.length := (List.getElem?_eq_some_iff.mp hs).1
  rw [AttentionMetadata.qLen, getD_queryStartLoc hi, getD_queryStartLoc hi.le, blockStart_succ hs,
    Nat.add_sub_cancel_left]

theorem valid_batchMetadata (hbs : 0 < blockSize)
    (hwf : ∀ s ∈ batch, s.WellFormed numBlocks blockSize row) :
    (batchMetadata batch).Valid blockSize where
  blockSize_pos := hbs
  starts_length := by simp [batchMetadata, AttentionMetadata.numSeqs]
  starts_zero := by simp [batchMetadata, List.range_succ_eq_map]
  starts_mono := by
    refine List.Pairwise.sortedLE (List.pairwise_map.mpr ?_)
    exact List.pairwise_lt_range.imp fun hlt => blockStart_mono hlt.le
  rows_length := by simp [batchMetadata, AttentionMetadata.numSeqs]
  seqs i hi := by
    rw [AttentionMetadata.numSeqs, batchMetadata, List.length_map] at hi
    obtain ⟨s, hs⟩ : ∃ s, batch[i]? = some s := ⟨_, List.getElem?_eq_getElem hi⟩
    have hs' := hwf s (List.mem_of_getElem? hs)
    constructor
    · rw [qLen_batchMetadata hs, seqLen_batchMetadata hs]
      exact hs'.qLen_le
    · rw [pages_batchMetadata hs, row_batchMetadata hs]
      exact hs'.enough
    · rw [usedBlocks_batchMetadata hs]
      exact fun block hblock => (hs'.inside block hblock).1

theorem map_range_batch {α : Type} {f : ℕ → α} {g : Sequence F32 → α}
    (h : ∀ i s, batch[i]? = some s → f i = g s) :
    (List.range batch.length).map f = batch.map g := by
  apply List.ext_getElem
  · simp
  · intro i hi _
    rw [List.length_map, List.length_range] at hi
    rw [List.getElem_map, List.getElem_map, List.getElem_range]
    exact h i _ (List.getElem?_eq_getElem hi)

/-- What the metadata of a batch of well-formed sequences list. -/
structure Lists (blockSize : ℕ) (batch : List (Sequence F32)) (n : ℕ) (md : StepMetadata) :
    Prop where
  base : md.base = batchMetadata batch
  qoIndptr : md.qoIndptr =
    (List.range (n + 1)).map fun i => asI32 (blockStart (·.qLen) batch i)
  kvIndptr : md.kvIndptr =
    (List.range (n + 1)).map fun i => asI32 (blockStart (·.pages blockSize) batch i)
  kvIndices : md.kvIndices =
    (batch.take n).flatMap fun s => s.blockTable.take (s.pages blockSize)

theorem fromAttentionMetadata_ok (hbs : 0 < blockSize)
    (hwf : ∀ s ∈ batch, s.WellFormed numBlocks blockSize row) :
    ∃ md, StepMetadata.fromAttentionMetadata (batchMetadata batch) blockSize = .ok md ∧
      Lists blockSize batch batch.length md := by
  have hv := valid_batchMetadata hbs hwf
  have hn : (batchMetadata batch).numSeqs = batch.length := List.length_map ..
  have hcounts : StepMetadata.Counts (batchMetadata batch) blockSize (batchMetadata batch).numSeqs
      (StepMetadata.ofSeqs (batchMetadata batch) blockSize (batchMetadata batch).numSeqs) :=
    StepMetadata.ofSeqs_counts hv.starts_zero le_rfl
  refine ⟨_, StepMetadata.fromAttentionMetadata_eq_ok_iff.mpr ⟨hv, rfl⟩, hcounts.base_eq, ?_, ?_,
    ?_⟩
  · rw [hcounts.qoIndptr, hn]
    refine List.map_congr_left fun i hi => ?_
    rw [getD_queryStartLoc (Nat.lt_succ_iff.mp (List.mem_range.mp hi))]
  · have hpages : (List.range batch.length).map ((batchMetadata batch).pages blockSize) =
        batch.map (·.pages blockSize) := map_range_batch fun _ _ => pages_batchMetadata
    rw [hcounts.kvIndptr, hn]
    refine List.map_congr_left fun i _ => ?_
    rw [StepMetadata.pagesBefore, blockStart, hn, List.map_take, hpages, ← List.map_take,
      ← blockStart]
  · have hblocks : (List.range batch.length).map ((batchMetadata batch).usedBlocks blockSize) =
        batch.map fun s => s.blockTable.take (s.pages blockSize) :=
      map_range_batch fun _ _ => usedBlocks_batchMetadata
    rw [hcounts.kvIndices, hn, List.take_length, List.flatMap_def, hblocks, ← List.flatMap_def]

end Metadata

/-! ## Slots -/

section Slots

variable {F32 : Type} {batch : List (Sequence F32)} {numBlocks blockSize row i p : ℕ}
  {s : Sequence F32}

theorem div_lt_pages (hbs : 0 < blockSize) (hp : p < s.kvLen) :
    p / blockSize < s.pages blockSize :=
  lt_divCeil_of_lt hbs hp

/-- The page of a position, which its slot and the page list both name. -/
theorem Sequence.WellFormed.page (hwf : s.WellFormed numBlocks blockSize row) (hbs : 0 < blockSize)
    (hp : p < s.kvLen) :
    ∃ block : ℕ, block < numBlocks ∧ block < 2 ^ 31 ∧
      (s.blockTable.take (s.pages blockSize))[p / blockSize]? = some (block : ℤ) ∧
      (s.slot blockSize p).toNat / blockSize = block ∧
      (s.slot blockSize p).toNat % blockSize = p % blockSize ∧ 0 ≤ s.slot blockSize p := by
  have hpage := div_lt_pages hbs hp
  have hlt : p / blockSize < s.blockTable.length := hpage.trans_le hwf.enough
  have hget : (s.blockTable.take (s.pages blockSize))[p / blockSize]? =
      some s.blockTable[p / blockSize] := by
    rw [List.getElem?_take_of_lt hpage, List.getElem?_eq_getElem hlt]
  obtain ⟨h0, hblocks, h31⟩ := hwf.inside _ (List.mem_of_getElem? hget)
  obtain ⟨block, hblock⟩ := Int.eq_ofNat_of_zero_le h0
  have hslot : s.slot blockSize p = ((block * blockSize + p % blockSize : ℕ) : ℤ) := by
    rw [Sequence.slot, List.getD_eq_getElem?_getD, List.getElem?_eq_getElem hlt, hblock]
    simp
  rw [hblock] at hblocks h31 hget
  have hmod : p % blockSize < blockSize := Nat.mod_lt _ hbs
  refine ⟨block, by omega, by omega, hget, ?_, ?_, ?_⟩
  · rw [hslot, Int.toNat_natCast, Nat.add_comm, Nat.add_mul_div_right _ _ hbs,
      Nat.div_eq_of_lt hmod, Nat.zero_add]
  · rw [hslot, Int.toNat_natCast, Nat.add_comm, Nat.add_mul_mod_self_right, Nat.mod_mod]
  · rw [hslot]
    exact Int.natCast_nonneg _

theorem getElem?_batchSlots (hs : batch[i]? = some s) (hp : p < s.kvLen) :
    (batchSlots blockSize batch)[blockStart (·.kvLen) batch i + p]? =
      some (s.slot blockSize p) := by
  have hstart : blockStart (·.kvLen) batch i = blockStart
      (fun s => ((List.range s.kvLen).map (s.slot blockSize)).length) batch i :=
    blockStart_congr (fun x _ => by simp) i
  rw [batchSlots, hstart, getElem?_flatMap_start hs (by simpa using hp), List.getElem?_map,
    List.getElem?_range hp]
  rfl

theorem length_batchSlots :
    (batchSlots blockSize batch).length = (batch.map (·.kvLen)).sum := by
  simp [batchSlots, List.length_flatMap]

theorem getElem?_histories {f : Sequence F32 → List F32} {c : ℕ}
    (hlen : ∀ s ∈ batch, (f s).length = s.kvLen * row) (hs : batch[i]? = some s)
    (hp : p < s.kvLen) (hc : c < row) :
    (batch.flatMap f)[(blockStart (·.kvLen) batch i + p) * row + c]? = (f s)[p * row + c]? := by
  have hlt : p * row + c < (f s).length := by
    rw [hlen s (List.mem_of_getElem? hs)]
    exact block_lt hp hc
  rw [Nat.add_mul, Nat.add_assoc, ← blockStart_mul, ← blockStart_congr hlen,
    getElem?_flatMap_start hs hlt]

theorem slotsAgree {numKvHeads headDim : ℕ} (hbs : 0 < blockSize)
    (hwf : ∀ s ∈ batch, s.WellFormed numBlocks blockSize (numKvHeads * headDim))
    (hshare : Shares blockSize (numKvHeads * headDim) batch) :
    SlotsAgree numBlocks blockSize numKvHeads headDim (batch.flatMap (·.k)) (batch.flatMap (·.v))
      (batchSlots blockSize batch) := by
  have hkLen : ∀ s ∈ batch, s.k.length = s.kvLen * (numKvHeads * headDim) :=
    fun s hs => (hwf s hs).kLength
  have hvLen : ∀ s ∈ batch, s.v.length = s.kvLen * (numKvHeads * headDim) :=
    fun s hs => (hwf s hs).vLength
  have htoken : ∀ t slot, (batchSlots blockSize batch)[t]? = some slot →
      ∃ i s p, batch[i]? = some s ∧ p < s.kvLen ∧ t = blockStart (·.kvLen) batch i + p ∧
        slot = s.slot blockSize p := by
    intro t slot ht
    have hlt := (List.getElem?_eq_some_iff.mp ht).1
    rw [length_batchSlots] at hlt
    obtain ⟨i, s, p, hs, hp, rfl⟩ := exists_block hlt
    rw [getElem?_batchSlots hs hp] at ht
    exact ⟨i, s, p, hs, hp, rfl, (Option.some.inj ht).symm⟩
  refine ⟨fun slot hslot => ?_, ?_, ?_, fun t t' slot ht ht' c hc => ?_⟩
  · obtain ⟨t, ht⟩ := List.getElem?_of_mem hslot
    obtain ⟨i, s, p, hs, hp, -, rfl⟩ := htoken t slot ht
    obtain ⟨block, hlt, -, -, hdiv, -, h0⟩ := (hwf s (List.mem_of_getElem? hs)).page hbs hp
    exact ⟨h0, hdiv ▸ hlt⟩
  · rw [length_batchSlots, List.length_flatMap, List.map_congr_left hkLen, List.sum_map_mul_right]
  · rw [length_batchSlots, List.length_flatMap, List.map_congr_left hvLen, List.sum_map_mul_right]
  · obtain ⟨i, s, p, hs, hp, rfl, rfl⟩ := htoken t slot ht
    obtain ⟨i', s', p', hs', hp', rfl, heq⟩ := htoken t' _ ht'
    rw [getElem?_histories hkLen hs hp hc, getElem?_histories hkLen hs' hp' hc,
      getElem?_histories hvLen hs hp hc, getElem?_histories hvLen hs' hp' hc]
    exact hshare s (List.mem_of_getElem? hs) s' (List.mem_of_getElem? hs') p hp p' hp' heq c hc

end Slots

/-! ## Attention over a batch -/

section Attention

variable {F32 F64 : Type} (ops : ScalarOps F32 F64) (spec : AttnSpec F32) (kScale vScale : F32)
  (q : List F32) (batch : List (Sequence F32))

/-- An entry of a history by head, position and dimension. -/
def historyEntry (history : List F32) (head p d : ℕ) : F32 :=
  history.getD ((p * spec.numKvHeads + head) * spec.headDim + d) ops.zero32

/-- What attention makes of a sequence: a row for each of its query tokens and each head. -/
def seqRows (i : ℕ) (s : Sequence F32) : List F32 :=
  (List.range s.qLen).flatMap fun j => (List.range spec.numQHeads).flatMap fun head =>
    headRow ops spec kScale vScale
      (fun d => q.getD ((blockStart (·.qLen) batch i + j) * (spec.numQHeads * spec.headDim) +
        head * spec.headDim + d) ops.zero32)
      (historyEntry ops spec s.k (head / (spec.numQHeads / spec.numKvHeads)))
      (historyEntry ops spec s.v (head / (spec.numQHeads / spec.numKvHeads)))
      (s.kvLen - s.qLen + j)

/-- The rows of the sequence at a place of the batch. -/
def rowsAt (i : ℕ) : List F32 :=
  match batch[i]? with
  | none => []
  | some s => seqRows ops spec kScale vScale q batch i s

variable {ops spec kScale vScale q batch} {numBlocks : ℕ} {i head : ℕ} {s : Sequence F32}

theorem length_rowsAt (hs : batch[i]? = some s) :
    (rowsAt ops spec kScale vScale q batch i).length =
      s.qLen * (spec.numQHeads * spec.headDim) := by
  have htoken : ∀ j, ((List.range spec.numQHeads).flatMap fun head =>
      headRow ops spec kScale vScale
        (fun d => q.getD ((blockStart (·.qLen) batch i + j) * (spec.numQHeads * spec.headDim) +
          head * spec.headDim + d) ops.zero32)
        (historyEntry ops spec s.k (head / (spec.numQHeads / spec.numKvHeads)))
        (historyEntry ops spec s.v (head / (spec.numQHeads / spec.numKvHeads)))
        (s.kvLen - s.qLen + j)).length = spec.numQHeads * spec.headDim := by
    intro j
    rw [length_flatMap_block fun _ _ => length_headRow, List.length_range]
  rw [rowsAt, hs]
  dsimp only
  rw [seqRows, length_flatMap_block fun j _ => htoken j, List.length_range]

theorem length_rows (hi : i ≤ batch.length) :
    ((List.range i).flatMap (rowsAt ops spec kScale vScale q batch)).length =
      blockStart (·.qLen) batch i * (spec.numQHeads * spec.headDim) := by
  induction i with
  | zero => simp
  | succ i ih =>
    obtain ⟨s, hs⟩ : ∃ s, batch[i]? = some s := ⟨_, List.getElem?_eq_getElem hi⟩
    rw [List.range_succ, List.flatMap_append, List.length_append, ih (Nat.le_of_succ_le hi),
      List.flatMap_cons, List.flatMap_nil, List.append_nil, length_rowsAt hs,
      blockStart_succ (f := (·.qLen)) hs, Nat.add_mul]

theorem getElem?_historyEntry {history : List F32} {kvLen p d : ℕ}
    (hlen : history.length = kvLen * (spec.numKvHeads * spec.headDim)) (hp : p < kvLen)
    (hhead : head < spec.numKvHeads) (hd : d < spec.headDim) :
    history[(p * spec.numKvHeads + head) * spec.headDim + d]? =
      some (historyEntry ops spec history head p d) := by
  have hlt : (p * spec.numKvHeads + head) * spec.headDim + d < history.length := by
    rw [hlen, ← Nat.mul_assoc]
    exact block_lt (block_lt hp hhead) hd
  rw [historyEntry, List.getD_eq_getElem?_getD, List.getElem?_eq_getElem hlt]
  rfl

theorem readable_denseRow {history : List F32} {kvLen : ℕ} (hhead : head < spec.numKvHeads)
    (hlen : history.length = kvLen * (spec.numKvHeads * spec.headDim)) :
    Readable spec.headDim 0 kvLen (denseRow spec history head)
      (historyEntry ops spec history head) :=
  fun _ _ hp => ⟨_, rfl, fun _ hd => getElem?_historyEntry hlen hp hhead hd⟩

theorem kvHead_lt (hdvd : spec.numKvHeads ∣ spec.numQHeads) (hhead : head < spec.numQHeads) :
    head / (spec.numQHeads / spec.numKvHeads) < spec.numKvHeads := by
  obtain ⟨g, hg⟩ := hdvd
  have hpos : 0 < spec.numKvHeads := by
    rcases Nat.eq_zero_or_pos spec.numKvHeads with h | h
    · rw [hg, h, Nat.zero_mul] at hhead
      exact absurd hhead (Nat.not_lt_zero _)
    · exact h
  rw [hg, Nat.mul_div_cancel_left g hpos]
  rw [hg, Nat.mul_comm] at hhead
  exact Nat.div_lt_of_lt_mul hhead

theorem attendSeq_rows {keyRow valueRow : ℕ → ℕ → Option (ℕ → Option F32)}
    (hdvd : spec.numKvHeads ∣ spec.numQHeads) (hle : s.qLen ≤ s.kvLen)
    (hq : q.length = (batch.map (·.qLen)).sum * (spec.numQHeads * spec.headDim))
    (hs : batch[i]? = some s)
    (hk : ∀ head < spec.numKvHeads, Readable spec.headDim 0 s.kvLen (keyRow head)
      (historyEntry ops spec s.k head))
    (hv : ∀ head < spec.numKvHeads, Readable spec.headDim 0 s.kvLen (valueRow head)
      (historyEntry ops spec s.v head))
    {before after : List F32} (hbefore : before.length =
      blockStart (·.qLen) batch i * (spec.numQHeads * spec.headDim)) :
    attendSeq ops spec kScale vScale q keyRow valueRow (blockStart (·.qLen) batch i) s.qLen s.kvLen
        (before ++ List.replicate (rowsAt ops spec kScale vScale q batch i).length ops.zero32 ++
          after) =
      some (before ++ rowsAt ops spec kScale vScale q batch i ++ after) := by
  rw [length_rowsAt hs, rowsAt, hs]
  refine attendSeq_ok (fun c => q.getD c ops.zero32) (historyEntry ops spec s.k)
    (historyEntry ops spec s.v) hle (fun c hc => ?_) (fun head hhead => hk _ (kvHead_lt hdvd hhead))
    (fun head hhead => hv _ (kvHead_lt hdvd hhead)) hbefore
  have hend : blockStart (·.qLen) batch i + s.qLen ≤ (batch.map (·.qLen)).sum := by
    rw [← blockStart_succ (f := (·.qLen)) hs]
    exact blockStart_le _
  have hlt : c < q.length := by
    rw [hq]
    exact hc.trans_le (Nat.mul_le_mul_right _ hend)
  rw [List.getD_eq_getElem?_getD, List.getElem?_eq_getElem hlt]
  rfl

theorem denseAttention_eq (hdvd : spec.numKvHeads ∣ spec.numQHeads) {blockSize : ℕ}
    (hwf : ∀ s ∈ batch, s.WellFormed numBlocks blockSize (spec.numKvHeads * spec.headDim))
    (hq : q.length = (batch.map (·.qLen)).sum * (spec.numQHeads * spec.headDim)) :
    denseAttention ops spec kScale vScale q batch =
      some ((List.range batch.length).flatMap (rowsAt ops spec kScale vScale q batch)) := by
  have htotal : ((List.range batch.length).flatMap
      (rowsAt ops spec kScale vScale q batch)).length = q.length := by
    rw [length_rows le_rfl, blockStart_length, hq]
  have hloop := foldlM_zipIdx_inv (m := Option) (l := batch.map (·.qLen))
    (b := fun acc x => do
      let kSeq ← (batch.map (·.k))[x.2]?
      let vSeq ← (batch.map (·.v))[x.2]?
      let kvLen ← (batch.map (·.kvLen))[x.2]?
      let out ← attendSeq ops spec kScale vScale q (denseRow spec kSeq) (denseRow spec vSeq)
        acc.2 x.1 kvLen acc.1
      return (out, acc.2 + x.1))
    (fun i (acc : List F32 × ℕ) => acc.2 = blockStart (·.qLen) batch i ∧
      acc.1 = (List.range i).flatMap (rowsAt ops spec kScale vScale q batch) ++
        List.replicate (q.length - ((List.range i).flatMap
          (rowsAt ops spec kScale vScale q batch)).length) ops.zero32)
    (s := (List.replicate q.length ops.zero32, 0)) (by simp) ?_
  · obtain ⟨acc, hacc, -, hout⟩ := hloop
    unfold denseAttention denseReference
    erw [hacc, pure_bind]
    dsimp only
    rw [hout, List.length_map, htotal, Nat.sub_self, List.replicate_zero, List.append_nil]
    rfl
  · rintro i qLen hi ⟨out, tokenBase⟩ ⟨htb, hout⟩
    dsimp only at htb hout
    subst htb hout
    obtain ⟨s, hs, rfl⟩ : ∃ s, batch[i]? = some s ∧ s.qLen = qLen := by
      simpa [List.getElem?_map, Option.map_eq_some_iff] using hi
    have hmem : s ∈ batch := List.mem_of_getElem? hs
    have hle : i + 1 ≤ batch.length := (List.getElem?_eq_some_iff.mp hs).1
    have hstep : ((List.range (i + 1)).flatMap (rowsAt ops spec kScale vScale q batch)) =
        (List.range i).flatMap (rowsAt ops spec kScale vScale q batch) ++
          rowsAt ops spec kScale vScale q batch i := by
      simp [List.range_succ, List.flatMap_append]
    have hroom : ((List.range (i + 1)).flatMap
        (rowsAt ops spec kScale vScale q batch)).length ≤ q.length := by
      rw [length_rows hle, hq]
      exact Nat.mul_le_mul_right _ (blockStart_le _)
    have hrest : q.length - ((List.range i).flatMap
          (rowsAt ops spec kScale vScale q batch)).length =
        (rowsAt ops spec kScale vScale q batch i).length + (q.length - ((List.range (i + 1)).flatMap
          (rowsAt ops spec kScale vScale q batch)).length) := by
      rw [hstep, List.length_append] at hroom ⊢
      omega
    refine ⟨(_, blockStart (·.qLen) batch i + s.qLen), ?_, ?_, rfl⟩
    · simp only [List.getElem?_map, hs, Option.map_some, Option.bind_eq_bind, Option.bind_some]
      rw [hrest, ← List.replicate_append_replicate, ← List.append_assoc,
        attendSeq_rows hdvd (hwf s hmem).qLen_le hq hs
          (fun head hhead => readable_denseRow hhead (hwf s hmem).kLength)
          (fun head hhead => readable_denseRow hhead (hwf s hmem).vLength)
          (length_rows (Nat.le_of_succ_le hle)), ← hstep]
      rfl
    · exact (blockStart_succ (f := (·.qLen)) hs).symm

/-- A row of the written cache is the row of the history. -/
theorem readable_pagedRow {cache : List F32} {kv : HostKvLayer F32} {md : StepMetadata}
    {f : Sequence F32 → List F32}
    (hbs : 0 < kv.blockSize) (hkv : kv.numKvHeads = spec.numKvHeads)
    (hdim : kv.headDim = spec.headDim)
    (hwf : ∀ s ∈ batch, s.WellFormed numBlocks kv.blockSize (spec.numKvHeads * spec.headDim))
    (hlen : ∀ s ∈ batch, (f s).length = s.kvLen * (spec.numKvHeads * spec.headDim))
    (hcache : ∀ t slot, (batchSlots kv.blockSize batch)[t]? = some slot →
      ∀ head < spec.numKvHeads, ∀ d < spec.headDim,
      cache[cell kv.layout kv.blockSize spec.numKvHeads spec.headDim slot head d]? =
        (batch.flatMap f)[t * (spec.numKvHeads * spec.headDim) + head * spec.headDim + d]?)
    (hmd : Lists kv.blockSize batch batch.length md) (hs : batch[i]? = some s)
    (hhead : head < spec.numKvHeads) :
    Readable spec.headDim 0 s.kvLen
      (pagedRow kv md (blockStart (·.pages kv.blockSize) batch i) cache head)
      (historyEntry ops spec (f s) head) := by
  intro p _ hp
  have hmem : s ∈ batch := List.mem_of_getElem? hs
  obtain ⟨block, -, h31, hget, hdiv, hmod, -⟩ := (hwf s hmem).page hbs hp
  have hpages : ∀ x ∈ batch,
      (x.blockTable.take (x.pages kv.blockSize)).length = x.pages kv.blockSize :=
    fun x hx => List.length_take_of_le (hwf x hx).enough
  have hblock : md.kvIndices[blockStart (·.pages kv.blockSize) batch i + p / kv.blockSize]? =
      some (block : ℤ) := by
    rw [hmd.kvIndices, List.take_length, ← blockStart_congr hpages, getElem?_flatMap_start hs, hget]
    rw [hpages s hmem]
    exact div_lt_pages hbs hp
  unfold pagedRow
  rw [hblock]
  refine ⟨_, rfl, fun d hd => ?_⟩
  have hc : head * spec.headDim + d < spec.numKvHeads * spec.headDim := block_lt hhead hd
  have hread := hcache _ _ (getElem?_batchSlots hs hp) head hhead d hd
  rw [Nat.add_assoc (_ * _), getElem?_histories hlen hs hp hc, cell, hdiv, hmod] at hread
  rw [asUsize_block (by omega) (by omega), Int.toNat_natCast, hkv, hdim, hread]
  rw [← getElem?_historyEntry (hlen s hmem) hp hhead hd]
  congr 1
  ring

theorem getElem?_indptr {f : Sequence F32 → ℕ} (hi : i ≤ batch.length) :
    ((List.range (batch.length + 1)).map fun i => asI32 (blockStart f batch i))[i]? =
      some (asI32 (blockStart f batch i)) := by
  rw [List.getElem?_map, List.getElem?_range (Nat.lt_succ_of_le hi)]
  rfl

theorem runSeq_eq {kv : HostKvLayer F32} {md : StepMetadata} {a b c : ℤ}
    {seq qBegin qLen kvLen pageBase : ℕ} (ha : md.qoIndptr[seq]? = some a)
    (hb : md.qoIndptr[seq + 1]? = some b) (hc : md.kvIndptr[seq]? = some c)
    (hlen : md.base.seqLens[seq]? = some kvLen) (hqBegin : asUsize a = qBegin)
    (hqEnd : asUsize b = qBegin + qLen) (hpageBase : asUsize c = pageBase) (out : List F32) :
    runSeq ops q kv md spec out seq = attendSeq ops spec kv.kScale kv.vScale q
      (pagedRow kv md pageBase kv.k) (pagedRow kv md pageBase kv.v) qBegin qLen kvLen out := by
  have hsub : checkedSub (qBegin + qLen) qBegin = some qLen := by
    rw [checkedSub, if_pos (Nat.le_add_right _ _), Nat.add_sub_cancel_left]
  simp only [runSeq, ha, hb, hc, hlen, hqBegin, hqEnd, hpageBase, hsub, Option.bind_eq_bind,
    Option.bind_some]

theorem getLastD_qoIndptr {md : StepMetadata} {blockSize : ℕ}
    (hmd : Lists blockSize batch batch.length md) :
    md.qoIndptr.getLastD 0 = asI32 ((batch.map (·.qLen)).sum : ℕ) := by
  rw [hmd.qoIndptr, List.range_succ, List.map_append, List.map_singleton, List.getLastD_concat,
    blockStart_length]

/-- With rows that can be read, the paged loop fills the output as the dense one does. -/
theorem runHost_ok {kv : HostKvLayer F32} {md : StepMetadata} {blockSize : ℕ}
    (hgeometry : spec.blockSize = kv.blockSize ∧ spec.numKvHeads = kv.numKvHeads ∧
      spec.headDim = kv.headDim)
    (hheads : 0 < spec.numKvHeads) (hdvd : spec.numKvHeads ∣ spec.numQHeads)
    (hwf : ∀ s ∈ batch, s.WellFormed numBlocks blockSize (spec.numKvHeads * spec.headDim))
    (hq : q.length = (batch.map (·.qLen)).sum * (spec.numQHeads * spec.headDim))
    (htokens : (batch.map (·.qLen)).sum < 2 ^ 31)
    (hpages : (batch.map (·.pages blockSize)).sum < 2 ^ 31)
    (hmd : Lists blockSize batch batch.length md)
    (hk : ∀ i s, batch[i]? = some s → ∀ head < spec.numKvHeads, Readable spec.headDim 0 s.kvLen
      (pagedRow kv md (blockStart (·.pages blockSize) batch i) kv.k head)
      (historyEntry ops spec s.k head))
    (hv : ∀ i s, batch[i]? = some s → ∀ head < spec.numKvHeads, Readable spec.headDim 0 s.kvLen
      (pagedRow kv md (blockStart (·.pages blockSize) batch i) kv.v head)
      (historyEntry ops spec s.v head)) :
    runHost ops q kv md spec = some ((List.range batch.length).flatMap
      (rowsAt ops spec kv.kScale kv.vScale q batch)) := by
  obtain ⟨hblock, hkv, hdim⟩ := hgeometry
  have htotal : ((List.range batch.length).flatMap
      (rowsAt ops spec kv.kScale kv.vScale q batch)).length = q.length := by
    rw [length_rows le_rfl, blockStart_length, hq]
  have hlast : asUsize (md.qoIndptr.getLastD 0) = (batch.map (·.qLen)).sum := by
    rw [getLastD_qoIndptr hmd, asUsize_asI32 htokens]
  have hmod : spec.numQHeads % kv.numKvHeads = 0 := hkv ▸ Nat.mod_eq_zero_of_dvd hdvd
  have hagree : ¬(spec.blockSize ≠ kv.blockSize ∨ spec.numKvHeads ≠ kv.numKvHeads ∨
      spec.headDim ≠ kv.headDim ∨ kv.numKvHeads = 0 ∨ spec.numQHeads % kv.numKvHeads ≠ 0) := by
    rintro (h | h | h | h | h)
    · exact h hblock
    · exact h hkv
    · exact h hdim
    · exact hheads.ne' (hkv.trans h)
    · exact h hmod
  have hlength : ¬q.length ≠ (batch.map (·.qLen)).sum * spec.numQHeads * spec.headDim := by
    rw [hq, Nat.mul_assoc]
    exact not_not.mpr rfl
  unfold runHost
  dsimp only
  rw [if_neg hagree, hlast, if_neg hlength]
  split
  · rename_i hzero
    rw [hq, hzero, Nat.zero_mul] at htotal ⊢
    rw [List.length_eq_zero_iff.mp htotal]
    rfl
  have hn : md.base.numSeqs = batch.length := by
    rw [hmd.base]
    exact List.length_map ..
  rw [← htotal, hn]
  refine foldlM_fill_all (m := Option) fun i hi before after hbefore => ?_
  obtain ⟨s, hs⟩ : ∃ s, batch[i]? = some s := ⟨_, List.getElem?_eq_getElem hi⟩
  rw [length_rows hi.le] at hbefore
  have hbegin : md.qoIndptr[i]? = some (asI32 (blockStart (·.qLen) batch i)) := by
    rw [hmd.qoIndptr]
    exact getElem?_indptr hi.le
  have hend : md.qoIndptr[i + 1]? = some (asI32 (blockStart (·.qLen) batch (i + 1))) := by
    rw [hmd.qoIndptr]
    exact getElem?_indptr hi
  have hpage : md.kvIndptr[i]? = some (asI32 (blockStart (·.pages blockSize) batch i)) := by
    rw [hmd.kvIndptr]
    exact getElem?_indptr hi.le
  have hlen : md.base.seqLens[i]? = some s.kvLen := by
    rw [hmd.base]
    simp [batchMetadata, hs]
  have hqEnd : asUsize (asI32 (blockStart (·.qLen) batch (i + 1))) =
      blockStart (·.qLen) batch i + s.qLen := by
    rw [asUsize_asI32 ((blockStart_le _).trans_lt htokens), blockStart_succ (f := (·.qLen)) hs]
  rw [runSeq_eq hbegin hend hpage hlen (asUsize_asI32 ((blockStart_le i).trans_lt htokens)) hqEnd
    (asUsize_asI32 ((blockStart_le i).trans_lt hpages))]
  exact attendSeq_rows hdvd (hwf s (List.mem_of_getElem? hs)).qLen_le hq hs (hk i s hs) (hv i s hs)
    hbefore

theorem pagedAttention_eq_runHost (kScale vScale : F32) (q : List F32) (hbs : 0 < spec.blockSize)
    (hwf : ∀ s ∈ batch, s.WellFormed numBlocks spec.blockSize (spec.numKvHeads * spec.headDim))
    (hshare : Shares spec.blockSize (spec.numKvHeads * spec.headDim) batch)
    {layout : KvLayout} {kCache vCache : List F32} (hkLen : kCache.length =
      (layout.shape numBlocks spec.blockSize spec.numKvHeads spec.headDim).prod)
    (hvLen : vCache.length =
      (layout.shape numBlocks spec.blockSize spec.numKvHeads spec.headDim).prod) :
    ∃ k v md, Written layout numBlocks spec.blockSize spec.numKvHeads spec.headDim
        (batch.flatMap (·.k)) (batch.flatMap (·.v)) (batchSlots spec.blockSize batch)
        (batchSlots spec.blockSize batch).length 0 0 (k, v) ∧
      Lists spec.blockSize batch batch.length md ∧
      pagedAttention ops spec kScale vScale q batch layout kCache vCache =
        runHost ops q
          { k, v, layout, blockSize := spec.blockSize, numKvHeads := spec.numKvHeads,
            headDim := spec.headDim, kScale, vScale } md spec := by
  obtain ⟨⟨k, v⟩, hwrite, hwritten⟩ := writeKvHost_ok hbs (slotsAgree hbs hwf hshare) hkLen hvLen
  obtain ⟨md, hmeta, hmd⟩ := fromAttentionMetadata_ok hbs hwf
  refine ⟨k, v, md, hwritten, hmd, ?_⟩
  unfold pagedAttention
  rw [hwrite, hmeta, Option.bind_eq_bind, Option.bind_some]
  rfl

/-- Attention through the pages of a cache is the dense attention over every history, in every
layout. -/
theorem pagedAttention_eq_dense {F32 F64 : Type} (ops : ScalarOps F32 F64) (spec : AttnSpec F32)
    (kScale vScale : F32) (q : List F32) (batch : List (Sequence F32)) (numBlocks : ℕ)
    (hbs : 0 < spec.blockSize) (hheads : 0 < spec.numKvHeads)
    (hdvd : spec.numKvHeads ∣ spec.numQHeads)
    (hwf : ∀ s ∈ batch,
      s.WellFormed numBlocks spec.blockSize (spec.numKvHeads * spec.headDim))
    (hshare : Shares spec.blockSize (spec.numKvHeads * spec.headDim) batch)
    (hq : q.length = (batch.map (·.qLen)).sum * (spec.numQHeads * spec.headDim))
    (htokens : (batch.map (·.qLen)).sum < 2 ^ 31)
    (hpages : (batch.map (·.pages spec.blockSize)).sum < 2 ^ 31) :
    ∃ out, denseAttention ops spec kScale vScale q batch = some out ∧
      ∀ (layout : KvLayout) (kCache vCache : List F32),
        kCache.length =
          (layout.shape numBlocks spec.blockSize spec.numKvHeads spec.headDim).prod →
        vCache.length =
          (layout.shape numBlocks spec.blockSize spec.numKvHeads spec.headDim).prod →
        pagedAttention ops spec kScale vScale q batch layout kCache vCache = some out := by
  refine ⟨_, denseAttention_eq hdvd hwf hq, fun layout kCache vCache hkLen hvLen => ?_⟩
  obtain ⟨k, v, md, hwritten, hmd, heq⟩ :=
    pagedAttention_eq_runHost kScale vScale q hbs hwf hshare hkLen hvLen
  have hholds := fun t slot (ht : (batchSlots spec.blockSize batch)[t]? = some slot) head hhead d
      hd =>
    hwritten.holds t slot ht head hhead d hd (Or.inl (List.getElem?_eq_some_iff.mp ht).1)
  rw [heq]
  refine runHost_ok ⟨rfl, rfl, rfl⟩ hheads hdvd hwf hq htokens hpages hmd ?_ ?_
  · exact fun i s hs head hhead => readable_pagedRow hbs rfl rfl hwf
      (fun s hs => (hwf s hs).kLength)
      (fun t slot ht head hhead d hd => (hholds t slot ht head hhead d hd).1) hmd hs hhead
  · exact fun i s hs head hhead => readable_pagedRow hbs rfl rfl hwf
      (fun s hs => (hwf s hs).vLength)
      (fun t slot ht head hhead d hd => (hholds t slot ht head hhead d hd).2) hmd hs hhead

end Attention

/-! ## Limits -/

/-- Sums in place of averages: every position has the weight one. -/
def sumOps : ScalarOps ℤ ℤ where
  zero32 := 0
  widen := id
  narrow := id
  zero := 0
  negInfinity := 0
  add := (· + ·)
  sub := (· - ·)
  mul := (· * ·)
  div a _ := a
  max := max
  exp _ := 1
  tanh := id
  isZero := (· == 0)

def smallSpec (numQHeads blockSize : ℕ) : AttnSpec ℤ where
  numQHeads
  numKvHeads := 1
  headDim := 1
  blockSize
  slidingWindow := none
  scale := 1
  softCap := none

/-- A decode step and a prefill that shares its first page. -/
def smallBatch : List (Sequence ℤ) :=
  [{ qLen := 1, kvLen := 3, blockTable := [0, 1], k := [1, 2, 3], v := [4, 5, 6] },
    { qLen := 2, kvLen := 2, blockTable := [0, -1], k := [1, 2], v := [4, 5] }]

theorem smallBatch_wellFormed : ∀ s ∈ smallBatch, s.WellFormed 2 2 1 := by
  intro s hs
  simp only [smallBatch, List.mem_cons, List.not_mem_nil, or_false] at hs
  rcases hs with rfl | rfl
  · exact ⟨by decide, by decide, by decide, by decide, by decide⟩
  · exact ⟨by decide, by decide, by decide, by decide, by decide⟩

theorem pagedAttention_eq_dense_small :
    ∃ out, denseAttention sumOps (smallSpec 2 2) 1 1 [1, 1, 1, 1, 1, 1] smallBatch = some out ∧
      ∀ (layout : KvLayout) (kCache vCache : List ℤ),
        kCache.length = (layout.shape 2 2 1 1).prod → vCache.length = (layout.shape 2 2 1 1).prod →
        pagedAttention sumOps (smallSpec 2 2) 1 1 [1, 1, 1, 1, 1, 1] smallBatch layout kCache
          vCache = some out :=
  pagedAttention_eq_dense sumOps (smallSpec 2 2) 1 1 [1, 1, 1, 1, 1, 1] smallBatch 2 (by decide)
    (by decide) (by decide) smallBatch_wellFormed (by unfold Shares; decide) (by decide) (by decide)
    (by decide)

/-- Paged attention is dense attention for every batch of a kind. -/
def PagedIsDense (Kind : ∀ {F32 : Type}, AttnSpec F32 → List (Sequence F32) → Prop) : Prop :=
  ∀ (F32 F64 : Type) (ops : ScalarOps F32 F64) (spec : AttnSpec F32) (kScale vScale : F32)
    (q : List F32) (batch : List (Sequence F32)) (numBlocks : ℕ),
    0 < spec.blockSize → 0 < spec.numKvHeads → spec.numKvHeads ∣ spec.numQHeads →
    (∀ s ∈ batch, s.WellFormed numBlocks spec.blockSize (spec.numKvHeads * spec.headDim)) →
    Kind spec batch → q.length = (batch.map (·.qLen)).sum * (spec.numQHeads * spec.headDim) →
    ∀ (layout : KvLayout) (kCache vCache : List F32),
      kCache.length = (layout.shape numBlocks spec.blockSize spec.numKvHeads spec.headDim).prod →
      vCache.length = (layout.shape numBlocks spec.blockSize spec.numKvHeads spec.headDim).prod →
      pagedAttention ops spec kScale vScale q batch layout kCache vCache =
        denseAttention ops spec kScale vScale q batch

/-- Positions of different sequences that share a slot have the same keys and values. -/
def SharesBetween {F32 : Type} (blockSize row : ℕ) (batch : List (Sequence F32)) : Prop :=
  ∀ (i i' : ℕ) (s s' : Sequence F32), batch[i]? = some s → batch[i']? = some s' → i ≠ i' →
    ∀ p < s.kvLen, ∀ p' < s'.kvLen, s.slot blockSize p = s'.slot blockSize p' → ∀ c < row,
      s.k[p * row + c]? = s'.k[p' * row + c]? ∧ s.v[p * row + c]? = s'.v[p' * row + c]?

/-- A sequence that has a page twice. -/
def repeatedPage : Sequence ℤ where
  qLen := 1
  kvLen := 2
  blockTable := [0, 0]
  k := [1, 2]
  v := [1, 2]

/-- A prefill of tokens that are all alike, in one page. -/
def longPrefill (n : ℕ) : Sequence ℤ where
  qLen := n
  kvLen := n
  blockTable := [0]
  k := List.replicate n 0
  v := List.replicate n 0

/-- A history of tokens that are all alike, in pages of one token. -/
def longHistory (n : ℕ) : Sequence ℤ where
  qLen := 0
  kvLen := n
  blockTable := (List.range n).map (↑)
  k := List.replicate n 0
  v := List.replicate n 0

theorem shares_of_constant {batch : List (Sequence ℤ)} {blockSize row : ℕ}
    (h : ∀ s ∈ batch, s.k = List.replicate (s.kvLen * row) 0 ∧
      s.v = List.replicate (s.kvLen * row) 0) : Shares blockSize row batch := by
  intro s hs s' hs' p hp p' hp' _ c hc
  obtain ⟨hk, hv⟩ := h s hs
  obtain ⟨hk', hv'⟩ := h s' hs'
  have hlt : p * row + c < s.kvLen * row := block_lt hp hc
  have hlt' : p' * row + c < s'.kvLen * row := block_lt hp' hc
  rw [hk, hk', hv, hv', List.getElem?_replicate_of_lt hlt, List.getElem?_replicate_of_lt hlt']
  exact ⟨rfl, rfl⟩

theorem pages_longPrefill {n : ℕ} (hn : 0 < n) : (longPrefill n).pages n = 1 := by
  change (n + n - 1) / n = 1
  rw [Nat.div_eq_iff hn]
  omega

theorem longPrefill_wellFormed {n numBlocks : ℕ} (hn : 0 < n) (hblocks : 0 < numBlocks) :
    (longPrefill n).WellFormed numBlocks n 1 := by
  refine ⟨le_rfl, by simp [longPrefill], by simp [longPrefill], (pages_longPrefill hn).le, ?_⟩
  rw [pages_longPrefill hn]
  simpa [longPrefill] using hblocks

theorem pages_longHistory (n : ℕ) : (longHistory n).pages 1 = n := by
  change (n + 1 - 1) / 1 = n
  omega

theorem longHistory_wellFormed {n : ℕ} (hn : n ≤ 2 ^ 31) : (longHistory n).WellFormed n 1 1 := by
  refine ⟨Nat.zero_le _, by simp [longHistory], by simp [longHistory], ?_, ?_⟩
  · rw [pages_longHistory]
    simp [longHistory]
  · intro block hblock
    obtain ⟨b, hb, rfl⟩ := List.mem_map.mp (List.mem_of_mem_take hblock)
    have := List.mem_range.mp hb
    omega

theorem asUsize_asI32_wrapped : asUsize (asI32 (2 ^ 31)) = 2 ^ 64 - 2 ^ 31 := by
  decide +kernel

theorem runHost_longPrefill {n : ℕ} (hn : n = 2 ^ 31) {kv : HostKvLayer ℤ} {md : StepMetadata}
    (hmd : Lists n [longPrefill n] 1 md) :
    runHost sumOps (List.replicate n 0) kv md (smallSpec 1 n) = none := by
  have hlast : asUsize (md.qoIndptr.getLastD 0) = 2 ^ 64 - 2 ^ 31 := by
    rw [getLastD_qoIndptr hmd]
    change asUsize (asI32 ((n + 0 : ℕ) : ℤ)) = _
    rw [Nat.add_zero, hn]
    exact asUsize_asI32_wrapped
  unfold runHost
  dsimp only
  split
  · rfl
  · rw [hlast, List.length_replicate]
    refine if_pos ?_
    change n ≠ (2 ^ 64 - 2 ^ 31) * 1 * 1
    omega

theorem runHost_longHistory {n : ℕ} (hn : n = 2 ^ 31) {kv : HostKvLayer ℤ} {md : StepMetadata}
    (hmd : Lists 1 [longHistory n, longPrefill 1] 2 md) :
    runHost sumOps [0] kv md (smallSpec 1 1) = none := by
  have hlast : asUsize (md.qoIndptr.getLastD 0) = 1 := by
    rw [getLastD_qoIndptr hmd]
    change asUsize (asI32 1) = 1
    decide +kernel
  have hpage : md.kvIndptr[1]? = some (asI32 (2 ^ 31)) := by
    rw [hmd.kvIndptr]
    change some (asI32 (((longHistory n).pages 1 + 0 : ℕ) : ℤ)) = _
    rw [pages_longHistory, hn]
    rfl
  have hbehind : ∀ p, md.kvIndices[2 ^ 64 - 2 ^ 31 + p / kv.blockSize]? = none := by
    intro p
    refine List.getElem?_eq_none ?_
    have hlen : ((longHistory n).blockTable.take ((longHistory n).pages 1)).length ≤ n :=
      (List.length_take_le _ _).trans (pages_longHistory n).le
    have hlen' : ((longPrefill 1).blockTable.take ((longPrefill 1).pages 1)).length ≤ 1 :=
      List.length_take_le' _ _
    rw [hmd.kvIndices]
    change (_ ++ (_ ++ [])).length ≤ _
    rw [List.length_append, List.append_nil]
    generalize p / kv.blockSize = c
    beta_reduce
    omega
  have hrow : ∀ cache, pagedRow kv md (2 ^ 64 - 2 ^ 31) cache = fun _ _ => none := by
    intro cache
    funext head p
    rw [pagedRow, hbehind]
    rfl
  unfold runHost
  dsimp only
  split
  · rfl
  have hseqs : md.base.numSeqs = 2 := by
    rw [hmd.base]
    rfl
  have hq : md.qoIndptr = [asI32 0, asI32 0, asI32 1] := hmd.qoIndptr
  have hzero : asUsize (asI32 0) = 0 := by decide
  have hone : asUsize (asI32 1) = 0 + 1 := by decide +kernel
  have hlens : md.base.seqLens = [n, 1] := by
    rw [hmd.base]
    rfl
  have hfirst : ∀ out, runSeq sumOps [0] kv md (smallSpec 1 1) out 0 = some out := by
    intro out
    have hpage0 : md.kvIndptr[0]? = some (asI32 0) := by
      rw [hmd.kvIndptr]
      rfl
    rw [runSeq_eq (congrArg (·[0]?) hq) (congrArg (·[1]?) hq) hpage0 (congrArg (·[0]?) hlens) hzero
      (hzero.trans (Nat.zero_add 0).symm) hzero]
    rfl
  have hsecond : ∀ out, runSeq sumOps [0] kv md (smallSpec 1 1) out 1 = none := by
    intro out
    rw [runSeq_eq (congrArg (·[1]?) hq) (congrArg (·[2]?) hq) hpage (congrArg (·[1]?) hlens) hzero
      hone asUsize_asI32_wrapped, hrow, hrow]
    rfl
  rw [hlast, if_neg (by decide), if_neg (by decide), hseqs]
  change (runSeq sumOps [0] kv md (smallSpec 1 1) _ 0).bind _ = none
  rw [hfirst, Option.bind_some]
  change (runSeq sumOps [0] kv md (smallSpec 1 1) _ 1).bind _ = none
  rw [hsecond, Option.bind_none]

theorem pagedAttention_ne_dense {F32 F64 : Type} {ops : ScalarOps F32 F64} {spec : AttnSpec F32}
    {kScale vScale : F32} {q : List F32} {batch : List (Sequence F32)} {numBlocks : ℕ}
    {layout : KvLayout} {kCache vCache : List F32} (hbs : 0 < spec.blockSize)
    (hdvd : spec.numKvHeads ∣ spec.numQHeads)
    (hwf : ∀ s ∈ batch, s.WellFormed numBlocks spec.blockSize (spec.numKvHeads * spec.headDim))
    (hshare : Shares spec.blockSize (spec.numKvHeads * spec.headDim) batch)
    (hq : q.length = (batch.map (·.qLen)).sum * (spec.numQHeads * spec.headDim))
    (hkLen : kCache.length =
      (layout.shape numBlocks spec.blockSize spec.numKvHeads spec.headDim).prod)
    (hvLen : vCache.length =
      (layout.shape numBlocks spec.blockSize spec.numKvHeads spec.headDim).prod)
    (hnone : ∀ kv md, Lists spec.blockSize batch batch.length md →
      runHost ops q kv md spec = none) :
    pagedAttention ops spec kScale vScale q batch layout kCache vCache ≠
      denseAttention ops spec kScale vScale q batch := by
  obtain ⟨k, v, md, -, hmd, hrun⟩ :=
    pagedAttention_eq_runHost kScale vScale q hbs hwf hshare hkLen hvLen
  rw [hrun, hnone _ md hmd, denseAttention_eq hdvd hwf hq]
  exact nofun

/-- Each condition is needed: that a sequence does not have a page twice for different tokens, and
that the tokens and the pages of a batch can be numbered. -/
theorem not_pagedIsDense :
    (¬PagedIsDense fun spec batch => SharesBetween spec.blockSize (spec.numKvHeads * spec.headDim)
        batch ∧ (batch.map (·.qLen)).sum < 2 ^ 31 ∧
        (batch.map (·.pages spec.blockSize)).sum < 2 ^ 31) ∧
    (¬PagedIsDense fun spec batch => Shares spec.blockSize (spec.numKvHeads * spec.headDim) batch ∧
        (batch.map (·.pages spec.blockSize)).sum < 2 ^ 31) ∧
    ¬PagedIsDense fun spec batch => Shares spec.blockSize (spec.numKvHeads * spec.headDim) batch ∧
        (batch.map (·.qLen)).sum < 2 ^ 31 := by
  obtain ⟨n, hn⟩ : ∃ n : ℕ, n = 2 ^ 31 := ⟨_, rfl⟩
  have hpos : 0 < n := by omega
  refine ⟨fun h => ?_, fun h => ?_, fun h => ?_⟩
  · have heq := h ℤ ℤ sumOps (smallSpec 1 1) 1 1 [1] [repeatedPage] 1 (by decide) (by decide)
      (by decide) ?_ ⟨?_, by decide, by decide⟩ (by decide) .hnd [0] [0] (by decide) (by decide)
    · revert heq
      decide
    · simp only [List.mem_singleton, forall_eq]
      exact ⟨by decide, by decide, by decide, by decide, by decide⟩
    · intro i i' s s' hs hs' hne
      have hi := (List.getElem?_eq_some_iff.mp hs).1
      have hi' := (List.getElem?_eq_some_iff.mp hs').1
      simp only [List.length_singleton] at hi hi'
      omega
  · have hwf : ∀ s ∈ [longPrefill n], s.WellFormed 1 n 1 := by
      simpa using longPrefill_wellFormed hpos Nat.one_pos
    have hshare : Shares n 1 [longPrefill n] := shares_of_constant (by simp [longPrefill])
    have hq : (List.replicate n (0 : ℤ)).length = ([longPrefill n].map (·.qLen)).sum * (1 * 1) := by
      simp [longPrefill]
    have hlen : (List.replicate n (0 : ℤ)).length = (KvLayout.hnd.shape 1 n 1 1).prod := by
      simp [KvLayout.shape]
    have hpages : ([longPrefill n].map (·.pages n)).sum < 2 ^ 31 := by
      rw [List.map_singleton, List.sum_singleton, pages_longPrefill hpos]
      decide
    exact pagedAttention_ne_dense hpos (one_dvd 1) hwf hshare hq hlen hlen
      (fun kv md hmd => runHost_longPrefill hn hmd)
      (h ℤ ℤ sumOps (smallSpec 1 n) 1 1 _ _ 1 hpos Nat.one_pos (one_dvd 1) hwf ⟨hshare, hpages⟩ hq
        .hnd _ _ hlen hlen)
  · have hwf : ∀ s ∈ [longHistory n, longPrefill 1], s.WellFormed n 1 1 := by
      rintro s hs
      rcases List.mem_pair.mp hs with rfl | rfl
      · exact longHistory_wellFormed hn.le
      · exact longPrefill_wellFormed Nat.one_pos hpos
    have hshare : Shares 1 1 [longHistory n, longPrefill 1] :=
      shares_of_constant (by simp [longHistory, longPrefill])
    have hlen : (List.replicate n (0 : ℤ)).length = (KvLayout.hnd.shape n 1 1 1).prod := by
      simp [KvLayout.shape]
    exact pagedAttention_ne_dense Nat.one_pos (one_dvd 1) hwf hshare rfl hlen hlen
      (fun kv md hmd => runHost_longHistory hn hmd)
      (h ℤ ℤ sumOps (smallSpec 1 1) 1 1 _ _ n Nat.one_pos Nat.one_pos (one_dvd 1) hwf
        ⟨hshare, by change 0 + (1 + 0) < 2 ^ 31; decide⟩ rfl .hnd _ _ hlen hlen)

end Rllm
