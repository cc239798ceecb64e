import Mathlib.Data.Int.ConditionallyCompleteOrder
import Mathlib.Data.List.GetD
import Mathlib.Data.List.Sort
import Mathlib.Order.ConditionallyCompleteLattice.Basic
import Rllm.Kernels.Attention
import Rllm.Library.Loops

/-! # Page lists

The metadata of a step are accepted exactly if every sequence has its query
within its length and enough blocks for its pages. The pages of the sequences
then lie behind one another, between the offsets that the metadata count.
-/

namespace Rllm

variable {base : AttentionMetadata} {blockSize : ℕ} {md : StepMetadata}

/-! ## The sequences of a batch -/

namespace AttentionMetadata

variable (base blockSize) (i : ℕ)

def seqLen : ℕ := base.seqLens.getD i 0

/-- The tokens of a sequence in this step. -/
def qLen : ℕ := base.queryStartLoc.getD (i + 1) 0 - base.queryStartLoc.getD i 0

/-- The pages that a sequence fills, the last one perhaps in part. -/
def pages : ℕ := divCeil (base.seqLen i) blockSize

def row : List ℤ := base.blockTables.getD i []

/-- The blocks of a sequence that hold its tokens. -/
def usedBlocks : List ℤ := (base.row i).take (base.pages blockSize i)

/-- The query of a sequence is a part of it, and its pages have blocks. -/
structure ValidSeq : Prop where
  qLen_le : base.qLen i ≤ base.seqLen i
  enough : base.pages blockSize i ≤ (base.row i).length
  nonneg : ∀ b ∈ base.usedBlocks blockSize i, 0 ≤ b

/-- The metadata describe a batch, in blocks of the given size. -/
structure Valid : Prop where
  blockSize_pos : 0 < blockSize
  starts_length : base.queryStartLoc.length = base.numSeqs + 1
  starts_zero : base.queryStartLoc.head? = some 0
  starts_mono : base.queryStartLoc.SortedLE
  rows_length : base.blockTables.length = base.numSeqs
  seqs : ∀ i < base.numSeqs, base.ValidSeq blockSize i

/-- Lengths, offsets and the number of pages fit into an `i32`. -/
structure Small : Prop where
  blockSize_lt : blockSize < 2 ^ 31
  seqLens_lt : ∀ n ∈ base.seqLens, n < 2 ^ 31
  starts_lt : ∀ n ∈ base.queryStartLoc, n < 2 ^ 31
  pages_lt : (base.seqLens.map (divCeil · blockSize)).sum < 2 ^ 31

end AttentionMetadata

/-- What the page lists of a batch say. -/
structure StepMetadata.Lists (md : StepMetadata) (base : AttentionMetadata) (blockSize : ℕ) :
    Prop where
  base_eq : md.base = base
  qoIndptr_length : md.qoIndptr.length = base.numSeqs + 1
  qoIndptr_zero : md.qoIndptr.head? = some 0
  qoIndptr_mono : md.qoIndptr.SortedLE
  kvIndptr_length : md.kvIndptr.length = base.numSeqs + 1
  kvIndptr_zero : md.kvIndptr.head? = some 0
  kvIndptr_mono : md.kvIndptr.SortedLE
  /-- The blocks between two offsets are those of the sequence. -/
  blocks : ∀ i < base.numSeqs, ∃ a b : ℕ, md.kvIndptr[i]? = some (a : ℤ) ∧
    md.kvIndptr[i + 1]? = some (b : ℤ) ∧ b ≤ md.kvIndices.length ∧
    (md.kvIndices.drop a).take (b - a) = base.usedBlocks blockSize i
  lastPage : ∀ i < base.numSeqs, 0 < base.seqLen i → ∃ n : ℕ,
    md.kvLastPageLen[i]? = some (n : ℤ) ∧
    (base.pages blockSize i - 1) * blockSize + n = base.seqLen i ∧ 1 ≤ n ∧ n ≤ blockSize
  isPureDecode_iff : md.isPureDecode = true ↔ ∀ i < base.numSeqs, base.qLen i = 1

/-! ## The checks -/

theorem any_zip_tail_lt_iff (l : List ℕ) :
    ((l.zip l.tail).any fun w => w.2 < w.1) = true ↔ ¬ l.SortedLE := by
  rw [List.sortedLE_iff_isChain]
  induction l with
  | nil => simp
  | cons a l ih =>
    cases l with
    | nil => simp
    | cons b l =>
      rw [List.isChain_cons_cons, not_and_or, ← ih, List.tail_cons, List.zip_cons_cons,
        List.any_cons, Bool.or_eq_true, decide_eq_true_eq, not_le]
      rfl

namespace StepMetadata

/-- The metadata with one more sequence, whose checks are passed. -/
def withSeq (base : AttentionMetadata) (blockSize : ℕ) (acc : StepMetadata × ℤ) (i : ℕ) :
    StepMetadata × ℤ :=
  let kvPages := asI32 (acc.2 + asI32 (base.pages blockSize i))
  ({ acc.1 with
    kvIndices := acc.1.kvIndices ++ base.usedBlocks blockSize i
    kvLastPageLen := acc.1.kvLastPageLen ++ [
      if base.seqLen i = 0 then 0
      else if asI32 (base.seqLen i % blockSize : ℕ) = 0 then asI32 blockSize
      else asI32 (base.seqLen i % blockSize : ℕ)]
    maxQLen := max acc.1.maxQLen (base.qLen i)
    maxKvLen := max acc.1.maxKvLen (base.seqLen i)
    isPureDecode := acc.1.isPureDecode && base.qLen i == 1
    qoIndptr := acc.1.qoIndptr ++ [asI32 (base.queryStartLoc.getD (i + 1) 0 : ℕ)]
    kvIndptr := acc.1.kvIndptr ++ [kvPages] }, kvPages)

theorem pushSeq_eq_ok_iff (acc acc' : StepMetadata × ℤ) (i : ℕ) :
    pushSeq base blockSize acc i = .ok acc' ↔
      base.ValidSeq blockSize i ∧ acc' = withSeq base blockSize acc i := by
  have hnonneg : ((base.row i).take (base.pages blockSize i)).findIdx? (· < 0) = none ↔
      ∀ b ∈ base.usedBlocks blockSize i, 0 ≤ b := by
    rw [List.findIdx?_eq_none_iff]
    simp [AttentionMetadata.usedBlocks]
  unfold pushSeq
  dsimp only
  constructor
  · intro h
    split at h
    · cases h
    · rename_i hq
      split at h
      · cases h
      · rename_i hlen
        split at h
        · cases h
        · rename_i hnone
          exact ⟨⟨not_lt.mp hq, not_lt.mp hlen, hnonneg.mp hnone⟩, (Except.ok.inj h).symm⟩
  · rintro ⟨⟨hq, hlen, hblocks⟩, rfl⟩
    split
    · rename_i hlt
      exact absurd hlt (not_lt.mpr hq)
    · split
      · rename_i hlt
        exact absurd hlt (not_lt.mpr hlen)
      · split
        · rename_i index hsome
          cases (hnonneg.mpr hblocks).symm.trans hsome
        · rfl

/-- The metadata of the first sequences. -/
def ofSeqs (base : AttentionMetadata) (blockSize n : ℕ) : StepMetadata × ℤ :=
  (List.range n).foldl (withSeq base blockSize) ({ base }, 0)

/-- The metadata are accepted exactly if they are valid. -/
theorem fromAttentionMetadata_eq_ok_iff :
    fromAttentionMetadata base blockSize = .ok md ↔
      base.Valid blockSize ∧ md = (ofSeqs base blockSize base.numSeqs).1 := by
  have hloop : ∀ t,
      (List.range base.numSeqs).foldlM (pushSeq base blockSize) ({ base }, 0) = .ok t ↔
      (∀ i < base.numSeqs, base.ValidSeq blockSize i) ∧ t = ofSeqs base blockSize base.numSeqs := by
    intro t
    rw [foldlM_eq_ok_iff fun s i t => pushSeq_eq_ok_iff s t i]
    simp only [List.mem_range, ofSeqs]
  have hmap : (Except.map (·.1) ((List.range base.numSeqs).foldlM (pushSeq base blockSize)
      ({ base }, 0)) : Except MetadataError StepMetadata) = .ok md ↔
      (∀ i < base.numSeqs, base.ValidSeq blockSize i) ∧
        md = (ofSeqs base blockSize base.numSeqs).1 := by
    cases ht : (List.range base.numSeqs).foldlM (pushSeq base blockSize) ({ base }, 0) with
    | error e =>
      have hnot : ¬ ∀ i < base.numSeqs, base.ValidSeq blockSize i := by
        intro hseqs
        have hok := (hloop _).mpr ⟨hseqs, rfl⟩
        rw [ht] at hok
        cases hok
      simp [Except.map, hnot]
    | ok t =>
      obtain ⟨hseqs, rfl⟩ := (hloop t).mp ht
      constructor
      · intro hmd
        exact ⟨hseqs, (Except.ok.inj hmd).symm⟩
      · rintro ⟨-, rfl⟩
        rfl
  unfold fromAttentionMetadata
  rw [ite_error_eq_ok_iff, ite_error_eq_ok_iff, ite_error_eq_ok_iff, ite_error_eq_ok_iff,
    ite_error_eq_ok_iff, any_zip_tail_lt_iff, hmap, not_not, not_not, not_not, not_not]
  constructor
  · rintro ⟨hbs, hlen, hzero, hrows, hmono, hseqs, rfl⟩
    exact ⟨⟨Nat.pos_of_ne_zero hbs, hlen, hzero, hmono, hrows, hseqs⟩, rfl⟩
  · rintro ⟨h, rfl⟩
    exact ⟨h.blockSize_pos.ne', h.starts_length, h.starts_zero, h.rows_length, h.starts_mono,
      h.seqs, rfl⟩

/-! ## The offsets -/

/-- The pages of the first sequences. -/
def pagesBefore (base : AttentionMetadata) (blockSize i : ℕ) : ℕ :=
  blockStart (base.pages blockSize) (List.range base.numSeqs) i

/-- The tokens in the last page of a sequence. -/
def lastPageLen (base : AttentionMetadata) (blockSize i : ℕ) : ℤ :=
  if base.seqLen i = 0 then 0
  else if asI32 (base.seqLen i % blockSize : ℕ) = 0 then asI32 blockSize
  else asI32 (base.seqLen i % blockSize : ℕ)

theorem pagesBefore_succ {i : ℕ} (hi : i < base.numSeqs) :
    pagesBefore base blockSize (i + 1) =
      pagesBefore base blockSize i + base.pages blockSize i :=
  blockStart_succ (List.getElem?_range hi)

/-- The metadata of the first sequences, list by list. -/
structure Counts (base : AttentionMetadata) (blockSize n : ℕ) (acc : StepMetadata × ℤ) : Prop where
  base_eq : acc.1.base = base
  kvPages : acc.2 = asI32 (pagesBefore base blockSize n)
  qoIndptr : acc.1.qoIndptr = (List.range (n + 1)).map fun i => asI32 (base.queryStartLoc.getD i 0)
  kvIndptr : acc.1.kvIndptr = (List.range (n + 1)).map fun i => asI32 (pagesBefore base blockSize i)
  kvIndices : acc.1.kvIndices = (List.range n).flatMap (base.usedBlocks blockSize)
  kvLastPageLen : acc.1.kvLastPageLen = (List.range n).map (lastPageLen base blockSize)
  isPureDecode : acc.1.isPureDecode = (List.range n).all fun i => base.qLen i == 1

theorem ofSeqs_counts (hzero : base.queryStartLoc.head? = some 0) {n : ℕ}
    (hn : n ≤ base.numSeqs) : Counts base blockSize n (ofSeqs base blockSize n) := by
  induction n with
  | zero =>
    have hfirst : base.queryStartLoc[0]?.getD 0 = 0 := by
      rw [← List.head?_eq_getElem?, hzero]
      rfl
    constructor <;> simp [ofSeqs, pagesBefore, hfirst]
  | succ n ih =>
    have hc := ih (Nat.le_of_succ_le hn)
    have hpages : asI32 ((ofSeqs base blockSize n).2 + asI32 (base.pages blockSize n)) =
        asI32 (pagesBefore base blockSize (n + 1)) := by
      rw [hc.kvPages, asI32_add, ← Nat.cast_add, ← pagesBefore_succ hn]
    have hsucc : ofSeqs base blockSize (n + 1) =
        withSeq base blockSize (ofSeqs base blockSize n) n := by
      rw [ofSeqs, List.range_succ, List.foldl_append]
      rfl
    rw [hsucc]
    constructor
    case base_eq => exact hc.base_eq
    case kvPages => exact hpages
    case qoIndptr =>
      rw [List.range_succ, List.map_append, ← hc.qoIndptr]
      rfl
    case kvIndptr =>
      rw [List.range_succ, List.map_append, ← hc.kvIndptr, List.map_singleton, ← hpages]
      rfl
    case kvIndices =>
      rw [List.range_succ, List.flatMap_append, ← hc.kvIndices, List.flatMap_singleton]
      rfl
    case kvLastPageLen =>
      rw [List.range_succ, List.map_append, ← hc.kvLastPageLen]
      rfl
    case isPureDecode =>
      rw [List.range_succ, List.all_append, ← hc.isPureDecode]
      simp [withSeq]

/-! ## What the lists say -/

theorem pagesBefore_mono {i j : ℕ} (h : i ≤ j) :
    pagesBefore base blockSize i ≤ pagesBefore base blockSize j :=
  blockStart_mono h

theorem pagesBefore_lt (hs : base.Small blockSize) (i : ℕ) :
    pagesBefore base blockSize i < 2 ^ 31 := by
  have hall : (List.range base.numSeqs).map (base.pages blockSize) =
      base.seqLens.map (divCeil · blockSize) := by
    apply List.ext_getElem
    · simp [AttentionMetadata.numSeqs]
    · intro i _ hi
      simp only [List.getElem_map, List.getElem_range, AttentionMetadata.pages,
        AttentionMetadata.seqLen]
      rw [List.getD_eq_getElem _ _ (by simpa using hi)]
  exact (blockStart_le i).trans_lt (hall ▸ hs.pages_lt)

theorem length_usedBlocks {i : ℕ} (h : base.ValidSeq blockSize i) :
    (base.usedBlocks blockSize i).length = base.pages blockSize i := by
  rw [AttentionMetadata.usedBlocks, List.length_take, min_eq_left h.enough]

theorem lastPageLen_spec (hbs : 0 < blockSize) (hlt : blockSize < 2 ^ 31) {i : ℕ}
    (hpos : 0 < base.seqLen i) : ∃ n : ℕ, lastPageLen base blockSize i = n ∧
      (base.pages blockSize i - 1) * blockSize + n = base.seqLen i ∧ 1 ≤ n ∧ n ≤ blockSize := by
  have hmod := Nat.mod_lt (base.seqLen i) hbs
  have hsplit := Nat.div_add_mod' (base.seqLen i) blockSize
  have hlast : lastPageLen base blockSize i =
      if base.seqLen i % blockSize = 0 then (blockSize : ℤ)
      else ((base.seqLen i % blockSize : ℕ) : ℤ) := by
    rw [lastPageLen, if_neg hpos.ne', asI32_of_lt hlt, asI32_of_lt (hmod.trans hlt)]
    simp only [Int.natCast_eq_zero]
  by_cases hr : base.seqLen i % blockSize = 0
  · refine ⟨blockSize, by rw [hlast, if_pos hr], ?_, hbs, le_rfl⟩
    have hdiv : base.pages blockSize i = base.seqLen i / blockSize := by
      have hceil := divCeil_mul_add (n := 0) hbs (base.seqLen i / blockSize)
      rw [divCeil_zero hbs, Nat.add_zero, Nat.add_zero] at hceil
      rw [AttentionMetadata.pages, ← hceil]
      congr 1
      omega
    have hone : 0 < base.seqLen i / blockSize := by
      refine Nat.pos_of_ne_zero fun hz => ?_
      rw [hz, Nat.zero_mul] at hsplit
      omega
    rw [hdiv, Nat.sub_one_mul, Nat.sub_add_cancel (Nat.le_mul_of_pos_left _ hone)]
    omega
  · refine ⟨base.seqLen i % blockSize, by rw [hlast, if_neg hr], ?_, Nat.pos_of_ne_zero hr, hmod.le⟩
    have hdiv : base.pages blockSize i = base.seqLen i / blockSize + 1 := by
      have hceil := divCeil_mul_add (n := base.seqLen i % blockSize) hbs
        (base.seqLen i / blockSize)
      rw [hsplit] at hceil
      have hpage := divCeil_pos hbs (Nat.pos_of_ne_zero hr)
      have hle := (divCeil_le_iff (n := base.seqLen i % blockSize) (m := 1) hbs).mpr (by omega)
      rw [AttentionMetadata.pages, hceil]
      omega
    rw [hdiv, Nat.add_sub_cancel, hsplit]

theorem ofSeqs_lists (hs : base.Small blockSize) (hv : base.Valid blockSize) :
    (ofSeqs base blockSize base.numSeqs).1.Lists base blockSize := by
  have hc : Counts base blockSize base.numSeqs (ofSeqs base blockSize base.numSeqs) :=
    ofSeqs_counts hv.starts_zero le_rfl
  have hqo : (ofSeqs base blockSize base.numSeqs).1.qoIndptr =
      base.queryStartLoc.map fun n : ℕ => (n : ℤ) := by
    rw [hc.qoIndptr]
    apply List.ext_getElem
    · simp [hv.starts_length]
    · intro i _ hi
      rw [List.getElem_map, List.getElem_map, List.getElem_range,
        List.getD_eq_getElem _ _ (by simpa using hi)]
      exact asI32_of_lt (hs.starts_lt _ (List.getElem_mem _))
  have hkv : (ofSeqs base blockSize base.numSeqs).1.kvIndptr =
      (List.range (base.numSeqs + 1)).map fun i => (pagesBefore base blockSize i : ℤ) := by
    rw [hc.kvIndptr]
    exact List.map_congr_left fun i _ => asI32_of_lt (pagesBefore_lt hs i)
  constructor
  case base_eq => exact hc.base_eq
  case qoIndptr_length => rw [hqo, List.length_map, hv.starts_length]
  case qoIndptr_zero =>
    rw [hqo, List.head?_map, hv.starts_zero]
    rfl
  case qoIndptr_mono =>
    rw [hqo, List.sortedLE_iff_pairwise, List.pairwise_map]
    exact hv.starts_mono.pairwise.imp fun h => Int.ofNat_le.mpr h
  case kvIndptr_length => rw [hkv, List.length_map, List.length_range]
  case kvIndptr_zero =>
    rw [hkv, List.head?_map, List.head?_range]
    simp [pagesBefore]
  case kvIndptr_mono =>
    rw [hkv, List.sortedLE_iff_pairwise, List.pairwise_map]
    exact List.pairwise_le_range.imp fun h => Int.ofNat_le.mpr (pagesBefore_mono h)
  case blocks =>
    intro i hi
    have hstart : ∀ j, j ≤ base.numSeqs → pagesBefore base blockSize j =
        blockStart (fun k => (base.usedBlocks blockSize k).length) (List.range base.numSeqs) j := by
      intro j _
      refine blockStart_congr (fun k hk => ?_) j
      exact (length_usedBlocks (hv.seqs k (List.mem_range.mp hk))).symm
    refine ⟨pagesBefore base blockSize i, pagesBefore base blockSize (i + 1), ?_, ?_, ?_, ?_⟩
    · rw [hkv, List.getElem?_map, List.getElem?_range (by omega)]
      rfl
    · rw [hkv, List.getElem?_map, List.getElem?_range (by omega)]
      rfl
    · rw [hc.kvIndices, List.length_flatMap, hstart _ (by omega)]
      exact blockStart_le _
    · rw [pagesBefore_succ hi, Nat.add_sub_cancel_left, hc.kvIndices, hstart i hi.le,
        ← length_usedBlocks (hv.seqs i hi)]
      exact slice_flatMap_start (List.getElem?_range hi)
  case lastPage =>
    intro i hi hpos
    obtain ⟨n, hn, hrest⟩ := lastPageLen_spec hv.blockSize_pos hs.blockSize_lt hpos
    refine ⟨n, ?_, hrest⟩
    rw [hc.kvLastPageLen, List.getElem?_map, List.getElem?_range hi, Option.map_some, hn]
  case isPureDecode_iff =>
    rw [hc.isPureDecode]
    simp

/-- The metadata of a step are built exactly for a valid batch, and list its pages. -/
theorem fromAttentionMetadata_ok_iff (base : AttentionMetadata) (blockSize : ℕ)
    (hs : base.Small blockSize) :
    ((∃ md, fromAttentionMetadata base blockSize = .ok md) ↔ base.Valid blockSize) ∧
      ∀ md, fromAttentionMetadata base blockSize = .ok md → md.Lists base blockSize := by
  constructor
  · constructor
    · rintro ⟨md, hmd⟩
      exact (fromAttentionMetadata_eq_ok_iff.mp hmd).1
    · intro hv
      exact ⟨_, fromAttentionMetadata_eq_ok_iff.mpr ⟨hv, rfl⟩⟩
  · intro md hmd
    obtain ⟨hv, rfl⟩ := fromAttentionMetadata_eq_ok_iff.mp hmd
    exact ofSeqs_lists hs hv

/-- A decode over two pages with a padded row, a sequence of no tokens, and a prefill of a full
page. -/
def smallBatch : AttentionMetadata where
  seqLens := [5, 0, 4]
  queryStartLoc := [0, 1, 1, 5]
  blockTables := [[7, 3, -1], [], [2]]

theorem fromAttentionMetadata_ok_small : ∃ md, fromAttentionMetadata smallBatch 4 = .ok md ∧
    smallBatch.Valid 4 ∧ md.Lists smallBatch 4 := by
  obtain ⟨hiff, hlists⟩ := fromAttentionMetadata_ok_iff smallBatch 4
    ⟨by decide, by decide, by decide, by decide⟩
  have hok : (fromAttentionMetadata smallBatch 4).isOk = true := by decide
  cases hmd : fromAttentionMetadata smallBatch 4 with
  | error e =>
    rw [hmd] at hok
    cases hok
  | ok md => exact ⟨md, rfl, hiff.mp ⟨md, hmd⟩, hlists md hmd⟩

end StepMetadata

end Rllm
