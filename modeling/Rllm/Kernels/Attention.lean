import Rllm.Core.Config
import Mathlib.Data.List.Basic
import Mathlib.Data.Int.Notation

/-! # Paged attention

The metadata of a step lists the pages of every sequence behind one another. The
reference backend writes keys and values into a paged cache and attends over them
through these lists; the dense reference has the keys and values of a sequence in
one piece.
-/

namespace Rllm

/-- The arithmetic on `f32` and `f64`, of which nothing is known. -/
structure ScalarOps (F32 F64 : Type) where
  zero32 : F32
  /-- `as f64` and `as f32`. -/
  widen : F32 → F64
  narrow : F64 → F32
  zero : F64
  negInfinity : F64
  add : F64 → F64 → F64
  sub : F64 → F64 → F64
  mul : F64 → F64 → F64
  div : F64 → F64 → F64
  max : F64 → F64 → F64
  exp : F64 → F64
  tanh : F64 → F64
  /-- Whether a number equals `0.0`. -/
  isZero : F64 → Bool

/-- An integer as an `i32`, wrapped. -/
def asI32 (n : ℤ) : ℤ := n.bmod (2 ^ 32)

@[simp] theorem asI32_zero : asI32 0 = 0 := Int.zero_bmod

theorem asI32_add (a b : ℤ) : asI32 (asI32 a + asI32 b) = asI32 (a + b) := by
  unfold asI32
  rw [Int.bmod_add_bmod, Int.add_bmod_bmod]

theorem asI32_of_lt {n : ℕ} (h : n < 2 ^ 31) : asI32 n = n :=
  Int.bmod_eq_of_le (by omega) (by omega)

theorem asI32_lt (n : ℤ) : asI32 n < 2 ^ 31 := by
  have h : n.bmod (2 ^ 32) < (((2 ^ 32 : ℕ) : ℤ) + 1) / 2 := Int.bmod_lt (by decide)
  exact h.trans_le (by decide)

/-- An `i32` as a `usize`, its sign extended. -/
def asUsize (n : ℤ) : ℕ := (n % 2 ^ 64).toNat

/-- A difference that panics below zero. -/
def checkedSub (a b : ℕ) : Option ℕ := if b ≤ a then some (a - b) else none

/-! ## Layouts -/

inductive KvLayout where
  | legacy
  | nhd
  | hnd
  deriving DecidableEq, Repr

namespace KvLayout

/-- Where an element of one layer's cache lies. -/
def offset (layout : KvLayout) (block slot head d blockSize numKvHeads headDim : ℕ) : ℕ :=
  match layout with
  | legacy => ((block * numKvHeads + head) * headDim + d) * blockSize + slot
  | nhd => ((block * blockSize + slot) * numKvHeads + head) * headDim + d
  | hnd => ((block * numKvHeads + head) * blockSize + slot) * headDim + d

def shape (layout : KvLayout) (numBlocks blockSize numKvHeads headDim : ℕ) : List ℕ :=
  match layout with
  | legacy => [numBlocks, numKvHeads, headDim, blockSize]
  | nhd => [numBlocks, blockSize, numKvHeads, headDim]
  | hnd => [numBlocks, numKvHeads, blockSize, headDim]

end KvLayout

/-! ## Metadata of a step -/

structure AttentionMetadata where
  seqLens : List ℕ
  /-- Where the tokens of every sequence start, and behind the last one. -/
  queryStartLoc : List ℕ
  /-- Block ids by sequence; negative ones are unused. -/
  blockTables : List (List ℤ)
  slotMapping : List ℤ := []
  numPrefillTokens : ℕ := 0
  numDecodeTokens : ℕ := 0
  maxNumBlocksPerSeq : ℕ := 0
  commonPrefixBlocks : ℕ := 0
  slidingWindow : Option ℕ := none
  deriving DecidableEq, Repr

/-- Addition of two `u32` values, wrapped. -/
def addU32 (a b : ℕ) : ℕ := (a + b) % 2 ^ 32

namespace AttentionMetadata

def new : AttentionMetadata where
  seqLens := []
  queryStartLoc := [0]
  blockTables := []

/-- A batch of decodes, each with one token. -/
def forDecode (seqLens : List ℕ) (blockTables : List (List ℤ)) (maxNumBlocksPerSeq : ℕ) :
    AttentionMetadata where
  seqLens
  queryStartLoc := (List.range (seqLens.length + 1)).map (· % 2 ^ 32)
  blockTables
  numDecodeTokens := seqLens.length
  maxNumBlocksPerSeq

/-- A batch of prefills, given their tokens. -/
def forPrefill (seqLens promptTokensPerSeq : List ℕ) (blockTables : List (List ℤ))
    (maxNumBlocksPerSeq : ℕ) : AttentionMetadata where
  seqLens
  queryStartLoc := promptTokensPerSeq.scanl addU32 0
  blockTables
  numPrefillTokens := promptTokensPerSeq.foldl addU32 0
  maxNumBlocksPerSeq

/-- Count the leading blocks that all sequences share. -/
def detectCommonPrefixBlocks (base : AttentionMetadata) : AttentionMetadata :=
  { base with
    commonPrefixBlocks := match base.blockTables with
      | first :: second :: rest =>
        (second :: rest).foldl (fun common row =>
          min common ((first.zip row).takeWhile fun p => p.1 == p.2).length) first.length
      | _ => 0 }

def numSeqs (base : AttentionMetadata) : ℕ := base.seqLens.length

end AttentionMetadata

inductive MetadataError where
  | invalidBlockSize
  | queryStartLocNotZero
  | queryStartLocNotMonotonic
  | queryStartLocLength (len expected : ℕ)
  | blockTablesLength (len expected : ℕ)
  | queryLongerThanSeq (seq qLen seqLen : ℕ)
  | notEnoughBlocks (seq len needed seqLen : ℕ)
  | negativeBlockId (seq index : ℕ) (block : ℤ)
  deriving DecidableEq, Repr

structure StepMetadata where
  base : AttentionMetadata
  qoIndptr : List ℤ := [0]
  kvIndptr : List ℤ := [0]
  kvIndices : List ℤ := []
  kvLastPageLen : List ℤ := []
  maxQLen : ℕ := 0
  maxKvLen : ℕ := 0
  isPureDecode : Bool := true
  deriving DecidableEq, Repr

namespace StepMetadata

/-- Append a sequence to the metadata, which count the pages so far. -/
def pushSeq (base : AttentionMetadata) (blockSize : ℕ) (acc : StepMetadata × ℤ) (seq : ℕ) :
    Except MetadataError (StepMetadata × ℤ) :=
  let seqLen := base.seqLens.getD seq 0
  let qLen := base.queryStartLoc.getD (seq + 1) 0 - base.queryStartLoc.getD seq 0
  if seqLen < qLen then .error (.queryLongerThanSeq seq qLen seqLen)
  else
    let needed := divCeil seqLen blockSize
    let row := base.blockTables.getD seq []
    if row.length < needed then .error (.notEnoughBlocks seq row.length needed seqLen)
    else
      match (row.take needed).findIdx? (· < 0) with
      | some index => .error (.negativeBlockId seq index (row.getD index 0))
      | none =>
        let kvPages := asI32 (acc.2 + asI32 needed)
        .ok ({ acc.1 with
          kvIndices := acc.1.kvIndices ++ row.take needed
          kvLastPageLen := acc.1.kvLastPageLen ++ [
            if seqLen = 0 then 0
            else if asI32 (seqLen % blockSize : ℕ) = 0 then asI32 blockSize
            else asI32 (seqLen % blockSize : ℕ)]
          maxQLen := max acc.1.maxQLen qLen
          maxKvLen := max acc.1.maxKvLen seqLen
          isPureDecode := acc.1.isPureDecode && qLen == 1
          qoIndptr := acc.1.qoIndptr ++ [asI32 (base.queryStartLoc.getD (seq + 1) 0 : ℕ)]
          kvIndptr := acc.1.kvIndptr ++ [kvPages] }, kvPages)

def fromAttentionMetadata (base : AttentionMetadata) (blockSize : ℕ) :
    Except MetadataError StepMetadata :=
  if blockSize = 0 then .error .invalidBlockSize
  else if base.queryStartLoc.length ≠ base.numSeqs + 1 then
    .error (.queryStartLocLength base.queryStartLoc.length (base.numSeqs + 1))
  else if base.queryStartLoc.head? ≠ some 0 then .error .queryStartLocNotZero
  else if base.blockTables.length ≠ base.numSeqs then
    .error (.blockTablesLength base.blockTables.length base.numSeqs)
  else if (base.queryStartLoc.zip base.queryStartLoc.tail).any fun w => w.2 < w.1 then
    .error .queryStartLocNotMonotonic
  else ((List.range base.numSeqs).foldlM (pushSeq base blockSize) ({ base }, 0)).map (·.1)

end StepMetadata

/-! ## The reference backend -/

structure AttnSpec (F32 : Type) where
  numQHeads : ℕ
  numKvHeads : ℕ
  headDim : ℕ
  blockSize : ℕ
  slidingWindow : Option ℕ
  scale : F32
  softCap : Option F32

structure HostKvLayer (F32 : Type) where
  k : List F32
  v : List F32
  layout : KvLayout
  blockSize : ℕ
  numKvHeads : ℕ
  headDim : ℕ
  kScale : F32
  vScale : F32

variable {F32 F64 : Type} (ops : ScalarOps F32 F64)

/-- Write one element of a token; one that would lie outside the cache is skipped. -/
def writeElement (layout : KvLayout) (k v : List F32) (blockSize numKvHeads headDim : ℕ)
    (slot token head d : ℕ) (caches : List F32 × List F32) : Option (List F32 × List F32) :=
  let dst := layout.offset (slot / blockSize) (slot % blockSize) head d blockSize numKvHeads headDim
  if caches.1.length ≤ dst ∨ caches.2.length ≤ dst then some caches
  else do
    let src := token * (numKvHeads * headDim) + head * headDim + d
    return (caches.1.set dst (← k[src]?), caches.2.set dst (← v[src]?))

/-- Write the keys and values of tokens into the paged cache; none is a panic. -/
def writeKvHost (kCache vCache : List F32) (layout : KvLayout) (k v : List F32)
    (slotMapping : List ℤ) (blockSize numKvHeads headDim : ℕ) : Option (List F32 × List F32) :=
  let row := numKvHeads * headDim
  if blockSize = 0 ∨ k.length ≠ slotMapping.length * row ∨ v.length ≠ slotMapping.length * row then
    none
  else
    slotMapping.zipIdx.foldlM (fun caches (slot, token) =>
      -- a negative slot pads
      if slot < 0 then some caches
      else
        (List.range numKvHeads).foldlM (fun caches head =>
          (List.range headDim).foldlM (fun caches d =>
            writeElement layout k v blockSize numKvHeads headDim slot.toNat token head d caches)
            caches) caches)
      (kCache, vCache)

/-- The capped logit of a query head against a position. -/
def logitAt (spec : AttnSpec F32) (kScale : F32) (query : ℕ → Option F32)
    (keyRow : ℕ → Option (ℕ → Option F32)) (p : ℕ) : Option F64 := do
  let key ← keyRow p
  let dot ← (List.range spec.headDim).foldlM (fun dot d => do
    return ops.add dot (ops.mul (ops.widen (← query d))
      (ops.mul (ops.widen (← key d)) (ops.widen kScale)))) ops.zero
  let logit := ops.mul dot (ops.widen spec.scale)
  match spec.softCap with
  | none => return logit
  | some cap => return ops.mul (ops.widen cap) (ops.tanh (ops.div logit (ops.widen cap)))

/-- Add the values of a position, weighted. -/
def addValues (vScale : F32) (valueRow : ℕ → Option (ℕ → Option F32)) (weight : F64) (p : ℕ)
    (acc : List F64) : Option (List F64) := do
  let value ← valueRow p
  acc.zipIdx.mapM fun (a, d) => do
    return ops.add a (ops.mul weight (ops.mul (ops.widen (← value d)) (ops.widen vScale)))

/-- The exponentials of logits, shifted by the greatest one. -/
def expWeights (logits : List F64) : List F64 :=
  let maxLogit := logits.foldl ops.max ops.negInfinity
  logits.map fun l => ops.exp (ops.sub l maxLogit)

/-- Attend from one query head over positions `winStart` to `pos`. The rows of keys and values are
looked up by position and then by dimension. There is no result when no weight is left. -/
def attend (spec : AttnSpec F32) (kScale vScale : F32) (query : ℕ → Option F32)
    (keyRow valueRow : ℕ → Option (ℕ → Option F32)) (winStart pos : ℕ) :
    Option (Option (List F64)) := do
  let logits ← (List.range' winStart (pos + 1 - winStart)).mapM
    (logitAt ops spec kScale query keyRow)
  let weights := expWeights ops logits
  let expSum := weights.foldl ops.add ops.zero
  if ops.isZero expSum then return none
  else
    let acc ← weights.zipIdx.foldlM (fun acc (w, i) =>
      addValues ops vScale valueRow (ops.div w expSum) (winStart + i) acc)
      (List.replicate spec.headDim ops.zero)
    return some acc

/-- Write a row into the output. -/
def writeRow (out : List F32) (start : ℕ) (row : List F32) : Option (List F32) :=
  row.zipIdx.foldlM (fun out (a, d) =>
    if start + d < out.length then some (out.set (start + d) a) else none) out

/-- The first position that a query at `pos` sees. -/
def winStart (spec : AttnSpec F32) (pos : ℕ) : ℕ :=
  match spec.slidingWindow with
  | none => 0
  | some w => pos + 1 - w

/-- The loop over the tokens and heads of one sequence, which the paged and the dense version
share. They differ in how they find the rows of keys and values by head and position. -/
def attendSeq (spec : AttnSpec F32) (kScale vScale : F32) (q : List F32)
    (keyRow valueRow : ℕ → ℕ → Option (ℕ → Option F32)) (qBegin qLen kvLen : ℕ) (out : List F32) :
    Option (List F32) :=
  (List.range qLen).foldlM (fun out j => do
    let pos := (← checkedSub kvLen qLen) + j
    let qRow := (qBegin + j) * spec.numQHeads * spec.headDim
    (List.range spec.numQHeads).foldlM (fun out qHead => do
      let kvHead := qHead / (spec.numQHeads / spec.numKvHeads)
      let outRow := qRow + qHead * spec.headDim
      match ← attend ops spec kScale vScale (fun d => q[outRow + d]?) (keyRow kvHead)
          (valueRow kvHead) (winStart spec pos) pos with
      | none => some out
      | some acc => writeRow out outRow (acc.map ops.narrow)) out) out

/-- A row of a paged cache: the page of the position is looked up first. -/
def pagedRow (kv : HostKvLayer F32) (md : StepMetadata) (pageBase : ℕ) (cache : List F32)
    (kvHead p : ℕ) : Option (ℕ → Option F32) := do
  let block ← md.kvIndices[pageBase + p / kv.blockSize]?
  return fun d => cache[kv.layout.offset (asUsize block) (p % kv.blockSize) kvHead d kv.blockSize
    kv.numKvHeads kv.headDim]?

/-- One turn of the loop over the sequences, which looks up where the sequence starts. -/
def runSeq (q : List F32) (kv : HostKvLayer F32) (md : StepMetadata) (spec : AttnSpec F32)
    (out : List F32) (seq : ℕ) : Option (List F32) := do
  let qBegin ← md.qoIndptr[seq]?
  let qEnd ← md.qoIndptr[seq + 1]?
  let qLen ← checkedSub (asUsize qEnd) (asUsize qBegin)
  let kvLen ← md.base.seqLens[seq]?
  let pageBase ← md.kvIndptr[seq]?
  attendSeq ops spec kv.kScale kv.vScale q (pagedRow kv md (asUsize pageBase) kv.k)
    (pagedRow kv md (asUsize pageBase) kv.v) (asUsize qBegin) qLen kvLen out

/-- Paged attention on the host; none is a panic. -/
def runHost (q : List F32) (kv : HostKvLayer F32) (md : StepMetadata) (spec : AttnSpec F32) :
    Option (List F32) :=
  if spec.blockSize ≠ kv.blockSize ∨ spec.numKvHeads ≠ kv.numKvHeads ∨ spec.headDim ≠ kv.headDim ∨
      kv.numKvHeads = 0 ∨ spec.numQHeads % kv.numKvHeads ≠ 0 then none
  else
    let numTokens := asUsize (md.qoIndptr.getLastD 0)
    if q.length ≠ numTokens * spec.numQHeads * spec.headDim then none
    else
      let out := List.replicate q.length ops.zero32
      if numTokens = 0 then some out
      else (List.range md.base.numSeqs).foldlM (runSeq ops q kv md spec) out

/-- A row of a sequence whose keys or values lie in one piece. -/
def denseRow (spec : AttnSpec F32) (seq : List F32) (kvHead p : ℕ) : Option (ℕ → Option F32) :=
  some fun d => seq[(p * spec.numKvHeads + kvHead) * spec.headDim + d]?

/-- Attention over contiguous keys and values, sequence by sequence. -/
def denseReference (q : List F32) (kSeqs vSeqs : List (List F32)) (qLens seqLens : List ℕ)
    (spec : AttnSpec F32) (kScale vScale : F32) : Option (List F32) := do
  let (out, _) ← qLens.zipIdx.foldlM (fun (out, tokenBase) (qLen, i) => do
    let kSeq ← kSeqs[i]?
    let vSeq ← vSeqs[i]?
    let kvLen ← seqLens[i]?
    let out ← attendSeq ops spec kScale vScale q (denseRow spec kSeq) (denseRow spec vSeq)
      tokenBase qLen kvLen out
    return (out, tokenBase + qLen)) (List.replicate q.length ops.zero32, 0)
  return out

end Rllm
