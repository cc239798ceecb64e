import Rllm.Core.Config
import Rllm.Scheduler.Output

/-! # The model runner

The runner keeps the tokens of every request and turns the output of a
scheduling step into an input batch: the tokens to feed, their positions, and
the cache slots their keys and values are written to.
-/

namespace Rllm

structure RunnerRequestState where
  promptTokenIds : List Token
  generatedTokenIds : List Token := []
  numComputedTokens : ℕ := 0
  deriving DecidableEq, Repr

/-- A sequence of a batch. -/
structure BatchSeq where
  requestId : RequestId
  tokenIds : List Token
  positions : List ℕ
  seqLen : ℕ
  blockTable : List BlockId
  slotMapping : List ℤ
  isPrefill : Bool
  deriving DecidableEq, Repr

/-- The sequences of a batch. The flat arrays of the source are their fields, put together. -/
structure InputBatch where
  seqs : List BatchSeq := []
  deriving DecidableEq, Repr

namespace InputBatch

variable (b : InputBatch)

def requestIds : List RequestId := b.seqs.map (·.requestId)
def tokenIds : List Token := b.seqs.flatMap (·.tokenIds)
def positions : List ℕ := b.seqs.flatMap (·.positions)
def seqLens : List ℕ := b.seqs.map (·.seqLen)
def blockTables : List (List BlockId) := b.seqs.map (·.blockTable)
def slotMappings : List ℤ := b.seqs.flatMap (·.slotMapping)
def tokensPerSeq : List ℕ := b.seqs.map (·.tokenIds.length)
def numSeqs : ℕ := b.seqs.length

def numPrefillTokens : ℕ :=
  ((b.seqs.filter (·.isPrefill)).map (·.tokenIds.length)).sum

def maxNumBlocksPerSeq : ℕ := (b.seqs.map (·.blockTable.length)).foldl max 0

end InputBatch

/-- An `i64`, unless it overflows. -/
def checkedI64 (x : ℤ) : Option ℤ := if -2 ^ 63 ≤ x ∧ x < 2 ^ 63 then some x else none

/-- The slot of a position, `-1` if the block table does not reach it. -/
def slotOf (blockTable : List BlockId) (blockSize pos : ℕ) : ℤ :=
  match blockTable[pos / blockSize]? with
  | some b =>
    ((checkedI64 (b * blockSize)).bind fun v => checkedI64 (v + (pos % blockSize : ℕ))).getD (-1)
  | none => -1

def computeSlotMappings (positions : List ℕ) (blockTable : List BlockId) (blockSize : ℕ) :
    List ℤ :=
  if blockSize < 2 ^ 32 then positions.map (slotOf blockTable blockSize)
  else List.replicate positions.length (-1)

structure ModelRunner where
  requestStates : AList fun _ : RequestId => RunnerRequestState
  requestSamplingParams : AList fun _ : RequestId => SamplingParams
  speculativeDrafts : AList fun _ : RequestId => List Token

namespace ModelRunner

def new : ModelRunner := ⟨∅, ∅, ∅⟩

variable (m : ModelRunner)

def addRequest (id : RequestId) (promptTokenIds : List Token) : ModelRunner :=
  { m with requestStates := m.requestStates.insert id { promptTokenIds } }

def setSamplingParams (id : RequestId) (params : SamplingParams) : ModelRunner :=
  { m with requestSamplingParams := m.requestSamplingParams.insert id params }

def setSpeculativeDrafts (id : RequestId) (drafts : List Token) : ModelRunner :=
  { m with speculativeDrafts := m.speculativeDrafts.insert id drafts }

/-- Forget a finished, preempted or aborted request. -/
def removeRequest (id : RequestId) : ModelRunner where
  requestStates := m.requestStates.erase id
  requestSamplingParams := m.requestSamplingParams.erase id
  speculativeDrafts := m.speculativeDrafts.erase id

/-- Update the state of a request that must be tracked. -/
def modifyState (id : RequestId) (f : RunnerRequestState → RunnerRequestState) :
    Except String ModelRunner :=
  match m.requestStates.lookup id with
  | some state => .ok { m with requestStates := m.requestStates.insert id (f state) }
  | none => .error s!"request {id} not found"

def storeGeneratedToken (id : RequestId) (token : Token) : Except String ModelRunner :=
  m.modifyState id fun s => { s with generatedTokenIds := s.generatedTokenIds ++ [token] }

def advanceComputed (id : RequestId) (n : ℕ) : Except String ModelRunner :=
  m.modifyState id fun s => { s with numComputedTokens := s.numComputedTokens + n }

/-- The prompt and the generated tokens of a request. -/
def getContextTokenIds (id : RequestId) : List Token × List Token :=
  ((m.requestStates.lookup id).map fun s => (s.promptTokenIds, s.generatedTokenIds)).getD ([], [])

variable (blockSize : ℕ) (out : SchedulerOutput)

/-- Consecutive positions, which must fit into a `u32`. -/
def positionsFrom (start n : ℕ) : Except String (List ℕ) :=
  if (List.range' start n).all (· < 2 ^ 32) then .ok (List.range' start n)
  else .error "position exceeds u32"

/-- The sequence of a request, once its tokens are chosen. -/
def makeSeq (id : RequestId) (isPrefill : Bool) (computed : ℕ) (tokenIds : List Token)
    (positions : List ℕ) : Except String BatchSeq :=
  if computed + tokenIds.length < 2 ^ 32 then
    let blockTable := (out.blockTables.lookup id).getD []
    .ok
      { requestId := id, tokenIds, positions, seqLen := computed + tokenIds.length, blockTable,
        slotMapping := computeSlotMappings positions blockTable blockSize, isPrefill }
  else .error "seq_len exceeds u32"

/-- A prefill takes prompt tokens from the computed ones on. -/
def prefillSeq (id : RequestId) (state : RunnerRequestState) (numScheduled : ℕ) :
    Except String (Option BatchSeq) :=
  let start := state.numComputedTokens
  if state.promptTokenIds.length ≤ start then .ok none
  else do
    let tokens := (state.promptTokenIds.drop start).take numScheduled
    let positions ← positionsFrom start tokens.length
    let seq ← makeSeq blockSize out id true start tokens positions
    return some seq

/-- A decode takes the last token, followed by the drafts. -/
def decodeSeq (id : RequestId) (state : RunnerRequestState) :
    Except String (Option BatchSeq) × ModelRunner :=
  let lastToken := state.generatedTokenIds.getLast?.getD (state.promptTokenIds.getLast?.getD 0)
  let drafts := m.speculativeDrafts.lookup id
  let tokens := lastToken :: drafts.getD []
  let m := { m with speculativeDrafts := m.speculativeDrafts.erase id }
  match positionsFrom state.numComputedTokens tokens.length with
  | .error e => (.error e, m)
  | .ok positions =>
    -- the drafts stay with the runner after they are used
    let m := if (drafts.getD []).isEmpty then m else m.setSpeculativeDrafts id (drafts.getD [])
    ((makeSeq blockSize out id false state.numComputedTokens tokens positions).map some, m)

/-- The sequence of a scheduled request: none if the runner does not know it. -/
def buildSeq (id : RequestId) : Except String (Option BatchSeq) × ModelRunner :=
  match m.requestStates.lookup id with
  | none => (.ok none, m)
  | some state =>
    let numScheduled := (out.numScheduledTokens.lookup id).getD 0
    if numScheduled = 0 then (.ok none, m)
    else if id ∈ out.scheduledNew then (prefillSeq blockSize out id state numScheduled, m)
    else m.decodeSeq blockSize out id state

def buildLoop : List RequestId → ModelRunner → Except String (List BatchSeq) × ModelRunner
  | [], m => (.ok [], m)
  | id :: ids, m =>
    match m.buildSeq blockSize out id with
    | (.error e, m) => (.error e, m)
    | (.ok seq, m) =>
      match buildLoop ids m with
      | (.error e, m) => (.error e, m)
      | (.ok seqs, m) => (.ok (seq.toList ++ seqs), m)

/-- Requests that are cached as a whole have nothing to feed and are left out. -/
def buildTensors : Except String InputBatch × ModelRunner :=
  let m := out.preempted.foldl removeRequest (out.finished.foldl removeRequest m)
  if out.numScheduled = 0 then (.ok {}, m)
  else
    match buildLoop blockSize out (out.scheduledNew ++ out.scheduledRunning) m with
    | (.error e, m) => (.error e, m)
    | (.ok seqs, m) => (.ok ⟨seqs⟩, m)

end ModelRunner

end Rllm
