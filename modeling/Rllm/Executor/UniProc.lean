import Rllm.Sampling.Sampler
import Rllm.Worker.ModelRunner

/-! # The single-process executor

One execution proposes drafts for the decoding requests, builds the batch, runs
the model and samples: a token for each sequence, or several when drafts are
verified. The forward pass and the sampler are parameters.
-/

namespace Rllm

structure PerRequestOutput where
  requestId : RequestId
  tokenIds : List Token
  deriving DecidableEq, Repr

structure ExecutorOutput where
  perRequestOutputs : List PerRequestOutput := []
  deriving DecidableEq, Repr

/-- What the engine asks of an executor with states in `E`. -/
structure Executor (E : Type) where
  executeModel : SchedulerOutput → E → Except String ExecutorOutput × E
  addRequest : RequestId → List Token → SamplingParams → E → Except String Unit × E
  abortRequest : RequestId → E → E

/-- The forward pass and the sampler of one execution. Sequences of the batch are named by their
index, since the sampler draws anew for each of them. -/
structure ModelOps where
  Logits : Type
  zeroLogits : Logits
  /-- The logits at every position of a sequence. -/
  positionLogits : InputBatch → ℕ → Except String (List Logits)
  /-- The logits at the last position of a sequence. -/
  lastLogits : InputBatch → ℕ → Except String (Option Logits)
  argmax : Logits → Token
  sample : ℕ → SamplingInput Logits → Token
  eosTokenId : Token

/-- The continuation of the last earlier occurrence of the longest repeated suffix. -/
def NGramProposer.propose (minNgram maxNgram : ℕ) (context : List Token) (maxTokens : ℕ) :
    List Token :=
  if maxTokens = 0 ∨ context.length ≤ minNgram then []
  else
    let maxN := min maxNgram (context.length - 1)
    ((List.range' minNgram (maxN + 1 - minNgram)).reverse.findSome? fun n =>
      (List.range (context.length - n)).reverse.findSome? fun start =>
        if (context.drop start).take n = context.drop (context.length - n) then
          let continuation := (context.drop (start + n)).take maxTokens
          if continuation.isEmpty then none else some continuation
        else none).getD []

namespace ModelRunner

/-- The drafts of one decoding request. The constructor of the proposer asserts its bounds. -/
def proposeFor (m : ModelRunner) (id : RequestId) : Except String (List Token) :=
  match (m.requestSamplingParams.lookup id).bind (·.speculativeDecoding) with
  | some c =>
    if c.enabled && 0 < c.numSpeculativeTokens && c.proposer == "ngram" then
      let (prompt, generated) := m.getContextTokenIds id
      if c.minNgram = 0 then .error "assertion failed: min_ngram > 0"
      else if c.maxNgram < c.minNgram then .error "assertion failed: max_ngram >= min_ngram"
      else .ok (NGramProposer.propose c.minNgram c.maxNgram (prompt ++ generated)
        c.numSpeculativeTokens)
    else .ok []
  | none => .ok []

/-- The drafts proposed in this execution, which the runner keeps as well. -/
def proposeAll : List RequestId → ModelRunner →
    Except String (AList fun _ : RequestId => List Token) × ModelRunner
  | [], m => (.ok ∅, m)
  | id :: ids, m =>
    match m.proposeFor id with
    | .error e => (.error e, m)
    | .ok drafts =>
      let m := if drafts.isEmpty then m else m.setSpeculativeDrafts id drafts
      match proposeAll ids m with
      | (.error e, m) => (.error e, m)
      | (.ok map, m) => (.ok (if drafts.isEmpty then map else map.insert id drafts), m)

end ModelRunner

namespace UniProc

variable (ops : ModelOps)

/-- Accept drafts as long as the model predicts them; the first other prediction is sampled. -/
def acceptDrafts (sample : ops.Logits → ℕ → Token) :
    List Token → List ops.Logits → List Token → List Token
  | draft :: drafts, logits :: rest, accepted =>
    if ops.argmax logits = draft then acceptDrafts sample drafts rest (accepted ++ [draft])
    else accepted ++ [sample logits accepted.length]
  | _, _, accepted => accepted

/-- The tokens of a sequence with drafts. -/
def verify (sample : ops.Logits → ℕ → Token) (drafts : List Token) (logits : List ops.Logits) :
    List Token :=
  let accepted := acceptDrafts ops sample drafts logits []
  let accepted :=
    match logits[drafts.length]? with
    | some bonus =>
      if accepted.length = drafts.length ∧ 0 < drafts.length then
        accepted ++ [sample bonus accepted.length]
      else accepted
    | none => accepted
  if accepted.isEmpty then [sample (logits.getLast?.getD ops.zeroLogits) 0] else accepted

/-- Run the model on the `i`-th sequence and sample its tokens. -/
def sampleSeq (drafts : AList fun _ : RequestId => List Token) (batch : InputBatch) (i : ℕ)
    (seq : BatchSeq) (m : ModelRunner) : Except String (List Token) := do
  let params := (m.requestSamplingParams.lookup seq.requestId).getD {}
  let (prompt, generated) := m.getContextTokenIds seq.requestId
  let sample (logits : ops.Logits) (accepted : ℕ) : Token := ops.sample i
    { logits, params, contextTokenIds := prompt ++ generated,
      numGenerated := generated.length + accepted, eosTokenId := ops.eosTokenId }
  match seq.isPrefill, drafts.lookup seq.requestId with
  | false, some drafts =>
    let logits ← ops.positionLogits batch i
    let logits := logits ++ List.replicate (seq.tokenIds.length - logits.length) ops.zeroLogits
    return verify ops sample drafts logits
  | _, _ =>
    let logits ← ops.lastLogits batch i
    return [sample (logits.getD ops.zeroLogits) 0]

/-- What a sequence adds to the computed tokens: a decode without drafts counts one. -/
def advanceBy (drafts : AList fun _ : RequestId => List Token) (seq : BatchSeq) : ℕ :=
  if seq.isPrefill || (drafts.lookup seq.requestId).isSome then seq.tokenIds.length else 1

/-- Run one sequence and book its tokens. -/
def runSeq (drafts : AList fun _ : RequestId => List Token) (batch : InputBatch) (i : ℕ)
    (seq : BatchSeq) (m : ModelRunner) : Except String (PerRequestOutput × ModelRunner) := do
  let tokens ← sampleSeq ops drafts batch i seq m
  let m ← tokens.foldlM (fun m token => m.storeGeneratedToken seq.requestId token) m
  let m ← m.advanceComputed seq.requestId (advanceBy drafts seq)
  return (⟨seq.requestId, tokens⟩, m)

/-- Run the sequences from the `i`-th on. -/
def runSeqs (drafts : AList fun _ : RequestId => List Token) (batch : InputBatch) :
    ℕ → List BatchSeq → ModelRunner → Except String (List PerRequestOutput) × ModelRunner
  | _, [], m => (.ok [], m)
  | i, seq :: seqs, m =>
    match runSeq ops drafts batch i seq m with
    | .error e => (.error e, m)
    | .ok (output, m) =>
      match runSeqs drafts batch (i + 1) seqs m with
      | (.error e, m) => (.error e, m)
      | (.ok outputs, m) => (.ok (output :: outputs), m)

variable (blockSize : ℕ) (out : SchedulerOutput) (m : ModelRunner)

/-- The drafts of an execution and the batch that goes to the model. -/
def prepare : Except String ((AList fun _ : RequestId => List Token) × InputBatch) × ModelRunner :=
  match m.proposeAll out.scheduledRunning with
  | (.error e, m) => (.error e, m)
  | (.ok drafts, m) =>
    match m.buildTensors blockSize out with
    | (.error e, m) => (.error e, m)
    | (.ok batch, m) => (.ok (drafts, batch), m)

def executeModel : Except String ExecutorOutput × ModelRunner :=
  match prepare blockSize out m with
  | (.error e, m) => (.error e, m)
  | (.ok (drafts, batch), m) =>
    match runSeqs ops drafts batch 0 batch.seqs m with
    | (.error e, m) => (.error e, m)
    | (.ok outputs, m) => (.ok ⟨outputs⟩, m)

/-- Structured outputs need a feature that is off by default. -/
def addRequest (id : RequestId) (promptTokenIds : List Token) (params : SamplingParams)
    (m : ModelRunner) : Except String Unit × ModelRunner :=
  if params.structuredOutputs.isSome then
    (.error "structured output support requires the structured-outputs feature", m)
  else (.ok (), (m.addRequest id promptTokenIds).setSamplingParams id params)

def executor : Executor ModelRunner where
  executeModel := executeModel ops blockSize
  addRequest := addRequest
  abortRequest id m := m.removeRequest id

end UniProc

end Rllm
