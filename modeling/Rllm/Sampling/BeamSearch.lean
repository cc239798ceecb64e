import Mathlib.Data.List.Lex
import Mathlib.Data.Prod.Lex
import Rllm.Library.Checked
import Rllm.Library.Pruning
import Rllm.Sampling.Masks

/-! # Beam search

The search keeps the best hypotheses, the active beams. A step extends each of
them by the tokens that the model finds likely, ranks the extensions, and sorts
the first of them into completed and active beams. The logits are numbers of any
arithmetic with a total order, be it the floats or an exact one.
-/

namespace Rllm

open Pruning

structure BeamSearchConfig where
  beamWidth : ℕ := 1
  maxTokens : ℕ := 16
  lengthPenalty : F32 := .fin 1
  earlyStopping : Bool := false
  ignoreEos : Bool := false
  deriving DecidableEq, Repr

inductive BeamSearchError where
  | invalidConfig (msg : String)
  | invalidSamplingParams (msg : String)
  | logitBatchSize (expected actual : ℕ)
  | emptyVocabulary (beamIndex : ℕ)
  | vocabularyTooLarge (beamIndex : ℕ)
  | noFiniteCandidates (beamIndex : ℕ)
  | alreadyFinished
  deriving DecidableEq, Repr

/-- Twice the width must be a `usize`. -/
def BeamSearchConfig.validate (config : BeamSearchConfig) : Except BeamSearchError Unit := do
  if config.beamWidth = 0 then throw (.invalidConfig "beam_width must be at least 1")
  if config.maxTokens = 0 then throw (.invalidConfig "max_tokens must be at least 1")
  if !config.lengthPenalty.isFinite then throw (.invalidConfig "length_penalty must be finite")
  if Checked.usizeBound ≤ config.beamWidth * 2 then throw (.invalidConfig "beam_width is too large")

inductive BeamFinishReason where
  | eos
  | stopToken
  | length
  deriving DecidableEq, Repr

/-- A hypothesis, with the tokens that were generated. -/
structure Beam (V : Type) where
  tokenIds : List Token
  cumulativeLogprob : V
  finishReason : Option BeamFinishReason
  deriving DecidableEq, Repr

/-- What the beam search computes with logits besides the sampler's operations. -/
structure BeamOps (V : Type) extends Arithmetic V where
  isFinite : V → Bool
  powf : V → F32 → V

/-- The sampling parameters, with the one that only the beam search reads. -/
structure BeamSamplingParams extends SamplingParams where
  bestOf : Option ℕ := none

/-- The arguments of a call of `advance`. -/
structure BeamCall (V : Type) where
  logitsBatch : List (List V)
  params : BeamSamplingParams
  eosTokenId : Token
  badWordTokenIds : List (List Token) := []

structure BeamSearchStep (V : Type) where
  activeBeams : List (Beam V)
  activeParentIndices : List ℕ
  completedBeams : List (Beam V)
  finished : Bool
  deriving DecidableEq, Repr

structure BeamSearch (V : Type) where
  config : BeamSearchConfig
  promptTokenIds : List Token
  activeBeams : List (Beam V)
  completedBeams : List (Beam V)
  finished : Bool
  deriving DecidableEq, Repr

structure Candidate (V : Type) where
  beam : Beam V
  parentIndex : ℕ
  tokenId : Token
  deriving DecidableEq, Repr

def validateSupportedSamplingParams (params : BeamSamplingParams) : Except BeamSearchError Unit :=
  if params.n ≠ 1 then
    .error (.invalidSamplingParams "n must be 1; beam_width controls the number of hypotheses")
  else if params.bestOf.isSome then
    .error (.invalidSamplingParams
      "best_of is not used by beam search; configure beam_width instead")
  else if !params.stop.isEmpty then
    .error (.invalidSamplingParams
      "string stop conditions require detokenization; use stop_token_ids")
  else if params.structuredOutputs.isSome then
    .error (.invalidSamplingParams
      "structured outputs require grammar state that beam search does not own")
  else if params.speculativeDecoding.any (·.enabled) then
    .error (.invalidSamplingParams "speculative decoding cannot be combined with beam search")
  else .ok ()

variable {V : Type}

def Beam.isFinished (b : Beam V) : Bool := b.finishReason.isSome

/-- The length-normalized score. -/
def Beam.score (O : BeamOps V) (lengthPenalty : F32) (b : Beam V) : V :=
  O.div b.cumulativeLogprob (O.powf (O.ofCount (max b.tokenIds.length 1)) lengthPenalty)

section Order

variable [LinearOrder V] (O : BeamOps V)

/-- The order of `compare_candidates`: by descending score, then parent, then token. -/
def Candidate.key (c : Candidate V) : Lex (Vᵒᵈ × Lex (ℕ × ℕ)) :=
  toLex (OrderDual.toDual c.beam.cumulativeLogprob, toLex (c.parentIndex, c.tokenId.toNat))

/-- The order of `sort_final_beams`: by descending score, then token ids. -/
def Beam.key (lengthPenalty : F32) (b : Beam V) : Lex (Vᵒᵈ × List ℕ) :=
  toLex (OrderDual.toDual (b.score O lengthPenalty), b.tokenIds.map UInt32.toNat)

def sortFinalBeams (lengthPenalty : F32) (beams : List (Beam V)) : List (Beam V) :=
  ranked (Beam.key O lengthPenalty) beams

/-- The order of the scores of one beam: descending, then by token. -/
def scoreKey (x : Token × V) : Lex (Vᵒᵈ × ℕ) := toLex (OrderDual.toDual x.2, x.1.toNat)

omit O in
theorem Candidate.key_lt_iff {c c' : Candidate V} : c.key < c'.key ↔
    c'.beam.cumulativeLogprob < c.beam.cumulativeLogprob ∨
      c.beam.cumulativeLogprob = c'.beam.cumulativeLogprob ∧
        (c.parentIndex < c'.parentIndex ∨
          c.parentIndex = c'.parentIndex ∧ c.tokenId.toNat < c'.tokenId.toNat) := by
  rw [key, key, Prod.Lex.toLex_lt_toLex, Prod.Lex.toLex_lt_toLex]
  rfl

theorem scoreKey_lt_iff {x y : Token × V} :
    scoreKey x < scoreKey y ↔ y.2 < x.2 ∨ x.2 = y.2 ∧ x.1.toNat < y.1.toNat := by
  rw [scoreKey, scoreKey, Prod.Lex.toLex_lt_toLex]
  rfl

/-- The most likely tokens with their log probabilities. -/
def topLogprobs (logits : List V) (limit beamIndex : ℕ) :
    Except BeamSearchError (List (Token × V)) :=
  match maxBy compare (logits.filter O.isFinite) with
  | none => .error (.noFiniteCandidates beamIndex)
  | some max =>
    let normalizer :=
      ((logits.filter O.isFinite).map fun x => O.exp (O.sub x max)).foldl O.add O.zero
    if !O.isFinite normalizer || O.le normalizer O.zero then .error (.noFiniteCandidates beamIndex)
    else
      let logNormalizer := O.add max (O.ln normalizer)
      let scores := (logits.zipIdx.filter fun x => O.isFinite x.1).map fun x =>
        (UInt32.ofNat x.2, O.sub x.1 logNormalizer)
      .ok ((ranked scoreKey scores).take limit)

end Order

/-- Why an extension is finished, if it is: by its last token and its length. -/
def BeamSearchConfig.finishReason (config : BeamSearchConfig) (call : BeamCall V)
    (tokenId : Token) (generated : ℕ) : Option BeamFinishReason :=
  if tokenId == call.eosTokenId && !config.ignoreEos && !call.params.ignoreEos then some .eos
  else if tokenId ∈ call.params.stopTokenIds then some .stopToken
  else if config.maxTokens ≤ generated then some .length
  else none

namespace BeamSearch

/-- The search starts from the empty hypothesis. -/
def new (O : BeamOps V) (config : BeamSearchConfig) (promptTokenIds : List Token) :
    Except BeamSearchError (BeamSearch V) := do
  config.validate
  pure { config, promptTokenIds, activeBeams := [⟨[], O.zero, none⟩], completedBeams := [],
         finished := false }

def candidatesPerBeam (s : BeamSearch V) : ℕ :=
  min (s.config.beamWidth * 2) (Checked.usizeBound - 1)

/-- The logits of a beam behind the processors. Stop tokens are masked like the end token as long
as fewer tokens are generated than asked for. -/
def processedLogits (O : BeamOps V) (s : BeamSearch V) (call : BeamCall V) (beam : Beam V)
    (logits : List V) : List V :=
  let input : SamplingInput (List V) :=
    { logits, params := call.params.toSamplingParams,
      contextTokenIds := s.promptTokenIds ++ beam.tokenIds,
      numGenerated := beam.tokenIds.length % 2 ^ 32, eosTokenId := call.eosTokenId,
      badWordTokenIds := call.badWordTokenIds }
  let processed := O.prepareLogits input ((F32.fin 0).lt call.params.temperature) true
  if beam.tokenIds.length < call.params.minTokens then
    O.applyBadTokenIds processed call.params.stopTokenIds
  else processed

/-- A beam with one more token. -/
def extendBeam (O : BeamOps V) (beam : Beam V) (index : ℕ) (x : Token × V) : Candidate V where
  beam := ⟨beam.tokenIds ++ [x.1], O.add beam.cumulativeLogprob x.2, none⟩
  parentIndex := index
  tokenId := x.1

variable [LinearOrder V] (O : BeamOps V) (s : BeamSearch V) (call : BeamCall V)

/-- The extensions of one beam. -/
def candidatesOf (index : ℕ) (beam : Beam V) (logits : List V) :
    Except BeamSearchError (List (Candidate V)) :=
  if logits.isEmpty then .error (.emptyVocabulary index)
  else if 2 ^ 32 ≤ logits.length then .error (.vocabularyTooLarge index)
  else
    (topLogprobs O (s.processedLogits O call beam logits) s.candidatesPerBeam index).map
      (·.map (extendBeam O beam index))

/-- The extensions of the beams from an index on. -/
def candidatesFrom : ℕ → List (Beam V × List V) → Except BeamSearchError (List (Candidate V))
  | _, [] => .ok []
  | i, (beam, logits) :: beams => do
    let candidates ← s.candidatesOf O call i beam logits
    let others ← candidatesFrom (i + 1) beams
    pure (candidates ++ others)

/-- The extensions of all active beams, which a step ranks. -/
def candidates : Except BeamSearchError (List (Candidate V)) := do
  if s.finished then throw .alreadyFinished
  match call.params.validate with
  | .error e => throw (.invalidSamplingParams e.display)
  | .ok _ => pure ()
  validateSupportedSamplingParams call.params
  if call.logitsBatch.length ≠ s.activeBeams.length then
    throw (.logitBatchSize s.activeBeams.length call.logitsBatch.length)
  s.candidatesFrom O call 0 (s.activeBeams.zip call.logitsBatch)

/-- Sort one extension into the completed beams or, while there is room, the active ones. -/
def settle (next : List (Beam V) × List (Candidate V)) (c : Candidate V) :
    List (Beam V) × List (Candidate V) :=
  let beam := { c.beam with
    finishReason := s.config.finishReason call c.tokenId c.beam.tokenIds.length }
  if beam.isFinished then (next.1 ++ [beam], next.2)
  else if next.2.length < s.config.beamWidth then (next.1, next.2 ++ [{ c with beam }])
  else next

/-- Expand and prune one decoding step. -/
def advance : Except BeamSearchError (BeamSearchStep V) × BeamSearch V :=
  match s.candidates O call with
  | .error e => (.error e, s)
  | .ok candidates =>
    let kept := (ranked Candidate.key candidates).take s.candidatesPerBeam
    let (completed, nextActive) := kept.foldl (s.settle call) (s.completedBeams, [])
    let completedBeams :=
      (sortFinalBeams O s.config.lengthPenalty completed).take s.config.beamWidth
    let activeBeams := nextActive.map (·.beam)
    let finished := activeBeams.isEmpty ||
      (s.config.earlyStopping && s.config.beamWidth ≤ completedBeams.length)
    (.ok { activeBeams, activeParentIndices := nextActive.map (·.parentIndex), completedBeams,
           finished },
      { s with activeBeams, completedBeams, finished })

/-- The best hypotheses so far. -/
def bestBeams : List (Beam V) :=
  let beams := if s.completedBeams.length < s.config.beamWidth then
      s.completedBeams ++ s.activeBeams
    else s.completedBeams
  (sortFinalBeams O s.config.lengthPenalty beams).take s.config.beamWidth

end BeamSearch

/-! ## Arithmetics -/

/-- Beam search with floats. -/
def FloatOps.beamOps (F : FloatOps) (powf : F32 → F32 → F32) : BeamOps F32 where
  toArithmetic := F.arithmetic
  isFinite := F32.isFinite
  powf := powf

/-- Beam search with exact numbers. -/
def ExactOps.beamOps {K : Type} [Field K] [LinearOrder K] (X : ExactOps K)
    (powf : WithBot K → F32 → WithBot K) : BeamOps (WithBot K) where
  toArithmetic := X.arithmetic
  isFinite x := decide (x ≠ ⊥)
  powf := powf

end Rllm
