import Mathlib.Data.Rat.Defs
import Mathlib.Algebra.Order.Ring.Int
import Mathlib.Algebra.Order.Ring.Unbundled.Rat
import Mathlib.Data.List.Basic

/-! # Requests and sampling parameters

Identifiers, the sampling parameters a client may set with their validation,
inference requests and their scheduling status.
-/

namespace Rllm

/-- A request id: a UUID, here a number. -/
abbrev RequestId := ℕ

/-- A block id: the index of a block in its pool. -/
abbrev BlockId := ℕ

abbrev Token := UInt32

/-- A 32-bit float as far as it is compared: NaN, an infinity or a rational. -/
inductive F32 where
  | nan
  | inf (negative : Bool)
  | fin (q : ℚ)
  deriving DecidableEq, Repr

namespace F32

def lt : F32 → F32 → Bool
  | .nan, _ | _, .nan => false
  | .inf s, .inf t => s && !t
  | .inf s, .fin _ => s
  | .fin _, .inf t => !t
  | .fin p, .fin q => decide (p < q)

/-- IEEE equality: NaN differs from everything, itself included. -/
def eq : F32 → F32 → Bool
  | .nan, _ | _, .nan => false
  | x, y => decide (x = y)

def le (x y : F32) : Bool := lt x y || eq x y

end F32

structure SpeculativeDecodingConfig where
  enabled : Bool := true
  proposer : String := "ngram"
  numSpeculativeTokens : ℕ := 3
  minNgram : ℕ := 2
  maxNgram : ℕ := 4
  deriving DecidableEq, Repr

/-- One structured-output constraint. A JSON schema is kept as its serialised text. -/
structure StructuredOutputParams where
  jsonSchema : Option String := none
  jsonObject : Option Bool := none
  xml : Option String := none
  regex : Option String := none
  grammar : Option String := none
  choice : Option (List String) := none
  deriving DecidableEq, Repr

structure SamplingParams where
  n : ℕ := 1
  presencePenalty : F32 := .fin 0
  frequencyPenalty : F32 := .fin 0
  repetitionPenalty : F32 := .fin 1
  temperature : F32 := .fin 1
  topP : F32 := .fin 1
  topK : ℤ := -1
  minP : F32 := .fin 0
  seed : Option UInt64 := none
  stop : List String := []
  stopTokenIds : List Token := []
  ignoreEos : Bool := false
  maxTokens : Option ℕ := some 16
  minTokens : ℕ := 0
  logitBias : List (Token × F32) := []
  allowedTokenIds : Option (List Token) := none
  badWords : List String := []
  structuredOutputs : Option StructuredOutputParams := none
  skipReadingPrefixCache : Bool := false
  speculativeDecoding : Option SpeculativeDecodingConfig := none
  deriving DecidableEq, Repr

inductive CoreError where
  | invalidSamplingParams (msg : String)
  deriving DecidableEq, Repr

def CoreError.display : CoreError → String
  | .invalidSamplingParams msg => "invalid sampling parameters: " ++ msg

namespace StructuredOutputParams

def byteLimit : ℕ := 1048576

/-- The check shared by the three free-text constraints. -/
def validateText (name : String) (value : Option String) : Except CoreError Unit :=
  if value.any (·.isEmpty) then
    .error (.invalidSamplingParams ("structured_outputs." ++ name ++ " must not be empty"))
  else if value.any (byteLimit < ·.utf8ByteSize) then
    .error (.invalidSamplingParams ("structured_outputs." ++ name ++ " exceeds the 1 MiB limit"))
  else .ok ()

def validate (p : StructuredOutputParams) : Except CoreError Unit := do
  let active := [p.jsonSchema.isSome, p.jsonObject.isSome, p.xml.isSome, p.regex.isSome,
    p.grammar.isSome, p.choice.isSome].count true
  if active ≠ 1 then
    throw (.invalidSamplingParams ("structured_outputs must set exactly one of json, " ++
      "json_object, xml, regex, grammar, or choice"))
  if p.jsonObject = some false then
    throw (.invalidSamplingParams "structured_outputs.json_object must be true when set")
  validateText "xml" p.xml
  validateText "regex" p.regex
  validateText "grammar" p.grammar
  if p.choice.any (fun cs => cs.isEmpty || cs.any (·.isEmpty)) then
    throw (.invalidSamplingParams "structured_outputs.choice must contain non-empty choices")
  if p.jsonSchema.any (byteLimit < ·.utf8ByteSize) ||
      p.choice.any (fun cs => byteLimit < (cs.map String.utf8ByteSize).sum) then
    throw (.invalidSamplingParams "structured output constraint exceeds the 1 MiB limit")

end StructuredOutputParams

namespace SamplingParams

/-- The tokens proposed per decode step: none unless speculation is enabled. -/
def specTokens (p : SamplingParams) : ℕ :=
  match p.speculativeDecoding with
  | some c => if c.enabled && 0 < c.numSpeculativeTokens then c.numSpeculativeTokens else 0
  | none => 0

def validate (p : SamplingParams) : Except CoreError Unit := do
  if p.n = 0 then
    throw (.invalidSamplingParams "n must be >= 1")
  if p.temperature.lt (.fin 0) then
    throw (.invalidSamplingParams "temperature must be >= 0")
  if !((F32.fin 0).le p.presencePenalty && p.presencePenalty.le (.fin 2)) then
    throw (.invalidSamplingParams "presence_penalty must be in [0, 2]")
  if !((F32.fin 0).le p.frequencyPenalty && p.frequencyPenalty.le (.fin 2)) then
    throw (.invalidSamplingParams "frequency_penalty must be in [0, 2]")
  if p.repetitionPenalty.le (.fin 0) then
    throw (.invalidSamplingParams "repetition_penalty must be > 0")
  if !((F32.fin 0).le p.topP && p.topP.le (.fin 1)) then
    throw (.invalidSamplingParams "top_p must be in [0, 1]")
  if p.temperature.eq (.fin 0) && 1 < p.n then
    throw (.invalidSamplingParams "n must be 1 when temperature is 0 (greedy)")
  match p.structuredOutputs with
  | none => pure ()
  | some so =>
    so.validate
    if p.speculativeDecoding.any (·.enabled) then
      throw (.invalidSamplingParams ("structured outputs cannot currently be combined " ++
        "with speculative decoding"))
    if p.n ≠ 1 then
      throw (.invalidSamplingParams "structured outputs currently require n = 1")
    if p.allowedTokenIds.isSome || 0 < p.minTokens || p.ignoreEos || !p.stop.isEmpty ||
        !p.stopTokenIds.isEmpty then
      throw (.invalidSamplingParams ("structured outputs cannot be combined with " ++
        "allowed_token_ids, min_tokens, ignore_eos, or stop conditions"))

end SamplingParams

structure InferenceRequest where
  requestId : RequestId
  tokenIds : Option (List Token)
  samplingParams : SamplingParams := {}
  arrivalTime : ℕ := 0
  priority : ℤ := 0
  cacheSalt : Option String := none
  deriving DecidableEq, Repr

namespace InferenceRequest

/-- The prompt as every component reads it: no tokens when none are given. -/
def promptTokens (r : InferenceRequest) : List Token := r.tokenIds.getD []

end InferenceRequest

inductive RequestStatus where
  | waiting
  | running
  | waitingForRemoteKV
  | preempted
  | finishedStopped
  | finishedLength
  | finishedAborted
  | finishedError
  deriving DecidableEq, Repr

def RequestStatus.isFinished : RequestStatus → Bool
  | .finishedStopped | .finishedLength | .finishedAborted | .finishedError => true
  | _ => false

end Rllm
