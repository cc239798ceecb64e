import Rllm.Engine.Emission

/-! # The HTTP and gRPC front ends

Requests of the two APIs with their sampling parameters, and the three ways the
text of a request goes back to the client: collected, as server-sent events, or
as a gRPC stream. The tokenizer is a parameter.
-/

namespace Rllm

/-! ## Requests -/

inductive StopSequence where
  | single (s : String)
  | multiple (ss : List String)
  deriving DecidableEq, Repr

/-- A JSON schema is kept as its serialised text. -/
inductive ResponseFormat where
  | text
  | jsonObject
  | jsonSchema (schema : String)
  deriving DecidableEq, Repr

/-- The fields that set sampling parameters, the same in both kinds of requests. -/
structure SamplingFields where
  temperature : Option F32 := none
  topP : Option F32 := none
  maxTokens : Option ℕ := none
  presencePenalty : Option F32 := none
  frequencyPenalty : Option F32 := none
  seed : Option UInt64 := none
  n : Option ℕ := none
  stop : Option StopSequence := none
  structuredOutputs : Option StructuredOutputParams := none
  responseFormat : Option ResponseFormat := none
  deriving DecidableEq, Repr

structure ChatCompletionRequest extends SamplingFields
  deriving DecidableEq, Repr

structure CompletionRequest extends SamplingFields
  deriving DecidableEq, Repr

def extractStopStrings : Option StopSequence → List String
  | some (.single s) => [s]
  | some (.multiple ss) => ss
  | none => []

def requestStructuredOutputs (structuredOutputs : Option StructuredOutputParams)
    (responseFormat : Option ResponseFormat) : Option StructuredOutputParams :=
  structuredOutputs.or <|
    match responseFormat with
    | some .jsonObject => some { jsonObject := some true }
    | some (.jsonSchema schema) => some { jsonSchema := some schema }
    | some .text | none => none

/-- The defaults, overridden by what the request sets. -/
def SamplingFields.toSamplingParams (req : SamplingFields) : SamplingParams :=
  let params : SamplingParams := {}
  { params with
    temperature := req.temperature.getD params.temperature
    topP := req.topP.getD params.topP
    maxTokens := req.maxTokens.or params.maxTokens
    presencePenalty := req.presencePenalty.getD params.presencePenalty
    frequencyPenalty := req.frequencyPenalty.getD params.frequencyPenalty
    seed := req.seed.or params.seed
    n := req.n.getD params.n
    stop := extractStopStrings req.stop
    structuredOutputs := requestStructuredOutputs req.structuredOutputs req.responseFormat }

def chatRequestToSamplingParams (req : ChatCompletionRequest) : SamplingParams :=
  req.toSamplingParams

def completionRequestToSamplingParams (req : CompletionRequest) : SamplingParams :=
  req.toSamplingParams

/-- A request of either API. -/
inductive ApiRequest where
  | chat (req : ChatCompletionRequest)
  | completion (req : CompletionRequest)

namespace ApiRequest

def samplingParams : ApiRequest → SamplingParams
  | .chat req => chatRequestToSamplingParams req
  | .completion req => completionRequestToSamplingParams req

def stopStrings : ApiRequest → List String
  | .chat req => extractStopStrings req.stop
  | .completion req => extractStopStrings req.stop

/-- The request that the server submits to the engine. -/
def toInferenceRequest (req : ApiRequest) (requestId : RequestId) (tokenIds : List Token)
    (arrivalTime : ℕ) : InferenceRequest where
  requestId
  tokenIds := some tokenIds
  samplingParams := req.samplingParams
  arrivalTime

theorem samplingParams_stop (req : ApiRequest) : req.samplingParams.stop = req.stopStrings := by
  cases req <;> rfl

end ApiRequest

def finishReasonToOpenai : FinishReason → String
  | .stop => "stop"
  | .length => "length"
  | .aborted => "stop"
  | .error => "error"

/-! ## Collected text -/

structure EngineCompletion where
  text : String
  usage : Usage
  finishReason : String
  deriving DecidableEq, Repr

/-- Take over one completion. -/
def collectCompletion (acc : List Token × String) (completion : CompletionOutput) :
    Except String (List Token × String) :=
  let ids := acc.1 ++ completion.tokenIds
  match completion.finishReason with
  | some .error => .error "inference executor failed while generating the request"
  | some reason => .ok (ids, finishReasonToOpenai reason)
  | none => .ok (ids, acc.2)

/-- Receive outputs up to the final one. -/
def collect : List Token × String → List RequestOutput → Except String (List Token × String)
  | _, [] => .error "Engine closed output stream before finishing request"
  | acc, output :: outputs => do
    let acc ← output.outputs.foldlM collectCompletion acc
    if output.finished then pure acc else collect acc outputs

/-- The answer to a request without streaming, unless it times out. -/
def submitAndCollect (decode : List Token → Except String String) (tokenIds : List Token)
    (outputs : List RequestOutput) : Except String EngineCompletion := do
  let (generatedIds, finishReason) ← collect ([], "length") outputs
  match decode generatedIds with
  | .error _ => .error "decoding generated tokens"
  | .ok text =>
    pure
      { text
        usage :=
          { promptTokens := saturateU32 tokenIds.length
            completionTokens := saturateU32 generatedIds.length
            totalTokens := saturateU32 (saturateU32 tokenIds.length +
              saturateU32 generatedIds.length) }
        finishReason }

/-! ## Streams -/

structure FunctionCall where
  name : String
  arguments : String
  deriving DecidableEq, Repr

structure ToolCall where
  id : String
  toolType : String
  function : FunctionCall
  deriving DecidableEq, Repr

/-- A tool call as a part of a chunk. -/
structure ToolCallDelta extends ToolCall where
  index : ℕ
  deriving DecidableEq, Repr

def toolCallsToDeltas (toolCalls : List ToolCall) : List ToolCallDelta :=
  toolCalls.zipIdx.map fun (call, index) => { call with index }

structure ParsedChatOutput where
  content : Option String
  toolCalls : Option (List ToolCall)
  deriving DecidableEq, Repr

structure ChunkDelta where
  role : Option String := none
  content : Option String
  toolCalls : Option (List ToolCallDelta) := none
  deriving DecidableEq, Repr

structure ChatCompletionChunk where
  delta : ChunkDelta
  finishReason : Option String
  deriving DecidableEq, Repr

def roleChunk : ChatCompletionChunk where
  delta := { role := some "assistant", content := none }
  finishReason := none

def engineFinishReason (output : RequestOutput) : Option String :=
  (output.outputs.head?.bind (·.finishReason)).map finishReasonToOpenai

def contentChunk (chunkText : String) (output : RequestOutput) : ChatCompletionChunk where
  delta := { content := some chunkText }
  finishReason := engineFinishReason output

/-- The one chunk of a request with tools. -/
def toolChunk (parsed : ParsedChatOutput) (output : RequestOutput) :
    ChatCompletionChunk where
  delta := { content := parsed.content, toolCalls := parsed.toolCalls.map toolCallsToDeltas }
  finishReason := if parsed.toolCalls.isSome then some "tool_calls" else engineFinishReason output

namespace ChatStream

variable (decode : List Token → Except String String)
  (parse : Option (String → ParsedChatOutput))

/-- Chunks that are not decodable are skipped. -/
def chunkText (completions : List CompletionOutput) : String :=
  completions.foldl (fun text completion =>
    if completion.tokenIds.isEmpty then text
    else
      match decode completion.tokenIds with
      | .ok t => text ++ t
      | .error _ => text) ""

/-- The events behind the first. With tools the tokens are buffered to the end, and parsed. -/
def events : List Token → List RequestOutput → List ChatCompletionChunk
  | _, [] => []
  | buffered, output :: outputs =>
    let buffered := buffered ++ output.outputs.flatMap (·.tokenIds)
    let chunks :=
      match parse with
      | some parse =>
        if output.finished then
          [toolChunk (parse ((decode buffered).toOption.getD "")) output]
        else []
      | none =>
        let text := chunkText decode output.outputs
        if !text.isEmpty || (engineFinishReason output).isSome then [contentChunk text output]
        else []
    chunks ++ if output.finished then [] else events buffered outputs

/-- The server-sent events of a chat request, before the closing `[DONE]`. -/
def stream (outputs : List RequestOutput) : List ChatCompletionChunk :=
  roleChunk :: events decode parse [] outputs

end ChatStream

namespace GrpcStream

variable (decode : List Token → Except String String)
  (parse : Option (String → ParsedChatOutput))

/-- The first chunk that is not decodable ends the stream. -/
def chunkText (completions : List CompletionOutput) : Except String String :=
  completions.foldlM (fun text completion =>
    if completion.tokenIds.isEmpty then .ok text
    else
      match decode completion.tokenIds with
      | .ok t => .ok (text ++ t)
      | .error e => .error s!"failed to decode output tokens: {e}") ""

/-- The chunks of one output. -/
def chunks (buffered : List Token) (output : RequestOutput) :
    Except String (List ChatCompletionChunk) :=
  match parse with
  | some parse =>
    if output.finished then
      match decode buffered with
      | .ok text => .ok [toolChunk (parse text) output]
      | .error e => .error s!"failed to decode tool call: {e}"
    else .ok []
  | none =>
    match chunkText decode output.outputs with
    | .ok text =>
      if !text.isEmpty || (engineFinishReason output).isSome then .ok [contentChunk text output]
      else .ok []
    | .error e => .error e

def events : List Token → List RequestOutput →
    List ChatCompletionChunk × Option String
  | _, [] => ([], none)
  | buffered, output :: outputs =>
    let buffered := buffered ++ output.outputs.flatMap (·.tokenIds)
    match chunks decode parse buffered output with
    | .error e => ([], some e)
    | .ok cs =>
      if output.finished then (cs, none)
      else
        let (rest, status) := events buffered outputs
        (cs ++ rest, status)

/-- The chunks of a chat request and the error status that ends them, if one does. -/
def stream (outputs : List RequestOutput) : List ChatCompletionChunk × Option String :=
  let (chunks, status) := events decode parse [] outputs
  (roleChunk :: chunks, status)

end GrpcStream

/-- The text of a stream: the content of its chunks, one behind the other. -/
def contentText (chunks : List ChatCompletionChunk) : String :=
  .ofList (chunks.flatMap fun chunk => (chunk.delta.content.getD "").toList)

end Rllm
