import Rllm.Executor.UniProc
import Rllm.Scheduler.Scheduler

/-! # The engine core

The engine owns the scheduler and the executor. A step schedules, executes,
appends the sampled tokens to its requests, decides which of them are done and
answers; when the execution fails it gives up everything that was scheduled.
-/

namespace Rllm

inductive FinishReason where
  | stop
  | length
  | aborted
  | error
  deriving DecidableEq, Repr

structure CompletionOutput where
  index : ℕ := 0
  text : String := ""
  tokenIds : List Token
  finishReason : Option FinishReason
  deriving DecidableEq, Repr

structure Usage where
  promptTokens : ℕ
  completionTokens : ℕ
  totalTokens : ℕ
  deriving DecidableEq, Repr

structure RequestOutput where
  requestId : RequestId
  outputs : List CompletionOutput
  finished : Bool
  usage : Usage
  deriving DecidableEq, Repr

structure EngineRequest where
  promptTokenIds : List Token
  generatedTokenIds : List Token := []
  samplingParams : SamplingParams
  maxTokens : ℕ
  deriving DecidableEq, Repr

/-- A count as a `u32`, saturated. -/
def saturateU32 (n : ℕ) : ℕ := min n (2 ^ 32 - 1)

namespace EngineRequest

variable (req : EngineRequest)

def usage : Usage where
  promptTokens := saturateU32 req.promptTokenIds.length
  completionTokens := saturateU32 req.generatedTokenIds.length
  totalTokens := saturateU32 (saturateU32 req.promptTokenIds.length +
    saturateU32 req.generatedTokenIds.length)

/-- Append tokens up to the first one that ends the request. -/
def consume (stopTokenIds : List Token) : EngineRequest → List Token →
    EngineRequest × Option FinishReason
  | req, [] => (req, none)
  | req, token :: tokens =>
    let req := { req with generatedTokenIds := req.generatedTokenIds ++ [token] }
    let reachedEos := decide (token ∈ stopTokenIds) && !req.samplingParams.ignoreEos
    let hitStopToken := decide (token ∈ req.samplingParams.stopTokenIds)
    if reachedEos || hitStopToken then (req, some .stop)
    else if req.maxTokens ≤ req.generatedTokenIds.length then (req, some .length)
    else consume stopTokenIds req tokens

end EngineRequest

structure EngineCore (E : Type) where
  executor : E
  scheduler : Scheduler
  requests : AList fun _ : RequestId => EngineRequest
  /-- The end-of-sequence token and the further stop tokens. -/
  stopTokenIds : List Token

variable (H : HashFns) (cfg : Config) {E : Type} (exec : Executor E)

namespace EngineCore

def new (executor : E) (stopTokenIds : List Token) : EngineCore E where
  executor
  scheduler := .new cfg
  requests := ∅
  stopTokenIds

variable (core : EngineCore E)

def addRequest (request : InferenceRequest) : Except String Unit × EngineCore E :=
  match request.samplingParams.validate with
  | .error e => (.error e.display, core)
  | .ok _ =>
    match exec.addRequest request.requestId request.promptTokens request.samplingParams
        core.executor with
    | (.error e, executor) => (.error e, { core with executor })
    | (.ok _, executor) =>
      (.ok (),
        { core with
          executor
          requests := core.requests.insert request.requestId
            { promptTokenIds := request.promptTokens, samplingParams := request.samplingParams,
              maxTokens := request.samplingParams.maxTokens.getD 16 }
          scheduler := core.scheduler.addRequest cfg request })

def abortRequest (id : RequestId) : EngineCore E :=
  { core with
    scheduler := core.scheduler.abortRequest id
    executor := exec.abortRequest id core.executor
    requests := core.requests.erase id }

/-- Give up a request of a failed execution. -/
def failRequest (id : RequestId) : List RequestOutput × EngineCore E :=
  (((core.requests.lookup id).map fun req =>
    { requestId := id, outputs := [{ tokenIds := [], finishReason := some .error }],
      finished := true, usage := req.usage }).toList, core.abortRequest exec id)

def failAll : List RequestId → EngineCore E → List RequestOutput × EngineCore E
  | [], core => ([], core)
  | id :: ids, core =>
    let (output, core) := core.failRequest exec id
    let (outputs, core) := failAll ids core
    (output ++ outputs, core)

/-- Book the tokens of one request and build its output. -/
def processOutput (o : PerRequestOutput) : List RequestOutput × EngineCore E :=
  match core.requests.lookup o.requestId with
  | none => ([], core)
  | some req =>
    let (req, finished) := req.consume core.stopTokenIds o.tokenIds
    ([{ requestId := o.requestId
        outputs := [{ tokenIds := o.tokenIds, finishReason := finished }]
        finished := finished.isSome, usage := req.usage }],
      { core with requests := core.requests.insert o.requestId req })

def processOutputs : List PerRequestOutput → EngineCore E → List RequestOutput × EngineCore E
  | [], core => ([], core)
  | o :: os, core =>
    let (output, core) := core.processOutput o
    let (outputs, core) := processOutputs os core
    (output ++ outputs, core)

/-- Everything a step scheduled, each id once. -/
def affectedIds (out : SchedulerOutput) : List RequestId :=
  (out.scheduledNew ++ out.scheduledCached ++ out.scheduledRunning).dedup

/-- The part of a step behind the scheduling. -/
def execute (ord : HashOrder) (out : SchedulerOutput) : List RequestOutput × EngineCore E :=
  match exec.executeModel out core.executor with
  | (.error _, executor) => failAll exec (ord.iter (affectedIds out)) { core with executor }
  | (.ok result, executor) =>
    let (outputs, core) := processOutputs result.perRequestOutputs { core with executor }
    let finishedIds := (outputs.filter (·.finished)).map (·.requestId)
    (outputs, finishedIds.foldl (abortRequest exec) core)

def step (ord : HashOrder) : List RequestOutput × EngineCore E :=
  let (out, scheduler) := core.scheduler.step H cfg ord
  if out.numScheduled = 0 then ([], { core with scheduler })
  else { core with scheduler }.execute exec ord out

end EngineCore

end Rllm
