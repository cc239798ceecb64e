import Mathlib.Data.Finset.Basic
import Rllm.Cache.Manager
import Rllm.Scheduler.Output
import Rllm.Scheduler.Queue

/-! # The scheduler

Continuous batching: a step finishes the requests that are done, schedules
the running ones for decode, preempting those whose cache cannot grow, and
admits waiting ones for prefill while budget, slots and blocks last.
-/

namespace Rllm

structure SchedulerRequest where
  request : InferenceRequest
  promptTokenIds : List Token
  numComputedTokens : ℕ
  cachedBlockIds : List BlockId
  status : RequestStatus
  deriving DecidableEq, Repr

structure PrefixCacheAdmission where
  requestId : Option RequestId := none
  cachedTokens : ℕ := 0
  deriving DecidableEq, Repr

structure Scheduler where
  requests : AList fun _ : RequestId => SchedulerRequest
  waiting : RequestQueue
  running : List RequestId
  finished : Finset RequestId
  kvCacheManager : KVCacheManager
  totalPreemptions : ℕ
  prefixCacheLookups : ℕ
  prefixCacheHits : ℕ
  paused : Bool
  prefixCacheAdmission : PrefixCacheAdmission

/-- The unspecified order in which a hash table yields its keys. -/
structure HashOrder where
  iter : List RequestId → List RequestId
  perm : ∀ l, (iter l).Perm l

def HashOrder.id : HashOrder := ⟨fun l => l, fun _ => .rfl⟩

/-- A scheduling step in progress: the scheduler, the output built so far and the local
variables of the step. -/
structure StepState where
  sched : Scheduler
  output : SchedulerOutput := {}
  budgetUsed : ℕ := 0
  toPreempt : List RequestId := []
  totalDecode : ℕ := 0
  totalPrefill : ℕ := 0

variable (H : HashFns) (cfg : Config)

namespace Scheduler

def new : Scheduler where
  requests := ∅
  waiting := .empty
  running := []
  finished := ∅
  kvCacheManager := .new cfg.numCacheBlocks
  totalPreemptions := 0
  prefixCacheLookups := 0
  prefixCacheHits := 0
  paused := false
  prefixCacheAdmission := {}

variable (s : Scheduler)

/-- Update the entry of a request, if it is tracked. -/
def modifyRequest (id : RequestId) (f : SchedulerRequest → SchedulerRequest) : Scheduler :=
  match s.requests.lookup id with
  | some r => { s with requests := s.requests.insert id (f r) }
  | none => s

def addRequest (request : InferenceRequest) : Scheduler :=
  { s with
    requests := s.requests.insert request.requestId
      { request, promptTokenIds := request.promptTokens, numComputedTokens := 0,
        cachedBlockIds := [], status := .waiting }
    waiting := s.waiting.push cfg.scheduler.schedulingPolicy request.requestId request.priority
      request.arrivalTime }

def abortRequest (id : RequestId) : Scheduler :=
  { s with
    waiting := s.waiting.remove id
    running := s.running.filter (· ≠ id)
    finished := s.finished.erase id
    requests := s.requests.erase id
    kvCacheManager := s.kvCacheManager.free id }

def pause : Scheduler := { s with paused := true }

def resume : Scheduler := { s with paused := false }

def numWaiting : ℕ := s.waiting.len

def numRunning : ℕ := s.running.length

/-- Documented as waiting and running requests, counted as tracked ones. -/
def numActive : ℕ := s.requests.keys.length

def hasWork : Bool := !s.waiting.isEmpty || !s.running.isEmpty

def resetPrefixCache : Except String Scheduler :=
  match s.kvCacheManager.resetPrefixCache with
  | .ok kvCacheManager => .ok { s with kvCacheManager }
  | .error e => .error e

def finishRequestInternal (id : RequestId) : Scheduler :=
  { s with
    running := s.running.filter (· ≠ id)
    waiting := s.waiting.remove id
    kvCacheManager := s.kvCacheManager.free id
    finished := insert id s.finished }

/-- Free the blocks of a running request and queue it again, from scratch. -/
def preemptRequest (id : RequestId) : Scheduler :=
  let s : Scheduler :=
    { s with
      running := s.running.filter (· ≠ id)
      kvCacheManager := s.kvCacheManager.free id
      totalPreemptions := s.totalPreemptions + 1 }
  match s.requests.lookup id with
  | some r =>
    { s with
      requests := s.requests.insert id
        { r with status := .waiting, numComputedTokens := 0, cachedBlockIds := [] }
      waiting := s.waiting.push cfg.scheduler.schedulingPolicy id r.request.priority
        r.request.arrivalTime }
  | none => s

/-- Look a request up in the prefix cache and note what it can reuse. -/
def probe (id : RequestId) (promptTokens : List Token) (skipCache : Bool) : ℕ × Scheduler :=
  let (result, kvCacheManager) :=
    s.kvCacheManager.getComputedBlocks H cfg.cache id promptTokens skipCache
  let s : Scheduler :=
    { s with
      kvCacheManager
      prefixCacheLookups := s.prefixCacheLookups + 1
      prefixCacheHits := s.prefixCacheHits + if 0 < result.numComputedTokens then 1 else 0 }
  (result.numComputedTokens, s.modifyRequest id fun r =>
    { r with
      cachedBlockIds := result.cachedBlockIds
      numComputedTokens := result.numComputedTokens })

/-- Scan the queue for a request that reuses more than the best so far. -/
def selectLoop : List RequestId → RequestId → ℕ → Scheduler → RequestId × ℕ × Scheduler
  | [], best, bestCached, s => (best, bestCached, s)
  | id :: ids, best, bestCached, s =>
    match s.requests.lookup id with
    | none => selectLoop ids best bestCached s
    | some r =>
      let (cached, s) :=
        if r.cachedBlockIds.isEmpty then
          s.probe H cfg id r.promptTokenIds r.request.samplingParams.skipReadingPrefixCache
        else (r.numComputedTokens, s)
      if bestCached < cached then selectLoop ids id cached s
      else selectLoop ids best bestCached s

/-- The waiting request with the largest reusable prefix, the first in the queue on ties. -/
def selectWaitingRequest : Option RequestId × Scheduler :=
  match s.waiting.peek with
  | none => (none, s)
  | some first =>
    let s : Scheduler := { s with prefixCacheAdmission := ⟨some first, 0⟩ }
    if !cfg.cache.enablePrefixCaching then (some first, s)
    else
      let bestCached := ((s.requests.lookup first).map (·.numComputedTokens)).getD 0
      let (best, bestCached, s) := selectLoop H cfg s.waiting.ids first bestCached s
      (some best, { s with prefixCacheAdmission := ⟨some best, bestCached⟩ })

def buildOutput (prefillTokens decodeTokens : ℕ) : SchedulerOutput :=
  { stats :=
      { numWaiting := s.waiting.len, numRunning := s.running.length, numFinished := 0,
        totalPreemptions := s.totalPreemptions, prefillTokens, decodeTokens } }

end Scheduler

namespace StepState

variable (st : StepState)

def setKV (kvCacheManager : KVCacheManager) : StepState :=
  { st with sched := { st.sched with kvCacheManager } }

def finishOne (id : RequestId) : StepState :=
  { st with
    sched := st.sched.finishRequestInternal id
    output := { st.output with finished := st.output.finished ++ [id] } }

def processFinished (ord : HashOrder) : StepState :=
  let toFinish := (ord.iter st.sched.requests.keys).filter fun id =>
    (st.sched.requests.lookup id).any (·.status.isFinished)
  toFinish.foldl finishOne st

/-- The block table a request leaves the step with, copied to the output. -/
def copyBlockTable (id : RequestId) : StepState :=
  match st.sched.kvCacheManager.getBlockIds id with
  | some blocks =>
    { st with output := { st.output with blockTables := st.output.blockTables.insert id blocks } }
  | none => st

/-- Count the tokens of a decode step and put the request into the output. -/
def scheduleDecode (id : RequestId) (tokens : ℕ) : StepState :=
  copyBlockTable
    { st with
      sched := st.sched.modifyRequest id fun r =>
        { r with numComputedTokens := r.numComputedTokens + tokens }
      budgetUsed := st.budgetUsed + tokens
      totalDecode := st.totalDecode + tokens
      output :=
        { st.output with
          scheduledRunning := st.output.scheduledRunning ++ [id]
          numScheduledTokens := st.output.numScheduledTokens.insert id tokens } } id

/-- One request of the decode loop: a request at the length limit is marked finished, one
whose cache cannot grow is noted for preemption. -/
def runningIter (id : RequestId) : StepState :=
  match st.sched.requests.lookup id with
  | none => st
  | some r =>
    if cfg.maxModelLen ≤ r.numComputedTokens then
      { st with sched := st.sched.modifyRequest id fun r => { r with status := .finishedLength } }
    else
      let tokens := 1 + r.request.samplingParams.specTokens
      let total := r.numComputedTokens + tokens
      if divCeil r.numComputedTokens cfg.cache.blockSize < divCeil total cfg.cache.blockSize then
        match st.sched.kvCacheManager.allocateSlots cfg.cache id total r.numComputedTokens with
        | (some _, kv) => (st.setKV kv).scheduleDecode id tokens
        | (none, kv) => { st.setKV kv with toPreempt := st.toPreempt ++ [id] }
      else st.scheduleDecode id tokens

def runningLoop : List RequestId → StepState → StepState
  | [], st => st
  | id :: ids, st =>
    if cfg.scheduler.maxNumScheduledTokens ≤ st.budgetUsed then st
    else runningLoop ids (st.runningIter cfg id)

def preemptOne (id : RequestId) : StepState :=
  { st with
    sched := st.sched.preemptRequest cfg id
    output := { st.output with preempted := st.output.preempted ++ [id] } }

def scheduleRunning : StepState :=
  let st := runningLoop cfg st.sched.running st
  st.toPreempt.foldl (preemptOne cfg) st

/-- Move a request whose prompt is cached as a whole to the running ones. -/
def admitCached (id : RequestId) : StepState :=
  let s : Scheduler := { st.sched with waiting := st.sched.waiting.remove id }
  let s := s.modifyRequest id fun r => { r with status := .running }
  { st with
    sched := { s with running := s.running ++ [id] }
    output := { st.output with scheduledCached := st.output.scheduledCached ++ [id] } }

/-- Move a request with fresh blocks for its next tokens to the running ones. -/
def admitNew (id : RequestId) (tokens totalAfter : ℕ) : StepState :=
  let s : Scheduler := { st.sched with waiting := st.sched.waiting.remove id }
  let s := s.modifyRequest id fun r =>
    { r with status := .running, numComputedTokens := totalAfter }
  let st := copyBlockTable
    { st with
      sched := { s with running := s.running ++ [id] }
      budgetUsed := st.budgetUsed + tokens
      totalPrefill := st.totalPrefill + tokens
      output :=
        { st.output with
          scheduledNew := st.output.scheduledNew ++ [id]
          numScheduledTokens := st.output.numScheduledTokens.insert id tokens } } id
  if cfg.cache.enablePrefixCaching then
    st.setKV (st.sched.kvCacheManager.cacheBlocks cfg.cache id totalAfter)
  else st

/-- The tokens of a prefill: the rest of the prompt, cut by the budget, by the chunk size and
by the model length. -/
def prefillTokens (promptLen numCached : ℕ) : ℕ :=
  let availableBudget := cfg.scheduler.maxNumScheduledTokens - st.budgetUsed
  let tokens := min (promptLen - numCached) availableBudget
  let tokens := if cfg.scheduler.enableChunkedPrefill then
    min tokens cfg.scheduler.longPrefillTokenThreshold else tokens
  min tokens (cfg.maxModelLen - numCached)

/-- The cached tokens of the selected request, probing it unless it holds cached blocks. -/
def cachedOf (id : RequestId) : ℕ × StepState :=
  let r := st.sched.requests.lookup id
  if cfg.cache.enablePrefixCaching && (r.map (·.cachedBlockIds.isEmpty)).getD true then
    let (cached, sched) := st.sched.probe H cfg id ((r.map (·.promptTokenIds)).getD [])
      ((r.map (·.request.samplingParams.skipReadingPrefixCache)).getD false)
    (cached, { st with sched })
  else ((r.map (·.numComputedTokens)).getD 0, st)

/-- Admit a selected request: `done` ends the admission loop. -/
def admitSelected (id : RequestId) : ForInStep StepState :=
  let (numCached, st) := st.cachedOf H cfg id
  let promptLen := ((st.sched.requests.lookup id).map (·.promptTokenIds.length)).getD 0
  if promptLen - numCached = 0 then .yield (st.admitCached id)
  else
    let tokens := st.prefillTokens cfg promptLen numCached
    if tokens = 0 then .done st
    else
      match st.sched.kvCacheManager.allocateSlots cfg.cache id (numCached + tokens) numCached with
      | (some _, kv) => .yield ((st.setKV kv).admitNew cfg id tokens (numCached + tokens))
      | (none, kv) => .done (st.setKV kv)

/-- One iteration of the admission loop. -/
def waitingIter : ForInStep StepState :=
  if cfg.scheduler.maxNumSeqs ≤ st.sched.running.length then .done st
  else
    match st.sched.selectWaitingRequest H cfg with
    | (none, sched) => .done { st with sched }
    | (some id, sched) => admitSelected H cfg { st with sched } id

/-- The condition under which the admission loop goes on. -/
def canAdmit : Bool :=
  !st.sched.waiting.isEmpty && decide (st.budgetUsed < cfg.scheduler.maxNumScheduledTokens)

/-- The admission loop. Every iteration but the last takes a request off the queue, so the
length of the queue bounds their number. -/
def waitingLoop : ℕ → StepState → StepState
  | 0, st => st
  | n + 1, st =>
    if st.canAdmit cfg then
      match st.waitingIter H cfg with
      | .done st => st
      | .yield st => waitingLoop n st
    else st

def scheduleWaiting : StepState := waitingLoop H cfg (st.sched.waiting.len + 1) st

/-- The output with its counters. -/
def finalOutput : SchedulerOutput :=
  { st.output with
    tokenBudgetUsed := st.budgetUsed
    stats :=
      { numWaiting := st.sched.waiting.len, numRunning := st.sched.running.length
        numFinished := st.output.finished.length
        totalPreemptions := st.sched.totalPreemptions
        prefillTokens := st.totalPrefill, decodeTokens := st.totalDecode } }

end StepState

namespace Scheduler

/-- A scheduling step up to its final state. -/
def stepState (ord : HashOrder) (s : Scheduler) : StepState :=
  ((StepState.processFinished { sched := s } ord).scheduleRunning cfg).scheduleWaiting H cfg

def step (ord : HashOrder) (s : Scheduler) : SchedulerOutput × Scheduler :=
  if s.paused then (s.buildOutput 0 0, s)
  else
    let st := s.stepState H cfg ord
    (st.finalOutput, st.sched)

end Scheduler

end Rllm
