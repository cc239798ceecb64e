import Rllm.Executor.UniProc

/-! # The multi-process executor

A bridge with one worker: every scheduled request it knows gets one token,
sampled from constant logits. The executor keeps the default `abort_request`,
which does nothing.
-/

namespace Rllm

structure MultiProcRequestState where
  promptTokenIds : List Token
  generatedTokenIds : List Token := []
  samplingParams : SamplingParams
  deriving DecidableEq, Repr

structure MultiProcExecutor where
  tensorParallelSize : ℕ
  requestStates : AList fun _ : RequestId => MultiProcRequestState
  eosTokenId : Token
  initialized : Bool

namespace MultiProcExecutor

def new (tensorParallelSize : ℕ) : MultiProcExecutor where
  tensorParallelSize
  requestStates := ∅
  eosTokenId := 0
  initialized := false

variable (e : MultiProcExecutor)

/-- Needs one configuration for each worker, and honours the block count of the first. -/
def initializeWorkers (numBlocks : List ℕ) : Except String ℕ × MultiProcExecutor :=
  let size := e.tensorParallelSize
  let got := numBlocks.length
  if got < size then
    (.error s!"Need {size} KV cache configs for {size} workers, got {got}", e)
  else (.ok (numBlocks.head?.getD 0), { e with initialized := true })

/-- The logits of every execution. -/
def dummyLogits : List F32 := List.replicate 32000 (.fin 0)

def samplingInput (state : MultiProcRequestState) : SamplingInput (List F32) where
  logits := dummyLogits
  params := state.samplingParams
  contextTokenIds := state.promptTokenIds ++ state.generatedTokenIds
  numGenerated := state.generatedTokenIds.length
  eosTokenId := e.eosTokenId

/-- One token for each request that is known, from the `i`-th draw on. -/
def sampleLoop (sample : ℕ → SamplingInput (List F32) → Token) :
    ℕ → List RequestId → MultiProcExecutor → List PerRequestOutput × MultiProcExecutor
  | _, [], e => ([], e)
  | i, id :: ids, e =>
    match e.requestStates.lookup id with
    | none => sampleLoop sample (i + 1) ids e
    | some state =>
      let token := sample i (e.samplingInput state)
      let (outputs, e) := sampleLoop sample (i + 1) ids
        { e with
          requestStates := e.requestStates.insert id
            { state with generatedTokenIds := state.generatedTokenIds ++ [token] } }
      (⟨id, [token]⟩ :: outputs, e)

/-- Without a worker there is no sampler to index. -/
def executeModel (sample : ℕ → SamplingInput (List F32) → Token) (out : SchedulerOutput) :
    Except String ExecutorOutput × MultiProcExecutor :=
  if !e.initialized then (.error "MultiProcExecutor not initialized", e)
  else if out.numScheduled = 0 then (.ok {}, e)
  else if e.tensorParallelSize = 0 then
    (.error "index out of bounds: the len is 0 but the index is 0", e)
  else
    let (outputs, e) := e.sampleLoop sample 0
      (out.scheduledNew ++ out.scheduledCached ++ out.scheduledRunning)
    (.ok ⟨outputs⟩, e)

def addRequest (id : RequestId) (promptTokenIds : List Token) (samplingParams : SamplingParams) :
    Except String Unit × MultiProcExecutor :=
  (.ok (),
    { e with requestStates := e.requestStates.insert id { promptTokenIds, samplingParams } })

/-- The draws of one execution are a parameter, as for the single process. -/
def executor (sample : ℕ → SamplingInput (List F32) → Token) : Executor MultiProcExecutor where
  executeModel out e := e.executeModel sample out
  addRequest id promptTokenIds params e := e.addRequest id promptTokenIds params
  -- the default of the trait
  abortRequest _ e := e

variable {e} {sample : ℕ → SamplingInput (List F32) → Token} {id : RequestId}

/-! ## Who is kept -/

theorem sampleLoop_keeps (i : ℕ) (ids : List RequestId) (e : MultiProcExecutor) :
    id ∈ (e.sampleLoop sample i ids).2.requestStates ↔ id ∈ e.requestStates := by
  induction ids generalizing i e with
  | nil => rfl
  | cons j ids ih =>
    unfold sampleLoop
    split
    · exact ih _ _
    · rename_i state hstate
      refine (ih _ _).trans ?_
      have hj : j ∈ e.requestStates := AList.lookup_isSome.mp (by rw [hstate]; rfl)
      rw [AList.mem_insert, or_iff_right_iff_imp]
      rintro rfl
      exact hj

theorem executeModel_keeps (out : SchedulerOutput) (e : MultiProcExecutor) :
    id ∈ (e.executeModel sample out).2.requestStates ↔ id ∈ e.requestStates := by
  unfold executeModel
  split
  · rfl
  · split
    · rfl
    · split
      · rfl
      · exact sampleLoop_keeps 0 _ e

theorem sampleLoop_sublist (i : ℕ) (ids : List RequestId) (e : MultiProcExecutor) :
    ((e.sampleLoop sample i ids).1.map (·.requestId)).Sublist ids := by
  induction ids generalizing i e with
  | nil => exact .slnil
  | cons j ids ih =>
    unfold sampleLoop
    split
    · exact (ih _ _).cons j
    · exact (ih _ _).cons_cons j

theorem executeModel_nodup {out : SchedulerOutput} {res : ExecutorOutput}
    (hnd : (out.scheduledNew ++ out.scheduledCached ++ out.scheduledRunning).Nodup)
    (hres : (e.executeModel sample out).1 = .ok res) :
    (res.perRequestOutputs.map (·.requestId)).Nodup := by
  unfold executeModel at hres
  split at hres
  · cases hres
  · split at hres
    · obtain rfl := Except.ok.inj hres
      exact List.nodup_nil
    · split at hres
      · cases hres
      · obtain rfl := Except.ok.inj hres
        exact hnd.sublist (sampleLoop_sublist 0 _ e)

end MultiProcExecutor

end Rllm
