import Rllm.Engine.Executable
import Rllm.Executor.Suppression

/-! # Stopping below the least number of tokens

A request asks for a least number of tokens. The sampler keeps one end token
back until then, by its own count of the generated tokens, and the engine stops
at any stop token, by another. The counts agree along every run; what is left
are the tokens that may end the request and are not kept back.
-/

namespace Rllm

variable {H : HashFns} {cfg : Config} {r : InferenceRequest}

/-! ## One batch -/

namespace EngineRequest

variable {req : EngineRequest} {stopTokenIds tokens : List Token}

theorem length_le_consume : req.generatedTokenIds.length ≤
    (req.consume stopTokenIds tokens).1.generatedTokenIds.length := by
  induction tokens generalizing req with
  | nil => exact le_rfl
  | cons token tokens ih =>
    rw [consume_cons]
    split
    · simp
    · split
      · simp
      · refine le_trans ?_ ih
        simp

theorem consume_samplingParams :
    (req.consume stopTokenIds tokens).1.samplingParams = req.samplingParams := by
  induction tokens generalizing req with
  | nil => rfl
  | cons token tokens ih =>
    rw [consume_cons]
    split
    · rfl
    · split
      · rfl
      · exact ih

theorem consume_stop {least : ℕ} (h : ∀ k token, tokens[k]? = some token →
      req.generatedTokenIds.length + k + 1 < least →
      ¬ req.samplingParams.StopsAt stopTokenIds token)
    (hs : (req.consume stopTokenIds tokens).2 = some .stop) :
    least ≤ (req.consume stopTokenIds tokens).1.generatedTokenIds.length := by
  induction tokens generalizing req with
  | nil => cases hs
  | cons token tokens ih =>
    rw [consume_cons] at hs ⊢
    split at hs
    · rename_i hstop
      rw [if_pos hstop, List.length_append, List.length_singleton]
      by_contra hlt
      exact h 0 token rfl (by omega) hstop
    · rename_i hstop
      rw [if_neg hstop]
      split at hs
      · cases hs
      · rename_i hmax
        rw [if_neg hmax]
        refine ih (fun k token' hk hlt => ?_) hs
        rw [List.length_append, List.length_singleton] at hlt
        exact h (k + 1) token' hk (by omega)

end EngineRequest

/-! ## The two counts -/

namespace EngineCore

/-- The engine and the runner hold the same tokens and parameters of a request they both know. -/
def Agrees (core : EngineCore ModelRunner) (r : InferenceRequest) : Prop :=
  ∀ req ∈ core.requests.lookup r.requestId, req.samplingParams = r.samplingParams ∧
    ∀ w ∈ core.executor.requestStates.lookup r.requestId,
      w.generatedTokenIds = req.generatedTokenIds ∧
      core.executor.requestSamplingParams.lookup r.requestId = some r.samplingParams

variable {core : EngineCore ModelRunner} {ops : ModelOps} {ord : HashOrder}

theorem abortAll_executor {exec : Executor ModelRunner}
    (hx : ∀ id m, exec.abortRequest id m = m.removeRequest id) (ids : List RequestId)
    (core : EngineCore ModelRunner) :
    (ids.foldl (EngineCore.abortRequest exec) core).executor =
      ids.foldl ModelRunner.removeRequest core.executor := by
  induction ids generalizing core with
  | nil => rfl
  | cons id ids ih =>
    rw [List.foldl_cons, ih, List.foldl_cons]
    change ids.foldl ModelRunner.removeRequest (exec.abortRequest id core.executor) = _
    rw [hx]

theorem Agrees.abortAll {exec : Executor ModelRunner}
    (hx : ∀ id m, exec.abortRequest id m = m.removeRequest id) {ids : List RequestId}
    (h : r.requestId ∉ ids → core.Agrees r) :
    (ids.foldl (EngineCore.abortRequest exec) core).Agrees r := by
  intro req hreq
  rw [Option.mem_def, lookup_abortAll, Option.ite_none_left_eq_some] at hreq
  obtain ⟨hparams, htokens⟩ := h hreq.1 req hreq.2
  refine ⟨hparams, fun w hw => ?_⟩
  rw [abortAll_executor hx, ModelRunner.lookup_removeAll fun _ _ => rfl, if_neg hreq.1]
  rw [abortAll_executor hx, Option.mem_def, ModelRunner.lookup_removeAll fun _ _ => rfl,
    if_neg hreq.1] at hw
  exact htokens w hw

theorem Agrees.processOutputs (h : core.Agrees r) {out : SchedulerOutput}
    (hout : (out.scheduledNew ++ out.scheduledRunning).Nodup) {blockSize : ℕ}
    {res : ExecutorOutput} {runner : ModelRunner}
    (he : UniProc.executeModel ops blockSize out core.executor = (.ok res, runner))
    (hopen : r.requestId ∉ ((EngineCore.processOutputs res.perRequestOutputs
      { core with executor := runner }).1.filter (·.finished)).map (·.requestId)) :
    (EngineCore.processOutputs res.perRequestOutputs
      { core with executor := runner }).2.Agrees r := by
  obtain ⟨drafts, batch, hex⟩ := UniProc.executeModel_ok hout he
  obtain ⟨hproposes, mp, -, hbuilt⟩ := UniProc.prepare_ok hout hex.prepared
  have hnd : (res.perRequestOutputs.map (·.requestId)).Nodup :=
    hex.ids_eq ▸ hout.sublist hbuilt.sublist
  have hframe :
      (UniProc.executeModel ops blockSize out core.executor).2.requestSamplingParams.lookup
        r.requestId = (core.executor.clean out).requestSamplingParams.lookup r.requestId :=
    (UniProc.executeModel_frame hout hproposes).2.1 r.requestId
  rw [he] at hframe
  have hkept : ∀ w, (core.executor.clean out).requestStates.lookup r.requestId = some w →
      core.executor.requestStates.lookup r.requestId = some w ∧
        runner.requestSamplingParams.lookup r.requestId =
          core.executor.requestSamplingParams.lookup r.requestId := by
    intro w hw
    rw [ModelRunner.states_clean, Option.ite_none_left_eq_some] at hw
    rw [hframe, ModelRunner.params_clean, if_neg hw.1]
    exact ⟨hw.2, rfl⟩
  intro req' hreq'
  rw [processOutputs_executor]
  have hstate := hex.states r.requestId
  rcases processOutputs_says hnd { core with executor := runner } r.requestId with
    ⟨hn, -, hl⟩ | ⟨o, hmem, hoid, houts, hl⟩
  · obtain ⟨hparams, htokens⟩ := h req' (hl.symm.trans hreq')
    refine ⟨hparams, fun w hw => ?_⟩
    rw [ExecutorOutput.outputOf_eq_none.mpr hn] at hstate
    split at hstate
    · rename_i heq
      cases heq
    · obtain ⟨hw, hp⟩ := hkept w (hstate.symm.trans hw)
      exact ⟨(htokens w hw).1, hp.trans (htokens w hw).2⟩
    · exact hstate.elim
  · rw [Option.mem_def, hl] at hreq'
    obtain ⟨req, hreq, rfl⟩ := Option.map_eq_some_iff.mp hreq'
    obtain ⟨hparams, htokens⟩ := h req hreq
    refine ⟨EngineRequest.consume_samplingParams.trans hparams, fun w' hw' => ?_⟩
    have ho : res.outputOf r.requestId = some o := by
      rw [← hoid]
      exact find?_of_nodup hnd hmem
    have hnone : (req.consume core.stopTokenIds o.tokenIds).2 = none := by
      by_contra hsome
      apply hopen
      have hmem' : answer r.requestId o.tokenIds (req.consume core.stopTokenIds o.tokenIds) ∈
          outputsFor r.requestId (EngineCore.processOutputs res.perRequestOutputs
            { core with executor := runner }).1 := by
        rw [houts]
        simp [hreq]
      exact List.mem_map.mpr ⟨_, List.mem_filter.mpr ⟨(List.mem_filter.mp hmem').1,
        Option.isSome_iff_ne_none.mpr hsome⟩, rfl⟩
    rw [ho] at hstate
    split at hstate
    · rename_i seq o' _ heq
      obtain rfl := Option.some.inj heq
      obtain ⟨w, hw, hran⟩ := hstate
      obtain rfl := Option.some.inj (hran.symm.trans hw')
      obtain ⟨hw, hp⟩ := hkept w hw
      refine ⟨?_, hp.trans (htokens w hw).2⟩
      rw [EngineRequest.consume_open hnone, UniProc.ran, (htokens w hw).1]
    · rename_i heq
      cases heq
    · exact hstate.elim

theorem Agrees.step (h : core.Agrees r) (hp : core.scheduler.Partition) {blockSize : ℕ} :
    (core.step H cfg (UniProc.executor ops blockSize) ord).2.Agrees r := by
  have hout : ((core.scheduler.step H cfg ord).1.scheduledNew ++
      (core.scheduler.step H cfg ord).1.scheduledRunning).Nodup :=
    Scheduler.step_scheduledOnce hp ord
  unfold EngineCore.step
  dsimp only
  split
  · exact h
  · cases he : UniProc.executeModel ops blockSize (core.scheduler.step H cfg ord).1
        core.executor with
    | mk res runner =>
      have he' : (UniProc.executor ops blockSize).executeModel
        (core.scheduler.step H cfg ord).1 core.executor = (res, runner) := he
      cases res with
      | error e =>
        simp only [EngineCore.execute, he', failAll_eq]
        apply Agrees.abortAll fun _ _ => rfl
        intro hn req hreq
        obtain ⟨hparams, htokens⟩ := h req hreq
        refine ⟨hparams, fun w hw => ?_⟩
        have hnot : r.requestId ∉ (core.scheduler.step H cfg ord).1.scheduledNew ++
            (core.scheduler.step H cfg ord).1.scheduledRunning := by
          rw [(ord.perm _).mem_iff, affectedIds, List.mem_dedup] at hn
          simp only [List.mem_append] at hn ⊢
          tauto
        have hrunner : (UniProc.executeModel ops blockSize (core.scheduler.step H cfg ord).1
            core.executor).2 = runner := by rw [he]
        obtain ⟨hw, hpar⟩ := UniProc.executeModel_known hout hnot (hrunner ▸ hw)
        rw [hrunner] at hpar
        exact ⟨(htokens w hw).1, hpar.trans (htokens w hw).2⟩
      | ok res =>
        simp only [EngineCore.execute, he']
        apply Agrees.abortAll fun _ _ => rfl
        have hsched : Agrees { core with scheduler := (core.scheduler.step H cfg ord).2 } r := h
        exact fun hopen => hsched.processOutputs hout he hopen

end EngineCore

/-! ## Runs -/

/-- The executors of one process with their samplers, which keep one end token back. -/
def ModelRun.Serves (cfg : Config) (eosTokenId : Token) (exec : Executor ModelRunner) : Prop :=
  ∃ run : ModelRun, exec = UniProc.executor (run.ops eosTokenId) cfg.cache.blockSize

/-- While the request is short of tokens, nothing but the end token that the sampler keeps back
could end it in this step. -/
def EngineStep.KeepsBack (H : HashFns) (cfg : Config) (eosTokenId : Token) (r : InferenceRequest)
    (t : EngineStep ModelRunner) : Prop :=
  ∃ run : ModelRun, t.exec = UniProc.executor (run.ops eosTokenId) cfg.cache.blockSize ∧
    run.ClearFor eosTokenId (r.samplingParams.StopsAt t.core.stopTokenIds) cfg.cache.blockSize
      (t.core.scheduler.step H cfg t.ord).1 t.core.executor r.requestId

theorem EngineStep.executed_of_result {core : EngineCore ModelRunner} {ops : ModelOps}
    {blockSize : ℕ} {ord : HashOrder} {res : ExecutorOutput}
    (h : EngineStep.result H cfg ⟨core, UniProc.executor ops blockSize, ord⟩ = some res) :
    ∃ runner, UniProc.executeModel ops blockSize (core.scheduler.step H cfg ord).1 core.executor =
      (.ok res, runner) := by
  unfold EngineStep.result at h
  dsimp only at h
  split at h
  · cases h
  · change (UniProc.executeModel ops blockSize (core.scheduler.step H cfg ord).1
      core.executor).1.toOption = some res at h
    cases he : UniProc.executeModel ops blockSize (core.scheduler.step H cfg ord).1
        core.executor with
    | mk res' runner =>
      rw [he] at h
      cases res' with
      | error e => cases h
      | ok res' =>
        obtain rfl := Option.some.inj h
        exact ⟨runner, rfl⟩

/-- What holds of a request along a run. -/
structure StopsLate (H : HashFns) (cfg : Config) (r : InferenceRequest)
    (hist : History ModelRunner) (core : EngineCore ModelRunner) : Prop where
  unknown : r.requestId ∉ hist.accepted → core.requests.lookup r.requestId = none ∧
    outputsFor r.requestId (hist.outputs H cfg) = [] ∧ hist.generated H cfg r.requestId = []
  agrees : r ∈ hist.added → core.Agrees r
  booked : r ∈ hist.added → ∀ req ∈ core.requests.lookup r.requestId,
    hist.generated H cfg r.requestId = req.generatedTokenIds
  late : r ∈ hist.added → ∀ o ∈ outputsFor r.requestId (hist.outputs H cfg),
    o.finishReason = some .stop →
      r.samplingParams.minTokens ≤ (hist.generated H cfg r.requestId).length

namespace StopsLate

variable {hist : History ModelRunner} {core : EngineCore ModelRunner}
  {exec : Executor ModelRunner} {eosTokenId : Token} {ord : HashOrder}

theorem new (executor : ModelRunner) (stopTokenIds : List Token) :
    StopsLate H cfg r {} (.new cfg executor stopTokenIds) := by
  constructor
  · exact fun _ => ⟨rfl, rfl, rfl⟩
  · exact fun h => absurd h List.not_mem_nil
  · exact fun h => absurd h List.not_mem_nil
  · exact fun h => absurd h List.not_mem_nil

theorem addRequest (h : StopsLate H cfg r hist core) {r' : InferenceRequest}
    (hx : ModelRun.Serves cfg eosTokenId exec) (hfresh : r'.requestId ∉ hist.accepted)
    (hok : (core.addRequest cfg exec r').1 = .ok ()) :
    StopsLate H cfg r { hist with added := hist.added ++ [r'] }
      (core.addRequest cfg exec r').2 := by
  obtain ⟨run, rfl⟩ := hx
  rw [EngineCore.addRequest_runner hok]
  have hne : r ∈ hist.added → r.requestId ≠ r'.requestId := by
    intro hr hid
    exact hfresh (hid ▸ List.mem_map_of_mem hr)
  constructor
  · intro hn
    simp only [History.accepted, List.map_append, List.map_cons, List.map_nil, List.mem_append,
      List.mem_singleton, not_or] at hn
    obtain ⟨hl, ho, hg⟩ := h.unknown hn.1
    exact ⟨(AList.lookup_insert_ne hn.2).trans hl, ho, hg⟩
  · intro hr req hreq
    rcases List.mem_append.mp hr with hr | hr
    · rw [Option.mem_def, AList.lookup_insert_ne (hne hr)] at hreq
      obtain ⟨hparams, htokens⟩ := h.agrees hr req hreq
      refine ⟨hparams, fun w hw => ?_⟩
      obtain ⟨ht, hp⟩ := htokens w ((AList.lookup_insert_ne (hne hr)).symm.trans hw)
      exact ⟨ht, (AList.lookup_insert_ne (hne hr)).trans hp⟩
    · obtain rfl := List.mem_singleton.mp hr
      obtain rfl := Option.some.inj ((AList.lookup_insert _).symm.trans hreq)
      refine ⟨rfl, fun w hw => ?_⟩
      obtain rfl := Option.some.inj ((AList.lookup_insert _).symm.trans hw)
      exact ⟨rfl, AList.lookup_insert _⟩
  · intro hr req hreq
    rcases List.mem_append.mp hr with hr | hr
    · rw [Option.mem_def, AList.lookup_insert_ne (hne hr)] at hreq
      exact h.booked hr req hreq
    · obtain rfl := List.mem_singleton.mp hr
      obtain rfl := Option.some.inj ((AList.lookup_insert _).symm.trans hreq)
      exact (h.unknown hfresh).2.2
  · intro hr o ho
    rcases List.mem_append.mp hr with hr | hr
    · exact h.late hr o ho
    · obtain rfl := List.mem_singleton.mp hr
      have hnone := (h.unknown hfresh).2.1
      change o ∈ outputsFor r.requestId (hist.outputs H cfg) at ho
      rw [hnone] at ho
      cases ho

theorem abortRequest (h : StopsLate H cfg r hist core)
    (hx : ModelRun.Serves cfg eosTokenId exec) (id : RequestId) :
    StopsLate H cfg r (hist.abort id) (core.abortRequest exec id) := by
  obtain ⟨run, rfl⟩ := hx
  have hadded : (hist.abort id).added = hist.added := by
    unfold History.abort
    split <;> rfl
  have hsteps : (hist.abort id).steps = hist.steps := by
    unfold History.abort
    split <;> rfl
  have hrequests : ∀ req ∈ (core.abortRequest (UniProc.executor (run.ops eosTokenId)
      cfg.cache.blockSize) id).requests.lookup r.requestId,
      core.requests.lookup r.requestId = some req := by
    intro req hreq
    change (core.requests.erase id).lookup r.requestId = some req at hreq
    rw [lookup_erase_eq] at hreq
    exact (Option.ite_none_left_eq_some.mp hreq).2
  have hout : (hist.abort id).outputs H cfg = hist.outputs H cfg := by
    rw [History.outputs, History.outputs, hsteps]
  have hgen : (hist.abort id).generated H cfg r.requestId = hist.generated H cfg r.requestId := by
    rw [History.generated, History.generated, hsteps]
  constructor
  · intro hn
    rw [History.accepted, hadded] at hn
    obtain ⟨hl, ho, hg⟩ := h.unknown hn
    refine ⟨?_, by rw [hout, ho], by rw [hgen, hg]⟩
    rw [Option.eq_none_iff_forall_ne_some]
    intro req hreq
    exact absurd ((hrequests req hreq).symm.trans hl) (Option.some_ne_none _)
  · rw [hadded]
    intro hr
    have habort : ([id].foldl (EngineCore.abortRequest (UniProc.executor (run.ops eosTokenId)
        cfg.cache.blockSize)) core).Agrees r := .abortAll (fun _ _ => rfl) fun _ => h.agrees hr
    exact habort
  · rw [hadded, hgen]
    exact fun hr req hreq => h.booked hr req (hrequests req hreq)
  · rw [hadded, hgen, hout]
    exact h.late

theorem reply (h : StopsLate H cfg r hist core) {t : EngineStep ModelRunner}
    (htime : r ∈ hist.added → ∀ req ∈ core.requests.lookup r.requestId, ∀ res o,
      t.result H cfg = some res → o ∈ res.perRequestOutputs → o.requestId = r.requestId →
      (req.consume t.core.stopTokenIds o.tokenIds).2 = some .stop → r.samplingParams.minTokens ≤
        (req.consume t.core.stopTokenIds o.tokenIds).1.generatedTokenIds.length)
    {before booked after : Option EngineRequest} {outputs : List RequestOutput}
    (hreply : Reply H cfg t r.requestId before outputs booked after)
    (hbefore : core.requests.lookup r.requestId = before) :
    (r.requestId ∉ hist.accepted → after = none ∧ outputs = [] ∧ booked = none) ∧
      (r ∈ hist.added → (∀ req ∈ after, booked.elim (hist.generated H cfg r.requestId)
          (·.generatedTokenIds) = req.generatedTokenIds) ∧
        ∀ o ∈ outputsFor r.requestId (hist.outputs H cfg) ++ outputs,
          o.finishReason = some .stop → r.samplingParams.minTokens ≤
            (booked.elim (hist.generated H cfg r.requestId) (·.generatedTokenIds)).length) := by
  have hknown : ∀ req, core.requests.lookup r.requestId = some req →
      ¬ r.requestId ∉ hist.accepted := by
    intro req hreq hn
    rw [(h.unknown hn).1] at hreq
    cases hreq
  cases hreply with
  | silent =>
    rw [List.append_nil]
    refine ⟨fun hn => ?_, fun hr => ⟨?_, ?_⟩⟩
    · have hnone := hbefore.symm.trans (h.unknown hn).1
      exact ⟨hnone, rfl, hnone⟩
    · rintro req rfl
      rfl
    · cases before with
      | none => exact h.late hr
      | some req =>
        rw [Option.elim_some, ← h.booked hr req hbefore]
        exact h.late hr
  | @answered req res o hres ho hid =>
    refine ⟨fun hn => absurd hn (hknown req hbefore), fun hr => ⟨?_, ?_⟩⟩
    · intro req' hreq'
      split at hreq'
      · cases hreq'
      · obtain rfl := Option.some.inj hreq'
        rfl
    · intro o' ho' hstop
      rw [Option.elim_some]
      rcases List.mem_append.mp ho' with ho' | ho'
      · have hlate := h.late hr o' ho' hstop
        rw [h.booked hr req hbefore] at hlate
        exact hlate.trans EngineRequest.length_le_consume
      · obtain rfl := List.mem_singleton.mp ho'
        rw [answer_finishReason] at hstop
        exact htime hr req hbefore res o hres ho hid hstop
  | @failed req hres =>
    refine ⟨fun hn => absurd hn (hknown req hbefore), fun hr => ⟨?_, ?_⟩⟩
    · intro req' hreq'
      cases hreq'
    · intro o' ho' hstop
      rw [Option.elim_some]
      rcases List.mem_append.mp ho' with ho' | ho'
      · rw [← h.booked hr req hbefore]
        exact h.late hr o' ho' hstop
      · obtain rfl := List.mem_singleton.mp ho'
        rw [failure_finishReason] at hstop
        cases hstop

/-- A step that keeps the end token back stops the request late enough, if at all. -/
theorem step (h : StopsLate H cfg r hist core) (hp : core.scheduler.Partition)
    (hback : EngineStep.KeepsBack H cfg eosTokenId r ⟨core, exec, ord⟩) :
    StopsLate H cfg r { hist with steps := hist.steps ++ [⟨core, exec, ord⟩] }
      (core.step H cfg exec ord).2 := by
  obtain ⟨run, hexec, hclear⟩ := hback
  have hout : ((core.scheduler.step H cfg ord).1.scheduledNew ++
      (core.scheduler.step H cfg ord).1.scheduledRunning).Nodup :=
    Scheduler.step_scheduledOnce hp ord
  dsimp only at hexec hclear
  subst hexec
  have hresult : ∀ res, EngineStep.result H cfg ⟨core, UniProc.executor (run.ops eosTokenId)
      cfg.cache.blockSize, ord⟩ = some res → ∃ runner, UniProc.executeModel (run.ops eosTokenId)
        cfg.cache.blockSize (core.scheduler.step H cfg ord).1 core.executor = (.ok res, runner) :=
    fun res hres => EngineStep.executed_of_result hres
  have hnd : ∀ res, EngineStep.result H cfg ⟨core, UniProc.executor (run.ops eosTokenId)
      cfg.cache.blockSize, ord⟩ = some res → (res.perRequestOutputs.map (·.requestId)).Nodup := by
    intro res hres
    obtain ⟨runner, he⟩ := hresult res hres
    obtain ⟨drafts, batch, hex⟩ := UniProc.executeModel_ok hout he
    obtain ⟨-, mp, -, hbuilt⟩ := UniProc.prepare_ok hout hex.prepared
    exact hex.ids_eq ▸ hout.sublist hbuilt.sublist
  obtain ⟨hunknown, hadded⟩ := h.reply (fun hr req hreq res o hres ho hid hstop => by
    obtain ⟨runner, he⟩ := hresult res hres
    obtain ⟨w, hw, hnot⟩ := (hid ▸ hclear).not_stops hout he ho
    obtain ⟨hparams, htokens⟩ := h.agrees hr req hreq
    obtain ⟨hgen, hpar⟩ := htokens w (hid ▸ hw)
    refine EngineRequest.consume_stop (fun k token hk hlt => ?_) hstop
    rw [hparams]
    exact hnot (hid ▸ hpar) k token hk (hgen ▸ hlt))
    (EngineCore.step_reply hnd r.requestId) rfl
  constructor
  · intro hn
    obtain ⟨hl, ho, hb⟩ := hunknown hn
    obtain ⟨-, ho', hg⟩ := h.unknown hn
    rw [outputsFor_step, generated_step, ho, ho', hb, hg]
    exact ⟨hl, rfl, rfl⟩
  · exact fun hr => (h.agrees hr).step hp
  · rw [generated_step]
    exact fun hr => (hadded hr).1
  · rw [outputsFor_step, generated_step]
    exact fun hr => (hadded hr).2

end StopsLate

/-- In a run whose steps keep the end token back a request that stops has generated as many tokens
as it asks for. -/
theorem EngineRun.stopsLate (H : HashFns) (cfg : Config) (eosTokenId : Token)
    (hist : History ModelRunner) (core : EngineCore ModelRunner) (r : InferenceRequest)
    (hr : r ∈ hist.added)
    (hrun : EngineRun H cfg (ModelRun.Serves cfg eosTokenId)
      (EngineStep.KeepsBack H cfg eosTokenId r) hist core) :
    ∀ o ∈ outputsFor r.requestId (hist.outputs H cfg), o.finishReason = some .stop →
      r.samplingParams.minTokens ≤ (hist.generated H cfg r.requestId).length := by
  have hinv : StopsLate H cfg r hist core := by
    clear hr
    induction hrun with
    | new executor stopTokenIds => exact .new executor stopTokenIds
    | addRequest hx r' _ hfresh hok ih => exact ih.addRequest hx hfresh hok
    | rejectRequest hx r' _ herr ih =>
      obtain ⟨run, rfl⟩ := hx
      rw [EngineCore.addRequest_rejected herr]
      exact ih
    | abortRequest hx id _ ih => exact ih.abortRequest hx id
    | step _ ord hrun hP ih => exact ih.step hrun.schedRun.partition.1 hP
  exact hinv.late hr

/-- A model with the same logits everywhere. -/
def constRun (logits : List F32) : ModelRun where
  floats := exactFloats
  forward :=
    { positionLogits := fun _ _ => .ok []
      lastLogits := fun _ _ => .ok (some logits) }
  vocabSize := 3
  random _ _ := .fin (1 / 2)

/-- A greedy request for at least two tokens, with stop tokens of its own. -/
def patientRequest (stopTokenIds : List Token) : InferenceRequest :=
  { smallRequest 1 [5] with
    samplingParams := { temperature := .fin 0, minTokens := 2, stopTokenIds } }

/-- An engine with that request. -/
def patientCore (logits : List F32) (stopTokenIds : List Token) : EngineCore ModelRunner :=
  ((EngineCore.new (smallConfig 8 false) .new [2]).addRequest (smallConfig 8 false)
    (UniProc.executor ((constRun logits).ops 2) 1) (patientRequest stopTokenIds)).2

/-- That engine after some steps. -/
def patientRun (logits : List F32) (stopTokenIds : List Token) : ℕ → EngineCore ModelRunner
  | 0 => patientCore logits stopTokenIds
  | n + 1 => ((patientRun logits stopTokenIds n).step smallHash (smallConfig 8 false)
      (UniProc.executor ((constRun logits).ops 2) 1) .id).2

/-- Its history. -/
def patientHistory (logits : List F32) (stopTokenIds : List Token) : ℕ → History ModelRunner
  | 0 => { added := [patientRequest stopTokenIds] }
  | n + 1 => { patientHistory logits stopTokenIds n with
      steps := (patientHistory logits stopTokenIds n).steps ++
        [⟨patientRun logits stopTokenIds n, UniProc.executor ((constRun logits).ops 2) 1, .id⟩] }

theorem engineRun_patient {P : EngineStep ModelRunner → Prop} {logits : List F32}
    {stopTokenIds : List Token} (n : ℕ) (hP : ∀ i < n, P ⟨patientRun logits stopTokenIds i,
      UniProc.executor ((constRun logits).ops 2) 1, .id⟩) :
    EngineRun smallHash (smallConfig 8 false) (ModelRun.Serves (smallConfig 8 false) 2) P
      (patientHistory logits stopTokenIds n) (patientRun logits stopTokenIds n) := by
  have hx : ModelRun.Serves (smallConfig 8 false) 2
      (UniProc.executor ((constRun logits).ops 2) 1) := ⟨constRun logits, rfl⟩
  induction n with
  | zero =>
    exact .addRequest hx (patientRequest stopTokenIds) (.new .new [2])
      (by simp [History.accepted]) rfl
  | succ n ih =>
    exact .step hx .id (ih fun i hi => hP i (hi.trans n.lt_succ_self))
      (hP n n.lt_succ_self)

theorem clear_patient : FloatOps.Clear exactFloats (.fin (1 / 2))
    ((patientRequest []).samplingParams.StopsAt [2])
    (ModelRun.input 2 { promptTokenIds := [5] } (patientRequest []).samplingParams
      [.fin 0, .fin 1, .fin 2] 0) := by
  have hprepared : (exactFloats.samplerOps (.fin (1 / 2))).prepareLogits
      (ModelRun.input 2 { promptTokenIds := [5] } (patientRequest []).samplingParams
        [.fin 0, .fin 1, .fin 2] 0) false false = [.fin 0, .fin 1, .inf true] := by
    decide +kernel
  refine ⟨List.cons_ne_nil _ _, ?_⟩
  rw [if_pos (by decide +kernel), hprepared]
  refine ⟨by decide, .fin 0, List.mem_cons_self, rfl, fun j y hj hstops hy => ?_⟩
  have hlt : j < 3 := (List.getElem?_eq_some_iff.mp hy).1
  obtain rfl | rfl | rfl : j = 0 ∨ j = 1 ∨ j = 2 := by omega
  · exact absurd hstops (by decide +kernel)
  · exact absurd hstops (by decide +kernel)
  · exact absurd rfl hj

theorem keepsBack_patient {i : ℕ} (hi : i < 3) :
    EngineStep.KeepsBack smallHash (smallConfig 8 false) 2 (patientRequest [])
      ⟨patientRun [.fin 0, .fin 1, .fin 2] [] i,
        UniProc.executor ((constRun [.fin 0, .fin 1, .fin 2]).ops 2) 1, .id⟩ := by
  refine ⟨constRun [.fin 0, .fin 1, .fin 2], rfl, ?_⟩
  obtain rfl | hpos : i = 0 ∨ 0 < i := by omega
  · intro drafts batch k seq w params hprep hk hid hw hparams
    obtain ⟨rfl, rfl⟩ := Prod.mk.inj (Except.ok.inj hprep)
    have hw : some { promptTokenIds := [5] } = some w := hw
    have hparams : some (patientRequest []).samplingParams = some params := hparams
    obtain rfl := Option.some.inj hw
    obtain rfl := Option.some.inj hparams
    obtain rfl : k = 0 := by
      cases k with
      | zero => rfl
      | succ k => cases hk
    obtain rfl := Option.some.inj hk
    intro logits hl _
    obtain rfl := Except.ok.inj hl
    exact clear_patient
  · apply ModelRun.ClearFor.of_enough
    intro w params hw hparams
    obtain rfl | rfl : i = 1 ∨ i = 2 := by omega
    · obtain rfl := Option.some.inj hw
      obtain rfl := Option.some.inj hparams
      decide +kernel
    · obtain rfl := Option.some.inj hw
      obtain rfl := Option.some.inj hparams
      decide +kernel

/-- The third token ends the request. -/
theorem EngineRun.stopsLate_patient :
    ∃ o ∈ outputsFor 1 ((patientHistory [.fin 0, .fin 1, .fin 2] [] 3).outputs smallHash
      (smallConfig 8 false)), o.finishReason = some .stop ∧
      2 ≤ ((patientHistory [.fin 0, .fin 1, .fin 2] [] 3).generated smallHash
        (smallConfig 8 false) 1).length := by
  have hstop : ∃ o ∈ outputsFor 1 ((patientHistory [.fin 0, .fin 1, .fin 2] [] 3).outputs smallHash
      (smallConfig 8 false)), o.finishReason = some .stop := by
    decide +kernel
  obtain ⟨o, ho, hs⟩ := hstop
  exact ⟨o, ho, hs, EngineRun.stopsLate smallHash (smallConfig 8 false) 2 _ _ (patientRequest [])
    (by decide) (engineRun_patient 3 fun _ hi => keepsBack_patient hi) o ho hs⟩

/-- Wherever the model is run, some token that ends nothing has a finite logit. -/
def ModelRun.SomeFinite (run : ModelRun) (stops : Token → Prop) : Prop :=
  (∀ batch i logits, run.forward.positionLogits batch i = .ok logits →
    ∀ l ∈ logits, ∃ j q, l[j]? = some (.fin q) ∧ ¬ stops (UInt32.ofNat j)) ∧
  ∀ batch i l, run.forward.lastLogits batch i = .ok (some l) →
    ∃ j q, l[j]? = some (.fin q) ∧ ¬ stops (UInt32.ofNat j)

/-- A stop token of the request is sampled at once: the sampler knows nothing of it. -/
theorem EngineRun.not_stopsLate : ¬ ∀ (H : HashFns) (cfg : Config) (eosTokenId : Token)
    (hist : History ModelRunner) (core : EngineCore ModelRunner) (r : InferenceRequest),
    r ∈ hist.added → r.samplingParams.validate = .ok () →
    r.samplingParams.minTokens ≤ r.samplingParams.maxTokens.getD 16 →
    EngineRun H cfg (ModelRun.Serves cfg eosTokenId) (fun t => eosTokenId ∈ t.core.stopTokenIds ∧
      ∃ run : ModelRun, t.exec = UniProc.executor (run.ops eosTokenId) cfg.cache.blockSize ∧
        run.SomeFinite (r.samplingParams.StopsAt t.core.stopTokenIds)) hist core →
    ∀ o ∈ outputsFor r.requestId (hist.outputs H cfg), o.finishReason = some .stop →
      r.samplingParams.minTokens ≤ (hist.generated H cfg r.requestId).length := by
  intro h
  have hfinite : (constRun [.fin 0, .fin 1, .fin 0]).SomeFinite
      ((patientRequest [1]).samplingParams.StopsAt [2]) := by
    constructor
    · intro batch i logits hl l hmem
      obtain rfl := Except.ok.inj hl
      cases hmem
    · intro batch i l hl
      obtain rfl := Option.some.inj (Except.ok.inj hl)
      exact ⟨0, 0, rfl, by decide +kernel⟩
  have hstop := h smallHash (smallConfig 8 false) 2
    (patientHistory [.fin 0, .fin 1, .fin 0] [1] 1) (patientRun [.fin 0, .fin 1, .fin 0] [1] 1)
    (patientRequest [1]) (by decide) (by decide +kernel) (by decide)
    (engineRun_patient 1 fun i hi => by
      obtain rfl : i = 0 := by omega
      exact ⟨by decide +kernel, constRun [.fin 0, .fin 1, .fin 0], rfl, hfinite⟩)
  revert hstop
  decide +kernel

end Rllm
