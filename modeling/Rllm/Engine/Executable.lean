import Rllm.Engine.Emission
import Rllm.Engine.Lockstep

/-! # Requests stay executable

The engine, the scheduler and the runner keep a table of the requests each. A
preempted request stays with the engine and the scheduler, but the runner
forgets it when it sees the output of the step. As long as every decode finds
its blocks the runner knows all queued requests, with the tokens that the
engine has booked.
-/

namespace Rllm

variable {H : HashFns} {cfg : Config}

/-! ## Steps without preemption -/

section Supplied

variable {s : Scheduler} {st st' : StepState}

/-- Every decode finds the blocks that it needs. -/
def Guards.supplied (cfg : Config) : Guards where
  finishes _ := True
  decodes st id := ∀ r ∈ st.sched.requests.lookup id, r.numComputedTokens < cfg.maxModelLen →
    divCeil r.numComputedTokens cfg.cache.blockSize <
      divCeil (r.numComputedTokens + (1 + r.request.samplingParams.specTokens))
        cfg.cache.blockSize →
    (st.sched.kvCacheManager.allocateSlots cfg.cache id (r.numComputedTokens +
      (1 + r.request.samplingParams.specTokens)) r.numComputedTokens).1.isSome = true
  admits _ := True

instance (st : StepState) (id : RequestId) : Decidable ((Guards.supplied cfg).decodes st id) :=
  Option.decidableForallMem (st.sched.requests.lookup id)

/-- Nothing is preempted, and nothing is about to be. -/
structure StepState.Unpreempted (st : StepState) : Prop where
  toPreempt : st.toPreempt = []
  preempted : st.output.preempted = []

theorem Move.unpreempted (hm : Move H cfg (.supplied cfg) st st') (h : st.Unpreempted) :
    st'.Unpreempted := by
  obtain ⟨ht, hp⟩ := h
  cases hm with
  | finish => exact ⟨ht, hp⟩
  | markLength => exact ⟨ht, hp⟩
  | decode =>
    constructor
    · rw [StepState.scheduleDecode_toPreempt, ht]
    · rw [StepState.scheduleDecode_output]
      exact hp
  | decodeGrow =>
    constructor
    · rw [StepState.scheduleDecode_toPreempt]
      exact ht
    · rw [StepState.scheduleDecode_output]
      exact hp
  | starve hg _ hr hlen hn ha =>
    have hsome := hg _ hr hlen hn
    rw [ha] at hsome
    cases hsome
  | preempt _ hid =>
    rw [ht] at hid
    cases hid
  | note => exact ⟨ht, hp⟩
  | probe => exact ⟨ht, hp⟩
  | admitCached =>
    constructor
    · simpa [StepState.admitCached] using ht
    · simpa [StepState.admitCached] using hp
  | admitNew =>
    constructor
    · unfold StepState.admitNew
      dsimp only
      split
      · exact (StepState.copyBlockTable_toPreempt ..).trans ht
      · exact (StepState.copyBlockTable_toPreempt ..).trans ht
    · rw [admitNew_output]
      exact hp
  | admitFail => exact ⟨ht, hp⟩

theorem Moves.unpreempted (hm : Moves H cfg (.supplied cfg) st st') (h : st.Unpreempted) :
    st'.Unpreempted := by
  induction hm with
  | refl => exact h
  | tail _ hm ih => exact hm.unpreempted ih

theorem step_unpreempted (hp : s.Partition) {ord : HashOrder}
    (hall : s.StepAll H cfg (.supplied cfg) ord) : (s.step H cfg ord).1.preempted = [] := by
  cases hpaused : s.paused with
  | true =>
    rw [Scheduler.step, if_pos hpaused]
    rfl
  | false =>
    rw [Scheduler.step_eq hpaused]
    exact ((stepState_moves hp hpaused ord hall).unpreempted ⟨rfl, rfl⟩).preempted

end Supplied

/-! ## The scheduler of a run -/

namespace EngineCore

variable {E : Type} {exec : Executor E}

theorem abortAll_scheduler (ids : List RequestId) (core : EngineCore E) :
    (ids.foldl (EngineCore.abortRequest exec) core).scheduler =
      ids.foldl Scheduler.abortRequest core.scheduler := by
  induction ids generalizing core with
  | nil => rfl
  | cons id ids ih => exact ih (core.abortRequest exec id)

theorem failAll_eq (ids : List RequestId) (core : EngineCore E) :
    (failAll exec ids core).2 = ids.foldl (EngineCore.abortRequest exec) core := by
  induction ids generalizing core with
  | nil => rfl
  | cons id ids ih => exact ih (core.abortRequest exec id)

theorem processOutputs_executor (rs : List PerRequestOutput) (core : EngineCore E) :
    (processOutputs rs core).2.executor = core.executor := by
  have hone : ∀ (r : PerRequestOutput) (core : EngineCore E),
      (core.processOutput r).2.executor = core.executor := by
    intro r core
    unfold processOutput
    split <;> rfl
  induction rs generalizing core with
  | nil => rfl
  | cons r rs ih => exact (ih (core.processOutput r).2).trans (hone r core)

theorem step_scheduler (H : HashFns) (cfg : Config) (core : EngineCore E) (exec : Executor E)
    (ord : HashOrder) : ∃ ids : List RequestId, (core.step H cfg exec ord).2.scheduler =
      ids.foldl Scheduler.abortRequest (core.scheduler.step H cfg ord).2 := by
  unfold step execute
  dsimp only
  split
  · exact ⟨[], rfl⟩
  · split
    · exact ⟨_, by rw [failAll_eq, abortAll_scheduler]⟩
    · exact ⟨_, by rw [abortAll_scheduler, (processOutputs_booked _ _).scheduler_eq]⟩

end EngineCore

theorem EngineRun.schedRun {E : Type} {X : Executor E → Prop} {P : EngineStep E → Prop}
    {hist : History E} {core : EngineCore E} (h : EngineRun H cfg X P hist core) :
    SchedRun H cfg hist.added core.scheduler := by
  induction h with
  | new => exact .new
  | addRequest _ r _ hfresh hok ih =>
    obtain ⟨executor, -, he⟩ := EngineCore.addRequest_ok hok
    rw [he]
    exact .addRequest r ih hfresh
  | rejectRequest _ r _ herr ih =>
    obtain ⟨executor, he⟩ := EngineCore.addRequest_error herr
    rw [he]
    exact ih
  | @abortRequest hist _ _ _ id _ ih =>
    have hadded : (hist.abort id).added = hist.added := by
      unfold History.abort
      split <;> rfl
    rw [hadded]
    exact .abortRequest id ih
  | @step _ core exec _ ord _ _ ih =>
    obtain ⟨ids, he⟩ := EngineCore.step_scheduler H cfg core exec ord
    rw [he]
    exact SchedRun.abortAll (.step ord ih) ids

/-! ## The three tables -/

namespace EngineCore

variable {core : EngineCore ModelRunner} {exec : Executor ModelRunner} {id : RequestId}

/-- The engine and the runner know a request, with the same prompt and generated tokens. -/
def Carried (core : EngineCore ModelRunner) (id : RequestId) : Prop :=
  ∃ req w, core.requests.lookup id = some req ∧
    core.executor.requestStates.lookup id = some w ∧
    w.promptTokenIds = req.promptTokenIds ∧ w.generatedTokenIds = req.generatedTokenIds

/-- Every queued request is known to the engine and the runner, with the same tokens. -/
def Executable (core : EngineCore ModelRunner) : Prop :=
  ∀ id, id ∈ core.scheduler.waiting.ids ∨ id ∈ core.scheduler.running → core.Carried id

theorem Executable.new (executor : ModelRunner) (stopTokenIds : List Token) :
    (EngineCore.new cfg executor stopTokenIds).Executable := by
  rintro id (hid | hid)
  · simp [EngineCore.new, Scheduler.new] at hid
  · cases hid

theorem Executable.abortAll (hx : ∀ id m, exec.abortRequest id m = m.removeRequest id)
    (ids : List RequestId) (h : ∀ id, id ∈ core.scheduler.waiting.ids ∨
      id ∈ core.scheduler.running → id ∉ ids → core.Carried id) :
    (ids.foldl (EngineCore.abortRequest exec) core).Executable := by
  induction ids generalizing core with
  | nil => exact fun id hid => h id hid List.not_mem_nil
  | cons i ids ih =>
    apply ih
    intro id hid hn
    simp only [EngineCore.abortRequest, Scheduler.abortRequest, RequestQueue.mem_ids_remove,
      List.mem_filter, decide_eq_true_eq] at hid
    have hne : id ≠ i := by tauto
    obtain ⟨req, w, hreq, hw, htokens⟩ := h id (by tauto) (by simp [hne, hn])
    refine ⟨req, w, ?_, ?_, htokens⟩
    · simpa [EngineCore.abortRequest, AList.lookup_erase_ne hne] using hreq
    · simpa [EngineCore.abortRequest, hx, ModelRunner.removeRequest, AList.lookup_erase_ne hne]
        using hw

variable {ops : ModelOps} {blockSize : ℕ} {ord : HashOrder}

theorem addRequest_runner {r : InferenceRequest}
    (hok : (core.addRequest cfg (UniProc.executor ops blockSize) r).1 = .ok ()) :
    (core.addRequest cfg (UniProc.executor ops blockSize) r).2 =
      { core with
        executor := (core.executor.addRequest r.requestId r.promptTokens).setSamplingParams
          r.requestId r.samplingParams
        requests := core.requests.insert r.requestId
          { promptTokenIds := r.promptTokens, samplingParams := r.samplingParams,
            maxTokens := r.samplingParams.maxTokens.getD 16 }
        scheduler := core.scheduler.addRequest cfg r } := by
  obtain ⟨executor, hadd, he⟩ := EngineCore.addRequest_ok hok
  have hr := UniProc.addRequest_ok (congrArg Prod.fst hadd)
  have hsnd : (UniProc.addRequest r.requestId r.promptTokens r.samplingParams
      core.executor).2 = executor := congrArg Prod.snd hadd
  rw [he, ← hsnd, hr]

theorem Executable.addRequest (h : core.Executable) {r : InferenceRequest}
    (hok : (core.addRequest cfg (UniProc.executor ops blockSize) r).1 = .ok ()) :
    (core.addRequest cfg (UniProc.executor ops blockSize) r).2.Executable := by
  rw [addRequest_runner hok]
  intro i hi
  by_cases hne : i = r.requestId
  · subst hne
    exact ⟨_, _, AList.lookup_insert _, AList.lookup_insert _, rfl, rfl⟩
  · simp only [Scheduler.addRequest, RequestQueue.mem_ids_push] at hi
    obtain ⟨req, w, hreq, hw, htokens⟩ := h i (by tauto)
    exact ⟨req, w, (AList.lookup_insert_ne hne).trans hreq,
      (AList.lookup_insert_ne hne).trans hw, htokens⟩

theorem addRequest_rejected {r : InferenceRequest} {e : String}
    (herr : (core.addRequest cfg (UniProc.executor ops blockSize) r).1 = .error e) :
    (core.addRequest cfg (UniProc.executor ops blockSize) r).2 = core := by
  cases hv : r.samplingParams.validate with
  | error e' => simp [EngineCore.addRequest, hv]
  | ok u =>
    cases hs : r.samplingParams.structuredOutputs.isSome with
    | true => simp [EngineCore.addRequest, hv, UniProc.executor, UniProc.addRequest, hs]
    | false => simp [EngineCore.addRequest, hv, UniProc.executor, UniProc.addRequest, hs] at herr

end EngineCore

theorem EngineRequest.consume_open {req : EngineRequest} {stopTokenIds tokens : List Token}
    (h : (req.consume stopTokenIds tokens).2 = none) :
    (req.consume stopTokenIds tokens).1 =
      { req with generatedTokenIds := req.generatedTokenIds ++ tokens } := by
  induction tokens generalizing req with
  | nil => simp [consume]
  | cons token tokens ih =>
    rw [consume_cons] at h ⊢
    split at h
    · cases h
    · rename_i hs
      rw [if_neg hs]
      split at h
      · cases h
      · rename_i hmax
        rw [if_neg hmax, ih h, List.append_assoc]
        rfl

/-! ## Steps and runs -/

/-- The executor of the step does not fail. -/
def EngineStep.Succeeds {E : Type} (H : HashFns) (cfg : Config) (t : EngineStep E) : Prop :=
  (t.core.scheduler.step H cfg t.ord).1.numScheduled = 0 ∨ (t.result H cfg).isSome = true

namespace EngineCore

variable {core : EngineCore ModelRunner} {ops : ModelOps} {ord : HashOrder} {id : RequestId}

/-- An execution that succeeds keeps the tokens of a request that it leaves open. -/
theorem Carried.execute (h : core.Carried id) {out : SchedulerOutput} {res : ExecutorOutput}
    {runner : ModelRunner} (hout : (out.scheduledNew ++ out.scheduledRunning).Nodup)
    (he : UniProc.executeModel ops cfg.cache.blockSize out core.executor = (.ok res, runner))
    (hf : id ∉ out.finished) (hp : out.preempted = [])
    (hopen : id ∉ ((processOutputs res.perRequestOutputs
      { core with executor := runner }).1.filter (·.finished)).map (·.requestId)) :
    (processOutputs res.perRequestOutputs { core with executor := runner }).2.Carried id := by
  obtain ⟨req, w, hreq, hw, hprompt, hgen⟩ := h
  obtain ⟨drafts, batch, hex⟩ := UniProc.executeModel_ok hout he
  obtain ⟨-, mp, -, hbuilt⟩ := UniProc.prepare_ok hout hex.prepared
  have hnd : (res.perRequestOutputs.map (·.requestId)).Nodup := by
    rw [hex.ids_eq]
    exact hout.sublist hbuilt.sublist
  have hclean : (core.executor.clean out).requestStates.lookup id = some w := by
    rw [ModelRunner.states_clean, if_neg (by simp [hf, hp])]
    exact hw
  have hrunner : (processOutputs res.perRequestOutputs
      { core with executor := runner }).2.executor = runner := processOutputs_executor _ _
  have hstate := hex.states id
  rcases processOutputs_says hnd { core with executor := runner } id with
    ⟨hn, -, hl⟩ | ⟨o, hmem, hoid, houts, hl⟩
  · -- nothing was sampled
    rw [ExecutorOutput.outputOf_eq_none.mpr hn] at hstate
    split at hstate
    · rename_i heq
      cases heq
    · refine ⟨req, w, hl.trans hreq, ?_, hprompt, hgen⟩
      rw [hrunner, hstate, hclean]
    · exact hstate.elim
  · subst hoid
    have ho : res.outputOf o.requestId = some o := find?_of_nodup hnd hmem
    have hnone : (req.consume core.stopTokenIds o.tokenIds).2 = none := by
      by_contra hsome
      apply hopen
      have hmem' : answer o.requestId o.tokenIds (req.consume core.stopTokenIds o.tokenIds) ∈
          outputsFor o.requestId (processOutputs res.perRequestOutputs
            { core with executor := runner }).1 := by
        rw [houts]
        simp [hreq]
      obtain ⟨hmem', -⟩ := List.mem_filter.mp hmem'
      refine List.mem_map.mpr ⟨_, List.mem_filter.mpr ⟨hmem', ?_⟩, rfl⟩
      exact Option.isSome_iff_ne_none.mpr hsome
    rw [ho] at hstate
    split at hstate
    · rename_i seq o' _ heq
      obtain rfl := Option.some.inj heq
      obtain ⟨w', hw', hran⟩ := hstate
      obtain rfl := Option.some.inj (hclean.symm.trans hw')
      rw [hreq] at hl
      have hbooked := hl.trans (congrArg some (EngineRequest.consume_open hnone))
      rw [← hrunner] at hran
      exact ⟨_, _, hbooked, hran, hprompt, congrArg (· ++ o.tokenIds) hgen⟩
    · rename_i heq
      cases heq
    · exact hstate.elim

theorem Executable.step (h : core.Executable) (hp : core.scheduler.Partition)
    (hall : core.scheduler.StepAll H cfg (.supplied cfg) ord)
    (hok : EngineStep.Succeeds H cfg ⟨core, UniProc.executor ops cfg.cache.blockSize, ord⟩) :
    (core.step H cfg (UniProc.executor ops cfg.cache.blockSize) ord).2.Executable := by
  have hqueued : ∀ id, id ∈ (core.scheduler.step H cfg ord).2.waiting.ids ∨
      id ∈ (core.scheduler.step H cfg ord).2.running →
      core.Carried id ∧ id ∉ (core.scheduler.step H cfg ord).1.finished := by
    intro id hid
    obtain ⟨hq, hf⟩ := (Scheduler.step_phase hp hall id).of_queued (by simpa using hid)
    exact ⟨h id (by simpa using hq), by simpa using hf⟩
  unfold EngineCore.step
  dsimp only
  split
  · exact fun id hid => (hqueued id hid).1
  · rename_i hn
    have hsome := hok.resolve_left hn
    rw [EngineStep.result, if_neg hn] at hsome
    cases he : UniProc.executeModel ops cfg.cache.blockSize (core.scheduler.step H cfg ord).1
        core.executor with
    | mk res runner =>
      have he' : (UniProc.executor ops cfg.cache.blockSize).executeModel
        (core.scheduler.step H cfg ord).1 core.executor = (res, runner) := he
      cases res with
      | error e =>
        rw [he'] at hsome
        cases hsome
      | ok res =>
        simp only [EngineCore.execute, he']
        apply Executable.abortAll fun _ _ => rfl
        intro id hid hopen
        rw [(processOutputs_booked _ _).scheduler_eq] at hid
        obtain ⟨hcarried, hf⟩ := hqueued id hid
        have hcarried' : Carried { core with scheduler := (core.scheduler.step H cfg ord).2 } id :=
          hcarried
        exact hcarried'.execute (Scheduler.step_scheduledOnce hp ord) he hf
          (step_unpreempted hp hall) hopen

end EngineCore

/-- The executors of one process, each step with its own model and sampler. -/
def UniProc.Serves (cfg : Config) (exec : Executor ModelRunner) : Prop :=
  ∃ ops, exec = UniProc.executor ops cfg.cache.blockSize

/-- In a run without executor errors in which every decode finds its blocks, all queued requests
stay executable. -/
theorem EngineRun.executable (H : HashFns) (cfg : Config) (hist : History ModelRunner)
    (core : EngineCore ModelRunner)
    (hrun : EngineRun H cfg (UniProc.Serves cfg) (fun t => t.Succeeds H cfg ∧
      t.core.scheduler.StepAll H cfg (.supplied cfg) t.ord) hist core) : core.Executable := by
  induction hrun with
  | new executor stopTokenIds => exact .new executor stopTokenIds
  | addRequest hx r _ _ hok ih =>
    obtain ⟨ops, rfl⟩ := hx
    exact ih.addRequest hok
  | rejectRequest hx r _ herr ih =>
    obtain ⟨ops, rfl⟩ := hx
    rw [EngineCore.addRequest_rejected herr]
    exact ih
  | abortRequest hx id _ ih =>
    obtain ⟨ops, rfl⟩ := hx
    exact EngineCore.Executable.abortAll (fun _ _ => rfl) [id] fun i hi _ => ih i hi
  | step hx ord hrun hP ih =>
    obtain ⟨ops, rfl⟩ := hx
    exact ih.step hrun.schedRun.partition.1 hP.2 hP.1

/-- An engine on few blocks with two requests of one token. -/
def twoRequestCore (k : ℕ) : EngineCore ModelRunner :=
  (((EngineCore.new (smallConfig k false) .new []).addRequest (smallConfig k false)
    (UniProc.executor constModel 1) (smallRequest 1 [5])).2.addRequest (smallConfig k false)
      (UniProc.executor constModel 1) (smallRequest 2 [6])).2

/-- That engine after some steps. -/
def twoRequestRun (k : ℕ) : ℕ → EngineCore ModelRunner
  | 0 => twoRequestCore k
  | n + 1 => ((twoRequestRun k n).step smallHash (smallConfig k false)
      (UniProc.executor constModel 1) .id).2

/-- Its history. -/
def twoRequestHistory (k : ℕ) : ℕ → History ModelRunner
  | 0 => { added := [smallRequest 1 [5], smallRequest 2 [6]] }
  | n + 1 => { twoRequestHistory k n with
      steps := (twoRequestHistory k n).steps ++
        [⟨twoRequestRun k n, UniProc.executor constModel 1, .id⟩] }

theorem engineRun_twoRequest {P : EngineStep ModelRunner → Prop} (k n : ℕ)
    (hP : ∀ i < n, P ⟨twoRequestRun k i, UniProc.executor constModel 1, .id⟩) :
    EngineRun smallHash (smallConfig k false) (UniProc.Serves (smallConfig k false)) P
      (twoRequestHistory k n) (twoRequestRun k n) := by
  have hx : UniProc.Serves (smallConfig k false) (UniProc.executor constModel 1) :=
    ⟨constModel, rfl⟩
  induction n with
  | zero =>
    have hone : EngineRun smallHash (smallConfig k false) (UniProc.Serves (smallConfig k false)) P
        { added := [smallRequest 1 [5]] } ((EngineCore.new (smallConfig k false) .new []).addRequest
          (smallConfig k false) (UniProc.executor constModel 1) (smallRequest 1 [5])).2 :=
      .addRequest hx _ (.new .new []) (by simp [History.accepted]) rfl
    exact .addRequest hx (smallRequest 2 [6]) hone (by decide) rfl
  | succ n ih =>
    exact .step hx .id (ih fun i hi => hP i (hi.trans n.lt_succ_self))
      (hP n n.lt_succ_self)

instance (t : EngineStep ModelRunner) : Decidable (t.Succeeds H cfg) :=
  inferInstanceAs (Decidable (_ ∨ _))

instance (s : Scheduler) (ord : HashOrder) : Decidable (s.StepAll H cfg (.supplied cfg) ord) :=
  decidable_of_iff
    (s.paused = false → (StepState.processFinished { sched := s } ord).RunningAll cfg
      (Guards.supplied cfg).decodes (StepState.processFinished { sched := s } ord).sched.running)
    ⟨fun h hp => ⟨fun _ _ _ _ => True.intro, h hp,
        StepState.waitingAll_of_forall (fun _ => True.intro) _ _⟩,
      fun h hp => (h hp).2.1⟩

/-- The script on a single process, whose blocks are enough for every decode. -/
def servedRunner : History ModelRunner × EngineCore ModelRunner :=
  Call.runAll smallHash (smallConfig 8 false) (UniProc.executor constModel 1) servedCalls
    ({}, .new (smallConfig 8 false) ModelRunner.new [])

theorem EngineRun.executable_served :
    servedRunner.2.Executable ∧ servedRunner.2.scheduler.running = [3] := by
  refine ⟨?_, by decide +kernel⟩
  exact EngineRun.executable smallHash (smallConfig 8 false) _ _
    (.calls ⟨constModel, rfl⟩ servedCalls (.new ModelRunner.new []) (by decide +kernel))

/-- With four blocks the second request is preempted by its first decode; the runner forgets it,
while the scheduler admits it again in the same step. -/
theorem EngineRun.not_executable : ¬ ∀ (H : HashFns) (cfg : Config) (hist : History ModelRunner)
    (core : EngineCore ModelRunner), EngineRun H cfg (UniProc.Serves cfg)
      (fun t => t.Succeeds H cfg) hist core → core.Executable := by
  intro h
  have hok : ∀ i < 2, EngineStep.Succeeds smallHash (smallConfig 4 false)
      ⟨twoRequestRun 4 i, UniProc.executor constModel 1, .id⟩ := by
    intro i hi
    obtain rfl | rfl : i = 0 ∨ i = 1 := by omega
    · exact Or.inr (by decide +kernel)
    · exact Or.inr (by decide +kernel)
  obtain ⟨-, w, -, hw, -⟩ := h smallHash (smallConfig 4 false) _ _ (engineRun_twoRequest 4 2 hok)
    2 (by decide +kernel)
  have hnone : ((twoRequestRun 4 2).executor.requestStates.lookup 2).isSome = false := by
    decide +kernel
  rw [hw] at hnone
  cases hnone

end Rllm
