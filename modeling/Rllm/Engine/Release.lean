import Rllm.Engine.Executable
import Rllm.Executor.MultiProc
import Rllm.Executor.Structured

/-! # Executor memory

An executor whose `abort_request` drops the request holds live requests only,
and so its tables stay as small as the engine's. The single process is one;
the multi-process executor keeps the default, which drops nothing.
-/

namespace Rllm

/-- The tables of the executor name requests of the engine only, so none is larger than its. -/
structure HoldsLive {E : Type} (core : EngineCore E) (tables : List (List RequestId)) : Prop where
  live : ∀ ids ∈ tables, ∀ id ∈ ids, id ∈ core.requests
  bounded : ∀ ids ∈ tables, ids.length ≤ core.requests.keys.length

/-- The runs with executors in `X` that start with one in `Start`. Ids are used once. -/
inductive FreshRun (H : HashFns) (cfg : Config) {E : Type} (X : Executor E → Prop)
    (Start : E → Prop) : History E → EngineCore E → Prop
  | new {executor : E} (hstart : Start executor) (stopTokenIds : List Token) :
      FreshRun H cfg X Start {} (.new cfg executor stopTokenIds)
  | addRequest {hist : History E} {core : EngineCore E} {exec : Executor E} (hx : X exec)
      (r : InferenceRequest) (hrun : FreshRun H cfg X Start hist core)
      (hfresh : r.requestId ∉ hist.accepted) (hok : (core.addRequest cfg exec r).1 = .ok ()) :
      FreshRun H cfg X Start { hist with added := hist.added ++ [r] }
        (core.addRequest cfg exec r).2
  | rejectRequest {hist : History E} {core : EngineCore E} {exec : Executor E} (hx : X exec)
      (r : InferenceRequest) (hrun : FreshRun H cfg X Start hist core) {e : String}
      (herr : (core.addRequest cfg exec r).1 = .error e) :
      FreshRun H cfg X Start hist (core.addRequest cfg exec r).2
  | abortRequest {hist : History E} {core : EngineCore E} {exec : Executor E} (hx : X exec)
      (id : RequestId) (hrun : FreshRun H cfg X Start hist core) :
      FreshRun H cfg X Start (hist.abort id) (core.abortRequest exec id)
  | step {hist : History E} {core : EngineCore E} {exec : Executor E} (hx : X exec)
      (ord : HashOrder) (hrun : FreshRun H cfg X Start hist core) :
      FreshRun H cfg X Start { hist with steps := hist.steps ++ [⟨core, exec, ord⟩] }
        (core.step H cfg exec ord).2

variable {H : HashFns} {cfg : Config} {E : Type} {exec : Executor E} {core : EngineCore E}
  {X : Executor E → Prop} {Start : E → Prop} {hist : History E} {id : RequestId}

theorem FreshRun.engineRun (h : FreshRun H cfg X Start hist core) :
    EngineRun H cfg X (fun _ => True) hist core := by
  induction h with
  | new _ stopTokenIds => exact .new _ stopTokenIds
  | addRequest hx r _ hfresh hok ih => exact .addRequest hx r ih hfresh hok
  | rejectRequest hx r _ herr ih => exact .rejectRequest hx r ih herr
  | abortRequest hx id _ ih => exact .abortRequest hx id ih
  | step hx ord _ ih => exact .step hx ord ih True.intro

theorem HoldsLive.of_live {tables : List (List RequestId)} (hnd : ∀ ids ∈ tables, ids.Nodup)
    (h : ∀ ids ∈ tables, ∀ id ∈ ids, id ∈ core.requests) : HoldsLive core tables where
  live := h
  bounded ids hids := (hnd ids hids).subperm (fun id hid => h ids hids id hid) |>.length_le

/-! ## Executors that drop aborted requests -/

/-- Requests enter the tables when they are added and leave them when they are aborted. -/
structure Executor.Releases (exec : Executor E) (held : E → RequestId → Prop) : Prop where
  execute : ∀ out e id, held (exec.executeModel out e).2 id → held e id
  add : ∀ i tokens params e id, held (exec.addRequest i tokens params e).2 id →
    held e id ∨ id = i ∧ (exec.addRequest i tokens params e).1 = .ok ()
  abort : ∀ i e id, held (exec.abortRequest i e) id → held e id ∧ id ≠ i

namespace EngineCore

/-- The executor holds requests of the engine only. -/
def Live (held : E → RequestId → Prop) (core : EngineCore E) : Prop :=
  ∀ id, held core.executor id → id ∈ core.requests

variable {held : E → RequestId → Prop}

theorem Live.addRequest (hx : exec.Releases held) (h : core.Live held) (r : InferenceRequest) :
    (core.addRequest cfg exec r).2.Live held := by
  intro id hid
  unfold EngineCore.addRequest at hid ⊢
  split at hid
  · exact h id hid
  · split at hid
    · rename_i e executor he
      have hadd := hx.add r.requestId r.promptTokens r.samplingParams core.executor id
      rw [he] at hadd
      exact h id ((hadd hid).resolve_right fun hr => by cases hr.2)
    · rename_i executor he
      have hadd := hx.add r.requestId r.promptTokens r.samplingParams core.executor id
      rw [he] at hadd
      rw [AList.mem_insert]
      exact (hadd hid).symm.imp And.left (h id)

theorem Live.abortRequest (hx : exec.Releases held) (h : core.Live held) (i : RequestId) :
    (core.abortRequest exec i).Live held := by
  intro id hid
  obtain ⟨hid, hne⟩ := hx.abort i core.executor id hid
  exact AList.mem_erase.mpr ⟨hne, h id hid⟩

theorem Live.abortAll (hx : exec.Releases held) (h : core.Live held) (ids : List RequestId) :
    (ids.foldl (EngineCore.abortRequest exec) core).Live held := by
  induction ids generalizing core with
  | nil => exact h
  | cons i ids ih => exact ih (h.abortRequest hx i)

theorem Live.step (hx : exec.Releases held) (h : core.Live held) (ord : HashOrder) :
    (core.step H cfg exec ord).2.Live held := by
  unfold EngineCore.step EngineCore.execute
  dsimp only
  split
  · exact h
  · have hexec : ∀ res executor,
        exec.executeModel (core.scheduler.step H cfg ord).1 core.executor = (res, executor) →
        Live held { core with scheduler := (core.scheduler.step H cfg ord).2, executor } := by
      intro res executor he id hid
      exact h id (hx.execute _ _ id (by rwa [he]))
    split
    · rename_i e executor he
      rw [failAll_eq]
      exact (hexec _ _ he).abortAll hx _
    · rename_i result executor he
      refine Live.abortAll hx ?_ _
      intro id hid
      rw [processOutputs_executor] at hid
      exact ((processOutputs_booked _ _).mem_requests id).mpr (hexec _ _ he id hid)

end EngineCore

theorem FreshRun.live {held : E → RequestId → Prop} (hx : ∀ exec, X exec → exec.Releases held)
    (hstart : ∀ e, Start e → ∀ id, ¬ held e id) (h : FreshRun H cfg X Start hist core) :
    core.Live held := by
  induction h with
  | new hs => exact fun id hid => absurd hid (hstart _ hs id)
  | addRequest hexec r _ _ _ ih => exact ih.addRequest (hx _ hexec) r
  | rejectRequest hexec r _ _ ih => exact ih.addRequest (hx _ hexec) r
  | abortRequest hexec id _ ih => exact ih.abortRequest (hx _ hexec) id
  | step hexec ord _ ih => exact ih.step (hx _ hexec) ord

/-! ## The single process -/

namespace UniProcExecutor

/-- The executors of the engine, with any model and any grammar library. -/
inductive Serves (blockSize : ℕ) : {Matcher : Type} → Executor (UniProcExecutor Matcher) → Prop
  | intro (ops : ModelOps) (g : GrammarOps ops.Logits) : Serves blockSize (executor ops g blockSize)

theorem Serves.releases {blockSize : ℕ} {Matcher : Type} {exec : Executor (UniProcExecutor Matcher)}
    (h : Serves blockSize exec) : exec.Releases Holds := by
  obtain ⟨ops, g⟩ := h
  exact ⟨fun _ _ _ h => h.of_execute, fun _ _ _ _ _ h => h.of_add, fun _ _ _ h => h.of_abort⟩

theorem tables_nodup {Matcher : Type} (e : UniProcExecutor Matcher) :
    ∀ ids ∈ e.tables, ids.Nodup := by
  have hkeys : ∀ {β : RequestId → Type} (m : AList β), m.keys.Nodup := fun m => m.nodupKeys
  simp only [tables, List.forall_mem_cons, List.not_mem_nil, false_imp_iff, implies_true, and_true]
  refine ⟨hkeys _, hkeys _, hkeys _, ?_⟩
  cases e.structuredOutputs with
  | none => exact List.nodup_nil
  | some mgr => exact hkeys mgr.matchers

end UniProcExecutor

/-! ## The multi-process executor -/

/-- Neither a stop token nor the limit ends the request. -/
def EngineRequest.GoesOn (stopTokenIds : List Token) (req : EngineRequest) (tokens : List Token) :
    Prop :=
  (∀ token ∈ tokens, ¬ req.samplingParams.StopsAt stopTokenIds token) ∧
    (tokens ≠ [] → req.generatedTokenIds.length + tokens.length < req.maxTokens)

theorem EngineRequest.consume_none_iff {stopTokenIds : List Token} {req : EngineRequest}
    {tokens : List Token} :
    (req.consume stopTokenIds tokens).2 = none ↔ req.GoesOn stopTokenIds tokens := by
  induction tokens generalizing req with
  | nil => simp [consume, GoesOn]
  | cons token tokens ih =>
    rw [consume_cons]
    by_cases hstop : req.samplingParams.StopsAt stopTokenIds token
    · simp [hstop, GoesOn]
    · rw [if_neg hstop]
      by_cases hlimit : req.maxTokens ≤ req.generatedTokenIds.length + 1
      · have hlong : ¬ req.generatedTokenIds.length + (tokens.length + 1) < req.maxTokens := by
          omega
        simp [hlimit, GoesOn, hlong]
      · rw [if_neg hlimit, ih]
        have hlen : (tokens ≠ [] →
            req.generatedTokenIds.length + 1 + tokens.length < req.maxTokens) ↔
            req.generatedTokenIds.length + (tokens.length + 1) < req.maxTokens := by
          cases tokens with
          | nil => simpa using hlimit
          | cons t ts =>
            simp only [ne_eq, reduceCtorEq, not_false_eq_true, true_imp_iff]
            omega
        simp [GoesOn, hstop, hlen]

/-- The step ends no request of the engine: it schedules nothing; or its execution fails and the
engine knows nobody who was scheduled; or the tokens leave every request open. -/
def EngineStep.EndsNothing (H : HashFns) (cfg : Config) (t : EngineStep E) : Prop :=
  (t.core.scheduler.step H cfg t.ord).1.numScheduled = 0 ∨
    match (t.exec.executeModel (t.core.scheduler.step H cfg t.ord).1 t.core.executor).1 with
    | .error _ => ∀ id ∈ EngineCore.affectedIds (t.core.scheduler.step H cfg t.ord).1,
      id ∉ t.core.requests
    | .ok result => ∀ o ∈ result.perRequestOutputs, ∀ req ∈ t.core.requests.lookup o.requestId,
      req.GoesOn t.core.stopTokenIds o.tokenIds

namespace EngineCore

/-- The requests that a step keeps, when its execution answers each request at most once. -/
theorem mem_step (H : HashFns) (cfg : Config) (exec : Executor E) (core : EngineCore E)
    (ord : HashOrder)
    (hnd : ∀ res, (exec.executeModel (core.scheduler.step H cfg ord).1 core.executor).1 = .ok res →
      (res.perRequestOutputs.map (·.requestId)).Nodup) :
    (∀ id ∈ (core.step H cfg exec ord).2.requests, id ∈ core.requests) ∧
      ((∀ id ∈ core.requests, id ∈ (core.step H cfg exec ord).2.requests) ↔
        EngineStep.EndsNothing H cfg ⟨core, exec, ord⟩) := by
  unfold EngineStep.EndsNothing EngineCore.step
  dsimp only
  by_cases hnum : (core.scheduler.step H cfg ord).1.numScheduled = 0
  · rw [if_pos hnum]
    exact ⟨fun _ h => h, iff_of_true (fun _ h => h) (Or.inl hnum)⟩
  rw [if_neg hnum, or_iff_right hnum]
  unfold EngineCore.execute
  dsimp only
  cases he : exec.executeModel (core.scheduler.step H cfg ord).1 core.executor with
  | mk res executor =>
    cases res with
    | error e =>
      dsimp only
      rw [failAll_eq]
      simp only [mem_abortAll, (ord.perm _).mem_iff]
      exact ⟨fun _ h => h.1, forall_congr' fun id => by tauto⟩
    | ok result =>
      dsimp only
      have hone := hnd result (by rw [he])
      generalize hcore : ({ core with scheduler := (core.scheduler.step H cfg ord).2, executor } :
        EngineCore E) = core₁
      have hreq : core₁.requests = core.requests := by rw [← hcore]
      have hstop : core₁.stopTokenIds = core.stopTokenIds := by rw [← hcore]
      have hbook := processOutputs_booked result.perRequestOutputs core₁
      have hfinal : ∀ id ∈ core.requests,
          (id ∉ ((processOutputs result.perRequestOutputs core₁).1.filter (·.finished)).map
            (·.requestId) ↔ ∀ o ∈ result.perRequestOutputs, o.requestId = id →
              ∀ req ∈ core.requests.lookup id, req.GoesOn core.stopTokenIds o.tokenIds) := by
        intro id hid
        obtain ⟨req, hl⟩ := Option.isSome_iff_exists.mp (AList.lookup_isSome.mpr hid)
        rcases processOutputs_says hone core₁ id with ⟨hn, ho, -⟩ | ⟨o, hmem, hoid, ho, -⟩
        · rw [mem_finished_iff ho]
          refine iff_of_true (by simp) fun o hmem hoid => ?_
          exact absurd (List.mem_map.mpr ⟨o, hmem, hoid⟩) hn
        · rw [hreq, hl, hstop] at ho
          rw [mem_finished_iff ho, hl]
          have hopen : (¬ ∃ x ∈ [answer id o.tokenIds
              (req.consume core.stopTokenIds o.tokenIds)], x.finished = true) ↔
              req.GoesOn core.stopTokenIds o.tokenIds := by
            rw [← EngineRequest.consume_none_iff]
            simp [answer]
          refine hopen.trans ⟨?_, fun h => h o hmem hoid req rfl⟩
          rintro hgo o' hmem' hoid' _ ⟨⟩
          rwa [List.inj_on_of_nodup_map hone hmem' hmem (hoid'.trans hoid.symm)]
      simp only [mem_abortAll, hbook.mem_requests, hreq]
      refine ⟨fun _ h => h.1, fun h o ho req hl => ?_, fun h id hid => ⟨hid, ?_⟩⟩
      · have hid : o.requestId ∈ core.requests := AList.lookup_isSome.mp (by rw [hl]; rfl)
        exact (hfinal _ hid).mp (h _ hid).2 o ho rfl req hl
      · refine (hfinal id hid).mpr ?_
        rintro o ho rfl req hl
        exact h o ho req hl

end EngineCore

namespace MultiProcExecutor

/-- The executors of the engine, with any draws. -/
def Serves (exec : Executor MultiProcExecutor) : Prop := ∃ sample, exec = executor sample

def tables (e : MultiProcExecutor) : List (List RequestId) := [e.requestStates.keys]

theorem abortAll_executor {sample : ℕ → SamplingInput (List F32) → Token} (ids : List RequestId)
    (core : EngineCore MultiProcExecutor) :
    (ids.foldl (EngineCore.abortRequest (executor sample)) core).executor = core.executor := by
  induction ids generalizing core with
  | nil => rfl
  | cons id ids ih => exact ih _

theorem mem_step_executor {sample : ℕ → SamplingInput (List F32) → Token}
    {core : EngineCore MultiProcExecutor} {id : RequestId} (ord : HashOrder) :
    id ∈ (core.step H cfg (executor sample) ord).2.executor.requestStates ↔
      id ∈ core.executor.requestStates := by
  unfold EngineCore.step EngineCore.execute
  dsimp only
  split
  · rfl
  · have hkeeps : ∀ res e, (executor sample).executeModel (core.scheduler.step H cfg ord).1
        core.executor = (res, e) → (id ∈ e.requestStates ↔ id ∈ core.executor.requestStates) := by
      intro res e he
      have he' : (core.executor.executeModel sample (core.scheduler.step H cfg ord).1).2 = e :=
        congrArg Prod.snd he
      rw [← he']
      exact executeModel_keeps _ _
    split
    · rename_i he
      rw [EngineCore.failAll_eq, abortAll_executor]
      exact hkeeps _ _ he
    · rename_i he
      rw [abortAll_executor, EngineCore.processOutputs_executor]
      exact hkeeps _ _ he

/-- The executor holds every accepted request, and the engine keeps them all as long as nothing
ends one. -/
structure Kept (H : HashFns) (cfg : Config) (hist : History MultiProcExecutor)
    (core : EngineCore MultiProcExecutor) : Prop where
  held : ∀ id, id ∈ core.executor.requestStates ↔ id ∈ hist.accepted
  known : ∀ id ∈ core.requests, id ∈ hist.accepted
  kept : (∀ id ∈ hist.accepted, id ∈ core.requests) ↔
    hist.aborted = [] ∧ ∀ t ∈ hist.steps, t.EndsNothing H cfg

namespace Kept

variable {hist : History MultiProcExecutor} {core : EngineCore MultiProcExecutor}
  {exec : Executor MultiProcExecutor}

theorem addRequest (hx : Serves exec) (h : Kept H cfg hist core) {r : InferenceRequest}
    (hfresh : r.requestId ∉ hist.accepted) (hok : (core.addRequest cfg exec r).1 = .ok ()) :
    Kept H cfg { hist with added := hist.added ++ [r] } (core.addRequest cfg exec r).2 := by
  obtain ⟨sample, rfl⟩ := hx
  obtain ⟨executor, hadd, he⟩ := EngineCore.addRequest_ok hok
  obtain rfl := congrArg Prod.snd hadd
  have hacc : ∀ id, id ∈ ({ hist with added := hist.added ++ [r] } :
      History MultiProcExecutor).accepted ↔ id = r.requestId ∨ id ∈ hist.accepted := by
    intro id
    simp [History.accepted, or_comm]
  rw [he]
  refine ⟨fun id => ?_, fun id hid => ?_, ?_⟩
  · rw [hacc, ← h.held]
    exact AList.mem_insert _
  · rw [hacc]
    exact ((AList.mem_insert _).mp hid).imp_right (h.known id)
  · rw [← h.kept]
    simp only [hacc, AList.mem_insert]
    constructor
    · intro hall id hid
      exact (hall id (Or.inr hid)).resolve_left fun he => hfresh (he ▸ hid)
    · exact fun hall id hid => hid.imp_right (hall id)

theorem rejectRequest (hx : Serves exec) (h : Kept H cfg hist core) {r : InferenceRequest}
    {e : String} (herr : (core.addRequest cfg exec r).1 = .error e) :
    Kept H cfg hist (core.addRequest cfg exec r).2 := by
  obtain ⟨sample, rfl⟩ := hx
  have he : (core.addRequest cfg (executor sample) r).2 = core := by
    unfold EngineCore.addRequest at herr ⊢
    split at herr
    · rfl
    · cases herr
  rwa [he]

theorem abortRequest (hx : Serves exec) (h : Kept H cfg hist core) (id : RequestId) :
    Kept H cfg (hist.abort id) (core.abortRequest exec id) := by
  obtain ⟨sample, rfl⟩ := hx
  unfold History.abort
  split
  · rename_i hid
    refine ⟨h.held, fun i hi => h.known i (AList.mem_erase.mp hi).2, iff_of_false ?_ ?_⟩
    · exact fun hall => (AList.mem_erase.mp (hall id hid)).1 rfl
    · exact fun hnone => List.append_ne_nil_of_right_ne_nil _ (List.cons_ne_nil id []) hnone.1
  · rename_i hid
    refine ⟨h.held, fun i hi => h.known i (AList.mem_erase.mp hi).2, ?_⟩
    rw [← h.kept]
    constructor
    · exact fun hall i hi => (AList.mem_erase.mp (hall i hi)).2
    · exact fun hall i hi => AList.mem_erase.mpr ⟨ne_of_mem_of_not_mem hi hid, hall i hi⟩

theorem step (hx : Serves exec) (h : Kept H cfg hist core) (hp : core.scheduler.Partition)
    (ord : HashOrder) :
    Kept H cfg { hist with steps := hist.steps ++ [⟨core, exec, ord⟩] }
      (core.step H cfg exec ord).2 := by
  obtain ⟨sample, rfl⟩ := hx
  have hnd : ∀ res, ((executor sample).executeModel (core.scheduler.step H cfg ord).1
      core.executor).1 = .ok res → (res.perRequestOutputs.map (·.requestId)).Nodup := by
    intro res hres
    exact executeModel_nodup (Scheduler.step_affectedOnce hp ord) hres
  obtain ⟨hsub, hkeep⟩ := EngineCore.mem_step H cfg (executor sample) core ord hnd
  refine ⟨fun id => (mem_step_executor ord).trans (h.held id),
    fun id hid => h.known id (hsub id hid), ?_⟩
  rw [List.forall_mem_append, List.forall_mem_singleton, ← and_assoc, ← h.kept, ← hkeep]
  constructor
  · exact fun hall => ⟨fun id hid => hsub id (hall id hid), fun id hid => hall id (h.known id hid)⟩
  · exact fun hall id hid => hall.2 id (hall.1 id hid)

end Kept

end MultiProcExecutor

theorem FreshRun.kept {hist : History MultiProcExecutor} {core : EngineCore MultiProcExecutor}
    (h : FreshRun H cfg MultiProcExecutor.Serves (·.requestStates = ∅) hist core) :
    MultiProcExecutor.Kept H cfg hist core := by
  induction h with
  | @new e hstart _ =>
    have hnone : ∀ id, id ∉ e.requestStates := fun id hid => by
      rw [hstart] at hid
      cases hid
    refine ⟨fun id => iff_of_false (hnone id) ?_, fun id hid => ?_, iff_of_true ?_ ⟨rfl, ?_⟩⟩
    · exact List.not_mem_nil
    · cases hid
    · exact fun id hid => absurd hid List.not_mem_nil
    · exact fun t ht => absurd ht List.not_mem_nil
  | addRequest hx r _ hfresh hok ih => exact ih.addRequest hx hfresh hok
  | rejectRequest hx r _ herr ih => exact ih.rejectRequest hx herr
  | abortRequest hx id _ ih => exact ih.abortRequest hx id
  | step hx ord hrun ih => exact ih.step hx hrun.engineRun.schedRun.partition.1 ord

/-- In every run the single process holds live requests only, with constraints or without. The
multi-process executor does so as long as no accepted request is aborted and no step ends one. -/
theorem FreshRun.holdsLive_iff (H : HashFns) (cfg : Config) :
    (∀ (Matcher : Type) (hist : History (UniProcExecutor Matcher))
      (core : EngineCore (UniProcExecutor Matcher)),
      FreshRun H cfg (UniProcExecutor.Serves cfg.cache.blockSize) (fun e => ∀ id, ¬ e.Holds id)
        hist core → HoldsLive core core.executor.tables) ∧
    ∀ (hist : History MultiProcExecutor) (core : EngineCore MultiProcExecutor),
      FreshRun H cfg MultiProcExecutor.Serves (·.requestStates = ∅) hist core →
      (HoldsLive core core.executor.tables ↔
        hist.aborted = [] ∧ ∀ t ∈ hist.steps, t.EndsNothing H cfg) := by
  constructor
  · intro Matcher hist core hrun
    have hlive := hrun.live (fun exec hx => hx.releases) fun e hstart => hstart
    refine .of_live core.executor.tables_nodup fun ids hids id hid => hlive id ?_
    exact UniProcExecutor.holds_iff.mpr ⟨ids, hids, hid⟩
  · intro hist core hrun
    have hk := hrun.kept
    rw [← hk.kept]
    constructor
    · intro hl id hid
      exact hl.live _ (List.mem_singleton_self _) id ((hk.held id).mpr hid)
    · intro hall
      refine .of_live (fun ids hids => ?_) fun ids hids id hid => ?_
      · obtain rfl := List.mem_singleton.mp hids
        exact core.executor.requestStates.nodupKeys
      · obtain rfl := List.mem_singleton.mp hids
        exact hall id ((hk.held id).mp hid)

theorem FreshRun.calls {c : History E × EngineCore E} (hx : X exec) (calls : List Call)
    (h : FreshRun H cfg X Start c.1 c.2)
    (hallowed : Call.AllAllowed H cfg exec (fun _ => True) calls c) :
    FreshRun H cfg X Start (Call.runAll H cfg exec calls c).1
      (Call.runAll H cfg exec calls c).2 := by
  induction calls generalizing c with
  | nil => exact h
  | cons call calls ih =>
    obtain ⟨hcall, hcalls⟩ := hallowed
    apply ih _ hcalls
    cases call with
    | addRequest r => exact .addRequest hx r h hcall.1 hcall.2
    | abortRequest id => exact .abortRequest hx id h
    | step => exact .step hx .id h

instance (req : EngineRequest) (stops tokens : List Token) : Decidable (req.GoesOn stops tokens) :=
  decidable_of_iff _ EngineRequest.consume_none_iff

instance (t : EngineStep E) : Decidable (t.EndsNothing H cfg) := by
  unfold EngineStep.EndsNothing
  cases (t.exec.executeModel (t.core.scheduler.step H cfg t.ord).1 t.core.executor).1 with
  | error e => exact inferInstanceAs (Decidable (_ ∨ ∀ id ∈ EngineCore.affectedIds _, _))
  | ok result =>
    exact inferInstanceAs (Decidable (_ ∨ ∀ o ∈ result.perRequestOutputs, _))

/-- A grammar library that allows everything. -/
def freeGrammar : GrammarOps constModel.Logits where
  Matcher := Unit
  compile _ := .ok ()
  maskLogits _ logits := (.ok logits, ())
  acceptToken _ _ := (true, ())

/-- A request with a constraint. -/
def constrainedRequest : InferenceRequest :=
  { smallRequest 1 [5] with
    samplingParams := { structuredOutputs := some { jsonObject := some true } } }

/-- That request on the single process, with another one that is aborted. -/
def constrainedRun : History (UniProcExecutor freeGrammar.Matcher) ×
    EngineCore (UniProcExecutor freeGrammar.Matcher) :=
  Call.runAll smallHash (smallConfig 8 false)
    (UniProcExecutor.executor constModel freeGrammar 1)
    [.addRequest constrainedRequest, .addRequest (smallRequest 2 [6]), .step, .abortRequest 2,
      .step]
    ({}, .new (smallConfig 8 false) ⟨.new, some ⟨∅⟩⟩ [])

/-- A multi-process executor of one worker that always samples the token `7`. -/
def multiExecutor : Executor MultiProcExecutor := MultiProcExecutor.executor fun _ _ => 7

/-- A script on that executor. -/
def multiRun (calls : List Call) : History MultiProcExecutor × EngineCore MultiProcExecutor :=
  Call.runAll smallHash (smallConfig 8 false) multiExecutor calls
    ({}, .new (smallConfig 8 false) ((MultiProcExecutor.new 1).initializeWorkers [8]).2 [])

theorem freshRun_multi (calls : List Call)
    (hallowed : Call.AllAllowed smallHash (smallConfig 8 false) multiExecutor (fun _ => True)
      calls
      ({}, .new (smallConfig 8 false) ((MultiProcExecutor.new 1).initializeWorkers [8]).2 [])) :
    FreshRun smallHash (smallConfig 8 false) MultiProcExecutor.Serves (·.requestStates = ∅)
      (multiRun calls).1 (multiRun calls).2 := by
  refine .calls ⟨_, rfl⟩ calls (.new ?_ []) hallowed
  rfl

/-- The single process with a constrained request, and two requests of the other executor that go on
behind their second tokens. -/
theorem FreshRun.holdsLive_goingOn :
    HoldsLive constrainedRun.2 constrainedRun.2.executor.tables ∧
    HoldsLive (multiRun [.addRequest (smallRequest 1 [5]), .addRequest (smallRequest 2 [6]), .step,
        .step]).2
      (multiRun [.addRequest (smallRequest 1 [5]), .addRequest (smallRequest 2 [6]), .step,
        .step]).2.executor.tables := by
  obtain ⟨huni, hmulti⟩ := FreshRun.holdsLive_iff smallHash (smallConfig 8 false)
  constructor
  · apply huni freeGrammar.Matcher constrainedRun.1
    refine .calls (.intro constModel freeGrammar) _ (.new ?_ []) (by decide +kernel)
    rintro id ((h | h | h) | ⟨mgr, hmgr, h⟩)
    · cases h
    · cases h
    · cases h
    · obtain rfl := Option.some.inj hmgr
      cases h
  · apply (hmulti _ _ (freshRun_multi _ (by decide +kernel))).mpr
    decide +kernel

/-- A request for one token ends with its first step, and the multi-process executor keeps it. -/
theorem FreshRun.not_holdsLive : ¬ ∀ (H : HashFns) (cfg : Config)
    (hist : History MultiProcExecutor) (core : EngineCore MultiProcExecutor),
    FreshRun H cfg MultiProcExecutor.Serves (·.requestStates = ∅) hist core →
    HoldsLive core core.executor.tables := by
  intro h
  have hl := (h smallHash (smallConfig 8 false) _ _
    (freshRun_multi [.addRequest oneTokenRequest, .step] (by decide +kernel))).live
  revert hl
  decide +kernel

end Rllm
