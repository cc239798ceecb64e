import Rllm.Engine.ComputedKV
import Rllm.Engine.Emission

/-! # Failed executions

When an execution fails the scheduler has already committed the step. The
engine gives up what the step scheduled: these requests are answered with an
error and leave every table, and the other ones stay as the scheduler left them.
-/

namespace Rllm

variable {H : HashFns} {cfg : Config} {E : Type} {exec : Executor E} {core : EngineCore E}
  {s : Scheduler} {id : RequestId} {ids : List RequestId}

/-- `s'` is `s` without some requests. The blocks they held lose their references. -/
structure Scheduler.Released (ids : List RequestId) (s s' : Scheduler) : Prop where
  requests_eq : ∀ id, s'.requests.lookup id = if id ∈ ids then none else s.requests.lookup id
  waiting_eq : s'.waiting.entries = s.waiting.entries.filter fun e => e.1 ∉ ids
  running_eq : s'.running = s.running.filter (· ∉ ids)
  finished_eq : ∀ id, id ∈ s'.finished ↔ id ∈ s.finished ∧ id ∉ ids
  blocks_eq : ∀ id, s'.kvCacheManager.requestBlocks.lookup id =
    if id ∈ ids then none else s.kvCacheManager.requestBlocks.lookup id
  computed_eq : ∀ id, s'.kvCacheManager.requestComputedTokens.lookup id =
    if id ∈ ids then none else s.kvCacheManager.requestComputedTokens.lookup id
  hashes_eq : ∀ id, s'.kvCacheManager.requestBlockHashes.lookup id =
    if id ∈ ids then none else s.kvCacheManager.requestBlockHashes.lookup id
  refs_eq : ∀ b, (s.kvCacheManager.blockPool.block b).isNull = false →
    s'.kvCacheManager.blockPool.refs b = s.kvCacheManager.blockPool.refs b -
      (ids.map fun id => (s.kvCacheManager.table id).count b).sum

/-- What a failed execution makes of the engine behind the scheduling. -/
structure Contained (ids : List RequestId) (core : EngineCore E) (outputs : List RequestOutput)
    (core' : EngineCore E) : Prop where
  outputs_eq : ∀ id, outputsFor id outputs =
    if id ∈ ids then ((core.requests.lookup id).map (failure id)).toList else []
  requests_eq : ∀ id, core'.requests.lookup id =
    if id ∈ ids then none else core.requests.lookup id
  released : core.scheduler.Released ids core'.scheduler

/-! ## References -/

namespace BlockPool

variable {p : BlockPool} {i b : ℕ}

theorem refs_free (hi : (p.block i).isNull = false) :
    (p.free b).refs i = p.refs i - [b].count i ∧ ((p.free b).block i).isNull = false := by
  unfold free
  split
  · rename_i hz
    refine ⟨?_, hi⟩
    by_cases hb : b = i
    · subst hb
      have hr : p.refs b = 0 := by simpa [hi, refs] using hz
      simp [hr]
    · simp [hb]
  · rename_i hz
    simp only [Bool.or_eq_true, not_or, decide_eq_true_iff] at hz
    have hlt : b < p.blocks.length := by
      by_contra hge
      exact hz.2 (by simp [block, blockAt, List.getElem?_eq_none (not_lt.mp hge)])
    have hblock := block_modifyBlock (p := p) (fun c => { c with refCount := c.refCount - 1 }) i hlt
    have hmod : (p.modifyBlock b fun c => { c with refCount := c.refCount - 1 }).refs i =
        p.refs i - [b].count i ∧
        ((p.modifyBlock b fun c => { c with refCount := c.refCount - 1 }).block i).isNull =
          false := by
      rw [refs, hblock]
      by_cases hb : b = i
      · simp [hb, hi, refs]
      · simp [hb, hi, refs]
    dsimp only
    split
    · constructor
      · exact (congrFun (refs_linkFront _ b) i).trans hmod.1
      · exact (congrArg KVCacheBlock.isNull (linkFront_core _ b i)).trans hmod.2
    · exact hmod

theorem refs_freeAll (bs : List BlockId) (hi : (p.block i).isNull = false) :
    (freeAll bs p).refs i = p.refs i - bs.count i ∧ ((freeAll bs p).block i).isNull = false := by
  induction bs generalizing p with
  | nil => exact ⟨rfl, hi⟩
  | cons b bs ih =>
    obtain ⟨hr, hn⟩ := refs_free (b := b) hi
    obtain ⟨hr', hn'⟩ := ih hn
    refine ⟨hr'.trans ?_, hn'⟩
    rw [hr, Nat.sub_sub, ← List.count_append, List.singleton_append]

end BlockPool

/-! ## Aborted requests -/

namespace Scheduler

theorem Released.refl (s : Scheduler) : s.Released [] s := by
  constructor <;> simp

theorem abortRequest_released (s : Scheduler) (id : RequestId) :
    s.Released [id] (s.abortRequest id) ∧ ∀ b, (s.kvCacheManager.blockPool.block b).isNull = false →
      ((s.abortRequest id).kvCacheManager.blockPool.block b).isNull = false := by
  have herase : ∀ {β : RequestId → Type} (m : AList β) (i : RequestId),
      (m.erase id).lookup i = if i ∈ [id] then none else m.lookup i := by
    intro β m i
    by_cases hi : i = id
    · subst hi
      simp [AList.lookup_erase]
    · simp [hi, AList.lookup_erase_ne hi]
  have hrefs : ∀ b, (s.kvCacheManager.blockPool.block b).isNull = false →
      (s.abortRequest id).kvCacheManager.blockPool.refs b = s.kvCacheManager.blockPool.refs b -
        (s.kvCacheManager.table id).count b ∧
      ((s.abortRequest id).kvCacheManager.blockPool.block b).isNull = false := by
    intro b hb
    unfold abortRequest KVCacheManager.free KVCacheManager.table
    cases s.kvCacheManager.requestBlocks.lookup id with
    | none => exact ⟨rfl, hb⟩
    | some bs => exact BlockPool.refs_freeAll bs hb
  refine ⟨⟨herase _, ?_, ?_, fun i => ?_, herase _, herase _, herase _, fun b hb => ?_⟩,
    fun b hb => (hrefs b hb).2⟩
  · simp [abortRequest, RequestQueue.remove]
  · simp [abortRequest]
  · simp [abortRequest, and_comm]
  · simpa using (hrefs b hb).1

theorem abortAll_released (hnd : ids.Nodup) (s : Scheduler) :
    s.Released ids (ids.foldl abortRequest s) := by
  induction ids generalizing s with
  | nil => exact .refl s
  | cons id ids ih =>
    obtain ⟨hid, hnd⟩ := List.nodup_cons.mp hnd
    obtain ⟨h₁, hnull⟩ := s.abortRequest_released id
    have h₂ := ih hnd (s.abortRequest id)
    have hlook : ∀ {α : Type} (i : RequestId) (x : Option α),
        (if i ∈ ids then none else if i ∈ [id] then none else x) =
          if i ∈ id :: ids then none else x := by
      intro α i x
      by_cases hi : i = id <;> by_cases his : i ∈ ids <;> simp [hi, his]
    have hkeep : ∀ i, decide (i ∉ id :: ids) = (decide (i ∉ ids) && decide (i ∉ [id])) := by
      intro i
      simp [Bool.and_comm]
    refine ⟨fun i => ?_, ?_, ?_, fun i => ?_, fun i => ?_, fun i => ?_, fun i => ?_,
      fun b hb => ?_⟩
    · exact (h₂.requests_eq i).trans (h₁.requests_eq i ▸ hlook i _)
    · refine h₂.waiting_eq.trans ?_
      rw [h₁.waiting_eq, List.filter_filter]
      exact List.filter_congr fun e _ => (hkeep e.1).symm
    · refine h₂.running_eq.trans ?_
      rw [h₁.running_eq, List.filter_filter]
      exact List.filter_congr fun i _ => (hkeep i).symm
    · rw [List.foldl_cons, h₂.finished_eq, h₁.finished_eq]
      simp [and_assoc]
    · exact (h₂.blocks_eq i).trans (h₁.blocks_eq i ▸ hlook i _)
    · exact (h₂.computed_eq i).trans (h₁.computed_eq i ▸ hlook i _)
    · exact (h₂.hashes_eq i).trans (h₁.hashes_eq i ▸ hlook i _)
    · have htables : (ids.map fun i => ((s.abortRequest id).kvCacheManager.table i).count b) =
          ids.map fun i => (s.kvCacheManager.table i).count b := by
        refine List.map_congr_left fun i hi => ?_
        have hne : i ∉ [id] := by
          simpa using ne_of_mem_of_not_mem hi hid
        rw [KVCacheManager.table, KVCacheManager.table, h₁.blocks_eq, if_neg hne]
      refine (h₂.refs_eq b (hnull b hb)).trans ?_
      rw [htables, h₁.refs_eq b hb, Nat.sub_sub]
      rfl

theorem Released.perm {ids' : List RequestId} {s' : Scheduler} (h : s.Released ids s')
    (hp : ids.Perm ids') : s.Released ids' s' := by
  have hmem : ∀ i, i ∈ ids ↔ i ∈ ids' := fun i => hp.mem_iff
  refine ⟨?_, ?_, ?_, ?_, ?_, ?_, ?_, fun b hb => ?_⟩
  · simpa only [hmem] using h.requests_eq
  · simpa only [hmem] using h.waiting_eq
  · simpa only [hmem] using h.running_eq
  · simpa only [hmem] using h.finished_eq
  · simpa only [hmem] using h.blocks_eq
  · simpa only [hmem] using h.computed_eq
  · simpa only [hmem] using h.hashes_eq
  · rw [h.refs_eq b hb]
    congr 1
    exact (hp.map _).sum_eq

end Scheduler

namespace EngineCore

theorem failAll_contained (exec : Executor E) (hnd : ids.Nodup) (core : EngineCore E) :
    Contained ids core (failAll exec ids core).1 (failAll exec ids core).2 := by
  have htext := failAll_says exec ids core
  refine ⟨fun id => ?_, fun id => (htext id).2, ?_⟩
  · have h := (htext id).1
    split at h
    · rename_i hid
      rw [h, if_pos hid]
    · rename_i hid
      rw [h, if_neg hid]
  · rw [failAll_eq, abortAll_scheduler]
    exact Scheduler.abortAll_released hnd core.scheduler

end EngineCore

/-! ## The tokens of a tracked request -/

namespace EngineRequest

variable {req : EngineRequest} {stopTokenIds tokens : List Token}

theorem consume_maxTokens :
    (req.consume stopTokenIds tokens).1.maxTokens = req.maxTokens := by
  induction tokens generalizing req with
  | nil => rfl
  | cons token tokens ih =>
    rw [consume_cons]
    split
    · rfl
    · split
      · rfl
      · exact ih

theorem consume_length_lt {k : ℕ} (hmax : req.maxTokens < k)
    (hlen : req.generatedTokenIds.length < k)
    (ho : (req.consume stopTokenIds tokens).2 = none) :
    (req.consume stopTokenIds tokens).1.generatedTokenIds.length < k := by
  induction tokens generalizing req with
  | nil => exact hlen
  | cons token tokens ih =>
    rw [consume_cons] at ho ⊢
    split at ho
    · cases ho
    · rename_i hstop
      rw [if_neg hstop]
      split at ho
      · cases ho
      · rename_i hlimit
        rw [if_neg hlimit]
        refine ih hmax ?_ ho
        rw [List.length_append, List.length_singleton]
        exact (not_le.mp hlimit).trans hmax

end EngineRequest

namespace EngineCore

/-- The tokens of every request fit a `u32`, unless one of the outputs finishes it. -/
def Countable (os : List RequestOutput) (core : EngineCore E) : Prop :=
  ∀ id req, core.requests.lookup id = some req → req.maxTokens < 2 ^ 32 ∧
    ((∃ o ∈ os, o.finished = true ∧ o.requestId = id) ∨ req.generatedTokenIds.length < 2 ^ 32)

variable {os : List RequestOutput}

theorem Countable.append (h : core.Countable os) (os' : List RequestOutput) :
    core.Countable (os ++ os') := by
  intro id req hreq
  obtain ⟨hmax, ⟨o, ho, hof⟩ | hlen⟩ := h id req hreq
  · exact ⟨hmax, Or.inl ⟨o, List.mem_append_left _ ho, hof⟩⟩
  · exact ⟨hmax, Or.inr hlen⟩

theorem Countable.processOutput (h : core.Countable os) (r : PerRequestOutput) :
    (core.processOutput r).2.Countable (os ++ (core.processOutput r).1) := by
  unfold EngineCore.processOutput
  cases hl : core.requests.lookup r.requestId with
  | none => simpa using h
  | some req =>
    intro id req' hreq'
    dsimp only at hreq' ⊢
    by_cases hid : id = r.requestId
    · subst hid
      obtain ⟨hmax, hcount⟩ := h.append _ _ _ hl
      rw [AList.lookup_insert] at hreq'
      obtain rfl := Option.some.inj hreq'
      refine ⟨by rwa [EngineRequest.consume_maxTokens], ?_⟩
      rcases hcount with hfin | hlen
      · exact Or.inl hfin
      · cases ho : (req.consume core.stopTokenIds r.tokenIds).2 with
        | none => exact Or.inr (EngineRequest.consume_length_lt hmax hlen ho)
        | some reason =>
          exact Or.inl ⟨_, List.mem_append_right _ (List.mem_singleton_self _), rfl, rfl⟩
    · rw [AList.lookup_insert_ne hid] at hreq'
      exact h.append _ id req' hreq'

theorem Countable.processOutputs (h : core.Countable os) (rs : List PerRequestOutput) :
    (processOutputs rs core).2.Countable (os ++ (processOutputs rs core).1) := by
  induction rs generalizing core os with
  | nil => exact h.append []
  | cons r rs ih =>
    have hrest := ih (h.processOutput r)
    rwa [List.append_assoc] at hrest

theorem Countable.abortAll (h : core.Countable []) (ids : List RequestId) :
    (ids.foldl (EngineCore.abortRequest exec) core).Countable [] := by
  intro id req hreq
  rw [lookup_abortAll] at hreq
  split at hreq
  · cases hreq
  · exact h id req hreq

theorem Countable.step (h : core.Countable []) (H : HashFns) (cfg : Config) (exec : Executor E)
    (ord : HashOrder) : (core.step H cfg exec ord).2.Countable [] := by
  unfold EngineCore.step EngineCore.execute
  dsimp only
  split
  · exact h
  · split
    · rename_i executor _
      have hcore : Countable [] { core with
        scheduler := (core.scheduler.step H cfg ord).2, executor } := h
      rw [failAll_eq]
      exact hcore.abortAll _
    · rename_i result executor _
      have hcore : Countable [] { core with
        scheduler := (core.scheduler.step H cfg ord).2, executor } := h
      have hbook := hcore.processOutputs result.perRequestOutputs
      intro id req hreq
      rw [lookup_abortAll] at hreq
      split at hreq
      · cases hreq
      · rename_i hid
        obtain ⟨hmax, ⟨o, ho, hfin, rfl⟩ | hlen⟩ := hbook id req hreq
        · refine absurd ?_ hid
          exact List.mem_map.mpr ⟨o, List.mem_filter.mpr ⟨ho, hfin⟩, rfl⟩
        · exact ⟨hmax, Or.inr hlen⟩

end EngineCore

theorem EngineRun.countable {X : Executor E → Prop} {P : EngineStep E → Prop} {hist : History E}
    (h : EngineRun H cfg X P hist core)
    (hw : ∀ r ∈ hist.added, r.samplingParams.maxTokens.getD 16 < 2 ^ 32) : core.Countable [] := by
  induction h with
  | new => exact fun id req hreq => by cases hreq
  | @addRequest hist core exec _ r _ _ hok ih =>
    obtain ⟨executor, -, he⟩ := EngineCore.addRequest_ok hok
    have hcore := ih fun q hq => hw q (List.mem_append_left _ hq)
    rw [he]
    intro id req hreq
    dsimp only at hreq
    by_cases hid : id = r.requestId
    · subst hid
      rw [AList.lookup_insert] at hreq
      obtain rfl := Option.some.inj hreq
      exact ⟨hw r (by simp), Or.inr (Nat.two_pow_pos 32)⟩
    · rw [AList.lookup_insert_ne hid] at hreq
      exact hcore id req hreq
  | rejectRequest _ r _ herr ih =>
    obtain ⟨executor, he⟩ := EngineCore.addRequest_error herr
    rw [he]
    exact ih hw
  | @abortRequest hist core exec _ id _ ih =>
    have hadded : (hist.abort id).added = hist.added := by
      unfold History.abort
      split <;> rfl
    exact (ih (hadded ▸ hw)).abortAll [id]
  | step _ ord _ _ ih => exact (ih hw).step H cfg _ ord

/-! ## A failed step -/

namespace EngineCore

/-- A step whose execution fails answers every request it scheduled with an error and releases it.
Everything else stays as the scheduling left it. -/
theorem step_contained (H : HashFns) (cfg : Config) (exec : Executor E) (core : EngineCore E)
    (ord : HashOrder) (e : String) (hnum : (core.scheduler.step H cfg ord).1.numScheduled ≠ 0)
    (herr : (exec.executeModel (core.scheduler.step H cfg ord).1 core.executor).1 = .error e) :
    Contained (affectedIds (core.scheduler.step H cfg ord).1)
        { core with scheduler := (core.scheduler.step H cfg ord).2 }
        (core.step H cfg exec ord).1 (core.step H cfg exec ord).2 ∧
      ∀ X P hist, EngineRun H cfg X P hist core →
        (∀ r ∈ hist.added, r.samplingParams.maxTokens.getD 16 < 2 ^ 32) →
        ∀ id req, core.requests.lookup id = some req →
          (failure id req).usage.completionTokens = req.generatedTokenIds.length := by
  constructor
  · have hperm := ord.perm (affectedIds (core.scheduler.step H cfg ord).1)
    have hnd : (ord.iter (affectedIds (core.scheduler.step H cfg ord).1)).Nodup :=
      hperm.nodup_iff.mpr (List.nodup_dedup _)
    have hmem : ∀ id, id ∈ ord.iter (affectedIds (core.scheduler.step H cfg ord).1) ↔
        id ∈ affectedIds (core.scheduler.step H cfg ord).1 := fun id => hperm.mem_iff
    unfold EngineCore.step EngineCore.execute
    dsimp only
    rw [if_neg hnum]
    split
    · rename_i executor _
      obtain ⟨hout, hreq, hrel⟩ := failAll_contained exec hnd
        { core with scheduler := (core.scheduler.step H cfg ord).2, executor }
      exact ⟨by simpa only [hmem] using hout, by simpa only [hmem] using hreq, hrel.perm hperm⟩
    · rename_i result executor he
      rw [he] at herr
      cases herr
  · intro X P hist hrun hw id req hreq
    obtain ⟨-, ⟨o, ho, -⟩ | hlen⟩ := hrun.countable hw id req hreq
    · cases ho
    · simp only [failure, EngineRequest.usage, saturateU32]
      omega

/-- Two requests have been prefilled, and a third one finds too few blocks. -/
def waitingCalls : List Call :=
  [.addRequest (smallRequest 1 [5, 6]), .addRequest (smallRequest 2 [7, 8]),
    .addRequest (smallRequest 3 [9, 9, 9]), .step]

def waitingCore : EngineCore Unit :=
  (Call.runAll smallHash (smallConfig 7 false) constExecutor waitingCalls
    ({}, .new (smallConfig 7 false) () [])).2

/-- The next step fails: both requests are answered, and the one that waits is left alone. -/
theorem step_contained_waiting :
    (Contained (affectedIds (waitingCore.scheduler.step smallHash (smallConfig 7 false) .id).1)
        { waitingCore with
          scheduler := (waitingCore.scheduler.step smallHash (smallConfig 7 false) .id).2 }
        (waitingCore.step smallHash (smallConfig 7 false) failingExecutor .id).1
        (waitingCore.step smallHash (smallConfig 7 false) failingExecutor .id).2 ∧
      ∀ X P hist, EngineRun smallHash (smallConfig 7 false) X P hist waitingCore →
        (∀ r ∈ hist.added, r.samplingParams.maxTokens.getD 16 < 2 ^ 32) →
        ∀ id req, waitingCore.requests.lookup id = some req →
          (failure id req).usage.completionTokens = req.generatedTokenIds.length) ∧
      affectedIds (waitingCore.scheduler.step smallHash (smallConfig 7 false) .id).1 = [1, 2] ∧
      3 ∈ waitingCore.requests :=
  ⟨step_contained smallHash (smallConfig 7 false) failingExecutor waitingCore .id "out of memory"
    (by decide +kernel) rfl, by decide +kernel, by decide +kernel⟩

end EngineCore

end Rllm
