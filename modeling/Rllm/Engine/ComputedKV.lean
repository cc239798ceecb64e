import Rllm.Engine.Executable
import Rllm.Scheduler.Registration

/-! # Only computed blocks are cached

Blocks are registered by the scheduler, before the model runs, and a request
that is given up leaves its entries behind. The hash map holds computed blocks
only as long as no execution fails that was to fill blocks.
-/

namespace Rllm

variable {H : HashFns} {cfg : Config} {E : Type}

/-- The execution of the step returned, and what it was asked to compute includes the tokens of the
block, which has the hash. -/
def EngineStep.Computes (H : HashFns) (cfg : Config) (t : EngineStep E) (b : BlockId)
    (g : BlockHash) : Prop :=
  (t.result H cfg).isSome = true ∧ ∃ id r table n i,
    (t.core.scheduler.step H cfg t.ord).1.FillsAt H cfg (t.core.scheduler.step H cfg t.ord).2
      id r table n i b g

theorem Scheduler.listed_abortAll (ids : List RequestId) (s : Scheduler) :
    (ids.foldl Scheduler.abortRequest s).kvCacheManager.blockPool.listed =
      s.kvCacheManager.blockPool.listed := by
  induction ids generalizing s with
  | nil => rfl
  | cons id ids ih =>
    exact (ih (s.abortRequest id)).trans (KVCacheManager.listed_manager_free s.kvCacheManager id)

theorem SchedulerOutput.FillsAt.numScheduled_pos {out : SchedulerOutput} {s : Scheduler}
    {id : RequestId} {r : SchedulerRequest} {table : List BlockId} {n i : ℕ} {b : BlockId}
    {g : BlockHash} (h : out.FillsAt H cfg s id r table n i b g) : out.numScheduled ≠ 0 := by
  have hpos := List.length_pos_of_mem h.new
  unfold SchedulerOutput.numScheduled
  omega

/-- In a run on at most `2 ^ 32` blocks, in which every execution succeeds that is to fill blocks,
every cached block was computed. -/
theorem EngineRun.cachedComputed (H : HashFns) (cfg : Config) (hle : cfg.numCacheBlocks ≤ 2 ^ 32)
    (E : Type) (hist : History E) (core : EngineCore E)
    (hrun : EngineRun H cfg (fun _ => True) (fun t => t.Succeeds H cfg ∨
      t.core.scheduler.StepAll H cfg (.unregistering H cfg) t.ord) hist core) :
    ∀ g b, b ∈ core.scheduler.kvCacheManager.blockPool.listed g →
      ∃ t ∈ hist.steps, t.Computes H cfg b g := by
  induction hrun with
  | new =>
    intro g b hb
    change b ∈ (BlockPool.new _).listed g at hb
    rw [BlockPool.listed_new] at hb
    cases hb
  | addRequest _ r _ _ hok ih =>
    obtain ⟨executor, -, he⟩ := EngineCore.addRequest_ok hok
    rw [he]
    exact ih
  | rejectRequest _ r _ herr ih =>
    obtain ⟨executor, he⟩ := EngineCore.addRequest_error herr
    rw [he]
    exact ih
  | @abortRequest hist core _ _ id _ ih =>
    intro g b hb
    have hsteps : (hist.abort id).steps = hist.steps := by
      unfold History.abort
      split <;> rfl
    rw [hsteps]
    exact ih g b (Scheduler.listed_abortAll [id] core.scheduler ▸ hb)
  | @step hist core exec _ ord hrun hP ih =>
    intro g b hb
    obtain ⟨ids, he⟩ := EngineCore.step_scheduler H cfg core exec ord
    rw [he, Scheduler.listed_abortAll] at hb
    have hkept : b ∈ core.scheduler.kvCacheManager.blockPool.listed g →
        ∃ t ∈ hist.steps ++ [⟨core, exec, ord⟩], t.Computes H cfg b g := by
      intro hb
      obtain ⟨t, ht, hc⟩ := ih g b hb
      exact ⟨t, List.mem_append_left _ ht, hc⟩
    rcases hP with hok | hall
    · rcases hrun.schedRun.step_listed hle ord hb with hb | ⟨id, r, table, n, i, hf⟩
      · exact hkept hb
      · refine ⟨_, List.mem_append_right _ (List.mem_singleton_self _), ?_, id, r, table, n, i, hf⟩
        exact hok.resolve_left hf.numScheduled_pos
    · exact hkept (hrun.schedRun.step_unregistering hle hall hb)

/-- An engine with prefix caching and a request of two tokens. -/
def cachingCore (exec : Executor Unit) : EngineCore Unit :=
  ((EngineCore.new (smallConfig 8 true) () []).addRequest (smallConfig 8 true) exec
    (smallRequest 1 [5, 6])).2

theorem engineRun_caching {P : EngineStep Unit → Prop} (exec : Executor Unit)
    (hok : ((EngineCore.new (smallConfig 8 true) () []).addRequest (smallConfig 8 true) exec
      (smallRequest 1 [5, 6])).1 = .ok ()) (hP : P ⟨cachingCore exec, exec, .id⟩) :
    EngineRun smallHash (smallConfig 8 true) (fun _ => True) P
      { added := [smallRequest 1 [5, 6]], steps := [⟨cachingCore exec, exec, .id⟩] }
      ((cachingCore exec).step smallHash (smallConfig 8 true) exec .id).2 :=
  .step True.intro .id (.addRequest True.intro (smallRequest 1 [5, 6]) (.new () [])
    (by simp [History.accepted]) hok) hP

/-- The second block of the prompt is cached, and was computed. -/
theorem EngineRun.cachedComputed_small : ∃ g,
    (promptHashes smallHash (smallConfig 8 true).cache [5, 6])[1]? = some g ∧
    ∃ t ∈ [(⟨cachingCore constExecutor, constExecutor, .id⟩ : EngineStep Unit)],
      t.Computes smallHash (smallConfig 8 true) 2 g :=
  ⟨_, rfl, EngineRun.cachedComputed smallHash (smallConfig 8 true) (by decide) Unit _ _
    (engineRun_caching constExecutor rfl (Or.inl (Or.inr (by decide +kernel)))) _ 2
    (by decide +kernel)⟩

/-- An executor that fails. -/
def failingExecutor : Executor Unit where
  executeModel _ _ := (.error "out of memory", ())
  addRequest _ _ _ _ := (.ok (), ())
  abortRequest _ _ := ()

/-- The only execution fails, and its request is given up, but the blocks of the prompt stay
cached. -/
theorem EngineRun.not_cachedComputed : ¬ ∀ (H : HashFns) (cfg : Config),
    cfg.numCacheBlocks ≤ 2 ^ 32 → ∀ (E : Type) (hist : History E) (core : EngineCore E),
    EngineRun H cfg (fun _ => True) (fun _ => True) hist core →
    ∀ g b, b ∈ core.scheduler.kvCacheManager.blockPool.listed g →
      ∃ t ∈ hist.steps, t.Computes H cfg b g := by
  intro h
  obtain ⟨t, ht, hok, -⟩ := h smallHash (smallConfig 8 true) (by decide) Unit _ _
    (engineRun_caching failingExecutor rfl True.intro)
    ((promptHashes smallHash (smallConfig 8 true).cache [5, 6]).getD 1 0) 2 (by decide +kernel)
  obtain rfl := List.mem_singleton.mp ht
  revert hok
  decide +kernel

end Rllm
