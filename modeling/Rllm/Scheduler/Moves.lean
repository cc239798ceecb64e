import Mathlib.Logic.Relation
import Rllm.Scheduler.Partition

/-! # The moves of a scheduling step

A step is a sequence of moves on the scheduler and on the output. `Move` says
once what each of them does and when it happens; the invariants of the
scheduler are proved move by move.
-/

namespace Rllm

/-- No request has been admitted yet. -/
def SchedulerOutput.NoAdmission (o : SchedulerOutput) : Prop :=
  o.scheduledNew = [] ∧ o.scheduledCached = []

/-- What is assumed of a step: `finishes` of the ids that leave as finished, `decodes` whenever a
running request is handled, `admits` whenever the admission loop looks for a request. -/
structure Guards where
  finishes : RequestId → Prop
  decodes : StepState → RequestId → Prop
  admits : StepState → Prop

/-- Nothing is assumed. -/
def Guards.any : Guards := ⟨fun _ => True, fun _ _ => True, fun _ => True⟩

/-- A request about to leave the queue, with the tokens found in the prefix cache and those
scheduled for prefill: none when the whole prompt is cached. -/
structure Admission where
  requestId : RequestId
  numCached : ℕ
  numTokens : ℕ
  deriving DecidableEq, Repr

section Moves

variable (H : HashFns) (cfg : Config)

namespace StepState

variable (st : StepState)

/-- The request that an iteration of the admission loop selects, its cached tokens and the state
after the lookups. -/
def selection : Option (RequestId × ℕ × StepState) :=
  match st.sched.selectWaitingRequest H cfg with
  | (none, _) => none
  | (some id, sched) => some (id, StepState.cachedOf H cfg { st with sched } id)

/-- The admission that an iteration of the admission loop makes. -/
def admission : Option Admission :=
  match st.selection H cfg with
  | none => none
  | some (id, numCached, st) =>
    let promptLen := ((st.sched.requests.lookup id).map (·.promptTokenIds.length)).getD 0
    let tokens := st.prefillTokens cfg promptLen numCached
    if promptLen - numCached = 0 then some ⟨id, numCached, 0⟩
    else if tokens = 0 then none
    else if (st.sched.kvCacheManager.allocateSlots cfg.cache id (numCached + tokens)
      numCached).1.isSome then some ⟨id, numCached, tokens⟩
    else none

end StepState

/-- `st` comes from `st₀` by looking waiting requests up in the prefix cache. -/
structure Probing (st₀ st : StepState) : Prop where
  output_eq : st.output = st₀.output
  budget_eq : st.budgetUsed = st₀.budgetUsed
  waiting_eq : st.sched.waiting = st₀.sched.waiting
  running_eq : st.sched.running = st₀.sched.running
  hashMap_eq : st.sched.kvCacheManager.blockPool.hashMap =
    st₀.sched.kvCacheManager.blockPool.hashMap
  origin : ∀ id r, st.sched.requests.lookup id = some r → ∃ r₀,
    st₀.sched.requests.lookup id = some r₀ ∧ r.request = r₀.request ∧
      r.promptTokenIds = r₀.promptTokenIds ∧ (r.cachedBlockIds = [] → r₀.cachedBlockIds = [])

/-- The moves of a step under guards. -/
inductive Move (K : Guards) : StepState → StepState → Prop
  | finish {st : StepState} {id : RequestId} {r : SchedulerRequest}
      (hg : K.finishes id) (hr : st.sched.requests.lookup id = some r)
      (hf : r.status.isFinished = true) (hs : st.output.scheduledRunning = [])
      (hp : st.output.preempted = []) (ho : st.output.NoAdmission)
      (hn : id ∉ st.output.finished) : Move K st (st.finishOne id)
  | markLength {st : StepState} {id : RequestId} {r : SchedulerRequest} (hg : K.decodes st id)
      (hid : id ∈ st.sched.running) (hr : st.sched.requests.lookup id = some r)
      (hlen : cfg.maxModelLen ≤ r.numComputedTokens) (hs : id ∉ st.output.scheduledRunning)
      (hp : st.output.preempted = []) (ho : st.output.NoAdmission) :
      Move K st { st with
        sched := st.sched.modifyRequest id fun r => { r with status := .finishedLength } }
  | decode {st : StepState} {id : RequestId} {r : SchedulerRequest} (hg : K.decodes st id)
      (hid : id ∈ st.sched.running) (hr : st.sched.requests.lookup id = some r)
      (hlen : r.numComputedTokens < cfg.maxModelLen)
      (hb : st.budgetUsed < cfg.scheduler.maxNumScheduledTokens)
      (hn : divCeil (r.numComputedTokens + (1 + r.request.samplingParams.specTokens))
        cfg.cache.blockSize ≤ divCeil r.numComputedTokens cfg.cache.blockSize)
      (hs : id ∉ st.output.scheduledRunning) (ht : id ∉ st.toPreempt)
      (hp : st.output.preempted = []) (ho : st.output.NoAdmission) :
      Move K st (st.scheduleDecode id (1 + r.request.samplingParams.specTokens))
  | decodeGrow {st : StepState} {id : RequestId} {r : SchedulerRequest} {bs : List BlockId}
      {kv : KVCacheManager} (hg : K.decodes st id)
      (hid : id ∈ st.sched.running) (hr : st.sched.requests.lookup id = some r)
      (hlen : r.numComputedTokens < cfg.maxModelLen)
      (hb : st.budgetUsed < cfg.scheduler.maxNumScheduledTokens)
      (hn : divCeil r.numComputedTokens cfg.cache.blockSize <
        divCeil (r.numComputedTokens + (1 + r.request.samplingParams.specTokens))
          cfg.cache.blockSize)
      (ha : st.sched.kvCacheManager.allocateSlots cfg.cache id (r.numComputedTokens +
        (1 + r.request.samplingParams.specTokens)) r.numComputedTokens = (some bs, kv))
      (hs : id ∉ st.output.scheduledRunning) (ht : id ∉ st.toPreempt)
      (hp : st.output.preempted = []) (ho : st.output.NoAdmission) :
      Move K st ((st.setKV kv).scheduleDecode id (1 + r.request.samplingParams.specTokens))
  | starve {st : StepState} {id : RequestId} {r : SchedulerRequest} {kv : KVCacheManager}
      (hg : K.decodes st id) (hid : id ∈ st.sched.running)
      (hr : st.sched.requests.lookup id = some r) (hlen : r.numComputedTokens < cfg.maxModelLen)
      (hn : divCeil r.numComputedTokens cfg.cache.blockSize <
        divCeil (r.numComputedTokens + (1 + r.request.samplingParams.specTokens))
          cfg.cache.blockSize)
      (ha : st.sched.kvCacheManager.allocateSlots cfg.cache id (r.numComputedTokens +
        (1 + r.request.samplingParams.specTokens)) r.numComputedTokens = (none, kv))
      (hs : id ∉ st.output.scheduledRunning) (ht : id ∉ st.toPreempt)
      (hp : st.output.preempted = []) (ho : st.output.NoAdmission) :
      Move K st { st.setKV kv with toPreempt := st.toPreempt ++ [id] }
  | preempt {st : StepState} {id : RequestId} (hid : id ∈ st.sched.running)
      (ht : id ∈ st.toPreempt) (hs : id ∉ st.output.scheduledRunning)
      (ho : st.output.NoAdmission) : Move K st (st.preemptOne cfg id)
  | note {st : StepState} (a : PrefixCacheAdmission) :
      Move K st { st with sched := { st.sched with prefixCacheAdmission := a } }
  | probe {st st₀ : StepState} {id : RequestId} {r : SchedulerRequest} (hA : K.admits st₀)
      (hpr : Probing st₀ st) (hid : id ∈ st.sched.waiting.ids)
      (hr : st.sched.requests.lookup id = some r) (hc : r.cachedBlockIds = [])
      (he : cfg.cache.enablePrefixCaching = true) :
      Move K st { st with
        sched := (st.sched.probe H cfg id r.promptTokenIds
          r.request.samplingParams.skipReadingPrefixCache).2 }
  | admitCached {st st₀ : StepState} {id : RequestId} {r : SchedulerRequest} (hA : K.admits st₀)
      (hpr : Probing st₀ st) (hid : id ∈ st.sched.waiting.ids)
      (hr : st.sched.requests.lookup id = some r)
      (hb : st.budgetUsed < cfg.scheduler.maxNumScheduledTokens)
      (hm : st.sched.running.length < cfg.scheduler.maxNumSeqs)
      (hrem : r.promptTokenIds.length ≤ r.numComputedTokens)
      (ha : st₀.admission H cfg = some ⟨id, r.numComputedTokens, 0⟩) :
      Move K st (st.admitCached id)
  | admitNew {st st₀ : StepState} {id : RequestId} {r : SchedulerRequest} {tokens : ℕ}
      {bs : List BlockId} {kv : KVCacheManager} (hA : K.admits st₀) (hpr : Probing st₀ st)
      (hid : id ∈ st.sched.waiting.ids) (hr : st.sched.requests.lookup id = some r)
      (hb : st.budgetUsed < cfg.scheduler.maxNumScheduledTokens)
      (hm : st.sched.running.length < cfg.scheduler.maxNumSeqs)
      (hrem : r.numComputedTokens < r.promptTokenIds.length)
      (ht : tokens = st.prefillTokens cfg r.promptTokenIds.length r.numComputedTokens)
      (hpos : 0 < tokens)
      (hkv : st.sched.kvCacheManager.allocateSlots cfg.cache id (r.numComputedTokens + tokens)
        r.numComputedTokens = (some bs, kv))
      (ha : st₀.admission H cfg = some ⟨id, r.numComputedTokens, tokens⟩)
      (hsel : st₀.selection H cfg = some (id, r.numComputedTokens, st)) :
      Move K st ((st.setKV kv).admitNew cfg id tokens (r.numComputedTokens + tokens))
  | admitFail {st st₀ : StepState} {id : RequestId} {r : SchedulerRequest} {tokens : ℕ}
      {kv : KVCacheManager} (hA : K.admits st₀) (hpr : Probing st₀ st)
      (hid : id ∈ st.sched.waiting.ids) (hr : st.sched.requests.lookup id = some r)
      (ht : tokens = st.prefillTokens cfg r.promptTokenIds.length r.numComputedTokens)
      (hpos : 0 < tokens)
      (hkv : st.sched.kvCacheManager.allocateSlots cfg.cache id (r.numComputedTokens + tokens)
        r.numComputedTokens = (none, kv))
      (hsel : st₀.selection H cfg = some (id, r.numComputedTokens, st)) :
      Move K st (st.setKV kv)

/-- A sequence of moves. -/
def Moves (K : Guards) : StepState → StepState → Prop := Relation.ReflTransGen (Move H cfg K)

namespace StepState

/-- `G` holds of every request the decode loop reaches. -/
def RunningAll (G : StepState → RequestId → Prop) : List RequestId → StepState → Prop
  | [], _ => True
  | id :: ids, st => st.budgetUsed < cfg.scheduler.maxNumScheduledTokens →
    G st id ∧ RunningAll G ids (st.runningIter cfg id)

/-- `A` holds whenever the admission loop looks for a request. -/
def WaitingAll (A : StepState → Prop) : ℕ → StepState → Prop
  | 0, _ => True
  | n + 1, st => st.canAdmit cfg = true → st.sched.running.length < cfg.scheduler.maxNumSeqs →
    A st ∧ match st.waitingIter H cfg with
      | .done _ => True
      | .yield st => WaitingAll A n st

end StepState

/-- The guards hold throughout a step. -/
def Scheduler.StepAll (K : Guards) (ord : HashOrder) (s : Scheduler) : Prop :=
  s.paused = false →
    let st := StepState.processFinished { sched := s } ord
    (∀ id r, s.requests.lookup id = some r → r.status.isFinished = true → K.finishes id) ∧
      st.RunningAll cfg K.decodes st.sched.running ∧
      (st.scheduleRunning cfg).WaitingAll H cfg K.admits
        ((st.scheduleRunning cfg).sched.waiting.len + 1)

variable {H cfg}

instance StepState.decidableRunningAll {G : StepState → RequestId → Prop}
    [∀ st id, Decidable (G st id)] :
    ∀ (ids : List RequestId) (st : StepState), Decidable (st.RunningAll cfg G ids)
  | [], _ => .isTrue True.intro
  | id :: ids, st =>
    have : Decidable ((st.runningIter cfg id).RunningAll cfg G ids) :=
      decidableRunningAll ids (st.runningIter cfg id)
    inferInstanceAs (Decidable (st.budgetUsed < cfg.scheduler.maxNumScheduledTokens →
      G st id ∧ (st.runningIter cfg id).RunningAll cfg G ids))

instance StepState.decidableWaitingAll {A : StepState → Prop} [DecidablePred A] :
    ∀ (n : ℕ) (st : StepState), Decidable (st.WaitingAll H cfg A n)
  | 0, _ => .isTrue True.intro
  | n + 1, st => by
    unfold StepState.WaitingAll
    cases st.waitingIter H cfg with
    | done _ => infer_instance
    | yield st' =>
      have : Decidable (st'.WaitingAll H cfg A n) := decidableWaitingAll n st'
      infer_instance

end Moves

namespace StepState

variable {st : StepState} {id i : RequestId}

/-! ## What the parts of a step leave alone -/

@[simp] theorem copyBlockTable_sched : (st.copyBlockTable id).sched = st.sched := by
  unfold copyBlockTable; split <;> rfl

@[simp] theorem copyBlockTable_budgetUsed : (st.copyBlockTable id).budgetUsed = st.budgetUsed := by
  unfold copyBlockTable; split <;> rfl

@[simp] theorem copyBlockTable_toPreempt : (st.copyBlockTable id).toPreempt = st.toPreempt := by
  unfold copyBlockTable; split <;> rfl

theorem copyBlockTable_output : (st.copyBlockTable id).output =
    { st.output with blockTables := (st.copyBlockTable id).output.blockTables } := by
  unfold copyBlockTable; split <;> rfl

theorem lookup_copyBlockTable : (st.copyBlockTable id).output.blockTables.lookup i =
    if i = id then (st.sched.kvCacheManager.requestBlocks.lookup id).or
      (st.output.blockTables.lookup id) else st.output.blockTables.lookup i := by
  unfold copyBlockTable KVCacheManager.getBlockIds
  split
  · rename_i blocks hb
    rw [lookup_insert_eq, hb]
    rfl
  · rename_i hb
    by_cases hi : i = id
    · subst hi; simp [hb]
    · simp [hi]

theorem scheduleDecode_output (st : StepState) (id : RequestId) (tokens : ℕ) :
    (st.scheduleDecode id tokens).output =
    { st.output with
      scheduledRunning := st.output.scheduledRunning ++ [id]
      numScheduledTokens := st.output.numScheduledTokens.insert id tokens
      blockTables := (st.scheduleDecode id tokens).output.blockTables } := by
  unfold scheduleDecode
  rw [copyBlockTable_output]

theorem scheduleDecode_sched (tokens : ℕ) : (st.scheduleDecode id tokens).sched =
    st.sched.modifyRequest id fun r =>
      { r with numComputedTokens := r.numComputedTokens + tokens } := by
  simp [scheduleDecode]

@[simp] theorem scheduleDecode_toPreempt (tokens : ℕ) :
    (st.scheduleDecode id tokens).toPreempt = st.toPreempt := by
  simp [scheduleDecode]

@[simp] theorem scheduleDecode_budgetUsed (tokens : ℕ) :
    (st.scheduleDecode id tokens).budgetUsed = st.budgetUsed + tokens := by
  simp [scheduleDecode]

@[simp] theorem finalOutput_scheduledNew :
    st.finalOutput.scheduledNew = st.output.scheduledNew := rfl

@[simp] theorem finalOutput_scheduledCached :
    st.finalOutput.scheduledCached = st.output.scheduledCached := rfl

@[simp] theorem finalOutput_scheduledRunning :
    st.finalOutput.scheduledRunning = st.output.scheduledRunning := rfl

@[simp] theorem finalOutput_numScheduledTokens :
    st.finalOutput.numScheduledTokens = st.output.numScheduledTokens := rfl

@[simp] theorem finalOutput_blockTables :
    st.finalOutput.blockTables = st.output.blockTables := rfl

@[simp] theorem finalOutput_preempted : st.finalOutput.preempted = st.output.preempted := rfl

@[simp] theorem finalOutput_finished : st.finalOutput.finished = st.output.finished := rfl

theorem runningIter_move (H : HashFns) (cfg : Config) {K : Guards} (hg : K.decodes st id)
    (hid : id ∈ st.sched.running)
    (hb : st.budgetUsed < cfg.scheduler.maxNumScheduledTokens)
    (hs : id ∉ st.output.scheduledRunning) (ht : id ∉ st.toPreempt)
    (hp : st.output.preempted = []) (ho : st.output.NoAdmission) :
    st.runningIter cfg id = st ∨ Move H cfg K st (st.runningIter cfg id) := by
  unfold runningIter
  split
  · exact Or.inl rfl
  · rename_i r hr
    right
    split
    · rename_i hlen
      exact .markLength hg hid hr hlen hs hp ho
    · rename_i hlen
      dsimp only
      split
      · rename_i hn
        split
        · rename_i bs kv ha
          exact .decodeGrow hg hid hr (not_le.mp hlen) hb hn ha hs ht hp ho
        · rename_i kv ha
          exact .starve hg hid hr (not_le.mp hlen) hn ha hs ht hp ho
      · rename_i hn
        exact .decode hg hid hr (not_le.mp hlen) hb (not_lt.mp hn) hs ht hp ho

/-- What the decode loop leaves alone: the running list and the admissions. -/
structure DecodeFrame (st st' : StepState) (id : RequestId) : Prop where
  running_eq : st'.sched.running = st.sched.running
  preempted_eq : st'.output.preempted = st.output.preempted
  new_eq : st'.output.scheduledNew = st.output.scheduledNew
  cached_eq : st'.output.scheduledCached = st.output.scheduledCached
  scheduled : ∀ i, i ∈ st'.output.scheduledRunning → i ∈ st.output.scheduledRunning ∨ i = id
  toPreempt : ∀ i, i ∈ st'.toPreempt → i ∈ st.toPreempt ∨ i = id
  nodup : id ∉ st.toPreempt → st.toPreempt.Nodup → st'.toPreempt.Nodup
  exclusive : id ∉ st.output.scheduledRunning → id ∉ st.toPreempt →
    id ∈ st'.output.scheduledRunning → id ∉ st'.toPreempt

theorem runningIter_frame (cfg : Config) : DecodeFrame st (st.runningIter cfg id) id := by
  have hdecode : ∀ (st' : StepState) (k : ℕ), st'.sched.running = st.sched.running →
      st'.output = st.output → st'.toPreempt = st.toPreempt →
      DecodeFrame st (st'.scheduleDecode id k) id := by
    intro st' k hr ho ht
    have hout := st'.scheduleDecode_output id k
    refine ⟨?_, ?_, ?_, ?_, ?_, ?_, ?_, ?_⟩
    · rw [scheduleDecode_sched, Scheduler.modifyRequest_running, hr]
    · rw [hout, ho]
    · rw [hout, ho]
    · rw [hout, ho]
    · rw [hout, ho]; simp
    · rw [scheduleDecode_toPreempt, ht]; exact fun i hi => Or.inl hi
    · rw [scheduleDecode_toPreempt, ht]; exact fun _ h => h
    · rw [scheduleDecode_toPreempt, ht]; exact fun _ h _ => h
  unfold runningIter
  split
  · exact ⟨rfl, rfl, rfl, rfl, fun _ h => Or.inl h, fun _ h => Or.inl h, fun _ h => h,
      fun _ h _ => h⟩
  · split
    · refine ⟨?_, rfl, rfl, rfl, fun _ h => Or.inl h, fun _ h => Or.inl h, fun _ h => h,
        fun _ h _ => h⟩
      simp
    · dsimp only
      split
      · split
        · exact hdecode _ _ rfl rfl rfl
        · refine ⟨rfl, rfl, rfl, rfl, fun _ h => Or.inl h, ?_, ?_, fun hs _ h => absurd h hs⟩
          · simp
          · intro hid hnd
            refine List.nodup_append.mpr ⟨hnd, List.nodup_singleton _, fun a ha b hb hab => ?_⟩
            rw [List.mem_singleton.mp hb] at hab
            exact hid (hab ▸ ha)
      · exact hdecode _ _ rfl rfl rfl

/-! ## A step is a sequence of moves -/

variable {H : HashFns} {cfg : Config} {K : Guards}

theorem processFinished_moves (H : HashFns) (cfg : Config) (K : Guards) (st : StepState)
    (ord : HashOrder) (hs : st.output.scheduledRunning = [])
    (hp : st.output.preempted = []) (ho : st.output.NoAdmission) (hn : st.output.finished = [])
    (hk : ∀ id r, st.sched.requests.lookup id = some r → r.status.isFinished = true →
      K.finishes id) :
    Moves H cfg K st (st.processFinished ord) ∧
      (st.processFinished ord).output.scheduledRunning = [] ∧
      (st.processFinished ord).output.preempted = [] ∧
      (st.processFinished ord).output.NoAdmission ∧
      (st.processFinished ord).toPreempt = st.toPreempt := by
  unfold processFinished
  generalize hl : List.filter _ _ = ids
  have hids : ∀ id ∈ ids, ∃ r, st.sched.requests.lookup id = some r ∧
      r.status.isFinished = true := by
    intro id hid
    rw [← hl, List.mem_filter] at hid
    exact (Option.any_eq_true _ _).mp hid.2
  have hnd : ids.Nodup := by
    rw [← hl]
    exact (((ord.perm _).nodup_iff).mpr st.sched.requests.keys_nodup).filter _
  have hfresh : ∀ id ∈ ids, id ∉ st.output.finished := by simp [hn]
  clear hl hn
  dsimp only
  induction ids generalizing st with
  | nil => exact ⟨.refl, hs, hp, ho, rfl⟩
  | cons id ids ih =>
    obtain ⟨r, hr, hf⟩ := hids id (by simp)
    obtain ⟨hid, hnd⟩ := List.nodup_cons.mp hnd
    obtain ⟨hm, h⟩ := @ih (st.finishOne id) hs hp ho hk
      (fun i hi => hids i (List.mem_cons_of_mem _ hi)) hnd fun i hi => by
        simp only [finishOne, List.mem_append, List.mem_singleton, not_or]
        exact ⟨hfresh i (List.mem_cons_of_mem _ hi), ne_of_mem_of_not_mem hi hid⟩
    exact ⟨.head (.finish (hk id r hr hf) hr hf hs hp ho (hfresh id (by simp))) hm, h⟩

/-- The decode loop is about to handle the listed requests. -/
structure DecodeReady (st : StepState) (ids : List RequestId) : Prop where
  running : ∀ id ∈ ids, id ∈ st.sched.running
  nodup : ids.Nodup
  fresh : ∀ id ∈ ids, id ∉ st.output.scheduledRunning ∧ id ∉ st.toPreempt
  preempted_nil : st.output.preempted = []
  noAdmission : st.output.NoAdmission
  preempt_nodup : st.toPreempt.Nodup
  preempt_running : ∀ id ∈ st.toPreempt, id ∈ st.sched.running
  preempt_fresh : ∀ id ∈ st.toPreempt, id ∉ st.output.scheduledRunning

theorem DecodeReady.iter {ids : List RequestId} (h : DecodeReady st (id :: ids)) :
    DecodeReady (st.runningIter cfg id) ids := by
  have hf : DecodeFrame st (st.runningIter cfg id) id := runningIter_frame cfg
  obtain ⟨hid, hnd⟩ := List.nodup_cons.mp h.nodup
  obtain ⟨hs, ht⟩ := h.fresh id (by simp)
  have hne : ∀ i ∈ ids, i ≠ id := fun i hi he => hid (he ▸ hi)
  refine ⟨?_, hnd, ?_, hf.preempted_eq.trans h.preempted_nil, ?_, hf.nodup ht h.preempt_nodup, ?_,
    ?_⟩
  · intro i hi
    rw [hf.running_eq]
    exact h.running i (List.mem_cons_of_mem _ hi)
  · intro i hi
    obtain ⟨his, hit⟩ := h.fresh i (List.mem_cons_of_mem _ hi)
    exact ⟨fun hc => (hf.scheduled i hc).elim his (hne i hi),
      fun hc => (hf.toPreempt i hc).elim hit (hne i hi)⟩
  · exact ⟨hf.new_eq.trans h.noAdmission.1, hf.cached_eq.trans h.noAdmission.2⟩
  · intro i hi
    rw [hf.running_eq]
    rcases hf.toPreempt i hi with hi | rfl
    · exact h.preempt_running i hi
    · exact h.running i (by simp)
  · intro i hi hc
    rcases hf.scheduled i hc with hc' | rfl
    · rcases hf.toPreempt i hi with hi | rfl
      · exact h.preempt_fresh i hi hc'
      · exact hs hc'
    · exact hf.exclusive hs ht hc hi

theorem DecodeReady.stop {ids : List RequestId} (h : DecodeReady st ids) : DecodeReady st [] :=
  ⟨by simp, List.nodup_nil, by simp, h.preempted_nil, h.noAdmission, h.preempt_nodup,
    h.preempt_running, h.preempt_fresh⟩

theorem runningLoop_moves {ids : List RequestId} (h : DecodeReady st ids)
    (hg : st.RunningAll cfg K.decodes ids) :
    Moves H cfg K st (st.runningLoop cfg ids) ∧ DecodeReady (st.runningLoop cfg ids) [] := by
  induction ids generalizing st with
  | nil => exact ⟨.refl, h⟩
  | cons id ids ih =>
    unfold runningLoop
    split
    · exact ⟨.refl, h.stop⟩
    · rename_i hb
      obtain ⟨hgi, hgs⟩ := hg (not_le.mp hb)
      obtain ⟨hm, hr⟩ := ih h.iter hgs
      obtain ⟨hs, ht⟩ := h.fresh id (by simp)
      refine ⟨?_, hr⟩
      rcases runningIter_move H cfg (K := K) hgi (h.running id (by simp)) (not_le.mp hb) hs ht
        h.preempted_nil h.noAdmission with he | hmv
      · rwa [he] at hm ⊢
      · exact .head hmv hm

theorem preemptOne_running : (st.preemptOne cfg id).sched.running =
    st.sched.running.filter (· ≠ id) := by
  unfold preemptOne Scheduler.preemptRequest
  dsimp only
  split <;> rfl

theorem preemptAll_moves {ids : List RequestId} (hnd : ids.Nodup)
    (hr : ∀ id ∈ ids, id ∈ st.sched.running) (ht : ∀ id ∈ ids, id ∈ st.toPreempt)
    (hs : ∀ id ∈ ids, id ∉ st.output.scheduledRunning) (ho : st.output.NoAdmission) :
    Moves H cfg K st (ids.foldl (preemptOne cfg) st) ∧
      (ids.foldl (preemptOne cfg) st).output.NoAdmission := by
  induction ids generalizing st with
  | nil => exact ⟨.refl, ho⟩
  | cons id ids ih =>
    obtain ⟨hid, hnd⟩ := List.nodup_cons.mp hnd
    obtain ⟨hm, hno⟩ := @ih (st.preemptOne cfg id) hnd
      (fun i hi => by
        rw [preemptOne_running, List.mem_filter]
        exact ⟨hr i (List.mem_cons_of_mem _ hi),
          by simpa using fun he : i = id => hid (he ▸ hi)⟩)
      (fun i hi => ht i (List.mem_cons_of_mem _ hi))
      (fun i hi => hs i (List.mem_cons_of_mem _ hi)) ho
    exact ⟨.head (.preempt (hr id (by simp)) (ht id (by simp)) (hs id (by simp)) ho) hm, hno⟩

theorem scheduleRunning_moves (hn : st.sched.running.Nodup) (hs : st.output.scheduledRunning = [])
    (hp : st.output.preempted = []) (ho : st.output.NoAdmission) (ht : st.toPreempt = [])
    (hg : st.RunningAll cfg K.decodes st.sched.running) :
    Moves H cfg K st (st.scheduleRunning cfg) ∧ (st.scheduleRunning cfg).output.NoAdmission := by
  have hready : DecodeReady st st.sched.running := by
    refine ⟨fun _ h => h, hn, ?_, hp, ho, ?_, ?_, ?_⟩ <;> simp [hs, ht]
  obtain ⟨hm, hr⟩ := runningLoop_moves (H := H) hready hg
  obtain ⟨hm', ho'⟩ := preemptAll_moves (H := H) (K := K) hr.preempt_nodup
    hr.preempt_running (fun _ h => h) hr.preempt_fresh hr.noAdmission
  exact ⟨hm.trans hm', ho'⟩

end StepState

/-! ## The admission loop -/

section Admission

variable {H : HashFns} {cfg : Config} {K : Guards}

namespace Scheduler

variable {s : Scheduler} {id i : RequestId} {prompt : List Token} {skip : Bool}

@[simp] theorem probe_waiting : (s.probe H cfg id prompt skip).2.waiting = s.waiting := by
  simp [probe]

@[simp] theorem probe_running : (s.probe H cfg id prompt skip).2.running = s.running := by
  simp [probe]

@[simp] theorem probe_finished : (s.probe H cfg id prompt skip).2.finished = s.finished := by
  simp [probe]

@[simp] theorem probe_kvCacheManager : (s.probe H cfg id prompt skip).2.kvCacheManager =
    (s.kvCacheManager.getComputedBlocks H cfg.cache id prompt skip).2 := by
  simp [probe]

@[simp] theorem probe_fst : (s.probe H cfg id prompt skip).1 =
    (s.kvCacheManager.getComputedBlocks H cfg.cache id prompt skip).1.numComputedTokens := rfl

@[simp] theorem lookup_probe : (s.probe H cfg id prompt skip).2.requests.lookup i =
    if i = id then (s.requests.lookup i).map fun r =>
      { r with
        cachedBlockIds :=
          (s.kvCacheManager.getComputedBlocks H cfg.cache id prompt skip).1.cachedBlockIds
        numComputedTokens :=
          (s.kvCacheManager.getComputedBlocks H cfg.cache id prompt skip).1.numComputedTokens }
    else s.requests.lookup i := by
  simp [probe]

@[simp] theorem mem_probe : i ∈ (s.probe H cfg id prompt skip).2.requests ↔ i ∈ s.requests := by
  simp [probe]

theorem Partition.probe (h : Partition s) : Partition (s.probe H cfg id prompt skip).2 :=
  h.congr (by simp) (by simp) (by simp) (by simp)

end Scheduler

theorem KVCacheManager.getComputedBlocks_num (m : KVCacheManager) (c : CacheConfig)
    (rid : RequestId) (prompt : List Token) (skip : Bool) :
    (m.getComputedBlocks H c rid prompt skip).1.numComputedTokens =
      (m.getComputedBlocks H c rid prompt skip).1.cachedBlockIds.length * c.blockSize := by
  unfold getComputedBlocks
  split
  · simp
  · rfl

theorem hashMap_touch (p : BlockPool) (b : BlockId) : (p.touch b).hashMap = p.hashMap := by
  unfold BlockPool.touch
  split
  · split <;> rfl
  · rfl

theorem hashMap_getCachedBlock {p p' : BlockPool} {h : BlockHash} {b : BlockId}
    (hg : p.getCachedBlock h = some (b, p')) : p'.hashMap = p.hashMap := by
  unfold BlockPool.getCachedBlock at hg
  split at hg
  · rename_i c _
    obtain ⟨-, rfl⟩ := Prod.mk.inj (Option.some.inj hg)
    rw [← hashMap_touch p c]
    dsimp only [BlockPool.modifyBlock]
    split <;> split <;> rfl
  · cases hg

theorem hashMap_lookupBlocks (hs : List BlockHash) (p : BlockPool) :
    (lookupBlocks hs p).2.hashMap = p.hashMap := by
  induction hs generalizing p with
  | nil => rfl
  | cons h hs ih =>
    unfold lookupBlocks
    split
    · rename_i b p' hg
      exact (ih p').trans (hashMap_getCachedBlock hg)
    · rfl

theorem KVCacheManager.hashMap_getComputedBlocks (m : KVCacheManager) (c : CacheConfig)
    (rid : RequestId) (prompt : List Token) (skip : Bool) :
    (m.getComputedBlocks H c rid prompt skip).2.blockPool.hashMap = m.blockPool.hashMap := by
  unfold getComputedBlocks
  split
  · rfl
  · exact hashMap_lookupBlocks _ _

theorem Scheduler.Partition.setKV {st : StepState} (h : st.sched.Partition)
    (kv : KVCacheManager) : (st.setKV kv).sched.Partition :=
  h.congr rfl rfl rfl fun _ => Iff.rfl

theorem Move.partition {st st' : StepState} (hm : Move H cfg K st st')
    (h : st.sched.Partition) : st'.sched.Partition := by
  cases hm with
  | finish _ hr => exact h.finishRequestInternal (Scheduler.mem_requests_iff.mpr ⟨_, hr⟩)
  | markLength => exact h.modifyRequest _ _
  | decode =>
    rw [StepState.scheduleDecode_sched]
    exact h.modifyRequest _ _
  | decodeGrow =>
    rw [StepState.scheduleDecode_sched]
    exact (h.setKV _).modifyRequest _ _
  | starve => exact h.setKV _
  | preempt hid => exact h.preemptRequest cfg hid
  | note => exact h.congr rfl rfl rfl fun _ => Iff.rfl
  | probe => exact h.probe
  | admitCached _ _ hid =>
    exact h.moveToRunning hid (by simp [StepState.admitCached]) (by simp [StepState.admitCached])
      (by simp [StepState.admitCached]) (by simp [StepState.admitCached])
  | admitNew _ _ hid =>
    unfold StepState.admitNew
    dsimp only
    refine h.moveToRunning hid ?_ ?_ ?_ ?_ <;> split <;> simp [StepState.setKV]
  | admitFail => exact h.setKV _

theorem Moves.partition {st st' : StepState} (hm : Moves H cfg K st st')
    (h : st.sched.Partition) : st'.sched.Partition := by
  induction hm with
  | refl => exact h
  | tail _ hm ih => exact hm.partition ih

/-! ## The admission loop, move by move -/

theorem Probing.refl (st : StepState) : Probing st st :=
  ⟨rfl, rfl, rfl, rfl, rfl, fun _ r hr => ⟨r, hr, rfl, rfl, fun h => h⟩⟩

theorem Probing.note {st₀ st : StepState} (h : Probing st₀ st) (a : PrefixCacheAdmission) :
    Probing st₀ { st with sched := { st.sched with prefixCacheAdmission := a } } :=
  ⟨h.output_eq, h.budget_eq, h.waiting_eq, h.running_eq, h.hashMap_eq, h.origin⟩

theorem Probing.probe {st₀ st : StepState} (h : Probing st₀ st) {id : RequestId}
    {r : SchedulerRequest} (hr : st.sched.requests.lookup id = some r) (hc : r.cachedBlockIds = [])
    (prompt : List Token) (skip : Bool) :
    Probing st₀ { st with sched := (st.sched.probe H cfg id prompt skip).2 } := by
  refine ⟨h.output_eq, h.budget_eq, ?_, ?_, ?_, fun i r' hr' => ?_⟩
  · exact Scheduler.probe_waiting.trans h.waiting_eq
  · exact Scheduler.probe_running.trans h.running_eq
  · dsimp only
    rw [Scheduler.probe_kvCacheManager, KVCacheManager.hashMap_getComputedBlocks]
    exact h.hashMap_eq
  · rw [Scheduler.lookup_probe] at hr'
    split at hr'
    · rename_i hi
      rw [hi, hr] at hr'
      obtain rfl := Option.some.inj hr'
      obtain ⟨r₀, hr₀, hreq, hprompt, hcached⟩ := h.origin id r hr
      exact ⟨r₀, hi ▸ hr₀, hreq, hprompt, fun _ => hcached hc⟩
    · exact h.origin i r' hr'

theorem selectLoop_moves {st₀ st : StepState} (hA : K.admits st₀) (hpr : Probing st₀ st)
    (he : cfg.cache.enablePrefixCaching = true) {ids : List RequestId} {best : RequestId}
    {bestCached : ℕ} (hsub : ∀ id ∈ ids, id ∈ st.sched.waiting.ids)
    (hbest : best ∈ st.sched.waiting.ids) {best' : RequestId} {bestCached' : ℕ} {s' : Scheduler}
    (hs : Scheduler.selectLoop H cfg ids best bestCached st.sched = (best', bestCached', s')) :
    Moves H cfg K st { st with sched := s' } ∧ Probing st₀ { st with sched := s' } ∧
      best' ∈ s'.waiting.ids := by
  induction ids generalizing st best bestCached with
  | nil =>
    simp only [Scheduler.selectLoop, Prod.mk.injEq] at hs
    obtain ⟨rfl, -, rfl⟩ := hs
    exact ⟨.refl, hpr, hbest⟩
  | cons id ids ih =>
    have hid := hsub id (by simp)
    have hsub' : ∀ i ∈ ids, i ∈ st.sched.waiting.ids := fun i hi =>
      hsub i (List.mem_cons_of_mem _ hi)
    unfold Scheduler.selectLoop at hs
    split at hs
    · exact ih hpr hsub' hbest hs
    · rename_i r hlk
      by_cases hc : r.cachedBlockIds = []
      · -- the request is probed: one move, which leaves the queue alone
        simp only [hc, List.isEmpty_nil, if_true] at hs
        obtain ⟨st₁, hst₁⟩ : ∃ st₁ : StepState, st₁ = { st with sched := (st.sched.probe H cfg id
          r.promptTokenIds r.request.samplingParams.skipReadingPrefixCache).2 } := ⟨_, rfl⟩
        have hmove : Move H cfg K st st₁ := hst₁ ▸ .probe hA hpr hid hlk hc he
        have hpr₁ : Probing st₀ st₁ := hst₁ ▸ hpr.probe hlk hc _ _
        have hw₁ : st₁.sched.waiting = st.sched.waiting := hpr₁.waiting_eq.trans hpr.waiting_eq.symm
        have hst' : { st with sched := s' } = { st₁ with sched := s' } := by rw [hst₁]
        have hsched : (st.sched.probe H cfg id r.promptTokenIds
          r.request.samplingParams.skipReadingPrefixCache).2 = st₁.sched := by rw [hst₁]
        rw [hsched] at hs
        rw [hst']
        have hfin : ∀ b c, b ∈ st.sched.waiting.ids →
            Scheduler.selectLoop H cfg ids b c st₁.sched = (best', bestCached', s') →
            Moves H cfg K st { st₁ with sched := s' } ∧
              Probing st₀ { st₁ with sched := s' } ∧ best' ∈ s'.waiting.ids := by
          intro b c hb hs
          obtain ⟨hm, h⟩ := ih hpr₁ (hw₁ ▸ hsub') (hw₁ ▸ hb) hs
          exact ⟨.head hmove hm, h⟩
        split at hs
        · exact hfin _ _ hid hs
        · exact hfin _ _ hbest hs
      · have hc' : r.cachedBlockIds.isEmpty = false := by simpa using hc
        simp only [hc', Bool.false_eq_true, if_false] at hs
        split at hs
        · exact ih hpr hsub' hid hs
        · exact ih hpr hsub' hbest hs

theorem selectWaitingRequest_moves {st : StepState} (hA : K.admits st) {sel : Option RequestId}
    {s' : Scheduler} (hs : st.sched.selectWaitingRequest H cfg = (sel, s')) :
    Moves H cfg K st { st with sched := s' } ∧ Probing st { st with sched := s' } ∧
      ∀ id, sel = some id → id ∈ s'.waiting.ids := by
  unfold Scheduler.selectWaitingRequest at hs
  split at hs
  · obtain ⟨rfl, rfl⟩ := Prod.mk.inj hs
    exact ⟨.refl, .refl st, fun id hid => by cases hid⟩
  · rename_i first hpeek
    have hfirst := RequestQueue.mem_ids_of_peek hpeek
    dsimp only at hs
    have hnote : Move H cfg K st { st with
        sched := { st.sched with prefixCacheAdmission := ⟨some first, 0⟩ } } := .note _
    have hpr := (Probing.refl st).note ⟨some first, 0⟩
    split at hs
    · obtain ⟨rfl, rfl⟩ := Prod.mk.inj hs
      refine ⟨.single hnote, hpr, fun id hid => ?_⟩
      obtain rfl := Option.some.inj hid
      exact hfirst
    · rename_i he
      have he' : cfg.cache.enablePrefixCaching = true := by simpa using he
      cases hl : Scheduler.selectLoop H cfg st.sched.waiting.ids first
          (((st.sched.requests.lookup first).map (·.numComputedTokens)).getD 0)
          { st.sched with prefixCacheAdmission := ⟨some first, 0⟩ } with
      | mk best rest =>
        obtain ⟨bestCached, s₂⟩ := rest
        simp only [hl] at hs
        obtain ⟨rfl, rfl⟩ := Prod.mk.inj hs
        obtain ⟨hm, hpr₂, hb⟩ := selectLoop_moves hA hpr he' (fun _ h => h) hfirst hl
        refine ⟨.head hnote (hm.tail (.note _)), hpr₂.note _, fun id hid => ?_⟩
        obtain rfl := Option.some.inj hid
        exact hb

theorem cachedOf_moves {st₀ st : StepState} {id : RequestId} (hA : K.admits st₀)
    (hpr : Probing st₀ st) (hp : st.sched.Partition) (hid : id ∈ st.sched.waiting.ids)
    {numCached : ℕ} {st' : StepState} (hs : st.cachedOf H cfg id = (numCached, st')) :
    Moves H cfg K st st' ∧ Probing st₀ st' ∧ id ∈ st'.sched.waiting.ids ∧
      ∃ r, st'.sched.requests.lookup id = some r ∧ r.numComputedTokens = numCached := by
  obtain ⟨r, hr⟩ := Scheduler.mem_requests_iff.mp ((hp.mem_requests id).mpr (Or.inl hid))
  unfold StepState.cachedOf at hs
  simp only [hr, Option.map_some, Option.getD_some] at hs
  split at hs
  · rename_i hc
    obtain ⟨he, hc⟩ := (Bool.and_eq_true _ _).mp hc
    have hc' : r.cachedBlockIds = [] := by simpa using hc
    obtain ⟨rfl, rfl⟩ := Prod.mk.inj hs
    refine ⟨.single (.probe hA hpr hid hr hc' he), hpr.probe hr hc' _ _, ?_, ?_⟩
    · simpa using hid
    · simp [hr]
  · obtain ⟨rfl, rfl⟩ := Prod.mk.inj hs
    exact ⟨.refl, hpr, hid, r, hr, rfl⟩

theorem admit_moves {st₀ st : StepState} {id : RequestId} (hA : K.admits st₀)
    (hsel : st₀.selection H cfg = some (id, st.cachedOf H cfg id))
    (hpr : Probing st₀ st) (hp : st.sched.Partition) (hid : id ∈ st.sched.waiting.ids)
    (hb : st₀.budgetUsed < cfg.scheduler.maxNumScheduledTokens)
    (hmax : st₀.sched.running.length < cfg.scheduler.maxNumSeqs) {st' : StepState}
    (hs : st.admitSelected H cfg id = .done st' ∨ st.admitSelected H cfg id = .yield st') :
    Moves H cfg K st st' := by
  unfold StepState.admitSelected at hs
  cases hc : st.cachedOf H cfg id with
  | mk numCached st₁ =>
    obtain ⟨hm, hpr₁, hid₁, r, hlk, rfl⟩ := cachedOf_moves hA hpr hp hid hc
    rw [← hpr₁.budget_eq] at hb
    rw [← hpr₁.running_eq] at hmax
    have hsel' := hsel
    rw [hc] at hsel'
    have hadm := StepState.admission.eq_def H cfg st₀
    simp only [hsel, hc, hlk, Option.map_some, Option.getD_some] at hadm hs
    split at hs
    · rename_i hrem
      rw [if_pos hrem] at hadm
      simp only [reduceCtorEq, false_or, ForInStep.yield.injEq] at hs
      subst hs
      exact hm.tail (.admitCached hA hpr₁ hid₁ hlk hb hmax (by omega) hadm)
    · rename_i hrem
      rw [if_neg hrem] at hadm
      split at hs
      · simp only [reduceCtorEq, or_false, ForInStep.done.injEq] at hs
        subst hs
        exact hm
      · rename_i htok
        rw [if_neg htok] at hadm
        split at hs
        · rename_i bs kv hkv
          simp only [hkv, Option.isSome_some, if_true] at hadm
          simp only [reduceCtorEq, false_or, ForInStep.yield.injEq] at hs
          subst hs
          exact hm.tail (.admitNew hA hpr₁ hid₁ hlk hb hmax (by omega) rfl
            (Nat.pos_of_ne_zero htok) hkv hadm hsel')
        · rename_i kv hkv
          simp only [reduceCtorEq, or_false, ForInStep.done.injEq] at hs
          subst hs
          exact hm.tail (.admitFail hA hpr₁ hid₁ hlk rfl (Nat.pos_of_ne_zero htok) hkv hsel')

theorem waitingIter_moves {st : StepState}
    (hA : st.sched.running.length < cfg.scheduler.maxNumSeqs → K.admits st)
    (hp : st.sched.Partition)
    (hb : st.budgetUsed < cfg.scheduler.maxNumScheduledTokens) {st' : StepState}
    (hs : st.waitingIter H cfg = .done st' ∨ st.waitingIter H cfg = .yield st') :
    Moves H cfg K st st' := by
  unfold StepState.waitingIter at hs
  split at hs
  · simp only [reduceCtorEq, or_false, ForInStep.done.injEq] at hs
    subst hs
    exact .refl
  · rename_i hmax
    have hA₀ := hA (not_le.mp hmax)
    split at hs
    · rename_i sched hsel
      simp only [reduceCtorEq, or_false, ForInStep.done.injEq] at hs
      subst hs
      exact (selectWaitingRequest_moves hA₀ hsel).1
    · rename_i id sched hsel
      obtain ⟨hm, hpr, hid⟩ := selectWaitingRequest_moves hA₀ hsel
      have hsel' : st.selection H cfg =
          some (id, StepState.cachedOf H cfg { st with sched } id) := by
        simp only [StepState.selection, hsel]
      exact hm.trans (admit_moves hA₀ hsel' hpr (hm.partition hp) (hid id rfl) hb (not_le.mp hmax)
        hs)

theorem waitingLoop_moves {n : ℕ} {st : StepState} (hp : st.sched.Partition)
    (hall : st.WaitingAll H cfg K.admits n) : Moves H cfg K st (st.waitingLoop H cfg n) := by
  induction n generalizing st with
  | zero => exact .refl
  | succ n ih =>
    unfold StepState.waitingLoop
    split
    · rename_i hc
      have hb : st.budgetUsed < cfg.scheduler.maxNumScheduledTokens := by
        simpa using ((Bool.and_eq_true _ _).mp hc).2
      have hiter : ∀ st', st.waitingIter H cfg = .done st' ∨ st.waitingIter H cfg = .yield st' →
          Moves H cfg K st st' := fun st' =>
        waitingIter_moves (fun hmax => (hall hc hmax).1) hp hb
      split
      · rename_i st' hd
        exact hiter st' (Or.inl hd)
      · rename_i st' hy
        have hm := hiter st' (Or.inr hy)
        refine hm.trans (ih (hm.partition hp) ?_)
        by_cases hmax : st.sched.running.length < cfg.scheduler.maxNumSeqs
        · have h := (hall hc hmax).2
          rw [hy] at h
          exact h
        · simp [StepState.waitingIter, not_lt.mp hmax] at hy
    · exact .refl

theorem Scheduler.step_eq {s : Scheduler} (hp : s.paused = false) {ord : HashOrder} :
    s.step H cfg ord = ((s.stepState H cfg ord).finalOutput, (s.stepState H cfg ord).sched) := by
  simp [Scheduler.step, hp]

/-- An unpaused step is a sequence of moves, first those that finish requests. -/
theorem stepState_moves_split {s : Scheduler} (hp : s.Partition) (hpaused : s.paused = false)
    (ord : HashOrder) (hall : s.StepAll H cfg K ord) :
    Moves H cfg K { sched := s } (StepState.processFinished { sched := s } ord) ∧
      Moves H cfg K (StepState.processFinished { sched := s } ord) (s.stepState H cfg ord) := by
  obtain ⟨hfin, hrun, hwait⟩ := hall hpaused
  obtain ⟨hm₁, hs₁, hp₁, ho₁, ht₁⟩ := StepState.processFinished_moves H cfg K { sched := s } ord
    rfl rfl ⟨rfl, rfl⟩ rfl hfin
  have hpart₁ := hm₁.partition hp
  obtain ⟨hm₂, ho₂⟩ := StepState.scheduleRunning_moves (H := H) hpart₁.running_nodup hs₁
    hp₁ ho₁ ht₁ hrun
  have hm₃ := waitingLoop_moves (hm₂.partition hpart₁) hwait
  exact ⟨hm₁, hm₂.trans hm₃⟩

theorem stepState_moves {s : Scheduler} (hp : s.Partition) (hpaused : s.paused = false)
    (ord : HashOrder) (hall : s.StepAll H cfg K ord) :
    Moves H cfg K { sched := s } (s.stepState H cfg ord) := by
  obtain ⟨hm₁, hm₂⟩ := stepState_moves_split hp hpaused ord hall
  exact hm₁.trans hm₂

theorem StepState.runningAll_of_forall {G : StepState → RequestId → Prop} (hG : ∀ st id, G st id)
    (ids : List RequestId) (st : StepState) : st.RunningAll cfg G ids := by
  induction ids generalizing st with
  | nil => exact True.intro
  | cons id ids ih => exact fun _ => ⟨hG st id, ih _⟩

theorem StepState.waitingAll_of_forall {A : StepState → Prop} (hA : ∀ st, A st) (n : ℕ)
    (st : StepState) : st.WaitingAll H cfg A n := by
  induction n generalizing st with
  | zero => exact True.intro
  | succ n ih =>
    refine fun _ _ => ⟨hA st, ?_⟩
    split
    · exact True.intro
    · exact ih _

theorem Scheduler.stepAll_of_finishes {s : Scheduler} (ord : HashOrder)
    (hf : ∀ id r, s.requests.lookup id = some r → r.status.isFinished = true → K.finishes id)
    (hG : ∀ st id, K.decodes st id) (hA : ∀ st, K.admits st) : s.StepAll H cfg K ord :=
  fun _ => ⟨hf, StepState.runningAll_of_forall hG _ _, StepState.waitingAll_of_forall hA _ _⟩

theorem Scheduler.stepAll_any (ord : HashOrder) (s : Scheduler) : s.StepAll H cfg .any ord :=
  stepAll_of_finishes ord (fun _ _ _ _ => True.intro) (fun _ _ => True.intro) fun _ => True.intro

end Admission

end Rllm
