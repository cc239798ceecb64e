import Rllm.Scheduler.Runs

/-! # Block tables cover every scheduled position

A step emits, for every request it schedules, the request's own block table:
pairwise different blocks, enough of them for all its computed tokens, and
exactly enough unless it speculates.
-/

namespace Rllm

/-- Blocks at different places of prompts, or after different tokens, have different hashes. -/
def ChainInjective (H : HashFns) (cfg : CacheConfig) (prompts : List (List Token)) : Prop :=
  ∀ p ∈ prompts, ∀ q ∈ prompts, ∀ (i j : ℕ) (h : BlockHash),
    (computeBlockHashes H cfg.prefixHashAlgorithm p cfg.blockSize none)[i]? = some h →
    (computeBlockHashes H cfg.prefixHashAlgorithm q cfg.blockSize none)[j]? = some h →
    i = j ∧ p.take ((i + 1) * cfg.blockSize) = q.take ((i + 1) * cfg.blockSize)

variable {H : HashFns} {cfg : Config} {n : ℕ} {K : Guards} {st st' : StepState}
  {added : List InferenceRequest}

theorem ChainInjective.nodup {c : CacheConfig} {prompts : List (List Token)} {p : List Token}
    (h : ChainInjective H c prompts) (hp : p ∈ prompts) :
    (computeBlockHashes H c.prefixHashAlgorithm p c.blockSize none).Nodup := by
  refine List.nodup_iff_getElem?_ne_getElem?.mpr fun i j hij hj he => ?_
  have hs := List.getElem?_eq_getElem hj
  exact absurd (h p hp p hp i j _ (he.trans hs) hs).1 hij.ne

/-! ## Tables without repetitions -/

/-- No block table lists a block twice. -/
def Scheduler.TablesNodup (s : Scheduler) : Prop := ∀ id, (s.kvCacheManager.table id).Nodup

theorem KVCacheManager.Grown.nodup {c : CacheConfig} {m m' : KVCacheManager} {rid : RequestId}
    {k : ℕ} {bs : List BlockId} (hg : m.Grown n c rid k bs m') (hok : m.Ok n)
    (h : ∀ id, (m.table id).Nodup) (id : RequestId) : (m'.table id).Nodup := by
  rw [hg.table_eq]
  split
  · refine List.nodup_append.mpr ⟨h rid, hg.handedOut.nodup, fun a ha b hb hab => ?_⟩
    have hpos := (hok.mem_table ha).2.2
    rw [hab, (hg.handedOut.free b hb).2.2] at hpos
    exact absurd hpos (lt_irrefl 0)
  · exact h id

theorem KVCacheManager.table_free_nodup {m : KVCacheManager} (h : ∀ id, (m.table id).Nodup)
    (rid id : RequestId) : ((m.free rid).table id).Nodup := by
  have ht : (m.free rid).table id = if id = rid then [] else m.table id :=
    KVCacheManager.table_erase m rid id
  rw [ht]
  split
  · exact List.nodup_nil
  · exact h id

theorem Move.tablesNodup (hm : Move H cfg K st st') (hinv : st.sched.Inv H cfg n)
    (hknown : st.sched.Known added)
    (hinj : ChainInjective H cfg.cache (added.map (·.promptTokens)))
    (h : st.sched.TablesNodup) : st'.sched.TablesNodup := by
  cases hm with
  | finish => exact KVCacheManager.table_free_nodup h _
  | markLength => simpa [Scheduler.TablesNodup] using h
  | decode => simpa [Scheduler.TablesNodup, StepState.scheduleDecode_sched] using h
  | decodeGrow _ _ _ _ _ _ ha =>
    have hg := (hinv.kv.allocateSlots_some ha).2
    simpa [Scheduler.TablesNodup, StepState.scheduleDecode_sched, StepState.setKV] using
      hg.nodup hinv.kv h
  | starve _ _ _ _ _ ha =>
    obtain ⟨-, -, bs, hr⟩ := hinv.kv.allocateSlots_none ha
    exact fun id => hr.table_eq id ▸ h id
  | preempt =>
    intro id
    simp only [StepState.preemptOne, Scheduler.preemptRequest]
    split <;> exact KVCacheManager.table_free_nodup h _ id
  | note => exact h
  | @probe _ id r _ _ hid hr hc =>
    have hw := (hinv.each id).waiting hid r hr
    intro i
    simp only [Scheduler.probe_kvCacheManager]
    cases hg : st.sched.kvCacheManager.getComputedBlocks H cfg.cache id r.promptTokenIds
        r.request.samplingParams.skipReadingPrefixCache with
    | mk res kv =>
      obtain ⟨-, ht, -, -, hf⟩ := hinv.kv.getComputedBlocks (hw.table_eq.trans hc) hg
      rw [ht]
      split
      · rcases hf with ⟨-, hres⟩ | ⟨-, hf⟩
        · rw [hres]
          exact List.nodup_nil
        · obtain ⟨hadd, -, hprompt⟩ := hknown id r hr
          exact hinv.kv.pool.nodup_found hf
            (hinj.nodup (hprompt ▸ List.mem_map_of_mem hadd))
      · exact h i
  | admitCached => simpa [Scheduler.TablesNodup] using h
  | admitNew _ _ _ _ _ _ _ _ _ ha =>
    have hg := (hinv.kv.allocateSlots_some ha).2
    simpa [Scheduler.TablesNodup, StepState.setKV] using hg.nodup hinv.kv h
  | admitFail _ _ _ _ _ _ ha =>
    obtain ⟨-, -, bs, hr⟩ := hinv.kv.allocateSlots_none ha
    exact fun id => hr.table_eq id ▸ h id

theorem Moves.tablesNodup (hm : Moves H cfg K st st') (hinv : st.sched.Inv H cfg n)
    (hknown : st.sched.Known added)
    (hinj : ChainInjective H cfg.cache (added.map (·.promptTokens)))
    (h : st.sched.TablesNodup) : st'.sched.TablesNodup := by
  induction hm with
  | refl => exact h
  | tail hms hm ih => exact hm.tablesNodup (Moves.inv hms hinv) (Moves.known hms hknown) hinj ih

theorem ChainInjective.mono {c : CacheConfig} {ps qs : List (List Token)}
    (h : ChainInjective H c qs) (hsub : ∀ p ∈ ps, p ∈ qs) : ChainInjective H c ps :=
  fun p hp q hq => h p (hsub p hp) q (hsub q hq)

theorem SchedRun.tablesNodup {s : Scheduler} (h : SchedRun H cfg added s)
    (hle : cfg.numCacheBlocks ≤ 2 ^ 32)
    (hinj : ChainInjective H cfg.cache (added.map (·.promptTokens))) : s.TablesNodup := by
  induction h with
  | new => exact fun id => List.nodup_nil
  | addRequest r _ _ ih => exact ih (hinj.mono fun p hp => by simp at hp ⊢; exact Or.inl hp)
  | abortRequest id _ ih => exact KVCacheManager.table_free_nodup (ih hinj) _
  | @step _ s ord hrun ih =>
    unfold Scheduler.step
    split
    · exact ih hinj
    · rename_i hp
      obtain ⟨hinv, hknown⟩ := hrun.inv hle
      exact (stepState_moves hinv.partition (by simpa using hp) ord
        (Scheduler.stepAll_any ord s)).tablesNodup hinv hknown hinj (ih hinj)
  | pause _ ih => exact ih hinj
  | resume _ ih => exact ih hinj
  | resetPrefixCache _ hr ih =>
    rw [Scheduler.resetPrefixCache_ok hr]
    exact ih hinj

/-! ## The emitted tables -/

/-- The output lists, for each scheduled request, the table the request has now. -/
def StepState.Emitted (st : StepState) : Prop :=
  ∀ id, id ∈ st.output.scheduledNew ∨ id ∈ st.output.scheduledRunning → id ∈ st.sched.running ∧
    st.output.blockTables.lookup id = some (st.sched.kvCacheManager.table id)

theorem KVCacheManager.lookup_of_table {m : KVCacheManager} {rid : RequestId}
    (h : 0 < (m.table rid).length) : m.requestBlocks.lookup rid = some (m.table rid) := by
  unfold table at h ⊢
  cases hl : m.requestBlocks.lookup rid with
  | none => simp [hl] at h
  | some bs => rfl

theorem table_of_view {m m' : KVCacheManager} {rid : RequestId} (h : m'.view rid = m.view rid) :
    m'.table rid = m.table rid :=
  congrArg Prod.fst h

theorem StepState.Emitted.scheduleDecode {id : RequestId} {tokens : ℕ} (h : st.Emitted)
    (kv : KVCacheManager) (hid : id ∈ st.sched.running) (ho : st.output.NoAdmission)
    (hv : ∀ i ≠ id, kv.table i = st.sched.kvCacheManager.table i)
    (hpos : 0 < (kv.table id).length) : ((st.setKV kv).scheduleDecode id tokens).Emitted := by
  intro i hi
  rw [scheduleDecode_output] at hi
  have hi' : i ∈ st.output.scheduledRunning ∨ i = id := by
    rcases hi with hi | hi
    · rw [show (st.setKV kv).output.scheduledNew = [] from ho.1] at hi
      cases hi
    · simpa [setKV] using hi
  have hsched : ((st.setKV kv).scheduleDecode id tokens).sched.kvCacheManager = kv := by
    simp [scheduleDecode_sched, setKV]
  refine ⟨?_, ?_⟩
  · rw [scheduleDecode_sched, Scheduler.modifyRequest_running]
    rcases hi' with hi' | rfl
    · exact (h i (Or.inr hi')).1
    · exact hid
  · rw [hsched, StepState.scheduleDecode, lookup_copyBlockTable]
    simp only [Scheduler.modifyRequest_kvCacheManager]
    split
    · rename_i he
      subst he
      change (kv.requestBlocks.lookup i).or _ = _
      rw [KVCacheManager.lookup_of_table hpos]
      rfl
    · rename_i he
      rcases hi' with hi' | hi'
      · rw [hv i he]
        exact (h i (Or.inr hi')).2
      · exact absurd hi' he

theorem admitNew_output (cfg : Config) (st : StepState) (id : RequestId) (tokens total : ℕ) :
    (st.admitNew cfg id tokens total).output =
    { st.output with
      scheduledNew := st.output.scheduledNew ++ [id]
      numScheduledTokens := st.output.numScheduledTokens.insert id tokens
      blockTables := (st.admitNew cfg id tokens total).output.blockTables } := by
  unfold StepState.admitNew
  dsimp only
  split
  · rw [show ∀ (a : StepState) kv, (a.setKV kv).output = a.output from fun _ _ => rfl,
      StepState.copyBlockTable_output]
  · rw [StepState.copyBlockTable_output]

theorem admitNew_blockTables (id i : RequestId) (tokens total : ℕ) :
    (st.admitNew cfg id tokens total).output.blockTables.lookup i =
      if i = id then (st.sched.kvCacheManager.requestBlocks.lookup id).or
        (st.output.blockTables.lookup id) else st.output.blockTables.lookup i := by
  unfold StepState.admitNew
  dsimp only
  split
  · rw [show ∀ (a : StepState) kv, (a.setKV kv).output = a.output from fun _ _ => rfl,
      StepState.lookup_copyBlockTable]
    simp
  · rw [StepState.lookup_copyBlockTable]
    simp

namespace StepState.Emitted

theorem finishOne {id : RequestId} (hs : st.output.scheduledRunning = [])
    (ho : st.output.NoAdmission) : (st.finishOne id).Emitted := by
  rintro i (hi | hi)
  · rw [show (st.finishOne id).output.scheduledNew = [] from ho.1] at hi
    cases hi
  · rw [show (st.finishOne id).output.scheduledRunning = [] from hs] at hi
    cases hi

theorem setKV (h : st.Emitted) {kv : KVCacheManager}
    (hv : ∀ i, kv.table i = st.sched.kvCacheManager.table i) : (st.setKV kv).Emitted := by
  intro i hi
  obtain ⟨hrun, hlookup⟩ := h i hi
  exact ⟨hrun, hlookup.trans (congrArg some (hv i).symm)⟩

theorem preemptOne (h : st.Emitted) {id : RequestId} (hs : id ∉ st.output.scheduledRunning)
    (ho : st.output.NoAdmission) : (st.preemptOne cfg id).Emitted := by
  intro i hi
  have hi' : i ∈ st.output.scheduledRunning := by
    rcases hi with hi | hi
    · rw [show (st.preemptOne cfg id).output.scheduledNew = [] from ho.1] at hi
      cases hi
    · exact hi
  have hne : i ≠ id := fun he => hs (he ▸ hi')
  obtain ⟨hrun, hlookup⟩ := h i (Or.inr hi')
  have htable : (st.preemptOne cfg id).sched.kvCacheManager.table i =
      st.sched.kvCacheManager.table i := by
    have hf := KVCacheManager.table_erase st.sched.kvCacheManager id i
    rw [if_neg hne] at hf
    simp only [StepState.preemptOne, Scheduler.preemptRequest]
    split <;> exact hf
  constructor
  · rw [StepState.preemptOne_running]
    simp [hrun, hne]
  · rw [htable]
    exact hlookup

theorem probe (h : st.Emitted) (hp : st.sched.Partition) {id : RequestId} {r : SchedulerRequest}
    (hid : id ∈ st.sched.waiting.ids) :
    StepState.Emitted { st with sched := (st.sched.probe H cfg id r.promptTokenIds
      r.request.samplingParams.skipReadingPrefixCache).2 } := by
  intro i hi
  obtain ⟨hrun, hlookup⟩ := h i hi
  have hne : i ≠ id := by
    rintro rfl
    exact hp.not_running i hid hrun
  constructor
  · simpa using hrun
  · simp only [Scheduler.probe_kvCacheManager]
    rw [table_of_view (KVCacheManager.view_getComputedBlocks hne)]
    exact hlookup

theorem admitCached (h : st.Emitted) (id : RequestId) : (st.admitCached id).Emitted := by
  intro i hi
  obtain ⟨hrun, hlookup⟩ := h i hi
  constructor
  · simp [hrun]
  · rw [StepState.admitCached_kvCacheManager]
    exact hlookup

theorem admitNew (h : st.Emitted) {id : RequestId} {kv : KVCacheManager} {tokens total : ℕ}
    (hv : ∀ i ≠ id, kv.table i = st.sched.kvCacheManager.table i)
    (hpos : 0 < (kv.table id).length) : ((st.setKV kv).admitNew cfg id tokens total).Emitted := by
  intro i hi
  rw [admitNew_output] at hi
  have hi' : (i ∈ st.output.scheduledNew ∨ i ∈ st.output.scheduledRunning) ∨ i = id := by
    simp only [List.mem_append, List.mem_singleton] at hi
    rw [show (st.setKV kv).output = st.output from rfl] at hi
    tauto
  constructor
  · simp only [StepState.admitNew_running, List.mem_append, List.mem_singleton]
    exact hi'.imp_left fun hi => (h i hi).1
  · rw [admitNew_blockTables, StepState.admitNew_kvCacheManager, KVCacheManager.table_cacheBlocks]
    change (if i = id then (kv.requestBlocks.lookup id).or _
      else st.output.blockTables.lookup i) = some (kv.table i)
    split
    · rename_i he
      subst he
      rw [KVCacheManager.lookup_of_table hpos]
      rfl
    · rename_i he
      rw [hv i he]
      exact (h i (hi'.resolve_right he)).2

end StepState.Emitted

theorem Move.emitted (hm : Move H cfg K st st') (hinv : st.sched.Inv H cfg n)
    (h : st.Emitted) : st'.Emitted := by
  cases hm with
  | finish _ _ _ hs _ ho => exact .finishOne hs ho
  | markLength => simpa [StepState.Emitted] using h
  | @decode id r _ hid hr _ _ hn _ _ _ ho =>
    have hpos : 0 < (st.sched.kvCacheManager.table id).length := by
      have hc := ((hinv.each id).running hid r hr).covers
      have hlt := divCeil_pos cfg.cache.blockSize_pos
        (n := r.numComputedTokens + (1 + r.request.samplingParams.specTokens)) (by omega)
      omega
    exact h.scheduleDecode st.sched.kvCacheManager hid ho (fun _ _ => rfl) hpos
  | @decodeGrow id r bs kv _ hid hr _ _ hn ha _ _ _ ho =>
    have hok := (hinv.kv.allocateSlots_some ha).2
    apply h.scheduleDecode kv hid ho
    · intro i hi
      rw [hok.table_eq, if_neg hi]
    · have hlt := divCeil_pos cfg.cache.blockSize_pos
        (n := 1 + r.request.samplingParams.specTokens) (by omega)
      rw [hok.table_eq, if_pos rfl, List.length_append, hok.length_eq, Nat.add_sub_cancel_left]
      omega
  | starve _ _ _ _ _ ha =>
    obtain ⟨-, -, bs, hr⟩ := hinv.kv.allocateSlots_none ha
    exact h.setKV hr.table_eq
  | preempt _ _ hs ho => exact h.preemptOne hs ho
  | note => exact h
  | probe _ _ hid => exact h.probe hinv.partition hid
  | admitCached => exact h.admitCached _
  | @admitNew _ id r tokens bs kv _ _ hid hr _ _ _ _ hpos ha =>
    have hg := (hinv.kv.allocateSlots_some ha).2
    apply h.admitNew
    · intro i hi
      rw [hg.table_eq, if_neg hi]
    · have hlt := divCeil_pos cfg.cache.blockSize_pos hpos
      rw [hg.table_eq, if_pos rfl, List.length_append, hg.length_eq, Nat.add_sub_cancel_left]
      omega
  | admitFail _ _ _ _ _ _ ha =>
    obtain ⟨-, -, bs, hr⟩ := hinv.kv.allocateSlots_none ha
    exact h.setKV hr.table_eq

theorem Moves.emitted (hm : Moves H cfg K st st') (hinv : st.sched.Inv H cfg n)
    (h : st.Emitted) : st'.Emitted := by
  induction hm with
  | refl => exact h
  | tail hms hm ih => exact hm.emitted (Moves.inv hms hinv) ih

/-! ## Every step -/

/-- The tables in the output are those of the scheduler after the step. -/
theorem SchedRun.step_emitted {s : Scheduler} (h : SchedRun H cfg added s)
    (hle : cfg.numCacheBlocks ≤ 2 ^ 32) (ord : HashOrder) {id : RequestId}
    (hid : id ∈ (s.step H cfg ord).1.scheduledNew ∨ id ∈ (s.step H cfg ord).1.scheduledRunning) :
    id ∈ (s.step H cfg ord).2.running ∧ (s.step H cfg ord).1.blockTables.lookup id =
      some ((s.step H cfg ord).2.kvCacheManager.table id) := by
  cases hp : s.paused with
  | true =>
    rw [Scheduler.step, if_pos hp] at hid
    rcases hid with hid | hid <;> cases hid
  | false =>
    have hinv := (h.inv hle).1
    have hem : (s.stepState H cfg ord).Emitted := by
      refine (stepState_moves hinv.partition hp ord (Scheduler.stepAll_any ord s)).emitted hinv ?_
      rintro i (hi | hi) <;> cases hi
    rw [Scheduler.step_eq hp] at hid ⊢
    exact hem id hid

/-- Each scheduled request comes with a table of different, non-null blocks that covers its
computed tokens, without any block to spare when nothing speculates. -/
def Covers (cfg : Config) (added : List InferenceRequest) (out : SchedulerOutput)
    (s : Scheduler) : Prop :=
  ∀ id, id ∈ out.scheduledNew ∨ id ∈ out.scheduledRunning → ∃ bt r,
    out.blockTables.lookup id = some bt ∧ s.requests.lookup id = some r ∧ bt.Nodup ∧
    (∀ b ∈ bt, b ≠ 0) ∧ divCeil r.numComputedTokens cfg.cache.blockSize ≤ bt.length ∧
    ((∀ q ∈ added, q.samplingParams.specTokens = 0) →
      bt.length = divCeil r.numComputedTokens cfg.cache.blockSize)

theorem SchedRun.step_covers (H : HashFns) (cfg : Config) (hle : cfg.numCacheBlocks ≤ 2 ^ 32)
    (added : List InferenceRequest) (s : Scheduler) (h : SchedRun H cfg added s)
    (hinj : ChainInjective H cfg.cache (added.map (·.promptTokens))) (ord : HashOrder) :
    Covers cfg added (s.step H cfg ord).1 (s.step H cfg ord).2 := by
  obtain ⟨hinv, hknown⟩ := (SchedRun.step ord h).inv hle
  have hnd := (SchedRun.step ord h).tablesNodup hle hinj
  intro id hid
  obtain ⟨hrun, hbt⟩ := h.step_emitted hle ord hid
  obtain ⟨r, hr⟩ := Scheduler.mem_requests_iff.mp
    ((hinv.partition.mem_requests id).mpr (Or.inr (Or.inl hrun)))
  obtain ⟨hcov, hex⟩ := (hinv.each id).running hrun r hr
  refine ⟨_, r, hbt, hr, hnd id, fun b hb => (hinv.kv.mem_table hb).1.ne', hcov, fun hspec => ?_⟩
  exact hex (hspec _ (hknown id r hr).1)

/-- A scheduler on a given cache, with one request of two tokens waiting. -/
def oneWaiting (cfg : Config) (kv : KVCacheManager) : Scheduler :=
  Scheduler.addRequest cfg { Scheduler.new cfg with kvCacheManager := kv } (smallRequest 1 [5, 6])

theorem schedRun_oneWaiting (cfg : Config) :
    SchedRun H cfg [smallRequest 1 [5, 6]] (oneWaiting cfg (.new cfg.numCacheBlocks)) :=
  .addRequest _ .new (by simp)

theorem chainInjective_small (k : ℕ) (e : Bool) :
    ChainInjective smallHash (smallConfig k e).cache
      ([smallRequest 1 [5, 6]].map (·.promptTokens)) := by
  intro p hp q hq i j h hi hj
  rw [List.mem_singleton.mp hp] at hi ⊢
  rw [List.mem_singleton.mp hq] at hj ⊢
  have hs : (computeBlockHashes smallHash .xxHash [5, 6] 1 none).Nodup := by decide +kernel
  have hlt := (List.getElem?_eq_some_iff.mp hi).1
  exact ⟨(List.getElem?_inj hlt hs).mp (hi.trans hj.symm), rfl⟩

theorem SchedRun.step_covers_small : Covers (smallConfig 8 true) [smallRequest 1 [5, 6]]
    ((oneWaiting (smallConfig 8 true) (.new 8)).step smallHash (smallConfig 8 true) .id).1
    ((oneWaiting (smallConfig 8 true) (.new 8)).step smallHash (smallConfig 8 true) .id).2 :=
  SchedRun.step_covers smallHash (smallConfig 8 true) (by decide) [smallRequest 1 [5, 6]] _
    (schedRun_oneWaiting _) (chainInjective_small 8 true) .id

/-- That scheduler in its first step, with the request selected. -/
def oneSelected (k : ℕ) (kv : KVCacheManager) : StepState :=
  { sched := { oneWaiting (smallConfig k false) kv with prefixCacheAdmission := ⟨some 1, 0⟩ } }

theorem StepState.admitSelected_some {H : HashFns} {cfg : Config} {st st₁ : StepState}
    {id : RequestId} {numCached promptLen tokens : ℕ} {bs : List BlockId} {kv : KVCacheManager}
    (hc : st.cachedOf H cfg id = (numCached, st₁))
    (hlen : ((st₁.sched.requests.lookup id).map (·.promptTokenIds.length)).getD 0 = promptLen ∧
      promptLen - numCached ≠ 0)
    (ht : st₁.prefillTokens cfg promptLen numCached = tokens ∧ tokens ≠ 0)
    (ha : st₁.sched.kvCacheManager.allocateSlots cfg.cache id (numCached + tokens) numCached =
      (some bs, kv)) :
    st.admitSelected H cfg id =
      .yield ((st₁.setKV kv).admitNew cfg id tokens (numCached + tokens)) := by
  unfold StepState.admitSelected
  rw [hc]
  dsimp only
  rw [hlen.1, if_neg hlen.2, ht.1, if_neg ht.2, ha]

theorem oneWaiting_step {kv kv' : KVCacheManager} {k : ℕ} {bs : List BlockId}
    (ha : kv.allocateSlots (smallConfig k false).cache 1 2 0 = (some bs, kv')) :
    (oneWaiting (smallConfig k false) kv).stepState smallHash (smallConfig k false) .id =
      StepState.admitNew (smallConfig k false) (StepState.setKV { sched :=
        { oneWaiting (smallConfig k false) kv with prefixCacheAdmission := ⟨some 1, 0⟩ } } kv')
        1 2 2 := by
  have hrun : (oneWaiting (smallConfig k false) kv).stepState smallHash (smallConfig k false) .id =
      StepState.waitingLoop smallHash (smallConfig k false) 2
        { sched := oneWaiting (smallConfig k false) kv } := rfl
  have hc : StepState.canAdmit (smallConfig k false)
      { sched := oneWaiting (smallConfig k false) kv } = true := rfl
  have hiter : StepState.waitingIter smallHash (smallConfig k false)
      { sched := oneWaiting (smallConfig k false) kv } =
      .yield (StepState.admitNew (smallConfig k false) (StepState.setKV { sched :=
        { oneWaiting (smallConfig k false) kv with prefixCacheAdmission := ⟨some 1, 0⟩ } } kv')
        1 2 2) := by
    have hselect : StepState.waitingIter smallHash (smallConfig k false)
        { sched := oneWaiting (smallConfig k false) kv } =
        (oneSelected k kv).admitSelected smallHash (smallConfig k false) 1 := rfl
    have hcached : (oneSelected k kv).cachedOf smallHash (smallConfig k false) 1 =
        (0, oneSelected k kv) := rfl
    have hlen : (((oneSelected k kv).sched.requests.lookup 1).map
        (·.promptTokenIds.length)).getD 0 = 2 ∧ 2 - 0 ≠ 0 := ⟨rfl, by decide⟩
    have htokens : (oneSelected k kv).prefillTokens (smallConfig k false) 2 0 = 2 ∧ 2 ≠ 0 :=
      ⟨rfl, by decide⟩
    exact hselect.trans (StepState.admitSelected_some hcached hlen htokens ha)
  rw [hrun, StepState.waitingLoop, if_pos hc, hiter]
  dsimp only
  rw [StepState.waitingLoop, if_neg]
  rw [StepState.canAdmit, StepState.admitNew_waiting]
  exact Bool.false_ne_true

/-- With two blocks more than `u32` can number, a table lists block `1` twice. -/
theorem SchedRun.not_step_covers : ¬ ∀ (H : HashFns) (cfg : Config)
    (added : List InferenceRequest) (s : Scheduler), SchedRun H cfg added s →
    ChainInjective H cfg.cache (added.map (·.promptTokens)) → ∀ ord,
    Covers cfg added (s.step H cfg ord).1 (s.step H cfg ord).2 := by
  intro h
  obtain ⟨k, hk⟩ : ∃ k, k = 2 ^ 32 + 2 := ⟨_, rfl⟩
  obtain ⟨p₁, p₂, h₁, h₂, -⟩ := BlockPool.wrapped_allocate_twice hk
  have ha : (KVCacheManager.new k).allocateSlots (smallConfig k false).cache 1 2 0 =
      (some [1, 1], ⟨p₂, AList.insert 1 [1, 1] ∅, ∅, ∅, [.handedOut 1, .handedOut 1]⟩) := by
    simp [KVCacheManager.allocateSlots, KVCacheManager.new, smallConfig, divCeil, allocMany, h₁, h₂]
  have hstate := oneWaiting_step ha
  have hcov := h smallHash (smallConfig k false) [smallRequest 1 [5, 6]]
    (oneWaiting (smallConfig k false) (.new k)) (schedRun_oneWaiting (smallConfig k false))
    (chainInjective_small k false) .id
  rw [Scheduler.step_eq rfl, hstate] at hcov
  obtain ⟨bt, r, hbt, -, hnd, -⟩ := hcov 1 (Or.inl (by
    rw [StepState.finalOutput_scheduledNew, admitNew_output]
    exact List.mem_append_right _ (List.mem_singleton_self 1)))
  rw [StepState.finalOutput_blockTables, admitNew_blockTables] at hbt
  obtain rfl : [1, 1] = bt := Option.some.inj hbt
  simp at hnd

end Rllm
