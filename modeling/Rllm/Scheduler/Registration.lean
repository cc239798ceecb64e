import Rllm.Scheduler.PrefixClosed

/-! # What a step registers

The blocks of an admitted request are registered while the step is still being
put together, before anything is computed. An entry of the hash map that a step
adds stands for a block in the table of a new request, and the tokens behind the
hash are among those that the step schedules for it.
-/

namespace Rllm

variable {H : HashFns} {cfg : Config} {K : Guards} {n : ℕ} {s : Scheduler} {st st' : StepState}
  {id i : RequestId} {b : BlockId} {g : BlockHash} {added : List InferenceRequest}

/-! ## Who reads the prefix cache -/

/-- A request that skips the prefix cache has no hashes. -/
def KVCacheManager.Unread (added : List InferenceRequest) (m : KVCacheManager) : Prop :=
  ∀ q ∈ added, q.samplingParams.skipReadingPrefixCache = true →
    m.requestBlockHashes.lookup q.requestId = none

namespace KVCacheManager.Unread

variable {m m' : KVCacheManager}

theorem congr (h : Unread added m) (hh : m'.requestBlockHashes = m.requestBlockHashes) :
    Unread added m' := by
  intro q hq hs
  rw [hh]
  exact h q hq hs

theorem free (h : Unread added m) (rid : RequestId) : Unread added (m.free rid) := by
  intro q hq hs
  by_cases hi : q.requestId = rid
  · rw [← hi]
    simp [KVCacheManager.free]
  · simpa [KVCacheManager.free, AList.lookup_erase_ne hi] using h q hq hs

theorem getComputedBlocks (h : Unread added m) {r : InferenceRequest} {rid : RequestId}
    (hr : ∀ q ∈ added, q.requestId = rid → q = r) {c : CacheConfig} (prompt : List Token) :
    Unread added (m.getComputedBlocks H c rid prompt
      r.samplingParams.skipReadingPrefixCache).2 := by
  intro q hq hs
  unfold KVCacheManager.getComputedBlocks
  split
  · exact h q hq hs
  · rename_i hread
    by_cases hi : q.requestId = rid
    · rw [hr q hq hi] at hs
      simp [hs] at hread
    · simpa [AList.lookup_insert_ne hi] using h q hq hs

end KVCacheManager.Unread

theorem Move.unread (hm : Move H cfg K st st') (hinv : st.sched.Inv H cfg n)
    (hknown : st.sched.Known added) (hnd : (added.map (·.requestId)).Nodup)
    (h : st.sched.kvCacheManager.Unread added) : st'.sched.kvCacheManager.Unread added := by
  cases hm with
  | finish => exact h.free _
  | markLength => simpa using h
  | decode => simpa [StepState.scheduleDecode_sched] using h
  | decodeGrow _ _ _ _ _ _ ha =>
    have hg := (hinv.kv.allocateSlots_some ha).2
    simpa [StepState.scheduleDecode_sched, StepState.setKV] using h.congr hg.hashes_eq
  | starve _ _ _ _ _ ha =>
    obtain ⟨-, -, bs, hr⟩ := hinv.kv.allocateSlots_none ha
    exact h.congr hr.hashes_eq
  | preempt =>
    simp only [StepState.preemptOne, Scheduler.preemptRequest]
    split <;> exact h.free _
  | note => exact h
  | @probe _ id r _ _ hid hr =>
    obtain ⟨hmem, hid', hprompt⟩ := hknown id r hr
    rw [Scheduler.probe_kvCacheManager]
    refine h.getComputedBlocks (fun q hq hqid => ?_) _
    exact List.inj_on_of_nodup_map hnd hq hmem (hqid.trans hid'.symm)
  | admitCached => simpa using h
  | admitNew _ _ _ _ _ _ _ _ _ ha =>
    have hg := (hinv.kv.allocateSlots_some ha).2
    rw [StepState.admitNew_kvCacheManager]
    exact (h.congr hg.hashes_eq).congr (KVCacheManager.cacheBlocks_tables _ _).2
  | admitFail _ _ _ _ _ _ ha =>
    obtain ⟨-, -, bs, hr⟩ := hinv.kv.allocateSlots_none ha
    exact h.congr hr.hashes_eq

/-! ## Entries and scheduled tokens -/

/-- The output schedules for a new request, whose state after the step is `r`, the tokens of the
`i`-th block in its table: they are among the last `n` of its computed tokens. The hash is that of
the `i`-th block of its prompt. -/
structure SchedulerOutput.FillsAt (H : HashFns) (cfg : Config) (out : SchedulerOutput)
    (s : Scheduler) (id : RequestId) (r : SchedulerRequest) (table : List BlockId) (n i : ℕ)
    (b : BlockId) (g : BlockHash) : Prop where
  new : id ∈ out.scheduledNew
  lookup : s.requests.lookup id = some r
  tokens : out.numScheduledTokens.lookup id = some n
  blocks : out.blockTables.lookup id = some table
  block : table[i]? = some b
  hash : (promptHashes H cfg.cache r.promptTokenIds)[i]? = some g
  start : r.numComputedTokens - n ≤ i * cfg.cache.blockSize
  stop : (i + 1) * cfg.cache.blockSize ≤ r.numComputedTokens

/-- The admission that fills a block, of a request that reads the prefix cache. -/
def StepState.Fills (H : HashFns) (cfg : Config) (K : Guards) (st : StepState) (b : BlockId)
    (g : BlockHash) : Prop :=
  cfg.cache.enablePrefixCaching = true ∧
    ∃ id r table n i, st.output.FillsAt H cfg st.sched id r table n i b g ∧
    r.request.samplingParams.skipReadingPrefixCache = false ∧
    ∃ st₀ r₀, K.admits st₀ ∧ st₀.admission H cfg = some ⟨id, r.numComputedTokens - n, n⟩ ∧
      st₀.sched.requests.lookup id = some r₀ ∧ r₀.request = r.request

/-- The entries of the hash map are those of `s` and those of blocks that the step fills. -/
def StepState.Filled (H : HashFns) (cfg : Config) (K : Guards) (s : Scheduler) (st : StepState) :
    Prop :=
  ∀ g b, b ∈ st.sched.kvCacheManager.blockPool.listed g →
    b ∈ s.kvCacheManager.blockPool.listed g ∨ st.Fills H cfg K b g

/-- What a move keeps of the new requests. -/
structure StepState.KeepsNew (st st' : StepState) (i : RequestId) : Prop where
  new : i ∈ st'.output.scheduledNew
  lookup : st'.sched.requests.lookup i = st.sched.requests.lookup i
  tokens : st'.output.numScheduledTokens.lookup i = st.output.numScheduledTokens.lookup i
  table : st'.sched.kvCacheManager.table i = st.sched.kvCacheManager.table i

theorem StepState.Fills.frame (h : st.Fills H cfg K b g) (hem : st.Emitted) (hem' : st'.Emitted)
    (hnew : ∀ i ∈ st.output.scheduledNew, st.KeepsNew st' i) : st'.Fills H cfg K b g := by
  obtain ⟨hon, id, r, table, n, i, hf, hrest⟩ := h
  obtain ⟨hnew, hlook, htok, htab⟩ := hnew id hf.new
  have htable : some (st'.sched.kvCacheManager.table id) = some table := by
    rw [htab, ← (hem id (Or.inl hf.new)).2]
    exact hf.blocks
  exact ⟨hon, id, r, table, n, i, ⟨hnew, hlook.trans hf.lookup, htok.trans hf.tokens,
    (hem' id (Or.inl hnew)).2.trans htable, hf.block, hf.hash, hf.start, hf.stop⟩, hrest⟩

theorem StepState.Filled.frame (h : st.Filled H cfg K s) (hem : st.Emitted) (hem' : st'.Emitted)
    (hl : ∀ g, ∀ b ∈ st'.sched.kvCacheManager.blockPool.listed g,
      b ∈ st.sched.kvCacheManager.blockPool.listed g)
    (hnew : ∀ i ∈ st.output.scheduledNew, st.KeepsNew st' i) : st'.Filled H cfg K s :=
  fun g b hb => (h g b (hl g b hb)).imp_right fun hf => hf.frame hem hem' hnew

theorem StepState.Filled.drop (h : st.Filled H cfg K s) (ho : st.output.NoAdmission)
    (hl : ∀ g, ∀ b ∈ st'.sched.kvCacheManager.blockPool.listed g,
      b ∈ st.sched.kvCacheManager.blockPool.listed g) : st'.Filled H cfg K s := by
  refine fun g b hb => (h g b (hl g b hb)).imp_right ?_
  rintro ⟨-, id, r, table, n, i, hf, -⟩
  have hnew := hf.new
  rw [ho.1] at hnew
  cases hnew

theorem KVCacheManager.Grown.mem_of_listed {c : CacheConfig} {m m' : KVCacheManager}
    {rid : RequestId} {k : ℕ} {bs : List BlockId} (h : Grown n c m rid k bs m')
    (hb : b ∈ m'.blockPool.listed g) : b ∈ m.blockPool.listed g := by
  rw [h.handedOut.listed_eq] at hb
  exact (List.mem_filter.mp hb).1

theorem KVCacheManager.RolledBack.mem_of_listed {m m' : KVCacheManager} {bs : List BlockId}
    (h : RolledBack m bs m') (hb : b ∈ m'.blockPool.listed g) : b ∈ m.blockPool.listed g := by
  rw [h.listed_eq] at hb
  exact (List.mem_filter.mp hb).1

theorem KVCacheManager.listed_manager_free (m : KVCacheManager) (rid : RequestId) :
    (m.free rid).blockPool.listed = m.blockPool.listed := by
  unfold KVCacheManager.free
  dsimp only
  split
  · exact BlockPool.listed_freeAll _ _
  · rfl

/-- The blocks that an admission registers are filled by the slice it schedules. -/
theorem StepState.Fills.admitNew {st₀ : StepState} {r : SchedulerRequest} {tokens : ℕ}
    {bs : List BlockId} {kv : KVCacheManager} (hinv : st.sched.Inv H cfg n)
    (hknown : st.sched.Known added) (hunread : st.sched.kvCacheManager.Unread added)
    (hA : K.admits st₀) (hpr : Probing st₀ st) (hid : id ∈ st.sched.waiting.ids)
    (hr : st.sched.requests.lookup id = some r)
    (ha : st.sched.kvCacheManager.allocateSlots cfg.cache id (r.numComputedTokens + tokens)
      r.numComputedTokens = (some bs, kv))
    (hadm : st₀.admission H cfg = some ⟨id, r.numComputedTokens, tokens⟩)
    (hem' : ((st.setKV kv).admitNew cfg id tokens (r.numComputedTokens + tokens)).Emitted)
    (hi : (i, b, g) ∈ kv.newRegs cfg.cache id (r.numComputedTokens + tokens)) :
    ((st.setKV kv).admitNew cfg id tokens (r.numComputedTokens + tokens)).Fills H cfg K b g := by
  have hw := (hinv.each id).waiting hid r hr
  obtain ⟨hon, -, hlt, htab, -⟩ := KVCacheManager.mem_newRegs.mp hi
  obtain ⟨hle, -, hs, hhs, rfl, hhash⟩ := hinv.mem_newRegs hid hr ha hi
  obtain ⟨r₀, hr₀, hreq, -⟩ := hpr.origin id r hr
  have hnew : id ∈ ((st.setKV kv).admitNew cfg id tokens
      (r.numComputedTokens + tokens)).output.scheduledNew := by
    rw [admitNew_output]
    exact List.mem_append_right _ (List.mem_singleton_self id)
  refine ⟨hon, id,
    { r with status := .running, numComputedTokens := r.numComputedTokens + tokens },
    kv.table id, tokens, i, ⟨hnew, ?_, ?_, ?_, htab, hhash, ?_, ?_⟩, ?_, st₀, r₀, hA, ?_, hr₀,
    hreq.symm⟩
  · rw [StepState.admitNew_lookup, if_pos rfl]
    change (st.sched.requests.lookup id).map _ = _
    rw [hr]
    rfl
  · rw [admitNew_output]
    exact AList.lookup_insert _
  · have htable := (hem' id (Or.inl hnew)).2
    rwa [StepState.admitNew_kvCacheManager, KVCacheManager.table_cacheBlocks] at htable
  · rw [Nat.add_sub_cancel, hw.computed_eq]
    exact Nat.mul_le_mul_right _ hle
  · exact (Nat.le_div_iff_mul_le cfg.cache.blockSize_pos).mp hlt
  · obtain ⟨hmem, hid', -⟩ := hknown id r hr
    by_contra hskip
    have hnone := hunread r.request hmem (by simpa using hskip)
    rw [hid', hhs] at hnone
    cases hnone
  · rw [Nat.add_sub_cancel]
    exact hadm

theorem Move.filled (hm : Move H cfg K st st') (hinv : st.sched.Inv H cfg n)
    (hknown : st.sched.Known added) (hunread : st.sched.kvCacheManager.Unread added)
    (hem : st.Emitted) (h : st.Filled H cfg K s) : st'.Filled H cfg K s := by
  have hem' := hm.emitted hinv hem
  have hne : ∀ {id}, id ∈ st.sched.waiting.ids → ∀ i ∈ st.output.scheduledNew, i ≠ id := by
    rintro id hid i hi rfl
    exact hinv.partition.not_running i hid (hem i (Or.inl hi)).1
  cases hm with
  | finish _ _ _ _ _ ho =>
    refine h.drop ho fun g b hb => ?_
    rwa [← KVCacheManager.listed_manager_free st.sched.kvCacheManager]
  | markLength _ _ _ _ _ _ ho => exact h.drop ho fun g b hb => by simpa using hb
  | decode _ _ _ _ _ _ _ _ _ ho =>
    exact h.drop ho fun g b hb => by simpa [StepState.scheduleDecode_sched] using hb
  | decodeGrow _ _ _ _ _ _ ha _ _ _ ho =>
    refine h.drop ho fun g b hb => (hinv.kv.allocateSlots_some ha).2.mem_of_listed ?_
    simpa [StepState.scheduleDecode_sched, StepState.setKV] using hb
  | starve _ _ _ _ _ ha _ _ _ ho =>
    obtain ⟨-, -, bs, hr⟩ := hinv.kv.allocateSlots_none ha
    exact h.drop ho fun g b hb => hr.mem_of_listed hb
  | preempt _ _ _ ho =>
    refine h.drop ho fun g b hb => ?_
    simp only [StepState.preemptOne, Scheduler.preemptRequest] at hb
    rw [← KVCacheManager.listed_manager_free st.sched.kvCacheManager]
    split at hb <;> exact hb
  | note => exact h.frame hem hem' (fun _ _ hb => hb) fun i hi => ⟨hi, rfl, rfl, rfl⟩
  | @probe _ id r _ _ hid =>
    refine h.frame hem hem' (fun g b hb => ?_) fun i hi => ⟨hi, ?_, rfl, ?_⟩
    · rw [Scheduler.probe_kvCacheManager, listed_congr
        (st.sched.kvCacheManager.hashMap_getComputedBlocks cfg.cache id _ _)] at hb
      exact hb
    · rw [Scheduler.lookup_probe, if_neg (hne hid i hi)]
    · rw [Scheduler.probe_kvCacheManager]
      exact table_of_view (KVCacheManager.view_getComputedBlocks (hne hid i hi))
  | @admitCached _ id r _ _ hid =>
    refine h.frame hem hem' (fun g b hb => by simpa using hb) fun i hi => ⟨?_, ?_, ?_, by simp⟩
    · simpa [StepState.admitCached] using hi
    · rw [StepState.admitCached_lookup, if_neg (hne hid i hi)]
    · simp [StepState.admitCached]
  | @admitNew st₀ id r tokens bs kv hA hpr hid hr _ _ _ _ _ ha hadm =>
    have hg := (hinv.kv.allocateSlots_some ha).2
    obtain ⟨-, -, hreg⟩ := hinv.register hid hr ha (r.numComputedTokens + tokens)
    intro g b hb
    rw [StepState.admitNew_kvCacheManager] at hb
    rcases (hreg.mem_listed g b).mp hb with hb | ⟨i, hi⟩
    · refine (h g b (hg.mem_of_listed hb)).imp_right fun hf => hf.frame hem hem' fun i hi => ?_
      have hi' := hne hid i hi
      constructor
      · rw [admitNew_output]
        exact List.mem_append_left _ hi
      · rw [StepState.admitNew_lookup, if_neg hi']
        rfl
      · rw [admitNew_output]
        exact AList.lookup_insert_ne hi'
      · rw [StepState.admitNew_kvCacheManager, KVCacheManager.table_cacheBlocks]
        exact (hg.table_eq i).trans (if_neg hi')
    · exact Or.inr (.admitNew hinv hknown hunread hA hpr hid hr ha hadm hem' hi)
  | admitFail _ _ _ _ _ _ ha =>
    obtain ⟨-, -, bs, hr⟩ := hinv.kv.allocateSlots_none ha
    exact h.frame hem hem' (fun g b hb => hr.mem_of_listed hb)
      fun i hi => ⟨hi, rfl, rfl, hr.table_eq i⟩

theorem Moves.filled (hm : Moves H cfg K { sched := s } st) (hinv : s.Inv H cfg n)
    (hknown : s.Known added) (hnd : (added.map (·.requestId)).Nodup)
    (hunread : s.kvCacheManager.Unread added) :
    st.Filled H cfg K s ∧ st.Emitted ∧ st.sched.kvCacheManager.Unread added := by
  induction hm with
  | refl =>
    refine ⟨fun g b hb => Or.inl hb, ?_, hunread⟩
    rintro i (hi | hi) <;> cases hi
  | tail hms hm ih =>
    have hinv' := Moves.inv hms hinv
    have hknown' := Moves.known hms hknown
    exact ⟨hm.filled hinv' hknown' ih.2.2 ih.2.1 ih.1, hm.emitted hinv' ih.2.1,
      hm.unread hinv' hknown' hnd ih.2.2⟩

/-! ## Whole steps -/

/-- No admitted slice completes a block of a request that reads the prefix cache. -/
def Guards.unregistering (H : HashFns) (cfg : Config) : Guards where
  finishes _ := True
  decodes _ _ := True
  admits st := cfg.cache.enablePrefixCaching = true → ∀ a r, st.admission H cfg = some a →
    st.sched.requests.lookup a.requestId = some r →
    r.request.samplingParams.skipReadingPrefixCache = false →
    (a.numCached + a.numTokens) / cfg.cache.blockSize ≤ a.numCached / cfg.cache.blockSize

theorem StepState.Fills.not_unregistering (h : st.Fills H cfg (.unregistering H cfg) b g) :
    False := by
  obtain ⟨hon, id, r, table, n, i, hf, hskip, st₀, r₀, hA, hadm, hr₀, hreq⟩ := h
  have hle := hA hon _ r₀ hadm hr₀ (hreq ▸ hskip)
  have hbs := cfg.cache.blockSize_pos
  have hstop : i + 1 ≤ (r.numComputedTokens - n + n) / cfg.cache.blockSize :=
    (Nat.le_div_iff_mul_le hbs).mpr (hf.stop.trans (by omega))
  have hstart : (r.numComputedTokens - n) / cfg.cache.blockSize ≤ i := by
    refine Nat.lt_succ_iff.mp ((Nat.div_lt_iff_lt_mul hbs).mpr ?_)
    have := hf.start
    rw [Nat.succ_mul]
    omega
  exact absurd (hstop.trans (hle.trans hstart)) (Nat.not_succ_le_self i)

theorem Scheduler.step_filled (hinv : s.Inv H cfg n) (hknown : s.Known added)
    (hnd : (added.map (·.requestId)).Nodup) (hunread : s.kvCacheManager.Unread added)
    {ord : HashOrder} (hall : s.StepAll H cfg K ord) :
    (s.step H cfg ord).2.kvCacheManager.Unread added ∧
      ((s.step H cfg ord).2.kvCacheManager.blockPool.listed = s.kvCacheManager.blockPool.listed ∨
        ∃ st : StepState, st.Filled H cfg K s ∧
          s.step H cfg ord = (st.finalOutput, st.sched)) := by
  cases hpaused : s.paused with
  | true =>
    rw [Scheduler.step, if_pos hpaused]
    exact ⟨hunread, Or.inl rfl⟩
  | false =>
    obtain ⟨hfilled, -, hun⟩ :=
      (stepState_moves hinv.partition hpaused ord hall).filled hinv hknown hnd hunread
    rw [Scheduler.step_eq hpaused]
    exact ⟨hun, Or.inr ⟨_, hfilled, rfl⟩⟩

theorem SchedRun.unread (h : SchedRun H cfg added s) (hle : cfg.numCacheBlocks ≤ 2 ^ 32) :
    s.kvCacheManager.Unread added := by
  induction h with
  | new => exact fun q hq => by cases hq
  | @addRequest added s r hrun hfresh ih =>
    obtain ⟨hinv, hknown⟩ := hrun.inv hle
    intro q hq hs
    rcases List.mem_append.mp hq with hq | hq
    · exact ih q hq hs
    · obtain rfl := List.mem_singleton.mp hq
      have hn := hknown.fresh hfresh
      rw [hinv.partition.mem_requests, not_or, not_or] at hn
      have hview := (hinv.each q.requestId).idle (by tauto) (by tauto)
      exact congrArg (·.2.1) hview
  | abortRequest id _ ih => exact ih.free id
  | step ord hrun ih =>
    obtain ⟨hinv, hknown⟩ := hrun.inv hle
    exact (Scheduler.step_filled hinv hknown hrun.nodup_added ih
      (Scheduler.stepAll_any ord _)).1
  | pause _ ih => exact ih
  | resume _ ih => exact ih
  | resetPrefixCache _ hr ih =>
    rw [Scheduler.resetPrefixCache_ok hr]
    exact ih

/-- An entry that a step adds stands for tokens that its output schedules. -/
theorem SchedRun.step_listed (h : SchedRun H cfg added s) (hle : cfg.numCacheBlocks ≤ 2 ^ 32)
    (ord : HashOrder) (hb : b ∈ (s.step H cfg ord).2.kvCacheManager.blockPool.listed g) :
    b ∈ s.kvCacheManager.blockPool.listed g ∨ ∃ id r table n i,
      (s.step H cfg ord).1.FillsAt H cfg (s.step H cfg ord).2 id r table n i b g := by
  obtain ⟨hinv, hknown⟩ := h.inv hle
  obtain ⟨-, hl | ⟨st, hfilled, he⟩⟩ := Scheduler.step_filled hinv hknown h.nodup_added
    (h.unread hle) (Scheduler.stepAll_any ord s)
  · rw [hl] at hb
    exact Or.inl hb
  · rw [he] at hb ⊢
    refine (hfilled g b hb).imp_right ?_
    rintro ⟨-, id, r, table, n, i, hf, -⟩
    exact ⟨id, r, table, n, i, hf.new, hf.lookup, hf.tokens, hf.blocks, hf.block, hf.hash,
      hf.start, hf.stop⟩

theorem SchedRun.step_unregistering (h : SchedRun H cfg added s)
    (hle : cfg.numCacheBlocks ≤ 2 ^ 32) {ord : HashOrder}
    (hall : s.StepAll H cfg (.unregistering H cfg) ord)
    (hb : b ∈ (s.step H cfg ord).2.kvCacheManager.blockPool.listed g) :
    b ∈ s.kvCacheManager.blockPool.listed g := by
  obtain ⟨hinv, hknown⟩ := h.inv hle
  obtain ⟨-, hl | ⟨st, hfilled, he⟩⟩ := Scheduler.step_filled hinv hknown h.nodup_added
    (h.unread hle) hall
  · rwa [hl] at hb
  · rw [he] at hb
    exact (hfilled g b hb).resolve_right fun hf => hf.not_unregistering

end Rllm
