import Rllm.Scheduler.Invariant

/-! # Runs of the scheduler

Every state reachable by the operations of the scheduler keeps its invariant:
the queues partition the tracked requests and the reference counts are those
of the block tables, so an idle scheduler has every block back.
-/

namespace Rllm

variable {H : HashFns} {cfg : Config} {n : ℕ}

namespace Scheduler

variable {s : Scheduler}

/-! ## The operations keep the invariant -/

theorem Inv.new (hle : cfg.numCacheBlocks ≤ 2 ^ 32) :
    Inv H cfg (max cfg.numCacheBlocks 1) (Scheduler.new cfg) := by
  have hrep : BlockPool.Rep (max cfg.numCacheBlocks 1) (BlockPool.new cfg.numCacheBlocks)
      (List.range' 1 (max cfg.numCacheBlocks 1 - 1)) := by
    rcases Nat.eq_zero_or_pos cfg.numCacheBlocks with hz | hpos
    · rw [hz]
      exact BlockPool.Rep.new Nat.one_pos (by omega)
    · rw [max_eq_left hpos]
      exact BlockPool.Rep.new hpos hle
  refine ⟨.new cfg, ⟨⟨⟨_, hrep⟩, ?_⟩, ?_⟩, Nat.zero_le _, fun id => ⟨?_, ?_, ?_⟩⟩
  · intro h b hb
    rw [show (Scheduler.new cfg).kvCacheManager.blockPool = BlockPool.new cfg.numCacheBlocks from
      rfl, BlockPool.listed_new] at hb
    cases hb
  · intro b
    exact (BlockPool.refs_new b).trans rfl
  · intro _ _
    rfl
  · intro hw
    cases hw
  · intro hr
    cases hr

theorem Inv.addRequest (h : Inv H cfg n s) {r : InferenceRequest}
    (hr : r.requestId ∉ s.requests) : Inv H cfg n (s.addRequest cfg r) := by
  have hn := mt (h.partition.mem_requests r.requestId).mpr hr
  push Not at hn
  have hidle := (h.each r.requestId).idle hn.1 hn.2.1
  simp only [KVCacheManager.view, Prod.mk.injEq] at hidle
  obtain ⟨ht, hh, hc⟩ := hidle
  refine h.update r.requestId (h.partition.addRequest cfg hr) h.kv h.capacity
    (fun i hi => ⟨?_, Iff.rfl, ?_, rfl⟩) ⟨?_, fun _ r' hr' => ?_, ?_⟩
  · simp [Scheduler.addRequest, hi]
  · simp [Scheduler.addRequest, hi]
  · intro hw
    simp [Scheduler.addRequest] at hw
  · simp only [Scheduler.addRequest, AList.lookup_insert, Option.some.injEq] at hr'
    subst hr'
    refine ⟨ht, by simp, fun hs hhs => ?_, ?_⟩
    · rw [show (s.addRequest cfg r).kvCacheManager = s.kvCacheManager from rfl, hh] at hhs
      cases hhs
    · rw [show (s.addRequest cfg r).kvCacheManager = s.kvCacheManager from rfl, hc]
      rfl
  · intro hrun
    exact absurd hrun hn.2.1

theorem Inv.abortRequest (h : Inv H cfg n s) (id : RequestId) :
    Inv H cfg n (s.abortRequest id) := by
  refine h.update id (h.partition.abortRequest id) (h.kv.free id).1
    ((List.length_filter_le _ _).trans h.capacity) (fun i hi => ⟨?_, ?_, ?_, ?_⟩)
    ⟨fun _ _ => ?_, ?_, ?_⟩
  · simp [Scheduler.abortRequest, hi]
  · simp [Scheduler.abortRequest, hi]
  · simp [Scheduler.abortRequest, hi]
  · exact KVCacheManager.view_free.trans (if_neg hi)
  · exact KVCacheManager.view_free.trans (if_pos rfl)
  · simp [Scheduler.abortRequest]
  · simp [Scheduler.abortRequest]

theorem Inv.setPaused (h : Inv H cfg n s) (b : Bool) : Inv H cfg n { s with paused := b } where
  partition := h.partition.congr rfl rfl rfl fun _ => Iff.rfl
  kv := h.kv
  capacity := h.capacity
  each i := (h.each i).congr ⟨Iff.rfl, Iff.rfl, rfl, rfl⟩

theorem resetPrefixCache_ok {s' : Scheduler} (hr : s.resetPrefixCache = .ok s') :
    s' = { s with kvCacheManager := { s.kvCacheManager with
      blockPool := s.kvCacheManager.blockPool.clearHashes } } := by
  unfold resetPrefixCache at hr
  split at hr
  · rename_i kv hkv
    cases hr
    unfold KVCacheManager.resetPrefixCache at hkv
    split at hkv
    · split at hkv
      · rename_i p hp
        cases hkv
        rw [BlockPool.resetPrefixCache_ok hp]
      · cases hkv
    · cases hkv
  · cases hr

theorem Inv.clearHashes (h : Inv H cfg n s) : Inv H cfg n { s with
    kvCacheManager := { s.kvCacheManager with
      blockPool := s.kvCacheManager.blockPool.clearHashes } } := by
  obtain ⟨l, hl⟩ := h.kv.pool.rep
  refine h.setKV ⟨⟨⟨l, hl.clearHashes⟩, ?_⟩, fun b => ?_⟩ fun i => rfl
  · intro hash b hb
    rw [BlockPool.listed_clearHashes] at hb
    cases hb
  · rw [BlockPool.refs_clearHashes, h.kv.refs_eq]
    rfl

theorem Inv.step (h : Inv H cfg n s) (ord : HashOrder) : Inv H cfg n (s.step H cfg ord).2 := by
  unfold Scheduler.step
  split
  · exact h
  · rename_i hp
    exact (stepState_moves h.partition (by simpa using hp) ord
      (stepAll_any ord s)).inv h

end Scheduler

/-! ## Reachable states -/

/-- The scheduler states reachable by its operations, with the requests added so far. No id is
used twice. -/
inductive SchedRun (H : HashFns) (cfg : Config) : List InferenceRequest → Scheduler → Prop
  | new : SchedRun H cfg [] (Scheduler.new cfg)
  | addRequest {added : List InferenceRequest} {s : Scheduler} (r : InferenceRequest)
      (hrun : SchedRun H cfg added s) (hfresh : r.requestId ∉ added.map (·.requestId)) :
      SchedRun H cfg (added ++ [r]) (s.addRequest cfg r)
  | abortRequest {added : List InferenceRequest} {s : Scheduler} (id : RequestId)
      (hrun : SchedRun H cfg added s) : SchedRun H cfg added (s.abortRequest id)
  | step {added : List InferenceRequest} {s : Scheduler} (ord : HashOrder)
      (hrun : SchedRun H cfg added s) : SchedRun H cfg added (s.step H cfg ord).2
  | pause {added : List InferenceRequest} {s : Scheduler} (hrun : SchedRun H cfg added s) :
      SchedRun H cfg added s.pause
  | resume {added : List InferenceRequest} {s : Scheduler} (hrun : SchedRun H cfg added s) :
      SchedRun H cfg added s.resume
  | resetPrefixCache {added : List InferenceRequest} {s s' : Scheduler}
      (hrun : SchedRun H cfg added s) (hr : s.resetPrefixCache = .ok s') : SchedRun H cfg added s'

/-- What an operator does to a scheduler between its steps. -/
inductive Scheduler.Control (s : Scheduler) : Scheduler → Prop
  | pause : Control s s.pause
  | resume : Control s s.resume
  | resetPrefixCache {s' : Scheduler} (hr : s.resetPrefixCache = .ok s') : Control s s'

theorem SchedRun.control {added : List InferenceRequest} {s s' : Scheduler}
    (h : SchedRun H cfg added s) (hc : s.Control s') : SchedRun H cfg added s' := by
  cases hc with
  | pause => exact .pause h
  | resume => exact .resume h
  | resetPrefixCache hr => exact .resetPrefixCache h hr

namespace Scheduler

/-- Every tracked request was added, under its own id and with its own prompt. -/
def Known (added : List InferenceRequest) (s : Scheduler) : Prop :=
  ∀ id r, s.requests.lookup id = some r →
    r.request ∈ added ∧ r.request.requestId = id ∧ r.promptTokenIds = r.request.promptTokens

end Scheduler

section Known

variable {K : Guards} {st st' : StepState}
  {added : List InferenceRequest} {s : Scheduler}

theorem Move.lookup_origin (hm : Move H cfg K st st') {id : RequestId} {r' : SchedulerRequest}
    (hr' : st'.sched.requests.lookup id = some r') :
    ∃ r, st.sched.requests.lookup id = some r ∧ r'.request = r.request ∧
      r'.promptTokenIds = r.promptTokenIds := by
  have hmod : ∀ (s : Scheduler) (i : RequestId) (f : SchedulerRequest → SchedulerRequest),
      (if id = i then (s.requests.lookup id).map f else s.requests.lookup id) = some r' →
      (∀ r, (f r).request = r.request ∧ (f r).promptTokenIds = r.promptTokenIds) →
      ∃ r, s.requests.lookup id = some r ∧ r'.request = r.request ∧
        r'.promptTokenIds = r.promptTokenIds := by
    intro s i f hl hf
    split at hl
    · obtain ⟨r, hr, rfl⟩ := Option.map_eq_some_iff.mp hl
      exact ⟨r, hr, hf r⟩
    · exact ⟨r', hl, rfl, rfl⟩
  cases hm with
  | finish | starve | note | admitFail => exact ⟨r', hr', rfl, rfl⟩
  | markLength =>
    rw [Scheduler.lookup_modifyRequest] at hr'
    exact hmod _ _ _ hr' fun _ => ⟨rfl, rfl⟩
  | decode =>
    rw [StepState.scheduleDecode_sched, Scheduler.lookup_modifyRequest] at hr'
    exact hmod _ _ _ hr' fun _ => ⟨rfl, rfl⟩
  | decodeGrow =>
    rw [StepState.scheduleDecode_sched, Scheduler.lookup_modifyRequest] at hr'
    exact hmod _ _ _ hr' fun _ => ⟨rfl, rfl⟩
  | @preempt i =>
    simp only [StepState.preemptOne, Scheduler.preemptRequest] at hr'
    split at hr'
    · rename_i r₀ hr₀
      rcases of_lookup_insert hr' with ⟨rfl, rfl⟩ | ⟨-, hr'⟩
      · exact ⟨r₀, hr₀, rfl, rfl⟩
      · exact ⟨r', hr', rfl, rfl⟩
    · exact ⟨r', hr', rfl, rfl⟩
  | probe =>
    rw [Scheduler.lookup_probe] at hr'
    exact hmod _ _ _ hr' fun _ => ⟨rfl, rfl⟩
  | admitCached =>
    rw [StepState.admitCached_lookup] at hr'
    exact hmod _ _ _ hr' fun _ => ⟨rfl, rfl⟩
  | admitNew =>
    rw [StepState.admitNew_lookup] at hr'
    exact hmod _ _ _ hr' fun _ => ⟨rfl, rfl⟩

theorem Move.known (hm : Move H cfg K st st') (h : st.sched.Known added) :
    st'.sched.Known added := by
  intro id r' hr'
  obtain ⟨r, hr, hreq, hprompt⟩ := hm.lookup_origin hr'
  rw [hreq, hprompt]
  exact h id r hr

theorem Moves.known (hm : Moves H cfg K st st') (h : st.sched.Known added) :
    st'.sched.Known added := by
  induction hm with
  | refl => exact h
  | tail _ hm ih => exact hm.known ih

end Known

namespace Scheduler

variable {added : List InferenceRequest} {s : Scheduler}

theorem Known.addRequest (h : s.Known added) (r : InferenceRequest) :
    (s.addRequest cfg r).Known (added ++ [r]) := by
  intro id r' hr'
  rcases of_lookup_insert hr' with ⟨rfl, rfl⟩ | ⟨-, hr'⟩
  · exact ⟨by simp, rfl, rfl⟩
  · obtain ⟨hadd, h⟩ := h id r' hr'
    exact ⟨List.mem_append_left _ hadd, h⟩

theorem Known.abortRequest (h : s.Known added) (id : RequestId) :
    (s.abortRequest id).Known added := by
  intro i r hr
  by_cases hi : i = id
  · subst hi
    simp [Scheduler.abortRequest] at hr
  · simp only [Scheduler.abortRequest, AList.lookup_erase_ne hi] at hr
    exact h i r hr

theorem Known.fresh (h : s.Known added) {r : InferenceRequest}
    (hr : r.requestId ∉ added.map (·.requestId)) : r.requestId ∉ s.requests := by
  intro hm
  obtain ⟨r', hr'⟩ := Scheduler.mem_requests_iff.mp hm
  obtain ⟨hadd, hid, -⟩ := h _ r' hr'
  exact hr (hid ▸ List.mem_map_of_mem hadd)

theorem Partition.step (hp : s.Partition) (ord : HashOrder) :
    (s.step H cfg ord).2.Partition := by
  unfold Scheduler.step
  split
  · exact hp
  · rename_i hpaused
    exact (stepState_moves hp (by simpa using hpaused) ord (stepAll_any ord s)).partition hp

theorem Known.step (h : s.Known added) (hp : s.Partition) (ord : HashOrder) :
    (s.step H cfg ord).2.Known added := by
  unfold Scheduler.step
  split
  · exact h
  · rename_i hpaused
    exact (stepState_moves hp (by simpa using hpaused) ord (stepAll_any ord s)).known h

end Scheduler

theorem SchedRun.partition {added : List InferenceRequest} {s : Scheduler}
    (h : SchedRun H cfg added s) : s.Partition ∧ s.Known added := by
  induction h with
  | new => exact ⟨.new cfg, fun id r hr => by cases hr⟩
  | addRequest r _ hfresh ih =>
    exact ⟨ih.1.addRequest cfg (ih.2.fresh hfresh), ih.2.addRequest r⟩
  | abortRequest id _ ih => exact ⟨ih.1.abortRequest id, ih.2.abortRequest id⟩
  | step ord _ ih => exact ⟨ih.1.step ord, ih.2.step ih.1 ord⟩
  | pause _ ih => exact ⟨ih.1.congr rfl rfl rfl fun _ => Iff.rfl, ih.2⟩
  | resume _ ih => exact ⟨ih.1.congr rfl rfl rfl fun _ => Iff.rfl, ih.2⟩
  | resetPrefixCache _ hr ih =>
    rw [Scheduler.resetPrefixCache_ok hr]
    exact ⟨ih.1.congr rfl rfl rfl fun _ => Iff.rfl, ih.2⟩

theorem SchedRun.nodup_added {added : List InferenceRequest} {s : Scheduler}
    (h : SchedRun H cfg added s) : (added.map (·.requestId)).Nodup := by
  induction h with
  | new => exact List.nodup_nil
  | addRequest r _ hfresh ih =>
    rw [List.map_append, List.map_singleton, ← List.concat_eq_append]
    exact ih.concat hfresh
  | abortRequest _ _ ih | step _ _ ih | pause _ ih | resume _ ih | resetPrefixCache _ _ ih =>
    exact ih

/-- Along a run the invariant holds and the tracked requests are known. -/
theorem SchedRun.inv {added : List InferenceRequest} {s : Scheduler}
    (h : SchedRun H cfg added s) (hle : cfg.numCacheBlocks ≤ 2 ^ 32) :
    s.Inv H cfg (max cfg.numCacheBlocks 1) ∧ s.Known added := by
  refine ⟨?_, h.partition.2⟩
  induction h with
  | new => exact .new hle
  | addRequest r hrun hfresh ih => exact ih.addRequest (hrun.partition.2.fresh hfresh)
  | abortRequest id _ ih => exact ih.abortRequest id
  | step ord _ ih => exact ih.step ord
  | pause _ ih => exact ih.setPaused true
  | resume _ ih => exact ih.setPaused false
  | resetPrefixCache _ hr ih =>
    rw [Scheduler.resetPrefixCache_ok hr]
    exact ih.clearHashes

/-! ## Partition and accounting -/

namespace Scheduler

/-- The queues partition the tracked requests, and every reference to a block is an entry of the
table of a waiting or running request. -/
structure Accounted (cfg : Config) (s : Scheduler) : Prop where
  waiting_nodup : s.waiting.ids.Nodup
  running_nodup : s.running.Nodup
  waiting_running : ∀ id ∈ s.waiting.ids, id ∉ s.running
  finished_disjoint : ∀ id ∈ s.finished, id ∉ s.waiting.ids ∧ id ∉ s.running
  union : ∀ id, id ∈ s.requests ↔ id ∈ s.waiting.ids ∨ id ∈ s.running ∨ id ∈ s.finished
  capacity : s.running.length ≤ cfg.scheduler.maxNumSeqs
  references : ∀ b, (s.kvCacheManager.blockPool.block b).refCount =
    ((s.waiting.ids ++ s.running).map fun id => (s.kvCacheManager.table id).count b).sum
  all_free : s.waiting.ids = [] → s.running = [] → ∃ l : List BlockId,
    DoublyLinked.Path (fun i => (s.kvCacheManager.blockPool.block i).nextFree)
      s.kvCacheManager.blockPool.freeQueue.head l ∧
    ∀ b, b ∈ l ↔ b < s.kvCacheManager.blockPool.numBlocks ∧
      (s.kvCacheManager.blockPool.block b).isNull = false

theorem Inv.occ_eq {s : Scheduler} (h : Inv H cfg n s) (b : BlockId) :
    s.kvCacheManager.occ b =
      ((s.waiting.ids ++ s.running).map fun id => (s.kvCacheManager.table id).count b).sum := by
  have hnd : (s.waiting.ids ++ s.running).Nodup := List.nodup_append.mpr
    ⟨s.waiting.nodup_ids, h.partition.running_nodup, fun a ha c hc hac =>
      h.partition.not_running a ha (hac ▸ hc)⟩
  have hout : ∀ r ∉ (s.waiting.ids ++ s.running).toFinset, s.kvCacheManager.table r = [] := by
    intro r hr
    rw [List.mem_toFinset, List.mem_append, not_or] at hr
    exact congrArg Prod.fst ((h.each r).idle hr.1 hr.2)
  rw [KVCacheManager.occ_eq_sum hout, List.sum_toFinset _ hnd]

theorem Inv.toAccounted {s : Scheduler} (h : Inv H cfg n s) : Accounted cfg s where
  waiting_nodup := s.waiting.nodup_ids
  running_nodup := h.partition.running_nodup
  waiting_running := h.partition.not_running
  finished_disjoint := h.partition.not_finished
  union := h.partition.mem_requests
  capacity := h.capacity
  references b := (h.kv.refs_eq b).trans (h.occ_eq b)
  all_free hw hr := by
    obtain ⟨l, hl⟩ := h.kv.pool.rep
    refine ⟨l, hl.queue.linked.forward, fun b => ?_⟩
    have hz : s.kvCacheManager.blockPool.refs b = 0 := by
      rw [h.kv.refs_eq, h.occ_eq, hw, hr]
      rfl
    rw [hl.mem_iff, BlockPool.numBlocks, hl.length_eq]
    refine and_congr_right fun hb => ?_
    rw [hl.isNull_eq hb, decide_eq_false_iff_not]
    simp [hz]

end Scheduler

/-- Every reachable scheduler on at most `2 ^ 32` blocks is accounted for. -/
theorem SchedRun.accounted (H : HashFns) (cfg : Config) (hle : cfg.numCacheBlocks ≤ 2 ^ 32)
    (added : List InferenceRequest) (s : Scheduler) (h : SchedRun H cfg added s) :
    s.Accounted cfg :=
  (h.inv hle).1.toAccounted

/-- A small configuration: blocks of one token and a budget of eight. -/
def smallConfig (numCacheBlocks : ℕ) (enablePrefixCaching : Bool) : Config where
  scheduler :=
    { maxNumSeqs := 4, maxNumScheduledTokens := 8, longPrefillTokenThreshold := 8,
      enableChunkedPrefill := false, schedulingPolicy := .fcfs }
  cache :=
    { blockSize := 1, blockSize_pos := Nat.one_pos, enablePrefixCaching,
      prefixHashAlgorithm := .xxHash }
  numCacheBlocks
  maxModelLen := 16

/-- A request with the given id and prompt, and default parameters. -/
def smallRequest (requestId : RequestId) (prompt : List Token) : InferenceRequest :=
  { requestId, tokenIds := some prompt }

/-- What a caller asks of a scheduler, or of an engine. -/
inductive Call
  | addRequest (r : InferenceRequest)
  | abortRequest (id : RequestId)
  | step

/-- The id under which a call adds a request. -/
def Call.addedId : Call → Option RequestId
  | addRequest r => some r.requestId
  | _ => none

theorem SchedRun.accounted_small :
    Scheduler.Accounted (smallConfig 8 true) (((Scheduler.new (smallConfig 8 true)).addRequest
      (smallConfig 8 true) (smallRequest 1 [5, 6])).step smallHash (smallConfig 8 true) .id).2 :=
  SchedRun.accounted smallHash (smallConfig 8 true) (by decide) [smallRequest 1 [5, 6]] _
    (.step .id (.addRequest _ .new (by simp)))

/-- With two blocks more than `u32` can number, the new scheduler has already lost most of its
free blocks. -/
theorem SchedRun.not_accounted : ¬ ∀ (H : HashFns) (cfg : Config) (added : List InferenceRequest)
    (s : Scheduler), SchedRun H cfg added s → s.Accounted cfg := by
  intro h
  obtain ⟨k, hk⟩ : ∃ k, k = 2 ^ 32 + 2 := ⟨_, rfl⟩
  obtain ⟨l, hl, hmem⟩ := (h smallHash (smallConfig k false) [] _ .new).all_free rfl rfl
  obtain ⟨hhead, hnext, -⟩ := BlockPool.wrapped_links hk
  obtain rfl : l = [1] := hl.unique ⟨hhead, hnext⟩
  have hc := BlockPool.new_core (n := k) 2 (by omega)
  have hlen : (BlockPool.new k).blocks.length = k := BlockPool.new_length (by omega)
  have hlt : 2 < (BlockPool.new k).blocks.length := by omega
  have hm := (hmem 2).mpr ⟨hlt, congrArg KVCacheBlock.isNull hc⟩
  simp at hm

end Rllm
