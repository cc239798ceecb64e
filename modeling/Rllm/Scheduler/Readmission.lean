import Rllm.Scheduler.Budget
import Rllm.Scheduler.Selection

/-! # Preempted requests in the admission loop

A step that preempts requests goes on to its admission loop with them in the
queue. They stay out if what the decodes and the preemptions leave of the token
budget, of the sequences and of the free blocks does not suffice for the
requests in front of them.
-/

namespace Rllm

variable {H : HashFns} {cfg : Config} {s : Scheduler} {st : StepState} {id : RequestId}
  {added : List InferenceRequest}

/-! ## What the queue needs -/

/-- The tokens of a first prefill, with `used` tokens of the budget taken. -/
def Config.firstChunk (cfg : Config) (used promptLen : ℕ) : ℕ :=
  let tokens := min promptLen (cfg.scheduler.maxNumScheduledTokens - used)
  let tokens := if cfg.scheduler.enableChunkedPrefill then
    min tokens cfg.scheduler.longPrefillTokenThreshold else tokens
  min tokens cfg.maxModelLen

/-- Prompts of these lengths can all be started one after the other, with `used` tokens of the
budget taken, `running` requests running and the blocks of the pool `p`. -/
def Affords (cfg : Config) : List ℕ → ℕ → ℕ → BlockPool → Prop
  | [], _, _, _ => True
  | len :: lens, used, running, p =>
    let tokens := cfg.firstChunk used len
    let numBlocks := divCeil tokens cfg.cache.blockSize
    (used < cfg.scheduler.maxNumScheduledTokens ∧ running < cfg.scheduler.maxNumSeqs ∧
      (len = 0 ∨ 0 < tokens) ∧ (allocMany numBlocks p).1.length = numBlocks) ∧
      Affords cfg lens (used + tokens) (running + 1) (allocMany numBlocks p).2

/-- The requests up to the first of `vs`. -/
def upTo (vs : List RequestId) : List RequestId → List RequestId
  | [] => []
  | id :: ids => if id ∈ vs then [id] else id :: upTo vs ids

theorem mem_of_mem_upTo {vs ids : List RequestId} (h : id ∈ upTo vs ids) : id ∈ ids := by
  induction ids with
  | nil => cases h
  | cons i ids ih =>
    rw [upTo] at h
    split at h
    · exact List.mem_cons.mpr (Or.inl (List.mem_singleton.mp h))
    · exact (List.mem_cons.mp h).elim (fun he => he ▸ List.mem_cons_self)
        fun hi => List.mem_cons_of_mem _ (ih hi)

theorem upTo_cons (vs : List RequestId) (id : RequestId) (ids : List RequestId) :
    ∃ l, upTo vs (id :: ids) = id :: l := by
  unfold upTo
  split
  · exact ⟨[], rfl⟩
  · exact ⟨_, rfl⟩

namespace Scheduler

def promptLen (s : Scheduler) (id : RequestId) : ℕ :=
  ((s.requests.lookup id).map (·.promptTokenIds.length)).getD 0

end Scheduler

namespace StepState

variable (cfg) in
/-- The request, with so many tokens cached, has an empty chunk or does not get its blocks. -/
def Misses (st : StepState) (id : RequestId) (numCached : ℕ) : Prop :=
  let tokens := st.prefillTokens cfg (st.sched.promptLen id) numCached
  let numBlocks := divCeil tokens cfg.cache.blockSize
  numCached < st.sched.promptLen id ∧ (tokens = 0 ∨
    (allocMany numBlocks st.sched.kvCacheManager.blockPool).1.length < numBlocks)

variable (H cfg) in
/-- Budget, sequences or free blocks do not suffice for the request that the lookups prefer. -/
def Short (st : StepState) : Prop :=
  cfg.scheduler.maxNumScheduledTokens ≤ st.budgetUsed ∨
    cfg.scheduler.maxNumSeqs ≤ st.sched.running.length ∨
    ∀ selected ∈ st.selection H cfg, selected.2.2.Misses cfg selected.1 selected.2.1

end StepState

namespace SchedStep

variable (H : HashFns) (cfg : Config) (t : SchedStep)

/-- The step when its admission loop starts. -/
def relieved : StepState := t.opened.scheduleRunning cfg

/-- The lengths of the queued prompts up to the first one that the step preempted. -/
def promptsAhead : List ℕ :=
  (upTo (t.victims cfg) (t.relieved cfg).sched.waiting.ids).map (t.relieved cfg).sched.promptLen

/-- The step is paused or preempts nobody, or what is left does not suffice: for the queue up to
the first preempted request, and with a prefix cache for the request that the lookups prefer. -/
def KeepsOut : Prop :=
  t.before.paused = true ∨ t.victims cfg = [] ∨
    if cfg.cache.enablePrefixCaching then (t.relieved cfg).Short H cfg
    else ¬ Affords cfg (t.promptsAhead cfg) (t.relieved cfg).budgetUsed
      (t.relieved cfg).sched.running.length (t.relieved cfg).sched.kvCacheManager.blockPool

end SchedStep

/-! ## Allocation for a prefill -/

theorem allocMany_length_le (k : ℕ) (p : BlockPool) : (allocMany k p).1.length ≤ k := by
  induction k generalizing p with
  | zero => exact le_rfl
  | succ k ih =>
    unfold allocMany
    split
    · exact Nat.succ_le_succ (ih _)
    · exact Nat.zero_le _

namespace KVCacheManager

variable {m : KVCacheManager} {c : CacheConfig} {tokens : ℕ}

theorem allocateSlots_short (id : RequestId) (numCached : ℕ) (ht : 0 < tokens)
    (h : (allocMany (divCeil tokens c.blockSize) m.blockPool).1.length <
      divCeil tokens c.blockSize) :
    ∃ kv, m.allocateSlots c id (numCached + tokens) numCached = (none, kv) := by
  have htokens : numCached + tokens - numCached = tokens := Nat.add_sub_cancel_left _ _
  rw [allocateSlots, htokens]
  simp only [ht.ne', if_false, h, if_true]
  exact ⟨_, rfl⟩

theorem allocateSlots_full (id : RequestId) (numCached : ℕ) (ht : 0 < tokens)
    (h : (allocMany (divCeil tokens c.blockSize) m.blockPool).1.length =
      divCeil tokens c.blockSize) :
    ∃ bs kv, m.allocateSlots c id (numCached + tokens) numCached = (some bs, kv) ∧
      kv.blockPool = (allocMany (divCeil tokens c.blockSize) m.blockPool).2 := by
  have htokens : numCached + tokens - numCached = tokens := Nat.add_sub_cancel_left _ _
  rw [allocateSlots, htokens]
  simp only [ht.ne', if_false, h, lt_irrefl]
  exact ⟨_, _, rfl, rfl⟩

end KVCacheManager

namespace StepState

variable {st' : StepState}

theorem Short.admission_none (h : st.Short H cfg)
    (hb : st.budgetUsed < cfg.scheduler.maxNumScheduledTokens)
    (hrun : st.sched.running.length < cfg.scheduler.maxNumSeqs) :
    st.admission H cfg = none := by
  have hsel := (h.resolve_left (not_le.mpr hb)).resolve_left (not_le.mpr hrun)
  unfold admission
  cases hselected : st.selection H cfg with
  | none => rfl
  | some selected =>
    obtain ⟨id, numCached, st₁⟩ := selected
    obtain ⟨hlen, hfit⟩ := hsel _ hselected
    dsimp only at hlen hfit ⊢
    have hrem : st₁.sched.promptLen id - numCached ≠ 0 := by omega
    rw [← Scheduler.promptLen, if_neg hrem]
    by_cases ht : st₁.prefillTokens cfg (st₁.sched.promptLen id) numCached = 0
    · rw [if_pos ht]
    · obtain ⟨kv, hkv⟩ := KVCacheManager.allocateSlots_short id numCached
        (Nat.pos_of_ne_zero ht) (hfit.resolve_left ht)
      rw [if_neg ht, hkv]
      rfl

theorem waitingIter_of_none (hnone : st.admission H cfg = none) :
    ∃ st', st.waitingIter H cfg = .done st' := by
  unfold admission selection at hnone
  unfold waitingIter
  split
  · exact ⟨_, rfl⟩
  · cases hsel : st.sched.selectWaitingRequest H cfg with
    | mk sel sched =>
      cases sel with
      | none => exact ⟨_, rfl⟩
      | some id =>
        simp only [hsel] at hnone
        simp only [admitSelected]
        cases hc : StepState.cachedOf H cfg { st with sched } id with
        | mk numCached st₁ =>
          simp only [hc] at hnone ⊢
          split at hnone
          · cases hnone
          · rename_i hrem
            rw [if_neg hrem]
            split
            · exact ⟨_, rfl⟩
            · rename_i ht
              rw [if_neg ht] at hnone
              split
              · rename_i hkv
                rw [hkv] at hnone
                cases hnone
              · exact ⟨_, rfl⟩

theorem waitingAll_of_none (hnone : st.admission H cfg = none) (n : ℕ) :
    st.WaitingAll H cfg (Guards.noReadmission H cfg).admits n := by
  cases n with
  | zero => exact True.intro
  | succ n =>
    intro _ _
    obtain ⟨st', hdone⟩ := waitingIter_of_none hnone
    refine ⟨fun a ha => ?_, ?_⟩
    · rw [hnone] at ha
      cases ha
    · rw [hdone]
      exact True.intro

/-! ## The admission loop without a prefix cache -/

theorem prefillTokens_zero (promptLen : ℕ) :
    st.prefillTokens cfg promptLen 0 = cfg.firstChunk st.budgetUsed promptLen := rfl

/-- What an iteration leaves when it takes the head of the queue. -/
structure Takes (cfg : Config) (st : StepState) (id : RequestId) (rest : List RequestId)
    (st' : StepState) : Prop where
  waiting_eq : st'.sched.waiting.ids = rest
  budget_eq : st'.budgetUsed =
    st.budgetUsed + cfg.firstChunk st.budgetUsed (st.sched.promptLen id)
  running_eq : st'.sched.running.length = st.sched.running.length + 1
  pool_eq : st'.sched.kvCacheManager.blockPool =
    (allocMany (divCeil (cfg.firstChunk st.budgetUsed (st.sched.promptLen id))
      cfg.cache.blockSize) st.sched.kvCacheManager.blockPool).2
  lookup_eq : ∀ i ≠ id, st'.sched.requests.lookup i = st.sched.requests.lookup i
  preempted_eq : st'.output.preempted = st.output.preempted

/-- The state with the head of the queue noted as the request that is selected. -/
def noteHead (st : StepState) (id : RequestId) : StepState :=
  { st with sched := { st.sched with prefixCacheAdmission := ⟨some id, 0⟩ } }

section Head

variable {rest : List RequestId}

theorem selectWaitingRequest_head (hoff : cfg.cache.enablePrefixCaching = false)
    (hids : st.sched.waiting.ids = id :: rest) :
    st.sched.selectWaitingRequest H cfg = (some id, (st.noteHead id).sched) := by
  apply Scheduler.selectWaitingRequest_off hoff
  rw [RequestQueue.peek, hids]
  rfl

theorem cachedOf_head (hoff : cfg.cache.enablePrefixCaching = false)
    (hzero : st.sched.computedOf id = 0) :
    StepState.cachedOf H cfg (st.noteHead id) id = (0, st.noteHead id) := by
  rw [← hzero]
  simp [StepState.cachedOf, noteHead, hoff, Scheduler.computedOf]

theorem selection_noted (hoff : cfg.cache.enablePrefixCaching = false)
    (hids : st.sched.waiting.ids = id :: rest) (hzero : st.sched.computedOf id = 0) :
    st.selection H cfg = some (id, 0, st.noteHead id) := by
  have hcached : StepState.cachedOf H cfg { st with sched := (st.noteHead id).sched } id = _ :=
    cachedOf_head hoff hzero
  rw [StepState.selection, selectWaitingRequest_head hoff hids]
  simp only [hcached]

theorem waitingIter_head (hoff : cfg.cache.enablePrefixCaching = false)
    (hrun : st.sched.running.length < cfg.scheduler.maxNumSeqs)
    (hids : st.sched.waiting.ids = id :: rest) :
    st.waitingIter H cfg = admitSelected H cfg (st.noteHead id) id := by
  rw [waitingIter, if_neg (not_le.mpr hrun), selectWaitingRequest_head hoff hids]
  rfl

/-- An empty prompt is taken as a whole. -/
theorem takes_admitCached (hids : st.sched.waiting.ids = id :: rest)
    (hz : st.sched.promptLen id = 0) :
    Takes cfg st id rest ((st.noteHead id).admitCached id) := by
  have htokens : cfg.firstChunk st.budgetUsed (st.sched.promptLen id) = 0 := by
    rw [hz]
    simp [Config.firstChunk]
  constructor
  · rw [admitCached_waiting]
    exact RequestQueue.ids_remove_head hids
  · rw [htokens]
    rfl
  · rw [admitCached_running, List.length_append, List.length_singleton]
    rfl
  · rw [htokens, divCeil_zero cfg.cache.blockSize_pos, admitCached_kvCacheManager]
    rfl
  · intro i hi
    rw [admitCached_lookup, if_neg hi]
    rfl
  · rfl

theorem takes_admitNew (hoff : cfg.cache.enablePrefixCaching = false)
    (hids : st.sched.waiting.ids = id :: rest) {kv : KVCacheManager}
    (hpool : kv.blockPool = (allocMany (divCeil (cfg.firstChunk st.budgetUsed
      (st.sched.promptLen id)) cfg.cache.blockSize) st.sched.kvCacheManager.blockPool).2)
    (total : ℕ) :
    Takes cfg st id rest (((st.noteHead id).setKV kv).admitNew cfg id
      (cfg.firstChunk st.budgetUsed (st.sched.promptLen id)) total) := by
  constructor
  · rw [admitNew_waiting]
    exact RequestQueue.ids_remove_head hids
  · exact (admitNew_counters _ _ _ _ _).1
  · rw [admitNew_running, List.length_append, List.length_singleton]
    rfl
  · rw [admitNew_kvCacheManager, KVCacheManager.cacheBlocks_off hoff]
    exact hpool
  · intro i hi
    rw [admitNew_lookup, if_neg hi]
    rfl
  · rw [admitNew_output]
    rfl

end Head

theorem waitingIter_off (hoff : cfg.cache.enablePrefixCaching = false)
    (hrun : st.sched.running.length < cfg.scheduler.maxNumSeqs) {rest : List RequestId}
    (hids : st.sched.waiting.ids = id :: rest) (hzero : st.sched.computedOf id = 0) :
    let tokens := cfg.firstChunk st.budgetUsed (st.sched.promptLen id)
    let numBlocks := divCeil tokens cfg.cache.blockSize
    ((st.sched.promptLen id = 0 ∨ 0 < tokens) ∧
        (allocMany numBlocks st.sched.kvCacheManager.blockPool).1.length = numBlocks ∧
        ∃ st' a, st.waitingIter H cfg = .yield st' ∧ st.admission H cfg = some a ∧
          a.requestId = id ∧ Takes cfg st id rest st') ∨
      ¬ ((st.sched.promptLen id = 0 ∨ 0 < tokens) ∧
        (allocMany numBlocks st.sched.kvCacheManager.blockPool).1.length = numBlocks) ∧
        ∃ st', st.waitingIter H cfg = .done st' ∧ st.admission H cfg = none := by
  intro tokens numBlocks
  have hlen : (((st.noteHead id).sched.requests.lookup id).map
      (·.promptTokenIds.length)).getD 0 = st.sched.promptLen id := rfl
  have hkv : (st.noteHead id).sched.kvCacheManager = st.sched.kvCacheManager := rfl
  have hchunk : (st.noteHead id).prefillTokens cfg (st.sched.promptLen id) 0 = tokens := rfl
  rw [waitingIter_head hoff hrun hids]
  simp only [admission, selection_noted hoff hids hzero, admitSelected, cachedOf_head hoff hzero,
    hlen, hkv, hchunk, Nat.sub_zero]
  by_cases hz : st.sched.promptLen id = 0
  · have htokens : tokens = 0 := by simp [tokens, hz, Config.firstChunk]
    have hblocks : numBlocks = 0 := by
      rw [← divCeil_zero cfg.cache.blockSize_pos, ← htokens]
    left
    rw [hblocks]
    exact ⟨Or.inl hz, rfl, _, ⟨id, 0, 0⟩, if_pos hz, if_pos hz, rfl, takes_admitCached hids hz⟩
  · simp only [hz, false_or, if_false]
    by_cases ht : tokens = 0
    · right
      simp only [ht, lt_irrefl, false_and, not_false_eq_true, true_and, if_true]
      exact ⟨_, rfl, trivial⟩
    · have hpos := Nat.pos_of_ne_zero ht
      simp only [ht, if_false]
      rcases (allocMany_length_le numBlocks st.sched.kvCacheManager.blockPool).lt_or_eq with
        hshort | hfull
      · right
        refine ⟨fun h => absurd h.2 hshort.ne, ?_⟩
        obtain ⟨kv, hnone⟩ := KVCacheManager.allocateSlots_short id 0 hpos hshort
        simp only [hnone]
        exact ⟨_, rfl, rfl⟩
      · left
        obtain ⟨bs, kv, halloc, hpool⟩ := KVCacheManager.allocateSlots_full id 0 hpos hfull
        simp only [halloc, Option.isSome_some, if_true]
        exact ⟨hpos, hfull, _, _, rfl, rfl, rfl, takes_admitNew hoff hids hpool _⟩

theorem noReadmission_admits_iff {a : Admission} (hadm : st.admission H cfg = some a) :
    (Guards.noReadmission H cfg).admits st ↔ a.requestId ∉ st.output.preempted := by
  constructor
  · exact fun h => h a hadm
  · intro h b hb
    obtain rfl := Option.some.inj (hadm.symm.trans hb)
    exact h

theorem Takes.promptLens_eq {rest : List RequestId} {st' : StepState}
    (h : Takes cfg st id rest st') (hid : id ∉ rest) (vs : List RequestId) :
    (upTo vs rest).map st'.sched.promptLen = (upTo vs rest).map st.sched.promptLen := by
  refine List.map_congr_left fun i hi => ?_
  rw [Scheduler.promptLen, Scheduler.promptLen,
    h.lookup_eq i (ne_of_mem_of_not_mem (mem_of_mem_upTo hi) hid)]

/-- The loop picks no preempted request if and only if what is left does not suffice for the queue
up to the first one. -/
theorem waitingAll_iff (hoff : cfg.cache.enablePrefixCaching = false) (n : ℕ)
    (hn : st.sched.waiting.ids.length < n)
    (hzero : ∀ i ∈ st.sched.waiting.ids, st.sched.computedOf i = 0)
    (hin : ∃ v ∈ st.output.preempted, v ∈ st.sched.waiting.ids) :
    st.WaitingAll H cfg (Guards.noReadmission H cfg).admits n ↔
      ¬ Affords cfg ((upTo st.output.preempted st.sched.waiting.ids).map st.sched.promptLen)
        st.budgetUsed st.sched.running.length st.sched.kvCacheManager.blockPool := by
  induction n generalizing st with
  | zero => exact absurd hn (Nat.not_lt_zero _)
  | succ n ih =>
    obtain ⟨v, hv, hvw⟩ := hin
    obtain ⟨id, rest, hids⟩ := List.exists_cons_of_ne_nil (List.ne_nil_of_mem hvw)
    obtain ⟨ids, hup⟩ := upTo_cons st.output.preempted id rest
    have hne : st.sched.waiting.isEmpty = false := by
      rw [← Bool.not_eq_true, RequestQueue.isEmpty_iff, hids]
      exact List.cons_ne_nil _ _
    rw [hids] at hn hzero hvw ⊢
    by_cases hb : st.budgetUsed < cfg.scheduler.maxNumScheduledTokens
    · by_cases hrun : st.sched.running.length < cfg.scheduler.maxNumSeqs
      · have hcan : st.canAdmit cfg = true := by simp [canAdmit, hne, hb]
        unfold WaitingAll
        simp only [hcan, hrun, forall_const]
        rcases waitingIter_off (H := H) hoff hrun hids (hzero id List.mem_cons_self) with
          ⟨hchunk, hfull, st', a, hiter, hadm, rfl, htakes⟩ | ⟨hfit, st', hiter, hadm⟩
        · rw [noReadmission_admits_iff hadm, hiter]
          by_cases hpre : a.requestId ∈ st.output.preempted
          · rw [upTo, if_pos hpre, List.map_singleton]
            refine iff_of_false (fun h => h.1 hpre) (not_not.mpr ?_)
            exact ⟨⟨hb, hrun, hchunk, hfull⟩, True.intro⟩
          · have hid : a.requestId ∉ rest :=
              (List.nodup_cons.mp (hids ▸ st.sched.waiting.nodup_ids)).1
            have hrest := @ih st' (by rw [htakes.waiting_eq]; simpa using hn)
              (fun i hi => ?_) ⟨v, htakes.preempted_eq ▸ hv, ?_⟩
            · rw [htakes.waiting_eq, htakes.preempted_eq, htakes.budget_eq, htakes.running_eq,
                htakes.pool_eq, htakes.promptLens_eq hid] at hrest
              rw [upTo, if_neg hpre, List.map_cons, Affords]
              dsimp only
              rw [hrest]
              simp only [hb, hrun, hchunk, hfull, hpre, not_false_eq_true, true_and]
            · rw [htakes.waiting_eq] at hi
              rw [Scheduler.computedOf, htakes.lookup_eq i (ne_of_mem_of_not_mem hi hid)]
              exact hzero i (List.mem_cons_of_mem _ hi)
            · rw [htakes.waiting_eq]
              refine (List.mem_cons.mp hvw).resolve_left ?_
              rintro rfl
              exact hpre hv
        · rw [hiter]
          refine iff_of_true ⟨fun b hb => ?_, True.intro⟩ ?_
          · rw [hadm] at hb
            cases hb
          · rw [hup, List.map_cons, Affords]
            exact fun h => hfit h.1.2.2
      · refine iff_of_true (fun _ h => absurd h hrun) ?_
        rw [hup, List.map_cons, Affords]
        exact fun h => hrun h.1.2.1
    · refine iff_of_true (fun hc => ?_) ?_
      · simp [canAdmit, hb] at hc
      · rw [hup, List.map_cons, Affords]
        exact fun h => hb h.1.1

end StepState

/-! ## Steps -/

namespace StepState

theorem preemptOne_waiting_mono {i : RequestId} (hi : i ∈ st.sched.waiting.ids) :
    i ∈ (st.preemptOne cfg id).sched.waiting.ids := by
  unfold preemptOne Scheduler.preemptRequest
  dsimp only
  split
  · exact RequestQueue.mem_ids_push.mpr (Or.inl hi)
  · exact hi

theorem preemptAll_waiting_mono {i : RequestId} (ids : List RequestId)
    (hi : i ∈ st.sched.waiting.ids) : i ∈ (ids.foldl (preemptOne cfg) st).sched.waiting.ids := by
  induction ids generalizing st with
  | nil => exact hi
  | cons id ids ih => exact ih (preemptOne_waiting_mono hi)

theorem preemptAll_mem_waiting {ids : List RequestId} (hnd : ids.Nodup)
    (hmem : ∀ i ∈ ids, i ∈ st.sched.running) (hp : st.sched.Partition) (hid : id ∈ ids) :
    id ∈ (ids.foldl (preemptOne cfg) st).sched.waiting.ids := by
  induction ids generalizing st with
  | nil => cases hid
  | cons j ids ih =>
    obtain ⟨hj, hnd⟩ := List.nodup_cons.mp hnd
    have hrun := hmem j List.mem_cons_self
    rcases List.mem_cons.mp hid with rfl | hid
    · refine preemptAll_waiting_mono ids ?_
      obtain ⟨r, hr⟩ := Scheduler.mem_requests_iff.mp
        ((hp.mem_requests id).mpr (Or.inr (Or.inl hrun)))
      unfold preemptOne Scheduler.preemptRequest
      simp only [hr]
      exact RequestQueue.mem_ids_push.mpr (Or.inr rfl)
    · refine ih hnd (fun i hi => ?_) (hp.preemptRequest cfg hrun) hid
      rw [preemptOne_running, List.mem_filter]
      exact ⟨hmem i (List.mem_cons_of_mem _ hi), by simpa using ne_of_mem_of_not_mem hi hj⟩

end StepState

namespace SchedStep

variable {t : SchedStep}

theorem victims_waiting (H : HashFns) (hp : t.before.Partition) (hid : id ∈ t.victims cfg) :
    id ∈ (t.relieved cfg).sched.waiting.ids := by
  obtain ⟨hm, hready, -⟩ := opened_ready H cfg hp
  obtain ⟨hloop, hend⟩ := StepState.runningLoop_moves (H := H) (K := .any) hready
    (StepState.runningAll_of_forall (fun _ _ => True.intro) _ _)
  exact StepState.preemptAll_mem_waiting hend.preempt_nodup hend.preempt_running
    (hloop.partition (hm.partition hp)) hid

theorem relieved_zero (H : HashFns) (hoff : cfg.cache.enablePrefixCaching = false)
    (hp : t.before.Partition) (hcount : t.before.EveryWaiting (Scheduler.Counted cfg)) :
    ∀ i ∈ (t.relieved cfg).sched.waiting.ids, (t.relieved cfg).sched.computedOf i = 0 := by
  intro i hi
  have hmoves := scheduleRunning_moves H cfg hp
  exact (Scheduler.reach_off (H := H) hoff
    (hmoves.everyWaiting Scheduler.keptWaiting_counted hp hcount) hi).2

theorem waitingAll_of_nobody (H : HashFns) (hp : t.before.Partition)
    (hnone : t.victims cfg = []) (n : ℕ) :
    (t.relieved cfg).WaitingAll H cfg (Guards.noReadmission H cfg).admits n := by
  apply StepState.waitingAll_of_disjoint
  intro id hid
  rw [(StepState.waitingLoop_extends _ _).preempted_eq, relieved,
    scheduleRunning_preempted H cfg t hp, hnone] at hid
  cases hid

theorem waitingAll_of_short (hshort : (t.relieved cfg).Short H cfg) (n : ℕ) :
    (t.relieved cfg).WaitingAll H cfg (Guards.noReadmission H cfg).admits n := by
  cases n with
  | zero => exact True.intro
  | succ n =>
    intro hcan hrun
    have hb : (t.relieved cfg).budgetUsed < cfg.scheduler.maxNumScheduledTokens := by
      simpa using ((Bool.and_eq_true _ _).mp hcan).2
    exact StepState.waitingAll_of_none (hshort.admission_none hb hrun) (n + 1) hcan hrun

theorem stepAll_iff : t.before.StepAll H cfg (.noReadmission H cfg) t.ord ↔
    (t.before.paused = false → (t.relieved cfg).WaitingAll H cfg
      (Guards.noReadmission H cfg).admits ((t.relieved cfg).sched.waiting.len + 1)) := by
  constructor
  · exact fun h hpaused => (h hpaused).2.2
  · exact fun h hpaused => ⟨fun _ _ _ _ => True.intro,
      StepState.runningAll_of_forall (fun _ _ => True.intro) _ _, h hpaused⟩

/-- Without a prefix cache, a step that preempts somebody picks none of them if and only if what is
left does not suffice for the queue up to the first one. -/
theorem waitingAll_iff_affords (hoff : cfg.cache.enablePrefixCaching = false)
    (hp : t.before.Partition) (hcount : t.before.EveryWaiting (Scheduler.Counted cfg))
    (hsome : t.victims cfg ≠ []) : (t.relieved cfg).WaitingAll H cfg
        (Guards.noReadmission H cfg).admits ((t.relieved cfg).sched.waiting.len + 1) ↔
      ¬ Affords cfg (t.promptsAhead cfg) (t.relieved cfg).budgetUsed
        (t.relieved cfg).sched.running.length (t.relieved cfg).sched.kvCacheManager.blockPool := by
  obtain ⟨v, hv⟩ := List.exists_mem_of_ne_nil _ hsome
  have hpre : (t.relieved cfg).output.preempted = t.victims cfg :=
    scheduleRunning_preempted H cfg t hp
  rw [StepState.waitingAll_iff hoff _ ?_ (relieved_zero H hoff hp hcount) ⟨v, hpre ▸ hv,
    victims_waiting H hp hv⟩, hpre]
  · rfl
  · rw [RequestQueue.len_eq]
    exact Nat.lt_succ_self _

theorem stepAll_of_keepsOut (hp : t.before.Partition)
    (hcount : t.before.EveryWaiting (Scheduler.Counted cfg)) (h : t.KeepsOut H cfg) :
    t.before.StepAll H cfg (.noReadmission H cfg) t.ord := by
  rw [stepAll_iff]
  intro hpaused
  by_cases hsome : t.victims cfg = []
  · exact waitingAll_of_nobody H hp hsome _
  · have hleft := (h.resolve_left (by simp [hpaused])).resolve_left hsome
    split at hleft
    · exact waitingAll_of_short hleft _
    · rename_i hoff
      exact (waitingAll_iff_affords (by simpa using hoff) hp hcount hsome).mpr hleft

theorem keepsOut_of_stepAll (hoff : cfg.cache.enablePrefixCaching = false)
    (hp : t.before.Partition) (hcount : t.before.EveryWaiting (Scheduler.Counted cfg))
    (h : t.before.StepAll H cfg (.noReadmission H cfg) t.ord) : t.KeepsOut H cfg := by
  rw [stepAll_iff] at h
  by_cases hpaused : t.before.paused = true
  · exact Or.inl hpaused
  · by_cases hsome : t.victims cfg = []
    · exact Or.inr (Or.inl hsome)
    · right; right
      rw [if_neg (by simp [hoff])]
      exact (waitingAll_iff_affords hoff hp hcount hsome).mp (h (by simpa using hpaused))

end SchedStep

instance Affords.decidable : ∀ (lens : List ℕ) (used running : ℕ) (p : BlockPool),
    Decidable (Affords cfg lens used running p)
  | [], _, _, _ => .isTrue True.intro
  | len :: lens, used, running, p => by
    have := decidable lens (used + cfg.firstChunk used len) (running + 1)
      (allocMany (divCeil (cfg.firstChunk used len) cfg.cache.blockSize) p).2
    unfold Affords
    infer_instance

instance (st : StepState) (numCached : ℕ) : Decidable (st.Misses cfg id numCached) := by
  unfold StepState.Misses
  infer_instance

instance (st : StepState) : Decidable (st.Short H cfg) := by
  unfold StepState.Short
  infer_instance

instance (t : SchedStep) : Decidable (t.KeepsOut H cfg) := by
  unfold SchedStep.KeepsOut
  infer_instance

/-- A request has decoded its way into the third of three blocks, and one of four tokens waits. -/
def starving : Scheduler :=
  let cfg := smallConfig 4 false
  let s := (Scheduler.new cfg).addRequest cfg (smallRequest 1 [5, 6])
  let s := (s.step smallHash cfg .id).2.addRequest cfg (smallRequest 2 [5, 6, 7, 8])
  (s.step smallHash cfg .id).2

end Rllm
