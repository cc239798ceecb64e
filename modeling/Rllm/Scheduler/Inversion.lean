import Rllm.Scheduler.Disjoint
import Rllm.Scheduler.QueueOrder
import Rllm.Scheduler.QueueRuns

/-! # Preemption and priority

Under the priority policy the queue is sorted, so the admission loop takes a
request of lower priority first only for its prefix: when it reuses more cached
tokens. The decode loop does not look at priorities: it preempts the request
whose own allocation fails.
-/

namespace Rllm

variable {H : HashFns} {cfg : Config} {K : Guards} {s s' : Scheduler} {st st' : StepState}
  {id : RequestId} {added : List InferenceRequest}

/-- The priority of the request added under an id. -/
def priorityIn (added : List InferenceRequest) (id : RequestId) : ℤ :=
  ((added.find? fun r => r.requestId = id).map (·.priority)).getD 0

/-- The tokens computed for a request, none if it is not tracked. -/
def Scheduler.computedOf (s : Scheduler) (id : RequestId) : ℕ :=
  ((s.requests.lookup id).map (·.numComputedTokens)).getD 0

/-- A request of lower priority is admitted before a waiting one only if it reuses more tokens. -/
def Guards.byPriority (H : HashFns) (cfg : Config) (priority : RequestId → ℤ) : Guards where
  finishes _ := True
  decodes _ _ := True
  admits st := ∀ a, st.admission H cfg = some a →
    ∀ i ∈ st.sched.waiting.ids, priority a.requestId < priority i →
      cfg.cache.enablePrefixCaching = true ∧ ∃ st', st.selection H cfg =
        some (a.requestId, a.numCached, st') ∧ st'.sched.computedOf i < a.numCached

/-- The request needs blocks for its next decode step and does not get them. -/
def StepState.Starved (cfg : Config) (st : StepState) (id : RequestId) : Prop :=
  ∃ r, st.sched.requests.lookup id = some r ∧
    (st.sched.kvCacheManager.allocateSlots cfg.cache id (r.numComputedTokens +
      (1 + r.request.samplingParams.specTokens)) r.numComputedTokens).1 = none

/-! ## The scan of the queue -/

namespace Scheduler

theorem computedOf_eq {r : SchedulerRequest} (hr : s.requests.lookup id = some r) :
    s.computedOf id = r.numComputedTokens := by
  rw [computedOf, hr]
  rfl

variable (cfg) in
theorem selectLoop_look {r : SchedulerRequest} (hr : s.requests.lookup id = some r)
    (ids : List RequestId) (best : RequestId) (bestCached : ℕ) :
    ∃ s₁ r₁, s₁.requests.lookup id = some r₁ ∧
      (∀ i, i ≠ id → s₁.requests.lookup i = s.requests.lookup i) ∧
      (r₁.cachedBlockIds = [] → r₁.numComputedTokens = 0) ∧
      selectLoop H cfg (id :: ids) best bestCached s =
        if bestCached < r₁.numComputedTokens then selectLoop H cfg ids id r₁.numComputedTokens s₁
        else selectLoop H cfg ids best bestCached s₁ := by
  rw [selectLoop, hr]
  by_cases hc : r.cachedBlockIds = []
  · refine ⟨(s.probe H cfg id r.promptTokenIds
      r.request.samplingParams.skipReadingPrefixCache).2, _,
      by rw [lookup_probe, if_pos rfl, hr]; rfl,
      fun i hi => by rw [lookup_probe, if_neg hi], fun hnil => ?_, ?_⟩
    · dsimp only at hnil ⊢
      rw [KVCacheManager.getComputedBlocks_num, hnil, List.length_nil, Nat.zero_mul]
    · simp only [hc, List.isEmpty_nil, if_true, probe_fst]
  · have hempty : r.cachedBlockIds.isEmpty = false := by simpa using hc
    refine ⟨s, r, hr, fun _ _ => rfl, fun hnil => absurd hnil hc, ?_⟩
    simp only [hempty, Bool.false_eq_true, if_false]

theorem selectLoop_beats {ids : List RequestId} (hnd : ids.Nodup) (best : RequestId)
    (bestCached : ℕ) {best' : RequestId} {bestCached' : ℕ}
    (hs : selectLoop H cfg ids best bestCached s = (best', bestCached', s')) :
    (∀ i, i ∉ ids → s'.requests.lookup i = s.requests.lookup i) ∧
    (best' = best ∧ bestCached' = bestCached ∨
      ∃ pre post r, ids = pre ++ best' :: post ∧ bestCached < bestCached' ∧
        s'.requests.lookup best' = some r ∧ r.numComputedTokens = bestCached' ∧
        r.cachedBlockIds ≠ [] ∧ ∀ i ∈ pre, s'.computedOf i < bestCached') := by
  induction ids generalizing s best bestCached with
  | nil =>
    obtain ⟨rfl, rfl, rfl⟩ : best = best' ∧ bestCached = bestCached' ∧ s = s' := by
      simpa [selectLoop] using hs
    exact ⟨fun _ _ => rfl, Or.inl ⟨rfl, rfl⟩⟩
  | cons id ids ih =>
    obtain ⟨hid, hnd⟩ := List.nodup_cons.mp hnd
    cases hr : s.requests.lookup id with
    | none =>
      simp only [selectLoop, hr] at hs
      obtain ⟨hkeep, hres⟩ := ih hnd best bestCached hs
      refine ⟨fun i hi => hkeep i fun h => hi (List.mem_cons_of_mem _ h), ?_⟩
      rcases hres with hres | ⟨pre, post, r, rfl, hlt, hr', hnum, hc, hpre⟩
      · exact Or.inl hres
      · refine Or.inr ⟨id :: pre, post, r, rfl, hlt, hr', hnum, hc, fun i hi => ?_⟩
        rcases List.mem_cons.mp hi with rfl | hi
        · rw [computedOf, hkeep i hid, hr]
          exact (Nat.zero_le _).trans_lt hlt
        · exact hpre i hi
    | some r₀ =>
      obtain ⟨s₁, r₁, hr₁, hothers, hempty, heq⟩ := selectLoop_look cfg (H := H) hr ids best
        bestCached
      rw [heq] at hs
      have hstep : ∀ (b : RequestId) (c : ℕ),
          selectLoop H cfg ids b c s₁ = (best', bestCached', s') →
          r₁.numComputedTokens ≤ c →
          (∀ i, i ∉ id :: ids → s'.requests.lookup i = s.requests.lookup i) ∧
          s'.requests.lookup id = some r₁ ∧
          (best' = b ∧ bestCached' = c ∨ ∃ pre post r, id :: ids = pre ++ best' :: post ∧
            c < bestCached' ∧ s'.requests.lookup best' = some r ∧
            r.numComputedTokens = bestCached' ∧ r.cachedBlockIds ≠ [] ∧
            ∀ i ∈ pre, s'.computedOf i < bestCached') := by
        intro b c hs hle
        obtain ⟨hkeep, hres⟩ := ih hnd b c hs
        have hid' : s'.requests.lookup id = some r₁ := (hkeep id hid).trans hr₁
        refine ⟨fun i hi => ?_, hid', ?_⟩
        · rw [List.mem_cons, not_or] at hi
          exact (hkeep i hi.2).trans (hothers i hi.1)
        · rcases hres with hres | ⟨pre, post, r, rfl, hlt, hr', hnum, hc, hpre⟩
          · exact Or.inl hres
          · refine Or.inr ⟨id :: pre, post, r, rfl, hlt, hr', hnum, hc, fun i hi => ?_⟩
            rcases List.mem_cons.mp hi with rfl | hi
            · rw [computedOf_eq hid']
              exact hle.trans_lt hlt
            · exact hpre i hi
      split at hs
      · rename_i hlt
        obtain ⟨hkeep, hid', hres⟩ := hstep id _ hs le_rfl
        refine ⟨hkeep, Or.inr ?_⟩
        rcases hres with ⟨rfl, rfl⟩ | ⟨pre, post, r, hids, hlt', hrest⟩
        · refine ⟨[], ids, r₁, rfl, hlt, hid', rfl, fun hnil => ?_, by simp⟩
          rw [hempty hnil] at hlt
          exact Nat.not_lt_zero _ hlt
        · exact ⟨pre, post, r, hids, hlt.trans hlt', hrest⟩
      · rename_i hle
        obtain ⟨hkeep, -, hres⟩ := hstep best bestCached hs (not_lt.mp hle)
        exact ⟨hkeep, hres⟩

/-- The selected request is the head of the queue, or it reuses more than all in front of it. -/
theorem selectWaitingRequest_beats (hs : s.selectWaitingRequest H cfg = (some id, s')) :
    s.waiting.peek = some id ∨ cfg.cache.enablePrefixCaching = true ∧
      ∃ pre post r, s.waiting.ids = pre ++ id :: post ∧ s'.requests.lookup id = some r ∧
        r.cachedBlockIds ≠ [] ∧ ∀ i ∈ pre, s'.computedOf i < r.numComputedTokens := by
  unfold selectWaitingRequest at hs
  split at hs
  · cases (Prod.mk.inj hs).1
  · rename_i first hpeek
    dsimp only at hs
    split at hs
    · left
      rw [hpeek]
      exact (Prod.mk.inj hs).1
    · rename_i hon
      cases hl : selectLoop H cfg s.waiting.ids first
          (((s.requests.lookup first).map (·.numComputedTokens)).getD 0)
          { s with prefixCacheAdmission := ⟨some first, 0⟩ } with
      | mk best rest =>
        obtain ⟨bestCached, s₂⟩ := rest
        simp only [hl] at hs
        obtain ⟨hbest, rfl⟩ := Prod.mk.inj hs
        obtain rfl := Option.some.inj hbest
        obtain ⟨-, hres⟩ := selectLoop_beats s.waiting.nodup_ids _ _ hl
        rcases hres with ⟨rfl, -⟩ | ⟨pre, post, r, hids, -, hr, rfl, hc, hpre⟩
        · exact Or.inl hpeek
        · exact Or.inr ⟨by simpa using hon, pre, post, r, hids, hr, hc, hpre⟩

end Scheduler

theorem StepState.selection_beats {numCached : ℕ}
    (hsel : st.selection H cfg = some (id, numCached, st')) {pre post : List RequestId}
    (hids : st.sched.waiting.ids = pre ++ id :: post) {i : RequestId} (hi : i ∈ pre) :
    cfg.cache.enablePrefixCaching = true ∧ st'.sched.computedOf i < numCached := by
  have hnd : (pre ++ id :: post).Nodup := hids ▸ st.sched.waiting.nodup_ids
  unfold StepState.selection at hsel
  split at hsel
  · cases hsel
  · rename_i id' sched hsched
    obtain ⟨rfl, hcached⟩ := Prod.mk.inj (Option.some.inj hsel)
    rcases Scheduler.selectWaitingRequest_beats hsched with
      hpeek | ⟨hon, pre', post', r, hids', hr, hc, hpre⟩
    · -- nothing is in front of the head of the queue
      obtain ⟨l, hl⟩ : ∃ l, pre ++ id' :: post = id' :: l := by
        rw [← hids]
        exact ⟨_, List.eq_cons_of_mem_head? hpeek⟩
      cases pre with
      | nil => cases hi
      | cons j pre =>
        obtain ⟨rfl, -⟩ := List.cons.inj hl
        exact absurd (List.mem_append_right _ List.mem_cons_self) (List.nodup_cons.mp hnd).1
    · have hsplit : pre = pre' := by
        rw [hids'] at hids
        have hid : id' ∉ pre ++ post := (List.nodup_cons.mp (List.nodup_middle.mp hnd)).1
        rw [List.mem_append, not_or] at hid
        exact ((List.append_cons_inj_of_notMem hid.1 hid.2).mp hids.symm).1
      have hempty : r.cachedBlockIds.isEmpty = false := by simpa using hc
      simp only [StepState.cachedOf, hr, Option.map_some, Option.getD_some, hempty,
        Bool.and_false, Bool.false_eq_true, if_false] at hcached
      obtain ⟨rfl, rfl⟩ := Prod.mk.inj hcached
      exact ⟨hon, hpre i (hsplit ▸ hi)⟩

/-! ## The order of the queue -/

/-- The queue is sorted, and its entries carry the priorities of the added requests. -/
structure Scheduler.Ranked (added : List InferenceRequest) (s : Scheduler) : Prop where
  sorted : s.waiting.entries.Pairwise RequestQueue.Before
  stamped : ∀ e ∈ s.waiting.entries, ∃ r ∈ added, r.requestId = e.1 ∧ r.priority = e.2.priority

namespace Scheduler.Ranked

theorem congr (h : s.Ranked added) (hw : s'.waiting = s.waiting) : s'.Ranked added :=
  ⟨hw ▸ h.sorted, hw ▸ h.stamped⟩

theorem remove (h : s.Ranked added) (hw : s'.waiting = s.waiting.remove id) : s'.Ranked added := by
  constructor
  · rw [hw]
    exact RequestQueue.sorted_remove h.sorted id
  · intro e he
    rw [hw] at he
    exact h.stamped e (List.mem_of_mem_filter he)

theorem push (h : s.Ranked added) {r : InferenceRequest} (hr : r ∈ added)
    (hw : s'.waiting = s.waiting.push .priority r.requestId r.priority r.arrivalTime) :
    s'.Ranked added := by
  constructor
  · rw [hw]
    exact RequestQueue.sorted_push ..
  · intro e he
    rw [hw, RequestQueue.mem_entries_push] at he
    split at he
    · rename_i hid
      exact ⟨r, hr, hid.symm, (congrArg QueueEntry.priority he).symm⟩
    · exact h.stamped e he

theorem mono (h : s.Ranked added) {added' : List InferenceRequest}
    (hsub : ∀ r ∈ added, r ∈ added') : s.Ranked added' :=
  ⟨h.sorted, fun e he => (h.stamped e he).imp fun r hr => ⟨hsub r hr.1, hr.2⟩⟩

theorem priorityIn_of_mem (hnd : (added.map (·.requestId)).Nodup) {r : InferenceRequest}
    (hr : r ∈ added) : priorityIn added r.requestId = r.priority := by
  rw [priorityIn, find_of_mem hnd hr]
  rfl

theorem in_front (h : s.Ranked added) (hnd : (added.map (·.requestId)).Nodup) {i : RequestId}
    (hid : id ∈ s.waiting.ids) (hi : i ∈ s.waiting.ids)
    (hlt : priorityIn added id < priorityIn added i) :
    ∃ pre post, s.waiting.ids = pre ++ id :: post ∧ i ∈ pre := by
  have hpair : s.waiting.ids.Pairwise fun i j => priorityIn added j ≤ priorityIn added i := by
    refine List.pairwise_map.mpr (h.sorted.imp_of_mem fun {a b} ha hb hab => ?_)
    obtain ⟨p, hp, hpa, hprio⟩ := h.stamped a ha
    obtain ⟨q, hq, hqb, hqrio⟩ := h.stamped b hb
    rw [← hpa, ← hqb, priorityIn_of_mem hnd hp, priorityIn_of_mem hnd hq, hprio, hqrio]
    exact hab.elim le_of_lt fun h => h.1.ge
  obtain ⟨pre, post, hids⟩ := List.append_of_mem hid
  refine ⟨pre, post, hids, ?_⟩
  rw [hids] at hi hpair
  rcases List.mem_append.mp hi with hi | hi
  · exact hi
  · rcases List.mem_cons.mp hi with rfl | hi
    · exact absurd hlt (lt_irrefl _)
    · have hle := (List.pairwise_cons.mp (List.pairwise_append.mp hpair).2.1).1 i hi
      exact absurd hlt (not_lt.mpr hle)

end Scheduler.Ranked

theorem Move.waiting_cases (hm : Move H cfg K st st') :
    st'.sched.waiting = st.sched.waiting ∨ (∃ i, st'.sched.waiting = st.sched.waiting.remove i) ∨
    ∃ i r, st.sched.requests.lookup i = some r ∧ st'.sched.waiting =
      st.sched.waiting.push cfg.scheduler.schedulingPolicy i r.request.priority
        r.request.arrivalTime := by
  cases hm with
  | finish => exact Or.inr (Or.inl ⟨_, rfl⟩)
  | markLength => exact Or.inl Scheduler.modifyRequest_waiting
  | decode | decodeGrow =>
    left
    rw [StepState.scheduleDecode_sched, Scheduler.modifyRequest_waiting]
    try rfl
  | starve | note | admitFail => exact Or.inl rfl
  | @preempt i =>
    cases hr : st.sched.requests.lookup i with
    | none =>
      left
      simp only [StepState.preemptOne, Scheduler.preemptRequest, hr]
    | some r =>
      refine Or.inr (Or.inr ⟨i, r, hr, ?_⟩)
      simp only [StepState.preemptOne, Scheduler.preemptRequest, hr]
  | probe => exact Or.inl Scheduler.probe_waiting
  | admitCached => exact Or.inr (Or.inl ⟨_, StepState.admitCached_waiting ..⟩)
  | admitNew => exact Or.inr (Or.inl ⟨_, StepState.admitNew_waiting ..⟩)

theorem Move.ranked (hm : Move H cfg K st st') (hpol : cfg.scheduler.schedulingPolicy = .priority)
    (hk : st.sched.Known added) (h : st.sched.Ranked added) : st'.sched.Ranked added := by
  rcases hm.waiting_cases with hw | ⟨i, hw⟩ | ⟨i, r, hr, hw⟩
  · exact h.congr hw
  · exact h.remove hw
  · obtain ⟨hmem, hid, -⟩ := hk i r hr
    rw [hpol, ← hid] at hw
    exact h.push hmem hw

theorem Moves.ranked (hm : Moves H cfg K st st') (hpol : cfg.scheduler.schedulingPolicy = .priority)
    (hk : st.sched.Known added) (h : st.sched.Ranked added) : st'.sched.Ranked added := by
  induction hm with
  | refl => exact h
  | tail hms hm ih => exact hm.ranked hpol (Moves.known hms hk) ih

/-! ## Steps and runs -/

namespace StepState

theorem waitingAll_of_moves {I A : StepState → Prop} (hp : ∀ st, I st → st.sched.Partition)
    (hI : ∀ st st', I st → Moves H cfg .any st st' → I st') (hA : ∀ st, I st → A st) (n : ℕ)
    (st : StepState) (h : I st) : st.WaitingAll H cfg A n := by
  induction n generalizing st with
  | zero => exact True.intro
  | succ n ih =>
    intro hc _
    refine ⟨hA st h, ?_⟩
    have hb : st.budgetUsed < cfg.scheduler.maxNumScheduledTokens := by
      simpa using ((Bool.and_eq_true _ _).mp hc).2
    cases hiter : st.waitingIter H cfg with
    | done st' => exact True.intro
    | yield st' =>
      refine ih st' (hI st st' h ?_)
      exact waitingIter_moves (fun _ => True.intro) (hp st h) hb (Or.inr hiter)

theorem runningIter_toPreempt {i : RequestId} (hid : id ∈ (st.runningIter cfg i).toPreempt) :
    id ∈ st.toPreempt ∨ id = i ∧ Starved cfg st i := by
  unfold runningIter at hid
  split at hid
  · exact Or.inl hid
  · rename_i r hr
    split at hid
    · exact Or.inl hid
    · dsimp only at hid
      split at hid
      · split at hid
        · rw [scheduleDecode_toPreempt] at hid
          exact Or.inl hid
        · rename_i kv ha
          rcases List.mem_append.mp hid with hid | hid
          · exact Or.inl hid
          · exact Or.inr ⟨List.mem_singleton.mp hid, r, hr, by rw [ha]⟩
      · rw [scheduleDecode_toPreempt] at hid
        exact Or.inl hid

/-- The requests noted for preemption found no block at their turn. -/
theorem runningLoop_starved {ids : List RequestId} (hid : id ∈ (st.runningLoop cfg ids).toPreempt) :
    id ∈ st.toPreempt ∨ ∃ pre post, ids = pre ++ id :: post ∧
      Starved cfg (st.runningLoop cfg pre) id := by
  induction ids generalizing st with
  | nil => exact Or.inl hid
  | cons i ids ih =>
    unfold runningLoop at hid
    split at hid
    · exact Or.inl hid
    · rename_i hb
      rcases ih hid with hid | ⟨pre, post, rfl, hst⟩
      · rcases runningIter_toPreempt hid with hid | ⟨rfl, hst⟩
        · exact Or.inl hid
        · exact Or.inr ⟨[], ids, rfl, hst⟩
      · refine Or.inr ⟨i :: pre, post, rfl, ?_⟩
        rwa [runningLoop, if_neg hb]

theorem preemptAll_preempted (ids : List RequestId) (st : StepState) :
    (ids.foldl (preemptOne cfg) st).output.preempted = st.output.preempted ++ ids := by
  induction ids generalizing st with
  | nil => exact (List.append_nil _).symm
  | cons id ids ih =>
    rw [List.foldl_cons, ih, preemptOne, List.append_assoc, List.singleton_append]

theorem selection_waiting {numCached : ℕ} (hsel : st.selection H cfg = some (id, numCached, st')) :
    id ∈ st.sched.waiting.ids := by
  unfold selection at hsel
  split at hsel
  · cases hsel
  · rename_i id' sched hsched
    obtain ⟨rfl, -⟩ := Prod.mk.inj (Option.some.inj hsel)
    obtain ⟨-, hpr, hmem⟩ := selectWaitingRequest_moves (H := H) (K := .any) True.intro hsched
    rw [← hpr.waiting_eq]
    exact hmem id' rfl

theorem selection_of_admission {a : Admission} (ha : st.admission H cfg = some a) :
    ∃ st', st.selection H cfg = some (a.requestId, a.numCached, st') := by
  unfold admission at ha
  split at ha
  · cases ha
  · rename_i id numCached st' hsel
    refine ⟨st', hsel.trans ?_⟩
    dsimp only at ha
    split at ha
    · obtain rfl := Option.some.inj ha
      rfl
    · split at ha
      · cases ha
      · split at ha
        · obtain rfl := Option.some.inj ha
          rfl
        · cases ha

/-- A sorted queue is served by priority, up to the reuse of cached tokens. -/
theorem admits_byPriority (h : st.sched.Ranked added) (hnd : (added.map (·.requestId)).Nodup) :
    (Guards.byPriority H cfg (priorityIn added)).admits st := by
  intro a ha i hi hlt
  obtain ⟨st', hsel⟩ := selection_of_admission ha
  obtain ⟨pre, post, hids, hpre⟩ := h.in_front hnd (selection_waiting hsel) hi hlt
  obtain ⟨hon, hbeats⟩ := selection_beats hsel hids hpre
  exact ⟨hon, st', hsel, hbeats⟩

end StepState

/-- The step preempts requests whose own allocation fails, and admits a request ahead of a waiting
one of higher priority only if it reuses more cached tokens. -/
structure SchedStep.Deferential (H : HashFns) (cfg : Config) (added : List InferenceRequest)
    (t : SchedStep) : Prop where
  starved : ∀ id ∈ (t.out H cfg).preempted, ∃ pre post, t.opened.sched.running = pre ++ id :: post ∧
    StepState.Starved cfg (t.opened.runningLoop cfg pre) id
  admits : t.before.StepAll H cfg (.byPriority H cfg (priorityIn added)) t.ord

theorem SchedStep.scheduleRunning_moves {t : SchedStep} (H : HashFns) (cfg : Config)
    (hp : t.before.Partition) :
    Moves H cfg .any { sched := t.before } (t.opened.scheduleRunning cfg) := by
  obtain ⟨hm, hready, -⟩ := SchedStep.opened_ready H cfg hp
  obtain ⟨hloop, hend⟩ := StepState.runningLoop_moves (H := H) (K := .any) hready
    (StepState.runningAll_of_forall (fun _ _ => True.intro) _ _)
  exact (hm.trans hloop).trans (StepState.preemptAll_moves hend.preempt_nodup hend.preempt_running
    (fun _ h => h) hend.preempt_fresh hend.noAdmission).1

theorem SchedStep.scheduleRunning_preempted (H : HashFns) (cfg : Config) (t : SchedStep)
    (hp : t.before.Partition) :
    (t.opened.scheduleRunning cfg).output.preempted = t.victims cfg := by
  obtain ⟨-, hready, -⟩ := SchedStep.opened_ready H cfg hp
  have hloop : ∀ (ids : List RequestId) (st : StepState),
      (st.runningLoop cfg ids).output.preempted = st.output.preempted := by
    intro ids
    induction ids with
    | nil => exact fun _ => rfl
    | cons id ids ih =>
      intro st
      unfold StepState.runningLoop
      split
      · rfl
      · exact (ih _).trans (StepState.runningIter_frame cfg).preempted_eq
  refine (StepState.preemptAll_preempted _ _).trans ?_
  rw [hloop]
  exact congrArg (· ++ _) hready.preempted_nil

theorem SchedStep.out_preempted (H : HashFns) (cfg : Config) (t : SchedStep)
    (hp : t.before.Partition) (hpaused : t.before.paused = false) :
    (t.out H cfg).preempted = t.victims cfg := by
  rw [SchedStep.out, Scheduler.step_eq hpaused]
  exact (StepState.waitingLoop_extends _ _).preempted_eq.trans
    (SchedStep.scheduleRunning_preempted H cfg t hp)

namespace SchedRun

theorem ranked (h : SchedRun H cfg added s) (hpol : cfg.scheduler.schedulingPolicy = .priority) :
    s.Ranked added := by
  induction h with
  | new => exact ⟨List.Pairwise.nil, fun e he => by cases he⟩
  | addRequest r _ _ ih =>
    have hadd := ih.mono fun q hq => List.mem_append_left [r] hq
    refine hadd.push (List.mem_append_right _ (List.mem_singleton_self r)) ?_
    rw [Scheduler.addRequest, hpol]
  | abortRequest id _ ih => exact ih.remove rfl
  | @step added s ord hrun ih =>
    cases hpaused : s.paused with
    | true => rwa [Scheduler.step, if_pos hpaused]
    | false =>
      obtain ⟨hp, hk⟩ := hrun.partition
      rw [Scheduler.step_eq hpaused]
      exact (stepState_moves hp hpaused ord (Scheduler.stepAll_any ord s)).ranked hpol hk ih
  | pause _ ih => exact ih.congr rfl
  | resume _ ih => exact ih.congr rfl
  | resetPrefixCache _ hr ih =>
    rw [Scheduler.resetPrefixCache_ok hr]
    exact ih.congr rfl

/-- Every step of a run under the priority policy. -/
theorem deferential (H : HashFns) (cfg : Config)
    (hpol : cfg.scheduler.schedulingPolicy = .priority) (added : List InferenceRequest)
    (s : Scheduler) (hrun : SchedRun H cfg added s) (ord : HashOrder) :
    SchedStep.Deferential H cfg added ⟨s, ord⟩ := by
  obtain ⟨hp, hk⟩ := hrun.partition
  obtain ⟨-, -, hnone⟩ := SchedStep.opened_ready (t := ⟨s, ord⟩) H cfg hp
  constructor
  · intro id hid
    cases hpaused : s.paused with
    | true =>
      rw [SchedStep.out, Scheduler.step, if_pos hpaused] at hid
      cases hid
    | false =>
      rw [SchedStep.out_preempted H cfg ⟨s, ord⟩ hp hpaused] at hid
      refine (StepState.runningLoop_starved hid).resolve_left fun h => ?_
      rw [hnone] at h
      cases h
  · intro hpaused
    refine ⟨fun _ _ _ _ => True.intro,
      StepState.runningAll_of_forall (fun _ _ => True.intro) _ _, ?_⟩
    have hms := SchedStep.scheduleRunning_moves (t := ⟨s, ord⟩) H cfg hp
    refine StepState.waitingAll_of_moves
      (I := fun st => st.sched.Partition ∧ st.sched.Known added ∧ st.sched.Ranked added)
      (fun st h => h.1) ?_ ?_ _ _ ⟨Moves.partition hms hp, Moves.known hms hk,
        Moves.ranked hms hpol hk (hrun.ranked hpol)⟩
    · rintro st st' ⟨hp, hk, hr⟩ hm
      exact ⟨Moves.partition hm hp, Moves.known hm hk, Moves.ranked hm hpol hk hr⟩
    · rintro st ⟨-, -, hr⟩
      exact StepState.admits_byPriority hr hrun.nodup_added

end SchedRun

/-- A small configuration under the priority policy. -/
def rankedConfig (numCacheBlocks : ℕ) (enablePrefixCaching : Bool) (maxNumSeqs : ℕ) : Config :=
  { smallConfig numCacheBlocks enablePrefixCaching with
    scheduler := { (smallConfig numCacheBlocks enablePrefixCaching).scheduler with
      schedulingPolicy := .priority, maxNumSeqs } }

def rankedRequest (requestId : RequestId) (priority : ℤ) (prompt : List Token) :
    InferenceRequest :=
  { smallRequest requestId prompt with priority }

/-- Requests that are added one by one, each followed by a step. -/
def rankedRun (cfg : Config) : List InferenceRequest → Scheduler
  | [] => .new cfg
  | r :: rs => (((rankedRun cfg rs).addRequest cfg r).step smallHash cfg .id).2

theorem schedRun_ranked (cfg : Config) (rs : List InferenceRequest)
    (hnd : (rs.map (·.requestId)).Nodup) :
    SchedRun smallHash cfg rs.reverse (rankedRun cfg rs) := by
  induction rs with
  | nil => exact .new
  | cons r rs ih =>
    obtain ⟨hr, hnd⟩ := List.nodup_cons.mp hnd
    rw [List.reverse_cons]
    exact .step .id (.addRequest r (ih hnd) (by simpa using hr))

theorem SchedRun.deferential_small : SchedStep.Deferential smallHash (rankedConfig 7 false 4)
    [rankedRequest 1 0 [5, 6], rankedRequest 2 5 [7, 8]]
    ⟨rankedRun (rankedConfig 7 false 4) [rankedRequest 2 5 [7, 8], rankedRequest 1 0 [5, 6]],
      .id⟩ :=
  SchedRun.deferential smallHash (rankedConfig 7 false 4) rfl _ _
    (schedRun_ranked _ [rankedRequest 2 5 [7, 8], rankedRequest 1 0 [5, 6]] (by decide)) .id

/-- The step schedules no request of lower priority than one it preempts. -/
def SchedStep.SparesHigher (H : HashFns) (cfg : Config) (added : List InferenceRequest)
    (t : SchedStep) : Prop :=
  ∀ r ∈ (t.out H cfg).preempted, ∀ i ∈ (t.out H cfg).scheduledRunning,
    ¬ priorityIn added i < priorityIn added r

/-- The step admits no request of lower priority than one it preempts and leaves waiting. -/
def SchedStep.AdmitsHigher (H : HashFns) (cfg : Config) (added : List InferenceRequest)
    (t : SchedStep) : Prop :=
  ∀ r ∈ (t.out H cfg).preempted, r ∈ (t.after H cfg).waiting.ids →
    ∀ i ∈ (t.out H cfg).scheduledNew ++ (t.out H cfg).scheduledCached,
      ¬ priorityIn added i < priorityIn added r

/-- A request of low priority takes the last block in front of one of high priority; and one of
low priority is admitted first since it shares the prompt of a running request. -/
theorem SchedRun.not_higher :
    (¬ ∀ (H : HashFns) (cfg : Config), cfg.scheduler.schedulingPolicy = .priority →
      ∀ (added : List InferenceRequest) (s : Scheduler), SchedRun H cfg added s →
      ∀ ord, SchedStep.SparesHigher H cfg added ⟨s, ord⟩) ∧
    ¬ ∀ (H : HashFns) (cfg : Config), cfg.scheduler.schedulingPolicy = .priority →
      ∀ (added : List InferenceRequest) (s : Scheduler), SchedRun H cfg added s →
      ∀ ord, SchedStep.AdmitsHigher H cfg added ⟨s, ord⟩ := by
  constructor
  · intro h
    have hstep := h smallHash (rankedConfig 7 false 4) rfl _ _
      (schedRun_ranked _ [rankedRequest 2 5 [7, 8], rankedRequest 1 0 [5, 6]] (by decide)) .id
      2 (by decide +kernel) 1 (by decide +kernel)
    revert hstep
    decide +kernel
  · intro h
    have hrun : SchedRun smallHash (rankedConfig 10 true 2) _ _ :=
      .addRequest (rankedRequest 3 0 [1, 2, 3, 9]) (.step .id
        (schedRun_ranked _ [rankedRequest 2 5 [5, 6], rankedRequest 1 9 [1, 2, 3]] (by decide)))
        (by decide)
    have hstep := h smallHash (rankedConfig 10 true 2) rfl _ _ hrun .id
      2 (by decide +kernel) (by decide +kernel) 3 (by decide +kernel)
    revert hstep
    decide +kernel

end Rllm
