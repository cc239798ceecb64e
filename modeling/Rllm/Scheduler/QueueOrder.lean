import Rllm.Scheduler.Reports

/-! # The order of the waiting queue

Without prefix caching the admission loop takes requests off the head of the
queue. New requests join at its tail, in the order of their arrival, but so do
preempted ones: the queue is sorted by arrival as long as every preempted
request arrived after all those that wait.
-/

namespace Rllm

variable {H : HashFns} {cfg : Config} {s : Scheduler} {st st' : StepState} {id : RequestId}
  {arrival : RequestId → ℕ} {added : List InferenceRequest} {steps : List SchedStep}

/-- The arrival time of the request added under an id. -/
def arrivalIn (added : List InferenceRequest) (id : RequestId) : ℕ :=
  ((added.find? fun r => r.requestId = id).map (·.arrivalTime)).getD 0

/-- The waiting queue is sorted by arrival time. -/
def Scheduler.InOrder (arrival : RequestId → ℕ) (s : Scheduler) : Prop :=
  s.waiting.ids.Pairwise fun i j => arrival i < arrival j

/-- An admitted request arrived before all the others in the queue. -/
def Guards.firstCome (H : HashFns) (cfg : Config) (arrival : RequestId → ℕ) : Guards where
  finishes _ := True
  decodes _ _ := True
  admits st := ∀ a, st.admission H cfg = some a →
    ∀ i ∈ st.sched.waiting.ids, i ≠ a.requestId → arrival a.requestId < arrival i

namespace SchedStep

variable (H : HashFns) (cfg : Config) (arrival : RequestId → ℕ) (t : SchedStep)

/-- The step admits in the order of arrival, and leaves the queue sorted. -/
structure FirstCome : Prop where
  admits : t.before.StepAll H cfg (.firstCome H cfg arrival) t.ord
  inOrder : (t.after H cfg).InOrder arrival

/-- The step with the finished requests taken out. -/
def opened : StepState := StepState.processFinished { sched := t.before } t.ord

/-- The requests whose own allocation fails in the decode loop. -/
def victims : List RequestId := (t.opened.runningLoop cfg t.opened.sched.running).toPreempt

/-- The step is paused, or the requests it preempts arrived after all that wait, and it preempts
them in the order of arrival. -/
def PreemptsLatest : Prop :=
  t.before.paused = false → (t.victims cfg).Pairwise (fun i j => arrival i < arrival j) ∧
    ∀ i ∈ t.opened.sched.waiting.ids, ∀ v ∈ t.victims cfg, arrival i < arrival v

end SchedStep

/-! ## The queue through a step -/

theorem RequestQueue.ids_push_fcfs {q : RequestQueue} {priority : ℤ} {arrivalTime : ℕ}
    (hid : id ∉ q.ids) : (q.push .fcfs id priority arrivalTime).ids = q.ids ++ [id] := by
  refine (RequestQueue.map_fst_insertEntry _ _ _).trans ?_
  exact if_neg hid

theorem Scheduler.InOrder.sublist {s' : Scheduler} (h : s.InOrder arrival)
    (hs : s'.waiting.ids.Sublist s.waiting.ids) : s'.InOrder arrival :=
  List.Pairwise.sublist hs h

theorem StepState.processFinished_waiting (st : StepState) (ord : HashOrder) :
    (st.processFinished ord).sched.waiting.ids.Sublist st.sched.waiting.ids := by
  unfold StepState.processFinished
  refine List.foldlRecOn
    (motive := fun st' : StepState => st'.sched.waiting.ids.Sublist st.sched.waiting.ids)
    _ _ (.refl _) fun st' h id _ => ?_
  rw [StepState.finishOne, Scheduler.finishRequestInternal, RequestQueue.ids_remove]
  exact List.filter_sublist.trans h

theorem StepState.runningIter_waiting (cfg : Config) (st : StepState) (id : RequestId) :
    (st.runningIter cfg id).sched.waiting = st.sched.waiting := by
  unfold StepState.runningIter
  split
  · rfl
  · split
    · exact Scheduler.modifyRequest_waiting
    · dsimp only
      split
      · split
        · rw [StepState.scheduleDecode_sched, Scheduler.modifyRequest_waiting]
          rfl
        · rfl
      · rw [StepState.scheduleDecode_sched, Scheduler.modifyRequest_waiting]

theorem StepState.runningLoop_waiting (cfg : Config) (ids : List RequestId) (st : StepState) :
    (st.runningLoop cfg ids).sched.waiting = st.sched.waiting := by
  induction ids generalizing st with
  | nil => rfl
  | cons id ids ih =>
    unfold StepState.runningLoop
    split
    · rfl
    · exact (ih _).trans (st.runningIter_waiting cfg id)

theorem StepState.preemptAll_waiting (hpol : cfg.scheduler.schedulingPolicy = .fcfs)
    {ids : List RequestId} (hnd : ids.Nodup) (hmem : ∀ id ∈ ids, id ∈ st.sched.running)
    (hp : st.sched.Partition) :
    (ids.foldl (preemptOne cfg) st).sched.waiting.ids = st.sched.waiting.ids ++ ids := by
  induction ids generalizing st with
  | nil => exact (List.append_nil _).symm
  | cons id ids ih =>
    obtain ⟨hid, hnd⟩ := List.nodup_cons.mp hnd
    have hrun := hmem id (by simp)
    obtain ⟨r, hr⟩ := Scheduler.mem_requests_iff.mp
      ((hp.mem_requests id).mpr (Or.inr (Or.inl hrun)))
    have hwait : id ∉ st.sched.waiting.ids := fun h => hp.not_running id h hrun
    have hpush : (st.preemptOne cfg id).sched.waiting.ids = st.sched.waiting.ids ++ [id] := by
      rw [StepState.preemptOne, Scheduler.preemptRequest]
      simp only [hr, hpol]
      exact RequestQueue.ids_push_fcfs hwait
    have hmem' : ∀ i ∈ ids, i ∈ (st.preemptOne cfg id).sched.running := by
      intro i hi
      rw [preemptOne_running, List.mem_filter]
      exact ⟨hmem i (List.mem_cons_of_mem _ hi), by simpa using ne_of_mem_of_not_mem hi hid⟩
    rw [List.foldl_cons, ih hnd hmem' (hp.preemptRequest cfg hrun), hpush, List.append_assoc,
      List.singleton_append]

/-! ## The admission loop without prefix caching -/

theorem StepState.selection_head (hoff : cfg.cache.enablePrefixCaching = false)
    (hpeek : st.sched.waiting.peek = some id) : ∃ numCached sched,
      st.sched.selectWaitingRequest H cfg = (some id, sched) ∧
      StepState.cachedOf H cfg { st with sched } id = (numCached, { st with sched }) ∧
      sched.waiting = st.sched.waiting := by
  refine ⟨((st.sched.requests.lookup id).map (·.numComputedTokens)).getD 0,
    { st.sched with prefixCacheAdmission := ⟨some id, 0⟩ }, ?_, ?_, rfl⟩
  · simp [Scheduler.selectWaitingRequest, hpeek, hoff]
  · simp [StepState.cachedOf, hoff]

theorem RequestQueue.ids_remove_head {q : RequestQueue} {l : List RequestId}
    (h : q.ids = id :: l) : (q.remove id).ids = l := by
  have hid : id ∉ l := (List.nodup_cons.mp (h ▸ q.nodup_ids)).1
  rw [RequestQueue.ids_remove, h, List.filter_cons_of_neg (by simp), List.filter_eq_self]
  intro i hi
  simpa using ne_of_mem_of_not_mem hi hid

theorem StepState.waitingIter_queue (hoff : cfg.cache.enablePrefixCaching = false)
    (hrun : st.sched.running.length < cfg.scheduler.maxNumSeqs) :
    (∃ st', st.waitingIter H cfg = .done st' ∧ st'.sched.waiting = st.sched.waiting ∧
      st.admission H cfg = none) ∨
    ∃ st' a, st.waitingIter H cfg = .yield st' ∧ st.admission H cfg = some a ∧
      st.sched.waiting.ids = a.requestId :: st'.sched.waiting.ids := by
  unfold StepState.waitingIter StepState.admission StepState.selection
  rw [if_neg (not_le.mpr hrun)]
  cases hpeek : st.sched.waiting.peek with
  | none =>
    refine Or.inl ⟨st, ?_, rfl, ?_⟩ <;> simp [Scheduler.selectWaitingRequest, hpeek]
  | some id =>
    obtain ⟨numCached, sched, hsel, hcached, hwait⟩ := StepState.selection_head (H := H) hoff hpeek
    obtain ⟨l, hl⟩ : ∃ l, sched.waiting.ids = id :: l := by
      rw [hwait]
      exact ⟨_, List.eq_cons_of_mem_head? hpeek⟩
    rw [← hwait]
    simp only [hsel, hcached, StepState.admitSelected]
    split
    · refine Or.inr ⟨_, ⟨id, numCached, 0⟩, rfl, rfl, ?_⟩
      rw [StepState.admitCached_waiting, RequestQueue.ids_remove_head hl, hl]
    · split
      · exact Or.inl ⟨_, rfl, rfl, rfl⟩
      · split
        · rename_i bs kv hkv
          refine Or.inr ⟨_, ⟨id, numCached, _⟩, rfl, by rw [hkv]; rfl, ?_⟩
          rw [StepState.admitNew_waiting, StepState.setKV, RequestQueue.ids_remove_head hl, hl]
        · rename_i kv hkv
          exact Or.inl ⟨_, rfl, rfl, by rw [hkv]; rfl⟩

variable (H arrival) in
theorem StepState.waitingLoop_inOrder (hoff : cfg.cache.enablePrefixCaching = false) (n : ℕ)
    (st : StepState) : (st.WaitingAll H cfg (Guards.firstCome H cfg arrival).admits n ∧
      (st.waitingLoop H cfg n).sched.InOrder arrival) ↔ st.sched.InOrder arrival := by
  induction n generalizing st with
  | zero => exact and_iff_right True.intro
  | succ n ih =>
    unfold StepState.WaitingAll StepState.waitingLoop
    by_cases hc : st.canAdmit cfg = true
    · by_cases hrun : st.sched.running.length < cfg.scheduler.maxNumSeqs
      · simp only [hc, hrun, forall_const, if_true]
        rcases StepState.waitingIter_queue (H := H) hoff hrun with
          ⟨st', hiter, hwait, hadm⟩ | ⟨st', a, hiter, hadm, hids⟩
        · rw [hiter, Scheduler.InOrder, Scheduler.InOrder, hwait]
          refine and_iff_right ⟨fun a ha => ?_, True.intro⟩
          rw [hadm] at ha
          cases ha
        · have hnd : (a.requestId :: st'.sched.waiting.ids).Nodup :=
            hids ▸ st.sched.waiting.nodup_ids
          have hhead : (Guards.firstCome H cfg arrival).admits st ↔
              ∀ i ∈ st'.sched.waiting.ids, arrival a.requestId < arrival i := by
            constructor
            · intro h i hi
              refine h a hadm i (hids ▸ List.mem_cons_of_mem _ hi) ?_
              exact ne_of_mem_of_not_mem hi (List.nodup_cons.mp hnd).1
            · intro h b hb i hi hne
              obtain rfl : a = b := Option.some.inj (hadm.symm.trans hb)
              rw [hids] at hi
              exact h i ((List.mem_cons.mp hi).resolve_left hne)
          have hcons : st.sched.InOrder arrival ↔
              (∀ i ∈ st'.sched.waiting.ids, arrival a.requestId < arrival i) ∧
                st'.sched.InOrder arrival := by
            rw [Scheduler.InOrder, hids, List.pairwise_cons]
            exact Iff.rfl
          rw [hcons, hiter, hhead, and_assoc]
          exact and_congr_right fun _ => ih st'
      · have hdone : st.waitingIter H cfg = .done st := by
          rw [StepState.waitingIter, if_pos (not_lt.mp hrun)]
        simp [hrun, hdone]
    · simp [hc]

/-! ## Steps and runs -/

namespace SchedStep

variable {t : SchedStep}

theorem opened_ready (H : HashFns) (cfg : Config) (hp : t.before.Partition) :
    Moves H cfg .any { sched := t.before } t.opened ∧
      t.opened.DecodeReady t.opened.sched.running ∧ t.opened.toPreempt = [] := by
  obtain ⟨hm, hs, hpre, ho, ht⟩ := StepState.processFinished_moves H cfg .any
    { sched := t.before } t.ord rfl rfl ⟨rfl, rfl⟩ rfl fun _ _ _ _ => True.intro
  have hpart : t.opened.sched.Partition := hm.partition hp
  refine ⟨hm, ⟨fun _ h => h, hpart.running_nodup, ?_, hpre, ho, ?_, ?_, ?_⟩, ht⟩ <;>
    simp [SchedStep.opened, hs, ht]

theorem scheduleRunning_queue (H : HashFns) (hpol : cfg.scheduler.schedulingPolicy = .fcfs)
    (hp : t.before.Partition) : (t.opened.scheduleRunning cfg).sched.waiting.ids =
      t.opened.sched.waiting.ids ++ t.victims cfg := by
  obtain ⟨hm, hready, -⟩ := opened_ready H cfg hp
  obtain ⟨hloop, hend⟩ := StepState.runningLoop_moves (H := H) (K := .any) hready
    (StepState.runningAll_of_forall (fun _ _ => True.intro) _ _)
  refine (StepState.preemptAll_waiting hpol hend.preempt_nodup hend.preempt_running
    (hloop.partition (hm.partition hp))).trans ?_
  rw [StepState.runningLoop_waiting]
  rfl

/-- A step that starts with a sorted queue admits in order and leaves the queue sorted if and only
if it preempts the latest requests. -/
theorem firstCome_iff (hpol : cfg.scheduler.schedulingPolicy = .fcfs)
    (hoff : cfg.cache.enablePrefixCaching = false) (hp : t.before.Partition)
    (hs : t.before.InOrder arrival) :
    t.FirstCome H cfg arrival ↔ t.PreemptsLatest cfg arrival := by
  by_cases hpaused : t.before.paused = false
  · have hopened : t.opened.sched.InOrder arrival :=
      hs.sublist (StepState.processFinished_waiting _ t.ord)
    have hloop := StepState.waitingLoop_inOrder H arrival hoff
      ((t.opened.scheduleRunning cfg).sched.waiting.len + 1) (t.opened.scheduleRunning cfg)
    have hqueue : (t.opened.scheduleRunning cfg).sched.InOrder arrival ↔
        t.PreemptsLatest cfg arrival := by
      rw [Scheduler.InOrder, scheduleRunning_queue H hpol hp, List.pairwise_append]
      exact ⟨fun h _ => h.2, fun h => ⟨hopened, h hpaused⟩⟩
    rw [← hqueue, ← hloop]
    constructor
    · intro h
      refine ⟨(h.admits hpaused).2.2, ?_⟩
      have hafter := h.inOrder
      rw [SchedStep.after, Scheduler.step_eq hpaused] at hafter
      exact hafter
    · intro h
      refine ⟨fun _ => ⟨fun _ _ _ _ => True.intro,
        StepState.runningAll_of_forall (fun _ _ => True.intro) _ _, h.1⟩, ?_⟩
      rw [SchedStep.after, Scheduler.step_eq hpaused]
      exact h.2
  · have hafter : t.after H cfg = t.before := by
      simp [SchedStep.after, Scheduler.step, hpaused]
    constructor
    · exact fun _ h => absurd h hpaused
    · intro _
      refine ⟨fun h => absurd h hpaused, ?_⟩
      rwa [hafter]

end SchedStep

theorem find_of_mem (hnd : (added.map (·.requestId)).Nodup) {r : InferenceRequest}
    (hr : r ∈ added) : added.find? (fun q => q.requestId = r.requestId) = some r := by
  cases hfind : added.find? fun q => q.requestId = r.requestId with
  | none =>
    have hnone := List.find?_eq_none.mp hfind r hr
    simp at hnone
  | some q =>
    have hq : q.requestId = r.requestId := by simpa using List.find?_some hfind
    rw [List.inj_on_of_nodup_map hnd (List.mem_of_find?_eq_some hfind) hr hq]

theorem arrivalIn_of_mem (hnd : (added.map (·.requestId)).Nodup) {r : InferenceRequest}
    (hr : r ∈ added) : arrivalIn added r.requestId = r.arrivalTime := by
  rw [arrivalIn, find_of_mem hnd hr]
  rfl

namespace StepsRun

theorem arrival_lt (hrun : StepsRun H cfg added steps s) {r : InferenceRequest}
    (harr : ∀ q ∈ added ++ [r], arrival q.requestId = q.arrivalTime)
    (hlt : (added ++ [r]).Pairwise fun p q => p.arrivalTime < q.arrivalTime)
    (hid : id ∈ s.waiting.ids) : arrival id < arrival r.requestId := by
  obtain ⟨hp, hknown⟩ := hrun.schedRun.partition
  obtain ⟨q, hq⟩ := Scheduler.mem_requests_iff.mp ((hp.mem_requests id).mpr (Or.inl hid))
  obtain ⟨hmem, hqid, -⟩ := hknown id q hq
  rw [← hqid, harr _ (List.mem_append_left _ hmem), harr r (by simp)]
  exact (List.pairwise_append.mp hlt).2.2 _ hmem r (by simp)

/-- The queue stays sorted as long as every step leaves it so. -/
theorem inOrder (hrun : StepsRun H cfg added steps s)
    (hpol : cfg.scheduler.schedulingPolicy = .fcfs)
    (harr : ∀ r ∈ added, arrival r.requestId = r.arrivalTime)
    (hlt : added.Pairwise fun p q => p.arrivalTime < q.arrivalTime)
    (h : ∀ t ∈ steps, t.FirstCome H cfg arrival) : s.InOrder arrival := by
  induction hrun with
  | new => exact List.Pairwise.nil
  | @addRequest added steps s r hrun hfresh ih =>
    have hs := ih (fun q hq => harr q (List.mem_append_left _ hq)) (List.pairwise_append.mp hlt).1 h
    have hid : r.requestId ∉ s.waiting.ids := fun hid =>
      lt_irrefl _ (hrun.arrival_lt harr hlt hid)
    have hpush : (s.addRequest cfg r).waiting.ids = s.waiting.ids ++ [r.requestId] := by
      rw [Scheduler.addRequest, hpol]
      exact RequestQueue.ids_push_fcfs hid
    rw [Scheduler.InOrder, hpush, List.pairwise_append]
    refine ⟨hs, List.pairwise_singleton _ _, fun i hi j hj => ?_⟩
    rw [List.mem_singleton.mp hj]
    exact hrun.arrival_lt harr hlt hi
  | abortRequest id _ ih =>
    refine (ih harr hlt h).sublist ?_
    rw [Scheduler.abortRequest, RequestQueue.ids_remove]
    exact List.filter_sublist
  | control _ hc ih =>
    have hs := ih harr hlt h
    cases hc with
    | pause => exact hs
    | resume => exact hs
    | resetPrefixCache hr =>
      rw [Scheduler.resetPrefixCache_ok hr]
      exact hs
  | @step added steps s ord hrun ih => exact (h ⟨s, ord⟩ (by simp)).inOrder

theorem firstCome_iff (hrun : StepsRun H cfg added steps s)
    (hpol : cfg.scheduler.schedulingPolicy = .fcfs)
    (hoff : cfg.cache.enablePrefixCaching = false)
    (harr : ∀ r ∈ added, arrival r.requestId = r.arrivalTime)
    (hlt : added.Pairwise fun p q => p.arrivalTime < q.arrivalTime) :
    (∀ t ∈ steps, t.FirstCome H cfg arrival) ↔ ∀ t ∈ steps, t.PreemptsLatest cfg arrival := by
  induction hrun with
  | new => exact iff_of_true (by simp) (by simp)
  | addRequest _ _ _ ih =>
    exact ih (fun q hq => harr q (List.mem_append_left _ hq)) (List.pairwise_append.mp hlt).1
  | abortRequest _ _ ih => exact ih harr hlt
  | control _ _ ih => exact ih harr hlt
  | @step added steps s ord hrun ih =>
    rw [List.forall_mem_append, List.forall_mem_append, List.forall_mem_singleton,
      List.forall_mem_singleton, ← ih harr hlt]
    refine and_congr_right fun h => SchedStep.firstCome_iff hpol hoff hrun.schedRun.partition.1 ?_
    exact hrun.inOrder hpol harr hlt h

/-- A run without prefix caching whose requests are added in the order of their arrival keeps its
queue sorted and admits in order, if and only if every step preempts the latest requests. -/
theorem inOrder_iff (H : HashFns) (cfg : Config) (hpol : cfg.scheduler.schedulingPolicy = .fcfs)
    (hoff : cfg.cache.enablePrefixCaching = false) (added : List InferenceRequest)
    (steps : List SchedStep) (s : Scheduler) (hrun : StepsRun H cfg added steps s)
    (hlt : added.Pairwise fun p q => p.arrivalTime < q.arrivalTime) :
    (s.InOrder (arrivalIn added) ∧ ∀ t ∈ steps, t.FirstCome H cfg (arrivalIn added)) ↔
      ∀ t ∈ steps, t.PreemptsLatest cfg (arrivalIn added) := by
  have harr : ∀ r ∈ added, arrivalIn added r.requestId = r.arrivalTime := fun r hr =>
    arrivalIn_of_mem hrun.schedRun.nodup_added hr
  have hiff := hrun.firstCome_iff hpol hoff harr hlt
  rw [← hiff]
  exact ⟨fun h => h.2, fun h => ⟨hrun.inOrder hpol harr hlt h, h⟩⟩

end StepsRun

/-- A request that arrives at the time of its id. -/
def timedRequest (requestId : RequestId) (prompt : List Token) : InferenceRequest :=
  { smallRequest requestId prompt with arrivalTime := requestId }

instance (t : SchedStep) : Decidable (t.PreemptsLatest cfg arrival) :=
  inferInstanceAs (Decidable (_ → _ ∧ _))

/-- The later one of two requests is preempted and admitted again before a third one comes. -/
def relievedTrace : SchedTrace :=
  .ofCalls smallHash (smallConfig 5 false) [.addRequest (timedRequest 1 [5, 6]),
    .addRequest (timedRequest 2 [7]), .step, .step, .abortRequest 1,
    .addRequest (timedRequest 3 [8]), .step, .addRequest (timedRequest 4 [9])]

theorem StepsRun.inOrder_relieved :
    (relievedTrace.sched.InOrder (arrivalIn relievedTrace.added) ∧ ∀ t ∈ relievedTrace.steps,
      t.FirstCome smallHash (smallConfig 5 false) (arrivalIn relievedTrace.added)) ∧
    relievedTrace.steps.map (SchedStep.victims (smallConfig 5 false)) = [[], [2], []] := by
  refine ⟨?_, by decide +kernel⟩
  apply (StepsRun.inOrder_iff smallHash (smallConfig 5 false) rfl rfl relievedTrace.added _ _
    (.ofCalls _ _ _ (by decide)) (by decide)).mpr
  decide +kernel

/-- Two requests have taken all four blocks when a third one joins the queue. -/
def crowded : Scheduler :=
  let cfg := smallConfig 5 false
  let s := ((Scheduler.new cfg).addRequest cfg (timedRequest 1 [5, 6])).addRequest cfg
    (timedRequest 2 [5, 6])
  (s.step smallHash cfg .id).2.addRequest cfg (timedRequest 3 [5, 6, 7])

instance (st : StepState) : Decidable ((Guards.firstCome H cfg arrival).admits st) :=
  @Option.decidableForallMem _ _ (fun _ => List.decidableBAll _ st.sched.waiting.ids) _

/-- Both requests are preempted behind the third one, which is then admitted before them. -/
theorem StepsRun.not_inOrder : ¬ ∀ (H : HashFns) (cfg : Config),
    cfg.scheduler.schedulingPolicy = .fcfs → cfg.cache.enablePrefixCaching = false →
    ∀ (added : List InferenceRequest) (steps : List SchedStep) (s : Scheduler),
    StepsRun H cfg added steps s →
    (added.Pairwise fun p q => p.arrivalTime < q.arrivalTime) →
    s.InOrder (arrivalIn added) ∧ ∀ t ∈ steps, t.FirstCome H cfg (arrivalIn added) := by
  intro h
  have hrun : StepsRun smallHash (smallConfig 5 false) _ _ _ :=
    .step .id (.addRequest (timedRequest 3 [5, 6, 7]) (.step .id (.addRequest
      (timedRequest 2 [5, 6]) (.addRequest (timedRequest 1 [5, 6]) .new (by simp)) (by decide)))
      (by decide))
  have hstep := ((h _ _ rfl rfl _ _ _ hrun (by decide)).2 ⟨crowded, .id⟩ (by simp [crowded])).admits
  have hwait := (hstep rfl).2.2
  revert hwait
  decide +kernel

end Rllm
