import Rllm.Engine.EngineCore
import Rllm.Scheduler.Phases

/-! # Runs of the engine

The engine under any order of additions, aborts and steps, with any executor.
The history notes what was asked of it; the answers are the outputs of its
steps. A request leaves the queues aborted, or with its one final output, as
long as the scheduler never ends a request on its own.
-/

namespace Rllm

/-- One step of a run. -/
structure EngineStep (E : Type) where
  core : EngineCore E
  exec : Executor E
  ord : HashOrder

/-- The requests accepted, the ids aborted by the caller and the steps of a run. -/
structure History (E : Type) where
  added : List InferenceRequest := []
  aborted : List RequestId := []
  steps : List (EngineStep E) := []

variable (H : HashFns) (cfg : Config) {E : Type}

/-- What a step answers. -/
def EngineStep.outputs (t : EngineStep E) : List RequestOutput := (t.core.step H cfg t.exec t.ord).1

namespace History

variable (hist : History E)

def accepted : List RequestId := hist.added.map (·.requestId)

def outputs : List RequestOutput := hist.steps.flatMap (·.outputs H cfg)

/-- Note that the caller gave up an accepted request. -/
def abort (id : RequestId) : History E :=
  if id ∈ hist.accepted then { hist with aborted := hist.aborted ++ [id] } else hist

end History

/-- The runs with executors in `X` whose steps satisfy `P`. Ids are used once. -/
inductive EngineRun (X : Executor E → Prop) (P : EngineStep E → Prop) :
    History E → EngineCore E → Prop
  | new (executor : E) (stopTokenIds : List Token) :
      EngineRun X P {} (.new cfg executor stopTokenIds)
  | addRequest {hist : History E} {core : EngineCore E} {exec : Executor E} (hx : X exec)
      (r : InferenceRequest) (hrun : EngineRun X P hist core) (hfresh : r.requestId ∉ hist.accepted)
      (hok : (core.addRequest cfg exec r).1 = .ok ()) :
      EngineRun X P { hist with added := hist.added ++ [r] } (core.addRequest cfg exec r).2
  | rejectRequest {hist : History E} {core : EngineCore E} {exec : Executor E} (hx : X exec)
      (r : InferenceRequest) (hrun : EngineRun X P hist core) {e : String}
      (herr : (core.addRequest cfg exec r).1 = .error e) :
      EngineRun X P hist (core.addRequest cfg exec r).2
  | abortRequest {hist : History E} {core : EngineCore E} {exec : Executor E} (hx : X exec)
      (id : RequestId) (hrun : EngineRun X P hist core) :
      EngineRun X P (hist.abort id) (core.abortRequest exec id)
  | step {hist : History E} {core : EngineCore E} {exec : Executor E} (hx : X exec)
      (ord : HashOrder) (hrun : EngineRun X P hist core) (hP : P ⟨core, exec, ord⟩) :
      EngineRun X P { hist with steps := hist.steps ++ [⟨core, exec, ord⟩] }
        (core.step H cfg exec ord).2

/-- The final outputs among some outputs of a request. -/
def finals (outputs : List RequestOutput) (id : RequestId) : ℕ :=
  outputs.countP fun o => o.finished && o.requestId == id

/-- The engine knows exactly the queued requests, and every accepted request that has left the
queues was aborted by the caller or got one final output. -/
structure Answered (hist : History E) (core : EngineCore E) : Prop where
  tracked : ∀ id, id ∈ core.requests ↔
    id ∈ core.scheduler.waiting.ids ∨ id ∈ core.scheduler.running
  answered : ∀ id ∈ hist.accepted, id ∉ core.scheduler.waiting.ids → id ∉ core.scheduler.running →
    id ∈ hist.aborted ∨ finals (hist.outputs H cfg) id = 1

variable {H cfg} {exec : Executor E} {core core' core'' : EngineCore E}
  {os os' : List RequestOutput}

/-! ## The requests of the engine -/

/-- The engine knows the queued requests, and none is finished behind its back. -/
structure EngineCore.Synced (core : EngineCore E) : Prop where
  partition : core.scheduler.Partition
  finished : core.scheduler.finished = ∅
  tracked : ∀ id, id ∈ core.requests ↔
    id ∈ core.scheduler.waiting.ids ∨ id ∈ core.scheduler.running

/-- Of the requests that leave the engine each gets one final output, and nobody else does. -/
structure Settles (core : EngineCore E) (os : List RequestOutput) (core' : EngineCore E) :
    Prop where
  stay : ∀ id ∈ core'.requests, id ∈ core.requests ∧ finals os id = 0
  leave : ∀ id ∈ core.requests, id ∉ core'.requests → finals os id = 1
  unknown : ∀ id ∉ core.requests, finals os id = 0

@[simp] theorem finals_nil (id : RequestId) : finals [] id = 0 := rfl

theorem finals_append (os os' : List RequestOutput) (id : RequestId) :
    finals (os ++ os') id = finals os id + finals os' id :=
  List.countP_append

theorem Settles.refl (core : EngineCore E) : Settles core [] core :=
  ⟨fun _ h => ⟨h, rfl⟩, fun _ h hn => absurd h hn, fun _ _ => rfl⟩

theorem Settles.trans (h : Settles core os core') (h' : Settles core' os' core'') :
    Settles core (os ++ os') core'' := by
  refine ⟨fun id hid => ?_, fun id hid hn => ?_, fun id hid => ?_⟩
  · obtain ⟨hid', h₂⟩ := h'.stay id hid
    obtain ⟨hid, h₁⟩ := h.stay id hid'
    rw [finals_append, h₁, h₂]
    exact ⟨hid, rfl⟩
  · rw [finals_append]
    by_cases hid' : id ∈ core'.requests
    · rw [(h.stay id hid').2, h'.leave id hid' hn]
    · rw [h.leave id hid hid', h'.unknown id hid']
  · rw [finals_append, h.unknown id hid, h'.unknown id fun hid' => hid (h.stay id hid').1]

theorem Settles.of_requests (h : Settles core' os core'') (he : core'.requests = core.requests) :
    Settles core os core'' :=
  ⟨he ▸ h.stay, he ▸ h.leave, he ▸ h.unknown⟩

namespace EngineCore

theorem Synced.new (executor : E) (stopTokenIds : List Token) :
    (EngineCore.new cfg executor stopTokenIds).Synced := by
  refine ⟨.new cfg, rfl, fun id => ?_⟩
  simp [EngineCore.new, Scheduler.new]

theorem Synced.abortRequest (h : core.Synced) (id : RequestId) :
    (core.abortRequest exec id).Synced := by
  refine ⟨h.partition.abortRequest id, ?_, fun i => ?_⟩
  · simp [EngineCore.abortRequest, Scheduler.abortRequest, h.finished]
  · simp only [EngineCore.abortRequest, Scheduler.abortRequest, AList.mem_erase, h.tracked,
      RequestQueue.mem_ids_remove, List.mem_filter, decide_eq_true_eq]
    tauto

theorem Synced.abortAll (h : core.Synced) (ids : List RequestId) :
    (ids.foldl (EngineCore.abortRequest exec) core).Synced := by
  induction ids generalizing core with
  | nil => exact h
  | cons id ids ih => exact ih (h.abortRequest id)

theorem mem_abortAll (ids : List RequestId) (id : RequestId) :
    id ∈ (ids.foldl (EngineCore.abortRequest exec) core).requests ↔
      id ∈ core.requests ∧ id ∉ ids := by
  induction ids generalizing core with
  | nil => simp
  | cons i ids ih =>
    rw [List.foldl_cons, ih, List.mem_cons, EngineCore.abortRequest, AList.mem_erase]
    tauto

/-! ## A failed execution -/

theorem failRequest_settles (core : EngineCore E) (id : RequestId) :
    Settles core (core.failRequest exec id).1 (core.failRequest exec id).2 := by
  unfold failRequest
  cases hl : core.requests.lookup id with
  | none =>
    have hn : id ∉ core.requests := AList.lookup_eq_none.mp hl
    refine ⟨fun i hi => ⟨(AList.mem_erase.mp hi).2, rfl⟩, fun i hi hi' => ?_, fun i _ => rfl⟩
    refine absurd (AList.mem_erase.mpr ⟨?_, hi⟩) hi'
    rintro rfl
    exact hn hi
  | some req =>
    have hm : id ∈ core.requests := AList.lookup_isSome.mp (by rw [hl]; rfl)
    refine ⟨fun i hi => ?_, fun i hi hi' => ?_, fun i hi => ?_⟩
    · obtain ⟨hne, hi⟩ := AList.mem_erase.mp hi
      exact ⟨hi, by simp [finals, Ne.symm hne]⟩
    · have hie : i = id := by
        by_contra hne
        exact hi' (AList.mem_erase.mpr ⟨hne, hi⟩)
      simp [finals, hie]
    · have hne : id ≠ i := fun he => hi (he ▸ hm)
      simp [finals, hne]

theorem failAll_settles (exec : Executor E) (ids : List RequestId) (h : core.Synced) :
    Settles core (failAll exec ids core).1 (failAll exec ids core).2 ∧
      (failAll exec ids core).2.Synced := by
  induction ids generalizing core with
  | nil => exact ⟨.refl core, h⟩
  | cons id ids ih =>
    obtain ⟨hs, hsync⟩ := @ih (core.failRequest exec id).2 (h.abortRequest id)
    exact ⟨(failRequest_settles core id).trans hs, hsync⟩

/-! ## A successful execution -/

/-- Booking outputs keeps the scheduler and the known requests, and answers known ones only. -/
structure Booked (core : EngineCore E) (rs : List PerRequestOutput) (os : List RequestOutput)
    (core' : EngineCore E) : Prop where
  scheduler_eq : core'.scheduler = core.scheduler
  mem_requests : ∀ id, id ∈ core'.requests ↔ id ∈ core.requests
  sublist : (os.map (·.requestId)).Sublist (rs.map (·.requestId))
  known : ∀ o ∈ os, o.requestId ∈ core.requests

theorem processOutput_booked (core : EngineCore E) (r : PerRequestOutput) :
    Booked core [r] (core.processOutput r).1 (core.processOutput r).2 := by
  unfold processOutput
  split
  · exact ⟨rfl, fun _ => Iff.rfl, List.nil_sublist _, by simp⟩
  · rename_i req hreq
    have hm : r.requestId ∈ core.requests := AList.lookup_isSome.mp (by rw [hreq]; rfl)
    refine ⟨rfl, fun id => ?_, List.Sublist.refl _, ?_⟩
    · rw [AList.mem_insert, or_iff_right_iff_imp]
      rintro rfl
      exact hm
    · simpa using hm

theorem processOutputs_booked (rs : List PerRequestOutput) (core : EngineCore E) :
    Booked core rs (processOutputs rs core).1 (processOutputs rs core).2 := by
  induction rs generalizing core with
  | nil => exact ⟨rfl, fun _ => Iff.rfl, List.Sublist.refl _, by simp [processOutputs]⟩
  | cons r rs ih =>
    obtain ⟨hs₁, hm₁, hl₁, hk₁⟩ := processOutput_booked core r
    obtain ⟨hs₂, hm₂, hl₂, hk₂⟩ := ih (core.processOutput r).2
    refine ⟨hs₂.trans hs₁, fun id => (hm₂ id).trans (hm₁ id), ?_, fun o ho => ?_⟩
    · rw [processOutputs, List.map_append, ← List.singleton_append, List.map_append]
      exact hl₁.append hl₂
    · rw [processOutputs, List.mem_append] at ho
      exact ho.elim (hk₁ o) fun ho => (hm₁ _).mp (hk₂ o ho)

theorem Booked.settles {rs : List PerRequestOutput} (h : Booked core rs os core')
    (hnd : (rs.map (·.requestId)).Nodup) :
    Settles core os (((os.filter (·.finished)).map (·.requestId)).foldl
      (EngineCore.abortRequest exec) core') := by
  have hnd' := hnd.sublist h.sublist
  have hmem : ∀ id, id ∈ (os.filter (·.finished)).map (·.requestId) ↔ finals os id ≠ 0 := by
    intro id
    rw [finals, ne_eq, List.countP_eq_zero]
    simp [and_assoc]
  refine ⟨fun id hid => ?_, fun id hid hn => ?_, fun id hid => ?_⟩
  · rw [mem_abortAll, hmem, not_not, h.mem_requests] at hid
    exact hid
  · rw [mem_abortAll, hmem, not_not, h.mem_requests, not_and] at hn
    have hle : finals os id ≤ (os.map (·.requestId)).count id := by
      rw [List.count, List.countP_map]
      refine List.countP_mono_left fun o _ ho => ?_
      exact (Bool.and_eq_true _ _).mp ho |>.2
    have := List.nodup_iff_count_le_one.mp hnd' id
    have := hn hid
    omega
  · rw [finals, List.countP_eq_zero]
    intro o ho
    simp only [Bool.and_eq_true, beq_iff_eq, not_and]
    rintro - rfl
    exact hid (h.known o ho)

theorem Booked.synced {rs : List PerRequestOutput} (h : Booked core rs os core')
    (hs : core.Synced) : core'.Synced := by
  refine ⟨h.scheduler_eq ▸ hs.partition, h.scheduler_eq ▸ hs.finished, fun id => ?_⟩
  rw [h.mem_requests, h.scheduler_eq]
  exact hs.tracked id

theorem execute_settles (h : core.Synced) (ord : HashOrder) (out : SchedulerOutput)
    (hnd : ∀ res, (exec.executeModel out core.executor).1 = .ok res →
      (res.perRequestOutputs.map (·.requestId)).Nodup) :
    Settles core (core.execute exec ord out).1 (core.execute exec ord out).2 ∧
      (core.execute exec ord out).2.Synced := by
  have hsync : ∀ executor, ({ core with executor } : EngineCore E).Synced := fun executor =>
    ⟨h.partition, h.finished, h.tracked⟩
  unfold EngineCore.execute
  split
  · rename_i executor he
    obtain ⟨hs, hs'⟩ := failAll_settles exec (ord.iter (affectedIds out))
      (hsync executor)
    exact ⟨hs.of_requests rfl, hs'⟩
  · rename_i result executor he
    have hb := processOutputs_booked result.perRequestOutputs { core with executor }
    exact ⟨(hb.settles (hnd result (by rw [he]))).of_requests rfl,
      (hb.synced (hsync executor)).abortAll _⟩

/-! ## Whole steps -/

/-- No request that the scheduler tracks is marked finished, and the execution answers no request
twice. -/
def Undisturbed (H : HashFns) (cfg : Config) (t : EngineStep E) : Prop :=
  (∀ id r, t.core.scheduler.requests.lookup id = some r → r.status.isFinished = false) ∧
    ∀ res, (t.exec.executeModel (t.core.scheduler.step H cfg t.ord).1 t.core.executor).1 = .ok res →
      (res.perRequestOutputs.map (·.requestId)).Nodup

end EngineCore

/-- Guards that let no request finish. -/
def Guards.noFinish : Guards := ⟨fun _ => False, fun _ _ => True, fun _ => True⟩

theorem Scheduler.step_queued (H : HashFns) (cfg : Config) {s : Scheduler} (hp : s.Partition)
    (ord : HashOrder) (hs : ∀ id r, s.requests.lookup id = some r → r.status.isFinished = false)
    (id : RequestId) :
    (id ∈ (s.step H cfg ord).2.waiting.ids ∨ id ∈ (s.step H cfg ord).2.running ↔
      id ∈ s.waiting.ids ∨ id ∈ s.running) ∧
    (id ∈ (s.step H cfg ord).2.finished ↔ id ∈ s.finished) := by
  have hall : s.StepAll H cfg .noFinish ord := stepAll_of_finishes ord
    (fun i r hr hf => by rw [hs i r hr] at hf; cases hf) (fun _ _ => True.intro) fun _ => True.intro
  simpa using (step_phase hp hall id).queued_iff not_false

theorem EngineCore.step_settles (h : core.Synced) {ord : HashOrder}
    (hu : EngineCore.Undisturbed H cfg ⟨core, exec, ord⟩) :
    Settles core (core.step H cfg exec ord).1 (core.step H cfg exec ord).2 ∧
      (core.step H cfg exec ord).2.Synced := by
  have hsync : ({ core with scheduler := (core.scheduler.step H cfg ord).2 } :
      EngineCore E).Synced := by
    have hq := Scheduler.step_queued H cfg h.partition ord hu.1
    refine ⟨h.partition.step ord, ?_, fun id => (h.tracked id).trans (hq id).1.symm⟩
    refine Finset.eq_empty_of_forall_notMem fun id hid => ?_
    have hid' := (hq id).2.mp hid
    rw [h.finished] at hid'
    cases hid'
  unfold EngineCore.step
  dsimp only
  split
  · exact ⟨(Settles.refl _).of_requests rfl, hsync⟩
  · obtain ⟨hs, hs'⟩ := EngineCore.execute_settles hsync ord _ hu.2
    exact ⟨hs.of_requests rfl, hs'⟩

/-! ## Runs -/

/-- What holds along a run of undisturbed steps. -/
structure EngineInv (H : HashFns) (cfg : Config) (hist : History E) (core : EngineCore E) :
    Prop where
  synced : core.Synced
  known : ∀ id ∈ core.requests, id ∈ hist.accepted
  opened : ∀ id, id ∈ core.requests ∨ id ∉ hist.accepted → finals (hist.outputs H cfg) id = 0
  closed : ∀ id ∈ hist.accepted, id ∉ core.requests →
    id ∈ hist.aborted ∨ finals (hist.outputs H cfg) id = 1

namespace EngineCore

theorem addRequest_ok {r : InferenceRequest} (h : (core.addRequest cfg exec r).1 = .ok ()) :
    ∃ executor, exec.addRequest r.requestId r.promptTokens r.samplingParams core.executor =
      (.ok (), executor) ∧
      (core.addRequest cfg exec r).2 =
        { core with
          executor
          requests := core.requests.insert r.requestId
            { promptTokenIds := r.promptTokens, samplingParams := r.samplingParams,
              maxTokens := r.samplingParams.maxTokens.getD 16 }
          scheduler := core.scheduler.addRequest cfg r } := by
  unfold addRequest at h ⊢
  split at h
  · cases h
  · split at h
    · cases h
    · rename_i executor he
      exact ⟨executor, he, rfl⟩

theorem addRequest_error {r : InferenceRequest} {e : String}
    (h : (core.addRequest cfg exec r).1 = .error e) :
    ∃ executor, (core.addRequest cfg exec r).2 = { core with executor } := by
  unfold addRequest at h ⊢
  split at h
  · exact ⟨core.executor, rfl⟩
  · split at h
    · rename_i executor he
      exact ⟨executor, rfl⟩
    · cases h

end EngineCore

namespace EngineInv

variable {hist : History E}

theorem new (executor : E) (stopTokenIds : List Token) :
    EngineInv H cfg {} (EngineCore.new cfg executor stopTokenIds) :=
  ⟨.new executor stopTokenIds, fun id hid => by simp [EngineCore.new] at hid, fun _ _ => rfl,
    fun id hid => by cases hid⟩

theorem setExecutor (h : EngineInv H cfg hist core) (executor : E) :
    EngineInv H cfg hist { core with executor } :=
  ⟨⟨h.synced.partition, h.synced.finished, h.synced.tracked⟩, h.known, h.opened, h.closed⟩

theorem addRequest (h : EngineInv H cfg hist core) {r : InferenceRequest}
    (hfresh : r.requestId ∉ hist.accepted) (hok : (core.addRequest cfg exec r).1 = .ok ()) :
    EngineInv H cfg { hist with added := hist.added ++ [r] } (core.addRequest cfg exec r).2 := by
  obtain ⟨executor, -, he⟩ := EngineCore.addRequest_ok hok
  rw [he]
  have hacc : ∀ id, id ∈ ({ hist with added := hist.added ++ [r] } : History E).accepted ↔
      id ∈ hist.accepted ∨ id = r.requestId := by
    intro id
    simp [History.accepted]
  have hnr : r.requestId ∉ core.scheduler.requests := by
    intro hm
    have hm' := (h.synced.partition.mem_requests r.requestId).mp hm
    rw [h.synced.finished, ← or_assoc, ← h.synced.tracked] at hm'
    exact hm'.elim (fun hm => hfresh (h.known _ hm)) fun hm => by cases hm
  refine ⟨⟨h.synced.partition.addRequest cfg hnr, h.synced.finished, fun id => ?_⟩,
    fun id hid => ?_, fun id hid => ?_, fun id hid hn => ?_⟩
  · simp only [AList.mem_insert, h.synced.tracked, Scheduler.addRequest,
      RequestQueue.mem_ids_push]
    tauto
  · rw [AList.mem_insert] at hid
    rw [hacc]
    exact hid.symm.imp_left (h.known id)
  · refine h.opened id ?_
    rw [AList.mem_insert, hacc] at hid
    rcases hid with (rfl | hid) | hid
    · exact Or.inr hfresh
    · exact Or.inl hid
    · exact Or.inr fun hc => hid (Or.inl hc)
  · rw [AList.mem_insert, not_or] at hn
    rw [hacc] at hid
    exact h.closed id (hid.resolve_right hn.1) hn.2

theorem abortRequest (h : EngineInv H cfg hist core) (id : RequestId) :
    EngineInv H cfg (hist.abort id) (core.abortRequest exec id) := by
  have hacc : (hist.abort id).accepted = hist.accepted := by
    unfold History.abort
    split <;> rfl
  have hout : (hist.abort id).outputs H cfg = hist.outputs H cfg := by
    unfold History.abort
    split <;> rfl
  have hsub : ∀ i ∈ hist.aborted, i ∈ (hist.abort id).aborted := by
    intro i hi
    unfold History.abort
    split
    · exact List.mem_append_left _ hi
    · exact hi
  refine ⟨h.synced.abortRequest id, fun i hi => ?_, fun i hi => ?_, fun i hi hn => ?_⟩
  · rw [hacc]
    exact h.known i (AList.mem_erase.mp hi).2
  · rw [hout]
    rw [hacc] at hi
    exact h.opened i (hi.imp_left fun hi => (AList.mem_erase.mp hi).2)
  · rw [hacc] at hi
    rw [hout]
    by_cases hk : i ∈ core.requests
    · -- only the aborted request leaves
      have hie : i = id := by
        by_contra hne
        exact hn (AList.mem_erase.mpr ⟨hne, hk⟩)
      subst hie
      left
      rw [History.abort, if_pos hi]
      exact List.mem_append_right _ (List.mem_singleton_self i)
    · exact (h.closed i hi hk).imp_left (hsub i)

theorem step (h : EngineInv H cfg hist core) {ord : HashOrder}
    (hu : EngineCore.Undisturbed H cfg ⟨core, exec, ord⟩) :
    EngineInv H cfg { hist with steps := hist.steps ++ [⟨core, exec, ord⟩] }
      (core.step H cfg exec ord).2 := by
  obtain ⟨hs, hsync⟩ := EngineCore.step_settles h.synced hu
  have hout : ∀ id, finals (({ hist with steps := hist.steps ++ [⟨core, exec, ord⟩] } :
      History E).outputs H cfg) id =
      finals (hist.outputs H cfg) id + finals (core.step H cfg exec ord).1 id := by
    intro id
    rw [← finals_append]
    simp [History.outputs, EngineStep.outputs]
  refine ⟨hsync, fun id hid => h.known id (hs.stay id hid).1, fun id hid => ?_,
    fun id hid hn => ?_⟩
  · rw [hout]
    rcases hid with hid | hid
    · obtain ⟨hid, hz⟩ := hs.stay id hid
      rw [h.opened id (Or.inl hid), hz]
    · rw [h.opened id (Or.inr hid), hs.unknown id fun hm => hid (h.known id hm)]
  · rw [hout]
    by_cases hk : id ∈ core.requests
    · right
      rw [h.opened id (Or.inl hk), hs.leave id hk hn]
    · rw [hs.unknown id hk]
      exact h.closed id hid hk

theorem toAnswered (h : EngineInv H cfg hist core) : Answered H cfg hist core where
  tracked := h.synced.tracked
  answered id hid hw hr := h.closed id hid fun hm =>
    ((h.synced.tracked id).mp hm).elim hw hr

end EngineInv

theorem EngineRun.inv {hist : History E} (hrun : EngineRun H cfg (fun _ => True)
    (EngineCore.Undisturbed H cfg) hist core) : EngineInv H cfg hist core := by
  induction hrun with
  | new executor stopTokenIds => exact .new executor stopTokenIds
  | addRequest _ r _ hfresh hok ih => exact ih.addRequest hfresh hok
  | rejectRequest _ r _ herr ih =>
    obtain ⟨executor, he⟩ := EngineCore.addRequest_error herr
    rw [he]
    exact ih.setExecutor executor
  | abortRequest _ id _ ih => exact ih.abortRequest id
  | step _ ord _ hP ih => exact ih.step hP

/-- In a run whose steps are undisturbed every accepted request is answered. -/
theorem EngineRun.answered (H : HashFns) (cfg : Config) (E : Type) (hist : History E)
    (core : EngineCore E)
    (hrun : EngineRun H cfg (fun _ => True) (EngineCore.Undisturbed H cfg) hist core) :
    Answered H cfg hist core :=
  hrun.inv.toAnswered

/-- An executor without state that samples the same token for every scheduled request. -/
def constExecutor : Executor Unit where
  executeModel out _ :=
    (.ok ⟨(out.scheduledNew ++ out.scheduledRunning).map fun id => ⟨id, [7]⟩⟩, ())
  addRequest _ _ _ _ := (.ok (), ())
  abortRequest _ _ := ()

/-- An engine on a small configuration of the given model length, with one request of one token. -/
def oneRequestCore (maxModelLen : ℕ) : EngineCore Unit :=
  ((EngineCore.new { smallConfig 8 false with maxModelLen } () []).addRequest
    { smallConfig 8 false with maxModelLen } constExecutor (smallRequest 1 [5])).2

/-- That engine after some steps. -/
def oneRequestRun (maxModelLen : ℕ) : ℕ → EngineCore Unit
  | 0 => oneRequestCore maxModelLen
  | n + 1 => ((oneRequestRun maxModelLen n).step smallHash
      { smallConfig 8 false with maxModelLen } constExecutor .id).2

/-- Its history. -/
def oneRequestHistory (maxModelLen n : ℕ) : History Unit where
  added := [smallRequest 1 [5]]
  steps := (List.range n).map fun k => ⟨oneRequestRun maxModelLen k, constExecutor, .id⟩

theorem engineRun_oneRequest {P : EngineStep Unit → Prop} (maxModelLen : ℕ) (n : ℕ)
    (hP : ∀ k < n, P ⟨oneRequestRun maxModelLen k, constExecutor, .id⟩) :
    EngineRun smallHash { smallConfig 8 false with maxModelLen } (fun _ => True) P
      (oneRequestHistory maxModelLen n) (oneRequestRun maxModelLen n) := by
  induction n with
  | zero => exact .addRequest True.intro _ (.new () []) (by simp [History.accepted]) rfl
  | succ n ih =>
    have hstep := EngineRun.step True.intro .id (ih fun k hk => hP k (hk.trans n.lt_succ_self))
      (hP n n.lt_succ_self)
    have hh : oneRequestHistory maxModelLen (n + 1) =
        { oneRequestHistory maxModelLen n with
          steps := (oneRequestHistory maxModelLen n).steps ++
            [⟨oneRequestRun maxModelLen n, constExecutor, .id⟩] } := by
      simp [oneRequestHistory, List.range_succ]
    rw [hh]
    exact hstep

/-! ## Scripts -/

namespace Call

variable (H : HashFns) (cfg : Config) (exec : Executor E) (P : EngineStep E → Prop)

/-- The history and the engine after a call. -/
def run (c : History E × EngineCore E) : Call → History E × EngineCore E
  | addRequest r =>
    ({ c.1 with added := c.1.added ++ [r] }, (c.2.addRequest cfg exec r).2)
  | abortRequest id => (c.1.abort id, c.2.abortRequest exec id)
  | step =>
    ({ c.1 with steps := c.1.steps ++ [⟨c.2, exec, .id⟩] }, (c.2.step H cfg exec .id).2)

/-- The call adds an acceptable request under a fresh id, or makes a step that satisfies `P`. -/
def Allowed (c : History E × EngineCore E) : Call → Prop
  | addRequest r =>
    r.requestId ∉ c.1.accepted ∧ (c.2.addRequest cfg exec r).1 = .ok ()
  | abortRequest _ => True
  | step => P ⟨c.2, exec, .id⟩

def runAll : List Call → History E × EngineCore E → History E × EngineCore E
  | [], c => c
  | call :: calls, c => runAll calls (call.run H cfg exec c)

def AllAllowed : List Call → History E × EngineCore E → Prop
  | [], _ => True
  | call :: calls, c =>
    call.Allowed cfg exec P c ∧ AllAllowed calls (call.run H cfg exec c)

instance [DecidablePred P] (c : History E × EngineCore E) :
    (call : Call) → Decidable (call.Allowed cfg exec P c)
  | addRequest _ => inferInstanceAs (Decidable (_ ∧ _))
  | abortRequest _ => isTrue True.intro
  | step => inferInstanceAs (Decidable (P _))

instance decidableAllAllowed [DecidablePred P] :
    (calls : List Call) → (c : History E × EngineCore E) →
      Decidable (AllAllowed H cfg exec P calls c)
  | [], _ => isTrue True.intro
  | call :: calls, c =>
    have := decidableAllAllowed calls (call.run H cfg exec c)
    inferInstanceAs (Decidable (_ ∧ _))

end Call

section

variable {H : HashFns} {cfg : Config} {exec : Executor E} {X : Executor E → Prop}
  {P : EngineStep E → Prop} {c : History E × EngineCore E}

open Call

theorem EngineRun.call {call : Call} (hx : X exec) (h : EngineRun H cfg X P c.1 c.2)
    (hallowed : call.Allowed cfg exec P c) :
    EngineRun H cfg X P (call.run H cfg exec c).1 (call.run H cfg exec c).2 := by
  cases call with
  | addRequest r => exact .addRequest hx r h hallowed.1 hallowed.2
  | abortRequest id => exact .abortRequest hx id h
  | step => exact .step hx .id h hallowed

/-- Allowed calls continue a run. -/
theorem EngineRun.calls (hx : X exec) (calls : List Call) (h : EngineRun H cfg X P c.1 c.2)
    (hallowed : AllAllowed H cfg exec P calls c) :
    EngineRun H cfg X P (runAll H cfg exec calls c).1 (runAll H cfg exec calls c).2 := by
  induction calls generalizing c with
  | nil => exact h
  | cons call calls ih =>
    obtain ⟨hcall, hcalls⟩ := hallowed
    exact ih (h.call hx hcall) hcalls

end

instance (H : HashFns) (cfg : Config) : DecidablePred (EngineCore.Undisturbed (E := E) H cfg) :=
  fun t =>
    have : Decidable (∀ res, (t.exec.executeModel (t.core.scheduler.step H cfg t.ord).1
        t.core.executor).1 = .ok res → (res.perRequestOutputs.map (·.requestId)).Nodup) :=
      match (t.exec.executeModel (t.core.scheduler.step H cfg t.ord).1 t.core.executor).1 with
      | .error _ => isTrue fun _ h => by cases h
      | .ok res => decidable_of_iff (res.perRequestOutputs.map (·.requestId)).Nodup
          ⟨fun h _ he => Except.ok.inj he ▸ h, fun h => h res rfl⟩
    inferInstanceAs (Decidable (_ ∧ _))

/-- A request of two tokens is served to its end, another one is aborted, a third one goes on. -/
def servedCalls : List Call :=
  [.addRequest { smallRequest 1 [5, 6] with samplingParams := { maxTokens := some 2 } },
    .addRequest (smallRequest 2 [6]), .step, .abortRequest 2, .addRequest (smallRequest 3 [7]),
    .step, .step]

def servedRun : History Unit × EngineCore Unit :=
  Call.runAll smallHash (smallConfig 8 false) constExecutor servedCalls
    ({}, .new (smallConfig 8 false) () [])

theorem EngineRun.answered_served :
    Answered smallHash (smallConfig 8 false) servedRun.1 servedRun.2 ∧
      finals (servedRun.1.outputs smallHash (smallConfig 8 false)) 1 = 1 ∧
      servedRun.1.aborted = [2] ∧ servedRun.2.scheduler.running = [3] := by
  refine ⟨?_, by decide +kernel, by decide +kernel, by decide +kernel⟩
  exact EngineRun.answered smallHash (smallConfig 8 false) Unit _ _
    (.calls True.intro servedCalls (.new () []) (by decide +kernel))

/-- A request of one token on a model of length one: the second step marks it finished, the third
takes it out of the queues, and nobody hears of it. -/
theorem EngineRun.not_answered : ¬ ∀ (H : HashFns) (cfg : Config) (E : Type) (hist : History E)
    (core : EngineCore E), EngineRun H cfg (fun _ => True) (fun _ => True) hist core →
    Answered H cfg hist core := by
  intro h
  have ha := (h smallHash { smallConfig 8 false with maxModelLen := 1 } Unit _ _
    (engineRun_oneRequest 1 3 fun _ _ => True.intro)).answered 1 (by decide +kernel)
    (by decide +kernel) (by decide +kernel)
  revert ha
  decide +kernel

end Rllm
