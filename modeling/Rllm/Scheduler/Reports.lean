import Rllm.Scheduler.Phases

/-! # Reports of finished requests

A request that is found finished is reported and gives up its blocks, but the
scheduler goes on tracking it: it still counts as active, and the next step
finds it again. The counts are exact as long as no step finds a finished
request.
-/

namespace Rllm

variable {H : HashFns} {cfg : Config} {K : Guards} {s : Scheduler} {st st' : StepState}
  {id : RequestId} {added : List InferenceRequest}

/-! ## Runs with their steps -/

/-- A step from a scheduler. -/
structure SchedStep where
  before : Scheduler
  ord : HashOrder

namespace SchedStep

variable (H : HashFns) (cfg : Config) (t : SchedStep)

def out : SchedulerOutput := (t.before.step H cfg t.ord).1

def after : Scheduler := (t.before.step H cfg t.ord).2

end SchedStep

/-- The runs of a scheduler, with the requests added and the steps so far. No id is used twice. -/
inductive StepsRun (H : HashFns) (cfg : Config) :
    List InferenceRequest → List SchedStep → Scheduler → Prop
  | new : StepsRun H cfg [] [] (.new cfg)
  | addRequest {added : List InferenceRequest} {steps : List SchedStep} {s : Scheduler}
      (r : InferenceRequest) (hrun : StepsRun H cfg added steps s)
      (hfresh : r.requestId ∉ added.map (·.requestId)) :
      StepsRun H cfg (added ++ [r]) steps (s.addRequest cfg r)
  | abortRequest {added : List InferenceRequest} {steps : List SchedStep} {s : Scheduler}
      (id : RequestId) (hrun : StepsRun H cfg added steps s) :
      StepsRun H cfg added steps (s.abortRequest id)
  | control {added : List InferenceRequest} {steps : List SchedStep} {s s' : Scheduler}
      (hrun : StepsRun H cfg added steps s) (hc : s.Control s') : StepsRun H cfg added steps s'
  | step {added : List InferenceRequest} {steps : List SchedStep} {s : Scheduler}
      (ord : HashOrder) (hrun : StepsRun H cfg added steps s) :
      StepsRun H cfg added (steps ++ [⟨s, ord⟩]) (s.step H cfg ord).2

namespace StepsRun

variable {steps : List SchedStep}

theorem schedRun (h : StepsRun H cfg added steps s) : SchedRun H cfg added s := by
  induction h with
  | new => exact .new
  | addRequest r _ hfresh ih => exact .addRequest r ih hfresh
  | abortRequest id _ ih => exact .abortRequest id ih
  | control _ hc ih => exact ih.control hc
  | step ord _ ih => exact .step ord ih

theorem of_mem (h : StepsRun H cfg added steps s) {t : SchedStep} (ht : t ∈ steps) :
    ∃ added₀, SchedRun H cfg added₀ t.before := by
  induction h with
  | new => cases ht
  | addRequest _ _ _ ih => exact ih ht
  | abortRequest _ _ ih => exact ih ht
  | control _ _ ih => exact ih ht
  | step ord hrun ih =>
    rcases List.mem_append.mp ht with ht | ht
    · exact ih ht
    · obtain rfl := List.mem_singleton.mp ht
      exact ⟨_, hrun.schedRun⟩

end StepsRun

/-! ## The count of active requests -/

theorem Scheduler.Partition.numActive_eq (h : s.Partition) :
    s.numActive = s.numWaiting + s.numRunning + s.finished.card := by
  have hnd : (s.waiting.ids ++ s.running ++ s.finished.toList).Nodup := by
    refine List.nodup_append.mpr ⟨List.nodup_append.mpr ⟨s.waiting.nodup_ids, h.running_nodup, ?_⟩,
      s.finished.nodup_toList, ?_⟩
    · rintro a ha b hb rfl
      exact h.not_running a ha hb
    · rintro a ha b hb rfl
      have hn := h.not_finished a (Finset.mem_toList.mp hb)
      exact (List.mem_append.mp ha).elim hn.1 hn.2
  have hperm : s.requests.keys.Perm (s.waiting.ids ++ s.running ++ s.finished.toList) := by
    refine (List.perm_ext_iff_of_nodup s.requests.nodupKeys hnd).mpr fun a => ?_
    rw [← AList.keys, ← AList.mem_keys, h.mem_requests, List.mem_append,
      List.mem_append, Finset.mem_toList, or_assoc]
  have hlen := hperm.length_eq
  rwa [List.length_append, List.length_append, Finset.length_toList, ← RequestQueue.len_eq] at hlen

/-! ## What a step finishes -/

theorem StepState.processFinished_output (ord : HashOrder) (st : StepState) :
    (st.processFinished ord).output.finished = st.output.finished ++
      (ord.iter st.sched.requests.keys).filter fun id =>
        (st.sched.requests.lookup id).any (·.status.isFinished) := by
  unfold StepState.processFinished
  generalize List.filter _ _ = ids
  dsimp only
  induction ids generalizing st with
  | nil => rw [List.foldl_nil, List.append_nil]
  | cons id ids ih =>
    rw [List.foldl_cons, ih, StepState.finishOne, List.append_assoc, List.singleton_append]

theorem Move.finished_mono (hm : Move H cfg K st st') (hid : id ∈ st.output.finished) :
    id ∈ st'.output.finished := by
  cases hm with
  | finish => exact List.mem_append_left _ hid
  | markLength => exact hid
  | decode => rwa [StepState.scheduleDecode_output]
  | decodeGrow => rwa [StepState.scheduleDecode_output]
  | starve => exact hid
  | preempt => exact hid
  | note => exact hid
  | probe => exact hid
  | admitCached => exact hid
  | admitNew => rwa [admitNew_output]
  | admitFail => exact hid

theorem Moves.finished_mono (hm : Moves H cfg K st st') (hid : id ∈ st.output.finished) :
    id ∈ st'.output.finished := by
  induction hm with
  | refl => exact hid
  | tail _ hm ih => exact hm.finished_mono ih

/-- A finished request is reported by every step that runs. -/
theorem Scheduler.step_reports (hp : s.Partition) (hpaused : s.paused = false) {ord : HashOrder}
    {r : SchedulerRequest} (hr : s.requests.lookup id = some r) (hf : r.status.isFinished = true) :
    id ∈ (s.step H cfg ord).1.finished := by
  have hall : s.StepAll H cfg .any ord := Scheduler.stepAll_any ord s
  rw [Scheduler.step_eq hpaused, StepState.finalOutput_finished]
  refine (stepState_moves_split hp hpaused ord hall).2.finished_mono ?_
  rw [StepState.processFinished_output]
  refine List.mem_append_right _ (List.mem_filter.mpr ⟨?_, ?_⟩)
  · exact (ord.perm _).mem_iff.mpr (AList.mem_keys.mp (Scheduler.mem_requests_iff.mpr ⟨r, hr⟩))
  · rw [hr]
    exact hf

theorem Phase.of_finished {p₀ p : Place} {μ : Mention} (h : Phase H cfg K id p₀ p μ)
    (hf : μ.finished = true) : p.finished = true := by
  cases h with
  | finished => rfl
  | same | decoded | queued | admitted => cases hf

theorem Phase.unfinished {p₀ p : Place} {μ : Mention} (h : Phase H cfg K id p₀ p μ)
    (hK : ¬ K.finishes id) : p.finished = p₀.finished ∧ μ.finished = false := by
  cases h with
  | same | decoded | queued | admitted => exact ⟨rfl, rfl⟩
  | finished _ h => exact absurd h hK

namespace SchedStep

variable {t : SchedStep}

/-- The step is paused, or finds no finished request. -/
def NoneDone (t : SchedStep) : Prop :=
  t.before.paused = false → ∀ id r, t.before.requests.lookup id = some r →
    r.status.isFinished = false

theorem finished_of_done (H : HashFns) (cfg : Config) (hp : t.before.Partition)
    (h : ¬ t.NoneDone) : ∃ id, id ∈ (t.after H cfg).finished := by
  unfold NoneDone at h
  push Not at h
  obtain ⟨hpaused, id, r, hr, hf⟩ := h
  have hall : t.before.StepAll H cfg .any t.ord := Scheduler.stepAll_any t.ord t.before
  have hph := Scheduler.step_phase hp hall id
  have hrep : id ∈ (t.before.step H cfg t.ord).1.finished :=
    Scheduler.step_reports hp hpaused hr (by simpa using hf)
  exact ⟨id, of_decide_eq_true (hph.of_finished (by simpa using hrep))⟩

theorem NoneDone.finished (h : t.NoneDone) (hp : t.before.Partition)
    (hnone : t.before.finished = ∅) :
    (t.after H cfg).finished = ∅ ∧ (t.out H cfg).finished = [] := by
  have hall : t.before.StepAll H cfg ⟨fun _ => False, fun _ _ => True, fun _ => True⟩ t.ord := by
    intro hpaused
    refine ⟨fun id r hr hf => ?_, StepState.runningAll_of_forall (fun _ _ => True.intro) _ _,
      StepState.waitingAll_of_forall (fun _ => True.intro) _ _⟩
    rw [h hpaused id r hr] at hf
    cases hf
  have hph := fun id => (Scheduler.step_phase hp hall id).unfinished not_false
  constructor
  · refine Finset.eq_empty_of_forall_notMem fun id hid => ?_
    have hplace := (hph id).1
    simp only [Scheduler.place_finished, hnone, Finset.notMem_empty, decide_false,
      decide_eq_false_iff_not] at hplace
    exact hplace hid
  · refine List.eq_nil_iff_forall_not_mem.mpr fun id hid => ?_
    have hmention := (hph id).2
    simp only [SchedulerOutput.mention_finished, decide_eq_false_iff_not] at hmention
    exact hmention hid

end SchedStep

/-! ## Whole runs -/

/-- Every request is reported as finished at most once, and after every step the active requests are
the waiting and the running ones. -/
structure ReportsOnce (H : HashFns) (cfg : Config) (steps : List SchedStep) : Prop where
  once : ∀ id, (steps.flatMap fun t => (t.out H cfg).finished).count id ≤ 1
  active : ∀ t ∈ steps, (t.after H cfg).numActive =
    (t.after H cfg).numWaiting + (t.after H cfg).numRunning

theorem Scheduler.Control.finished_eq {s s' : Scheduler} (h : s.Control s') :
    s'.finished = s.finished := by
  cases h with
  | pause => rfl
  | resume => rfl
  | resetPrefixCache hr => rw [Scheduler.resetPrefixCache_ok hr]

theorem StepsRun.finished_nil {steps : List SchedStep} (h : StepsRun H cfg added steps s)
    (hnone : ∀ t ∈ steps, t.NoneDone) : s.finished = ∅ ∧
      ∀ t ∈ steps, (t.after H cfg).finished = ∅ ∧ (t.out H cfg).finished = [] := by
  induction h with
  | new => exact ⟨rfl, fun t ht => by cases ht⟩
  | addRequest _ _ _ ih => exact ih hnone
  | abortRequest id _ ih =>
    obtain ⟨hfin, hsteps⟩ := ih hnone
    exact ⟨by simp [Scheduler.abortRequest, hfin], hsteps⟩
  | control _ hc ih =>
    obtain ⟨hfin, hsteps⟩ := ih hnone
    exact ⟨hc.finished_eq.trans hfin, hsteps⟩
  | @step added steps s ord hrun ih =>
    obtain ⟨hfin, hsteps⟩ := ih fun t ht => hnone t (List.mem_append_left _ ht)
    have hlast : (SchedStep.after H cfg ⟨s, ord⟩).finished = ∅ ∧
        (SchedStep.out H cfg ⟨s, ord⟩).finished = [] :=
      (hnone ⟨s, ord⟩ (by simp)).finished hrun.schedRun.partition.1 hfin
    refine ⟨hlast.1, fun t ht => ?_⟩
    rcases List.mem_append.mp ht with ht | ht
    · exact hsteps t ht
    · rw [List.mem_singleton.mp ht]
      exact hlast

/-- A run reports every finish once, and counts its active requests, if and only if no step finds a
finished request. -/
theorem StepsRun.reportsOnce_iff (H : HashFns) (cfg : Config) (added : List InferenceRequest)
    (steps : List SchedStep) (s : Scheduler) (hrun : StepsRun H cfg added steps s) :
    ReportsOnce H cfg steps ↔ ∀ t ∈ steps, t.NoneDone := by
  have hpart : ∀ t ∈ steps, t.before.Partition ∧ (t.after H cfg).Partition := by
    intro t ht
    obtain ⟨added₀, hrun₀⟩ := hrun.of_mem ht
    exact ⟨hrun₀.partition.1, (SchedRun.step t.ord hrun₀).partition.1⟩
  constructor
  · intro h t ht
    by_contra hdone
    obtain ⟨hp, hp'⟩ := hpart t ht
    obtain ⟨id, hid⟩ := SchedStep.finished_of_done H cfg hp hdone
    have hcount := h.active t ht
    rw [hp'.numActive_eq] at hcount
    have hpos := Finset.card_pos.mpr ⟨id, hid⟩
    omega
  · intro hnone
    obtain ⟨-, hsteps⟩ := hrun.finished_nil hnone
    constructor
    · intro id
      have hnil : (steps.flatMap fun t => (t.out H cfg).finished) = [] :=
        List.flatMap_eq_nil_iff.mpr fun t ht => (hsteps t ht).2
      rw [hnil]
      exact Nat.zero_le 1
    · intro t ht
      rw [(hpart t ht).2.numActive_eq, (hsteps t ht).1, Finset.card_empty, Nat.add_zero]

/-! ## Scripts -/

/-- The requests added, the steps and the scheduler of a run. -/
structure SchedTrace where
  added : List InferenceRequest := []
  steps : List SchedStep := []
  sched : Scheduler

/-- The trace after a call. -/
def SchedTrace.call (H : HashFns) (cfg : Config) (t : SchedTrace) : Call → SchedTrace
  | .addRequest r => { t with added := t.added ++ [r], sched := t.sched.addRequest cfg r }
  | .abortRequest id => { t with sched := t.sched.abortRequest id }
  | .step => { t with
      steps := t.steps ++ [⟨t.sched, .id⟩], sched := (t.sched.step H cfg .id).2 }

/-- The trace of a new scheduler after some calls. -/
def SchedTrace.ofCalls (H : HashFns) (cfg : Config) (calls : List Call) : SchedTrace :=
  calls.foldl (call H cfg) { sched := .new cfg }

theorem StepsRun.calls {t : SchedTrace} (h : StepsRun H cfg t.added t.steps t.sched)
    (calls : List Call)
    (hnd : (t.added.map (·.requestId) ++ calls.filterMap Call.addedId).Nodup) :
    StepsRun H cfg (calls.foldl (SchedTrace.call H cfg) t).added
      (calls.foldl (SchedTrace.call H cfg) t).steps
      (calls.foldl (SchedTrace.call H cfg) t).sched := by
  induction calls generalizing t with
  | nil => exact h
  | cons call calls ih =>
    cases call with
    | addRequest r =>
      have hr : r.requestId ∉ t.added.map (·.requestId) := fun hmem =>
        (List.nodup_append.mp hnd).2.2 _ hmem _ List.mem_cons_self rfl
      apply ih (h.addRequest r hr)
      simpa [SchedTrace.call, Call.addedId] using hnd
    | abortRequest id => exact ih (h.abortRequest id) hnd
    | step => exact ih (h.step .id) hnd

/-- Calls that use no id twice make a run. -/
theorem StepsRun.ofCalls (H : HashFns) (cfg : Config) (calls : List Call)
    (hnd : (calls.filterMap Call.addedId).Nodup) :
    StepsRun H cfg (SchedTrace.ofCalls H cfg calls).added (SchedTrace.ofCalls H cfg calls).steps
      (SchedTrace.ofCalls H cfg calls).sched :=
  StepsRun.calls .new calls hnd

instance (t : SchedStep) : Decidable t.NoneDone :=
  inferInstanceAs (Decidable (_ → _))

/-- Three requests, one of which is aborted between the steps. -/
def busyTrace : SchedTrace :=
  .ofCalls smallHash (smallConfig 8 false) [.addRequest (smallRequest 1 [5, 6]),
    .addRequest (smallRequest 2 [7]), .step, .abortRequest 2, .addRequest (smallRequest 3 [8]),
    .step, .step]

theorem StepsRun.reportsOnce_busy :
    ReportsOnce smallHash (smallConfig 8 false) busyTrace.steps := by
  apply (StepsRun.reportsOnce_iff smallHash (smallConfig 8 false) busyTrace.added _ busyTrace.sched
    (.ofCalls _ _ _ (by decide))).mpr
  decide +kernel

/-- The length limit is three tokens. -/
def shortConfig : Config := { smallConfig 8 false with maxModelLen := 3 }

/-- The scheduler after some steps with one request of two tokens. -/
def shortRun : ℕ → Scheduler
  | 0 => oneWaiting shortConfig (.new 8)
  | k + 1 => ((shortRun k).step smallHash shortConfig .id).2

def shortSteps (k : ℕ) : List SchedStep := (List.range k).map fun i => ⟨shortRun i, .id⟩

theorem stepsRun_short (k : ℕ) :
    StepsRun smallHash shortConfig [smallRequest 1 [5, 6]] (shortSteps k) (shortRun k) := by
  induction k with
  | zero => exact .addRequest (smallRequest 1 [5, 6]) .new (by simp)
  | succ k ih =>
    rw [shortSteps, List.range_succ, List.map_append]
    exact .step .id ih

/-- The request is prefilled, decodes one token, is marked, and is then reported twice. -/
theorem StepsRun.not_reportsOnce : ¬ ∀ (H : HashFns) (cfg : Config) (added : List InferenceRequest)
    (steps : List SchedStep) (s : Scheduler), StepsRun H cfg added steps s →
    ReportsOnce H cfg steps := by
  intro h
  have hcount := (h smallHash shortConfig _ _ _ (stepsRun_short 5)).once 1
  revert hcount
  decide +kernel

end Rllm
