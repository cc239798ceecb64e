import Rllm.Scheduler.Coverage

/-! # What a step does to one request

A step finishes a request, decodes it, queues it again or admits it, or leaves
it alone. `Phase` lists these transitions, as they show in the scheduler and in
the output; a step takes every request through one of them.
-/

namespace Rllm

/-- How far a request is. -/
structure Progress where
  request : InferenceRequest
  promptTokenIds : List Token
  numComputedTokens : ℕ

def SchedulerRequest.progress (r : SchedulerRequest) : Progress :=
  ⟨r.request, r.promptTokenIds, r.numComputedTokens⟩

/-- Where the scheduler has a request. -/
structure Place where
  waiting : Bool
  running : Bool
  finished : Bool
  progress : Option Progress

def Scheduler.place (s : Scheduler) (id : RequestId) : Place where
  waiting := decide (id ∈ s.waiting.ids)
  running := decide (id ∈ s.running)
  finished := decide (id ∈ s.finished)
  progress := (s.requests.lookup id).map (·.progress)

/-- What the output of a step says about a request. -/
structure Mention where
  new : Bool := false
  cached : Bool := false
  decoded : Bool := false
  preempted : Bool := false
  finished : Bool := false
  tokens : Option ℕ := none

def SchedulerOutput.mention (o : SchedulerOutput) (id : RequestId) : Mention where
  new := decide (id ∈ o.scheduledNew)
  cached := decide (id ∈ o.scheduledCached)
  decoded := decide (id ∈ o.scheduledRunning)
  preempted := decide (id ∈ o.preempted)
  finished := decide (id ∈ o.finished)
  tokens := o.numScheduledTokens.lookup id

section Fields

variable (s : Scheduler) (o : SchedulerOutput) (id : RequestId)

@[simp] theorem Scheduler.place_waiting : (s.place id).waiting = decide (id ∈ s.waiting.ids) := rfl
@[simp] theorem Scheduler.place_running : (s.place id).running = decide (id ∈ s.running) := rfl
@[simp] theorem Scheduler.place_finished : (s.place id).finished = decide (id ∈ s.finished) := rfl
@[simp] theorem Scheduler.place_progress :
    (s.place id).progress = (s.requests.lookup id).map (·.progress) := rfl

@[simp] theorem SchedulerOutput.mention_new :
    (o.mention id).new = decide (id ∈ o.scheduledNew) := rfl
@[simp] theorem SchedulerOutput.mention_cached :
    (o.mention id).cached = decide (id ∈ o.scheduledCached) := rfl
@[simp] theorem SchedulerOutput.mention_decoded :
    (o.mention id).decoded = decide (id ∈ o.scheduledRunning) := rfl
@[simp] theorem SchedulerOutput.mention_preempted :
    (o.mention id).preempted = decide (id ∈ o.preempted) := rfl
@[simp] theorem SchedulerOutput.mention_finished :
    (o.mention id).finished = decide (id ∈ o.finished) := rfl
@[simp] theorem SchedulerOutput.mention_tokens :
    (o.mention id).tokens = o.numScheduledTokens.lookup id := rfl

end Fields

section Phase

variable (H : HashFns) (cfg : Config) (K : Guards) (id : RequestId)

/-- A request in the queue: one that waited before the step, or one preempted by it. Only a
prefix cache gives it computed tokens. -/
structure Queued (p₀ : Place) (r : Progress) (preempted : Bool) : Prop where
  origin : if preempted then p₀.running = true else p₀.waiting = true
  same : ∃ r₀, p₀.progress = some r₀ ∧ r.request = r₀.request ∧
    r.promptTokenIds = r₀.promptTokenIds ∧
    (cfg.cache.enablePrefixCaching = false →
      r.numComputedTokens = if preempted then 0 else r₀.numComputedTokens)

/-- The admission loop made the admission, under the guards, of a request that the step has
preempted before or not. -/
def Granted (a : Admission) (r : Progress) (preempted : Bool) : Prop :=
  ∃ st₀, K.admits st₀ ∧ st₀.admission H cfg = some a ∧
    preempted = decide (a.requestId ∈ st₀.output.preempted) ∧ ∃ r₀,
    st₀.sched.requests.lookup a.requestId = some r₀ ∧ r.request = r₀.request ∧
    r.promptTokenIds = r₀.promptTokenIds

/-- From where a request was before a step to where it is, with what the output says. -/
inductive Phase (p₀ : Place) : Place → Mention → Prop
  | same : Phase p₀ p₀ {}
  | finished (w : Option Progress) (hK : K.finishes id) :
      Phase p₀ ⟨false, false, true, w⟩ { finished := true }
  | decoded {r : Progress} (hrun : p₀.running = true) (hr : p₀.progress = some r) :
      Phase p₀ ⟨false, true, p₀.finished, some { r with
          numComputedTokens := r.numComputedTokens + (1 + r.request.samplingParams.specTokens) }⟩
        { decoded := true, tokens := some (1 + r.request.samplingParams.specTokens) }
  | queued {r : Progress} {preempted : Bool} (hq : Queued cfg p₀ r preempted) :
      Phase p₀ ⟨true, false, p₀.finished, some r⟩ { preempted }
  | admitted {r : Progress} {preempted : Bool} (hq : Queued cfg p₀ r preempted) (numTokens : ℕ)
      (hg : Granted H cfg K ⟨id, r.numComputedTokens, numTokens⟩ r preempted)
      (hlen : if numTokens = 0 then r.promptTokenIds.length ≤ r.numComputedTokens
        else r.numComputedTokens + numTokens ≤ r.promptTokenIds.length) :
      Phase p₀
        ⟨false, true, p₀.finished, some { r with
          numComputedTokens := r.numComputedTokens + numTokens }⟩
        { preempted, new := decide (0 < numTokens), cached := decide (numTokens = 0)
          tokens := if numTokens = 0 then none else some numTokens }

end Phase

variable {H : HashFns} {cfg : Config} {K : Guards} {s : Scheduler} {st st' : StepState}
  {id : RequestId}

/-- The transitions so far in a step from `s`. -/
def StepState.Phased (H : HashFns) (cfg : Config) (K : Guards) (s : Scheduler) (st : StepState) :
    Prop :=
  ∀ id, Phase H cfg K id (s.place id) (st.sched.place id) (st.output.mention id)

theorem StepState.Phased.update (h : st.Phased H cfg K s) (id : RequestId)
    (hp : ∀ i ≠ id, st'.sched.place i = st.sched.place i)
    (hm : ∀ i ≠ id, st'.output.mention i = st.output.mention i)
    (hid : Phase H cfg K id (s.place id) (st'.sched.place id) (st'.output.mention id)) :
    st'.Phased H cfg K s := by
  intro i
  by_cases hi : i = id
  · exact hi ▸ hid
  · rw [hp i hi, hm i hi]
    exact h i

theorem StepState.Phased.congr (h : st.Phased H cfg K s)
    (hp : ∀ i, st'.sched.place i = st.sched.place i)
    (ho : st'.output = st.output) : st'.Phased H cfg K s := by
  intro i
  rw [hp, ho]
  exact h i

section Places

variable {i : RequestId} {f : SchedulerRequest → SchedulerRequest} {tokens total : ℕ}

theorem Scheduler.place_modifyRequest (hf : ∀ r, (f r).progress = r.progress) :
    (s.modifyRequest id f).place i = s.place i := by
  unfold Scheduler.place
  rw [modifyRequest_waiting, modifyRequest_running, modifyRequest_finished, lookup_modifyRequest]
  split
  · rw [Option.map_map]
    congr 2
    exact funext hf
  · rfl

theorem Scheduler.Control.place {s s' : Scheduler} (h : s.Control s') (id : RequestId) :
    s'.place id = s.place id := by
  cases h with
  | pause => rfl
  | resume => rfl
  | resetPrefixCache hr =>
    rw [Scheduler.resetPrefixCache_ok hr]
    rfl

theorem StepState.place_setKV (kv : KVCacheManager) :
    (st.setKV kv).sched.place i = st.sched.place i := rfl

theorem StepState.place_scheduleDecode : (st.scheduleDecode id tokens).sched.place i =
    if i = id then ⟨(st.sched.place i).waiting, (st.sched.place i).running,
      (st.sched.place i).finished, (st.sched.place i).progress.map fun r =>
        { r with numComputedTokens := r.numComputedTokens + tokens }⟩
    else st.sched.place i := by
  rw [StepState.scheduleDecode_sched]
  unfold Scheduler.place
  rw [Scheduler.modifyRequest_waiting, Scheduler.modifyRequest_running,
    Scheduler.modifyRequest_finished, Scheduler.lookup_modifyRequest]
  split
  · simp only [Option.map_map]
    rfl
  · rfl

theorem StepState.mention_scheduleDecode : (st.scheduleDecode id tokens).output.mention i =
    if i = id then { st.output.mention i with decoded := true, tokens := some tokens }
    else st.output.mention i := by
  rw [StepState.scheduleDecode_output]
  unfold SchedulerOutput.mention
  by_cases hi : i = id
  · subst hi
    simp
  · simp [hi, AList.lookup_insert_ne hi]

theorem StepState.place_finishOne : (st.finishOne id).sched.place i =
    if i = id then ⟨false, false, true, (st.sched.place i).progress⟩ else st.sched.place i := by
  unfold Scheduler.place StepState.finishOne Scheduler.finishRequestInternal
  by_cases hi : i = id
  · subst hi
    simp
  · simp [hi]

theorem StepState.mention_finishOne : (st.finishOne id).output.mention i =
    if i = id then { st.output.mention i with finished := true } else st.output.mention i := by
  unfold SchedulerOutput.mention StepState.finishOne
  by_cases hi : i = id
  · simp [hi]
  · simp [hi]

theorem StepState.place_preemptOne {r : SchedulerRequest}
    (hr : st.sched.requests.lookup id = some r) : (st.preemptOne cfg id).sched.place i =
    if i = id then ⟨true, false, (st.sched.place i).finished,
      some { r.progress with numComputedTokens := 0 }⟩
    else st.sched.place i := by
  unfold Scheduler.place StepState.preemptOne Scheduler.preemptRequest
  simp only [hr]
  by_cases hi : i = id
  · subst hi
    simp [SchedulerRequest.progress]
  · simp [hi, AList.lookup_insert_ne hi]

theorem StepState.mention_preemptOne : (st.preemptOne cfg id).output.mention i =
    if i = id then { st.output.mention i with preempted := true } else st.output.mention i := by
  unfold SchedulerOutput.mention StepState.preemptOne
  by_cases hi : i = id
  · simp [hi]
  · simp [hi]

theorem Scheduler.place_probe {prompt : List Token} {skip : Bool} :
    (s.probe H cfg id prompt skip).2.place i =
    if i = id then ⟨(s.place i).waiting, (s.place i).running, (s.place i).finished,
      (s.place i).progress.map fun r => { r with numComputedTokens :=
        (s.kvCacheManager.getComputedBlocks H cfg.cache id prompt skip).1.numComputedTokens }⟩
    else s.place i := by
  unfold Scheduler.place
  rw [probe_waiting, probe_running, probe_finished, lookup_probe]
  split
  · simp only [Option.map_map]
    rfl
  · rfl

theorem StepState.place_admitCached : (st.admitCached id).sched.place i =
    if i = id then ⟨false, true, (st.sched.place i).finished, (st.sched.place i).progress⟩
    else st.sched.place i := by
  unfold Scheduler.place
  rw [admitCached_waiting, admitCached_running, admitCached_lookup]
  by_cases hi : i = id
  · subst hi
    simp [StepState.admitCached, Function.comp_def, SchedulerRequest.progress]
  · simp [StepState.admitCached, hi]

theorem StepState.mention_admitCached : (st.admitCached id).output.mention i =
    if i = id then { st.output.mention i with cached := true } else st.output.mention i := by
  unfold SchedulerOutput.mention StepState.admitCached
  by_cases hi : i = id
  · simp [hi]
  · simp [hi]

theorem StepState.place_admitNew : (st.admitNew cfg id tokens total).sched.place i =
    if i = id then ⟨false, true, (st.sched.place i).finished,
      (st.sched.place i).progress.map fun r => { r with numComputedTokens := total }⟩
    else st.sched.place i := by
  have hf : (st.admitNew cfg id tokens total).sched.finished = st.sched.finished := by
    unfold StepState.admitNew
    dsimp only
    split <;> simp [StepState.setKV]
  unfold Scheduler.place
  rw [admitNew_waiting, admitNew_running, admitNew_lookup, hf]
  by_cases hi : i = id
  · subst hi
    simp [Function.comp_def, SchedulerRequest.progress]
  · simp [hi]

theorem StepState.mention_admitNew : (st.admitNew cfg id tokens total).output.mention i =
    if i = id then { st.output.mention i with new := true, tokens := some tokens }
    else st.output.mention i := by
  rw [admitNew_output]
  unfold SchedulerOutput.mention
  by_cases hi : i = id
  · subst hi
    simp
  · simp [hi, AList.lookup_insert_ne hi]

theorem StepState.prefillTokens_le (cfg : Config) (st : StepState) (promptLen numCached : ℕ) :
    st.prefillTokens cfg promptLen numCached ≤ promptLen - numCached := by
  unfold StepState.prefillTokens
  dsimp only
  split <;> omega

end Places

/-! ## Every move is one of the transitions -/

section Inversion

variable {p₀ p : Place} {μ : Mention}

theorem Phase.of_waiting (h : Phase H cfg K id p₀ p μ) (hw : p.waiting = true) {r : Progress}
    (hr : p.progress = some r) :
    ∃ preempted, Queued cfg p₀ r preempted ∧ μ = { preempted } ∧ p.finished = p₀.finished := by
  cases h with
  | same => exact ⟨false, ⟨hw, r, hr, rfl, rfl, fun _ => rfl⟩, rfl, rfl⟩
  | finished => cases hw
  | decoded => cases hw
  | queued hq =>
    obtain rfl := Option.some.inj hr
    exact ⟨_, hq, rfl, rfl⟩
  | admitted => cases hw

theorem Phase.of_running (h : Phase H cfg K id p₀ p μ) (hrun : p.running = true)
    (hn : μ.new = false) (hc : μ.cached = false) (hd : μ.decoded = false) : p = p₀ ∧ μ = {} := by
  cases h with
  | same => exact ⟨rfl, rfl⟩
  | finished => cases hrun
  | decoded => cases hd
  | queued => cases hrun
  | admitted _ k =>
    rw [decide_eq_false_iff_not] at hn hc
    omega

theorem Phase.of_none (h : Phase H cfg K id p₀ p μ) (hn : μ.new = false) (hc : μ.cached = false)
    (hd : μ.decoded = false) (hp : μ.preempted = false) : μ = { finished := μ.finished } := by
  cases h with
  | same => rfl
  | finished => rfl
  | decoded => cases hd
  | queued =>
    obtain rfl := hp
    rfl
  | admitted _ k =>
    rw [decide_eq_false_iff_not] at hn hc
    omega

theorem Phase.of_decoded (h : Phase H cfg K id p₀ p μ) (hd : μ.decoded = true) :
    p₀.running = true ∧ ∃ r, p₀.progress = some r ∧
      p = ⟨false, true, p₀.finished, some { r with
        numComputedTokens := r.numComputedTokens + (1 + r.request.samplingParams.specTokens) }⟩ ∧
      μ = { decoded := true, tokens := some (1 + r.request.samplingParams.specTokens) } := by
  cases h with
  | same | finished | queued | admitted => cases hd
  | decoded hrun hr => exact ⟨hrun, _, hr, rfl, rfl⟩

theorem Phase.of_new (h : Phase H cfg K id p₀ p μ) (hn : μ.new = true) :
    ∃ r numTokens, 0 < numTokens ∧ Queued cfg p₀ r μ.preempted ∧
      Granted H cfg K ⟨id, r.numComputedTokens, numTokens⟩ r μ.preempted ∧
      r.numComputedTokens + numTokens ≤ r.promptTokenIds.length ∧ μ.tokens = some numTokens ∧
      p = ⟨false, true, p₀.finished, some { r with
        numComputedTokens := r.numComputedTokens + numTokens }⟩ := by
  cases h with
  | same | finished | queued | decoded => cases hn
  | admitted hq k hg hlen =>
    have hk : 0 < k := of_decide_eq_true hn
    rw [if_neg hk.ne'] at hlen
    exact ⟨_, k, hk, hq, hg, hlen, if_neg hk.ne', rfl⟩

theorem Phase.of_cached (h : Phase H cfg K id p₀ p μ) (hc : μ.cached = true) :
    ∃ r, Queued cfg p₀ r μ.preempted ∧
      Granted H cfg K ⟨id, r.numComputedTokens, 0⟩ r μ.preempted ∧
      r.promptTokenIds.length ≤ r.numComputedTokens ∧ μ.tokens = none ∧
      p = ⟨false, true, p₀.finished, some r⟩ := by
  cases h with
  | same | finished | queued | decoded => cases hc
  | admitted hq k hg hlen =>
    obtain rfl : k = 0 := of_decide_eq_true hc
    exact ⟨_, hq, hg, hlen, rfl, rfl⟩

theorem Phase.of_unmentioned (h : Phase H cfg K id p₀ p μ) (hn : μ.new = false)
    (hc : μ.cached = false) (hd : μ.decoded = false) (hp : μ.preempted = false)
    (hf : μ.finished = false) :
    p.waiting = p₀.waiting ∧ ∀ r, p.progress = some r → ∃ r₀, p₀.progress = some r₀ ∧
      r.request = r₀.request ∧ r.promptTokenIds = r₀.promptTokenIds ∧
      (cfg.cache.enablePrefixCaching = false → r.numComputedTokens = r₀.numComputedTokens) := by
  cases h with
  | same => exact ⟨rfl, fun r hr => ⟨r, hr, rfl, rfl, fun _ => rfl⟩⟩
  | finished => cases hf
  | decoded => cases hd
  | queued hq =>
    obtain rfl := hp
    refine ⟨hq.origin.symm, fun r hr => ?_⟩
    obtain rfl := Option.some.inj hr
    exact hq.same
  | admitted _ k =>
    rw [decide_eq_false_iff_not] at hn hc
    omega

/-- The output lists a request once, except that a preempted one may be admitted again. -/
theorem Phase.exclusive (h : Phase H cfg K id p₀ p μ) :
    (μ.new = true → μ.cached = false ∧ μ.decoded = false ∧ μ.finished = false) ∧
    (μ.cached = true → μ.decoded = false ∧ μ.finished = false) ∧
    (μ.decoded = true → μ.preempted = false ∧ μ.finished = false) ∧
    (μ.preempted = true → μ.finished = false) := by
  cases h with
  | same | finished | decoded | queued => simp
  | admitted _ k =>
    refine ⟨fun hn => ?_, fun hc => ?_, fun hd => ?_, fun _ => rfl⟩
    · rw [decide_eq_true_iff] at hn
      exact ⟨decide_eq_false (by omega), rfl, rfl⟩
    · exact ⟨rfl, rfl⟩
    · cases hd

theorem Queued.inQueue {r : Progress} {preempted : Bool} (h : Queued cfg p₀ r preempted) :
    p₀.waiting = true ∨ p₀.running = true := by
  have ho := h.origin
  split at ho
  · exact Or.inr ho
  · exact Or.inl ho

theorem Phase.queued_iff (h : Phase H cfg K id p₀ p μ) (hK : ¬ K.finishes id) :
    ((p.waiting = true ∨ p.running = true) ↔ (p₀.waiting = true ∨ p₀.running = true)) ∧
      p.finished = p₀.finished := by
  cases h with
  | same => exact ⟨Iff.rfl, rfl⟩
  | finished _ hf => exact absurd hf hK
  | decoded hrun => exact ⟨iff_of_true (Or.inr rfl) (Or.inr hrun), rfl⟩
  | queued hq => exact ⟨iff_of_true (Or.inl rfl) hq.inQueue, rfl⟩
  | admitted hq => exact ⟨iff_of_true (Or.inr rfl) hq.inQueue, rfl⟩

theorem Phase.of_queued (h : Phase H cfg K id p₀ p μ) (hq : p.waiting = true ∨ p.running = true) :
    (p₀.waiting = true ∨ p₀.running = true) ∧ μ.finished = false := by
  cases h with
  | same => exact ⟨hq, rfl⟩
  | finished => rcases hq with hq | hq <;> cases hq
  | decoded hrun => exact ⟨Or.inr hrun, rfl⟩
  | queued ho => exact ⟨ho.inQueue, rfl⟩
  | admitted ho => exact ⟨ho.inQueue, rfl⟩

end Inversion

theorem StepState.Phased.scheduleDecode (h : st.Phased H cfg K s) (hp : st.sched.Partition)
    {id : RequestId} {r : SchedulerRequest} (kv : KVCacheManager) (hid : id ∈ st.sched.running)
    (hr : st.sched.requests.lookup id = some r) (hs : id ∉ st.output.scheduledRunning)
    (ho : st.output.NoAdmission) :
    ((st.setKV kv).scheduleDecode id (1 + r.request.samplingParams.specTokens)).Phased
      H cfg K s := by
  refine h.update id (fun i hi => ?_) (fun i hi => ?_) ?_
  · rw [StepState.place_scheduleDecode, if_neg hi, StepState.place_setKV]
  · rw [StepState.mention_scheduleDecode, if_neg hi]
    rfl
  · obtain ⟨hpl, hμ⟩ := (h id).of_running (by simpa using hid)
      (by simp [ho.1]) (by simp [ho.2])
      (by simpa using hs)
    have hw : id ∉ st.sched.waiting.ids := fun hw => hp.not_running id hw hid
    rw [StepState.place_scheduleDecode, if_pos rfl, StepState.mention_scheduleDecode, if_pos rfl,
      StepState.place_setKV, show (st.setKV kv).output = st.output from rfl, hμ]
    have hpr : (s.place id).progress = some r.progress := by
      rw [← hpl]
      simp [Scheduler.place, hr]
    have hdecoded : Phase H cfg K id (s.place id) _ _ :=
      .decoded (by rw [← hpl]; simpa [Scheduler.place] using hid) hpr
    rw [← hpl] at hdecoded ⊢
    simpa [Scheduler.place, hr, hid, hw, SchedulerRequest.progress] using hdecoded

theorem StepState.Phased.finishOne (h : st.Phased H cfg K s) {id : RequestId}
    (hg : K.finishes id) (hs : st.output.scheduledRunning = []) (hp : st.output.preempted = [])
    (ho : st.output.NoAdmission) : (st.finishOne id).Phased H cfg K s := by
  refine h.update id (fun i hi => ?_) (fun i hi => ?_) ?_
  · rw [StepState.place_finishOne, if_neg hi]
  · rw [StepState.mention_finishOne, if_neg hi]
  · have hμ := (h id).of_none (by simp [ho.1]) (by simp [ho.2]) (by simp [hs]) (by simp [hp])
    rw [StepState.place_finishOne, if_pos rfl, StepState.mention_finishOne, if_pos rfl, hμ]
    exact .finished _ hg

theorem StepState.Phased.preemptOne (h : st.Phased H cfg K s) (hp : st.sched.Partition)
    {id : RequestId} (hid : id ∈ st.sched.running) (hs : id ∉ st.output.scheduledRunning)
    (ho : st.output.NoAdmission) : (st.preemptOne cfg id).Phased H cfg K s := by
  obtain ⟨r, hr⟩ := Scheduler.mem_requests_iff.mp ((hp.mem_requests id).mpr (Or.inr (Or.inl hid)))
  refine h.update id (fun i hi => ?_) (fun i hi => ?_) ?_
  · rw [StepState.place_preemptOne hr, if_neg hi]
  · rw [StepState.mention_preemptOne, if_neg hi]
  · obtain ⟨hpl, hμ⟩ := (h id).of_running (by simpa using hid)
      (by simp [ho.1]) (by simp [ho.2]) (by simpa using hs)
    rw [StepState.place_preemptOne hr, if_pos rfl, StepState.mention_preemptOne, if_pos rfl, hμ,
      hpl]
    have hq : Queued cfg (s.place id) { r.progress with numComputedTokens := 0 } true := by
      refine ⟨?_, r.progress, ?_, rfl, rfl, fun _ => rfl⟩
      · rw [← hpl]
        simpa using hid
      · rw [← hpl]
        simp [hr]
    exact .queued hq

theorem StepState.Phased.granted (h : st.Phased H cfg K s) {st₀ : StepState} (hA : K.admits st₀)
    (hpr : Probing st₀ st) {id : RequestId} {r : SchedulerRequest}
    (hid : id ∈ st.sched.waiting.ids) (hr : st.sched.requests.lookup id = some r) {tokens : ℕ}
    (ha : st₀.admission H cfg = some ⟨id, r.numComputedTokens, tokens⟩) :
    ∃ pre, Queued cfg (s.place id) r.progress pre ∧
      Granted H cfg K ⟨id, r.numComputedTokens, tokens⟩ r.progress pre ∧
      st.output.mention id = { preempted := pre } ∧
      (st.sched.place id).finished = (s.place id).finished := by
  obtain ⟨pre, hq, hμ, hfin⟩ :=
    (h id).of_waiting (r := r.progress) (by simpa using hid) (by simp [hr])
  obtain ⟨r₀, hr₀, hreq, hprompt, -⟩ := hpr.origin id r hr
  have hpre : pre = decide (id ∈ st₀.output.preempted) := by
    rw [← hpr.output_eq]
    exact (congrArg Mention.preempted hμ).symm
  exact ⟨pre, hq, ⟨st₀, hA, ha, hpre, r₀, hr₀, hreq, hprompt⟩, hμ, hfin⟩

theorem Move.phased (hm : Move H cfg K st st') (hp : st.sched.Partition)
    (h : st.Phased H cfg K s) : st'.Phased H cfg K s := by
  cases hm with
  | finish hg _ _ hs hpre ho => exact h.finishOne hg hs hpre ho
  | markLength =>
    exact h.congr (fun i => Scheduler.place_modifyRequest fun _ => rfl) rfl
  | decode _ hid hr _ _ _ hs _ _ ho =>
    exact h.scheduleDecode hp st.sched.kvCacheManager hid hr hs ho
  | decodeGrow _ hid hr _ _ _ _ hs _ _ ho => exact h.scheduleDecode hp _ hid hr hs ho
  | starve | note | admitFail => exact h.congr (fun _ => rfl) rfl
  | preempt hid _ hs ho => exact h.preemptOne hp hid hs ho
  | @probe _ id r hA hpr hid hr hc he =>
    refine h.update id (fun i hi => ?_) (fun i hi => rfl) ?_
    · rw [Scheduler.place_probe, if_neg hi]
    · have hw : (st.sched.place id).waiting = true := by simpa using hid
      have hr' : (st.sched.place id).progress = some r.progress := by simp [hr]
      have hrun : (st.sched.place id).running = false := by
        simpa [Scheduler.place] using hp.not_running id hid
      obtain ⟨pre, ⟨horigin, r₀, hr₀, hreq, hprompt, -⟩, hμ, hfin⟩ := (h id).of_waiting hw hr'
      rw [Scheduler.place_probe, if_pos rfl, hr', hμ, hw, hrun, hfin]
      refine .queued ⟨horigin, r₀, hr₀, hreq, hprompt, fun hoff => ?_⟩
      rw [he] at hoff
      cases hoff
  | @admitCached st₀ id r hA hpr hid hr _ _ hrem ha =>
    refine h.update id (fun i hi => ?_) (fun i hi => ?_) ?_
    · rw [StepState.place_admitCached, if_neg hi]
    · rw [StepState.mention_admitCached, if_neg hi]
    · have hr' : (st.sched.place id).progress = some r.progress := by simp [hr]
      obtain ⟨pre, hq, hgranted, hμ, hfin⟩ := h.granted hA hpr hid hr ha
      rw [StepState.place_admitCached, if_pos rfl, StepState.mention_admitCached, if_pos rfl, hμ,
        hr', hfin]
      exact .admitted hq 0 hgranted hrem
  | @admitNew st₀ id r tokens bs kv hA hpr hid hr _ _ hrem ht hpos hkv ha =>
    refine h.update id (fun i hi => ?_) (fun i hi => ?_) ?_
    · rw [StepState.place_admitNew, if_neg hi, StepState.place_setKV]
    · rw [StepState.mention_admitNew, if_neg hi]
      rfl
    · have hr' : (st.sched.place id).progress = some r.progress := by simp [hr]
      obtain ⟨pre, hq, hgranted, hμ, hfin⟩ := h.granted hA hpr hid hr ha
      rw [StepState.place_admitNew, if_pos rfl, StepState.mention_admitNew, if_pos rfl,
        StepState.place_setKV, show (st.setKV kv).output = st.output from rfl, hμ, hr', hfin]
      have hle : r.numComputedTokens + tokens ≤ r.promptTokenIds.length := by
        have := StepState.prefillTokens_le cfg st r.promptTokenIds.length r.numComputedTokens
        omega
      have hadm := Phase.admitted hq tokens hgranted (by rw [if_neg hpos.ne']; exact hle)
      simpa [hpos, hpos.ne', SchedulerRequest.progress] using hadm

/-- No list of the output names a request twice. -/
structure SchedulerOutput.EachOnce (o : SchedulerOutput) : Prop where
  new : o.scheduledNew.Nodup
  cached : o.scheduledCached.Nodup
  decoded : o.scheduledRunning.Nodup
  preempted : o.preempted.Nodup
  finished : o.finished.Nodup

theorem nodup_snoc {ids : List RequestId} (h : ids.Nodup) (hid : id ∉ ids) :
    (ids ++ [id]).Nodup := by
  rw [← List.concat_eq_append]
  exact h.concat hid

theorem Move.eachOnce (hm : Move H cfg K st st') (h : st.Phased H cfg K s)
    (ho : st.output.EachOnce) : st'.output.EachOnce := by
  have hqueued : ∀ (id : RequestId) (r : SchedulerRequest), id ∈ st.sched.waiting.ids →
      st.sched.requests.lookup id = some r →
      id ∉ st.output.scheduledNew ∧ id ∉ st.output.scheduledCached := by
    intro id r hid hr
    obtain ⟨pre, -, hμ, -⟩ := (h id).of_waiting (r := r.progress) (by simpa using hid)
      (by simp [hr])
    exact ⟨by simpa using congrArg Mention.new hμ, by simpa using congrArg Mention.cached hμ⟩
  cases hm with
  | finish _ _ _ _ _ _ hn => exact { ho with finished := nodup_snoc ho.finished hn }
  | markLength | starve | note | admitFail | probe => exact ho
  | decode _ _ _ _ _ _ hs =>
    rw [StepState.scheduleDecode_output]
    exact { ho with decoded := nodup_snoc ho.decoded hs }
  | decodeGrow _ _ _ _ _ _ _ hs =>
    rw [StepState.scheduleDecode_output]
    exact { ho with decoded := nodup_snoc ho.decoded hs }
  | @preempt id hid _ hs hno =>
    obtain ⟨-, hμ⟩ := (h id).of_running (by simpa using hid) (by simp [hno.1]) (by simp [hno.2])
      (by simpa using hs)
    have hp : id ∉ st.output.preempted := by simpa using congrArg Mention.preempted hμ
    exact { ho with preempted := nodup_snoc ho.preempted hp }
  | admitCached _ _ hid hr =>
    exact { ho with cached := nodup_snoc ho.cached (hqueued _ _ hid hr).2 }
  | admitNew _ _ hid hr =>
    rw [admitNew_output]
    exact { ho with new := nodup_snoc ho.new (hqueued _ _ hid hr).1 }

theorem Moves.phased (hm : Moves H cfg K { sched := s } st) (hp : s.Partition) :
    st.Phased H cfg K s ∧ st.output.EachOnce := by
  induction hm with
  | refl =>
    exact ⟨fun id => .same, List.nodup_nil, List.nodup_nil, List.nodup_nil, List.nodup_nil,
      List.nodup_nil⟩
  | tail hms hm ih =>
    exact ⟨hm.phased (Moves.partition hms hp) ih.1, hm.eachOnce ih.1 ih.2⟩

/-! ## Whole steps -/

namespace Scheduler

/-- A step takes every request through one transition. -/
theorem step_phase (hp : s.Partition) {ord : HashOrder} (hall : s.StepAll H cfg K ord)
    (id : RequestId) :
    Phase H cfg K id (s.place id) ((s.step H cfg ord).2.place id)
      ((s.step H cfg ord).1.mention id) := by
  cases hpaused : s.paused with
  | true =>
    rw [Scheduler.step, if_pos hpaused]
    exact .same
  | false =>
    rw [step_eq hpaused]
    exact (stepState_moves hp hpaused ord hall).phased hp |>.1 id

theorem step_eachOnce (hp : s.Partition) (ord : HashOrder) : (s.step H cfg ord).1.EachOnce := by
  cases hpaused : s.paused with
  | true =>
    rw [Scheduler.step, if_pos hpaused]
    exact ⟨List.nodup_nil, List.nodup_nil, List.nodup_nil, List.nodup_nil, List.nodup_nil⟩
  | false =>
    rw [step_eq hpaused]
    obtain ⟨h₁, h₂, h₃, h₄, h₅⟩ :=
      (stepState_moves hp hpaused ord (stepAll_any ord s)).phased hp |>.2
    exact ⟨h₁, h₂, h₃, h₄, h₅⟩

theorem step_affectedOnce (hp : s.Partition) (ord : HashOrder) :
    ((s.step H cfg ord).1.scheduledNew ++ (s.step H cfg ord).1.scheduledCached ++
      (s.step H cfg ord).1.scheduledRunning).Nodup := by
  have ho : (s.step H cfg ord).1.EachOnce := step_eachOnce hp ord
  have hall : s.StepAll H cfg .any ord := stepAll_any ord s
  have hx := fun id => (step_phase hp hall id).exclusive
  have hnew : ∀ id ∈ (s.step H cfg ord).1.scheduledNew,
      id ∉ (s.step H cfg ord).1.scheduledCached ∧ id ∉ (s.step H cfg ord).1.scheduledRunning := by
    intro id hid
    obtain ⟨hc, hd, -⟩ := (hx id).1 (by simpa using hid)
    exact ⟨by simpa using hc, by simpa using hd⟩
  have hcached : ∀ id ∈ (s.step H cfg ord).1.scheduledCached,
      id ∉ (s.step H cfg ord).1.scheduledRunning := by
    intro id hid
    simpa using ((hx id).2.1 (by simpa using hid)).1
  refine List.nodup_append.mpr ⟨List.nodup_append.mpr ⟨ho.new, ho.cached, ?_⟩, ho.decoded, ?_⟩
  · rintro a ha _ hb rfl
    exact (hnew a ha).1 hb
  · rintro a ha _ hb rfl
    rcases List.mem_append.mp ha with ha | ha
    · exact (hnew a ha).2 hb
    · exact hcached a ha hb

theorem step_scheduledOnce (hp : s.Partition) (ord : HashOrder) :
    ((s.step H cfg ord).1.scheduledNew ++ (s.step H cfg ord).1.scheduledRunning).Nodup := by
  have ho : (s.step H cfg ord).1.EachOnce := step_eachOnce hp ord
  refine List.nodup_append.mpr ⟨ho.new, ho.decoded, fun a ha b hb hab => ?_⟩
  have hall : s.StepAll H cfg .any ord := stepAll_any ord s
  have hx := (step_phase hp hall a).exclusive
  simp [ha, hab ▸ hb] at hx

end Scheduler

end Rllm
