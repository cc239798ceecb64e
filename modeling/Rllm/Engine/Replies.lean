import Rllm.Engine.Runs

/-! # What a step says to one request

The outputs of a step that concern one request, together with what the engine
knows of the request before the step, before its clean-up and after it: the
step says nothing, answers with the tokens of the execution, or gives up.
-/

namespace Rllm

variable {H : HashFns} {cfg : Config} {E : Type}

/-- The outputs that concern a request. -/
def outputsFor (id : RequestId) (outputs : List RequestOutput) : List RequestOutput :=
  outputs.filter (·.requestId == id)

@[simp] theorem outputsFor_append (id : RequestId) (os os' : List RequestOutput) :
    outputsFor id (os ++ os') = outputsFor id os ++ outputsFor id os' :=
  List.filter_append ..

@[simp] theorem outputsFor_nil (id : RequestId) : outputsFor id [] = [] := rfl

/-- Nothing follows a final output. -/
def EndsFinal : List RequestOutput → Prop
  | [] => True
  | o :: os => (o.finished = true → os = []) ∧ EndsFinal os

theorem EndsFinal.append {os last : List RequestOutput} (h : ∀ o ∈ os, o.finished = false)
    (hlast : EndsFinal last) : EndsFinal (os ++ last) := by
  induction os with
  | nil => exact hlast
  | cons o' os ih =>
    refine ⟨fun hfin => ?_, ih fun x hx => h x (List.mem_cons_of_mem _ hx)⟩
    rw [h o' List.mem_cons_self] at hfin
    cases hfin

theorem EndsFinal.snoc {os : List RequestOutput} (h : ∀ o ∈ os, o.finished = false)
    (o : RequestOutput) : EndsFinal (os ++ [o]) :=
  .append h ⟨fun _ => rfl, True.intro⟩

theorem EndsFinal.of_append {os rest : List RequestOutput} {o : RequestOutput}
    (h : EndsFinal (os ++ o :: rest)) (hfin : o.finished = true) :
    (∀ o' ∈ os, o'.finished = false) ∧ rest = [] := by
  induction os with
  | nil => exact ⟨fun o' ho' => absurd ho' List.not_mem_nil, h.1 hfin⟩
  | cons o' os ih =>
    obtain ⟨hopen, hrest⟩ := ih h.2
    refine ⟨List.forall_mem_cons.mpr ⟨?_, hopen⟩, hrest⟩
    rw [← Bool.not_eq_true]
    exact fun hf => List.append_ne_nil_of_right_ne_nil os (List.cons_ne_nil o rest) (h.1 hf)

/-- The output for a request that was given tokens. -/
def answer (id : RequestId) (tokens : List Token) (r : EngineRequest × Option FinishReason) :
    RequestOutput where
  requestId := id
  outputs := [{ tokenIds := tokens, finishReason := r.2 }]
  finished := r.2.isSome
  usage := r.1.usage

/-- The output for a request of a failed execution. -/
def failure (id : RequestId) (req : EngineRequest) : RequestOutput where
  requestId := id
  outputs := [{ tokenIds := [], finishReason := some .error }]
  finished := true
  usage := req.usage

namespace EngineStep

variable (H cfg) (t : EngineStep E)

/-- The result of the execution, if there is one. -/
def result : Option ExecutorOutput :=
  let out := (t.core.scheduler.step H cfg t.ord).1
  if out.numScheduled = 0 then none
  else (t.exec.executeModel out t.core.executor).1.toOption

/-- The requests after the tokens are booked and before the clean-up. -/
def booked : AList fun _ : RequestId => EngineRequest :=
  match t.result H cfg with
  | some res => (EngineCore.processOutputs res.perRequestOutputs t.core).2.requests
  | none => t.core.requests

end EngineStep

/-- What a step makes of a request: what it says, and what is known of the request before the
clean-up and after it. -/
inductive Reply (H : HashFns) (cfg : Config) (t : EngineStep E) (id : RequestId) :
    Option EngineRequest → List RequestOutput → Option EngineRequest → Option EngineRequest → Prop
  | silent (r : Option EngineRequest) : Reply H cfg t id r [] r r
  | answered {req : EngineRequest} {res : ExecutorOutput} {o : PerRequestOutput}
      (hres : t.result H cfg = some res) (ho : o ∈ res.perRequestOutputs) (hid : o.requestId = id) :
      Reply H cfg t id (some req)
        [answer id o.tokenIds (req.consume t.core.stopTokenIds o.tokenIds)]
        (some (req.consume t.core.stopTokenIds o.tokenIds).1)
        (if (req.consume t.core.stopTokenIds o.tokenIds).2.isSome then none
          else some (req.consume t.core.stopTokenIds o.tokenIds).1)
  | failed {req : EngineRequest} (hres : t.result H cfg = none) :
      Reply H cfg t id (some req) [failure id req] (some req) none

theorem Reply.of_none {t : EngineStep E} {id : RequestId} {outputs : List RequestOutput}
    {booked after : Option EngineRequest} (h : Reply H cfg t id none outputs booked after) :
    outputs = [] ∧ booked = none ∧ after = none := by
  cases h
  exact ⟨rfl, rfl, rfl⟩

theorem mem_finished_iff {id : RequestId} {outputs os : List RequestOutput}
    (ho : outputsFor id outputs = os) :
    id ∈ (outputs.filter (·.finished)).map (·.requestId) ↔ ∃ o ∈ os, o.finished = true := by
  subst ho
  simp only [outputsFor, List.mem_map, List.mem_filter, beq_iff_eq]
  grind

namespace EngineCore

variable {exec : Executor E} {core : EngineCore E} {id : RequestId}

theorem lookup_abortAll (ids : List RequestId) (core : EngineCore E) (id : RequestId) :
    (ids.foldl (EngineCore.abortRequest exec) core).requests.lookup id =
      if id ∈ ids then none else core.requests.lookup id := by
  induction ids generalizing core with
  | nil => rfl
  | cons i ids ih =>
    rw [List.foldl_cons, ih]
    by_cases hid : id = i
    · subst hid
      simp [EngineCore.abortRequest, AList.lookup_erase]
    · simp [EngineCore.abortRequest, AList.lookup_erase_ne hid, hid]

theorem failAll_says (exec : Executor E) (ids : List RequestId) (core : EngineCore E)
    (id : RequestId) :
    (if id ∈ ids then
        outputsFor id (failAll exec ids core).1 =
          ((core.requests.lookup id).map (failure id)).toList
      else outputsFor id (failAll exec ids core).1 = []) ∧
    (failAll exec ids core).2.requests.lookup id =
      if id ∈ ids then none else core.requests.lookup id := by
  induction ids generalizing core with
  | nil => exact ⟨rfl, rfl⟩
  | cons i ids ih =>
    obtain ⟨hs, hl⟩ := ih (core.abortRequest exec i)
    have hlook : (core.abortRequest exec i).requests.lookup id =
        if id = i then none else core.requests.lookup id := by
      by_cases hid : id = i
      · subst hid
        simp [EngineCore.abortRequest, AList.lookup_erase]
      · simp [EngineCore.abortRequest, AList.lookup_erase_ne hid, hid]
    have hfail : outputsFor id (core.failRequest exec i).1 =
        if id = i then ((core.requests.lookup id).map (failure id)).toList else [] := by
      unfold failRequest outputsFor
      by_cases hid : id = i
      · subst hid
        cases core.requests.lookup id <;> simp [failure]
      · cases core.requests.lookup i <;> simp [hid, Ne.symm hid]
    rw [hlook] at hs hl
    change (if id ∈ i :: ids then outputsFor id ((core.failRequest exec i).1 ++
      (failAll exec ids (core.abortRequest exec i)).1) = _ else outputsFor id (
      (core.failRequest exec i).1 ++ (failAll exec ids (core.abortRequest exec i)).1) = []) ∧
      (failAll exec ids (core.abortRequest exec i)).2.requests.lookup id = _
    rw [outputsFor_append, hfail, hl]
    by_cases hid : id = i
    · subst hid
      by_cases hm : id ∈ ids
      · simp_all
      · simp_all
    · by_cases hm : id ∈ ids
      · simp_all
      · simp_all

theorem processOutput_says (r : PerRequestOutput) (core : EngineCore E) (id : RequestId) :
    outputsFor id (core.processOutput r).1 = (if id = r.requestId then
      ((core.requests.lookup id).map fun req =>
        answer id r.tokenIds (req.consume core.stopTokenIds r.tokenIds)).toList else []) ∧
    (core.processOutput r).2.requests.lookup id = (if id = r.requestId then
      (core.requests.lookup id).map fun req => (req.consume core.stopTokenIds r.tokenIds).1
      else core.requests.lookup id) ∧
    (core.processOutput r).2.stopTokenIds = core.stopTokenIds := by
  unfold processOutput
  by_cases hid : id = r.requestId
  · subst hid
    cases hl : core.requests.lookup r.requestId with
    | none => simp [hl]
    | some req => simp [outputsFor, answer]
  · cases hl : core.requests.lookup r.requestId with
    | none => simp [hid]
    | some req => simp [outputsFor, hid, Ne.symm hid]

theorem processOutputs_says {rs : List PerRequestOutput} (hnd : (rs.map (·.requestId)).Nodup)
    (core : EngineCore E) (id : RequestId) :
    (id ∉ rs.map (·.requestId) ∧ outputsFor id (processOutputs rs core).1 = [] ∧
      (processOutputs rs core).2.requests.lookup id = core.requests.lookup id) ∨
    ∃ o ∈ rs, o.requestId = id ∧
      outputsFor id (processOutputs rs core).1 = ((core.requests.lookup id).map fun req =>
        answer id o.tokenIds (req.consume core.stopTokenIds o.tokenIds)).toList ∧
      (processOutputs rs core).2.requests.lookup id = (core.requests.lookup id).map fun req =>
        (req.consume core.stopTokenIds o.tokenIds).1 := by
  induction rs generalizing core with
  | nil => exact Or.inl ⟨by simp, rfl, rfl⟩
  | cons r rs ih =>
    obtain ⟨hr, hnd⟩ := List.nodup_cons.mp hnd
    obtain ⟨hs, hl, hstop⟩ := processOutput_says r core id
    simp only [processOutputs, outputsFor_append, hs]
    rcases ih hnd (core.processOutput r).2 with ⟨hn, ho, hl'⟩ | ⟨o, hmem, hoid, ho, hl'⟩
    · rw [ho, hl', hl]
      by_cases hid : id = r.requestId
      · exact Or.inr ⟨r, by simp, hid.symm, by simp [hid], by simp [hid]⟩
      · refine Or.inl ⟨by simp [hid, hn], by simp [hid], by simp [hid]⟩
    · have hid : id ≠ r.requestId := by
        rintro rfl
        exact hr (List.mem_map.mpr ⟨o, hmem, hoid⟩)
      rw [hstop, hl, if_neg hid] at ho hl'
      refine Or.inr ⟨o, List.mem_cons_of_mem _ hmem, hoid, ?_, hl'⟩
      rw [ho, if_neg hid, List.nil_append]

theorem processOutputs_congr {core core' : EngineCore E} (hr : core'.requests = core.requests)
    (hs : core'.stopTokenIds = core.stopTokenIds) (rs : List PerRequestOutput) :
    (processOutputs rs core').1 = (processOutputs rs core).1 ∧
      (processOutputs rs core').2.requests = (processOutputs rs core).2.requests := by
  induction rs generalizing core core' with
  | nil => exact ⟨rfl, hr⟩
  | cons r rs ih =>
    have hstep : (core'.processOutput r).1 = (core.processOutput r).1 ∧
        (core'.processOutput r).2.requests = (core.processOutput r).2.requests ∧
        (core'.processOutput r).2.stopTokenIds = (core.processOutput r).2.stopTokenIds := by
      unfold processOutput
      rw [hr, hs]
      split
      · exact ⟨rfl, hr, hs⟩
      · exact ⟨rfl, rfl, rfl⟩
    obtain ⟨ho, hr', hs'⟩ := hstep
    obtain ⟨ho', hr''⟩ := ih hr' hs'
    have hout : ∀ c : EngineCore E, (processOutputs (r :: rs) c).1 =
        (c.processOutput r).1 ++ (processOutputs rs (c.processOutput r).2).1 := fun _ => rfl
    exact ⟨by rw [hout, hout, ho, ho'], hr''⟩

theorem execute_reply {t : EngineStep E} {res : ExecutorOutput} (core : EngineCore E)
    (hr : t.result H cfg = some res) (hnd : (res.perRequestOutputs.map (·.requestId)).Nodup)
    (hrequests : core.requests = t.core.requests)
    (hstop : core.stopTokenIds = t.core.stopTokenIds) (exec : Executor E) (id : RequestId) :
    Reply H cfg t id (t.core.requests.lookup id)
      (outputsFor id (processOutputs res.perRequestOutputs core).1)
      ((processOutputs res.perRequestOutputs core).2.requests.lookup id)
      (((((processOutputs res.perRequestOutputs core).1.filter (·.finished)).map
        (·.requestId)).foldl (abortRequest exec)
        (processOutputs res.perRequestOutputs core).2).requests.lookup id) := by
  rw [lookup_abortAll]
  rcases processOutputs_says hnd core id with ⟨-, ho, hl⟩ | ⟨o, hmem, hoid, ho, hl⟩
  · rw [if_neg (by simp [mem_finished_iff ho]), ho, hl, hrequests]
    exact .silent _
  · rw [hrequests, hstop] at ho hl
    cases hreq : t.core.requests.lookup id with
    | none =>
      rw [hreq] at ho hl
      rw [if_neg (by simp [mem_finished_iff ho]), ho, hl]
      exact .silent _
    | some req =>
      rw [hreq] at ho hl
      have hif : id ∈ ((processOutputs res.perRequestOutputs core).1.filter (·.finished)).map
          (·.requestId) ↔ (req.consume t.core.stopTokenIds o.tokenIds).2.isSome = true := by
        rw [mem_finished_iff ho]
        simp [answer]
      rw [ho, hl]
      simp only [hif]
      exact .answered hr hmem hoid

/-- A step says one of the three things to every request. -/
theorem step_reply {t : EngineStep E}
    (hnd : ∀ res, t.result H cfg = some res → (res.perRequestOutputs.map (·.requestId)).Nodup)
    (id : RequestId) :
    Reply H cfg t id (t.core.requests.lookup id) (outputsFor id (t.outputs H cfg))
      ((t.booked H cfg).lookup id)
      ((t.core.step H cfg t.exec t.ord).2.requests.lookup id) := by
  obtain ⟨core, exec, ord⟩ := t
  have hbooked : ∀ res, EngineStep.result H cfg ⟨core, exec, ord⟩ = some res →
      ∀ core' : EngineCore E, core'.requests = core.requests →
        core'.stopTokenIds = core.stopTokenIds →
      EngineStep.booked H cfg ⟨core, exec, ord⟩ =
        (processOutputs res.perRequestOutputs core').2.requests := by
    rintro res hres core' hr hs
    rw [EngineStep.booked, hres]
    exact (processOutputs_congr hr hs _).2.symm
  have hidle : EngineStep.result H cfg ⟨core, exec, ord⟩ = none →
      EngineStep.booked H cfg ⟨core, exec, ord⟩ = core.requests := by
    intro hres
    rw [EngineStep.booked, hres]
  unfold EngineStep.outputs EngineCore.step
  dsimp only
  split
  · rename_i hz
    have hres : EngineStep.result H cfg ⟨core, exec, ord⟩ = none := if_pos hz
    rw [hidle hres]
    exact .silent _
  · rename_i hz
    have hres : EngineStep.result H cfg ⟨core, exec, ord⟩ =
        (exec.executeModel (core.scheduler.step H cfg ord).1 core.executor).1.toOption := if_neg hz
    unfold execute
    dsimp only
    split
    · rename_i executor he
      rw [he] at hres
      obtain ⟨hs, hl⟩ := failAll_says exec
        (ord.iter (affectedIds (core.scheduler.step H cfg ord).1))
        { core with scheduler := (core.scheduler.step H cfg ord).2, executor } id
      rw [hl, hidle hres]
      split at hs
      · rename_i hm
        rw [hs, if_pos hm]
        dsimp only
        cases core.requests.lookup id with
        | none => exact .silent _
        | some req => exact .failed hres
      · rename_i hm
        rw [hs, if_neg hm]
        exact .silent _
    · rename_i res executor he
      rw [he] at hres
      rw [hbooked res hres { core with scheduler := (core.scheduler.step H cfg ord).2, executor }
        rfl rfl]
      exact execute_reply
        { core with scheduler := (core.scheduler.step H cfg ord).2, executor } hres (hnd res hres)
        rfl rfl exec id

end EngineCore

end Rllm
