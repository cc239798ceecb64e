import Rllm.Engine.Emission

/-! # The two front ends

Blocking generation adds a batch of requests, steps the engine until it has no
work left and returns the final outputs. The loop behind the streams takes the
same steps and hands every output to the sender of its request. Both carry the
whole completion of a request that is completed by one batch of tokens.
-/

namespace Rllm

variable {E : Type}

namespace LLMEngine

variable (H : HashFns) (cfg : Config) (exec : Executor E)

/-- Add the requests in order, up to the first one that is rejected. -/
def addAll : List InferenceRequest → EngineCore E → Except String Unit × EngineCore E
  | [], core => (.ok (), core)
  | r :: rs, core =>
    match core.addRequest cfg exec r with
    | (.error e, core) => (.error e, core)
    | (.ok _, core) => addAll rs core

/-- Step while there is work and keep the final outputs. Every step takes an iteration order, and
the loop is still running when they are used up. -/
def generateLoop : List HashOrder → List RequestOutput → EngineCore E →
    Option (List RequestOutput × EngineCore E)
  | [], allOutputs, core => if core.scheduler.hasWork then none else some (allOutputs, core)
  | ord :: ords, allOutputs, core =>
    if core.scheduler.hasWork then
      let (outputs, core) := core.step H cfg exec ord
      generateLoop ords (allOutputs ++ outputs.filter (·.finished)) core
    else some (allOutputs, core)

def generate (ords : List HashOrder) (requests : List InferenceRequest) (core : EngineCore E) :
    Option (Except String (List RequestOutput) × EngineCore E) :=
  match addAll cfg exec requests core with
  | (.error e, core) => some (.error e, core)
  | (.ok _, core) =>
    (generateLoop H cfg exec ords [] core).map fun (outputs, core) => (.ok outputs, core)

/-- The steps of the loop. -/
def steps : List HashOrder → EngineCore E → List (EngineStep E)
  | [], _ => []
  | ord :: ords, core =>
    if core.scheduler.hasWork then ⟨core, exec, ord⟩ :: steps ords (core.step H cfg exec ord).2
    else []

end LLMEngine

namespace AsyncLLMEngine

/-- What the senders get of the outputs of some steps. A sender is dropped behind the step that
finishes its request. -/
def deliver : List RequestId → List (List RequestOutput) → List RequestOutput
  | _, [] => []
  | senders, outputs :: rest =>
    outputs.filter (fun o => o.requestId ∈ senders) ++
      deliver (senders.filter fun id => ¬ ∃ o ∈ outputs, o.finished = true ∧ o.requestId = id) rest

end AsyncLLMEngine

/-- The outputs that blocking generation returned for a request carry the tokens generated for it
and one of them is final, and the stream of the request carries the same tokens. -/
structure WholeCompletion (returned streamed : List RequestOutput) (generated : List Token) :
    Prop where
  tokens : returned.flatMap (·.tokenIds) = generated
  final : ∃ o, returned.filter (·.finished) = [o] ∧
    o.usage.completionTokens = (returned.flatMap (·.tokenIds)).length
  streamed : streamed.flatMap (·.tokenIds) = returned.flatMap (·.tokenIds)

/-- A batch is empty, or completes the request and does not go on behind the token that ends
it. -/
def EngineRequest.Completes (stopTokenIds : List Token) (req : EngineRequest)
    (tokens : List Token) : Prop :=
  tokens = [] ∨ req.Fits stopTokenIds tokens ∧
    ((∃ token ∈ tokens.getLast?, req.samplingParams.StopsAt stopTokenIds token) ∨
      req.generatedTokenIds.length + tokens.length = req.maxTokens)

instance (req : EngineRequest) (stopTokenIds tokens : List Token) :
    Decidable (req.Completes stopTokenIds tokens) :=
  have : Decidable (∃ token ∈ tokens.getLast?, req.samplingParams.StopsAt stopTokenIds token) :=
    Option.decidableExistsMem _
  inferInstanceAs (Decidable (_ ∨ _ ∧ (_ ∨ _)))

/-- What the execution of a step gives to a request completes it, if it is anything. -/
def EngineStep.Completes (H : HashFns) (cfg : Config) (t : EngineStep E) (id : RequestId) : Prop :=
  ∀ res, t.result H cfg = some res → ∀ o ∈ res.perRequestOutputs, o.requestId = id →
    ∀ req ∈ t.core.requests.lookup id, req.Completes t.core.stopTokenIds o.tokenIds

section

variable {H : HashFns} {cfg : Config} {exec : Executor E} {core core' : EngineCore E}
  {ords : List HashOrder} {id : RequestId}

/-! ## One request along the loop -/

theorem EngineRequest.consume_ends {req : EngineRequest} {stopTokenIds tokens : List Token}
    (hne : tokens ≠ []) (hfits : req.Fits stopTokenIds tokens)
    (hend : (∃ token ∈ tokens.getLast?, req.samplingParams.StopsAt stopTokenIds token) ∨
      req.generatedTokenIds.length + tokens.length = req.maxTokens) :
    (req.consume stopTokenIds tokens).2.isSome = true := by
  induction tokens generalizing req with
  | nil => exact absurd rfl hne
  | cons token tokens ih =>
    rw [consume_cons]
    split
    · rfl
    · rename_i hs
      split
      · rfl
      · rename_i hmax
        rw [List.length_cons] at hend
        cases tokens with
        | nil =>
          rcases hend with ⟨t, ht, hstop⟩ | hend
          · obtain rfl : token = t := by simpa using ht
            exact absurd hstop hs
          · exact absurd (le_of_eq hend.symm) hmax
        | cons t ts =>
          apply ih (List.cons_ne_nil t ts)
          · constructor
            · intro u hu
              exact hfits.1 u (List.mem_cons_of_mem _ hu)
            · have hlen := hfits.2
              simp only [List.length_cons, List.length_append, List.length_nil] at hlen ⊢
              omega
          · rw [List.getLast?_cons_cons] at hend
            simp only [List.length_append, List.length_singleton]
            rcases hend with hend | hend
            · exact Or.inl hend
            · right
              omega

/-- The outputs of a completed request: only the last one is final, and it has all the tokens. -/
def Completion (outputs : List RequestOutput) (generated : List Token) : Prop :=
  ∃ init last, outputs = init ++ [last] ∧
    (∀ o ∈ init, o.tokenIds = [] ∧ o.finished = false) ∧
    last.finished = true ∧ last.tokenIds = generated ∧
    last.usage.completionTokens = generated.length

theorem Completion.append {outputs idle : List RequestOutput} {generated : List Token}
    (h : Completion outputs generated)
    (hidle : ∀ o ∈ idle, o.tokenIds = [] ∧ o.finished = false) :
    Completion (idle ++ outputs) generated := by
  obtain ⟨init, last, rfl, hinit, hlast⟩ := h
  refine ⟨idle ++ init, last, (List.append_assoc ..).symm, fun o ho => ?_, hlast⟩
  exact (List.mem_append.mp ho).elim (hidle o) (hinit o)

/-- What a step says to a request that has no tokens yet: nothing of note, or the whole of it. -/
theorem Reply.completes {t : EngineStep E} {req : EngineRequest} {outputs : List RequestOutput}
    {booked after : Option EngineRequest}
    (hreply : Reply H cfg t id (some req) outputs booked after)
    (hc : EngineStep.Completes H cfg t id) (hreq : t.core.requests.lookup id = some req)
    (hgen : req.generatedTokenIds = []) (hw : req.maxTokens < 2 ^ 32) :
    ((∀ o ∈ outputs, o.tokenIds = [] ∧ o.finished = false) ∧ booked = some req ∧
      after = some req) ∨
    ∃ req', booked = some req' ∧ Completion outputs req'.generatedTokenIds ∧ after = none := by
  cases hreply with
  | silent => exact Or.inl ⟨by simp, rfl, rfl⟩
  | @answered _ res o hres ho hid =>
    rcases hc res hres o ho hid req hreq with hnil | ⟨hfits, hend⟩
    · left
      rw [hnil]
      exact ⟨by simp [answer, EngineRequest.consume, RequestOutput.tokenIds], rfl, rfl⟩
    · by_cases hnil : o.tokenIds = []
      · left
        rw [hnil]
        exact ⟨by simp [answer, EngineRequest.consume, RequestOutput.tokenIds], rfl, rfl⟩
      · right
        have hsome := EngineRequest.consume_ends hnil hfits hend
        have hlen := hfits.2
        rw [hgen, List.length_nil, Nat.zero_add] at hlen
        refine ⟨_, rfl, ⟨[], _, rfl, by simp, hsome, ?_, ?_⟩, if_pos hsome⟩
        · rw [answer_tokenIds, hfits.consume.1, hgen]
          rfl
        · simp only [answer, EngineRequest.usage, hfits.consume.1, hgen, List.nil_append]
          exact saturateU32_of_le hlen hw
  | failed hres =>
    right
    refine ⟨req, rfl, ⟨[], _, rfl, by simp, rfl, ?_, ?_⟩, rfl⟩
    · rw [hgen]
      rfl
    · simp only [failure, EngineRequest.usage, hgen]
      rfl

theorem step_completes {ord : HashOrder} {req : EngineRequest}
    (hnd : ∀ res, EngineStep.result H cfg ⟨core, exec, ord⟩ = some res →
      (res.perRequestOutputs.map (·.requestId)).Nodup)
    (hc : EngineStep.Completes H cfg ⟨core, exec, ord⟩ id)
    (hreq : core.requests.lookup id = some req) (hgen : req.generatedTokenIds = [])
    (hw : req.maxTokens < 2 ^ 32) :
    ((∀ o ∈ outputsFor id (EngineStep.outputs H cfg ⟨core, exec, ord⟩),
        o.tokenIds = [] ∧ o.finished = false) ∧
      (EngineStep.booked H cfg ⟨core, exec, ord⟩).lookup id = some req ∧
      (core.step H cfg exec ord).2.requests.lookup id = some req) ∨
    ∃ req', (EngineStep.booked H cfg ⟨core, exec, ord⟩).lookup id = some req' ∧
      Completion (outputsFor id (EngineStep.outputs H cfg ⟨core, exec, ord⟩))
        req'.generatedTokenIds ∧
      (core.step H cfg exec ord).2.requests.lookup id = none := by
  have hreply := EngineCore.step_reply (t := ⟨core, exec, ord⟩) hnd id
  dsimp only at hreply
  rw [hreq] at hreply
  exact hreply.completes hc hreq hgen hw

theorem step_unknown {ord : HashOrder}
    (hnd : ∀ res, EngineStep.result H cfg ⟨core, exec, ord⟩ = some res →
      (res.perRequestOutputs.map (·.requestId)).Nodup)
    (hreq : core.requests.lookup id = none) :
    outputsFor id (EngineStep.outputs H cfg ⟨core, exec, ord⟩) = [] ∧
      (EngineStep.booked H cfg ⟨core, exec, ord⟩).lookup id = none ∧
      (core.step H cfg exec ord).2.requests.lookup id = none := by
  have hreply := EngineCore.step_reply (t := ⟨core, exec, ord⟩) hnd id
  dsimp only at hreply
  rw [hreq] at hreply
  exact hreply.of_none

theorem EngineCore.Undisturbed.nodup {t : EngineStep E} (h : EngineCore.Undisturbed H cfg t) :
    ∀ res, t.result H cfg = some res → (res.perRequestOutputs.map (·.requestId)).Nodup := by
  intro res hres
  apply h.2 res
  unfold EngineStep.result at hres
  dsimp only at hres
  split at hres
  · cases hres
  · generalize (t.exec.executeModel _ t.core.executor).1 = x at hres
    cases x with
    | error e => cases hres
    | ok res' =>
      obtain rfl := Option.some.inj hres
      rfl

namespace LLMEngine

theorem steps_unknown (hu : ∀ t ∈ steps H cfg exec ords core, EngineCore.Undisturbed H cfg t)
    (hreq : core.requests.lookup id = none) :
    outputsFor id ((steps H cfg exec ords core).flatMap (·.outputs H cfg)) = [] ∧
      ∀ generated, (steps H cfg exec ords core).foldl (EngineStep.generated H cfg id) generated =
        generated := by
  induction ords generalizing core with
  | nil => exact ⟨rfl, fun _ => rfl⟩
  | cons ord ords ih =>
    rw [steps] at hu ⊢
    split at hu
    · rename_i hwork
      rw [if_pos hwork]
      obtain ⟨ho, hb, ha⟩ := step_unknown (hu _ List.mem_cons_self).nodup hreq
      obtain ⟨hos, hg⟩ := ih (fun t ht => hu t (List.mem_cons_of_mem _ ht)) ha
      constructor
      · rw [List.flatMap_cons, outputsFor_append, ho, hos]
        rfl
      · intro generated
        rw [List.foldl_cons, hg, EngineStep.generated, hb]
        rfl
    · rename_i hwork
      rw [if_neg hwork]
      exact ⟨rfl, fun _ => rfl⟩

theorem not_hasWork {req : EngineRequest} (hs : core.Synced)
    (hreq : core.requests.lookup id = some req) : core.scheduler.hasWork = true := by
  have hm : id ∈ core.requests := AList.lookup_isSome.mp (by rw [hreq]; rfl)
  have hq := (hs.tracked id).mp hm
  unfold Scheduler.hasWork
  rw [Bool.or_eq_true, Bool.not_eq_true', Bool.not_eq_true', Bool.eq_false_iff, ne_eq,
    RequestQueue.isEmpty_iff, List.isEmpty_eq_false_iff]
  rcases hq with hq | hq
  · exact Or.inl (List.ne_nil_of_mem hq)
  · exact Or.inr (List.ne_nil_of_mem hq)

/-- A loop that returns completes the requests without tokens. The induction is on the orders, that
is on the steps; a request is followed until it is completed, and nothing is said to it behind
that. -/
theorem loop_completion {allOutputs outputs : List RequestOutput} {req : EngineRequest}
    (hloop : generateLoop H cfg exec ords allOutputs core = some (outputs, core'))
    (hs : core.Synced) (hreq : core.requests.lookup id = some req)
    (hgen : req.generatedTokenIds = []) (hw : req.maxTokens < 2 ^ 32)
    (hu : ∀ t ∈ steps H cfg exec ords core, EngineCore.Undisturbed H cfg t)
    (hc : ∀ t ∈ steps H cfg exec ords core, t.Completes H cfg id) (generated : List Token) :
    Completion (outputsFor id ((steps H cfg exec ords core).flatMap (·.outputs H cfg)))
      ((steps H cfg exec ords core).foldl (EngineStep.generated H cfg id) generated) := by
  have hwork := not_hasWork hs hreq
  induction ords generalizing core allOutputs generated with
  | nil =>
    rw [generateLoop, if_pos hwork] at hloop
    cases hloop
  | cons ord ords ih =>
    rw [generateLoop, if_pos hwork] at hloop
    rw [steps, if_pos hwork] at hu hc ⊢
    have hstep := EngineCore.step_settles hs (hu _ List.mem_cons_self)
    have hu' := fun t ht => hu t (List.mem_cons_of_mem _ ht)
    have hc' := fun t ht => hc t (List.mem_cons_of_mem _ ht)
    rw [List.flatMap_cons, outputsFor_append, List.foldl_cons]
    rcases step_completes (hu _ List.mem_cons_self).nodup (hc _ List.mem_cons_self) hreq hgen hw
      with
      ⟨hidle, -, ha⟩ | ⟨req', hb, hdone, ha⟩
    · have hrest := ih hloop hstep.2 ha hu' hc'
        (EngineStep.generated H cfg id generated ⟨core, exec, ord⟩) (not_hasWork hstep.2 ha)
      exact hrest.append hidle
    · obtain ⟨hos, hg⟩ := steps_unknown hu' ha
      rw [hos, hg, List.append_nil, EngineStep.generated, hb]
      exact hdone

theorem loop_outputs {allOutputs outputs : List RequestOutput}
    (hloop : generateLoop H cfg exec ords allOutputs core = some (outputs, core')) :
    outputs = allOutputs ++
      ((steps H cfg exec ords core).flatMap (·.outputs H cfg)).filter (·.finished) := by
  induction ords generalizing core allOutputs with
  | nil =>
    rw [generateLoop] at hloop
    split at hloop
    · cases hloop
    · obtain ⟨rfl, -⟩ := Prod.mk.inj (Option.some.inj hloop)
      simp [steps]
  | cons ord ords ih =>
    rw [generateLoop] at hloop
    rw [steps]
    split at hloop
    · rename_i hwork
      have hrest : generateLoop H cfg exec ords
          (allOutputs ++ (core.step H cfg exec ord).1.filter (·.finished))
          (core.step H cfg exec ord).2 = some (outputs, core') := hloop
      rw [ih hrest, if_pos hwork]
      simp [EngineStep.outputs]
    · rename_i hwork
      obtain ⟨rfl, -⟩ := Prod.mk.inj (Option.some.inj hloop)
      simp [hwork]

end LLMEngine

/-! ## The stream of a request -/

namespace AsyncLLMEngine

theorem outputsFor_deliver_of_notMem {senders : List RequestId} (hid : id ∉ senders)
    (batches : List (List RequestOutput)) : outputsFor id (deliver senders batches) = [] := by
  induction batches generalizing senders with
  | nil => rfl
  | cons outputs rest ih =>
    rw [deliver, outputsFor_append, ih fun hm => hid (List.mem_filter.mp hm).1, List.append_nil,
      outputsFor, List.filter_filter, List.filter_eq_nil_iff]
    intro o _
    simp only [Bool.and_eq_true, beq_iff_eq, decide_eq_true_eq, not_and]
    rintro rfl
    exact hid

theorem outputsFor_deliver {senders : List RequestId} {batches : List (List RequestOutput)}
    (hid : id ∈ senders)
    (hlast : ∀ o ∈ (outputsFor id batches.flatten).dropLast, o.finished = false) :
    outputsFor id (deliver senders batches) = outputsFor id batches.flatten := by
  induction batches generalizing senders with
  | nil => rfl
  | cons outputs rest ih =>
    rw [List.flatten_cons, outputsFor_append] at hlast ⊢
    have hnow : outputsFor id (outputs.filter fun o => o.requestId ∈ senders) =
        outputsFor id outputs := by
      rw [outputsFor, outputsFor, List.filter_filter]
      apply List.filter_congr
      intro o _
      rw [Bool.and_eq_left_iff_imp, beq_iff_eq, decide_eq_true_eq]
      rintro rfl
      exact hid
    rw [deliver, outputsFor_append, hnow]
    by_cases hnil : outputsFor id rest.flatten = []
    · -- nothing follows, whether or not the sender is kept
      rw [hnil]
      congr 1
      by_cases hm : id ∈ senders.filter fun id =>
          ¬ ∃ o ∈ outputs, o.finished = true ∧ o.requestId = id
      · rw [ih hm (by simp [hnil]), hnil]
      · exact outputsFor_deliver_of_notMem hm rest
    · rw [List.dropLast_append_of_ne_nil hnil] at hlast
      rw [ih ?_ fun o ho => hlast o (List.mem_append_right _ ho)]
      simp only [List.mem_filter, decide_eq_true_eq]
      refine ⟨hid, ?_⟩
      rintro ⟨o, ho, hf, hoid⟩
      have hmem : o ∈ outputsFor id outputs := List.mem_filter.mpr ⟨ho, by simp [hoid]⟩
      rw [hlast o (List.mem_append_left _ hmem)] at hf
      cases hf

end AsyncLLMEngine

/-! ## Blocking generation -/

theorem Completion.whole {outputs streamed : List RequestOutput} {generated : List Token}
    (h : Completion outputs generated) (hs : streamed = outputs) :
    WholeCompletion (outputs.filter (·.finished)) streamed generated := by
  obtain ⟨init, last, rfl, hinit, hf, ht, hn⟩ := h
  have hfilter : (init ++ [last]).filter (·.finished) = [last] := by
    rw [List.filter_append, List.filter_eq_nil_iff.mpr fun o ho => by simp [(hinit o ho).2]]
    simp [hf]
  have htokens : init.flatMap (·.tokenIds) = [] :=
    List.flatMap_eq_nil_iff.mpr fun o ho => (hinit o ho).1
  rw [hfilter, hs]
  constructor
  · simpa using ht
  · exact ⟨last, by simp [hf], by simpa [ht] using hn⟩
  · simp [htokens]

theorem Completion.unfinished {outputs : List RequestOutput} {generated : List Token}
    (h : Completion outputs generated) : ∀ o ∈ outputs.dropLast, o.finished = false := by
  obtain ⟨init, last, rfl, hinit, -⟩ := h
  rw [List.dropLast_concat]
  exact fun o ho => (hinit o ho).2

theorem LLMEngine.addAll_ok {requests : List InferenceRequest} {hist : History E}
    (h : EngineInv H cfg hist core) (hnd : (requests.map (·.requestId)).Nodup)
    (hfresh : ∀ r ∈ requests, r.requestId ∉ hist.accepted)
    (hok : (addAll cfg exec requests core).1 = .ok ()) :
    (addAll cfg exec requests core).2.Synced ∧
    (∀ i, i ∉ requests.map (·.requestId) →
      (addAll cfg exec requests core).2.requests.lookup i = core.requests.lookup i) ∧
    ∀ r ∈ requests, ∃ req,
      (addAll cfg exec requests core).2.requests.lookup r.requestId = some req ∧
      req.generatedTokenIds = [] ∧ req.maxTokens = r.samplingParams.maxTokens.getD 16 := by
  induction requests generalizing core hist with
  | nil => exact ⟨h.synced, fun _ _ => rfl, by simp⟩
  | cons r rs ih =>
    rw [List.map_cons, List.nodup_cons] at hnd
    rw [addAll] at hok ⊢
    rcases hx : core.addRequest cfg exec r with ⟨_ | _, core₁⟩
    · rw [hx] at hok
      cases hok
    · rw [hx] at hok
      have hok₁ : (core.addRequest cfg exec r).1 = .ok () := by rw [hx]
      obtain ⟨executor, -, he⟩ := EngineCore.addRequest_ok hok₁
      have hinv := h.addRequest (hfresh r List.mem_cons_self) hok₁
      rw [hx] at he hinv
      dsimp only at he hinv hok ⊢
      have hfresh₁ : ∀ r' ∈ rs, r'.requestId ∉
          ({ hist with added := hist.added ++ [r] } : History E).accepted := by
        intro r' hr' hm
        simp only [History.accepted, List.map_append, List.map_cons, List.map_nil,
          List.mem_append, List.mem_singleton] at hm
        rcases hm with hm | hm
        · exact hfresh r' (List.mem_cons_of_mem _ hr') hm
        · exact hnd.1 (hm ▸ List.mem_map_of_mem hr')
      obtain ⟨hs, hframe, htracked⟩ := ih hinv hnd.2 hfresh₁ hok
      refine ⟨hs, fun i hi => ?_, fun r' hr' => ?_⟩
      · rw [List.map_cons, List.mem_cons, not_or] at hi
        rw [hframe i hi.2, he]
        exact AList.lookup_insert_ne hi.1
      · rcases List.mem_cons.mp hr' with rfl | hr'
        · rw [hframe _ hnd.1, he]
          exact ⟨_, AList.lookup_insert _, rfl, rfl⟩
        · exact htracked r' hr'

end

/-- When no step ends a request behind the engine's back and what a step gives to a request of the
batch completes it, blocking generation and the streams carry whole completions. The bound on
`max_tokens` is the width of its type. -/
theorem LLMEngine.generate_whole (H : HashFns) (cfg : Config) (E : Type) (exec : Executor E)
    (hist : History E) (core core' : EngineCore E)
    (hrun : EngineRun H cfg (fun _ => True) (EngineCore.Undisturbed H cfg) hist core)
    (ords : List HashOrder) (requests : List InferenceRequest) (outputs : List RequestOutput)
    (hnd : (requests.map (·.requestId)).Nodup)
    (hfresh : ∀ r ∈ requests, r.requestId ∉ hist.accepted)
    (hwidth : ∀ r ∈ requests, r.samplingParams.maxTokens.getD 16 < 2 ^ 32)
    (hok : generate H cfg exec ords requests core = some (.ok outputs, core'))
    (hsteps : ∀ t ∈ steps H cfg exec ords (addAll cfg exec requests core).2,
      EngineCore.Undisturbed H cfg t ∧ ∀ r ∈ requests, t.Completes H cfg r.requestId) :
    ∀ r ∈ requests, WholeCompletion (outputsFor r.requestId outputs)
      (outputsFor r.requestId (AsyncLLMEngine.deliver (requests.map (·.requestId))
        ((steps H cfg exec ords (addAll cfg exec requests core).2).map (·.outputs H cfg))))
      (({ steps := steps H cfg exec ords (addAll cfg exec requests core).2 } :
        History E).generated H cfg r.requestId) := by
  intro r hr
  unfold generate at hok
  have hadd : (addAll cfg exec requests core).1 = .ok () ∧
      generateLoop H cfg exec ords [] (addAll cfg exec requests core).2 =
        some (outputs, core') := by
    split at hok
    · cases hok
    · rename_i core₁ he
      rw [he]
      obtain ⟨⟨os, core₂⟩, hloop, heq⟩ := Option.map_eq_some_iff.mp hok
      cases heq
      exact ⟨rfl, hloop⟩
  obtain ⟨hs, -, htracked⟩ := addAll_ok hrun.inv hnd hfresh hadd.1
  obtain ⟨req, hreq, hgen, hmax⟩ := htracked r hr
  have hdone := loop_completion hadd.2 hs hreq hgen (hmax ▸ hwidth r hr)
    (fun t ht => (hsteps t ht).1) (fun t ht => (hsteps t ht).2 r hr) []
  have hmem : r.requestId ∈ requests.map (·.requestId) := List.mem_map_of_mem hr
  have hstream := AsyncLLMEngine.outputsFor_deliver hmem
    (by simpa [List.flatMap] using hdone.unfinished)
  rw [loop_outputs hadd.2, List.nil_append]
  have hfilter : outputsFor r.requestId (((steps H cfg exec ords
      (addAll cfg exec requests core).2).flatMap (·.outputs H cfg)).filter (·.finished)) =
      (outputsFor r.requestId ((steps H cfg exec ords
        (addAll cfg exec requests core).2).flatMap (·.outputs H cfg))).filter (·.finished) :=
    List.filter_comm ..
  rw [hfilter]
  exact hdone.whole hstream

/-- A request for the given number of tokens. -/
def requestFor (maxTokens : ℕ) : InferenceRequest :=
  { smallRequest 1 [5] with samplingParams := { maxTokens } }

/-- A new engine on a small configuration. -/
def smallCore : EngineCore Unit := .new (smallConfig 8 false) () []

/-- What it answers a request for one token. -/
def onlyAnswer : RequestOutput where
  requestId := 1
  outputs := [{ tokenIds := [7], finishReason := some .length }]
  finished := true
  usage := ⟨1, 1, 2⟩

theorem LLMEngine.generate_whole_small : WholeCompletion [onlyAnswer] [onlyAnswer] [7] := by
  refine LLMEngine.generate_whole smallHash (smallConfig 8 false) Unit constExecutor {} smallCore _
    (.new () []) [.id] [requestFor 1] [onlyAnswer] (by simp) (by simp [History.accepted])
    (by decide) rfl (fun t ht => ?_) (requestFor 1) (by simp)
  have htrace : LLMEngine.steps smallHash (smallConfig 8 false) constExecutor [.id]
      (LLMEngine.addAll (smallConfig 8 false) constExecutor [requestFor 1] smallCore).2 =
      [⟨(LLMEngine.addAll (smallConfig 8 false) constExecutor [requestFor 1] smallCore).2,
        constExecutor, .id⟩] := rfl
  rw [htrace, List.mem_singleton] at ht
  subst ht
  refine ⟨⟨fun id r hr => ?_, fun res hres => ?_⟩, fun r hr res hres => ?_⟩
  · have hr' : (AList.insert 1 _ ∅ : AList fun _ : RequestId => SchedulerRequest).lookup id =
      some r := hr
    rcases of_lookup_insert hr' with ⟨-, rfl⟩ | ⟨-, hnone⟩
    · rfl
    · cases hnone
  · obtain rfl : _ = res := Except.ok.inj hres
    decide +kernel
  · obtain rfl : _ = res := Option.some.inj hres
    obtain rfl : r = requestFor 1 := by simpa using hr
    decide +kernel

/-- A request for two tokens that gets them in two steps: the first one is dropped. -/
theorem LLMEngine.not_generate_whole : ¬ ∀ (H : HashFns) (cfg : Config) (E : Type)
    (exec : Executor E) (hist : History E) (core core' : EngineCore E),
    EngineRun H cfg (fun _ => True) (EngineCore.Undisturbed H cfg) hist core →
    ∀ (ords : List HashOrder) (requests : List InferenceRequest) (outputs : List RequestOutput),
    (requests.map (·.requestId)).Nodup → (∀ r ∈ requests, r.requestId ∉ hist.accepted) →
    (∀ r ∈ requests, r.samplingParams.maxTokens.getD 16 < 2 ^ 32) →
    generate H cfg exec ords requests core = some (.ok outputs, core') →
    ∀ r ∈ requests, WholeCompletion (outputsFor r.requestId outputs)
      (outputsFor r.requestId (AsyncLLMEngine.deliver (requests.map (·.requestId))
        ((steps H cfg exec ords (addAll cfg exec requests core).2).map (·.outputs H cfg))))
      (({ steps := steps H cfg exec ords (addAll cfg exec requests core).2 } :
        History E).generated H cfg r.requestId) := by
  intro h
  have ht := (h smallHash (smallConfig 8 false) Unit constExecutor {} smallCore _ (.new () [])
    [.id, .id] [requestFor 2] _ (by simp) (by simp [History.accepted]) (by decide) rfl
    (requestFor 2) (by simp)).tokens
  revert ht
  decide +kernel

end Rllm
