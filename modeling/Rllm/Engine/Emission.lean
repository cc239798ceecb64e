import Rllm.Engine.Replies

/-! # What a request is told along a run

The deltas of a request, put together, are its generated tokens: the engine
counts them up to the token that ends the request, and sends the whole batch of
the execution. The two agree as long as no batch goes on behind that token.
-/

namespace Rllm

variable {H : HashFns} {cfg : Config} {E : Type}

namespace RequestOutput

def tokenIds (o : RequestOutput) : List Token := o.outputs.flatMap (·.tokenIds)

def finishReason (o : RequestOutput) : Option FinishReason := o.outputs.findSome? (·.finishReason)

end RequestOutput

@[simp] theorem answer_tokenIds (id : RequestId) (tokens : List Token)
    (r : EngineRequest × Option FinishReason) : (answer id tokens r).tokenIds = tokens :=
  List.append_nil tokens

@[simp] theorem answer_finishReason (id : RequestId) (tokens : List Token)
    (r : EngineRequest × Option FinishReason) : (answer id tokens r).finishReason = r.2 := by
  cases h : r.2 <;> simp [answer, RequestOutput.finishReason, h]

@[simp] theorem failure_tokenIds (id : RequestId) (req : EngineRequest) :
    (failure id req).tokenIds = [] := rfl

@[simp] theorem failure_finishReason (id : RequestId) (req : EngineRequest) :
    (failure id req).finishReason = some .error := rfl

/-- A token that ends a request: one of the model's, unless they are ignored, or one of its own. -/
def SamplingParams.StopsAt (p : SamplingParams) (stopTokenIds : List Token) (token : Token) :
    Prop :=
  token ∈ stopTokenIds ∧ p.ignoreEos = false ∨ token ∈ p.stopTokenIds

instance (p : SamplingParams) (stopTokenIds : List Token) (token : Token) :
    Decidable (p.StopsAt stopTokenIds token) :=
  inferInstanceAs (Decidable (_ ∧ _ ∨ _))

/-! ## One batch -/

namespace EngineRequest

variable {req : EngineRequest} {stopTokenIds tokens : List Token}

/-- A batch does not go on behind the token that ends the request: only its last token may be a
stop token, and it stays within the tokens that are left. -/
def Fits (stopTokenIds : List Token) (req : EngineRequest) (tokens : List Token) : Prop :=
  (∀ token ∈ tokens.dropLast, ¬ req.samplingParams.StopsAt stopTokenIds token) ∧
    req.generatedTokenIds.length + tokens.length ≤ req.maxTokens

-- the tokens are a finite type, over which nothing must be enumerated
instance : Decidable (req.Fits stopTokenIds tokens) :=
  have : Decidable (∀ token ∈ tokens.dropLast, ¬ req.samplingParams.StopsAt stopTokenIds token) :=
    List.decidableBAll _ _
  instDecidableAnd

theorem consume_cons (token : Token) : req.consume stopTokenIds (token :: tokens) =
    if req.samplingParams.StopsAt stopTokenIds token then
      ({ req with generatedTokenIds := req.generatedTokenIds ++ [token] }, some .stop)
    else if req.maxTokens ≤ req.generatedTokenIds.length + 1 then
      ({ req with generatedTokenIds := req.generatedTokenIds ++ [token] }, some .length)
    else
      consume stopTokenIds { req with generatedTokenIds := req.generatedTokenIds ++ [token] }
        tokens := by
  simp only [consume, SamplingParams.StopsAt, Bool.or_eq_true, Bool.and_eq_true,
    decide_eq_true_eq, Bool.not_eq_true', List.length_append, List.length_singleton]
  congr

theorem Fits.consume (h : req.Fits stopTokenIds tokens) :
    (req.consume stopTokenIds tokens).1 =
      { req with generatedTokenIds := req.generatedTokenIds ++ tokens } ∧
    ((req.consume stopTokenIds tokens).2 = some .stop ↔
      ∃ token ∈ tokens.getLast?, req.samplingParams.StopsAt stopTokenIds token) := by
  induction tokens generalizing req with
  | nil => simp [EngineRequest.consume]
  | cons token tokens ih =>
    obtain ⟨hstop, hlen⟩ := h
    rw [List.length_cons] at hlen
    rw [consume_cons]
    by_cases hs : req.samplingParams.StopsAt stopTokenIds token
    · -- a stop token in front of others would have to be the last one
      obtain rfl : tokens = [] := by
        cases tokens with
        | nil => rfl
        | cons t ts => exact absurd hs (hstop token (by simp))
      simp [hs]
    · rw [if_neg hs]
      split
      · rename_i hmax
        obtain rfl : tokens = [] := List.eq_nil_of_length_eq_zero (by omega)
        simp [hs]
      · have hfits : Fits stopTokenIds
            { req with generatedTokenIds := req.generatedTokenIds ++ [token] } tokens := by
          constructor
          · intro t ht
            apply hstop t
            cases tokens with
            | nil => cases ht
            | cons t' ts => exact List.mem_cons_of_mem _ ht
          · simp only [List.length_append, List.length_singleton]
            omega
        obtain ⟨heq, hiff⟩ := ih hfits
        constructor
        · rw [heq, List.append_assoc]
          rfl
        · rw [hiff]
          cases tokens with
          | nil => simp [hs]
          | cons t ts => simp [List.getLast?_cons_cons]

theorem Fits.not_stopsAt (h : req.Fits stopTokenIds tokens)
    (ho : (req.consume stopTokenIds tokens).2 = none) :
    ∀ token ∈ tokens, ¬ req.samplingParams.StopsAt stopTokenIds token := by
  intro token ht hs
  rcases List.eq_nil_or_concat tokens with rfl | ⟨init, last, rfl⟩
  · cases ht
  · rw [List.concat_eq_append] at h ho ht
    rw [List.mem_append, List.mem_singleton] at ht
    rcases ht with ht | rfl
    · exact h.1 token (by simpa using ht) hs
    · rw [h.consume.2.mpr ⟨token, by simp, hs⟩] at ho
      cases ho

end EngineRequest

/-! ## One request -/

/-- The law of emission for a request, its outputs and its generated tokens. -/
structure Emission (stopTokenIds : List Token) (r : InferenceRequest)
    (outputs : List RequestOutput) (generated : List Token) : Prop where
  tokens : outputs.flatMap (·.tokenIds) = generated
  count : ∀ o ∈ outputs.getLast?, o.usage.completionTokens = generated.length
  bound : generated.length ≤ r.samplingParams.maxTokens.getD 16
  unfinished : ∀ o ∈ outputs.dropLast, o.finishReason = none
  stop : ∀ o ∈ outputs.getLast?, (o.finishReason = some .stop ↔
    ∃ token ∈ generated.getLast?, r.samplingParams.StopsAt stopTokenIds token)
  early : ∀ token ∈ generated.dropLast, ¬ r.samplingParams.StopsAt stopTokenIds token

/-- What the engine knows of a request that it still tracks. -/
structure Pending (stopTokenIds : List Token) (r : InferenceRequest)
    (outputs : List RequestOutput) (req : EngineRequest) : Prop where
  params : req.samplingParams = r.samplingParams
  maxTokens : req.maxTokens = r.samplingParams.maxTokens.getD 16
  tokens : outputs.flatMap (·.tokenIds) = req.generatedTokenIds
  bound : req.generatedTokenIds.length ≤ req.maxTokens
  unfinished : ∀ o ∈ outputs, o.finishReason = none
  early : ∀ token ∈ req.generatedTokenIds, ¬ r.samplingParams.StopsAt stopTokenIds token

section

variable {stopTokenIds tokens generated : List Token} {r : InferenceRequest}
  {outputs : List RequestOutput} {req : EngineRequest} {id : RequestId}

theorem Emission.nil : Emission stopTokenIds r [] [] := by
  constructor <;> simp

theorem Pending.new (r : InferenceRequest) : Pending stopTokenIds r []
    { promptTokenIds := r.promptTokens, samplingParams := r.samplingParams,
      maxTokens := r.samplingParams.maxTokens.getD 16 } := by
  constructor <;> simp

theorem saturateU32_of_le {n m : ℕ} (h : n ≤ m) (hm : m < 2 ^ 32) : saturateU32 n = n :=
  min_eq_left (by omega)

/-- A batch that fits keeps the law. -/
theorem Pending.answer (h : Pending stopTokenIds r outputs req)
    (hw : r.samplingParams.maxTokens.getD 16 < 2 ^ 32) (hfits : req.Fits stopTokenIds tokens) :
    Emission stopTokenIds r
      (outputs ++ [Rllm.answer id tokens (req.consume stopTokenIds tokens)])
      (req.consume stopTokenIds tokens).1.generatedTokenIds := by
  obtain ⟨heq, hiff⟩ := hfits.consume
  have hbound : (req.generatedTokenIds ++ tokens).length ≤
      r.samplingParams.maxTokens.getD 16 := by
    rw [List.length_append, ← h.maxTokens]
    exact hfits.2
  constructor
  · simp [heq, h.tokens]
  · simp only [List.getLast?_concat, Option.mem_some_iff, forall_eq', heq]
    simp only [Rllm.answer, heq, EngineRequest.usage]
    exact saturateU32_of_le hbound hw
  · rw [heq]
    exact hbound
  · simpa using h.unfinished
  · simp only [List.getLast?_concat, Option.mem_some_iff, forall_eq', answer_finishReason, hiff,
      heq, h.params]
    rcases List.eq_nil_or_concat tokens with rfl | ⟨init, last, rfl⟩
    · -- an empty batch: the tokens before it are no stop tokens
      simp only [List.getLast?_nil, Option.mem_def, reduceCtorEq, false_and, exists_false,
        List.append_nil, false_iff, not_exists, not_and]
      intro token ht
      exact h.early token (List.mem_of_getLast? ht)
    · simp [← List.append_assoc]
  · rw [heq]
    intro token ht
    rcases List.eq_nil_or_concat tokens with rfl | ⟨init, last, rfl⟩
    · rw [List.append_nil] at ht
      exact h.early token (List.mem_of_mem_dropLast ht)
    · rw [List.concat_eq_append, ← List.append_assoc, List.dropLast_concat,
        List.mem_append] at ht
      rcases ht with ht | ht
      · exact h.early token ht
      · have hstop := hfits.1 token (by simpa using ht)
        rwa [h.params] at hstop

theorem Pending.answer_open (h : Pending stopTokenIds r outputs req)
    (hfits : req.Fits stopTokenIds tokens) (ho : (req.consume stopTokenIds tokens).2 = none) :
    Pending stopTokenIds r
      (outputs ++ [Rllm.answer id tokens (req.consume stopTokenIds tokens)])
      (req.consume stopTokenIds tokens).1 := by
  obtain ⟨heq, -⟩ := hfits.consume
  rw [heq]
  constructor
  · exact h.params
  · exact h.maxTokens
  · simp [h.tokens]
  · rw [List.length_append]
    exact hfits.2
  · intro o hmem
    rw [List.mem_append, List.mem_singleton] at hmem
    rcases hmem with hmem | rfl
    · exact h.unfinished o hmem
    · rw [answer_finishReason, ho]
  · intro token ht
    rw [List.mem_append] at ht
    rcases ht with ht | ht
    · exact h.early token ht
    · have hstop := hfits.not_stopsAt ho token ht
      rwa [h.params] at hstop

theorem Pending.failure (h : Pending stopTokenIds r outputs req)
    (hw : r.samplingParams.maxTokens.getD 16 < 2 ^ 32) :
    Emission stopTokenIds r (outputs ++ [Rllm.failure id req]) req.generatedTokenIds := by
  have hbound := h.maxTokens ▸ h.bound
  constructor
  · simp [h.tokens]
  · simp only [List.getLast?_concat, Option.mem_some_iff, forall_eq']
    exact saturateU32_of_le hbound hw
  · exact hbound
  · simpa using h.unfinished
  · simp only [List.getLast?_concat, Option.mem_some_iff, forall_eq', failure_finishReason,
      Option.some.injEq, reduceCtorEq, false_iff, not_exists, not_and]
    intro token ht
    exact h.early token (List.mem_of_getLast? ht)
  · intro token ht
    exact h.early token (List.mem_of_mem_dropLast ht)

end

/-! ## Runs -/

/-- The tokens generated for a request behind a step, given those generated before it. -/
def EngineStep.generated (H : HashFns) (cfg : Config) (id : RequestId) (generated : List Token)
    (t : EngineStep E) : List Token :=
  ((t.booked H cfg).lookup id).elim generated (·.generatedTokenIds)

/-- The tokens generated for a request: those the engine had booked the last time it knew it. -/
def History.generated (H : HashFns) (cfg : Config) (hist : History E) (id : RequestId) :
    List Token :=
  hist.steps.foldl (EngineStep.generated H cfg id) []

/-- The execution answers no request twice, and no batch goes on behind the token that ends its
request. -/
def EngineStep.Fits (H : HashFns) (cfg : Config) (t : EngineStep E) : Prop :=
  ∀ res, t.result H cfg = some res → (res.perRequestOutputs.map (·.requestId)).Nodup ∧
    ∀ o ∈ res.perRequestOutputs, ∀ req ∈ t.core.requests.lookup o.requestId,
      req.Fits t.core.stopTokenIds o.tokenIds

/-- What holds of an accepted request along a run. -/
structure Told (H : HashFns) (cfg : Config) (hist : History E) (core : EngineCore E)
    (r : InferenceRequest) : Prop where
  emission : Emission core.stopTokenIds r (outputsFor r.requestId (hist.outputs H cfg))
    (hist.generated H cfg r.requestId)
  pending : ∀ req ∈ core.requests.lookup r.requestId,
    Pending core.stopTokenIds r (outputsFor r.requestId (hist.outputs H cfg)) req ∧
      hist.generated H cfg r.requestId = req.generatedTokenIds

/-- What holds of every id along a run. -/
structure EmissionInv (H : HashFns) (cfg : Config) (hist : History E) (core : EngineCore E) :
    Prop where
  known : ∀ id ∉ hist.accepted, core.requests.lookup id = none ∧
    outputsFor id (hist.outputs H cfg) = [] ∧ hist.generated H cfg id = []
  told : ∀ r ∈ hist.added, r.samplingParams.maxTokens.getD 16 < 2 ^ 32 → Told H cfg hist core r

section

variable {hist : History E} {core : EngineCore E} {exec : Executor E} {r : InferenceRequest}
  {ord : HashOrder}

theorem outputsFor_step (hist : History E) (t : EngineStep E) (id : RequestId) :
    outputsFor id (({ hist with steps := hist.steps ++ [t] } : History E).outputs H cfg) =
      outputsFor id (hist.outputs H cfg) ++ outputsFor id (t.outputs H cfg) := by
  simp [History.outputs]

theorem generated_step (hist : History E) (t : EngineStep E) (id : RequestId) :
    ({ hist with steps := hist.steps ++ [t] } : History E).generated H cfg id =
      ((t.booked H cfg).lookup id).elim (hist.generated H cfg id) (·.generatedTokenIds) := by
  simp [History.generated, EngineStep.generated]

theorem EngineCore.step_stopTokenIds (H : HashFns) (cfg : Config) (core : EngineCore E)
    (exec : Executor E) (ord : HashOrder) :
    (core.step H cfg exec ord).2.stopTokenIds = core.stopTokenIds := by
  have habort : ∀ (ids : List RequestId) (c : EngineCore E),
      (ids.foldl (EngineCore.abortRequest exec) c).stopTokenIds = c.stopTokenIds := by
    intro ids
    induction ids with
    | nil => exact fun _ => rfl
    | cons id ids ih => exact fun c => ih (c.abortRequest exec id)
  have hfail : ∀ (ids : List RequestId) (c : EngineCore E),
      (EngineCore.failAll exec ids c).2.stopTokenIds = c.stopTokenIds := by
    intro ids
    induction ids with
    | nil => exact fun _ => rfl
    | cons id ids ih => exact fun c => ih (c.abortRequest exec id)
  have hbook : ∀ (rs : List PerRequestOutput) (c : EngineCore E),
      (EngineCore.processOutputs rs c).2.stopTokenIds = c.stopTokenIds := by
    intro rs
    induction rs with
    | nil => exact fun _ => rfl
    | cons o rs ih =>
      exact fun c => (ih _).trans (EngineCore.processOutput_says o c 0).2.2
  unfold EngineCore.step EngineCore.execute
  dsimp only
  split
  · rfl
  · split
    · exact hfail _ _
    · exact (habort _ _).trans (hbook _ _)

/-- A step that fits keeps what holds of a request. -/
theorem Told.step (h : Told H cfg hist core r)
    (hw : r.samplingParams.maxTokens.getD 16 < 2 ^ 32)
    (hfits : EngineStep.Fits H cfg ⟨core, exec, ord⟩) :
    Told H cfg { hist with steps := hist.steps ++ [⟨core, exec, ord⟩] }
      (core.step H cfg exec ord).2 r := by
  have hreply := EngineCore.step_reply (t := ⟨core, exec, ord⟩) (fun res hres => (hfits res hres).1)
    r.requestId
  have hstops := EngineCore.step_stopTokenIds H cfg core exec ord
  suffices hs : ∀ before outputs booked after,
      Reply H cfg ⟨core, exec, ord⟩ r.requestId before outputs booked after →
      core.requests.lookup r.requestId = before →
      Emission core.stopTokenIds r (outputsFor r.requestId (hist.outputs H cfg) ++ outputs)
        (booked.elim (hist.generated H cfg r.requestId) (·.generatedTokenIds)) ∧
      ∀ req ∈ after, Pending core.stopTokenIds r
        (outputsFor r.requestId (hist.outputs H cfg) ++ outputs) req ∧
        booked.elim (hist.generated H cfg r.requestId) (·.generatedTokenIds) =
          req.generatedTokenIds by
    obtain ⟨he, hp⟩ := hs _ _ _ _ hreply rfl
    constructor
    · rw [outputsFor_step, generated_step, hstops]
      exact he
    · rw [outputsFor_step, generated_step, hstops]
      exact hp
  rintro before outputs booked after hreply hbefore
  cases hreply with
  | silent =>
    rw [List.append_nil]
    cases before with
    | none => exact ⟨h.emission, by simp⟩
    | some req =>
      obtain ⟨hp, hg⟩ := h.pending req hbefore
      constructor
      · have he := h.emission
        rw [hg] at he
        exact he
      · rintro req' hreq'
        obtain rfl := Option.some.inj hreq'
        exact ⟨hp, rfl⟩
  | @answered req res o hres ho hid =>
    obtain ⟨hp, -⟩ := h.pending req hbefore
    have hf := (hfits res hres).2 o ho req (by rw [hid]; exact hbefore)
    constructor
    · exact hp.answer hw hf
    · intro req' hreq'
      split at hreq'
      · cases hreq'
      · rename_i hopen
        obtain rfl := Option.some.inj hreq'
        rw [Bool.not_eq_true, Option.isSome_eq_false_iff, Option.isNone_iff_eq_none] at hopen
        exact ⟨hp.answer_open hf hopen, rfl⟩
  | failed =>
    obtain ⟨hp, -⟩ := h.pending _ hbefore
    exact ⟨hp.failure hw, by simp⟩

namespace EmissionInv

theorem new (executor : E) (stopTokenIds : List Token) :
    EmissionInv H cfg {} (EngineCore.new cfg executor stopTokenIds) := by
  constructor
  · exact fun _ _ => ⟨rfl, rfl, rfl⟩
  · simp

theorem addRequest (h : EmissionInv H cfg hist core) (hfresh : r.requestId ∉ hist.accepted)
    (hok : (core.addRequest cfg exec r).1 = .ok ()) :
    EmissionInv H cfg { hist with added := hist.added ++ [r] } (core.addRequest cfg exec r).2 := by
  obtain ⟨executor, -, he⟩ := EngineCore.addRequest_ok hok
  rw [he]
  have hne : ∀ r' ∈ hist.added, r'.requestId ≠ r.requestId := by
    intro r' hr' hid
    exact hfresh (hid ▸ List.mem_map_of_mem hr')
  constructor
  · intro id hid
    simp only [History.accepted, List.map_append, List.map_cons, List.map_nil, List.mem_append,
      List.mem_singleton, not_or] at hid
    rw [AList.lookup_insert_ne hid.2]
    exact h.known id hid.1
  · intro r' hr' hw
    rw [List.mem_append, List.mem_singleton] at hr'
    rcases hr' with hr' | rfl
    · obtain ⟨hemit, hpend⟩ := h.told r' hr' hw
      refine ⟨hemit, fun req hreq => hpend req ?_⟩
      rwa [Option.mem_def, AList.lookup_insert_ne (hne r' hr')] at hreq
    · obtain ⟨-, hout, hgen⟩ := h.known r'.requestId hfresh
      constructor
      · change Emission _ _ (outputsFor r'.requestId (hist.outputs H cfg))
          (hist.generated H cfg r'.requestId)
        rw [hout, hgen]
        exact .nil
      · rintro req hreq
        rw [Option.mem_def, AList.lookup_insert] at hreq
        obtain rfl := Option.some.inj hreq
        change Pending _ _ (outputsFor r'.requestId (hist.outputs H cfg)) _ ∧
          hist.generated H cfg r'.requestId = _
        rw [hout, hgen]
        exact ⟨.new r', rfl⟩

theorem erase (h : EmissionInv H cfg hist core) {hist' : History E} {core' : EngineCore E}
    (hadded : hist'.added = hist.added) (hsteps : hist'.steps = hist.steps)
    (hstop : core'.stopTokenIds = core.stopTokenIds)
    (hreq : ∀ id, ∀ req ∈ core'.requests.lookup id, core.requests.lookup id = some req) :
    EmissionInv H cfg hist' core' := by
  have hout : hist'.outputs H cfg = hist.outputs H cfg := by
    rw [History.outputs, History.outputs, hsteps]
  have hgen : ∀ id, hist'.generated H cfg id = hist.generated H cfg id := by
    intro id
    rw [History.generated, History.generated, hsteps]
  constructor
  · intro id hid
    rw [History.accepted, hadded] at hid
    obtain ⟨hl, ho, hg⟩ := h.known id hid
    refine ⟨?_, by rw [hout, ho], by rw [hgen, hg]⟩
    rw [Option.eq_none_iff_forall_ne_some]
    intro req hr
    rw [hreq id req hr] at hl
    cases hl
  · intro r hr hw
    rw [hadded] at hr
    obtain ⟨he, hp⟩ := h.told r hr hw
    constructor
    · rw [hout, hgen, hstop]
      exact he
    · intro req hr
      rw [hout, hgen, hstop]
      exact hp req (hreq _ req hr)

theorem step (h : EmissionInv H cfg hist core) (hfits : EngineStep.Fits H cfg ⟨core, exec, ord⟩) :
    EmissionInv H cfg { hist with steps := hist.steps ++ [⟨core, exec, ord⟩] }
      (core.step H cfg exec ord).2 := by
  constructor
  · intro id hid
    obtain ⟨hl, ho, hg⟩ := h.known id hid
    have hreply := EngineCore.step_reply (t := ⟨core, exec, ord⟩)
      (fun res hres => (hfits res hres).1) id
    dsimp only at hreply
    rw [hl] at hreply
    obtain ⟨houtputs, hbooked, hafter⟩ := hreply.of_none
    rw [outputsFor_step, generated_step, ho, hg, houtputs, hbooked]
    exact ⟨hafter, rfl, rfl⟩
  · exact fun r hr hw => (h.told r hr hw).step hw hfits

end EmissionInv

end

/-- In a run whose batches fit, the law of emission holds of every accepted request. The bound on
`max_tokens` is the width of its type. -/
theorem EngineRun.emission (H : HashFns) (cfg : Config) (E : Type) (hist : History E)
    (core : EngineCore E)
    (hrun : EngineRun H cfg (fun _ => True) (EngineStep.Fits H cfg) hist core) :
    ∀ r ∈ hist.added, r.samplingParams.maxTokens.getD 16 < 2 ^ 32 →
      Emission core.stopTokenIds r (outputsFor r.requestId (hist.outputs H cfg))
        (hist.generated H cfg r.requestId) := by
  have hinv : EmissionInv H cfg hist core := by
    induction hrun with
    | new executor stopTokenIds => exact .new executor stopTokenIds
    | addRequest _ r _ hfresh hok ih => exact ih.addRequest hfresh hok
    | rejectRequest _ r _ herr ih =>
      obtain ⟨executor, he⟩ := EngineCore.addRequest_error herr
      rw [he]
      exact ih.erase rfl rfl rfl fun _ _ hreq => hreq
    | @abortRequest hist core exec _ id _ ih =>
      refine ih.erase ?_ ?_ rfl fun i req hreq => ?_
      · unfold History.abort
        split <;> rfl
      · unfold History.abort
        split <;> rfl
      · change (core.requests.erase id).lookup i = some req at hreq
        by_cases hid : i = id
        · subst hid
          rw [AList.lookup_erase] at hreq
          cases hreq
        · rwa [AList.lookup_erase_ne hid] at hreq
    | step _ ord _ hP ih => exact ih.step hP
  exact fun r hr hw => (hinv.told r hr hw).emission

theorem EngineRun.emission_small : Emission [] (smallRequest 1 [5])
    (outputsFor 1 ((oneRequestHistory 16 2).outputs smallHash
      { smallConfig 8 false with maxModelLen := 16 })) [7, 7] := by
  refine EngineRun.emission smallHash { smallConfig 8 false with maxModelLen := 16 } Unit _ _
    (engineRun_oneRequest 16 2 fun k hk => ?_) (smallRequest 1 [5]) (by decide) (by decide)
  intro res hres
  obtain rfl | rfl : k = 0 ∨ k = 1 := by omega
  · obtain rfl : _ = res := Option.some.inj hres
    decide +kernel
  · obtain rfl : _ = res := Option.some.inj hres
    decide +kernel

/-- An executor that samples two tokens for every scheduled request. -/
def pairExecutor : Executor Unit where
  executeModel out _ :=
    (.ok ⟨(out.scheduledNew ++ out.scheduledRunning).map fun id => ⟨id, [7, 8]⟩⟩, ())
  addRequest _ _ _ _ := (.ok (), ())
  abortRequest _ _ := ()

/-- A request for one token. -/
def oneTokenRequest : InferenceRequest :=
  { smallRequest 1 [5] with samplingParams := { maxTokens := some 1 } }

/-- An engine with that request. -/
def oneTokenCore : EngineCore Unit :=
  ((EngineCore.new (smallConfig 8 false) () []).addRequest (smallConfig 8 false) pairExecutor
    oneTokenRequest).2

theorem engineRun_oneToken {P : EngineStep Unit → Prop} (hP : P ⟨oneTokenCore, pairExecutor, .id⟩) :
    EngineRun smallHash (smallConfig 8 false) (fun _ => True) P
      { added := [oneTokenRequest], steps := [⟨oneTokenCore, pairExecutor, .id⟩] }
      (oneTokenCore.step smallHash (smallConfig 8 false) pairExecutor .id).2 :=
  .step True.intro .id (.addRequest True.intro oneTokenRequest (.new () [])
    (by simp [History.accepted]) rfl) hP

/-- A request for one token that is given two in its only step hears of both. -/
theorem EngineRun.not_emission : ¬ ∀ (H : HashFns) (cfg : Config) (E : Type) (hist : History E)
    (core : EngineCore E), EngineRun H cfg (fun _ => True) (fun t => ∀ res,
      t.result H cfg = some res → (res.perRequestOutputs.map (·.requestId)).Nodup) hist core →
    ∀ r ∈ hist.added, r.samplingParams.maxTokens.getD 16 < 2 ^ 32 →
      Emission core.stopTokenIds r (outputsFor r.requestId (hist.outputs H cfg))
        (hist.generated H cfg r.requestId) := by
  intro h
  have ht := (h smallHash (smallConfig 8 false) Unit _ _ (engineRun_oneToken ?_)
    oneTokenRequest (by decide) (by decide)).tokens
  · revert ht
    decide +kernel
  · intro res hres
    obtain rfl : _ = res := Option.some.inj hres
    decide +kernel

end Rllm
