import Rllm.Server.Streaming

/-! # Stop strings

The stop strings of a request reach its sampling parameters, and nothing looks
at them there. So the text is free of them, and ends where it should, exactly
if the tokens of the request never spell one.
-/

namespace Rllm

variable {H : HashFns} {cfg : Config} {E : Type} {exec : Executor E} {hist : History E}
  {core : EngineCore E} {id : RequestId}

/-! ## What a request hears -/

/-- An output of the engine: one completion, final if it has a reason. Errors come without
tokens. -/
def RequestOutput.WellFormed (o : RequestOutput) : Prop :=
  ∃ tokens reason, o.outputs = [{ tokenIds := tokens, finishReason := reason }] ∧
    o.finished = reason.isSome ∧ (reason = some .error → tokens = [])

/-- What the outputs of a request look like, and that a final one closes the request. -/
structure Spoken (H : HashFns) (cfg : Config) (hist : History E) (core : EngineCore E)
    (id : RequestId) : Prop where
  fresh : id ∉ hist.accepted → id ∉ core.requests ∧ outputsFor id (hist.outputs H cfg) = []
  closed : id ∈ core.requests → ∀ o ∈ outputsFor id (hist.outputs H cfg), o.finished = false
  ends : EndsFinal (outputsFor id (hist.outputs H cfg))
  wellFormed : ∀ o ∈ outputsFor id (hist.outputs H cfg), o.WellFormed

theorem answer_wellFormed (tokens : List Token) (r : EngineRequest × Option FinishReason)
    (hr : r.2 ≠ some .error) : (answer id tokens r).WellFormed :=
  ⟨tokens, r.2, rfl, rfl, fun h => absurd h hr⟩

theorem failure_wellFormed (req : EngineRequest) : (failure id req).WellFormed :=
  ⟨[], some .error, rfl, rfl, fun _ => rfl⟩

theorem EngineRequest.consume_ne_error (stopTokenIds : List Token) (req : EngineRequest)
    (tokens : List Token) : (req.consume stopTokenIds tokens).2 ≠ some .error := by
  induction tokens generalizing req with
  | nil => simp [consume]
  | cons token tokens ih =>
    rw [consume_cons]
    split
    · simp
    · split
      · simp
      · exact ih _

theorem Spoken.step (h : Spoken H cfg hist core id) {ord : HashOrder}
    (hnd : ∀ res, EngineStep.result H cfg ⟨core, exec, ord⟩ = some res →
      (res.perRequestOutputs.map (·.requestId)).Nodup) :
    Spoken H cfg { hist with steps := hist.steps ++ [⟨core, exec, ord⟩] }
      (core.step H cfg exec ord).2 id := by
  suffices hs : ∀ before outputs booked after,
      Reply H cfg ⟨core, exec, ord⟩ id before outputs booked after →
      core.requests.lookup id = before →
      (id ∉ hist.accepted → after = none ∧
        outputsFor id (hist.outputs H cfg) ++ outputs = []) ∧
      (after.isSome → ∀ o ∈ outputsFor id (hist.outputs H cfg) ++ outputs, o.finished = false) ∧
      EndsFinal (outputsFor id (hist.outputs H cfg) ++ outputs) ∧
      ∀ o ∈ outputsFor id (hist.outputs H cfg) ++ outputs, o.WellFormed by
    obtain ⟨hf, hc, he, hw⟩ :=
      hs _ _ _ _ (EngineCore.step_reply (t := ⟨core, exec, ord⟩) hnd id) rfl
    rw [← outputsFor_step hist ⟨core, exec, ord⟩ id] at hf hc he hw
    refine ⟨fun hid => ?_, fun hid => hc (AList.lookup_isSome.mpr hid), he, hw⟩
    obtain ⟨hnone, hnil⟩ := hf hid
    exact ⟨AList.lookup_eq_none.mp hnone, hnil⟩
  have hone : ∀ {req o} {after : Option EngineRequest}, core.requests.lookup id = some req →
      o.WellFormed → (after.isSome → o.finished = false) →
      (id ∉ hist.accepted → after = none ∧
        outputsFor id (hist.outputs H cfg) ++ [o] = []) ∧
      (after.isSome → ∀ o' ∈ outputsFor id (hist.outputs H cfg) ++ [o], o'.finished = false) ∧
      EndsFinal (outputsFor id (hist.outputs H cfg) ++ [o]) ∧
      ∀ o' ∈ outputsFor id (hist.outputs H cfg) ++ [o], o'.WellFormed := by
    intro req o after hreq hw hopen
    have hid : id ∈ core.requests := AList.lookup_isSome.mp (by rw [hreq]; rfl)
    have hclosed := h.closed hid
    refine ⟨fun hn => absurd hid (h.fresh hn).1, fun hsome => ?_, .snoc hclosed o, ?_⟩
    · exact List.forall_mem_append.mpr ⟨hclosed, List.forall_mem_singleton.mpr (hopen hsome)⟩
    · exact List.forall_mem_append.mpr ⟨h.wellFormed, List.forall_mem_singleton.mpr hw⟩
  rintro before outputs booked after hreply hbefore
  cases hreply with
  | silent =>
    rw [List.append_nil]
    refine ⟨fun hid => ?_, fun hsome => h.closed ?_, h.ends, h.wellFormed⟩
    · rw [← hbefore]
      exact ⟨AList.lookup_eq_none.mpr (h.fresh hid).1, (h.fresh hid).2⟩
    · rw [← hbefore] at hsome
      exact AList.lookup_isSome.mp hsome
  | @answered req res o hres ho hid =>
    refine hone hbefore (answer_wellFormed _ _ (req.consume_ne_error _ _)) fun hsome => ?_
    split at hsome
    · cases hsome
    · rename_i hopen
      exact Bool.not_eq_true _ ▸ hopen
  | failed => exact hone hbefore (failure_wellFormed _) fun hsome => by cases hsome

theorem EngineRun.spoken (h : EngineRun H cfg (fun _ => True) (fun t => ∀ res,
    t.result H cfg = some res → (res.perRequestOutputs.map (·.requestId)).Nodup) hist core)
    (id : RequestId) : Spoken H cfg hist core id := by
  induction h with
  | new =>
    refine ⟨fun _ => ⟨fun hid => ?_, rfl⟩, fun hid => ?_, True.intro, fun o ho => ?_⟩
    · cases hid
    · cases hid
    · cases ho
  | @addRequest hist core exec _ r _ hfresh hok ih =>
    obtain ⟨executor, -, he⟩ := EngineCore.addRequest_ok hok
    rw [he]
    refine ⟨fun hid => ?_, fun hid => ?_, ih.ends, ih.wellFormed⟩
    · simp only [History.accepted, List.map_append, List.map_cons, List.map_nil, List.mem_append,
        List.mem_singleton, not_or] at hid
      obtain ⟨hn, ho⟩ := ih.fresh hid.1
      exact ⟨fun hm => ((AList.mem_insert _).mp hm).elim hid.2 hn, ho⟩
    · rcases (AList.mem_insert _).mp hid with rfl | hid
      · intro o ho
        change o ∈ outputsFor _ (hist.outputs H cfg) at ho
        rw [(ih.fresh hfresh).2] at ho
        cases ho
      · exact ih.closed hid
  | rejectRequest _ r _ herr ih =>
    obtain ⟨executor, he⟩ := EngineCore.addRequest_error herr
    rw [he]
    exact ⟨ih.fresh, ih.closed, ih.ends, ih.wellFormed⟩
  | @abortRequest hist core exec _ i _ ih =>
    have hout : (hist.abort i).outputs H cfg = hist.outputs H cfg := by
      unfold History.abort
      split <;> rfl
    have hacc : (hist.abort i).accepted = hist.accepted := by
      unfold History.abort
      split <;> rfl
    refine ⟨fun hid => ?_, fun hid => ?_, ?_, ?_⟩
    · rw [hacc] at hid
      rw [hout]
      exact ⟨fun hm => (ih.fresh hid).1 (AList.mem_erase.mp hm).2, (ih.fresh hid).2⟩
    · rw [hout]
      exact ih.closed (AList.mem_erase.mp hid).2
    · rw [hout]
      exact ih.ends
    · rw [hout]
      exact ih.wellFormed
  | step _ ord _ hP ih => exact ih.step hP

/-! ## The text of a request -/

/-- How the text goes back to the client. -/
inductive Delivery where
  | collected
  | events
  | grpc
  deriving DecidableEq, Repr

/-- The tokens of some outputs, chunk by chunk. -/
def tokenBatches (outputs : List RequestOutput) : List (List Token) :=
  outputs.flatMap fun output => output.outputs.map (·.tokenIds)

namespace Delivery

variable (decode : List Token → String)

/-- The text of the tokens so far, as this delivery decodes them. -/
def decoded : Delivery → List (List Token) → String
  | .collected, batches => decode batches.flatten
  | .events, batches | .grpc, batches => .ofList (chunkwise decode batches)

/-- The text that the client has got, if any. -/
def returned (tokenIds : List Token) : Delivery → List RequestOutput → Option String
  | .collected, outputs =>
    (submitAndCollect (fun ts => .ok (decode ts)) tokenIds outputs).toOption.map (·.text)
  | .events, outputs =>
    some (contentText (ChatStream.stream (fun ts => .ok (decode ts)) none outputs))
  | .grpc, outputs =>
    some (contentText (GrpcStream.stream (fun ts => .ok (decode ts)) none outputs).1)

theorem returned_collected (tokenIds : List Token) (outputs : List RequestOutput) :
    Delivery.collected.returned decode tokenIds outputs =
      (submitAndCollect (fun ts => .ok (decode ts)) tokenIds outputs).toOption.map (·.text) :=
  rfl

end Delivery

/-- One of the strings occurs in the text. -/
def Spells (stops : List String) (text : String) : Prop :=
  ∃ stop ∈ stops, stop.toList <:+: text.toList

instance (stops : List String) (text : String) : Decidable (Spells stops text) :=
  List.decidableBEx _ _

/-- Stop strings end the output: the client gets none of them, and the output at which the decoded
text first contains one is final. -/
structure StopsEnd (stops : List String) (decode : List Token → String) (d : Delivery)
    (tokenIds : List Token) (outputs : List RequestOutput) : Prop where
  returned : ∀ text ∈ d.returned decode tokenIds outputs, ¬ Spells stops text
  ends : ∀ os o, os ++ [o] <+: outputs →
    Spells stops (d.decoded decode (tokenBatches (os ++ [o]))) →
    (∀ os', os' <+: os → ¬ Spells stops (d.decoded decode (tokenBatches os'))) → o.finished = true

variable {decode : List Token → String} {d : Delivery} {tokenIds : List Token}
  {outputs : List RequestOutput}

theorem delivered_eq (h : EndsFinal outputs) : delivered outputs = outputs := by
  induction outputs with
  | nil => rfl
  | cons o os ih =>
    rw [delivered]
    split
    · rename_i hfin
      rw [h.1 hfin]
    · rw [ih h.2]

theorem returned_decoded (hnil : decode [] = "") (h : EndsFinal outputs) {text : String}
    (ht : text ∈ d.returned decode tokenIds outputs) :
    text = d.decoded decode (tokenBatches outputs) := by
  have hbatches : tokenChunks outputs = tokenBatches outputs := by
    rw [tokenChunks, delivered_eq h]
    rfl
  cases d with
  | collected =>
    rw [Delivery.returned_collected] at ht
    cases hc : submitAndCollect (fun ts => .ok (decode ts)) tokenIds outputs with
    | error e =>
      rw [hc] at ht
      cases ht
    | ok c =>
      rw [hc] at ht
      obtain rfl : c.text = text := Option.some.inj ht
      rw [submitAndCollect_text hc, hbatches]
      rfl
  | events =>
    obtain rfl := Option.some.inj ht
    rw [chatStream_text hnil, hbatches]
    rfl
  | grpc =>
    obtain rfl := Option.some.inj ht
    rw [grpcStream_eq, chatStream_text hnil, hbatches]
    rfl

theorem not_spells_empty {stops : List String} (hstops : ∀ s ∈ stops, s ≠ "") :
    ¬ Spells stops "" := by
  rintro ⟨stop, hs, hin⟩
  exact hstops stop hs (String.toList_eq_nil_iff.mp (List.infix_nil.mp hin))

theorem decoded_nil (hnil : decode [] = "") : d.decoded decode [] = "" := by
  cases d with
  | collected => exact hnil
  | events => rfl
  | grpc => rfl

theorem decoded_silent (hnil : decode [] = "") {os : List RequestOutput} {o : RequestOutput}
    {reason : Option FinishReason}
    (ho : o.outputs = [{ tokenIds := [], finishReason := reason }]) :
    d.decoded decode (tokenBatches (os ++ [o])) = d.decoded decode (tokenBatches os) := by
  have hbatches : tokenBatches (os ++ [o]) = tokenBatches os ++ [[]] := by
    simp [tokenBatches, ho]
  rw [hbatches]
  cases d with
  | collected => simp [Delivery.decoded]
  | events => simp [Delivery.decoded, chunkwise, hnil]
  | grpc => simp [Delivery.decoded, chunkwise, hnil]

/-- A request that ends without an error is answered. -/
theorem returned_isSome {os : List RequestOutput} {o : RequestOutput} {c : CompletionOutput}
    (hw : ∀ o ∈ os, o.WellFormed) (hopen : ∀ o ∈ os, o.finished = false)
    (ho : o.outputs = [c]) (hreason : c.finishReason ≠ some .error)
    (hfin : o.finished = true) : (d.returned decode tokenIds (os ++ [o])).isSome := by
  cases d with
  | events => rfl
  | grpc => rfl
  | collected =>
    have hlast : ∀ acc, ∃ acc', collectCompletion acc c = .ok acc' := by
      intro acc
      unfold collectCompletion
      dsimp only
      split
      · rename_i he
        exact absurd he hreason
      · exact ⟨_, rfl⟩
      · exact ⟨_, rfl⟩
    have hcollect : ∀ acc, ∃ acc', collect acc (os ++ [o]) = .ok acc' := by
      induction os with
      | nil =>
        intro acc
        obtain ⟨acc', hacc⟩ := hlast acc
        refine ⟨acc', ?_⟩
        rw [List.nil_append, collect, ho, List.foldlM_cons, hacc, hfin]
        rfl
      | cons o' os ih =>
        intro acc
        obtain ⟨hw', hws⟩ := List.forall_mem_cons.mp hw
        obtain ⟨hopen', hopens⟩ := List.forall_mem_cons.mp hopen
        obtain ⟨tokens, reason, hout, hsome, -⟩ := hw'
        obtain rfl : reason = none := by
          rw [hopen'] at hsome
          exact Option.isSome_eq_false_iff.mp hsome.symm |> Option.isNone_iff_eq_none.mp
        obtain ⟨acc', hacc⟩ := ih hws hopens (acc.1 ++ tokens, acc.2)
        refine ⟨acc', ?_⟩
        rw [List.cons_append, collect, hout, hopen']
        exact hacc
    obtain ⟨acc', hacc⟩ := hcollect ([], "length")
    rw [Delivery.returned_collected, submitAndCollect, hacc]
    rfl

/-! ## Requests with stop strings -/

/-- In every run the stop strings of a request end its output exactly if its tokens never spell
one: nothing else looks at them. -/
theorem EngineRun.stopsEnd_iff (H : HashFns) (cfg : Config) (E : Type) (hist : History E)
    (core : EngineCore E) (hrun : EngineRun H cfg (fun _ => True) (fun t => ∀ res,
      t.result H cfg = some res → (res.perRequestOutputs.map (·.requestId)).Nodup) hist core)
    (decode : List Token → String) (hnil : decode [] = "") (d : Delivery) (req : ApiRequest)
    (hstops : ∀ s ∈ req.stopStrings, s ≠ "") : ∀ r ∈ hist.added,
    r.samplingParams = req.samplingParams →
    (StopsEnd req.stopStrings decode d r.promptTokens
        (outputsFor r.requestId (hist.outputs H cfg)) ↔
      ∀ os, os <+: outputsFor r.requestId (hist.outputs H cfg) →
        ¬ Spells r.samplingParams.stop (d.decoded decode (tokenBatches os))) := by
  intro r _ hparams
  rw [hparams, req.samplingParams_stop]
  obtain ⟨-, -, hends, hwell⟩ := hrun.spoken r.requestId
  generalize outputsFor r.requestId (hist.outputs H cfg) = outputs at hends hwell ⊢
  constructor
  · rintro ⟨hret, hfirst⟩ os
    induction hlen : os.length using Nat.strong_induction_on generalizing os with
    | h n ih =>
      subst hlen
      intro hos hspells
      rcases List.eq_nil_or_concat os with rfl | ⟨os, o, rfl⟩
      · refine not_spells_empty hstops ?_
        rwa [show tokenBatches [] = [] from rfl, decoded_nil hnil] at hspells
      rw [List.concat_eq_append] at ih hos hspells
      have hbefore : ∀ os', os' <+: os →
          ¬ Spells req.stopStrings (d.decoded decode (tokenBatches os')) := by
        intro os' hos'
        refine ih os'.length ?_ os' rfl (hos'.trans ((List.prefix_append os [o]).trans hos))
        rw [List.length_append, List.length_singleton]
        exact Nat.lt_succ_of_le hos'.length_le
      -- the first output that spells one is final, so the request ends with it
      have hfin := hfirst os o hos hspells hbefore
      obtain ⟨rest, rfl⟩ := hos
      rw [List.append_assoc, List.singleton_append] at hends
      obtain ⟨hopen, hrest⟩ := hends.of_append hfin
      subst hrest
      rw [List.append_nil] at hwell hret
      obtain ⟨hos, ho⟩ := List.forall_mem_append.mp hwell
      obtain ⟨tokens, reason, hout, -, herr⟩ := ho o (List.mem_singleton_self o)
      by_cases hreason : reason = some .error
      · obtain rfl := herr hreason
        rw [decoded_silent hnil hout] at hspells
        exact hbefore os List.prefix_rfl hspells
      · have hsome : (d.returned decode r.promptTokens (os ++ [o])).isSome :=
          returned_isSome hos hopen hout hreason hfin
        obtain ⟨text, ht⟩ := Option.isSome_iff_exists.mp hsome
        have htext := returned_decoded hnil (.snoc hopen o) ht
        exact hret text ht (htext ▸ hspells)
  · intro hnone
    refine ⟨fun text ht => ?_, fun os o hos hspells _ => absurd hspells (hnone _ hos)⟩
    rw [returned_decoded hnil hends ht]
    exact hnone outputs List.prefix_rfl

/-- A chat request with the stop string `b`. -/
def stopRequest : ApiRequest := .chat { stop := some (.single "b") }

/-- An engine with that request. -/
def stopCore : EngineCore Unit :=
  ((EngineCore.new (smallConfig 8 false) () []).addRequest (smallConfig 8 false) constExecutor
    (stopRequest.toInferenceRequest 1 [5] 0)).2

/-- Its run of one step. -/
def stopHistory : History Unit where
  added := [stopRequest.toInferenceRequest 1 [5] 0]
  steps := [⟨stopCore, constExecutor, .id⟩]

/-- What the step says. -/
def stopOutput : RequestOutput where
  requestId := 1
  outputs := [{ tokenIds := [7], finishReason := none }]
  finished := false
  usage := ⟨1, 1, 2⟩

theorem engineRun_stop : EngineRun smallHash (smallConfig 8 false) (fun _ => True) (fun t => ∀ res,
    t.result smallHash (smallConfig 8 false) = some res →
      (res.perRequestOutputs.map (·.requestId)).Nodup) stopHistory
    (stopCore.step smallHash (smallConfig 8 false) constExecutor .id).2 := by
  refine .step True.intro .id (.addRequest True.intro (stopRequest.toInferenceRequest 1 [5] 0)
    (.new () []) List.not_mem_nil rfl) fun res hres => ?_
  obtain rfl : _ = res := Option.some.inj hres
  decide +kernel

theorem EngineRun.stopsEnd_small :
    StopsEnd stopRequest.stopStrings (fun ts => .ofList (ts.map fun _ => 'a')) .collected [5]
        (outputsFor 1 (stopHistory.outputs smallHash (smallConfig 8 false))) ↔
      ∀ os, os <+: outputsFor 1 (stopHistory.outputs smallHash (smallConfig 8 false)) →
        ¬ Spells ["b"] (Delivery.collected.decoded (fun ts => .ofList (ts.map fun _ => 'a'))
          (tokenBatches os)) :=
  EngineRun.stopsEnd_iff smallHash (smallConfig 8 false) Unit stopHistory _ engineRun_stop _ rfl
    .collected stopRequest (by decide) _ (List.mem_singleton_self _) rfl

/-- When every token is the letter `b`, the request goes on behind its first token. -/
theorem EngineRun.not_stopsEnd : ¬ ∀ (H : HashFns) (cfg : Config) (E : Type) (hist : History E)
    (core : EngineCore E), EngineRun H cfg (fun _ => True) (fun t => ∀ res,
      t.result H cfg = some res → (res.perRequestOutputs.map (·.requestId)).Nodup) hist core →
    ∀ decode : List Token → String, decode [] = "" → ∀ (d : Delivery) (req : ApiRequest),
    req.stopStrings ≠ [] → (∀ s ∈ req.stopStrings, s ≠ "") → ∀ r ∈ hist.added,
    r.samplingParams = req.samplingParams →
    StopsEnd req.stopStrings decode d r.promptTokens
      (outputsFor r.requestId (hist.outputs H cfg)) := by
  intro h
  have hs := h smallHash (smallConfig 8 false) Unit stopHistory _ engineRun_stop
    (fun ts => .ofList (ts.map fun _ => 'b')) rfl .collected stopRequest (by decide) (by decide) _
    (List.mem_singleton_self _) rfl
  have hout : outputsFor 1 (stopHistory.outputs smallHash (smallConfig 8 false)) =
      [stopOutput] := by
    decide +kernel
  have hfin := hs.ends [] stopOutput ?_ (by decide +kernel) fun os' hos' => ?_
  · cases hfin
  · change [stopOutput] <+: outputsFor 1 _
    rw [hout]
  · obtain rfl := List.prefix_nil.mp hos'
    decide +kernel

end Rllm
