import Rllm.Engine.Bookkeeping

/-! # Prompts are fed completely

A request is fed its prompt from the first token on, and nothing is sampled for
it before the whole prompt is fed, as long as every admitted prompt fits into
its step. A prompt that is cut stays cut: the request counts as running, so the
next step decodes it.
-/

namespace Rllm

open ModelRunner UniProc

variable {H : HashFns} {cfg : Config} {P : PairStep → Prop} {hist : PairHistory} {p : Pair}
  {t : PairStep} {id : RequestId} {fed : List (ℕ × Token)} {w : RunnerRequestState}

/-! ## Nothing is drafted -/

/-- No request speculates. -/
def PairHistory.Plain (hist : PairHistory) : Prop :=
  ∀ r ∈ hist.added, r.samplingParams.specTokens = 0

theorem Matched.plain (h : Matched H cfg hist t.pair)
    (hrun : SchedRun H cfg hist.added t.pair.sched) (hplain : hist.Plain) {mp : ModelRunner}
    {drafts : AList fun _ : RequestId => List Token} (hd : Drafted t.pair.runner drafts mp)
    (hw : t.pair.runner.requestStates.lookup id = some w) :
    (mp.speculativeDrafts.lookup id).getD [] = [] := by
  obtain ⟨r, hr, -, hparams⟩ := h.states id w hw
  obtain ⟨r', hr', rfl⟩ := Option.map_eq_some_iff.mp hr
  have hle := h.drafts_le hd hparams
  have hzero : r'.request.samplingParams.specTokens = 0 :=
    hplain _ (hrun.partition.2 id r' hr').1
  exact List.eq_nil_of_length_eq_zero (Nat.le_zero.mp (hzero ▸ hle))

theorem Matched.draftsPredicted (h : Matched H cfg hist t.pair)
    (hrun : SchedRun H cfg hist.added t.pair.sched) (hplain : hist.Plain) :
    t.DraftsPredicted H cfg := by
  unfold PairStep.DraftsPredicted
  split
  · rename_i drafts batch hprep
    intro x hx _
    have hout : ((t.out H cfg).scheduledNew ++ (t.out H cfg).scheduledRunning).Nodup :=
      PairStep.out_nodup hrun.partition.1
    obtain ⟨-, mp, hd, hbuilt⟩ := prepare_ok hout hprep
    have hmem : x.1 ∈ batch.seqs := List.fst_mem_of_mem_zipIdx hx
    have hseq := InputBatch.seqOf_of_mem (hout.sublist hbuilt.sublist) hmem
    obtain ⟨w, hw⟩ := (hseq ▸ hbuilt.feeds _ (hbuilt.mem_of_seqOf hseq)).known
    rw [states_clean_congr hd.states, states_clean, Option.ite_none_left_eq_some] at hw
    unfold UniProc.Predicted
    split
    · rename_i ds logits hds _
      have hnil := h.plain hrun hplain hd hw.2
      rw [hd.kept _ ds hds, Option.getD_some] at hnil
      rw [hnil]
      exact List.nil_prefix
    · exact True.intro
  · exact True.intro

/-- Every admitted prompt fits into its step. -/
def PairStep.Whole (H : HashFns) (cfg : Config) (t : PairStep) : Prop :=
  t.pair.sched.StepAll H cfg (.wholePrompts H cfg) t.ord

theorem PairRun.accepting (h : PairRun H cfg (·.Whole H cfg) hist p) (hplain : hist.Plain) :
    PairRun H cfg (·.Accepting H cfg) hist p := by
  induction h with
  | new => exact .new
  | addRequest r _ hfresh hok ih =>
    exact .addRequest r (ih fun r' hr' => hplain r' (List.mem_append_left _ hr')) hfresh hok
  | abortRequest id _ ih => exact .abortRequest id (ih hplain)
  | control _ hc ih => exact .control (ih hplain) hc
  | step ops ord hrun hprop ht ih =>
    exact .step ops ord (ih hplain) hprop
      ⟨ht, Matched.draftsPredicted hrun.matched hrun.schedRun hplain⟩

/-! ## What is fed -/

/-- Nothing yet, or the prompt and some later tokens, from the first position on. -/
def FedPrompt (prompt : List Token) (fed : List (ℕ × Token)) (emitted : List Token) : Prop :=
  fed = [] ∧ emitted = [] ∨
    ∃ later, fed = (List.range (prompt ++ later).length).zip (prompt ++ later)

/-- Every request is told its prompt, and the runner counts what was fed. -/
structure Fed (H : HashFns) (cfg : Config) (hist : PairHistory) (p : Pair) : Prop where
  told : ∀ r ∈ hist.added, FedPrompt r.promptTokens (hist.fed H cfg r.requestId)
    (hist.emitted H cfg r.requestId)
  length : ∀ id w, p.runner.requestStates.lookup id = some w →
    (hist.fed H cfg id).length = w.numComputedTokens

theorem FedPrompt.silent {prompt emitted : List Token} (h : FedPrompt prompt fed emitted) :
    FedPrompt prompt (fed ++ []) (emitted ++ []) := by
  rwa [List.append_nil, List.append_nil]

theorem FedPrompt.first {out : SchedulerOutput} {prompt : List Token} {seq : BatchSeq}
    (hs : SeqSpec cfg.cache.blockSize out id 0 prompt true seq) (emitted : List Token) :
    FedPrompt prompt seq.pairs emitted := by
  refine Or.inr ⟨[], ?_⟩
  rw [BatchSeq.pairs, hs.positions_eq, hs.tokenIds_eq, List.append_nil, List.range_eq_range']

theorem FedPrompt.later {out : SchedulerOutput} {prompt emitted : List Token} {seq : BatchSeq}
    (h : FedPrompt prompt fed emitted) {start : ℕ} {token : Token} (hpos : 0 < start)
    (hlen : fed.length = start) (hs : SeqSpec cfg.cache.blockSize out id start [token] false seq)
    (emitted' : List Token) : FedPrompt prompt (fed ++ seq.pairs) emitted' := by
  rcases h with ⟨rfl, -⟩ | ⟨later, rfl⟩
  · rw [List.length_nil] at hlen
    omega
  · have hstart : start = (prompt ++ later).length := by simpa using hlen.symm
    refine Or.inr ⟨later ++ [token], ?_⟩
    rw [BatchSeq.pairs, hs.positions_eq, hs.tokenIds_eq, hstart, ← List.append_assoc]
    generalize prompt ++ later = told
    rw [List.length_append, List.length_singleton, List.range_succ, List.zip_append (by simp)]
    rfl

theorem Fed.snoc (h : Fed H cfg hist t.pair) (hbooks : BooksRight H cfg hist t.pair)
    (hm : Matched H cfg hist t.pair) (hrun : SchedRun H cfg hist.added t.pair.sched)
    (hoff : cfg.cache.enablePrefixCaching = false) (hplain : hist.Plain)
    (hne : ∀ r ∈ hist.added, r.promptTokens ≠ []) (hwhole : t.Whole H cfg) {mp : ModelRunner}
    {drafts : AList fun _ : RequestId => List Token} (hd : Drafted t.pair.runner drafts mp)
    {r : InferenceRequest} (hr : r ∈ hist.added) {seq : BatchSeq}
    (hid : r.requestId ∈ (t.out H cfg).scheduledNew ++ (t.out H cfg).scheduledRunning)
    (hf : Feeds cfg.cache.blockSize (t.out H cfg) (mp.clean (t.out H cfg)) r.requestId (some seq))
    (emitted : List Token) :
    FedPrompt r.promptTokens (hist.fed H cfg r.requestId ++ seq.pairs) emitted ∧
      ∀ w, t.pair.runner.requestStates.lookup r.requestId = some w → ∀ drafts tokens,
        (hist.fed H cfg r.requestId ++ seq.pairs).length =
          (ran drafts seq tokens w).numComputedTokens := by
  obtain ⟨w, hw, hseq⟩ := hbooks.feeds hm hrun hoff hwhole hd.states hid hf
  have hlen := h.length _ w hw
  have hprompt := hm.prompt_eq hrun hr hw
  rcases hseq with ⟨hfed, hfresh, hs⟩ | ⟨⟨granted, hb⟩, hs⟩
  · rw [hfed, List.nil_append]
    refine ⟨.first (hprompt ▸ hs) emitted, fun w₁ hw₁ drafts tokens => ?_⟩
    obtain rfl := Option.some.inj (hw₁.symm.trans hw)
    rw [ran, advanceBy, hs.isPrefill_eq, hs.tokenIds_eq, BatchSeq.pairs, hs.positions_eq,
      hs.tokenIds_eq, hfresh]
    simp
  · rw [hm.plain hrun hplain hd hw] at hs
    have hpos : 0 < w.numComputedTokens := by
      have hp := List.length_pos_iff.mpr (hne r hr)
      have hg := List.length_pos_iff.mpr hb.generated
      rw [hb.computed_eq, hprompt]
      omega
    refine ⟨(h.told r hr).later hpos hlen hs emitted, fun w₁ hw₁ drafts tokens => ?_⟩
    obtain rfl := Option.some.inj (hw₁.symm.trans hw)
    rw [ran, advanceBy, hs.tokenIds_eq, List.length_append, hlen, BatchSeq.pairs, hs.positions_eq,
      hs.tokenIds_eq]
    simp

theorem Fed.step (h : Fed H cfg hist t.pair) (hbooks : BooksRight H cfg hist t.pair)
    (hm : Matched H cfg hist t.pair) (hrun : SchedRun H cfg hist.added t.pair.sched)
    (hprop : Proposes (t.out H cfg) t.pair.runner)
    (hoff : cfg.cache.enablePrefixCaching = false) (hplain : hist.Plain)
    (hne : ∀ r ∈ hist.added, r.promptTokens ≠ []) (hwhole : t.Whole H cfg) :
    Fed H cfg (hist.snoc H cfg t) (t.next H cfg) := by
  have hp := hrun.partition.1
  constructor
  · intro r hr
    have hserved := PairStep.served hp hprop r.requestId
    rw [PairHistory.fed_snoc, PairHistory.emitted_snoc]
    generalize (t.next H cfg).runner.requestStates.lookup r.requestId = w?,
      t.fed H cfg r.requestId = fed', t.emitted H cfg r.requestId = tokens at hserved ⊢
    cases hserved with
    | idle => exact (h.told r hr).silent
    | @failed seq? _ hfeeds =>
      cases seq? with
      | none => exact (h.told r hr).silent
      | some seq =>
        obtain ⟨hid, drafts, mp, hd, hf⟩ := hfeeds seq rfl
        simpa using (h.snoc hbooks hm hrun hoff hplain hne hwhole hd hr hid hf _).1
    | ran _ _ hid hd hf =>
      exact (h.snoc hbooks hm hrun hoff hplain hne hwhole hd hr hid hf _).1
  · intro id w' hw'
    obtain ⟨w, hw, -, -, -, hkeeps⟩ := (PairStep.served hp hprop id).keeps hw'
    obtain ⟨r₀, hr₀, -⟩ := hm.states id w hw
    obtain ⟨r', hr', -⟩ := Option.map_eq_some_iff.mp hr₀
    obtain ⟨hadd, hid', -⟩ := hrun.partition.2 id r' hr'
    rw [PairHistory.fed_snoc]
    cases hkeeps with
    | idle _ he hfed =>
      subst he
      rw [hfed, List.append_nil]
      exact h.length id _ hw
    | ran _ _ hid hd hf _ he hfed =>
      subst he hid'
      rw [hfed]
      exact (h.snoc hbooks hm hrun hoff hplain hne hwhole hd hadd hid hf []).2 _ hw _ _

theorem Fed.addRequest (h : Fed H cfg hist p) (hm : Matched H cfg hist p) {r : InferenceRequest}
    (hfresh : r.requestId ∉ hist.accepted)
    (hok : (UniProc.addRequest r.requestId r.promptTokens r.samplingParams p.runner).1 = .ok ()) :
    Fed H cfg { hist with added := hist.added ++ [r] } (p.addRequest cfg r) := by
  obtain ⟨hfed, hem⟩ : hist.fed H cfg r.requestId = [] ∧ hist.emitted H cfg r.requestId = [] := by
    by_contra hn
    exact hfresh (hm.served _ (not_and_or.mp hn))
  constructor
  · intro r' hr'
    rcases List.mem_append.mp hr' with hr' | hr'
    · exact h.told r' hr'
    · obtain rfl := List.mem_singleton.mp hr'
      exact Or.inl ⟨hfed, hem⟩
  · intro i w hw
    rw [Pair.addRequest, addRequest_ok hok] at hw
    simp only [setSamplingParams, ModelRunner.addRequest, lookup_insert_eq] at hw
    split at hw
    · rename_i hi
      obtain rfl := Option.some.inj hw
      subst hi
      exact congrArg List.length hfed
    · exact h.length i w hw

theorem PairRun.allFed (h : PairRun H cfg (·.Whole H cfg) hist p)
    (hoff : cfg.cache.enablePrefixCaching = false) (hplain : hist.Plain)
    (hne : ∀ r ∈ hist.added, r.promptTokens ≠ []) : Fed H cfg hist p := by
  induction h with
  | new =>
    refine ⟨fun r hr => ?_, fun id w hw => ?_⟩
    · cases hr
    · cases hw
  | @addRequest hist p r hrun hfresh hok ih =>
    have hold : ∀ r' ∈ hist.added, r' ∈ hist.added ++ [r] := fun r' => List.mem_append_left [r]
    exact (ih (fun r' hr' => hplain r' (hold r' hr')) fun r' hr' => hne r' (hold r' hr')).addRequest
      hrun.matched hfresh hok
  | abortRequest id _ ih =>
    obtain ⟨htold, hlen⟩ := ih hplain hne
    refine ⟨htold, fun i w hw => hlen i w ?_⟩
    rw [Pair.abortRequest, removeRequest, lookup_erase_eq, Option.ite_none_left_eq_some] at hw
    exact hw.2
  | control _ _ ih =>
    obtain ⟨htold, hlen⟩ := ih hplain hne
    exact ⟨htold, hlen⟩
  | step ops ord hrun hprop hwhole ih =>
    exact (ih hplain hne).step ((hrun.accepting hplain).booksRight hoff hne) hrun.matched
      hrun.schedRun hprop hoff hplain hne hwhole

/-! ## Complete prefills -/

/-- The positions fed for a request have no gap and no repetition, its prompt stands at the first of
them, and no token was sampled or stored before the whole prompt was fed. -/
structure PrefillComplete (prompt : List Token) (fed : List (ℕ × Token))
    (emitted stored : List Token) : Prop where
  positions_eq : fed.map Prod.fst = List.range fed.length
  prompt_eq : ∀ pos token, (pos, token) ∈ fed → pos < prompt.length → prompt[pos]? = some token
  emitted_after : emitted ≠ [] → prompt.length ≤ fed.length
  stored_after : stored ≠ [] → prompt.length ≤ fed.length

theorem FedPrompt.complete {prompt emitted stored : List Token} (h : FedPrompt prompt fed emitted)
    (hst : stored ≠ [] → prompt.length ≤ fed.length) :
    PrefillComplete prompt fed emitted stored := by
  rcases h with ⟨rfl, rfl⟩ | ⟨later, rfl⟩
  · exact ⟨rfl, fun pos token hmem => (List.not_mem_nil hmem).elim, fun h => absurd rfl h, hst⟩
  · refine ⟨?_, fun pos token hmem hpos => ?_, fun _ => ?_, hst⟩
    · rw [List.map_fst_zip (by simp)]
      simp
    · obtain ⟨i, hi⟩ := List.mem_iff_getElem?.mp hmem
      obtain ⟨hr, ht⟩ := List.getElem?_zip_eq_some.mp hi
      obtain ⟨-, rfl⟩ : i < (prompt ++ later).length ∧ i = pos := by
        simpa [List.getElem?_eq_some_iff] using hr
      rwa [List.getElem?_append_left hpos] at ht
    · simp

/-- Without a prefix cache and without speculation, if every prompt is non-empty and every admitted
prompt fits into its step, then prefills are complete. -/
theorem PairRun.prefillComplete (H : HashFns) (cfg : Config)
    (hoff : cfg.cache.enablePrefixCaching = false) (hist : PairHistory) (p : Pair)
    (hrun : PairRun H cfg (·.Whole H cfg) hist p) (hplain : hist.Plain)
    (hne : ∀ r ∈ hist.added, r.promptTokens ≠ []) :
    ∀ r ∈ hist.added, PrefillComplete r.promptTokens (hist.fed H cfg r.requestId)
      (hist.emitted H cfg r.requestId) (p.runner.getContextTokenIds r.requestId).2 := by
  intro r hr
  have hfed := hrun.allFed hoff hplain hne
  refine (hfed.told r hr).complete fun hstored => ?_
  cases hw : p.runner.requestStates.lookup r.requestId with
  | none => simp [getContextTokenIds, hw] at hstored
  | some w =>
    replace hstored : w.generatedTokenIds ≠ [] := by simpa [getContextTokenIds, hw] using hstored
    obtain ⟨r₀, hr₀, -⟩ := hrun.matched.states _ w hw
    rw [hfed.length _ w hw, ← hrun.matched.prompt_eq hrun.schedRun hr hw]
    cases (hrun.accepting hplain).booksRight hoff hne _ w r₀ hw hr₀ with
    | fresh _ hfresh =>
      rw [hfresh] at hstored
      exact absurd rfl hstored
    | going _ hb =>
      have hpos := List.length_pos_iff.mpr hstored
      rw [hb.computed_eq]
      omega

/-- A request with the prompt `[5, 6]`, about to be prefilled. -/
def smallPrefill (cfg : Config) : PairStep :=
  ⟨(Pair.new cfg).addRequest cfg (smallRequest 1 [5, 6]), constModel, .id⟩

def smallHistory (cfg : Config) : PairHistory :=
  { added := [smallRequest 1 [5, 6]] : PairHistory }.snoc smallHash cfg (smallPrefill cfg)

theorem pairRun_smallPrefill {P : PairStep → Prop} (cfg : Config) (hP : P (smallPrefill cfg))
    (hprop : Proposes ((smallPrefill cfg).out smallHash cfg) (smallPrefill cfg).pair.runner) :
    PairRun smallHash cfg P (smallHistory cfg) ((smallPrefill cfg).next smallHash cfg) :=
  .step constModel .id
    (.addRequest (smallRequest 1 [5, 6]) .new (by simp [PairHistory.accepted]) rfl) hprop hP

theorem PairRun.prefillComplete_small : PrefillComplete [5, 6]
    ((smallHistory (smallConfig 8 false)).fed smallHash (smallConfig 8 false) 1)
    ((smallHistory (smallConfig 8 false)).emitted smallHash (smallConfig 8 false) 1)
    (((smallPrefill (smallConfig 8 false)).next smallHash
      (smallConfig 8 false)).runner.getContextTokenIds 1).2 :=
  PairRun.prefillComplete smallHash (smallConfig 8 false) rfl (smallHistory (smallConfig 8 false)) _
    (pairRun_smallPrefill _ (fun _ => ⟨fun _ _ _ _ => True.intro,
      StepState.runningAll_of_forall (fun _ _ => True.intro) _ _, by decide +kernel⟩) ⟨_, rfl⟩)
    (by unfold PairHistory.Plain; decide) (by decide) (smallRequest 1 [5, 6]) (by decide)

/-- Chunks of one token. -/
def chunkedConfig : Config := { smallConfig 8 false with
  scheduler := { (smallConfig 8 false).scheduler with
    enableChunkedPrefill := true, longPrefillTokenThreshold := 1 } }

/-- Half of the prompt is fed, and a token is sampled. -/
theorem PairRun.not_prefillComplete : ¬ ∀ (H : HashFns) (cfg : Config),
    cfg.cache.enablePrefixCaching = false → ∀ (hist : PairHistory) (p : Pair),
    PairRun H cfg (fun _ => True) hist p → hist.Plain →
    (∀ r ∈ hist.added, r.promptTokens ≠ [] ∧ r.promptTokens.length ≤ cfg.maxModelLen) →
    ∀ r ∈ hist.added, r.requestId ∉ hist.preempted H cfg → r.requestId ∉ hist.aborted →
      PrefillComplete r.promptTokens (hist.fed H cfg r.requestId)
        (hist.emitted H cfg r.requestId) (p.runner.getContextTokenIds r.requestId).2 := by
  intro h
  have hc := h smallHash chunkedConfig rfl (smallHistory chunkedConfig) _
    (pairRun_smallPrefill chunkedConfig True.intro ⟨_, rfl⟩)
    (by unfold PairHistory.Plain; decide) (by decide) (smallRequest 1 [5, 6]) (by decide)
    (by decide +kernel) (by decide +kernel)
  have hlen := hc.emitted_after (by decide +kernel)
  revert hlen
  decide +kernel

end Rllm
