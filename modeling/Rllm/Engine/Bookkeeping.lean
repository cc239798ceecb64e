import Rllm.Engine.Lockstep

/-! # The computed tokens of the runner

With every prompt prefilled as a whole and every draft accepted, the runner has
computed all tokens of a request but the newest one, never more than the
scheduler has granted, and what was fed last at each of these positions is the
token of the request. A rejected draft breaks this: the runner counts every
token that it fed.
-/

namespace Rllm

open ModelRunner UniProc

variable {H : HashFns} {cfg : Config} {P : PairStep → Prop} {hist : PairHistory} {p : Pair}
  {t : PairStep} {id : RequestId}

/-! ## Whole prompts -/

/-- A prompt of `n` tokens is cut neither by the budget nor by the chunk size nor by the model
length. -/
structure StepState.FitsWhole (cfg : Config) (st : StepState) (n : ℕ) : Prop where
  budget : n ≤ cfg.scheduler.maxNumScheduledTokens - st.budgetUsed
  chunk : cfg.scheduler.enableChunkedPrefill = true → n ≤ cfg.scheduler.longPrefillTokenThreshold
  model : n ≤ cfg.maxModelLen

/-- Every request that is admitted fits with its whole prompt. -/
def Guards.wholePrompts (H : HashFns) (cfg : Config) : Guards where
  finishes _ := True
  decodes _ _ := True
  admits st := ∀ a r, st.admission H cfg = some a → st.sched.requests.lookup a.requestId = some r →
    st.FitsWhole cfg r.promptTokenIds.length

instance (st : StepState) (n : ℕ) : Decidable (st.FitsWhole cfg n) :=
  decidable_of_iff (n ≤ cfg.scheduler.maxNumScheduledTokens - st.budgetUsed ∧
      (cfg.scheduler.enableChunkedPrefill = true → n ≤ cfg.scheduler.longPrefillTokenThreshold) ∧
      n ≤ cfg.maxModelLen) ⟨fun h => ⟨h.1, h.2.1, h.2.2⟩, fun h => ⟨h.budget, h.chunk, h.model⟩⟩

instance : DecidablePred (Guards.wholePrompts H cfg).admits := fun st =>
  decidable_of_iff (∀ a ∈ st.admission H cfg, ∀ r ∈ st.sched.requests.lookup a.requestId,
      st.FitsWhole cfg r.promptTokenIds.length)
    ⟨fun h a r ha hr => h a ha r hr, fun h a ha r hr => h a r ha hr⟩

theorem StepState.FitsWhole.prefillTokens {st : StepState} {n : ℕ} (h : st.FitsWhole cfg n) :
    st.prefillTokens cfg n 0 = n := by
  have hb := h.budget
  have hm := h.model
  unfold StepState.prefillTokens
  dsimp only
  split
  · rename_i hc
    have := h.chunk hc
    omega
  · omega

theorem StepState.admission_off (hoff : cfg.cache.enablePrefixCaching = false) {st : StepState}
    {a : Admission} (ha : st.admission H cfg = some a) {r : SchedulerRequest}
    (hr : st.sched.requests.lookup a.requestId = some r) :
    a.numTokens = if r.promptTokenIds.length - a.numCached = 0 then 0
      else st.prefillTokens cfg r.promptTokenIds.length a.numCached := by
  unfold admission selection at ha
  unfold Scheduler.selectWaitingRequest at ha
  cases hpeek : st.sched.waiting.peek with
  | none => simp [hpeek] at ha
  | some first =>
    simp only [hpeek, hoff, StepState.cachedOf, Bool.not_false, if_true, Bool.false_and,
      Bool.false_eq_true, if_false] at ha
    split at ha
    · rename_i hz
      obtain rfl := Option.some.inj ha
      simp only [hr, Option.map_some, Option.getD_some] at hz
      simp only [hr, Option.map_some, Option.getD_some, hz, if_true]
    · rename_i hz
      split at ha
      · cases ha
      · split at ha
        · obtain rfl := Option.some.inj ha
          simp only [hr, Option.map_some, Option.getD_some] at hz
          simp only [hr, Option.map_some, Option.getD_some, hz, if_false]
          rfl
        · cases ha

theorem Granted.whole (hoff : cfg.cache.enablePrefixCaching = false) {r : Progress} {n : ℕ}
    {preempted : Bool} (hg : Granted H cfg (.wholePrompts H cfg) ⟨id, 0, n⟩ r preempted) :
    n = r.promptTokenIds.length := by
  obtain ⟨st₀, hfits, ha, -, r₀, hr₀, -, hprompt⟩ := hg
  have htokens := StepState.admission_off hoff ha hr₀
  have hn : n = r₀.promptTokenIds.length := by
    rw [(hfits _ r₀ ha hr₀).prefillTokens, Nat.sub_zero] at htokens
    split at htokens
    · rename_i hz
      exact htokens.trans hz.symm
    · exact htokens
  rw [hn, hprompt]

/-! ## What was fed last -/

/-- The token fed last at a position. -/
def lastFed (fed : List (ℕ × Token)) (pos : ℕ) : Option Token := fed.reverse.lookup pos

theorem lastFed_append (fed fed' : List (ℕ × Token)) (pos : ℕ) :
    lastFed (fed ++ fed') pos = (lastFed fed' pos).or (lastFed fed pos) := by
  rw [lastFed, List.reverse_append, List.lookup_append]
  rfl

theorem lastFed_range' (start : ℕ) (tokens : List Token) (pos : ℕ) :
    lastFed ((List.range' start tokens.length).zip tokens) pos =
      if start ≤ pos then tokens[pos - start]? else none := by
  induction tokens generalizing start with
  | nil => simp [lastFed]
  | cons token tokens ih =>
    have hsplit : (List.range' start (token :: tokens).length).zip (token :: tokens) =
        [(start, token)] ++ (List.range' (start + 1) tokens.length).zip tokens := rfl
    rw [hsplit, lastFed_append, ih]
    rcases Nat.lt_trichotomy pos start with hlt | rfl | hgt
    · have hne : (pos == start) = false := by simpa using hlt.ne
      rw [if_neg (by omega), if_neg (by omega)]
      simp [lastFed, List.lookup_cons, hne]
    · simp [lastFed]
    · have hsub : pos - start = pos - (start + 1) + 1 := by omega
      have hne : (pos == start) = false := by simpa using hgt.ne'
      rw [if_pos (by omega), if_pos (by omega), hsub, List.getElem?_cons_succ]
      simp [lastFed, List.lookup_cons, hne]

/-! ## One request -/

/-- The books of a request with sampled tokens: all but the newest token are computed, within what
the scheduler granted, and the cache holds the tokens of the request. -/
structure Bookkept (fed : List (ℕ × Token)) (w : RunnerRequestState) (granted : ℕ) : Prop where
  generated : w.generatedTokenIds ≠ []
  computed_eq : w.numComputedTokens = w.promptTokenIds.length + w.generatedTokenIds.length - 1
  computed_le : w.numComputedTokens ≤ granted
  kept : ∀ pos < w.numComputedTokens,
    lastFed fed pos = (w.promptTokenIds ++ w.generatedTokenIds)[pos]?

variable {fed : List (ℕ × Token)} {w : RunnerRequestState} {granted : ℕ}

theorem Bookkept.lastToken_eq (h : Bookkept fed w granted) :
    (w.promptTokenIds ++ w.generatedTokenIds)[w.numComputedTokens]? = some (lastToken w) := by
  have hlast : w.generatedTokenIds.getLast? = some (lastToken w) := by
    rw [lastToken, List.getLast?_eq_some_getLast h.generated]
    rfl
  rw [← hlast, ← List.getLast?_append_of_ne_nil w.promptTokenIds h.generated,
    List.getLast?_eq_getElem?, List.length_append, h.computed_eq]

theorem Bookkept.decode (h : Bookkept fed w granted) {drafts kept : List Token} {k : ℕ}
    (hkept : kept <+: drafts) (hk : kept.length < k) (bonus : Token) :
    Bookkept (fed ++ (List.range' w.numComputedTokens (lastToken w :: drafts).length).zip
        (lastToken w :: drafts))
      { w with
        generatedTokenIds := w.generatedTokenIds ++ (kept ++ [bonus])
        numComputedTokens := w.numComputedTokens + (kept.length + 1) } (granted + k) := by
  have hlen := List.length_pos_iff.mpr h.generated
  have hc := h.computed_eq
  have hle := h.computed_le
  refine ⟨by simp, ?_, ?_, fun pos hpos => ?_⟩
  · simp only [List.length_append, List.length_singleton]
    omega
  · dsimp only
    omega
  · dsimp only at hpos ⊢
    have hlast := h.lastToken_eq
    have hold := h.kept pos
    have hfull : (w.promptTokenIds ++ w.generatedTokenIds).length = w.numComputedTokens + 1 := by
      rw [List.length_append]
      omega
    rw [lastFed_append, lastFed_range', ← List.append_assoc]
    generalize w.promptTokenIds ++ w.generatedTokenIds = full at hlast hold hfull ⊢
    split
    · rename_i hge
      have hnew : (lastToken w :: drafts)[pos - w.numComputedTokens]? =
          (full ++ (kept ++ [bonus]))[pos]? := by
        rcases hge.eq_or_lt with rfl | hlt
        · rw [Nat.sub_self, List.getElem?_append_left (by omega), hlast]
          rfl
        · obtain ⟨rest, rfl⟩ := hkept
          have hsub : pos - w.numComputedTokens = pos - full.length + 1 := by omega
          have hright : full.length ≤ pos := by omega
          rw [hsub, List.getElem?_cons_succ, List.getElem?_append_right hright,
            List.getElem?_append_left (by omega), List.getElem?_append_left (by omega)]
      have hsome : ((full ++ (kept ++ [bonus]))[pos]?).isSome := by
        rw [List.getElem?_eq_getElem]
        · rfl
        · simp only [List.length_append, List.length_singleton]
          omega
      rw [hnew]
      exact Option.or_of_isSome hsome
    · rename_i hlt
      rw [Option.none_or, hold (not_le.mp hlt), List.getElem?_append_left (by omega)]

theorem Bookkept.prefill (prompt : List Token) (token : Token) :
    Bookkept ((List.range' 0 prompt.length).zip prompt)
      { promptTokenIds := prompt, generatedTokenIds := [token],
        numComputedTokens := prompt.length } prompt.length := by
  refine ⟨by simp, by simp, le_rfl, fun pos hpos => ?_⟩
  rw [lastFed_range', if_pos (Nat.zero_le _), Nat.sub_zero]
  exact (List.getElem?_append_left hpos).symm

/-! ## Every step -/

/-- The model predicts the drafts of the `i`-th sequence, if it has any. -/
def UniProc.Predicted (ops : ModelOps) (drafts : AList fun _ : RequestId => List Token)
    (batch : InputBatch) (i : ℕ) (seq : BatchSeq) : Prop :=
  match drafts.lookup seq.requestId, ops.positionLogits batch i with
  | some ds, .ok logits => ds <+: (logits ++
      List.replicate (seq.tokenIds.length - logits.length) ops.zeroLogits).map ops.argmax
  | _, _ => True

instance (ops : ModelOps) (drafts : AList fun _ : RequestId => List Token) (batch : InputBatch)
    (i : ℕ) (seq : BatchSeq) : Decidable (UniProc.Predicted ops drafts batch i seq) := by
  unfold UniProc.Predicted
  split <;> infer_instance

/-- The model predicts every draft that is verified in the execution of the step. -/
def PairStep.DraftsPredicted (H : HashFns) (cfg : Config) (t : PairStep) : Prop :=
  match t.prepared H cfg with
  | .ok (drafts, batch) => ∀ x ∈ batch.seqs.zipIdx, x.1.isPrefill = false →
    UniProc.Predicted t.ops drafts batch x.2 x.1
  | .error _ => True

instance (t : PairStep) : Decidable (t.DraftsPredicted H cfg) := by
  unfold PairStep.DraftsPredicted
  split <;> infer_instance

theorem PairStep.DraftsPredicted.of_seq (h : t.DraftsPredicted H cfg)
    {drafts : AList fun _ : RequestId => List Token} {batch : InputBatch} {seq : BatchSeq} {i : ℕ}
    {ds : List Token} {logits : List t.ops.Logits}
    (hprep : t.prepared H cfg = .ok (drafts, batch)) (hi : batch.seqs[i]? = some seq)
    (hp : seq.isPrefill = false) (hl : drafts.lookup seq.requestId = some ds)
    (hlogits : t.ops.positionLogits batch i = .ok logits) : ds <+: (logits ++
      List.replicate (seq.tokenIds.length - logits.length) t.ops.zeroLogits).map t.ops.argmax := by
  rw [DraftsPredicted, hprep] at h
  have hx := h (seq, i) (List.mem_zipIdx_iff_getElem?.mpr hi) hp
  rwa [UniProc.Predicted, hl, hlogits] at hx

/-- Prompts are prefilled as a whole, and drafts are accepted. -/
structure PairStep.Accepting (H : HashFns) (cfg : Config) (t : PairStep) : Prop where
  whole : t.pair.sched.StepAll H cfg (.wholePrompts H cfg) t.ord
  predicted : t.DraftsPredicted H cfg

/-- A request of the runner has not been scheduled yet, or its books are right. -/
inductive Standing (fed : List (ℕ × Token)) (waiting : Bool) (w : RunnerRequestState)
    (granted : ℕ) : Prop
  | fresh (hq : waiting = true) (hw : w = { promptTokenIds := w.promptTokenIds })
      (hg : granted = 0) (hfed : fed = [])
  | going (hq : waiting = false) (hb : Bookkept fed w granted)

def BooksRight (H : HashFns) (cfg : Config) (hist : PairHistory) (p : Pair) : Prop :=
  ∀ id w r, p.runner.requestStates.lookup id = some w → (p.sched.place id).progress = some r →
    Standing (hist.fed H cfg id) (p.sched.place id).waiting w r.numComputedTokens

theorem Standing.of_waiting {waiting : Bool} (h : Standing fed waiting w granted)
    (hq : waiting = true) :
    w = { promptTokenIds := w.promptTokenIds } ∧ granted = 0 ∧ fed = [] := by
  cases h with
  | fresh _ hw hg hfed => exact ⟨hw, hg, hfed⟩
  | going hq' =>
    rw [hq] at hq'
    cases hq'

theorem Standing.of_running {waiting : Bool} (h : Standing fed waiting w granted)
    (hq : waiting = false) : Bookkept fed w granted := by
  cases h with
  | fresh hq' =>
    rw [hq] at hq'
    cases hq'
  | going _ hb => exact hb

theorem PairStep.DraftsPredicted.decode (h : t.DraftsPredicted H cfg)
    {drafts : AList fun _ : RequestId => List Token} {batch : InputBatch} {m₁ : ModelRunner}
    {seq : BatchSeq} {i : ℕ} {ds tokens : List Token} {token : Token}
    (hprep : t.prepared H cfg = .ok (drafts, batch)) (hi : batch.seqs[i]? = some seq)
    (hs : sampleSeq t.ops drafts batch i seq m₁ = .ok tokens) (hp : seq.isPrefill = false)
    (hseq : seq.tokenIds = token :: ds)
    (hds : ∀ ds', drafts.lookup seq.requestId = some ds' → ds' = ds) :
    ∃ kept bonus, kept <+: ds ∧ tokens = kept ++ [bonus] ∧
      advanceBy drafts seq = kept.length + 1 := by
  cases hl : drafts.lookup seq.requestId with
  | none =>
    obtain ⟨bonus, rfl⟩ := sampleSeq_plain hs (Or.inr hl)
    exact ⟨[], bonus, List.nil_prefix, rfl, by simp [advanceBy, hp, hl]⟩
  | some ds' =>
    obtain rfl := hds ds' hl
    obtain ⟨bonus, rfl⟩ := sampleSeq_predicted hs hp hl (by simp [hseq])
      fun logits hlogits => h.of_seq hprep hi hp hl hlogits
    exact ⟨ds', bonus, List.prefix_rfl, rfl, by simp [advanceBy, hl, hseq]⟩

theorem Matched.drafts_le (h : Matched H cfg hist t.pair) {mp : ModelRunner}
    {drafts : AList fun _ : RequestId => List Token} (hd : Drafted t.pair.runner drafts mp)
    {q : SamplingParams} (hq : t.pair.runner.requestSamplingParams.lookup id = some q) :
    ((mp.speculativeDrafts.lookup id).getD []).length ≤ q.specTokens := by
  cases hl : mp.speculativeDrafts.lookup id with
  | none => exact Nat.zero_le _
  | some ds =>
    have hle := hd.bounded h.bounded id ds hl
    rwa [hd.states.draftLimit_eq, draftLimit, hq] at hle

section Step

variable (hoff : cfg.cache.enablePrefixCaching = false) {r₀ r : Progress} {w' : RunnerRequestState}
  {fed' : List (ℕ × Token)} {tokens : List Token} {p₀ p' : Place}

include hoff

theorem Standing.idle (h : Standing fed p₀.waiting w r₀.numComputedTokens)
    (hph : Phase H cfg (.wholePrompts H cfg) id p₀ p' ((t.out H cfg).mention id))
    (hr₀ : p₀.progress = some r₀) (hr : p'.progress = some r) (hne : r₀.promptTokenIds ≠ [])
    (hprompt : w.promptTokenIds = r₀.promptTokenIds)
    (hpre : id ∉ (t.out H cfg).preempted) (hfin : id ∉ (t.out H cfg).finished)
    (hfeeds : id ∈ (t.out H cfg).scheduledNew ++ (t.out H cfg).scheduledRunning →
      ∃ m : ModelRunner, m.requestStates.lookup id = some w ∧
        Feeds cfg.cache.blockSize (t.out H cfg) m id none) :
    Standing fed p'.waiting w r.numComputedTokens := by
  have hpre' : ((t.out H cfg).mention id).preempted = false := by simpa using hpre
  have hfresh : ∀ r : Progress, Queued cfg p₀ r false →
      w.numComputedTokens = 0 ∧ r.numComputedTokens = 0 ∧
        r.promptTokenIds.length = w.promptTokenIds.length := by
    intro r hq
    obtain ⟨hw, hg, -⟩ := h.of_waiting hq.origin
    obtain ⟨r₁, hr₁, -, hp₁, hc⟩ := hq.same
    obtain rfl := Option.some.inj (hr₁.symm.trans hr₀)
    rw [hw, hp₁, hprompt]
    exact ⟨rfl, (hc hoff).trans hg, rfl⟩
  have hpos : 0 < w.promptTokenIds.length := hprompt ▸ List.length_pos_iff.mpr hne
  have hnew : ((t.out H cfg).mention id).new = false := by
    rw [← Bool.not_eq_true]
    intro hn
    obtain ⟨r', n, hpos', hq, hg, -, htok, -⟩ := hph.of_new hn
    rw [hpre'] at hq hg
    obtain ⟨hw0, hr0, hlen⟩ := hfresh r' hq
    obtain ⟨m, hm, hf⟩ := hfeeds (List.mem_append_left _ (by simpa using hn))
    rw [SchedulerOutput.mention_tokens] at htok
    cases hf with
    | unknown hu =>
      rw [hm] at hu
      cases hu
    | nothing hz =>
      rw [htok, Option.getD_some] at hz
      omega
    | prefilled hm' _ hle =>
      obtain rfl := Option.some.inj (hm'.symm.trans hm)
      omega
  have hcached : ((t.out H cfg).mention id).cached = false := by
    rw [← Bool.not_eq_true]
    intro hc
    obtain ⟨r', hq, -, hle, -⟩ := hph.of_cached hc
    rw [hpre'] at hq
    obtain ⟨-, hr0, hlen⟩ := hfresh r' hq
    omega
  have hdec : ((t.out H cfg).mention id).decoded = false := by
    rw [← Bool.not_eq_true]
    intro hd
    obtain ⟨-, r', -, -, hμ⟩ := hph.of_decoded hd
    obtain ⟨m, hm, hf⟩ := hfeeds (List.mem_append_right _ (by simpa using hd))
    cases hf with
    | unknown hu =>
      rw [hm] at hu
      cases hu
    | nothing hz =>
      have htok := congrArg Mention.tokens hμ
      rw [SchedulerOutput.mention_tokens] at htok
      rw [htok, Option.getD_some] at hz
      omega
    | prefilled _ hid =>
      rw [SchedulerOutput.mention_new, decide_eq_false_iff_not] at hnew
      exact absurd hid hnew
  obtain ⟨hq, hsame⟩ := hph.of_unmentioned hnew hcached hdec hpre' (by simpa using hfin)
  obtain ⟨r₁, hr₁, -, -, hc⟩ := hsame r hr
  obtain rfl := Option.some.inj (hr₁.symm.trans hr₀)
  rw [hq, hc hoff]
  exact h

theorem Standing.whole (h : Standing fed p₀.waiting w r₀.numComputedTokens)
    (hph : Phase H cfg (.wholePrompts H cfg) id p₀ p' ((t.out H cfg).mention id))
    (hr₀ : p₀.progress = some r₀) (hprompt : w.promptTokenIds = r₀.promptTokenIds)
    (hpre : id ∉ (t.out H cfg).preempted) (hid : id ∈ (t.out H cfg).scheduledNew) {n : ℕ}
    (hn : (t.out H cfg).numScheduledTokens.lookup id = some n) :
    fed = [] ∧ w = { promptTokenIds := w.promptTokenIds } ∧
      (w.promptTokenIds.drop w.numComputedTokens).take n = w.promptTokenIds ∧
      p'.waiting = false ∧ ∀ r, p'.progress = some r →
        r.numComputedTokens = w.promptTokenIds.length := by
  have hpre' : ((t.out H cfg).mention id).preempted = false := by simpa using hpre
  obtain ⟨r', n', -, hq, hg, -, htok, rfl⟩ := hph.of_new (by simpa using hid)
  rw [hpre'] at hq hg
  obtain ⟨hw, hg0, hfed⟩ := h.of_waiting hq.origin
  obtain ⟨r₁, hr₁, -, hp₁, hc⟩ := hq.same
  obtain rfl := Option.some.inj (hr₁.symm.trans hr₀)
  rw [SchedulerOutput.mention_tokens] at htok
  obtain rfl := Option.some.inj (htok.symm.trans hn)
  have hc0 : r'.numComputedTokens = 0 := (hc hoff).trans hg0
  rw [hc0] at hg
  have hlen : n' = w.promptTokenIds.length := by rw [hg.whole hoff, hp₁, hprompt]
  have hw0 : w.numComputedTokens = 0 := by rw [hw]
  refine ⟨hfed, hw, ?_, rfl, fun r hr => ?_⟩
  · rw [hw0, List.drop_zero, hlen, List.take_length]
  · obtain rfl := Option.some.inj hr
    simp only [hc0, hlen, Nat.zero_add]

theorem Standing.prefill (h : Standing fed p₀.waiting w r₀.numComputedTokens)
    (hph : Phase H cfg (.wholePrompts H cfg) id p₀ p' ((t.out H cfg).mention id))
    (hr₀ : p₀.progress = some r₀) (hr : p'.progress = some r)
    (hprompt : w.promptTokenIds = r₀.promptTokenIds) (hpre : id ∉ (t.out H cfg).preempted)
    (hid : id ∈ (t.out H cfg).scheduledNew) {n : ℕ}
    (hn : (t.out H cfg).numScheduledTokens.lookup id = some n) {seq : BatchSeq}
    (hs : SeqSpec cfg.cache.blockSize (t.out H cfg) id w.numComputedTokens
      ((w.promptTokenIds.drop w.numComputedTokens).take n) true seq)
    (drafts : AList fun _ : RequestId => List Token) (token : Token) :
    Standing (fed ++ seq.pairs) p'.waiting (ran drafts seq [token] w) r.numComputedTokens := by
  obtain ⟨rfl, hw, htokens, hwait, hgrant⟩ := h.whole hoff hph hr₀ hprompt hpre hid hn
  have hw0 : w.numComputedTokens = 0 := by rw [hw]
  rw [htokens, hw0] at hs
  have hran : ran drafts seq [token] w =
      ⟨w.promptTokenIds, [token], w.promptTokenIds.length⟩ := by
    rw [ran, advanceBy, hs.isPrefill_eq, Bool.true_or, if_pos rfl, hs.tokenIds_eq, hw]
    simp
  refine .going hwait ?_
  rw [hran, List.nil_append, BatchSeq.pairs, hs.positions_eq, hs.tokenIds_eq, hgrant r hr]
  exact .prefill _ _

omit hoff in
theorem Standing.decode (h : Standing fed p₀.waiting w r₀.numComputedTokens)
    (hph : Phase H cfg (.wholePrompts H cfg) id p₀ p' ((t.out H cfg).mention id))
    (hr₀ : p₀.progress = some r₀) (hr : p'.progress = some r)
    (hwait : p₀.running = true → p₀.waiting = false)
    (hid : id ∈ (t.out H cfg).scheduledRunning) {seq : BatchSeq} {ds kept : List Token}
    (hs : SeqSpec cfg.cache.blockSize (t.out H cfg) id w.numComputedTokens (lastToken w :: ds)
      false seq) (hle : ds.length ≤ r₀.request.samplingParams.specTokens)
    (hkept : kept <+: ds) {drafts : AList fun _ : RequestId => List Token}
    (hadv : advanceBy drafts seq = kept.length + 1) (bonus : Token) :
    Standing (fed ++ seq.pairs) p'.waiting (ran drafts seq (kept ++ [bonus]) w)
      r.numComputedTokens := by
  obtain ⟨hrun, r₁, hr₁, rfl, -⟩ := hph.of_decoded (by simpa using hid)
  obtain rfl := Option.some.inj (hr₁.symm.trans hr₀)
  obtain rfl := Option.some.inj hr
  have hb := h.of_running (hwait hrun)
  have hlen := hkept.length_le
  refine .going rfl ?_
  rw [ran, hadv, BatchSeq.pairs, hs.positions_eq, hs.tokenIds_eq]
  exact hb.decode hkept (by omega) bonus

end Step

namespace BooksRight

theorem new : BooksRight H cfg {} (.new cfg) := by
  intro id w r hw
  cases hw

theorem addRequest (h : BooksRight H cfg hist p) (hm : Matched H cfg hist p) {r : InferenceRequest}
    (hfresh : r.requestId ∉ hist.accepted)
    (hok : (UniProc.addRequest r.requestId r.promptTokens r.samplingParams p.runner).1 = .ok ()) :
    BooksRight H cfg { hist with added := hist.added ++ [r] } (p.addRequest cfg r) := by
  intro i w r' hw hr'
  have hstates : (p.addRequest cfg r).runner.requestStates.lookup i =
      if i = r.requestId then some { promptTokenIds := r.promptTokens }
      else p.runner.requestStates.lookup i := by
    rw [Pair.addRequest, addRequest_ok hok]
    exact lookup_insert_eq _ _ _ _
  rw [hstates] at hw
  simp only [Pair.addRequest, Scheduler.place_addRequest] at hr' ⊢
  split at hw
  · rename_i hi
    rw [if_pos hi] at hr' ⊢
    obtain rfl := Option.some.inj hw
    obtain rfl := Option.some.inj hr'
    refine .fresh rfl rfl rfl ?_
    by_contra hfed
    exact hfresh (hi ▸ hm.served i (Or.inl hfed))
  · rename_i hi
    rw [if_neg hi] at hr' ⊢
    exact h i w r' hw hr'

theorem abortRequest (h : BooksRight H cfg hist p) (id : RequestId) :
    BooksRight H cfg { hist with aborted := hist.aborted ++ [id] } (p.abortRequest id) := by
  intro i w r hw hr
  simp only [Pair.abortRequest, removeRequest] at hw hr ⊢
  rw [lookup_erase_eq, Option.ite_none_left_eq_some] at hw
  rw [Scheduler.place_abortRequest hw.1] at hr ⊢
  exact h i w r hw.2 hr

theorem control (h : BooksRight H cfg hist p) {s : Scheduler} (hc : p.sched.Control s) :
    BooksRight H cfg hist { p with sched := s } := by
  intro i w r hw hr
  rw [hc.place] at hr ⊢
  exact h i w r hw hr

/-- A sequence of the batch is the whole prompt of a fresh request, or a decode of a request whose
books are right. -/
theorem feeds (h : BooksRight H cfg hist t.pair) (hm : Matched H cfg hist t.pair)
    (hrun : SchedRun H cfg hist.added t.pair.sched)
    (hoff : cfg.cache.enablePrefixCaching = false)
    (hwhole : t.pair.sched.StepAll H cfg (.wholePrompts H cfg) t.ord) {mp : ModelRunner}
    (hs : SameStates t.pair.runner mp) {seq : BatchSeq}
    (hid : id ∈ (t.out H cfg).scheduledNew ++ (t.out H cfg).scheduledRunning)
    (hf : Feeds cfg.cache.blockSize (t.out H cfg) (mp.clean (t.out H cfg)) id (some seq)) :
    ∃ w, t.pair.runner.requestStates.lookup id = some w ∧
      (hist.fed H cfg id = [] ∧ w = { promptTokenIds := w.promptTokenIds } ∧
          SeqSpec cfg.cache.blockSize (t.out H cfg) id 0 w.promptTokenIds true seq ∨
        (∃ granted, Bookkept (hist.fed H cfg id) w granted) ∧
          SeqSpec cfg.cache.blockSize (t.out H cfg) id w.numComputedTokens
            (lastToken w :: (mp.speculativeDrafts.lookup id).getD []) false seq) := by
  have hp := hrun.partition.1
  have hph := PairStep.phase hp hwhole id
  have hclean : ∀ w, (mp.clean (t.out H cfg)).requestStates.lookup id = some w →
      (id ∉ (t.out H cfg).finished ∧ id ∉ (t.out H cfg).preempted) ∧
        t.pair.runner.requestStates.lookup id = some w := by
    intro w hw
    rwa [states_clean_congr hs, states_clean, Option.ite_none_left_eq_some, not_or] at hw
  cases hf with
  | @prefill w n _ hm' hn hid' _ hspec =>
    obtain ⟨⟨-, hpre⟩, hw⟩ := hclean _ hm'
    obtain ⟨r₀, hr₀, hprompt, -⟩ := hm.states id w hw
    obtain ⟨hfed, hfresh, htokens, -⟩ :=
      (h id w r₀ hw hr₀).whole hoff hph hr₀ hprompt hpre hid' hn
    rw [htokens, hfresh] at hspec
    exact ⟨w, hw, Or.inl ⟨hfed, hfresh, hspec⟩⟩
  | @decode w _ hm' hid' hspec =>
    obtain ⟨hn, hw⟩ := hclean _ hm'
    obtain ⟨r₀, hr₀, -⟩ := hm.states id w hw
    obtain ⟨hrn, -⟩ := hph.of_decoded (by simpa [hid'] using hid)
    have hwait : (t.pair.sched.place id).waiting = false := by
      simp only [Scheduler.place_running, Scheduler.place_waiting, decide_eq_true_eq,
        decide_eq_false_iff_not] at hrn ⊢
      exact fun hwt => hp.not_running id hwt hrn
    rw [drafts_clean, if_neg (not_or.mpr hn)] at hspec
    exact ⟨w, hw, Or.inr ⟨⟨_, (h id w r₀ hw hr₀).of_running hwait⟩, hspec⟩⟩

theorem step (h : BooksRight H cfg hist t.pair) (hm : Matched H cfg hist t.pair)
    (hrun : SchedRun H cfg hist.added t.pair.sched)
    (hprop : Proposes (t.out H cfg) t.pair.runner)
    (hoff : cfg.cache.enablePrefixCaching = false) (hne : ∀ r ∈ hist.added, r.promptTokens ≠ [])
    (ht : t.Accepting H cfg) : BooksRight H cfg (hist.snoc H cfg t) (t.next H cfg) := by
  intro id w' r hw' hr
  have hp := hrun.partition.1
  have hph := PairStep.phase hp ht.whole id
  obtain ⟨w, hw, hfin, hpre, hclean, hkeeps⟩ := (PairStep.served hp hprop id).keeps hw'
  obtain ⟨r₀, hr₀, hprompt, hparams⟩ := hm.states id w hw
  have hst := h id w r₀ hw hr₀
  rw [PairStep.next_place (PairStep.not_failed hw')] at hr ⊢
  rw [PairHistory.fed_snoc]
  have hwait : (t.pair.sched.place id).running = true →
      (t.pair.sched.place id).waiting = false := by
    simp only [Scheduler.place_running, Scheduler.place_waiting, decide_eq_true_eq,
      decide_eq_false_iff_not]
    exact fun hrn hwt => hp.not_running id hwt hrn
  generalize t.emitted H cfg id = tokens at hkeeps
  cases hkeeps with
  | idle hfeeds he hfed =>
    subst he
    rw [hfed, List.append_nil]
    have hprompt₀ : r₀.promptTokenIds ≠ [] := by
      obtain ⟨r', hr', rfl⟩ := Option.map_eq_some_iff.mp hr₀
      obtain ⟨hadd, -, hpr⟩ := hrun.partition.2 id r' hr'
      have hne' := hne _ hadd
      rwa [← hpr] at hne'
    refine hst.idle hoff hph hr₀ hr hprompt₀ hprompt hpre hfin fun hid => ?_
    obtain ⟨mp, hs, hf⟩ := hfeeds hid
    exact ⟨_, hclean mp hs, hf⟩
  | @ran drafts batch mp m₁ seq i hprep hi hid hd hf hs he hfed =>
    subst he
    rw [hfed]
    cases hf with
    | prefill hm' hn hid' hlt hspec =>
      obtain rfl := Option.some.inj ((hclean mp hd.states).symm.trans hm')
      obtain ⟨token, rfl⟩ := sampleSeq_plain hs (Or.inl hspec.isPrefill_eq)
      exact hst.prefill hoff hph hr₀ hr hprompt hpre hid' hn hspec drafts token
    | decode hm' hid' hspec =>
      obtain rfl := Option.some.inj ((hclean mp hd.states).symm.trans hm')
      have hdrafts : (mp.clean (t.out H cfg)).speculativeDrafts.lookup id =
          mp.speculativeDrafts.lookup id := by
        rw [drafts_clean, if_neg (not_or.mpr ⟨hfin, hpre⟩)]
      rw [hdrafts] at hspec
      obtain ⟨kept, bonus, hkept, rfl, hadv⟩ := ht.predicted.decode hprep hi hs hspec.isPrefill_eq
        hspec.tokenIds_eq fun ds' hds' => by
          rw [hd.kept id ds' (hspec.requestId_eq ▸ hds'), Option.getD_some]
      exact hst.decode hph hr₀ hr hwait ((List.mem_append.mp hid).resolve_left hid') hspec
        (hm.drafts_le hd hparams) hkept hadv bonus

end BooksRight

theorem PairRun.booksRight (h : PairRun H cfg (·.Accepting H cfg) hist p)
    (hoff : cfg.cache.enablePrefixCaching = false)
    (hne : ∀ r ∈ hist.added, r.promptTokens ≠ []) : BooksRight H cfg hist p := by
  induction h with
  | new => exact .new
  | addRequest r hrun hfresh hok ih =>
    exact (ih fun r' hr' => hne r' (List.mem_append_left _ hr')).addRequest hrun.matched hfresh hok
  | abortRequest id _ ih => exact (ih hne).abortRequest id
  | control _ hc ih => exact (ih hne).control hc
  | step ops ord hrun hprop ht ih =>
    exact (ih hne).step hrun.matched hrun.schedRun hprop hoff hne ht

/-- What holds of a request of the batch once the execution succeeded: its books are right, and the
next decode feeds its newest token, at the first position that is not computed. -/
structure InStep (cfg : Config) (fed : List (ℕ × Token)) (w : RunnerRequestState)
    (r : SchedulerRequest) : Prop extends Bookkept fed w r.numComputedTokens where
  prompt_eq : w.promptTokenIds = r.promptTokenIds
  next_input : ∀ (m : ModelRunner) (out : SchedulerOutput) (id : RequestId) (seq : BatchSeq),
    (m.decodeSeq cfg.cache.blockSize out id w).1 = .ok (some seq) →
    seq.tokenIds.head? = w.generatedTokenIds.getLast? ∧
    seq.positions.head? = some (w.promptTokenIds.length + w.generatedTokenIds.length - 1)

theorem Bookkept.inStep {r : SchedulerRequest} (h : Bookkept fed w r.numComputedTokens)
    (hprompt : w.promptTokenIds = r.promptTokenIds) : InStep cfg fed w r := by
  refine ⟨h, hprompt, fun m out id seq hseq => ?_⟩
  obtain ⟨seq', he, hspec⟩ := decodeSeq_ok hseq
  obtain rfl := Option.some.inj he
  rw [hspec.tokenIds_eq, hspec.positions_eq, ← h.computed_eq, lastToken,
    List.getLast?_eq_some_getLast h.generated]
  exact ⟨rfl, rfl⟩

/-- Without a prefix cache, with non-empty prompts that are prefilled as a whole and with drafts
that the model predicts: after every successful execution the books of every request of the
batch are right. -/
theorem PairRun.result_inStep (H : HashFns) (cfg : Config)
    (hoff : cfg.cache.enablePrefixCaching = false) (hist : PairHistory) (p : Pair)
    (hrun : PairRun H cfg (·.Accepting H cfg) hist p)
    (hne : ∀ r ∈ hist.added, r.promptTokens ≠ []) (ops : ModelOps) (ord : HashOrder)
    (ht : (⟨p, ops, ord⟩ : PairStep).Accepting H cfg) (res : ExecutorOutput) (runner : ModelRunner)
    (hok : (⟨p, ops, ord⟩ : PairStep).result H cfg = (.ok res, runner)) :
    ∀ id ∈ ((⟨p, ops, ord⟩ : PairStep).batch H cfg).requestIds, ∃ w r,
      runner.requestStates.lookup id = some w ∧
      ((⟨p, ops, ord⟩ : PairStep).sched H cfg).requests.lookup id = some r ∧
      InStep cfg (hist.fed H cfg id ++ (⟨p, ops, ord⟩ : PairStep).fed H cfg id) w r := by
  intro id hid
  obtain ⟨t, htdef⟩ : ∃ t : PairStep, t = ⟨p, ops, ord⟩ := ⟨_, rfl⟩
  obtain rfl : t.pair = p := by rw [htdef]
  rw [← htdef] at ht hok hid ⊢
  have hp := hrun.schedRun.partition.1
  obtain ⟨drafts, batch, hex⟩ := executeModel_ok (PairStep.out_nodup hp) hok
  obtain ⟨hprop, mp, -, hbuilt⟩ := prepare_ok (PairStep.out_nodup hp) hex.prepared
  have hbatch : t.batch H cfg = batch := by rw [PairStep.batch, PairStep.prepared, hex.prepared]
  rw [hbatch] at hid
  have hmatched := hrun.matched.step hrun.schedRun hprop
  have hbooks := (hrun.booksRight hoff hne).step hrun.matched hrun.schedRun hprop hoff hne ht
  have hfailed : t.failed H cfg = [] := by rw [PairStep.failed, hok]
  have hlookup : (t.next H cfg).runner.requestStates.lookup id =
      runner.requestStates.lookup id := by
    rw [PairStep.lookup_next, hfailed, if_neg List.not_mem_nil, hok]
  have hplace : (t.next H cfg).sched.place id = (t.sched H cfg).place id :=
    PairStep.next_place (by simp [hfailed])
  obtain ⟨w, hw⟩ : ∃ w, runner.requestStates.lookup id = some w := by
    have hst := hex.states id
    split at hst
    · obtain ⟨w, -, hw⟩ := hst
      exact ⟨_, hw⟩
    · rename_i hseq _
      exact absurd hid (InputBatch.seqOf_eq_none.mp hseq)
    · exact hst.elim
  obtain ⟨r, hr, hprompt, -⟩ := hmatched.states id w (hlookup.trans hw)
  have hst := hbooks id w r (hlookup.trans hw) hr
  rw [hplace] at hr hst
  rw [PairHistory.fed_snoc] at hst
  obtain ⟨r', hr', rfl⟩ := Option.map_eq_some_iff.mp hr
  have hph := PairStep.phase hp ht.whole id
  have hqueue : ((t.sched H cfg).place id).waiting = false := by
    rcases List.mem_append.mp (hbuilt.sublist.subset hid) with hn | hd
    · obtain ⟨r', n, -, -, -, -, -, hpl⟩ := hph.of_new (by simpa using hn)
      rw [hpl]
    · obtain ⟨-, r', -, hpl, -⟩ := hph.of_decoded (by simpa using hd)
      rw [hpl]
  exact ⟨w, r', hw, hr', (hst.of_running hqueue).inStep hprompt⟩

/-! ## Drafts accepted and rejected -/

/-- A request that may have two drafts, taken from the continuation of its last token. -/
def repeatingRequest : InferenceRequest where
  requestId := 1
  tokenIds := some [5, 6, 8]
  samplingParams :=
    { speculativeDecoding := some { numSpeculativeTokens := 2, minNgram := 1, maxNgram := 1 } }

/-- A model that first samples the token `5` and then predicts the given tokens. -/
def repeatingModel (predictions : List Token) : ModelOps where
  Logits := Token
  zeroLogits := 0
  positionLogits _ _ := .ok predictions
  lastLogits _ _ := .ok none
  argmax logits := logits
  sample _ input := if input.numGenerated = 0 then 5 else input.logits
  eosTokenId := 2

/-- The prefill of the request. -/
def repeatingStep : PairStep :=
  ⟨(Pair.new (smallConfig 16 false)).addRequest (smallConfig 16 false) repeatingRequest,
    repeatingModel [], .id⟩

/-- The decode after it, with drafts `[6, 8]`. -/
def draftingStep (predictions : List Token) : PairStep :=
  ⟨repeatingStep.next smallHash (smallConfig 16 false), repeatingModel predictions, .id⟩

def repeatingHistory : PairHistory :=
  { added := [repeatingRequest] : PairHistory }.snoc smallHash (smallConfig 16 false) repeatingStep

theorem pairRun_repeating {P : PairStep → Prop} (hP : P repeatingStep) :
    PairRun smallHash (smallConfig 16 false) P repeatingHistory (draftingStep []).pair :=
  .step _ .id (.addRequest repeatingRequest .new (by simp [PairHistory.accepted]) rfl) ⟨_, rfl⟩ hP

theorem whole_repeating : repeatingStep.pair.sched.StepAll smallHash (smallConfig 16 false)
    (.wholePrompts smallHash (smallConfig 16 false)) .id := by
  intro _
  exact ⟨fun _ _ _ _ => True.intro, StepState.runningAll_of_forall (fun _ _ => True.intro) _ _,
    by decide +kernel⟩

theorem whole_drafting : (draftingStep []).pair.sched.StepAll smallHash (smallConfig 16 false)
    (.wholePrompts smallHash (smallConfig 16 false)) .id := by
  intro _
  exact ⟨fun _ _ _ _ => True.intro, StepState.runningAll_of_forall (fun _ _ => True.intro) _ _,
    by decide +kernel⟩

/-- Both drafts are accepted. -/
theorem PairRun.result_inStep_repeating : ∃ w r,
    ((draftingStep [6, 8, 9]).result smallHash
      (smallConfig 16 false)).2.requestStates.lookup 1 = some w ∧
    ((draftingStep [6, 8, 9]).sched smallHash (smallConfig 16 false)).requests.lookup 1 = some r ∧
    InStep (smallConfig 16 false) (repeatingHistory.fed smallHash (smallConfig 16 false) 1 ++
      (draftingStep [6, 8, 9]).fed smallHash (smallConfig 16 false) 1) w r :=
  PairRun.result_inStep smallHash (smallConfig 16 false) rfl repeatingHistory _
    (pairRun_repeating ⟨whole_repeating, by decide +kernel⟩) (by decide) (repeatingModel [6, 8, 9])
    .id ⟨whole_drafting, by decide +kernel⟩ ⟨[⟨1, [6, 8, 9]⟩]⟩ _
    (Prod.ext (by decide +kernel) rfl) 1 (by decide +kernel)

/-- The first draft is rejected, yet all three fed tokens are counted as computed. -/
theorem PairRun.not_result_inStep : ¬ ∀ (H : HashFns) (cfg : Config),
    cfg.cache.enablePrefixCaching = false → ∀ (hist : PairHistory) (p : Pair),
    PairRun H cfg (fun t => t.pair.sched.StepAll H cfg (.wholePrompts H cfg) t.ord ∧
      ∃ res, (t.result H cfg).1 = .ok res) hist p →
    (∀ r ∈ hist.added, r.promptTokens ≠ []) → ∀ (ops : ModelOps) (ord : HashOrder),
    p.sched.StepAll H cfg (.wholePrompts H cfg) ord → ∀ res runner,
    (⟨p, ops, ord⟩ : PairStep).result H cfg = (.ok res, runner) →
    ∀ id ∈ ((⟨p, ops, ord⟩ : PairStep).batch H cfg).requestIds, ∃ w r,
      runner.requestStates.lookup id = some w ∧
      ((⟨p, ops, ord⟩ : PairStep).sched H cfg).requests.lookup id = some r ∧
      InStep cfg (hist.fed H cfg id ++ (⟨p, ops, ord⟩ : PairStep).fed H cfg id) w r := by
  intro h
  obtain ⟨w, r, hw, -, hin⟩ := h smallHash (smallConfig 16 false) rfl repeatingHistory _
    (pairRun_repeating ⟨whole_repeating, ⟨[⟨1, [5]⟩]⟩, by decide +kernel⟩) (by decide)
    (repeatingModel [7, 8, 9]) .id whole_drafting ⟨[⟨1, [7]⟩]⟩ _
    (Prod.ext (by decide +kernel) rfl) 1 (by decide +kernel)
  have hw' : ((draftingStep [7, 8, 9]).result smallHash
      (smallConfig 16 false)).2.requestStates.lookup 1 = some ⟨[5, 6, 8], [5, 7], 6⟩ := by
    decide +kernel
  obtain rfl := Option.some.inj (hw.symm.trans hw')
  exact absurd hin.computed_eq (by decide)

end Rllm
