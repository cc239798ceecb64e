import Rllm.Executor.Effects

/-! # Structured outputs

The single-process executor with the structured-outputs feature: a request with
a constraint gets a grammar matcher, which masks its logits before each normal
sampling and accepts the sampled token. The grammar library is a parameter.
-/

namespace Rllm

/-- What the grammar library does for one constraint. -/
structure GrammarOps (Logits : Type) where
  Matcher : Type
  compile : StructuredOutputParams → Except String Matcher
  /-- Rule out the tokens that the grammar does not allow next. -/
  maskLogits : Matcher → Logits → Except String Logits × Matcher
  acceptToken : Matcher → Token → Bool × Matcher

/-- The matchers of the constrained requests. -/
structure StructuredOutputManager (Matcher : Type) where
  matchers : AList fun _ : RequestId => Matcher

namespace StructuredOutputManager

variable {Logits : Type} (g : GrammarOps Logits) (mgr : StructuredOutputManager g.Matcher)

def register (id : RequestId) (params : StructuredOutputParams) :
    Except String Unit × StructuredOutputManager g.Matcher :=
  match params.validate with
  | .error _ => (.error "invalid structured output parameters", mgr)
  | .ok _ =>
    match g.compile params with
    | .error e => (.error e, mgr)
    | .ok matcher => (.ok (), ⟨mgr.matchers.insert id matcher⟩)

/-- Unconstrained requests keep their logits. -/
def maskLogits (id : RequestId) (logits : Logits) :
    Except String Logits × StructuredOutputManager g.Matcher :=
  match mgr.matchers.lookup id with
  | none => (.ok logits, mgr)
  | some matcher =>
    let (result, matcher) := g.maskLogits matcher logits
    (result, ⟨mgr.matchers.insert id matcher⟩)

/-- The token must fit an `i32`. -/
def acceptToken (id : RequestId) (token : Token) :
    Except String Unit × StructuredOutputManager g.Matcher :=
  match mgr.matchers.lookup id with
  | none => (.ok (), mgr)
  | some matcher =>
    if 2 ^ 31 ≤ token.toNat then (.error "sampled token ID is too large", mgr)
    else
      let (accepted, matcher) := g.acceptToken matcher token
      let mgr := ⟨mgr.matchers.insert id matcher⟩
      if accepted then (.ok (), mgr)
      else (.error s!"XGrammar rejected sampled token {token}", mgr)

variable {g}

def remove (mgr : StructuredOutputManager g.Matcher) (id : RequestId) :
    StructuredOutputManager g.Matcher :=
  ⟨mgr.matchers.erase id⟩

end StructuredOutputManager

/-- The tables of the executor. Without a configuration there is no manager. -/
structure UniProcExecutor (Matcher : Type) where
  runner : ModelRunner
  structuredOutputs : Option (StructuredOutputManager Matcher)

namespace UniProcExecutor

variable (ops : ModelOps) (g : GrammarOps ops.Logits)

/-- Mask the logits of a sequence, sample, and show the token to the matcher. -/
def sampleConstrained (batch : InputBatch) (i : ℕ) (seq : BatchSeq)
    (e : UniProcExecutor g.Matcher) : Except String Token × UniProcExecutor g.Matcher :=
  let params := (e.runner.requestSamplingParams.lookup seq.requestId).getD {}
  let (prompt, generated) := e.runner.getContextTokenIds seq.requestId
  let sample (logits : ops.Logits) : Token := ops.sample i
    { logits, params, contextTokenIds := prompt ++ generated,
      numGenerated := generated.length, eosTokenId := ops.eosTokenId }
  match ops.lastLogits batch i with
  | .error err => (.error err, e)
  | .ok logits =>
    match e.structuredOutputs with
    | none => (.ok (sample (logits.getD ops.zeroLogits)), e)
    | some mgr =>
      match mgr.maskLogits g seq.requestId (logits.getD ops.zeroLogits) with
      | (.error err, mgr) => (.error err, { e with structuredOutputs := some mgr })
      | (.ok logits, mgr) =>
        let token := sample logits
        match mgr.acceptToken g seq.requestId token with
        | (.error err, mgr) => (.error err, { e with structuredOutputs := some mgr })
        | (.ok _, mgr) => (.ok token, { e with structuredOutputs := some mgr })

/-- Book the tokens of a sequence. -/
def book (drafts : AList fun _ : RequestId => List Token) (seq : BatchSeq) (tokens : List Token)
    (m : ModelRunner) : Except String ModelRunner := do
  let m ← tokens.foldlM (fun m token => m.storeGeneratedToken seq.requestId token) m
  m.advanceComputed seq.requestId (UniProc.advanceBy drafts seq)

/-- The tokens of a sequence. Drafts are verified without the grammar. -/
def sampleSeq (drafts : AList fun _ : RequestId => List Token) (batch : InputBatch) (i : ℕ)
    (seq : BatchSeq) (e : UniProcExecutor g.Matcher) :
    Except String (List Token) × UniProcExecutor g.Matcher :=
  match seq.isPrefill, drafts.lookup seq.requestId with
  | false, some _ => (UniProc.sampleSeq ops drafts batch i seq e.runner, e)
  | _, _ =>
    match e.sampleConstrained ops g batch i seq with
    | (.error err, e) => (.error err, e)
    | (.ok token, e) => (.ok [token], e)

/-- Run one sequence and book its tokens. -/
def runSeq (drafts : AList fun _ : RequestId => List Token) (batch : InputBatch) (i : ℕ)
    (seq : BatchSeq) (e : UniProcExecutor g.Matcher) :
    Except String PerRequestOutput × UniProcExecutor g.Matcher :=
  match sampleSeq ops g drafts batch i seq e with
  | (.error err, e) => (.error err, e)
  | (.ok tokens, e) =>
    match book drafts seq tokens e.runner with
    | .error err => (.error err, e)
    | .ok runner => (.ok ⟨seq.requestId, tokens⟩, { e with runner })

def runSeqs (drafts : AList fun _ : RequestId => List Token) (batch : InputBatch) :
    ℕ → List BatchSeq → UniProcExecutor g.Matcher →
      Except String (List PerRequestOutput) × UniProcExecutor g.Matcher
  | _, [], e => (.ok [], e)
  | i, seq :: seqs, e =>
    match runSeq ops g drafts batch i seq e with
    | (.error err, e) => (.error err, e)
    | (.ok output, e) =>
      match runSeqs drafts batch (i + 1) seqs e with
      | (.error err, e) => (.error err, e)
      | (.ok outputs, e) => (.ok (output :: outputs), e)

/-- The matchers of the finished requests go first. -/
def executeModel (blockSize : ℕ) (out : SchedulerOutput) (e : UniProcExecutor g.Matcher) :
    Except String ExecutorOutput × UniProcExecutor g.Matcher :=
  let e : UniProcExecutor g.Matcher :=
    { e with structuredOutputs := e.structuredOutputs.map (out.finished.foldl .remove ·) }
  match UniProc.prepare blockSize out e.runner with
  | (.error err, runner) => (.error err, { e with runner })
  | (.ok (drafts, batch), runner) =>
    match runSeqs ops g drafts batch 0 batch.seqs { e with runner } with
    | (.error err, e) => (.error err, e)
    | (.ok outputs, e) => (.ok ⟨outputs⟩, e)

variable {ops}

def addRequest (id : RequestId) (promptTokenIds : List Token) (params : SamplingParams)
    (e : UniProcExecutor g.Matcher) : Except String Unit × UniProcExecutor g.Matcher :=
  let runner := (e.runner.addRequest id promptTokenIds).setSamplingParams id params
  match params.structuredOutputs with
  | none => (.ok (), { e with runner })
  | some constraint =>
    match e.structuredOutputs with
    | none => (.error "structured outputs are not configured for this executor", e)
    | some mgr =>
      match mgr.register g id constraint with
      | (.error err, mgr) => (.error err, { e with structuredOutputs := some mgr })
      | (.ok _, mgr) => (.ok (), { runner, structuredOutputs := some mgr })

variable {g}

def abortRequest (id : RequestId) (e : UniProcExecutor g.Matcher) : UniProcExecutor g.Matcher where
  runner := e.runner.removeRequest id
  structuredOutputs := e.structuredOutputs.map (·.remove id)

variable (ops g)

def executor (blockSize : ℕ) : Executor (UniProcExecutor g.Matcher) where
  executeModel := executeModel ops g blockSize
  addRequest := addRequest g
  abortRequest := abortRequest

variable {ops g} {blockSize : ℕ} {out : SchedulerOutput} {batch : InputBatch}
  {drafts : AList fun _ : RequestId => List Token}

/-! ## Without a configuration -/

theorem sampleSeq_unconfigured (i : ℕ) (seq : BatchSeq) (m : ModelRunner) :
    sampleSeq ops g drafts batch i seq ⟨m, none⟩ =
      (UniProc.sampleSeq ops drafts batch i seq m, ⟨m, none⟩) := by
  unfold sampleSeq UniProc.sampleSeq sampleConstrained
  cases hp : seq.isPrefill with
  | true => cases ops.lastLogits batch i <;> rfl
  | false =>
    cases hd : drafts.lookup seq.requestId with
    | none => cases ops.lastLogits batch i <;> rfl
    | some ds => rfl

theorem runSeq_unconfigured (i : ℕ) (seq : BatchSeq) (m : ModelRunner) :
    runSeq ops g drafts batch i seq ⟨m, none⟩ =
      match UniProc.runSeq ops drafts batch i seq m with
      | .error err => (.error err, ⟨m, none⟩)
      | .ok (output, m) => (.ok output, ⟨m, none⟩) := by
  unfold runSeq UniProc.runSeq
  rw [sampleSeq_unconfigured]
  cases UniProc.sampleSeq ops drafts batch i seq m with
  | error err => rfl
  | ok tokens =>
    simp only [book, bind, Except.bind, pure, Except.pure]
    cases tokens.foldlM (fun m token => m.storeGeneratedToken seq.requestId token) m with
    | error err => rfl
    | ok m' =>
      dsimp only
      cases m'.advanceComputed seq.requestId (UniProc.advanceBy drafts seq) <;> rfl

theorem runSeqs_unconfigured (i : ℕ) (seqs : List BatchSeq) (m : ModelRunner) :
    runSeqs ops g drafts batch i seqs ⟨m, none⟩ =
      ((UniProc.runSeqs ops drafts batch i seqs m).1,
        ⟨(UniProc.runSeqs ops drafts batch i seqs m).2, none⟩) := by
  induction seqs generalizing i m with
  | nil => rfl
  | cons seq seqs ih =>
    rw [runSeqs, UniProc.runSeqs, runSeq_unconfigured]
    cases UniProc.runSeq ops drafts batch i seq m with
    | error err => rfl
    | ok om =>
      dsimp only
      rw [ih]
      cases UniProc.runSeqs ops drafts batch (i + 1) seqs om.2 with
      | mk outputs m₂ => cases outputs <;> rfl

/-- An executor that is not configured for constraints is the one without the feature. -/
theorem executeModel_unconfigured (m : ModelRunner) :
    executeModel ops g blockSize out ⟨m, none⟩ =
      ((UniProc.executeModel ops blockSize out m).1,
        ⟨(UniProc.executeModel ops blockSize out m).2, none⟩) := by
  unfold executeModel UniProc.executeModel
  dsimp only [Option.map_none]
  cases UniProc.prepare blockSize out m with
  | mk prepared m₁ =>
    cases prepared with
    | error err => rfl
    | ok db =>
      obtain ⟨drafts, batch⟩ := db
      dsimp only
      rw [runSeqs_unconfigured]
      cases UniProc.runSeqs ops drafts batch 0 batch.seqs m₁ with
      | mk outputs m₂ => cases outputs <;> rfl

end UniProcExecutor

/-! ## Who is kept -/

namespace ModelRunner

variable {m m' : ModelRunner} {id i : RequestId} {blockSize : ℕ} {out : SchedulerOutput}

/-- A table of the runner has an entry for the request. -/
def Holds (m : ModelRunner) (id : RequestId) : Prop :=
  id ∈ m.requestStates ∨ id ∈ m.requestSamplingParams ∨ id ∈ m.speculativeDrafts

theorem Holds.of_same (hs : SameStates m m') (hd : ∀ i ∈ m'.speculativeDrafts, m.Holds i)
    (h : m'.Holds id) : m.Holds id := by
  rcases h with h | h | h
  · exact Or.inl (hs.states_eq ▸ h)
  · exact Or.inr (Or.inl (hs.params_eq ▸ h))
  · exact hd id h

theorem Holds.of_drafts (hs : SameStates m m') (hd : DraftsFrom m m') (h : m'.Holds id) :
    m.Holds id := by
  refine h.of_same hs fun i hi => ?_
  obtain ⟨ds, hds⟩ := Option.isSome_iff_exists.mp (AList.lookup_isSome.mpr hi)
  exact Or.inr (Or.inr (AList.lookup_isSome.mp (by rw [hd i ds hds]; rfl)))

theorem Holds.of_remove (h : (m.removeRequest i).Holds id) : m.Holds id ∧ id ≠ i := by
  simp only [Holds, removeRequest, AList.mem_erase] at h ⊢
  tauto

theorem Holds.of_clean (h : (m.clean out).Holds id) : m.Holds id := by
  have hall : ∀ (ids : List RequestId) (m : ModelRunner), (ids.foldl removeRequest m).Holds id →
      m.Holds id := by
    intro ids
    induction ids with
    | nil => exact fun _ h => h
    | cons i ids ih => exact fun m h => (ih _ h).of_remove.1
  exact hall _ _ (hall _ _ h)

theorem proposeFor_known {ds : List Token} (h : m.proposeFor id = .ok ds) (hne : ds ≠ []) :
    id ∈ m.requestSamplingParams := by
  unfold proposeFor at h
  cases hp : m.requestSamplingParams.lookup id with
  | none =>
    rw [hp] at h
    exact absurd (Except.ok.inj h).symm hne
  | some p => exact AList.lookup_isSome.mp (by rw [hp]; rfl)

theorem Holds.of_propose (ids : List RequestId) (h : (proposeAll ids m).2.Holds id) :
    m.Holds id := by
  induction ids generalizing m with
  | nil => exact h
  | cons j ids ih =>
    unfold proposeAll at h
    split at h
    · exact h
    · rename_i ds hds
      have hset : ∀ i, (if ds.isEmpty then m else m.setSpeculativeDrafts j ds).Holds i →
          m.Holds i := by
        intro i hi
        split at hi
        · exact hi
        · rename_i hne
          have hsame : SameStates m (m.setSpeculativeDrafts j ds) := ⟨rfl, rfl⟩
          refine hi.of_same hsame fun k hk => ?_
          rcases (AList.mem_insert _).mp hk with rfl | hk
          · exact Or.inr (Or.inl (proposeFor_known hds (by simpa using hne)))
          · exact Or.inr (Or.inr hk)
      refine hset id (ih ?_)
      dsimp only at h
      split at h
      · rename_i he
        rwa [he]
      · rename_i he
        rwa [he]

theorem Holds.of_prepare (h : (UniProc.prepare blockSize out m).2.Holds id) : m.Holds id := by
  unfold UniProc.prepare at h
  split at h
  · rename_i e m₁ he
    refine Holds.of_propose out.scheduledRunning ?_
    rwa [he]
  · rename_i ds m₁ he
    refine Holds.of_propose out.scheduledRunning ?_
    rw [he]
    obtain ⟨hs, hd⟩ := buildTensors_frame m₁ blockSize out
    refine (Holds.of_drafts hs hd ?_).of_clean
    split at h
    · rename_i he₁
      rwa [he₁]
    · rename_i he₁
      rwa [he₁]

theorem Holds.of_modify {f : RunnerRequestState → RunnerRequestState}
    (hm : m.modifyState i f = .ok m') (h : m'.Holds id) : m.Holds id := by
  unfold modifyState at hm
  split at hm
  · rename_i state hstate
    obtain rfl := Except.ok.inj hm
    rcases h with h | h
    · rcases (AList.mem_insert _).mp h with rfl | h
      · exact Or.inl (AList.lookup_isSome.mp (by rw [hstate]; rfl))
      · exact Or.inl h
    · exact Or.inr h
  · cases hm

theorem Holds.of_book {seq : BatchSeq} {tokens : List Token}
    {drafts : AList fun _ : RequestId => List Token}
    (hm : UniProcExecutor.book drafts seq tokens m = .ok m') (h : m'.Holds id) : m.Holds id := by
  induction tokens generalizing m with
  | nil => exact h.of_modify hm
  | cons token tokens ih =>
    unfold UniProcExecutor.book at hm
    rw [List.foldlM_cons] at hm
    cases hs : m.storeGeneratedToken seq.requestId token with
    | error e =>
      rw [hs] at hm
      cases hm
    | ok m₁ =>
      rw [hs] at hm
      exact (ih hm).of_modify hs

end ModelRunner

namespace StructuredOutputManager

variable {Logits : Type} {g : GrammarOps Logits} {mgr mgr' : StructuredOutputManager g.Matcher}
  {id i : RequestId}

theorem mem_maskLogits {logits : Logits} {result : Except String Logits}
    (hm : mgr.maskLogits g id logits = (result, mgr')) (h : i ∈ mgr'.matchers) :
    i ∈ mgr.matchers := by
  obtain rfl := (congrArg Prod.snd hm).symm
  unfold maskLogits at h
  split at h
  · exact h
  · rename_i matcher hm
    rcases (AList.mem_insert _).mp h with rfl | h
    · exact AList.lookup_isSome.mp (by rw [hm]; rfl)
    · exact h

theorem mem_acceptToken {token : Token} {result : Except String Unit}
    (hm : mgr.acceptToken g id token = (result, mgr')) (h : i ∈ mgr'.matchers) :
    i ∈ mgr.matchers := by
  obtain rfl := (congrArg Prod.snd hm).symm
  unfold acceptToken at h
  split at h
  · exact h
  · rename_i matcher hm
    split at h
    · exact h
    · have hins : i ∈ mgr.matchers.insert id (g.acceptToken matcher token).2 := by
        dsimp only at h
        split at h <;> exact h
      rcases (AList.mem_insert _).mp hins with rfl | h
      · exact AList.lookup_isSome.mp (by rw [hm]; rfl)
      · exact h

theorem mem_removeAll {ids : List RequestId}
    (h : i ∈ (ids.foldl remove mgr).matchers) : i ∈ mgr.matchers := by
  induction ids generalizing mgr with
  | nil => exact h
  | cons j ids ih => exact (AList.mem_erase.mp (ih h)).2

end StructuredOutputManager

namespace UniProcExecutor

variable {Matcher : Type}

/-- The ids in the tables of the executor, table by table. -/
def tables (e : UniProcExecutor Matcher) : List (List RequestId) :=
  [e.runner.requestStates.keys, e.runner.requestSamplingParams.keys,
    e.runner.speculativeDrafts.keys, (e.structuredOutputs.map (·.matchers.keys)).getD []]

/-- A table of the executor has an entry for the request. -/
def Holds (e : UniProcExecutor Matcher) (id : RequestId) : Prop :=
  e.runner.Holds id ∨ ∃ mgr ∈ e.structuredOutputs, id ∈ mgr.matchers

theorem holds_iff {e : UniProcExecutor Matcher} {id : RequestId} :
    e.Holds id ↔ ∃ ids ∈ e.tables, id ∈ ids := by
  have hmatchers : (∃ mgr ∈ e.structuredOutputs, id ∈ mgr.matchers) ↔
      id ∈ (e.structuredOutputs.map (·.matchers.keys)).getD [] := by
    cases e.structuredOutputs with
    | none => simp
    | some mgr => simp [AList.mem_keys]
  simp only [tables, List.mem_cons, List.not_mem_nil, or_false, exists_eq_or_imp, exists_eq_left,
    ← hmatchers, Holds, ModelRunner.Holds, AList.mem_keys, or_assoc]

variable {ops : ModelOps} {g : GrammarOps ops.Logits} {e e' : UniProcExecutor g.Matcher}
  {id : RequestId}

theorem Holds.of_abort {i : RequestId} (h : (e.abortRequest i).Holds id) :
    e.Holds id ∧ id ≠ i := by
  rcases h with h | ⟨mgr, hmgr, hid⟩
  · obtain ⟨h, hne⟩ := h.of_remove
    exact ⟨Or.inl h, hne⟩
  · obtain ⟨mgr₀, hmgr₀, rfl⟩ := Option.map_eq_some_iff.mp hmgr
    obtain ⟨hne, hid⟩ := AList.mem_erase.mp hid
    exact ⟨Or.inr ⟨mgr₀, hmgr₀, hid⟩, hne⟩

theorem Holds.of_add {i : RequestId} {tokens : List Token} {params : SamplingParams}
    (h : (addRequest g i tokens params e).2.Holds id) :
    e.Holds id ∨ id = i ∧ (addRequest g i tokens params e).1 = .ok () := by
  have hrunner : ((e.runner.addRequest i tokens).setSamplingParams i params).Holds id →
      e.runner.Holds id ∨ id = i := by
    simp only [ModelRunner.Holds, ModelRunner.setSamplingParams, ModelRunner.addRequest,
      AList.mem_insert]
    tauto
  cases hparams : params.structuredOutputs with
  | none =>
    simp only [addRequest, hparams] at h ⊢
    rcases h with h | h
    · exact (hrunner h).imp Or.inl fun hid => ⟨hid, trivial⟩
    · exact Or.inl (Or.inr h)
  | some constraint =>
    cases hmgr : e.structuredOutputs with
    | none =>
      simp only [addRequest, hparams, hmgr] at h
      exact Or.inl h
    | some mgr =>
      have hkept : ({ e with structuredOutputs := some mgr } : UniProcExecutor g.Matcher) = e := by
        rw [← hmgr]
      cases hvalid : constraint.validate with
      | error err =>
        simp only [addRequest, hparams, hmgr, StructuredOutputManager.register, hvalid] at h
        rw [hkept] at h
        exact Or.inl h
      | ok u =>
        cases hcompile : g.compile constraint with
        | error err =>
          simp only [addRequest, hparams, hmgr, StructuredOutputManager.register, hvalid,
            hcompile] at h
          rw [hkept] at h
          exact Or.inl h
        | ok matcher =>
          simp only [addRequest, hparams, hmgr, StructuredOutputManager.register, hvalid,
            hcompile] at h ⊢
          rcases h with h | ⟨mgr', hmgr', hid⟩
          · exact (hrunner h).imp Or.inl fun hid => ⟨hid, trivial⟩
          · obtain rfl := Option.some.inj hmgr'
            rcases (AList.mem_insert _).mp hid with rfl | hid
            · exact Or.inr ⟨rfl, trivial⟩
            · exact Or.inl (Or.inr ⟨mgr, hmgr, hid⟩)

theorem Holds.of_manager {mgr mgr' : StructuredOutputManager g.Matcher}
    (hmgr : e.structuredOutputs = some mgr) (hsub : ∀ i ∈ mgr'.matchers, i ∈ mgr.matchers)
    (h : ({ e with structuredOutputs := some mgr' } : UniProcExecutor g.Matcher).Holds id) :
    e.Holds id := by
  rcases h with h | ⟨mgr'', hmgr'', hid⟩
  · exact Or.inl h
  · obtain rfl := Option.some.inj hmgr''
    exact Or.inr ⟨mgr, hmgr, hsub id hid⟩

variable {batch : InputBatch} {drafts : AList fun _ : RequestId => List Token} {i : ℕ}
  {seq : BatchSeq}

variable (batch i seq) in
theorem Holds.of_sample (h : (e.sampleConstrained ops g batch i seq).2.Holds id) : e.Holds id := by
  unfold sampleConstrained at h
  dsimp only at h
  cases hl : ops.lastLogits batch i with
  | error err =>
    rw [hl] at h
    exact h
  | ok logits =>
    rw [hl] at h
    cases hmgr : e.structuredOutputs with
    | none =>
      simp only [hmgr] at h
      exact h
    | some mgr =>
      simp only [hmgr] at h
      split at h
      · rename_i hm
        exact h.of_manager hmgr fun j hj => StructuredOutputManager.mem_maskLogits hm hj
      · rename_i mgr₁ hm
        have hsub : ∀ j ∈ mgr₁.matchers, j ∈ mgr.matchers := fun j hj =>
          StructuredOutputManager.mem_maskLogits hm hj
        split at h
        · rename_i ha
          exact h.of_manager hmgr fun j hj =>
            hsub j (StructuredOutputManager.mem_acceptToken ha hj)
        · rename_i ha
          exact h.of_manager hmgr fun j hj =>
            hsub j (StructuredOutputManager.mem_acceptToken ha hj)

variable (batch drafts i seq) in
theorem Holds.of_runSeq (h : (runSeq ops g drafts batch i seq e).2.Holds id) : e.Holds id := by
  have hsample : (sampleSeq ops g drafts batch i seq e).2.Holds id → e.Holds id := by
    intro h
    unfold sampleSeq at h
    split at h
    · exact h
    · refine Holds.of_sample batch i seq ?_
      split at h
      · rename_i he
        rwa [he]
      · rename_i he
        rwa [he]
  unfold runSeq at h
  split at h
  · rename_i he
    exact hsample (by rwa [he])
  · rename_i tokens e₁ he
    refine hsample ?_
    rw [he]
    split at h
    · exact h
    · rename_i hb
      exact h.imp_left fun h => h.of_book hb

theorem Holds.of_runSeqs {seqs : List BatchSeq}
    (h : (runSeqs ops g drafts batch i seqs e).2.Holds id) : e.Holds id := by
  induction seqs generalizing i e with
  | nil => exact h
  | cons seq seqs ih =>
    refine Holds.of_runSeq batch drafts i seq ?_
    unfold runSeqs at h
    split at h
    · rename_i he
      rwa [he]
    · rename_i he
      rw [he]
      refine ih (i := i + 1) ?_
      split at h
      · rename_i hs
        rwa [hs]
      · rename_i hs
        rwa [hs]

theorem Holds.of_execute {blockSize : ℕ} {out : SchedulerOutput}
    (h : (executeModel ops g blockSize out e).2.Holds id) : e.Holds id := by
  have hremove : ∀ runner : ModelRunner, Holds
      ⟨runner, e.structuredOutputs.map (out.finished.foldl StructuredOutputManager.remove ·)⟩ id →
      (runner.Holds id → e.runner.Holds id) → e.Holds id := by
    rintro runner (h | ⟨mgr, hmgr, hid⟩) hr
    · exact Or.inl (hr h)
    · obtain ⟨mgr₀, hmgr₀, rfl⟩ := Option.map_eq_some_iff.mp hmgr
      exact Or.inr ⟨mgr₀, hmgr₀, StructuredOutputManager.mem_removeAll hid⟩
  unfold executeModel at h
  dsimp only at h
  split at h
  · rename_i runner hp
    exact hremove runner h fun h => ModelRunner.Holds.of_prepare (by rwa [hp])
  · rename_i runner hp
    refine hremove runner ?_ fun h => ModelRunner.Holds.of_prepare (by rwa [hp])
    split at h
    · rename_i hs
      exact Holds.of_runSeqs (by rwa [hs])
    · rename_i hs
      exact Holds.of_runSeqs (by rwa [hs])

end UniProcExecutor

end Rllm
