import Rllm.Executor.Effects
import Rllm.Executor.Speculative
import Rllm.Sampling.Logits

/-! # Suppression in the executor

The tokens of an execution, position by position: each is a draft that the
model predicts or a token of the sampler. The sampler keeps the end token back
while a request is short of tokens; for everything else that may end a request
there is a condition on the logits, the drafts and the random numbers.
-/

namespace Rllm

/-! ## Verified drafts, position by position -/

namespace UniProc

variable (ops : ModelOps) (sample : ops.Logits → ℕ → Token) (drafts : List Token)
  (logits : List ops.Logits)

/-- The model predicts the draft at a position. -/
def PredictedAt (i : ℕ) : Prop := ∃ l, logits[i]? = some l ∧ drafts[i]? = some (ops.argmax l)

/-- The verification gets as far as a position: the drafts before it are predicted, but for the
last one, whose rejection does not end it. -/
def Arrives (j : ℕ) : Prop := ∀ i < j, i + 1 < drafts.length → PredictedAt ops drafts logits i

/-- The token that is given out at a position. -/
def Emits (j : ℕ) (token : Token) : Prop :=
  ∃ l, logits[j]? = some l ∧
    token = if drafts[j]? = some (ops.argmax l) then ops.argmax l else sample l j

variable {ops sample drafts logits}

theorem acceptDrafts_emits (accepted : List Token) :
    ∃ rest, acceptDrafts ops sample drafts logits accepted = accepted ++ rest ∧
      ∀ j token, rest[j]? = some token → j < drafts.length ∧
        (∀ i < j, PredictedAt ops drafts logits i) ∧
        Emits ops (fun l k => sample l (accepted.length + k)) drafts logits j token := by
  induction drafts generalizing logits accepted with
  | nil =>
    refine ⟨[], by simp [acceptDrafts], fun j token h => by simp at h⟩
  | cons d ds ih =>
    cases logits with
    | nil => exact ⟨[], by simp [acceptDrafts], fun j token h => by simp at h⟩
    | cons l ls =>
      rw [acceptDrafts]
      split
      · rename_i hd
        obtain ⟨rest, hrest, hemits⟩ := @ih ls (accepted ++ [d])
        refine ⟨d :: rest, by rw [hrest, List.append_assoc]; rfl, ?_⟩
        rintro (_ | j) token h
        · obtain rfl := Option.some.inj h
          refine ⟨Nat.succ_pos _, fun i hi => absurd hi (Nat.not_lt_zero i), l, rfl, ?_⟩
          rw [List.getElem?_cons_zero, if_pos (by rw [hd]), hd]
        · obtain ⟨hj, hpred, l', hl', htoken⟩ := hemits j token h
          refine ⟨Nat.succ_lt_succ hj, ?_, l', hl', ?_⟩
          · rintro (_ | i) hi
            · exact ⟨l, rfl, by rw [hd]; rfl⟩
            · exact hpred i (Nat.lt_of_succ_lt_succ hi)
          · have hcount : (accepted ++ [d]).length + j = accepted.length + (j + 1) := by
              simp only [List.length_append, List.length_singleton]
              omega
            rw [htoken]
            dsimp only
            rw [hcount]
            rfl
      · rename_i hd
        refine ⟨[sample l accepted.length], rfl, ?_⟩
        rintro (_ | j) token h
        · obtain rfl := Option.some.inj h
          refine ⟨Nat.succ_pos _, fun i hi => absurd hi (Nat.not_lt_zero i), l, rfl, ?_⟩
          rw [List.getElem?_cons_zero, if_neg fun he => hd (Option.some.inj he).symm]
          rfl
        · cases h

theorem verify_emits (hd : drafts ≠ []) (hl : logits ≠ []) {j : ℕ} {token : Token}
    (h : (verify ops sample drafts logits)[j]? = some token) :
    j ≤ drafts.length ∧ Arrives ops drafts logits j ∧ Emits ops sample drafts logits j token := by
  obtain ⟨accepted, hacc, hemits⟩ := @acceptDrafts_emits ops sample drafts logits []
  rw [List.nil_append] at hacc
  have hemits : ∀ j token, accepted[j]? = some token → j < drafts.length ∧
      (∀ i < j, PredictedAt ops drafts logits i) ∧ Emits ops sample drafts logits j token := by
    simpa only [List.length_nil, Nat.zero_add] using hemits
  have hne : accepted ≠ [] := hacc ▸ acceptDrafts_ne_nil hd hl
  have hloop : accepted[j]? = some token →
      j ≤ drafts.length ∧ Arrives ops drafts logits j ∧ Emits ops sample drafts logits j token := by
    intro h
    obtain ⟨hj, hpred, he⟩ := hemits j token h
    exact ⟨hj.le, fun i hi _ => hpred i hi, he⟩
  cases hbonus : logits[drafts.length]? with
  | none =>
    apply hloop
    simpa [verify, hacc, hbonus, hne] using h
  | some bonus =>
    rw [verify_of_accepted ops (List.length_pos_iff.mpr hd) hacc hne hbonus] at h
    split at h
    · rename_i hlen
      rw [List.getElem?_append] at h
      split at h
      · exact hloop h
      · -- the token behind the drafts
        rename_i hge
        have hj : j = drafts.length := by
          have := (List.getElem?_eq_some_iff.mp h).1
          rw [List.length_singleton] at this
          omega
        subst hj
        have hlast : accepted.length - 1 < accepted.length :=
          Nat.sub_lt (List.length_pos_iff.mpr hne) Nat.one_pos
        obtain ⟨-, hpred, -⟩ := hemits _ _ (List.getElem?_eq_getElem hlast)
        refine ⟨le_rfl, fun i _ hi => hpred i (by omega), _, hbonus, ?_⟩
        rw [List.getElem?_eq_none le_rfl, if_neg nofun]
        rw [hlen, Nat.sub_self] at h
        exact (Option.some.inj h).symm
    · exact hloop h

end UniProc

/-! ## One execution -/

/-- What an execution runs on: the arithmetic, the forward pass, and the random numbers by the
sequence of the batch and the count of generated tokens they are drawn for. -/
structure ModelRun where
  floats : FloatOps
  forward : Forward
  vocabSize : ℕ
  random : ℕ → ℕ → F32

namespace ModelRun

/-- The model and the sampler of the execution. -/
def ops (run : ModelRun) (eosTokenId : Token) : ModelOps where
  Logits := List F32
  zeroLogits := List.replicate run.vocabSize (.fin 0)
  positionLogits := run.forward.positionLogits
  lastLogits := run.forward.lastLogits
  argmax logits := UInt32.ofNat (argmaxImpl logits)
  sample i input := (run.floats.samplerOps (run.random i input.numGenerated)).sample input
  eosTokenId

variable (run : ModelRun) (eosTokenId : Token) (stops : Token → Prop)

/-- The sampling input of a request at a position behind its generated tokens. -/
def input (w : RunnerRequestState) (params : SamplingParams) (logits : List F32) (k : ℕ) :
    SamplingInput (List F32) where
  logits
  params
  contextTokenIds := w.promptTokenIds ++ w.generatedTokenIds
  numGenerated := w.generatedTokenIds.length + k
  eosTokenId

/-- Where the request is short of tokens, the sampler returns a stop token only if it returns the
end token. -/
def ClearAt (i : ℕ) (w : RunnerRequestState) (params : SamplingParams) (logits : List F32)
    (k : ℕ) : Prop :=
  w.generatedTokenIds.length + k + 1 < params.minTokens →
    FloatOps.Clear run.floats (run.random i (w.generatedTokenIds.length + k)) stops
      (input eosTokenId w params logits k)

/-- The same of every position that a verification arrives at, where a draft that the model
predicts is no stop token. -/
def VerifiesClear (i : ℕ) (w : RunnerRequestState) (params : SamplingParams)
    (drafts : List Token) (logits : List (List F32)) : Prop :=
  ∀ k l, k ≤ drafts.length → UniProc.Arrives (run.ops eosTokenId) drafts logits k →
    logits[k]? = some l →
    if drafts[k]? = some (UInt32.ofNat (argmaxImpl l)) then
      w.generatedTokenIds.length + k + 1 < params.minTokens → ¬ stops (UInt32.ofNat (argmaxImpl l))
    else run.ClearAt eosTokenId stops i w params l k

/-- The same of a sequence of the batch. -/
def SequenceClear (drafts : AList fun _ : RequestId => List Token) (batch : InputBatch) (i : ℕ)
    (seq : BatchSeq) (w : RunnerRequestState) (params : SamplingParams) : Prop :=
  match seq.isPrefill, drafts.lookup seq.requestId with
  | false, some ds => ∀ logits, run.forward.positionLogits batch i = .ok logits →
    run.VerifiesClear eosTokenId stops i w params ds
      (logits ++ List.replicate (seq.tokenIds.length - logits.length)
        (List.replicate run.vocabSize (.fin 0)))
  | _, _ => ∀ logits, run.forward.lastLogits batch i = .ok logits →
    run.ClearAt eosTokenId stops i w params
      (logits.getD (List.replicate run.vocabSize (.fin 0))) 0

variable {run eosTokenId stops} {i : ℕ} {w : RunnerRequestState} {params : SamplingParams}

theorem ClearAt.not_stops {l : List F32} {k : ℕ}
    (h : run.ClearAt eosTokenId stops i w params l k)
    (hmin : w.generatedTokenIds.length + k + 1 < params.minTokens) :
    ¬ stops ((run.ops eosTokenId).sample i (input eosTokenId w params l k)) :=
  (h hmin).not_stops (Nat.lt_of_succ_lt hmin)

/-- A sequence samples no stop token for a request that is short of tokens. -/
theorem SequenceClear.not_stops {drafts : AList fun _ : RequestId => List Token}
    {batch : InputBatch} {seq : BatchSeq} {m : ModelRunner} {tokens : List Token}
    (h : run.SequenceClear eosTokenId stops drafts batch i seq w params)
    (hw : m.requestStates.lookup seq.requestId = some w)
    (hparams : m.requestSamplingParams.lookup seq.requestId = some params)
    (hdrafts : ∀ ds, drafts.lookup seq.requestId = some ds → ds ≠ [])
    (hseq : seq.isPrefill = false → seq.tokenIds ≠ [])
    (hs : UniProc.sampleSeq (run.ops eosTokenId) drafts batch i seq m = .ok tokens) {k : ℕ}
    {token : Token} (hk : tokens[k]? = some token)
    (hmin : w.generatedTokenIds.length + k + 1 < params.minTokens) : ¬ stops token := by
  have hcontext : m.getContextTokenIds seq.requestId = (w.promptTokenIds, w.generatedTokenIds) := by
    rw [ModelRunner.getContextTokenIds, hw]
    rfl
  unfold UniProc.sampleSeq at hs
  rw [hparams, hcontext] at hs
  dsimp only [Option.getD_some] at hs
  unfold SequenceClear at h
  split at h
  · rename_i ds hp hds
    simp only [hp, hds] at hs
    have hforward : (run.ops eosTokenId).positionLogits batch i =
        run.forward.positionLogits batch i := rfl
    rw [hforward] at hs
    cases hl : run.forward.positionLogits batch i with
    | error e =>
      rw [hl] at hs
      cases hs
    | ok logits =>
      rw [hl] at hs
      obtain rfl := Except.ok.inj hs
      have hlogits : logits ++ List.replicate (seq.tokenIds.length - logits.length)
          (List.replicate run.vocabSize (.fin 0)) ≠ [] := by
        have := List.length_pos_iff.mpr (hseq hp)
        rw [← List.length_pos_iff, List.length_append, List.length_replicate]
        omega
      obtain ⟨hle, harrives, l, hlk, htoken⟩ := UniProc.verify_emits (hdrafts ds hds) hlogits hk
      have hclear := h logits hl k l hle harrives hlk
      have hargmax : (run.ops eosTokenId).argmax l = UInt32.ofNat (argmaxImpl l) := rfl
      rw [htoken, hargmax]
      split at hclear
      · rename_i hpred
        rw [if_pos hpred]
        exact hclear hmin
      · rename_i hpred
        rw [if_neg hpred]
        exact hclear.not_stops hmin
  · rename_i hplain
    have hone : ∃ logits, run.forward.lastLogits batch i = .ok logits ∧
        tokens = [(run.ops eosTokenId).sample i (input eosTokenId w params
          (logits.getD (List.replicate run.vocabSize (.fin 0))) 0)] := by
      split at hs
      · rename_i ds hp hds
        exact (hplain ds hp hds).elim
      · cases hl : (run.ops eosTokenId).lastLogits batch i with
        | error e =>
          rw [hl] at hs
          cases hs
        | ok logits =>
          rw [hl] at hs
          exact ⟨logits, hl, (Except.ok.inj hs).symm⟩
    obtain ⟨logits, hl, rfl⟩ := hone
    obtain ⟨rfl, rfl⟩ : k = 0 ∧ _ = token := by
      cases k with
      | zero => exact ⟨rfl, Option.some.inj hk⟩
      | succ k => cases hk
    exact (h logits hl).not_stops hmin

/-- In an execution, nothing but the end token could end a request that is short of tokens. -/
def ClearFor (run : ModelRun) (eosTokenId : Token) (stops : Token → Prop) (blockSize : ℕ)
    (out : SchedulerOutput) (m : ModelRunner) (id : RequestId) : Prop :=
  ∀ drafts batch i seq w params, (UniProc.prepare blockSize out m).1 = .ok (drafts, batch) →
    batch.seqs[i]? = some seq → seq.requestId = id → m.requestStates.lookup id = some w →
    m.requestSamplingParams.lookup id = some params →
    run.SequenceClear eosTokenId stops drafts batch i seq w params

theorem ClearFor.of_enough {blockSize : ℕ} {out : SchedulerOutput} {m : ModelRunner}
    {id : RequestId} (h : ∀ w params, m.requestStates.lookup id = some w →
      m.requestSamplingParams.lookup id = some params →
      params.minTokens ≤ w.generatedTokenIds.length + 1) :
    run.ClearFor eosTokenId stops blockSize out m id := by
  intro drafts batch i seq w params _ _ _ hw hparams
  have henough : ∀ k, ¬ w.generatedTokenIds.length + k + 1 < params.minTokens := by
    intro k
    have := h w params hw hparams
    omega
  unfold SequenceClear
  split
  · intro logits _ k l _ _ _
    split
    · exact fun hlt => absurd hlt (henough k)
    · exact fun hlt => absurd hlt (henough k)
  · exact fun logits _ hlt => absurd hlt (henough 0)

theorem ClearFor.not_stops {blockSize : ℕ} {out : SchedulerOutput} {m m' : ModelRunner}
    {o : PerRequestOutput} (h : run.ClearFor eosTokenId stops blockSize out m o.requestId)
    (hout : (out.scheduledNew ++ out.scheduledRunning).Nodup) {res : ExecutorOutput}
    (hrun : UniProc.executeModel (run.ops eosTokenId) blockSize out m = (.ok res, m'))
    (ho : o ∈ res.perRequestOutputs) :
    ∃ w, m.requestStates.lookup o.requestId = some w ∧
      (m.requestSamplingParams.lookup o.requestId = some params → ∀ k token,
        o.tokenIds[k]? = some token → w.generatedTokenIds.length + k + 1 < params.minTokens →
        ¬ stops token) := by
  obtain ⟨drafts, batch, i, seq, m₁, mp, w, hprep, hproposed, hi, hid, hs, hfeeds, hw, hw₁,
    hparams₁⟩ := UniProc.executeModel_sampled hout hrun ho
  refine ⟨w, hw, fun hparams k token hk hmin => ?_⟩
  have hclear := h drafts batch i seq w params hprep hi hid hw hparams
  rw [← hid] at hw₁ hparams₁ hparams
  refine hclear.not_stops hw₁ (hparams₁.trans hparams)
    (fun ds hds => ModelRunner.proposeAll_ne_nil hproposed hds) ?_ hs hk hmin
  intro hp
  cases hfeeds with
  | prefill _ _ _ _ hspec => exact absurd (hspec.isPrefill_eq.symm.trans hp) nofun
  | decode _ _ hspec => exact hspec.tokenIds_eq ▸ List.cons_ne_nil _ _

end ModelRun

end Rllm
