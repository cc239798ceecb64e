import Rllm.Executor.UniProc

/-! # Speculative decoding against plain decoding

At temperature zero the executor verifies drafts against the maximum of the
logits. The accepted tokens are those that decoding one token at a time would
emit, unless the last draft is the first to be rejected: the code then takes
the corrected token for an accepted draft and adds a token that the model
predicts after the rejected one.
-/

namespace Rllm

/-- The index of the maximum. -/
def argmaxImpl (logits : List F32) : ℕ :=
  ((maxBy (fun x y => (x.1.partialCmp y.1).getD .eq) logits.zipIdx).map Prod.snd).getD 0

theorem greedySample_eq (logits : List F32) :
    greedySample logits = UInt32.ofNat (argmaxImpl logits) := by
  unfold greedySample argmaxImpl
  cases maxBy _ logits.zipIdx <;> rfl

/-- The logits that a forward pass gives. -/
structure Forward where
  positionLogits : InputBatch → ℕ → Except String (List (List F32))
  lastLogits : InputBatch → ℕ → Except String (Option (List F32))

/-- The executor with its sampler. -/
def SamplerOps.modelOps (S : SamplerOps) (fwd : Forward) (vocabSize : ℕ) (eosTokenId : Token) :
    ModelOps where
  Logits := List F32
  zeroLogits := List.replicate vocabSize (.fin 0)
  positionLogits := fwd.positionLogits
  lastLogits := fwd.lastLogits
  argmax logits := UInt32.ofNat (argmaxImpl logits)
  sample _ input := S.sample input
  eosTokenId

theorem UniProc.acceptDrafts_ne_nil {ops : ModelOps} {sample : ops.Logits → ℕ → Token}
    {drafts accepted : List Token} {logits : List ops.Logits} (hd : drafts ≠ [])
    (hl : logits ≠ []) :
    acceptDrafts ops sample drafts logits accepted ≠ [] := by
  have hgrows : ∀ (ds : List Token) (ls : List ops.Logits) (as : List Token), as ≠ [] →
      acceptDrafts ops sample ds ls as ≠ [] := by
    intro ds ls as has
    fun_induction acceptDrafts ops sample ds ls as with
    | case1 _ _ _ _ ih => exact ih (by simp)
    | case2 => simp
    | case3 => exact has
  obtain ⟨d, ds, rfl⟩ := List.exists_cons_of_ne_nil hd
  obtain ⟨l, ls, rfl⟩ := List.exists_cons_of_ne_nil hl
  rw [acceptDrafts]
  split
  · exact hgrows _ _ _ (by simp)
  · simp

theorem UniProc.verify_of_accepted (ops : ModelOps) {sample : ops.Logits → ℕ → Token}
    {drafts accepted : List Token} {logits : List ops.Logits} {bonus : ops.Logits}
    (hpos : 0 < drafts.length)
    (hacc : acceptDrafts ops sample drafts logits [] = accepted) (hne : accepted ≠ [])
    (hbonus : logits[drafts.length]? = some bonus) :
    verify ops sample drafts logits =
      if accepted.length = drafts.length then accepted ++ [sample bonus accepted.length]
      else accepted := by
  unfold verify
  dsimp only
  rw [hacc, hbonus]
  dsimp only
  by_cases hlen : accepted.length = drafts.length
  · simp [hlen, hpos]
  · simp [hlen, hne]

theorem UniProc.sampleSeq_drafts (ops : ModelOps) {proposed : AList fun _ : RequestId => List Token}
    {batch : InputBatch} {i : ℕ} {seq : BatchSeq} {m : ModelRunner} {drafts : List Token}
    {logits : List ops.Logits} (hdecode : seq.isPrefill = false)
    (hdrafts : proposed.lookup seq.requestId = some drafts)
    (hlogits : ops.positionLogits batch i = .ok logits) :
    sampleSeq ops proposed batch i seq m = .ok (verify ops
      (fun logits accepted => ops.sample i
        { logits, params := (m.requestSamplingParams.lookup seq.requestId).getD {},
          contextTokenIds := (m.getContextTokenIds seq.requestId).1 ++
            (m.getContextTokenIds seq.requestId).2,
          numGenerated := (m.getContextTokenIds seq.requestId).2.length + accepted,
          eosTokenId := ops.eosTokenId })
      drafts (logits ++ List.replicate (seq.tokenIds.length - logits.length) ops.zeroLogits)) := by
  unfold sampleSeq
  simp only [hdecode, hdrafts, hlogits]
  rfl

namespace Speculative

variable (model : List Token → List F32)

/-- The token that the model predicts after a context. -/
def predict (context : List Token) : Token := greedySample (model context)

/-- Decoding one token at a time: each is sampled from the logits of everything before it. -/
def plainTokens (S : SamplerOps) (params : SamplingParams) (eosTokenId : Token) :
    List Token → ℕ → ℕ → List Token
  | _, _, 0 => []
  | context, numGenerated, n + 1 =>
    let token := S.sample
      { logits := model context, params, contextTokenIds := context, numGenerated, eosTokenId }
    token :: plainTokens S params eosTokenId (context ++ [token]) (numGenerated + 1) n

/-- The logits after the context and after each of the drafts. -/
def draftLogits (context drafts : List Token) : List (List F32) :=
  (List.range (drafts.length + 1)).map fun j => model (context ++ drafts.take j)

/-- The model predicts each of the tokens after the ones before it. -/
def Agrees (context tokens : List Token) : Prop :=
  ∀ pre t post, tokens = pre ++ t :: post → predict model (context ++ pre) = t

/-- If the last draft is the first that the model does not predict, then the model predicts the
same token after it as after its own token. -/
def LastRejectionHarmless (context drafts : List Token) : Prop :=
  ∀ pre draft, drafts = pre ++ [draft] → Agrees model context pre →
    predict model (context ++ pre) ≠ draft →
    predict model (context ++ pre ++ [draft]) =
      predict model (context ++ pre ++ [predict model (context ++ pre)])

variable {model} {context drafts : List Token}

theorem draftLogits_cons (d : Token) :
    draftLogits model context (d :: drafts) =
      model context :: draftLogits model (context ++ [d]) drafts := by
  rw [draftLogits, List.length_cons, List.range_succ_eq_map, List.map_cons, List.map_map]
  simp [draftLogits, Function.comp_def]

theorem agrees_cons {t : Token} {tokens : List Token} :
    Agrees model context (t :: tokens) ↔
      predict model context = t ∧ Agrees model (context ++ [t]) tokens := by
  constructor
  · intro h
    refine ⟨by simpa using h [] t tokens rfl, ?_⟩
    rintro pre u post rfl
    simpa using h (t :: pre) u post rfl
  · rintro ⟨ht, h⟩ (_ | ⟨v, pre⟩) u post he
    · obtain ⟨rfl, -⟩ := List.cons.inj he
      simpa using ht
    · obtain ⟨rfl, rfl⟩ := List.cons.inj he
      simpa using h pre u post rfl

theorem agrees_nil : Agrees model context [] := by
  rintro pre t post he
  simp at he

/-! ## Plain decoding -/

/-- The predictions of the model, one after the other. -/
def greedy (model : List Token → List F32) (context : List Token) : ℕ → List Token
  | 0 => []
  | n + 1 => predict model context :: greedy model (context ++ [predict model context]) n

theorem plainTokens_eq {S : SamplerOps} {params : SamplingParams} (hp : params.Neutral)
    (eosTokenId : Token) (numGenerated n : ℕ) :
    plainTokens model S params eosTokenId context numGenerated n = greedy model context n := by
  induction n generalizing context numGenerated with
  | zero => rfl
  | succ n ih =>
    rw [plainTokens, S.sample_neutral hp rfl]
    exact congrArg _ (ih _)

theorem greedy_of_agrees {tokens : List Token} (h : Agrees model context tokens) (n : ℕ) :
    greedy model context (tokens.length + n) = tokens ++ greedy model (context ++ tokens) n := by
  induction tokens generalizing context with
  | nil => simp
  | cons t tokens ih =>
    obtain ⟨ht, htokens⟩ := agrees_cons.mp h
    rw [List.length_cons, Nat.add_right_comm, greedy, ht, ih htokens]
    simp

/-! ## The verification loop -/

/-- What the loop makes of the drafts. -/
def loopTokens (model : List Token → List F32) (context : List Token) : List Token → List Token
  | [] => []
  | d :: ds =>
    if predict model context = d then d :: loopTokens model (context ++ [d]) ds
    else [predict model context]

theorem loopTokens_of_agrees {tokens : List Token} (h : Agrees model context tokens)
    (ds : List Token) : loopTokens model context (tokens ++ ds) =
      tokens ++ loopTokens model (context ++ tokens) ds := by
  induction tokens generalizing context with
  | nil => simp
  | cons t tokens ih =>
    obtain ⟨ht, htokens⟩ := agrees_cons.mp h
    rw [List.cons_append, loopTokens, if_pos ht, ih htokens]
    simp

theorem loopTokens_of_not_agrees {tokens : List Token} (h : ¬ Agrees model context tokens)
    (ds : List Token) :
    loopTokens model context (tokens ++ ds) = greedy model context
      (loopTokens model context (tokens ++ ds)).length ∧
    (loopTokens model context (tokens ++ ds)).length ≤ tokens.length ∧
    loopTokens model context (tokens ++ ds) ≠ [] := by
  induction tokens generalizing context with
  | nil => exact absurd agrees_nil h
  | cons t tokens ih =>
    rw [List.cons_append, loopTokens]
    split
    · rename_i ht
      obtain ⟨heq, hlen, -⟩ := ih fun h' => h (agrees_cons.mpr ⟨ht, h'⟩)
      refine ⟨?_, ?_, by simp⟩
      · rw [List.length_cons, greedy, ht, ← heq]
      · simpa using hlen
    · exact ⟨rfl, by simp, by simp⟩

section Verify

variable {S : SamplerOps} {fwd : Forward} {vocabSize : ℕ} {eosTokenId : Token}
  {sample : List F32 → ℕ → Token} (hs : ∀ c k, sample (model c) k = predict model c)

include hs

theorem acceptDrafts_eq (pad : List (List F32)) (accepted : List Token) :
    UniProc.acceptDrafts (S.modelOps fwd vocabSize eosTokenId) sample drafts
      (draftLogits model context drafts ++ pad) accepted =
      accepted ++ loopTokens model context drafts := by
  induction drafts generalizing context accepted with
  | nil => simp [UniProc.acceptDrafts, loopTokens]
  | cons d ds ih =>
    have hargmax : (S.modelOps fwd vocabSize eosTokenId).argmax (model context) =
        predict model context := (greedySample_eq _).symm
    rw [draftLogits_cons]
    change (if (S.modelOps fwd vocabSize eosTokenId).argmax (model context) = d then
      UniProc.acceptDrafts (S.modelOps fwd vocabSize eosTokenId) sample ds
        (draftLogits model (context ++ [d]) ds ++ pad) (accepted ++ [d])
      else accepted ++ [sample (model context) accepted.length]) = _
    rw [hargmax, loopTokens]
    split
    · rw [ih, List.append_assoc]
      rfl
    · rw [hs]

omit hs in
theorem getElem?_draftLogits (pad : List (List F32)) :
    (draftLogits model context drafts ++ pad)[drafts.length]? =
      some (model (context ++ drafts)) := by
  have hlen : (draftLogits model context drafts).length = drafts.length + 1 := by
    simp [draftLogits]
  rw [List.getElem?_append_left (by omega)]
  simp [draftLogits]

/-- The tokens of a verification: the loop, and one more when it gives as many as there are
drafts. -/
theorem verify_eq (hne : drafts ≠ []) (pad : List (List F32)) :
    UniProc.verify (S.modelOps fwd vocabSize eosTokenId) sample drafts
      (draftLogits model context drafts ++ pad) =
      if (loopTokens model context drafts).length = drafts.length then
        loopTokens model context drafts ++ [predict model (context ++ drafts)]
      else loopTokens model context drafts := by
  have hloop : loopTokens model context drafts ≠ [] := by
    cases drafts with
    | nil => exact absurd rfl hne
    | cons d ds =>
      rw [loopTokens]
      split <;> simp
  have hverify := UniProc.verify_of_accepted (S.modelOps fwd vocabSize eosTokenId)
    (List.length_pos_iff.mpr hne) (acceptDrafts_eq hs pad []) hloop (getElem?_draftLogits pad)
  rw [hverify, List.nil_append]
  split
  · exact congrArg _ (congrArg (· :: []) (hs _ _))
  · rfl

end Verify

/-- The tokens are the first that decoding one at a time would emit, and there is at least one. -/
def PlainPrefix (model : List Token → List F32) (S : SamplerOps) (params : SamplingParams)
    (eosTokenId : Token) (context : List Token) (numGenerated : ℕ) (tokens : List Token) : Prop :=
  tokens ≠ [] ∧
    tokens = plainTokens model S params eosTokenId context numGenerated tokens.length

/-- Verified drafts against plain decoding, in terms of predictions. -/
theorem loop_iff (hne : drafts ≠ []) (tokens : List Token)
    (ht : tokens = if (loopTokens model context drafts).length = drafts.length then
        loopTokens model context drafts ++ [predict model (context ++ drafts)]
      else loopTokens model context drafts) :
    tokens ≠ [] ∧ tokens = greedy model context tokens.length ↔
      LastRejectionHarmless model context drafts := by
  obtain ⟨pre, d, rfl⟩ : ∃ pre d, drafts = pre ++ [d] :=
    ⟨_, _, (List.dropLast_append_getLast hne).symm⟩
  by_cases ha : Agrees model context pre
  · -- the loop reaches the last draft and always gives as many tokens as there are drafts
    have hloop : loopTokens model context (pre ++ [d]) =
        pre ++ [predict model (context ++ pre)] := by
      rw [loopTokens_of_agrees ha, loopTokens]
      split
      · rename_i hd
        rw [hd]
        rfl
      · rfl
    rw [hloop, if_pos (by simp)] at ht
    have hlen : tokens.length = pre.length + 2 := by simp [ht]
    have hplain : greedy model context tokens.length = pre ++ [predict model (context ++ pre),
        predict model (context ++ pre ++ [predict model (context ++ pre)])] := by
      rw [hlen, greedy_of_agrees ha]
      rfl
    have hiff : tokens = greedy model context tokens.length ↔
        predict model (context ++ pre ++ [d]) =
          predict model (context ++ pre ++ [predict model (context ++ pre)]) := by
      rw [hplain, ht]
      simp
    rw [hiff]
    constructor
    · rintro ⟨-, hp⟩ pre' d' he - -
      obtain ⟨rfl, hd⟩ := List.append_inj' he rfl
      obtain rfl : d = d' := by simpa using hd
      exact hp
    · intro h
      refine ⟨by simp [ht], ?_⟩
      by_cases hd : predict model (context ++ pre) = d
      · rw [hd]
      · exact h pre d rfl ha hd
  · obtain ⟨heq, hlen, hn⟩ := loopTokens_of_not_agrees ha [d]
    have hlen' : (loopTokens model context (pre ++ [d])).length ≠ (pre ++ [d]).length := by
      simp only [List.length_append, List.length_singleton]
      omega
    rw [if_neg hlen'] at ht
    subst ht
    refine iff_of_true ⟨hn, heq⟩ fun pre' d' he ha' => ?_
    obtain ⟨rfl, -⟩ := List.append_inj' he rfl
    exact absurd ha' ha

/-- The speculative branch accepts the tokens of plain greedy decoding exactly if a rejection of the
last draft alone is harmless. -/
theorem sampleSeq_greedy (S : SamplerOps) (fwd : Forward) (vocabSize : ℕ) (eosTokenId : Token)
    (model : List Token → List F32) (m : ModelRunner)
    (proposed : AList fun _ : RequestId => List Token) (batch : InputBatch) (i : ℕ)
    (seq : BatchSeq) (hdecode : seq.isPrefill = false) (drafts : List Token)
    (hdrafts : proposed.lookup seq.requestId = some drafts) (hne : drafts ≠ [])
    (prompt generated : List Token)
    (hcontext : m.getContextTokenIds seq.requestId = (prompt, generated))
    (params : SamplingParams)
    (hparams : (m.requestSamplingParams.lookup seq.requestId).getD {} = params)
    (hneutral : params.Neutral)
    (hlogits : fwd.positionLogits batch i = .ok (draftLogits model (prompt ++ generated) drafts)) :
    ∃ tokens, UniProc.sampleSeq (S.modelOps fwd vocabSize eosTokenId) proposed batch i seq m =
        .ok tokens ∧
      (PlainPrefix model S params eosTokenId (prompt ++ generated) generated.length tokens ↔
        LastRejectionHarmless model (prompt ++ generated) drafts) := by
  have hs : ∀ c k, S.sample
      { logits := model c, params, contextTokenIds := prompt ++ generated,
        numGenerated := generated.length + k, eosTokenId } = predict model c :=
    fun c k => S.sample_neutral hneutral rfl
  have hrun := UniProc.sampleSeq_drafts (S.modelOps fwd vocabSize eosTokenId) (m := m) hdecode
    hdrafts hlogits
  rw [hparams, hcontext] at hrun
  refine ⟨_, hrun, ?_⟩
  rw [PlainPrefix, plainTokens_eq hneutral]
  exact loop_iff hne _ (verify_eq hs hne _)

/-- A float arithmetic that is not used. -/
def idleSampler : SamplerOps where
  add x _ := x
  sub x _ := x
  mul x _ := x
  div x _ := x
  ofCount _ := .fin 0
  applyTemperature logits _ := logits
  applyTopK logits _ := logits
  applyTopP logits _ := logits
  applyMinP logits _ := logits
  randomSample _ := 0

/-- Three tokens in a circle: each predicts the next. -/
def cycleModel (context : List Token) : List F32 :=
  match context.getLast? with
  | some 0 => [.fin 0, .fin 1, .fin 0]
  | some 1 => [.fin 0, .fin 0, .fin 1]
  | _ => [.fin 1, .fin 0, .fin 0]

def cycleRunner : ModelRunner :=
  (ModelRunner.new.addRequest 1 [0]).setSamplingParams 1 { temperature := .fin 0 }

def cycleSeq (drafts : List Token) : BatchSeq where
  requestId := 1
  tokenIds := 0 :: drafts
  positions := List.range (drafts.length + 1)
  seqLen := drafts.length + 1
  blockTable := [1]
  slotMapping := []
  isPrefill := false

def cycleForward (drafts : List Token) : Forward where
  positionLogits _ _ := .ok (draftLogits cycleModel [0] drafts)
  lastLogits _ _ := .ok none

theorem neutral_cycleRunner :
    ((cycleRunner.requestSamplingParams.lookup 1).getD {}).Neutral := by
  constructor <;> rfl

/-- Both drafts are accepted, and the token after them. -/
theorem sampleSeq_greedy_cycle :
    ∃ tokens, UniProc.sampleSeq (idleSampler.modelOps (cycleForward [1, 2]) 3 3)
        ((∅ : AList fun _ : RequestId => List Token).insert 1 [1, 2]) {} 0 (cycleSeq [1, 2])
        cycleRunner = .ok tokens ∧
      (PlainPrefix cycleModel idleSampler ((cycleRunner.requestSamplingParams.lookup 1).getD {}) 3
          [0] 0 tokens ↔ LastRejectionHarmless cycleModel [0] [1, 2]) :=
  sampleSeq_greedy idleSampler (cycleForward [1, 2]) 3 3 cycleModel cycleRunner _ {} 0
    (cycleSeq [1, 2]) rfl [1, 2] (by decide) (by decide) [0] [] (by decide) _ rfl
    neutral_cycleRunner rfl

/-- One logit is greater than all others. -/
def UniqueMax (logits : List F32) : Prop :=
  ∃ (k : ℕ) (x : F32), logits[k]? = some x ∧
    ∀ (j : ℕ) (y : F32), j ≠ k → logits[j]? = some y → y.lt x = true

theorem uniqueMax_cycleModel (context : List Token) : UniqueMax (cycleModel context) := by
  have hthree : ∀ (j : ℕ) (x y z w : F32), [x, y, z][j]? = some w →
      j = 0 ∧ w = x ∨ j = 1 ∧ w = y ∨ j = 2 ∧ w = z := by
    rintro (_ | _ | _ | j) x y z w h <;> simp_all
  unfold cycleModel
  split
  · refine ⟨1, .fin 1, rfl, fun j y hj hy => ?_⟩
    rcases hthree j _ _ _ y hy with ⟨rfl, rfl⟩ | ⟨rfl, rfl⟩ | ⟨rfl, rfl⟩ <;> first | decide | omega
  · refine ⟨2, .fin 1, rfl, fun j y hj hy => ?_⟩
    rcases hthree j _ _ _ y hy with ⟨rfl, rfl⟩ | ⟨rfl, rfl⟩ | ⟨rfl, rfl⟩ <;> first | decide | omega
  · refine ⟨0, .fin 1, rfl, fun j y hj hy => ?_⟩
    rcases hthree j _ _ _ y hy with ⟨rfl, rfl⟩ | ⟨rfl, rfl⟩ | ⟨rfl, rfl⟩ <;> first | decide | omega

/-- The only draft is rejected, yet a token predicted after it is added. -/
theorem not_sampleSeq_greedy : ¬ ∀ (S : SamplerOps) (fwd : Forward) (vocabSize : ℕ)
    (eosTokenId : Token) (model : List Token → List F32), (∀ c, UniqueMax (model c)) →
    ∀ (m : ModelRunner) (proposed : AList fun _ : RequestId => List Token) (batch : InputBatch)
      (i : ℕ) (seq : BatchSeq), seq.isPrefill = false →
    ∀ drafts, proposed.lookup seq.requestId = some drafts → drafts ≠ [] →
    ∀ prompt generated, m.getContextTokenIds seq.requestId = (prompt, generated) →
    ∀ params, (m.requestSamplingParams.lookup seq.requestId).getD {} = params → params.Neutral →
    fwd.positionLogits batch i = .ok (draftLogits model (prompt ++ generated) drafts) →
    ∀ tokens, UniProc.sampleSeq (S.modelOps fwd vocabSize eosTokenId) proposed batch i seq m =
        .ok tokens →
      PlainPrefix model S params eosTokenId (prompt ++ generated) generated.length tokens := by
  intro h
  have hp := h idleSampler (cycleForward [2]) 3 3 cycleModel uniqueMax_cycleModel cycleRunner
    ((∅ : AList fun _ : RequestId => List Token).insert 1 [2]) {} 0 (cycleSeq [2]) rfl [2]
    (by decide) (by decide) [0] [] (by decide) _ rfl neutral_cycleRunner rfl [1, 0]
    (by decide +kernel)
  revert hp
  unfold PlainPrefix
  decide +kernel

end Speculative

end Rllm
