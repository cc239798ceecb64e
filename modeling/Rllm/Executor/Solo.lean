import Rllm.Executor.Suppression
import Rllm.Library.Checked

/-! # A request on its own

What an execution does for a request, told without the others: the tokens it
feeds, the drafts that the runner holds and the tokens it samples depend on the
request, on the portion of it that is scheduled, and on the random numbers of
the sampler where the draw is not settled without them.
-/

namespace Rllm

namespace ModelRunner

variable {m m' : ModelRunner} {id : RequestId} {blockSize : ℕ} {out : SchedulerOutput}

/-! ## Drafts that the runner holds -/

/-- The drafts that a decode would feed. -/
def pendingDrafts (m : ModelRunner) (id : RequestId) : List Token :=
  (m.speculativeDrafts.lookup id).getD []

theorem pendingDrafts_setSpeculativeDrafts (i : RequestId) (ds : List Token) :
    (m.setSpeculativeDrafts i ds).pendingDrafts id =
      if id = i then ds else m.pendingDrafts id := by
  rw [pendingDrafts, setSpeculativeDrafts, lookup_insert_eq]
  split <;> rfl

theorem proposeFor_congr (hs : SameStates m m') : m'.proposeFor id = m.proposeFor id := by
  rw [proposeFor, proposeFor, getContextTokenIds, getContextTokenIds, hs.states_eq, hs.params_eq]

/-- The proposals of an execution, request by request. -/
theorem proposeAll_spec {ids : List RequestId} (hnd : ids.Nodup)
    {drafts : AList fun _ : RequestId => List Token} (h : proposeAll ids m = (.ok drafts, m'))
    (id : RequestId) :
    if id ∈ ids then ∃ ds, m.proposeFor id = .ok ds ∧
        drafts.lookup id = (if ds.isEmpty then none else some ds) ∧
        m'.pendingDrafts id = if ds.isEmpty then m.pendingDrafts id else ds
      else drafts.lookup id = none ∧ m'.pendingDrafts id = m.pendingDrafts id := by
  induction ids generalizing m drafts with
  | nil =>
    obtain ⟨h₁, rfl⟩ := Prod.mk.inj h
    obtain rfl := Except.ok.inj h₁
    exact ⟨AList.lookup_empty _, rfl⟩
  | cons i ids ih =>
    obtain ⟨hi, hnd⟩ := List.nodup_cons.mp hnd
    unfold proposeAll at h
    split at h
    · cases h
    · rename_i ds hds
      dsimp only at h
      split at h
      · cases h
      · rename_i map m₂ he
        obtain ⟨h₁, rfl⟩ := Prod.mk.inj h
        obtain rfl := Except.ok.inj h₁
        have hrest := ih hnd he
        have hstates : SameStates m (if ds.isEmpty then m else m.setSpeculativeDrafts i ds) := by
          split
          · exact .refl m
          · exact ⟨rfl, rfl⟩
        have hpending : (if ds.isEmpty then m else m.setSpeculativeDrafts i ds).pendingDrafts id =
            if ds.isEmpty then m.pendingDrafts id else if id = i then ds
            else m.pendingDrafts id := by
          split
          · rfl
          · exact pendingDrafts_setSpeculativeDrafts i ds
        rw [proposeFor_congr hstates, hpending] at hrest
        by_cases hid : id = i
        · subst hid
          rw [if_neg hi] at hrest
          rw [if_pos List.mem_cons_self]
          refine ⟨ds, hds, ?_, ?_⟩
          · split
            · exact hrest.1
            · exact AList.lookup_insert _
          · simpa using hrest.2
        · have hmem : id ∈ i :: ids ↔ id ∈ ids := by simp [hid]
          have hmap : (if ds.isEmpty then map else map.insert i ds).lookup id = map.lookup id := by
            split
            · rfl
            · exact AList.lookup_insert_ne hid
          simpa only [hmem, hmap, if_neg hid, ite_self] using hrest

theorem decodeSeq_pending (state : RunnerRequestState) {seq? : Option BatchSeq}
    (h : (m.decodeSeq blockSize out id state).1 = .ok seq?) (i : RequestId) :
    (m.decodeSeq blockSize out id state).2.pendingDrafts i = m.pendingDrafts i := by
  unfold decodeSeq at h ⊢
  dsimp only at h ⊢
  split at h
  · cases h
  · dsimp only
    by_cases hi : i = id
    · subst hi
      split
      · rename_i he
        rw [pendingDrafts, AList.lookup_erase, pendingDrafts]
        exact (List.isEmpty_iff.mp he).symm
      · rw [pendingDrafts_setSpeculativeDrafts, if_pos rfl]
        rfl
    · split
      · rw [pendingDrafts, AList.lookup_erase_ne hi]
        rfl
      · rw [pendingDrafts_setSpeculativeDrafts, if_neg hi, pendingDrafts, AList.lookup_erase_ne hi]
        rfl

theorem buildSeq_pending {seq? : Option BatchSeq}
    (h : (m.buildSeq blockSize out id).1 = .ok seq?) (i : RequestId) :
    (m.buildSeq blockSize out id).2.pendingDrafts i = m.pendingDrafts i := by
  unfold buildSeq at h ⊢
  split at h
  · rfl
  · dsimp only at h ⊢
    split at h
    · rename_i hn
      rw [if_pos hn]
    · rename_i hn
      rw [if_neg hn]
      split at h
      · rename_i hid
        rw [if_pos hid]
      · rename_i hid
        rw [if_neg hid]
        exact decodeSeq_pending _ h i

theorem buildLoop_pending {ids : List RequestId} (i : RequestId)
    (h : i ∉ ids ∨ ∃ seqs, (buildLoop blockSize out ids m).1 = .ok seqs) :
    (buildLoop blockSize out ids m).2.pendingDrafts i = m.pendingDrafts i := by
  induction ids generalizing m with
  | nil => rfl
  | cons id ids ih =>
    have hone : i ≠ id ∨ (∃ seq?, (m.buildSeq blockSize out id).1 = .ok seq?) →
        (m.buildSeq blockSize out id).2.pendingDrafts i = m.pendingDrafts i := by
      rintro (hne | ⟨seq?, hseq⟩)
      · rw [pendingDrafts, (buildSeq_frame m blockSize out id).2.2 i hne]
        rfl
      · exact buildSeq_pending hseq i
    have hne : i ∉ id :: ids → i ≠ id := fun hn he => hn (he ▸ List.mem_cons_self)
    unfold buildLoop at h ⊢
    cases hseq : m.buildSeq blockSize out id with
    | mk seq? m₁ =>
      rw [hseq] at hone h
      cases seq? with
      | error e => exact hone (.inl (hne (h.resolve_right (not_returns_error _))))
      | ok seq? =>
        have hfirst : m₁.pendingDrafts i = m.pendingDrafts i := hone (.inr ⟨seq?, rfl⟩)
        cases hloop : buildLoop blockSize out ids m₁ with
        | mk seqs m₂ =>
          have hrest := @ih m₁
          rw [hloop] at hrest
          dsimp only at h ⊢
          rw [hloop] at h ⊢
          cases seqs with
          | error e =>
            refine (hrest (.inl fun hm => ?_)).trans hfirst
            exact (h.resolve_right (not_returns_error _)) (List.mem_cons_of_mem _ hm)
          | ok seqs => exact (hrest (.inr ⟨seqs, rfl⟩)).trans hfirst

theorem buildTensors_pending (i : RequestId)
    (h : i ∉ out.scheduledNew ++ out.scheduledRunning ∨
      ∃ b, (m.buildTensors blockSize out).1 = .ok b) :
    (m.buildTensors blockSize out).2.pendingDrafts i = (m.clean out).pendingDrafts i := by
  have hloop := @buildLoop_pending (m.clean out) blockSize out
    (out.scheduledNew ++ out.scheduledRunning) i
  rw [buildTensors_eq] at h ⊢
  split at h
  · rename_i hz
    rw [if_pos hz]
  · rename_i hz
    rw [if_neg hz]
    cases hb : buildLoop blockSize out (out.scheduledNew ++ out.scheduledRunning) (m.clean out) with
    | mk seqs m₁ =>
      rw [hb] at hloop h
      cases seqs with
      | error e => exact hloop (.inl (h.resolve_right (not_returns_error _)))
      | ok seqs => exact hloop (.inr ⟨seqs, rfl⟩)

theorem clean_pending (i : RequestId) : (m.clean out).pendingDrafts i =
    if i ∈ out.finished ∨ i ∈ out.preempted then [] else m.pendingDrafts i := by
  rw [pendingDrafts, drafts_clean]
  split <;> rfl

end ModelRunner

namespace UniProc

open ModelRunner

variable {ops : ModelOps} {m m' : ModelRunner} {id : RequestId} {blockSize : ℕ}
  {out : SchedulerOutput}

theorem executeModel_pending {drafts : AList fun _ : RequestId => List Token} {mp : ModelRunner}
    (hp : m.proposeAll out.scheduledRunning = (.ok drafts, mp))
    (h : id ∉ out.scheduledNew ++ out.scheduledRunning ∨
      ∃ res, (executeModel ops blockSize out m).1 = .ok res) :
    (executeModel ops blockSize out m).2.pendingDrafts id = (mp.clean out).pendingDrafts id := by
  have hbuilt := @buildTensors_pending mp blockSize out id
  unfold executeModel prepare at h ⊢
  rw [hp] at h ⊢
  dsimp only at h ⊢
  cases hb : mp.buildTensors blockSize out with
  | mk batch m₁ =>
    rw [hb] at hbuilt h
    cases batch with
    | error e => exact hbuilt (.inl (h.resolve_right (not_returns_error _)))
    | ok batch =>
      have hfirst : m₁.pendingDrafts id = (mp.clean out).pendingDrafts id :=
        hbuilt (.inr ⟨batch, rfl⟩)
      obtain ⟨-, -, hdrafts⟩ := @runSeqs_frame ops drafts batch 0 batch.seqs m₁
      dsimp only
      cases hr : runSeqs ops drafts batch 0 batch.seqs m₁ with
      | mk outputs m₂ =>
        rw [hr] at hdrafts
        have hlast : m₂.pendingDrafts id = m₁.pendingDrafts id := by
          rw [pendingDrafts, hdrafts]
          rfl
        cases outputs <;> exact hlast.trans hfirst

/-! ## Tokens that do not depend on the sampler's draws -/

section

variable {sample sample' : ops.Logits → ℕ → Token} {drafts : List Token} {logits : List ops.Logits}

variable (ops drafts logits) in
/-- The verification asks the sampler at a position. -/
structure Asks (k : ℕ) (l : ops.Logits) : Prop where
  le : k ≤ drafts.length
  arrives : Arrives ops drafts logits k
  logits_eq : logits[k]? = some l
  rejected : drafts[k]? ≠ some (ops.argmax l)

theorem acceptDrafts_congr (accepted : List Token)
    (h : ∀ k l, k < drafts.length → (∀ i < k, PredictedAt ops drafts logits i) →
      logits[k]? = some l → drafts[k]? ≠ some (ops.argmax l) →
      sample l (accepted.length + k) = sample' l (accepted.length + k)) :
    acceptDrafts ops sample drafts logits accepted =
      acceptDrafts ops sample' drafts logits accepted := by
  induction drafts generalizing logits accepted with
  | nil => simp [acceptDrafts]
  | cons d ds ih =>
    cases logits with
    | nil => simp [acceptDrafts]
    | cons l ls =>
      rw [acceptDrafts, acceptDrafts]
      split
      · rename_i hd
        refine ih (accepted ++ [d]) fun k l' hk hpred hl' hrej => ?_
        rw [List.length_append, List.length_singleton, Nat.add_assoc, Nat.add_comm 1]
        refine h (k + 1) l' (Nat.succ_lt_succ hk) ?_ hl' hrej
        rintro (_ | i) hi
        · exact ⟨l, rfl, by rw [hd]; rfl⟩
        · exact hpred i (Nat.lt_of_succ_lt_succ hi)
      · rename_i hd
        have hl := h 0 l (Nat.succ_pos _) (fun i hi => absurd hi (Nat.not_lt_zero i)) rfl
          fun he => hd (Option.some.inj he).symm
        rw [Nat.add_zero] at hl
        rw [hl]

theorem verify_congr (hd : drafts ≠ []) (hl : logits ≠ [])
    (h : ∀ k l, Asks ops drafts logits k l → sample l k = sample' l k) :
    verify ops sample drafts logits = verify ops sample' drafts logits := by
  have hloop : acceptDrafts ops sample drafts logits [] =
      acceptDrafts ops sample' drafts logits [] := by
    refine acceptDrafts_congr [] fun k l hk hpred hlk hrej => ?_
    rw [List.length_nil, Nat.zero_add]
    exact h k l ⟨hk.le, fun i hi _ => hpred i hi, hlk, hrej⟩
  obtain ⟨accepted, hacc, hemits⟩ := @acceptDrafts_emits ops sample drafts logits []
  rw [List.nil_append] at hacc
  have hne : accepted ≠ [] := hacc ▸ acceptDrafts_ne_nil hd hl
  rw [hacc] at hloop
  cases hbonus : logits[drafts.length]? with
  | none => simp [verify, ← hloop, hacc, hbonus, hne]
  | some bonus =>
    rw [verify_of_accepted ops (List.length_pos_iff.mpr hd) hacc hne hbonus,
      verify_of_accepted ops (List.length_pos_iff.mpr hd) hloop.symm hne hbonus]
    split
    · rename_i hlen
      have hlast : accepted.length - 1 < accepted.length :=
        Nat.sub_lt (List.length_pos_iff.mpr hne) Nat.one_pos
      obtain ⟨-, hpred, -⟩ := hemits _ _ (List.getElem?_eq_getElem hlast)
      rw [hlen, h drafts.length bonus ⟨le_rfl, fun i _ hi => hpred i (by omega), hbonus, ?_⟩]
      rw [List.getElem?_eq_none le_rfl]
      exact (Option.some_ne_none _).symm
    · rfl

end

section

variable {L : Type} (zero : L) (argmax : L → Token) (eos : Token)
  (pos pos' : InputBatch → ℕ → Except String (List L))
  (last last' : InputBatch → ℕ → Except String (Option L))
  (draw draw' : ℕ → SamplingInput L → Token) (sample : L → ℕ → Token)

theorem acceptDrafts_mk (drafts : List Token) (logits : List L) (accepted : List Token) :
    acceptDrafts ⟨L, zero, pos, last, argmax, draw, eos⟩ sample drafts logits accepted =
      acceptDrafts ⟨L, zero, pos', last', argmax, draw', eos⟩ sample drafts logits accepted := by
  induction drafts generalizing logits accepted with
  | nil => simp only [acceptDrafts]
  | cons d ds ih =>
    cases logits with
    | nil => simp only [acceptDrafts]
    | cons l ls =>
      rw [acceptDrafts, acceptDrafts, ih]

theorem verify_mk (drafts : List Token) (logits : List L) :
    verify ⟨L, zero, pos, last, argmax, draw, eos⟩ sample drafts logits =
      verify ⟨L, zero, pos', last', argmax, draw', eos⟩ sample drafts logits := by
  unfold verify
  dsimp only
  rw [acceptDrafts_mk zero argmax eos pos pos' last last' draw draw']
  cases logits[drafts.length]? <;> rfl

end

end UniProc

/-! ## Settled draws -/

/-- What the random numbers of the sampler are. -/
def F32.InUnit (x : F32) : Prop := (F32.fin 0).le x = true ∧ x.lt (.fin 1) = true

/-- The token of the sampler does not depend on the random number. -/
def FloatOps.Settled (F : FloatOps) (input : SamplingInput (List F32)) : Prop :=
  ∀ x y : F32, x.InUnit → y.InUnit → (F.samplerOps x).sample input = (F.samplerOps y).sample input

theorem FloatOps.settled_of_greedy (F : FloatOps) {input : SamplingInput (List F32)}
    (h : (input.params.temperature.le (.fin 0) || decide (input.params.topK = 1)) = true) :
    F.Settled input := by
  intro x y _ _
  unfold SamplerOps.sample
  simp only [h, if_true]
  rfl

/-! ## Deterministic models -/

/-- The logits of a sequence, by what was fed for its request before and by what it feeds. -/
structure SequenceModel where
  positionLogits : List (ℕ × Token) → List (ℕ × Token) → Except String (List (List F32))
  lastLogits : List (ℕ × Token) → List (ℕ × Token) → Except String (Option (List F32))

/-- What all executions have in common when the model is deterministic. -/
structure Service where
  floats : FloatOps
  model : SequenceModel
  vocabSize : ℕ
  eosTokenId : Token

namespace Service

variable (S : Service)

/-- An execution, after what was fed for each request before. -/
def run (before : RequestId → List (ℕ × Token)) (random : ℕ → ℕ → F32) : ModelRun where
  floats := S.floats
  forward :=
    { positionLogits := fun batch i => match batch.seqs[i]? with
        | some seq => S.model.positionLogits (before seq.requestId) seq.pairs
        | none => .ok []
      lastLogits := fun batch i => match batch.seqs[i]? with
        | some seq => S.model.lastLogits (before seq.requestId) seq.pairs
        | none => .ok none }
  vocabSize := S.vocabSize
  random

/-- The model and the sampler of that execution. -/
def ops (before : RequestId → List (ℕ × Token)) (random : ℕ → ℕ → F32) : ModelOps :=
  (S.run before random).ops S.eosTokenId

/-- The logits of a vocabulary that the model says nothing about. -/
def zeroLogits : List F32 := List.replicate S.vocabSize (.fin 0)

variable (before : List (ℕ × Token)) (drafts : Option (List Token)) (seq : BatchSeq)
  (w : RunnerRequestState) (params : SamplingParams)

/-- The logits that the drafts of a sequence are verified against. -/
def padded (logits : List (List F32)) : List (List F32) :=
  logits ++ List.replicate (seq.tokenIds.length - logits.length) S.zeroLogits

/-- The sampler's token, with the least random number. -/
def sample (logits : List F32) (k : ℕ) : Token :=
  (S.floats.samplerOps (.fin 0)).sample (ModelRun.input S.eosTokenId w params logits k)

/-- The tokens of a sequence, with the least random numbers. -/
def tokens : Except String (List Token) :=
  match seq.isPrefill, drafts with
  | false, some ds => do
    let logits ← S.model.positionLogits before seq.pairs
    return UniProc.verify (S.ops (fun _ => before) fun _ _ => .fin 0) (S.sample w params) ds
      (S.padded seq logits)
  | _, _ => do
    let logits ← S.model.lastLogits before seq.pairs
    return [S.sample w params (logits.getD S.zeroLogits) 0]

/-- The draws for a sequence are settled. -/
def SequenceSettled : Prop :=
  match seq.isPrefill, drafts with
  | false, some ds => ∀ logits, S.model.positionLogits before seq.pairs = .ok logits →
    ∀ k l, UniProc.Asks (S.ops (fun _ => before) fun _ _ => .fin 0) ds (S.padded seq logits) k l →
      S.floats.Settled (ModelRun.input S.eosTokenId w params l k)
  | _, _ => ∀ logits, S.model.lastLogits before seq.pairs = .ok logits →
    S.floats.Settled (ModelRun.input S.eosTokenId w params (logits.getD S.zeroLogits) 0)

variable {S seq w params}

/-- Settled draws leave nothing to the random numbers and to the other sequences. -/
theorem sampleSeq_eq {before : RequestId → List (ℕ × Token)} {random : ℕ → ℕ → F32}
    {proposed : AList fun _ : RequestId => List Token} {batch : InputBatch} {i : ℕ}
    {m : ModelRunner} (hi : batch.seqs[i]? = some seq)
    (hw : m.requestStates.lookup seq.requestId = some w)
    (hparams : m.requestSamplingParams.lookup seq.requestId = some params)
    (hdrafts : ∀ ds, proposed.lookup seq.requestId = some ds → ds ≠ [])
    (hseq : seq.isPrefill = false → seq.tokenIds ≠ [])
    (hr : ∀ i n, (random i n).InUnit)
    (h : S.SequenceSettled (before seq.requestId) (proposed.lookup seq.requestId) seq w params) :
    UniProc.sampleSeq (S.ops before random) proposed batch i seq m =
      S.tokens (before seq.requestId) (proposed.lookup seq.requestId) seq w params := by
  have hcontext : m.getContextTokenIds seq.requestId = (w.promptTokenIds, w.generatedTokenIds) := by
    rw [ModelRunner.getContextTokenIds, hw]
    rfl
  have hzero : (F32.fin 0).InUnit := ⟨rfl, rfl⟩
  have hpos : (S.ops before random).positionLogits batch i =
      S.model.positionLogits (before seq.requestId) seq.pairs := by
    change (match batch.seqs[i]? with
      | some seq => S.model.positionLogits (before seq.requestId) seq.pairs
      | none => .ok []) = _
    rw [hi]
  have hlast : (S.ops before random).lastLogits batch i =
      S.model.lastLogits (before seq.requestId) seq.pairs := by
    change (match batch.seqs[i]? with
      | some seq => S.model.lastLogits (before seq.requestId) seq.pairs
      | none => .ok none) = _
    rw [hi]
  have hplain : (∀ logits, S.model.lastLogits (before seq.requestId) seq.pairs = .ok logits →
        S.floats.Settled (ModelRun.input S.eosTokenId w params (logits.getD S.zeroLogits) 0)) →
      (do
        let logits ← (S.ops before random).lastLogits batch i
        return [(S.ops before random).sample i
          (ModelRun.input S.eosTokenId w params (logits.getD S.zeroLogits) 0)]) = (do
        let logits ← S.model.lastLogits (before seq.requestId) seq.pairs
        return [S.sample w params (logits.getD S.zeroLogits) 0] : Except String (List Token)) := by
    intro hsettled
    rw [hlast]
    cases hl : S.model.lastLogits (before seq.requestId) seq.pairs with
    | error e => exact error_bind e _ _
    | ok logits =>
      exact congrArg (fun t => Except.ok [t]) (hsettled logits hl _ _ (hr _ _) hzero)
  unfold UniProc.sampleSeq tokens
  unfold SequenceSettled at h
  rw [hparams, hcontext]
  cases hp : seq.isPrefill with
  | true =>
    simp only [hp] at h ⊢
    exact hplain h
  | false =>
    cases hds : proposed.lookup seq.requestId with
    | none =>
      simp only [hp, hds] at h ⊢
      exact hplain h
    | some ds =>
      simp only [hp, hds] at h ⊢
      rw [hpos]
      cases hl : S.model.positionLogits (before seq.requestId) seq.pairs with
      | error e => exact error_bind e _ _
      | ok logits =>
        have hne : S.padded seq logits ≠ [] := by
          have := List.length_pos_iff.mpr (hseq hp)
          rw [← List.length_pos_iff, padded, List.length_append, List.length_replicate]
          omega
        have hverify : UniProc.verify (S.ops (fun _ => before seq.requestId) fun _ _ => .fin 0)
            (fun l k => (S.ops before random).sample i (ModelRun.input S.eosTokenId w params l k))
            ds (S.padded seq logits) =
          UniProc.verify (S.ops (fun _ => before seq.requestId) fun _ _ => .fin 0)
            (S.sample w params) ds (S.padded seq logits) :=
          UniProc.verify_congr (hdrafts ds hds) hne fun k l hasks =>
            h logits hl k l hasks _ _ (hr _ _) hzero
        exact congrArg Except.ok ((UniProc.verify_mk _ _ _ _ _ _ _ _ _ _ ds _).trans hverify)

end Service

/-- What a sequence is to its request: a portion of the prompt, or a decode. -/
def BatchSeq.portion (seq : BatchSeq) : Option ℕ :=
  if seq.isPrefill then some seq.tokenIds.length else none

/-- A runner that knows one request. -/
def ModelRunner.alone (id : RequestId) (w : RunnerRequestState) (params : SamplingParams) :
    ModelRunner where
  requestStates := AList.insert id w ∅
  requestSamplingParams := AList.insert id params ∅
  speculativeDrafts := ∅

/-- How far a request is: what the runner knows, the drafts it holds, and everything that was fed
and sampled. -/
structure Solo where
  state : RunnerRequestState
  pending : List Token := []
  fed : List (ℕ × Token) := []
  emitted : List Token := []

namespace Solo

variable (S : Service) (r : InferenceRequest) (σ : Solo) (portion : Option ℕ)

def start : Solo where
  state := { promptTokenIds := r.promptTokens }

/-- A decode proposes drafts. -/
def propose : Except String (Option (List Token)) :=
  match portion with
  | some _ => .ok none
  | none =>
    ((ModelRunner.alone r.requestId σ.state r.samplingParams).proposeFor r.requestId).map
      fun ds => if ds.isEmpty then none else some ds

/-- The tokens of a portion: those of the prompt, or the last one with the drafts at hand. -/
def tokenIds (pending : List Token) : List Token :=
  match portion with
  | some n => (σ.state.promptTokenIds.drop σ.state.numComputedTokens).take n
  | none => ModelRunner.lastToken σ.state :: pending

/-- The sequence of a portion. Where the keys and values are kept plays no part. -/
def seq (pending : List Token) : BatchSeq where
  requestId := r.requestId
  tokenIds := σ.tokenIds portion pending
  positions := List.range' σ.state.numComputedTokens (σ.tokenIds portion pending).length
  seqLen := σ.state.numComputedTokens + (σ.tokenIds portion pending).length
  blockTable := []
  slotMapping := []
  isPrefill := portion.isSome

/-- The request after a portion. -/
def step : Except String Solo := do
  let drafts ← σ.propose r portion
  let pending := drafts.getD σ.pending
  let seq := σ.seq r portion pending
  let tokens ← S.tokens σ.fed drafts seq σ.state r.samplingParams
  return {
    state := { σ.state with
      generatedTokenIds := σ.state.generatedTokenIds ++ tokens
      numComputedTokens := σ.state.numComputedTokens +
        if seq.isPrefill || drafts.isSome then seq.tokenIds.length else 1 }
    pending
    fed := σ.fed ++ seq.pairs
    emitted := σ.emitted ++ tokens }

/-- The request after all its portions. -/
def run (portions : List (Option ℕ)) : Except String Solo :=
  portions.foldlM (step S r) (start r)

variable {S r σ portion} {σ₁ σ₂ : Solo} {portions₁ portions₂ : List (Option ℕ)}

theorem step_emitted (h : σ.step S r portion = .ok σ₁) : σ.emitted <+: σ₁.emitted := by
  unfold step at h
  obtain ⟨drafts, -, h⟩ := bind_eq_ok.mp h
  obtain ⟨tokens, -, h⟩ := bind_eq_ok.mp h
  obtain rfl := Except.ok.inj h
  exact List.prefix_append _ _

theorem foldlM_emitted {portions : List (Option ℕ)}
    (h : portions.foldlM (step S r) σ = .ok σ₁) : σ.emitted <+: σ₁.emitted := by
  induction portions generalizing σ with
  | nil =>
    obtain rfl := Except.ok.inj h
    exact List.prefix_rfl
  | cons portion portions ih =>
    rw [List.foldlM_cons] at h
    obtain ⟨σ', hstep, h⟩ := bind_eq_ok.mp h
    exact (step_emitted hstep).trans (ih h)

theorem run_prefix (hp : portions₁ <+: portions₂) (h₁ : run S r portions₁ = .ok σ₁)
    (h₂ : run S r portions₂ = .ok σ₂) : σ₁.emitted <+: σ₂.emitted := by
  obtain ⟨rest, rfl⟩ := hp
  unfold run at h₁ h₂
  rw [List.foldlM_append, h₁] at h₂
  exact foldlM_emitted h₂

theorem run_concat {portions : List (Option ℕ)} (h : run S r portions = .ok σ)
    (hstep : σ.step S r portion = .ok σ₁) : run S r (portions ++ [portion]) = .ok σ₁ := by
  unfold run at h ⊢
  rw [List.foldlM_append, h]
  change (σ.step S r portion >>= pure) = .ok σ₁
  rw [hstep]
  rfl

/-! ## The request of an execution -/

open ModelRunner UniProc

theorem proposeFor_alone {m : ModelRunner} {id : RequestId} {w : RunnerRequestState}
    {params : SamplingParams} (hw : m.requestStates.lookup id = some w)
    (hparams : m.requestSamplingParams.lookup id = some params) :
    (alone id w params).proposeFor id = m.proposeFor id := by
  have hw' : (alone id w params).requestStates.lookup id = some w := AList.lookup_insert _
  have hparams' : (alone id w params).requestSamplingParams.lookup id = some params :=
    AList.lookup_insert _
  rw [proposeFor, proposeFor, getContextTokenIds, getContextTokenIds, hw, hparams, hw', hparams']

theorem tokens_congr {before : List (ℕ × Token)} {drafts : Option (List Token)}
    {seq seq' : BatchSeq} {w : RunnerRequestState} {params : SamplingParams}
    (htokens : seq'.tokenIds = seq.tokenIds) (hpositions : seq'.positions = seq.positions)
    (hprefill : seq'.isPrefill = seq.isPrefill) :
    S.tokens before drafts seq' w params = S.tokens before drafts seq w params := by
  unfold Service.tokens Service.padded BatchSeq.pairs
  rw [htokens, hpositions, hprefill]

variable {m mp m₁ : ModelRunner} {out : SchedulerOutput} {blockSize i : ℕ}
  {drafts : AList fun _ : RequestId => List Token} {batch : InputBatch} {seq : BatchSeq}
  {before : RequestId → List (ℕ × Token)} {random : ℕ → ℕ → F32} {tokens : List Token}

theorem propose_of_feeds (hout : (out.scheduledNew ++ out.scheduledRunning).Nodup)
    (hid : r.requestId ∈ out.scheduledNew ++ out.scheduledRunning)
    (hp : m.proposeAll out.scheduledRunning = (.ok drafts, mp))
    (hfeeds : Feeds blockSize out (mp.clean out) r.requestId (some seq))
    (hw : m.requestStates.lookup r.requestId = some σ.state)
    (hparams : m.requestSamplingParams.lookup r.requestId = some r.samplingParams)
    (hpending : m.pendingDrafts r.requestId = σ.pending) :
    σ.propose r seq.portion = .ok (drafts.lookup r.requestId) ∧
      mp.pendingDrafts r.requestId = (drafts.lookup r.requestId).getD σ.pending := by
  have hspec := proposeAll_spec hout.of_append_right hp r.requestId
  cases hfeeds with
  | prefill _ _ hnew _ hseq =>
    rw [if_neg fun hrunning => (List.nodup_append.mp hout).2.2 _ hnew _ hrunning rfl] at hspec
    rw [hspec.1, hspec.2, hpending, BatchSeq.portion, hseq.isPrefill_eq]
    exact ⟨rfl, rfl⟩
  | decode _ hnew hseq =>
    rw [if_pos ((List.mem_append.mp hid).resolve_left hnew)] at hspec
    obtain ⟨ds, hds, hlookup, hheld⟩ := hspec
    rw [BatchSeq.portion, hseq.isPrefill_eq, hlookup, hheld, hpending]
    constructor
    · change ((alone r.requestId σ.state r.samplingParams).proposeFor r.requestId).map _ = _
      rw [proposeFor_alone hw hparams, hds]
      rfl
    · split <;> rfl

theorem tokenIds_of_feeds (hfeeds : Feeds blockSize out (mp.clean out) r.requestId (some seq))
    (hw : (mp.clean out).requestStates.lookup r.requestId = some σ.state) :
    σ.tokenIds seq.portion ((mp.clean out).pendingDrafts r.requestId) = seq.tokenIds ∧
      seq.positions = List.range' σ.state.numComputedTokens seq.tokenIds.length := by
  cases hfeeds with
  | prefill hm _ _ _ hseq =>
    obtain rfl := Option.some.inj (hm.symm.trans hw)
    rw [BatchSeq.portion, hseq.isPrefill_eq, hseq.positions_eq, hseq.tokenIds_eq]
    refine ⟨?_, rfl⟩
    change List.take _ _ = _
    rw [List.length_take, List.take_eq_take_iff]
    omega
  | decode hm _ hseq =>
    obtain rfl := Option.some.inj (hm.symm.trans hw)
    rw [BatchSeq.portion, hseq.isPrefill_eq, hseq.positions_eq, hseq.tokenIds_eq]
    exact ⟨rfl, rfl⟩

/-- An execution with settled draws takes the request as far as its portion does. -/
theorem step_of_feeds (hout : (out.scheduledNew ++ out.scheduledRunning).Nodup)
    (hid : r.requestId ∈ out.scheduledNew ++ out.scheduledRunning)
    (hp : m.proposeAll out.scheduledRunning = (.ok drafts, mp))
    (hfeeds : Feeds blockSize out (mp.clean out) r.requestId (some seq))
    (hi : batch.seqs[i]? = some seq)
    (hw : m.requestStates.lookup r.requestId = some σ.state)
    (hparams : m.requestSamplingParams.lookup r.requestId = some r.samplingParams)
    (hw₁ : m₁.requestStates.lookup r.requestId = some σ.state)
    (hparams₁ : m₁.requestSamplingParams.lookup r.requestId = some r.samplingParams)
    (hpending : m.pendingDrafts r.requestId = σ.pending) (hbefore : before r.requestId = σ.fed)
    (hr : ∀ i n, (random i n).InUnit)
    (hset : S.SequenceSettled σ.fed (drafts.lookup r.requestId) seq σ.state r.samplingParams)
    (hs : sampleSeq (S.ops before random) drafts batch i seq m₁ = .ok tokens) :
    σ.step S r seq.portion = .ok ⟨ran drafts seq tokens σ.state,
      (mp.clean out).pendingDrafts r.requestId, σ.fed ++ seq.pairs, σ.emitted ++ tokens⟩ := by
  have hseqid : seq.requestId = r.requestId := hfeeds.requestId_eq
  have hsame : SameStates m mp := by
    have h := (proposeAll_frame (m := m) out.scheduledRunning).1
    rwa [hp] at h
  obtain ⟨w, hknown⟩ := hfeeds.known
  have hkept := hknown
  rw [states_clean, Option.ite_none_left_eq_some, hsame.states_eq, hw] at hkept
  obtain rfl := Option.some.inj hkept.2
  obtain ⟨hpropose, hheld⟩ := propose_of_feeds hout hid hp hfeeds hw hparams hpending
  have hheld' : (mp.clean out).pendingDrafts r.requestId =
      (drafts.lookup r.requestId).getD σ.pending := by
    rw [clean_pending, if_neg hkept.1, hheld]
  obtain ⟨htokenIds, hpositions⟩ := tokenIds_of_feeds hfeeds hknown
  rw [hheld'] at htokenIds ⊢
  have hprefill : seq.portion.isSome = seq.isPrefill := by
    rw [BatchSeq.portion]
    cases seq.isPrefill <;> rfl
  have hfed : (σ.seq r seq.portion ((drafts.lookup r.requestId).getD σ.pending)).pairs =
      seq.pairs := by
    rw [BatchSeq.pairs, Solo.seq, htokenIds, ← hpositions]
    rfl
  have htokens : S.tokens σ.fed (drafts.lookup r.requestId)
      (σ.seq r seq.portion ((drafts.lookup r.requestId).getD σ.pending)) σ.state
      r.samplingParams = .ok tokens := by
    rw [tokens_congr htokenIds (by rw [Solo.seq, htokenIds, hpositions]) hprefill]
    rw [← hbefore, ← hseqid] at hset ⊢
    rw [← hseqid] at hw₁ hparams₁
    refine (Service.sampleSeq_eq hi hw₁ hparams₁ (fun ds hds => proposeAll_ne_nil hp hds)
      (fun hdecode => ?_) hr hset).symm.trans hs
    cases hfeeds with
    | prefill _ _ _ _ hspec => exact absurd (hspec.isPrefill_eq.symm.trans hdecode) nofun
    | decode _ _ hspec => exact hspec.tokenIds_eq ▸ List.cons_ne_nil _ _
  unfold step
  rw [hpropose, ok_bind]
  dsimp only
  rw [htokens, ok_bind, hfed, ran, advanceBy, hseqid]
  simp only [Solo.seq, htokenIds, hprefill]
  rfl

end Solo

end Rllm
