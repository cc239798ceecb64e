import Rllm.Executor.UniProc
import Rllm.Worker.Batch

/-! # What an execution does to the runner

A successful execution books the sampled tokens of every fed request and
counts what was fed; a failed one touches scheduled requests only. Drafts are
never longer than the request allows.
-/

namespace Rllm

/-! ## Drafts -/

theorem NGramProposer.length_propose_le (minNgram maxNgram : ℕ) (context : List Token)
    (maxTokens : ℕ) : (propose minNgram maxNgram context maxTokens).length ≤ maxTokens := by
  unfold propose
  split
  · exact Nat.zero_le _
  · dsimp only
    cases hf : List.findSome? _ _ with
    | none => exact Nat.zero_le _
    | some continuation =>
      obtain ⟨n, -, hn⟩ := List.exists_of_findSome?_eq_some hf
      obtain ⟨start, -, hs⟩ := List.exists_of_findSome?_eq_some hn
      split at hs
      · split at hs
        · cases hs
        · obtain rfl := Option.some.inj hs
          exact List.length_take_le _ _
      · cases hs

namespace ModelRunner

variable {blockSize : ℕ} {out : SchedulerOutput} {m m' : ModelRunner} {id i : RequestId}

/-- The drafts a request may have. -/
def draftLimit (m : ModelRunner) (id : RequestId) : ℕ :=
  ((m.requestSamplingParams.lookup id).map (·.specTokens)).getD 0

def DraftsBounded (m : ModelRunner) : Prop :=
  ∀ id ds, m.speculativeDrafts.lookup id = some ds → ds.length ≤ m.draftLimit id

theorem SameStates.draftLimit_eq (h : SameStates m m') : m'.draftLimit id = m.draftLimit id := by
  unfold draftLimit
  rw [h.params_eq]

theorem DraftsBounded.of_from (h : m.DraftsBounded) (hs : SameStates m m') (hd : DraftsFrom m m') :
    m'.DraftsBounded :=
  fun id ds hds => hs.draftLimit_eq ▸ h id ds (hd id ds hds)

theorem DraftsBounded.clean (h : m.DraftsBounded) (out : SchedulerOutput) :
    (m.clean out).DraftsBounded := by
  intro id ds hds
  rw [drafts_clean, Option.ite_none_left_eq_some] at hds
  unfold draftLimit
  rw [params_clean, if_neg hds.1]
  exact h id ds hds.2

theorem DraftsBounded.removeAll (h : m.DraftsBounded) (ids : List RequestId) :
    (ids.foldl removeRequest m).DraftsBounded := by
  intro id ds hds
  rw [lookup_removeAll (f := speculativeDrafts) fun _ _ => rfl,
    Option.ite_none_left_eq_some] at hds
  unfold draftLimit
  rw [lookup_removeAll (f := requestSamplingParams) fun _ _ => rfl, if_neg hds.1]
  exact h id ds hds.2

theorem proposeFor_le {ds : List Token} (h : m.proposeFor id = .ok ds) :
    ds.length ≤ m.draftLimit id := by
  unfold proposeFor at h
  split at h
  · rename_i c hc
    split at h
    · rename_i hen
      dsimp only at h
      split at h
      · cases h
      · split at h
        · cases h
        · obtain rfl := Except.ok.inj h
          obtain ⟨p, hp, hpc⟩ := Option.bind_eq_some_iff.mp hc
          have hlim : m.draftLimit id = c.numSpeculativeTokens := by
            rw [Bool.and_eq_true] at hen
            simp only [draftLimit, hp, Option.map_some, Option.getD_some,
              SamplingParams.specTokens, hpc, hen.1, if_true]
          rw [hlim]
          exact NGramProposer.length_propose_le _ _ _ _
    · obtain rfl := Except.ok.inj h
      exact Nat.zero_le _
  · obtain rfl := Except.ok.inj h
    exact Nat.zero_le _

theorem proposeAll_frame (ids : List RequestId) :
    SameStates m (proposeAll ids m).2 ∧ (m.DraftsBounded → (proposeAll ids m).2.DraftsBounded) := by
  induction ids generalizing m with
  | nil => exact ⟨.refl m, fun h => h⟩
  | cons id ids ih =>
    unfold proposeAll
    split
    · exact ⟨.refl m, fun h => h⟩
    · rename_i ds hds
      obtain ⟨m₁, hm₁⟩ : ∃ m₁, m₁ = if ds.isEmpty then m else m.setSpeculativeDrafts id ds :=
        ⟨_, rfl⟩
      have hs : SameStates m m₁ := by
        rw [hm₁]
        split
        · exact .refl m
        · exact ⟨rfl, rfl⟩
      have hb : m.DraftsBounded → m₁.DraftsBounded := by
        intro h i ds' hi
        rw [hs.draftLimit_eq]
        rw [hm₁] at hi
        split at hi
        · exact h i ds' hi
        · rw [setSpeculativeDrafts, lookup_insert_eq] at hi
          split at hi
          · rename_i he
            obtain rfl := Option.some.inj hi
            exact he ▸ proposeFor_le hds
          · exact h i ds' hi
      obtain ⟨hs', hb'⟩ := ih (m := m₁)
      dsimp only
      rw [← hm₁]
      split
      · rename_i he
        rw [he] at hs' hb'
        exact ⟨hs.trans hs', fun h => hb' (hb h)⟩
      · rename_i he
        rw [he] at hs' hb'
        exact ⟨hs.trans hs', fun h => hb' (hb h)⟩

theorem proposeAll_drafts {ids : List RequestId} (hnd : ids.Nodup)
    {drafts : AList fun _ : RequestId => List Token}
    (h : proposeAll ids m = (.ok drafts, m')) :
    (∀ i ∉ ids, m'.speculativeDrafts.lookup i = m.speculativeDrafts.lookup i) ∧
      ∀ i ds, drafts.lookup i = some ds → m'.speculativeDrafts.lookup i = some ds := by
  induction ids generalizing m drafts with
  | nil =>
    obtain ⟨h₁, rfl⟩ := Prod.mk.inj h
    obtain rfl := Except.ok.inj h₁
    refine ⟨fun _ _ => rfl, fun i ds hi => ?_⟩
    rw [AList.lookup_empty] at hi
    cases hi
  | cons id ids ih =>
    obtain ⟨hid, hnd⟩ := List.nodup_cons.mp hnd
    unfold proposeAll at h
    split at h
    · cases h
    · rename_i ds hds
      dsimp only at h
      split at h
      · cases h
      · rename_i map m₂ he
        obtain ⟨h₁, rfl⟩ := Prod.mk.inj h
        obtain rfl := Except.ok.inj h₁
        obtain ⟨hout, hin⟩ := ih hnd he
        constructor
        · intro i hi
          rw [List.mem_cons, not_or] at hi
          rw [hout i hi.2]
          split
          · rfl
          · exact AList.lookup_insert_ne hi.1
        · intro i ds' hi
          split at hi
          · exact hin i ds' hi
          · rename_i hne
            rw [lookup_insert_eq] at hi
            split at hi
            · rename_i hie
              obtain rfl := Option.some.inj hi
              rw [hie, hout id hid, if_neg hne]
              exact AList.lookup_insert _
            · exact hin i ds' hi

theorem proposeAll_ne_nil {ids : List RequestId} {drafts : AList fun _ : RequestId => List Token}
    (h : proposeAll ids m = (.ok drafts, m')) {i : RequestId} {ds : List Token}
    (hi : drafts.lookup i = some ds) : ds ≠ [] := by
  induction ids generalizing m m' drafts with
  | nil =>
    obtain rfl := Except.ok.inj (Prod.mk.inj h).1
    rw [AList.lookup_empty] at hi
    cases hi
  | cons id ids ih =>
    unfold proposeAll at h
    split at h
    · cases h
    · rename_i ds' hds
      dsimp only at h
      split at h
      · cases h
      · rename_i map m₂ he
        obtain rfl := Except.ok.inj (Prod.mk.inj h).1
        split at hi
        · exact ih he hi
        · rename_i hne
          rw [lookup_insert_eq] at hi
          split at hi
          · obtain rfl := Option.some.inj hi
            rintro rfl
            exact hne rfl
          · exact ih he hi

/-- Only the state of one request differs. -/
structure StateSet (m : ModelRunner) (id : RequestId) (w : RunnerRequestState)
    (m' : ModelRunner) : Prop where
  states_eq : ∀ i, m'.requestStates.lookup i = if i = id then some w else m.requestStates.lookup i
  params_eq : m'.requestSamplingParams = m.requestSamplingParams
  drafts_eq : m'.speculativeDrafts = m.speculativeDrafts

theorem modifyState_ok {f : RunnerRequestState → RunnerRequestState}
    (h : m.modifyState id f = .ok m') :
    ∃ w, m.requestStates.lookup id = some w ∧ StateSet m id (f w) m' := by
  unfold modifyState at h
  split at h
  · rename_i w hw
    obtain rfl := Except.ok.inj h
    exact ⟨w, hw, fun i => lookup_insert_eq _ _ _ _, rfl, rfl⟩
  · cases h

theorem storeAll_ok {tokens : List Token} {w : RunnerRequestState}
    (hw : m.requestStates.lookup id = some w)
    (h : tokens.foldlM (fun m token => m.storeGeneratedToken id token) m = .ok m') :
    StateSet m id { w with generatedTokenIds := w.generatedTokenIds ++ tokens } m' := by
  induction tokens generalizing m w with
  | nil =>
    obtain rfl := Except.ok.inj h
    refine ⟨fun i => ?_, rfl, rfl⟩
    split
    · rename_i hi
      rw [hi, hw, List.append_nil]
    · rfl
  | cons token tokens ih =>
    rw [List.foldlM_cons] at h
    cases hs : m.storeGeneratedToken id token with
    | error e =>
      rw [hs] at h
      cases h
    | ok m₁ =>
      rw [hs] at h
      obtain ⟨w₀, hw₀, hset⟩ := modifyState_ok hs
      obtain rfl := Option.some.inj (hw₀.symm.trans hw)
      have hw₁ := hset.states_eq id
      rw [if_pos rfl] at hw₁
      obtain ⟨hst, hp, hd⟩ := ih hw₁ h
      refine ⟨fun i => ?_, hp.trans hset.params_eq, hd.trans hset.drafts_eq⟩
      rw [hst]
      split
      · simp
      · rename_i hi
        rw [hset.states_eq, if_neg hi]

end ModelRunner

/-- The output of a request. -/
def ExecutorOutput.outputOf (res : ExecutorOutput) (id : RequestId) : Option PerRequestOutput :=
  res.perRequestOutputs.find? (·.requestId == id)

theorem ExecutorOutput.outputOf_eq_none {res : ExecutorOutput} {id : RequestId} :
    res.outputOf id = none ↔ id ∉ res.perRequestOutputs.map (·.requestId) := by
  simp [outputOf, List.find?_eq_none]

namespace UniProc

open ModelRunner

variable {ops : ModelOps} {blockSize : ℕ} {out : SchedulerOutput} {m m' : ModelRunner}
  {drafts : AList fun _ : RequestId => List Token} {batch : InputBatch}

/-! ## Sampling a sequence -/

theorem sampleSeq_plain {i : ℕ} {seq : BatchSeq} {tokens : List Token}
    (h : sampleSeq ops drafts batch i seq m = .ok tokens)
    (hseq : seq.isPrefill = true ∨ drafts.lookup seq.requestId = none) :
    ∃ token, tokens = [token] := by
  unfold sampleSeq at h
  dsimp only at h
  split at h
  · rename_i hp hd
    rcases hseq with hseq | hseq
    · rw [hp] at hseq
      cases hseq
    · rw [hd] at hseq
      cases hseq
  · cases hl : ops.lastLogits batch i with
    | error e =>
      rw [hl] at h
      cases h
    | ok logits =>
      rw [hl] at h
      exact ⟨_, (Except.ok.inj h).symm⟩

theorem acceptDrafts_of_predicted {sample : ops.Logits → ℕ → Token} {ds : List Token}
    {logits : List ops.Logits} (h : ds <+: logits.map ops.argmax) (accepted : List Token) :
    acceptDrafts ops sample ds logits accepted = accepted ++ ds := by
  induction ds generalizing logits accepted with
  | nil => simp [acceptDrafts]
  | cons d ds ih =>
    cases logits with
    | nil => simp at h
    | cons l logits =>
      rw [List.map_cons, List.cons_prefix_cons] at h
      rw [acceptDrafts, if_pos h.1.symm, ih h.2]
      simp

theorem verify_of_predicted {sample : ops.Logits → ℕ → Token} {ds : List Token}
    {logits : List ops.Logits} (h : ds <+: logits.map ops.argmax)
    (hlen : ds.length < logits.length) :
    ∃ bonus, verify ops sample ds logits = ds ++ [bonus] := by
  unfold verify
  dsimp only
  rw [acceptDrafts_of_predicted h, List.nil_append, List.getElem?_eq_getElem hlen]
  cases ds with
  | nil => exact ⟨_, rfl⟩
  | cons d ds => exact ⟨sample logits[(d :: ds).length] (d :: ds).length, by simp⟩

theorem sampleSeq_predicted {i : ℕ} {seq : BatchSeq} {tokens ds : List Token}
    (h : sampleSeq ops drafts batch i seq m = .ok tokens) (hp : seq.isPrefill = false)
    (hd : drafts.lookup seq.requestId = some ds) (hlen : ds.length < seq.tokenIds.length)
    (hpred : ∀ logits, ops.positionLogits batch i = .ok logits → ds <+: (logits ++
      List.replicate (seq.tokenIds.length - logits.length) ops.zeroLogits).map ops.argmax) :
    ∃ bonus, tokens = ds ++ [bonus] := by
  unfold sampleSeq at h
  simp only [hp, hd] at h
  cases hl : ops.positionLogits batch i with
  | error e =>
    rw [hl] at h
    cases h
  | ok logits =>
    rw [hl] at h
    obtain rfl := Except.ok.inj h
    refine verify_of_predicted (hpred logits hl) ?_
    rw [List.length_append, List.length_replicate]
    omega

/-! ## Running the sequences -/

/-- The state of a request after its sequence ran. -/
def ran (drafts : AList fun _ : RequestId => List Token) (seq : BatchSeq) (tokens : List Token)
    (w : RunnerRequestState) : RunnerRequestState :=
  { w with
    generatedTokenIds := w.generatedTokenIds ++ tokens
    numComputedTokens := w.numComputedTokens + advanceBy drafts seq }

theorem runSeq_ok {i : ℕ} {seq : BatchSeq} {o : PerRequestOutput}
    (h : runSeq ops drafts batch i seq m = .ok (o, m')) :
    o.requestId = seq.requestId ∧ sampleSeq ops drafts batch i seq m = .ok o.tokenIds ∧
      ∃ w, m.requestStates.lookup seq.requestId = some w ∧
        StateSet m seq.requestId (ran drafts seq o.tokenIds w) m' := by
  unfold runSeq at h
  cases ht : sampleSeq ops drafts batch i seq m with
  | error e =>
    simp only [ht, bind, Except.bind] at h
    cases h
  | ok tokens =>
    simp only [ht, bind, Except.bind] at h
    split at h
    · cases h
    · rename_i m₁ hm₁
      split at h
      · cases h
      · rename_i m₂ hm₂
        obtain ⟨rfl, rfl⟩ := Prod.mk.inj (Except.ok.inj h)
        obtain ⟨w₁, hw₁, hset₂⟩ := modifyState_ok hm₂
        have hex : ∃ w, m.requestStates.lookup seq.requestId = some w := by
          cases hw : m.requestStates.lookup seq.requestId with
          | some w => exact ⟨w, rfl⟩
          | none =>
            cases tokens with
            | nil =>
              obtain rfl := Except.ok.inj hm₁
              rw [hw] at hw₁
              cases hw₁
            | cons token tokens =>
              rw [List.foldlM_cons, storeGeneratedToken, modifyState, hw] at hm₁
              cases hm₁
        obtain ⟨w, hw⟩ := hex
        have hset₁ := storeAll_ok hw hm₁
        have hw₁' := hset₁.states_eq seq.requestId
        rw [if_pos rfl] at hw₁'
        obtain rfl := Option.some.inj (hw₁'.symm.trans hw₁)
        refine ⟨rfl, rfl, w, hw, fun i => ?_, hset₂.params_eq.trans hset₁.params_eq,
          hset₂.drafts_eq.trans hset₁.drafts_eq⟩
        rw [hset₂.states_eq]
        split
        · rfl
        · rename_i hi
          rw [hset₁.states_eq, if_neg hi]

/-- Sequences that ran, with their outputs. -/
structure Ran (drafts : AList fun _ : RequestId => List Token) (seqs : List BatchSeq)
    (outputs : List PerRequestOutput) (m m' : ModelRunner) : Prop where
  ids_eq : outputs.map (·.requestId) = seqs.map (·.requestId)
  states : ∀ id, match (⟨seqs⟩ : InputBatch).seqOf id, (⟨outputs⟩ : ExecutorOutput).outputOf id with
    | some seq, some o => ∃ w, m.requestStates.lookup id = some w ∧
        m'.requestStates.lookup id = some (ran drafts seq o.tokenIds w)
    | none, none => m'.requestStates.lookup id = m.requestStates.lookup id
    | _, _ => False
  params_eq : m'.requestSamplingParams = m.requestSamplingParams
  drafts_eq : m'.speculativeDrafts = m.speculativeDrafts

theorem runSeqs_ok {k : ℕ} {seqs : List BatchSeq} (hnd : (seqs.map (·.requestId)).Nodup)
    {outputs : List PerRequestOutput}
    (h : runSeqs ops drafts batch k seqs m = (.ok outputs, m')) :
    Ran drafts seqs outputs m m' := by
  induction seqs generalizing k m outputs with
  | nil =>
    obtain ⟨h₁, rfl⟩ := Prod.mk.inj h
    obtain rfl := Except.ok.inj h₁
    exact ⟨rfl, fun id => rfl, rfl, rfl⟩
  | cons seq seqs ih =>
    obtain ⟨hid, hnd⟩ := List.nodup_cons.mp hnd
    unfold runSeqs at h
    split at h
    · cases h
    · rename_i o m₁ he
      obtain ⟨hoid, -, w, hw, hset⟩ := runSeq_ok he
      split at h
      · cases h
      · rename_i os m₂ he₂
        obtain ⟨h₁, rfl⟩ := Prod.mk.inj h
        obtain rfl := Except.ok.inj h₁
        obtain ⟨hids, hst, hp, hd⟩ := ih hnd he₂
        refine ⟨by simp [hoid, hids], fun id => ?_, hp.trans hset.params_eq,
          hd.trans hset.drafts_eq⟩
        have hst := hst id
        by_cases hi : id = seq.requestId
        · have h₁ : (⟨seqs⟩ : InputBatch).seqOf id = none :=
            InputBatch.seqOf_eq_none.mpr (hi ▸ hid)
          have h₂ : (⟨os⟩ : ExecutorOutput).outputOf id = none := by
            rw [h₁] at hst
            split at hst
            · contradiction
            · assumption
            · exact hst.elim
          rw [h₁, h₂] at hst
          have h₃ : (⟨seq :: seqs⟩ : InputBatch).seqOf id = some seq := by
            simp [InputBatch.seqOf, hi]
          have h₄ : (⟨o :: os⟩ : ExecutorOutput).outputOf id = some o := by
            simp [ExecutorOutput.outputOf, hi, hoid]
          rw [h₃, h₄]
          refine ⟨w, hi ▸ hw, ?_⟩
          rw [show m₂.requestStates.lookup id = _ from hst, hset.states_eq, if_pos hi]
        · have h₃ : (⟨seq :: seqs⟩ : InputBatch).seqOf id = (⟨seqs⟩ : InputBatch).seqOf id := by
            simp [InputBatch.seqOf, Ne.symm hi]
          have h₄ : (⟨o :: os⟩ : ExecutorOutput).outputOf id =
              (⟨os⟩ : ExecutorOutput).outputOf id := by
            simp [ExecutorOutput.outputOf, hoid, Ne.symm hi]
          have h₅ : m₁.requestStates.lookup id = m.requestStates.lookup id := by
            rw [hset.states_eq, if_neg hi]
          rw [h₃, h₄, ← h₅]
          exact hst

theorem runSeqs_sampled {k : ℕ} {seqs : List BatchSeq} {outputs : List PerRequestOutput}
    (h : runSeqs ops drafts batch k seqs m = (.ok outputs, m')) {j : ℕ} {seq : BatchSeq}
    (hj : seqs[j]? = some seq) :
    ∃ o m₁, outputs[j]? = some o ∧ sampleSeq ops drafts batch (k + j) seq m₁ = .ok o.tokenIds := by
  induction seqs generalizing k m outputs j with
  | nil => cases hj
  | cons s seqs ih =>
    unfold runSeqs at h
    split at h
    · cases h
    · rename_i o m₁ he
      split at h
      · cases h
      · rename_i os m₂ he₂
        obtain ⟨h₁, rfl⟩ := Prod.mk.inj h
        obtain rfl := Except.ok.inj h₁
        cases j with
        | zero =>
          obtain rfl := Option.some.inj hj
          exact ⟨o, m, rfl, (runSeq_ok he).2.1⟩
        | succ j =>
          obtain ⟨o', m', ho', hs⟩ := ih he₂ hj
          refine ⟨o', m', ho', ?_⟩
          rwa [Nat.add_right_comm, Nat.add_assoc] at hs

/-- What is known of an output: its sequence, and the runner that it was sampled with, which knows
of the request what it knew in the beginning. -/
theorem runSeqs_sampled_from {k : ℕ} {seqs : List BatchSeq} {outputs : List PerRequestOutput}
    (hnd : (seqs.map (·.requestId)).Nodup)
    (h : runSeqs ops drafts batch k seqs m = (.ok outputs, m'))
    {o : PerRequestOutput} (ho : o ∈ outputs) :
    ∃ j seq m₁, seqs[j]? = some seq ∧ seq.requestId = o.requestId ∧
      sampleSeq ops drafts batch (k + j) seq m₁ = .ok o.tokenIds ∧
      m₁.requestStates.lookup o.requestId = m.requestStates.lookup o.requestId ∧
      m₁.requestSamplingParams = m.requestSamplingParams := by
  induction seqs generalizing k m outputs with
  | nil =>
    obtain rfl := Except.ok.inj (Prod.mk.inj h).1
    cases ho
  | cons seq seqs ih =>
    obtain ⟨hid, hnd⟩ := List.nodup_cons.mp hnd
    unfold runSeqs at h
    split at h
    · cases h
    · rename_i o₁ m₁ he
      obtain ⟨hoid, hs, w, -, hset⟩ := runSeq_ok he
      split at h
      · cases h
      · rename_i os m₂ he₂
        obtain ⟨h₁, rfl⟩ := Prod.mk.inj h
        obtain rfl := Except.ok.inj h₁
        rcases List.mem_cons.mp ho with rfl | ho
        · exact ⟨0, seq, m, rfl, hoid.symm, hs, rfl, rfl⟩
        · obtain ⟨j, seq', m', hj, hid', hs', hstates, hparams⟩ := ih hnd he₂ ho
          have hne : o.requestId ≠ seq.requestId := by
            intro he
            exact hid (List.mem_map.mpr ⟨seq', List.mem_of_getElem? hj, hid'.trans he⟩)
          refine ⟨j + 1, seq', m', hj, hid', ?_, ?_, hparams.trans hset.params_eq⟩
          · rwa [Nat.add_right_comm, Nat.add_assoc] at hs'
          · rw [hstates, hset.states_eq, if_neg hne]

theorem runSeqs_frame (k : ℕ) (seqs : List BatchSeq) (m : ModelRunner) :
    (∀ id ∉ seqs.map (·.requestId), (runSeqs ops drafts batch k seqs m).2.requestStates.lookup id =
      m.requestStates.lookup id) ∧
    (runSeqs ops drafts batch k seqs m).2.requestSamplingParams = m.requestSamplingParams ∧
    (runSeqs ops drafts batch k seqs m).2.speculativeDrafts = m.speculativeDrafts := by
  induction seqs generalizing k m with
  | nil => exact ⟨fun _ _ => rfl, rfl, rfl⟩
  | cons seq seqs ih =>
    unfold runSeqs
    split
    · exact ⟨fun _ _ => rfl, rfl, rfl⟩
    · rename_i o m₁ he
      obtain ⟨-, -, w, -, hset⟩ := runSeq_ok he
      obtain ⟨hs, hp, hd⟩ := ih (k := k + 1) (m := m₁)
      have hfin : (∀ id ∉ (seq :: seqs).map (·.requestId),
          (runSeqs ops drafts batch (k + 1) seqs m₁).2.requestStates.lookup id =
            m.requestStates.lookup id) ∧ _ ∧ _ :=
        ⟨fun id hid => ?_, hp.trans hset.params_eq, hd.trans hset.drafts_eq⟩
      · split
        · rename_i he₂
          rwa [he₂] at hfin
        · rename_i he₂
          rwa [he₂] at hfin
      · rw [List.map_cons, List.mem_cons, not_or] at hid
        rw [hs id hid.2, hset.states_eq, if_neg hid.1]

/-! ## Whole executions -/

/-- The drafts of an execution were proposed without a failed assertion. -/
def Proposes (out : SchedulerOutput) (m : ModelRunner) : Prop :=
  ∃ drafts, (m.proposeAll out.scheduledRunning).1 = .ok drafts

theorem proposes_of_plain (h : ∀ id params, m.requestSamplingParams.lookup id = some params →
    params.speculativeDecoding = none) : Proposes out m := by
  have hall : ∀ ids, m.proposeAll ids = (.ok ∅, m) := by
    intro ids
    induction ids with
    | nil => rfl
    | cons id ids ih =>
      have hone : m.proposeFor id = .ok [] := by
        unfold proposeFor
        cases hparams : m.requestSamplingParams.lookup id with
        | none => rfl
        | some params => rw [Option.bind_some, h id params hparams]
      rw [proposeAll, hone]
      simp [ih]
  exact ⟨∅, by rw [hall]⟩

/-- The runner once its drafts are proposed. -/
structure Drafted (m : ModelRunner) (drafts : AList fun _ : RequestId => List Token)
    (mp : ModelRunner) : Prop where
  states : SameStates m mp
  bounded : m.DraftsBounded → mp.DraftsBounded
  kept : ∀ id ds, drafts.lookup id = some ds → mp.speculativeDrafts.lookup id = some ds

theorem prepare_built (hout : (out.scheduledNew ++ out.scheduledRunning).Nodup)
    (h : (prepare blockSize out m).1 = .ok (drafts, batch)) :
    ∃ mp, m.proposeAll out.scheduledRunning = (.ok drafts, mp) ∧ Drafted m drafts mp ∧
      Built blockSize out (mp.clean out) (out.scheduledNew ++ out.scheduledRunning) batch := by
  have hf := proposeAll_frame (m := m) out.scheduledRunning
  unfold prepare at h
  split at h
  · cases h
  · rename_i ds mp he
    rw [he] at hf
    split at h
    · cases h
    · rename_i b m₁ he₁
      obtain ⟨rfl, rfl⟩ := Prod.mk.inj (Except.ok.inj h)
      have hd := (proposeAll_drafts hout.of_append_right he).2
      exact ⟨mp, he, ⟨hf.1, hf.2, hd⟩, buildTensors_ok hout (by rw [he₁])⟩

theorem prepare_ok (hout : (out.scheduledNew ++ out.scheduledRunning).Nodup)
    (h : (prepare blockSize out m).1 = .ok (drafts, batch)) :
    Proposes out m ∧ ∃ mp, Drafted m drafts mp ∧
      Built blockSize out (mp.clean out) (out.scheduledNew ++ out.scheduledRunning) batch := by
  obtain ⟨mp, he, hd, hb⟩ := prepare_built hout h
  exact ⟨⟨drafts, by rw [he]⟩, mp, hd, hb⟩

theorem states_clean_congr (h : SameStates m m') (id : RequestId) :
    (m'.clean out).requestStates.lookup id = (m.clean out).requestStates.lookup id := by
  rw [states_clean, states_clean, h.states_eq]

theorem prepare_frame (blockSize : ℕ) (hp : Proposes out m) :
    (∀ id, (prepare blockSize out m).2.requestStates.lookup id =
      (m.clean out).requestStates.lookup id) ∧
    (∀ id, (prepare blockSize out m).2.requestSamplingParams.lookup id =
      (m.clean out).requestSamplingParams.lookup id) ∧
    (m.DraftsBounded → (prepare blockSize out m).2.DraftsBounded) := by
  obtain ⟨ds, hds⟩ := hp
  obtain ⟨hs, hb⟩ := proposeAll_frame (m := m) out.scheduledRunning
  obtain ⟨mp, hmp⟩ : ∃ mp, mp = (m.proposeAll out.scheduledRunning).2 := ⟨_, rfl⟩
  rw [← hmp] at hs hb
  have he : m.proposeAll out.scheduledRunning = (.ok ds, mp) := Prod.ext hds hmp.symm
  obtain ⟨ht, hd⟩ := buildTensors_frame mp blockSize out
  have h₂ : (prepare blockSize out m).2 = (mp.buildTensors blockSize out).2 := by
    unfold prepare
    rw [he]
    dsimp only
    split
    · rename_i he₁
      rw [he₁]
    · rename_i he₁
      rw [he₁]
  rw [h₂]
  refine ⟨fun id => ?_, fun id => ?_, fun hm => ?_⟩
  · rw [ht.states_eq]
    exact states_clean_congr hs id
  · rw [ht.params_eq, params_clean, params_clean, hs.params_eq]
  · exact ((hb hm).clean out).of_from ht hd

/-- An execution, successful or not, that got past the proposer: requests that are not scheduled
keep their state, and drafts keep their bounds. -/
theorem executeModel_frame (hout : (out.scheduledNew ++ out.scheduledRunning).Nodup)
    (hp : Proposes out m) :
    (∀ id ∉ out.scheduledNew ++ out.scheduledRunning,
      (executeModel ops blockSize out m).2.requestStates.lookup id =
        (m.clean out).requestStates.lookup id) ∧
    (∀ id, (executeModel ops blockSize out m).2.requestSamplingParams.lookup id =
      (m.clean out).requestSamplingParams.lookup id) ∧
    (m.DraftsBounded → (executeModel ops blockSize out m).2.DraftsBounded) := by
  obtain ⟨h₁, h₂, h₃⟩ := prepare_frame blockSize hp
  unfold executeModel
  split
  · rename_i e m₁ he
    rw [he] at h₁ h₂ h₃
    exact ⟨fun id _ => h₁ id, h₂, h₃⟩
  · rename_i drafts batch m₁ he
    rw [he] at h₁ h₂ h₃
    obtain ⟨-, mp, -, hbuilt⟩ := prepare_ok hout (congrArg Prod.fst he)
    obtain ⟨hr₁, hr₂, hr₃⟩ := runSeqs_frame 0 batch.seqs m₁
    have hfin : (∀ id ∉ out.scheduledNew ++ out.scheduledRunning,
        (runSeqs ops drafts batch 0 batch.seqs m₁).2.requestStates.lookup id =
          (m.clean out).requestStates.lookup id) ∧
        (∀ id, (runSeqs ops drafts batch 0 batch.seqs m₁).2.requestSamplingParams.lookup id =
          (m.clean out).requestSamplingParams.lookup id) ∧
        (m.DraftsBounded → (runSeqs ops drafts batch 0 batch.seqs m₁).2.DraftsBounded) := by
      refine ⟨fun id hid => ?_, fun id => ?_, fun hb id ds hds => ?_⟩
      · rw [hr₁ id fun hm => hid (hbuilt.sublist.subset hm)]
        exact h₁ id
      · rw [hr₂]
        exact h₂ id
      · rw [hr₃] at hds
        unfold draftLimit
        rw [hr₂]
        exact h₃ hb id ds hds
    split
    · rename_i he₁
      rwa [he₁] at hfin
    · rename_i he₁
      rwa [he₁] at hfin

theorem executeModel_known (hout : (out.scheduledNew ++ out.scheduledRunning).Nodup)
    {id : RequestId} (hid : id ∉ out.scheduledNew ++ out.scheduledRunning) {w : RunnerRequestState}
    (hw : (executeModel ops blockSize out m).2.requestStates.lookup id = some w) :
    m.requestStates.lookup id = some w ∧
      (executeModel ops blockSize out m).2.requestSamplingParams.lookup id =
        m.requestSamplingParams.lookup id := by
  by_cases hp : Proposes out m
  · obtain ⟨hstates, hparams, -⟩ := executeModel_frame hout hp
    rw [hstates id hid, states_clean, Option.ite_none_left_eq_some] at hw
    rw [hparams, params_clean, if_neg hw.1]
    exact ⟨hw.2, rfl⟩
  · obtain ⟨hs, -⟩ := proposeAll_frame (m := m) out.scheduledRunning
    have hexec : (executeModel ops blockSize out m).2 = (m.proposeAll out.scheduledRunning).2 := by
      unfold executeModel prepare
      cases he : m.proposeAll out.scheduledRunning with
      | mk drafts mp =>
        cases drafts with
        | error e => rfl
        | ok drafts => exact absurd ⟨drafts, by rw [he]⟩ hp
    rw [hexec] at hw ⊢
    rw [hs.states_eq] at hw
    exact ⟨hw, by rw [hs.params_eq]⟩

/-- A successful execution: what is fed, and how each request comes out of it. -/
structure Executed (ops : ModelOps) (blockSize : ℕ) (out : SchedulerOutput) (m : ModelRunner)
    (drafts : AList fun _ : RequestId => List Token) (batch : InputBatch) (res : ExecutorOutput)
    (m' : ModelRunner) : Prop where
  prepared : (prepare blockSize out m).1 = .ok (drafts, batch)
  ids_eq : res.perRequestOutputs.map (·.requestId) = batch.requestIds
  states : ∀ id, match batch.seqOf id, res.outputOf id with
    | some seq, some o => ∃ w, (m.clean out).requestStates.lookup id = some w ∧
        m'.requestStates.lookup id = some (ran drafts seq o.tokenIds w)
    | none, none => m'.requestStates.lookup id = (m.clean out).requestStates.lookup id
    | _, _ => False
  sampled : ∀ id seq o, batch.seqOf id = some seq → res.outputOf id = some o →
    ∃ i m₁, batch.seqs[i]? = some seq ∧ sampleSeq ops drafts batch i seq m₁ = .ok o.tokenIds

/-- An execution that succeeds prepared a batch and ran its sequences to the end. -/
theorem executeModel_eq_ok {res : ExecutorOutput}
    (h : executeModel ops blockSize out m = (.ok res, m')) :
    ∃ drafts batch m₁ outputs, prepare blockSize out m = (.ok (drafts, batch), m₁) ∧
      runSeqs ops drafts batch 0 batch.seqs m₁ = (.ok outputs, m') ∧ ⟨outputs⟩ = res := by
  unfold executeModel at h
  split at h
  · cases h
  · rename_i drafts batch m₁ he
    split at h
    · cases h
    · rename_i outputs m₂ he₁
      obtain ⟨h₁, rfl⟩ := Prod.mk.inj h
      exact ⟨drafts, batch, m₁, outputs, he, he₁, Except.ok.inj h₁⟩

theorem executeModel_ok (hout : (out.scheduledNew ++ out.scheduledRunning).Nodup)
    {res : ExecutorOutput} (h : executeModel ops blockSize out m = (.ok res, m')) :
    ∃ drafts batch, Executed ops blockSize out m drafts batch res m' := by
  obtain ⟨drafts, batch, m₁, outputs, he, he₁, rfl⟩ := executeModel_eq_ok h
  have hprep : (prepare blockSize out m).1 = .ok (drafts, batch) := by rw [he]
  obtain ⟨hp, mp, -, hbuilt⟩ := prepare_ok hout hprep
  have hf := (prepare_frame blockSize hp).1
  rw [he] at hf
  have hnd : batch.requestIds.Nodup := hout.sublist hbuilt.sublist
  obtain ⟨hids, hst, -, -⟩ := runSeqs_ok hnd he₁
  refine ⟨drafts, batch, hprep, hids, fun id => ?_, fun id seq o hseq ho => ?_⟩
  · rw [← hf id]
    exact hst id
  · obtain ⟨hmem, hid⟩ := InputBatch.mem_of_seqOf hseq
    obtain ⟨i, hi⟩ := List.mem_iff_getElem?.mp hmem
    obtain ⟨o', m', ho', hs⟩ := runSeqs_sampled he₁ hi
    have hoid : o'.requestId = id := by
      have he := congrArg (·[i]?) hids
      simp only [List.getElem?_map, ho', hi, Option.map_some, Option.some.injEq] at he
      exact he.trans hid
    have hfind := find?_of_nodup (f := PerRequestOutput.requestId) (hids ▸ hnd)
      (List.mem_of_getElem? ho')
    rw [hoid] at hfind
    obtain rfl := Option.some.inj (hfind.symm.trans ho)
    rw [Nat.zero_add] at hs
    exact ⟨i, m', hi, hs⟩

/-- Every output of an execution was sampled for a sequence of its batch, from what the runner knew
of the request before. -/
theorem executeModel_sampled (hout : (out.scheduledNew ++ out.scheduledRunning).Nodup)
    {res : ExecutorOutput} (h : executeModel ops blockSize out m = (.ok res, m'))
    {o : PerRequestOutput} (ho : o ∈ res.perRequestOutputs) :
    ∃ drafts batch i seq m₁ mp w, (prepare blockSize out m).1 = .ok (drafts, batch) ∧
      m.proposeAll out.scheduledRunning = (.ok drafts, mp) ∧
      batch.seqs[i]? = some seq ∧ seq.requestId = o.requestId ∧
      sampleSeq ops drafts batch i seq m₁ = .ok o.tokenIds ∧
      Feeds blockSize out (mp.clean out) o.requestId (some seq) ∧
      m.requestStates.lookup o.requestId = some w ∧
      m₁.requestStates.lookup o.requestId = some w ∧
      m₁.requestSamplingParams.lookup o.requestId = m.requestSamplingParams.lookup o.requestId := by
  obtain ⟨drafts, batch, m₁, outputs, he, he₁, rfl⟩ := executeModel_eq_ok h
  have hprep : (prepare blockSize out m).1 = .ok (drafts, batch) := by rw [he]
  obtain ⟨mp, hproposed, hdrafted, hbuilt⟩ := prepare_built hout hprep
  obtain ⟨hstates, hparams, -⟩ :=
    prepare_frame blockSize (⟨drafts, by rw [hproposed]⟩ : Proposes out m)
  rw [he] at hstates hparams
  have hnd : batch.requestIds.Nodup := hout.sublist hbuilt.sublist
  obtain ⟨j, seq, m', hj, hid, hs, hst, hpa⟩ := runSeqs_sampled_from hnd he₁ ho
  rw [Nat.zero_add] at hs
  have hseq := InputBatch.seqOf_of_mem hnd (List.mem_of_getElem? hj)
  rw [hid] at hseq
  have hfeeds := hseq ▸ hbuilt.feeds o.requestId (hbuilt.mem_of_seqOf hseq)
  obtain ⟨w, hw⟩ := hfeeds.known
  rw [states_clean_congr hdrafted.states] at hw
  have hkept := hw
  rw [states_clean, Option.ite_none_left_eq_some] at hkept
  refine ⟨drafts, batch, j, seq, m', mp, w, hprep, hproposed, hj, hid, hs, hfeeds, hkept.2,
    hst.trans ((hstates _).trans hw), ?_⟩
  rw [hpa, hparams, params_clean, if_neg hkept.1]

end UniProc

end Rllm
