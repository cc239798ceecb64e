import Rllm.Engine.Lockstep
import Rllm.Executor.Solo

/-! # Runs with a deterministic model

A run feeds a request portion by portion. If the model is deterministic and the
draws for the request are settled, what is sampled for it depends on these
portions only, as for a request on its own. The seed of a request is not read:
draws that are not settled come from the one sampler of the executor, and from
the draws for other requests before them.
-/

namespace Rllm

/-- Two lists agree as far as both go. -/
def SamePrefix {α : Type} (l₁ l₂ : List α) : Prop := l₁ <+: l₂ ∨ l₂ <+: l₁

theorem SamePrefix.of_prefix {α : Type} {l₁ l₂ k₁ k₂ : List α} (h : SamePrefix l₁ l₂)
    (h₁ : k₁ <+: l₁) (h₂ : k₂ <+: l₂) : SamePrefix k₁ k₂ := by
  rcases h with h | h
  · exact List.prefix_or_prefix_of_prefix (h₁.trans h) h₂
  · exact List.prefix_or_prefix_of_prefix h₁ (h₂.trans h)

variable (H : HashFns) (cfg : Config)

namespace PairStep

variable (t : PairStep)

/-- The portions of a request in the batch of a step. -/
def portions (id : RequestId) : List (Option ℕ) :=
  ((t.batch H cfg).seqs.filter (·.requestId == id)).map (·.portion)

/-- The model of the step is the deterministic one, and its random numbers are what they are
said to be. -/
def Follows (S : Service) (before : RequestId → List (ℕ × Token)) : Prop :=
  ∃ random : ℕ → ℕ → F32, (∀ i n, (random i n).InUnit) ∧ t.ops = S.ops before random

/-- The draws for a request are settled. -/
def Settled (S : Service) (id : RequestId) (before : RequestId → List (ℕ × Token)) : Prop :=
  ∀ drafts batch seq w params, t.prepared H cfg = .ok (drafts, batch) → seq ∈ batch.seqs →
    seq.requestId = id → t.pair.runner.requestStates.lookup id = some w →
    t.pair.runner.requestSamplingParams.lookup id = some params →
    S.SequenceSettled (before id) (drafts.lookup id) seq w params

end PairStep

namespace PairHistory

variable (hist : PairHistory)

def portions (id : RequestId) : List (Option ℕ) := hist.steps.flatMap (·.portions H cfg id)

/-- Every step has the property, given what was fed before it. -/
def Each (Q : PairStep → (RequestId → List (ℕ × Token)) → Prop) : Prop :=
  ∀ pre t post, hist.steps = pre ++ t :: post → Q t fun id => pre.flatMap (·.fed H cfg id)

def Deterministic (S : Service) : Prop := hist.Each H cfg fun t => t.Follows S

def Settled (S : Service) (id : RequestId) : Prop := hist.Each H cfg fun t => t.Settled H cfg S id

variable {H cfg hist}

theorem portions_snoc (t : PairStep) (id : RequestId) :
    (hist.snoc H cfg t).portions H cfg id = hist.portions H cfg id ++ t.portions H cfg id := by
  simp [portions, snoc]

theorem Each.append {Q : PairStep → (RequestId → List (ℕ × Token)) → Prop} {t : PairStep}
    (h : hist.Each H cfg Q) (ht : Q t (hist.fed H cfg)) : (hist.snoc H cfg t).Each H cfg Q := by
  intro pre t' post hsteps
  rcases List.eq_nil_or_concat post with rfl | ⟨post, t'', rfl⟩
  · obtain ⟨rfl, hlast⟩ := List.append_inj' hsteps rfl
    obtain rfl := List.head_eq_of_cons_eq hlast
    exact ht
  · rw [List.concat_eq_append, ← List.cons_append, ← List.append_assoc] at hsteps
    exact h pre t' post (List.append_inj' hsteps rfl).1

theorem Each.snoc {Q : PairStep → (RequestId → List (ℕ × Token)) → Prop} {t : PairStep}
    (h : (hist.snoc H cfg t).Each H cfg Q) :
    hist.Each H cfg Q ∧ Q t (hist.fed H cfg) := by
  constructor
  · intro pre t' post hsteps
    refine h pre t' (post ++ [t]) ?_
    rw [PairHistory.snoc, hsteps, List.append_assoc]
    rfl
  · exact h hist.steps t [] rfl

end PairHistory

variable {H cfg} {P : PairStep → Prop} {hist : PairHistory} {p : Pair} {S : Service}
  {r : InferenceRequest}

/-! ## What a step does for a request -/

open ModelRunner UniProc

namespace PairStep

variable {t : PairStep} {id : RequestId}

theorem pending_next : (t.next H cfg).runner.pendingDrafts id =
    if id ∈ t.failed H cfg then [] else (t.result H cfg).2.pendingDrafts id := by
  rw [next, Pair.abortAll_runner, pendingDrafts,
    lookup_removeAll (f := speculativeDrafts) fun _ _ => rfl]
  simp only [(t.ord.perm _).mem_iff]
  split <;> rfl

theorem batch_scheduled (hp : t.pair.sched.Partition) :
    (t.batch H cfg).requestIds.Sublist
      ((t.out H cfg).scheduledNew ++ (t.out H cfg).scheduledRunning) := by
  unfold batch
  cases hprep : t.prepared H cfg with
  | error e => exact List.nil_sublist _
  | ok db =>
    obtain ⟨-, mp, -, hbuilt⟩ := prepare_ok (out_nodup hp) hprep
    exact hbuilt.sublist

theorem portions_eq (hp : t.pair.sched.Partition) (id : RequestId) :
    t.portions H cfg id = (((t.batch H cfg).seqOf id).map (·.portion)).toList := by
  rw [portions, find?_filter ((out_nodup hp).sublist (batch_scheduled hp)), InputBatch.seqOf]
  cases List.find? _ _ <;> rfl

theorem seqOf_eq_none (hp : t.pair.sched.Partition)
    (hid : t.pair.runner.requestStates.lookup id = none) : (t.batch H cfg).seqOf id = none := by
  cases hseq : (t.batch H cfg).seqOf id with
  | none => rfl
  | some seq =>
    obtain ⟨-, drafts, mp, hdrafted, hfeeds⟩ := (batch_feeds hp id).2 seq hseq
    obtain ⟨w, hw⟩ := hfeeds.known
    rw [states_clean_congr hdrafted.states, states_clean, Option.ite_none_left_eq_some] at hw
    exact absurd (hid.symm.trans hw.2) nofun

theorem not_nothing (hp : t.pair.sched.Partition) {mp : ModelRunner} {w : RunnerRequestState}
    (hrunning : id ∈ (t.out H cfg).scheduledRunning)
    (hw : (mp.clean (t.out H cfg)).requestStates.lookup id = some w) :
    ¬ Feeds cfg.cache.blockSize (t.out H cfg) (mp.clean (t.out H cfg)) id none := by
  have hnew : id ∉ (t.out H cfg).scheduledNew := fun hnew =>
    (List.nodup_append.mp (out_nodup hp)).2.2 _ hnew _ hrunning rfl
  have htokens : (t.out H cfg).numScheduledTokens.lookup id ≠ none ∧
      (t.out H cfg).numScheduledTokens.lookup id ≠ some 0 := by
    have hall : t.pair.sched.StepAll H cfg .any t.ord := Scheduler.stepAll_any t.ord _
    have hphase := phase hp hall id
    have hdecoded : ((t.out H cfg).mention id).decoded = true := by simpa using hrunning
    have hmention : (t.out H cfg).numScheduledTokens.lookup id =
      ((t.out H cfg).mention id).tokens := rfl
    rw [hmention]
    revert hphase hdecoded
    generalize (t.out H cfg).mention id = μ
    generalize (t.sched H cfg).place id = p'
    intro hphase hdecoded
    cases hphase with
    | same => cases hdecoded
    | finished => cases hdecoded
    | decoded =>
      refine ⟨nofun, fun he => ?_⟩
      have := Option.some.inj he
      omega
    | queued => cases hdecoded
    | admitted => cases hdecoded
  intro hfeeds
  cases hfeeds with
  | unknown hm => exact absurd (hm.symm.trans hw) nofun
  | nothing hn =>
    cases hl : (t.out H cfg).numScheduledTokens.lookup id with
    | none => exact htokens.1 hl
    | some n =>
      rw [hl, Option.getD_some] at hn
      exact htokens.2 (hn ▸ hl)
  | prefilled _ hid => exact hnew hid

section Fares

variable (H cfg t id)

/-- How a request fares in a step: it is left alone or forgotten, or a sequence of it ran. -/
inductive Fares : Prop
  | idle (hemitted : t.emitted H cfg id = [])
      (hkept : ∀ w, (t.next H cfg).runner.requestStates.lookup id = some w →
        t.pair.runner.requestStates.lookup id = some w ∧ t.portions H cfg id = [] ∧
        t.fed H cfg id = [] ∧
        (t.next H cfg).runner.pendingDrafts id = t.pair.runner.pendingDrafts id)
  | ran {drafts : AList fun _ : RequestId => List Token} {batch : InputBatch} {mp m₁ : ModelRunner}
      {seq : BatchSeq} {i : ℕ} {tokens : List Token} {w : RunnerRequestState}
      (hprep : t.prepared H cfg = .ok (drafts, batch))
      (hproposed : t.pair.runner.proposeAll (t.out H cfg).scheduledRunning = (.ok drafts, mp))
      (hi : batch.seqs[i]? = some seq)
      (hid : id ∈ (t.out H cfg).scheduledNew ++ (t.out H cfg).scheduledRunning)
      (hfeeds : Feeds cfg.cache.blockSize (t.out H cfg) (mp.clean (t.out H cfg)) id (some seq))
      (hw : t.pair.runner.requestStates.lookup id = some w)
      (hw₁ : m₁.requestStates.lookup id = some w)
      (hparams : m₁.requestSamplingParams.lookup id =
        t.pair.runner.requestSamplingParams.lookup id)
      (hs : sampleSeq t.ops drafts batch i seq m₁ = .ok tokens)
      (hportions : t.portions H cfg id = [seq.portion]) (hemitted : t.emitted H cfg id = tokens)
      (hfed : t.fed H cfg id = seq.pairs)
      (hnext : (t.next H cfg).runner.requestStates.lookup id =
        some (UniProc.ran drafts seq tokens w))
      (hpending : (t.next H cfg).runner.pendingDrafts id =
        (mp.clean (t.out H cfg)).pendingDrafts id) : Fares

end Fares

theorem left_out (hp : t.pair.sched.Partition)
    {drafts : AList fun _ : RequestId => List Token} {mp : ModelRunner}
    (hproposed : t.pair.runner.proposeAll (t.out H cfg).scheduledRunning = (.ok drafts, mp))
    (hbatch : (t.batch H cfg).seqOf id = none)
    (hsched : id ∈ (t.out H cfg).scheduledNew ++ (t.out H cfg).scheduledRunning →
      (∃ res, (t.result H cfg).1 = .ok res) ∧
      Feeds cfg.cache.blockSize (t.out H cfg) (mp.clean (t.out H cfg)) id none)
    (hstates : (t.result H cfg).2.requestStates.lookup id =
      (t.pair.runner.clean (t.out H cfg)).requestStates.lookup id) {w : RunnerRequestState}
    (hw : (t.next H cfg).runner.requestStates.lookup id = some w) :
    t.pair.runner.requestStates.lookup id = some w ∧ t.portions H cfg id = [] ∧
      t.fed H cfg id = [] ∧
      (t.next H cfg).runner.pendingDrafts id = t.pair.runner.pendingDrafts id := by
  have hportions : t.portions H cfg id = [] := by
    rw [portions_eq hp, hbatch]
    rfl
  have hfed : t.fed H cfg id = [] := by
    rw [fed_eq ((out_nodup hp).sublist (batch_scheduled hp)), hbatch]
    rfl
  have hsame : SameStates t.pair.runner mp := by
    have h := (proposeAll_frame (m := t.pair.runner) (t.out H cfg).scheduledRunning).1
    rwa [hproposed] at h
  have hfail := not_failed hw
  rw [lookup_next, if_neg hfail, hstates] at hw
  have hkept := hw
  rw [states_clean, Option.ite_none_left_eq_some] at hkept
  refine ⟨hkept.2, hportions, hfed, ?_⟩
  have hrunning : id ∉ (t.out H cfg).scheduledRunning := by
    intro hr
    have hknown := (states_clean_congr hsame id).trans hw
    exact not_nothing hp hr hknown (hsched (List.mem_append_right _ hr)).2
  have hspec := proposeAll_spec (out_nodup hp).of_append_right hproposed id
  rw [if_neg hrunning] at hspec
  have hpending : (t.result H cfg).2.pendingDrafts id =
      (mp.clean (t.out H cfg)).pendingDrafts id := by
    apply executeModel_pending hproposed
    by_cases hid : id ∈ (t.out H cfg).scheduledNew ++ (t.out H cfg).scheduledRunning
    · exact .inr (hsched hid).1
    · exact .inl hid
  rw [pending_next, if_neg hfail, hpending, clean_pending, if_neg hkept.1, hspec.2]

theorem fares_error (hp : t.pair.sched.Partition) (hprop : Proposes (t.out H cfg) t.pair.runner)
    {e : String} {m' : ModelRunner} (hres : t.result H cfg = (.error e, m')) (id : RequestId) :
    t.Fares H cfg id := by
  refine .idle (by rw [emitted, hres]) fun w hw => ?_
  obtain ⟨drafts, hdrafts⟩ := hprop
  have hid : id ∉ (t.out H cfg).scheduledNew ++ (t.out H cfg).scheduledRunning :=
    mt (mem_failed hres) (not_failed hw)
  have hbatch : (t.batch H cfg).seqOf id = none :=
    InputBatch.seqOf_eq_none.mpr fun hm => hid ((batch_scheduled hp).subset hm)
  exact left_out hp (Prod.ext hdrafts rfl) hbatch (fun h => absurd h hid)
    ((executeModel_frame (out_nodup hp) ⟨drafts, hdrafts⟩).1 id hid) hw

theorem fares (hp : t.pair.sched.Partition) (hprop : Proposes (t.out H cfg) t.pair.runner)
    (id : RequestId) : t.Fares H cfg id := by
  have hout : ((t.out H cfg).scheduledNew ++ (t.out H cfg).scheduledRunning).Nodup := out_nodup hp
  cases hres : t.result H cfg with
  | mk res m' =>
    cases res with
    | error e => exact fares_error hp hprop hres id
    | ok res =>
      obtain ⟨drafts, batch, hex⟩ := executeModel_ok hout hres
      obtain ⟨mp, hproposed, hdrafted, hbuilt⟩ := prepare_built hout hex.prepared
      have hbatch : t.batch H cfg = batch := by rw [PairStep.batch, prepared, hex.prepared]
      have hnd : batch.requestIds.Nodup := hout.sublist hbuilt.sublist
      have hfailed : t.failed H cfg = [] := by rw [failed, hres]
      have hemitted := emitted_ok hres (hex.ids_eq ▸ hnd) id
      have hstates := hex.states id
      cases hseq : batch.seqOf id with
      | none =>
        cases ho : res.outputOf id with
        | some o =>
          rw [hseq, ho] at hstates
          exact hstates.elim
        | none =>
          rw [hseq, ho] at hstates
          refine .idle (by rw [hemitted, ho]; rfl) fun w hw => ?_
          refine left_out hp hproposed (hbatch ▸ hseq) (fun hsched => ⟨⟨res, by rw [hres]⟩, ?_⟩) ?_
            hw
          · exact hseq ▸ hbuilt.feeds id hsched
          · rw [hres]
            exact hstates
      | some seq =>
        cases ho : res.outputOf id with
        | none =>
          rw [hseq, ho] at hstates
          exact hstates.elim
        | some o =>
          rw [hseq, ho] at hstates
          obtain ⟨w, hw, hw'⟩ := hstates
          have homem : o ∈ res.perRequestOutputs := List.mem_of_find?_eq_some ho
          have hoid : o.requestId = id := by simpa using List.find?_some ho
          obtain ⟨drafts', batch', i, seq', m₁, mp', w₀, hprep, hproposed', hi, hid, hs, hfeeds,
            hw₀, hw₁, hparams⟩ := executeModel_sampled hout hres homem
          obtain ⟨rfl, rfl⟩ := Prod.mk.inj (Except.ok.inj (hprep.symm.trans hex.prepared))
          obtain ⟨-, rfl⟩ := Prod.mk.inj (hproposed'.symm.trans hproposed)
          rw [hoid] at hfeeds hw₀ hw₁ hparams hid
          have hseq' := InputBatch.seqOf_of_mem hnd (List.mem_of_getElem? hi)
          rw [hid, hseq] at hseq'
          obtain rfl := Option.some.inj hseq'
          have hkept := hw
          rw [states_clean, Option.ite_none_left_eq_some, hw₀] at hkept
          obtain rfl := Option.some.inj hkept.2
          refine .ran hprep hproposed hi (hbuilt.mem_of_seqOf hseq) hfeeds hw₀ hw₁ hparams hs ?_ ?_
            ?_ ?_ ?_
          · rw [portions_eq hp, hbatch, hseq]
            rfl
          · rw [hemitted, ho]
            simp
          · rw [fed_eq (hbatch ▸ hnd), hbatch, hseq]
            simp
          · rw [lookup_next, hfailed, if_neg List.not_mem_nil, hres]
            exact hw'
          · rw [pending_next, hfailed, if_neg List.not_mem_nil]
            exact executeModel_pending hproposed (.inr ⟨res, congrArg Prod.fst hres⟩)

end PairStep

/-! ## A run is what the request does on its own -/

theorem PairRun.portions_eq_nil (h : PairRun H cfg P hist p) {id : RequestId}
    (hid : id ∉ hist.accepted) : hist.portions H cfg id = [] := by
  induction h with
  | new => rfl
  | @addRequest hist p r _ _ _ ih =>
    apply ih
    intro hm
    apply hid
    rw [PairHistory.accepted, List.map_append]
    exact List.mem_append_left _ hm
  | abortRequest _ _ ih => exact ih hid
  | control _ _ ih => exact ih hid
  | @step hist p ops ord hrun hprop _ ih =>
    rw [PairHistory.portions_snoc, ih hid, List.nil_append]
    rw [PairStep.portions_eq hrun.schedRun.partition.1]
    cases hw : p.runner.requestStates.lookup id with
    | none =>
      rw [PairStep.seqOf_eq_none hrun.schedRun.partition.1 hw]
      rfl
    | some w =>
      obtain ⟨_, -, -, hparams⟩ := hrun.matched.states id w hw
      exact absurd (hrun.matched.params id _ hparams) hid

/-- The request on its own, after the portions that it was served, is where it is in the run. A
portion of a failed execution is not served, and the last one. -/
structure Mirrors (H : HashFns) (cfg : Config) (S : Service) (r : InferenceRequest)
    (hist : PairHistory) (p : Pair) (served : List (Option ℕ)) (σ : Solo) : Prop where
  run : Solo.run S r served = .ok σ
  prefix_portions : served <+: hist.portions H cfg r.requestId
  emitted : σ.emitted = hist.emitted H cfg r.requestId
  known : ∀ w, p.runner.requestStates.lookup r.requestId = some w →
    served = hist.portions H cfg r.requestId ∧ σ.state = w ∧
    σ.pending = p.runner.pendingDrafts r.requestId ∧ σ.fed = hist.fed H cfg r.requestId

namespace Mirrors

variable {served : List (Option ℕ)} {σ : Solo}

theorem start (hrun : PairRun H cfg P hist p) (hfresh : r.requestId ∉ hist.accepted)
    (hok : (UniProc.addRequest r.requestId r.promptTokens r.samplingParams p.runner).1 = .ok ()) :
    Mirrors H cfg S r { hist with added := hist.added ++ [r] } (p.addRequest cfg r) []
      (Solo.start r) := by
  have hserved : hist.fed H cfg r.requestId = [] ∧ hist.emitted H cfg r.requestId = [] := by
    by_contra hne
    exact hfresh (hrun.matched.served _ (not_and_or.mp hne))
  have hrunner : (p.addRequest cfg r).runner =
      (p.runner.addRequest r.requestId r.promptTokens).setSamplingParams r.requestId
        r.samplingParams := addRequest_ok hok
  constructor
  · rfl
  · exact List.nil_prefix
  · exact hserved.2.symm
  · intro w hw
    rw [hrunner] at hw ⊢
    have hw : (p.runner.requestStates.insert r.requestId
        { promptTokenIds := r.promptTokens }).lookup r.requestId = some w := hw
    rw [AList.lookup_insert] at hw
    refine ⟨(hrun.portions_eq_nil hfresh).symm, Option.some.inj hw, ?_, hserved.1.symm⟩
    change [] = (p.runner.speculativeDrafts.lookup r.requestId).getD []
    cases hds : p.runner.speculativeDrafts.lookup r.requestId with
    | none => rfl
    | some ds =>
      have hlimit := hrun.matched.bounded r.requestId ds hds
      rw [draftLimit] at hlimit
      cases hparams : p.runner.requestSamplingParams.lookup r.requestId with
      | some q => exact absurd (hrun.matched.params _ q hparams) hfresh
      | none =>
        rw [hparams] at hlimit
        exact (List.eq_nil_of_length_eq_zero (Nat.le_zero.mp hlimit)).symm

theorem step {ops : ModelOps} {ord : HashOrder} (h : Mirrors H cfg S r hist p served σ)
    (hrun : PairRun H cfg P hist p) (hr : r ∈ hist.added)
    (hprop : Proposes ((⟨p, ops, ord⟩ : PairStep).out H cfg) p.runner)
    (hfollows : (⟨p, ops, ord⟩ : PairStep).Follows S (hist.fed H cfg))
    (hsettled : (⟨p, ops, ord⟩ : PairStep).Settled H cfg S r.requestId (hist.fed H cfg)) :
    ∃ served' σ', Mirrors H cfg S r (hist.snoc H cfg ⟨p, ops, ord⟩)
      ((⟨p, ops, ord⟩ : PairStep).next H cfg) served' σ' := by
  have hpart := hrun.schedRun.partition.1
  cases PairStep.fares hpart hprop r.requestId with
  | idle hemitted hkept =>
    refine ⟨served, σ, h.run, ?_, ?_, fun w hw => ?_⟩
    · rw [PairHistory.portions_snoc]
      exact h.prefix_portions.trans (List.prefix_append _ _)
    · rw [PairHistory.emitted_snoc, hemitted, List.append_nil]
      exact h.emitted
    · obtain ⟨hw', hportions, hfed, hpending⟩ := hkept w hw
      rw [PairHistory.fed_snoc, hfed, List.append_nil, hpending, PairHistory.portions_snoc,
        hportions, List.append_nil]
      exact h.known w hw'
  | @ran drafts batch mp m₁ seq i tokens w hprep hproposed hi hid hfeeds hw hw₁ hparams₁ hs
      hportions hemitted hfed hnext hpending =>
    obtain ⟨random, hrandom, rfl⟩ := hfollows
    obtain ⟨hserved, rfl, hdrafts, hbefore⟩ := h.known w hw
    have hparams := hrun.matched.params_eq hrun.schedRun hr hw
    have hset : S.SequenceSettled (hist.fed H cfg r.requestId) (drafts.lookup r.requestId) seq
        σ.state r.samplingParams :=
      hsettled drafts batch seq _ _ hprep (List.mem_of_getElem? hi) hfeeds.requestId_eq hw hparams
    rw [← hbefore] at hset
    have hstep := Solo.step_of_feeds (PairStep.out_nodup hpart) hid hproposed hfeeds hi hw hparams
      hw₁ (hparams₁.trans hparams) hdrafts.symm hbefore.symm hrandom hset hs
    refine ⟨_, _, Solo.run_concat h.run hstep, ?_, ?_, fun w' hw' => ?_⟩
    · rw [hserved, PairHistory.portions_snoc, hportions]
    · rw [PairHistory.emitted_snoc, hemitted, h.emitted]
    · rw [hnext] at hw'
      rw [PairHistory.fed_snoc, hfed, hpending, ← hbefore, hserved, PairHistory.portions_snoc,
        hportions]
      exact ⟨rfl, Option.some.inj hw', rfl, rfl⟩

end Mirrors

/-- With settled draws, a run samples for the request what it samples on its own. -/
theorem PairRun.mirrors (h : PairRun H cfg P hist p) (hdet : hist.Deterministic H cfg S)
    (hset : hist.Settled H cfg S r.requestId) (hr : r ∈ hist.added) :
    ∃ served σ, Mirrors H cfg S r hist p served σ := by
  induction h with
  | new => cases hr
  | @addRequest hist p r' hrun hfresh hok ih =>
    rcases List.mem_append.mp hr with hr | hr
    · obtain ⟨served, σ, hσ⟩ := ih hdet hset hr
      have hne : r.requestId ≠ r'.requestId := fun he => hfresh (he ▸ List.mem_map_of_mem hr)
      have hrunner : (p.addRequest cfg r').runner =
          (p.runner.addRequest r'.requestId r'.promptTokens).setSamplingParams r'.requestId
            r'.samplingParams := addRequest_ok hok
      refine ⟨served, σ, hσ.run, hσ.prefix_portions, hσ.emitted, fun w hw => ?_⟩
      rw [hrunner] at hw ⊢
      exact hσ.known w ((AList.lookup_insert_ne hne).symm.trans hw)
    · obtain rfl := List.mem_singleton.mp hr
      exact ⟨_, _, .start hrun hfresh hok⟩
  | @abortRequest hist p id _ ih =>
    obtain ⟨served, σ, hσ⟩ := ih hdet hset hr
    refine ⟨served, σ, hσ.run, hσ.prefix_portions, hσ.emitted, fun w hw => ?_⟩
    have hw : (p.runner.requestStates.erase id).lookup r.requestId = some w := hw
    rw [lookup_erase_eq, Option.ite_none_left_eq_some] at hw
    have hpending : (p.abortRequest id).runner.pendingDrafts r.requestId =
        p.runner.pendingDrafts r.requestId := by
      change ((p.runner.speculativeDrafts.erase id).lookup r.requestId).getD [] = _
      rw [AList.lookup_erase_ne hw.1]
      rfl
    rw [hpending]
    exact hσ.known w hw.2
  | control _ _ ih =>
    obtain ⟨served, σ, hσ⟩ := ih hdet hset hr
    exact ⟨served, σ, hσ.run, hσ.prefix_portions, hσ.emitted, hσ.known⟩
  | step ops ord hrun hprop _ ih =>
    obtain ⟨hdet, hfollows⟩ := hdet.snoc
    obtain ⟨hset, hsettled⟩ := hset.snoc
    obtain ⟨served, σ, hσ⟩ := ih hdet hset hr
    exact hσ.step hrun hr hprop hfollows hsettled

/-- Two runs with the same portions of a request, as far as both go, sample the same tokens for it,
if the draws for it are settled. -/
theorem PairRun.reproducible {H₁ H₂ : HashFns} {cfg₁ cfg₂ : Config} {P₁ P₂ : PairStep → Prop}
    {hist₁ hist₂ : PairHistory} {p₁ p₂ : Pair} (S : Service) (r : InferenceRequest)
    (h₁ : PairRun H₁ cfg₁ P₁ hist₁ p₁) (h₂ : PairRun H₂ cfg₂ P₂ hist₂ p₂)
    (hr₁ : r ∈ hist₁.added) (hr₂ : r ∈ hist₂.added)
    (hdet₁ : hist₁.Deterministic H₁ cfg₁ S) (hdet₂ : hist₂.Deterministic H₂ cfg₂ S)
    (hset₁ : hist₁.Settled H₁ cfg₁ S r.requestId) (hset₂ : hist₂.Settled H₂ cfg₂ S r.requestId)
    (hportions : SamePrefix (hist₁.portions H₁ cfg₁ r.requestId)
      (hist₂.portions H₂ cfg₂ r.requestId)) :
    SamePrefix (hist₁.emitted H₁ cfg₁ r.requestId) (hist₂.emitted H₂ cfg₂ r.requestId) := by
  obtain ⟨served₁, σ₁, hσ₁⟩ := h₁.mirrors hdet₁ hset₁ hr₁
  obtain ⟨served₂, σ₂, hσ₂⟩ := h₂.mirrors hdet₂ hset₂ hr₂
  rw [← hσ₁.emitted, ← hσ₂.emitted]
  rcases hportions.of_prefix hσ₁.prefix_portions hσ₂.prefix_portions with h | h
  · exact .inl (Solo.run_prefix h hσ₁.run hσ₂.run)
  · exact .inr (Solo.run_prefix h hσ₂.run hσ₁.run)

/-! ## Greedy requests -/

/-- The sampler takes the maximum of the logits. -/
def SamplingParams.Greedy (params : SamplingParams) : Prop :=
  (params.temperature.le (.fin 0) || decide (params.topK = 1)) = true

instance (params : SamplingParams) : Decidable params.Greedy :=
  inferInstanceAs (Decidable (_ = true))

theorem Service.sequenceSettled_of_greedy {before : List (ℕ × Token)}
    {drafts : Option (List Token)} {seq : BatchSeq} {w : RunnerRequestState}
    {params : SamplingParams} (h : params.Greedy) :
    S.SequenceSettled before drafts seq w params := by
  unfold Service.SequenceSettled
  split
  · exact fun _ _ _ _ _ => S.floats.settled_of_greedy h
  · exact fun _ _ => S.floats.settled_of_greedy h

theorem PairRun.settled_of_greedy (h : PairRun H cfg P hist p) (id : RequestId)
    (hgreedy : ∀ r ∈ hist.added, r.requestId = id → r.samplingParams.Greedy) :
    hist.Settled H cfg S id := by
  induction h with
  | new =>
    intro pre t post hsteps
    cases pre <;> cases hsteps
  | addRequest r _ _ _ ih => exact ih fun r' hr' => hgreedy r' (List.mem_append_left _ hr')
  | abortRequest _ _ ih => exact ih hgreedy
  | control _ _ ih => exact ih hgreedy
  | @step hist p ops ord hrun _ _ ih =>
    refine (ih hgreedy).append fun drafts batch seq w params _ _ _ hw hparams => ?_
    obtain ⟨r₀, hr₀, -, hparams₀⟩ := hrun.matched.states id w hw
    obtain rfl := Option.some.inj (hparams.symm.trans hparams₀)
    obtain ⟨r', hr', rfl⟩ := Option.map_eq_some_iff.mp hr₀
    obtain ⟨hadd, hid, -⟩ := hrun.schedRun.partition.2 id r' hr'
    exact Service.sequenceSettled_of_greedy (hgreedy _ hadd hid)

/-! ## Two runs of one step -/

/-- A model that always gives the same logits. -/
def constService (logits : List F32) : Service where
  floats := exactFloats
  model :=
    { positionLogits := fun _ _ => .ok []
      lastLogits := fun _ _ => .ok (some logits) }
  vocabSize := logits.length
  eosTokenId := 2

/-- The first draw of a step is small, all others are large. -/
def twoDraws (i _ : ℕ) : F32 := .fin (if i = 0 then 1 / 4 else 3 / 4)

theorem twoDraws_inUnit (i n : ℕ) : (twoDraws i n).InUnit := by
  unfold twoDraws
  split
  · exact ⟨by decide +kernel, by decide +kernel⟩
  · exact ⟨by decide +kernel, by decide +kernel⟩

/-- A request with a seed. -/
def seededRequest (temperature : F32) : InferenceRequest :=
  { smallRequest 1 [5] with samplingParams := { temperature, seed := some 42 } }

/-- The first step for the requests. -/
def firstStep (logits : List F32) (rs : List InferenceRequest) : PairStep where
  pair := rs.foldl (Pair.addRequest (smallConfig 8 false)) (.new (smallConfig 8 false))
  ops := (constService logits).ops (fun _ => []) twoDraws
  ord := .id

def firstHistory (logits : List F32) (rs : List InferenceRequest) : PairHistory :=
  ({ added := rs } : PairHistory).snoc smallHash (smallConfig 8 false) (firstStep logits rs)

theorem deterministic_first (logits : List F32) (rs : List InferenceRequest) :
    (firstHistory logits rs).Deterministic smallHash (smallConfig 8 false)
      (constService logits) := by
  apply PairHistory.Each.append
  · intro pre t post hsteps
    cases pre <;> cases hsteps
  · exact ⟨twoDraws, twoDraws_inUnit, rfl⟩

theorem pairRun_first {logits : List F32} {rs : List InferenceRequest}
    (hrun : PairRun smallHash (smallConfig 8 false) (fun _ => True) { added := rs }
      (firstStep logits rs).pair)
    (hplain : ∀ id params, (firstStep logits rs).pair.runner.requestSamplingParams.lookup id =
      some params → params.speculativeDecoding = none) :
    PairRun smallHash (smallConfig 8 false) (fun _ => True) (firstHistory logits rs)
      ((firstStep logits rs).next smallHash (smallConfig 8 false)) :=
  .step ((constService logits).ops (fun _ => []) twoDraws) .id hrun (proposes_of_plain hplain)
    True.intro

theorem pairRun_alone (logits : List F32) (temperature : F32) :
    PairRun smallHash (smallConfig 8 false) (fun _ => True)
      (firstHistory logits [seededRequest temperature])
      ((firstStep logits [seededRequest temperature]).next smallHash (smallConfig 8 false)) := by
  apply pairRun_first
  · exact .addRequest (seededRequest temperature) .new (by simp [PairHistory.accepted]) rfl
  · intro id params hparams
    have hparams : ((∅ : AList fun _ : RequestId => SamplingParams).insert 1
      (seededRequest temperature).samplingParams).lookup id = some params := hparams
    rw [lookup_insert_eq] at hparams
    split at hparams
    · obtain rfl := Option.some.inj hparams
      rfl
    · cases hparams

theorem pairRun_behind (logits : List F32) (temperature : F32) :
    PairRun smallHash (smallConfig 8 false) (fun _ => True)
      (firstHistory logits [smallRequest 2 [6], seededRequest temperature])
      ((firstStep logits [smallRequest 2 [6], seededRequest temperature]).next smallHash
        (smallConfig 8 false)) := by
  apply pairRun_first
  · exact .addRequest (seededRequest temperature)
      (.addRequest (smallRequest 2 [6]) .new (by simp [PairHistory.accepted]) rfl)
      (by simp [PairHistory.accepted, smallRequest, seededRequest]) rfl
  · intro id params hparams
    have hparams : (((∅ : AList fun _ : RequestId => SamplingParams).insert 2
      (smallRequest 2 [6]).samplingParams).insert 1
      (seededRequest temperature).samplingParams).lookup id = some params := hparams
    rw [lookup_insert_eq, lookup_insert_eq] at hparams
    split at hparams
    · obtain rfl := Option.some.inj hparams
      rfl
    · split at hparams
      · obtain rfl := Option.some.inj hparams
        rfl
      · cases hparams

/-- At temperature zero the other request makes no difference. -/
theorem PairRun.reproducible_seeded :
    SamePrefix
      ((firstHistory [.fin 0, .fin 1] [seededRequest (.fin 0)]).emitted smallHash
        (smallConfig 8 false) 1)
      ((firstHistory [.fin 0, .fin 1] [smallRequest 2 [6], seededRequest (.fin 0)]).emitted
        smallHash (smallConfig 8 false) 1) :=
  PairRun.reproducible (constService [.fin 0, .fin 1]) (seededRequest (.fin 0))
    (pairRun_alone [.fin 0, .fin 1] (.fin 0)) (pairRun_behind [.fin 0, .fin 1] (.fin 0))
    List.mem_cons_self (List.mem_cons_of_mem _ List.mem_cons_self)
    (deterministic_first _ _) (deterministic_first _ _)
    ((pairRun_alone [.fin 0, .fin 1] (.fin 0)).settled_of_greedy 1 (by decide +kernel))
    ((pairRun_behind [.fin 0, .fin 1] (.fin 0)).settled_of_greedy 1 (by decide +kernel))
    (.inl (by decide +kernel))

/-- At temperature one the draw for the other request comes first, seed or not. -/
theorem PairRun.not_reproducible : ¬ ∀ (H : HashFns) (cfg : Config) (S : Service)
    (hist₁ hist₂ : PairHistory) (p₁ p₂ : Pair) (r : InferenceRequest) (seed : UInt64),
    r.samplingParams.seed = some seed →
    PairRun H cfg (fun _ => True) hist₁ p₁ → PairRun H cfg (fun _ => True) hist₂ p₂ →
    r ∈ hist₁.added → r ∈ hist₂.added →
    hist₁.Deterministic H cfg S → hist₂.Deterministic H cfg S →
    SamePrefix (hist₁.emitted H cfg r.requestId) (hist₂.emitted H cfg r.requestId) := by
  intro h
  have hrep := h smallHash (smallConfig 8 false) (constService [.fin 0, .fin 0]) _ _ _ _
    (seededRequest (.fin 1)) 42 rfl (pairRun_alone [.fin 0, .fin 0] (.fin 1))
    (pairRun_behind [.fin 0, .fin 0] (.fin 1)) List.mem_cons_self
    (List.mem_cons_of_mem _ List.mem_cons_self) (deterministic_first _ _) (deterministic_first _ _)
  revert hrep
  unfold SamePrefix
  decide +kernel

end Rllm
