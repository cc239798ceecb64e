import Rllm.Engine.Prefill

/-! # Prefix hits and the runner

The scheduler skips the tokens of a prefix hit; the runner never learns of the
hit and starts at the first token of the prompt. Without hits the two agree: an
admitted request that the runner knows is fed from position zero.
-/

namespace Rllm

open ModelRunner UniProc

variable {H : HashFns} {cfg : Config} {P : PairStep → Prop} {hist : PairHistory} {p : Pair}
  {t : PairStep} {id : RequestId} {w : RunnerRequestState}

/-! ## Waiting requests are fresh -/

/-- The runner has not started on the requests that wait. -/
def WaitingFresh (p : Pair) : Prop :=
  ∀ id w, p.runner.requestStates.lookup id = some w → (p.sched.place id).waiting = true →
    w = { promptTokenIds := w.promptTokenIds }

theorem WaitingFresh.step (h : WaitingFresh t.pair)
    (hm : Matched H cfg hist t.pair) (hp : t.pair.sched.Partition)
    (hprop : Proposes (t.out H cfg) t.pair.runner) : WaitingFresh (t.next H cfg) := by
  intro id w' hw' hq
  obtain ⟨w, hw, hfin, hpre, -, hkeeps⟩ := (PairStep.served hp hprop id).keeps hw'
  obtain ⟨r₀, hr₀, -⟩ := hm.states id w hw
  have hall : t.pair.sched.StepAll H cfg .any t.ord := Scheduler.stepAll_any t.ord _
  have hph := PairStep.phase hp hall id
  rw [PairStep.next_place (PairStep.not_failed hw')] at hq
  obtain ⟨r, hr, -⟩ := hph.origin (by simpa using hfin) hr₀
  obtain ⟨preempted, hqueued, hμ, -⟩ := hph.of_waiting hq hr
  obtain rfl : false = preempted := by
    have hpre' := congrArg Mention.preempted hμ
    simpa [hpre] using hpre'
  have hn : id ∉ (t.out H cfg).scheduledNew ++ (t.out H cfg).scheduledRunning := by
    have hnew := congrArg Mention.new hμ
    have hdec := congrArg Mention.decoded hμ
    simp only [SchedulerOutput.mention_new, SchedulerOutput.mention_decoded,
      decide_eq_false_iff_not] at hnew hdec
    simp [hnew, hdec]
  cases hkeeps with
  | idle _ he =>
    subst he
    exact h id _ hw hqueued.origin
  | ran _ _ hid => exact absurd hid hn

theorem PairRun.waitingFresh (h : PairRun H cfg P hist p) : WaitingFresh p := by
  induction h with
  | new =>
    intro id w hw
    cases hw
  | @addRequest hist p r _ _ hok ih =>
    intro i w hw hq
    rw [Pair.addRequest, addRequest_ok hok] at hw
    simp only [setSamplingParams, ModelRunner.addRequest, lookup_insert_eq] at hw
    simp only [Pair.addRequest, Scheduler.place_addRequest] at hq
    split at hw
    · obtain rfl := Option.some.inj hw
      rfl
    · rename_i hi
      rw [if_neg hi] at hq
      exact ih i w hw hq
  | @abortRequest hist p id _ ih =>
    intro i w hw hq
    simp only [Pair.abortRequest, removeRequest] at hw hq
    rw [lookup_erase_eq, Option.ite_none_left_eq_some] at hw
    rw [Scheduler.place_abortRequest hw.1] at hq
    exact ih i w hw.2 hq
  | control _ hc ih =>
    intro i w hw hq
    rw [hc.place] at hq
    exact ih i w hw hq
  | step ops ord hrun hprop _ ih => exact ih.step hrun.matched hrun.schedRun.partition.1 hprop

/-! ## Admissions -/

/-- The tokens that a step schedules for a request. -/
def SchedulerOutput.tokensOf (o : SchedulerOutput) (id : RequestId) : ℕ :=
  (o.numScheduledTokens.lookup id).getD 0

/-- The tokens that a request admitted by a step took from the prefix cache: what it has after the
step, less what the step scheduled. -/
def PairStep.cachedTokens (H : HashFns) (cfg : Config) (t : PairStep) (id : RequestId)
    (r : SchedulerRequest) : ℕ :=
  r.numComputedTokens - (t.out H cfg).tokensOf id

/-- The runner agrees with the prefix hit of a request `r` that the step `t` of a run admits: it has
computed the cached tokens and is fed those behind them. If the whole prompt is cached, its last
token is fed once by the time a token is sampled. -/
structure HitAgrees (H : HashFns) (cfg : Config) (hist : PairHistory) (t : PairStep)
    (id : RequestId) (r : SchedulerRequest) : Prop where
  computed : ∃ w, t.pair.runner.requestStates.lookup id = some w ∧
    w.numComputedTokens = t.cachedTokens H cfg id r
  fed : 0 < (t.out H cfg).tokensOf id → t.fed H cfg id =
    (List.range' (t.cachedTokens H cfg id r) ((t.out H cfg).tokensOf id)).zip
      ((r.promptTokenIds.drop (t.cachedTokens H cfg id r)).take ((t.out H cfg).tokensOf id))
  last : id ∈ (t.out H cfg).scheduledCached → ∀ token, r.promptTokenIds.getLast? = some token →
    hist.emitted H cfg id ≠ [] → (hist.fed H cfg id).filter (·.1 == r.promptTokenIds.length - 1) =
      [(r.promptTokenIds.length - 1, token)]

/-- Every admitted request is one that the runner knows, that the step has not preempted and of
which no token is cached. -/
def Guards.unhit (H : HashFns) (cfg : Config) (runner : ModelRunner) : Guards where
  finishes _ := True
  decodes _ _ := True
  admits st := ∀ a, st.admission H cfg = some a → a.numCached = 0 ∧
    a.requestId ∉ st.output.preempted ∧ a.requestId ∈ runner.requestStates

def PairStep.Unhit (H : HashFns) (cfg : Config) (t : PairStep) : Prop :=
  t.pair.sched.StepAll H cfg (.unhit H cfg t.pair.runner) t.ord

theorem Granted.unhit {runner : ModelRunner} {r : Progress} {n : ℕ} {preempted : Bool}
    (h : Granted H cfg (.unhit H cfg runner) ⟨id, r.numComputedTokens, n⟩ r preempted) :
    r.numComputedTokens = 0 ∧ preempted = false ∧
      ∃ w, runner.requestStates.lookup id = some w := by
  obtain ⟨st₀, hguard, ha, hpre, -⟩ := h
  obtain ⟨hc, hnot, hknown⟩ := hguard _ ha
  refine ⟨hc, ?_, Option.isSome_iff_exists.mp (AList.lookup_isSome.mpr hknown)⟩
  rw [hpre]
  exact decide_eq_false hnot

/-- The runner's side of an admission without a hit. -/
theorem WaitingFresh.of_queued (h : WaitingFresh t.pair) {r : Progress}
    (hq : Queued cfg (t.pair.sched.place id) r false)
    (hw : t.pair.runner.requestStates.lookup id = some w) :
    w = { promptTokenIds := w.promptTokenIds } :=
  h id w hw hq.origin

theorem PairStep.fed_unhit (hp : t.pair.sched.Partition) (h : WaitingFresh t.pair)
    (hm : Matched H cfg hist t.pair) (ht : t.Unhit H cfg)
    {drafts : AList fun _ : RequestId => List Token} {batch : InputBatch}
    (hprep : t.prepared H cfg = .ok (drafts, batch)) (hid : id ∈ (t.out H cfg).scheduledNew)
    {r : SchedulerRequest} (hr : (t.sched H cfg).requests.lookup id = some r) :
    (∃ w, t.pair.runner.requestStates.lookup id = some w ∧ w.numComputedTokens = 0) ∧
      r.numComputedTokens = (t.out H cfg).tokensOf id ∧
      t.fed H cfg id = (List.range' 0 ((t.out H cfg).tokensOf id)).zip
        (r.promptTokenIds.take ((t.out H cfg).tokensOf id)) := by
  have hph := phase hp ht id
  obtain ⟨r', n, hpos, hq, hg, hle, htok, hpl⟩ := hph.of_new (by simpa using hid)
  obtain ⟨hc, hpre, w, hw⟩ := hg.unhit
  obtain ⟨-, -, hfin⟩ := hph.exclusive.1 (by simpa using hid)
  rw [hpre] at hq
  have hw0 := h.of_queued hq hw
  have hstart : w.numComputedTokens = 0 := by rw [hw0]
  have htokens : (t.out H cfg).tokensOf id = n := by
    rw [SchedulerOutput.mention_tokens] at htok
    rw [SchedulerOutput.tokensOf, htok, Option.getD_some]
  have hr' : r.numComputedTokens = n ∧ r.promptTokenIds = r'.promptTokenIds := by
    have hprog := congrArg Place.progress hpl
    simp only [Scheduler.place_progress, hr, Option.map_some, Option.some.injEq] at hprog
    refine ⟨?_, congrArg Progress.promptTokenIds hprog⟩
    exact (congrArg Progress.numComputedTokens hprog).trans (by simp only [hc, Nat.zero_add])
  have hprompt : w.promptTokenIds = r'.promptTokenIds := by
    obtain ⟨r₀, hr₀, hprompt, -⟩ := hm.states id w hw
    obtain ⟨r₁, hr₁, -, hp₁, -⟩ := hq.same
    obtain rfl := Option.some.inj (hr₁.symm.trans hr₀)
    rw [hprompt, hp₁]
  obtain ⟨-, mp, hd, hbuilt⟩ := prepare_ok (out_nodup hp) hprep
  have hclean : (mp.clean (t.out H cfg)).requestStates.lookup id = some w := by
    rw [states_clean_congr hd.states, states_clean, if_neg, hw]
    simp only [SchedulerOutput.mention_finished, SchedulerOutput.mention_preempted,
      decide_eq_false_iff_not] at hfin hpre
    exact not_or.mpr ⟨hfin, hpre⟩
  have hbatch : t.batch H cfg = batch := by rw [PairStep.batch, hprep]
  have hnd : batch.requestIds.Nodup := (out_nodup hp).sublist hbuilt.sublist
  have hf := hbuilt.feeds id (List.mem_append_left _ hid)
  refine ⟨⟨w, hw, hstart⟩, hr'.1.trans htokens.symm, ?_⟩
  rw [fed_eq (hbatch ▸ hnd), hbatch, htokens, hr'.2]
  generalize batch.seqOf id = seq? at hf ⊢
  cases hf with
  | unknown hu =>
    rw [hclean] at hu
    cases hu
  | nothing hz => exact absurd (htokens.symm.trans hz) hpos.ne'
  | prefilled hm' _ hle' =>
    obtain rfl := Option.some.inj (hm'.symm.trans hclean)
    rw [hstart, hprompt] at hle'
    omega
  | @prefill w₁ n₁ seq hm' hn _ _ hs =>
    obtain rfl := Option.some.inj (hm'.symm.trans hclean)
    obtain rfl : n₁ = n := by rw [← htokens, SchedulerOutput.tokensOf, hn, Option.getD_some]
    rw [hstart, List.drop_zero, hprompt] at hs
    have hlen : (r'.promptTokenIds.take n₁).length = n₁ := by
      rw [List.length_take]
      omega
    have hpairs := hs.positions_eq
    rw [hlen] at hpairs
    simp [BatchSeq.pairs, hpairs, hs.tokenIds_eq]
  | decode _ hid' => exact absurd hid hid'

theorem PairStep.cached_unhit (hp : t.pair.sched.Partition) (h : WaitingFresh t.pair)
    (ht : t.Unhit H cfg) (hid : id ∈ (t.out H cfg).scheduledCached) {r : SchedulerRequest}
    (hr : (t.sched H cfg).requests.lookup id = some r) :
    (∃ w, t.pair.runner.requestStates.lookup id = some w ∧ w.numComputedTokens = 0) ∧
      r.numComputedTokens = 0 ∧ (t.out H cfg).tokensOf id = 0 ∧ r.promptTokenIds = [] := by
  have hph := phase hp ht id
  obtain ⟨r', hq, hg, hle, htok, hpl⟩ := hph.of_cached (by simpa using hid)
  obtain ⟨hc, hpre, w, hw⟩ := hg.unhit
  rw [hpre] at hq
  have hw0 := h.of_queued hq hw
  have hprog := congrArg Place.progress hpl
  simp only [Scheduler.place_progress, hr, Option.map_some, Option.some.injEq] at hprog
  obtain rfl := hprog
  rw [SchedulerOutput.mention_tokens] at htok
  refine ⟨⟨w, hw, by rw [hw0]⟩, hc, by rw [SchedulerOutput.tokensOf, htok]; rfl, ?_⟩
  rw [hc] at hle
  exact List.eq_nil_of_length_eq_zero (Nat.le_zero.mp hle)

/-- If no step admits a request with a prefix hit, or one that was preempted, then the runner agrees
with the scheduler on every admission. -/
theorem PairRun.hitAgrees (H : HashFns) (cfg : Config) (hist : PairHistory) (p : Pair)
    (hrun : PairRun H cfg (·.Unhit H cfg) hist p) :
    ∀ t ∈ hist.steps, ∀ drafts batch, t.prepared H cfg = .ok (drafts, batch) →
    ∀ id ∈ (t.out H cfg).scheduledNew ++ (t.out H cfg).scheduledCached, ∀ r,
      (t.sched H cfg).requests.lookup id = some r → HitAgrees H cfg hist t id r := by
  intro t ht drafts batch hprep id hid r hr
  obtain ⟨hunhit, hist₀, hrun₀⟩ := hrun.of_mem ht
  have hp := hrun₀.schedRun.partition.1
  by_cases hc : id ∈ (t.out H cfg).scheduledCached
  · obtain ⟨⟨w, hw, hw0⟩, hc0, htok, hnil⟩ :=
      PairStep.cached_unhit hp hrun₀.waitingFresh hunhit hc hr
    refine ⟨⟨w, hw, ?_⟩, fun hpos => ?_, fun _ token htoken => ?_⟩
    · rw [hw0, PairStep.cachedTokens, hc0, Nat.zero_sub]
    · omega
    · rw [hnil] at htoken
      cases htoken
  · have hn := (List.mem_append.mp hid).resolve_right hc
    obtain ⟨⟨w, hw, hw0⟩, hcount, hfed⟩ :=
      PairStep.fed_unhit hp hrun₀.waitingFresh hrun₀.matched hunhit hprep hn hr
    have hcached : t.cachedTokens H cfg id r = 0 := by
      rw [PairStep.cachedTokens, hcount, Nat.sub_self]
    refine ⟨⟨w, hw, hw0.trans hcached.symm⟩, fun _ => ?_, fun h => absurd h hc⟩
    rw [hcached, List.drop_zero]
    exact hfed

instance (runner : ModelRunner) : DecidablePred (Guards.unhit H cfg runner).admits := fun st =>
  inferInstanceAs (Decidable (∀ a ∈ st.admission H cfg, a.numCached = 0 ∧
    a.requestId ∉ st.output.preempted ∧ a.requestId ∈ runner.requestStates))

/-- The first request finds nothing in the cache. -/
theorem PairRun.hitAgrees_small : ∃ r,
    ((smallPrefill (smallConfig 8 true)).sched smallHash (smallConfig 8 true)).requests.lookup 1 =
      some r ∧ HitAgrees smallHash (smallConfig 8 true) (smallHistory (smallConfig 8 true))
        (smallPrefill (smallConfig 8 true)) 1 r := by
  have hsome : (((smallPrefill (smallConfig 8 true)).sched smallHash
      (smallConfig 8 true)).requests.lookup 1).isSome = true := by decide +kernel
  obtain ⟨r, hr⟩ := Option.isSome_iff_exists.mp hsome
  have hagrees := PairRun.hitAgrees smallHash (smallConfig 8 true)
    (smallHistory (smallConfig 8 true)) _
    (pairRun_smallPrefill _ (fun _ => ⟨fun _ _ _ _ => True.intro,
      StepState.runningAll_of_forall (fun _ _ => True.intro) _ _, by decide +kernel⟩) ⟨_, rfl⟩)
    (smallPrefill (smallConfig 8 true)) (by simp [smallHistory, PairHistory.snoc]) _ _ rfl 1
    (by decide +kernel) r hr
  exact ⟨r, hr, hagrees⟩

/-- A second prompt that shares its first token with the first one. -/
def sharingStep : PairStep :=
  ⟨(((smallPrefill (smallConfig 8 true)).next smallHash (smallConfig 8 true)).abortRequest
    1).addRequest (smallConfig 8 true) (smallRequest 2 [5, 7]), constModel, .id⟩

/-- One token of the second prompt is cached; the runner starts at its first token. -/
theorem PairRun.not_hitAgrees : ¬ ∀ (H : HashFns) (cfg : Config),
    cfg.cache.enablePrefixCaching = true → ∀ (hist : PairHistory) (p : Pair),
    PairRun H cfg (fun _ => True) hist p → hist.Plain →
    ∀ t ∈ hist.steps, ∀ drafts batch, t.prepared H cfg = .ok (drafts, batch) →
    ∀ id ∈ (t.out H cfg).scheduledNew ++ (t.out H cfg).scheduledCached, ∀ r,
      (t.sched H cfg).requests.lookup id = some r → HitAgrees H cfg hist t id r := by
  intro h
  have hrun := PairRun.step (P := fun _ => True) constModel .id
    (PairRun.addRequest (smallRequest 2 [5, 7]) (.abortRequest 1 (pairRun_smallPrefill
      (smallConfig 8 true) True.intro ⟨_, rfl⟩)) (by decide) rfl) ⟨_, rfl⟩ True.intro
  have hagree := h smallHash (smallConfig 8 true) rfl _ _ hrun
    (by unfold PairHistory.Plain; decide) sharingStep (by simp [PairHistory.snoc, sharingStep]) _ _
    rfl 2 (by decide +kernel) _ rfl
  obtain ⟨w, hw, hc⟩ := hagree.computed
  have hw' : sharingStep.pair.runner.requestStates.lookup 2 = some ⟨[5, 7], [], 0⟩ := by
    decide +kernel
  obtain rfl := Option.some.inj (hw.symm.trans hw')
  revert hc
  decide +kernel

end Rllm
