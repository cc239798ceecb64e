import Rllm.Engine.PrefixHits
import Rllm.Scheduler.Exclusive

/-! # Slots written by a forward pass

The runner writes the keys and values of a batch to slots of the block tables
that the scheduler emits. Its positions stay behind the computed tokens of the
scheduler, so the tables reach them; without prefix hits they also stay behind
the cached tokens, and a block is written for its one owner only.
-/

namespace Rllm

open ModelRunner UniProc

variable {H : HashFns} {cfg : Config} {P : PairStep → Prop} {hist : PairHistory} {p : Pair}
  {t : PairStep} {id : RequestId} {w : RunnerRequestState}

/-! ## The runner stays behind the scheduler -/

/-- The runner has computed no more of a request than the scheduler counts. -/
def Pair.Behind (p : Pair) : Prop :=
  ∀ id w r, p.runner.requestStates.lookup id = some w → (p.sched.place id).progress = some r →
    w.numComputedTokens ≤ r.numComputedTokens

theorem Phase.computed_le {K : Guards} {p₀ p' : Place} {μ : Mention} {r₀ r : Progress}
    (h : Phase H cfg K id p₀ p' μ) (hf : μ.finished = false) (hr₀ : p₀.progress = some r₀)
    (hr : p'.progress = some r) : r₀.numComputedTokens ≤ r.numComputedTokens ∨
      ∃ r', Queued cfg p₀ r' μ.preempted := by
  cases h with
  | same =>
    obtain rfl := Option.some.inj (hr₀.symm.trans hr)
    exact Or.inl le_rfl
  | finished => cases hf
  | decoded _ hr₁ =>
    obtain rfl := Option.some.inj (hr₀.symm.trans hr₁)
    obtain rfl := Option.some.inj hr
    exact Or.inl (Nat.le_add_right _ _)
  | queued hq => exact Or.inr ⟨_, hq⟩
  | admitted hq => exact Or.inr ⟨_, hq⟩

/-- A sequence of the batch: where it starts, and how far it reaches at most. -/
structure PairStep.Reaches (H : HashFns) (cfg : Config) (t : PairStep) (id : RequestId)
    (w : RunnerRequestState) (seq : BatchSeq) : Prop where
  positions_eq : seq.positions = List.range' w.numComputedTokens seq.tokenIds.length
  blockTable_eq : seq.blockTable = ((t.out H cfg).blockTables.lookup id).getD []
  slots_eq : seq.slotMapping =
    computeSlotMappings seq.positions seq.blockTable cfg.cache.blockSize
  bound : ∀ r, ((t.sched H cfg).place id).progress = some r →
    w.numComputedTokens + seq.tokenIds.length ≤ r.numComputedTokens
  advance_le : ∀ drafts, advanceBy drafts seq ≤ seq.tokenIds.length

theorem Pair.Behind.reaches (h : t.pair.Behind) (hfresh : WaitingFresh t.pair)
    (hm : Matched H cfg hist t.pair) (hp : t.pair.sched.Partition)
    {drafts : AList fun _ : RequestId => List Token} {mp : ModelRunner} {seq : BatchSeq}
    (hid : id ∈ (t.out H cfg).scheduledNew ++ (t.out H cfg).scheduledRunning)
    (hd : Drafted t.pair.runner drafts mp)
    (hf : Feeds cfg.cache.blockSize (t.out H cfg) (mp.clean (t.out H cfg)) id (some seq)) :
    ∃ w, t.pair.runner.requestStates.lookup id = some w ∧ t.Reaches H cfg id w seq := by
  have hall : t.pair.sched.StepAll H cfg .any t.ord := Scheduler.stepAll_any t.ord _
  have hph := PairStep.phase hp hall id
  have hclean : ∀ w, (mp.clean (t.out H cfg)).requestStates.lookup id = some w →
      t.pair.runner.requestStates.lookup id = some w ∧
      id ∉ (t.out H cfg).finished ∧ id ∉ (t.out H cfg).preempted := by
    intro w hw
    rw [states_clean_congr hd.states, states_clean, Option.ite_none_left_eq_some, not_or] at hw
    exact ⟨hw.2, hw.1⟩
  cases hf with
  | @prefill w n _ hw hn hnew hlt hs =>
    obtain ⟨hw, hfin, hpre⟩ := hclean w hw
    refine ⟨w, hw, ?_, hs.blockTable_eq, hs.slots_eq, fun r hr => ?_, fun drafts => ?_⟩
    · rw [hs.positions_eq, hs.tokenIds_eq]
    · obtain ⟨r', n', hpos, hq, -, -, htok, hpl⟩ := hph.of_new (by simpa using hnew)
      have hpre' : ((t.out H cfg).mention id).preempted = false := by simpa using hpre
      rw [hpre'] at hq
      have hstart : w.numComputedTokens = 0 := by rw [hfresh.of_queued hq hw]
      obtain rfl : n = n' := Option.some.inj (hn.symm.trans htok)
      rw [hpl] at hr
      obtain rfl := Option.some.inj hr
      have hlen : seq.tokenIds.length ≤ n := by
        rw [hs.tokenIds_eq]
        exact List.length_take_le _ _
      rw [hstart, Nat.zero_add]
      exact hlen.trans (Nat.le_add_left _ _)
    · rw [advanceBy, hs.isPrefill_eq]
      exact le_rfl
  | @decode w _ hw hnew hs =>
    obtain ⟨hw, hfin, hpre⟩ := hclean w hw
    refine ⟨w, hw, ?_, hs.blockTable_eq, hs.slots_eq, fun r hr => ?_, fun drafts => ?_⟩
    · rw [hs.positions_eq, hs.tokenIds_eq]
    · have hdec := (List.mem_append.mp hid).resolve_left hnew
      obtain ⟨-, r₀, hr₀, hpl, -⟩ := hph.of_decoded (by simpa using hdec)
      obtain ⟨r₁, hr₁, -, hparams⟩ := hm.states id w hw
      obtain rfl := Option.some.inj (hr₁.symm.trans hr₀)
      rw [hpl] at hr
      obtain rfl := Option.some.inj hr
      have hle := h id w r₁ hw hr₀
      have hdrafts := hm.drafts_le hd hparams
      have hlen : seq.tokenIds.length = 1 + ((mp.speculativeDrafts.lookup id).getD []).length := by
        rw [hs.tokenIds_eq, drafts_clean, if_neg (not_or.mpr ⟨hfin, hpre⟩), List.length_cons,
          Nat.add_comm]
      dsimp only
      omega
    · have hpos : 0 < seq.tokenIds.length := by
        rw [hs.tokenIds_eq]
        exact Nat.succ_pos _
      unfold advanceBy
      split
      · exact le_rfl
      · exact hpos

theorem Pair.Behind.step (h : t.pair.Behind) (hfresh : WaitingFresh t.pair)
    (hm : Matched H cfg hist t.pair) (hp : t.pair.sched.Partition)
    (hprop : Proposes (t.out H cfg) t.pair.runner) : (t.next H cfg).Behind := by
  intro id w' r' hw' hr'
  have hall : t.pair.sched.StepAll H cfg .any t.ord := Scheduler.stepAll_any t.ord _
  have hph := PairStep.phase hp hall id
  obtain ⟨w, hw, hfin, hpre, -, hkeeps⟩ := (PairStep.served hp hprop id).keeps hw'
  rw [PairStep.next_place (PairStep.not_failed hw')] at hr'
  cases hkeeps with
  | idle _ he =>
    subst he
    obtain ⟨r₀, hr₀, -⟩ := hm.states id _ hw
    rcases hph.computed_le (by simpa using hfin) hr₀ hr' with hle | ⟨r₁, hq⟩
    · exact (h id _ r₀ hw hr₀).trans hle
    · rw [show ((t.out H cfg).mention id).preempted = false by simpa using hpre] at hq
      rw [hfresh.of_queued hq hw]
      exact Nat.zero_le _
  | @ran drafts _ _ _ _ _ _ _ hid hd hf _ he =>
    subst he
    obtain ⟨w₂, hw₂, hreach⟩ := h.reaches hfresh hm hp hid hd hf
    obtain rfl := Option.some.inj (hw.symm.trans hw₂)
    exact (Nat.add_le_add_left (hreach.advance_le drafts) _).trans (hreach.bound r' hr')

theorem PairRun.behind (h : PairRun H cfg P hist p) : p.Behind := by
  induction h with
  | new =>
    intro id w r hw
    cases hw
  | @addRequest hist p r _ _ hok ih =>
    intro i w r' hw hr'
    rw [Pair.addRequest, addRequest_ok hok] at hw
    simp only [setSamplingParams, ModelRunner.addRequest, lookup_insert_eq] at hw
    simp only [Pair.addRequest, Scheduler.place_addRequest] at hr'
    split at hw
    · obtain rfl := Option.some.inj hw
      exact Nat.zero_le _
    · rename_i hi
      rw [if_neg hi] at hr'
      exact ih i w r' hw hr'
  | @abortRequest hist p id _ ih =>
    intro i w r hw hr
    simp only [Pair.abortRequest, removeRequest] at hw hr
    rw [lookup_erase_eq, Option.ite_none_left_eq_some] at hw
    rw [Scheduler.place_abortRequest hw.1] at hr
    exact ih i w r hw.2 hr
  | control _ hc ih =>
    intro i w r hw hr
    rw [hc.place] at hr
    exact ih i w r hw hr
  | step ops ord hrun hprop _ ih =>
    exact ih.step hrun.waitingFresh hrun.matched hrun.schedRun.partition.1 hprop

/-! ## Without hits it stays in front of the cached tokens -/

/-- No lookup of the step hits the prefix cache. -/
def PairStep.NoHits (H : HashFns) (cfg : Config) (t : PairStep) : Prop :=
  t.pair.sched.StepAll H cfg (.noHits H cfg) t.ord

/-- The step takes no tokens from the prefix cache for those of the requests that it admits. -/
def PairStep.TakesNothing (H : HashFns) (cfg : Config) (ids : List RequestId) (t : PairStep) :
    Prop :=
  ∀ id ∈ ids, id ∈ (t.out H cfg).scheduledNew ++ (t.out H cfg).scheduledCached →
    ∀ r ∈ (t.sched H cfg).requests.lookup id, t.cachedTokens H cfg id r = 0

/-- The runner has computed the cached tokens of those of the requests that run. -/
def Pair.Ahead (ids : List RequestId) (p : Pair) : Prop :=
  ∀ id ∈ ids, ∀ w, p.runner.requestStates.lookup id = some w → id ∈ p.sched.running →
    p.sched.kvCacheManager.cachedTokens id ≤ w.numComputedTokens

theorem Scheduler.cachedTokens_abortAll {ids : List RequestId} (hid : id ∉ ids) (s : Scheduler) :
    (ids.foldl Scheduler.abortRequest s).kvCacheManager.cachedTokens id =
      s.kvCacheManager.cachedTokens id := by
  induction ids generalizing s with
  | nil => rfl
  | cons i ids ih =>
    rw [List.mem_cons, not_or] at hid
    rw [List.foldl_cons, ih hid.2]
    have hl : (s.abortRequest i).kvCacheManager.requestComputedTokens.lookup id =
        s.kvCacheManager.requestComputedTokens.lookup id := AList.lookup_erase_ne hid.1
    rw [KVCacheManager.cachedTokens, hl, KVCacheManager.cachedTokens]

theorem PairStep.Keeps.computed_le {w' : RunnerRequestState} {pairs : List (ℕ × Token)}
    {tokens : List Token} (h : t.Keeps H cfg id w w' pairs tokens) :
    w.numComputedTokens ≤ w'.numComputedTokens := by
  cases h with
  | idle _ he => rw [he]
  | ran _ _ _ _ _ _ he =>
    rw [he]
    exact Nat.le_add_right _ _

theorem PairStep.Served.admitted {w? : Option RunnerRequestState} {pairs : List (ℕ × Token)}
    {tokens : List Token} (h : t.Served H cfg id w? pairs tokens) (hfresh : WaitingFresh t.pair)
    (hm : Matched H cfg hist t.pair) (hp : t.pair.sched.Partition)
    (hnew : id ∈ (t.out H cfg).scheduledNew) {w' : RunnerRequestState} (hw' : w? = some w') :
    w'.numComputedTokens = ((t.out H cfg).numScheduledTokens.lookup id).getD 0 := by
  have hall : t.pair.sched.StepAll H cfg .any t.ord := Scheduler.stepAll_any t.ord _
  have hph := PairStep.phase hp hall id
  obtain ⟨w, hw, hfin, hpre, hclean, hkeeps⟩ := h.keeps hw'
  obtain ⟨r, n, hpos, hq, -, hle, htok, -⟩ := hph.of_new (by simpa using hnew)
  rw [show ((t.out H cfg).mention id).preempted = false by simpa using hpre] at hq
  have hw0 : w.numComputedTokens = 0 := by rw [hfresh.of_queued hq hw]
  have hn : (t.out H cfg).numScheduledTokens.lookup id = some n := htok
  have hprompt : w.promptTokenIds = r.promptTokenIds := by
    obtain ⟨r₀, hr₀, hprompt, -⟩ := hm.states id w hw
    obtain ⟨r₁, hr₁, -, hp₁, -⟩ := hq.same
    obtain rfl := Option.some.inj (hr₁.symm.trans hr₀)
    rw [hprompt, hp₁]
  cases hkeeps with
  | idle hfeeds =>
    obtain ⟨mp, hs, hf⟩ := hfeeds (List.mem_append_left _ hnew)
    exfalso
    cases hf with
    | unknown hu =>
      rw [hclean mp hs] at hu
      cases hu
    | nothing hz =>
      rw [hn, Option.getD_some] at hz
      omega
    | prefilled hs' _ hall =>
      obtain rfl := Option.some.inj (hs'.symm.trans (hclean mp hs))
      rw [hw0, hprompt] at hall
      omega
  | ran _ _ _ hd hf _ he =>
    subst he
    cases hf with
    | prefill hs' hn' _ _ hs =>
      obtain rfl := Option.some.inj (hs'.symm.trans (hclean _ hd.states))
      obtain rfl := Option.some.inj (hn'.symm.trans hn)
      rw [UniProc.ran, advanceBy, hs.isPrefill_eq, Bool.true_or, if_pos rfl, hs.tokenIds_eq, hn,
        hw0, hprompt]
      simp only [List.drop_zero, List.length_take, Option.getD_some]
      omega
    | decode _ hn' => exact absurd hnew hn'

/-- An admitted request without cached tokens is fed all that is counted as cached. -/
theorem PairStep.TakesNothing.cached_le {ids : List RequestId} (ht : t.TakesNothing H cfg ids)
    (hfresh : WaitingFresh t.pair) (hm : Matched H cfg hist t.pair)
    (hp : t.pair.sched.Partition) (hex : (t.sched H cfg).Exclusive cfg) (hid : id ∈ ids)
    (hrun : id ∈ (t.sched H cfg).running) {r : SchedulerRequest}
    (hr : (t.sched H cfg).requests.lookup id = some r)
    (hadm : id ∈ (t.out H cfg).scheduledNew ++ (t.out H cfg).scheduledCached)
    {w? : Option RunnerRequestState} {pairs : List (ℕ × Token)} {tokens : List Token}
    (h : t.Served H cfg id w? pairs tokens) {w' : RunnerRequestState} (hw' : w? = some w') :
    (t.sched H cfg).kvCacheManager.cachedTokens id ≤ w'.numComputedTokens := by
  have hall : t.pair.sched.StepAll H cfg .any t.ord := Scheduler.stepAll_any t.ord _
  have hle := hex.cached_le id hrun r hr
  have hzero : r.numComputedTokens - (t.out H cfg).tokensOf id = 0 := ht id hid hadm r hr
  by_cases hnew : id ∈ (t.out H cfg).scheduledNew
  · rw [h.admitted hfresh hm hp hnew hw']
    exact hle.trans (Nat.sub_eq_zero_iff_le.mp hzero)
  · have hcached := (List.mem_append.mp hadm).resolve_left hnew
    obtain ⟨-, -, -, -, htok, -⟩ := (PairStep.phase hp hall id).of_cached (by simpa using hcached)
    rw [SchedulerOutput.mention_tokens] at htok
    rw [SchedulerOutput.tokensOf, htok, Option.getD_none, Nat.sub_zero] at hzero
    exact (hle.trans hzero.le).trans (Nat.zero_le _)

theorem Pair.Ahead.step {n : ℕ} {ids : List RequestId} (h : t.pair.Ahead ids)
    (hfresh : WaitingFresh t.pair)
    (hm : Matched H cfg hist t.pair) (hinv : t.pair.sched.Inv H cfg n)
    (hinv' : (t.sched H cfg).Inv H cfg n) (hex : (t.sched H cfg).Exclusive cfg)
    (hprop : Proposes (t.out H cfg) t.pair.runner) (ht : t.TakesNothing H cfg ids) :
    (t.next H cfg).Ahead ids := by
  intro id hid w' hw' hrun
  have hp := hinv.partition
  have hfail := PairStep.not_failed hw'
  have hserved := PairStep.served hp hprop id
  obtain ⟨w, hw, hfin, hpre, -, hkeeps⟩ := hserved.keeps hw'
  have hrun' : id ∈ (t.sched H cfg).running := by
    have hplace := congrArg Place.running (PairStep.next_place hfail)
    simpa using hplace.symm.trans (decide_eq_true hrun)
  rw [PairStep.next_sched, Scheduler.cachedTokens_abortAll (by rwa [(t.ord.perm _).mem_iff])]
  by_cases hrun₀ : id ∈ t.pair.sched.running
  · have hk := ((Scheduler.step_retains hinv t.ord id).resolve_left hpre).resolve_left hfin
    have hc : (t.sched H cfg).kvCacheManager.cachedTokens id = _ := (hk.running hrun₀).2
    rw [hc]
    exact (h id hid w hw hrun₀).trans hkeeps.computed_le
  · obtain ⟨r, hr⟩ := Scheduler.mem_requests_iff.mp
      ((hinv'.partition.mem_requests id).mpr (Or.inr (Or.inl hrun')))
    refine ht.cached_le hfresh hm hp hex hid hrun' hr ?_ hserved hw'
    -- nothing else starts to run
    have hall : t.pair.sched.StepAll H cfg .any t.ord := Scheduler.stepAll_any t.ord _
    have hph := PairStep.phase hp hall id
    by_contra hadm
    rw [List.mem_append, not_or] at hadm
    refine absurd ?_ hrun₀
    by_cases hdec : id ∈ (t.out H cfg).scheduledRunning
    · simpa using (hph.of_decoded (by simpa using hdec)).1
    · have hsame := (hph.of_running (by simpa using hrun') (by simpa using hadm.1)
        (by simpa using hadm.2) (by simpa using hdec)).1
      simpa [hrun'] using (congrArg Place.running hsame).symm

theorem PairRun.ahead {ids : List RequestId} (h : PairRun H cfg P hist p)
    (hle : cfg.numCacheBlocks ≤ 2 ^ 32) (ht : ∀ t ∈ hist.steps, t.TakesNothing H cfg ids) :
    p.Ahead ids := by
  induction h with
  | new =>
    intro id _ w hw
    cases hw
  | @addRequest hist p r hrun hfresh hok ih =>
    obtain ⟨hinv, hknown⟩ := hrun.schedRun.inv hle
    intro i hi w hw hr
    rw [Pair.addRequest, addRequest_ok hok] at hw
    simp only [setSamplingParams, ModelRunner.addRequest, lookup_insert_eq] at hw
    split at hw
    · rename_i he
      have hn := hknown.fresh hfresh
      rw [hinv.partition.mem_requests, not_or, not_or] at hn
      exact absurd (he ▸ hr) hn.2.1
    · exact ih ht i hi w hw hr
  | @abortRequest hist p id hrun ih =>
    intro i hi w hw hr
    simp only [Pair.abortRequest, removeRequest] at hw hr
    rw [lookup_erase_eq, Option.ite_none_left_eq_some] at hw
    have hne : i ∉ [id] := by simpa using hw.1
    have hc := Scheduler.cachedTokens_abortAll hne p.sched
    refine hc.trans_le (ih ht i hi w hw.2 ?_)
    exact (List.mem_filter.mp hr).1
  | control _ hc ih =>
    have hcached := ih ht
    cases hc with
    | pause => exact hcached
    | resume => exact hcached
    | resetPrefixCache hr =>
      rw [Scheduler.resetPrefixCache_ok hr]
      exact hcached
  | @step hist p ops ord hrun hprop _ ih =>
    have hold : ∀ t ∈ hist.steps, t.TakesNothing H cfg ids := fun t h =>
      ht t (List.mem_append_left _ h)
    have hinv := (hrun.schedRun.inv hle).1
    exact (ih hold).step hrun.waitingFresh hrun.matched hinv (hinv.step ord)
      ((SchedRun.step ord hrun.schedRun).exclusive hle) hprop
      (ht _ (List.mem_append_right _ (List.mem_singleton_self _)))

/-! ## The slots of a batch -/

/-- A sequence writes, from the computed tokens of the runner on, to blocks of the table that its
request has after the step. -/
structure PairStep.Writes (H : HashFns) (cfg : Config) (t : PairStep) (w : RunnerRequestState)
    (seq : BatchSeq) : Prop where
  scheduled : seq.requestId ∈ (t.out H cfg).scheduledNew ++ (t.out H cfg).scheduledRunning
  running : seq.requestId ∈ (t.sched H cfg).running
  start : ∀ pos ∈ seq.positions, w.numComputedTokens ≤ pos
  nodup : seq.positions.Nodup
  slots_eq : seq.slotMapping = seq.positions.map (slotOf
    ((t.sched H cfg).kvCacheManager.table seq.requestId) cfg.cache.blockSize)
  blocks : ∀ pos ∈ seq.positions, ∃ b,
    ((t.sched H cfg).kvCacheManager.table seq.requestId)[pos / cfg.cache.blockSize]? = some b ∧
    slotOf ((t.sched H cfg).kvCacheManager.table seq.requestId) cfg.cache.blockSize pos =
      (b * cfg.cache.blockSize + pos % cfg.cache.blockSize : ℕ)

/-- The sizes for which every slot has a number. -/
structure Config.SlotsFit (cfg : Config) : Prop where
  blockSize_lt : cfg.cache.blockSize < 2 ^ 32
  numCacheBlocks_le : cfg.numCacheBlocks ≤ 2 ^ 32
  slots_le : cfg.numCacheBlocks * cfg.cache.blockSize ≤ 2 ^ 63

theorem Config.SlotsFit.slot_lt (h : cfg.SlotsFit) {b : ℕ} (hb : b < max cfg.numCacheBlocks 1)
    (hpos : 0 < b) (pos : ℕ) :
    b * cfg.cache.blockSize + pos % cfg.cache.blockSize < 2 ^ 63 := by
  have hlt : b + 1 ≤ cfg.numCacheBlocks := by omega
  have hmod := Nat.mod_lt pos cfg.cache.blockSize_pos
  calc b * cfg.cache.blockSize + pos % cfg.cache.blockSize
      < b * cfg.cache.blockSize + cfg.cache.blockSize := Nat.add_lt_add_left hmod _
    _ = (b + 1) * cfg.cache.blockSize := (Nat.succ_mul _ _).symm
    _ ≤ cfg.numCacheBlocks * cfg.cache.blockSize := Nat.mul_le_mul_right _ hlt
    _ ≤ 2 ^ 63 := h.slots_le

theorem PairRun.writes (h : PairRun H cfg P hist t.pair) (hfit : cfg.SlotsFit)
    {drafts : AList fun _ : RequestId => List Token} {batch : InputBatch}
    (hprep : t.prepared H cfg = .ok (drafts, batch)) : batch.requestIds.Nodup ∧
      ∀ seq ∈ batch.seqs, ∃ w, t.pair.runner.requestStates.lookup seq.requestId = some w ∧
        t.Writes H cfg w seq := by
  have hp := h.schedRun.partition.1
  have hinv := ((SchedRun.step t.ord h.schedRun).inv hfit.numCacheBlocks_le).1
  have hbs := cfg.cache.blockSize_pos
  obtain ⟨-, mp, hd, hbuilt⟩ := prepare_ok (PairStep.out_nodup hp) hprep
  have hnd : batch.requestIds.Nodup := (PairStep.out_nodup hp).sublist hbuilt.sublist
  refine ⟨hnd, fun seq hseq => ?_⟩
  have hof := InputBatch.seqOf_of_mem hnd hseq
  have hid := hbuilt.mem_of_seqOf hof
  obtain ⟨w, hw, hreach⟩ := h.behind.reaches h.waitingFresh h.matched hp hid hd
    (hof ▸ hbuilt.feeds _ hid)
  obtain ⟨hrun, hbt⟩ := h.schedRun.step_emitted hfit.numCacheBlocks_le t.ord
    (List.mem_append.mp hid)
  have htable : seq.blockTable = (t.sched H cfg).kvCacheManager.table seq.requestId := by
    rw [hreach.blockTable_eq, PairStep.out, hbt]
    rfl
  obtain ⟨r, hr⟩ := Scheduler.mem_requests_iff.mp
    ((hinv.partition.mem_requests seq.requestId).mpr (Or.inr (Or.inl hrun)))
  have hcov := ((hinv.each seq.requestId).running hrun r hr).covers
  have hbound := hreach.bound r.progress (congrArg (Option.map _) hr)
  have hmem : ∀ pos ∈ seq.positions, w.numComputedTokens ≤ pos ∧ pos < r.numComputedTokens := by
    intro pos hpos
    rw [hreach.positions_eq, List.mem_range'_1] at hpos
    exact ⟨hpos.1, hpos.2.trans_le hbound⟩
  refine ⟨w, hw, hid, hrun, fun pos hpos => (hmem pos hpos).1, ?_, ?_, fun pos hpos => ?_⟩
  · rw [hreach.positions_eq]
    exact List.nodup_range'
  · rw [hreach.slots_eq, computeSlotMappings, if_pos hfit.blockSize_lt, htable]
  · have hlt : pos / cfg.cache.blockSize <
        ((t.sched H cfg).kvCacheManager.table seq.requestId).length :=
      (lt_divCeil_of_lt hbs (hmem pos hpos).2).trans_le hcov
    have hb := List.getElem?_eq_getElem hlt
    obtain ⟨hpos', hbn, -⟩ := hinv.kv.mem_table (List.mem_of_getElem? hb)
    exact ⟨_, hb, slotOf_eq hb (hfit.slot_lt hbn hpos' pos)⟩

/-- The slots of a batch are different, and each lies in a block that only the request written has.
A block that was registered before the step is written only if its holders have left it in the step;
after the step it stands for a block of the prompt of the request, if it is registered. -/
structure PairStep.WritesOwned (H : HashFns) (cfg : Config) (added : List InferenceRequest)
    (t : PairStep) (batch : InputBatch) : Prop where
  nodup : batch.slotMappings.Nodup
  owned : ∀ seq ∈ batch.seqs, ∀ x ∈ seq.slotMapping, ∃ (b i k : ℕ),
    x = (b * cfg.cache.blockSize + k : ℕ) ∧ k < cfg.cache.blockSize ∧
    ((t.sched H cfg).kvCacheManager.table seq.requestId)[i]? = some b ∧
    (t.sched H cfg).kvCacheManager.blockPool.refs b = 1 ∧
    (∀ g, b ∈ t.pair.sched.kvCacheManager.blockPool.listed g → ∀ j,
      b ∈ t.pair.sched.kvCacheManager.table j →
        j ∈ (t.out H cfg).finished ∨ j ∈ (t.out H cfg).preempted) ∧
    ∀ g, b ∈ (t.sched H cfg).kvCacheManager.blockPool.listed g →
      PromptHash H cfg added seq.requestId i g

/-- The block of a position is written for its one owner. -/
structure PairStep.OwnedAt (H : HashFns) (cfg : Config) (added : List InferenceRequest)
    (t : PairStep) (id : RequestId) (i : ℕ) (b : BlockId) : Prop where
  single : (t.sched H cfg).kvCacheManager.blockPool.refs b = 1
  left : ∀ g, b ∈ t.pair.sched.kvCacheManager.blockPool.listed g → ∀ j,
    b ∈ t.pair.sched.kvCacheManager.table j →
      j ∈ (t.out H cfg).finished ∨ j ∈ (t.out H cfg).preempted
  prompt : ∀ g, b ∈ (t.sched H cfg).kvCacheManager.blockPool.listed g →
    PromptHash H cfg added id i g

/-- A request that still holds a block of one owner is its owner. -/
theorem PairStep.owner {n : ℕ} (hinv : t.pair.sched.Inv H cfg n)
    (hinv' : (t.sched H cfg).Inv H cfg n) {b : BlockId}
    (hone : (t.sched H cfg).kvCacheManager.blockPool.refs b = 1) {i : ℕ}
    (hb : ((t.sched H cfg).kvCacheManager.table id)[i]? = some b) {j : RequestId}
    (hj : b ∈ t.pair.sched.kvCacheManager.table j) :
    j ∈ (t.out H cfg).finished ∨ j ∈ (t.out H cfg).preempted ∨
      j = id ∧ (t.pair.sched.kvCacheManager.table id)[i]? = some b := by
  rcases Scheduler.step_retains hinv t.ord j with hpre | hfin | hk
  · exact Or.inr (Or.inl hpre)
  · exact Or.inl hfin
  · right
    right
    obtain ⟨bs, htab⟩ := hk.table
    obtain ⟨k, hk⟩ := List.mem_iff_getElem?.mp hj
    have hk' : ((t.sched H cfg).kvCacheManager.table j)[k]? = some b := by
      rw [PairStep.sched, htab, List.getElem?_append_left (List.getElem?_eq_some_iff.mp hk).1, hk]
    obtain rfl := hinv'.kv.table_unique hone (List.mem_of_getElem? hk') (List.mem_of_getElem? hb)
    obtain rfl := hinv'.kv.index_unique hone hk' hb
    exact ⟨rfl, hk⟩

/-- A request that goes on is written behind its cached tokens. -/
theorem PairStep.Writes.ownedAt_running {n : ℕ} {added : List InferenceRequest} {seq : BatchSeq}
    (hs : t.Writes H cfg w seq) (hex : t.pair.sched.Exclusive cfg)
    (hex' : (t.sched H cfg).Exclusive cfg) (hinv : t.pair.sched.Inv H cfg n)
    (hinv' : (t.sched H cfg).Inv H cfg n)
    (hcached : t.pair.sched.kvCacheManager.cachedTokens seq.requestId ≤ w.numComputedTokens)
    (hretains : t.pair.sched.Retains (t.sched H cfg) seq.requestId)
    (hrun : seq.requestId ∈ t.pair.sched.running) {pos : ℕ} (hpos : pos ∈ seq.positions)
    {b : BlockId}
    (hb : ((t.sched H cfg).kvCacheManager.table seq.requestId)[pos / cfg.cache.blockSize]? =
      some b) : t.OwnedAt H cfg added seq.requestId (pos / cfg.cache.blockSize) b := by
  have hlt : t.pair.sched.kvCacheManager.cachedTokens seq.requestId <
      (pos / cfg.cache.blockSize + 1) * cfg.cache.blockSize :=
    (hcached.trans (hs.start pos hpos)).trans_lt
      ((Nat.div_lt_iff_lt_mul cfg.cache.blockSize_pos).mp (Nat.lt_succ_self _))
  obtain ⟨hone, hnone⟩ := hex'.kv _ _ b hb ((hretains.running hrun).2 ▸ hlt)
  refine ⟨hone, fun g hg j hj => ?_, fun g hg => absurd hg (hnone g)⟩
  rcases PairStep.owner hinv hinv' hone hb hj with hfin | hpre | ⟨rfl, hold⟩
  · exact Or.inl hfin
  · exact Or.inr hpre
  · exact absurd hg ((hex.kv _ _ b hold hlt).2 g)

theorem Scheduler.Fresh.ownedAt {n : ℕ} {added : List InferenceRequest}
    (h : t.pair.sched.Fresh H cfg added (t.out H cfg) (t.sched H cfg) id)
    (hinv : t.pair.sched.Inv H cfg n) (hinv' : (t.sched H cfg).Inv H cfg n) {i : ℕ} {b : BlockId}
    (hb : ((t.sched H cfg).kvCacheManager.table id)[i]? = some b) :
    t.OwnedAt H cfg added id i b := by
  have hone := h.single b (List.mem_of_getElem? hb)
  refine ⟨hone, fun g _ j hj => ?_, fun g hg => h.prompt i b g hb hg⟩
  rcases PairStep.owner hinv hinv' hone hb hj with hfin | hpre | ⟨rfl, -⟩
  · exact Or.inl hfin
  · exact Or.inr hpre
  · exact (h.left b hj).symm

/-- The slots of a batch are different if each lies in a block of its request only. -/
theorem PairStep.Writes.nodup_slots {n : ℕ} {batch : InputBatch}
    (hinv' : (t.sched H cfg).Inv H cfg n) (hnd : batch.requestIds.Nodup)
    (hs : ∀ seq ∈ batch.seqs, ∃ w, t.Writes H cfg w seq ∧ ∀ pos ∈ seq.positions, ∀ b,
      ((t.sched H cfg).kvCacheManager.table seq.requestId)[pos / cfg.cache.blockSize]? = some b →
      (t.sched H cfg).kvCacheManager.blockPool.refs b = 1) : batch.slotMappings.Nodup := by
  have hbs := cfg.cache.blockSize_pos
  refine List.nodup_flatMap.mpr ⟨fun seq hseq => ?_, ?_⟩
  · obtain ⟨w, hw, hone⟩ := hs seq hseq
    rw [hw.slots_eq]
    refine hw.nodup.map_on fun pos hpos pos' hpos' hsame => ?_
    obtain ⟨b, hb, hslot⟩ := hw.blocks pos hpos
    obtain ⟨c, hc, hslot'⟩ := hw.blocks pos' hpos'
    rw [hslot, hslot'] at hsame
    obtain ⟨rfl, hmod⟩ := slot_inj hbs (Int.ofNat.inj hsame)
    have hdiv := hinv'.kv.index_unique (hone pos hpos b hb) hb hc
    rw [← Nat.div_add_mod pos cfg.cache.blockSize, hdiv, hmod, Nat.div_add_mod]
  · refine (List.pairwise_map.mp hnd).imp_of_mem fun {seq seq'} hseq hseq' hne => ?_
    rintro x hx hx'
    obtain ⟨w, hw, hone⟩ := hs seq hseq
    obtain ⟨w', hw', -⟩ := hs seq' hseq'
    dsimp only at hx hx'
    rw [hw.slots_eq] at hx
    rw [hw'.slots_eq] at hx'
    obtain ⟨pos, hpos, rfl⟩ := List.mem_map.mp hx
    obtain ⟨pos', hpos', hsame⟩ := List.mem_map.mp hx'
    obtain ⟨b, hb, hslot⟩ := hw.blocks pos hpos
    obtain ⟨c, hc, hslot'⟩ := hw'.blocks pos' hpos'
    rw [hslot, hslot'] at hsame
    obtain ⟨rfl, -⟩ := slot_inj hbs (Int.ofNat.inj hsame)
    exact hne (hinv'.kv.table_unique (hone pos hpos _ hb) (List.mem_of_getElem? hb)
      (List.mem_of_getElem? hc))

theorem PairRun.ownedAt (h : PairRun H cfg P hist t.pair) (hle : cfg.numCacheBlocks ≤ 2 ^ 32)
    {ids : List RequestId} (htakes : ∀ t' ∈ hist.steps ++ [t], t'.TakesNothing H cfg ids)
    (ht : t.NoHits H cfg) {seq : BatchSeq} (hid : seq.requestId ∈ ids)
    (hw : t.pair.runner.requestStates.lookup seq.requestId = some w) (hs : t.Writes H cfg w seq)
    {pos : ℕ} (hpos : pos ∈ seq.positions) {b : BlockId}
    (hb : ((t.sched H cfg).kvCacheManager.table seq.requestId)[pos / cfg.cache.blockSize]? =
      some b) : t.OwnedAt H cfg hist.added seq.requestId (pos / cfg.cache.blockSize) b := by
  obtain ⟨hinv, hknown⟩ := h.schedRun.inv hle
  have hinv' : (t.sched H cfg).Inv H cfg _ := hinv.step t.ord
  have hph := PairStep.phase hinv.partition ht seq.requestId
  by_cases hnew : seq.requestId ∈ (t.out H cfg).scheduledNew
  · obtain ⟨r, hr⟩ := Scheduler.mem_requests_iff.mp
      ((hinv'.partition.mem_requests seq.requestId).mpr (Or.inr (Or.inl hs.running)))
    have hzero : r.numComputedTokens - (t.out H cfg).tokensOf seq.requestId = 0 :=
      htakes t (List.mem_append_right _ (List.mem_singleton_self t)) _ hid
        (List.mem_append_left _ hnew) r hr
    exact (Scheduler.step_fresh hinv hknown ht hnew hr
      (Nat.sub_eq_zero_iff_le.mp hzero)).ownedAt hinv hinv' hb
  · have hdec := (List.mem_append.mp hs.scheduled).resolve_left hnew
    have hahead : t.pair.Ahead ids := h.ahead hle fun t' h' => htakes t' (List.mem_append_left _ h')
    have hrun : seq.requestId ∈ t.pair.sched.running := by
      simpa using (hph.of_decoded (by simpa using hdec)).1
    obtain ⟨hpre, hfin⟩ := hph.exclusive.2.2.1 (by simpa using hdec)
    have hretains := ((Scheduler.step_retains hinv t.ord seq.requestId).resolve_left
      (of_decide_eq_false hpre)).resolve_left (of_decide_eq_false hfin)
    exact hs.ownedAt_running (h.schedRun.exclusive hle)
      ((SchedRun.step t.ord h.schedRun).exclusive hle) hinv hinv' (hahead _ hid w hw hrun)
      hretains hrun hpos hb

/-- Every position of a batch has a slot. If no request of the batch was admitted with cached tokens
and no lookup of the step hits the prefix cache, then every slot is written for the one owner of its
block. -/
theorem PairRun.writesOwned (H : HashFns) (cfg : Config) (hfit : cfg.SlotsFit) (hist : PairHistory)
    (t : PairStep) (hrun : PairRun H cfg (fun _ => True) hist t.pair)
    (drafts : AList fun _ : RequestId => List Token) (batch : InputBatch)
    (hprep : t.prepared H cfg = .ok (drafts, batch)) : -1 ∉ batch.slotMappings ∧
      ((∀ t' ∈ hist.steps ++ [t], t'.TakesNothing H cfg batch.requestIds) → t.NoHits H cfg →
        t.WritesOwned H cfg hist.added batch) := by
  obtain ⟨hnd, hwrites⟩ := hrun.writes hfit hprep
  have hle := hfit.numCacheBlocks_le
  refine ⟨fun hx => ?_, fun htakes ht => ⟨?_, fun seq hseq x hx => ?_⟩⟩
  · obtain ⟨seq, hseq, hx⟩ := List.mem_flatMap.mp hx
    obtain ⟨w, -, hw⟩ := hwrites seq hseq
    rw [hw.slots_eq] at hx
    obtain ⟨pos, hpos, hslot⟩ := List.mem_map.mp hx
    obtain ⟨b, -, hb⟩ := hw.blocks pos hpos
    rw [hb] at hslot
    omega
  · have hinv' := ((SchedRun.step t.ord hrun.schedRun).inv hle).1
    refine PairStep.Writes.nodup_slots hinv' hnd fun seq hseq => ?_
    obtain ⟨w, hw, hs⟩ := hwrites seq hseq
    exact ⟨w, hs, fun pos hpos b hb => (hrun.ownedAt hle htakes ht
      (List.mem_map_of_mem hseq) hw hs hpos hb).single⟩
  · obtain ⟨w, hw, hs⟩ := hwrites seq hseq
    rw [hs.slots_eq] at hx
    obtain ⟨pos, hpos, rfl⟩ := List.mem_map.mp hx
    obtain ⟨b, hb, hslot⟩ := hs.blocks pos hpos
    obtain ⟨hone, hleft, hprompt⟩ := hrun.ownedAt hle htakes ht (List.mem_map_of_mem hseq) hw hs
      hpos hb
    exact ⟨b, _, _, hslot, Nat.mod_lt pos cfg.cache.blockSize_pos, hb, hone, hleft, hprompt⟩

-- the hashes are a finite type, over which nothing must be enumerated
instance (m : KVCacheManager) (prompt : List Token) (skip : Bool) :
    Decidable (m.Misses H cfg.cache prompt skip) :=
  have : Decidable (∀ g ∈ (promptHashes H cfg.cache prompt).head?, m.blockPool.listed g = []) :=
    Option.decidableForallMem _
  inferInstanceAs (Decidable (_ → _ → _))

instance : DecidablePred (Guards.noHits H cfg).admits := fun st =>
  have (id : RequestId) : Decidable (∀ r ∈ st.sched.requests.lookup id, r.cachedBlockIds = [] →
      st.sched.kvCacheManager.Misses H cfg.cache r.promptTokenIds
        r.request.samplingParams.skipReadingPrefixCache) := Option.decidableForallMem _
  List.decidableBAll _ _

instance (ids : List RequestId) : DecidablePred (PairStep.TakesNothing H cfg ids) := fun t =>
  have (id : RequestId) : Decidable (∀ r ∈ (t.sched H cfg).requests.lookup id,
      t.cachedTokens H cfg id r = 0) := Option.decidableForallMem _
  List.decidableBAll _ _

/-- A second prompt takes its first block from the first one, which goes on. -/
def hitStep : PairStep :=
  ⟨((smallPrefill (smallConfig 8 true)).next smallHash (smallConfig 8 true)).addRequest
    (smallConfig 8 true) (smallRequest 2 [5, 7]), constModel, .id⟩

/-- The second prompt is given up, and a third one is prefilled next to the first. -/
def afterHitStep : PairStep :=
  ⟨((hitStep.next smallHash (smallConfig 8 true)).abortRequest 2).addRequest (smallConfig 8 true)
    (smallRequest 3 [8, 9]), constModel, .id⟩

def afterHitHistory : PairHistory where
  added := [smallRequest 1 [5, 6], smallRequest 2 [5, 7], smallRequest 3 [8, 9]]
  aborted := (smallHistory (smallConfig 8 true)).aborted ++
    hitStep.failed smallHash (smallConfig 8 true) ++ [2]
  steps := [smallPrefill (smallConfig 8 true), hitStep]

theorem pairRun_afterHitStep :
    PairRun smallHash (smallConfig 8 true) (fun _ => True) afterHitHistory afterHitStep.pair :=
  .addRequest (smallRequest 3 [8, 9]) (.abortRequest 2 (.step constModel .id
    (.addRequest (smallRequest 2 [5, 7]) (pairRun_smallPrefill (smallConfig 8 true) True.intro
      ⟨_, rfl⟩) (by decide) rfl) ⟨_, rfl⟩ True.intro)) (by decide) rfl

theorem Config.slotsFit_small (n : ℕ) (hn : n ≤ 2 ^ 32) : (smallConfig n true).SlotsFit := by
  refine ⟨Nat.one_lt_two_pow (by decide), hn, ?_⟩
  calc n * 1 = n := Nat.mul_one n
    _ ≤ 2 ^ 32 := hn
    _ ≤ 2 ^ 63 := Nat.pow_le_pow_right Nat.two_pos (by decide)

theorem PairRun.writesOwned_small :
    ¬ hitStep.TakesNothing smallHash (smallConfig 8 true) [2] ∧
      (afterHitStep.batch smallHash (smallConfig 8 true)).requestIds = [3, 1] ∧
      afterHitStep.WritesOwned smallHash (smallConfig 8 true) afterHitHistory.added
        (afterHitStep.batch smallHash (smallConfig 8 true)) :=
  ⟨by decide +kernel, by decide +kernel,
    (PairRun.writesOwned smallHash (smallConfig 8 true) (Config.slotsFit_small 8 (by decide))
      afterHitHistory afterHitStep pairRun_afterHitStep _ _ rfl).2 (by decide +kernel)
      fun _ => ⟨fun _ _ _ _ => True.intro,
        StepState.runningAll_of_forall (fun _ _ => True.intro) _ _, by decide +kernel⟩⟩

/-- Two blocks, first filled by a prompt that is then given up, and needed by the next prompt. -/
def evictingStep : PairStep :=
  ⟨(((smallPrefill (smallConfig 3 true)).next smallHash (smallConfig 3 true)).abortRequest
    1).addRequest (smallConfig 3 true) (smallRequest 2 [7, 8]), constModel, .id⟩

def evictingHistory : PairHistory :=
  { smallHistory (smallConfig 3 true) with
    added := [smallRequest 1 [5, 6], smallRequest 2 [7, 8]]
    aborted := (smallHistory (smallConfig 3 true)).aborted ++ [1] }

theorem pairRun_evictingStep :
    PairRun smallHash (smallConfig 3 true) (fun _ => True) evictingHistory evictingStep.pair :=
  .addRequest (smallRequest 2 [7, 8])
    (.abortRequest 1 (pairRun_smallPrefill (smallConfig 3 true) True.intro ⟨_, rfl⟩))
    (by decide) rfl

/-- The slots are different and lie in unregistered blocks with one reference. -/
structure PairStep.WritesUnregistered (H : HashFns) (cfg : Config) (t : PairStep)
    (batch : InputBatch) : Prop where
  covered : -1 ∉ batch.slotMappings
  nodup : batch.slotMappings.Nodup
  owned : ∀ x ∈ batch.slotMappings, ∃ b k : ℕ, x = (b * cfg.cache.blockSize + k : ℕ) ∧
    k < cfg.cache.blockSize ∧ (t.sched H cfg).kvCacheManager.blockPool.refs b = 1 ∧
    ∀ g, b ∉ t.pair.sched.kvCacheManager.blockPool.listed g

/-- Blocks that a `u32` cannot measure. -/
def hugeBlockConfig : Config := { smallConfig 3 false with
  cache := { (smallConfig 3 false).cache with blockSize := 2 ^ 32, blockSize_pos := by decide } }

/-- A registered block is evicted and written in one step; positions in huge blocks have no slot. -/
theorem PairRun.not_writesUnregistered : (¬ ∀ (H : HashFns) (cfg : Config), cfg.SlotsFit →
    ∀ (hist : PairHistory) (t : PairStep), PairRun H cfg (fun _ => True) hist t.pair →
    ∀ drafts batch, t.prepared H cfg = .ok (drafts, batch) → t.WritesUnregistered H cfg batch) ∧
    ¬ ∀ (H : HashFns) (cfg : Config), cfg.numCacheBlocks ≤ 2 ^ 32 →
    ∀ (hist : PairHistory) (t : PairStep), PairRun H cfg (fun _ => True) hist t.pair →
    ∀ drafts batch, t.prepared H cfg = .ok (drafts, batch) → t.WritesUnregistered H cfg batch := by
  constructor
  · intro h
    have hw := h smallHash (smallConfig 3 true) (Config.slotsFit_small 3 (by decide))
      evictingHistory evictingStep pairRun_evictingStep _ _ rfl
    obtain ⟨b, k, hx, hk, -, hn⟩ := hw.owned 1 (by decide +kernel)
    obtain rfl : k = 0 := Nat.lt_one_iff.mp hk
    obtain rfl : 1 = b := by
      have hb := Int.ofNat.inj hx
      rwa [Nat.add_zero, show (smallConfig 3 true).cache.blockSize = 1 from rfl, Nat.mul_one] at hb
    exact hn _ (show 1 ∈ evictingStep.pair.sched.kvCacheManager.blockPool.listed
      ((promptHashes smallHash (smallConfig 3 true).cache [5, 6]).headD 0) by decide +kernel)
  · intro h
    have hw := h smallHash hugeBlockConfig (by decide) _ (smallPrefill hugeBlockConfig)
      (.addRequest (smallRequest 1 [5, 6]) .new (by simp [PairHistory.accepted]) rfl) _ _ rfl
    exact hw.covered (by decide +kernel)

end Rllm
