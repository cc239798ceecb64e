import Rllm.Scheduler.Registration

/-! # Where the blocks of a table come from

A cached block in the table of a request carries the hash of a block of its
prompt. So a block that two requests have in common was found or registered
for both of them, and their prompts start with the same block.
-/

namespace Rllm

namespace InferenceRequest

/-- The request is looked up in the prefix cache. -/
def Reads (c : CacheConfig) (q : InferenceRequest) : Prop :=
  c.enablePrefixCaching = true ∧ q.samplingParams.skipReadingPrefixCache = false ∧
    q.promptTokens ≠ []

instance (c : CacheConfig) (q : InferenceRequest) : Decidable (q.Reads c) :=
  inferInstanceAs (Decidable (_ ∧ _))

/-- The first full block of a prompt that is looked up in the prefix cache. -/
def firstBlock (c : CacheConfig) (q : InferenceRequest) : Option (List Token) :=
  if q.Reads c ∧ c.blockSize ≤ q.promptTokens.length then some (q.promptTokens.take c.blockSize)
  else none

/-- The prompts of two requests start with the same block, as far as the prefix cache sees. -/
def SharesFirst (c : CacheConfig) (q q' : InferenceRequest) : Prop :=
  ∃ block, q.firstBlock c = some block ∧ q'.firstBlock c = some block

theorem firstBlock_eq {c : CacheConfig} {q : InferenceRequest} (hr : q.Reads c)
    (hle : c.blockSize ≤ q.promptTokens.length) :
    q.firstBlock c = some (q.promptTokens.take c.blockSize) :=
  if_pos ⟨hr, hle⟩

theorem SharesFirst.of_take {c : CacheConfig} {q q' : InferenceRequest} (hr : q.Reads c)
    (hr' : q'.Reads c) {i : ℕ} (hle : (i + 1) * c.blockSize ≤ q.promptTokens.length)
    (hle' : (i + 1) * c.blockSize ≤ q'.promptTokens.length)
    (ht : q.promptTokens.take ((i + 1) * c.blockSize) =
      q'.promptTokens.take ((i + 1) * c.blockSize)) : SharesFirst c q q' := by
  have hone : c.blockSize ≤ (i + 1) * c.blockSize := Nat.le_mul_of_pos_left _ (Nat.succ_pos i)
  have hfirst : q.promptTokens.take c.blockSize = q'.promptTokens.take c.blockSize := by
    have h := congrArg (List.take c.blockSize) ht
    rwa [List.take_take, List.take_take, min_eq_left hone] at h
  refine ⟨_, firstBlock_eq hr (hone.trans hle), ?_⟩
  rw [hfirst]
  exact firstBlock_eq hr' (hone.trans hle')

end InferenceRequest

variable {H : HashFns} {cfg : Config} {c : CacheConfig} {K : Guards} {n : ℕ} {s : Scheduler}
  {st st' : StepState} {added added' : List InferenceRequest}

theorem le_length_of_promptHashes {prompt : List Token} {i : ℕ} {g : BlockHash}
    (hg : (promptHashes H c prompt)[i]? = some g) : (i + 1) * c.blockSize ≤ prompt.length := by
  have hlt := (List.getElem?_eq_some_iff.mp hg).1
  rw [promptHashes, length_computeBlockHashes] at hlt
  exact (Nat.le_div_iff_mul_le c.blockSize_pos).mp hlt

theorem ChainInjective.sharesFirst (h : ChainInjective H c (added.map (·.promptTokens)))
    {q q' : InferenceRequest} (hq : q ∈ added) (hq' : q' ∈ added) (hr : q.Reads c)
    (hr' : q'.Reads c) {g : BlockHash} (hg : g ∈ promptHashes H c q.promptTokens)
    (hg' : g ∈ promptHashes H c q'.promptTokens) : q.SharesFirst c q' := by
  obtain ⟨i, hi⟩ := List.getElem?_of_mem hg
  obtain ⟨j, hj⟩ := List.getElem?_of_mem hg'
  obtain ⟨rfl, htake⟩ := h _ (List.mem_map_of_mem hq) _ (List.mem_map_of_mem hq') i j g hi hj
  exact .of_take hr hr' (le_length_of_promptHashes hi) (le_length_of_promptHashes hj) htake

namespace KVCacheManager

variable {m m' : KVCacheManager} {rid : RequestId}

/-- The cached blocks of a table carry hashes of the prompt of its request, and requests that have
a block in common start with the same block. -/
structure Sourced (H : HashFns) (c : CacheConfig) (added : List InferenceRequest)
    (m : KVCacheManager) : Prop where
  own : ∀ id g b, b ∈ m.table id → b ∈ m.blockPool.listed g → ∃ q ∈ added, q.requestId = id ∧
    q.Reads c ∧ g ∈ promptHashes H c q.promptTokens
  common : ∀ id id' b, id ≠ id' → b ∈ m.table id → b ∈ m.table id' → ∃ q ∈ added, ∃ q' ∈ added,
    q.requestId = id ∧ q'.requestId = id' ∧ q.SharesFirst c q'

namespace Sourced

theorem mono (h : m.Sourced H c added) (hsub : ∀ q ∈ added, q ∈ added') :
    m.Sourced H c added' where
  own id g b hb hg := by
    obtain ⟨q, hq, hrest⟩ := h.own id g b hb hg
    exact ⟨q, hsub q hq, hrest⟩
  common id id' b hne hb hb' := by
    obtain ⟨q, hq, q', hq', hrest⟩ := h.common id id' b hne hb hb'
    exact ⟨q, hsub q hq, q', hsub q' hq', hrest⟩

theorem sublist (h : m.Sourced H c added) (ht : ∀ id, ∀ b ∈ m'.table id, b ∈ m.table id)
    (hl : ∀ g, ∀ b ∈ m'.blockPool.listed g, b ∈ m.blockPool.listed g) : m'.Sourced H c added where
  own id g b hb hg := h.own id g b (ht id b hb) (hl g b hg)
  common id id' b hne hb hb' := h.common id id' b hne (ht id b hb) (ht id' b hb')

theorem free (h : m.Sourced H c added) (rid : RequestId) : (m.free rid).Sourced H c added := by
  refine h.sublist (fun id b hb => ?_) fun g b hb => ?_
  · have ht : (m.free rid).table id = if id = rid then [] else m.table id := table_erase m rid id
    rw [ht] at hb
    split at hb
    · cases hb
    · exact hb
  · rwa [listed_manager_free] at hb

theorem rolledBack (h : m.Sourced H c added) {bs : List BlockId} (hr : RolledBack m bs m') :
    m'.Sourced H c added :=
  h.sublist (fun id _ hb => hr.table_eq id ▸ hb) fun _ _ hb => hr.mem_of_listed hb

theorem grown (h : m.Sourced H cfg.cache added) (hok : m.Ok n) {k : ℕ} {bs : List BlockId}
    (hg : Grown n cfg.cache m rid k bs m') : m'.Sourced H cfg.cache added := by
  have hold : ∀ id b, b ∈ m'.table id → b ∈ m.table id ∨ id = rid ∧ b ∈ bs := by
    intro id b hb
    rw [hg.table_eq] at hb
    split at hb
    · rename_i hid
      exact (List.mem_append.mp hb).imp (fun hb => hid ▸ hb) fun hb => ⟨hid, hb⟩
    · exact Or.inl hb
  have hfresh : ∀ id, ∀ b ∈ bs, b ∉ m.table id := by
    intro id b hb hm
    have hpos := (hok.mem_table hm).2.2
    rw [(hg.handedOut.free b hb).2.2] at hpos
    exact absurd hpos (lt_irrefl 0)
  constructor
  · intro id g b hb hl
    rcases hold id b hb with hb | ⟨-, hb⟩
    · exact h.own id g b hb (hg.mem_of_listed hl)
    · rw [hg.handedOut.listed_eq, List.mem_filter, decide_eq_true_eq] at hl
      exact absurd hb hl.2
  · intro id id' b hne hb hb'
    rcases hold id b hb with hb | ⟨hid, hb⟩
    · rcases hold id' b hb' with hb' | ⟨-, hb'⟩
      · exact h.common id id' b hne hb hb'
      · exact absurd hb (hfresh id b hb')
    · rcases hold id' b hb' with hb' | ⟨hid', -⟩
      · exact absurd hb' (hfresh id' b hb)
      · exact absurd (hid.trans hid'.symm) hne

theorem found (h : m.Sourced H c added) (hok : m.Ok n)
    (hinj : ChainInjective H c (added.map (·.promptTokens))) {q : InferenceRequest} (hq : q ∈ added)
    (hid : q.requestId = rid) (hr : q.Reads c) {blocks : List BlockId}
    (hf : Found m.blockPool (promptHashes H c q.promptTokens) blocks)
    (ht : ∀ id, m'.table id = if id = rid then blocks else m.table id)
    (hl : m'.blockPool.listed = m.blockPool.listed) : m'.Sourced H c added := by
  have hfound : ∀ b ∈ blocks, ∃ g, g ∈ promptHashes H c q.promptTokens ∧
      b ∈ m.blockPool.listed g := by
    intro b hb
    obtain ⟨i, hi⟩ := List.getElem?_of_mem hb
    obtain ⟨g, hg, hhead⟩ := hf.head_eq i b hi
    exact ⟨g, List.mem_of_getElem? hg, List.mem_of_mem_head? hhead⟩
  have hcross : ∀ id b, b ∈ blocks → b ∈ m.table id → ∃ q' ∈ added, q'.requestId = id ∧
      q'.SharesFirst c q := by
    intro id b hb hb'
    obtain ⟨g, hg, hbg⟩ := hfound b hb
    obtain ⟨q', hq', hid', hr', hg'⟩ := h.own id g b hb' hbg
    exact ⟨q', hq', hid', hinj.sharesFirst hq' hq hr' hr hg' hg⟩
  constructor
  · intro id g b hb hbg
    rw [hl] at hbg
    rw [ht] at hb
    split at hb
    · rename_i he
      obtain ⟨g', hg', hbg'⟩ := hfound b hb
      have hsame := (hok.pool.listed_hash g b hbg).symm.trans (hok.pool.listed_hash g' b hbg')
      obtain rfl : g = g' := Option.some.inj hsame
      exact ⟨q, hq, hid.trans he.symm, hr, hg'⟩
    · exact h.own id g b hb hbg
  · intro id id' b hne hb hb'
    rw [ht] at hb hb'
    split at hb
    · rename_i he
      rw [if_neg fun he' => hne (he.trans he'.symm)] at hb'
      obtain ⟨q', hq', hid', block, hblock', hblock⟩ := hcross id' b hb hb'
      exact ⟨q, hq, q', hq', hid.trans he.symm, hid', block, hblock, hblock'⟩
    · split at hb'
      · rename_i he'
        obtain ⟨q', hq', hid', hshare⟩ := hcross id b hb' hb
        exact ⟨q', hq', q, hq, hid', hid.trans he'.symm, hshare⟩
      · exact h.common id id' b hne hb hb'

theorem register (h : m.Sourced H c added) {rs : List (ℕ × BlockId × BlockHash)}
    (hreg : Registered m rid rs m')
    (hown : ∀ i b g, (i, b, g) ∈ rs → ∀ id, b ∈ m.table id → id = rid)
    {q : InferenceRequest} (hq : q ∈ added) (hid : q.requestId = rid)
    (hr : ∀ i b g, (i, b, g) ∈ rs → q.Reads c ∧ g ∈ promptHashes H c q.promptTokens) :
    m'.Sourced H c added where
  own id g b hb hbg := by
    rw [hreg.table_eq] at hb
    rcases (hreg.mem_listed g b).mp hbg with hbg | ⟨i, hi⟩
    · exact h.own id g b hb hbg
    · exact ⟨q, hq, hid.trans (hown i b g hi id hb).symm, hr i b g hi⟩
  common id id' b hne hb hb' := by
    rw [hreg.table_eq] at hb hb'
    exact h.common id id' b hne hb hb'

end Sourced

end KVCacheManager

/-! ## Runs -/

theorem KVCacheManager.getComputedBlocks_reads {m m' : KVCacheManager} {q : InferenceRequest}
    {rid : RequestId} {res : PrefixCacheResult} (hg : m.getComputedBlocks H c rid q.promptTokens
      q.samplingParams.skipReadingPrefixCache = (res, m')) (hn : ¬ q.Reads c) :
    res = ⟨[], 0⟩ ∧ m' = m := by
  unfold KVCacheManager.getComputedBlocks at hg
  rw [if_pos] at hg
  · obtain ⟨rfl, rfl⟩ := Prod.mk.inj hg
    exact ⟨rfl, rfl⟩
  · by_contra hread
    simp_all [InferenceRequest.Reads]

theorem Scheduler.Inv.registers (hinv : s.Inv H cfg n) (hknown : s.Known added)
    (hunread : s.kvCacheManager.Unread added) {id : RequestId} (hid : id ∈ s.waiting.ids)
    {r : SchedulerRequest} (hr : s.requests.lookup id = some r) {tokens total : ℕ}
    {bs : List BlockId} {kv : KVCacheManager} (ha : s.kvCacheManager.allocateSlots cfg.cache id
      (r.numComputedTokens + tokens) r.numComputedTokens = (some bs, kv)) {i : ℕ} {b : BlockId}
    {g : BlockHash} (hi : (i, b, g) ∈ kv.newRegs cfg.cache id total) :
    b ∈ bs ∧ r.request.Reads cfg.cache ∧
      (promptHashes H cfg.cache r.request.promptTokens)[i]? = some g := by
  obtain ⟨hadd, hrid, hprompt⟩ := hknown id r hr
  obtain ⟨hon, -⟩ := KVCacheManager.mem_newRegs.mp hi
  obtain ⟨-, hb, hs, hhs, rfl, hh⟩ := hinv.mem_newRegs hid hr ha hi
  rw [hprompt] at hh
  refine ⟨List.mem_of_getElem? hb, ⟨hon, ?_, ?_⟩, hh⟩
  · by_contra hskip
    have hnone := hunread r.request hadd (by simpa using hskip)
    rw [hrid, hhs] at hnone
    cases hnone
  · intro hnil
    have hlen := le_length_of_promptHashes (H := H) hh
    rw [hnil, List.length_nil, Nat.succ_mul] at hlen
    have := cfg.cache.blockSize_pos
    omega

theorem Move.sourced (hm : Move H cfg K st st') (hinv : st.sched.Inv H cfg n)
    (hknown : st.sched.Known added) (hunread : st.sched.kvCacheManager.Unread added)
    (hinj : ChainInjective H cfg.cache (added.map (·.promptTokens)))
    (h : st.sched.kvCacheManager.Sourced H cfg.cache added) :
    st'.sched.kvCacheManager.Sourced H cfg.cache added := by
  cases hm with
  | finish => exact h.free _
  | markLength => simpa using h
  | decode => simpa [StepState.scheduleDecode_sched] using h
  | decodeGrow _ _ _ _ _ _ ha =>
    have hg := (hinv.kv.allocateSlots_some ha).2
    simpa [StepState.scheduleDecode_sched, StepState.setKV] using h.grown hinv.kv hg
  | starve _ _ _ _ _ ha =>
    obtain ⟨-, -, bs, hr⟩ := hinv.kv.allocateSlots_none ha
    exact h.rolledBack hr
  | preempt =>
    simp only [StepState.preemptOne, Scheduler.preemptRequest]
    split <;> exact h.free _
  | note => exact h
  | @probe _ id r _ _ hid hr hc =>
    have hw := (hinv.each id).waiting hid r hr
    obtain ⟨hadd, hrid, hprompt⟩ := hknown id r hr
    simp only [Scheduler.probe_kvCacheManager, hprompt]
    cases hg : st.sched.kvCacheManager.getComputedBlocks H cfg.cache id r.request.promptTokens
        r.request.samplingParams.skipReadingPrefixCache with
    | mk res kv =>
      by_cases hread : r.request.Reads cfg.cache
      · obtain ⟨-, ht, -, hl, ⟨-, rfl⟩ | ⟨-, hf⟩⟩ :=
          hinv.kv.getComputedBlocks (hw.table_eq.trans hc) hg
        · refine h.sublist (fun i b hb => ?_) fun g b hb => hl ▸ hb
          rw [ht] at hb
          split at hb
          · cases hb
          · exact hb
        · exact h.found hinv.kv hinj hadd hrid hread hf ht hl
      · obtain ⟨-, rfl⟩ := KVCacheManager.getComputedBlocks_reads hg hread
        exact h
  | admitCached => simpa using h
  | @admitNew _ id r tokens bs kv _ _ hid hr _ _ _ _ _ ha =>
    rw [StepState.admitNew_kvCacheManager]
    have hg := (hinv.kv.allocateSlots_some ha).2
    obtain ⟨-, -, hreg⟩ := hinv.register hid hr ha (r.numComputedTokens + tokens)
    obtain ⟨hadd, hrid, -⟩ := hknown id r hr
    refine (h.grown hinv.kv hg).register hreg (fun i b g hi j hj => ?_) hadd hrid
      fun i b g hi => ?_
    · obtain ⟨hb, -⟩ := hinv.registers hknown hunread hid hr ha hi
      change b ∈ kv.table j at hj
      rw [hg.table_eq] at hj
      split at hj
      · rename_i hji
        exact hji
      · have hpos := (hinv.kv.mem_table hj).2.2
        rw [(hg.handedOut.free b hb).2.2] at hpos
        exact absurd hpos (lt_irrefl 0)
    · obtain ⟨-, hread, hg⟩ := hinv.registers hknown hunread hid hr ha hi
      exact ⟨hread, List.mem_of_getElem? hg⟩
  | admitFail _ _ _ _ _ _ ha =>
    obtain ⟨-, -, bs, hr⟩ := hinv.kv.allocateSlots_none ha
    exact h.rolledBack hr

theorem Moves.sourced (hm : Moves H cfg K st st') (hinv : st.sched.Inv H cfg n)
    (hknown : st.sched.Known added) (hnd : (added.map (·.requestId)).Nodup)
    (hunread : st.sched.kvCacheManager.Unread added)
    (hinj : ChainInjective H cfg.cache (added.map (·.promptTokens)))
    (h : st.sched.kvCacheManager.Sourced H cfg.cache added) :
    st'.sched.kvCacheManager.Unread added ∧
      st'.sched.kvCacheManager.Sourced H cfg.cache added := by
  induction hm with
  | refl => exact ⟨hunread, h⟩
  | tail hms hm ih =>
    have hinv' := Moves.inv hms hinv
    have hknown' := Moves.known hms hknown
    exact ⟨hm.unread hinv' hknown' hnd ih.1, hm.sourced hinv' hknown' ih.1 hinj ih.2⟩

theorem SchedRun.sourced (h : SchedRun H cfg added s) (hle : cfg.numCacheBlocks ≤ 2 ^ 32)
    (hinj : ChainInjective H cfg.cache (added.map (·.promptTokens))) :
    s.kvCacheManager.Sourced H cfg.cache added := by
  induction h with
  | new =>
    constructor
    · intro id g b hb
      cases hb
    · intro id id' b _ hb
      cases hb
  | addRequest r _ _ ih =>
    refine (ih (hinj.mono fun p hp => ?_)).mono fun q hq => List.mem_append_left _ hq
    rw [List.map_append]
    exact List.mem_append_left _ hp
  | abortRequest id _ ih => exact (ih hinj).free id
  | @step _ s ord hrun ih =>
    cases hp : s.paused with
    | true =>
      rw [Scheduler.step, if_pos hp]
      exact ih hinj
    | false =>
      obtain ⟨hinv, hknown⟩ := hrun.inv hle
      rw [Scheduler.step_eq hp]
      exact ((stepState_moves hinv.partition hp ord (Scheduler.stepAll_any ord s)).sourced hinv
        hknown hrun.nodup_added (hrun.unread hle) hinj (ih hinj)).2
  | pause _ ih => exact ih hinj
  | resume _ ih => exact ih hinj
  | resetPrefixCache _ hr ih =>
    rw [Scheduler.resetPrefixCache_ok hr]
    refine (ih hinj).sublist (fun id b hb => hb) fun g b hb => ?_
    rw [BlockPool.listed_clearHashes] at hb
    cases hb

/-- Requests with a block in common start with the same block. -/
theorem SchedRun.sharesFirst (h : SchedRun H cfg added s) (hle : cfg.numCacheBlocks ≤ 2 ^ 32)
    (hinj : ChainInjective H cfg.cache (added.map (·.promptTokens))) {q q' : InferenceRequest}
    (hq : q ∈ added) (hq' : q' ∈ added) (hne : q ≠ q') {b : BlockId}
    (hb : b ∈ s.kvCacheManager.table q.requestId)
    (hb' : b ∈ s.kvCacheManager.table q'.requestId) : q.SharesFirst cfg.cache q' := by
  have hid : q.requestId ≠ q'.requestId := fun he =>
    hne (List.inj_on_of_nodup_map h.nodup_added hq hq' he)
  obtain ⟨q₁, hq₁, q₂, hq₂, he₁, he₂, hshare⟩ :=
    (h.sourced hle hinj).common _ _ b hid hb hb'
  rw [List.inj_on_of_nodup_map h.nodup_added hq₁ hq he₁,
    List.inj_on_of_nodup_map h.nodup_added hq₂ hq' he₂] at hshare
  exact hshare

end Rllm
