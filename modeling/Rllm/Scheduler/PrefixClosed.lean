import Rllm.Scheduler.Budget
import Rllm.Scheduler.Liveness

/-! # The prefix cache along its chains

A cached block can only be found through the blocks before it. Registration
follows the chains and a lookup pins what it found, so a cached block loses its
predecessor to an eviction only. The cache stays closed as long as no eviction
takes the last block of a hash that a cached block continues.
-/

namespace Rllm

variable {H : HashFns} {c : CacheConfig} {prompts : List (List Token)} {p p' : BlockPool}
  {b : BlockId} {n : ℕ}

/-- The hashes of the full blocks of a prompt. -/
def promptHashes (H : HashFns) (c : CacheConfig) (prompt : List Token) : List BlockHash :=
  computeBlockHashes H c.prefixHashAlgorithm prompt c.blockSize none

/-- One of the prompts has the second hash right behind the first. -/
def Next (H : HashFns) (c : CacheConfig) (prompts : List (List Token)) (g g' : BlockHash) : Prop :=
  ∃ q ∈ prompts, ∃ i, (promptHashes H c q)[i]? = some g ∧ (promptHashes H c q)[i + 1]? = some g'

/-- A hash is registered only together with the one before it. -/
def BlockPool.PrefixClosed (H : HashFns) (c : CacheConfig) (prompts : List (List Token))
    (p : BlockPool) : Prop :=
  ∀ g g', Next H c prompts g g' → p.listed g' ≠ [] → p.listed g ≠ []

/-- The block is not cached, or another block is cached under its hash, or nothing that continues
its hash is cached. -/
def BlockPool.EndsChain (H : HashFns) (c : CacheConfig) (prompts : List (List Token))
    (p : BlockPool) (b : BlockId) : Prop :=
  ∀ g ∈ p.hashOf b, (∃ b' ∈ p.listed g, b' ≠ b) ∨ ∀ q ∈ prompts,
    ∀ x ∈ (promptHashes H c q).zip (promptHashes H c q).tail, x.1 = g → p.listed x.2 = []

/-- Each of the next `k` blocks that the pool hands out ends its chain. -/
def BlockPool.EvictsEnds (H : HashFns) (c : CacheConfig) (prompts : List (List Token)) :
    ℕ → BlockPool → Prop
  | 0, _ => True
  | k + 1, p =>
    match p.allocate with
    | none => True
    | some (b, p') => p.EndsChain H c prompts b ∧ EvictsEnds H c prompts k p'

/-! ## Chains of hashes -/

theorem chainInput_take (parent : BlockHash) (tokens : List Token) (i : ℕ) :
    chainInput H c parent (tokens.take ((i + 1) * c.blockSize)) i =
      chainInput H c parent tokens i := by
  induction i generalizing parent tokens with
  | zero => simp [chainInput]
  | succ i ih =>
    have hle : c.blockSize ≤ (i + 1 + 1) * c.blockSize :=
      Nat.le_mul_of_pos_left _ (Nat.succ_pos _)
    have hdrop : (tokens.take ((i + 1 + 1) * c.blockSize)).drop c.blockSize =
        (tokens.drop c.blockSize).take ((i + 1) * c.blockSize) := by
      rw [List.drop_take, Nat.add_mul (i + 1) 1, Nat.one_mul, Nat.add_sub_cancel]
    rw [chainInput, chainInput, List.take_take, min_eq_left hle, hdrop, ih]

theorem promptHashes_of_take {q q' : List Token} {i k : ℕ} {g : BlockHash}
    (h : q.take ((i + 1) * c.blockSize) = q'.take ((i + 1) * c.blockSize))
    (hi : i < (promptHashes H c q').length) (hk : k ≤ i)
    (hg : (promptHashes H c q)[k]? = some g) : (promptHashes H c q')[k]? = some g := by
  have hle : (k + 1) * c.blockSize ≤ (i + 1) * c.blockSize := Nat.mul_le_mul_right _ (by omega)
  have htake : q.take ((k + 1) * c.blockSize) = q'.take ((k + 1) * c.blockSize) := by
    have := congrArg (List.take ((k + 1) * c.blockSize)) h
    rwa [List.take_take, List.take_take, min_eq_left hle] at this
  have hin : blockInput H c q k = blockInput H c q' k := by
    rw [blockInput, ← chainInput_take, htake, chainInput_take, blockInput]
  rw [promptHashes, length_computeBlockHashes] at hi
  rw [promptHashes, getElem?_computeBlockHashes] at hg ⊢
  obtain ⟨-, hg⟩ := Option.ite_none_right_eq_some.mp hg
  rw [if_pos (by omega), ← hin, hg]

theorem next_iff {g g' : BlockHash} : Next H c prompts g g' ↔ ∃ q ∈ prompts,
    (g, g') ∈ (promptHashes H c q).zip (promptHashes H c q).tail := by
  unfold Next
  refine exists_congr fun q => and_congr_right fun _ => ?_
  rw [List.mem_iff_getElem?]
  refine exists_congr fun i => ?_
  rw [List.getElem?_zip_eq_some, List.getElem?_tail]

/-! ## Evictions -/

/-- Handing out a block that ends its chain keeps the cache closed. -/
theorem BlockPool.PrefixClosed.handOut (h : p.PrefixClosed H c prompts) (hok : PoolOk n p)
    (hout : HandedOut n p [b] p') (hend : p.EndsChain H c prompts b) :
    p'.PrefixClosed H c prompts := by
  intro g g' hnext hg'
  rw [hout.listed_eq] at hg' ⊢
  have hold : p.listed g' ≠ [] := fun hnil => hg' (by rw [hnil]; rfl)
  obtain ⟨x, hx⟩ := List.exists_mem_of_ne_nil _ (h g g' hnext hold)
  by_cases hxb : x = b
  · -- the block itself is listed: another one stays, or the continuation was not cached
    subst hxb
    obtain ⟨q, hq, hzip⟩ := next_iff.mp hnext
    rcases hend g (hok.listed_hash g x hx) with ⟨b', hb', hne⟩ | hnone
    · exact List.ne_nil_of_mem (List.mem_filter.mpr ⟨hb', by simpa using hne⟩)
    · exact absurd (hnone q hq (g, g') hzip rfl) hold
  · exact List.ne_nil_of_mem (List.mem_filter.mpr ⟨hx, by simpa using hxb⟩)

theorem BlockPool.PrefixClosed.allocMany {k : ℕ} (h : p.PrefixClosed H c prompts)
    (hok : PoolOk n p) (hends : p.EvictsEnds H c prompts k) :
    (Rllm.allocMany k p).2.PrefixClosed H c prompts := by
  induction k generalizing p with
  | zero => exact h
  | succ k ih =>
    unfold Rllm.allocMany
    rw [BlockPool.EvictsEnds] at hends
    split
    · rename_i b p' ha
      rw [ha] at hends
      obtain ⟨hout, hok'⟩ := hok.allocate ha
      exact ih (h.handOut hok hout hends.1) hok' hends.2
    · exact h

theorem BlockPool.PrefixClosed.congr (h : p.PrefixClosed H c prompts)
    (hl : p'.listed = p.listed) : p'.PrefixClosed H c prompts := by
  intro g g' hnext
  rw [hl]
  exact h g g' hnext

theorem BlockPool.PrefixClosed.allocateSlots {m : KVCacheManager} (hok : m.Ok n)
    (h : m.blockPool.PrefixClosed H c prompts) {total computed : ℕ}
    (hends : m.blockPool.EvictsEnds H c prompts (divCeil (total - computed) c.blockSize))
    (rid : RequestId) :
    (m.allocateSlots c rid total computed).2.blockPool.PrefixClosed H c prompts := by
  have hmany := h.allocMany hok.pool hends
  unfold KVCacheManager.allocateSlots
  dsimp only
  split
  · exact h
  · split
    · exact hmany.congr (BlockPool.listed_freeAll _ _)
    · exact hmany

/-! ## The moves of a step -/

/-- The blocks that a step hands out end their chains. -/
def Guards.evictsEnds (H : HashFns) (cfg : Config) (prompts : List (List Token)) : Guards where
  finishes _ := True
  decodes st id := ∀ r ∈ st.sched.requests.lookup id,
    r.numComputedTokens < cfg.maxModelLen →
    divCeil r.numComputedTokens cfg.cache.blockSize <
      divCeil (r.numComputedTokens + (1 + r.request.samplingParams.specTokens))
        cfg.cache.blockSize →
    st.sched.kvCacheManager.blockPool.EvictsEnds H cfg.cache prompts
      (divCeil (1 + r.request.samplingParams.specTokens) cfg.cache.blockSize)
  admits st := ∀ x ∈ st.selection H cfg, ∀ r ∈ x.2.2.sched.requests.lookup x.1,
    x.2.1 < r.promptTokenIds.length →
    x.2.2.sched.kvCacheManager.blockPool.EvictsEnds H cfg.cache prompts
      (divCeil (x.2.2.prefillTokens cfg r.promptTokenIds.length x.2.1) cfg.cache.blockSize)

/-- The cache is closed, and what waiting requests hold is cached under the hashes of their
prompts. -/
structure Scheduler.Chained (H : HashFns) (cfg : Config) (prompts : List (List Token))
    (s : Scheduler) : Prop where
  closed : s.kvCacheManager.blockPool.PrefixClosed H cfg.cache prompts
  anchored : ∀ id ∈ s.waiting.ids, ∀ r, s.requests.lookup id = some r → ∀ (j : ℕ) (b : BlockId),
    r.cachedBlockIds[j]? = some b → ∃ g, (promptHashes H cfg.cache r.promptTokenIds)[j]? = some g ∧
      b ∈ s.kvCacheManager.blockPool.listed g

theorem KVCacheManager.Ok.listed_pinned {m : KVCacheManager} (h : m.Ok n) {r : RequestId}
    (hb : b ∈ m.table r) {g : BlockHash} (hg : b ∈ m.blockPool.listed g) (rid : RequestId)
    (total computed : ℕ) :
    b ∈ (m.allocateSlots c rid total computed).2.blockPool.listed g := by
  have hkept : b ∈ (Rllm.allocMany (divCeil (total - computed) c.blockSize)
      m.blockPool).2.listed g := by
    obtain ⟨hout, -, -⟩ := h.pool.allocMany (rfl : Rllm.allocMany
      (divCeil (total - computed) c.blockSize) m.blockPool = (_, _))
    rw [hout.listed_eq, List.mem_filter, decide_eq_true_eq]
    refine ⟨hg, fun hmem => ?_⟩
    have hpos := (h.mem_table hb).2.2
    have hzero := (hout.free b hmem).2.2
    omega
  unfold KVCacheManager.allocateSlots
  dsimp only
  split
  · exact hg
  · split
    · rw [BlockPool.listed_freeAll]
      exact hkept
    · exact hkept

section Moves

variable {cfg : Config} {s s' : Scheduler} {st st' : StepState} {added : List InferenceRequest}

theorem Scheduler.Chained.shrink (h : s.Chained H cfg prompts)
    (hl : s'.kvCacheManager.blockPool.listed = s.kvCacheManager.blockPool.listed)
    (hreq : ∀ id ∈ s'.waiting.ids, ∀ r, s'.requests.lookup id = some r →
      r.cachedBlockIds = [] ∨ id ∈ s.waiting.ids ∧ ∃ r₀, s.requests.lookup id = some r₀ ∧
        r.cachedBlockIds = r₀.cachedBlockIds ∧ r.promptTokenIds = r₀.promptTokenIds) :
    s'.Chained H cfg prompts where
  closed := h.closed.congr hl
  anchored id hid r hr j b hb := by
    rcases hreq id hid r hr with hnil | ⟨hid₀, r₀, hr₀, hcached, hprompt⟩
    · rw [hnil] at hb
      cases hb
    · rw [hl, hprompt]
      exact h.anchored id hid₀ r₀ hr₀ j b (hcached ▸ hb)

theorem Scheduler.Chained.modifyRequest (h : s.Chained H cfg prompts) (id : RequestId)
    {f : SchedulerRequest → SchedulerRequest} (hf : ∀ r, (f r).cachedBlockIds = r.cachedBlockIds ∧
      (f r).promptTokenIds = r.promptTokenIds) : (s.modifyRequest id f).Chained H cfg prompts := by
  refine h.shrink (by simp) fun i hi r hr => Or.inr ?_
  rw [Scheduler.modifyRequest_waiting] at hi
  rw [Scheduler.lookup_modifyRequest] at hr
  split at hr
  · obtain ⟨r₀, hr₀, rfl⟩ := Option.map_eq_some_iff.mp hr
    exact ⟨hi, r₀, hr₀, hf r₀⟩
  · exact ⟨hi, r, hr, rfl, rfl⟩

theorem Scheduler.Chained.grow (h : s.Chained H cfg prompts) (hinv : s.Inv H cfg n)
    (rid : RequestId) (total computed : ℕ)
    (hends : s.kvCacheManager.blockPool.EvictsEnds H cfg.cache prompts
      (divCeil (total - computed) cfg.cache.blockSize)) :
    Scheduler.Chained H cfg prompts { s with
      kvCacheManager := (s.kvCacheManager.allocateSlots cfg.cache rid total computed).2 } where
  closed := .allocateSlots hinv.kv h.closed hends rid
  anchored id hid r hr j b hb := by
    obtain ⟨g, hg, hlisted⟩ := h.anchored id hid r hr j b hb
    have htable : b ∈ s.kvCacheManager.table id := by
      rw [((hinv.each id).waiting hid r hr).table_eq]
      exact List.mem_of_getElem? hb
    exact ⟨g, hg, hinv.kv.listed_pinned htable hlisted rid total computed⟩

theorem Scheduler.Chained.probe (h : s.Chained H cfg prompts) (hinv : s.Inv H cfg n)
    {id : RequestId} (hid : id ∈ s.waiting.ids) {r : SchedulerRequest}
    (hr : s.requests.lookup id = some r) (hc : r.cachedBlockIds = []) (skip : Bool) :
    (s.probe H cfg id r.promptTokenIds skip).2.Chained H cfg prompts := by
  have hw := (hinv.each id).waiting hid r hr
  cases hg : s.kvCacheManager.getComputedBlocks H cfg.cache id r.promptTokenIds skip with
  | mk res kv =>
    obtain ⟨-, -, -, hl, hres⟩ := hinv.kv.getComputedBlocks (hw.table_eq.trans hc) hg
    have hl' : (s.probe H cfg id r.promptTokenIds skip).2.kvCacheManager.blockPool.listed =
        s.kvCacheManager.blockPool.listed := by
      rw [Scheduler.probe_kvCacheManager, hg]
      exact hl
    refine ⟨h.closed.congr hl', fun i hi r' hr' j b hb => ?_⟩
    rw [hl']
    rw [Scheduler.probe_waiting] at hi
    rw [Scheduler.lookup_probe, hg] at hr'
    split at hr'
    · rename_i he
      subst he
      rw [hr, Option.map_some] at hr'
      obtain rfl := Option.some.inj hr'
      rcases hres with ⟨-, rfl⟩ | ⟨-, hf⟩
      · cases hb
      · obtain ⟨g, hgj, hhead⟩ := hf.head_eq j b hb
        exact ⟨g, hgj, List.mem_of_mem_head? hhead⟩
    · exact h.anchored i hi r' hr' j b hb

theorem Scheduler.Chained.register (h : s.Chained H cfg prompts) (hinv : s.Inv H cfg n)
    (hinj : ChainInjective H cfg.cache prompts) {id : RequestId} (hid : id ∈ s.waiting.ids)
    {r : SchedulerRequest} (hr : s.requests.lookup id = some r)
    (hprompt : r.promptTokenIds ∈ prompts) {tokens : ℕ} {bs : List BlockId} {kv : KVCacheManager}
    (ha : s.kvCacheManager.allocateSlots cfg.cache id (r.numComputedTokens + tokens)
      r.numComputedTokens = (some bs, kv))
    (hends : s.kvCacheManager.blockPool.EvictsEnds H cfg.cache prompts
      (divCeil tokens cfg.cache.blockSize)) (total : ℕ) :
    Scheduler.Chained H cfg prompts { s with
      kvCacheManager := kv.cacheBlocks cfg.cache id total } := by
  have hgrown : Scheduler.Chained H cfg prompts { s with kvCacheManager := kv } := by
    have hgrow := h.grow hinv id (r.numComputedTokens + tokens) r.numComputedTokens
      (by rwa [Nat.add_sub_cancel_left])
    rwa [ha] at hgrow
  obtain ⟨-, hal, hreg⟩ := hinv.register hid hr ha total
  obtain ⟨-, hg⟩ := hinv.kv.allocateSlots_some ha
  have hw := (hinv.each id).waiting hid r hr
  constructor
  · intro g g' hnext hg'
    obtain ⟨x, hx⟩ := List.exists_mem_of_ne_nil _ hg'
    suffices hex : ∃ y, y ∈ kv.blockPool.listed g ∨
        ∃ i, (i, y, g) ∈ kv.newRegs cfg.cache id total by
      obtain ⟨y, hy⟩ := hex
      exact List.ne_nil_of_mem ((hreg.mem_listed g y).mpr hy)
    rcases (hreg.mem_listed g' x).mp hx with hx | ⟨i, hi⟩
    · obtain ⟨y, hy⟩ := List.exists_mem_of_ne_nil _
        (hgrown.closed g g' hnext (List.ne_nil_of_mem hx))
      exact ⟨y, Or.inl hy⟩
    · obtain ⟨hon, -, hlt, htab, -⟩ := KVCacheManager.mem_newRegs.mp hi
      obtain ⟨-, -, hs, hhs, hhs', hhash⟩ := hinv.mem_newRegs hid hr ha hi
      replace hhs' : hs = promptHashes H cfg.cache r.promptTokenIds := hhs'
      rw [hhs'] at hhash
      obtain ⟨q, hq, k, hk, hk'⟩ := hnext
      obtain ⟨rfl, htake⟩ := hinj q hq _ hprompt (k + 1) i g' hk' hhash
      have hprev : (promptHashes H cfg.cache r.promptTokenIds)[k]? = some g :=
        promptHashes_of_take htake (List.getElem?_eq_some_iff.mp hhash).1 (Nat.le_succ k) hk
      rcases Nat.lt_or_ge k (kv.alreadyCached cfg.cache id) with hlt' | hge
      · rw [hal] at hlt'
        obtain ⟨g₂, hg₂, hlisted⟩ := hgrown.anchored id hid r hr k _
          (List.getElem?_eq_getElem hlt')
        obtain rfl : g = g₂ := Option.some.inj (hprev.symm.trans hg₂)
        exact ⟨_, Or.inl hlisted⟩
      · have hklt : k < (kv.table id).length :=
          lt_trans (Nat.lt_succ_self k) (List.getElem?_eq_some_iff.mp htab).1
        refine ⟨(kv.table id)[k], Or.inr ⟨k, KVCacheManager.mem_newRegs.mpr
          ⟨hon, hge, by omega, List.getElem?_eq_getElem hklt, ?_⟩⟩⟩
        rw [hg.hashes_eq, hhs, Option.getD_some, hhs']
        exact hprev
  · intro i hi r' hr' j b hb
    obtain ⟨g, hgj, hlisted⟩ := hgrown.anchored i hi r' hr' j b hb
    exact ⟨g, hgj, (hreg.mem_listed g b).mpr (Or.inl hlisted)⟩

theorem Move.chained (hm : Move H cfg (.evictsEnds H cfg prompts) st st')
    (hinv : st.sched.Inv H cfg n) (hknown : st.sched.Known added)
    (hsub : ∀ q ∈ added, q.promptTokens ∈ prompts) (hinj : ChainInjective H cfg.cache prompts)
    (h : st.sched.Chained H cfg prompts) : st'.sched.Chained H cfg prompts := by
  cases hm with
  | finish =>
    refine h.shrink (hinv.kv.free _).2.2.2.1 fun id hid r hr => Or.inr ?_
    exact ⟨(RequestQueue.mem_ids_remove.mp hid).1, r, hr, rfl, rfl⟩
  | markLength => exact h.modifyRequest _ fun _ => ⟨rfl, rfl⟩
  | decode =>
    rw [StepState.scheduleDecode_sched]
    exact h.modifyRequest _ fun _ => ⟨rfl, rfl⟩
  | @decodeGrow id r bs kv hg hid hr hlen _ hn ha =>
    rw [StepState.scheduleDecode_sched]
    have hends := hg r hr hlen hn
    have hgrow := h.grow hinv id (r.numComputedTokens + (1 + r.request.samplingParams.specTokens))
      r.numComputedTokens (by rwa [Nat.add_sub_cancel_left])
    rw [ha] at hgrow
    exact hgrow.modifyRequest _ fun _ => ⟨rfl, rfl⟩
  | @starve id r kv hg hid hr hlen hn ha =>
    have hends := hg r hr hlen hn
    have hgrow := h.grow hinv id (r.numComputedTokens + (1 + r.request.samplingParams.specTokens))
      r.numComputedTokens (by rwa [Nat.add_sub_cancel_left])
    rwa [ha] at hgrow
  | @preempt id hid =>
    have hl := (hinv.kv.free id).2.2.2.1
    simp only [StepState.preemptOne, Scheduler.preemptRequest]
    split
    · rename_i r₀ hr₀
      refine h.shrink hl fun i hi r hr => ?_
      rcases of_lookup_insert hr with ⟨-, rfl⟩ | ⟨hne, hr⟩
      · exact Or.inl rfl
      · exact Or.inr ⟨(RequestQueue.mem_ids_push.mp hi).resolve_right hne, r, hr, rfl, rfl⟩
    · exact h.shrink hl fun i hi r hr => Or.inr ⟨hi, r, hr, rfl, rfl⟩
  | note => exact h.shrink rfl fun id hid r hr => Or.inr ⟨hid, r, hr, rfl, rfl⟩
  | probe _ _ hid hr hc => exact h.probe hinv hid hr hc _
  | admitCached =>
    refine h.shrink (by simp) fun i hi r hr => Or.inr ?_
    rw [StepState.admitCached_waiting, RequestQueue.mem_ids_remove] at hi
    rw [StepState.admitCached_lookup, if_neg hi.2] at hr
    exact ⟨hi.1, r, hr, rfl, rfl⟩
  | @admitNew st₀ id r tokens bs kv hA _ hid hr _ _ hrem ht _ ha _ hsel =>
    obtain ⟨hadd, -, hprompt⟩ := hknown id r hr
    have hends := hA _ hsel r hr hrem
    rw [← ht] at hends
    have hreg := h.register hinv hinj hid hr (hprompt ▸ hsub _ hadd) ha hends
      (r.numComputedTokens + tokens)
    refine hreg.shrink (by rw [StepState.admitNew_kvCacheManager]; rfl) fun i hi r' hr' => Or.inr ?_
    rw [StepState.admitNew_waiting, RequestQueue.mem_ids_remove] at hi
    rw [StepState.admitNew_lookup, if_neg hi.2] at hr'
    exact ⟨hi.1, r', hr', rfl, rfl⟩
  | @admitFail st₀ id r tokens kv hA _ hid hr ht hpos ha hsel =>
    have hrem : r.numComputedTokens < r.promptTokenIds.length := by
      have := StepState.prefillTokens_le cfg st r.promptTokenIds.length r.numComputedTokens
      omega
    have hends := hA _ hsel r hr hrem
    rw [← ht] at hends
    have hgrow := h.grow hinv id (r.numComputedTokens + tokens) r.numComputedTokens
      (by rwa [Nat.add_sub_cancel_left])
    rwa [ha] at hgrow

theorem Moves.chained (hm : Moves H cfg (.evictsEnds H cfg prompts) st st')
    (hinv : st.sched.Inv H cfg n) (hknown : st.sched.Known added)
    (hsub : ∀ q ∈ added, q.promptTokens ∈ prompts) (hinj : ChainInjective H cfg.cache prompts)
    (h : st.sched.Chained H cfg prompts) : st'.sched.Chained H cfg prompts := by
  induction hm with
  | refl => exact h
  | tail hms hm ih => exact hm.chained (Moves.inv hms hinv) (Moves.known hms hknown) hsub hinj ih

end Moves

/-! ## Runs -/

section Runs

variable {cfg : Config} {s : Scheduler} {added : List InferenceRequest}

/-- The cache is reset only while nobody has a table. -/
theorem Scheduler.resetPrefixCache_unheld {s' : Scheduler} (hr : s.resetPrefixCache = .ok s')
    (id : RequestId) : id ∉ s.kvCacheManager.requestBlocks.keys := by
  unfold Scheduler.resetPrefixCache at hr
  split at hr
  · rename_i kv hkv
    unfold KVCacheManager.resetPrefixCache at hkv
    split at hkv
    · rename_i hempty
      rw [List.isEmpty_iff.mp hempty]
      exact List.not_mem_nil
    · cases hkv
  · cases hr

theorem Scheduler.resetPrefixCache_idle {s' : Scheduler} (hr : s.resetPrefixCache = .ok s')
    (id : RequestId) : s.kvCacheManager.table id = [] :=
  KVCacheManager.table_of_not_mem (resetPrefixCache_unheld hr id)

theorem GuardedRun.chained (h : GuardedRun H cfg (.evictsEnds H cfg prompts) added s)
    (hle : cfg.numCacheBlocks ≤ 2 ^ 32) (hsub : ∀ q ∈ added, q.promptTokens ∈ prompts)
    (hinj : ChainInjective H cfg.cache prompts) : s.Chained H cfg prompts := by
  induction h with
  | new =>
    constructor
    · intro g g' _ hg'
      exact absurd (BlockPool.listed_new g') hg'
    · intro id hid
      cases hid
  | addRequest r _ _ ih =>
    refine (ih fun q hq => hsub q (List.mem_append_left _ hq)).shrink rfl fun i hi r' hr' => ?_
    simp only [Scheduler.addRequest, RequestQueue.mem_ids_push] at hi hr'
    rcases of_lookup_insert hr' with ⟨-, rfl⟩ | ⟨hne, hr'⟩
    · exact Or.inl rfl
    · exact Or.inr ⟨hi.resolve_right hne, r', hr', rfl, rfl⟩
  | abortRequest id hrun ih =>
    refine (ih hsub).shrink ((hrun.run.inv hle).1.kv.free id).2.2.2.1 fun i hi r hr => Or.inr ?_
    simp only [Scheduler.abortRequest, RequestQueue.mem_ids_remove] at hi hr
    rw [AList.lookup_erase_ne hi.2] at hr
    exact ⟨hi.1, r, hr, rfl, rfl⟩
  | @step _ s ord hrun hall ih =>
    cases hp : s.paused with
    | true =>
      rw [Scheduler.step, if_pos hp]
      exact ih hsub
    | false =>
      obtain ⟨hinv, hknown⟩ := hrun.run.inv hle
      rw [Scheduler.step_eq hp]
      exact (stepState_moves hinv.partition hp ord hall).chained hinv hknown hsub hinj (ih hsub)
  | pause _ ih => exact (ih hsub).shrink rfl fun i hi r hr => Or.inr ⟨hi, r, hr, rfl, rfl⟩
  | resume _ ih => exact (ih hsub).shrink rfl fun i hi r hr => Or.inr ⟨hi, r, hr, rfl, rfl⟩
  | resetPrefixCache hrun hr ih =>
    have hidle := Scheduler.resetPrefixCache_idle hr
    rw [Scheduler.resetPrefixCache_ok hr]
    constructor
    · intro g g' _ hg'
      exact absurd (BlockPool.listed_clearHashes g') hg'
    · intro id hid r hr' j b hb
      have htable := ((hrun.run.inv hle).1.each id).waiting hid r hr' |>.table_eq
      rw [← htable, hidle] at hb
      cases hb

theorem BlockPool.PrefixClosed.down (h : p.PrefixClosed H c prompts) {q : List Token}
    (hq : q ∈ prompts) {i : ℕ} {g : BlockHash} (hg : (promptHashes H c q)[i]? = some g)
    (hl : p.listed g ≠ []) (j : ℕ) (hj : j ≤ i) :
    ∃ g', (promptHashes H c q)[j]? = some g' ∧ p.listed g' ≠ [] := by
  induction i generalizing g with
  | zero =>
    obtain rfl : j = 0 := by omega
    exact ⟨g, hg, hl⟩
  | succ i ih =>
    rcases Nat.eq_or_lt_of_le hj with rfl | hlt
    · exact ⟨g, hg, hl⟩
    · have hi : i < (promptHashes H c q).length :=
        lt_trans (Nat.lt_succ_self i) (List.getElem?_eq_some_iff.mp hg).1
      have hprev := List.getElem?_eq_getElem hi
      exact ih hprev (h _ g ⟨q, hq, i, hprev, hg⟩ hl) (by omega)

/-- In a run on at most `2 ^ 32` blocks whose evictions take the ends of the cached chains, a
cached block of any prompt comes with all the blocks before it, without collisions of hashes. -/
theorem GuardedRun.prefixClosed (H : HashFns) (cfg : Config) (hle : cfg.numCacheBlocks ≤ 2 ^ 32)
    (added : List InferenceRequest) (s : Scheduler)
    (h : GuardedRun H cfg (.evictsEnds H cfg (added.map (·.promptTokens))) added s)
    (prompt : List Token)
    (hcoll : CollisionFree H cfg.cache (prompt :: added.map (·.promptTokens)))
    (hroot : RootFree H cfg.cache (prompt :: added.map (·.promptTokens))) :
    ∀ (i j : ℕ) (g g' : BlockHash), j ≤ i → (promptHashes H cfg.cache prompt)[i]? = some g →
      (promptHashes H cfg.cache prompt)[j]? = some g' →
      s.kvCacheManager.blockPool.listed g ≠ [] → s.kvCacheManager.blockPool.listed g' ≠ [] := by
  intro i j g g' hj hg hg' hl
  have hinj := hcoll.chainInjective hroot
  have hinj' := hinj.mono fun q hq => List.mem_cons_of_mem prompt hq
  have hclosed := (h.chained hle (fun q hq => List.mem_map_of_mem hq) hinj').closed
  obtain ⟨b, hb⟩ := List.exists_mem_of_ne_nil _ hl
  obtain ⟨q, hq, k, -, hk⟩ := (h.run.traced hle hinj').listed g b hb
  have hqm := List.mem_map_of_mem (f := (·.promptTokens)) hq
  obtain ⟨rfl, htake⟩ := hinj prompt List.mem_cons_self q.promptTokens
    (List.mem_cons_of_mem _ hqm) i k g hg hk
  obtain ⟨g₂, hg₂, hl₂⟩ := hclosed.down hqm hk hl j hj
  have hsame := promptHashes_of_take htake (List.getElem?_eq_some_iff.mp hk).1 hj hg'
  obtain rfl : g' = g₂ := Option.some.inj (hsame.symm.trans hg₂)
  exact hl₂

-- the hashes are a finite type, over which nothing must be enumerated
instance (p : BlockPool) (b : BlockId) : Decidable (p.EndsChain H c prompts b) :=
  have (g : BlockHash) (q : List Token) : Decidable (∀ x ∈ (promptHashes H c q).zip
      (promptHashes H c q).tail, x.1 = g → p.listed x.2 = []) := List.decidableBAll _ _
  Option.decidableForallMem (p.hashOf b)

instance BlockPool.decidableEvictsEnds : ∀ (k : ℕ) (p : BlockPool),
    Decidable (p.EvictsEnds H c prompts k)
  | 0, _ => .isTrue True.intro
  | k + 1, p => by
    unfold BlockPool.EvictsEnds
    cases p.allocate with
    | none => exact .isTrue True.intro
    | some x =>
      have : Decidable (x.2.EvictsEnds H c prompts k) := decidableEvictsEnds k x.2
      exact instDecidableAnd

instance (st : StepState) (id : RequestId) :
    Decidable ((Guards.evictsEnds H cfg prompts).decodes st id) := by
  unfold Guards.evictsEnds
  infer_instance

instance (st : StepState) : Decidable ((Guards.evictsEnds H cfg prompts).admits st) := by
  unfold Guards.evictsEnds
  infer_instance

end Runs

/-- A scheduler on few blocks that has served one request, and steps with another one. -/
def servedThen (k : ℕ) (first second : List Token) : Scheduler :=
  (serveOnce (smallConfig k true) (.new (smallConfig k true)) (smallRequest 1 first)).addRequest
    (smallConfig k true) (smallRequest 2 second)

/-- The one cached block is evicted to make room for two. -/
theorem GuardedRun.prefixClosed_evicted : ∃ g g',
    (promptHashes smallHash (smallConfig 3 true).cache [7, 8])[1]? = some g ∧
    (promptHashes smallHash (smallConfig 3 true).cache [7, 8])[0]? = some g' ∧
    ((servedThen 3 [1] [7, 8]).step smallHash
      (smallConfig 3 true) .id).2.kvCacheManager.blockPool.listed g ≠ [] ∧
    ((servedThen 3 [1] [7, 8]).step smallHash
      (smallConfig 3 true) .id).2.kvCacheManager.blockPool.listed g' ≠ [] := by
  refine ⟨_, _, rfl, rfl, by decide +kernel, GuardedRun.prefixClosed smallHash
    (smallConfig 3 true) (by decide) [smallRequest 1 [1], smallRequest 2 [7, 8]] _
    (.step .id (.addRequest _ (.abortRequest _ (.step .id (.addRequest _ .new (by simp)) ?_))
      (by decide)) ?_) [7, 8] ?_ ?_ 1 0 _ _ (by omega) rfl rfl (by decide +kernel)⟩
  · exact fun _ => ⟨fun _ _ _ _ => True.intro, by decide +kernel, by decide +kernel⟩
  · exact fun _ => ⟨fun _ _ _ _ => True.intro, by decide +kernel, by decide +kernel⟩
  · unfold CollisionFree
    decide +kernel
  · unfold RootFree
    decide +kernel

/-- The blocks of a freed prompt are evicted from its start: the second block of `[1, 2]` stays
cached without the first. -/
theorem SchedRun.not_prefixClosed : ¬ ∀ (H : HashFns) (cfg : Config)
    (added : List InferenceRequest) (s : Scheduler), SchedRun H cfg added s →
    ∀ prompt : List Token, CollisionFree H cfg.cache (prompt :: added.map (·.promptTokens)) →
    RootFree H cfg.cache (prompt :: added.map (·.promptTokens)) →
    ∀ (i j : ℕ) (g g' : BlockHash), j ≤ i → (promptHashes H cfg.cache prompt)[i]? = some g →
      (promptHashes H cfg.cache prompt)[j]? = some g' →
      s.kvCacheManager.blockPool.listed g ≠ [] → s.kvCacheManager.blockPool.listed g' ≠ [] := by
  intro h
  have hrun : SchedRun smallHash (smallConfig 4 true) [smallRequest 1 [1, 2], smallRequest 2 [7, 8]]
      ((servedThen 4 [1, 2] [7, 8]).step smallHash (smallConfig 4 true) .id).2 :=
    .step .id (.addRequest _ (SchedRun.new.serveOnce _ (by simp)) (by decide))
  have hl := h smallHash (smallConfig 4 true) _ _ hrun [1, 2]
    (by unfold CollisionFree; decide +kernel) (by unfold RootFree; decide +kernel) 1 0 _ _
    (by omega) rfl rfl
  revert hl
  decide +kernel

end Rllm
