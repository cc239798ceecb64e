import Rllm.Scheduler.Disjoint
import Rllm.Scheduler.PrefixSound

/-! # Token budget and model length

A step counts every scheduled token once. It stays within the token budget, and
no request gets past the model length, as long as every decode, its speculative
tokens included, fits into what is left of both.
-/

namespace Rllm

variable {H : HashFns} {cfg : Config} {K : Guards} {s : Scheduler} {st st' : StepState}
  {added : List InferenceRequest}

/-! ## Runs under guards -/

/-- The runs of the scheduler whose steps satisfy guards. -/
inductive GuardedRun (H : HashFns) (cfg : Config) (K : Guards) :
    List InferenceRequest → Scheduler → Prop
  | new : GuardedRun H cfg K [] (Scheduler.new cfg)
  | addRequest {added : List InferenceRequest} {s : Scheduler} (r : InferenceRequest)
      (hrun : GuardedRun H cfg K added s) (hfresh : r.requestId ∉ added.map (·.requestId)) :
      GuardedRun H cfg K (added ++ [r]) (s.addRequest cfg r)
  | abortRequest {added : List InferenceRequest} {s : Scheduler} (id : RequestId)
      (hrun : GuardedRun H cfg K added s) : GuardedRun H cfg K added (s.abortRequest id)
  | step {added : List InferenceRequest} {s : Scheduler} (ord : HashOrder)
      (hrun : GuardedRun H cfg K added s) (hall : s.StepAll H cfg K ord) :
      GuardedRun H cfg K added (s.step H cfg ord).2
  | pause {added : List InferenceRequest} {s : Scheduler} (hrun : GuardedRun H cfg K added s) :
      GuardedRun H cfg K added s.pause
  | resume {added : List InferenceRequest} {s : Scheduler} (hrun : GuardedRun H cfg K added s) :
      GuardedRun H cfg K added s.resume
  | resetPrefixCache {added : List InferenceRequest} {s s' : Scheduler}
      (hrun : GuardedRun H cfg K added s) (hr : s.resetPrefixCache = .ok s') :
      GuardedRun H cfg K added s'

theorem GuardedRun.run (h : GuardedRun H cfg K added s) : SchedRun H cfg added s := by
  induction h with
  | new => exact .new
  | addRequest r _ hfresh ih => exact .addRequest r ih hfresh
  | abortRequest id _ ih => exact .abortRequest id ih
  | step ord _ _ ih => exact .step ord ih
  | pause _ ih => exact .pause ih
  | resume _ ih => exact .resume ih
  | resetPrefixCache _ hr ih => exact .resetPrefixCache ih hr

/-! ## The property -/

/-- The sum of the scheduled tokens. -/
def SchedulerOutput.totalTokens (o : SchedulerOutput) : ℕ :=
  (o.numScheduledTokens.entries.map Sigma.snd).sum

/-- The counters agree and stay within the budget, and nobody is past the model length. -/
structure WithinLimits (cfg : Config) (out : SchedulerOutput) (s : Scheduler) : Prop where
  used_eq : out.tokenBudgetUsed = out.totalTokens
  stats_eq : out.tokenBudgetUsed = out.stats.prefillTokens + out.stats.decodeTokens
  used_le : out.tokenBudgetUsed ≤ cfg.scheduler.maxNumScheduledTokens
  computed_le : ∀ id r, s.requests.lookup id = some r → r.numComputedTokens ≤ cfg.maxModelLen

/-- A decode that takes place fits into the budget and into the model length. -/
def StepState.DecodeFits (cfg : Config) (st : StepState) (id : RequestId) : Prop :=
  ∀ r, st.sched.requests.lookup id = some r →
    let tokens := 1 + r.request.samplingParams.specTokens
    r.numComputedTokens < cfg.maxModelLen →
    (divCeil r.numComputedTokens cfg.cache.blockSize <
        divCeil (r.numComputedTokens + tokens) cfg.cache.blockSize →
      (st.sched.kvCacheManager.allocateSlots cfg.cache id (r.numComputedTokens + tokens)
        r.numComputedTokens).1.isSome = true) →
    st.budgetUsed + tokens ≤ cfg.scheduler.maxNumScheduledTokens ∧
      r.numComputedTokens + tokens ≤ cfg.maxModelLen

def Guards.decodeFits (cfg : Config) : Guards where
  finishes _ := True
  decodes := StepState.DecodeFits cfg
  admits _ := True

/-! ## The counters of a step -/

/-- The counters of a step in progress. -/
structure StepState.Counted (st : StepState) : Prop where
  used_eq : st.budgetUsed = st.output.totalTokens
  stats_eq : st.budgetUsed = st.totalPrefill + st.totalDecode

theorem SchedulerOutput.totalTokens_insert {o o' : SchedulerOutput} {id : RequestId} {tokens : ℕ}
    (ho : o'.numScheduledTokens = o.numScheduledTokens.insert id tokens)
    (hid : o.numScheduledTokens.lookup id = none) :
    o'.totalTokens = o.totalTokens + tokens := by
  have hn : id ∉ o.numScheduledTokens := AList.lookup_eq_none.mp hid
  rw [SchedulerOutput.totalTokens, ho, AList.entries_insert_of_notMem hn, List.map_cons,
    List.sum_cons, Nat.add_comm]
  rfl

theorem StepState.scheduleDecode_totalDecode (id : RequestId) (tokens : ℕ) :
    (st.scheduleDecode id tokens).totalDecode = st.totalDecode + tokens ∧
      (st.scheduleDecode id tokens).totalPrefill = st.totalPrefill := by
  unfold scheduleDecode copyBlockTable
  split <;> exact ⟨rfl, rfl⟩

theorem StepState.admitNew_counters (st : StepState) (cfg : Config) (id : RequestId)
    (tokens total : ℕ) :
    (st.admitNew cfg id tokens total).budgetUsed = st.budgetUsed + tokens ∧
      (st.admitNew cfg id tokens total).totalDecode = st.totalDecode ∧
      (st.admitNew cfg id tokens total).totalPrefill = st.totalPrefill + tokens := by
  unfold admitNew copyBlockTable
  dsimp only
  split <;> split <;> exact ⟨rfl, rfl, rfl⟩

theorem Move.counted (hm : Move H cfg K st st') (hph : st.Phased H cfg K s) (h : st.Counted) :
    st'.Counted := by
  have hdec : ∀ (st₁ : StepState) (id : RequestId) (k : ℕ), st₁.output = st.output →
      st₁.budgetUsed = st.budgetUsed → st₁.totalPrefill = st.totalPrefill →
      st₁.totalDecode = st.totalDecode → id ∈ st.sched.running →
      id ∉ st.output.scheduledRunning → st.output.NoAdmission →
      (st₁.scheduleDecode id k).Counted := by
    intro st₁ id k ho hb hp hd hid hs hno
    obtain ⟨-, hμ⟩ := (hph id).of_running (by simpa using hid) (by simp [hno.1])
      (by simp [hno.2]) (by simpa using hs)
    have htok : st.output.numScheduledTokens.lookup id = none := congrArg Mention.tokens hμ
    obtain ⟨hcd, hcp⟩ := st₁.scheduleDecode_totalDecode id k
    refine ⟨?_, ?_⟩
    · rw [SchedulerOutput.totalTokens_insert (o := st₁.output)
        (congrArg SchedulerOutput.numScheduledTokens (StepState.scheduleDecode_output _ _ k))
        (ho ▸ htok), StepState.scheduleDecode_budgetUsed, hb, h.used_eq, ho]
    · rw [StepState.scheduleDecode_budgetUsed, hcd, hcp, hb, hp, hd, h.stats_eq]
      omega
  cases hm with
  | finish | markLength | starve | note | admitFail | preempt | probe | admitCached =>
    exact ⟨h.used_eq, h.stats_eq⟩
  | decode _ hid _ _ _ _ hs _ _ hno => exact hdec _ _ _ rfl rfl rfl rfl hid hs hno
  | decodeGrow _ hid _ _ _ _ _ hs _ _ hno => exact hdec _ _ _ rfl rfl rfl rfl hid hs hno
  | @admitNew st₀ id r tokens bs kv _ _ hid hr =>
    obtain ⟨pre, -, hμ, -⟩ := (hph id).of_waiting (r := r.progress) (by simpa using hid)
      (by simp [hr])
    have htok : st.output.numScheduledTokens.lookup id = none := congrArg Mention.tokens hμ
    obtain ⟨hb, hd, hp⟩ := (st.setKV kv).admitNew_counters cfg id tokens
      (r.numComputedTokens + tokens)
    refine ⟨?_, ?_⟩
    · rw [SchedulerOutput.totalTokens_insert (o := st.output)
        (congrArg SchedulerOutput.numScheduledTokens
          (admitNew_output cfg (st.setKV kv) id tokens _)) htok, hb]
      exact congrArg (· + tokens) h.used_eq
    · rw [hb, hd, hp]
      have := h.stats_eq
      simp only [StepState.setKV]
      omega

/-- Under the guards the budget is kept. -/
theorem Move.budget_le (hm : Move H cfg (.decodeFits cfg) st st')
    (h : st.budgetUsed ≤ cfg.scheduler.maxNumScheduledTokens) :
    st'.budgetUsed ≤ cfg.scheduler.maxNumScheduledTokens := by
  cases hm with
  | finish | markLength | starve | note | admitFail | preempt | probe | admitCached => exact h
  | decode hg _ hr hlen _ hn =>
    rw [StepState.scheduleDecode_budgetUsed]
    exact (hg _ hr hlen fun hc => absurd hc (not_lt.mpr hn)).1
  | decodeGrow hg _ hr hlen _ _ ha =>
    rw [StepState.scheduleDecode_budgetUsed]
    exact (hg _ hr hlen fun _ => by rw [ha]; rfl).1
  | @admitNew st₀ id r tokens bs kv _ _ _ _ hb _ _ ht =>
    rw [((st.setKV kv).admitNew_counters cfg id tokens _).1]
    have hle : tokens ≤ cfg.scheduler.maxNumScheduledTokens - st.budgetUsed := by
      rw [ht]
      unfold StepState.prefillTokens
      dsimp only
      split <;> omega
    simp only [StepState.setKV]
    omega

/-! ## What the prefix cache can give -/

section Cache

variable {m m' : KVCacheManager} {p p' : BlockPool} {b : BlockId}

theorem BlockPool.listed_allocate (ha : p.allocate = some (b, p')) (h : BlockHash) :
    ∀ x ∈ p'.listed h, x ∈ p.listed h := by
  unfold BlockPool.allocate at ha
  split at ha
  · rename_i idx q hq
    have hp' : p'.listed h = q.listed h := by
      obtain ⟨-, rfl⟩ := Prod.mk.inj (Option.some.inj ha)
      rfl
    intro x hx
    rw [hp'] at hx
    rcases Option.or_eq_some_iff.mp hq with hpop | ⟨-, hev⟩
    · unfold BlockPool.popUncached at hpop
      split at hpop
      · obtain ⟨-, rfl⟩ := Prod.mk.inj (Option.some.inj hpop)
        exact hx
      · cases hpop
    · unfold BlockPool.evictLru at hev
      split at hev
      · dsimp only at hev
        split at hev
        · obtain ⟨-, rfl⟩ := Prod.mk.inj (Option.some.inj hev)
          rw [BlockPool.listed_removeHashEntry] at hx
          split at hx
          · exact (List.mem_filter.mp hx).1
          · exact hx
        · cases hev
      · cases hev
  · cases ha

theorem BlockPool.listed_allocMany (k : ℕ) (p : BlockPool) (h : BlockHash) :
    ∀ x ∈ (allocMany k p).2.listed h, x ∈ p.listed h := by
  induction k generalizing p with
  | zero => exact fun _ hx => hx
  | succ k ih =>
    unfold allocMany
    split
    · rename_i b p' ha
      exact fun x hx => listed_allocate ha h x (ih p' x hx)
    · exact fun _ hx => hx

theorem BlockPool.listed_free (p : BlockPool) (b : BlockId) : (p.free b).listed = p.listed := by
  unfold BlockPool.free
  split
  · rfl
  · dsimp only
    split <;> rfl

theorem BlockPool.listed_freeAll (bs : List BlockId) (p : BlockPool) :
    (freeAll bs p).listed = p.listed := by
  induction bs generalizing p with
  | nil => rfl
  | cons b bs ih => exact (ih (p.free b)).trans (p.listed_free b)

theorem BlockPool.listed_cacheBlock (p : BlockPool) (b : BlockId) (h h' : BlockHash) :
    ∀ x ∈ (p.cacheBlock b h).listed h', x ∈ p.listed h' ∨ h' = h := by
  intro x hx
  unfold BlockPool.cacheBlock at hx
  split at hx
  · exact Or.inl hx
  · by_cases hh : h' = h
    · exact Or.inr hh
    · left
      simpa [BlockPool.listed, BlockPool.modifyBlock, AList.lookup_insert_ne hh] using hx

theorem listed_congr (h : p'.hashMap = p.hashMap) : p'.listed = p.listed := by
  unfold BlockPool.listed
  rw [h]

theorem lookupBlocks_listed (hs : List BlockHash) (p : BlockPool) :
    (lookupBlocks hs p).1.length ≤ hs.length ∧ ∀ i < (lookupBlocks hs p).1.length,
      ∃ h, hs[i]? = some h ∧ p.listed h ≠ [] := by
  induction hs generalizing p with
  | nil => exact ⟨le_rfl, fun i hi => by cases hi⟩
  | cons h hs ih =>
    unfold lookupBlocks
    split
    · rename_i b p' hg
      obtain ⟨hlen, hmem⟩ := ih p'
      rw [listed_congr (hashMap_getCachedBlock hg)] at hmem
      refine ⟨Nat.succ_le_succ hlen, fun i hi => ?_⟩
      cases i with
      | zero =>
        refine ⟨h, rfl, fun hnil => ?_⟩
        have hl : (p.hashMap.lookup h).getD [] = [] := hnil
        unfold BlockPool.getCachedBlock at hg
        cases hk : p.hashMap.lookup h with
        | none => simp [hk] at hg
        | some ids =>
          rw [hk] at hl
          simp only [hk, Option.bind_some] at hg
          obtain rfl : ids = [] := hl
          cases hg
      | succ i => exact hmem i (Nat.lt_of_succ_lt_succ hi)
    · exact ⟨Nat.zero_le _, fun i hi => by cases hi⟩

/-- Every hash that the manager holds is that of a block of an added prompt, and the listed ones
are those of blocks within the model length. -/
structure KVCacheManager.Short (H : HashFns) (c : CacheConfig) (limit : ℕ)
    (added : List InferenceRequest) (m : KVCacheManager) : Prop where
  hashes : ∀ id hs, m.requestBlockHashes.lookup id = some hs → ∃ q ∈ added,
    hs = computeBlockHashes H c.prefixHashAlgorithm q.promptTokens c.blockSize none
  listed : ∀ h, m.blockPool.listed h ≠ [] → ∃ q ∈ added, ∃ i,
    (computeBlockHashes H c.prefixHashAlgorithm q.promptTokens c.blockSize none)[i]? = some h ∧
    (i + 1) * c.blockSize ≤ limit

namespace KVCacheManager.Short

variable {c : CacheConfig} {limit : ℕ} {added' : List InferenceRequest} {rid : RequestId}

theorem mono (h : Short H c limit added m) (hsub : ∀ q ∈ added, q ∈ added') :
    Short H c limit added' m where
  hashes id hs hhs := by
    obtain ⟨q, hq, he⟩ := h.hashes id hs hhs
    exact ⟨q, hsub q hq, he⟩
  listed g hg := by
    obtain ⟨q, hq, hi⟩ := h.listed g hg
    exact ⟨q, hsub q hq, hi⟩

theorem shrink (h : Short H c limit added m)
    (hh : ∀ id hs, m'.requestBlockHashes.lookup id = some hs →
      m.requestBlockHashes.lookup id = some hs)
    (hl : ∀ g, ∀ b ∈ m'.blockPool.listed g, b ∈ m.blockPool.listed g) :
    Short H c limit added m' where
  hashes id hs hhs := h.hashes id hs (hh id hs hhs)
  listed g hg := by
    obtain ⟨b, hb⟩ := List.exists_mem_of_ne_nil _ hg
    exact h.listed g (List.ne_nil_of_mem (hl g b hb))

theorem allocateSlots (h : Short H c limit added m) (rid : RequestId) (total computed : ℕ) :
    Short H c limit added (m.allocateSlots c rid total computed).2 := by
  have hl := BlockPool.listed_allocMany (divCeil (total - computed) c.blockSize) m.blockPool
  unfold KVCacheManager.allocateSlots
  dsimp only
  split
  · exact h
  · split
    · refine h.shrink (fun _ _ hhs => hhs) fun g b hb => hl g b ?_
      rwa [BlockPool.listed_freeAll] at hb
    · exact h.shrink (fun _ _ hhs => hhs) hl

theorem free (h : Short H c limit added m) (rid : RequestId) :
    Short H c limit added (m.free rid) := by
  refine h.shrink (fun id hs hhs => ?_) fun g b hb => ?_
  · by_cases hi : id = rid
    · subst hi
      simp [KVCacheManager.free] at hhs
    · simpa [KVCacheManager.free, AList.lookup_erase_ne hi] using hhs
  · unfold KVCacheManager.free at hb
    dsimp only at hb
    split at hb
    · rwa [BlockPool.listed_freeAll] at hb
    · exact hb

theorem getComputedBlocks (h : Short H c limit added m) {q : InferenceRequest} (hq : q ∈ added)
    (skip : Bool) :
    Short H c limit added (m.getComputedBlocks H c rid q.promptTokens skip).2 where
  hashes id hs hhs := by
    unfold KVCacheManager.getComputedBlocks at hhs
    split at hhs
    · exact h.hashes id hs hhs
    · dsimp only at hhs
      by_cases hi : id = rid
      · subst hi
        rw [AList.lookup_insert] at hhs
        exact ⟨q, hq, (Option.some.inj hhs).symm⟩
      · rw [AList.lookup_insert_ne hi] at hhs
        exact h.hashes id hs hhs
  listed g hg := by
    rw [listed_congr (m.hashMap_getComputedBlocks c rid q.promptTokens skip)] at hg
    exact h.listed g hg

theorem num_le (h : Short H c limit added m) {q : InferenceRequest} (hq : q ∈ added)
    (hor : ChainInjective H c (added.map (·.promptTokens)) ∨
      ∀ q ∈ added, q.promptTokens.length ≤ limit) (skip : Bool) :
    (m.getComputedBlocks H c rid q.promptTokens skip).1.numComputedTokens ≤ limit := by
  unfold KVCacheManager.getComputedBlocks
  split
  · exact Nat.zero_le _
  · dsimp only
    obtain ⟨hlen, hmem⟩ := lookupBlocks_listed (computeBlockHashes H c.prefixHashAlgorithm
      q.promptTokens c.blockSize none) m.blockPool
    generalize hk : (lookupBlocks (computeBlockHashes H c.prefixHashAlgorithm q.promptTokens
      c.blockSize none) m.blockPool).1.length = k at hlen hmem
    rcases hor with hinj | hshort
    · -- the last block found is within the model length, since its hash tells its place
      cases k with
      | zero => simp
      | succ k =>
        obtain ⟨g, hg, hne⟩ := hmem k k.lt_succ_self
        obtain ⟨q', hq', i, hi, hle⟩ := h.listed g hne
        obtain ⟨rfl, -⟩ := hinj _ (List.mem_map_of_mem hq) _ (List.mem_map_of_mem hq') k i g hg hi
        exact hle
    · rw [length_computeBlockHashes] at hlen
      exact ((Nat.mul_le_mul_right _ hlen).trans (Nat.div_mul_le_self _ _)).trans (hshort q hq)

theorem registerBlock (h : Short H c limit added m) {bt : List BlockId} {hs : List BlockHash}
    {i : ℕ} (hhs : ∃ q ∈ added,
      hs = computeBlockHashes H c.prefixHashAlgorithm q.promptTokens c.blockSize none)
    (hi : (i + 1) * c.blockSize ≤ limit) :
    Short H c limit added (m.registerBlock rid bt hs i) := by
  unfold KVCacheManager.registerBlock
  split
  · rename_i b g hb hg
    refine ⟨h.hashes, fun g' hg' => ?_⟩
    obtain ⟨x, hx⟩ := List.exists_mem_of_ne_nil _ hg'
    rcases BlockPool.listed_cacheBlock _ _ _ _ x hx with hx | rfl
    · exact h.listed g' (List.ne_nil_of_mem hx)
    · obtain ⟨q, hq, rfl⟩ := hhs
      exact ⟨q, hq, i, hg, hi⟩
  · exact h

theorem registerAll (h : Short H c limit added m) (rid : RequestId) {bt : List BlockId}
    {hs : List BlockHash} {is : List ℕ} (hhs : ∃ q ∈ added,
      hs = computeBlockHashes H c.prefixHashAlgorithm q.promptTokens c.blockSize none)
    (his : ∀ i ∈ is, (i + 1) * c.blockSize ≤ limit) :
    Short H c limit added (is.foldl (fun m i => m.registerBlock rid bt hs i) m) := by
  induction is generalizing m with
  | nil => exact h
  | cons i is ih =>
    exact ih (h.registerBlock hhs (his i (by simp))) fun j hj => his j (List.mem_cons_of_mem _ hj)

theorem cacheBlocks (h : Short H c limit added m) {total : ℕ} (ht : total ≤ limit) :
    Short H c limit added (m.cacheBlocks c rid total) := by
  unfold KVCacheManager.cacheBlocks
  split
  · exact h
  · dsimp only
    split
    · rename_i bt hs _ hhs
      refine (h.registerAll rid (h.hashes rid hs hhs) fun i hi => ?_).shrink
        (fun _ _ hhs => hhs) fun _ _ hb => hb
      obtain ⟨hge, hlt⟩ := List.mem_range'_1.mp hi
      have hle : (i + 1) * c.blockSize ≤ total / c.blockSize * c.blockSize :=
        Nat.mul_le_mul_right _ (by omega)
      exact (hle.trans (Nat.div_mul_le_self _ _)).trans ht
    · exact h

end KVCacheManager.Short

end Cache

/-! ## Runs -/

/-- Along a run under the guards: nobody is past the model length, nor is any cached block. -/
structure Scheduler.Short (H : HashFns) (cfg : Config) (added : List InferenceRequest)
    (s : Scheduler) : Prop where
  cache : s.kvCacheManager.Short H cfg.cache cfg.maxModelLen added
  computed_le : ∀ id r, s.requests.lookup id = some r → r.numComputedTokens ≤ cfg.maxModelLen

theorem Scheduler.Short.modifyRequest {id : RequestId} {f : SchedulerRequest → SchedulerRequest}
    (h : s.Short H cfg added)
    (hf : ∀ r, s.requests.lookup id = some r → (f r).numComputedTokens ≤ cfg.maxModelLen) :
    (s.modifyRequest id f).Short H cfg added := by
  refine ⟨by simpa using h.cache, fun i r hr => ?_⟩
  rw [Scheduler.lookup_modifyRequest] at hr
  split at hr
  · rename_i hi
    obtain ⟨r₀, hr₀, rfl⟩ := Option.map_eq_some_iff.mp hr
    exact hf r₀ (hi ▸ hr₀)
  · exact h.computed_le i r hr

theorem Scheduler.Short.setKV {kv : KVCacheManager} (h : s.Short H cfg added)
    (hkv : kv.Short H cfg.cache cfg.maxModelLen added) :
    ({ s with kvCacheManager := kv } : Scheduler).Short H cfg added :=
  ⟨hkv, h.computed_le⟩

theorem Move.short (hm : Move H cfg (.decodeFits cfg) st st') (hknown : st.sched.Known added)
    (hor : ChainInjective H cfg.cache (added.map (·.promptTokens)) ∨
      ∀ q ∈ added, q.promptTokens.length ≤ cfg.maxModelLen)
    (h : st.sched.Short H cfg added) : st'.sched.Short H cfg added := by
  have halloc : ∀ {id : RequestId} {total computed : ℕ} {res : Option (List BlockId)}
      {kv : KVCacheManager}, st.sched.kvCacheManager.allocateSlots cfg.cache id total computed =
        (res, kv) → kv.Short H cfg.cache cfg.maxModelLen added := by
    intro id total computed res kv ha
    have hs := h.cache.allocateSlots id total computed
    rwa [ha] at hs
  cases hm with
  | finish => exact ⟨h.cache.free _, h.computed_le⟩
  | markLength => exact h.modifyRequest fun r hr => h.computed_le _ r hr
  | decode hg _ hr hlen _ hn =>
    rw [StepState.scheduleDecode_sched]
    refine h.modifyRequest fun r hr' => ?_
    obtain rfl := Option.some.inj (hr'.symm.trans hr)
    exact (hg _ hr hlen fun hc => absurd hc (not_lt.mpr hn)).2
  | decodeGrow hg _ hr hlen _ _ ha =>
    rw [StepState.scheduleDecode_sched]
    refine (h.setKV (halloc ha)).modifyRequest fun r hr' => ?_
    obtain rfl := Option.some.inj (hr'.symm.trans hr)
    exact (hg _ hr hlen fun _ => by rw [ha]; rfl).2
  | starve _ _ _ _ _ ha => exact h.setKV (halloc ha)
  | @preempt id =>
    simp only [StepState.preemptOne, Scheduler.preemptRequest]
    split
    · rename_i r hr
      refine ⟨h.cache.free _, fun i r' hr' => ?_⟩
      rcases of_lookup_insert hr' with ⟨-, rfl⟩ | ⟨-, hr'⟩
      · exact Nat.zero_le _
      · exact h.computed_le i r' hr'
    · exact ⟨h.cache.free _, h.computed_le⟩
  | note => exact ⟨h.cache, h.computed_le⟩
  | @probe _ id r _ _ hid hr hc he =>
    obtain ⟨hq, -, hprompt⟩ := hknown id r hr
    unfold Scheduler.probe
    dsimp only
    rw [hprompt]
    refine Scheduler.Short.modifyRequest
      ⟨h.cache.getComputedBlocks hq _, h.computed_le⟩ fun r' _ => ?_
    exact h.cache.num_le hq hor _
  | @admitCached st₀ id r =>
    refine ⟨by simpa using h.cache, fun i r' hr' => ?_⟩
    rw [StepState.admitCached_lookup] at hr'
    split at hr'
    · obtain ⟨r₀, hr₀, rfl⟩ := Option.map_eq_some_iff.mp hr'
      exact h.computed_le i r₀ hr₀
    · exact h.computed_le i r' hr'
  | @admitNew st₀ id r tokens bs kv _ _ _ hr _ _ _ ht hpos ha =>
    have hle : r.numComputedTokens + tokens ≤ cfg.maxModelLen := by
      have hc := h.computed_le id r hr
      have ht' : tokens ≤ cfg.maxModelLen - r.numComputedTokens := by
        rw [ht]
        exact min_le_right _ _
      omega
    refine ⟨?_, fun i r' hr' => ?_⟩
    · rw [StepState.admitNew_kvCacheManager]
      exact (halloc ha).cacheBlocks hle
    · rw [StepState.admitNew_lookup] at hr'
      split at hr'
      · obtain ⟨r₀, hr₀, rfl⟩ := Option.map_eq_some_iff.mp hr'
        exact hle
      · exact h.computed_le i r' hr'
  | admitFail _ _ _ _ _ _ ha => exact h.setKV (halloc ha)

/-- What a step in progress keeps under the guards. -/
structure StepState.Limited (H : HashFns) (cfg : Config) (added : List InferenceRequest)
    (st : StepState) : Prop where
  counted : st.Counted
  budget_le : st.budgetUsed ≤ cfg.scheduler.maxNumScheduledTokens
  short : st.sched.Short H cfg added

theorem Moves.limited (hm : Moves H cfg (.decodeFits cfg) { sched := s } st) (hp : s.Partition)
    (hknown : s.Known added) (hor : ChainInjective H cfg.cache (added.map (·.promptTokens)) ∨
      ∀ q ∈ added, q.promptTokens.length ≤ cfg.maxModelLen)
    (h : s.Short H cfg added) : st.Limited H cfg added := by
  induction hm with
  | refl => exact ⟨⟨rfl, rfl⟩, Nat.zero_le _, h⟩
  | tail hms hm ih =>
    exact ⟨hm.counted (Moves.phased hms hp).1 ih.counted, hm.budget_le ih.budget_le,
      hm.short (Moves.known hms hknown) hor ih.short⟩

theorem ChainInjective.or_mono {added' : List InferenceRequest}
    (h : ChainInjective H cfg.cache (added'.map (·.promptTokens)) ∨
      ∀ q ∈ added', q.promptTokens.length ≤ cfg.maxModelLen) (hsub : ∀ q ∈ added, q ∈ added') :
    ChainInjective H cfg.cache (added.map (·.promptTokens)) ∨
      ∀ q ∈ added, q.promptTokens.length ≤ cfg.maxModelLen := by
  refine h.imp (fun h => h.mono fun p hp => ?_) fun h q hq => h q (hsub q hq)
  obtain ⟨q, hq, rfl⟩ := List.mem_map.mp hp
  exact List.mem_map_of_mem (hsub q hq)

theorem GuardedRun.short (h : GuardedRun H cfg (.decodeFits cfg) added s)
    (hor : ChainInjective H cfg.cache (added.map (·.promptTokens)) ∨
      ∀ q ∈ added, q.promptTokens.length ≤ cfg.maxModelLen) : s.Short H cfg added := by
  induction h with
  | new =>
    refine ⟨⟨fun id hs hhs => ?_, fun h hne => ?_⟩, fun id r hr => ?_⟩
    · cases hhs
    · exact absurd (BlockPool.listed_new h) hne
    · cases hr
  | @addRequest added s r _ _ ih =>
    have hsub : ∀ q ∈ added, q ∈ added ++ [r] := fun q hq => List.mem_append_left _ hq
    have hs := ih (ChainInjective.or_mono hor hsub)
    refine ⟨hs.cache.mono hsub, fun id r' hr' => ?_⟩
    rcases of_lookup_insert hr' with ⟨-, rfl⟩ | ⟨-, hr'⟩
    · exact Nat.zero_le _
    · exact hs.computed_le id r' hr'
  | abortRequest id _ ih =>
    refine ⟨(ih hor).cache.free id, fun i r hr => (ih hor).computed_le i r ?_⟩
    by_cases hi : i = id
    · subst hi
      simp [Scheduler.abortRequest] at hr
    · simpa [Scheduler.abortRequest, AList.lookup_erase_ne hi] using hr
  | @step _ s ord hrun hall ih =>
    unfold Scheduler.step
    split
    · exact ih hor
    · rename_i hpaused
      obtain ⟨hp, hknown⟩ := hrun.run.partition
      exact ((stepState_moves hp (by simpa using hpaused) ord hall).limited hp hknown hor
        (ih hor)).short
  | pause _ ih => exact ⟨(ih hor).cache, (ih hor).computed_le⟩
  | resume _ ih => exact ⟨(ih hor).cache, (ih hor).computed_le⟩
  | resetPrefixCache _ hr ih =>
    rw [Scheduler.resetPrefixCache_ok hr]
    exact ⟨⟨(ih hor).cache.hashes, fun h hne => absurd (BlockPool.listed_clearHashes h) hne⟩,
      (ih hor).computed_le⟩

/-- In a run whose decodes fit, every step stays within its limits. -/
theorem GuardedRun.withinLimits (H : HashFns) (cfg : Config) (added : List InferenceRequest)
    (s : Scheduler) (h : GuardedRun H cfg (.decodeFits cfg) added s)
    (hor : ChainInjective H cfg.cache (added.map (·.promptTokens)) ∨
      ∀ q ∈ added, q.promptTokens.length ≤ cfg.maxModelLen)
    (ord : HashOrder) (hall : s.StepAll H cfg (.decodeFits cfg) ord) :
    WithinLimits cfg (s.step H cfg ord).1 (s.step H cfg ord).2 := by
  obtain ⟨hp, hknown⟩ := h.run.partition
  cases hpaused : s.paused with
  | true =>
    rw [Scheduler.step, if_pos hpaused]
    exact ⟨rfl, rfl, Nat.zero_le _, (h.short hor).computed_le⟩
  | false =>
    rw [Scheduler.step_eq hpaused]
    obtain ⟨⟨h₁, h₂⟩, h₃, h₄⟩ := (stepState_moves hp hpaused ord hall).limited hp hknown hor
      (h.short hor)
    exact ⟨h₁, h₂, h₃, h₄.computed_le⟩

/-! ## Without speculation -/

/-- No tracked request speculates. -/
def Scheduler.Plain (s : Scheduler) : Prop :=
  ∀ id r, s.requests.lookup id = some r → r.request.samplingParams.specTokens = 0

theorem Scheduler.Plain.modifyRequest {id : RequestId} {f : SchedulerRequest → SchedulerRequest}
    (h : s.Plain) (hf : ∀ r, (f r).request = r.request) : (s.modifyRequest id f).Plain := by
  intro i r hr
  rw [Scheduler.lookup_modifyRequest] at hr
  split at hr
  · obtain ⟨r₀, hr₀, rfl⟩ := Option.map_eq_some_iff.mp hr
    rw [hf]
    exact h i r₀ hr₀
  · exact h i r hr

theorem StepState.runningIter_plain (h : st.sched.Plain) (id : RequestId) :
    (st.runningIter cfg id).sched.Plain := by
  unfold StepState.runningIter
  split
  · exact h
  · split
    · exact h.modifyRequest fun _ => rfl
    · dsimp only
      split
      · split
        · rw [StepState.scheduleDecode_sched]
          exact Scheduler.Plain.modifyRequest h fun _ => rfl
        · exact h
      · rw [StepState.scheduleDecode_sched]
        exact h.modifyRequest fun _ => rfl

theorem StepState.runningAll_of_plain (ids : List RequestId) (st : StepState) (h : st.sched.Plain) :
    st.RunningAll cfg (StepState.DecodeFits cfg) ids := by
  induction ids generalizing st with
  | nil => exact True.intro
  | cons id ids ih =>
    intro hb
    refine ⟨fun r hr hlen _ => ?_, ih _ (StepState.runningIter_plain h id)⟩
    rw [h id r hr]
    omega

theorem StepState.processFinished_requests (ord : HashOrder) (st : StepState) :
    (st.processFinished ord).sched.requests = st.sched.requests := by
  unfold StepState.processFinished
  refine List.foldlRecOn (motive := fun st' : StepState => st'.sched.requests = st.sched.requests)
    _ _ rfl fun st' h id _ => ?_
  exact h

theorem Scheduler.stepAll_of_plain (h : s.Plain) (ord : HashOrder) :
    s.StepAll H cfg (.decodeFits cfg) ord := by
  refine fun _ => ⟨fun _ _ _ _ => True.intro, StepState.runningAll_of_plain _ _ fun id r hr => ?_,
    StepState.waitingAll_of_forall (fun _ => True.intro) _ _⟩
  rw [StepState.processFinished_requests] at hr
  exact h id r hr

/-- Every run without speculation is a run whose decodes fit. -/
theorem SchedRun.guarded (h : SchedRun H cfg added s)
    (hspec : ∀ q ∈ added, q.samplingParams.specTokens = 0) :
    GuardedRun H cfg (.decodeFits cfg) added s := by
  induction h with
  | new => exact .new
  | addRequest r _ hfresh ih =>
    exact .addRequest r (ih fun q hq => hspec q (List.mem_append_left _ hq)) hfresh
  | abortRequest id _ ih => exact .abortRequest id (ih hspec)
  | step ord hrun ih =>
    refine .step ord (ih hspec) (Scheduler.stepAll_of_plain (fun id r hr => ?_) ord)
    exact hspec _ (hrun.partition.2 id r hr).1
  | pause _ ih => exact .pause (ih hspec)
  | resume _ ih => exact .resume (ih hspec)
  | resetPrefixCache _ hr ih => exact .resetPrefixCache (ih hspec) hr

/-- A request of two tokens is prefilled and decodes its first token. -/
theorem GuardedRun.withinLimits_small : WithinLimits (smallConfig 8 false)
    (((oneWaiting (smallConfig 8 false) (.new 8)).step smallHash (smallConfig 8 false) .id).2.step
      smallHash (smallConfig 8 false) .id).1
    (((oneWaiting (smallConfig 8 false) (.new 8)).step smallHash (smallConfig 8 false) .id).2.step
      smallHash (smallConfig 8 false) .id).2 := by
  have hrun : SchedRun smallHash (smallConfig 8 false) [smallRequest 1 [5, 6]]
      ((oneWaiting (smallConfig 8 false) (.new 8)).step smallHash (smallConfig 8 false) .id).2 :=
    .step .id (schedRun_oneWaiting _)
  have hspec : ∀ q ∈ [smallRequest 1 [5, 6]], q.samplingParams.specTokens = 0 := by
    intro q hq
    rw [List.mem_singleton.mp hq]
    rfl
  have hlen : ∀ q ∈ [smallRequest 1 [5, 6]],
      q.promptTokens.length ≤ (smallConfig 8 false).maxModelLen := by
    intro q hq
    rw [List.mem_singleton.mp hq]
    decide
  exact GuardedRun.withinLimits smallHash (smallConfig 8 false) _ _ (hrun.guarded hspec)
    (Or.inr hlen) .id (Scheduler.stepAll_of_plain
      (fun id r hr => hspec _ (hrun.partition.2 id r hr).1) .id)

/-- A request that proposes three tokens with every decode. -/
def draftingRequest (requestId : RequestId) (prompt : List Token) : InferenceRequest :=
  { smallRequest requestId prompt with samplingParams := { speculativeDecoding := some {} } }

/-- With a budget of one token a step, the first speculative decode takes four. -/
theorem SchedRun.not_withinLimits : ¬ ∀ (H : HashFns) (cfg : Config)
    (added : List InferenceRequest) (s : Scheduler), SchedRun H cfg added s → ∀ ord,
    WithinLimits cfg (s.step H cfg ord).1 (s.step H cfg ord).2 := by
  intro h
  let cfg : Config := { smallConfig 8 false with
    scheduler := { (smallConfig 8 false).scheduler with maxNumScheduledTokens := 1 } }
  have hle := (h smallHash cfg [draftingRequest 1 [5]] _
    (.step .id (.addRequest (draftingRequest 1 [5]) .new (by simp))) .id).used_le
  revert hle
  decide +kernel

end Rllm
