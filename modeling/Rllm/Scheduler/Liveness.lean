import Mathlib.Data.List.MinMax
import Rllm.Scheduler.Coverage

/-! # Progress of the admission

With nothing running, blocks are held by waiting requests only: those the
prefix cache has for their prompts, pinned when a request is looked up. A step
admits a request exactly when the blocks pinned for all of the waiting requests
leave enough for the next tokens of the one that reuses most.
-/

namespace Rllm

variable {H : HashFns} {cfg : Config} {n : ℕ}

namespace Scheduler

variable (H cfg)

/-- The cached blocks a waiting request holds, or would hold once it is looked up. -/
def reusable (s : Scheduler) (id : RequestId) : List BlockId :=
  match s.requests.lookup id with
  | none => []
  | some r =>
    if r.cachedBlockIds.isEmpty then
      (s.kvCacheManager.getComputedBlocks H cfg.cache id r.promptTokenIds
        r.request.samplingParams.skipReadingPrefixCache).1.cachedBlockIds
    else r.cachedBlockIds

def reusableTokens (s : Scheduler) (id : RequestId) : ℕ :=
  (s.reusable H cfg id).length * cfg.cache.blockSize

/-- The first of the waiting requests that reuse most; the first one of all without a prefix
cache. -/
def favourite (s : Scheduler) : Option RequestId :=
  if cfg.cache.enablePrefixCaching then s.waiting.ids.argmax (s.reusableTokens H cfg)
  else s.waiting.peek

/-- The favourite is cached as a whole, or the blocks of the waiting requests leave enough for its
next tokens. -/
def Roomy (s : Scheduler) : Prop :=
  ∀ id ∈ s.favourite H cfg, ∀ r ∈ s.requests.lookup id,
    r.promptTokenIds.length ≤ s.reusableTokens H cfg id ∨
    divCeil (StepState.prefillTokens cfg { sched := s } r.promptTokenIds.length
        (s.reusableTokens H cfg id)) cfg.cache.blockSize +
      (s.waiting.ids.flatMap (s.reusable H cfg)).dedup.length ≤ cfg.numCacheBlocks - 1

/-- Nothing runs, something waits, and every waiting prompt fits the model and the cache. -/
structure Startable (s : Scheduler) : Prop where
  unpaused : s.paused = false
  idle : s.running = []
  waits : s.waiting.ids ≠ []
  seqs : 1 ≤ cfg.scheduler.maxNumSeqs
  budget : 1 ≤ cfg.scheduler.maxNumScheduledTokens
  chunk : cfg.scheduler.enableChunkedPrefill = true → 1 ≤ cfg.scheduler.longPrefillTokenThreshold
  prompt : ∀ id ∈ s.waiting.ids, ∀ r ∈ s.requests.lookup id,
    1 ≤ r.promptTokenIds.length ∧ r.promptTokenIds.length ≤ cfg.maxModelLen ∧
      divCeil r.promptTokenIds.length cfg.cache.blockSize ≤ cfg.numCacheBlocks - 1

end Scheduler

/-! ## Lookups -/

theorem lookupBlocks_congr (hs : List BlockHash) {p p' : BlockPool} (h : p'.hashMap = p.hashMap) :
    (lookupBlocks hs p').1 = (lookupBlocks hs p).1 := by
  induction hs generalizing p p' with
  | nil => rfl
  | cons hash hs ih =>
    have hhead : ∀ q : BlockPool, (q.getCachedBlock hash).map Prod.fst =
        (q.hashMap.lookup hash).bind List.head? := by
      intro q
      unfold BlockPool.getCachedBlock
      cases hq : (q.hashMap.lookup hash).bind List.head? <;> rfl
    have hsame : (p'.getCachedBlock hash).map Prod.fst = (p.getCachedBlock hash).map Prod.fst := by
      rw [hhead, hhead, h]
    rw [lookupBlocks, lookupBlocks]
    cases hp : p.getCachedBlock hash with
    | none =>
      rw [hp, Option.map_none, Option.map_eq_none_iff] at hsame
      rw [hsame]
    | some x =>
      obtain ⟨b, q⟩ := x
      rw [hp, Option.map_some, Option.map_eq_some_iff] at hsame
      obtain ⟨⟨b', q'⟩, hp', rfl⟩ := hsame
      rw [hp']
      have hq : q'.hashMap = q.hashMap :=
        (hashMap_getCachedBlock hp').trans (h.trans (hashMap_getCachedBlock hp).symm)
      exact congrArg (b' :: ·) (ih hq)

theorem KVCacheManager.getComputedBlocks_congr {m m' : KVCacheManager} {c : CacheConfig}
    (h : m'.blockPool.hashMap = m.blockPool.hashMap) (rid : RequestId) (prompt : List Token)
    (skip : Bool) : (m'.getComputedBlocks H c rid prompt skip).1 =
      (m.getComputedBlocks H c rid prompt skip).1 := by
  unfold getComputedBlocks
  split
  · rfl
  · dsimp only
    rw [lookupBlocks_congr _ h]

namespace Scheduler

variable {s s' : Scheduler} {id i : RequestId}

theorem reusable_congr (hr : s'.requests.lookup i = s.requests.lookup i)
    (hm : s'.kvCacheManager.blockPool.hashMap = s.kvCacheManager.blockPool.hashMap) :
    s'.reusable H cfg i = s.reusable H cfg i := by
  unfold reusable
  rw [hr]
  split
  · rfl
  · rw [KVCacheManager.getComputedBlocks_congr hm]

theorem reusable_of_empty {r : SchedulerRequest} (hr : s.requests.lookup id = some r)
    (hc : r.cachedBlockIds = []) : s.reusable H cfg id =
      (s.kvCacheManager.getComputedBlocks H cfg.cache id r.promptTokenIds
        r.request.samplingParams.skipReadingPrefixCache).1.cachedBlockIds := by
  simp [reusable, hr, hc]

theorem reusable_of_held {r : SchedulerRequest} (hr : s.requests.lookup id = some r)
    (hc : r.cachedBlockIds ≠ []) : s.reusable H cfg id = r.cachedBlockIds := by
  simp [reusable, hr, hc]

theorem lookup_probe_self (cfg : Config) {r : SchedulerRequest}
    (hr : s.requests.lookup id = some r) (prompt : List Token) (skip : Bool) :
    (s.probe H cfg id prompt skip).2.requests.lookup id = some { r with
      cachedBlockIds :=
        (s.kvCacheManager.getComputedBlocks H cfg.cache id prompt skip).1.cachedBlockIds
      numComputedTokens :=
        (s.kvCacheManager.getComputedBlocks H cfg.cache id prompt skip).1.numComputedTokens } := by
  rw [lookup_probe, if_pos rfl, hr, Option.map_some]

theorem reusable_probe {r : SchedulerRequest} (hr : s.requests.lookup id = some r)
    (hc : r.cachedBlockIds = []) (i : RequestId) :
    (s.probe H cfg id r.promptTokenIds r.request.samplingParams.skipReadingPrefixCache).2.reusable
      H cfg i = s.reusable H cfg i := by
  have hm : (s.probe H cfg id r.promptTokenIds
      r.request.samplingParams.skipReadingPrefixCache).2.kvCacheManager.blockPool.hashMap =
      s.kvCacheManager.blockPool.hashMap := by
    rw [probe_kvCacheManager, KVCacheManager.hashMap_getComputedBlocks]
  by_cases hi : i = id
  · subst hi
    have hlook := lookup_probe_self (H := H) cfg hr r.promptTokenIds
      r.request.samplingParams.skipReadingPrefixCache
    rw [reusable_of_empty hr hc]
    by_cases hf : (s.kvCacheManager.getComputedBlocks H cfg.cache i r.promptTokenIds
        r.request.samplingParams.skipReadingPrefixCache).1.cachedBlockIds = []
    · rw [reusable_of_empty hlook hf]
      dsimp only
      rw [KVCacheManager.getComputedBlocks_congr hm]
    · rw [reusable_of_held hlook hf]
  · apply reusable_congr _ hm
    rw [lookup_probe, if_neg hi]

/-- A request that holds what it can reuse. -/
def Held (H : HashFns) (cfg : Config) (s : Scheduler) (i : RequestId) : Prop :=
  ∀ r, s.requests.lookup i = some r → r.cachedBlockIds = s.reusable H cfg i

/-- `s'` comes from `s` by looking waiting requests up. -/
structure Looked (H : HashFns) (cfg : Config) (n : ℕ) (s s' : Scheduler) : Prop where
  inv : Inv H cfg n s'
  waiting_eq : s'.waiting = s.waiting
  running_eq : s'.running = s.running
  reusable_eq : ∀ i, s'.reusable H cfg i = s.reusable H cfg i
  prompt_eq : ∀ i, (s'.requests.lookup i).map (·.promptTokenIds) =
    (s.requests.lookup i).map (·.promptTokenIds)
  held : ∀ i, Held H cfg s i → Held H cfg s' i

namespace Looked

theorem refl (h : Inv H cfg n s) : Looked H cfg n s s :=
  ⟨h, rfl, rfl, fun _ => rfl, fun _ => rfl, fun _ h => h⟩

theorem trans {s'' : Scheduler} (h : Looked H cfg n s s') (h' : Looked H cfg n s' s'') :
    Looked H cfg n s s'' where
  inv := h'.inv
  waiting_eq := h'.waiting_eq.trans h.waiting_eq
  running_eq := h'.running_eq.trans h.running_eq
  reusable_eq i := (h'.reusable_eq i).trans (h.reusable_eq i)
  prompt_eq i := (h'.prompt_eq i).trans (h.prompt_eq i)
  held i hi := h'.held i (h.held i hi)

theorem note (h : Looked H cfg n s s') (a : PrefixCacheAdmission) :
    Looked H cfg n s { s' with prefixCacheAdmission := a } where
  inv := h.inv.note a
  waiting_eq := h.waiting_eq
  running_eq := h.running_eq
  reusable_eq := h.reusable_eq
  prompt_eq := h.prompt_eq
  held := h.held

theorem reusableTokens_eq (h : Looked H cfg n s s') :
    s'.reusableTokens H cfg = s.reusableTokens H cfg := by
  funext i
  rw [reusableTokens, reusableTokens, h.reusable_eq]

theorem probe (h : Inv H cfg n s) (hid : id ∈ s.waiting.ids) {r : SchedulerRequest}
    (hr : s.requests.lookup id = some r) (hc : r.cachedBlockIds = []) :
    Looked H cfg n s (s.probe H cfg id r.promptTokenIds
      r.request.samplingParams.skipReadingPrefixCache).2 ∧
    Held H cfg (s.probe H cfg id r.promptTokenIds
      r.request.samplingParams.skipReadingPrefixCache).2 id := by
  have hheld : Held H cfg (s.probe H cfg id r.promptTokenIds
      r.request.samplingParams.skipReadingPrefixCache).2 id := by
    intro r' hr'
    rw [lookup_probe_self cfg hr] at hr'
    obtain rfl := Option.some.inj hr'
    rw [reusable_probe hr hc, reusable_of_empty hr hc]
  refine ⟨⟨h.probe hid hr hc, probe_waiting, probe_running, reusable_probe hr hc, fun i => ?_,
    fun i hi => ?_⟩, hheld⟩
  · rw [lookup_probe]
    split
    · rw [Option.map_map]
      rfl
    · rfl
  · by_cases he : i = id
    · exact he ▸ hheld
    · intro r' hr'
      rw [lookup_probe, if_neg he] at hr'
      rw [reusable_probe hr hc]
      exact hi r' hr'

end Looked

theorem Held.numComputed (hh : Held H cfg s id) (h : Inv H cfg n s) (hid : id ∈ s.waiting.ids)
    {r : SchedulerRequest} (hr : s.requests.lookup id = some r) :
    r.numComputedTokens = s.reusableTokens H cfg id := by
  rw [((h.each id).waiting hid r hr).computed_eq, hh r hr]
  rfl

theorem held_of_nonempty {r : SchedulerRequest} (hr : s.requests.lookup id = some r)
    (hc : r.cachedBlockIds ≠ []) : Held H cfg s id := by
  intro r' hr'
  obtain rfl : r = r' := Option.some.inj (hr.symm.trans hr')
  exact (reusable_of_held hr hc).symm

theorem Inv.lookup_waiting (h : Inv H cfg n s) (hid : id ∈ s.waiting.ids) :
    ∃ r, s.requests.lookup id = some r :=
  mem_requests_iff.mp ((h.partition.mem_requests id).mpr (Or.inl hid))

theorem selectLoop_cons (h : Inv H cfg n s) (hid : id ∈ s.waiting.ids) (ids : List RequestId)
    (best : RequestId) (bestCached : ℕ) : ∃ s₁, Looked H cfg n s s₁ ∧ Held H cfg s₁ id ∧
      selectLoop H cfg (id :: ids) best bestCached s =
        if bestCached < s.reusableTokens H cfg id then
          selectLoop H cfg ids id (s.reusableTokens H cfg id) s₁
        else selectLoop H cfg ids best bestCached s₁ := by
  obtain ⟨r, hr⟩ := h.lookup_waiting hid
  by_cases hc : r.cachedBlockIds = []
  · obtain ⟨hlook, hheld⟩ := Looked.probe h hid hr hc
    refine ⟨_, hlook, hheld, ?_⟩
    have hnum : (s.probe H cfg id r.promptTokenIds
        r.request.samplingParams.skipReadingPrefixCache).1 = s.reusableTokens H cfg id := by
      rw [probe_fst, KVCacheManager.getComputedBlocks_num, reusableTokens, reusable_of_empty hr hc]
    rw [selectLoop, hr]
    simp only [hc, List.isEmpty_nil, if_true, hnum]
  · have hheld : Held H cfg s id := held_of_nonempty hr hc
    refine ⟨s, .refl h, hheld, ?_⟩
    have hempty : r.cachedBlockIds.isEmpty = false := by simpa using hc
    rw [selectLoop, hr]
    simp only [hempty, Bool.false_eq_true, if_false, hheld.numComputed h hid hr]

theorem selectLoop_spec (h : Inv H cfg n s) {ids : List RequestId}
    (hsub : ∀ i ∈ ids, i ∈ s.waiting.ids) (best : RequestId) :
    ∃ best' s', selectLoop H cfg ids best (s.reusableTokens H cfg best) s =
        (best', s.reusableTokens H cfg best', s') ∧
      Looked H cfg n s s' ∧ (∀ i ∈ ids, Held H cfg s' i) ∧
      ids.foldl (List.argAux fun b c => s.reusableTokens H cfg c < s.reusableTokens H cfg b)
        (some best) = some best' := by
  induction ids generalizing s best with
  | nil => exact ⟨best, s, rfl, .refl h, by simp, rfl⟩
  | cons id ids ih =>
    obtain ⟨s₁, hlook, hheld, heq⟩ := selectLoop_cons h (hsub id List.mem_cons_self) ids best
      (s.reusableTokens H cfg best)
    have hsub₁ : ∀ i ∈ ids, i ∈ s₁.waiting.ids := by
      intro i hi
      rw [hlook.waiting_eq]
      exact hsub i (List.mem_cons_of_mem _ hi)
    have hnext : ∀ b, ∃ best' s', selectLoop H cfg ids b (s.reusableTokens H cfg b) s₁ =
          (best', s.reusableTokens H cfg best', s') ∧
        Looked H cfg n s s' ∧ (∀ i ∈ id :: ids, Held H cfg s' i) ∧
        ids.foldl (List.argAux fun b c => s.reusableTokens H cfg c < s.reusableTokens H cfg b)
          (some b) = some best' := by
      intro b
      obtain ⟨best', s', hs', hl', hh', hf'⟩ := ih hlook.inv hsub₁ b
      rw [hlook.reusableTokens_eq] at hs' hf'
      refine ⟨best', s', hs', hlook.trans hl', fun i hi => ?_, hf'⟩
      rcases List.mem_cons.mp hi with rfl | hi
      · exact hl'.held i hheld
      · exact hh' i hi
    rw [heq, List.foldl_cons]
    by_cases hlt : s.reusableTokens H cfg best < s.reusableTokens H cfg id
    · simp only [List.argAux, hlt, if_true]
      exact hnext id
    · simp only [List.argAux, hlt, if_false]
      exact hnext best

theorem held_of_disabled (hd : cfg.cache.enablePrefixCaching = false) (s : Scheduler)
    (i : RequestId) : Held H cfg s i := by
  intro r hr
  by_cases hc : r.cachedBlockIds = []
  · rw [reusable_of_empty hr hc, hc]
    simp [KVCacheManager.getComputedBlocks, hd]
  · exact (reusable_of_held hr hc).symm

/-- The selection finds the favourite, and every waiting request then holds what it can reuse. -/
theorem selectWaitingRequest_spec (h : Inv H cfg n s) (hw : s.waiting.ids ≠ []) :
    ∃ id s', s.selectWaitingRequest H cfg = (some id, s') ∧ s.favourite H cfg = some id ∧
      id ∈ s.waiting.ids ∧ Looked H cfg n s s' ∧ ∀ i ∈ s.waiting.ids, Held H cfg s' i := by
  obtain ⟨first, rest, hids⟩ := List.exists_cons_of_ne_nil hw
  have hpeek : s.waiting.peek = some first := by rw [RequestQueue.peek, hids]; rfl
  have hfirst : first ∈ s.waiting.ids := RequestQueue.mem_ids_of_peek hpeek
  have hlook₀ := (Looked.refl h).note ⟨some first, 0⟩
  unfold selectWaitingRequest favourite
  simp only [hpeek]
  by_cases he : cfg.cache.enablePrefixCaching = true
  · simp only [he, Bool.not_true, Bool.false_eq_true, if_false, if_true]
    obtain ⟨r, hr⟩ := h.lookup_waiting hfirst
    rw [hr, Option.map_some, Option.getD_some, hids]
    obtain ⟨s₁, hlook₁, hheld₁, hcons⟩ := selectLoop_cons hlook₀.inv hfirst rest first
      r.numComputedTokens
    have hlook := hlook₀.trans hlook₁
    have hle : r.numComputedTokens ≤ s.reusableTokens H cfg first := by
      by_cases hc : r.cachedBlockIds = []
      · rw [((h.each first).waiting hfirst r hr).computed_eq, hc]
        simp
      · exact ((held_of_nonempty hr hc).numComputed h hfirst hr).le
    have hstart : selectLoop H cfg (first :: rest) first r.numComputedTokens
        { s with prefixCacheAdmission := ⟨some first, 0⟩ } =
        selectLoop H cfg rest first (s₁.reusableTokens H cfg first) s₁ := by
      rw [hcons, hlook.reusableTokens_eq, hlook₀.reusableTokens_eq]
      split
      · rfl
      · rw [show r.numComputedTokens = s.reusableTokens H cfg first by omega]
    have hsub : ∀ i ∈ rest, i ∈ s₁.waiting.ids := by
      intro i hi
      rw [hlook.waiting_eq, hids]
      exact List.mem_cons_of_mem _ hi
    obtain ⟨best, s₂, hloop, hlook₂, hheld₂, hfold⟩ := selectLoop_spec hlook.inv hsub first
    rw [hlook.reusableTokens_eq] at hfold
    have hmax : List.argmax (s.reusableTokens H cfg) (first :: rest) = some best := hfold
    rw [hstart, hloop]
    refine ⟨best, _, rfl, hmax, ?_, (hlook.trans hlook₂).note _, fun i hi => ?_⟩
    · exact List.argmax_mem hmax
    · rcases List.mem_cons.mp hi with rfl | hi
      · exact hlook₂.held i hheld₁
      · exact hheld₂ i hi
  · have hd : cfg.cache.enablePrefixCaching = false := by simpa using he
    simp only [hd, Bool.not_false, if_true, Bool.false_eq_true, if_false]
    exact ⟨first, _, rfl, rfl, hfirst, hlook₀, fun i _ => held_of_disabled hd _ i⟩

/-! ## Free blocks -/

theorem Inv.numFree_add (h : Inv H cfg n s) (hrun : s.running = []) :
    s.kvCacheManager.blockPool.numFree +
      (s.waiting.ids.flatMap s.kvCacheManager.table).dedup.length = n - 1 := by
  obtain ⟨l, hl⟩ := h.kv.pool.rep
  have hheld : ∀ b, b ∈ (s.waiting.ids.flatMap s.kvCacheManager.table).dedup ↔
      0 < s.kvCacheManager.blockPool.refs b := by
    intro b
    rw [List.mem_dedup, List.mem_flatMap, h.kv.refs_eq, h.occ_eq, hrun, List.append_nil,
      List.sum_pos_iff_exists_pos_nat]
    simp only [List.mem_map, exists_exists_and_eq_and, List.count_pos_iff]
  have hperm : (l ++ (s.waiting.ids.flatMap s.kvCacheManager.table).dedup).Perm
      (List.range' 1 (n - 1)) := by
    refine (List.perm_ext_iff_of_nodup ?_ (List.nodup_range')).mpr fun b => ?_
    · refine List.nodup_append.mpr ⟨hl.queue.linked.nodup, List.nodup_dedup _, ?_⟩
      rintro a ha b hb rfl
      have hz := ((hl.mem_iff a).mp ha).2.2
      have hpos := (hheld a).mp hb
      omega
    · rw [List.mem_append, hl.mem_iff, hheld, List.mem_range'_1]
      constructor
      · rintro (⟨hlt, hne, -⟩ | hpos)
        · omega
        · obtain ⟨id, -, hmem⟩ := List.mem_flatMap.mp (List.mem_dedup.mp ((hheld b).mpr hpos))
          obtain ⟨h₁, h₂, -⟩ : 0 < b ∧ b < n ∧ _ := h.kv.mem_table hmem
          omega
      · rintro ⟨h₁, h₂⟩
        by_cases hz : s.kvCacheManager.blockPool.refs b = 0
        · exact Or.inl ⟨by omega, by omega, hz⟩
        · exact Or.inr (Nat.pos_of_ne_zero hz)
  rw [hl.numFree_eq, ← List.length_append, hperm.length_eq, List.length_range']

/-! ## The step -/

theorem cachedOf_spec (st : StepState) (h : Inv H cfg n s) (hid : id ∈ s.waiting.ids)
    (hheld : ∀ i ∈ s.waiting.ids, Held H cfg s i) :
    ∃ s', StepState.cachedOf H cfg { st with sched := s } id =
        (s.reusableTokens H cfg id, { st with sched := s' }) ∧
      Looked H cfg n s s' ∧ ∀ i ∈ s.waiting.ids, Held H cfg s' i := by
  obtain ⟨r, hr⟩ := h.lookup_waiting hid
  unfold StepState.cachedOf
  simp only [hr, Option.map_some, Option.getD_some]
  split
  · rename_i hc
    have hc' : r.cachedBlockIds = [] := by simpa using ((Bool.and_eq_true _ _).mp hc).2
    obtain ⟨hlook, -⟩ := Looked.probe h hid hr hc'
    refine ⟨_, ?_, hlook, fun i hi => hlook.held i (hheld i hi)⟩
    rw [reusableTokens, reusable_of_empty hr hc', ← KVCacheManager.getComputedBlocks_num]
    rfl
  · rw [(hheld id hid).numComputed h hid hr]
    exact ⟨s, rfl, .refl h, hheld⟩

theorem Looked.numFree_add (h : Looked H cfg n s s') (hrun : s.running = [])
    (hheld : ∀ i ∈ s.waiting.ids, Held H cfg s' i) :
    s'.kvCacheManager.blockPool.numFree +
      (s.waiting.ids.flatMap (s.reusable H cfg)).dedup.length = n - 1 := by
  rw [← h.inv.numFree_add (h.running_eq.trans hrun), h.waiting_eq]
  congr 3
  apply List.flatMap_congr
  intro i hi
  have hi' : i ∈ s'.waiting.ids := h.waiting_eq ▸ hi
  obtain ⟨r, hr⟩ := h.inv.lookup_waiting hi'
  rw [((h.inv.each i).waiting hi' r hr).table_eq, hheld i hi r hr, h.reusable_eq]

theorem Looked.lookup (h : Looked H cfg n s s') {r : SchedulerRequest}
    (hr : s.requests.lookup id = some r) :
    ((s'.requests.lookup id).map (·.promptTokenIds.length)).getD 0 = r.promptTokenIds.length := by
  have hp := congrArg (Option.map List.length) (h.prompt_eq id)
  rw [hr, Option.map_map, Option.map_some, Option.map_some] at hp
  rw [show (s'.requests.lookup id).map (·.promptTokenIds.length) =
    some r.promptTokenIds.length from hp]
  rfl

end Scheduler

theorem Scheduler.Startable.prefillTokens_pos {s : Scheduler} {st : StepState}
    (hs : s.Startable cfg) (hb : st.budgetUsed = 0) {promptLen numCached : ℕ}
    (hlt : numCached < promptLen) (hlen : promptLen ≤ cfg.maxModelLen) :
    0 < st.prefillTokens cfg promptLen numCached := by
  have hbud := hs.budget
  unfold StepState.prefillTokens
  dsimp only
  split
  · rename_i hchunk
    have hthreshold := hs.chunk hchunk
    omega
  · omega

/-- What the first iteration of the admission loop does: it admits a request if there is room for
the next tokens of the favourite, and ends the loop if there is not. -/
theorem StepState.waitingIter_roomy {st : StepState}
    (h : st.sched.Inv H cfg (max cfg.numCacheBlocks 1)) (hs : st.sched.Startable cfg)
    (hb : st.budgetUsed = 0) (ho : st.output.NoAdmission) :
    (∃ st', st.waitingIter H cfg = .yield st' ∧ ¬ st'.output.NoAdmission ∧
      st.sched.Roomy H cfg) ∨
    ∃ st', st.waitingIter H cfg = .done st' ∧ st'.output.NoAdmission ∧
      ¬ st.sched.Roomy H cfg := by
  obtain ⟨id, s₁, hsel, hfav, hid, hlook₁, hheld₁⟩ :=
    Scheduler.selectWaitingRequest_spec h hs.waits
  have hid₁ : id ∈ s₁.waiting.ids := by rw [hlook₁.waiting_eq]; exact hid
  obtain ⟨s₂, hcached, hlook₂, hheld₂⟩ := Scheduler.cachedOf_spec st hlook₁.inv hid₁
    (by rw [hlook₁.waiting_eq]; exact hheld₁)
  have hlook := hlook₁.trans hlook₂
  rw [hlook₁.waiting_eq] at hheld₂
  rw [hlook₁.reusableTokens_eq] at hcached
  obtain ⟨r, hr⟩ := h.lookup_waiting hid
  obtain ⟨hpos, hlen, -⟩ := hs.prompt id hid r hr
  have hfree := hlook.numFree_add hs.idle hheld₂
  have hroomy : st.sched.Roomy H cfg ↔
      r.promptTokenIds.length ≤ st.sched.reusableTokens H cfg id ∨
      divCeil (StepState.prefillTokens cfg { sched := st.sched } r.promptTokenIds.length
          (st.sched.reusableTokens H cfg id)) cfg.cache.blockSize +
        (st.sched.waiting.ids.flatMap (st.sched.reusable H cfg)).dedup.length ≤
          cfg.numCacheBlocks - 1 := by
    simp [Scheduler.Roomy, hfav, hr]
  have hseq : ¬ cfg.scheduler.maxNumSeqs ≤ st.sched.running.length := by
    rw [hs.idle]
    have := hs.seqs
    simp only [List.length_nil]
    omega
  unfold StepState.waitingIter
  rw [if_neg hseq, hsel]
  dsimp only
  unfold StepState.admitSelected
  rw [hcached]
  dsimp only
  rw [hlook.lookup hr]
  have htok : StepState.prefillTokens cfg { st with sched := s₂ } r.promptTokenIds.length
      (st.sched.reusableTokens H cfg id) = StepState.prefillTokens cfg { sched := st.sched }
        r.promptTokenIds.length (st.sched.reusableTokens H cfg id) := by
    unfold StepState.prefillTokens
    rw [hb]
  rw [htok]
  split
  · rename_i hz
    left
    refine ⟨_, rfl, ?_, hroomy.mpr (Or.inl (by omega))⟩
    simp [StepState.admitCached, SchedulerOutput.NoAdmission]
  · rename_i hz
    have hpos' : 0 < StepState.prefillTokens cfg { sched := st.sched } r.promptTokenIds.length
        (st.sched.reusableTokens H cfg id) := hs.prefillTokens_pos rfl (by omega) hlen
    rw [if_neg hpos'.ne']
    generalize StepState.prefillTokens cfg { sched := st.sched } r.promptTokenIds.length
      (st.sched.reusableTokens H cfg id) = tokens at hroomy hpos'
    have halloc : (s₂.kvCacheManager.allocateSlots cfg.cache id
        (st.sched.reusableTokens H cfg id + tokens) (st.sched.reusableTokens H cfg id)).1.isSome ↔
        divCeil tokens cfg.cache.blockSize ≤ s₂.kvCacheManager.blockPool.numFree := by
      rw [hlook.inv.kv.allocateSlots_isSome, Nat.add_sub_cancel_left]
    cases ha : s₂.kvCacheManager.allocateSlots cfg.cache id
        (st.sched.reusableTokens H cfg id + tokens) (st.sched.reusableTokens H cfg id) with
    | mk got kv =>
      rw [ha] at halloc
      cases got with
      | none =>
        right
        refine ⟨_, rfl, ho, ?_⟩
        simp only [Option.isSome_none, Bool.false_eq_true, false_iff, not_le] at halloc
        rw [hroomy]
        omega
      | some bs =>
        left
        simp only [Option.isSome_some, true_iff] at halloc
        refine ⟨_, rfl, ?_, hroomy.mpr (Or.inr (by omega))⟩
        rw [admitNew_output]
        simp [SchedulerOutput.NoAdmission]

/-! ## The requests that are finished already -/

/-- What holds of the entry of every waiting request. -/
def Scheduler.EveryWaiting (P : SchedulerRequest → Prop) (s : Scheduler) : Prop :=
  ∀ id ∈ s.waiting.ids, ∀ r, s.requests.lookup id = some r → P r

/-- A property that an entry has when its request starts over, and that lookups keep. -/
structure Scheduler.KeptWaiting (H : HashFns) (cfg : Config) (P : SchedulerRequest → Prop) :
    Prop where
  fresh : ∀ r : SchedulerRequest,
    P { r with status := .waiting, numComputedTokens := 0, cachedBlockIds := [] }
  probe : cfg.cache.enablePrefixCaching = true → ∀ (m : KVCacheManager) (id : RequestId)
    (r : SchedulerRequest), P r → P { r with
      cachedBlockIds := (m.getComputedBlocks H cfg.cache id r.promptTokenIds
        r.request.samplingParams.skipReadingPrefixCache).1.cachedBlockIds
      numComputedTokens := (m.getComputedBlocks H cfg.cache id r.promptTokenIds
        r.request.samplingParams.skipReadingPrefixCache).1.numComputedTokens }

/-- No waiting request is marked finished. -/
def Scheduler.Queueing (s : Scheduler) : Prop :=
  ∀ id ∈ s.waiting.ids, ∀ r, s.requests.lookup id = some r → r.status.isFinished = false

section Queueing

variable {K : Guards} {st st' : StepState} {s : Scheduler} {added : List InferenceRequest}
  {P : SchedulerRequest → Prop}

theorem Scheduler.EveryWaiting.modifyRequest {id : RequestId}
    {f : SchedulerRequest → SchedulerRequest} (h : s.EveryWaiting P) (hid : id ∉ s.waiting.ids) :
    (s.modifyRequest id f).EveryWaiting P := by
  intro i hi r hr
  rw [Scheduler.modifyRequest_waiting] at hi
  rw [Scheduler.lookup_modifyRequest, if_neg fun he : i = id => hid (he ▸ hi)] at hr
  exact h i hi r hr

theorem Move.everyWaiting (hP : Scheduler.KeptWaiting H cfg P) (hm : Move H cfg K st st')
    (hp : st.sched.Partition) (h : st.sched.EveryWaiting P) : st'.sched.EveryWaiting P := by
  have hrunning : ∀ {i : RequestId}, i ∈ st.sched.running → i ∉ st.sched.waiting.ids :=
    fun hr hw => hp.not_running _ hw hr
  cases hm with
  | finish =>
    intro i hi r hr
    exact h i (RequestQueue.mem_ids_remove.mp hi).1 r hr
  | markLength _ hid => exact h.modifyRequest (hrunning hid)
  | decode _ hid =>
    rw [StepState.scheduleDecode_sched]
    exact h.modifyRequest (hrunning hid)
  | decodeGrow _ hid =>
    rw [StepState.scheduleDecode_sched]
    exact Scheduler.EveryWaiting.modifyRequest (s := (st.setKV _).sched) h (hrunning hid)
  | starve | note | admitFail => exact h
  | @preempt id hid =>
    intro i hi r hr
    simp only [StepState.preemptOne, Scheduler.preemptRequest] at hi hr
    split at hr
    · rename_i r₀ hr₀
      rcases of_lookup_insert hr with ⟨-, rfl⟩ | ⟨hne, hr⟩
      · exact hP.fresh r₀
      · simp only [hr₀, RequestQueue.mem_ids_push] at hi
        exact h i (hi.resolve_right hne) r hr
    · rename_i hr₀
      simp only [hr₀] at hi
      exact h i hi r hr
  | probe _ _ _ hr₀ _ he =>
    intro i hi r hr
    rw [Scheduler.probe_waiting] at hi
    rw [Scheduler.lookup_probe] at hr
    split at hr
    · rename_i hid
      subst hid
      rw [hr₀] at hr
      obtain rfl := Option.some.inj hr
      exact hP.probe he _ _ _ (h i hi _ hr₀)
    · exact h i hi r hr
  | admitCached =>
    intro i hi r hr
    rw [StepState.admitCached_waiting, RequestQueue.mem_ids_remove] at hi
    rw [StepState.admitCached_lookup, if_neg hi.2] at hr
    exact h i hi.1 r hr
  | admitNew =>
    intro i hi r hr
    rw [StepState.admitNew_waiting, RequestQueue.mem_ids_remove] at hi
    rw [StepState.admitNew_lookup, if_neg hi.2] at hr
    exact h i hi.1 r hr

theorem Moves.everyWaiting (hP : Scheduler.KeptWaiting H cfg P) (hm : Moves H cfg K st st')
    (hp : st.sched.Partition) (h : st.sched.EveryWaiting P) : st'.sched.EveryWaiting P := by
  induction hm with
  | refl => exact h
  | tail hms hm ih => exact hm.everyWaiting hP (Moves.partition hms hp) ih

theorem SchedRun.everyWaiting (hP : Scheduler.KeptWaiting H cfg P) (h : SchedRun H cfg added s) :
    s.EveryWaiting P := by
  induction h with
  | new => exact fun id hid => by cases hid
  | addRequest r _ _ ih =>
    intro id hid r' hr'
    simp only [Scheduler.addRequest, RequestQueue.mem_ids_push] at hid hr'
    rcases of_lookup_insert hr' with ⟨-, rfl⟩ | ⟨hne, hr'⟩
    · exact hP.fresh ⟨r, r.promptTokens, 0, [], .waiting⟩
    · exact ih id (hid.resolve_right hne) r' hr'
  | abortRequest i _ ih =>
    intro id hid r hr
    simp only [Scheduler.abortRequest, RequestQueue.mem_ids_remove] at hid hr
    rw [AList.lookup_erase_ne hid.2] at hr
    exact ih id hid.1 r hr
  | @step _ s ord hrun ih =>
    unfold Scheduler.step
    split
    · exact ih
    · rename_i hp
      exact (stepState_moves hrun.partition.1 (by simpa using hp) ord
        (Scheduler.stepAll_any ord s)).everyWaiting hP hrun.partition.1 ih
  | pause _ ih => exact ih
  | resume _ ih => exact ih
  | resetPrefixCache _ hr ih =>
    rw [Scheduler.resetPrefixCache_ok hr]
    exact ih

theorem Scheduler.keptWaiting_unfinished :
    Scheduler.KeptWaiting H cfg fun r => r.status.isFinished = false :=
  ⟨fun _ => rfl, fun _ _ _ _ h => h⟩

theorem SchedRun.queueing (h : SchedRun H cfg added s) : s.Queueing :=
  h.everyWaiting Scheduler.keptWaiting_unfinished

end Queueing

namespace Scheduler

variable {s : Scheduler} {id : RequestId}

theorem Looked.finish (h : Inv H cfg n s) (hid : id ∈ s.requests) (hw : id ∉ s.waiting.ids)
    (hr : id ∉ s.running) : Looked H cfg n s (s.finishRequestInternal id) := by
  have hview := (h.each id).idle hw hr
  have hpool : (s.kvCacheManager.free id).blockPool = s.kvCacheManager.blockPool := by
    have htable : s.kvCacheManager.table id = [] := congrArg Prod.fst hview
    unfold KVCacheManager.free
    dsimp only
    split
    · rename_i blocks hblocks
      rw [KVCacheManager.table, hblocks] at htable
      obtain rfl : blocks = [] := htable
      rfl
    · rfl
  have hqueue : s.waiting.remove id = s.waiting := by
    have hentries : s.waiting.entries.filter (fun x => x.1 ≠ id) = s.waiting.entries := by
      rw [List.filter_eq_self]
      rintro x hx
      rw [decide_eq_true_eq]
      rintro rfl
      exact hw (List.mem_map_of_mem hx)
    unfold RequestQueue.remove
    congr
  have hrun : s.running.filter (· ≠ id) = s.running := by
    rw [List.filter_eq_self]
    rintro x hx
    rw [decide_eq_true_eq]
    rintro rfl
    exact hr hx
  have hreuse : ∀ i, (s.finishRequestInternal id).reusable H cfg i = s.reusable H cfg i := fun i =>
    reusable_congr rfl (congrArg BlockPool.hashMap hpool)
  refine ⟨h.finishRequestInternal hid, hqueue, hrun, hreuse, fun _ => rfl, fun i hi r hr => ?_⟩
  rw [hreuse]
  exact hi r hr

end Scheduler

/-- A state that a step starts its admissions from, when nothing runs. -/
structure StepState.Opening (H : HashFns) (cfg : Config) (n : ℕ) (s : Scheduler) (st : StepState) :
    Prop where
  looked : Scheduler.Looked H cfg n s st.sched
  requests_eq : st.sched.requests = s.requests
  paused_eq : st.sched.paused = s.paused
  noAdmission : st.output.NoAdmission
  budget : st.budgetUsed = 0
  toPreempt : st.toPreempt = []

theorem StepState.processFinished_idle {s : Scheduler} (h : s.Inv H cfg n) (hq : s.Queueing)
    (hrun : s.running = []) (ord : HashOrder) :
    (StepState.processFinished { sched := s } ord).Opening H cfg n s := by
  suffices hs : ∀ (ids : List RequestId) (st : StepState),
      (∀ id ∈ ids, id ∈ s.requests ∧ id ∉ s.waiting.ids) → st.Opening H cfg n s →
      (ids.foldl finishOne st).Opening H cfg n s by
    refine hs _ { sched := s } (fun id hid => ?_) ⟨.refl h, rfl, rfl, ⟨rfl, rfl⟩, rfl, rfl⟩
    obtain ⟨-, hfin⟩ := List.mem_filter.mp hid
    obtain ⟨r, hr, hf⟩ := Option.any_eq_true _ _ |>.mp hfin
    refine ⟨Scheduler.mem_requests_iff.mpr ⟨r, hr⟩, fun hw => ?_⟩
    rw [hq id hw r hr] at hf
    cases hf
  intro ids
  induction ids with
  | nil => exact fun st _ h => h
  | cons id ids ih =>
    intro st hids hst
    obtain ⟨hid, hw⟩ := hids id List.mem_cons_self
    have hlook : Scheduler.Looked H cfg n s (st.finishOne id).sched := by
      apply hst.looked.trans
      apply Scheduler.Looked.finish hst.looked.inv (hst.requests_eq ▸ hid)
      · rw [hst.looked.waiting_eq]
        exact hw
      · rw [hst.looked.running_eq, hrun]
        exact List.not_mem_nil
    exact ih (st.finishOne id) (fun i hi => hids i (List.mem_cons_of_mem _ hi))
      ⟨hlook, hst.requests_eq, hst.paused_eq, hst.noAdmission, hst.budget, hst.toPreempt⟩

section Opening

variable {s : Scheduler} {st st' : StepState} {K : Guards}

theorem StepState.Opening.startable (h : st.Opening H cfg n s) (hs : s.Startable cfg) :
    st.sched.Startable cfg where
  unpaused := h.paused_eq.trans hs.unpaused
  idle := h.looked.running_eq.trans hs.idle
  waits := by
    rw [h.looked.waiting_eq]
    exact hs.waits
  seqs := hs.seqs
  budget := hs.budget
  chunk := hs.chunk
  prompt := by
    rw [h.looked.waiting_eq, h.requests_eq]
    exact hs.prompt

theorem StepState.Opening.roomy_iff (h : st.Opening H cfg n s) :
    st.sched.Roomy H cfg ↔ s.Roomy H cfg := by
  have hreuse : st.sched.reusable H cfg = s.reusable H cfg := funext h.looked.reusable_eq
  have htok : ∀ a b, StepState.prefillTokens cfg { sched := st.sched } a b =
      StepState.prefillTokens cfg { sched := s } a b := fun _ _ => rfl
  unfold Scheduler.Roomy Scheduler.favourite
  rw [h.looked.reusableTokens_eq, h.looked.waiting_eq, h.requests_eq, hreuse]
  simp only [htok]

theorem Move.admitted (hm : Move H cfg K st st') (h : ¬ st.output.NoAdmission) :
    ¬ st'.output.NoAdmission := by
  cases hm with
  | finish _ _ _ _ _ ho => exact absurd ho h
  | markLength _ _ _ _ _ _ ho => exact absurd ho h
  | decode _ _ _ _ _ _ _ _ _ ho => exact absurd ho h
  | decodeGrow _ _ _ _ _ _ _ _ _ _ ho => exact absurd ho h
  | starve _ _ _ _ _ _ _ _ _ ho => exact absurd ho h
  | preempt _ _ _ ho => exact absurd ho h
  | note | probe | admitFail => exact h
  | admitCached => simp [StepState.admitCached, SchedulerOutput.NoAdmission]
  | admitNew =>
    rw [admitNew_output]
    simp [SchedulerOutput.NoAdmission]

theorem Moves.admitted (hm : Moves H cfg K st st') (h : ¬ st.output.NoAdmission) :
    ¬ st'.output.NoAdmission := by
  induction hm with
  | refl => exact h
  | tail _ hm ih => exact hm.admitted ih

end Opening

/-- In a reachable state from which a step could start, the step admits a request if and only if
the waiting requests leave room for the favourite. -/
theorem SchedRun.admits_iff (H : HashFns) (cfg : Config) (hle : cfg.numCacheBlocks ≤ 2 ^ 32)
    (added : List InferenceRequest) (s : Scheduler) (h : SchedRun H cfg added s)
    (hs : s.Startable cfg) (ord : HashOrder) :
    (s.step H cfg ord).1.scheduledNew ≠ [] ∨ (s.step H cfg ord).1.scheduledCached ≠ [] ↔
      s.Roomy H cfg := by
  obtain ⟨st₁, hst₁⟩ : ∃ st₁, st₁ = StepState.processFinished { sched := s } ord := ⟨_, rfl⟩
  have hopen := StepState.processFinished_idle (h.inv hle).1 h.queueing hs.idle ord
  rw [← hst₁] at hopen
  have hs₁ := hopen.startable hs
  have hdecode : st₁.scheduleRunning cfg = st₁ := by
    unfold StepState.scheduleRunning
    rw [hs₁.idle, StepState.runningLoop]
    dsimp only
    rw [hopen.toPreempt]
    rfl
  have hstate : s.stepState H cfg ord =
      st₁.waitingLoop H cfg (st₁.sched.waiting.len + 1) := by
    rw [Scheduler.stepState, ← hst₁, hdecode, StepState.scheduleWaiting]
  have hcan : st₁.canAdmit cfg = true := by
    have hb := hs.budget
    have hne : st₁.sched.waiting.isEmpty = false := by
      rw [Bool.eq_false_iff, ne_eq, RequestQueue.isEmpty_iff]
      exact hs₁.waits
    simp only [StepState.canAdmit, hne, hopen.budget, Bool.not_false, Bool.true_and,
      decide_eq_true_eq]
    omega
  have hgoal : ((s.step H cfg ord).1.scheduledNew ≠ [] ∨
      (s.step H cfg ord).1.scheduledCached ≠ []) ↔
      ¬ (st₁.waitingLoop H cfg (st₁.sched.waiting.len + 1)).output.NoAdmission := by
    rw [Scheduler.step_eq hs.unpaused, ← hstate, SchedulerOutput.NoAdmission, not_and_or]
    rfl
  rw [hgoal, ← hopen.roomy_iff, StepState.waitingLoop, if_pos hcan]
  rcases StepState.waitingIter_roomy hopen.looked.inv hs₁ hopen.budget hopen.noAdmission with
    ⟨st₂, hiter, hadm, hroomy⟩ | ⟨st₂, hiter, hadm, hroomy⟩
  · rw [hiter]
    have hmoves : Moves H cfg .any st₁ st₂ := waitingIter_moves (fun _ => True.intro)
      hopen.looked.inv.partition (by rw [hopen.budget]; exact hs.budget) (Or.inr hiter)
    have hrest : Moves H cfg .any st₂ (st₂.waitingLoop H cfg st₁.sched.waiting.len) :=
      waitingLoop_moves (hmoves.partition hopen.looked.inv.partition)
      (StepState.waitingAll_of_forall (fun _ => True.intro) _ st₂)
    exact iff_of_true (hrest.admitted hadm) hroomy
  · rw [hiter]
    exact iff_of_false (not_not.mpr hadm) hroomy

instance (cfg : Config) (s : Scheduler) : Decidable (s.Startable cfg) :=
  decidable_of_iff (s.paused = false ∧ s.running = [] ∧ s.waiting.ids ≠ [] ∧
    1 ≤ cfg.scheduler.maxNumSeqs ∧ 1 ≤ cfg.scheduler.maxNumScheduledTokens ∧
    (cfg.scheduler.enableChunkedPrefill = true → 1 ≤ cfg.scheduler.longPrefillTokenThreshold) ∧
    ∀ id ∈ s.waiting.ids, ∀ r ∈ s.requests.lookup id,
      1 ≤ r.promptTokenIds.length ∧ r.promptTokenIds.length ≤ cfg.maxModelLen ∧
        divCeil r.promptTokenIds.length cfg.cache.blockSize ≤ cfg.numCacheBlocks - 1)
    ⟨fun ⟨h₁, h₂, h₃, h₄, h₅, h₆, h₇⟩ => ⟨h₁, h₂, h₃, h₄, h₅, h₆, h₇⟩,
      fun ⟨h₁, h₂, h₃, h₄, h₅, h₆, h₇⟩ => ⟨h₁, h₂, h₃, h₄, h₅, h₆, h₇⟩⟩

theorem SchedRun.admits_small : ((Scheduler.new (smallConfig 5 true)).addRequest
    (smallConfig 5 true) (smallRequest 1 [5, 6])).Roomy smallHash (smallConfig 5 true) :=
  (SchedRun.admits_iff smallHash (smallConfig 5 true) (by decide) [smallRequest 1 [5, 6]] _
    (.addRequest _ .new (by simp)) (by decide +kernel) .id).mp (Or.inl (by decide +kernel))

/-- Serve a request and abort it, so that its blocks stay registered. -/
def serveOnce (cfg : Config) (s : Scheduler) (r : InferenceRequest) : Scheduler :=
  (((s.addRequest cfg r).step smallHash cfg .id).2).abortRequest r.requestId

theorem SchedRun.serveOnce {cfg : Config} {added : List InferenceRequest} {s : Scheduler}
    (h : SchedRun smallHash cfg added s) (r : InferenceRequest)
    (hfresh : r.requestId ∉ added.map (·.requestId)) :
    SchedRun smallHash cfg (added ++ [r]) (Rllm.serveOnce cfg s r) :=
  .abortRequest _ (.step _ (.addRequest r h hfresh))

/-- Two requests for four of the four blocks each, of which two are registered: looked up
together, they pin all of the blocks. -/
def pinned : Scheduler :=
  ((serveOnce (smallConfig 5 true) (serveOnce (smallConfig 5 true) (.new (smallConfig 5 true))
    (smallRequest 1 [1, 2])) (smallRequest 2 [3, 4])).addRequest (smallConfig 5 true)
    (smallRequest 3 [1, 2, 9, 9])).addRequest (smallConfig 5 true) (smallRequest 4 [3, 4, 9, 9])

theorem SchedRun.not_admits : ¬ ∀ (H : HashFns) (cfg : Config) (added : List InferenceRequest)
    (s : Scheduler), SchedRun H cfg added s → s.Startable cfg → ∀ ord : HashOrder,
    (s.step H cfg ord).1.scheduledNew ≠ [] ∨ (s.step H cfg ord).1.scheduledCached ≠ [] := by
  intro h
  have hrun : SchedRun smallHash (smallConfig 5 true) [smallRequest 1 [1, 2], smallRequest 2 [3, 4],
      smallRequest 3 [1, 2, 9, 9], smallRequest 4 [3, 4, 9, 9]] pinned :=
    .addRequest _ (.addRequest _ ((SchedRun.new.serveOnce _ (by simp)).serveOnce _ (by decide))
      (by decide)) (by decide)
  have hadm := h smallHash (smallConfig 5 true) _ _ hrun (by decide +kernel) .id
  revert hadm
  decide +kernel

end Rllm
