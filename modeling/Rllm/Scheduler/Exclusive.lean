import Mathlib.Data.List.NodupEquivFin
import Rllm.Scheduler.Registration

/-! # Blocks of one owner

A block of a table that reaches beyond the tokens counted as cached has one
reference and stands under no hash, so no lookup ever finds it. In a step whose
lookups find nothing, the other blocks of a new request without cached tokens
have one reference, too.
-/

namespace Rllm

namespace KVCacheManager

variable {n : ℕ} {m m' : KVCacheManager} {rid i j : RequestId} {b : BlockId} {g : BlockHash}

/-- The tokens that the manager has counted as cached for a request. -/
def cachedTokens (m : KVCacheManager) (rid : RequestId) : ℕ :=
  (m.requestComputedTokens.lookup rid).getD 0

theorem cachedTokens_of_view (h : m'.view rid = m.view rid) :
    m'.cachedTokens rid = m.cachedTokens rid :=
  congrArg (fun v => v.2.2.getD 0) h

theorem Grown.cachedTokens_eq {c : CacheConfig} {k : ℕ} {bs : List BlockId}
    (h : Grown n c m rid k bs m') (r : RequestId) : m'.cachedTokens r = m.cachedTokens r := by
  rw [cachedTokens, h.computed_eq, cachedTokens]

theorem RolledBack.cachedTokens_eq {bs : List BlockId} (h : RolledBack m bs m') (r : RequestId) :
    m'.cachedTokens r = m.cachedTokens r := by
  rw [cachedTokens, h.computed_eq, cachedTokens]

theorem Ok.refs_free (h : Ok n m) (rid : RequestId) (b : BlockId) :
    (m.free rid).blockPool.refs b + (m.table rid).count b = m.blockPool.refs b := by
  obtain ⟨hok, htab, -⟩ := h.free rid
  have hother : ∀ r ≠ rid, (m.free rid).table r = m.table r := by
    intro r hr
    rw [htab, if_neg hr]
  have hocc := occ_update hother b
  rwa [htab, if_pos rfl, List.count_nil, ← h.refs_eq, ← hok.refs_eq] at hocc

theorem Ok.table_unique (h : Ok n m) (hb : m.blockPool.refs b = 1) (hi : b ∈ m.table i)
    (hj : b ∈ m.table j) : i = j := by
  by_contra hne
  obtain ⟨hok, htab, -⟩ := h.free i
  have hj' : b ∈ (m.free i).table j := by
    rw [htab, if_neg (Ne.symm hne)]
    exact hj
  have hpos := (hok.mem_table hj').2.2
  have hcount := List.count_pos_iff.mpr hi
  have hrefs := h.refs_free i b
  omega

theorem Ok.index_unique (h : Ok n m) (hb : m.blockPool.refs b = 1) {k l : ℕ}
    (hk : (m.table rid)[k]? = some b) (hl : (m.table rid)[l]? = some b) : k = l := by
  obtain ⟨hk, hbk⟩ := List.getElem?_eq_some_iff.mp hk
  obtain ⟨hl, hbl⟩ := List.getElem?_eq_some_iff.mp hl
  by_contra hne
  have hdup : List.Duplicate b (m.table rid) := by
    rw [List.duplicate_iff_exists_distinct_get]
    rcases Nat.lt_or_gt_of_ne hne with hlt | hlt
    · exact ⟨⟨k, hk⟩, ⟨l, hl⟩, hlt, hbk.symm, hbl.symm⟩
    · exact ⟨⟨l, hl⟩, ⟨k, hk⟩, hlt, hbl.symm, hbk.symm⟩
  have htwo := List.duplicate_iff_two_le_count.mp hdup
  have hle := h.count_le rid b
  omega

theorem cacheBlocks_cachedTokens (m : KVCacheManager) (c : CacheConfig) (rid : RequestId)
    (total : ℕ) : (m.cacheBlocks c rid total).cachedTokens rid = total ∨
      m.cacheBlocks c rid total = m := by
  unfold cacheBlocks
  split
  · exact Or.inr rfl
  · dsimp only
    split
    · left
      simp [cachedTokens]
    · exact Or.inr rfl

variable (c : CacheConfig)

/-- A block of a table that reaches beyond the cached tokens has one reference and no hash. -/
def Private (m : KVCacheManager) : Prop :=
  ∀ rid i b, (m.table rid)[i]? = some b → m.cachedTokens rid < (i + 1) * c.blockSize →
    m.blockPool.refs b = 1 ∧ ∀ g, b ∉ m.blockPool.listed g

namespace Private

variable {c}

theorem free (h : Private c m) (hok : Ok n m) (rid : RequestId) : Private c (m.free rid) := by
  obtain ⟨-, htab, -, hl, -⟩ := hok.free rid
  intro r i b hb hlt
  rw [htab] at hb
  split at hb
  · cases hb
  · rename_i hr
    rw [cachedTokens_of_view (view_free.trans (if_neg hr))] at hlt
    obtain ⟨hone, hnone⟩ := h r i b hb hlt
    have hn : b ∉ m.table rid := fun hm => hr (hok.table_unique hone (List.mem_of_getElem? hb) hm)
    have hrefs := hok.refs_free rid b
    rw [List.count_eq_zero_of_not_mem hn, Nat.add_zero] at hrefs
    exact ⟨hrefs.trans hone, fun g => hl ▸ hnone g⟩

theorem rolledBack (h : Private c m) {bs : List BlockId} (hr : RolledBack m bs m') :
    Private c m' := by
  intro r i b hb hlt
  rw [hr.table_eq] at hb
  rw [hr.cachedTokens_eq] at hlt
  obtain ⟨hone, hnone⟩ := h r i b hb hlt
  rw [hr.refs_eq]
  exact ⟨hone, fun g hg => hnone g (hr.mem_of_listed hg)⟩

theorem grown (h : Private c m) {k : ℕ} {bs : List BlockId}
    (hg : Grown n c m rid k bs m') : Private c m' := by
  intro r i b hb hlt
  rw [hg.handedOut.refs_eq]
  by_cases hn : b ∈ bs
  · refine ⟨if_pos hn, fun g hgl => ?_⟩
    rw [hg.handedOut.listed_eq, List.mem_filter, decide_eq_true_eq] at hgl
    exact hgl.2 hn
  · have hold : (m.table r)[i]? = some b := by
      rw [hg.table_eq] at hb
      split at hb
      · rename_i hr
        rw [hr]
        refine (List.getElem?_append_left ?_).symm.trans hb
        by_contra hge
        rw [List.getElem?_append_right (not_lt.mp hge)] at hb
        exact hn (List.mem_of_getElem? hb)
      · exact hb
    rw [hg.cachedTokens_eq] at hlt
    obtain ⟨hone, hnone⟩ := h r i b hold hlt
    exact ⟨(if_neg hn).trans hone, fun g hgl => hnone g (hg.mem_of_listed hgl)⟩

theorem cacheBlocks (h : Private c m) (hok : Ok n m) {total : ℕ}
    (hle : m.cachedTokens rid ≤ total)
    (hreg : m.Registered rid (m.newRegs c rid total) (m.cacheBlocks c rid total)) :
    Private c (m.cacheBlocks c rid total) := by
  rcases m.cacheBlocks_cachedTokens c rid total with htot | hsame
  · intro r i b hb hlt
    rw [table_cacheBlocks] at hb
    have hlt' : m.cachedTokens r < (i + 1) * c.blockSize := by
      by_cases hr : r = rid
      · rw [hr, htot] at hlt
        exact hr ▸ hle.trans_lt hlt
      · rwa [cachedTokens_of_view (view_cacheBlocks hr)] at hlt
    obtain ⟨hone, hnone⟩ := h r i b hb hlt'
    rw [hreg.refs_eq]
    refine ⟨hone, fun g hgl => ?_⟩
    rcases (hreg.mem_listed g b).mp hgl with hgl | ⟨k, hk⟩
    · exact hnone g hgl
    · -- a block that is registered lies within the tokens that are cached from now on
      obtain ⟨-, -, hktotal, hbk, -⟩ := mem_newRegs.mp hk
      obtain rfl := hok.table_unique hone (List.mem_of_getElem? hb) (List.mem_of_getElem? hbk)
      obtain rfl := hok.index_unique hone hb hbk
      rw [htot] at hlt
      exact absurd ((Nat.le_div_iff_mul_le c.blockSize_pos).mp hktotal) (not_le.mpr hlt)
  · rwa [hsame]

theorem getComputedBlocks {H : HashFns} {prompt : List Token} {skip : Bool} (h : Private c m)
    (hok : Ok n m) (ht : m.table rid = []) (hz : m.cachedTokens rid = 0) :
    Private c (m.getComputedBlocks H c rid prompt skip).2 := by
  cases hg : m.getComputedBlocks H c rid prompt skip with
  | mk res kv =>
    obtain ⟨hok', htab, -, hl, hres⟩ := hok.getComputedBlocks ht hg
    have hfound : ∀ b ∈ res.cachedBlockIds, ∃ g, b ∈ m.blockPool.listed g := by
      intro b hb
      rcases hres with ⟨-, rfl⟩ | ⟨-, hf⟩
      · cases hb
      · obtain ⟨k, hk⟩ := List.mem_iff_getElem?.mp hb
        obtain ⟨g, -, hg⟩ := hf.head_eq k b hk
        exact ⟨g, List.mem_of_mem_head? hg⟩
    intro r i b hb hlt
    rw [htab] at hb
    split at hb
    · -- the blocks found are cached
      rename_i hr
      subst hr
      have hnum := m.getComputedBlocks_num (H := H) c r prompt skip
      have hcached : (m.getComputedBlocks H c r prompt skip).2.cachedTokens r = _ :=
        getComputedBlocks_cached hz
      rw [hg] at hnum hcached
      have hi : i + 1 ≤ res.cachedBlockIds.length := (List.getElem?_eq_some_iff.mp hb).1
      have hmul := Nat.mul_le_mul_right c.blockSize hi
      rw [hcached, hnum] at hlt
      exact absurd hmul (not_le.mpr hlt)
    · rename_i hr
      have hview : (m.getComputedBlocks H c rid prompt skip).2.view r = m.view r :=
        view_getComputedBlocks hr
      rw [hg] at hview
      rw [cachedTokens_of_view hview] at hlt
      obtain ⟨hone, hnone⟩ := h r i b hb hlt
      have hn : b ∉ res.cachedBlockIds := fun hm =>
        (hfound b hm).elim fun g hg => hnone g hg
      have hocc := occ_update (fun r hr => (htab r).trans (if_neg hr)) b
      rw [ht, htab, if_pos rfl, List.count_nil, List.count_eq_zero_of_not_mem hn,
        ← hok.refs_eq, ← hok'.refs_eq] at hocc
      exact ⟨hocc.trans hone, fun g => hl ▸ hnone g⟩

end Private

/-- A lookup of the prompt finds nothing in the prefix cache. -/
def Misses (H : HashFns) (c : CacheConfig) (m : KVCacheManager) (prompt : List Token)
    (skip : Bool) : Prop :=
  c.enablePrefixCaching = true → skip = false →
    ∀ g ∈ (promptHashes H c prompt).head?, m.blockPool.listed g = []

theorem Misses.getComputedBlocks {H : HashFns} {c : CacheConfig} {prompt : List Token} {skip : Bool}
    (h : m.Misses H c prompt skip) :
    (m.getComputedBlocks H c rid prompt skip).2.blockPool = m.blockPool := by
  unfold KVCacheManager.getComputedBlocks
  split
  · rfl
  · rename_i hread
    simp only [Bool.or_eq_true, Bool.not_eq_true', not_or, Bool.not_eq_false] at hread
    have hnone : lookupBlocks (promptHashes H c prompt) m.blockPool = ([], m.blockPool) := by
      have hmiss := h hread.1.1 (by simpa using hread.1.2)
      cases hp : promptHashes H c prompt with
      | nil => rfl
      | cons g gs =>
        have hl : m.blockPool.listed g = [] := hmiss g (by rw [hp]; exact rfl)
        have hc : m.blockPool.getCachedBlock g = none := by
          unfold BlockPool.getCachedBlock
          unfold BlockPool.listed at hl
          cases hg : m.blockPool.hashMap.lookup g with
          | none => rfl
          | some bs =>
            rw [hg, Option.getD_some] at hl
            rw [hl]
            rfl
        rw [lookupBlocks, hc]
    rw [promptHashes] at hnone
    exact congrArg Prod.snd hnone

theorem Misses.congr {H : HashFns} {c : CacheConfig} {prompt : List Token} {skip : Bool}
    (h : m.Misses H c prompt skip) (hm : m'.blockPool.hashMap = m.blockPool.hashMap) :
    m'.Misses H c prompt skip := by
  intro hon hskip g hg
  rw [BlockPool.listed, hm]
  exact h hon hskip g hg

end KVCacheManager

open KVCacheManager

variable {H : HashFns} {cfg : Config} {K : Guards} {n : ℕ} {s s' s'' : Scheduler}
  {st st' st'' : StepState} {added : List InferenceRequest} {id i : RequestId}
  {r : SchedulerRequest} {kv : KVCacheManager}

/-! ## The invariant of a scheduler -/

/-- Blocks beyond the cached tokens have one owner, and a running request has computed its cached
tokens. -/
structure Scheduler.Exclusive (cfg : Config) (s : Scheduler) : Prop where
  kv : Private cfg.cache s.kvCacheManager
  cached_le : ∀ id ∈ s.running, ∀ r, s.requests.lookup id = some r →
    s.kvCacheManager.cachedTokens id ≤ r.numComputedTokens

namespace Scheduler.Exclusive

theorem new : (Scheduler.new cfg).Exclusive cfg := by
  refine ⟨fun rid i b hb => ?_, fun id hid => ?_⟩
  · cases hb
  · cases hid

theorem addRequest (h : s.Exclusive cfg) (hinv : s.Inv H cfg n) {r : InferenceRequest}
    (hr : r.requestId ∉ s.requests) : (s.addRequest cfg r).Exclusive cfg := by
  refine ⟨h.kv, fun i hi r' hr' => ?_⟩
  have hne : i ≠ r.requestId := by
    rintro rfl
    exact hr ((hinv.partition.mem_requests r.requestId).mpr (Or.inr (Or.inl hi)))
  simp only [Scheduler.addRequest, AList.lookup_insert_ne hne] at hr'
  exact h.cached_le i hi r' hr'

/-- Giving up the blocks of one request. -/
theorem free (h : s.Exclusive cfg) (hinv : s.Inv H cfg n) (id : RequestId)
    (hkv : s'.kvCacheManager = s.kvCacheManager.free id)
    (hrun : ∀ i ∈ s'.running, i ∈ s.running ∧ i ≠ id)
    (hl : ∀ i ≠ id, s'.requests.lookup i = s.requests.lookup i) : s'.Exclusive cfg := by
  refine ⟨hkv ▸ h.kv.free hinv.kv id, fun i hi r hr => ?_⟩
  obtain ⟨hi, hne⟩ := hrun i hi
  rw [hkv, cachedTokens_of_view (view_free.trans (if_neg hne))]
  exact h.cached_le i hi r (hl i hne ▸ hr)

theorem abortRequest (h : s.Exclusive cfg) (hinv : s.Inv H cfg n) (id : RequestId) :
    (s.abortRequest id).Exclusive cfg :=
  h.free hinv id rfl (fun i hi => by simpa [Scheduler.abortRequest] using hi)
    fun _ hi => AList.lookup_erase_ne hi

/-- New blocks or hashes for the running requests, with more computed tokens. -/
theorem update (h : s.Exclusive cfg) (hkv : Private cfg.cache s'.kvCacheManager)
    (hc : ∀ i, s'.kvCacheManager.cachedTokens i = s.kvCacheManager.cachedTokens i)
    (hrun : ∀ i ∈ s'.running, i ∈ s.running)
    (hl : ∀ i r', s'.requests.lookup i = some r' → ∃ r, s.requests.lookup i = some r ∧
      r.numComputedTokens ≤ r'.numComputedTokens) : s'.Exclusive cfg := by
  refine ⟨hkv, fun i hi r' hr' => ?_⟩
  obtain ⟨r, hr, hle⟩ := hl i r' hr'
  rw [hc]
  exact (h.cached_le i (hrun i hi) r hr).trans hle

theorem clearHashes (h : s.Exclusive cfg) : Scheduler.Exclusive cfg
    { s with kvCacheManager := { s.kvCacheManager with
      blockPool := s.kvCacheManager.blockPool.clearHashes } } := by
  refine ⟨fun rid i b hb hlt => ?_, h.cached_le⟩
  rw [BlockPool.refs_clearHashes]
  refine ⟨(h.kv rid i b hb hlt).1, fun g hg => ?_⟩
  rw [BlockPool.listed_clearHashes] at hg
  cases hg

theorem rolledBack (h : st.sched.Exclusive cfg) {bs : List BlockId}
    (hr : RolledBack st.sched.kvCacheManager bs kv) : (st.setKV kv).sched.Exclusive cfg :=
  h.update (h.kv.rolledBack hr) hr.cachedTokens_eq (fun _ hi => hi)
    fun _ r' hr' => ⟨r', hr', le_rfl⟩

theorem scheduleDecode (h : st.sched.Exclusive cfg) (hkv : Private cfg.cache kv)
    (hc : ∀ i, kv.cachedTokens i = st.sched.kvCacheManager.cachedTokens i) (id : RequestId)
    (tokens : ℕ) : ((st.setKV kv).scheduleDecode id tokens).sched.Exclusive cfg := by
  have hsched : ((st.setKV kv).scheduleDecode id tokens).sched = _ :=
    StepState.scheduleDecode_sched tokens
  refine h.update ?_ (fun i => ?_) (fun i hi => ?_) fun i r' hr' => ?_
  · rwa [hsched, Scheduler.modifyRequest_kvCacheManager]
  · rw [hsched, Scheduler.modifyRequest_kvCacheManager]
    exact hc i
  · rwa [hsched, Scheduler.modifyRequest_running] at hi
  · rw [hsched, Scheduler.lookup_modifyRequest] at hr'
    split at hr'
    · obtain ⟨r, hr, rfl⟩ := Option.map_eq_some_iff.mp hr'
      exact ⟨r, hr, Nat.le_add_right _ _⟩
    · exact ⟨r', hr', le_rfl⟩

theorem ne_of_waiting (hinv : s.Inv H cfg n) (hid : id ∈ s.waiting.ids) (hi : i ∈ s.running) :
    i ≠ id := by
  rintro rfl
  exact hinv.partition.not_running i hid hi

theorem probe (h : s.Exclusive cfg) (hinv : s.Inv H cfg n) (hid : id ∈ s.waiting.ids)
    (hr : s.requests.lookup id = some r) (hc : r.cachedBlockIds = []) (skip : Bool) :
    (s.probe H cfg id r.promptTokenIds skip).2.Exclusive cfg := by
  have hw := (hinv.each id).waiting hid r hr
  have hz : s.kvCacheManager.cachedTokens id = 0 := by
    rw [cachedTokens, hw.cached_eq, hw.computed_eq, hc, List.length_nil, Nat.zero_mul]
  refine ⟨?_, fun i hi r' hr' => ?_⟩
  · rw [Scheduler.probe_kvCacheManager]
    exact h.kv.getComputedBlocks hinv.kv (hw.table_eq.trans hc) hz
  · rw [Scheduler.probe_running] at hi
    have hne := ne_of_waiting hinv hid hi
    rw [Scheduler.lookup_probe, if_neg hne] at hr'
    rw [Scheduler.probe_kvCacheManager, cachedTokens_of_view (view_getComputedBlocks hne)]
    exact h.cached_le i hi r' hr'

theorem admitCached (h : st.sched.Exclusive cfg) (hinv : st.sched.Inv H cfg n)
    (hid : id ∈ st.sched.waiting.ids) : (st.admitCached id).sched.Exclusive cfg := by
  refine ⟨?_, fun i hi r hr => ?_⟩
  · rw [StepState.admitCached_kvCacheManager]
    exact h.kv
  · rw [StepState.admitCached_running, List.mem_append, List.mem_singleton] at hi
    rw [StepState.admitCached_lookup] at hr
    rw [StepState.admitCached_kvCacheManager]
    split at hr
    · obtain ⟨r₀, hr₀, rfl⟩ := Option.map_eq_some_iff.mp hr
      rename_i he
      exact ((hinv.each i).waiting (he ▸ hid) r₀ hr₀).cached_eq.le
    · rename_i he
      exact h.cached_le i (hi.resolve_right he) r hr

theorem admitNew (h : st.sched.Exclusive cfg) (hinv : st.sched.Inv H cfg n)
    (hid : id ∈ st.sched.waiting.ids) (hr : st.sched.requests.lookup id = some r) {tokens : ℕ}
    {bs : List BlockId}
    (ha : st.sched.kvCacheManager.allocateSlots cfg.cache id (r.numComputedTokens + tokens)
      r.numComputedTokens = (some bs, kv)) :
    ((st.setKV kv).admitNew cfg id tokens
      (r.numComputedTokens + tokens)).sched.Exclusive cfg := by
  obtain ⟨hok, hg⟩ := hinv.kv.allocateSlots_some ha
  obtain ⟨-, -, hreg⟩ := hinv.register hid hr ha (r.numComputedTokens + tokens)
  have hc : kv.cachedTokens id = r.numComputedTokens :=
    (hg.cachedTokens_eq id).trans ((hinv.each id).waiting hid r hr).cached_eq
  have hle : kv.cachedTokens id ≤ r.numComputedTokens + tokens :=
    hc.trans_le (Nat.le_add_right _ _)
  refine ⟨?_, fun i hi r' hr' => ?_⟩
  · rw [StepState.admitNew_kvCacheManager]
    exact (h.kv.grown hg).cacheBlocks hok hle hreg
  · rw [StepState.admitNew_running, List.mem_append, List.mem_singleton] at hi
    rw [StepState.admitNew_lookup] at hr'
    rw [StepState.admitNew_kvCacheManager]
    change (kv.cacheBlocks cfg.cache id (r.numComputedTokens + tokens)).cachedTokens i ≤ _
    split at hr'
    · obtain ⟨r₀, -, rfl⟩ := Option.map_eq_some_iff.mp hr'
      rename_i he
      rw [he]
      rcases kv.cacheBlocks_cachedTokens cfg.cache id (r.numComputedTokens + tokens) with ht | ht
      · exact ht.le
      · rw [ht]
        exact hle
    · rename_i he
      rw [cachedTokens_of_view (view_cacheBlocks he), hg.cachedTokens_eq]
      exact h.cached_le i (hi.resolve_right he) r' hr'

end Scheduler.Exclusive

theorem Move.exclusive (hm : Move H cfg K st st') (hinv : st.sched.Inv H cfg n)
    (h : st.sched.Exclusive cfg) : st'.sched.Exclusive cfg := by
  cases hm with
  | finish =>
    refine h.free hinv _ rfl (fun i hi => ?_) fun _ _ => rfl
    simpa [StepState.finishOne, Scheduler.finishRequestInternal] using hi
  | markLength =>
    refine h.update (by simpa using h.kv) (by simp) (by simp) fun i r' hr' => ?_
    rw [Scheduler.lookup_modifyRequest] at hr'
    split at hr'
    · obtain ⟨r, hr, rfl⟩ := Option.map_eq_some_iff.mp hr'
      exact ⟨r, hr, le_rfl⟩
    · exact ⟨r', hr', le_rfl⟩
  | @decode id => exact h.scheduleDecode h.kv (fun _ => rfl) id _
  | @decodeGrow id _ bs kv _ _ _ _ _ _ ha =>
    have hg := (hinv.kv.allocateSlots_some ha).2
    exact h.scheduleDecode (h.kv.grown hg) hg.cachedTokens_eq id _
  | starve _ _ _ _ _ ha =>
    obtain ⟨-, -, bs, hr⟩ := hinv.kv.allocateSlots_none ha
    exact h.rolledBack hr
  | @preempt id =>
    refine h.free hinv id ?_ (fun i hi => ?_) fun i hi => ?_
    · simp only [StepState.preemptOne, Scheduler.preemptRequest]
      split <;> rfl
    · rw [StepState.preemptOne_running] at hi
      simpa using hi
    · simp only [StepState.preemptOne, Scheduler.preemptRequest]
      split
      · exact AList.lookup_insert_ne hi
      · rfl
  | note => exact ⟨h.kv, h.cached_le⟩
  | probe _ _ hid hr hc => exact h.probe hinv hid hr hc _
  | admitCached _ _ hid => exact h.admitCached hinv hid
  | admitNew _ _ hid hr _ _ _ _ _ ha => exact h.admitNew hinv hid hr ha
  | admitFail _ _ _ _ _ _ ha =>
    obtain ⟨-, -, bs, hr⟩ := hinv.kv.allocateSlots_none ha
    exact h.rolledBack hr

theorem Moves.exclusive (hm : Moves H cfg K { sched := s } st) (hinv : s.Inv H cfg n)
    (h : s.Exclusive cfg) : st.sched.Exclusive cfg := by
  induction hm with
  | refl => exact h
  | tail hms hm ih => exact hm.exclusive (Moves.inv hms hinv) ih

theorem Scheduler.Exclusive.step (h : s.Exclusive cfg) (hinv : s.Inv H cfg n) (ord : HashOrder) :
    (s.step H cfg ord).2.Exclusive cfg := by
  unfold Scheduler.step
  split
  · exact h
  · rename_i hp
    exact (stepState_moves hinv.partition (by simpa using hp) ord
      (Scheduler.stepAll_any ord s)).exclusive hinv h

theorem SchedRun.exclusive (h : SchedRun H cfg added s) (hle : cfg.numCacheBlocks ≤ 2 ^ 32) :
    s.Exclusive cfg := by
  induction h with
  | new => exact .new
  | addRequest r hrun hfresh ih =>
    obtain ⟨hinv, hknown⟩ := hrun.inv hle
    exact ih.addRequest hinv (hknown.fresh hfresh)
  | abortRequest id hrun ih => exact ih.abortRequest (hrun.inv hle).1 id
  | step ord hrun ih => exact ih.step (hrun.inv hle).1 ord
  | pause _ ih => exact ⟨ih.kv, ih.cached_le⟩
  | resume _ ih => exact ⟨ih.kv, ih.cached_le⟩
  | resetPrefixCache _ hr ih =>
    rw [Scheduler.resetPrefixCache_ok hr]
    exact ih.clearHashes

/-! ## What a step leaves to a request -/

/-- The table of a request grows at its end; if it was running, it goes on, and no more of it counts
as cached. -/
structure Scheduler.Retains (s s' : Scheduler) (id : RequestId) : Prop where
  table : ∃ bs, s'.kvCacheManager.table id = s.kvCacheManager.table id ++ bs
  running : id ∈ s.running → id ∈ s'.running ∧
    s'.kvCacheManager.cachedTokens id = s.kvCacheManager.cachedTokens id

namespace Scheduler.Retains

theorem of_view (hv : s'.kvCacheManager.view id = s.kvCacheManager.view id)
    (hr : id ∈ s.running → id ∈ s'.running) : s.Retains s' id :=
  ⟨⟨[], (table_of_view hv).trans (List.append_nil _).symm⟩,
    fun h => ⟨hr h, cachedTokens_of_view hv⟩⟩

theorem trans (h : s.Retains s' id) (h' : s'.Retains s'' id) : s.Retains s'' id := by
  obtain ⟨⟨bs, ht⟩, hr⟩ := h
  obtain ⟨⟨bs', ht'⟩, hr'⟩ := h'
  refine ⟨⟨bs ++ bs', by rw [ht', ht, List.append_assoc]⟩, fun hi => ?_⟩
  obtain ⟨hi, hc⟩ := hr hi
  obtain ⟨hi, hc'⟩ := hr' hi
  exact ⟨hi, hc'.trans hc⟩

/-- Nothing is kept of the cached tokens of a request that waits. -/
theorem of_waiting (hinv : s.Inv H cfg n) (hid : id ∈ s.waiting.ids) {bs : List BlockId}
    (ht : s'.kvCacheManager.table id = s.kvCacheManager.table id ++ bs) : s.Retains s' id :=
  ⟨⟨bs, ht⟩, fun hr => absurd hr (hinv.partition.not_running id hid)⟩

theorem grown {k : ℕ} {bs : List BlockId} (hg : Grown n cfg.cache s.kvCacheManager id k bs kv)
    (hkv : s'.kvCacheManager = kv) (hr : i ∈ s.running → i ∈ s'.running) : s.Retains s' i := by
  constructor
  · rw [hkv, hg.table_eq]
    split
    · rename_i hi
      exact ⟨bs, by rw [hi]⟩
    · exact ⟨[], (List.append_nil _).symm⟩
  · intro hi
    rw [hkv]
    exact ⟨hr hi, hg.cachedTokens_eq i⟩

theorem rolledBack {bs : List BlockId} (hr : RolledBack s.kvCacheManager bs kv)
    (hkv : s'.kvCacheManager = kv) (hrun : i ∈ s.running → i ∈ s'.running) : s.Retains s' i := by
  constructor
  · rw [hkv, hr.table_eq]
    exact ⟨[], (List.append_nil _).symm⟩
  · intro hi
    rw [hkv]
    exact ⟨hrun hi, hr.cachedTokens_eq i⟩

end Scheduler.Retains

/-- Between two states of a step, every request is preempted or finished or keeps its blocks. -/
structure StepState.Onward (st st' : StepState) : Prop where
  preempted : st.output.preempted ⊆ st'.output.preempted
  finished : st.output.finished ⊆ st'.output.finished
  retains : ∀ id, id ∈ st'.output.preempted ∨ id ∈ st'.output.finished ∨
    st.sched.Retains st'.sched id

namespace StepState.Onward

theorem refl (st : StepState) : st.Onward st :=
  ⟨fun _ h => h, fun _ h => h, fun _ => Or.inr (Or.inr (.of_view rfl fun h => h))⟩

theorem trans (h : st.Onward st') (h' : st'.Onward st'') : st.Onward st'' := by
  refine ⟨List.Subset.trans h.preempted h'.preempted, List.Subset.trans h.finished h'.finished,
    fun id => ?_⟩
  rcases h'.retains id with hpre | hfin | hk'
  · exact Or.inl hpre
  · exact Or.inr (Or.inl hfin)
  · rcases h.retains id with hpre | hfin | hk
    · exact Or.inl (h'.preempted hpre)
    · exact Or.inr (Or.inl (h'.finished hfin))
    · exact Or.inr (Or.inr (hk.trans hk'))

/-- Nobody leaves. -/
theorem of_retains (hp : st'.output.preempted = st.output.preempted)
    (hf : st'.output.finished = st.output.finished)
    (hk : ∀ id, st.sched.Retains st'.sched id) : st.Onward st' :=
  ⟨by rw [hp]; exact fun _ h => h, by rw [hf]; exact fun _ h => h,
    fun id => Or.inr (Or.inr (hk id))⟩

theorem finishOne (st : StepState) (id : RequestId) : st.Onward (st.finishOne id) := by
  refine ⟨fun _ h => h, fun i hi => List.mem_append_left _ hi, fun i => Or.inr ?_⟩
  by_cases hi : i = id
  · left
    rw [hi]
    exact List.mem_append_right _ (List.mem_singleton_self id)
  · refine Or.inr (.of_view (view_free.trans (if_neg hi)) fun hr => ?_)
    simp [StepState.finishOne, Scheduler.finishRequestInternal, hr, hi]

theorem preemptOne (st : StepState) (id : RequestId) : st.Onward (st.preemptOne cfg id) := by
  refine ⟨fun i hi => List.mem_append_left _ hi, fun _ h => h, fun i => ?_⟩
  by_cases hi : i = id
  · left
    rw [hi]
    exact List.mem_append_right _ (List.mem_singleton_self id)
  · refine Or.inr (Or.inr (.of_view ?_ fun hr => ?_))
    · rw [show (st.preemptOne cfg id).sched.kvCacheManager = st.sched.kvCacheManager.free id by
        simp only [StepState.preemptOne, Scheduler.preemptRequest]
        split <;> rfl]
      exact view_free.trans (if_neg hi)
    · rw [StepState.preemptOne_running]
      simp [hr, hi]

theorem scheduleDecode {tokens : ℕ}
    (hk : ∀ i, st.sched.Retains (st.setKV kv).sched i) :
    st.Onward ((st.setKV kv).scheduleDecode id tokens) := by
  have hout := (st.setKV kv).scheduleDecode_output id tokens
  refine .of_retains (by rw [hout]; rfl) (by rw [hout]; rfl) fun i => (hk i).trans ?_
  rw [scheduleDecode_sched]
  exact .of_view (by simp) (by simp)

theorem probe (hinv : st.sched.Inv H cfg n) (hid : id ∈ st.sched.waiting.ids)
    (hr : st.sched.requests.lookup id = some r) (hc : r.cachedBlockIds = []) (skip : Bool) :
    st.Onward { st with sched := (st.sched.probe H cfg id r.promptTokenIds skip).2 } := by
  refine .of_retains rfl rfl fun i => ?_
  by_cases hi : i = id
  · subst hi
    have ht : st.sched.kvCacheManager.table i = [] :=
      ((hinv.each i).waiting hid r hr).table_eq.trans hc
    exact .of_waiting hinv hid (ht ▸ (List.nil_append _).symm)
  · refine .of_view ?_ fun hrun => by simpa using hrun
    simp only [Scheduler.probe_kvCacheManager]
    exact view_getComputedBlocks hi

theorem admitNew (hinv : st.sched.Inv H cfg n) (hid : id ∈ st.sched.waiting.ids) {k : ℕ}
    {bs : List BlockId} (hg : Grown n cfg.cache st.sched.kvCacheManager id k bs kv)
    (tokens total : ℕ) : st.Onward ((st.setKV kv).admitNew cfg id tokens total) := by
  refine .of_retains (by rw [admitNew_output]; rfl) (by rw [admitNew_output]; rfl) fun i => ?_
  by_cases hi : i = id
  · subst hi
    refine Scheduler.Retains.of_waiting hinv hid (Eq.trans ?_ ((hg.table_eq i).trans (if_pos rfl)))
    rw [StepState.admitNew_kvCacheManager, table_cacheBlocks]
    rfl
  · have hgrown : st.sched.Retains (st.setKV kv).sched i := .grown hg rfl fun h => h
    refine hgrown.trans (.of_view ?_ fun hr => ?_)
    · rw [StepState.admitNew_kvCacheManager]
      exact view_cacheBlocks hi
    · rw [StepState.admitNew_running]
      exact List.mem_append_left _ hr

end StepState.Onward

theorem Move.onward (hm : Move H cfg K st st') (hinv : st.sched.Inv H cfg n) :
    st.Onward st' := by
  cases hm with
  | @finish id => exact .finishOne st id
  | markLength => exact .of_retains rfl rfl fun i => .of_view (by simp) (by simp)
  | decode =>
    have hk : ∀ i, st.sched.Retains (st.setKV st.sched.kvCacheManager).sched i :=
      fun i => .of_view rfl fun h => h
    exact .scheduleDecode hk
  | decodeGrow _ _ _ _ _ _ ha =>
    exact .scheduleDecode fun i => .grown (hinv.kv.allocateSlots_some ha).2 rfl fun h => h
  | starve _ _ _ _ _ ha =>
    obtain ⟨-, -, bs, hr⟩ := hinv.kv.allocateSlots_none ha
    exact .of_retains rfl rfl fun i => .rolledBack hr rfl fun h => h
  | @preempt id => exact .preemptOne st id
  | note => exact .of_retains rfl rfl fun i => .of_view rfl fun h => h
  | probe _ _ hid hr hc => exact .probe hinv hid hr hc _
  | admitCached =>
    refine .of_retains rfl rfl fun i => .of_view (by simp) fun hr => ?_
    rw [StepState.admitCached_running]
    exact List.mem_append_left _ hr
  | admitNew _ _ hid _ _ _ _ _ _ ha =>
    exact .admitNew hinv hid (hinv.kv.allocateSlots_some ha).2 _ _
  | admitFail _ _ _ _ _ _ ha =>
    obtain ⟨-, -, bs, hr⟩ := hinv.kv.allocateSlots_none ha
    exact .of_retains rfl rfl fun i => .rolledBack hr rfl fun h => h

theorem Moves.onward (hm : Moves H cfg K { sched := s } st) (hinv : s.Inv H cfg n) :
    StepState.Onward { sched := s } st := by
  induction hm with
  | refl => exact .refl _
  | tail hms hm ih => exact ih.trans (hm.onward (Moves.inv hms hinv))

/-! ## Steps without hits -/

/-- No request of which nothing is cached yet would hit the prefix cache. -/
def Guards.noHits (H : HashFns) (cfg : Config) : Guards where
  finishes _ := True
  decodes _ _ := True
  admits st := ∀ id ∈ st.sched.waiting.ids, ∀ r ∈ st.sched.requests.lookup id,
    r.cachedBlockIds = [] → st.sched.kvCacheManager.Misses H cfg.cache r.promptTokenIds
      r.request.samplingParams.skipReadingPrefixCache

/-- The hash is that of a block of the prompt that was added under the id. -/
def PromptHash (H : HashFns) (cfg : Config) (added : List InferenceRequest) (id : RequestId) (i : ℕ)
    (g : BlockHash) : Prop :=
  ∃ q ∈ added, q.requestId = id ∧ (promptHashes H cfg.cache q.promptTokens)[i]? = some g

/-- In a step from `s` to `s'` a request is given blocks of its own, registered at most under the
hashes of its prompt; if it had blocks before, it has left in between. -/
structure Scheduler.Fresh (H : HashFns) (cfg : Config) (added : List InferenceRequest)
    (s : Scheduler) (out : SchedulerOutput) (s' : Scheduler) (id : RequestId) : Prop where
  left : ∀ b ∈ s.kvCacheManager.table id, id ∈ out.preempted ∨ id ∈ out.finished
  single : ∀ b ∈ s'.kvCacheManager.table id, s'.kvCacheManager.blockPool.refs b = 1
  prompt : ∀ i b g, (s'.kvCacheManager.table id)[i]? = some b →
    b ∈ s'.kvCacheManager.blockPool.listed g → PromptHash H cfg added id i g

/-- Without cached tokens the table of a new request holds the new blocks only. -/
theorem Scheduler.Fresh.admitNew (hs : StepState.Onward { sched := s } st)
    (hinv : st.sched.Inv H cfg n) (hknown : st.sched.Known added)
    (hid : id ∈ st.sched.waiting.ids) (hr : st.sched.requests.lookup id = some r)
    (hz : r.numComputedTokens = 0) {tokens : ℕ} {bs : List BlockId}
    (ha : st.sched.kvCacheManager.allocateSlots cfg.cache id (r.numComputedTokens + tokens)
      r.numComputedTokens = (some bs, kv)) :
    s.Fresh H cfg added ((st.setKV kv).admitNew cfg id tokens (r.numComputedTokens + tokens)).output
      ((st.setKV kv).admitNew cfg id tokens (r.numComputedTokens + tokens)).sched id := by
  obtain ⟨hok, hg⟩ := hinv.kv.allocateSlots_some ha
  obtain ⟨-, -, hreg⟩ := hinv.register hid hr ha (r.numComputedTokens + tokens)
  have hw := (hinv.each id).waiting hid r hr
  have hnil : st.sched.kvCacheManager.table id = [] := by
    rw [hw.computed_eq] at hz
    rw [hw.table_eq]
    exact List.eq_nil_of_length_eq_zero
      ((Nat.mul_eq_zero.mp hz).resolve_right cfg.cache.blockSize_pos.ne')
  have htab : kv.table id = bs := by
    rw [hg.table_eq, if_pos rfl, hnil, List.nil_append]
  have hrefs : ∀ b ∈ bs, kv.blockPool.refs b = 1 := fun b hb => by
    rw [hg.handedOut.refs_eq, if_pos hb]
  constructor
  · intro b hb
    have hout := admitNew_output cfg (st.setKV kv) id tokens (r.numComputedTokens + tokens)
    rw [hout]
    rcases hs.retains id with hpre | hfin | hk
    · exact Or.inl hpre
    · exact Or.inr hfin
    · obtain ⟨bs', ht⟩ := hk.table
      rw [hnil] at ht
      rw [(List.append_eq_nil_iff.mp ht.symm).1] at hb
      cases hb
  · intro b hb
    rw [StepState.admitNew_kvCacheManager] at hb ⊢
    rw [table_cacheBlocks] at hb
    exact (congrFun hreg.refs_eq b).trans (hrefs b (htab ▸ hb))
  · intro k b g hb hgl
    rw [StepState.admitNew_kvCacheManager] at hb hgl
    rw [table_cacheBlocks] at hb
    have hmem : b ∈ bs := htab ▸ List.mem_of_getElem? hb
    rcases (hreg.mem_listed g b).mp hgl with hgl | ⟨l, hl⟩
    · rw [hg.handedOut.listed_eq, List.mem_filter, decide_eq_true_eq] at hgl
      exact absurd hmem hgl.2
    · obtain ⟨-, -, -, hbl, -⟩ := mem_newRegs.mp hl
      obtain rfl := hok.index_unique (hrefs b hmem) hb hbl
      obtain ⟨-, -, hs, -, rfl, hhash⟩ := hinv.mem_newRegs hid hr ha hl
      obtain ⟨hadd, hid', hprompt⟩ := hknown id r hr
      exact ⟨r.request, hadd, hid', hprompt ▸ hhash⟩

/-- Every new request that has no tokens but those scheduled has blocks of its own. -/
def StepState.AllFresh (H : HashFns) (cfg : Config) (added : List InferenceRequest) (s : Scheduler)
    (st : StepState) : Prop :=
  ∀ id ∈ st.output.scheduledNew, id ∈ st.sched.running ∧
    ∀ r, st.sched.requests.lookup id = some r →
      r.numComputedTokens ≤ (st.output.numScheduledTokens.lookup id).getD 0 →
      s.Fresh H cfg added st.output st.sched id

namespace StepState.AllFresh

/-- The requests that run keep what they have, and no other block of one owner is registered. -/
theorem frame (h : st.AllFresh H cfg added s) (hon : st.Onward st')
    (hrun : ∀ i ∈ st.sched.running, i ∈ st'.sched.running ∧
      st'.sched.requests.lookup i = st.sched.requests.lookup i ∧
      st'.output.numScheduledTokens.lookup i = st.output.numScheduledTokens.lookup i ∧
      st'.sched.kvCacheManager.table i = st.sched.kvCacheManager.table i)
    (hpool : ∀ b, st.sched.kvCacheManager.blockPool.refs b = 1 →
      st'.sched.kvCacheManager.blockPool.refs b = 1 ∧
        ∀ g, b ∈ st'.sched.kvCacheManager.blockPool.listed g →
          b ∈ st.sched.kvCacheManager.blockPool.listed g)
    (hnew : ∀ i ∈ st'.output.scheduledNew, i ∉ st.output.scheduledNew →
      i ∈ st'.sched.running ∧ ∀ r, st'.sched.requests.lookup i = some r →
        r.numComputedTokens ≤ (st'.output.numScheduledTokens.lookup i).getD 0 →
        s.Fresh H cfg added st'.output st'.sched i) : st'.AllFresh H cfg added s := by
  intro i hi
  by_cases hold : i ∈ st.output.scheduledNew
  · obtain ⟨hr, hfresh⟩ := h i hold
    obtain ⟨hr', hl, htok, ht⟩ := hrun i hr
    refine ⟨hr', fun r hr hle => ?_⟩
    obtain ⟨hleft, hsingle, hprompt⟩ := hfresh r (hl ▸ hr) (htok ▸ hle)
    constructor
    · exact fun b hb => (hleft b hb).imp (fun h => hon.preempted h) fun h => hon.finished h
    · intro b hb
      rw [ht] at hb
      exact (hpool b (hsingle b hb)).1
    · intro k b g hb hg
      rw [ht] at hb
      exact hprompt k b g hb ((hpool b (hsingle b (List.mem_of_getElem? hb))).2 g hg)
  · exact hnew i hi hold

theorem of_noAdmission (ho : st.output.NoAdmission) : st.AllFresh H cfg added s := by
  intro i hi
  rw [ho.1] at hi
  cases hi

/-- Nothing but the queue and the computed tokens of waiting requests changes. -/
theorem frame_queue (h : st.AllFresh H cfg added s) (hon : st.Onward st')
    (hrun : ∀ i ∈ st.sched.running, i ∈ st'.sched.running ∧
      st'.sched.requests.lookup i = st.sched.requests.lookup i ∧
      st'.sched.kvCacheManager.table i = st.sched.kvCacheManager.table i)
    (hrefs : st'.sched.kvCacheManager.blockPool.refs = st.sched.kvCacheManager.blockPool.refs)
    (hl : ∀ b g, b ∈ st'.sched.kvCacheManager.blockPool.listed g →
      b ∈ st.sched.kvCacheManager.blockPool.listed g)
    (hnew : st'.output.scheduledNew = st.output.scheduledNew)
    (htok : st'.output.numScheduledTokens = st.output.numScheduledTokens) :
    st'.AllFresh H cfg added s := by
  refine h.frame hon (fun i hi => ?_) (fun b hb => ⟨hrefs ▸ hb, hl b⟩) fun i hi hn => ?_
  · obtain ⟨hr, hl, ht⟩ := hrun i hi
    exact ⟨hr, hl, by rw [htok], ht⟩
  · rw [hnew] at hi
    exact absurd hi hn

theorem probe (h : st.AllFresh H cfg added s) (hinv : st.sched.Inv H cfg n)
    (hid : id ∈ st.sched.waiting.ids) (hr : st.sched.requests.lookup id = some r)
    (hc : r.cachedBlockIds = []) {skip : Bool}
    (hmiss : st.sched.kvCacheManager.Misses H cfg.cache r.promptTokenIds skip) :
    StepState.AllFresh H cfg added s
      { st with sched := (st.sched.probe H cfg id r.promptTokenIds skip).2 } := by
  have hpool : (st.sched.probe H cfg id r.promptTokenIds skip).2.kvCacheManager.blockPool =
      st.sched.kvCacheManager.blockPool := by
    rw [Scheduler.probe_kvCacheManager]
    exact hmiss.getComputedBlocks
  refine h.frame_queue (.probe hinv hid hr hc skip) (fun i hi => ?_) (by rw [hpool])
    (fun b g hg => ?_) rfl rfl
  · have hne := Scheduler.Exclusive.ne_of_waiting hinv hid hi
    refine ⟨by simpa using hi, by rw [Scheduler.lookup_probe, if_neg hne], ?_⟩
    rw [Scheduler.probe_kvCacheManager]
    exact table_of_view (view_getComputedBlocks hne)
  · rwa [hpool] at hg

theorem admitNew (h : st.AllFresh H cfg added s) (hinv : st.sched.Inv H cfg n)
    (hid : id ∈ st.sched.waiting.ids) (hr : st.sched.requests.lookup id = some r) {tokens : ℕ}
    {bs : List BlockId}
    (ha : st.sched.kvCacheManager.allocateSlots cfg.cache id (r.numComputedTokens + tokens)
      r.numComputedTokens = (some bs, kv))
    (hfresh : r.numComputedTokens = 0 → s.Fresh H cfg added
      ((st.setKV kv).admitNew cfg id tokens (r.numComputedTokens + tokens)).output
      ((st.setKV kv).admitNew cfg id tokens (r.numComputedTokens + tokens)).sched id) :
    ((st.setKV kv).admitNew cfg id tokens
      (r.numComputedTokens + tokens)).AllFresh H cfg added s := by
  have hg := (hinv.kv.allocateSlots_some ha).2
  obtain ⟨-, -, hreg⟩ := hinv.register hid hr ha (r.numComputedTokens + tokens)
  refine h.frame (.admitNew hinv hid hg _ _) (fun i hi => ?_) (fun b hb => ?_) fun i hi hn => ?_
  · have hne := Scheduler.Exclusive.ne_of_waiting hinv hid hi
    refine ⟨?_, ?_, ?_, ?_⟩
    · rw [StepState.admitNew_running]
      exact List.mem_append_left _ hi
    · rw [StepState.admitNew_lookup, if_neg hne]
      rfl
    · rw [admitNew_output]
      exact AList.lookup_insert_ne hne
    · rw [StepState.admitNew_kvCacheManager, table_cacheBlocks]
      exact (hg.table_eq i).trans (if_neg hne)
  · have hnew : b ∉ bs := fun hb' => by
      rw [(hg.handedOut.free b hb').2.2] at hb
      cases hb
    rw [StepState.admitNew_kvCacheManager]
    have hrefs : kv.blockPool.refs b = 1 := by rw [hg.handedOut.refs_eq, if_neg hnew, hb]
    refine ⟨(congrFun hreg.refs_eq b).trans hrefs, fun g hgl => ?_⟩
    rcases (hreg.mem_listed g b).mp hgl with hgl | ⟨k, hk⟩
    · exact hg.mem_of_listed hgl
    · exact absurd (List.mem_of_getElem? (hinv.mem_newRegs hid hr ha hk).2.1) hnew
  · obtain rfl : i = id := by
      rw [admitNew_output] at hi
      simpa using (List.mem_append.mp hi).resolve_left hn
    refine ⟨?_, fun r' hr' hle => hfresh ?_⟩
    · rw [StepState.admitNew_running]
      exact List.mem_append_right _ (List.mem_singleton_self i)
    · rw [StepState.admitNew_lookup, if_pos rfl] at hr'
      obtain ⟨r₀, -, rfl⟩ := Option.map_eq_some_iff.mp hr'
      rw [admitNew_output, AList.lookup_insert, Option.getD_some] at hle
      dsimp only at hle
      omega

end StepState.AllFresh

theorem Move.allFresh (hm : Move H cfg (.noHits H cfg) st st') (hinv : st.sched.Inv H cfg n)
    (hknown : st.sched.Known added) (hs : StepState.Onward { sched := s } st)
    (h : st.AllFresh H cfg added s) : st'.AllFresh H cfg added s := by
  have hon := hm.onward hinv
  cases hm with
  | finish _ _ _ _ _ ho => exact .of_noAdmission ho
  | markLength _ _ _ _ _ _ ho => exact .of_noAdmission ho
  | @decode id r _ _ _ _ _ _ _ _ _ ho =>
    have hout := st.scheduleDecode_output id (1 + r.request.samplingParams.specTokens)
    exact .of_noAdmission (hout ▸ ho)
  | @decodeGrow id r _ kv _ _ _ _ _ _ _ _ _ _ ho =>
    have hout := (st.setKV kv).scheduleDecode_output id (1 + r.request.samplingParams.specTokens)
    exact .of_noAdmission (hout ▸ ho)
  | starve _ _ _ _ _ _ _ _ _ ho => exact .of_noAdmission ho
  | preempt _ _ _ ho => exact .of_noAdmission ho
  | note => exact h.frame_queue hon (fun i hi => ⟨hi, rfl, rfl⟩) rfl (fun _ _ hg => hg) rfl rfl
  | @probe st₀ id r hA hpr hid hr hc =>
    obtain ⟨r₀, hr₀, hreq, hprompt, hcached⟩ := hpr.origin id r hr
    have hmiss := hA id (hpr.waiting_eq ▸ hid) r₀ hr₀ (hcached hc)
    rw [← hreq, ← hprompt] at hmiss
    exact h.probe hinv hid hr hc (hmiss.congr hpr.hashMap_eq)
  | @admitCached st₀ id r _ _ hid =>
    refine h.frame_queue hon (fun i hi => ?_) (by simp) (by simp) rfl rfl
    have hne := Scheduler.Exclusive.ne_of_waiting hinv hid hi
    refine ⟨?_, by rw [StepState.admitCached_lookup, if_neg hne], by simp⟩
    rw [StepState.admitCached_running]
    exact List.mem_append_left _ hi
  | admitNew _ _ hid hr _ _ _ _ _ ha =>
    exact h.admitNew hinv hid hr ha fun hz => .admitNew hs hinv hknown hid hr hz ha
  | admitFail _ _ _ _ _ _ ha =>
    obtain ⟨-, -, bs, hr⟩ := hinv.kv.allocateSlots_none ha
    exact h.frame_queue hon (fun i hi => ⟨hi, rfl, hr.table_eq i⟩) hr.refs_eq
      (fun _ _ hg => hr.mem_of_listed hg) rfl rfl

theorem Moves.allFresh (hm : Moves H cfg (.noHits H cfg) { sched := s } st) (hinv : s.Inv H cfg n)
    (hknown : s.Known added) : st.AllFresh H cfg added s := by
  induction hm with
  | refl => exact .of_noAdmission ⟨rfl, rfl⟩
  | tail hms hm ih =>
    exact hm.allFresh (Moves.inv hms hinv) (Moves.known hms hknown) (Moves.onward hms hinv) ih

/-! ## Whole steps -/

namespace Scheduler

theorem step_retains (hinv : s.Inv H cfg n) (ord : HashOrder) (id : RequestId) :
    id ∈ (s.step H cfg ord).1.preempted ∨ id ∈ (s.step H cfg ord).1.finished ∨
      s.Retains (s.step H cfg ord).2 id := by
  cases hpaused : s.paused with
  | true =>
    rw [Scheduler.step, if_pos hpaused]
    exact Or.inr (Or.inr (.of_view rfl fun h => h))
  | false =>
    rw [Scheduler.step_eq hpaused]
    exact ((stepState_moves hinv.partition hpaused ord (stepAll_any ord s)).onward hinv).retains id

theorem step_fresh (hinv : s.Inv H cfg n) (hknown : s.Known added) {ord : HashOrder}
    (hall : s.StepAll H cfg (.noHits H cfg) ord)
    (hid : id ∈ (s.step H cfg ord).1.scheduledNew)
    (hr : (s.step H cfg ord).2.requests.lookup id = some r)
    (hle : r.numComputedTokens ≤
      ((s.step H cfg ord).1.numScheduledTokens.lookup id).getD 0) :
    s.Fresh H cfg added (s.step H cfg ord).1 (s.step H cfg ord).2 id := by
  cases hpaused : s.paused with
  | true =>
    rw [Scheduler.step, if_pos hpaused] at hid
    cases hid
  | false =>
    rw [Scheduler.step_eq hpaused] at hid hr hle ⊢
    have hfresh := (stepState_moves hinv.partition hpaused ord hall).allFresh hinv hknown
    obtain ⟨hleft, hsingle, hprompt⟩ := (hfresh id hid).2 r hr hle
    exact ⟨hleft, hsingle, hprompt⟩

end Scheduler

end Rllm
