import Rllm.Cache.ManagerInvariant
import Rllm.Scheduler.Moves

/-! # The scheduler invariant

Block tables belong to waiting and running requests, a waiting request holds
exactly the cached blocks it was probed with, and the table of a running one
covers its computed tokens. Each move touches one request only.
-/

namespace Rllm

namespace KVCacheManager

/-- Everything the manager knows about one request. -/
def view (m : KVCacheManager) (rid : RequestId) :
    List BlockId × Option (List BlockHash) × Option ℕ :=
  (m.table rid, m.requestBlockHashes.lookup rid, m.requestComputedTokens.lookup rid)

variable {H : HashFns} {cfg : CacheConfig} {m m' : KVCacheManager} {rid r : RequestId}

theorem view_free : (m.free rid).view r = if r = rid then ([], none, none) else m.view r := by
  by_cases hr : r = rid
  · subst hr; simp [view, KVCacheManager.free, table]
  · simp [view, KVCacheManager.free, table, hr]

theorem view_getComputedBlocks {prompt : List Token} {skip : Bool} (hr : r ≠ rid) :
    (m.getComputedBlocks H cfg rid prompt skip).2.view r = m.view r := by
  unfold getComputedBlocks
  split
  · rfl
  · simp [view, table, hr]

theorem getComputedBlocks_hashes {prompt : List Token} {skip : Bool} {hs : List BlockHash}
    (hh : (m.getComputedBlocks H cfg rid prompt skip).2.requestBlockHashes.lookup rid = some hs) :
    m.requestBlockHashes.lookup rid = some hs ∨
      hs = computeBlockHashes H cfg.prefixHashAlgorithm prompt cfg.blockSize none := by
  unfold getComputedBlocks at hh
  split at hh
  · exact Or.inl hh
  · right
    simpa using hh.symm

theorem getComputedBlocks_cached {prompt : List Token} {skip : Bool}
    (h : (m.requestComputedTokens.lookup rid).getD 0 = 0) :
    ((m.getComputedBlocks H cfg rid prompt skip).2.requestComputedTokens.lookup rid).getD 0 =
      (m.getComputedBlocks H cfg rid prompt skip).1.numComputedTokens := by
  unfold getComputedBlocks
  split
  · exact h
  · simp

theorem view_allocateSlots (m : KVCacheManager) (cfg : CacheConfig) (total computed : ℕ)
    (hr : r ≠ rid) :
    (m.allocateSlots cfg rid total computed).2.view r = m.view r := by
  unfold allocateSlots
  dsimp only
  split
  · rfl
  · split
    · rfl
    · simp [view, table, hr]

theorem view_allocateSlots_none {total computed : ℕ}
    (ha : m.allocateSlots cfg rid total computed = (none, m')) : m'.view r = m.view r := by
  unfold allocateSlots at ha
  dsimp only at ha
  split at ha
  · cases (Prod.mk.inj ha).1
  · split at ha
    · obtain ⟨-, rfl⟩ := Prod.mk.inj ha
      rfl
    · cases (Prod.mk.inj ha).1

theorem registerBlock_tables (m : KVCacheManager) (rid : RequestId) (bt : List BlockId)
    (hs : List BlockHash) (i : ℕ) : (m.registerBlock rid bt hs i).requestBlocks = m.requestBlocks ∧
      (m.registerBlock rid bt hs i).requestBlockHashes = m.requestBlockHashes ∧
      (m.registerBlock rid bt hs i).requestComputedTokens = m.requestComputedTokens := by
  unfold registerBlock
  split <;> exact ⟨rfl, rfl, rfl⟩

theorem registerAll_tables (m : KVCacheManager) (rid : RequestId) (bt : List BlockId)
    (hs : List BlockHash) (is : List ℕ) :
    (is.foldl (fun m i => m.registerBlock rid bt hs i) m).requestBlocks = m.requestBlocks ∧
      (is.foldl (fun m i => m.registerBlock rid bt hs i) m).requestBlockHashes =
        m.requestBlockHashes ∧
      (is.foldl (fun m i => m.registerBlock rid bt hs i) m).requestComputedTokens =
        m.requestComputedTokens := by
  induction is generalizing m with
  | nil => exact ⟨rfl, rfl, rfl⟩
  | cons i is ih =>
    obtain ⟨h₁, h₂, h₃⟩ := m.registerBlock_tables rid bt hs i
    obtain ⟨g₁, g₂, g₃⟩ := ih (m.registerBlock rid bt hs i)
    exact ⟨g₁.trans h₁, g₂.trans h₂, g₃.trans h₃⟩

theorem cacheBlocks_tables (m : KVCacheManager) (total : ℕ) :
    (m.cacheBlocks cfg rid total).requestBlocks = m.requestBlocks ∧
      (m.cacheBlocks cfg rid total).requestBlockHashes = m.requestBlockHashes := by
  unfold cacheBlocks
  split
  · exact ⟨rfl, rfl⟩
  · dsimp only
    split
    · rename_i bt hs _ _
      obtain ⟨h₁, h₂, -⟩ := m.registerAll_tables rid bt hs (List.range'
        ((m.requestComputedTokens.lookup rid).getD 0 / cfg.blockSize)
        (min (total / cfg.blockSize) hs.length -
          (m.requestComputedTokens.lookup rid).getD 0 / cfg.blockSize))
      exact ⟨h₁, h₂⟩
    · exact ⟨rfl, rfl⟩

@[simp] theorem table_cacheBlocks {total : ℕ} :
    (m.cacheBlocks cfg rid total).table r = m.table r := by
  rw [table, (m.cacheBlocks_tables total).1, table]

theorem view_cacheBlocks {total : ℕ} (hr : r ≠ rid) :
    (m.cacheBlocks cfg rid total).view r = m.view r := by
  have hc : (m.cacheBlocks cfg rid total).requestComputedTokens.lookup r =
      m.requestComputedTokens.lookup r := by
    unfold cacheBlocks
    split
    · rfl
    · dsimp only
      split
      · rename_i bt hs _ _
        rw [AList.lookup_insert_ne hr, (m.registerAll_tables rid bt hs _).2.2]
      · rfl
  rw [view, table_cacheBlocks, (m.cacheBlocks_tables total).2, hc, view]

end KVCacheManager

namespace Scheduler

variable (H : HashFns) (cfg : Config)

/-- The manager's view of a waiting request: the blocks it was probed with. -/
structure WaitingOk (kv : KVCacheManager) (id : RequestId) (r : SchedulerRequest) : Prop where
  table_eq : kv.table id = r.cachedBlockIds
  computed_eq : r.numComputedTokens = r.cachedBlockIds.length * cfg.cache.blockSize
  hashes_eq : ∀ hs, kv.requestBlockHashes.lookup id = some hs →
    hs = computeBlockHashes H cfg.cache.prefixHashAlgorithm r.promptTokenIds cfg.cache.blockSize
      none
  cached_eq : (kv.requestComputedTokens.lookup id).getD 0 = r.numComputedTokens

/-- The block table of a running request covers its computed tokens, exactly so unless it
speculates. -/
structure RunningOk (kv : KVCacheManager) (id : RequestId) (r : SchedulerRequest) : Prop where
  covers : divCeil r.numComputedTokens cfg.cache.blockSize ≤ (kv.table id).length
  exact : r.request.samplingParams.specTokens = 0 →
    (kv.table id).length = divCeil r.numComputedTokens cfg.cache.blockSize

/-- The local invariant of one request id. -/
structure ReqOk (s : Scheduler) (id : RequestId) : Prop where
  idle : id ∉ s.waiting.ids → id ∉ s.running → s.kvCacheManager.view id = ([], none, none)
  waiting : id ∈ s.waiting.ids → ∀ r, s.requests.lookup id = some r →
    WaitingOk H cfg s.kvCacheManager id r
  running : id ∈ s.running → ∀ r, s.requests.lookup id = some r →
    RunningOk cfg s.kvCacheManager id r

/-- The invariant of a scheduler on `n` blocks. -/
structure Inv (n : ℕ) (s : Scheduler) : Prop where
  partition : s.Partition
  kv : s.kvCacheManager.Ok n
  capacity : s.running.length ≤ cfg.scheduler.maxNumSeqs
  each : ∀ id, ReqOk H cfg s id

variable {H cfg} {n : ℕ} {s s' : Scheduler} {id i : RequestId}

/-- Nothing that concerns request `i` differs between two schedulers. -/
structure SameFor (s s' : Scheduler) (i : RequestId) : Prop where
  waiting : i ∈ s'.waiting.ids ↔ i ∈ s.waiting.ids
  running : i ∈ s'.running ↔ i ∈ s.running
  lookup : s'.requests.lookup i = s.requests.lookup i
  view : s'.kvCacheManager.view i = s.kvCacheManager.view i

theorem ReqOk.congr (h : ReqOk H cfg s i) (hs : SameFor s s' i) : ReqOk H cfg s' i := by
  have hv := hs.view
  simp only [KVCacheManager.view, Prod.mk.injEq] at hv
  obtain ⟨ht, hh, hc⟩ := hv
  refine ⟨fun hw hr => ?_, fun hw r hr => ?_, fun hrun r hr => ?_⟩
  · rw [hs.view]
    exact h.idle (mt hs.waiting.mpr hw) (mt hs.running.mpr hr)
  · obtain ⟨h₁, h₂, h₃, h₄⟩ := h.waiting (hs.waiting.mp hw) r (hs.lookup ▸ hr)
    exact ⟨ht ▸ h₁, h₂, hh ▸ h₃, hc ▸ h₄⟩
  · obtain ⟨h₁, h₂⟩ := h.running (hs.running.mp hrun) r (hs.lookup ▸ hr)
    exact ⟨ht ▸ h₁, ht ▸ h₂⟩

/-- A move that concerns one request keeps the invariant if it keeps that request's part. -/
theorem Inv.update (h : Inv H cfg n s) (id : RequestId) (hp : s'.Partition)
    (hkv : s'.kvCacheManager.Ok n)
    (hc : s'.running.length ≤ cfg.scheduler.maxNumSeqs) (hs : ∀ i ≠ id, SameFor s s' i)
    (hid : ReqOk H cfg s' id) : Inv H cfg n s' where
  partition := hp
  kv := hkv
  capacity := hc
  each i := by
    by_cases hi : i = id
    · exact hi ▸ hid
    · exact (h.each i).congr (hs i hi)

theorem Inv.finishRequestInternal (h : Inv H cfg n s) (hid : id ∈ s.requests) :
    Inv H cfg n (s.finishRequestInternal id) := by
  refine h.update id (h.partition.finishRequestInternal hid) (h.kv.free id).1
    ((List.length_filter_le _ _).trans h.capacity) (fun i hi => ?_) ⟨fun _ _ => ?_, ?_, ?_⟩
  · refine ⟨?_, ?_, rfl, ?_⟩
    · simp [Scheduler.finishRequestInternal, hi]
    · simp [Scheduler.finishRequestInternal, hi]
    · exact KVCacheManager.view_free.trans (if_neg hi)
  · exact KVCacheManager.view_free.trans (if_pos rfl)
  · simp [Scheduler.finishRequestInternal]
  · simp [Scheduler.finishRequestInternal]

theorem Inv.preemptRequest (h : Inv H cfg n s) (hid : id ∈ s.running) :
    Inv H cfg n (s.preemptRequest cfg id) := by
  obtain ⟨r, hr⟩ := mem_requests_iff.mp ((h.partition.mem_requests id).mpr (Or.inr (Or.inl hid)))
  have hp := h.partition.preemptRequest cfg hid
  unfold Scheduler.preemptRequest at hp ⊢
  simp only [hr] at hp ⊢
  refine h.update id hp (h.kv.free id).1 ((List.length_filter_le _ _).trans h.capacity)
    (fun i hi => ⟨?_, ?_, ?_, ?_⟩) ⟨?_, fun _ r' hr' => ?_, ?_⟩
  · simp [hi]
  · simp [hi]
  · simp [hi]
  · exact KVCacheManager.view_free.trans (if_neg hi)
  · intro hw
    simp at hw
  · have hv : (s.kvCacheManager.free id).view id = ([], none, none) :=
      KVCacheManager.view_free.trans (if_pos rfl)
    simp only [KVCacheManager.view, Prod.mk.injEq] at hv
    obtain ⟨ht, hh, hc⟩ := hv
    simp only [AList.lookup_insert, Option.some.injEq] at hr'
    subst hr'
    refine ⟨ht, by simp, ?_, ?_⟩
    · intro hs hhs
      rw [hh] at hhs
      cases hhs
    · rw [hc]
      rfl
  · intro hrun
    simp at hrun

theorem Inv.markLength (h : Inv H cfg n s) (hid : id ∈ s.running) :
    Inv H cfg n (s.modifyRequest id fun r => { r with status := .finishedLength }) := by
  refine h.update id (h.partition.modifyRequest _ _) (by simpa using h.kv)
    (by simpa using h.capacity) (fun i hi => ⟨by simp, by simp, by simp [hi], by simp⟩)
    ⟨?_, ?_, ?_⟩
  · intro _ hr
    simp only [modifyRequest_running] at hr
    exact absurd hid hr
  · intro hw
    simp only [modifyRequest_waiting] at hw
    exact absurd hid (h.partition.not_running id hw)
  · intro _ r hr
    simp only [lookup_modifyRequest, if_true, Option.map_eq_some_iff] at hr
    obtain ⟨r₀, hr₀, rfl⟩ := hr
    obtain ⟨h₁, h₂⟩ := (h.each id).running hid r₀ hr₀
    exact ⟨by simpa using h₁, by simpa using h₂⟩

theorem Inv.advance (h : Inv H cfg n s) {kv : KVCacheManager} (hkv : kv.Ok n)
    (hv : ∀ i ≠ id, kv.view i = s.kvCacheManager.view i) (hid : id ∈ s.running) {tokens : ℕ}
    (hok : ∀ r, s.requests.lookup id = some r →
      RunningOk cfg kv id { r with numComputedTokens := r.numComputedTokens + tokens }) :
    Inv H cfg n (Scheduler.modifyRequest { s with kvCacheManager := kv } id fun r =>
      { r with numComputedTokens := r.numComputedTokens + tokens }) := by
  have hp : Partition { s with kvCacheManager := kv } :=
    h.partition.congr rfl rfl rfl fun _ => Iff.rfl
  refine h.update id (hp.modifyRequest _ _) (by simpa using hkv)
    (by simpa using h.capacity)
    (fun i hi => ⟨by simp, by simp, by simp [hi], by simpa using hv i hi⟩) ⟨?_, ?_, ?_⟩
  · intro _ hr
    simp only [modifyRequest_running] at hr
    exact absurd hid hr
  · intro hw
    simp only [modifyRequest_waiting] at hw
    exact absurd hid (h.partition.not_running id hw)
  · intro _ r hr
    simp only [lookup_modifyRequest, if_true, Option.map_eq_some_iff] at hr
    obtain ⟨r₀, hr₀, rfl⟩ := hr
    simpa using hok r₀ hr₀

theorem Inv.setKV (h : Inv H cfg n s) {kv : KVCacheManager} (hkv : kv.Ok n)
    (hv : ∀ i, kv.view i = s.kvCacheManager.view i) :
    Inv H cfg n { s with kvCacheManager := kv } where
  partition := h.partition.congr rfl rfl rfl fun _ => Iff.rfl
  kv := hkv
  capacity := h.capacity
  each i := (h.each i).congr ⟨Iff.rfl, Iff.rfl, rfl, hv i⟩

theorem Inv.note (h : Inv H cfg n s) (a : PrefixCacheAdmission) :
    Inv H cfg n { s with prefixCacheAdmission := a } where
  partition := h.partition.congr rfl rfl rfl fun _ => Iff.rfl
  kv := h.kv
  capacity := h.capacity
  each i := (h.each i).congr ⟨Iff.rfl, Iff.rfl, rfl, rfl⟩

theorem Inv.probe (h : Inv H cfg n s) (hid : id ∈ s.waiting.ids) {r : SchedulerRequest}
    (hr : s.requests.lookup id = some r) (hc : r.cachedBlockIds = []) {skip : Bool} :
    Inv H cfg n (s.probe H cfg id r.promptTokenIds skip).2 := by
  have hw := (h.each id).waiting hid r hr
  have ht : s.kvCacheManager.table id = [] := hw.table_eq.trans hc
  cases hg : s.kvCacheManager.getComputedBlocks H cfg.cache id r.promptTokenIds skip with
  | mk res kv =>
    obtain ⟨hok, htab, -⟩ := h.kv.getComputedBlocks ht hg
    have hnum := s.kvCacheManager.getComputedBlocks_num (H := H) cfg.cache id r.promptTokenIds skip
    rw [hg] at hnum
    refine h.update id h.partition.probe (by simpa [hg] using hok)
      (by simpa using h.capacity) (fun i hi => ⟨by simp, by simp, by simp [hi], ?_⟩) ⟨?_, ?_, ?_⟩
    · rw [probe_kvCacheManager]
      exact KVCacheManager.view_getComputedBlocks hi
    · intro hn
      simp only [probe_waiting] at hn
      exact absurd hid hn
    · intro _ r' hr'
      rw [lookup_probe, if_pos rfl, hr, hg] at hr'
      simp only [Option.map_some, Option.some.injEq] at hr'
      subst hr'
      rw [probe_kvCacheManager]
      refine ⟨?_, hnum, fun hs hhs => ?_, ?_⟩
      · rw [hg]
        exact (htab id).trans (if_pos rfl)
      · exact (KVCacheManager.getComputedBlocks_hashes hhs).elim (hw.hashes_eq hs) fun he => he
      · have hz : r.numComputedTokens = 0 := by rw [hw.computed_eq, hc]; simp
        rw [KVCacheManager.getComputedBlocks_cached (hw.cached_eq.trans hz), hg]
    · intro hrun
      simp only [probe_running] at hrun
      exact absurd hrun (h.partition.not_running id hid)

/-- The part of a table behind the cached blocks is fresh when the request is admitted. -/
theorem Inv.register (h : Inv H cfg n s) (hid : id ∈ s.waiting.ids) {r : SchedulerRequest}
    (hr : s.requests.lookup id = some r) {tokens : ℕ} {bs : List BlockId} {kv : KVCacheManager}
    (ha : s.kvCacheManager.allocateSlots cfg.cache id (r.numComputedTokens + tokens)
      r.numComputedTokens = (some bs, kv)) (total : ℕ) :
    KVCacheManager.Ok n (kv.cacheBlocks cfg.cache id total) ∧
      kv.alreadyCached cfg.cache id = r.cachedBlockIds.length ∧
      kv.Registered id (kv.newRegs cfg.cache id total) (kv.cacheBlocks cfg.cache id total) := by
  obtain ⟨hok, hg⟩ := h.kv.allocateSlots_some ha
  have hw := (h.each id).waiting hid r hr
  have htab : kv.table id = r.cachedBlockIds ++ bs := by
    rw [hg.table_eq, if_pos rfl, hw.table_eq]
  have hal : kv.alreadyCached cfg.cache id = r.cachedBlockIds.length := by
    rw [KVCacheManager.alreadyCached, hg.computed_eq, hw.cached_eq, hw.computed_eq,
      Nat.mul_div_cancel _ cfg.cache.blockSize_pos]
  have hget : ∀ i b, kv.alreadyCached cfg.cache id ≤ i → (kv.table id)[i]? = some b →
      bs[i - r.cachedBlockIds.length]? = some b := by
    intro i b hi hb
    rw [hal] at hi
    rwa [htab, List.getElem?_append_right hi] at hb
  obtain ⟨hok', hreg⟩ := hok.cacheBlocks total
    (fun i j b hi hj hbi hbj => by
      have hbi' := hget i b hi hbi
      have hlt := (List.getElem?_eq_some_iff.mp hbi').1
      have he := (List.getElem?_inj hlt hg.handedOut.nodup).mp
        (hbi'.trans (hget j b hj hbj).symm)
      omega)
    (fun i b hi hb => by
      rw [hg.handedOut.hashOf_eq, if_pos (List.mem_of_getElem? (hget i b hi hb))])
  exact ⟨hok', hal, hreg⟩

theorem Inv.mem_newRegs (h : Inv H cfg n s) (hid : id ∈ s.waiting.ids) {r : SchedulerRequest}
    (hr : s.requests.lookup id = some r) {tokens : ℕ} {bs : List BlockId} {kv : KVCacheManager}
    (ha : s.kvCacheManager.allocateSlots cfg.cache id (r.numComputedTokens + tokens)
      r.numComputedTokens = (some bs, kv)) {total i : ℕ} {b : BlockId} {g : BlockHash}
    (hi : (i, b, g) ∈ kv.newRegs cfg.cache id total) :
    r.cachedBlockIds.length ≤ i ∧ bs[i - r.cachedBlockIds.length]? = some b ∧
      ∃ hs, s.kvCacheManager.requestBlockHashes.lookup id = some hs ∧
        hs = computeBlockHashes H cfg.cache.prefixHashAlgorithm r.promptTokenIds
          cfg.cache.blockSize none ∧ hs[i]? = some g := by
  obtain ⟨-, hg⟩ := h.kv.allocateSlots_some ha
  obtain ⟨-, hal, -⟩ := h.register hid hr ha total
  have hw := (h.each id).waiting hid r hr
  obtain ⟨-, hle, -, hb, hhash⟩ := KVCacheManager.mem_newRegs.mp hi
  rw [hal] at hle
  rw [hg.table_eq, if_pos rfl, hw.table_eq, List.getElem?_append_right hle] at hb
  rw [hg.hashes_eq] at hhash
  cases hhs : s.kvCacheManager.requestBlockHashes.lookup id with
  | none => simp [hhs] at hhash
  | some hs =>
    rw [hhs, Option.getD_some] at hhash
    exact ⟨hle, hb, hs, rfl, hw.hashes_eq hs hhs, hhash⟩

end Scheduler

namespace StepState

variable {cfg : Config} {st : StepState} {id i : RequestId} {tokens total : ℕ}

@[simp] theorem admitNew_waiting : (st.admitNew cfg id tokens total).sched.waiting =
    st.sched.waiting.remove id := by
  unfold admitNew; dsimp only; split <;> simp [setKV]

@[simp] theorem admitNew_running : (st.admitNew cfg id tokens total).sched.running =
    st.sched.running ++ [id] := by
  unfold admitNew; dsimp only; split <;> simp [setKV]

@[simp] theorem admitNew_lookup : (st.admitNew cfg id tokens total).sched.requests.lookup i =
    if i = id then (st.sched.requests.lookup i).map fun r =>
      { r with status := .running, numComputedTokens := total }
    else st.sched.requests.lookup i := by
  unfold admitNew; dsimp only; split <;> simp [setKV]

@[simp] theorem admitNew_kvCacheManager : (st.admitNew cfg id tokens total).sched.kvCacheManager =
    st.sched.kvCacheManager.cacheBlocks cfg.cache id total := by
  unfold admitNew
  dsimp only
  split
  · simp [setKV]
  · rename_i he
    rw [KVCacheManager.cacheBlocks_off (by simpa using he)]
    simp

@[simp] theorem admitCached_waiting : (st.admitCached id).sched.waiting =
    st.sched.waiting.remove id := by
  simp [admitCached]

@[simp] theorem admitCached_running : (st.admitCached id).sched.running =
    st.sched.running ++ [id] := by
  simp [admitCached]

@[simp] theorem admitCached_lookup : (st.admitCached id).sched.requests.lookup i =
    if i = id then (st.sched.requests.lookup i).map fun r => { r with status := .running }
    else st.sched.requests.lookup i := by
  simp [admitCached]

@[simp] theorem admitCached_kvCacheManager : (st.admitCached id).sched.kvCacheManager =
    st.sched.kvCacheManager := by
  simp [admitCached]

end StepState

variable {H : HashFns} {cfg : Config} {K : Guards}
  {n : ℕ} {st st' : StepState}

namespace Scheduler.Inv

variable {id : RequestId} {r : SchedulerRequest}

/-- The table of a request that is decoded is long enough. -/
theorem decode (h : st.sched.Inv H cfg n) (hid : id ∈ st.sched.running)
    (hr : st.sched.requests.lookup id = some r)
    (hn : divCeil (r.numComputedTokens + (1 + r.request.samplingParams.specTokens))
      cfg.cache.blockSize ≤ divCeil r.numComputedTokens cfg.cache.blockSize) :
    (st.scheduleDecode id (1 + r.request.samplingParams.specTokens)).sched.Inv H cfg n := by
  rw [StepState.scheduleDecode_sched]
  refine h.advance h.kv (fun _ _ => rfl) hid fun r' hr' => ?_
  obtain rfl : r = r' := Option.some.inj (hr.symm.trans hr')
  obtain ⟨hcov, hex⟩ := (h.each id).running hid r hr
  refine ⟨hn.trans hcov, fun hz => ?_⟩
  have hmono := divCeil_mono cfg.cache.blockSize_pos
    (Nat.le_add_right r.numComputedTokens (1 + r.request.samplingParams.specTokens))
  rw [hex hz]
  exact Nat.le_antisymm hmono hn

theorem decodeGrow (h : st.sched.Inv H cfg n) (hid : id ∈ st.sched.running)
    (hr : st.sched.requests.lookup id = some r)
    (hn : divCeil r.numComputedTokens cfg.cache.blockSize <
      divCeil (r.numComputedTokens + (1 + r.request.samplingParams.specTokens))
        cfg.cache.blockSize) {bs : List BlockId} {kv : KVCacheManager}
    (ha : st.sched.kvCacheManager.allocateSlots cfg.cache id (r.numComputedTokens +
      (1 + r.request.samplingParams.specTokens)) r.numComputedTokens = (some bs, kv)) :
    ((st.setKV kv).scheduleDecode id
      (1 + r.request.samplingParams.specTokens)).sched.Inv H cfg n := by
  rw [StepState.scheduleDecode_sched]
  obtain ⟨hok, hg⟩ := h.kv.allocateSlots_some ha
  have hv : ∀ i ≠ id, kv.view i = st.sched.kvCacheManager.view i := fun i hi => by
    have := st.sched.kvCacheManager.view_allocateSlots cfg.cache
      (r.numComputedTokens + (1 + r.request.samplingParams.specTokens)) r.numComputedTokens hi
    rwa [ha] at this
  refine h.advance hok hv hid fun r' hr' => ?_
  obtain rfl : r = r' := Option.some.inj (hr.symm.trans hr')
  obtain ⟨hcov, hex⟩ := (h.each id).running hid r hr
  have hlen : (kv.table id).length = (st.sched.kvCacheManager.table id).length +
      divCeil (1 + r.request.samplingParams.specTokens) cfg.cache.blockSize := by
    rw [hg.table_eq, if_pos rfl, List.length_append, hg.length_eq, Nat.add_sub_cancel_left]
  have hadd := divCeil_add_le (n := r.numComputedTokens)
    (m := 1 + r.request.samplingParams.specTokens) cfg.cache.blockSize_pos
  constructor
  · rw [hlen]
    dsimp only
    omega
  · intro hz
    have hone : divCeil (1 + r.request.samplingParams.specTokens) cfg.cache.blockSize = 1 := by
      have hz' : r.request.samplingParams.specTokens = 0 := hz
      rw [hz', divCeil, Nat.add_zero, Nat.add_sub_cancel_left]
      exact Nat.div_self cfg.cache.blockSize_pos
    rw [hlen, hex hz]
    dsimp only
    omega

theorem admitCached (h : st.sched.Inv H cfg n) (hp : (st.admitCached id).sched.Partition)
    (hid : id ∈ st.sched.waiting.ids) (hr : st.sched.requests.lookup id = some r)
    (hmax : st.sched.running.length < cfg.scheduler.maxNumSeqs) :
    (st.admitCached id).sched.Inv H cfg n := by
  refine h.update id hp (by simpa using h.kv) (by simpa using Nat.succ_le_of_lt hmax)
    (fun i hi => ⟨by simp [hi], by simp [hi], by simp [hi], by simp⟩) ⟨?_, ?_, ?_⟩
  · intro _ hr
    simp at hr
  · intro hw
    simp at hw
  · intro _ r' hr'
    rw [StepState.admitCached_lookup, if_pos rfl, hr] at hr'
    simp only [Option.map_some, Option.some.injEq] at hr'
    subst hr'
    have hw := (h.each id).waiting hid r hr
    have hlen : (st.sched.kvCacheManager.table id).length =
        divCeil r.numComputedTokens cfg.cache.blockSize := by
      have hd := divCeil_mul_add (n := 0) cfg.cache.blockSize_pos r.cachedBlockIds.length
      rw [Nat.add_zero, divCeil_zero cfg.cache.blockSize_pos, Nat.add_zero] at hd
      rw [hw.table_eq, hw.computed_eq, hd]
    exact ⟨by simpa using hlen.ge, fun _ => by simpa using hlen⟩

theorem admitNew (h : st.sched.Inv H cfg n) {tokens : ℕ} {bs : List BlockId}
    {kv : KVCacheManager} (hp : ((st.setKV kv).admitNew cfg id tokens
      (r.numComputedTokens + tokens)).sched.Partition) (hid : id ∈ st.sched.waiting.ids)
    (hr : st.sched.requests.lookup id = some r)
    (hmax : st.sched.running.length < cfg.scheduler.maxNumSeqs)
    (ha : st.sched.kvCacheManager.allocateSlots cfg.cache id (r.numComputedTokens + tokens)
      r.numComputedTokens = (some bs, kv)) : ((st.setKV kv).admitNew cfg id tokens
      (r.numComputedTokens + tokens)).sched.Inv H cfg n := by
  obtain ⟨hok, hg⟩ := h.kv.allocateSlots_some ha
  obtain ⟨hok', -, -⟩ := h.register hid hr ha (r.numComputedTokens + tokens)
  refine h.update id hp (by simpa [StepState.setKV] using hok')
    (by simpa [StepState.setKV] using Nat.succ_le_of_lt hmax)
    (fun i hi => ⟨by simp [StepState.setKV, hi], by simp [StepState.setKV, hi],
      by simp [StepState.setKV, hi], ?_⟩) ⟨?_, ?_, ?_⟩
  · rw [StepState.admitNew_kvCacheManager, KVCacheManager.view_cacheBlocks hi]
    have := st.sched.kvCacheManager.view_allocateSlots cfg.cache (r.numComputedTokens + tokens)
      r.numComputedTokens hi
    rwa [ha] at this
  · intro _ hr
    simp at hr
  · intro hw
    simp at hw
  · intro _ r' hr'
    rw [StepState.admitNew_lookup, if_pos rfl] at hr'
    have hr'' : (st.sched.requests.lookup id).map (fun r₀ => { r₀ with
      status := .running, numComputedTokens := r.numComputedTokens + tokens }) = some r' := hr'
    rw [hr] at hr''
    simp only [Option.map_some, Option.some.injEq] at hr''
    subst hr''
    have hw := (h.each id).waiting hid r hr
    have hlen : (kv.table id).length =
        divCeil (r.numComputedTokens + tokens) cfg.cache.blockSize := by
      rw [hg.table_eq, if_pos rfl, List.length_append, hg.length_eq, Nat.add_sub_cancel_left,
        hw.table_eq, hw.computed_eq, divCeil_mul_add cfg.cache.blockSize_pos]
    constructor
    · simpa [StepState.setKV] using hlen.ge
    · intro _
      simpa [StepState.setKV] using hlen

end Scheduler.Inv

theorem Move.inv (hm : Move H cfg K st st') (h : st.sched.Inv H cfg n) :
    st'.sched.Inv H cfg n := by
  have hp := hm.partition h.partition
  cases hm with
  | finish _ hr => exact h.finishRequestInternal (Scheduler.mem_requests_iff.mpr ⟨_, hr⟩)
  | markLength _ hid => exact h.markLength hid
  | decode _ hid hr _ _ hn => exact h.decode hid hr hn
  | decodeGrow _ hid hr _ _ hn ha => exact h.decodeGrow hid hr hn ha
  | preempt hid => exact h.preemptRequest hid
  | note a => exact h.note a
  | probe _ _ hid hr hc => exact h.probe hid hr hc
  | admitCached _ _ hid hr _ hmax => exact h.admitCached hp hid hr hmax
  | admitNew _ _ hid hr _ hmax _ _ _ ha => exact h.admitNew hp hid hr hmax ha
  | starve _ _ _ _ _ ha | admitFail _ _ _ _ _ _ ha =>
    exact h.setKV (h.kv.allocateSlots_none ha).1 fun i => KVCacheManager.view_allocateSlots_none ha

theorem Moves.inv (hm : Moves H cfg K st st') (h : st.sched.Inv H cfg n) :
    st'.sched.Inv H cfg n := by
  induction hm with
  | refl => exact h
  | tail _ hm ih => exact hm.inv ih

end Rllm
