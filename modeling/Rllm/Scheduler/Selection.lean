import Rllm.Scheduler.Inversion
import Rllm.Scheduler.Liveness

/-! # The choice among the waiting requests

The selection looks up every waiting request that holds no cached blocks and
keeps the first one that has computed most. What a lookup finds depends on the
registered blocks alone, so it does not matter that the lookups are mixed with
the comparisons, and a second selection finds what the first one found.
-/

namespace Rllm

variable {H : HashFns} {cfg : Config} {K : Guards} {s s' : Scheduler} {st st' : StepState}
  {id i : RequestId} {added : List InferenceRequest}

/-! ## References -/

section Pool

variable {p p' : BlockPool} {b : BlockId}

theorem BlockPool.refs_modifyBlock_ne (p : BlockPool) (f : KVCacheBlock → KVCacheBlock)
    {i : BlockId} (hi : i ≠ b) : (p.modifyBlock b f).refs i = p.refs i := by
  by_cases hb : b < p.blocks.length
  · rw [refs_modifyBlock f i hb, if_neg hi.symm]
  · rw [modifyBlock, List.modify_eq_self (not_lt.mp hb)]

theorem BlockPool.refs_getCachedBlock {h : BlockHash} (hg : p.getCachedBlock h = some (b, p'))
    {i : BlockId} (hi : i ≠ b) : p'.refs i = p.refs i := by
  unfold getCachedBlock at hg
  split at hg
  · rename_i c _
    obtain ⟨rfl, rfl⟩ := Prod.mk.inj (Option.some.inj hg)
    refine (refs_modifyBlock_ne _ _ hi).trans ?_
    rw [← refs_touch p c]
    split
    · split
      · exact congrFun (refs_unlink _ _) i
      · rfl
    · split
      · exact congrFun (refs_unlink _ _) i
      · rfl
  · cases hg

theorem refs_lookupBlocks (hs : List BlockHash) (p : BlockPool) {i : BlockId}
    (hi : i ∉ (lookupBlocks hs p).1) : (lookupBlocks hs p).2.refs i = p.refs i := by
  induction hs generalizing p with
  | nil => rfl
  | cons h hs ih =>
    unfold lookupBlocks at hi ⊢
    split at hi
    · rename_i b p' hg
      rw [List.mem_cons, not_or] at hi
      exact (ih p' hi.2).trans (BlockPool.refs_getCachedBlock hg hi.1)
    · rfl

theorem KVCacheManager.refs_getComputedBlocks (m : KVCacheManager) (c : CacheConfig)
    (rid : RequestId) (prompt : List Token) (skip : Bool) {i : BlockId}
    (hi : i ∉ (m.getComputedBlocks H c rid prompt skip).1.cachedBlockIds) :
    (m.getComputedBlocks H c rid prompt skip).2.blockPool.refs i = m.blockPool.refs i := by
  by_cases hoff : (!c.enablePrefixCaching || skip || prompt.isEmpty) = true
  · rw [getComputedBlocks, if_pos hoff]
  · rw [getComputedBlocks, if_neg hoff] at hi ⊢
    exact refs_lookupBlocks _ _ hi

end Pool

/-! ## One look at a request -/

namespace Scheduler

variable (H cfg) in
/-- A request after its look: one without cached blocks takes over what the lookup finds. -/
def noted (s : Scheduler) (id : RequestId) (r : SchedulerRequest) : SchedulerRequest :=
  if r.cachedBlockIds.isEmpty then
    let result := (s.kvCacheManager.getComputedBlocks H cfg.cache id r.promptTokenIds
      r.request.samplingParams.skipReadingPrefixCache).1
    { r with
      cachedBlockIds := result.cachedBlockIds
      numComputedTokens := result.numComputedTokens }
  else r

variable (H cfg) in
/-- The tokens computed for a request, once it was looked at. -/
def reach (s : Scheduler) (id : RequestId) : ℕ :=
  ((s.requests.lookup id).map fun r => (s.noted H cfg id r).numComputedTokens).getD 0

variable (H cfg) in
/-- The look that the selection takes at one request. -/
def look (s : Scheduler) (id : RequestId) : Scheduler :=
  match s.requests.lookup id with
  | none => s
  | some r =>
    if r.cachedBlockIds.isEmpty then
      (s.probe H cfg id r.promptTokenIds r.request.samplingParams.skipReadingPrefixCache).2
    else s

variable (H cfg) in
/-- The block is found by a look at one of the requests that holds none so far. -/
def Pins (ids : List RequestId) (s : Scheduler) (b : BlockId) : Prop :=
  ∃ i ∈ ids, ∃ r, s.requests.lookup i = some r ∧ r.cachedBlockIds = [] ∧
    b ∈ (s.noted H cfg i r).cachedBlockIds

variable (H cfg) in
/-- `s'` is `s` after looks at the requests. -/
structure LookedAt (ids : List RequestId) (s s' : Scheduler) : Prop where
  waiting_eq : s'.waiting = s.waiting
  running_eq : s'.running = s.running
  hashMap_eq : s'.kvCacheManager.blockPool.hashMap = s.kvCacheManager.blockPool.hashMap
  lookup_eq : ∀ i, s'.requests.lookup i =
    if i ∈ ids then (s.requests.lookup i).map (s.noted H cfg i) else s.requests.lookup i
  refs_eq : ∀ b, ¬ s.Pins H cfg ids b →
    s'.kvCacheManager.blockPool.refs b = s.kvCacheManager.blockPool.refs b

theorem noted_congr (h : s'.kvCacheManager.blockPool.hashMap = s.kvCacheManager.blockPool.hashMap)
    (id : RequestId) (r : SchedulerRequest) : s'.noted H cfg id r = s.noted H cfg id r := by
  rw [noted, noted, KVCacheManager.getComputedBlocks_congr h]

theorem noted_noted (s : Scheduler) (id : RequestId) (r : SchedulerRequest) :
    s.noted H cfg id (s.noted H cfg id r) = s.noted H cfg id r := by
  by_cases hr : r.cachedBlockIds.isEmpty = true
  · have hnoted : s.noted H cfg id r = { r with
        cachedBlockIds := (s.kvCacheManager.getComputedBlocks H cfg.cache id r.promptTokenIds
          r.request.samplingParams.skipReadingPrefixCache).1.cachedBlockIds
        numComputedTokens := (s.kvCacheManager.getComputedBlocks H cfg.cache id r.promptTokenIds
          r.request.samplingParams.skipReadingPrefixCache).1.numComputedTokens } := if_pos hr
    rw [hnoted, noted]
    dsimp only
    split <;> rfl
  · have hnoted : s.noted H cfg id r = r := if_neg hr
    rw [hnoted, hnoted]

theorem noted_held {r : SchedulerRequest} (hr : r.cachedBlockIds ≠ []) :
    s.noted H cfg id r = r := by
  rw [noted, if_neg (by simpa using hr)]

namespace LookedAt

theorem refl (s : Scheduler) : LookedAt H cfg [] s s :=
  ⟨rfl, rfl, rfl, fun _ => rfl, fun _ _ => rfl⟩

theorem reach_eq {ids : List RequestId} (h : LookedAt H cfg ids s s') :
    s'.reach H cfg = s.reach H cfg := by
  funext i
  rw [reach, reach, h.lookup_eq]
  split
  · rw [Option.map_map]
    congr 2
    funext r
    rw [Function.comp_apply, noted_congr h.hashMap_eq, noted_noted]
  · congr 2
    funext r
    rw [noted_congr h.hashMap_eq]

theorem trans {ids ids' : List RequestId} {s'' : Scheduler} (h : LookedAt H cfg ids s s')
    (h' : LookedAt H cfg ids' s' s'') : LookedAt H cfg (ids ++ ids') s s'' := by
  have hlookup : ∀ i, s''.requests.lookup i = if i ∈ ids ++ ids' then
      (s.requests.lookup i).map (s.noted H cfg i) else s.requests.lookup i := by
    intro i
    rw [h'.lookup_eq, h.lookup_eq]
    by_cases hi : i ∈ ids
    · simp [hi, Function.comp_def, noted_congr h.hashMap_eq, noted_noted]
    · simp [hi, funext (noted_congr h.hashMap_eq i)]
  constructor
  case waiting_eq => exact h'.waiting_eq.trans h.waiting_eq
  case running_eq => exact h'.running_eq.trans h.running_eq
  case hashMap_eq => exact h'.hashMap_eq.trans h.hashMap_eq
  case lookup_eq => exact hlookup
  case refs_eq =>
    intro b hb
    rw [h'.refs_eq b, h.refs_eq b]
    · rintro ⟨i, hi, hpin⟩
      exact hb ⟨i, List.mem_append_left _ hi, hpin⟩
    · rintro ⟨i, hi, r', hr', hc, hmem⟩
      rw [h.lookup_eq] at hr'
      rw [noted_congr h.hashMap_eq] at hmem
      split at hr'
      · -- a request without a hit finds nothing when it is looked at again
        obtain ⟨r, -, rfl⟩ := Option.map_eq_some_iff.mp hr'
        rw [noted_noted, hc] at hmem
        cases hmem
      · exact hb ⟨i, List.mem_append_right _ hi, r', hr', hc, hmem⟩

theorem look (s : Scheduler) (id : RequestId) : LookedAt H cfg [id] s (s.look H cfg id) := by
  unfold Scheduler.look
  cases hr : s.requests.lookup id with
  | none =>
    dsimp only
    refine ⟨rfl, rfl, rfl, fun i => ?_, fun _ _ => rfl⟩
    split
    · rename_i hi
      rw [List.mem_singleton.mp hi, hr]
      rfl
    · rfl
  | some r =>
    dsimp only
    split
    · rename_i hc
      refine ⟨probe_waiting, probe_running, ?_, fun i => ?_, fun b hb => ?_⟩
      · rw [probe_kvCacheManager, KVCacheManager.hashMap_getComputedBlocks]
      · rw [lookup_probe]
        by_cases hi : i = id
        · subst hi
          simp only [if_true, List.mem_singleton, hr, Option.map_some, noted, hc]
        · simp only [hi, if_false, List.mem_singleton]
      · rw [probe_kvCacheManager]
        refine KVCacheManager.refs_getComputedBlocks _ _ _ _ _ fun hmem => hb ?_
        refine ⟨id, List.mem_singleton_self id, r, hr, List.isEmpty_iff.mp hc, ?_⟩
        rw [noted, if_pos hc]
        exact hmem
    · rename_i hc
      refine ⟨rfl, rfl, rfl, fun i => ?_, fun _ _ => rfl⟩
      split
      · rename_i hi
        rw [List.mem_singleton.mp hi, hr, Option.map_some, noted, if_neg hc]
      · rfl

theorem foldl (ids : List RequestId) (s : Scheduler) :
    LookedAt H cfg ids s (ids.foldl (Scheduler.look H cfg) s) := by
  induction ids generalizing s with
  | nil => exact refl s
  | cons id ids ih => exact (look s id).trans (ih _)

theorem note {ids : List RequestId} (h : LookedAt H cfg ids s s') (a : PrefixCacheAdmission) :
    LookedAt H cfg ids s { s' with prefixCacheAdmission := a } :=
  ⟨h.waiting_eq, h.running_eq, h.hashMap_eq, h.lookup_eq, h.refs_eq⟩

theorem of_note {ids : List RequestId} {a : PrefixCacheAdmission}
    (h : LookedAt H cfg ids { s with prefixCacheAdmission := a } s') : LookedAt H cfg ids s s' :=
  ⟨h.waiting_eq, h.running_eq, h.hashMap_eq, h.lookup_eq, h.refs_eq⟩

end LookedAt

/-! ## The scan -/

/-- The best request so far and what it reaches, after one more. -/
def better (f : RequestId → ℕ) (best : RequestId × ℕ) (id : RequestId) : RequestId × ℕ :=
  if best.2 < f id then (id, f id) else best

theorem selectLoop_eq (ids : List RequestId) (best : RequestId) (c : ℕ) (s : Scheduler) :
    selectLoop H cfg ids best c s = ((ids.foldl (better (s.reach H cfg)) (best, c)).1,
      (ids.foldl (better (s.reach H cfg)) (best, c)).2, ids.foldl (Scheduler.look H cfg) s) := by
  induction ids generalizing best c s with
  | nil => rfl
  | cons id ids ih =>
    have hreach : (s.look H cfg id).reach H cfg = s.reach H cfg := (LookedAt.look s id).reach_eq
    have hstep : selectLoop H cfg (id :: ids) best c s =
        selectLoop H cfg ids (better (s.reach H cfg) (best, c) id).1
          (better (s.reach H cfg) (best, c) id).2 (s.look H cfg id) := by
      rw [selectLoop, better, Scheduler.look]
      cases hr : s.requests.lookup id with
      | none => simp [reach, hr]
      | some r =>
        by_cases hc : r.cachedBlockIds.isEmpty = true
        · simp only [hc, if_true, reach, hr, Option.map_some, Option.getD_some, noted, probe_fst]
          split <;> rfl
        · simp only [hc, if_false, reach, hr, Option.map_some, Option.getD_some, noted,
            Bool.false_eq_true]
          split <;> rfl
    rw [hstep, ih, hreach]
    rfl

/-- The first of the requests that reach most. -/
def FirstMost (f : RequestId → ℕ) (ids : List RequestId) (best : RequestId) : Prop :=
  ∃ pre post, ids = pre ++ best :: post ∧ (∀ i ∈ pre, f i < f best) ∧ ∀ i ∈ post, f i ≤ f best

theorem foldl_better (f : RequestId → ℕ) (ids : List RequestId) (best : RequestId) (c : ℕ) :
    ids.foldl (better f) (best, c) = (best, c) ∧ (∀ i ∈ ids, f i ≤ c) ∨
      ∃ b, ids.foldl (better f) (best, c) = (b, f b) ∧ c < f b ∧ FirstMost f ids b := by
  induction ids generalizing best c with
  | nil => exact Or.inl ⟨rfl, by simp⟩
  | cons id ids ih =>
    rw [List.foldl_cons, better]
    split
    · rename_i hlt
      right
      rcases ih id (f id) with ⟨heq, hle⟩ | ⟨b, heq, hlt', pre, post, rfl, hpre, hpost⟩
      · exact ⟨id, heq, hlt, [], ids, rfl, by simp, hle⟩
      · refine ⟨b, heq, hlt.trans hlt', id :: pre, post, rfl, ?_, hpost⟩
        exact List.forall_mem_cons.mpr ⟨hlt', hpre⟩
    · rename_i hge
      have hid : f id ≤ c := not_lt.mp hge
      rcases ih best c with ⟨heq, hle⟩ | ⟨b, heq, hlt', pre, post, rfl, hpre, hpost⟩
      · exact Or.inl ⟨heq, List.forall_mem_cons.mpr ⟨hid, hle⟩⟩
      · refine Or.inr ⟨b, heq, hlt', id :: pre, post, rfl, ?_, hpost⟩
        exact List.forall_mem_cons.mpr ⟨hid.trans_lt hlt', hpre⟩

/-- Started at the first request, with no more than it reaches, the scan finds the first one of
those that reach most. -/
theorem foldl_better_first (f : RequestId → ℕ) (first : RequestId) (rest : List RequestId) {c : ℕ}
    (hc : c ≤ f first) :
    ∃ b, (first :: rest).foldl (better f) (first, c) = (b, f b) ∧
      FirstMost f (first :: rest) b := by
  rcases foldl_better f (first :: rest) first c with ⟨heq, hle⟩ | ⟨b, heq, -, hmost⟩
  · obtain rfl : c = f first := le_antisymm hc (hle first List.mem_cons_self)
    exact ⟨first, heq, [], rest, rfl, by simp, fun i hi => hle i (List.mem_cons_of_mem _ hi)⟩
  · exact ⟨b, heq, hmost⟩

theorem FirstMost.unique {f : RequestId → ℕ} {ids : List RequestId} {b b' : RequestId}
    (h : FirstMost f ids b) (h' : FirstMost f ids b') : b = b' := by
  obtain ⟨pre, post, rfl, hpre, hpost⟩ := h
  obtain ⟨pre', post', heq, hpre', hpost'⟩ := h'
  rcases List.append_eq_append_iff.mp heq with ⟨l, rfl, hl⟩ | ⟨l, rfl, hl⟩
  · cases l with
    | nil => exact (List.cons.inj hl).1
    | cons a l =>
      rw [List.cons_append] at hl
      obtain ⟨rfl, rfl⟩ := List.cons.inj hl
      have hlt := hpre' b (List.mem_append_right _ List.mem_cons_self)
      have hle := hpost b' (List.mem_append_right _ List.mem_cons_self)
      exact absurd hlt (not_lt.mpr hle)
  · cases l with
    | nil => exact (List.cons.inj hl).1.symm
    | cons a l =>
      rw [List.cons_append] at hl
      obtain ⟨rfl, rfl⟩ := List.cons.inj hl
      have hlt := hpre b' (List.mem_append_right _ List.mem_cons_self)
      have hle := hpost' b (List.mem_append_right _ List.mem_cons_self)
      exact absurd hlt (not_lt.mpr hle)

/-! ## The choice -/

/-- The block is in the list of a waiting request that had none before. -/
def NewlyPinned (s s' : Scheduler) (b : BlockId) : Prop :=
  ∃ i ∈ s.waiting.ids, ∃ r r', s.requests.lookup i = some r ∧ r.cachedBlockIds = [] ∧
    s'.requests.lookup i = some r' ∧ b ∈ r'.cachedBlockIds

variable (H cfg) in
/-- The choice of a request, which leads from one state to the next. -/
structure Chooses (s s' : Scheduler) (best : RequestId) : Prop where
  /-- The first of the requests that the cache takes furthest. -/
  earliest : FirstMost (s.reach H cfg) s.waiting.ids best
  /-- Every waiting request was looked up, and its tokens are the ones the cache holds. -/
  probed : ∀ i ∈ s.waiting.ids, s'.computedOf i = s.reach H cfg i
  front : (∀ i ∈ s.waiting.ids, s.reach H cfg i = 0) → s.waiting.peek = some best
  waiting_eq : s'.waiting = s.waiting
  running_eq : s'.running = s.running
  refs_eq : ∀ b, ¬ s.NewlyPinned s' b →
    s'.kvCacheManager.blockPool.refs b = s.kvCacheManager.blockPool.refs b

/-- A waiting request has computed the tokens of its cached blocks, of which it has none without a
prefix cache. -/
def Counted (cfg : Config) (r : SchedulerRequest) : Prop :=
  r.numComputedTokens = r.cachedBlockIds.length * cfg.cache.blockSize ∧
    (cfg.cache.enablePrefixCaching = false → r.cachedBlockIds = [])

theorem keptWaiting_counted : KeptWaiting H cfg (Counted cfg) := by
  constructor
  · intro r
    exact ⟨(Nat.zero_mul _).symm, fun _ => rfl⟩
  · intro he m id r _
    exact ⟨KVCacheManager.getComputedBlocks_num .., fun hoff => by simp [he] at hoff⟩

theorem computedOf_le_reach (h : s.EveryWaiting (Counted cfg)) (hid : id ∈ s.waiting.ids) :
    s.computedOf id ≤ s.reach H cfg id := by
  unfold computedOf reach
  cases hr : s.requests.lookup id with
  | none => exact le_rfl
  | some r =>
    simp only [Option.map_some, Option.getD_some]
    by_cases hc : r.cachedBlockIds = []
    · rw [(h id hid r hr).1, hc, List.length_nil, Nat.zero_mul]
      exact Nat.zero_le _
    · rw [noted_held hc]

theorem LookedAt.computedOf_eq {ids : List RequestId} (h : LookedAt H cfg ids s s')
    (hid : id ∈ ids) : s'.computedOf id = s.reach H cfg id := by
  rw [computedOf, h.lookup_eq, if_pos hid, Option.map_map]
  rfl

theorem reach_off (hoff : cfg.cache.enablePrefixCaching = false)
    (h : s.EveryWaiting (Counted cfg)) (hid : id ∈ s.waiting.ids) :
    s.reach H cfg id = 0 ∧ s.computedOf id = 0 := by
  unfold reach computedOf
  cases hr : s.requests.lookup id with
  | none => exact ⟨rfl, rfl⟩
  | some r =>
    obtain ⟨hnum, hnil⟩ := h id hid r hr
    have hnone := hnil hoff
    simp [noted, hnone, hnum, KVCacheManager.getComputedBlocks, hoff]

theorem LookedAt.refs_eq_of_not_newlyPinned (h : LookedAt H cfg s.waiting.ids s s') {b : BlockId}
    (hb : ¬ s.NewlyPinned s' b) :
    s'.kvCacheManager.blockPool.refs b = s.kvCacheManager.blockPool.refs b := by
  apply h.refs_eq
  rintro ⟨i, hi, r, hr, hc, hmem⟩
  refine hb ⟨i, hi, r, s.noted H cfg i r, hr, hc, ?_, hmem⟩
  rw [h.lookup_eq, if_pos hi, hr]
  rfl

theorem FirstMost.head {f : RequestId → ℕ} {ids : List RequestId} {best : RequestId}
    (h : FirstMost f ids best) (hzero : ∀ i ∈ ids, f i = 0) : ids.head? = some best := by
  obtain ⟨pre, post, rfl, hpre, -⟩ := h
  cases pre with
  | nil => rfl
  | cons a pre =>
    have hlt := hpre a List.mem_cons_self
    rw [hzero a (by simp), hzero best (by simp)] at hlt
    exact absurd hlt (lt_irrefl 0)

theorem selectWaitingRequest_on (he : cfg.cache.enablePrefixCaching = true)
    (hcount : s.EveryWaiting (Counted cfg)) (hw : s.waiting.ids ≠ []) :
    ∃ best s', s.selectWaitingRequest H cfg = (some best, s') ∧
      FirstMost (s.reach H cfg) s.waiting.ids best ∧ LookedAt H cfg s.waiting.ids s s' := by
  obtain ⟨first, rest, hids⟩ := List.exists_cons_of_ne_nil hw
  have hpeek : s.waiting.peek = some first := by rw [RequestQueue.peek, hids]; rfl
  have hstart := computedOf_le_reach (H := H) hcount (RequestQueue.mem_ids_of_peek hpeek)
  obtain ⟨best, hbest, hmost⟩ := foldl_better_first (s.reach H cfg) first rest hstart
  have hlook : LookedAt H cfg s.waiting.ids { s with prefixCacheAdmission := ⟨some first, 0⟩ }
      (s.waiting.ids.foldl (look H cfg) { s with prefixCacheAdmission := ⟨some first, 0⟩ }) :=
    LookedAt.foldl _ _
  have hloop : selectLoop H cfg s.waiting.ids first (s.computedOf first)
      { s with prefixCacheAdmission := ⟨some first, 0⟩ } = (best, s.reach H cfg best,
        s.waiting.ids.foldl (look H cfg) { s with prefixCacheAdmission := ⟨some first, 0⟩ }) := by
    have hscan : s.waiting.ids.foldl (better (s.reach H cfg)) (first, s.computedOf first) =
        (best, s.reach H cfg best) := by
      rw [hids, hbest]
    refine (selectLoop_eq ..).trans ?_
    exact congrArg (fun p : RequestId × ℕ => (p.1, p.2, _)) hscan
  refine ⟨best, _, ?_, hids ▸ hmost, (hlook.note ⟨some best, s.reach H cfg best⟩).of_note⟩
  unfold selectWaitingRequest
  simp only [hpeek, he, Bool.not_true, Bool.false_eq_true, if_false]
  exact congrArg (fun p : RequestId × ℕ × Scheduler =>
    (some p.1, { p.2.2 with prefixCacheAdmission := ⟨some p.1, p.2.1⟩ })) hloop

theorem selectWaitingRequest_off (he : cfg.cache.enablePrefixCaching = false) {first : RequestId}
    (hpeek : s.waiting.peek = some first) : s.selectWaitingRequest H cfg =
      (some first, { s with prefixCacheAdmission := ⟨some first, 0⟩ }) := by
  unfold selectWaitingRequest
  simp only [hpeek, he, Bool.not_false, if_true]

/-- The selection finds the first of the waiting requests that reuse most, and finds it again. -/
theorem selectWaitingRequest_chooses (hcount : s.EveryWaiting (Counted cfg))
    (hw : s.waiting.ids ≠ []) :
    ∃ best s' s'', s.selectWaitingRequest H cfg = (some best, s') ∧ s.Chooses H cfg s' best ∧
      s'.selectWaitingRequest H cfg = (some best, s'') ∧
      (∀ i, s''.requests.lookup i = s'.requests.lookup i) ∧
      ∀ b, s''.kvCacheManager.blockPool.refs b = s'.kvCacheManager.blockPool.refs b := by
  by_cases he : cfg.cache.enablePrefixCaching = true
  · obtain ⟨best, s', hsel, hmost, hlook⟩ := selectWaitingRequest_on (H := H) he hcount hw
    have hcount' : s'.EveryWaiting (Counted cfg) := by
      intro i hi r hr
      rw [hlook.waiting_eq] at hi
      rw [hlook.lookup_eq, if_pos hi] at hr
      obtain ⟨r₀, hr₀, rfl⟩ := Option.map_eq_some_iff.mp hr
      unfold noted
      split
      · exact keptWaiting_counted.probe he _ _ _ (hcount i hi r₀ hr₀)
      · exact hcount i hi r₀ hr₀
    have hw' : s'.waiting.ids ≠ [] := hlook.waiting_eq ▸ hw
    obtain ⟨best', s'', hsel', hagain, hlook'⟩ := selectWaitingRequest_on (H := H) he hcount' hw'
    rw [hlook.waiting_eq, hlook.reach_eq] at hagain
    obtain rfl := hmost.unique hagain
    have hheld : ∀ i ∈ s.waiting.ids, ∀ r, s'.requests.lookup i = some r →
        s'.noted H cfg i r = r := by
      intro i hi r hr
      rw [hlook.lookup_eq, if_pos hi] at hr
      obtain ⟨r₀, -, rfl⟩ := Option.map_eq_some_iff.mp hr
      rw [noted_congr hlook.hashMap_eq, noted_noted]
    refine ⟨best, s', s'', hsel, ⟨hmost, fun i => hlook.computedOf_eq, hmost.head,
      hlook.waiting_eq, hlook.running_eq, fun b => hlook.refs_eq_of_not_newlyPinned⟩, hsel',
      fun i => ?_, fun b => ?_⟩
    · rw [hlook'.lookup_eq, hlook.waiting_eq]
      split
      · rename_i hi
        cases hr : s'.requests.lookup i with
        | none => rfl
        | some r => rw [Option.map_some, hheld i hi r hr]
      · rfl
    · apply hlook'.refs_eq
      rintro ⟨i, hi, r, hr, hc, hmem⟩
      rw [hlook.waiting_eq] at hi
      rw [hheld i hi r hr, hc] at hmem
      cases hmem
  · have hoff : cfg.cache.enablePrefixCaching = false := by simpa using he
    obtain ⟨first, rest, hids⟩ := List.exists_cons_of_ne_nil hw
    have hpeek : s.waiting.peek = some first := by rw [RequestQueue.peek, hids]; rfl
    have hreach : ∀ i ∈ s.waiting.ids, s.reach H cfg i = 0 := fun i hi =>
      (reach_off hoff hcount hi).1
    refine ⟨first, _, _, selectWaitingRequest_off hoff hpeek, ⟨⟨[], rest, hids, by simp, ?_⟩,
      ?_, fun _ => hpeek, rfl, rfl, fun _ _ => rfl⟩, selectWaitingRequest_off hoff hpeek,
      fun _ => rfl, fun _ => rfl⟩
    · intro i hi
      exact (hreach i (hids ▸ List.mem_cons_of_mem _ hi)).le.trans (Nat.zero_le _)
    · intro i hi
      exact (reach_off (H := H) hoff hcount hi).2.trans (hreach i hi).symm

end Scheduler

/-- Between the steps of a run and within them. -/
theorem SchedRun.choosesFirst (hrun : SchedRun H cfg added s)
    (hmoves : Moves H cfg K { sched := s } st) (hw : st.sched.waiting.ids ≠ []) :
    ∃ best s' s'', st.sched.selectWaitingRequest H cfg = (some best, s') ∧
      st.sched.Chooses H cfg s' best ∧ s'.selectWaitingRequest H cfg = (some best, s'') ∧
      (∀ i, s''.requests.lookup i = s'.requests.lookup i) ∧
      ∀ b, s''.kvCacheManager.blockPool.refs b = s'.kvCacheManager.blockPool.refs b :=
  Scheduler.selectWaitingRequest_chooses (hmoves.everyWaiting Scheduler.keptWaiting_counted
    hrun.partition.1 (hrun.everyWaiting Scheduler.keptWaiting_counted)) hw

/-- The first request is cached when two others come: one without a hit and one with its prompt. -/
def hitQueue : Scheduler :=
  (((((Scheduler.new (smallConfig 8 true)).addRequest (smallConfig 8 true)
    (smallRequest 1 [5])).step smallHash (smallConfig 8 true) .id).2.addRequest
      (smallConfig 8 true) (smallRequest 2 [7])).addRequest (smallConfig 8 true)
        (smallRequest 3 [5, 6]))

theorem schedRun_hitQueue : SchedRun smallHash (smallConfig 8 true)
    [smallRequest 1 [5], smallRequest 2 [7], smallRequest 3 [5, 6]] hitQueue :=
  .addRequest (smallRequest 3 [5, 6]) (.addRequest (smallRequest 2 [7]) (.step .id
    (.addRequest (smallRequest 1 [5]) .new (by decide))) (by decide)) (by decide)

theorem SchedRun.choosesFirst_hit :
    ∃ s' s'', hitQueue.selectWaitingRequest smallHash (smallConfig 8 true) = (some 3, s') ∧
      hitQueue.Chooses smallHash (smallConfig 8 true) s' 3 ∧
      s'.selectWaitingRequest smallHash (smallConfig 8 true) = (some 3, s'') ∧
      (∀ i, s''.requests.lookup i = s'.requests.lookup i) ∧
      ∀ b, s''.kvCacheManager.blockPool.refs b = s'.kvCacheManager.blockPool.refs b := by
  obtain ⟨best, s', s'', hsel, hrest⟩ := SchedRun.choosesFirst (K := .any)
    schedRun_hitQueue .refl (by decide +kernel)
  have hbest : (hitQueue.selectWaitingRequest smallHash (smallConfig 8 true)).1 = some 3 := by
    decide +kernel
  rw [hsel] at hbest
  obtain rfl := Option.some.inj hbest
  exact ⟨s', s'', hsel, hrest⟩

end Rllm
