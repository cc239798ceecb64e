import Rllm.Scheduler.TableSources

/-! # What the prefix cache has seen

As long as nothing is evicted, the blocks registered since the prefix cache was
last reset are all cached. A lookup then finds the longest prefix of a prompt
that was registered before, and a request keeps what its last lookup found.
-/

namespace Rllm

/-- The event hands out a block that another one registers. -/
def CacheEvent.Evicts : CacheEvent → CacheEvent → Prop
  | .handedOut b, .registered b' _ _ => b = b'
  | _, _ => False

instance : (e e' : CacheEvent) → Decidable (e.Evicts e')
  | .handedOut b, .registered b' _ _ => inferInstanceAs (Decidable (b = b'))
  | .handedOut _, .handedOut _ => isFalse not_false
  | .handedOut _, .lookedUp _ _ _ => isFalse not_false
  | .registered _ _ _, _ => isFalse not_false
  | .lookedUp _ _ _, _ => isFalse not_false

/-- No block is handed out after it was registered. -/
def NoEviction (log : List CacheEvent) : Prop := log.Pairwise fun e e' => ¬ e'.Evicts e

instance (log : List CacheEvent) : Decidable (NoEviction log) :=
  inferInstanceAs (Decidable (log.Pairwise _))

/-- The tokens up to the end of a block that was registered for one of the requests. -/
def RegisteredPrefix (blockSize : ℕ) (requests : List InferenceRequest) (log : List CacheEvent)
    (tokens : List Token) : Prop :=
  ∃ q ∈ requests, ∃ b i, .registered b q.requestId i ∈ log ∧
    tokens = q.promptTokens.take ((i + 1) * blockSize)

/-- `n` is the number of blocks from the start of a prompt up to the first whose end is not in a
set of prefixes. -/
structure LongestPrefix (blockSize : ℕ) (prefixes : List Token → Prop) (prompt : List Token)
    (n : ℕ) : Prop where
  fits : n * blockSize ≤ prompt.length
  mem : ∀ i < n, prefixes (prompt.take ((i + 1) * blockSize))
  miss : (n + 1) * blockSize ≤ prompt.length → ¬ prefixes (prompt.take ((n + 1) * blockSize))

section LongestPrefix

variable {blockSize n n' : ℕ} {P P' : List Token → Prop} {prompt : List Token}

theorem LongestPrefix.le (h : LongestPrefix blockSize P prompt n)
    (h' : LongestPrefix blockSize P prompt n') : n ≤ n' := by
  by_contra hlt
  push Not at hlt
  have hfits : (n' + 1) * blockSize ≤ prompt.length :=
    (Nat.mul_le_mul_right _ (Nat.succ_le_of_lt hlt)).trans h.fits
  exact h'.miss hfits (h.mem n' hlt)

theorem LongestPrefix.unique (h : LongestPrefix blockSize P prompt n)
    (h' : LongestPrefix blockSize P prompt n') : n = n' :=
  le_antisymm (h.le h') (h'.le h)

theorem LongestPrefix.congr (h : LongestPrefix blockSize P prompt n)
    (hiff : ∀ i, (i + 1) * blockSize ≤ prompt.length →
      (P (prompt.take ((i + 1) * blockSize)) ↔ P' (prompt.take ((i + 1) * blockSize)))) :
    LongestPrefix blockSize P' prompt n where
  fits := h.fits
  mem i hi := by
    refine (hiff i ?_).mp (h.mem i hi)
    exact (Nat.mul_le_mul_right _ (Nat.succ_le_of_lt hi)).trans h.fits
  miss hfits hP := h.miss hfits ((hiff n hfits).mpr hP)

end LongestPrefix

variable {H : HashFns} {cfg : Config} {c : CacheConfig} {K : Guards} {n : ℕ} {s s' : Scheduler}
  {st st' : StepState} {added all : List InferenceRequest} {log es : List CacheEvent}
  {id : RequestId}

theorem NoEviction.of_append (h : NoEviction (log ++ es)) : NoEviction log :=
  (List.pairwise_append.mp h).1

/-! ## The manager -/

namespace KVCacheManager

variable {m m' : KVCacheManager} {rid : RequestId}

/-- The hash map and the lookups so far are as the history tells. -/
structure Recorded (H : HashFns) (c : CacheConfig) (all : List InferenceRequest)
    (log : List CacheEvent) (m : KVCacheManager) : Prop where
  listed : ∀ g, ∀ b ∈ m.blockPool.listed g, ∃ q ∈ all, ∃ i,
    .registered b q.requestId i ∈ log ∧ (promptHashes H c q.promptTokens)[i]? = some g
  registered : ∀ b id i, .registered b id i ∈ log → ∃ q ∈ all, q.requestId = id ∧ q.Reads c ∧
    ∃ g, (promptHashes H c q.promptTokens)[i]? = some g ∧
      (NoEviction log → b ∈ m.blockPool.listed g)
  lookups : ∀ k id prompt blocks, log[k]? = some (.lookedUp id prompt blocks) → ∃ q ∈ all,
    q.requestId = id ∧ q.Reads c ∧ (NoEviction (log.take k) → LongestPrefix c.blockSize
      (RegisteredPrefix c.blockSize all (log.take k)) q.promptTokens blocks.length)

namespace Recorded

theorem congr (h : m.Recorded H c all log) (hl : m'.blockPool.listed = m.blockPool.listed) :
    m'.Recorded H c all log where
  listed := by
    rw [hl]
    exact h.listed
  registered := by
    rw [hl]
    exact h.registered
  lookups := h.lookups

theorem lookups_append (h : m.Recorded H c all log)
    (hes : ∀ id prompt blocks, .lookedUp id prompt blocks ∉ es) (k : ℕ) (id : RequestId)
    (prompt : List Token) (blocks : List BlockId)
    (hk : (log ++ es)[k]? = some (.lookedUp id prompt blocks)) : ∃ q ∈ all, q.requestId = id ∧
      q.Reads c ∧ (NoEviction ((log ++ es).take k) → LongestPrefix c.blockSize
        (RegisteredPrefix c.blockSize all ((log ++ es).take k)) q.promptTokens blocks.length) := by
  rcases Nat.lt_or_ge k log.length with hlt | hge
  · rw [List.getElem?_append_left hlt] at hk
    rw [List.take_append_of_le_length hlt.le]
    exact h.lookups k id prompt blocks hk
  · rw [List.getElem?_append_right hge] at hk
    exact absurd (List.mem_of_getElem? hk) (hes id prompt blocks)

theorem handOut (h : m.Recorded H c all log) {bs : List BlockId}
    (hl : ∀ g, m'.blockPool.listed g = (m.blockPool.listed g).filter (· ∉ bs)) :
    m'.Recorded H c all (log ++ bs.map .handedOut) where
  listed g b hb := by
    rw [hl] at hb
    obtain ⟨q, hq, i, hi, hg⟩ := h.listed g b (List.mem_filter.mp hb).1
    exact ⟨q, hq, i, List.mem_append_left _ hi, hg⟩
  registered b id i hi := by
    have hold : .registered b id i ∈ log := by
      refine (List.mem_append.mp hi).resolve_right fun hi => ?_
      obtain ⟨_, -, he⟩ := List.mem_map.mp hi
      cases he
    obtain ⟨q, hq, hid, hr, g, hg, hb⟩ := h.registered b id i hold
    refine ⟨q, hq, hid, hr, g, hg, fun hev => ?_⟩
    rw [hl, List.mem_filter, decide_eq_true_eq]
    refine ⟨hb hev.of_append, fun hbs => ?_⟩
    exact (List.pairwise_append.mp hev).2.2 _ hold _ (List.mem_map_of_mem hbs) rfl
  lookups := h.lookups_append fun id prompt blocks he => by
    obtain ⟨_, -, he⟩ := List.mem_map.mp he
    cases he

theorem register (h : m.Recorded H c all log) {rs : List (ℕ × BlockId × BlockHash)}
    (hreg : Registered m rid rs m') {q : InferenceRequest} (hq : q ∈ all) (hid : q.requestId = rid)
    (hrs : ∀ i b g, (i, b, g) ∈ rs → q.Reads c ∧ (promptHashes H c q.promptTokens)[i]? = some g) :
    m'.Recorded H c all (log ++ rs.map fun x => .registered x.2.1 rid x.1) where
  listed g b hb := by
    rcases (hreg.mem_listed g b).mp hb with hb | ⟨i, hi⟩
    · obtain ⟨q', hq', i, hi, hg⟩ := h.listed g b hb
      exact ⟨q', hq', i, List.mem_append_left _ hi, hg⟩
    · refine ⟨q, hq, i, List.mem_append_right _ ?_, (hrs i b g hi).2⟩
      rw [hid]
      exact List.mem_map.mpr ⟨_, hi, rfl⟩
  registered b id i hi := by
    rcases List.mem_append.mp hi with hi | hi
    · obtain ⟨q', hq', hid', hr, g, hg, hb⟩ := h.registered b id i hi
      refine ⟨q', hq', hid', hr, g, hg, fun hev => ?_⟩
      exact (hreg.mem_listed g b).mpr (Or.inl (hb hev.of_append))
    · obtain ⟨⟨j, b', g⟩, hmem, he⟩ := List.mem_map.mp hi
      obtain ⟨rfl, rfl, rfl⟩ := CacheEvent.registered.inj he
      obtain ⟨hr, hg⟩ := hrs _ _ _ hmem
      exact ⟨q, hq, hid, hr, g, hg, fun _ => (hreg.mem_listed g b').mpr (Or.inr ⟨j, hmem⟩)⟩
  lookups := h.lookups_append fun id prompt blocks he => by
    obtain ⟨_, -, he⟩ := List.mem_map.mp he
    cases he

/-- As long as nothing was evicted, the blocks found are the longest registered prefix. -/
theorem longest (h : m.Recorded H c all log) (hinj : ChainInjective H c (all.map (·.promptTokens)))
    (hnd : (all.map (·.requestId)).Nodup) (hev : NoEviction log) {q : InferenceRequest}
    (hq : q ∈ all) {blocks : List BlockId}
    (hf : Found m.blockPool (promptHashes H c q.promptTokens) blocks) :
    LongestPrefix c.blockSize (RegisteredPrefix c.blockSize all log) q.promptTokens
      blocks.length where
  fits := by
    have hle := hf.length_le
    rw [promptHashes, length_computeBlockHashes] at hle
    exact (Nat.mul_le_mul_right _ hle).trans (Nat.div_mul_le_self _ _)
  mem i hi := by
    obtain ⟨g, hg, hhead⟩ := hf.head_eq i blocks[i] (List.getElem?_eq_getElem hi)
    obtain ⟨q', hq', j, hj, hg'⟩ := h.listed g _ (List.mem_of_mem_head? hhead)
    obtain ⟨rfl, htake⟩ := hinj _ (List.mem_map_of_mem hq) _ (List.mem_map_of_mem hq') i j g hg hg'
    exact ⟨q', hq', _, i, hj, htake⟩
  miss := by
    rintro hfits ⟨q', hq', b, i, hi, htake⟩
    obtain ⟨q₁, hq₁, hid, -, g, hg, hb⟩ := h.registered b _ i hi
    obtain rfl := List.inj_on_of_nodup_map hnd hq₁ hq' hid
    have hlen := congrArg List.length htake
    rw [List.length_take, List.length_take, min_eq_left hfits,
      min_eq_left (le_length_of_promptHashes hg)] at hlen
    obtain rfl : blocks.length = i := by
      have := Nat.eq_of_mul_eq_mul_right c.blockSize_pos hlen
      omega
    have hlt : blocks.length < (promptHashes H c q.promptTokens).length := by
      rw [promptHashes, length_computeBlockHashes]
      exact (Nat.le_div_iff_mul_le c.blockSize_pos).mpr hfits
    have hgq := promptHashes_of_take htake.symm hlt le_rfl hg
    have hnil := hf.miss g hgq
    have hmem := hb hev
    rw [hnil] at hmem
    cases hmem

theorem lookup (h : m.Recorded H c all log) (hinj : ChainInjective H c (all.map (·.promptTokens)))
    (hnd : (all.map (·.requestId)).Nodup) {q : InferenceRequest} (hq : q ∈ all) (hr : q.Reads c)
    {blocks : List BlockId} (hf : Found m.blockPool (promptHashes H c q.promptTokens) blocks)
    (hl : m'.blockPool.listed = m.blockPool.listed) :
    m'.Recorded H c all (log ++ [.lookedUp q.requestId q.promptTokens blocks]) where
  listed g b hb := by
    obtain ⟨q', hq', i, hi, hg⟩ := h.listed g b (hl ▸ hb)
    exact ⟨q', hq', i, List.mem_append_left _ hi, hg⟩
  registered b id i hi := by
    have hold : .registered b id i ∈ log := (List.mem_append.mp hi).resolve_right (by simp)
    obtain ⟨q', hq', hid, hr', g, hg, hb⟩ := h.registered b id i hold
    exact ⟨q', hq', hid, hr', g, hg, fun hev => hl ▸ hb hev.of_append⟩
  lookups k id prompt blocks' hk := by
    rcases Nat.lt_or_ge k log.length with hlt | hge
    · rw [List.getElem?_append_left hlt] at hk
      rw [List.take_append_of_le_length hlt.le]
      exact h.lookups k id prompt blocks' hk
    · rw [List.getElem?_append_right hge] at hk
      obtain hz : k - log.length = 0 := by
        have := (List.getElem?_eq_some_iff.mp hk).1
        simpa using this
      rw [hz] at hk
      obtain ⟨rfl, rfl, rfl⟩ := CacheEvent.lookedUp.inj (Option.some.inj hk)
      rw [List.take_append, List.take_of_length_le hge, hz, List.take_zero, List.append_nil]
      exact ⟨q, hq, rfl, hr, fun hev => h.longest hinj hnd hev hq hf⟩

end Recorded

/-! ## Who has a table -/

theorem mem_free : id ∈ (m.free rid).requestBlocks ↔ id ≠ rid ∧ id ∈ m.requestBlocks := by
  simp [KVCacheManager.free, AList.mem_erase]

theorem mem_getComputedBlocks {q : InferenceRequest} (hr : q.Reads c) (rid id : RequestId) :
    id ∈ (m.getComputedBlocks H c rid q.promptTokens
      q.samplingParams.skipReadingPrefixCache).2.requestBlocks ↔
      id = rid ∨ id ∈ m.requestBlocks := by
  obtain ⟨hon, hskip, hne⟩ := hr
  simp [KVCacheManager.getComputedBlocks, hon, hskip, hne]

theorem log_getComputedBlocks {q : InferenceRequest} (hr : q.Reads c) (rid : RequestId) :
    (m.getComputedBlocks H c rid q.promptTokens
      q.samplingParams.skipReadingPrefixCache).2.log = m.log ++ [.lookedUp rid q.promptTokens
        (m.getComputedBlocks H c rid q.promptTokens
          q.samplingParams.skipReadingPrefixCache).1.cachedBlockIds] := by
  obtain ⟨hon, hskip, hne⟩ := hr
  simp [KVCacheManager.getComputedBlocks, hon, hskip, hne]

theorem requestBlocks_allocateSlots_none {total computed : ℕ}
    (ha : m.allocateSlots c rid total computed = (none, m')) :
    m'.requestBlocks = m.requestBlocks := by
  unfold allocateSlots at ha
  dsimp only at ha
  split at ha
  · cases (Prod.mk.inj ha).1
  · split at ha
    · obtain ⟨-, rfl⟩ := Prod.mk.inj ha
      rfl
    · cases (Prod.mk.inj ha).1

theorem mem_allocateSlots_some {total computed : ℕ} {bs : List BlockId} (hlt : computed < total)
    (ha : m.allocateSlots c rid total computed = (some bs, m')) (id : RequestId) :
    id ∈ m'.requestBlocks ↔ id = rid ∨ id ∈ m.requestBlocks := by
  unfold allocateSlots at ha
  dsimp only at ha
  split at ha
  · omega
  · split at ha
    · cases (Prod.mk.inj ha).1
    · obtain ⟨-, rfl⟩ := Prod.mk.inj ha
      simp

theorem mem_of_table_ne_nil (h : m.table rid ≠ []) : rid ∈ m.requestBlocks := by
  have hpos := List.length_pos_of_ne_nil h
  rw [← AList.lookup_isSome, lookup_of_table hpos]
  rfl

end KVCacheManager

/-! ## The scheduler -/

/-- The event is a lookup of the request. -/
def CacheEvent.LooksUp (id : RequestId) : CacheEvent → Prop
  | .lookedUp id' _ _ => id' = id
  | _ => False

instance (id : RequestId) : (e : CacheEvent) → Decidable (e.LooksUp id)
  | .lookedUp id' _ _ => inferInstanceAs (Decidable (id' = id))
  | .handedOut _ => isFalse not_false
  | .registered _ _ _ => isFalse not_false

/-- The last lookup of a request returned the blocks. -/
def LastLookup (log : List CacheEvent) (id : RequestId) (blocks : List BlockId) : Prop :=
  ∃ pre prompt post, log = pre ++ .lookedUp id prompt blocks :: post ∧ ∀ e ∈ post, ¬ e.LooksUp id

theorem LastLookup.append {blocks : List BlockId} (h : LastLookup log id blocks)
    (hes : ∀ e ∈ es, ¬ e.LooksUp id) : LastLookup (log ++ es) id blocks := by
  obtain ⟨pre, prompt, post, rfl, hpost⟩ := h
  refine ⟨pre, prompt, post ++ es, by simp, fun e he => ?_⟩
  exact (List.mem_append.mp he).elim (hpost e) (hes e)

namespace Scheduler

/-- A request that reads the prefix cache keeps what its last lookup found, and has been looked up
when it runs. Any other request has found nothing. -/
structure Keeps (c : CacheConfig) (log : List CacheEvent) (s : Scheduler) (id : RequestId)
    (r : SchedulerRequest) : Prop where
  started : r.request.Reads c → id ∈ s.running → id ∈ s.kvCacheManager.requestBlocks
  last : r.request.Reads c → id ∈ s.kvCacheManager.requestBlocks →
    LastLookup log id r.cachedBlockIds
  unread : ¬ r.request.Reads c → r.cachedBlockIds = []

/-- The history since the last reset of the prefix cache says what is cached and what the requests
have found. -/
structure Recorded (H : HashFns) (c : CacheConfig) (all : List InferenceRequest)
    (log : List CacheEvent) (s : Scheduler) : Prop where
  cache : s.kvCacheManager.Recorded H c all log
  tracked : ∀ id ∈ s.kvCacheManager.requestBlocks, id ∈ s.requests
  keeps : ∀ id r, s.requests.lookup id = some r → s.Keeps c log id r

namespace Recorded

/-- What the entry of a request has to do with the prefix cache. -/
def entry (s : Scheduler) (id : RequestId) : Option (InferenceRequest × List BlockId) :=
  (s.requests.lookup id).map fun r => (r.request, r.cachedBlockIds)

theorem mem_of_entry (h : entry s' id = entry s id) (hm : id ∈ s.requests) : id ∈ s'.requests := by
  obtain ⟨r, hr⟩ := mem_requests_iff.mp hm
  rw [entry, entry, hr] at h
  obtain ⟨r', hr', -⟩ := Option.map_eq_some_iff.mp h
  exact mem_requests_iff.mpr ⟨r', hr'⟩

theorem of_entry (h : entry s' id = entry s id) {r' : SchedulerRequest}
    (hr' : s'.requests.lookup id = some r') : ∃ r, s.requests.lookup id = some r ∧
      r'.request = r.request ∧ r'.cachedBlockIds = r.cachedBlockIds := by
  rw [entry, hr', entry] at h
  obtain ⟨r, hr, he⟩ := Option.map_eq_some_iff.mp h.symm
  obtain ⟨hreq, hc⟩ := Prod.mk.inj he
  exact ⟨r, hr, hreq.symm, hc.symm⟩

theorem map_entry {f : SchedulerRequest → SchedulerRequest} (id i : RequestId)
    (hf : ∀ r, (f r).request = r.request ∧ (f r).cachedBlockIds = r.cachedBlockIds) :
    (if id = i then (s.requests.lookup id).map f else s.requests.lookup id).map
      (fun r => (r.request, r.cachedBlockIds)) = entry s id := by
  split
  · rw [entry, Option.map_map]
    refine congrArg (Option.map · _) (funext fun r => ?_)
    exact Prod.ext (hf r).1 (hf r).2
  · rfl

theorem entry_modifyRequest {f : SchedulerRequest → SchedulerRequest} (id i : RequestId)
    (hf : ∀ r, (f r).request = r.request ∧ (f r).cachedBlockIds = r.cachedBlockIds) :
    entry (s.modifyRequest i f) id = entry s id := by
  rw [entry, lookup_modifyRequest]
  exact map_entry id i hf

theorem admitted (h : s.Recorded H c all log) {r : SchedulerRequest}
    (hr : s.requests.lookup id = some r)
    (hid : r.request.Reads c → id ∈ s.kvCacheManager.requestBlocks) {i : RequestId}
    {r₁ : SchedulerRequest} (hr₁ : s.requests.lookup i = some r₁) (hread : r₁.request.Reads c)
    (hi : i ∈ s.running ++ [id] ∨ i = id ∨ i ∈ s.kvCacheManager.requestBlocks) :
    i ∈ s.kvCacheManager.requestBlocks := by
  have hself : i = id → i ∈ s.kvCacheManager.requestBlocks := by
    rintro rfl
    obtain rfl := Option.some.inj (hr.symm.trans hr₁)
    exact hid hread
  rcases hi with hi | he | hi
  · rcases List.mem_append.mp hi with hi | hi
    · exact (h.keeps i r₁ hr₁).started hread hi
    · exact hself (List.mem_singleton.mp hi)
  · exact hself he
  · exact hi

theorem frame (h : s.Recorded H c all log) (hcache : s'.kvCacheManager.Recorded H c all (log ++ es))
    (hes : ∀ e ∈ es, ∀ i, ¬ e.LooksUp i) (hentry : ∀ i, entry s' i = entry s i)
    (hkeep : ∀ i ∈ s.kvCacheManager.requestBlocks, i ∈ s'.kvCacheManager.requestBlocks)
    (htracked : ∀ i ∈ s'.kvCacheManager.requestBlocks,
      i ∈ s.kvCacheManager.requestBlocks ∨ i ∈ s.requests)
    (hstart : ∀ i r, s.requests.lookup i = some r → r.request.Reads c →
      i ∈ s'.running ∨ i ∈ s'.kvCacheManager.requestBlocks →
      i ∈ s.kvCacheManager.requestBlocks) : s'.Recorded H c all (log ++ es) where
  cache := hcache
  tracked i hi := mem_of_entry (hentry i) ((htracked i hi).elim (h.tracked i) fun hi => hi)
  keeps i r' hr' := by
    obtain ⟨r, hr, hreq, hc⟩ := of_entry (hentry i) hr'
    have hk := h.keeps i r hr
    constructor
    · intro hread hid
      exact hkeep i (hstart i r hr (hreq ▸ hread) (Or.inl hid))
    · intro hread hm
      rw [hc]
      refine (hk.last (hreq ▸ hread) ?_).append fun e he => hes e he i
      exact hstart i r hr (hreq ▸ hread) (Or.inr hm)
    · intro hread
      rw [hc]
      exact hk.unread (hreq ▸ hread)

theorem same (h : s.Recorded H c all log) (hkv : s'.kvCacheManager = s.kvCacheManager)
    (hrun : s'.running = s.running) (hentry : ∀ i, entry s' i = entry s i) :
    s'.Recorded H c all log where
  cache := hkv ▸ h.cache
  tracked i hi := mem_of_entry (hentry i) (h.tracked i (hkv ▸ hi))
  keeps i r' hr' := by
    obtain ⟨r, hr, hreq, hc⟩ := of_entry (hentry i) hr'
    obtain ⟨hstarted, hlast, hunread⟩ := h.keeps i r hr
    rw [← hreq, ← hc] at *
    exact ⟨by rwa [hkv, hrun], by rwa [hkv], hunread⟩

theorem free (h : s.Recorded H c all log) (id : RequestId)
    (hkv : s'.kvCacheManager = s.kvCacheManager.free id)
    (hrun : s'.running = s.running.filter (· ≠ id)) (hentry : ∀ i ≠ id, entry s' i = entry s i)
    (hid : ∀ r', s'.requests.lookup id = some r' → ¬ r'.request.Reads c → r'.cachedBlockIds = []) :
    s'.Recorded H c all log where
  cache := by
    rw [hkv]
    exact h.cache.congr (KVCacheManager.listed_manager_free _ _)
  tracked i hi := by
    rw [hkv, KVCacheManager.mem_free] at hi
    exact mem_of_entry (hentry i hi.1) (h.tracked i hi.2)
  keeps i r' hr' := by
    by_cases hne : i = id
    · subst hne
      refine ⟨fun _ hi => ?_, fun _ hm => ?_, hid r' hr'⟩
      · simp [hrun] at hi
      · simp [hkv, KVCacheManager.mem_free] at hm
    · obtain ⟨r, hr, hreq, hc⟩ := of_entry (hentry i hne) hr'
      have hk := h.keeps i r hr
      constructor
      · intro hread hi
        rw [hkv, KVCacheManager.mem_free]
        rw [hrun] at hi
        exact ⟨hne, hk.started (hreq ▸ hread) (List.mem_filter.mp hi).1⟩
      · intro hread hm
        rw [hkv, KVCacheManager.mem_free] at hm
        exact hc ▸ hk.last (hreq ▸ hread) hm.2
      · intro hread
        exact hc.trans (hk.unread (hreq ▸ hread))

theorem entry_probe (cfg : Config) (s : Scheduler) (id i : RequestId) (prompt : List Token)
    (skip : Bool) : entry (s.probe H cfg id prompt skip).2 i = if i = id then
      (entry s i).map fun x => (x.1,
        (s.kvCacheManager.getComputedBlocks H cfg.cache id prompt skip).1.cachedBlockIds)
    else entry s i := by
  unfold entry
  rw [lookup_probe]
  split
  · rw [Option.map_map, Option.map_map]
    rfl
  · rfl

theorem looked (h : s.Recorded H c all log) (hinj : ChainInjective H c (all.map (·.promptTokens)))
    (hnd : (all.map (·.requestId)).Nodup) {r : SchedulerRequest}
    (hr : s.requests.lookup id = some r) (hid : r.request.requestId = id) (hq : r.request ∈ all)
    (hread : r.request.Reads c) {blocks : List BlockId}
    (hf : Found s.kvCacheManager.blockPool (promptHashes H c r.request.promptTokens) blocks)
    (hl : s'.kvCacheManager.blockPool.listed = s.kvCacheManager.blockPool.listed)
    (hmem : ∀ i, i ∈ s'.kvCacheManager.requestBlocks ↔
      i = id ∨ i ∈ s.kvCacheManager.requestBlocks)
    (hrun : s'.running = s.running) (hentry : ∀ i, entry s' i = if i = id then
      (entry s i).map fun x => (x.1, blocks) else entry s i) :
    s'.Recorded H c all (log ++ [.lookedUp id r.request.promptTokens blocks]) := by
  subst hid
  have hself := (hentry r.request.requestId).trans (if_pos rfl)
  rw [entry, entry, hr] at hself
  constructor
  · exact h.cache.lookup hinj hnd hq hread hf hl
  · intro i hi
    by_cases hne : i = r.request.requestId
    · subst hne
      obtain ⟨r', hr', -⟩ := Option.map_eq_some_iff.mp hself
      exact mem_requests_iff.mpr ⟨r', hr'⟩
    · have he := (hentry i).trans (if_neg hne)
      exact mem_of_entry he (h.tracked i (((hmem i).mp hi).resolve_left hne))
  · intro i r' hr'
    by_cases hne : i = r.request.requestId
    · subst hne
      rw [hr'] at hself
      obtain ⟨hreq, hc⟩ := Prod.mk.inj (Option.some.inj hself)
      refine ⟨fun _ _ => (hmem _).mpr (Or.inl rfl), fun _ _ => ?_, fun hn => ?_⟩
      · exact ⟨log, _, [], by rw [hc], fun e he => by cases he⟩
      · exact absurd (hreq ▸ hread) hn
    · have he := (hentry i).trans (if_neg hne)
      obtain ⟨r₁, hr₁, hreq, hc⟩ := of_entry he hr'
      have hk := h.keeps i r₁ hr₁
      constructor
      · intro hread' hi
        rw [hrun] at hi
        exact (hmem i).mpr (Or.inr (hk.started (hreq ▸ hread') hi))
      · intro hread' hm
        rw [hc]
        refine (hk.last (hreq ▸ hread') (((hmem i).mp hm).resolve_left hne)).append fun e he => ?_
        rw [List.mem_singleton.mp he]
        exact fun hi => hne hi.symm
      · intro hread'
        exact hc.trans (hk.unread (hreq ▸ hread'))

theorem probe (h : s.Recorded H cfg.cache all log) (hinv : s.Inv H cfg n) (hknown : s.Known added)
    (hall : ∀ q ∈ added, q ∈ all) (hnd : (all.map (·.requestId)).Nodup)
    (hinj : ChainInjective H cfg.cache (all.map (·.promptTokens))) (hid : id ∈ s.waiting.ids)
    {r : SchedulerRequest} (hr : s.requests.lookup id = some r) (hc : r.cachedBlockIds = []) :
    ∃ es, (s.probe H cfg id r.promptTokenIds
        r.request.samplingParams.skipReadingPrefixCache).2.kvCacheManager.log =
        s.kvCacheManager.log ++ es ∧
      (s.probe H cfg id r.promptTokenIds
        r.request.samplingParams.skipReadingPrefixCache).2.Recorded H cfg.cache all
        (log ++ es) := by
  have hw := (hinv.each id).waiting hid r hr
  obtain ⟨hadd, hrid, hprompt⟩ := hknown id r hr
  rw [hprompt]
  have hentry := fun i => entry_probe (H := H) cfg s id i r.request.promptTokens
    r.request.samplingParams.skipReadingPrefixCache
  cases hg : s.kvCacheManager.getComputedBlocks H cfg.cache id r.request.promptTokens
      r.request.samplingParams.skipReadingPrefixCache with
  | mk res kv =>
    have hkv : (s.probe H cfg id r.request.promptTokens
        r.request.samplingParams.skipReadingPrefixCache).2.kvCacheManager = kv := by
      rw [probe_kvCacheManager, hg]
    simp only [hg] at hentry
    rw [hkv]
    by_cases hread : r.request.Reads cfg.cache
    · have hlog := KVCacheManager.log_getComputedBlocks (H := H) (m := s.kvCacheManager) hread id
      have hmem : ∀ i, i ∈ kv.requestBlocks ↔ i = id ∨ i ∈ s.kvCacheManager.requestBlocks := by
        intro i
        have h := KVCacheManager.mem_getComputedBlocks (H := H) (m := s.kvCacheManager) hread id i
        rwa [hg] at h
      rw [hg] at hlog
      obtain ⟨-, -, -, hl, ⟨hsame, -⟩ | ⟨-, hf⟩⟩ :=
        hinv.kv.getComputedBlocks (hw.table_eq.trans hc) hg
      · rw [hsame] at hlog
        simp at hlog
      · refine ⟨_, hlog,
          h.looked hinj hnd hr hrid (hall _ hadd) hread hf ?_ ?_ probe_running hentry⟩
        · rw [hkv, hl]
        · rw [hkv]
          exact hmem
    · obtain ⟨rfl, rfl⟩ := KVCacheManager.getComputedBlocks_reads hg hread
      refine ⟨[], by simp, h.frame ?_ (fun e he => by cases he) (fun i => ?_) ?_ ?_ ?_⟩
      · rw [hkv, List.append_nil]
        exact h.cache
      · rw [hentry]
        split
        · rename_i hi
          rw [hi, entry, hr, Option.map_some, Option.map_some, hc]
        · rfl
      · rw [hkv]
        exact fun i hi => hi
      · rw [hkv]
        exact fun i hi => Or.inl hi
      · rw [hkv, probe_running]
        exact fun i r₁ hr₁ hread₁ hi => hi.elim ((h.keeps i r₁ hr₁).started hread₁) fun hi => hi

end Recorded

end Scheduler

theorem StepState.cachedOf_mem {st₁ : StepState} {numCached : ℕ}
    (hst : st₁.cachedOf H cfg id = (numCached, st)) (hinv : st.sched.Inv H cfg n)
    (hknown : st.sched.Known added) {r : SchedulerRequest} (hid : id ∈ st.sched.waiting.ids)
    (hr : st.sched.requests.lookup id = some r) (hread : r.request.Reads cfg.cache) :
    id ∈ st.sched.kvCacheManager.requestBlocks := by
  have hw := (hinv.each id).waiting hid r hr
  obtain ⟨-, -, hprompt⟩ := hknown id r hr
  unfold cachedOf at hst
  dsimp only at hst
  split at hst
  · obtain ⟨-, rfl⟩ := Prod.mk.inj hst
    dsimp only at hr ⊢
    rw [Scheduler.lookup_probe, if_pos rfl] at hr
    obtain ⟨r₀, hr₀, rfl⟩ := Option.map_eq_some_iff.mp hr
    simp only [hr₀, Option.map_some, Option.getD_some, Scheduler.probe_kvCacheManager]
    dsimp only at hprompt hread
    rw [hprompt]
    exact (KVCacheManager.mem_getComputedBlocks hread id id).mpr (Or.inl rfl)
  · rename_i hc
    obtain ⟨-, rfl⟩ := Prod.mk.inj hst
    refine KVCacheManager.mem_of_table_ne_nil ?_
    rw [hw.table_eq]
    simpa [hr, hread.1] using hc

theorem StepState.selection_mem {st₀ : StepState} {numCached : ℕ}
    (hsel : st₀.selection H cfg = some (id, numCached, st)) (hinv : st.sched.Inv H cfg n)
    (hknown : st.sched.Known added) {r : SchedulerRequest} (hid : id ∈ st.sched.waiting.ids)
    (hr : st.sched.requests.lookup id = some r) (hread : r.request.Reads cfg.cache) :
    id ∈ st.sched.kvCacheManager.requestBlocks := by
  unfold selection at hsel
  split at hsel
  · cases hsel
  · obtain ⟨rfl, hst⟩ := Prod.mk.inj (Option.some.inj hsel)
    exact cachedOf_mem hst hinv hknown hid hr hread

/-! ## Runs -/

theorem not_looksUp_handedOut (bs : List BlockId) :
    ∀ e ∈ bs.map CacheEvent.handedOut, ∀ i, ¬ e.LooksUp i := by
  intro e he i hi
  obtain ⟨b, -, rfl⟩ := List.mem_map.mp he
  exact hi

theorem Scheduler.Recorded.rolledBack (h : s.Recorded H c all log) {bs : List BlockId}
    (hr : KVCacheManager.RolledBack s.kvCacheManager bs s'.kvCacheManager)
    (hblocks : s'.kvCacheManager.requestBlocks = s.kvCacheManager.requestBlocks)
    (hrun : s'.running = s.running) (hentry : ∀ i, entry s' i = entry s i) :
    s'.Recorded H c all (log ++ bs.map .handedOut) := by
  refine h.frame (h.cache.handOut hr.listed_eq) (not_looksUp_handedOut bs) hentry ?_ ?_ ?_
  · rw [hblocks]
    exact fun i hi => hi
  · rw [hblocks]
    exact fun i hi => Or.inl hi
  · intro i r hr hread hi
    rw [hblocks, hrun] at hi
    exact hi.elim ((h.keeps i r hr).started hread) fun hi => hi

theorem Scheduler.Recorded.preemptOne (h : st.sched.Recorded H cfg.cache all log)
    (hinv : st.sched.Inv H cfg n) {id : RequestId} (hid : id ∈ st.sched.running) :
    (st.preemptOne cfg id).sched.kvCacheManager.log = st.sched.kvCacheManager.log ∧
      (st.preemptOne cfg id).sched.Recorded H cfg.cache all log := by
  obtain ⟨r, hr⟩ := Scheduler.mem_requests_iff.mp
    ((hinv.partition.mem_requests id).mpr (Or.inr (Or.inl hid)))
  have hs : (st.preemptOne cfg id).sched = st.sched.preemptRequest cfg id := rfl
  rw [hs]
  refine ⟨by simp [Scheduler.preemptRequest, hr, KVCacheManager.free], ?_⟩
  refine h.free id ?_ ?_ (fun i hi => ?_) fun r' hr' _ => ?_
  · simp [Scheduler.preemptRequest, hr]
  · simp [Scheduler.preemptRequest, hr]
  · simp [Scheduler.preemptRequest, hr, Scheduler.Recorded.entry, AList.lookup_insert_ne hi]
  · simp only [Scheduler.preemptRequest, hr, AList.lookup_insert, Option.some.injEq] at hr'
    rw [← hr']

theorem Scheduler.Recorded.admitCached (h : st.sched.Recorded H cfg.cache all log)
    (hinv : st.sched.Inv H cfg n) (hknown : st.sched.Known added) {id : RequestId}
    {r : SchedulerRequest} (hid : id ∈ st.sched.waiting.ids)
    (hr : st.sched.requests.lookup id = some r)
    (hrem : r.promptTokenIds.length ≤ r.numComputedTokens) :
    (st.admitCached id).sched.Recorded H cfg.cache all log := by
  have hw := (hinv.each id).waiting hid r hr
  obtain ⟨-, -, hprompt⟩ := hknown id r hr
  have hmem : r.request.Reads cfg.cache → id ∈ st.sched.kvCacheManager.requestBlocks := by
    intro hread
    refine KVCacheManager.mem_of_table_ne_nil fun hnil => ?_
    rw [hw.computed_eq, ← hw.table_eq, hnil, hprompt] at hrem
    refine hread.2.2 (List.eq_nil_of_length_eq_zero ?_)
    simpa using hrem
  rw [← List.append_nil log]
  refine h.frame ?_ (fun e he => by cases he) (fun i => ?_) ?_ ?_ ?_
  · rw [StepState.admitCached_kvCacheManager, List.append_nil]
    exact h.cache
  · rw [Scheduler.Recorded.entry, StepState.admitCached_lookup]
    exact Scheduler.Recorded.map_entry i id fun _ => ⟨rfl, rfl⟩
  · rw [StepState.admitCached_kvCacheManager]
    exact fun i hi => hi
  · rw [StepState.admitCached_kvCacheManager]
    exact fun i hi => Or.inl hi
  · rw [StepState.admitCached_kvCacheManager, StepState.admitCached_running]
    exact fun i r₁ hr₁ hread hi => h.admitted hr hmem hr₁ hread (hi.imp_right Or.inr)

theorem Scheduler.Recorded.admitNew (h : st.sched.Recorded H cfg.cache all log)
    (hinv : st.sched.Inv H cfg n) (hknown : st.sched.Known added)
    (hunread : st.sched.kvCacheManager.Unread added) (hall : ∀ q ∈ added, q ∈ all)
    {id : RequestId} {r : SchedulerRequest} {tokens : ℕ} {bs : List BlockId} {kv : KVCacheManager}
    (hid : id ∈ st.sched.waiting.ids) (hr : st.sched.requests.lookup id = some r)
    (hpos : 0 < tokens)
    (ha : st.sched.kvCacheManager.allocateSlots cfg.cache id (r.numComputedTokens + tokens)
      r.numComputedTokens = (some bs, kv))
    (hread : r.request.Reads cfg.cache → id ∈ st.sched.kvCacheManager.requestBlocks) :
    ∃ es, ((st.setKV kv).admitNew cfg id tokens
        (r.numComputedTokens + tokens)).sched.kvCacheManager.log =
          st.sched.kvCacheManager.log ++ es ∧
      ((st.setKV kv).admitNew cfg id tokens (r.numComputedTokens + tokens)).sched.Recorded H
        cfg.cache all (log ++ es) := by
  have hg := (hinv.kv.allocateSlots_some ha).2
  obtain ⟨-, -, hreg⟩ := hinv.register hid hr ha (r.numComputedTokens + tokens)
  obtain ⟨hadd, hrid, -⟩ := hknown id r hr
  have hmem := KVCacheManager.mem_allocateSlots_some (Nat.lt_add_of_pos_right hpos) ha
  refine ⟨bs.map .handedOut ++ (kv.newRegs cfg.cache id (r.numComputedTokens + tokens)).map
    fun x => .registered x.2.1 id x.1, ?_, h.frame ?_ ?_ (fun i => ?_) ?_ ?_ ?_⟩
  · rw [StepState.admitNew_kvCacheManager, ← List.append_assoc, ← hg.log_eq]
    exact hreg.log_eq
  · rw [StepState.admitNew_kvCacheManager, ← List.append_assoc]
    refine (h.cache.handOut hg.handedOut.listed_eq).register hreg (hall _ hadd) hrid ?_
    exact fun i b g hi => (hinv.registers hknown hunread hid hr ha hi).2
  · intro e he i hi
    rcases List.mem_append.mp he with he | he
    · exact not_looksUp_handedOut bs e he i hi
    · obtain ⟨x, -, rfl⟩ := List.mem_map.mp he
      exact hi
  · rw [Scheduler.Recorded.entry, StepState.admitNew_lookup]
    exact Scheduler.Recorded.map_entry (s := (st.setKV kv).sched) i id fun _ => ⟨rfl, rfl⟩
  · rw [StepState.admitNew_kvCacheManager, (KVCacheManager.cacheBlocks_tables _ _).1]
    exact fun i hi => (hmem i).mpr (Or.inr hi)
  · rw [StepState.admitNew_kvCacheManager, (KVCacheManager.cacheBlocks_tables _ _).1]
    intro i hi
    refine ((hmem i).mp hi).symm.imp_right fun he => ?_
    exact he ▸ Scheduler.mem_requests_iff.mpr ⟨r, hr⟩
  · rw [StepState.admitNew_kvCacheManager, (KVCacheManager.cacheBlocks_tables _ _).1,
      StepState.admitNew_running]
    intro i r₁ hr₁ hreads hi
    exact h.admitted hr hread hr₁ hreads (hi.imp_right (hmem i).mp)

theorem Move.recorded (hm : Move H cfg K st st') (hinv : st.sched.Inv H cfg n)
    (hknown : st.sched.Known added) (hunread : st.sched.kvCacheManager.Unread added)
    (hall : ∀ q ∈ added, q ∈ all) (hnd : (all.map (·.requestId)).Nodup)
    (hinj : ChainInjective H cfg.cache (all.map (·.promptTokens)))
    (h : st.sched.Recorded H cfg.cache all log) :
    ∃ es, st'.sched.kvCacheManager.log = st.sched.kvCacheManager.log ++ es ∧
      st'.sched.Recorded H cfg.cache all (log ++ es) := by
  cases hm with
  | @finish id =>
    refine ⟨[], (List.append_nil _).symm, ?_⟩
    rw [List.append_nil]
    exact h.free id rfl rfl (fun i _ => rfl) fun r' hr' => (h.keeps id r' hr').unread
  | @markLength id =>
    refine ⟨[], by simp, ?_⟩
    rw [List.append_nil]
    exact h.same (by simp) (by simp) fun i =>
      Scheduler.Recorded.entry_modifyRequest i id fun _ => ⟨rfl, rfl⟩
  | @decode id r =>
    refine ⟨[], by simp [StepState.scheduleDecode_sched], ?_⟩
    rw [List.append_nil, StepState.scheduleDecode_sched]
    exact h.same (by simp) (by simp) fun i =>
      Scheduler.Recorded.entry_modifyRequest i id fun _ => ⟨rfl, rfl⟩
  | @decodeGrow id r bs kv _ hid hr _ _ _ ha =>
    have hg := (hinv.kv.allocateSlots_some ha).2
    have hmem := KVCacheManager.mem_allocateSlots_some (by omega) ha
    refine ⟨bs.map .handedOut, ?_, ?_⟩
    · simpa [StepState.scheduleDecode_sched, StepState.setKV] using hg.log_eq
    · rw [StepState.scheduleDecode_sched]
      refine h.frame ?_ (not_looksUp_handedOut bs) (fun i => ?_) ?_ ?_ ?_
      · rw [Scheduler.modifyRequest_kvCacheManager]
        exact h.cache.handOut hg.handedOut.listed_eq
      · exact Scheduler.Recorded.entry_modifyRequest (s := (st.setKV kv).sched) i id
          fun _ => ⟨rfl, rfl⟩
      · rw [Scheduler.modifyRequest_kvCacheManager]
        exact fun i hi => (hmem i).mpr (Or.inr hi)
      · rw [Scheduler.modifyRequest_kvCacheManager]
        intro i hi
        refine ((hmem i).mp hi).symm.imp_right fun he => ?_
        exact he ▸ Scheduler.mem_requests_iff.mpr ⟨r, hr⟩
      · rw [Scheduler.modifyRequest_kvCacheManager, Scheduler.modifyRequest_running]
        intro i r₁ hr₁ hread hi
        refine hi.elim ((h.keeps i r₁ hr₁).started hread) fun hi => ?_
        refine ((hmem i).mp hi).elim (fun he => ?_) fun hi => hi
        exact (h.keeps i r₁ hr₁).started hread (he ▸ hid)
  | starve _ _ _ _ _ ha =>
    obtain ⟨-, -, bs, hr⟩ := hinv.kv.allocateSlots_none ha
    exact ⟨_, hr.log_eq, h.rolledBack hr (KVCacheManager.requestBlocks_allocateSlots_none ha) rfl
      fun i => rfl⟩
  | @preempt id hid =>
    obtain ⟨hlog, hrec⟩ := h.preemptOne hinv hid
    refine ⟨[], by rw [hlog, List.append_nil], ?_⟩
    rwa [List.append_nil]
  | note =>
    refine ⟨[], by simp, ?_⟩
    rw [List.append_nil]
    exact h.same rfl rfl fun i => rfl
  | probe _ _ hid hr hc => exact h.probe hinv hknown hall hnd hinj hid hr hc
  | @admitCached _ id r _ _ hid hr _ _ hrem =>
    refine ⟨[], by simp, ?_⟩
    rw [List.append_nil]
    exact h.admitCached hinv hknown hid hr hrem
  | @admitNew _ id r tokens bs kv _ _ hid hr _ _ _ _ hpos ha _ hsel =>
    exact h.admitNew hinv hknown hunread hall hid hr hpos ha
      (StepState.selection_mem hsel hinv hknown hid hr)
  | admitFail _ _ _ _ _ _ ha =>
    obtain ⟨-, -, bs, hr⟩ := hinv.kv.allocateSlots_none ha
    exact ⟨_, hr.log_eq, h.rolledBack hr (KVCacheManager.requestBlocks_allocateSlots_none ha) rfl
      fun i => rfl⟩

theorem Moves.recorded (hm : Moves H cfg K st st') (hinv : st.sched.Inv H cfg n)
    (hknown : st.sched.Known added) (hunread : st.sched.kvCacheManager.Unread added)
    (hadded : (added.map (·.requestId)).Nodup) (hall : ∀ q ∈ added, q ∈ all)
    (hnd : (all.map (·.requestId)).Nodup)
    (hinj : ChainInjective H cfg.cache (all.map (·.promptTokens)))
    (h : st.sched.Recorded H cfg.cache all log) :
    st'.sched.kvCacheManager.Unread added ∧
      ∃ es, st'.sched.kvCacheManager.log = st.sched.kvCacheManager.log ++ es ∧
        st'.sched.Recorded H cfg.cache all (log ++ es) := by
  induction hm with
  | refl => exact ⟨hunread, [], (List.append_nil _).symm, by rwa [List.append_nil]⟩
  | tail hms hm ih =>
    obtain ⟨hun, es, hlog, hrec⟩ := ih
    have hinv' := Moves.inv hms hinv
    have hknown' := Moves.known hms hknown
    obtain ⟨es', hlog', hrec'⟩ := hm.recorded hinv' hknown' hun hall hnd hinj hrec
    refine ⟨hm.unread hinv' hknown' hadded hun, es ++ es', ?_, ?_⟩
    · rw [hlog', hlog, List.append_assoc]
    · rwa [← List.append_assoc]

/-- A run whose prefix cache was last reset after `k` events of its history: never, if `k` is
`0`. -/
inductive ResetRun (H : HashFns) (cfg : Config) : List InferenceRequest → ℕ → Scheduler → Prop
  | new : ResetRun H cfg [] 0 (Scheduler.new cfg)
  | addRequest {added : List InferenceRequest} {k : ℕ} {s : Scheduler} (r : InferenceRequest)
      (hrun : ResetRun H cfg added k s) (hfresh : r.requestId ∉ added.map (·.requestId)) :
      ResetRun H cfg (added ++ [r]) k (s.addRequest cfg r)
  | abortRequest {added : List InferenceRequest} {k : ℕ} {s : Scheduler} (id : RequestId)
      (hrun : ResetRun H cfg added k s) : ResetRun H cfg added k (s.abortRequest id)
  | step {added : List InferenceRequest} {k : ℕ} {s : Scheduler} (ord : HashOrder)
      (hrun : ResetRun H cfg added k s) : ResetRun H cfg added k (s.step H cfg ord).2
  | pause {added : List InferenceRequest} {k : ℕ} {s : Scheduler}
      (hrun : ResetRun H cfg added k s) :
      ResetRun H cfg added k s.pause
  | resume {added : List InferenceRequest} {k : ℕ} {s : Scheduler}
      (hrun : ResetRun H cfg added k s) : ResetRun H cfg added k s.resume
  | resetPrefixCache {added : List InferenceRequest} {k : ℕ} {s s' : Scheduler}
      (hrun : ResetRun H cfg added k s) (hr : s.resetPrefixCache = .ok s') :
      ResetRun H cfg added s'.kvCacheManager.log.length s'

theorem ResetRun.schedRun {k : ℕ} (h : ResetRun H cfg added k s) : SchedRun H cfg added s := by
  induction h with
  | new => exact .new
  | addRequest r _ hfresh ih => exact ih.addRequest r hfresh
  | abortRequest id _ ih => exact ih.abortRequest id
  | step ord _ ih => exact ih.step ord
  | pause _ ih => exact ih.pause
  | resume _ ih => exact ih.resume
  | resetPrefixCache _ hr ih => exact ih.resetPrefixCache hr

/-- The history since the last reset of the prefix cache. -/
def Scheduler.since (s : Scheduler) (k : ℕ) : List CacheEvent := s.kvCacheManager.log.drop k

theorem Scheduler.Recorded.new (H : HashFns) (cfg : Config) (all : List InferenceRequest) :
    (Scheduler.new cfg).Recorded H cfg.cache all [] where
  cache := by
    refine ⟨fun g b hb => ?_, fun _ _ _ hi => (by cases hi), fun _ _ _ _ hk => (by cases hk)⟩
    rw [show (Scheduler.new cfg).kvCacheManager.blockPool = BlockPool.new cfg.numCacheBlocks from
      rfl, BlockPool.listed_new] at hb
    cases hb
  tracked id hm := by
    simp [Scheduler.new, KVCacheManager.new] at hm
  keeps id r hr := by
    simp [Scheduler.new] at hr

theorem Scheduler.Recorded.addRequest (h : s.Recorded H cfg.cache all log) {r : InferenceRequest}
    (hr : r.requestId ∉ s.requests) (hp : s.Partition) :
    (s.addRequest cfg r).Recorded H cfg.cache all log where
  cache := h.cache
  tracked id hm := by
    have hid := h.tracked id hm
    simp [Scheduler.addRequest, hid]
  keeps id r' hr' := by
    rcases of_lookup_insert hr' with ⟨hi, rfl⟩ | ⟨-, hr'⟩
    · refine ⟨fun _ hrun => ?_, fun _ hm => ?_, fun _ => rfl⟩
      · exact absurd ((hp.mem_requests id).mpr (Or.inr (Or.inl hrun))) (hi ▸ hr)
      · exact absurd (h.tracked id hm) (hi ▸ hr)
    · obtain ⟨hstarted, hlast, hunread⟩ := h.keeps id r' hr'
      exact ⟨hstarted, hlast, hunread⟩

theorem Scheduler.Recorded.abortRequest (h : s.Recorded H c all log) (id : RequestId) :
    (s.abortRequest id).Recorded H c all log := by
  refine h.free id rfl rfl (fun i hi => ?_) fun r' hr' => ?_
  · simp [Scheduler.Recorded.entry, Scheduler.abortRequest, AList.lookup_erase_ne hi]
  · simp [Scheduler.abortRequest] at hr'

theorem Scheduler.Recorded.resetPrefixCache {s' : Scheduler} (h : s.Recorded H c all log)
    (hr : s.resetPrefixCache = .ok s') : s'.Recorded H c all [] := by
  have hidle : ∀ id, id ∉ s.kvCacheManager.requestBlocks :=
    Scheduler.resetPrefixCache_unheld hr
  rw [Scheduler.resetPrefixCache_ok hr]
  constructor
  · refine ⟨fun g b hb => ?_, fun _ _ _ hi => (by cases hi), fun _ _ _ _ hk => (by cases hk)⟩
    rw [BlockPool.listed_clearHashes] at hb
    cases hb
  · exact h.tracked
  · intro id r hid
    obtain ⟨hstarted, -, hunread⟩ := h.keeps id r hid
    exact ⟨hstarted, fun _ hm => absurd hm (hidle id), hunread⟩

/-- Along a run, the history since the last reset says what is cached and what the requests have
found. -/
theorem ResetRun.recorded {k : ℕ} (h : ResetRun H cfg added k s)
    (hle : cfg.numCacheBlocks ≤ 2 ^ 32) (hall : ∀ q ∈ added, q ∈ all)
    (hnd : (all.map (·.requestId)).Nodup)
    (hinj : ChainInjective H cfg.cache (all.map (·.promptTokens))) :
    k ≤ s.kvCacheManager.log.length ∧ s.Recorded H cfg.cache all (s.since k) := by
  induction h with
  | new => exact ⟨le_rfl, .new H cfg all⟩
  | addRequest r hrun hfresh ih =>
    obtain ⟨hk, hrec⟩ := ih fun q hq => hall q (List.mem_append_left _ hq)
    obtain ⟨hp, hknown⟩ := hrun.schedRun.partition
    exact ⟨hk, hrec.addRequest (hknown.fresh hfresh) hp⟩
  | abortRequest id _ ih => exact ⟨(ih hall).1, (ih hall).2.abortRequest id⟩
  | @step added k s ord hrun ih =>
    obtain ⟨hk, hrec⟩ := ih hall
    cases hp : s.paused with
    | true =>
      rw [Scheduler.step, if_pos hp]
      exact ⟨hk, hrec⟩
    | false =>
      have hs := hrun.schedRun
      obtain ⟨hinv, hknown⟩ := hs.inv hle
      rw [Scheduler.step_eq hp]
      obtain ⟨-, es, hlog, hrec'⟩ := (stepState_moves hinv.partition hp ord
        (Scheduler.stepAll_any ord s)).recorded hinv hknown (hs.unread hle) hs.nodup_added hall hnd
        hinj hrec
      refine ⟨?_, ?_⟩
      · rw [hlog, List.length_append]
        exact hk.trans (Nat.le_add_right _ _)
      · rw [Scheduler.since, hlog, List.drop_append_of_le_length hk]
        exact hrec'
  | pause _ ih => exact ⟨(ih hall).1, (ih hall).2.same rfl rfl fun _ => rfl⟩
  | resume _ ih => exact ⟨(ih hall).1, (ih hall).2.same rfl rfl fun _ => rfl⟩
  | resetPrefixCache _ hr ih =>
    refine ⟨le_rfl, ?_⟩
    rw [Scheduler.since, List.drop_length]
    exact (ih hall).2.resetPrefixCache hr

end Rllm
