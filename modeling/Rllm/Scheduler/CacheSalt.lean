import Mathlib.Data.List.DropRight
import Rllm.Scheduler.CacheHistory

/-! # Isolation of cache salts

No block hash depends on the cache salt of its request, so a request finds the
blocks of any other one that starts with the same block. Two requests with
different salts are isolated from each other when their prompts start with
different blocks.
-/

namespace Rllm

/-- No two requests with different salts start with the same block. -/
def SaltsSeparate (c : CacheConfig) (added : List InferenceRequest) : Prop :=
  ∀ q ∈ added, ∀ q' ∈ added, q.cacheSalt ≠ q'.cacheSalt → ¬ q.SharesFirst c q'

/-- The requests with a given salt. -/
def withSalt (salt : Option String) (added : List InferenceRequest) : List InferenceRequest :=
  added.filter (·.cacheSalt = salt)

/-- The history before the last lookup of a request: nothing if there is none. -/
def beforeLookup (id : RequestId) (log : List CacheEvent) : List CacheEvent :=
  (log.rdropWhile fun e => !decide (e.LooksUp id)).dropLast

/-- The tokens that the last lookup of a request found in the prefix cache: its computed tokens when
it is admitted. -/
def SchedulerRequest.cachedTokens (c : CacheConfig) (r : SchedulerRequest) : ℕ :=
  r.cachedBlockIds.length * c.blockSize

/-- Requests with different salts have no block in common. -/
def Scheduler.SaltsDisjoint (added : List InferenceRequest) (s : Scheduler) : Prop :=
  ∀ q ∈ added, ∀ q' ∈ added, q.cacheSalt ≠ q'.cacheSalt →
    (s.kvCacheManager.table q.requestId).Disjoint (s.kvCacheManager.table q'.requestId)

/-- A run that has evicted nothing since the last reset of the prefix cache, and in which a request
runs. -/
structure RunsWith (H : HashFns) (cfg : Config) (q : InferenceRequest)
    (added : List InferenceRequest) (k : ℕ) (s : Scheduler) (r : SchedulerRequest) : Prop where
  run : ResetRun H cfg added k s
  noEviction : NoEviction (s.since k)
  running : q.requestId ∈ s.running
  lookup : s.requests.lookup q.requestId = some r
  request_eq : r.request = q

/-- Before the last lookups of a request, the same prefixes have been registered for the requests
with its salt in two histories. -/
def ServedAlike (c : CacheConfig) (q : InferenceRequest) (added : List InferenceRequest)
    (log : List CacheEvent) (added' : List InferenceRequest) (log' : List CacheEvent) : Prop :=
  ∀ tokens, RegisteredPrefix c.blockSize (withSalt q.cacheSalt added)
      (beforeLookup q.requestId log) tokens ↔
    RegisteredPrefix c.blockSize (withSalt q.cacheSalt added') (beforeLookup q.requestId log')
      tokens

variable {H : HashFns} {cfg : Config} {c : CacheConfig} {s : Scheduler}
  {added : List InferenceRequest} {log : List CacheEvent} {id : RequestId}

instance (q q' : InferenceRequest) : Decidable (q.SharesFirst c q') :=
  decidable_of_iff ((q.firstBlock c).isSome ∧ q'.firstBlock c = q.firstBlock c) <| by
    rw [Option.isSome_iff_exists]
    constructor
    · rintro ⟨⟨block, hb⟩, he⟩
      exact ⟨block, hb, he.trans hb⟩
    · rintro ⟨block, hb, hb'⟩
      exact ⟨⟨block, hb⟩, hb'.trans hb.symm⟩

instance : Decidable (SaltsSeparate c added) := by
  unfold SaltsSeparate
  infer_instance

theorem beforeLookup_append {pre post : List CacheEvent} {prompt : List Token}
    {blocks : List BlockId} (hpost : ∀ e ∈ post, ¬ e.LooksUp id) :
    beforeLookup id (pre ++ .lookedUp id prompt blocks :: post) = pre := by
  suffices h : (pre ++ .lookedUp id prompt blocks :: post).rdropWhile
      (fun e => !decide (e.LooksUp id)) = pre ++ [.lookedUp id prompt blocks] by
    rw [beforeLookup, h, List.dropLast_concat]
  induction post using List.reverseRecOn with
  | nil => exact List.rdropWhile_concat_neg _ _ _ (by simp [CacheEvent.LooksUp])
  | append_singleton post e ih =>
    have he : ¬ e.LooksUp id := hpost e (by simp)
    rw [← List.cons_append, ← List.append_assoc,
      List.rdropWhile_concat_pos _ _ _ (by simpa using he)]
    exact ih fun e' he' => hpost e' (List.mem_append_left _ he')

theorem KVCacheManager.Recorded.registeredPrefix_withSalt {m : KVCacheManager}
    (h : m.Recorded H c added log) (hnd : (added.map (·.requestId)).Nodup)
    (hsalts : SaltsSeparate c added) {q : InferenceRequest} (hq : q ∈ added) (hr : q.Reads c)
    {es : List CacheEvent} (hes : ∀ e ∈ es, e ∈ log) {i : ℕ}
    (hi : (i + 1) * c.blockSize ≤ q.promptTokens.length) :
    RegisteredPrefix c.blockSize added es (q.promptTokens.take ((i + 1) * c.blockSize)) ↔
      RegisteredPrefix c.blockSize (withSalt q.cacheSalt added) es
        (q.promptTokens.take ((i + 1) * c.blockSize)) := by
  constructor
  · rintro ⟨q', hq', b, j, hj, htake⟩
    refine ⟨q', List.mem_filter.mpr ⟨hq', ?_⟩, b, j, hj, htake⟩
    obtain ⟨q₁, hq₁, hid, hr', g, hg, -⟩ := h.registered b _ j (hes _ hj)
    obtain rfl := List.inj_on_of_nodup_map hnd hq₁ hq' hid
    have hj' := le_length_of_promptHashes hg
    have hlen := congrArg List.length htake
    rw [List.length_take, List.length_take, min_eq_left hi, min_eq_left hj'] at hlen
    obtain rfl : i = j := by
      have := Nat.eq_of_mul_eq_mul_right c.blockSize_pos hlen
      omega
    by_contra hsalt
    exact hsalts q₁ hq₁ q hq (by simpa using hsalt) (.of_take hr' hr hj' hi htake.symm)
  · rintro ⟨q', hq', hrest⟩
    exact ⟨q', (List.mem_filter.mp hq').1, hrest⟩

theorem RunsWith.unread {q : InferenceRequest} {k : ℕ} {r : SchedulerRequest}
    (h : RunsWith H cfg q added k s r) (hle : cfg.numCacheBlocks ≤ 2 ^ 32)
    (hinj : ChainInjective H cfg.cache (added.map (·.promptTokens)))
    (hread : ¬ q.Reads cfg.cache) : r.cachedBlockIds = [] := by
  obtain ⟨hrun, -, -, hr, rfl⟩ := h
  have hrec := (hrun.recorded hle (fun q hq => hq) hrun.schedRun.nodup_added hinj).2
  exact (hrec.keeps _ r hr).unread hread

/-- A request that reads the prefix cache runs with the longest prefix that was registered for its
own salt before it was looked up. -/
theorem RunsWith.longest {q : InferenceRequest} {k : ℕ} {r : SchedulerRequest}
    (h : RunsWith H cfg q added k s r) (hle : cfg.numCacheBlocks ≤ 2 ^ 32)
    (hinj : ChainInjective H cfg.cache (added.map (·.promptTokens)))
    (hsalts : SaltsSeparate cfg.cache added) (hread : q.Reads cfg.cache) :
    LongestPrefix cfg.cache.blockSize (RegisteredPrefix cfg.cache.blockSize
      (withSalt q.cacheSalt added) (beforeLookup q.requestId (s.since k))) q.promptTokens
      r.cachedBlockIds.length := by
  obtain ⟨hrun, hev, hid, hr, rfl⟩ := h
  have hnd := hrun.schedRun.nodup_added
  obtain ⟨hadd, -, -⟩ := (hrun.schedRun.inv hle).2 _ r hr
  have hrec := (hrun.recorded hle (fun q hq => hq) hnd hinj).2
  have hkeeps := hrec.keeps _ r hr
  obtain ⟨pre, prompt, post, hlog, hpost⟩ := hkeeps.last hread (hkeeps.started hread hid)
  rw [hlog] at hev hrec
  obtain ⟨q₁, hq₁, hid₁, -, hlongest⟩ := hrec.cache.lookups pre.length r.request.requestId prompt
    r.cachedBlockIds (by simp)
  obtain rfl := List.inj_on_of_nodup_map hnd hq₁ hadd hid₁
  rw [List.take_left] at hlongest
  rw [hlog, beforeLookup_append hpost]
  refine (hlongest hev.of_append).congr fun i hi => ?_
  exact hrec.cache.registeredPrefix_withSalt hnd hsalts hadd hread
    (fun e he => List.mem_append_left _ he) hi

/-- Isolation holds as long as no two requests with different salts start with the same block: they
have no block in common, and what a request finds in the cache depends on what was registered for
its own salt only. -/
theorem SchedRun.saltIsolated (H : HashFns) (cfg : Config) (hle : cfg.numCacheBlocks ≤ 2 ^ 32) :
    (∀ (added : List InferenceRequest) (s : Scheduler), SchedRun H cfg added s →
      CollisionFree H cfg.cache (added.map (·.promptTokens)) →
      RootFree H cfg.cache (added.map (·.promptTokens)) → SaltsSeparate cfg.cache added →
      s.SaltsDisjoint added) ∧
    ∀ (q : InferenceRequest) (added : List InferenceRequest) (k : ℕ) (s : Scheduler)
      (r : SchedulerRequest) (added' : List InferenceRequest) (k' : ℕ) (s' : Scheduler)
      (r' : SchedulerRequest), RunsWith H cfg q added k s r → RunsWith H cfg q added' k' s' r' →
      CollisionFree H cfg.cache (added.map (·.promptTokens)) →
      RootFree H cfg.cache (added.map (·.promptTokens)) → SaltsSeparate cfg.cache added →
      CollisionFree H cfg.cache (added'.map (·.promptTokens)) →
      RootFree H cfg.cache (added'.map (·.promptTokens)) → SaltsSeparate cfg.cache added' →
      ServedAlike cfg.cache q added (s.since k) added' (s'.since k') →
      r.cachedTokens cfg.cache = r'.cachedTokens cfg.cache := by
  constructor
  · intro added s h hcoll hroot hsalts q hq q' hq' hne b hb hb'
    have hqq : q ≠ q' := fun he => hne (congrArg _ he)
    exact hsalts q hq q' hq' hne
      (h.sharesFirst hle (hcoll.chainInjective hroot) hq hq' hqq hb hb')
  · intro q added k s r added' k' s' r' h h' hcoll hroot hsalts hcoll' hroot' hsalts' halike
    have hinj := hcoll.chainInjective hroot
    have hinj' := hcoll'.chainInjective hroot'
    refine congrArg (· * cfg.cache.blockSize) ?_
    by_cases hread : q.Reads cfg.cache
    · have hlong := h.longest hle hinj hsalts hread
      have hlong' := h'.longest hle hinj' hsalts' hread
      exact (hlong.congr fun i _ => halike _).unique hlong'
    · rw [h.unread hle hinj hread, h'.unread hle hinj' hread]

/-! ## Runs of one step -/

/-- The prefixes that a history registers for the given requests. -/
def registeredPrefixes (blockSize : ℕ) (requests : List InferenceRequest) (log : List CacheEvent) :
    List (List Token) :=
  log.flatMap fun
    | .registered _ id i => (requests.filter (·.requestId = id)).map fun q =>
      q.promptTokens.take ((i + 1) * blockSize)
    | _ => []

theorem registeredPrefix_iff {blockSize : ℕ} {requests : List InferenceRequest}
    {tokens : List Token} : RegisteredPrefix blockSize requests log tokens ↔
      tokens ∈ registeredPrefixes blockSize requests log := by
  constructor
  · rintro ⟨q, hq, b, i, hi, rfl⟩
    refine List.mem_flatMap.mpr ⟨_, hi, List.mem_map.mpr ⟨q, List.mem_filter.mpr ?_, rfl⟩⟩
    exact ⟨hq, decide_eq_true rfl⟩
  · intro h
    obtain ⟨e, he, hm⟩ := List.mem_flatMap.mp h
    cases e with
    | registered b id i =>
      obtain ⟨q, hq, rfl⟩ := List.mem_map.mp hm
      obtain ⟨hq', hid⟩ := List.mem_filter.mp hq
      obtain rfl := of_decide_eq_true hid
      exact ⟨q, hq', b, i, he, rfl⟩
    | handedOut | lookedUp => cases hm

theorem servedAlike_of_eq {q : InferenceRequest} {added' : List InferenceRequest}
    {log' : List CacheEvent} (h : registeredPrefixes c.blockSize (withSalt q.cacheSalt added)
      (beforeLookup q.requestId log) = registeredPrefixes c.blockSize (withSalt q.cacheSalt added')
        (beforeLookup q.requestId log')) : ServedAlike c q added log added' log' := by
  intro tokens
  rw [registeredPrefix_iff, registeredPrefix_iff, h]

def saltedRequest (requestId : RequestId) (prompt : List Token) (salt : String) :
    InferenceRequest :=
  { smallRequest requestId prompt with cacheSalt := some salt }

/-- One step of a small scheduler with the requests waiting. -/
def saltRun (added : List InferenceRequest) : Scheduler :=
  (Scheduler.step smallHash (smallConfig 8 true) .id
    (added.foldl (Scheduler.addRequest (smallConfig 8 true)) (.new (smallConfig 8 true)))).2

theorem resetRun_saltRun (hnd : (added.map (·.requestId)).Nodup) :
    ResetRun smallHash (smallConfig 8 true) added 0 (saltRun added) := by
  refine .step .id ?_
  induction added using List.reverseRecOn with
  | nil => exact .new
  | append_singleton added r ih =>
    rw [List.foldl_concat]
    rw [List.map_append, List.nodup_append] at hnd
    refine (ih hnd.1).addRequest r fun hm => ?_
    exact hnd.2.2 _ hm _ (List.mem_singleton_self r.requestId) rfl

/-- A request of another tenant, and two requests of one tenant. -/
def twoTenants : List InferenceRequest :=
  [saltedRequest 3 [7] "a", saltedRequest 1 [5] "b", saltedRequest 2 [5, 6] "b"]

/-- A running request for `[5, 6]` that has found one block. -/
def lastRequest (b : BlockId) : SchedulerRequest :=
  ⟨saltedRequest 2 [5, 6] "b", [5, 6], 2, [b], .running⟩

theorem runsWith_oneTenant : RunsWith smallHash (smallConfig 8 true) (saltedRequest 2 [5, 6] "b")
    twoTenants.tail 0 (saltRun twoTenants.tail) (lastRequest 1) :=
  ⟨resetRun_saltRun (by decide), by decide +kernel, by decide +kernel, by decide +kernel, rfl⟩

theorem runsWith_twoTenants : RunsWith smallHash (smallConfig 8 true) (saltedRequest 2 [5, 6] "b")
    twoTenants 0 (saltRun twoTenants) (lastRequest 2) :=
  ⟨resetRun_saltRun (by decide), by decide +kernel, by decide +kernel, by decide +kernel, rfl⟩

theorem collisionFree_tenants : CollisionFree smallHash (smallConfig 8 true).cache
    (twoTenants.map (·.promptTokens)) := by
  unfold CollisionFree
  decide +kernel

theorem rootFree_tenants : RootFree smallHash (smallConfig 8 true).cache
    (twoTenants.map (·.promptTokens)) := by
  unfold RootFree
  decide +kernel

/-- A request for `[5, 6]` finds the block that one with the same salt has registered, with or
without a request of another tenant before. -/
theorem SchedRun.saltIsolated_small :
    (saltRun twoTenants).SaltsDisjoint twoTenants ∧
      (lastRequest 1).cachedTokens (smallConfig 8 true).cache =
        (lastRequest 2).cachedTokens (smallConfig 8 true).cache := by
  have hiso := SchedRun.saltIsolated smallHash (smallConfig 8 true) (by decide)
  refine ⟨hiso.1 _ _ runsWith_twoTenants.run.schedRun collisionFree_tenants rootFree_tenants
    (by decide +kernel), ?_⟩
  refine hiso.2 _ _ _ _ _ _ _ _ _ runsWith_oneTenant runsWith_twoTenants ?_ ?_ (by decide +kernel)
    collisionFree_tenants rootFree_tenants (by decide +kernel)
    (servedAlike_of_eq (by decide +kernel))
  · intro p hp p' hp'
    exact collisionFree_tenants p (List.mem_cons_of_mem _ hp) p' (List.mem_cons_of_mem _ hp')
  · intro p hp
    exact rootFree_tenants p (List.mem_cons_of_mem _ hp)

/-- A request of tenant `a` and one of tenant `b` with the same prompt. -/
def samePrompts : List InferenceRequest := [saltedRequest 1 [5] "a", saltedRequest 2 [5] "b"]

/-- The second request is given the block of the first, and finds nothing when it comes alone. -/
theorem SchedRun.not_saltIsolated :
    (¬ ∀ (added : List InferenceRequest) (s : Scheduler),
      SchedRun smallHash (smallConfig 8 true) added s →
      CollisionFree smallHash (smallConfig 8 true).cache (added.map (·.promptTokens)) →
      RootFree smallHash (smallConfig 8 true).cache (added.map (·.promptTokens)) →
      s.SaltsDisjoint added) ∧
    ¬ ∀ (q : InferenceRequest) (added : List InferenceRequest) (k : ℕ) (s : Scheduler)
      (r : SchedulerRequest) (added' : List InferenceRequest) (k' : ℕ) (s' : Scheduler)
      (r' : SchedulerRequest), RunsWith smallHash (smallConfig 8 true) q added k s r →
      RunsWith smallHash (smallConfig 8 true) q added' k' s' r' →
      CollisionFree smallHash (smallConfig 8 true).cache (added.map (·.promptTokens)) →
      RootFree smallHash (smallConfig 8 true).cache (added.map (·.promptTokens)) →
      CollisionFree smallHash (smallConfig 8 true).cache (added'.map (·.promptTokens)) →
      RootFree smallHash (smallConfig 8 true).cache (added'.map (·.promptTokens)) →
      ServedAlike (smallConfig 8 true).cache q added (s.since k) added' (s'.since k') →
      r.cachedTokens (smallConfig 8 true).cache = r'.cachedTokens (smallConfig 8 true).cache := by
  have hcoll : CollisionFree smallHash (smallConfig 8 true).cache
      (samePrompts.map (·.promptTokens)) := by
    unfold CollisionFree
    decide +kernel
  have hroot : RootFree smallHash (smallConfig 8 true).cache
      (samePrompts.map (·.promptTokens)) := by
    unfold RootFree
    decide +kernel
  have hrun : RunsWith smallHash (smallConfig 8 true) (saltedRequest 2 [5] "b") samePrompts 0
      (saltRun samePrompts) ⟨saltedRequest 2 [5] "b", [5], 1, [1], .running⟩ :=
    ⟨resetRun_saltRun (by decide), by decide +kernel, by decide +kernel, by decide +kernel, rfl⟩
  have halone : RunsWith smallHash (smallConfig 8 true) (saltedRequest 2 [5] "b") samePrompts.tail 0
      (saltRun samePrompts.tail) ⟨saltedRequest 2 [5] "b", [5], 1, [], .running⟩ :=
    ⟨resetRun_saltRun (by decide), by decide +kernel, by decide +kernel, by decide +kernel, rfl⟩
  constructor
  · intro h
    have hdisj := h samePrompts _ hrun.run.schedRun hcoll hroot _ (List.mem_cons_self)
      (saltedRequest 2 [5] "b") (by decide) (by decide)
    have hone : 1 ∈ (saltRun samePrompts).kvCacheManager.table 1 ∧
        1 ∈ (saltRun samePrompts).kvCacheManager.table 2 := by decide +kernel
    exact hdisj hone.1 hone.2
  · intro h
    have heq := h _ _ _ _ _ _ _ _ _ hrun halone hcoll hroot
      (fun p hp p' hp' => hcoll p (List.mem_cons_of_mem _ hp) p' (List.mem_cons_of_mem _ hp'))
      (fun p hp => hroot p (List.mem_cons_of_mem _ hp)) (servedAlike_of_eq (by decide +kernel))
    exact absurd heq (by decide)

end Rllm
