import Rllm.Cache.Recency
import Rllm.Cache.RefCounts

/-! # Prefix lookup

A lookup returns the longest prefix of full blocks that is cached, takes one
reference to each block that it returns, and takes the returned blocks out of
the free queue without disturbing the others.
-/

namespace Rllm

namespace BlockPool

variable {n : ℕ} {p : BlockPool} {l : List ℕ}

/-- The walk along the free queue from its head. -/
def FreeOrder (p : BlockPool) (l : List ℕ) : Prop :=
  DoublyLinked.Path (fun i => (p.block i).nextFree) p.freeQueue.head l

theorem Rep.freeOrder (h : Rep n p l) : p.FreeOrder l := h.queue.linked.forward

theorem runOps_nonempty (n : ℕ) {ops : List PoolOp} (hops : ∀ op ∈ ops, op.InRange (reach n))
    (g : BlockHash) : (runOps n ops).hashMap.lookup g ≠ some [] := by
  have hrun : ∀ p, Indexed (reach n) p → (∀ g, p.hashMap.lookup g ≠ some []) →
      ∀ g, (ops.foldl PoolOp.run p).hashMap.lookup g ≠ some [] := by
    induction ops with
    | nil => exact fun _ _ hne => hne
    | cons op ops ih =>
      intro p hI hne
      have hop := hops op List.mem_cons_self
      exact ih (fun op' hop' => hops op' (List.mem_cons_of_mem _ hop')) _ (hI.run hop).1
        (hI.run_nonempty hop hne)
  exact hrun _ (Indexed.new n) (Coherent.new n).nonempty g

theorem mem_hashMap_iff (hne : ∀ g, p.hashMap.lookup g ≠ some []) (h : BlockHash) :
    h ∈ p.hashMap ↔ p.listed h ≠ [] := by
  rw [← AList.lookup_isSome, listed]
  cases hl : p.hashMap.lookup h with
  | none => simp
  | some ids =>
    have hids : ids ≠ [] := by
      rintro rfl
      exact hne h hl
    simpa using hids

end BlockPool

theorem Found.length_eq {p : BlockPool} {hs : List BlockHash} {bs : List BlockId}
    (hf : Found p hs bs) (hne : ∀ g, p.hashMap.lookup g ≠ some []) :
    bs.length = findPrefixHit p.hashMap hs := by
  refine (findPrefixHit_eq hf.length_le (fun i hi h hh => ?_) fun h hh => ?_).symm
  · obtain ⟨h', hh', hhead⟩ := hf.head_eq i bs[i] (List.getElem?_eq_getElem hi)
    obtain rfl : h' = h := Option.some.inj (hh'.symm.trans hh)
    rw [BlockPool.mem_hashMap_iff hne]
    exact List.ne_nil_of_mem (List.mem_of_mem_head? hhead)
  · rw [BlockPool.mem_hashMap_iff hne, hf.miss h hh]
    exact fun hnil => hnil rfl

namespace KVCacheManager

open BlockPool

variable {n : ℕ} {H : HashFns} {cfg : CacheConfig} {m : KVCacheManager}

/-- A lookup for a prompt in the pool `p` leads to the result `r` and the pool `p'`. -/
structure FindsLongest (H : HashFns) (cfg : CacheConfig) (p : BlockPool) (prompt : List Token)
    (r : PrefixCacheResult) (p' : BlockPool) : Prop where
  length_eq : r.cachedBlockIds.length = findPrefixHit p.hashMap
    (computeBlockHashes H cfg.prefixHashAlgorithm prompt cfg.blockSize none)
  computed_eq : r.numComputedTokens = r.cachedBlockIds.length * cfg.blockSize
  computed_le : r.numComputedTokens ≤ prompt.length
  first_listed : ∀ (i : ℕ) (b : BlockId), r.cachedBlockIds[i]? = some b → ∃ h,
    (computeBlockHashes H cfg.prefixHashAlgorithm prompt cfg.blockSize none)[i]? = some h ∧
      (p.listed h).head? = some b
  refs_eq : ∀ b, p'.refs b = p.refs b + r.cachedBlockIds.count b
  hashOf_eq : p'.hashOf = p.hashOf
  listed_eq : p'.listed = p.listed
  leaves : ∀ l, p'.FreeOrder l → ∀ b ∈ r.cachedBlockIds, b ∉ l
  order : ∃ l, p.FreeOrder l ∧ p'.FreeOrder (l.filter (· ∉ r.cachedBlockIds))

theorem getComputedBlocks_eq (m : KVCacheManager) (rid : RequestId) {prompt : List Token}
    (hcache : cfg.enablePrefixCaching = true) (hprompt : prompt ≠ []) {bs : List BlockId}
    {pool : BlockPool} (hl : lookupBlocks (computeBlockHashes H cfg.prefixHashAlgorithm prompt
      cfg.blockSize none) m.blockPool = (bs, pool)) :
    (m.getComputedBlocks H cfg rid prompt false).1 = ⟨bs, bs.length * cfg.blockSize⟩ ∧
      (m.getComputedBlocks H cfg rid prompt false).2.blockPool = pool := by
  have hne : prompt.isEmpty = false := by simpa using hprompt
  simp [KVCacheManager.getComputedBlocks, hcache, hne, hl]

theorem getComputedBlocksU32_found {checks : Bool} {m : KVCacheManager} {rid : RequestId}
    {prompt : List Token} (hcache : cfg.enablePrefixCaching = true) (hprompt : prompt ≠ [])
    {bs : List BlockId} {pool : BlockPool} (hl : lookupBlocksU32 checks (computeBlockHashes H
      cfg.prefixHashAlgorithm prompt cfg.blockSize none) m.blockPool = .ok (bs, pool)) :
    m.getComputedBlocksU32 H cfg checks rid prompt false = .ok (⟨bs, bs.length * cfg.blockSize⟩,
      { m with
        blockPool := pool
        requestBlockHashes := m.requestBlockHashes.insert rid (computeBlockHashes H
          cfg.prefixHashAlgorithm prompt cfg.blockSize none)
        requestComputedTokens := m.requestComputedTokens.insert rid (bs.length * cfg.blockSize)
        requestBlocks := m.requestBlocks.insert rid bs
        log := m.log ++ [.lookedUp rid prompt bs] }) := by
  have hne : prompt.isEmpty = false := by simpa using hprompt
  simp only [getComputedBlocksU32, hcache, hne, hl, ok_bind]
  rfl

theorem Ranged.findsLongest (h : Ranged n m) (hne : ∀ g, m.blockPool.hashMap.lookup g ≠ some [])
    (hcache : cfg.enablePrefixCaching = true) (rid : RequestId) {prompt : List Token}
    (hprompt : prompt ≠ []) :
    FindsLongest H cfg m.blockPool prompt (m.getComputedBlocks H cfg rid prompt false).1
      (m.getComputedBlocks H cfg rid prompt false).2.blockPool := by
  obtain ⟨l, hl⟩ := h.rep
  cases hb : lookupBlocks (computeBlockHashes H cfg.prefixHashAlgorithm prompt cfg.blockSize none)
      m.blockPool with
  | mk bs pool =>
    obtain ⟨hr, hpool⟩ := getComputedBlocks_eq m rid hcache hprompt hb
    obtain ⟨hrefs, hhash, hlisted, hrep, hf⟩ := hl.lookupBlocks hb
    rw [hr, hpool]
    exact {
      length_eq := hf.length_eq hne
      computed_eq := rfl
      computed_le := by
        have hle := hf.length_le
        rw [length_computeBlockHashes] at hle
        exact (Nat.mul_le_mul_right _ hle).trans (Nat.div_mul_le_self _ _)
      first_listed := hf.head_eq
      refs_eq := hrefs
      hashOf_eq := hhash
      listed_eq := hlisted
      leaves := by
        intro l' hl' b hb' hmem
        rw [DoublyLinked.Path.unique hl' hrep.freeOrder] at hmem
        simpa [hb'] using (List.mem_filter.mp hmem).2
      order := ⟨l, hl.freeOrder, hrep.freeOrder⟩ }

theorem runOps_nonempty (H : HashFns) (cfg : CacheConfig) (hle : n ≤ 2 ^ 32)
    (ops : List ManagerOp) (g : BlockHash) :
    (runOps H cfg n ops).blockPool.hashMap.lookup g ≠ some [] := by
  have hreach : reach n = max n 1 := min_eq_left (max_le hle (by omega))
  obtain ⟨-, pops, hpops, heq⟩ := runOps_pool H cfg hle ops
  rw [heq]
  rw [← hreach] at hpops
  exact BlockPool.runOps_nonempty n hpops g

/-- The lookup does not panic, and finds the longest prefix that is cached. -/
def LooksUp (H : HashFns) (cfg : CacheConfig) (checks : Bool) (m : KVCacheManager)
    (rid : RequestId) (prompt : List Token) : Prop :=
  ∃ r m', m.getComputedBlocksU32 H cfg checks rid prompt false = .ok (r, m') ∧
    FindsLongest H cfg m.blockPool prompt r m'.blockPool

theorem FitsAlong.take {ops ops' : List ManagerOp} (h : FitsAlong H cfg n (ops ++ ops')) :
    FitsAlong H cfg n ops := by
  intro ops₁ hops₁
  refine h ops₁ ((List.mem_inits _ _).mpr ?_)
  exact ((List.mem_inits _ _).mp hops₁).trans (List.prefix_append ops ops')

/-- On at most `2 ^ 32` blocks, after any sequence of calls that gives no block `2 ^ 32`
references, a lookup that gives none does so neither. -/
theorem runOps_findsLongest (H : HashFns) (cfg : CacheConfig) (checks : Bool) (n : ℕ)
    (hle : n ≤ 2 ^ 32) (ops : List ManagerOp) (hcache : cfg.enablePrefixCaching = true)
    (rid : RequestId) (prompt : List Token) (hprompt : prompt ≠ [])
    (hfit : FitsAlong H cfg n (ops ++ [.getComputedBlocks rid prompt false])) :
    ∃ m, runOpsU32 H cfg checks n ops = .ok m ∧ LooksUp H cfg checks m rid prompt := by
  refine ⟨runOps H cfg n ops, runOpsU32_eq hfit.take, _, _, getComputedBlocksU32_eq ?_,
    (runOps_pool H cfg hle ops).1.findsLongest (runOps_nonempty H cfg hle ops) hcache rid hprompt⟩
  have hlast := hfit _ ((List.mem_inits _ _).mpr (List.prefix_refl _))
  rwa [runOps, List.foldl_append] at hlast

/-- The blocks of `[5, 6]` are registered, one of them shared, when two prompts that start the
same come. -/
theorem runOps_findsLongest_small : ∃ m, runOpsU32 smallHash smallCache true 6
      [.getComputedBlocks 1 [5, 6] false, .allocateSlots 1 2 0, .cacheBlocks 1 2,
        .getComputedBlocks 2 [5, 8] false, .free 1] = .ok m ∧
    LooksUp smallHash smallCache true m 3 [5, 6, 7] :=
  runOps_findsLongest smallHash smallCache true 6 (by decide) _ rfl 3 [5, 6, 7] (by decide)
    (by decide)

/-! ## A queue that loops -/

section Looped

variable {p : BlockPool} {a : ℕ}

theorem linkFront_looped (hlt : a < p.blocks.length) (hh : p.freeQueue.head = some a) :
    (p.linkFront a).freeQueue.head = some a ∧
      ((p.linkFront a).block a).prevFree = some a := by
  constructor
  · exact (FreeBlockQueue.pushFront_ends _ _ a).1
  · refine (FreeBlockQueue.pushFront_prevFree _ hlt fun b hb => ?_).trans (if_pos hh)
    rw [hh] at hb
    cases hb
    exact hlt

theorem unlink_looped (hh : p.freeQueue.head = some a) (hp : (p.block a).prevFree = some a) :
    (p.unlink a).freeQueue.head = some a := by
  refine (FreeBlockQueue.remove_ends _ _ a).1.trans ?_
  rw [show (blockAt p.blocks a).prevFree = some a from hp]
  exact hh

/-- The block is at the head, and its own predecessor. -/
structure Looped (p : BlockPool) (a : ℕ) : Prop where
  lt_length : a < p.blocks.length
  head_eq : p.freeQueue.head = some a
  prev_eq : (p.block a).prevFree = some a
  refs_eq : (p.block a).refCount = 0
  not_null : (p.block a).isNull = false

theorem looped_free (hlt : a < p.blocks.length) (hh : p.freeQueue.head = some a)
    (hr : (p.block a).refCount = 1) (hnull : (p.block a).isNull = false) :
    Looped (p.free a) a ∧ ((p.free a).block a).hash = (p.block a).hash ∧
      (p.free a).hashMap = p.hashMap := by
  obtain ⟨q, hq⟩ : ∃ q, q = p.modifyBlock a fun b => { b with refCount := b.refCount - 1 } :=
    ⟨_, rfl⟩
  have hqa : q.block a = { p.block a with refCount := 0 } := by
    rw [hq, block_modifyBlock _ _ hlt, if_pos rfl, hr]
  have hqlt : a < q.blocks.length := by rwa [hq, length_modifyBlock]
  have hfree : p.free a = { q.linkFront a with numActiveBlocks := q.numActiveBlocks - 1 } := by
    have hguard : ((p.block a).isNull || decide ((p.block a).refCount = 0)) = false := by
      simp [hnull, hr]
    unfold BlockPool.free
    rw [hguard, ← hq]
    simp only [hqa, if_true, if_false, Bool.false_eq_true]
    rfl
  have hqh : q.freeQueue.head = some a := by rw [hq]; exact hh
  obtain ⟨hhead, hprev⟩ := linkFront_looped hqlt hqh
  have hcore := linkFront_core q a a
  rw [hfree]
  refine ⟨⟨?_, hhead, hprev, ?_, ?_⟩, ?_, ?_⟩
  · exact (length_linkFront q a).symm ▸ hqlt
  · have href := congrArg KVCacheBlock.refCount hcore
    exact href.trans (congrArg KVCacheBlock.refCount hqa)
  · have hn := congrArg KVCacheBlock.isNull hcore
    exact hn.trans ((congrArg KVCacheBlock.isNull hqa).trans hnull)
  · have hhash := congrArg KVCacheBlock.hash hcore
    have hqhash := congrArg KVCacheBlock.hash hqa
    exact hhash.trans hqhash
  · rw [hq]
    rfl

theorem Looped.getCachedBlock (h : Looped p a) (hhash : (p.block a).hash.isSome)
    {hash : BlockHash} (hl : (p.hashMap.lookup hash).bind List.head? = some a) :
    ∃ p', p.getCachedBlock hash = some (a, p') ∧ p'.freeQueue.head = some a ∧
      (p'.block a).nextFree = none ∧ p'.refs a = 1 := by
  obtain ⟨q, hq⟩ : ∃ q, q = (p.unlink a).linkFront a := ⟨_, rfl⟩
  have htouch : p.touch a = q := by
    simp [BlockPool.touch, h.refs_eq, h.not_null, hhash, inQueue, h.prev_eq, hq]
  have hlt : a < (p.unlink a).blocks.length := by
    rw [length_unlink]
    exact h.lt_length
  have hqlt : a < q.blocks.length := by rwa [hq, length_linkFront]
  obtain ⟨hhead, hprev⟩ := linkFront_looped hlt (unlink_looped h.head_eq h.prev_eq)
  rw [← hq] at hhead hprev
  have hrefs : (q.block a).refCount = 0 := by
    have hcore := (linkFront_core (p.unlink a) a a).trans (unlink_core p a a)
    rw [hq]
    exact (congrArg KVCacheBlock.refCount hcore).trans h.refs_eq
  refine ⟨_, by simp only [BlockPool.getCachedBlock, hl, htouch]; rfl, ?_, ?_, ?_⟩
  · simp only [hrefs, inQueue, hprev, decide_true, Bool.true_and, Option.isSome_some,
      Bool.true_or, if_true]
    exact unlink_looped hhead hprev
  · simp only [hrefs, inQueue, hprev, decide_true, Bool.true_and, Option.isSome_some,
      Bool.true_or, if_true]
    have hself := (FreeBlockQueue.remove_self (q := q.freeQueue) hqlt).1
    exact (nextFree_modify (f := fun b => { b with refCount := b.refCount + 1 })
      (fun _ => rfl) _ _).trans hself
  · simp only [hrefs, inQueue, hprev, decide_true, Bool.true_and, Option.isSome_some,
      Bool.true_or, if_true]
    have hlt' : a < (q.unlink a).blocks.length := (length_unlink q a).symm ▸ hqlt
    have hzero : (q.unlink a).refs a = 0 := (congrFun (refs_unlink q a) a).trans hrefs
    exact (refs_modifyBlock _ _ hlt').trans ((if_pos rfl).trans (congrArg (· + 1) hzero))

end Looped

/-- A call that registers the only block of a prompt, and one that finds it. -/
def registerCalls : List ManagerOp :=
  [.getComputedBlocks 1 [5] false, .allocateSlots 1 1 0, .cacheBlocks 1 1]

/-- On a pool whose indices wrap, the first block is freed while it is at the head, and a lookup
that returns it leaves it in the queue. -/
theorem wrapped_not_looksUp (checks : Bool) : ∃ m,
    runOpsU32 smallHash smallCache checks (2 ^ 32 + 2) (registerCalls ++ [.free 1]) = .ok m ∧
      ¬ LooksUp smallHash smallCache checks m 2 [5] := by
  obtain ⟨k, hk⟩ : ∃ k, k = 2 ^ 32 + 2 := ⟨_, rfl⟩
  rw [← hk]
  obtain ⟨p₁, ha, hblock, hmap, hlen, hhead, -⟩ := wrapped_allocate hk
  obtain ⟨h₀, hh₀⟩ : ∃ h₀, computeBlockHashes smallHash .xxHash [5] 1 none = [h₀] := ⟨_, rfl⟩
  have hlt : 1 < p₁.blocks.length := by omega
  obtain ⟨hmap₂, hblock₂, hlen₂⟩ := cacheBlock_active h₀ hlt (by rw [hblock]; decide)
    (by rw [hblock])
  have hhead₂ : (p₁.cacheBlock 1 h₀).freeQueue.head = some 1 := by
    rw [← hhead]
    simp [BlockPool.cacheBlock, modifyBlock, hblock]
  obtain ⟨hloop, hhash₃, hmap₃⟩ := looped_free (p := p₁.cacheBlock 1 h₀) (by omega) hhead₂
    (by rw [hblock₂, hblock]) (by rw [hblock₂, hblock])
  have hcached : (((p₁.cacheBlock 1 h₀).free 1).hashMap.lookup h₀).bind List.head? = some 1 := by
    rw [hmap₃, hmap₂, hmap, AList.lookup_insert]
    rfl
  obtain ⟨p', hget, hhead', hnext', hrefs'⟩ := hloop.getCachedBlock
    (by rw [hhash₃, hblock₂]; rfl) hcached
  have hmiss : (BlockPool.new k).getCachedBlock h₀ = none := by
    simp [BlockPool.getCachedBlock, BlockPool.new]
  have hone : ∀ {β : Type} (i : ℕ) (x : β),
      AList.lookup i (AList.singleton (β := fun _ => β) i x) = some x := fun i x => by
    rw [← AList.insert_empty]
    exact AList.lookup_insert _
  obtain ⟨m, hm⟩ : ∃ m, m = runOps smallHash smallCache k (registerCalls ++ [.free 1]) := ⟨_, rfl⟩
  have hpool : m.blockPool = (p₁.cacheBlock 1 h₀).free 1 := by
    simp [hm, registerCalls, runOps, ManagerOp.run, KVCacheManager.new,
      KVCacheManager.getComputedBlocks, smallCache, hh₀, lookupBlocks, hmiss,
      KVCacheManager.allocateSlots, allocMany, divCeil, ha, KVCacheManager.cacheBlocks,
      registerBlock, hone, KVCacheManager.free, freeAll]
  have hlook : lookupBlocksU32 checks (computeBlockHashes smallHash
      smallCache.prefixHashAlgorithm [5] smallCache.blockSize none) m.blockPool =
        .ok ([1], p') := by
    rw [hpool, show smallCache.prefixHashAlgorithm = .xxHash from rfl,
      show smallCache.blockSize = 1 from rfl, hh₀, lookupBlocksU32,
      getCachedBlockU32_some hget (by rw [hrefs']; decide)]
    rfl
  refine ⟨m, ?_, ?_⟩
  · have hfirst : (ManagerOp.getComputedBlocks 1 [5] false).runU32 smallHash smallCache checks
        (new k) = .ok ((ManagerOp.getComputedBlocks 1 [5] false).run smallHash smallCache
          (new k)) := by
      apply runU32_eq
      rw [fits_iff]
      intro b
      simp [ManagerOp.run, KVCacheManager.getComputedBlocks, smallCache, hh₀, lookupBlocks, hmiss,
        KVCacheManager.new]
    rw [hm, registerCalls, runOpsU32, List.cons_append, List.foldlM_cons, hfirst]
    rfl
  · rintro ⟨r, m', hr, hfinds⟩
    rw [getComputedBlocksU32_found rfl (List.cons_ne_nil 5 []) hlook] at hr
    obtain ⟨rfl, rfl⟩ := Prod.mk.inj (Except.ok.inj hr)
    exact hfinds.leaves [1] ⟨hhead', hnext'⟩ 1 (List.mem_singleton_self 1)
      (List.mem_singleton_self 1)

/-! ## A count at its limit -/

/-- The only block of two has `c` references, and is listed under the hash of `[5]`. -/
structure Lists (m : KVCacheManager) (c : ℕ) : Prop where
  rep : ∃ l, Rep 2 m.blockPool l
  refs_eq : m.blockPool.refs 1 = c
  listed_eq : ∀ h ∈ computeBlockHashes smallHash .xxHash [5] 1 none, m.blockPool.listed h = [1]

theorem lists_registered : Lists (runOps smallHash smallCache 2 registerCalls) 1 where
  rep := (runOps_pool (n := 2) smallHash smallCache (by decide) registerCalls).1.rep
  refs_eq := by decide
  listed_eq := List.forall_mem_singleton.mpr (by decide)

theorem fits_of_rep_two {p : BlockPool} {l : List ℕ} (h : Rep 2 p l) (hone : p.refs 1 < 2 ^ 32) :
    p.Fits := by
  rw [fits_iff]
  intro b
  rcases b with _ | _ | b
  · rw [h.null_refs]
    decide
  · exact hone
  · have hlen : ¬ 0 < p.refs (b + 1 + 1) := by
      intro hpos
      have hlt : b + 1 + 1 < p.blocks.length := lt_length_of_refs hpos
      rw [h.length_eq] at hlt
      exact Nat.not_lt_of_le (Nat.le_add_left 2 b) hlt
    rw [Nat.eq_zero_of_not_pos hlen]
    exact Nat.two_pow_pos 32

variable {c : ℕ}

theorem Lists.found (h : Lists m c) : ∃ p', lookupBlocks (computeBlockHashes smallHash
      smallCache.prefixHashAlgorithm [5] smallCache.blockSize none) m.blockPool = ([1], p') ∧
    Lists ((ManagerOp.getComputedBlocks 2 [5] false).run smallHash smallCache m) (c + 1) := by
  obtain ⟨l, hl⟩ := h.rep
  obtain ⟨h₀, hh₀⟩ : ∃ h₀, computeBlockHashes smallHash .xxHash [5] 1 none = [h₀] := ⟨_, rfl⟩
  have hlisted : m.blockPool.listed h₀ = [1] := h.listed_eq h₀ (by simp [hh₀])
  cases hget : m.blockPool.getCachedBlock h₀ with
  | none =>
    rw [getCachedBlock_none hget] at hlisted
    cases hlisted
  | some found =>
    obtain ⟨b, p'⟩ := found
    obtain ⟨hhead, hrefs, -, hlist, hrep⟩ := hl.getCachedBlock_some hget
    obtain rfl : 1 = b := by simpa [hlisted] using hhead
    have hlook : lookupBlocks (computeBlockHashes smallHash smallCache.prefixHashAlgorithm [5]
        smallCache.blockSize none) m.blockPool = ([1], p') := by
      rw [show smallCache.prefixHashAlgorithm = .xxHash from rfl,
        show smallCache.blockSize = 1 from rfl, hh₀]
      simp [lookupBlocks, hget]
    have hpool := (getComputedBlocks_eq m 2 rfl (List.cons_ne_nil 5 []) hlook).2
    refine ⟨p', hlook, ?_, ?_, ?_⟩
    · exact ⟨_, hpool.symm ▸ hrep⟩
    · rw [ManagerOp.run, hpool, hrefs, if_pos rfl, h.refs_eq]
    · rw [ManagerOp.run, hpool, hlist]
      exact h.listed_eq

theorem Lists.lookup (h : Lists m c) (hc : c + 1 < 2 ^ 32) (checks : Bool) :
    ∃ m', (ManagerOp.getComputedBlocks 2 [5] false).runU32 smallHash smallCache checks m = .ok m' ∧
      Lists m' (c + 1) := by
  obtain ⟨-, -, hnext⟩ := h.found
  obtain ⟨l, hl⟩ := hnext.rep
  exact ⟨_, runU32_eq (fits_of_rep_two hl (hnext.refs_eq ▸ hc)), hnext⟩

theorem Lists.lookups (h : Lists m c) (checks : Bool) {k : ℕ} (hk : c + k < 2 ^ 32) :
    ∃ m', (List.replicate k (ManagerOp.getComputedBlocks 2 [5] false)).foldlM
        (ManagerOp.runU32 smallHash smallCache checks) m = .ok m' ∧ Lists m' (c + k) := by
  induction k generalizing m c with
  | zero => exact ⟨m, rfl, h⟩
  | succ k ih =>
    obtain ⟨m₁, hm₁, h₁⟩ := h.lookup (by omega) checks
    obtain ⟨m', hm', h'⟩ := ih h₁ (by omega)
    refine ⟨m', ?_, ?_⟩
    · rw [List.replicate_succ, List.foldlM_cons, hm₁]
      exact hm'
    · have hadd : c + 1 + k = c + (k + 1) := by omega
      exact hadd ▸ h'

theorem Lists.not_looksUp (h : Lists m c) (hc : c + 1 = 2 ^ 32) (checks : Bool) :
    ¬ LooksUp smallHash smallCache checks m 2 [5] := by
  rintro ⟨r, m', hr, hfinds⟩
  obtain ⟨h₀, hh₀⟩ : ∃ h₀, computeBlockHashes smallHash .xxHash [5] 1 none = [h₀] := ⟨_, rfl⟩
  have hhashes : computeBlockHashes smallHash smallCache.prefixHashAlgorithm [5]
      smallCache.blockSize none = [h₀] := hh₀
  have hlisted : m.blockPool.listed h₀ = [1] := h.listed_eq h₀ (by simp [hh₀])
  have hfirst : (m.blockPool.hashMap.lookup h₀).bind List.head? = some 1 := by
    rw [BlockPool.listed] at hlisted
    cases hl : m.blockPool.hashMap.lookup h₀ with
    | none => simp [hl] at hlisted
    | some ids => simpa [hl] using congrArg List.head? hlisted
  obtain ⟨q, hq⟩ : ∃ q : BlockPool, m.blockPool.getCachedBlockU32 checks h₀ =
      (q.countRef checks 1 >>= fun p => pure (some (1, p))) := by
    rw [BlockPool.getCachedBlockU32, hfirst]
    exact ⟨_, rfl⟩
  cases hcount : q.countRef checks 1 with
  | error e =>
    simp [getComputedBlocksU32, smallCache, hh₀, lookupBlocksU32, hq, hcount] at hr
    cases hr
  | ok q' =>
    have hlook : lookupBlocksU32 checks (computeBlockHashes smallHash
        smallCache.prefixHashAlgorithm [5] smallCache.blockSize none) m.blockPool =
          .ok ([1], q') := by
      rw [hhashes, lookupBlocksU32, hq, hcount]
      rfl
    rw [getComputedBlocksU32_found rfl (List.cons_ne_nil 5 []) hlook] at hr
    obtain ⟨rfl, rfl⟩ := Prod.mk.inj (Except.ok.inj hr)
    have hrefs : q'.refs 1 = m.blockPool.refs 1 + [1].count 1 := hfinds.refs_eq 1
    have hlt := countRef_lt hcount
    rw [h.refs_eq, List.count_singleton_self] at hrefs
    omega

/-- Two blocks of one token, and one of them registered: after `2 ^ 32 - 2` lookups of its
prompt it has as many references as a `u32` counts. -/
theorem limit_not_looksUp (checks : Bool) : ∃ m,
    runOpsU32 smallHash smallCache checks 2 (registerCalls ++
      List.replicate (2 ^ 32 - 2) (.getComputedBlocks 2 [5] false)) = .ok m ∧
      ¬ LooksUp smallHash smallCache checks m 2 [5] := by
  obtain ⟨k, hk⟩ : ∃ k, k = 2 ^ 32 - 2 := ⟨_, rfl⟩
  rw [← hk]
  have hfirst : runOpsU32 smallHash smallCache checks 2 registerCalls =
      .ok (runOps smallHash smallCache 2 registerCalls) := runOpsU32_eq (by decide)
  obtain ⟨m, hm, hlists⟩ := lists_registered.lookups checks (k := k) (by omega)
  refine ⟨m, ?_, hlists.not_looksUp (by omega) checks⟩
  rw [runOpsU32, List.foldlM_append]
  rw [runOpsU32] at hfirst
  rw [hfirst]
  exact hm

/-- The ids wrap on more than `2 ^ 32` blocks, the counts at `2 ^ 32` references. -/
theorem not_runOps_findsLongest :
    (∀ checks, ∃ m, runOpsU32 smallHash smallCache checks (2 ^ 32 + 2)
      (registerCalls ++ [.free 1]) = .ok m ∧ ¬ LooksUp smallHash smallCache checks m 2 [5]) ∧
    ∀ checks, ∃ m, runOpsU32 smallHash smallCache checks 2 (registerCalls ++
      List.replicate (2 ^ 32 - 2) (.getComputedBlocks 2 [5] false)) = .ok m ∧
        ¬ LooksUp smallHash smallCache checks m 2 [5] :=
  ⟨wrapped_not_looksUp, limit_not_looksUp⟩

end KVCacheManager

end Rllm
