import Rllm.Cache.PrefixLookup

/-! # Failed allocations

A failed allocation hands out every free block before it takes them all back.
Tables, references and the number of free blocks are as before, but the cached
blocks among them have lost their hashes: the failure can be seen by a lookup
exactly if it would have found such a block, and no other under the same hash.
-/

namespace Rllm

open BlockPool

section Pool

variable {n k : ℕ} {p p' : BlockPool} {l : List ℕ} {bs : List BlockId}

/-- What handing out blocks does to the queue and to the hashes. -/
structure HandsOut (n : ℕ) (p : BlockPool) (l : List ℕ) (bs : List BlockId) (p' : BlockPool) :
    Prop where
  sub : ∀ b ∈ bs, b ∈ l
  rep : Rep n p' (l.filter (· ∉ bs))
  hashOf_eq : ∀ i, p'.hashOf i = if i ∈ bs then none else p.hashOf i
  listed_eq : ∀ h, p'.listed h = (p.listed h).filter fun b => ¬ (b ∈ bs ∧ p.hashOf b = some h)

theorem BlockPool.Rep.handsOut (h : Rep n p l) (ha : allocMany k p = (bs, p')) :
    HandsOut n p l bs p' ∧ (bs.length < k → ∀ b ∈ l, b ∈ bs) := by
  induction k generalizing p bs l with
  | zero =>
    obtain ⟨rfl, rfl⟩ := Prod.mk.inj ha
    exact ⟨⟨by simp, by simpa using h, by simp, by simp⟩, fun hk => absurd hk (Nat.not_lt_zero _)⟩
  | succ k ih =>
    unfold allocMany at ha
    split at ha
    · rename_i b q hb
      cases hq : allocMany k q with
      | mk cs q' =>
        rw [hq] at ha
        obtain ⟨rfl, rfl⟩ := Prod.mk.inj ha
        obtain ⟨hmem, hal, hrep⟩ := h.allocate_some hb
        obtain ⟨hout, hall⟩ := ih hrep hq
        have hnd := h.queue.linked.nodup
        refine ⟨⟨?_, ?_, fun i => ?_, fun g => ?_⟩, fun hk c hc => ?_⟩
        · refine List.forall_mem_cons.mpr ⟨hmem, fun c hc => ?_⟩
          exact List.mem_of_mem_erase (hout.sub c hc)
        · rw [← erase_filter hnd]
          exact hout.rep
        · rw [hout.hashOf_eq, hal.hashOf_eq]
          by_cases hi : i = b
          · simp [hi]
          · simp [hi]
        · -- the first block is taken off its list, then the others are
          have hfirst : q.listed g =
              (p.listed g).filter fun c => ¬ (c = b ∧ p.hashOf b = some g) := by
            rw [hal.listed_eq]
            by_cases hg : p.hashOf b = some g
            · simp [hg]
            · simp [hg]
          rw [hout.listed_eq, hfirst, List.filter_filter]
          refine List.filter_congr fun c _ => ?_
          rw [hal.hashOf_eq]
          by_cases hc : c = b
          · simp [hc]
          · simp [hc]
        · by_cases hcb : c = b
          · exact hcb ▸ List.mem_cons_self
          · have hin : c ∈ l.erase b := hnd.mem_erase_iff.mpr ⟨hcb, hc⟩
            rw [List.length_cons] at hk
            exact List.mem_cons_of_mem _ (hall (by omega) c hin)
    · rename_i hb
      obtain ⟨rfl, rfl⟩ := Prod.mk.inj ha
      have hnil := h.allocate_none hb
      exact ⟨⟨by simp, by simpa using h, by simp, by simp⟩, fun _ b hb => by simp [hnil] at hb⟩

end Pool

namespace KVCacheManager

variable {n : ℕ} {H : HashFns} {cfg : CacheConfig} {m m' : KVCacheManager} {rid : RequestId}

/-- What can be seen of a manager: its tables, its references, how many blocks are free, and the
length of the hit for every prompt. -/
structure LooksSame (H : HashFns) (cfg : CacheConfig) (m m' : KVCacheManager) : Prop where
  tables : ∀ rid, m'.getBlockIds rid = m.getBlockIds rid
  refs : ∀ b, m'.blockPool.refs b = m.blockPool.refs b
  numFree : m'.blockPool.numFree = m.blockPool.numFree
  hits : ∀ rid prompt skip,
    (m'.getComputedBlocks H cfg rid prompt skip).1.cachedBlockIds.length =
      (m.getComputedBlocks H cfg rid prompt skip).1.cachedBlockIds.length

/-- Every hash that the lookup for some prompt hits has a block that would not be evicted under
it: one that is in use, or that carries another hash by now. -/
def HitsSurvive (H : HashFns) (cfg : CacheConfig) (p : BlockPool) : Prop :=
  cfg.enablePrefixCaching = true → ∀ prompt : List Token, ∀ h ∈
    (computeBlockHashes H cfg.prefixHashAlgorithm prompt cfg.blockSize none).take (findPrefixHit
      p.hashMap (computeBlockHashes H cfg.prefixHashAlgorithm prompt cfg.blockSize none)),
    ∃ b ∈ p.listed h, ¬ (p.refs b = 0 ∧ p.hashOf b = some h)

/-- A failed allocation. -/
structure RollsBack (n : ℕ) (m m' : KVCacheManager) : Prop where
  tables : m'.requestBlocks = m.requestBlocks
  refs : m'.blockPool.refs = m.blockPool.refs
  rep : ∃ l, Rep n m'.blockPool l
  listed : ∀ h, m'.blockPool.listed h =
    (m.blockPool.listed h).filter fun b =>
      ¬ (m.blockPool.refs b = 0 ∧ m.blockPool.hashOf b = some h)

theorem Ranged.rollsBack (h : Ranged n m) {total computed : ℕ}
    (ha : m.allocateSlots cfg rid total computed = (none, m')) : RollsBack n m m' := by
  unfold KVCacheManager.allocateSlots at ha
  dsimp only at ha
  split at ha
  · cases (Prod.mk.inj ha).1
  · cases hl : allocMany (divCeil (total - computed) cfg.blockSize) m.blockPool with
    | mk bs pool =>
      simp only [hl] at ha
      split at ha
      · rename_i hlen
        obtain ⟨-, rfl⟩ := Prod.mk.inj ha
        obtain ⟨l, hrep⟩ := h.rep
        obtain ⟨hout, hall⟩ := hrep.handsOut hl
        obtain ⟨hr, hlt, -⟩ := hrep.allocMany_refs hl
        obtain ⟨hr', -, hlisted, hrep'⟩ := hout.rep.freeAll hlt
        refine ⟨rfl, ?_, hrep', fun g => ?_⟩
        · funext i
          exact (hr' i).trans (by rw [hr, Nat.add_sub_cancel])
        · refine (congrFun hlisted g).trans ((hout.listed_eq g).trans ?_)
          refine List.filter_congr fun b hb => ?_
          obtain ⟨hb0, hbn⟩ := hrep.listed_lt g b hb
          have hmem : b ∈ bs ↔ m.blockPool.refs b = 0 := by
            constructor
            · exact fun hbs => (hrep.mem_free (hout.sub b hbs)).2.2
            · exact fun hz => hall hlen b ((hrep.mem_iff b).mpr ⟨hbn, hb0.ne', hz⟩)
          simp only [hmem]
      · cases (Prod.mk.inj ha).1

theorem Ranged.hit_length (h : Ranged n m) (hne : ∀ g, m.blockPool.hashMap.lookup g ≠ some [])
    (rid : RequestId) (prompt : List Token) (skip : Bool) :
    (m.getComputedBlocks H cfg rid prompt skip).1.cachedBlockIds.length =
      if cfg.enablePrefixCaching = true ∧ skip = false ∧ prompt ≠ [] then
        findPrefixHit m.blockPool.hashMap
          (computeBlockHashes H cfg.prefixHashAlgorithm prompt cfg.blockSize none)
      else 0 := by
  split
  · rename_i hc
    obtain ⟨hcache, rfl, hprompt⟩ := hc
    exact (h.findsLongest hne hcache rid hprompt).length_eq
  · rename_i hc
    have hoff : (!cfg.enablePrefixCaching || skip || prompt.isEmpty) = true := by
      by_contra hon
      refine hc ?_
      simpa [and_assoc] using hon
    rw [KVCacheManager.getComputedBlocks, if_pos hoff]
    rfl

/-- A failed allocation cannot be seen exactly if every hit survives it. -/
theorem RollsBack.looksSame_iff (h : RollsBack n m m') (hm : Ranged n m) (hm' : Ranged n m')
    (hne : ∀ g, m.blockPool.hashMap.lookup g ≠ some [])
    (hne' : ∀ g, m'.blockPool.hashMap.lookup g ≠ some []) :
    LooksSame H cfg m m' ↔ HitsSurvive H cfg m.blockPool := by
  have hmem : ∀ g, g ∈ m'.blockPool.hashMap ↔ ∃ b ∈ m.blockPool.listed g,
      ¬ (m.blockPool.refs b = 0 ∧ m.blockPool.hashOf b = some g) := by
    intro g
    rw [mem_hashMap_iff hne', h.listed, Ne, List.filter_eq_nil_iff]
    simp
  have hsub : ∀ g ∈ m'.blockPool.hashMap, g ∈ m.blockPool.hashMap := by
    intro g hg
    obtain ⟨b, hb, -⟩ := (hmem g).mp hg
    exact (mem_hashMap_iff hne g).mpr (List.ne_nil_of_mem hb)
  constructor
  · intro hs hcache prompt g hg
    rw [← hmem]
    rcases eq_or_ne prompt [] with rfl | hprompt
    · simp [computeBlockHashes, hashBlocks] at hg
    · have hhit := hs.hits 0 prompt false
      rw [hm.hit_length hne, hm'.hit_length hne', if_pos ⟨hcache, rfl, hprompt⟩,
        if_pos ⟨hcache, rfl, hprompt⟩] at hhit
      exact (findPrefixHit_eq_iff hsub _).mp hhit g hg
  · intro hs
    constructor
    case tables =>
      intro rid
      rw [getBlockIds, getBlockIds, h.tables]
    case refs => exact congrFun h.refs
    case numFree =>
      obtain ⟨l, hl⟩ := hm.rep
      obtain ⟨l', hl'⟩ := h.rep
      have hperm : l'.Perm l := by
        rw [List.perm_ext_iff_of_nodup hl'.queue.linked.nodup hl.queue.linked.nodup]
        intro i
        rw [hl.mem_iff, hl'.mem_iff, h.refs]
      rw [hl.numFree_eq, hl'.numFree_eq, hperm.length_eq]
    case hits =>
      intro rid prompt skip
      rw [hm.hit_length hne, hm'.hit_length hne']
      split
      · rename_i hc
        refine (findPrefixHit_eq_iff hsub _).mpr fun g hg => ?_
        exact (hmem g).mpr (hs hc.1 prompt g hg)
      · rfl

/-- On at most `2 ^ 32` blocks, after any sequence of calls. -/
theorem allocateSlots_looksSame_iff (H : HashFns) (cfg : CacheConfig) (n : ℕ) (hle : n ≤ 2 ^ 32)
    (ops : List ManagerOp) (rid : RequestId) (total computed : ℕ) (m' : KVCacheManager)
    (hfail : (runOps H cfg n ops).allocateSlots cfg rid total computed = (none, m')) :
    LooksSame H cfg (runOps H cfg n ops) m' ↔ HitsSurvive H cfg (runOps H cfg n ops).blockPool := by
  have hm := (runOps_pool H cfg hle ops).1
  have hrun : m' = runOps H cfg n (ops ++ [.allocateSlots rid total computed]) := by
    rw [runOps, List.foldl_append]
    exact (congrArg Prod.snd hfail).symm
  have hm' := (runOps_pool H cfg hle (ops ++ [.allocateSlots rid total computed])).1
  have hne' := runOps_nonempty H cfg hle (ops ++ [.allocateSlots rid total computed])
  rw [← hrun] at hm' hne'
  exact (hm.rollsBack hfail).looksSame_iff hm hm' (runOps_nonempty H cfg hle ops) hne'

/-- The registered block is in use when an allocation fails. -/
theorem allocateSlots_looksSame_small :
    LooksSame smallHash smallCache
      (runOps smallHash smallCache 3 [.getComputedBlocks 1 [5] false, .allocateSlots 1 1 0,
        .cacheBlocks 1 1])
      ((runOps smallHash smallCache 3 [.getComputedBlocks 1 [5] false, .allocateSlots 1 1 0,
        .cacheBlocks 1 1]).allocateSlots smallCache 2 3 0).2 := by
  refine (allocateSlots_looksSame_iff smallHash smallCache 3 (by decide) [.getComputedBlocks 1 [5]
    false, .allocateSlots 1 1 0, .cacheBlocks 1 1] 2 3 0 _ (Prod.ext ?_ rfl)).mpr ?_
  · decide +kernel
  · intro _ prompt h hh
    have hcached := (findPrefixHit_eq_iff (fun _ hm => hm) _).mp rfl h hh
    have hall : List.Forall (fun h => ∃ b ∈ (runOps smallHash smallCache 3 [.getComputedBlocks 1 [5]
        false, .allocateSlots 1 1 0, .cacheBlocks 1 1]).blockPool.listed h, ¬ ((runOps smallHash
        smallCache 3 [.getComputedBlocks 1 [5] false, .allocateSlots 1 1 0,
        .cacheBlocks 1 1]).blockPool.refs b = 0 ∧ (runOps smallHash smallCache 3
        [.getComputedBlocks 1 [5] false, .allocateSlots 1 1 0,
        .cacheBlocks 1 1]).blockPool.hashOf b = some h))
        (runOps smallHash smallCache 3 [.getComputedBlocks 1 [5] false, .allocateSlots 1 1 0,
        .cacheBlocks 1 1]).blockPool.hashMap.keys := by
      decide +kernel
    exact List.forall_iff_forall_mem.mp hall h (AList.mem_keys.mp hcached)

/-- The only block cached for `[5]` is free when an allocation fails, and is evicted by it. -/
theorem not_allocateSlots_looksSame : ¬ ∀ (H : HashFns) (cfg : CacheConfig) (n : ℕ)
    (ops : List ManagerOp) (rid : RequestId) (total computed : ℕ) (m' : KVCacheManager),
    (runOps H cfg n ops).allocateSlots cfg rid total computed = (none, m') →
    LooksSame H cfg (runOps H cfg n ops) m' := by
  intro h
  have hs := h smallHash smallCache 3 [.getComputedBlocks 1 [5] false, .allocateSlots 1 1 0,
    .cacheBlocks 1 1, .free 1] 2 3 0 _ (Prod.ext (by decide +kernel) rfl)
  have hhit := hs.hits 3 [5] false
  revert hhit
  decide +kernel

end KVCacheManager

end Rllm
