import Mathlib.Data.List.Infix
import Rllm.Cache.ManagerRuns
import Rllm.Library.Checked

/-! # Reference counts as machine words

The pool counts references without bound. In the program a count is a `u32`,
and two operations add to one. As long as every block has fewer than `2 ^ 32`
references, the operations on the words are those of the pool.
-/

namespace Rllm

open DoublyLinked

namespace BlockPool

variable (checks : Bool) (p : BlockPool)

/-- `ref_count += 1` on a block. -/
def countRef (blockId : BlockId) : Except String BlockPool := do
  let refCount ← Checked.incU32 checks (p.block blockId).refCount
  return p.modifyBlock blockId fun b => { b with refCount }

/-- `BlockPool::incref` on the `u32`. -/
def increfU32 (blockId : BlockId) : Except String BlockPool :=
  if !(p.block blockId).isNull && 0 < (p.block blockId).refCount then p.countRef checks blockId
  else .ok p

/-- `BlockPool::get_cached_block` on the `u32`. -/
def getCachedBlockU32 (hash : BlockHash) : Except String (Option (BlockId × BlockPool)) :=
  match (p.hashMap.lookup hash).bind List.head? with
  | some blockId => do
    let p := p.touch blockId
    let needsActivate := decide ((p.block blockId).refCount = 0)
    let p := if needsActivate && p.inQueue blockId then p.unlink blockId else p
    let p := if needsActivate then { p with numActiveBlocks := p.numActiveBlocks + 1 } else p
    let p ← p.countRef checks blockId
    return some (blockId, p)
  | none => .ok none

end BlockPool

/-- An operation on the `u32`. Only two of them add to a count that is there. -/
def PoolOp.runU32 (checks : Bool) (p : BlockPool) : PoolOp → Except String BlockPool
  | incref b => p.increfU32 checks b
  | getCachedBlock h => do
    let found ← p.getCachedBlockU32 checks h
    return (found.map Prod.snd).getD p
  | op => .ok (op.run p)

/-- The pool of `n` blocks after a sequence of operations, unless one panics. -/
def BlockPool.runOpsU32 (checks : Bool) (n : ℕ) (ops : List PoolOp) : Except String BlockPool :=
  ops.foldlM (PoolOp.runU32 checks) (.new n)

namespace BlockPool

/-- Every block has fewer than `2 ^ 32` references. -/
def Fits (p : BlockPool) : Prop := ∀ b ∈ p.blocks, b.refCount < 2 ^ 32

instance (p : BlockPool) : Decidable p.Fits := inferInstanceAs (Decidable (∀ b ∈ p.blocks, _))

/-- The references fit after each of the operations. -/
def FitsAlong (n : ℕ) (ops : List PoolOp) : Prop := ∀ ops' ∈ ops.inits, (runOps n ops').Fits

instance (n : ℕ) (ops : List PoolOp) : Decidable (FitsAlong n ops) :=
  inferInstanceAs (Decidable (∀ ops' ∈ ops.inits, _))

end BlockPool

namespace BlockPool

variable {checks : Bool} {n : ℕ} {p p' : BlockPool} {a b : BlockId} {hash : BlockHash}

theorem lt_length_of_refs (h : 0 < p.refs b) : b < p.blocks.length := by
  by_contra hlen
  have hblock : p.block b = { id := 0 } := by
    rw [block, blockAt, List.getD_eq_getElem?_getD, List.getElem?_eq_none (not_lt.mp hlen)]
    rfl
  rw [refs, hblock] at h
  exact lt_irrefl 0 h

theorem fits_iff : p.Fits ↔ ∀ b, p.refs b < 2 ^ 32 := by
  constructor
  · intro h b
    by_cases hb : b < p.blocks.length
    · have hblock : p.block b = p.blocks[b] := by simp [block, blockAt, hb]
      rw [refs, hblock]
      exact h _ (List.getElem_mem hb)
    · rw [Nat.eq_zero_of_not_pos fun hpos => hb (lt_length_of_refs hpos)]
      exact Nat.two_pow_pos 32
  · intro h c hc
    obtain ⟨b, hb, rfl⟩ := List.mem_iff_getElem.mp hc
    have hblock : p.block b = p.blocks[b] := by simp [block, blockAt, hb]
    exact hblock ▸ h b

theorem countRef_eq (h : p.refs b + 1 < 2 ^ 32) :
    p.countRef checks b = .ok (p.modifyBlock b fun c => { c with refCount := c.refCount + 1 }) := by
  have hinc : Checked.incU32 checks (p.block b).refCount = .ok ((p.block b).refCount + 1) :=
    Checked.incU32_of_lt h
  rw [countRef, hinc]
  refine congrArg (fun blocks => Except.ok { p with blocks }) ?_
  by_cases hb : b < p.blocks.length
  · refine List.ext_getElem? fun i => ?_
    rw [List.getElem?_modify, List.getElem?_modify]
    by_cases hi : b = i
    · subst hi
      simp [block, blockAt, hb]
    · simp [hi]
  · rw [List.modify_eq_self (not_lt.mp hb), List.modify_eq_self (not_lt.mp hb)]

theorem countRef_of_lt
    (h : (p.modifyBlock b fun c => { c with refCount := c.refCount + 1 }).refs b < 2 ^ 32) :
    p.countRef checks b = .ok (p.modifyBlock b fun c => { c with refCount := c.refCount + 1 }) := by
  apply countRef_eq
  by_cases hb : b < p.blocks.length
  · rwa [refs_modifyBlock _ _ hb, if_pos rfl] at h
  · rw [Nat.eq_zero_of_not_pos fun hpos => hb (lt_length_of_refs hpos)]
    decide

theorem countRef_lt (h : p.countRef checks b = .ok p') : p'.refs b < 2 ^ 32 := by
  obtain ⟨refCount, hinc, hp⟩ := bind_eq_ok.mp h
  obtain rfl := Except.ok.inj hp
  by_cases hb : b < p.blocks.length
  · rw [refs_modifyBlock _ _ hb, if_pos rfl]
    exact Checked.incU32_lt hinc
  · rw [Nat.eq_zero_of_not_pos fun hpos => hb (length_modifyBlock p b _ ▸ lt_length_of_refs hpos)]
    exact Nat.two_pow_pos 32

theorem increfU32_eq (h : (p.incref b).Fits) : p.increfU32 checks b = .ok (p.incref b) := by
  unfold increfU32
  unfold incref at h ⊢
  split
  · rename_i hc
    rw [if_pos hc] at h
    exact countRef_of_lt (fits_iff.mp h b)
  · rfl

theorem getCachedBlockU32_none (h : p.getCachedBlock hash = none) :
    p.getCachedBlockU32 checks hash = .ok none := by
  unfold getCachedBlock at h
  unfold getCachedBlockU32
  cases hl : (p.hashMap.lookup hash).bind List.head? with
  | none => rfl
  | some c =>
    rw [hl] at h
    cases h

theorem getCachedBlockU32_some (h : p.getCachedBlock hash = some (b, p'))
    (hlt : p'.refs b < 2 ^ 32) :
    p.getCachedBlockU32 checks hash = .ok (some (b, p')) := by
  unfold getCachedBlock at h
  unfold getCachedBlockU32
  cases hl : (p.hashMap.lookup hash).bind List.head? with
  | none =>
    rw [hl] at h
    cases h
  | some c =>
    rw [hl] at h
    obtain ⟨rfl, rfl⟩ := Prod.mk.inj (Option.some.inj h)
    dsimp only
    rw [countRef_of_lt hlt]
    rfl

/-- On references that fit, an operation on the words is the pool's. -/
theorem runU32_eq {op : PoolOp} (h : (op.run p).Fits) : op.runU32 checks p = .ok (op.run p) := by
  cases op with
  | incref b => exact increfU32_eq h
  | getCachedBlock hash =>
    rw [PoolOp.runU32]
    simp only [PoolOp.run] at h ⊢
    cases hc : p.getCachedBlock hash with
    | none =>
      rw [getCachedBlockU32_none hc]
      rfl
    | some found =>
      rw [hc] at h
      rw [getCachedBlockU32_some hc (fits_iff.mp h _)]
      rfl
  | allocate => rfl
  | free b => rfl
  | copyOnWrite b => rfl
  | touch b => rfl
  | cacheBlock b hash => rfl
  | resetPrefixCache => rfl

theorem runOpsU32_eq {ops : List PoolOp} (h : FitsAlong n ops) :
    runOpsU32 checks n ops = .ok (runOps n ops) :=
  foldlM_eq_ok (fun _ _ => runU32_eq) ops fun ops' hops' => h ops' ((List.mem_inits _ _).mpr hops')

theorem getCachedBlockU32_block (h : p.getCachedBlockU32 checks hash = .ok (some (b, p'))) :
    (∃ p'', p.getCachedBlock hash = some (b, p'')) ∧ p'.refs b < 2 ^ 32 := by
  unfold getCachedBlockU32 at h
  unfold getCachedBlock
  cases hl : (p.hashMap.lookup hash).bind List.head? with
  | none =>
    rw [hl] at h
    cases h
  | some c =>
    rw [hl] at h
    obtain ⟨q, hcount, hq⟩ := bind_eq_ok.mp h
    obtain ⟨rfl, rfl⟩ := Prod.mk.inj (Option.some.inj (Except.ok.inj hq))
    exact ⟨⟨_, rfl⟩, countRef_lt hcount⟩

theorem Fits.mono (h : p'.Fits) (hle : ∀ b, p.refs b ≤ p'.refs b) : p.Fits :=
  fits_iff.mpr fun b => (hle b).trans_lt (fits_iff.mp h b)

theorem refs_le_counted (p : BlockPool) (b i : BlockId) :
    p.refs i ≤ (p.modifyBlock b fun c => { c with refCount := c.refCount + 1 }).refs i := by
  by_cases hb : b < p.blocks.length
  · rw [refs_modifyBlock _ _ hb]
    split
    · exact Nat.le_succ _
    · exact le_rfl
  · rw [modifyBlock, List.modify_eq_self (not_lt.mp hb)]

theorem refs_le_incref (p : BlockPool) (b i : BlockId) : p.refs i ≤ (p.incref b).refs i := by
  unfold incref
  split
  · exact refs_le_counted p b i
  · exact le_rfl

theorem refs_le_getCachedBlock (h : p.getCachedBlock hash = some (b, p')) (i : BlockId) :
    p.refs i ≤ p'.refs i := by
  unfold getCachedBlock at h
  split at h
  · rename_i c _
    obtain ⟨rfl, rfl⟩ := Prod.mk.inj (Option.some.inj h)
    refine le_of_eq_of_le ?_ (refs_le_counted _ _ i)
    have hunlink := (congrFun (refs_unlink (p.touch c) c) i).symm
    rw [← refs_touch p c]
    split <;> split
    · exact hunlink
    · rfl
    · exact hunlink
    · rfl
  · cases h

/-- What the links, the counters and the results of a healthy pool satisfy. -/
structure Healthy (checks : Bool) (n : ℕ) (p : BlockPool) : Prop where
  freeList : ∃ l : List ℕ, Path (fun i => (p.block i).nextFree) p.freeQueue.head l ∧
    Path (fun i => (p.block i).prevFree) p.freeQueue.tail l.reverse ∧ l.Nodup ∧
    l.length = p.freeQueue.len ∧
    ∀ i, i ∈ l ↔ i < n ∧ (p.block i).isNull = false ∧ (p.block i).refCount = 0
  active : p.numActive = p.blocks.countP fun b => 0 < b.refCount
  total : p.numFree + p.numActive = n - 1
  allocate_ne : ∀ b p', p.allocate = some (b, p') → b ≠ 0
  copyOnWrite_ne : ∀ b c p', p.isShared b = true → p.copyOnWrite b = some (c, p') → c ≠ 0
  getCachedBlock_ne : ∀ hash b p', p.getCachedBlockU32 checks hash = .ok (some (b, p')) → b ≠ 0

theorem Rep.healthy {l : List ℕ} (h : Rep n p l) : Healthy checks n p where
  freeList := by
    refine ⟨l, h.queue.linked.forward, h.queue.linked.backward, h.queue.linked.nodup,
      h.queue.len_eq.symm, fun i => (h.mem_iff i).trans ?_⟩
    refine and_congr_right fun hi => ?_
    rw [h.isNull_eq hi, decide_eq_false_iff_not]
    rfl
  active := h.numActive_eq
  total := by
    have ht := h.total
    rw [numFree, numActive, h.queue.len_eq]
    omega
  allocate_ne b p' ha := (h.mem_free (h.allocate_some ha).1).2.1
  copyOnWrite_ne b c p' hs hc := by
    rcases h.copyOnWrite_some hc with ⟨hs', -⟩ | ⟨-, hm, -⟩
    · exact absurd hs (hs'.symm ▸ Bool.false_ne_true)
    · exact (h.mem_free hm).2.1
  getCachedBlock_ne hash b p' hc := by
    obtain ⟨⟨p'', hp''⟩, -⟩ := getCachedBlockU32_block hc
    exact (h.listed_lt hash b (List.mem_of_mem_head? (h.getCachedBlock_some hp'').1)).1.ne'

/-- A run of operations on at most `2 ^ 32` blocks, in which no block gets `2 ^ 32` references,
does not panic and leaves the pool healthy. -/
theorem runOps_healthy (checks : Bool) (n : ℕ) (hn : 1 ≤ n) (hle : n ≤ 2 ^ 32)
    (ops : List PoolOp) (hops : ∀ op ∈ ops, op.InRange n) (hfit : FitsAlong n ops) :
    ∃ p, runOpsU32 checks n ops = .ok p ∧ Healthy checks n p := by
  obtain ⟨l, h⟩ := rep_runOps hn hle hops
  exact ⟨runOps n ops, runOpsU32_eq hfit, h.healthy⟩

theorem runOps_healthy_shared : ∃ p, runOpsU32 true 4 [.allocate, .cacheBlock 1 7, .incref 1,
    .copyOnWrite 1, .free 1, .touch 1, .getCachedBlock 7, .free 2] = .ok p ∧ Healthy true 4 p :=
  runOps_healthy true 4 (by decide) (by decide) _ (by simp [PoolOp.InRange]) (by decide)

theorem wrapped_not_healthy (hn : n = 2 ^ 32 + 2) : ¬ Healthy checks n (new n) := by
  intro h
  obtain ⟨l, hl, -, -, -, hm⟩ := h.freeList
  obtain ⟨hhead, hnext, -⟩ := wrapped_links hn
  have hpath : Path (fun i => ((new n).block i).nextFree) (new n).freeQueue.head [1] :=
    ⟨hhead, hnext⟩
  obtain rfl : l = [1] := Path.unique hl hpath
  have hc := new_core (n := n) 2 (by omega)
  have hm2 := (hm 2).mpr ⟨by omega, congrArg KVCacheBlock.isNull hc,
    congrArg KVCacheBlock.refCount hc⟩
  simp at hm2

theorem not_runOps_healthy : ¬ ∀ (checks : Bool) (n : ℕ), 1 ≤ n → ∀ ops : List PoolOp,
    (∀ op ∈ ops, op.InRange n) → FitsAlong n ops →
      ∃ p, runOpsU32 checks n ops = .ok p ∧ Healthy checks n p := by
  intro h
  obtain ⟨n, hn⟩ : ∃ n, n = 2 ^ 32 + 2 := ⟨_, rfl⟩
  have hfit : FitsAlong n [] := by
    intro ops' hops'
    obtain rfl : ops' = [] := by simpa using hops'
    exact fits_iff.mpr fun b => (refs_new b).trans_lt (Nat.two_pow_pos 32)
  obtain ⟨p, hp, hhealthy⟩ := h true n (by omega) [] (by simp) hfit
  obtain rfl : new n = p := Except.ok.inj hp
  exact wrapped_not_healthy hn hhealthy

end BlockPool

/-! ## Manager calls on the words -/

def lookupBlocksU32 (checks : Bool) :
    List BlockHash → BlockPool → Except String (List BlockId × BlockPool)
  | [], p => .ok ([], p)
  | h :: hs, p => do
    match ← p.getCachedBlockU32 checks h with
    | some (b, p) =>
      let (bs, p) ← lookupBlocksU32 checks hs p
      return (b :: bs, p)
    | none => return ([], p)

namespace KVCacheManager

variable (H : HashFns) (cfg : CacheConfig) (checks : Bool) (m : KVCacheManager)

/-- `KVCacheManager::get_computed_blocks` on the `u32`. -/
def getComputedBlocksU32 (requestId : RequestId) (promptTokens : List Token)
    (skipPrefixCache : Bool) : Except String (PrefixCacheResult × KVCacheManager) :=
  if !cfg.enablePrefixCaching || skipPrefixCache || promptTokens.isEmpty then .ok (⟨[], 0⟩, m)
  else do
    let hashes := computeBlockHashes H cfg.prefixHashAlgorithm promptTokens cfg.blockSize none
    let (cachedBlockIds, blockPool) ← lookupBlocksU32 checks hashes m.blockPool
    let numComputedTokens := cachedBlockIds.length * cfg.blockSize
    return (⟨cachedBlockIds, numComputedTokens⟩,
      { m with
        blockPool
        requestBlockHashes := m.requestBlockHashes.insert requestId hashes
        requestComputedTokens := m.requestComputedTokens.insert requestId numComputedTokens
        requestBlocks := m.requestBlocks.insert requestId cachedBlockIds
        log := m.log ++ [.lookedUp requestId promptTokens cachedBlockIds] })

/-- `KVCacheManager::fork_blocks` on the `u32`: the outer error is a panic, the inner one is
returned. -/
def forkBlocksU32 (parentId childId : RequestId) :
    Except String (Except String KVCacheManager) :=
  match m.requestBlocks.lookup parentId with
  | none => .ok (m.forkBlocks parentId childId)
  | some parentBlocks => do
    let blockPool ← parentBlocks.foldlM (fun p b => p.increfU32 checks b) m.blockPool
    return (m.forkBlocks parentId childId).map fun m => { m with blockPool }

end KVCacheManager

namespace ManagerOp

variable (H : HashFns) (cfg : CacheConfig) (checks : Bool) (m : KVCacheManager)

/-- A call on the `u32`. The others add to no count. -/
def runU32 : ManagerOp → Except String KVCacheManager
  | getComputedBlocks rid prompt skip => do
    let (_, m) ← m.getComputedBlocksU32 H cfg checks rid prompt skip
    return m
  | forkBlocks parent child => do
    let forked ← m.forkBlocksU32 checks parent child
    return forked.toOption.getD m
  | op => .ok (op.run H cfg m)

end ManagerOp

namespace KVCacheManager

/-- The manager on `n` blocks after a sequence of calls, unless one panics. -/
def runOpsU32 (H : HashFns) (cfg : CacheConfig) (checks : Bool) (n : ℕ) (ops : List ManagerOp) :
    Except String KVCacheManager :=
  ops.foldlM (ManagerOp.runU32 H cfg checks) (.new n)

/-- The references fit after each of the calls. -/
def FitsAlong (H : HashFns) (cfg : CacheConfig) (n : ℕ) (ops : List ManagerOp) : Prop :=
  ∀ ops' ∈ ops.inits, (runOps H cfg n ops').blockPool.Fits

instance (H : HashFns) (cfg : CacheConfig) (n : ℕ) (ops : List ManagerOp) :
    Decidable (FitsAlong H cfg n ops) :=
  inferInstanceAs (Decidable (∀ ops' ∈ ops.inits, _))

end KVCacheManager

section Pool

open BlockPool

variable {checks : Bool} {p p' : BlockPool} {hs : List BlockHash} {bs : List BlockId}

theorem refs_le_lookupBlocks (h : lookupBlocks hs p = (bs, p')) (i : BlockId) :
    p.refs i ≤ p'.refs i := by
  induction hs generalizing p bs with
  | nil =>
    obtain ⟨-, rfl⟩ := Prod.mk.inj h
    exact le_rfl
  | cons hash hs ih =>
    unfold lookupBlocks at h
    split at h
    · rename_i b q hb
      obtain ⟨-, rfl⟩ := Prod.mk.inj h
      exact (refs_le_getCachedBlock hb i).trans (ih rfl)
    · obtain ⟨-, rfl⟩ := Prod.mk.inj h
      exact le_rfl

theorem lookupBlocksU32_eq (h : lookupBlocks hs p = (bs, p')) (hfit : p'.Fits) :
    lookupBlocksU32 checks hs p = .ok (bs, p') := by
  induction hs generalizing p bs with
  | nil => exact congrArg Except.ok h
  | cons hash hs ih =>
    rw [lookupBlocksU32]
    unfold lookupBlocks at h
    split at h
    · rename_i b q hb
      cases hq : lookupBlocks hs q with
      | mk cs q' =>
        rw [hq] at h
        obtain ⟨rfl, rfl⟩ := Prod.mk.inj h
        have hqfit : q.Fits := hfit.mono (refs_le_lookupBlocks hq)
        rw [getCachedBlockU32_some hb (fits_iff.mp hqfit b), ok_bind]
        simp only [ih hq]
        rfl
    · rename_i hb
      rw [getCachedBlockU32_none hb, ok_bind]
      exact congrArg Except.ok h

theorem refs_le_increfAll (p : BlockPool) (bs : List BlockId) (i : BlockId) :
    p.refs i ≤ (bs.foldl incref p).refs i := by
  induction bs generalizing p with
  | nil => exact le_rfl
  | cons b bs ih => exact (refs_le_incref p b i).trans (ih _)

theorem increfAllU32_eq (hfit : (bs.foldl incref p).Fits) :
    bs.foldlM (fun p b => p.increfU32 checks b) p = .ok (bs.foldl incref p) := by
  induction bs generalizing p with
  | nil => rfl
  | cons b bs ih =>
    rw [List.foldlM_cons, increfU32_eq (hfit.mono (refs_le_increfAll _ bs)), ok_bind]
    exact ih hfit

end Pool

namespace KVCacheManager

variable {H : HashFns} {cfg : CacheConfig} {checks : Bool} {n : ℕ} {m : KVCacheManager}

theorem getComputedBlocksU32_eq {rid : RequestId} {prompt : List Token} {skip : Bool}
    (h : (m.getComputedBlocks H cfg rid prompt skip).2.blockPool.Fits) :
    m.getComputedBlocksU32 H cfg checks rid prompt skip =
      .ok (m.getComputedBlocks H cfg rid prompt skip) := by
  unfold getComputedBlocksU32
  unfold getComputedBlocks at h ⊢
  split
  · rfl
  · rename_i hon
    rw [if_neg hon] at h
    dsimp only at h ⊢
    cases hl : lookupBlocks (computeBlockHashes H cfg.prefixHashAlgorithm prompt cfg.blockSize
        none) m.blockPool with
    | mk bs pool =>
      rw [hl] at h
      simp only [lookupBlocksU32_eq hl h]
      rfl

theorem forkBlocksU32_eq {parent child : RequestId}
    (h : ((m.forkBlocks parent child).toOption.getD m).blockPool.Fits) :
    m.forkBlocksU32 checks parent child = .ok (m.forkBlocks parent child) := by
  unfold forkBlocksU32
  unfold forkBlocks at h ⊢
  cases hl : m.requestBlocks.lookup parent with
  | none => rfl
  | some bs =>
    rw [hl] at h
    dsimp only
    rw [increfAllU32_eq h]
    rfl

theorem runU32_eq {op : ManagerOp} (h : (op.run H cfg m).blockPool.Fits) :
    op.runU32 H cfg checks m = .ok (op.run H cfg m) := by
  cases op with
  | getComputedBlocks rid prompt skip =>
    rw [ManagerOp.runU32, getComputedBlocksU32_eq h]
    rfl
  | forkBlocks parent child =>
    rw [ManagerOp.runU32, forkBlocksU32_eq h]
    rfl
  | allocateSlots rid total computed => rfl
  | cacheBlocks rid total => rfl
  | free rid => rfl
  | resetPrefixCache => rfl

theorem runOpsU32_eq {ops : List ManagerOp} (h : FitsAlong H cfg n ops) :
    runOpsU32 H cfg checks n ops = .ok (runOps H cfg n ops) :=
  foldlM_eq_ok (P := fun m => m.blockPool.Fits) (fun _ _ => runU32_eq) ops fun ops' hops' =>
    h ops' ((List.mem_inits _ _).mpr hops')

end KVCacheManager

end Rllm
