import Rllm.Cache.BlockPool
import Rllm.Core.Config

/-! # The KV cache manager

Block tables of the requests on top of the block pool: prefix lookup,
allocation of slots, release, registration of full blocks, and the sharing of
a whole table.
-/

namespace Rllm

/-- What happens to the blocks. -/
inductive CacheEvent where
  /-- `allocate` returned the block. -/
  | handedOut (b : BlockId)
  /-- `cache_blocks` registered the block as the `i`-th of a request's prompt. -/
  | registered (b : BlockId) (requestId : RequestId) (i : ℕ)
  /-- `get_computed_blocks` returned the blocks for a prompt. -/
  | lookedUp (requestId : RequestId) (promptTokens : List Token) (blocks : List BlockId)
  deriving DecidableEq, Repr

structure KVCacheManager where
  blockPool : BlockPool
  requestBlocks : AList fun _ : RequestId => List BlockId
  requestComputedTokens : AList fun _ : RequestId => ℕ
  requestBlockHashes : AList fun _ : RequestId => List BlockHash
  /-- Ghost state: the history of the blocks, in order. Nothing reads it. -/
  log : List CacheEvent

structure PrefixCacheResult where
  cachedBlockIds : List BlockId
  numComputedTokens : ℕ
  deriving DecidableEq, Repr

/-- The blocks cached under the hashes, up to the first miss. -/
def lookupBlocks : List BlockHash → BlockPool → List BlockId × BlockPool
  | [], p => ([], p)
  | h :: hs, p =>
    match p.getCachedBlock h with
    | some (b, p) =>
      let (bs, p) := lookupBlocks hs p
      (b :: bs, p)
    | none => ([], p)

/-- Up to `n` fresh blocks: fewer when the pool runs dry. -/
def allocMany : ℕ → BlockPool → List BlockId × BlockPool
  | 0, p => ([], p)
  | n + 1, p =>
    match p.allocate with
    | some (b, p) =>
      let (bs, p) := allocMany n p
      (b :: bs, p)
    | none => ([], p)

def freeAll (bs : List BlockId) (p : BlockPool) : BlockPool := bs.foldl BlockPool.free p

namespace KVCacheManager

def new (numBlocks : ℕ) : KVCacheManager where
  blockPool := .new numBlocks
  requestBlocks := ∅
  requestComputedTokens := ∅
  requestBlockHashes := ∅
  log := []

variable (H : HashFns) (cfg : CacheConfig) (m : KVCacheManager) (requestId : RequestId)

def getComputedBlocks (promptTokens : List Token) (skipPrefixCache : Bool) :
    PrefixCacheResult × KVCacheManager :=
  if !cfg.enablePrefixCaching || skipPrefixCache || promptTokens.isEmpty then (⟨[], 0⟩, m)
  else
    let hashes := computeBlockHashes H cfg.prefixHashAlgorithm promptTokens cfg.blockSize none
    let (cachedBlockIds, blockPool) := lookupBlocks hashes m.blockPool
    let numComputedTokens := cachedBlockIds.length * cfg.blockSize
    (⟨cachedBlockIds, numComputedTokens⟩,
      { m with
        blockPool
        requestBlockHashes := m.requestBlockHashes.insert requestId hashes
        requestComputedTokens := m.requestComputedTokens.insert requestId numComputedTokens
        requestBlocks := m.requestBlocks.insert requestId cachedBlockIds
        log := m.log ++ [.lookedUp requestId promptTokens cachedBlockIds] })

/-- Grow a request's table for the tokens beyond `numComputed`. When the pool runs dry the
blocks taken so far are given back. -/
def allocateSlots (numTokens numComputed : ℕ) : Option (List BlockId) × KVCacheManager :=
  let tokensNeeded := numTokens - numComputed
  if tokensNeeded = 0 then (some [], m)
  else
    let numNewBlocks := divCeil tokensNeeded cfg.blockSize
    let (newBlocks, blockPool) := allocMany numNewBlocks m.blockPool
    let log := m.log ++ newBlocks.map .handedOut
    if newBlocks.length < numNewBlocks then
      (none, { m with blockPool := freeAll newBlocks blockPool, log })
    else
      let blockTable := (m.requestBlocks.lookup requestId).getD []
      (some newBlocks,
        { m with
          blockPool
          requestBlocks := m.requestBlocks.insert requestId (blockTable ++ newBlocks)
          log })

def free : KVCacheManager :=
  { m with
    blockPool := match m.requestBlocks.lookup requestId with
      | some blocks => freeAll blocks m.blockPool
      | none => m.blockPool
    requestBlocks := m.requestBlocks.erase requestId
    requestComputedTokens := m.requestComputedTokens.erase requestId
    requestBlockHashes := m.requestBlockHashes.erase requestId }

/-- Register the `i`-th block of a table under the `i`-th hash. -/
def registerBlock (blockTable : List BlockId) (hashes : List BlockHash) (i : ℕ) :
    KVCacheManager :=
  match blockTable[i]?, hashes[i]? with
  | some b, some hash =>
    { m with
      blockPool := m.blockPool.cacheBlock b hash
      log := m.log ++ [.registered b requestId i] }
  | _, _ => m

/-- Register the full blocks of a request that are not registered yet. -/
def cacheBlocks (numComputedTokens : ℕ) : KVCacheManager :=
  if !cfg.enablePrefixCaching then m
  else
    let numFullBlocks := numComputedTokens / cfg.blockSize
    match m.requestBlocks.lookup requestId, m.requestBlockHashes.lookup requestId with
    | some blockTable, some hashes =>
      let existingCached := (m.requestComputedTokens.lookup requestId).getD 0
      let alreadyCachedBlocks := existingCached / cfg.blockSize
      let blocks := List.range' alreadyCachedBlocks
        (min numFullBlocks hashes.length - alreadyCachedBlocks)
      let m := blocks.foldl (fun m i => m.registerBlock requestId blockTable hashes i) m
      { m with requestComputedTokens := m.requestComputedTokens.insert requestId numComputedTokens }
    | _, _ => m

/-- Share the blocks of a parent request with a child request. -/
def forkBlocks (parentId childId : RequestId) : Except String KVCacheManager :=
  match m.requestBlocks.lookup parentId with
  | none => .error s!"Parent request RequestId({parentId}) not found in cache manager"
  | some parentBlocks =>
    .ok { m with
      blockPool := parentBlocks.foldl BlockPool.incref m.blockPool
      requestBlocks := m.requestBlocks.insert childId parentBlocks
      requestComputedTokens := match m.requestComputedTokens.lookup parentId with
        | some computed => m.requestComputedTokens.insert childId computed
        | none => m.requestComputedTokens
      requestBlockHashes := match m.requestBlockHashes.lookup parentId with
        | some hashes => m.requestBlockHashes.insert childId hashes
        | none => m.requestBlockHashes }

def getBlockIds : Option (List BlockId) := m.requestBlocks.lookup requestId

def resetPrefixCache : Except String KVCacheManager :=
  if m.requestBlocks.keys.isEmpty then
    match m.blockPool.resetPrefixCache with
    | .ok blockPool => .ok { m with blockPool }
    | .error e => .error e
  else
    let len := m.requestBlocks.keys.length
    .error s!"cannot reset prefix cache: {len} active requests"

end KVCacheManager

end Rllm
