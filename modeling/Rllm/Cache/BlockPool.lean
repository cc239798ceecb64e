import Mathlib.Data.List.AList
import Rllm.Cache.Prefix
import Rllm.Library.Checked
import Rllm.Library.DoublyLinked

/-! # The block pool

Metadata of the KV cache blocks: reference counts, prefix-cache hashes and an
intrusive doubly linked queue of the free blocks. Block `0` is the null block,
which stands for "no block" and is never handed out.
-/

namespace Rllm

structure KVCacheBlock where
  id : BlockId
  hash : Option BlockHash := none
  /-- A `u32`, counted here without bound; `Rllm.Cache.RefCounts` runs the operations on words. -/
  refCount : ℕ := 0
  prevFree : Option ℕ := none
  nextFree : Option ℕ := none
  isNull : Bool := false
  deriving DecidableEq, Repr

/-- The block at an index of the pool's vector. Every index used below is in range. -/
def blockAt (blocks : List KVCacheBlock) (i : ℕ) : KVCacheBlock := blocks.getD i { id := 0 }

/-- The two ends and the length of the queue; the links live in the blocks. -/
structure FreeBlockQueue where
  head : Option ℕ := none
  tail : Option ℕ := none
  len : ℕ := 0
  deriving DecidableEq, Repr

namespace FreeBlockQueue

def pushFront (q : FreeBlockQueue) (blocks : List KVCacheBlock) (idx : ℕ) :
    FreeBlockQueue × List KVCacheBlock :=
  let blocks := blocks.modify idx fun b => { b with prevFree := none, nextFree := q.head }
  match q.head with
  | some headIdx =>
    ({ q with head := some idx, len := q.len + 1 },
      blocks.modify headIdx fun b => { b with prevFree := some idx })
  | none => ({ head := some idx, tail := some idx, len := q.len + 1 }, blocks)

def pushBack (q : FreeBlockQueue) (blocks : List KVCacheBlock) (idx : ℕ) :
    FreeBlockQueue × List KVCacheBlock :=
  let blocks := blocks.modify idx fun b => { b with prevFree := q.tail, nextFree := none }
  match q.tail with
  | some tailIdx =>
    ({ q with tail := some idx, len := q.len + 1 },
      blocks.modify tailIdx fun b => { b with nextFree := some idx })
  | none => ({ head := some idx, tail := some idx, len := q.len + 1 }, blocks)

def remove (q : FreeBlockQueue) (blocks : List KVCacheBlock) (idx : ℕ) :
    FreeBlockQueue × List KVCacheBlock :=
  let prev := (blockAt blocks idx).prevFree
  let next := (blockAt blocks idx).nextFree
  let (head, blocks) := match prev with
    | some p => (q.head, blocks.modify p fun b => { b with nextFree := next })
    | none => (next, blocks)
  let (tail, blocks) := match next with
    | some n => (q.tail, blocks.modify n fun b => { b with prevFree := prev })
    | none => (prev, blocks)
  ({ head, tail, len := q.len - 1 },
    blocks.modify idx fun b => { b with prevFree := none, nextFree := none })

end FreeBlockQueue

structure BlockPool where
  blocks : List KVCacheBlock
  freeQueue : FreeBlockQueue
  /-- The blocks registered under each hash. -/
  hashMap : AList fun _ : BlockHash => List BlockId
  numActiveBlocks : ℕ

namespace BlockPool

def initBlocks (numBlocks : ℕ) : List KVCacheBlock :=
  { id := 0, isNull := true } :: (List.range' 1 (numBlocks - 1)).map fun i => { id := asU32 i }

/-- Blocks `1..numBlocks` start free, in this order. -/
def new (numBlocks : ℕ) : BlockPool :=
  let (freeQueue, blocks) := (List.range' 1 (numBlocks - 1)).foldl
    (fun (q, blocks) i => FreeBlockQueue.pushBack q blocks (asU32 i)) ({}, initBlocks numBlocks)
  { blocks, freeQueue, hashMap := ∅, numActiveBlocks := 0 }

variable (p : BlockPool)

def block (i : ℕ) : KVCacheBlock := blockAt p.blocks i

def numBlocks : ℕ := p.blocks.length
def numActive : ℕ := p.numActiveBlocks
def numFree : ℕ := p.freeQueue.len

/-- Unlink a block from the free queue. -/
def unlink (idx : ℕ) : BlockPool :=
  let (freeQueue, blocks) := p.freeQueue.remove p.blocks idx
  { p with freeQueue, blocks }

/-- Put a block at the most recently used end of the free queue. -/
def linkFront (idx : ℕ) : BlockPool :=
  let (freeQueue, blocks) := p.freeQueue.pushFront p.blocks idx
  { p with freeQueue, blocks }

def modifyBlock (idx : ℕ) (f : KVCacheBlock → KVCacheBlock) : BlockPool :=
  { p with blocks := p.blocks.modify idx f }

def removeHashEntry (hash : BlockHash) (blockId : BlockId) : BlockPool :=
  match p.hashMap.lookup hash with
  | some ids =>
    let ids := ids.filter (· ≠ blockId)
    if ids.isEmpty then { p with hashMap := p.hashMap.erase hash }
    else { p with hashMap := p.hashMap.insert hash ids }
  | none => p

/-- Take the first uncached block from the head of the free queue. -/
def popUncached : Option (ℕ × BlockPool) :=
  match DoublyLinked.findAlong (fun i => (p.block i).nextFree) (fun i => (p.block i).hash.isNone)
      p.blocks.length p.freeQueue.head with
  | some idx => some (idx, p.unlink idx)
  | none => none

/-- Take the first cached block from the tail of the free queue, dropping its hash. -/
def evictLru : Option (ℕ × BlockPool) :=
  match DoublyLinked.findAlong (fun i => (p.block i).prevFree) (fun i => (p.block i).hash.isSome)
      p.blocks.length p.freeQueue.tail with
  | some idx =>
    let p := p.unlink idx
    match (p.block idx).hash with
    | some hash =>
      let p := p.modifyBlock idx fun b => { b with hash := none }
      some (idx, p.removeHashEntry hash (p.block idx).id)
    | none => none
  | none => none

/-- Hand out a block that has left the free queue. -/
def claim (idx : ℕ) : BlockId × BlockPool :=
  let p := p.modifyBlock idx fun b => { b with refCount := 1, hash := none }
  ((p.block idx).id, { p with numActiveBlocks := p.numActiveBlocks + 1 })

/-- Uncached free blocks go first; cached ones are evicted from the tail of the queue. -/
def allocate : Option (BlockId × BlockPool) :=
  match p.popUncached.or p.evictLru with
  | some (idx, p) => some (p.claim idx)
  | none => none

/-- Drop one reference; a block that loses its last one keeps its hash and becomes free. -/
def free (blockId : BlockId) : BlockPool :=
  if (p.block blockId).isNull || (p.block blockId).refCount = 0 then p
  else
    let p := p.modifyBlock blockId fun b => { b with refCount := b.refCount - 1 }
    if (p.block blockId).refCount = 0 then
      let p := p.linkFront blockId
      { p with numActiveBlocks := p.numActiveBlocks - 1 }
    else p

def incref (blockId : BlockId) : BlockPool :=
  if !(p.block blockId).isNull && 0 < (p.block blockId).refCount then
    p.modifyBlock blockId fun b => { b with refCount := b.refCount + 1 }
  else p

def isShared (blockId : BlockId) : Bool :=
  if p.blocks.length ≤ blockId then false
  else !(p.block blockId).isNull && 1 < (p.block blockId).refCount

def copyOnWrite (blockId : BlockId) : Option (BlockId × BlockPool) :=
  if !p.isShared blockId then some (blockId, p)
  else
    match p.allocate with
    | some (newBlockId, p) => some (newBlockId, p.free blockId)
    | none => none

/-- The membership test of the free queue, read off the links. -/
def inQueue (idx : ℕ) : Bool :=
  (p.block idx).prevFree.isSome || (p.block idx).nextFree.isSome || p.freeQueue.head = some idx

def touch (blockId : BlockId) : BlockPool :=
  if (p.block blockId).refCount = 0 && !(p.block blockId).isNull &&
      (p.block blockId).hash.isSome then
    if p.inQueue blockId then (p.unlink blockId).linkFront blockId else p
  else p

def getCachedBlock (hash : BlockHash) : Option (BlockId × BlockPool) :=
  match (p.hashMap.lookup hash).bind List.head? with
  | some blockId =>
    let p := p.touch blockId
    let needsActivate := decide ((p.block blockId).refCount = 0)
    let p := if needsActivate && p.inQueue blockId then p.unlink blockId else p
    let p := if needsActivate then { p with numActiveBlocks := p.numActiveBlocks + 1 } else p
    some (blockId, p.modifyBlock blockId fun b => { b with refCount := b.refCount + 1 })
  | none => none

/-- Register an active block under a hash, keeping whatever it was registered under before. -/
def cacheBlock (blockId : BlockId) (hash : BlockHash) : BlockPool :=
  if (p.block blockId).refCount = 0 || (p.block blockId).isNull then p
  else
    let p := p.modifyBlock blockId fun b => { b with hash := some hash }
    { p with hashMap := p.hashMap.insert hash ((p.hashMap.lookup hash).getD [] ++ [blockId]) }

def clearHashes : BlockPool :=
  { p with blocks := p.blocks.map fun b => { b with hash := none }, hashMap := ∅ }

/-- Forget every hash, unless a cached block is still in use. -/
def resetPrefixCache : Except String BlockPool :=
  match p.blocks.find? fun b => b.hash.isSome && 0 < b.refCount with
  | some b =>
    let id := b.id
    .error s!"cannot reset prefix cache: block {id} is active with hash"
  | none => .ok p.clearHashes

end BlockPool

/-- The operations of the pool. -/
inductive PoolOp where
  | allocate
  | free (blockId : BlockId)
  | incref (blockId : BlockId)
  | copyOnWrite (blockId : BlockId)
  | touch (blockId : BlockId)
  | getCachedBlock (hash : BlockHash)
  | cacheBlock (blockId : BlockId) (hash : BlockHash)
  | resetPrefixCache

namespace PoolOp

/-- The block ids an operation is given exist in the pool. -/
def InRange (n : ℕ) : PoolOp → Prop
  | free b | incref b | copyOnWrite b | touch b | cacheBlock b _ => b < n
  | allocate | getCachedBlock _ | resetPrefixCache => True

/-- The pool after an operation; one that fails leaves the pool as it was. -/
def run (p : BlockPool) : PoolOp → BlockPool
  | allocate => (p.allocate.map Prod.snd).getD p
  | free b => p.free b
  | incref b => p.incref b
  | copyOnWrite b => ((p.copyOnWrite b).map Prod.snd).getD p
  | touch b => p.touch b
  | getCachedBlock h => ((p.getCachedBlock h).map Prod.snd).getD p
  | cacheBlock b h => p.cacheBlock b h
  | resetPrefixCache => p.resetPrefixCache.toOption.getD p

end PoolOp

/-- The pool of `n` blocks after a sequence of operations. -/
def BlockPool.runOps (n : ℕ) (ops : List PoolOp) : BlockPool := ops.foldl PoolOp.run (.new n)

end Rllm
