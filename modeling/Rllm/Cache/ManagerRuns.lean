import Rllm.Cache.Accounting
import Rllm.Cache.HashCoherence

/-! # Manager calls as runs of the pool

Every call of the manager is a sequence of operations of its pool, on blocks of
the block tables. So what holds in every run of the pool holds of the pool of
the manager, also when a call overwrites a table that holds blocks.
-/

namespace Rllm

open BlockPool

/-! ## Sequences of pool operations -/

section Pool

variable {n : ℕ} {p p' p'' : BlockPool} {l : List ℕ} {bs : List BlockId}

/-- Operations on blocks below `n` lead from one pool to the other. -/
def BlockPool.Reaches (n : ℕ) (p p' : BlockPool) : Prop :=
  ∃ ops : List PoolOp, (∀ op ∈ ops, op.InRange n) ∧ ops.foldl PoolOp.run p = p'

theorem BlockPool.Reaches.refl (n : ℕ) (p : BlockPool) : Reaches n p p :=
  ⟨[], fun _ hop => absurd hop List.not_mem_nil, rfl⟩

theorem BlockPool.Reaches.cons (op : PoolOp) (hop : op.InRange n)
    (h : Reaches n (op.run p) p') : Reaches n p p' := by
  obtain ⟨ops, hops, heq⟩ := h
  exact ⟨op :: ops, List.forall_mem_cons.mpr ⟨hop, hops⟩, heq⟩

theorem BlockPool.Reaches.single (op : PoolOp) (hop : op.InRange n) : Reaches n p (op.run p) :=
  .cons op hop (.refl n _)

theorem BlockPool.Reaches.trans (h : Reaches n p p') (h' : Reaches n p' p'') :
    Reaches n p p'' := by
  obtain ⟨ops, hops, rfl⟩ := h
  obtain ⟨ops', hops', rfl⟩ := h'
  refine ⟨ops ++ ops', fun op hop => ?_, List.foldl_append⟩
  exact (List.mem_append.mp hop).elim (hops op) (hops' op)

theorem BlockPool.Reaches.rep (h : Reaches n p p') (hrep : Rep n p l) : ∃ l', Rep n p' l' := by
  obtain ⟨ops, hops, rfl⟩ := h
  exact hrep.runAll hops

theorem reaches_freeAll (hbs : ∀ b ∈ bs, b < n) : Reaches n p (freeAll bs p) := by
  induction bs generalizing p with
  | nil => exact .refl n p
  | cons b bs ih =>
    obtain ⟨hb, hrest⟩ := List.forall_mem_cons.mp hbs
    exact .cons (.free b) hb (ih hrest)

theorem reaches_increfAll (hbs : ∀ b ∈ bs, b < n) : Reaches n p (bs.foldl incref p) := by
  induction bs generalizing p with
  | nil => exact .refl n p
  | cons b bs ih =>
    obtain ⟨hb, hrest⟩ := List.forall_mem_cons.mp hbs
    exact .cons (.incref b) hb (ih hrest)

theorem reaches_lookupBlocks {hs : List BlockHash} (hl : lookupBlocks hs p = (bs, p')) :
    Reaches n p p' := by
  induction hs generalizing p bs with
  | nil =>
    obtain ⟨-, rfl⟩ := Prod.mk.inj hl
    exact .refl n p
  | cons hash hs ih =>
    unfold lookupBlocks at hl
    split at hl
    · rename_i b q hb
      obtain ⟨-, rfl⟩ := Prod.mk.inj hl
      have hrun : (PoolOp.getCachedBlock hash).run p = q := by simp [PoolOp.run, hb]
      exact .cons (.getCachedBlock hash) trivial (hrun ▸ ih rfl)
    · obtain ⟨-, rfl⟩ := Prod.mk.inj hl
      exact .refl n p

theorem reaches_allocMany {k : ℕ} (ha : allocMany k p = (bs, p')) : Reaches n p p' := by
  induction k generalizing p bs with
  | zero =>
    obtain ⟨-, rfl⟩ := Prod.mk.inj ha
    exact .refl n p
  | succ k ih =>
    unfold allocMany at ha
    split at ha
    · rename_i b q hb
      obtain ⟨-, rfl⟩ := Prod.mk.inj ha
      have hrun : PoolOp.allocate.run p = q := by simp [PoolOp.run, hb]
      exact .cons .allocate trivial (hrun ▸ ih rfl)
    · obtain ⟨-, rfl⟩ := Prod.mk.inj ha
      exact .refl n p

end Pool

/-! ## Manager calls -/

namespace KVCacheManager

variable {n : ℕ} {H : HashFns} {cfg : CacheConfig} {m m' : KVCacheManager} {rid : RequestId}

/-- The pool is sound, and the tables list blocks of the pool. -/
structure Ranged (n : ℕ) (m : KVCacheManager) : Prop where
  rep : ∃ l, Rep n m.blockPool l
  table_lt : ∀ r, ∀ b ∈ m.table r, b < n

/-- A call that drives the pool and keeps the tables in range. -/
structure Drives (n : ℕ) (m m' : KVCacheManager) : Prop where
  reaches : Reaches n m.blockPool m'.blockPool
  table_lt : ∀ r, ∀ b ∈ m'.table r, b < n

theorem Drives.ranged (h : Drives n m m') (hm : Ranged n m) : Ranged n m' := by
  obtain ⟨l, hl⟩ := hm.rep
  exact ⟨h.reaches.rep hl, h.table_lt⟩

theorem Ranged.idle (h : Ranged n m) : Drives n m m := ⟨.refl n _, h.table_lt⟩

theorem Ranged.insert (h : Ranged n m) (rid : RequestId)
    (hr : Reaches n m.blockPool m'.blockPool) {bs : List BlockId}
    (ht : m'.requestBlocks = m.requestBlocks.insert rid bs) (hbs : ∀ b ∈ bs, b < n) :
    Drives n m m' := by
  refine ⟨hr, fun r b hb => ?_⟩
  rw [table, ht, table_insert] at hb
  split at hb
  · exact hbs b hb
  · exact h.table_lt r b hb

theorem Ranged.getComputedBlocks (h : Ranged n m) (rid : RequestId) (prompt : List Token)
    (skip : Bool) : Drives n m (m.getComputedBlocks H cfg rid prompt skip).2 := by
  unfold KVCacheManager.getComputedBlocks
  split
  · exact h.idle
  · dsimp only
    cases hl : lookupBlocks (computeBlockHashes H cfg.prefixHashAlgorithm prompt cfg.blockSize none)
        m.blockPool with
    | mk bs pool =>
      obtain ⟨l, hrep⟩ := h.rep
      obtain ⟨-, -, -, -, hf⟩ := hrep.lookupBlocks hl
      refine h.insert rid (reaches_lookupBlocks hl) rfl fun b hb => ?_
      obtain ⟨i, hi⟩ := List.getElem?_of_mem hb
      obtain ⟨hash, -, hhead⟩ := hf.head_eq i b hi
      exact (hrep.listed_lt hash b (List.mem_of_mem_head? hhead)).2

theorem Ranged.allocateSlots (h : Ranged n m) (rid : RequestId) (total computed : ℕ) :
    Drives n m (m.allocateSlots cfg rid total computed).2 := by
  unfold KVCacheManager.allocateSlots
  dsimp only
  split
  · exact h.idle
  · cases ha : allocMany (divCeil (total - computed) cfg.blockSize) m.blockPool with
    | mk bs pool =>
      obtain ⟨l, hrep⟩ := h.rep
      obtain ⟨-, hlt, -⟩ := hrep.allocMany_refs ha
      dsimp only
      split
      · exact ⟨(reaches_allocMany ha).trans (reaches_freeAll hlt), h.table_lt⟩
      · refine h.insert rid (reaches_allocMany ha) rfl fun b hb => ?_
        rcases List.mem_append.mp hb with hb | hb
        · exact h.table_lt rid b hb
        · exact hlt b hb

theorem Ranged.free (h : Ranged n m) (rid : RequestId) : Drives n m (m.free rid) := by
  constructor
  · unfold KVCacheManager.free
    cases hl : m.requestBlocks.lookup rid with
    | none => exact .refl n _
    | some bs =>
      have htab : m.table rid = bs := by simp [table, hl]
      exact reaches_freeAll fun b hb => h.table_lt rid b (htab ▸ hb)
  · intro r b hb
    have ht : (m.free rid).table r = if r = rid then [] else m.table r := table_erase m rid r
    rw [ht] at hb
    split at hb
    · cases hb
    · exact h.table_lt r b hb

theorem Ranged.forkBlocks (h : Ranged n m) (parent child : RequestId) :
    Drives n m ((m.forkBlocks parent child).toOption.getD m) := by
  unfold KVCacheManager.forkBlocks
  split
  · exact h.idle
  · rename_i bs hbs
    have htab : m.table parent = bs := by simp [table, hbs]
    have hlt : ∀ b ∈ bs, b < n := fun b hb => h.table_lt parent b (htab ▸ hb)
    exact h.insert child (reaches_increfAll hlt) rfl hlt

theorem reaches_registerAll {bt : List BlockId} (hbt : ∀ b ∈ bt, b < n) (rid : RequestId)
    (hs : List BlockHash) (is : List ℕ) :
    Reaches n m.blockPool (is.foldl (fun m i => m.registerBlock rid bt hs i) m).blockPool ∧
      (is.foldl (fun m i => m.registerBlock rid bt hs i) m).requestBlocks = m.requestBlocks := by
  induction is generalizing m with
  | nil => exact ⟨.refl n _, rfl⟩
  | cons i is ih =>
    have hstep : Reaches n m.blockPool (m.registerBlock rid bt hs i).blockPool ∧
        (m.registerBlock rid bt hs i).requestBlocks = m.requestBlocks := by
      unfold registerBlock
      split
      · rename_i b hash hb _
        exact ⟨.single (.cacheBlock b hash) (hbt b (List.mem_of_getElem? hb)), rfl⟩
      · exact ⟨.refl n _, rfl⟩
    obtain ⟨hr, ht⟩ := hstep
    obtain ⟨hr', ht'⟩ := ih (m := m.registerBlock rid bt hs i)
    exact ⟨hr.trans hr', ht'.trans ht⟩

theorem Ranged.cacheBlocks (h : Ranged n m) (rid : RequestId) (total : ℕ) :
    Drives n m (m.cacheBlocks cfg rid total) := by
  unfold KVCacheManager.cacheBlocks
  split
  · exact h.idle
  · dsimp only
    split
    · rename_i bt hs hbt _
      have htab : m.table rid = bt := by simp [table, hbt]
      have hlt : ∀ b ∈ bt, b < n := fun b hb => h.table_lt rid b (htab ▸ hb)
      obtain ⟨hr, ht⟩ := reaches_registerAll (m := m) hlt rid hs (List.range'
        ((m.requestComputedTokens.lookup rid).getD 0 / cfg.blockSize)
        (min (total / cfg.blockSize) hs.length -
          (m.requestComputedTokens.lookup rid).getD 0 / cfg.blockSize))
      refine ⟨hr, fun r b hb => h.table_lt r b ?_⟩
      rw [table] at hb ⊢
      exact ht ▸ hb
    · exact h.idle

theorem Ranged.resetPrefixCache (h : Ranged n m) :
    Drives n m (m.resetPrefixCache.toOption.getD m) := by
  unfold KVCacheManager.resetPrefixCache
  split
  · split
    · rename_i pool hp
      have hrun : PoolOp.resetPrefixCache.run m.blockPool = pool := by
        simp [PoolOp.run, hp, Except.toOption]
      exact ⟨hrun ▸ .single .resetPrefixCache trivial, h.table_lt⟩
    · exact h.idle
  · exact h.idle

theorem Ranged.run (h : Ranged n m) (op : ManagerOp) : Drives n m (op.run H cfg m) := by
  cases op with
  | getComputedBlocks rid prompt skip => exact h.getComputedBlocks rid prompt skip
  | allocateSlots rid total computed => exact h.allocateSlots rid total computed
  | cacheBlocks rid total => exact h.cacheBlocks rid total
  | forkBlocks parent child => exact h.forkBlocks parent child
  | free rid => exact h.free rid
  | resetPrefixCache => exact h.resetPrefixCache

theorem Ranged.new (hle : n ≤ 2 ^ 32) : Ranged (max n 1) (new n) :=
  ⟨exists_rep_new hle, fun _ _ hb => absurd hb List.not_mem_nil⟩

theorem Ranged.runAll (h : Ranged n m) (ops : List ManagerOp) :
    Drives n m (ops.foldl (ManagerOp.run H cfg) m) := by
  induction ops generalizing m with
  | nil => exact h.idle
  | cons op ops ih =>
    have hrun : Drives n m (op.run H cfg m) := h.run op
    have hrest := ih (hrun.ranged h)
    exact ⟨hrun.reaches.trans hrest.reaches, hrest.table_lt⟩

/-- The pool of a manager on at most `2 ^ 32` blocks comes from a run of the pool. -/
theorem runOps_pool (H : HashFns) (cfg : CacheConfig) (hle : n ≤ 2 ^ 32) (ops : List ManagerOp) :
    Ranged (max n 1) (runOps H cfg n ops) ∧
      ∃ pops : List PoolOp, (∀ op ∈ pops, op.InRange (max n 1)) ∧
        (runOps H cfg n ops).blockPool = BlockPool.runOps n pops := by
  have hdrives : Drives (max n 1) (new n) (runOps H cfg n ops) := (Ranged.new hle).runAll ops
  obtain ⟨pops, hpops, heq⟩ := hdrives.reaches
  exact ⟨hdrives.ranged (Ranged.new hle), pops, hpops, heq.symm⟩

end KVCacheManager

end Rllm
