import Rllm.Cache.ManagerInvariant

/-! # Sequences of manager calls

The references of a block are its occurrences in the block tables as long as
no call overwrites a table that still holds blocks: the prefix lookup and the
fork both insert a new table without releasing the old one.
-/

namespace Rllm

open BlockPool

/-- The calls that change the manager. -/
inductive ManagerOp where
  | getComputedBlocks (requestId : RequestId) (promptTokens : List Token) (skipPrefixCache : Bool)
  | allocateSlots (requestId : RequestId) (numTokens numComputed : ℕ)
  | cacheBlocks (requestId : RequestId) (numComputedTokens : ℕ)
  | forkBlocks (parentId childId : RequestId)
  | free (requestId : RequestId)
  | resetPrefixCache

namespace ManagerOp

variable (H : HashFns) (cfg : CacheConfig) (m : KVCacheManager)

/-- The manager after a call; one that fails with an error leaves the manager as it was. -/
def run : ManagerOp → KVCacheManager
  | getComputedBlocks rid prompt skip => (m.getComputedBlocks H cfg rid prompt skip).2
  | allocateSlots rid total computed => (m.allocateSlots cfg rid total computed).2
  | cacheBlocks rid total => m.cacheBlocks cfg rid total
  | forkBlocks parent child => (m.forkBlocks parent child).toOption.getD m
  | free rid => m.free rid
  | resetPrefixCache => m.resetPrefixCache.toOption.getD m

/-- The call overwrites no table that holds blocks. -/
def Keeps : ManagerOp → Prop
  | getComputedBlocks rid prompt skip =>
    cfg.enablePrefixCaching = true → skip = false → prompt ≠ [] → m.table rid = []
  | forkBlocks parent child => parent ∈ m.requestBlocks → m.table child = []
  | _ => True

instance (op : ManagerOp) : Decidable (op.Keeps cfg m) := by
  cases op <;> unfold Keeps <;> infer_instance

end ManagerOp

/-- None of the calls, each made where the ones before it lead, overwrites a table that holds
blocks. -/
def KeepsAlong (H : HashFns) (cfg : CacheConfig) (m : KVCacheManager) : List ManagerOp → Prop
  | [] => True
  | op :: ops => op.Keeps cfg m ∧ KeepsAlong H cfg (op.run H cfg m) ops

/-- The manager on `n` blocks after a sequence of calls. -/
def KVCacheManager.runOps (H : HashFns) (cfg : CacheConfig) (n : ℕ) (ops : List ManagerOp) :
    KVCacheManager :=
  ops.foldl (ManagerOp.run H cfg) (.new n)

section Pool

variable {n : ℕ} {p p' : BlockPool} {l : List ℕ} {b : BlockId} {bs : List BlockId}

theorem BlockPool.Rep.allocMany_refs (h : Rep n p l) {k : ℕ} (ha : allocMany k p = (bs, p')) :
    (∀ i, p'.refs i = p.refs i + bs.count i) ∧ (∀ b ∈ bs, b < n) ∧ ∃ l', Rep n p' l' := by
  induction k generalizing p bs l with
  | zero =>
    obtain ⟨rfl, rfl⟩ := Prod.mk.inj ha
    exact ⟨by simp, by simp, l, h⟩
  | succ k ih =>
    unfold allocMany at ha
    split at ha
    · rename_i b q hb
      obtain ⟨hm, hal, hrep⟩ := h.allocate_some hb
      obtain ⟨hbn, -, hb0⟩ := h.mem_free hm
      cases hq : allocMany k q with
      | mk cs q' =>
        rw [hq] at ha
        obtain ⟨rfl, rfl⟩ := Prod.mk.inj ha
        obtain ⟨hr, hlt, hrep'⟩ := ih hrep hq
        refine ⟨fun i => ?_, ?_, hrep'⟩
        · rw [hr, hal.refs_eq, List.count_cons]
          by_cases hi : i = b
          · subst hi
            simp [hb0]
            omega
          · simp [hi, Ne.symm hi]
        · rintro c hc
          rcases List.mem_cons.mp hc with rfl | hc
          · exact hbn
          · exact hlt c hc
    · obtain ⟨rfl, rfl⟩ := Prod.mk.inj ha
      exact ⟨by simp, by simp, l, h⟩

theorem refs_incref (hlt : b < p.blocks.length) (hnull : (p.block b).isNull = false)
    (hpos : 0 < p.refs b) (i : ℕ) :
    (p.incref b).refs i = p.refs i + [b].count i := by
  have hc : (!(p.block b).isNull && decide (0 < (p.block b).refCount)) = true := by
    rw [hnull]
    exact decide_eq_true hpos
  unfold incref
  rw [if_pos hc, refs_modifyBlock _ _ hlt, List.count_singleton]
  by_cases hi : b = i
  · subst hi
    simp [refs]
  · simp [hi, refs]

theorem BlockPool.Rep.increfAll (h : Rep n p l) (hbs : ∀ b ∈ bs, 0 < b ∧ b < n ∧ 0 < p.refs b) :
    (∀ i, (bs.foldl incref p).refs i = p.refs i + bs.count i) ∧ Rep n (bs.foldl incref p) l := by
  induction bs generalizing p with
  | nil => exact ⟨by simp, h⟩
  | cons b bs ih =>
    obtain ⟨hb0, hbn, hpos⟩ := hbs b (by simp)
    have hnull : (p.block b).isNull = false := by simp [h.isNull_eq hbn, hb0.ne']
    have hr := refs_incref (h.lt_length hbn) hnull hpos
    obtain ⟨hr', hrep⟩ := ih (h.incref_rep hbn) fun c hc => by
      obtain ⟨hc0, hcn, hcpos⟩ := hbs c (List.mem_cons_of_mem _ hc)
      rw [hr]
      exact ⟨hc0, hcn, by omega⟩
    refine ⟨fun i => ?_, hrep⟩
    rw [List.foldl_cons, hr', hr, List.count_singleton, List.count_cons]
    omega

end Pool

namespace KVCacheManager

variable {n : ℕ} {H : HashFns} {cfg : CacheConfig} {m m' : KVCacheManager} {rid : RequestId}

theorem Counted.new (hle : n ≤ 2 ^ 32) : Counted (max n 1) (new n) := by
  constructor
  · exact BlockPool.exists_rep_new hle
  · intro b
    exact (BlockPool.refs_new b).trans rfl

theorem Counted.exchange (h : Counted n m) (rid : RequestId) (hrep : ∃ l, Rep n m'.blockPool l)
    (ht : ∀ r ≠ rid, m'.table r = m.table r)
    (hr : ∀ b, m'.blockPool.refs b + (m.table rid).count b =
      m.blockPool.refs b + (m'.table rid).count b) : Counted n m' := by
  refine ⟨hrep, fun b => ?_⟩
  have hu := occ_update ht b
  have hb := hr b
  rw [h.refs_eq] at hb
  omega

theorem Counted.overwrite (h : Counted n m) {bs : List BlockId}
    (hrep : ∃ l, Rep n m'.blockPool l) (ht : m'.requestBlocks = m.requestBlocks.insert rid bs)
    (hr : ∀ b, m'.blockPool.refs b = m.blockPool.refs b + bs.count b) :
    (∀ b, m'.blockPool.refs b = m'.occ b) ↔ m.table rid = [] := by
  have htab : ∀ r, m'.table r = if r = rid then bs else m.table r := by
    intro r
    rw [table, ht]
    exact table_insert m rid r bs
  have hne : ∀ r ≠ rid, m'.table r = m.table r := fun r hr => (htab r).trans (if_neg hr)
  have hrid : m'.table rid = bs := (htab rid).trans (if_pos rfl)
  constructor
  · intro h'
    refine List.eq_nil_iff_forall_not_mem.mpr fun b hb => ?_
    have hu := occ_update hne b
    have hb' := hr b
    rw [h', h.refs_eq] at hb'
    have hpos : 0 < (m.table rid).count b := List.count_pos_iff.mpr hb
    rw [hrid] at hu
    omega
  · intro he
    refine (h.exchange rid hrep hne fun b => ?_).refs_eq
    rw [he, hr, hrid]
    simp

theorem Counted.free (h : Counted n m) (rid : RequestId) : Counted n (m.free rid) := by
  have ht : ∀ r, (m.free rid).table r = if r = rid then [] else m.table r := table_erase m rid
  have hpool : (m.free rid).blockPool = freeAll (m.table rid) m.blockPool := by
    simp only [KVCacheManager.free, table]
    cases m.requestBlocks.lookup rid <;> rfl
  obtain ⟨l, hl⟩ := h.rep
  have hlt : ∀ b ∈ m.table rid, b < n := fun b hb => (h.mem_table hb).2.1
  obtain ⟨hr, -, -, hrep⟩ := hl.freeAll hlt
  apply h.exchange rid
  · rwa [hpool]
  · rintro r hne
    rw [ht, if_neg hne]
  · intro b
    have hle := h.count_le rid b
    rw [hpool, hr, ht, if_pos rfl, List.count_nil]
    omega

theorem Counted.allocateSlots (h : Counted n m) (rid : RequestId) (total computed : ℕ) :
    Counted n (m.allocateSlots cfg rid total computed).2 := by
  obtain ⟨l, hl⟩ := h.rep
  unfold KVCacheManager.allocateSlots
  dsimp only
  split
  · exact h
  · cases ha : allocMany (divCeil (total - computed) cfg.blockSize) m.blockPool with
    | mk bs pool =>
      obtain ⟨hr, hlt, l', hl'⟩ := hl.allocMany_refs ha
      dsimp only
      split
      · obtain ⟨hr', -, -, hrep⟩ := hl'.freeAll hlt
        apply h.exchange rid hrep
        · exact fun _ _ => rfl
        · intro b
          have hb := hr' b
          rw [hr] at hb
          change (freeAll bs pool).refs b + (m.table rid).count b =
            m.blockPool.refs b + (m.table rid).count b
          omega
      · have ht : ∀ r, ((m.requestBlocks.insert rid (m.table rid ++ bs)).lookup r).getD [] =
            if r = rid then m.table rid ++ bs else m.table r :=
          fun r => table_insert m rid r _
        apply h.exchange rid ⟨l', hl'⟩
        · rintro r hne
          exact (ht r).trans (if_neg hne)
        · intro b
          have htab := (ht rid).trans (if_pos rfl)
          change pool.refs b + (m.table rid).count b = m.blockPool.refs b +
            (((m.requestBlocks.insert rid (m.table rid ++ bs)).lookup rid).getD []).count b
          rw [hr, htab, List.count_append]
          omega

theorem registerAll_refs {l : List ℕ} {bt : List BlockId} (hl : Rep n m.blockPool l)
    (hbt : ∀ b ∈ bt, b < n) (rid : RequestId) (hs : List BlockHash) (is : List ℕ) :
    (is.foldl (fun m i => m.registerBlock rid bt hs i) m).blockPool.refs = m.blockPool.refs ∧
      (is.foldl (fun m i => m.registerBlock rid bt hs i) m).requestBlocks = m.requestBlocks ∧
      Rep n (is.foldl (fun m i => m.registerBlock rid bt hs i) m).blockPool l := by
  induction is generalizing m with
  | nil => exact ⟨rfl, rfl, hl⟩
  | cons i is ih =>
    have hstep : (m.registerBlock rid bt hs i).blockPool.refs = m.blockPool.refs ∧
        (m.registerBlock rid bt hs i).requestBlocks = m.requestBlocks ∧
        Rep n (m.registerBlock rid bt hs i).blockPool l := by
      unfold registerBlock
      split
      · rename_i b hash hb _
        dsimp only
        rcases Nat.eq_zero_or_pos (m.blockPool.refs b) with hz | hpos
        · rw [cacheBlock_free hash hz]
          exact ⟨rfl, rfl, hl⟩
        · obtain ⟨hr, -, -, hrep⟩ := hl.cacheBlock_spec (hbt b (List.mem_of_getElem? hb)) hash hpos
          exact ⟨hr, rfl, hrep⟩
      · exact ⟨rfl, rfl, hl⟩
    obtain ⟨hr, ht, hrep⟩ := hstep
    obtain ⟨hr', ht', hrep'⟩ := ih hrep
    exact ⟨hr'.trans hr, ht'.trans ht, hrep'⟩

theorem Counted.cacheBlocks (h : Counted n m) (rid : RequestId) (total : ℕ) :
    Counted n (m.cacheBlocks cfg rid total) := by
  obtain ⟨l, hl⟩ := h.rep
  unfold KVCacheManager.cacheBlocks
  split
  · exact h
  · dsimp only
    split
    · rename_i bt hs hbt _
      have htab : m.table rid = bt := by simp [table, hbt]
      have hlt : ∀ b ∈ bt, b < n := fun b hb => (h.mem_table (htab ▸ hb)).2.1
      obtain ⟨hr, ht, hrep⟩ := registerAll_refs hl hlt rid hs (List.range'
        ((m.requestComputedTokens.lookup rid).getD 0 / cfg.blockSize)
        (min (total / cfg.blockSize) hs.length -
          (m.requestComputedTokens.lookup rid).getD 0 / cfg.blockSize))
      refine ⟨⟨l, hrep⟩, fun b => ?_⟩
      have ho : KVCacheManager.occ _ b = m.occ b := occ_congr (fun r => congrArg
        (fun t : AList fun _ : RequestId => List BlockId => (t.lookup r).getD []) ht) b
      exact (congrFun hr b).trans ((h.refs_eq b).trans ho.symm)
    · exact h

theorem Counted.resetPrefixCache (h : Counted n m) :
    Counted n (m.resetPrefixCache.toOption.getD m) := by
  unfold KVCacheManager.resetPrefixCache
  split
  · split
    · rename_i pool hp
      obtain ⟨l, hl⟩ := h.rep
      have hpool := resetPrefixCache_ok hp
      refine ⟨⟨l, hpool ▸ hl.clearHashes⟩, fun b => ?_⟩
      have hr : pool.refs = m.blockPool.refs := by
        rw [hpool]
        exact refs_clearHashes
      exact (congrFun hr b).trans (h.refs_eq b)
    · exact h
  · exact h

theorem Counted.getComputedBlocks_iff (h : Counted n m) (rid : RequestId) (prompt : List Token)
    (skip : Bool) :
    (∃ l, Rep n (m.getComputedBlocks H cfg rid prompt skip).2.blockPool l) ∧
    ((∀ b, (m.getComputedBlocks H cfg rid prompt skip).2.blockPool.refs b =
      (m.getComputedBlocks H cfg rid prompt skip).2.occ b) ↔
      (ManagerOp.getComputedBlocks rid prompt skip).Keeps cfg m) := by
  obtain ⟨l, hl⟩ := h.rep
  obtain ⟨m', hm'⟩ : ∃ m', m' = (m.getComputedBlocks H cfg rid prompt skip).2 := ⟨_, rfl⟩
  rw [← hm']
  unfold KVCacheManager.getComputedBlocks at hm'
  unfold ManagerOp.Keeps
  split at hm'
  · rename_i hc
    subst hm'
    refine ⟨⟨l, hl⟩, iff_of_true h.refs_eq fun he hs hp => ?_⟩
    simp [he, hs, hp] at hc
  · rename_i hc
    simp only [Bool.or_eq_true, Bool.not_eq_true', not_or, Bool.not_eq_false, Bool.not_eq_true,
      List.isEmpty_eq_false_iff] at hc
    cases hb : lookupBlocks (computeBlockHashes H cfg.prefixHashAlgorithm prompt cfg.blockSize none)
        m.blockPool with
    | mk bs pool =>
      simp only [hb] at hm'
      obtain ⟨hr, -, -, hrep, -⟩ := hl.lookupBlocks hb
      have hpool : m'.blockPool = pool := by rw [hm']
      have ht : m'.requestBlocks = m.requestBlocks.insert rid bs := by rw [hm']
      rw [← hpool] at hr hrep
      refine ⟨⟨_, hrep⟩, (h.overwrite ⟨_, hrep⟩ ht hr).trans ?_⟩
      exact ⟨fun he _ _ _ => he, fun hk => hk hc.1.1 hc.1.2 hc.2⟩

theorem Counted.forkBlocks_iff (h : Counted n m) (parent child : RequestId) :
    (∃ l, Rep n ((m.forkBlocks parent child).toOption.getD m).blockPool l) ∧
    ((∀ b, ((m.forkBlocks parent child).toOption.getD m).blockPool.refs b =
      ((m.forkBlocks parent child).toOption.getD m).occ b) ↔
      (ManagerOp.forkBlocks parent child).Keeps cfg m) := by
  obtain ⟨l, hl⟩ := h.rep
  unfold KVCacheManager.forkBlocks ManagerOp.Keeps
  split
  · rename_i hnone
    refine ⟨⟨l, hl⟩, iff_of_true h.refs_eq fun hmem => ?_⟩
    rw [AList.lookup_eq_none] at hnone
    exact absurd hmem hnone
  · rename_i bs hbs
    have htab : m.table parent = bs := by simp [table, hbs]
    have hactive : ∀ b ∈ bs, 0 < b ∧ b < n ∧ 0 < m.blockPool.refs b := by
      rintro b hb
      rw [← htab] at hb
      exact h.mem_table hb
    obtain ⟨hr, hrep⟩ := hl.increfAll hactive
    have hmem : parent ∈ m.requestBlocks := AList.lookup_isSome.mp (by simp [hbs])
    refine ⟨⟨l, hrep⟩, (h.overwrite ⟨l, hrep⟩ rfl hr).trans ?_⟩
    exact ⟨fun he _ => he, fun hk => hk hmem⟩

/-- A call keeps the accounts exactly if it overwrites no blocks. -/
theorem Counted.run_iff (h : Counted n m) (H : HashFns) (cfg : CacheConfig) (op : ManagerOp) :
    (∃ l, Rep n (op.run H cfg m).blockPool l) ∧
      ((∀ b, (op.run H cfg m).blockPool.refs b = (op.run H cfg m).occ b) ↔ op.Keeps cfg m) := by
  have hother : ∀ m', Counted n m' → (∃ l, Rep n m'.blockPool l) ∧
      ((∀ b, m'.blockPool.refs b = m'.occ b) ↔ True) :=
    fun m' h' => ⟨h'.rep, iff_of_true h'.refs_eq trivial⟩
  cases op with
  | getComputedBlocks rid prompt skip => exact h.getComputedBlocks_iff rid prompt skip
  | forkBlocks parent child => exact h.forkBlocks_iff parent child
  | allocateSlots rid total computed => exact hother _ (h.allocateSlots rid total computed)
  | cacheBlocks rid total => exact hother _ (h.cacheBlocks rid total)
  | free rid => exact hother _ (h.free rid)
  | resetPrefixCache => exact hother _ h.resetPrefixCache

/-! ## Whole sequences -/

/-- References are occurrences, and releasing every request leaves no active block. -/
structure Accounts (m : KVCacheManager) : Prop where
  references : ∀ b, m.blockPool.refs b = m.occ b
  released : ∀ rids : List RequestId, (∀ rid ∈ m.requestBlocks, rid ∈ rids) →
    (rids.foldl free m).blockPool.numActive = 0

theorem Counted.freeMany (h : Counted n m) (rids : List RequestId) :
    Counted n (rids.foldl KVCacheManager.free m) ∧
      ∀ rid ∈ (rids.foldl KVCacheManager.free m).requestBlocks,
        rid ∈ m.requestBlocks ∧ rid ∉ rids := by
  induction rids generalizing m with
  | nil => exact ⟨h, fun rid hm => ⟨hm, List.not_mem_nil⟩⟩
  | cons r rids ih =>
    obtain ⟨hc, hkeys⟩ := ih (h.free r)
    refine ⟨hc, fun rid hm => ?_⟩
    obtain ⟨hin, hnot⟩ := hkeys rid hm
    obtain ⟨hne, hin⟩ := AList.mem_erase.mp hin
    exact ⟨hin, by simp [hne, hnot]⟩

theorem Counted.accounts (h : Counted n m) : Accounts m := by
  refine ⟨h.refs_eq, fun rids hall => ?_⟩
  obtain ⟨hc, hkeys⟩ := h.freeMany rids
  obtain ⟨l, hl⟩ := hc.rep
  have hempty : ∀ rid ∉ (∅ : Finset RequestId),
      (rids.foldl KVCacheManager.free m).table rid = [] := by
    rintro rid -
    apply table_of_not_mem
    intro hm
    obtain ⟨hin, hnot⟩ := hkeys rid hm
    exact hnot (hall rid hin)
  have hz : ∀ b, (rids.foldl KVCacheManager.free m).blockPool.refs b = 0 := by
    intro b
    rw [hc.refs_eq, occ_eq_sum hempty, Finset.sum_empty]
  rw [hl.numActive_eq, List.countP_eq_zero]
  rintro c hcm
  obtain ⟨i, hi⟩ := List.getElem?_of_mem hcm
  have hci := hz i
  simp only [BlockPool.refs, BlockPool.block, blockAt, List.getD_eq_getElem?_getD, hi,
    Option.getD_some] at hci
  simp [hci]

theorem Counted.runAll_iff (h : Counted n m) (ops : List ManagerOp) :
    (∀ ops', ops' <+: ops → Accounts (ops'.foldl (ManagerOp.run H cfg) m)) ↔
      KeepsAlong H cfg m ops := by
  induction ops generalizing m with
  | nil =>
    refine iff_of_true (fun ops' hpre => ?_) trivial
    rw [List.prefix_nil.mp hpre]
    exact h.accounts
  | cons op ops ih =>
    obtain ⟨hrep, hrun⟩ := h.run_iff H cfg op
    constructor
    · intro hall
      have hc : Accounts (op.run H cfg m) := hall [op] (List.prefix_append [op] ops)
      refine ⟨hrun.mp hc.references, (ih ⟨hrep, hc.references⟩).mp fun ops' hpre => ?_⟩
      exact hall (op :: ops') ((List.prefix_cons_inj op).mpr hpre)
    · rintro ⟨hk, halong⟩ ops' hpre
      cases ops' with
      | nil => exact h.accounts
      | cons op' ops' =>
        obtain ⟨rfl, hpre'⟩ := List.cons_prefix_cons.mp hpre
        exact (ih ⟨hrep, hrun.mpr hk⟩).mpr halong ops' hpre'

/-- On at most `2 ^ 32` blocks the accounts stay in order along a sequence of calls exactly if none
of them overwrites a table that holds blocks. -/
theorem runOps_accounts (H : HashFns) (cfg : CacheConfig) (n : ℕ) (hle : n ≤ 2 ^ 32)
    (ops : List ManagerOp) :
    (∀ ops', ops' <+: ops → Accounts (runOps H cfg n ops')) ↔ KeepsAlong H cfg (new n) ops :=
  (Counted.new hle).runAll_iff ops

/-- Blocks of one token, with prefix caching. -/
def smallCache : CacheConfig where
  blockSize := 1
  blockSize_pos := Nat.one_pos
  enablePrefixCaching := true
  prefixHashAlgorithm := .xxHash

/-- A prompt is computed, found again by a second request and shared with a third. -/
theorem runOps_accounts_shared : Accounts (runOps smallHash smallCache 4
    [.getComputedBlocks 1 [5, 6] false, .allocateSlots 1 2 0, .cacheBlocks 1 2,
      .getComputedBlocks 2 [5, 6] false, .forkBlocks 2 3, .free 1, .free 2, .free 3]) := by
  refine (runOps_accounts smallHash smallCache 4 (by decide) [.getComputedBlocks 1 [5, 6] false,
    .allocateSlots 1 2 0, .cacheBlocks 1 2, .getComputedBlocks 2 [5, 6] false, .forkBlocks 2 3,
    .free 1, .free 2, .free 3]).mpr
    ⟨?_, trivial, trivial, ?_, ?_, trivial, trivial, trivial, trivial⟩ _ List.prefix_rfl
  all_goals decide +kernel

/-- A second lookup for the same request drops the references that the first one took. -/
theorem not_runOps_accounts : ¬ ∀ (H : HashFns) (cfg : CacheConfig) (n : ℕ), n ≤ 2 ^ 32 →
    ∀ ops : List ManagerOp, Accounts (runOps H cfg n ops) := by
  intro h
  have ha := (h smallHash smallCache 2 (by decide) [.getComputedBlocks 1 [5] false,
    .allocateSlots 1 1 0, .cacheBlocks 1 1, .getComputedBlocks 1 [5] false]).references 1
  revert ha
  decide +kernel

end KVCacheManager

end Rllm
