import Mathlib.Algebra.Order.BigOperators.Group.Finset
import Rllm.Cache.Manager
import Rllm.Cache.PoolRuns

/-! # Reference accounting of the cache manager

The reference count of a block is the number of its occurrences in the block
tables, and a block is listed only under the hash it carries. Every operation
of the manager is specified by its effect on the tables.
-/

namespace Rllm

open BlockPool

/-- A pool of `n` blocks in which a block is listed only under the hash it carries. -/
structure PoolOk (n : ℕ) (p : BlockPool) : Prop where
  rep : ∃ l, Rep n p l
  listed_hash : ∀ h, ∀ b ∈ p.listed h, p.hashOf b = some h

/-- `p'` comes from `p` by handing out the blocks `bs`. -/
structure HandedOut (n : ℕ) (p : BlockPool) (bs : List BlockId) (p' : BlockPool) : Prop where
  nodup : bs.Nodup
  free : ∀ b ∈ bs, 0 < b ∧ b < n ∧ p.refs b = 0
  refs_eq : ∀ i, p'.refs i = if i ∈ bs then 1 else p.refs i
  hashOf_eq : ∀ i, p'.hashOf i = if i ∈ bs then none else p.hashOf i
  listed_eq : ∀ h, p'.listed h = (p.listed h).filter (· ∉ bs)
  numFree_eq : p'.numFree + bs.length = p.numFree

section Pool

variable {n : ℕ} {p p' : BlockPool} {b : BlockId} {bs : List BlockId}

theorem BlockPool.Rep.numFree_eq {l : List ℕ} (h : Rep n p l) : p.numFree = l.length :=
  h.queue.len_eq

theorem PoolOk.allocate (h : PoolOk n p) (ha : p.allocate = some (b, p')) :
    HandedOut n p [b] p' ∧ PoolOk n p' := by
  obtain ⟨l, hl⟩ := h.rep
  obtain ⟨hm, hal, hr⟩ := hl.allocate_some ha
  obtain ⟨hbn, hb0, hb⟩ := hl.mem_free hm
  have hlisted : ∀ hash, p'.listed hash = (p.listed hash).filter (· ∉ [b]) := by
    intro hash
    rw [hal.listed_eq]
    simp only [List.mem_singleton]
    split
    · rfl
    · rename_i hne
      refine (List.filter_eq_self.mpr fun c hc => ?_).symm
      have hcb : c ≠ b := fun hcb => hne (hcb ▸ h.listed_hash hash c hc)
      simpa using hcb
  refine ⟨⟨List.nodup_singleton b, ?_, ?_, ?_, hlisted, ?_⟩, ⟨⟨_, hr⟩, ?_⟩⟩
  · intro c hc
    rw [List.mem_singleton.mp hc]
    exact ⟨Nat.pos_of_ne_zero hb0, hbn, hb⟩
  · simpa using hal.refs_eq
  · simpa using hal.hashOf_eq
  · have hp := List.length_pos_of_mem hm
    rw [hr.numFree_eq, hl.numFree_eq, List.length_erase_of_mem hm, List.length_singleton]
    omega
  · intro hash c hc
    rw [hlisted, List.mem_filter] at hc
    have hcb : c ≠ b := by simpa using hc.2
    rw [hal.hashOf_eq, if_neg hcb]
    exact h.listed_hash hash c hc.1

theorem HandedOut.nil (p : BlockPool) : HandedOut n p [] p := by
  refine ⟨List.nodup_nil, ?_, ?_, ?_, ?_, ?_⟩ <;> simp

theorem HandedOut.cons {q : BlockPool} (h : HandedOut n p [b] q) (h' : HandedOut n q bs p') :
    HandedOut n p (b :: bs) p' := by
  have hb : b ∉ bs := by
    intro hm
    have hr := (h'.free b hm).2.2
    rw [h.refs_eq, if_pos (by simp)] at hr
    omega
  refine ⟨List.nodup_cons.mpr ⟨hb, h'.nodup⟩, ?_, ?_, ?_, ?_, ?_⟩
  · intro c hc
    rcases List.mem_cons.mp hc with rfl | hc
    · exact h.free c (by simp)
    · obtain ⟨h0, hn, hr⟩ := h'.free c hc
      rw [h.refs_eq, if_neg (by simpa using fun hcb : c = b => hb (hcb ▸ hc))] at hr
      exact ⟨h0, hn, hr⟩
  · intro i
    rw [h'.refs_eq, h.refs_eq]
    by_cases hi : i ∈ bs <;> by_cases hib : i = b <;> simp [hi, hib]
  · intro i
    rw [h'.hashOf_eq, h.hashOf_eq]
    by_cases hi : i ∈ bs <;> by_cases hib : i = b <;> simp [hi, hib]
  · intro hash
    rw [h'.listed_eq, h.listed_eq, List.filter_filter]
    refine List.filter_congr fun c _ => ?_
    simp [Bool.and_comm]
  · have h₁ := h.numFree_eq
    have h₂ := h'.numFree_eq
    simp only [List.length_cons, List.length_nil] at h₁ ⊢
    omega

theorem PoolOk.allocate_none (h : PoolOk n p) (ha : p.allocate = none) : p.numFree = 0 := by
  obtain ⟨l, hl⟩ := h.rep
  rw [hl.numFree_eq, hl.allocate_none ha]
  rfl

theorem PoolOk.allocMany (h : PoolOk n p) {k : ℕ} (ha : allocMany k p = (bs, p')) :
    HandedOut n p bs p' ∧ PoolOk n p' ∧ bs.length = min k p.numFree := by
  induction k generalizing p bs with
  | zero =>
    obtain ⟨rfl, rfl⟩ := Prod.mk.inj ha
    exact ⟨.nil p, h, by simp⟩
  | succ k ih =>
    unfold Rllm.allocMany at ha
    split at ha
    · rename_i b q hb
      obtain ⟨hq, hok⟩ := h.allocate hb
      cases hr : Rllm.allocMany k q with
      | mk cs q' =>
        rw [hr] at ha
        obtain ⟨rfl, rfl⟩ := Prod.mk.inj ha
        obtain ⟨hcs, hok', hlen⟩ := ih hok hr
        have hf := hq.numFree_eq
        refine ⟨hq.cons hcs, hok', ?_⟩
        simp only [List.length_cons, List.length_nil] at hf ⊢
        omega
    · rename_i hb
      obtain ⟨rfl, rfl⟩ := Prod.mk.inj ha
      exact ⟨.nil p, h, by simp [h.allocate_none hb]⟩

theorem BlockPool.Rep.freeAll {l : List ℕ} (h : Rep n p l) (hbs : ∀ b ∈ bs, b < n) :
    (∀ i, (freeAll bs p).refs i = p.refs i - bs.count i) ∧ (freeAll bs p).hashOf = p.hashOf ∧
      (freeAll bs p).listed = p.listed ∧ ∃ l', Rep n (freeAll bs p) l' := by
  induction bs generalizing p l with
  | nil => exact ⟨by simp [Rllm.freeAll], rfl, rfl, l, h⟩
  | cons b bs ih =>
    obtain ⟨hr, hh, hls, hrep⟩ := h.free_spec (hbs b (by simp))
    obtain ⟨hr', hh', hls', hrep'⟩ := ih hrep fun c hc => hbs c (List.mem_cons_of_mem _ hc)
    refine ⟨fun i => (hr' i).trans ?_, hh'.trans hh, hls'.trans hls, hrep'⟩
    rw [hr, List.count_cons]
    by_cases hi : i = b
    · subst hi; simp; omega
    · simp [hi, Ne.symm hi]

theorem PoolOk.freeAll (h : PoolOk n p) (hbs : ∀ b ∈ bs, b < n) :
    (∀ i, (freeAll bs p).refs i = p.refs i - bs.count i) ∧ (freeAll bs p).hashOf = p.hashOf ∧
      (freeAll bs p).listed = p.listed ∧ PoolOk n (freeAll bs p) := by
  obtain ⟨l, hl⟩ := h.rep
  obtain ⟨hr, hh, hls, hrep⟩ := hl.freeAll hbs
  refine ⟨hr, hh, hls, hrep, ?_⟩
  rw [hh, hls]
  exact h.listed_hash

/-- The cached blocks found for a list of hashes, one for each hash up to the first miss. -/
structure Found (p : BlockPool) (hs : List BlockHash) (bs : List BlockId) : Prop where
  length_le : bs.length ≤ hs.length
  head_eq : ∀ (i : ℕ) (b : BlockId), bs[i]? = some b →
    ∃ h, hs[i]? = some h ∧ (p.listed h).head? = some b
  miss : ∀ h, hs[bs.length]? = some h → p.listed h = []

theorem erase_filter {l : List ℕ} (hl : l.Nodup) (b : ℕ) (bs : List ℕ) :
    (l.erase b).filter (· ∉ bs) = l.filter (· ∉ b :: bs) := by
  rw [hl.erase_eq_filter, List.filter_filter]
  refine List.filter_congr fun i _ => ?_
  simp [Bool.and_comm, bne, beq_eq_decide]

theorem BlockPool.Rep.lookupBlocks {l : List ℕ} (h : Rep n p l) {hs : List BlockHash}
    (hl : lookupBlocks hs p = (bs, p')) :
    (∀ i, p'.refs i = p.refs i + bs.count i) ∧ p'.hashOf = p.hashOf ∧ p'.listed = p.listed ∧
      Rep n p' (l.filter (· ∉ bs)) ∧ Found p hs bs := by
  induction hs generalizing p bs l with
  | nil =>
    obtain ⟨rfl, rfl⟩ := Prod.mk.inj hl
    exact ⟨by simp, rfl, rfl, by simpa using h, ⟨by simp, by simp, by simp⟩⟩
  | cons hash hs ih =>
    unfold Rllm.lookupBlocks at hl
    split at hl
    · rename_i b q hb
      obtain ⟨hhead, hr, hh, hls, hrep⟩ := h.getCachedBlock_some hb
      cases hq : Rllm.lookupBlocks hs q with
      | mk cs q' =>
        rw [hq] at hl
        obtain ⟨rfl, rfl⟩ := Prod.mk.inj hl
        obtain ⟨hr', hh', hls', hok, hf⟩ := ih hrep hq
        rw [erase_filter h.queue.linked.nodup] at hok
        refine ⟨fun i => ?_, hh'.trans hh, hls'.trans hls, hok, ⟨?_, ?_, ?_⟩⟩
        · rw [hr', hr, List.count_cons]
          by_cases hi : i = b
          · subst hi; simp; omega
          · simp [hi, Ne.symm hi]
        · simpa using hf.length_le
        · intro i c hi
          cases i with
          | zero =>
            obtain rfl : b = c := by simpa using hi
            exact ⟨hash, rfl, hhead⟩
          | succ i =>
            obtain ⟨h', hh', hc⟩ := hf.head_eq i c (by simpa using hi)
            exact ⟨h', by simpa using hh', hls ▸ hc⟩
        · intro h' hi
          rw [← hls]
          exact hf.miss h' (by simpa using hi)
    · rename_i hb
      obtain ⟨rfl, rfl⟩ := Prod.mk.inj hl
      refine ⟨by simp, rfl, rfl, by simpa using h, ⟨by simp, by simp, ?_⟩⟩
      intro h' hi
      obtain rfl : hash = h' := by simpa using hi
      exact getCachedBlock_none hb

theorem PoolOk.lookupBlocks (h : PoolOk n p) {hs : List BlockHash}
    (hl : lookupBlocks hs p = (bs, p')) :
    (∀ i, p'.refs i = p.refs i + bs.count i) ∧ p'.hashOf = p.hashOf ∧ p'.listed = p.listed ∧
      PoolOk n p' ∧ Found p hs bs := by
  obtain ⟨l, hrep⟩ := h.rep
  obtain ⟨hr, hh, hls, hrep', hf⟩ := hrep.lookupBlocks hl
  refine ⟨hr, hh, hls, ⟨⟨_, hrep'⟩, ?_⟩, hf⟩
  rw [hh, hls]
  exact h.listed_hash

theorem PoolOk.nodup_found (h : PoolOk n p) {hs : List BlockHash} (hf : Found p hs bs)
    (hn : hs.Nodup) : bs.Nodup := by
  refine List.nodup_iff_getElem?_ne_getElem?.mpr fun i j hij hj he => ?_
  have hjs : bs[j]? = some (bs[j]) := List.getElem?_eq_getElem hj
  obtain ⟨h₁, hh₁, hb₁⟩ := hf.head_eq i bs[j] (he.trans hjs)
  obtain ⟨h₂, hh₂, hb₂⟩ := hf.head_eq j bs[j] hjs
  have hhash := (h.listed_hash h₁ _ (List.mem_of_mem_head? hb₁)).symm.trans
    (h.listed_hash h₂ _ (List.mem_of_mem_head? hb₂))
  obtain rfl : h₁ = h₂ := Option.some.inj hhash
  have hjl : j < hs.length := lt_of_lt_of_le hj hf.length_le
  exact List.nodup_iff_getElem?_ne_getElem?.mp hn i j hij hjl (hh₁.trans hh₂.symm)

theorem PoolOk.cacheBlock {p : BlockPool} (h : PoolOk n p) {hash : BlockHash}
    (hr : 0 < p.refs b) (hb : b < n) (hn : p.hashOf b = none) :
    PoolOk n (p.cacheBlock b hash) := by
  obtain ⟨l, hl⟩ := h.rep
  obtain ⟨-, hh, hls, hrep⟩ := hl.cacheBlock_spec hb hash hr
  refine ⟨⟨l, hrep⟩, fun h' c hc => ?_⟩
  rw [hls] at hc
  rw [hh]
  have hold : c ∈ p.listed h' → (if c = b then some hash else p.hashOf c) = some h' := by
    intro hc
    have hch := h.listed_hash h' c hc
    rw [if_neg (fun hcb => by rw [hcb, hn] at hch; cases hch), hch]
  split at hc
  · rename_i he
    rcases List.mem_append.mp hc with hc | hc
    · exact hold hc
    · rw [List.mem_singleton.mp hc, if_pos rfl, he]
  · exact hold hc

end Pool

namespace KVCacheManager

/-- The block table of a request: empty when it has none. -/
def table (m : KVCacheManager) (rid : RequestId) : List BlockId :=
  (m.requestBlocks.lookup rid).getD []

/-- The occurrences of a block in all block tables. -/
def occ (m : KVCacheManager) (b : BlockId) : ℕ :=
  ∑ rid ∈ m.requestBlocks.keys.toFinset, (m.table rid).count b

/-- The invariant of a manager on `n` blocks. -/
structure Ok (n : ℕ) (m : KVCacheManager) : Prop where
  pool : PoolOk n m.blockPool
  refs_eq : ∀ b, m.blockPool.refs b = m.occ b

variable {n : ℕ} {H : HashFns} {cfg : CacheConfig} {m m' : KVCacheManager} {rid : RequestId}
  {b : BlockId}

theorem table_of_not_mem {r : RequestId} (hr : r ∉ m.requestBlocks.keys) : m.table r = [] := by
  rw [table, AList.lookup_eq_none.mpr hr]
  rfl

theorem occ_eq_sum {S : Finset RequestId} (hS : ∀ r ∉ S, m.table r = []) (b : BlockId) :
    m.occ b = ∑ r ∈ S, (m.table r).count b := by
  have hl : m.requestBlocks.keys.toFinset ⊆ m.requestBlocks.keys.toFinset ∪ S :=
    Finset.subset_union_left
  have hr : S ⊆ m.requestBlocks.keys.toFinset ∪ S := Finset.subset_union_right
  have hU := Finset.sum_subset (f := fun r => (m.table r).count b) hl fun r _ hr => by
    simp [table_of_not_mem (m := m) (r := r) (by simpa using hr)]
  have hV := Finset.sum_subset (f := fun r => (m.table r).count b) hr fun r _ hr => by
    simp [hS r hr]
  exact hU.trans hV.symm

theorem occ_update (h : ∀ r ≠ rid, m'.table r = m.table r) (b : BlockId) :
    m'.occ b + (m.table rid).count b = m.occ b + (m'.table rid).count b := by
  obtain ⟨S, hS⟩ : ∃ S, S = insert rid (m.requestBlocks.keys.toFinset ∪
    m'.requestBlocks.keys.toFinset) := ⟨_, rfl⟩
  have hm : ∀ r ∉ S, m.table r = [] := fun r hr => table_of_not_mem (by simp [hS] at hr; tauto)
  have hm' : ∀ r ∉ S, m'.table r = [] := fun r hr => table_of_not_mem (by simp [hS] at hr; tauto)
  have hrid : rid ∈ S := by simp [hS]
  rw [occ_eq_sum hm, occ_eq_sum hm', ← Finset.add_sum_erase S _ hrid,
    ← Finset.add_sum_erase (s := S) (f := fun r => (m.table r).count b) hrid]
  have he : ∑ r ∈ S.erase rid, (m'.table r).count b = ∑ r ∈ S.erase rid, (m.table r).count b :=
    Finset.sum_congr rfl fun r hr => by rw [h r (Finset.ne_of_mem_erase hr)]
  omega

theorem occ_congr (h : ∀ r, m'.table r = m.table r) (b : BlockId) : m'.occ b = m.occ b := by
  have h₀ : ∀ r ≠ 0, m'.table r = m.table r := fun r _ => h r
  have hu := occ_update h₀ b
  rw [h 0] at hu
  omega

/-- Every reference is an occurrence in a table. -/
structure Counted (n : ℕ) (m : KVCacheManager) : Prop where
  rep : ∃ l, Rep n m.blockPool l
  refs_eq : ∀ b, m.blockPool.refs b = m.occ b

theorem Ok.counted (h : Ok n m) : Counted n m := ⟨h.pool.rep, h.refs_eq⟩

theorem Counted.count_le (h : Counted n m) (r : RequestId) (b : BlockId) :
    (m.table r).count b ≤ m.blockPool.refs b := by
  rw [h.refs_eq]
  by_cases hr : r ∈ m.requestBlocks.keys
  · exact Finset.single_le_sum (f := fun r => (m.table r).count b) (fun _ _ => Nat.zero_le _)
      (by simpa using hr)
  · simp [table_of_not_mem hr]

theorem Ok.count_le (h : Ok n m) (r : RequestId) (b : BlockId) :
    (m.table r).count b ≤ m.blockPool.refs b :=
  h.counted.count_le r b

theorem Counted.mem_table (h : Counted n m) (hb : b ∈ m.table rid) :
    0 < b ∧ b < n ∧ 0 < m.blockPool.refs b := by
  have hpos : 0 < m.blockPool.refs b :=
    lt_of_lt_of_le (List.count_pos_iff.mpr hb) (h.count_le rid b)
  obtain ⟨l, hl⟩ := h.rep
  have hb0 : b ≠ 0 := by
    rintro rfl
    rw [hl.null_refs] at hpos
    exact absurd hpos (lt_irrefl 0)
  refine ⟨Nat.pos_of_ne_zero hb0, ?_, hpos⟩
  by_contra hbn
  have hlen : m.blockPool.blocks.length ≤ b := by rw [hl.length_eq]; exact not_lt.mp hbn
  have hz : m.blockPool.refs b = 0 := by
    simp [BlockPool.refs, BlockPool.block, blockAt, List.getElem?_eq_none hlen]
  omega

theorem Ok.mem_table (h : Ok n m) (hb : b ∈ m.table rid) :
    0 < b ∧ b < n ∧ 0 < m.blockPool.refs b :=
  h.counted.mem_table hb

theorem table_insert (m : KVCacheManager) (rid r : RequestId) (bs : List BlockId) :
    ((m.requestBlocks.insert rid bs).lookup r).getD [] = if r = rid then bs else m.table r := by
  by_cases hr : r = rid
  · subst hr; simp [AList.lookup_insert]
  · simp [AList.lookup_insert_ne hr, hr, table]

theorem table_erase (m : KVCacheManager) (rid r : RequestId) :
    ((m.requestBlocks.erase rid).lookup r).getD [] = if r = rid then [] else m.table r := by
  by_cases hr : r = rid
  · subst hr; simp [AList.lookup_erase]
  · simp [AList.lookup_erase_ne hr, hr, table]

theorem Ok.free (h : Ok n m) (rid : RequestId) :
    Ok n (m.free rid) ∧ (∀ r, (m.free rid).table r = if r = rid then [] else m.table r) ∧
      (m.free rid).blockPool.hashOf = m.blockPool.hashOf ∧
      (m.free rid).blockPool.listed = m.blockPool.listed ∧
      (m.free rid).log = m.log := by
  have ht : ∀ r, (m.free rid).table r = if r = rid then [] else m.table r :=
    table_erase m rid
  have hpool : (m.free rid).blockPool = freeAll (m.table rid) m.blockPool := by
    simp only [KVCacheManager.free, table]
    cases m.requestBlocks.lookup rid <;> rfl
  have hlt : ∀ b ∈ m.table rid, b < n := fun b hb => (h.mem_table hb).2.1
  obtain ⟨hr, hh, hl, hok⟩ := h.pool.freeAll hlt
  refine ⟨⟨hpool ▸ hok, fun b => ?_⟩, ht, hpool ▸ hh, hpool ▸ hl, rfl⟩
  have hne : ∀ r ≠ rid, (m.free rid).table r = m.table r := fun r hr => by rw [ht, if_neg hr]
  have hu := occ_update hne b
  rw [ht, if_pos rfl, List.count_nil] at hu
  rw [hpool, hr, h.refs_eq]
  omega

theorem Ok.getComputedBlocks (h : Ok n m) (hrid : m.table rid = []) {prompt : List Token}
    {skip : Bool} {res : PrefixCacheResult}
    (hg : m.getComputedBlocks H cfg rid prompt skip = (res, m')) :
    Ok n m' ∧ (∀ r, m'.table r = if r = rid then res.cachedBlockIds else m.table r) ∧
      m'.blockPool.hashOf = m.blockPool.hashOf ∧ m'.blockPool.listed = m.blockPool.listed ∧
      (m'.log = m.log ∧ res = ⟨[], 0⟩ ∨
        m'.log = m.log ++ [.lookedUp rid prompt res.cachedBlockIds] ∧
          Found m.blockPool (computeBlockHashes H cfg.prefixHashAlgorithm prompt cfg.blockSize none)
            res.cachedBlockIds) := by
  unfold KVCacheManager.getComputedBlocks at hg
  split at hg
  · obtain ⟨rfl, rfl⟩ := Prod.mk.inj hg
    refine ⟨h, fun r => ?_, rfl, rfl, Or.inl ⟨rfl, rfl⟩⟩
    split
    · rename_i hr
      rw [hr, hrid]
    · rfl
  · cases hl : lookupBlocks (computeBlockHashes H cfg.prefixHashAlgorithm prompt cfg.blockSize none)
        m.blockPool with
    | mk bs pool =>
      simp only [hl] at hg
      obtain ⟨rfl, hm'⟩ := Prod.mk.inj hg
      obtain ⟨hr, hh, hls, hok, hf⟩ := h.pool.lookupBlocks hl
      have hpool : m'.blockPool = pool := by rw [← hm']
      have ht : ∀ r, m'.table r = if r = rid then bs else m.table r := fun r => by
        rw [← hm']; exact table_insert m rid r bs
      refine ⟨⟨hpool ▸ hok, fun b => ?_⟩, ht, hpool ▸ hh, hpool ▸ hls,
        Or.inr ⟨by rw [← hm'], hf⟩⟩
      have hne : ∀ r ≠ rid, m'.table r = m.table r := fun r hr => (ht r).trans (if_neg hr)
      have hu := occ_update hne b
      rw [hrid, (ht rid).trans (if_pos rfl), List.count_nil] at hu
      rw [hpool, hr, h.refs_eq]
      omega

/-- What `allocateSlots` does when it succeeds. -/
structure Grown (n : ℕ) (cfg : CacheConfig) (m : KVCacheManager) (rid : RequestId)
    (needed : ℕ) (bs : List BlockId) (m' : KVCacheManager) : Prop where
  length_eq : bs.length = divCeil needed cfg.blockSize
  handedOut : HandedOut n m.blockPool bs m'.blockPool
  table_eq : ∀ r, m'.table r = if r = rid then m.table rid ++ bs else m.table r
  hashes_eq : m'.requestBlockHashes = m.requestBlockHashes
  computed_eq : m'.requestComputedTokens = m.requestComputedTokens
  log_eq : m'.log = m.log ++ bs.map .handedOut

/-- What `allocateSlots` does when it fails: blocks are handed out and taken back. -/
structure RolledBack (m : KVCacheManager) (bs : List BlockId) (m' : KVCacheManager) : Prop where
  table_eq : ∀ r, m'.table r = m.table r
  refs_eq : m'.blockPool.refs = m.blockPool.refs
  hashOf_eq : ∀ i, m'.blockPool.hashOf i = if i ∈ bs then none else m.blockPool.hashOf i
  listed_eq : ∀ h, m'.blockPool.listed h = (m.blockPool.listed h).filter (· ∉ bs)
  hashes_eq : m'.requestBlockHashes = m.requestBlockHashes
  computed_eq : m'.requestComputedTokens = m.requestComputedTokens
  log_eq : m'.log = m.log ++ bs.map .handedOut

theorem Ok.allocateSlots_some (h : Ok n m) {total computed : ℕ} {bs : List BlockId}
    (ha : m.allocateSlots cfg rid total computed = (some bs, m')) :
    Ok n m' ∧ Grown n cfg m rid (total - computed) bs m' := by
  unfold KVCacheManager.allocateSlots at ha
  dsimp only at ha
  split at ha
  · rename_i hz
    obtain ⟨hbs, rfl⟩ := Prod.mk.inj ha
    obtain rfl := Option.some.inj hbs
    refine ⟨h, ⟨?_, .nil _, fun r => ?_, rfl, rfl, by simp⟩⟩
    · rw [hz, divCeil_zero cfg.blockSize_pos]; rfl
    · by_cases hr : r = rid
      · subst hr; simp
      · simp [hr]
  · cases hl : allocMany (divCeil (total - computed) cfg.blockSize) m.blockPool with
    | mk cs pool =>
      simp only [hl] at ha
      split at ha
      · cases (Prod.mk.inj ha).1
      · rename_i hlen
        obtain ⟨hbs, rfl⟩ := Prod.mk.inj ha
        obtain rfl := Option.some.inj hbs
        obtain ⟨hh, hok, hk⟩ := h.pool.allocMany hl
        obtain ⟨m', hm'⟩ : ∃ m', m' = KVCacheManager.mk pool
          (m.requestBlocks.insert rid ((m.requestBlocks.lookup rid).getD [] ++ cs))
          m.requestComputedTokens m.requestBlockHashes (m.log ++ cs.map .handedOut) := ⟨_, rfl⟩
        have ht : ∀ r, m'.table r = if r = rid then m.table rid ++ cs else m.table r := fun r => by
          rw [hm']; exact table_insert m rid r _
        rw [← hm']
        refine ⟨⟨by rw [hm']; exact hok, fun b => ?_⟩, ⟨by omega, by rw [hm']; exact hh, ht,
          by rw [hm'], by rw [hm'], by rw [hm']⟩⟩
        have hne : ∀ r ≠ rid, m'.table r = m.table r := fun r hr => (ht r).trans (if_neg hr)
        have hu := occ_update hne b
        rw [(ht rid).trans (if_pos rfl), List.count_append] at hu
        have hpool : m'.blockPool = pool := by rw [hm']
        rw [hpool, hh.refs_eq]
        split
        · rename_i hb
          have hf := (hh.free b hb).2.2
          rw [h.refs_eq] at hf
          have hc := List.count_eq_one_of_mem hh.nodup hb
          omega
        · rename_i hb
          rw [h.refs_eq]
          have hc := List.count_eq_zero_of_not_mem hb
          omega

theorem Ok.allocateSlots_none (h : Ok n m) {total computed : ℕ}
    (ha : m.allocateSlots cfg rid total computed = (none, m')) :
    Ok n m' ∧ m.blockPool.numFree < divCeil (total - computed) cfg.blockSize ∧
      ∃ bs : List BlockId, RolledBack m bs m' := by
  unfold KVCacheManager.allocateSlots at ha
  dsimp only at ha
  split at ha
  · cases (Prod.mk.inj ha).1
  · cases hl : allocMany (divCeil (total - computed) cfg.blockSize) m.blockPool with
    | mk cs pool =>
      simp only [hl] at ha
      split at ha
      · rename_i hlen
        obtain ⟨-, rfl⟩ := Prod.mk.inj ha
        obtain ⟨hh, hok, hk⟩ := h.pool.allocMany hl
        obtain ⟨hr, hho, hli, hok'⟩ := hok.freeAll fun b hb => (hh.free b hb).2.1
        have hrefs : (freeAll cs pool).refs = m.blockPool.refs := by
          funext i
          rw [hr, hh.refs_eq]
          split
          · rename_i hi
            rw [List.count_eq_one_of_mem hh.nodup hi, (hh.free i hi).2.2]
          · rename_i hi
            rw [List.count_eq_zero_of_not_mem hi, Nat.sub_zero]
        refine ⟨⟨hok', fun b => ?_⟩, by omega, cs, ⟨fun _ => rfl, hrefs, fun i => ?_, fun i => ?_,
          rfl, rfl, rfl⟩⟩
        · rw [hrefs, h.refs_eq]
          rfl
        · exact (congrFun hho i).trans (hh.hashOf_eq i)
        · exact (congrFun hli i).trans (hh.listed_eq i)
      · cases (Prod.mk.inj ha).1

theorem Ok.allocateSlots_isSome (h : Ok n m) {total computed : ℕ} :
    (m.allocateSlots cfg rid total computed).1.isSome ↔
      divCeil (total - computed) cfg.blockSize ≤ m.blockPool.numFree := by
  unfold KVCacheManager.allocateSlots
  dsimp only
  split
  · rename_i hz
    simp [hz, divCeil_zero cfg.blockSize_pos]
  · cases hl : allocMany (divCeil (total - computed) cfg.blockSize) m.blockPool with
    | mk cs pool =>
      obtain ⟨-, -, hk⟩ := h.pool.allocMany hl
      simp only
      split <;> simp <;> omega

/-! ## Registration -/

/-- The blocks that `cacheBlocks` registers: an index, its block and its hash. -/
def regs (bt : List BlockId) (hs : List BlockHash) (is : List ℕ) : List (ℕ × BlockId × BlockHash) :=
  is.filterMap fun i => (bt[i]?.bind fun b => hs[i]?.map fun h => (i, b, h))

theorem mem_regs {bt : List BlockId} {hs : List BlockHash} {is : List ℕ} {i : ℕ} {b : BlockId}
    {h : BlockHash} : (i, b, h) ∈ regs bt hs is ↔ i ∈ is ∧ bt[i]? = some b ∧ hs[i]? = some h := by
  simp only [regs, List.mem_filterMap, Option.bind_eq_some_iff, Option.map_eq_some_iff]
  constructor
  · rintro ⟨j, hj, c, hc, g, hg, he⟩
    obtain ⟨rfl, rfl, rfl⟩ : j = i ∧ c = b ∧ g = h := by simpa using he
    exact ⟨hj, hc, hg⟩
  · rintro ⟨hi, hb, hh⟩
    exact ⟨i, hi, b, hb, h, hh, rfl⟩

/-- `m'` comes from `m` by registering the listed blocks for a request. -/
structure Registered (m : KVCacheManager) (rid : RequestId) (rs : List (ℕ × BlockId × BlockHash))
    (m' : KVCacheManager) : Prop where
  refs_eq : m'.blockPool.refs = m.blockPool.refs
  requestBlocks_eq : m'.requestBlocks = m.requestBlocks
  hashes_eq : m'.requestBlockHashes = m.requestBlockHashes
  hashOf_mem : ∀ i b h, (i, b, h) ∈ rs → m'.blockPool.hashOf b = some h
  hashOf_ne : ∀ b, (∀ i h, (i, b, h) ∉ rs) → m'.blockPool.hashOf b = m.blockPool.hashOf b
  mem_listed : ∀ h b, b ∈ m'.blockPool.listed h ↔ b ∈ m.blockPool.listed h ∨ ∃ i, (i, b, h) ∈ rs
  log_eq : m'.log = m.log ++ rs.map fun x => .registered x.2.1 rid x.1

theorem Registered.nil (m : KVCacheManager) (rid : RequestId) : Registered m rid [] m := by
  refine ⟨rfl, rfl, rfl, ?_, ?_, ?_, ?_⟩ <;> simp

theorem Registered.table_eq {rs : List (ℕ × BlockId × BlockHash)} (h : Registered m rid rs m')
    (r : RequestId) : m'.table r = m.table r := by
  rw [table, h.requestBlocks_eq, table]

theorem Ok.registerBlock (h : Ok n m) (rid : RequestId) {bt : List BlockId} {hs : List BlockHash}
    {i : ℕ}
    (hbt : ∀ j b g, (j, b, g) ∈ regs bt hs [i] → b < n ∧ 0 < m.blockPool.refs b ∧
      m.blockPool.hashOf b = none) :
    Ok n (m.registerBlock rid bt hs i) ∧
      (m.registerBlock rid bt hs i).requestComputedTokens = m.requestComputedTokens ∧
      Registered m rid (regs bt hs [i]) (m.registerBlock rid bt hs i) := by
  unfold KVCacheManager.registerBlock
  split
  · rename_i c hash hc hh
    have hreg : regs bt hs [i] = [(i, c, hash)] := by simp [regs, hc, hh]
    rw [hreg] at hbt ⊢
    obtain ⟨hcn, hcr, hcn'⟩ := hbt i c hash (by simp)
    obtain ⟨l, hl⟩ := h.pool.rep
    obtain ⟨hr, hho, hls, -⟩ := hl.cacheBlock_spec hcn hash hcr
    refine ⟨⟨PoolOk.cacheBlock h.pool hcr hcn hcn', fun b => ?_⟩, rfl, ⟨hr, rfl, rfl, ?_, ?_, ?_,
      rfl⟩⟩
    · exact (congrFun hr b).trans (h.refs_eq b)
    · intro j b g hj
      obtain ⟨rfl, rfl, rfl⟩ : j = i ∧ b = c ∧ g = hash := by simpa using hj
      exact (hho b).trans (if_pos rfl)
    · intro b hb
      refine (hho b).trans (if_neg ?_)
      rintro rfl
      exact hb i hash (by simp)
    · intro g b
      have hg := hls g
      change b ∈ (m.blockPool.cacheBlock c hash).listed g ↔ _
      rw [hg]
      by_cases he : g = hash
      · subst he; simp
      · simp [he]
  · rename_i hne
    have hreg : regs bt hs [i] = [] := by
      refine List.eq_nil_iff_forall_not_mem.mpr ?_
      rintro ⟨j, b, g⟩ hm
      obtain ⟨hj, hb, hg⟩ := mem_regs.mp hm
      rw [List.mem_singleton.mp hj] at hb hg
      exact hne b g hb hg
    rw [hreg]
    exact ⟨h, rfl, .nil m rid⟩

theorem Registered.trans {rs rs' : List (ℕ × BlockId × BlockHash)} {m'' : KVCacheManager}
    (h : Registered m rid rs m') (h' : Registered m' rid rs' m'')
    (hd : ∀ i b g j g', (i, b, g) ∈ rs → (j, b, g') ∉ rs') :
    Registered m rid (rs ++ rs') m'' where
  refs_eq := h'.refs_eq.trans h.refs_eq
  requestBlocks_eq := h'.requestBlocks_eq.trans h.requestBlocks_eq
  hashes_eq := h'.hashes_eq.trans h.hashes_eq
  hashOf_mem i b g hm := by
    rcases List.mem_append.mp hm with hm | hm
    · rw [h'.hashOf_ne b fun j g' => hd i b g j g' hm]
      exact h.hashOf_mem i b g hm
    · exact h'.hashOf_mem i b g hm
  hashOf_ne b hb := by
    rw [h'.hashOf_ne b fun i g hm => hb i g (List.mem_append_right _ hm)]
    exact h.hashOf_ne b fun i g hm => hb i g (List.mem_append_left _ hm)
  mem_listed g b := by
    rw [h'.mem_listed, h.mem_listed]
    simp only [List.mem_append, exists_or, or_assoc]
  log_eq := by rw [h'.log_eq, h.log_eq, List.map_append, List.append_assoc]

theorem Ok.registerAll (h : Ok n m) (rid : RequestId) {bt : List BlockId} {hs : List BlockHash}
    {is : List ℕ}
    (his : is.Nodup) (hbt : ∀ i ∈ is, ∀ j ∈ is, ∀ b, bt[i]? = some b → bt[j]? = some b → i = j)
    (hok : ∀ i b h, (i, b, h) ∈ regs bt hs is → b < n ∧ 0 < m.blockPool.refs b ∧
      m.blockPool.hashOf b = none) :
    Ok n (is.foldl (fun m i => m.registerBlock rid bt hs i) m) ∧
      (is.foldl (fun m i => m.registerBlock rid bt hs i) m).requestComputedTokens =
        m.requestComputedTokens ∧
      Registered m rid (regs bt hs is) (is.foldl (fun m i => m.registerBlock rid bt hs i) m) := by
  induction is generalizing m with
  | nil => exact ⟨h, rfl, .nil m rid⟩
  | cons i is ih =>
    obtain ⟨hi, his⟩ := List.nodup_cons.mp his
    have hcons : regs bt hs (i :: is) = regs bt hs [i] ++ regs bt hs is := by
      simp only [regs, ← List.filterMap_append, List.singleton_append]
    have hdis : ∀ j b g k g', (j, b, g) ∈ regs bt hs [i] → (k, b, g') ∉ regs bt hs is := by
      intro j b g k g' hj hk
      obtain ⟨hji, hb, -⟩ := mem_regs.mp hj
      obtain ⟨hki, hb', -⟩ := mem_regs.mp hk
      rw [List.mem_singleton.mp hji] at hb
      have hik : i = k := hbt i (by simp) k (List.mem_cons_of_mem _ hki) b hb hb'
      exact hi (hik ▸ hki)
    obtain ⟨h₁, hc₁, hr₁⟩ := h.registerBlock rid
      fun j b g hm => hok j b g (hcons ▸ List.mem_append_left _ hm)
    have hbt' : ∀ j ∈ is, ∀ k ∈ is, ∀ b, bt[j]? = some b → bt[k]? = some b → j = k :=
      fun j hj k hk => hbt j (List.mem_cons_of_mem _ hj) k (List.mem_cons_of_mem _ hk)
    obtain ⟨h₂, hc₂, hr₂⟩ := ih h₁ his hbt' fun j b g hm => by
      obtain ⟨hbn, hr, hn⟩ := hok j b g (hcons ▸ List.mem_append_right _ hm)
      rw [hr₁.refs_eq, hr₁.hashOf_ne b fun k g' hk => hdis k b g' j g hk hm]
      exact ⟨hbn, hr, hn⟩
    rw [hcons]
    exact ⟨h₂, hc₂.trans hc₁, hr₁.trans hr₂ hdis⟩

/-- The number of blocks of a request that count as registered. -/
def alreadyCached (cfg : CacheConfig) (m : KVCacheManager) (rid : RequestId) : ℕ :=
  (m.requestComputedTokens.lookup rid).getD 0 / cfg.blockSize

/-- The blocks `cacheBlocks` registers for a request. -/
def newRegs (cfg : CacheConfig) (m : KVCacheManager) (rid : RequestId) (total : ℕ) :
    List (ℕ × BlockId × BlockHash) :=
  if cfg.enablePrefixCaching then
    let hashes := (m.requestBlockHashes.lookup rid).getD []
    regs (m.table rid) hashes (List.range' (m.alreadyCached cfg rid)
      (min (total / cfg.blockSize) hashes.length - m.alreadyCached cfg rid))
  else []

theorem mem_newRegs {total i : ℕ} {h : BlockHash} : (i, b, h) ∈ newRegs cfg m rid total ↔
    cfg.enablePrefixCaching = true ∧ m.alreadyCached cfg rid ≤ i ∧
      i < total / cfg.blockSize ∧ (m.table rid)[i]? = some b ∧
      ((m.requestBlockHashes.lookup rid).getD [])[i]? = some h := by
  unfold newRegs
  split
  · rename_i he
    rw [mem_regs, List.mem_range'_1]
    constructor
    · rintro ⟨hi, hb, hh⟩
      exact ⟨he, hi.1, by omega, hb, hh⟩
    · rintro ⟨-, hi, hlt, hb, hh⟩
      have hlen := (List.getElem?_eq_some_iff.mp hh).1
      exact ⟨by omega, hb, hh⟩
  · rename_i he
    simp [he]

theorem cacheBlocks_off (he : cfg.enablePrefixCaching = false) (total : ℕ) :
    m.cacheBlocks cfg rid total = m := by
  simp [KVCacheManager.cacheBlocks, he]

theorem Ok.cacheBlocks (h : Ok n m) (total : ℕ)
    (hinj : ∀ i j b, m.alreadyCached cfg rid ≤ i → m.alreadyCached cfg rid ≤ j →
      (m.table rid)[i]? = some b → (m.table rid)[j]? = some b → i = j)
    (hfresh : ∀ i b, m.alreadyCached cfg rid ≤ i → (m.table rid)[i]? = some b →
      m.blockPool.hashOf b = none) :
    Ok n (m.cacheBlocks cfg rid total) ∧
      Registered m rid (newRegs cfg m rid total) (m.cacheBlocks cfg rid total) := by
  have hnil : newRegs cfg m rid total = [] → Registered m rid (newRegs cfg m rid total) m :=
    fun he => he ▸ .nil m rid
  cases he : cfg.enablePrefixCaching with
  | false =>
    rw [cacheBlocks_off he]
    exact ⟨h, hnil (by simp [newRegs, he])⟩
  | true =>
    simp only [KVCacheManager.cacheBlocks, he, Bool.not_true, Bool.false_eq_true, if_false]
    split
    · rename_i bt hs hbt hhs
      have htab : m.table rid = bt := by simp [table, hbt]
      have hregs : newRegs cfg m rid total = regs bt hs (List.range' (m.alreadyCached cfg rid)
          (min (total / cfg.blockSize) hs.length - m.alreadyCached cfg rid)) := by
        simp [newRegs, he, hhs, htab]
      rw [hregs]
      obtain ⟨hok, -, hr⟩ := h.registerAll rid
        (List.nodup_range' (s := m.alreadyCached cfg rid)
          (n := min (total / cfg.blockSize) hs.length - m.alreadyCached cfg rid) 1)
        (fun i hi j hj b => htab ▸ hinj i j b (List.mem_range'_1.mp hi).1
          (List.mem_range'_1.mp hj).1)
        fun i b g hm => by
          obtain ⟨-, hi, -, hb, -⟩ := mem_newRegs.mp (hregs ▸ hm)
          obtain ⟨-, hbn, hpos⟩ := h.mem_table (List.mem_of_getElem? hb)
          exact ⟨hbn, hpos, hfresh i b hi hb⟩
      exact ⟨⟨hok.pool, hok.refs_eq⟩, ⟨hr.refs_eq, hr.requestBlocks_eq, hr.hashes_eq, hr.hashOf_mem,
        hr.hashOf_ne, hr.mem_listed, hr.log_eq⟩⟩
    · rename_i hne
      refine ⟨h, hnil (List.eq_nil_iff_forall_not_mem.mpr ?_)⟩
      rintro ⟨i, b, g⟩ hm
      obtain ⟨-, -, -, hb, hg⟩ := mem_newRegs.mp hm
      cases hbt : m.requestBlocks.lookup rid with
      | none => simp [table, hbt] at hb
      | some bt =>
        cases hhs : m.requestBlockHashes.lookup rid with
        | none => simp [hhs] at hg
        | some hs => exact hne bt hs hbt hhs

end KVCacheManager

end Rllm
