import Rllm.Cache.PoolInvariant

/-! # Runs of the block pool

The remaining operations of the pool keep its representation invariant, so
every sequence of operations does. A pool of more than `2 ^ 32` blocks is
broken from the start, since the block indices wrap.
-/

namespace Rllm

open DoublyLinked

namespace BlockPool

variable {n : ℕ} {p p' : BlockPool} {l l' : List ℕ} {a b : ℕ}

/-! ## Freeing and sharing -/

theorem Rep.free_of_zero (h : Rep n p l) (hb : b < n)
    (hz : ((p.block b).isNull || decide ((p.block b).refCount = 0)) = true) : p.refs b = 0 := by
  rcases (Bool.or_eq_true _ _).mp hz with hnull | hzero
  · rw [h.isNull_eq hb, decide_eq_true_iff] at hnull
    exact hnull ▸ h.null_refs
  · exact of_decide_eq_true hzero

theorem Rep.free_last (h : Rep n p l) (hb : b < n) (hone : p.refs b = 1) :
    let q := (p.modifyBlock b fun c => { c with refCount := c.refCount - 1 }).linkFront b
    let p' := { q with numActiveBlocks := q.numActiveBlocks - 1 }
    (∀ i, p'.refs i = if i = b then p.refs b - 1 else p.refs i) ∧ p'.hashOf = p.hashOf ∧
      p'.listed = p.listed ∧ Rep n p' (b :: l) := by
  intro q p'
  have hlt := h.lt_length hb
  have hpos : 0 < p.refs b := hone ▸ Nat.one_pos
  have hnl : b ∉ l := fun hm => hpos.ne' (h.mem_free hm).2.2
  have hr : ∀ i, p'.refs i = if i = b then p.refs b - 1 else p.refs i := fun i =>
    (congrFun (refs_linkFront _ b) i).trans (refs_recount (· - 1) hlt i)
  refine ⟨hr, (hashOf_linkFront _ b).trans (hashOf_recount (· - 1) hlt), rfl, ?_⟩
  have hs : SameBlocks p p' := (sameBlocks_modifyBlock (p := p) (a := b)
    (f := fun c => { c with refCount := c.refCount - 1 }) fun _ => rfl).trans sameBlocks_linkFront
  apply h.release hb hpos hs
  · exact queueRep_linkFront (queueRep_modifyBlock h.queue (fun _ => rfl) fun _ => rfl) hnl
      (by simpa using hlt)
  · intro i
    rw [hr, hone]
  · rfl
  · exact h.listed_lt

theorem Rep.free_shared (h : Rep n p l) (hb : b < n) (hmany : 1 < p.refs b) :
    let p' := p.modifyBlock b fun c => { c with refCount := c.refCount - 1 }
    (∀ i, p'.refs i = if i = b then p.refs b - 1 else p.refs i) ∧ p'.hashOf = p.hashOf ∧
      p'.listed = p.listed ∧ Rep n p' l := by
  intro p'
  have hlt := h.lt_length hb
  have hr := refs_recount (· - 1) hlt
  refine ⟨hr, hashOf_recount (· - 1) hlt, rfl, ?_⟩
  exact h.recount (Nat.zero_lt_of_lt hmany) (sameBlocks_modifyBlock fun _ => rfl)
    (queueRep_modifyBlock h.queue (fun _ => rfl) fun _ => rfl) (Nat.sub_pos_of_lt hmany) hr rfl
    h.listed_lt

theorem Rep.free_spec (h : Rep n p l) (hb : b < n) :
    (∀ i, (p.free b).refs i = if i = b then p.refs b - 1 else p.refs i) ∧
      (p.free b).hashOf = p.hashOf ∧ (p.free b).listed = p.listed ∧
      Rep n (p.free b) (if p.refs b = 1 then b :: l else l) := by
  have hleft := refs_recount (p := p) (· - 1) (h.lt_length hb) b
  rw [if_pos rfl] at hleft
  unfold free
  split
  · rename_i hz
    have hzero := h.free_of_zero hb hz
    refine ⟨fun i => ?_, rfl, rfl, ?_⟩
    · split
      · rename_i hi
        rw [hi, hzero]
      · rfl
    · rw [if_neg (by omega)]
      exact h
  · rename_i hz
    have hpos : 0 < p.refs b := by
      simp only [Bool.or_eq_true, not_or, decide_eq_true_iff] at hz
      exact Nat.pos_of_ne_zero hz.2
    dsimp only
    split
    · rename_i hlast
      have hone : p.refs b = 1 := by
        have := hleft.symm.trans hlast
        omega
      rw [if_pos hone]
      exact h.free_last hb hone
    · rename_i hmore
      have hmany : 1 < p.refs b := by
        have : p.refs b - 1 ≠ 0 := fun he => hmore (hleft.trans he)
        omega
      rw [if_neg hmany.ne']
      exact h.free_shared hb hmany

theorem Rep.incref_rep (h : Rep n p l) (hb : b < n) : Rep n (p.incref b) l := by
  unfold incref
  split
  · rename_i hc
    have hpos : 0 < p.refs b := of_decide_eq_true ((Bool.and_eq_true _ _).mp hc).2
    exact h.recount hpos (sameBlocks_modifyBlock fun _ => rfl)
      (queueRep_modifyBlock h.queue (fun _ => rfl) fun _ => rfl) (Nat.succ_pos _)
      (refs_recount (· + 1) (h.lt_length hb)) rfl h.listed_lt
  · exact h

theorem Rep.isShared_pos (h : Rep n p l) (hs : p.isShared b = true) : b < n ∧ 1 < p.refs b := by
  unfold isShared at hs
  split at hs
  · cases hs
  · rename_i hlt
    rw [h.length_eq] at hlt
    exact ⟨by omega, by simpa [refs] using ((Bool.and_eq_true _ _).mp hs).2⟩

theorem Rep.copyOnWrite_some (h : Rep n p l) (hc : p.copyOnWrite b = some (a, p')) :
    (p.isShared b = false ∧ p' = p) ∨ (p.isShared b = true ∧ a ∈ l ∧ a ≠ b ∧
      (∀ i, p'.refs i = if i = a then 1 else if i = b then p.refs b - 1 else p.refs i) ∧
      (∀ i, p'.hashOf i = if i = a then none else p.hashOf i) ∧ Rep n p' (l.erase a)) := by
  unfold copyOnWrite at hc
  split at hc
  · rename_i hs
    obtain ⟨rfl, rfl⟩ := Prod.mk.inj (Option.some.inj hc)
    exact Or.inl ⟨by simpa using hs, rfl⟩
  · rename_i hs
    have hs' : p.isShared b = true := by simpa using hs
    obtain ⟨hbn, hshared⟩ := h.isShared_pos hs'
    split at hc
    · rename_i c q ha
      obtain ⟨rfl, rfl⟩ := Prod.mk.inj (Option.some.inj hc)
      obtain ⟨hm, hal, hr⟩ := h.allocate_some ha
      have hcb : c ≠ b := by
        rintro rfl
        rw [(h.mem_free hm).2.2] at hshared
        exact absurd hshared (Nat.not_lt_zero 1)
      have hqb : q.refs b = p.refs b := (hal.refs_eq b).trans (if_neg (Ne.symm hcb))
      obtain ⟨hrefs, hhash, -, hrep⟩ := hr.free_spec hbn
      rw [hqb, if_neg (by omega)] at hrep
      refine Or.inr ⟨hs', hm, hcb, fun i => ?_, fun i => ?_, hrep⟩
      · rw [hrefs, hqb, hal.refs_eq]
        by_cases hi : i = b
        · rw [hi, if_pos rfl, if_neg (Ne.symm hcb), if_pos rfl]
        · rw [if_neg hi, if_neg hi]
      · rw [hhash, hal.hashOf_eq]
    · cases hc

theorem Rep.copyOnWrite_rep (h : Rep n p l) (hc : p.copyOnWrite b = some (a, p')) :
    ∃ l', Rep n p' l' := by
  rcases h.copyOnWrite_some hc with ⟨-, rfl⟩ | ⟨-, -, -, -, -, hrep⟩
  · exact ⟨l, h⟩
  · exact ⟨_, hrep⟩

/-! ## Cached blocks -/

theorem Rep.inQueue_of_mem (h : Rep n p l) (ha : a ∈ l) : p.inQueue a = true := by
  have hl := h.queue.linked.mem_links ha
  simp only [inQueue, Bool.or_eq_true, decide_eq_true_iff, block]
  tauto

@[simp] theorem refs_touch (p : BlockPool) (b : BlockId) : (p.touch b).refs = p.refs := by
  unfold touch
  split
  · split
    · rw [refs_linkFront, refs_unlink]
    · rfl
  · rfl

theorem Rep.touch_spec (h : Rep n p l) (hb : b < n) :
    (p.touch b).refs = p.refs ∧ (p.touch b).hashOf = p.hashOf ∧ (p.touch b).listed = p.listed ∧
      Rep n (p.touch b) (if b ∈ l ∧ (p.hashOf b).isSome then b :: l.erase b else l) := by
  unfold touch
  split
  · rename_i hc
    simp only [Bool.and_eq_true, decide_eq_true_iff, Bool.not_eq_true'] at hc
    obtain ⟨⟨hz, hnull⟩, hcached⟩ := hc
    rw [h.isNull_eq hb, decide_eq_false_iff_not] at hnull
    have hm : b ∈ l := (h.mem_iff b).mpr ⟨hb, hnull, hz⟩
    rw [if_pos (h.inQueue_of_mem hm), if_pos ⟨hm, hcached⟩]
    have hr : ((p.unlink b).linkFront b).refs = p.refs := by simp
    have hne : b ∉ l.erase b := fun he => (h.queue.linked.nodup.mem_erase_iff.mp he).1 rfl
    refine ⟨hr, by simp, rfl, h.of_sameBlocks
      (sameBlocks_unlink.trans sameBlocks_linkFront) ?_ (queueRep_linkFront
      (queueRep_unlink h.queue hm) hne (by simpa using h.lt_length hb)) ?_ ?_ h.listed_lt⟩
    · rw [hr]; exact h.null_refs
    · intro i
      rw [hr, ← h.mem_iff, List.mem_cons, h.queue.linked.nodup.mem_erase_iff]
      by_cases hi : i = b
      · simp [hi, hm]
      · simp [hi]
    · have hp := List.length_pos_of_mem hm
      change p.numActiveBlocks + (l.erase b).length.succ + 1 = n
      rw [List.length_erase_of_mem hm]
      have := h.total
      omega
  · rename_i hc
    refine ⟨rfl, rfl, rfl, ?_⟩
    rw [if_neg]
    · exact h
    · rintro ⟨hm, hcached⟩
      obtain ⟨-, hb0, hz⟩ := h.mem_free hm
      refine hc ?_
      simp only [Bool.and_eq_true, decide_eq_true_iff, Bool.not_eq_true']
      exact ⟨⟨hz, by rw [h.isNull_eq hb]; simpa using hb0⟩, hcached⟩

theorem Rep.touch_erase (h : Rep n p l) (hb : b < n) :
    ∃ l', Rep n (p.touch b) l' ∧ l'.erase b = l.erase b := by
  refine ⟨_, (h.touch_spec hb).2.2.2, ?_⟩
  split
  · exact List.erase_cons_head _ _
  · rfl

theorem Rep.getCachedBlock_some (h : Rep n p l) {hash : BlockHash}
    (hc : p.getCachedBlock hash = some (b, p')) :
    (p.listed hash).head? = some b ∧ (∀ i, p'.refs i = if i = b then p.refs b + 1 else p.refs i) ∧
      p'.hashOf = p.hashOf ∧ p'.listed = p.listed ∧ Rep n p' (l.erase b) := by
  unfold getCachedBlock at hc
  split at hc
  · rename_i c hl
    have hhead : (p.listed hash).head? = some c := by
      cases hlk : p.hashMap.lookup hash <;> simp [listed, hlk] at hl ⊢
      exact hl
    obtain ⟨hc0, hcn⟩ := h.listed_lt hash c (List.mem_of_mem_head? hhead)
    obtain ⟨htr, hth, htl, -⟩ := h.touch_spec hcn
    obtain ⟨l', ht, herase⟩ := h.touch_erase hcn
    have hlt := ht.lt_length hcn
    have hrefs : ∀ (q : BlockPool), q.blocks.length = (p.touch c).blocks.length →
        q.refs = (p.touch c).refs → ∀ i,
        (q.modifyBlock c fun b => { b with refCount := b.refCount + 1 }).refs i =
          if i = c then p.refs c + 1 else p.refs i := by
      intro q hq hr i
      rw [refs_recount (· + 1) (hq ▸ hlt), hr, htr]
    have hhash : ∀ (q : BlockPool), q.blocks.length = (p.touch c).blocks.length →
        q.hashOf = (p.touch c).hashOf →
        (q.modifyBlock c fun b => { b with refCount := b.refCount + 1 }).hashOf = p.hashOf := by
      intro q hq hr
      rw [hashOf_recount (· + 1) (hq ▸ hlt), hr, hth]
    obtain ⟨rfl, rfl⟩ := Prod.mk.inj (Option.some.inj hc)
    rw [← herase]
    by_cases hz : (p.touch c).refs c = 0
    · -- the block was free: it leaves the queue
      have hm : c ∈ l' := (ht.mem_iff c).mpr ⟨hcn, hc0.ne', hz⟩
      have hz' : ((p.touch c).block c).refCount = 0 := hz
      simp only [hz', decide_true, Bool.true_and, if_true, ht.inQueue_of_mem hm]
      have hrq := hrefs { (p.touch c).unlink c with
        numActiveBlocks := ((p.touch c).unlink c).numActiveBlocks + 1 }
        (length_unlink _ _) (refs_unlink _ _)
      refine ⟨hhead, hrq, hhash _ (length_unlink _ _) (hashOf_unlink _ _), htl,
        ht.activate hm (k := p.refs c + 1) ?_ ?_ (by omega) ?_ rfl ?_⟩
      · exact sameBlocks_unlink.trans (sameBlocks_modifyBlock (p := { (p.touch c).unlink c with
          numActiveBlocks := ((p.touch c).unlink c).numActiveBlocks + 1 }) fun _ => rfl)
      · exact queueRep_modifyBlock (p := { (p.touch c).unlink c with
          numActiveBlocks := ((p.touch c).unlink c).numActiveBlocks + 1 })
          (queueRep_unlink ht.queue hm) (fun _ => rfl) (fun _ => rfl)
      · intro i
        rw [htr]
        exact hrq i
      · exact ht.listed_lt
    · have hz' : ¬ ((p.touch c).block c).refCount = 0 := hz
      simp only [hz', decide_false, Bool.false_and, Bool.false_eq_true, if_false]
      have hrq := hrefs (p.touch c) rfl rfl
      have hnm : c ∉ l' := fun hm => hz (ht.mem_free hm).2.2
      rw [List.erase_of_not_mem hnm]
      refine ⟨hhead, hrq, hhash _ rfl rfl, htl, ?_⟩
      exact ht.recount (Nat.pos_of_ne_zero hz) (sameBlocks_modifyBlock fun _ => rfl)
        (queueRep_modifyBlock ht.queue (fun _ => rfl) fun _ => rfl) (Nat.succ_pos (p.refs c))
        (fun i => by rw [hrq, htr]) rfl ht.listed_lt
  · cases hc

theorem getCachedBlock_none {hash : BlockHash} (hc : p.getCachedBlock hash = none) :
    p.listed hash = [] := by
  unfold getCachedBlock at hc
  split at hc
  · cases hc
  · rename_i hl
    cases hk : p.hashMap.lookup hash with
    | none => simp [listed, hk]
    | some ids => simpa [listed, hk] using hl

theorem listed_insert (p : BlockPool) (hash h' : BlockHash) (ids : List BlockId) :
    listed { p with hashMap := p.hashMap.insert hash ids } h' =
      if h' = hash then ids else p.listed h' := by
  by_cases hh : h' = hash
  · subst hh
    simp [listed, AList.lookup_insert]
  · simp [listed, AList.lookup_insert_ne hh, hh]

theorem Rep.cacheBlock_spec (h : Rep n p l) (hb : b < n) (hash : BlockHash)
    (hr : 0 < p.refs b) :
    (p.cacheBlock b hash).refs = p.refs ∧
      (∀ i, (p.cacheBlock b hash).hashOf i = if i = b then some hash else p.hashOf i) ∧
      (∀ h', (p.cacheBlock b hash).listed h' =
        if h' = hash then p.listed h' ++ [b] else p.listed h') ∧
      Rep n (p.cacheBlock b hash) l := by
  have hb0 : b ≠ 0 := by
    rintro rfl
    rw [h.null_refs] at hr
    exact absurd hr (lt_irrefl 0)
  have hlt := h.lt_length hb
  have hg : ((p.block b).refCount = 0 || (p.block b).isNull) = false := by
    simp only [Bool.or_eq_false_iff, decide_eq_false_iff_not]
    exact ⟨hr.ne', by rw [h.isNull_eq hb]; simp [hb0]⟩
  have hrefs : (p.modifyBlock b fun c => { c with hash := some hash }).refs = p.refs := by
    funext i
    rw [refs_modifyBlock _ _ hlt]
    split <;> rfl
  have hlist : ∀ h', (p.cacheBlock b hash).listed h' =
      if h' = hash then p.listed h' ++ [b] else p.listed h' := by
    intro h'
    rw [cacheBlock, hg]
    refine (listed_insert _ _ _ _).trans ?_
    by_cases hh : h' = hash
    · subst hh; rfl
    · simp [hh]
  refine ⟨?_, ?_, hlist, h.of_sameBlocks ?_ ?_ ?_ ?_ ?_ ?_⟩
  · rw [cacheBlock, hg]; exact hrefs
  · intro i
    rw [cacheBlock, hg]
    refine (hashOf_modifyBlock _ i hlt).trans ?_
    by_cases hi : b = i
    · simp [hi]
    · simp [hi, Ne.symm hi]
  · rw [cacheBlock, hg]
    exact sameBlocks_modifyBlock fun _ => rfl
  · rw [cacheBlock, hg]
    exact (congrFun hrefs 0).trans h.null_refs
  · rw [cacheBlock, hg]
    exact queueRep_modifyBlock h.queue (fun _ => rfl) (fun _ => rfl)
  · intro i
    rw [cacheBlock, hg]
    exact (h.mem_iff i).trans (by rw [← congrFun hrefs i]; rfl)
  · rw [cacheBlock, hg]
    exact h.total
  · intro h' c hc
    rw [hlist] at hc
    split at hc
    · rcases List.mem_append.mp hc with hc | hc
      · exact h.listed_lt h' c hc
      · rw [List.mem_singleton.mp hc]
        exact ⟨Nat.pos_of_ne_zero hb0, hb⟩
    · exact h.listed_lt h' c hc

theorem cacheBlock_free (hash : BlockHash) (hr : p.refs b = 0) :
    p.cacheBlock b hash = p := by
  have hz : (p.block b).refCount = 0 := hr
  simp [cacheBlock, hz]

theorem clearHashes_block (p : BlockPool) (i : ℕ) :
    p.clearHashes.block i = { p.block i with hash := none } := by
  simp only [clearHashes, block, blockAt, List.getD_eq_getElem?_getD, List.getElem?_map]
  cases p.blocks[i]? <;> rfl

@[simp] theorem refs_clearHashes : p.clearHashes.refs = p.refs := by
  funext i
  rw [refs, clearHashes_block]
  rfl

@[simp] theorem hashOf_clearHashes (i : ℕ) : p.clearHashes.hashOf i = none := by
  rw [hashOf, clearHashes_block]

@[simp] theorem listed_clearHashes (hash : BlockHash) : p.clearHashes.listed hash = [] := by
  simp [clearHashes, listed]

theorem Rep.clearHashes (h : Rep n p l) : Rep n p.clearHashes l := by
  refine h.of_sameBlocks ⟨by simp [BlockPool.clearHashes], fun i => ?_⟩ ?_ ?_ ?_ h.total ?_
  · rw [clearHashes_block]; rfl
  · rw [refs_clearHashes]; exact h.null_refs
  · refine ⟨h.queue.linked.congr (fun i _ => ?_) (fun i _ => ?_), ?_, h.queue.len_eq⟩
    · have hb := congrArg KVCacheBlock.nextFree (clearHashes_block p i)
      exact hb
    · have hb := congrArg KVCacheBlock.prevFree (clearHashes_block p i)
      exact hb
    · simpa [BlockPool.clearHashes] using h.queue.lt_length
  · intro i
    rw [refs_clearHashes]
    exact h.mem_iff i
  · intro hash c hc
    rw [listed_clearHashes] at hc
    cases hc

theorem resetPrefixCache_ok (hr : p.resetPrefixCache = .ok p') : p' = p.clearHashes := by
  unfold resetPrefixCache at hr
  split at hr
  · cases hr
  · cases hr
    rfl

/-! ## The initial pool -/

/-- The pushes of `BlockPool.new`. -/
def pushAll (is : List ℕ) (s : FreeBlockQueue × List KVCacheBlock) :
    FreeBlockQueue × List KVCacheBlock :=
  is.foldl (fun (q, blocks) i => FreeBlockQueue.pushBack q blocks (asU32 i)) s

theorem pushAll_core (is : List ℕ) (s : FreeBlockQueue × List KVCacheBlock) :
    (pushAll is s).2.length = s.2.length ∧
      ∀ j, (blockAt (pushAll is s).2 j).core = (blockAt s.2 j).core := by
  induction is generalizing s with
  | nil => exact ⟨rfl, fun _ => rfl⟩
  | cons i is ih =>
    obtain ⟨hl, hc⟩ := ih (s.1.pushBack s.2 (asU32 i))
    exact ⟨hl.trans (by simp), fun j => (hc j).trans (FreeBlockQueue.pushBack_core _ _ _ _)⟩

theorem queueRep_pushAll (is : List ℕ) {s : FreeBlockQueue × List KVCacheBlock}
    (h : QueueRep s.1 s.2 l) (hnd : (l ++ is).Nodup)
    (hlt : ∀ i ∈ is, i < s.2.length ∧ i < 2 ^ 32) :
    QueueRep (pushAll is s).1 (pushAll is s).2 (l ++ is) := by
  induction is generalizing s l with
  | nil => simpa [pushAll] using h
  | cons i is ih =>
    have hi := hlt i (by simp)
    have hu : asU32 i = i := asU32_of_lt hi.2
    have hnl : i ∉ l := fun hm => (List.nodup_append.mp hnd).2.2 i hm i (by simp) rfl
    have hpush : QueueRep (s.1.pushBack s.2 (asU32 i)).1 (s.1.pushBack s.2 (asU32 i)).2
        (l ++ [i]) := hu.symm ▸ h.pushBack hnl hi.1
    have hr := ih hpush (by simpa using hnd) fun j hj => by
      simpa using hlt j (List.mem_cons_of_mem _ hj)
    simpa [pushAll] using hr

theorem initBlocks_length (hn : 0 < n) : (initBlocks n).length = n := by
  simp [initBlocks]
  omega

theorem blockAt_initBlocks (i : ℕ) (hi : i < n) :
    blockAt (initBlocks n) i = { id := asU32 i, isNull := decide (i = 0) } := by
  cases i with
  | zero => rfl
  | succ i =>
    have hlt : i < n - 1 := by omega
    simp [blockAt, initBlocks, hlt, Nat.add_comm]

theorem new_core (i : ℕ) (hi : i < n) :
    ((new n).block i).core = { id := asU32 i, isNull := decide (i = 0) } := by
  have h := (pushAll_core (List.range' 1 (n - 1)) ({}, initBlocks n)).2 i
  rw [blockAt_initBlocks i hi] at h
  exact h

theorem new_length (hn : 0 < n) : (new n).blocks.length = n :=
  (pushAll_core _ _).1.trans (initBlocks_length hn)

theorem new_fresh (i : ℕ) : (new n).refs i = 0 ∧ (new n).hashOf i = none := by
  have hc : ((new n).block i).core = (blockAt (initBlocks n) i).core := (pushAll_core _ _).2 i
  have hi : (blockAt (initBlocks n) i).refCount = 0 ∧ (blockAt (initBlocks n) i).hash = none := by
    cases i with
    | zero => exact ⟨rfl, rfl⟩
    | succ i =>
      simp only [blockAt, initBlocks, List.getD_eq_getElem?_getD, List.getElem?_cons_succ,
        List.getElem?_map]
      cases (List.range' 1 (n - 1))[i]? <;> exact ⟨rfl, rfl⟩
  have hr := congrArg KVCacheBlock.refCount hc
  have hh := congrArg KVCacheBlock.hash hc
  exact ⟨hr.trans hi.1, hh.trans hi.2⟩

@[simp] theorem refs_new (i : ℕ) : (new n).refs i = 0 := (new_fresh i).1

@[simp] theorem hashOf_new (i : ℕ) : (new n).hashOf i = none := (new_fresh i).2

@[simp] theorem listed_new (h : BlockHash) : (new n).listed h = [] := by
  simp [listed, new]

theorem Rep.new (hn : 0 < n) (hle : n ≤ 2 ^ 32) :
    Rep n (BlockPool.new n) (List.range' 1 (n - 1)) where
  pos := hn
  length_eq := new_length hn
  sig_eq i hi := by
    have h := congrArg KVCacheBlock.sig (new_core i hi)
    have hu : asU32 i = i := asU32_of_lt (by omega)
    rw [hu] at h
    exact h
  null_refs := refs_new 0
  queue := by
    have h := queueRep_pushAll (s := ({}, initBlocks n)) (List.range' 1 (n - 1))
      (QueueRep.empty (initBlocks n)) (by simpa using List.nodup_range' 1) fun i hi => by
        rw [List.mem_range'_1] at hi
        rw [initBlocks_length hn]
        omega
    exact h
  mem_iff i := by
    rw [List.mem_range'_1, refs_new]
    omega
  total := by
    rw [List.length_range']
    change 0 + (n - 1) + 1 = n
    omega
  listed_lt h b hb := by simp at hb

theorem exists_rep_new (hle : n ≤ 2 ^ 32) : ∃ l, Rep (max n 1) (BlockPool.new n) l := by
  rcases Nat.eq_zero_or_pos n with rfl | hpos
  · exact ⟨_, Rep.new Nat.one_pos (by omega)⟩
  · rw [max_eq_left hpos]
    exact ⟨_, Rep.new hpos hle⟩

/-! ## Runs -/

theorem Rep.run (h : Rep n p l) {op : PoolOp} (hop : op.InRange n) : ∃ l', Rep n (op.run p) l' := by
  cases op with
  | allocate =>
    simp only [PoolOp.run]
    cases ha : p.allocate with
    | none => exact ⟨l, h⟩
    | some r => exact ⟨_, (h.allocate_some ha).2.2⟩
  | free b => exact ⟨_, (h.free_spec hop).2.2.2⟩
  | incref b => exact ⟨l, h.incref_rep hop⟩
  | copyOnWrite b =>
    simp only [PoolOp.run]
    cases hc : p.copyOnWrite b with
    | none => exact ⟨l, h⟩
    | some r => exact h.copyOnWrite_rep hc
  | touch b => exact ⟨_, (h.touch_spec hop).2.2.2⟩
  | getCachedBlock hash =>
    simp only [PoolOp.run]
    cases hc : p.getCachedBlock hash with
    | none => exact ⟨l, h⟩
    | some r => exact ⟨_, (h.getCachedBlock_some hc).2.2.2.2⟩
  | cacheBlock b hash =>
    by_cases hr : p.refs b = 0
    · exact ⟨l, by rw [PoolOp.run, cacheBlock_free hash hr]; exact h⟩
    · exact ⟨l, (h.cacheBlock_spec hop hash (Nat.pos_of_ne_zero hr)).2.2.2⟩
  | resetPrefixCache =>
    simp only [PoolOp.run]
    cases hr : p.resetPrefixCache with
    | error e => exact ⟨l, h⟩
    | ok q =>
      rw [resetPrefixCache_ok hr]
      exact ⟨l, h.clearHashes⟩

theorem Rep.runAll (h : Rep n p l) {ops : List PoolOp} (hops : ∀ op ∈ ops, op.InRange n) :
    ∃ l', Rep n (ops.foldl PoolOp.run p) l' := by
  induction ops generalizing p l with
  | nil => exact ⟨l, h⟩
  | cons op ops ih =>
    obtain ⟨l', h'⟩ := h.run (hops op (by simp))
    exact ih h' fun op' hop' => hops op' (List.mem_cons_of_mem _ hop')

theorem rep_runOps (hn : 1 ≤ n) (hle : n ≤ 2 ^ 32) {ops : List PoolOp}
    (hops : ∀ op ∈ ops, op.InRange n) : ∃ l, Rep n (runOps n ops) l :=
  (Rep.new hn hle).runAll hops

theorem Rep.numActive_eq (h : Rep n p l) :
    p.numActive = p.blocks.countP fun b => 0 < b.refCount := by
  have hperm : l.Perm ((List.range' 1 (n - 1)).filter fun i => p.refs i = 0) := by
    rw [List.perm_ext_iff_of_nodup h.queue.linked.nodup ((List.nodup_range' 1).filter _)]
    intro i
    rw [h.mem_iff, List.mem_filter, List.mem_range'_1]
    simp only [decide_eq_true_iff]
    have := h.pos
    omega
  have hblocks : p.blocks = (List.range n).map p.block := by
    refine List.ext_getElem (by simp [h.length_eq]) fun i h₁ h₂ => ?_
    simp [block, blockAt, h₁]
  have hrange : List.range n = 0 :: List.range' 1 (n - 1) := by
    rw [List.range_eq_range', ← Nat.sub_add_cancel h.pos]
    rfl
  have hnull : ¬ 0 < p.refs 0 := by rw [h.null_refs]; exact lt_irrefl 0
  have hcount : p.blocks.countP (fun b => 0 < b.refCount) =
      (List.range' 1 (n - 1)).countP fun i => !decide (p.refs i = 0) := by
    rw [hblocks, List.countP_map, hrange, List.countP_cons_of_neg (by simpa [refs] using hnull)]
    refine List.countP_congr fun i _ => ?_
    rw [Function.comp_apply, Bool.not_eq_true', decide_eq_true_iff, decide_eq_false_iff_not]
    exact Nat.pos_iff_ne_zero
  have hsplit := List.length_eq_countP_add_countP (l := List.range' 1 (n - 1))
    (fun i => decide (p.refs i = 0))
  have hl := hperm.length_eq
  rw [← List.countP_eq_length_filter] at hl
  have ht := h.total
  rw [hcount, numActive]
  simp only [List.length_range', decide_eq_true_iff, decide_not] at hsplit ⊢
  have := h.pos
  omega

/-! ## A pool whose indices wrap -/

theorem pushAll_append (is js : List ℕ) (s : FreeBlockQueue × List KVCacheBlock) :
    pushAll (is ++ js) s = pushAll js (pushAll is s) :=
  List.foldl_append

theorem pushAll_singleton (i : ℕ) (s : FreeBlockQueue × List KVCacheBlock) :
    pushAll [i] s = s.1.pushBack s.2 (asU32 i) :=
  rfl

theorem pushAll_len (is : List ℕ) (s : FreeBlockQueue × List KVCacheBlock) :
    (pushAll is s).1.len = s.1.len + is.length := by
  induction is generalizing s with
  | nil => rfl
  | cons i is ih =>
    rw [List.length_cons, Nat.add_comm is.length, ← Nat.add_assoc,
      ← (s.1.pushBack_ends s.2 (asU32 i)).2.2]
    exact ih _

theorem pushAll_head (is : List ℕ) {s : FreeBlockQueue × List KVCacheBlock}
    (ht : s.1.tail.isSome) :
    (pushAll is s).1.head = s.1.head ∧ (pushAll is s).1.tail.isSome := by
  induction is generalizing s with
  | nil => exact ⟨rfl, ht⟩
  | cons i is ih =>
    obtain ⟨htail, hhead, -⟩ := s.1.pushBack_ends s.2 (asU32 i)
    obtain ⟨hh, ht'⟩ := ih (s := s.1.pushBack s.2 (asU32 i)) (by rw [htail]; rfl)
    exact ⟨hh.trans (by rw [hhead, if_pos ht]), ht'⟩

theorem pushAll_again (is : List ℕ) {i j k : ℕ} (blocks : List KVCacheBlock)
    (hk : asU32 k = asU32 j) (hij : asU32 i ≠ asU32 j) (hi : asU32 i < blocks.length)
    (hj : asU32 j < blocks.length) :
    (pushAll (k :: (is ++ [i, j])) ({}, blocks)).1.head = some (asU32 j) ∧
      (blockAt (pushAll (k :: (is ++ [i, j])) ({}, blocks)).2 (asU32 j)).nextFree = none ∧
      (blockAt (pushAll (k :: (is ++ [i, j])) ({}, blocks)).2 (asU32 j)).prevFree =
        some (asU32 i) := by
  obtain ⟨s, hs⟩ : ∃ s, s = pushAll (k :: (is ++ [i])) ({}, blocks) := ⟨_, rfl⟩
  have heq : pushAll (k :: (is ++ [i, j])) ({}, blocks) = s.1.pushBack s.2 (asU32 j) := by
    rw [hs, ← pushAll_singleton, ← pushAll_append]
    simp
  have hlen : s.2.length = blocks.length := by rw [hs]; exact (pushAll_core _ _).1
  have htail : s.1.tail = some (asU32 i) := by
    rw [hs, ← List.cons_append, pushAll_append, pushAll_singleton]
    exact (FreeBlockQueue.pushBack_ends _ _ _).1
  have hhead : s.1.head = some (asU32 j) := by
    rw [hs, ← hk]
    exact (pushAll_head (is ++ [i]) (s := FreeBlockQueue.pushBack {} blocks (asU32 k)) rfl).1
  rw [heq]
  obtain ⟨-, hh, -⟩ := s.1.pushBack_ends s.2 (asU32 j)
  refine ⟨by rw [hh, htail]; exact hhead, ?_, ?_⟩
  · rw [FreeBlockQueue.pushBack_nextFree _ (hlen ▸ hj), if_neg (by rw [htail]; simpa using hij),
      if_pos rfl]
    intro b hb
    obtain rfl : asU32 i = b := Option.some.inj (htail.symm.trans hb)
    exact hlen ▸ hi
  · rw [FreeBlockQueue.pushBack_prevFree _ (hlen ▸ hj), if_pos rfl, htail]

theorem range'_wrap (k : ℕ) : List.range' 1 (k + 3) = 1 :: (List.range' 2 k ++ [k + 2, k + 3]) := by
  have hs : List.range' 2 (k + 2) = List.range' 2 k ++ List.range' (2 + k) 2 := by
    rw [List.range'_append_1]
  rw [List.range'_succ, show 1 + 1 = 2 from rfl, hs]
  have hk : 1 + (k + 2) = k + 3 := by omega
  simp [List.range'_succ, Nat.add_comm, hk]

theorem allocate_head (hh : p.freeQueue.head = some a) (hl : 0 < p.blocks.length)
    (hn : (p.block a).hash = none) : p.allocate = some ((p.unlink a).claim a) := by
  obtain ⟨k, hk⟩ := Nat.exists_eq_succ_of_ne_zero hl.ne'
  simp [allocate, popUncached, hh, hk, findAlong, hn]

theorem allocate_first (hh : p.freeQueue.head = some a) (hlt : a < p.blocks.length)
    (hid : (p.block a).id = a) (hn : (p.block a).hash = none) :
    ∃ p', p.allocate = some (a, p') ∧
      p'.block a = { id := a, refCount := 1, isNull := (p.block a).isNull } ∧
      p'.hashMap = p.hashMap ∧ p'.blocks.length = p.blocks.length ∧
      p'.freeQueue = (p.freeQueue.remove p.blocks a).1 := by
  have hlt' : a < (p.unlink a).blocks.length := by rwa [length_unlink]
  obtain ⟨hnext, hprev⟩ := FreeBlockQueue.remove_self (q := p.freeQueue) hlt
  have hunlinked : (p.unlink a).block a = (p.block a).core :=
    (KVCacheBlock.core_eq hnext hprev).symm.trans (unlink_core p a a)
  have hblock : ((p.unlink a).claim a).2.block a =
      { id := a, refCount := 1, isNull := (p.block a).isNull } := by
    refine (block_modifyBlock _ _ hlt').trans ((if_pos rfl).trans ?_)
    have hcore : (p.block a).core.id = a := hid
    rw [hunlinked, hcore]
    rfl
  have hclaim : ((p.unlink a).claim a).1 = a := congrArg KVCacheBlock.id hblock
  refine ⟨((p.unlink a).claim a).2, ?_, hblock, rfl, ?_, rfl⟩
  · rw [allocate_head hh (by omega) hn]
    exact congrArg some (Prod.ext hclaim rfl)
  · exact (length_modifyBlock _ _ _).trans (length_unlink _ _)

theorem cacheBlock_active (h : BlockHash) (hlt : a < p.blocks.length)
    (hr : (p.block a).refCount ≠ 0) (hn : (p.block a).isNull = false) :
    (p.cacheBlock a h).hashMap = p.hashMap.insert h ((p.hashMap.lookup h).getD [] ++ [a]) ∧
      (p.cacheBlock a h).block a = { p.block a with hash := some h } ∧
      (p.cacheBlock a h).blocks.length = p.blocks.length := by
  have he : p.cacheBlock a h = { p.modifyBlock a (fun b => { b with hash := some h }) with
      hashMap := p.hashMap.insert h ((p.hashMap.lookup h).getD [] ++ [a]) } := by
    simp [cacheBlock, hr, hn, modifyBlock]
  rw [he]
  exact ⟨rfl, (block_modifyBlock _ _ hlt).trans (if_pos rfl), length_modifyBlock _ _ _⟩

section Wrapped

-- `n` stays a variable: the pool's list of blocks is far too long to evaluate
variable (hn : n = 2 ^ 32 + 2)

include hn

theorem wrapped_links : (new n).freeQueue.head = some 1 ∧ ((new n).block 1).nextFree = none ∧
    ((new n).block 1).prevFree = some 0 := by
  have hl : (initBlocks n).length = n := initBlocks_length (by omega)
  have hi : asU32 (n - 4 + 2) = 0 := by simp only [asU32]; omega
  have hj : asU32 (n - 4 + 3) = 1 := by simp only [asU32]; omega
  have h := pushAll_again (List.range' 2 (n - 4)) (i := n - 4 + 2) (j := n - 4 + 3) (k := 1)
    (initBlocks n) (by rw [hj]; rfl) (by rw [hi, hj]; exact Nat.zero_ne_one)
    (by rw [hl, hi]; omega) (by rw [hl, hj]; omega)
  rw [hi, hj, ← range'_wrap, show n - 4 + 3 = n - 1 by omega] at h
  exact h

theorem wrapped_allocate : ∃ p₁, (new n).allocate = some (1, p₁) ∧
    p₁.block 1 = { id := 1, refCount := 1 } ∧ p₁.hashMap = ∅ ∧ p₁.blocks.length = n ∧
    p₁.freeQueue.head = some 1 ∧ p₁.freeQueue.len = n - 2 := by
  obtain ⟨hhead, -, hprev⟩ := wrapped_links hn
  have hcore := new_core (n := n) 1 (by omega)
  have hlen : (new n).blocks.length = n := new_length (by omega)
  obtain ⟨p₁, ha, hblock, hmap, hlen₁, hqueue⟩ := allocate_first hhead (by omega)
    (congrArg KVCacheBlock.id hcore) (congrArg KVCacheBlock.hash hcore)
  obtain ⟨hh, -, hl⟩ := FreeBlockQueue.remove_ends (new n).freeQueue (new n).blocks 1
  refine ⟨p₁, ha, ?_, hmap, hlen₁.trans hlen, ?_, ?_⟩
  · rw [hblock, show ((new n).block 1).isNull = false from congrArg KVCacheBlock.isNull hcore]
  · rw [hqueue, hh, show (blockAt (new n).blocks 1).prevFree = some 0 from hprev]
    exact hhead
  · have hcount := pushAll_len (List.range' 1 (n - 1)) ({}, initBlocks n)
    rw [List.length_range'] at hcount
    rw [hqueue, hl]
    refine (congrArg (· - 1) hcount).trans ?_
    change 0 + (n - 1) - 1 = n - 2
    omega

/-- It hands out block `1` a second time, and then has lost all the others. -/
theorem wrapped_allocate_twice : ∃ p₁ p₂, (new n).allocate = some (1, p₁) ∧
    p₁.allocate = some (1, p₂) ∧ p₂.hashMap = ∅ ∧ 1 < p₂.blocks.length ∧
    (p₂.block 1).refCount = 1 ∧ (p₂.block 1).isNull = false ∧
    p₂.freeQueue = ⟨none, none, n - 3⟩ := by
  obtain ⟨p₁, ha, hblock, hmap, hlen, hhead, hcount⟩ := wrapped_allocate hn
  obtain ⟨p₂, ha₂, hblock₂, hmap₂, hlen₂, hqueue⟩ := allocate_first hhead (by omega)
    (by rw [hblock]) (by rw [hblock])
  refine ⟨p₁, p₂, ha, ha₂, hmap₂.trans hmap, by omega, by rw [hblock₂], ?_, ?_⟩
  · rw [hblock₂, hblock]
  · obtain ⟨hh, ht, hl⟩ := FreeBlockQueue.remove_ends p₁.freeQueue p₁.blocks 1
    have hprev : (blockAt p₁.blocks 1).prevFree = none := congrArg KVCacheBlock.prevFree hblock
    have hnext : (blockAt p₁.blocks 1).nextFree = none := congrArg KVCacheBlock.nextFree hblock
    rw [hprev, hnext] at hh ht
    rw [hcount] at hl
    rw [hqueue]
    exact congr (congr (congrArg FreeBlockQueue.mk hh) ht) (hl.trans (by omega))

end Wrapped

end BlockPool

end Rllm
