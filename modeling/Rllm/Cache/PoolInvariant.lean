import Mathlib.Data.List.Perm.Subperm
import Rllm.Cache.FreeQueue

/-! # The representation invariant of the block pool

`Rep n p l` relates a pool of `n` blocks to the list `l` of its free blocks.
Each operation is specified by its effect on the reference counts, on the
hash of each block and on the blocks listed under each hash.
-/

namespace Rllm

open DoublyLinked

/-- What identifies a block: its id and whether it is the null block. -/
def KVCacheBlock.sig (b : KVCacheBlock) : BlockId × Bool := (b.id, b.isNull)

namespace BlockPool

/-- The reference count of a block. -/
def refs (p : BlockPool) (i : ℕ) : ℕ := (p.block i).refCount

/-- The hash a block carries. -/
def hashOf (p : BlockPool) (i : ℕ) : Option BlockHash := (p.block i).hash

/-- The blocks listed under a hash, oldest registration first. -/
def listed (p : BlockPool) (h : BlockHash) : List BlockId := (p.hashMap.lookup h).getD []

/-- `p` has `n` blocks, and `l` lists its free blocks from head to tail. -/
structure Rep (n : ℕ) (p : BlockPool) (l : List ℕ) : Prop where
  pos : 0 < n
  length_eq : p.blocks.length = n
  sig_eq : ∀ i < n, (p.block i).sig = (i, decide (i = 0))
  null_refs : p.refs 0 = 0
  queue : QueueRep p.freeQueue p.blocks l
  mem_iff : ∀ i, i ∈ l ↔ i < n ∧ i ≠ 0 ∧ p.refs i = 0
  total : p.numActiveBlocks + l.length + 1 = n
  listed_lt : ∀ h, ∀ b ∈ p.listed h, 0 < b ∧ b < n

/-! ## The primitive updates -/

section Primitive

variable (p : BlockPool) (a : ℕ)

@[simp] theorem unlink_core (j : ℕ) : ((p.unlink a).block j).core = (p.block j).core :=
  FreeBlockQueue.remove_core _ _ _ _

@[simp] theorem linkFront_core (j : ℕ) : ((p.linkFront a).block j).core = (p.block j).core :=
  FreeBlockQueue.pushFront_core _ _ _ _

@[simp] theorem refs_unlink : (p.unlink a).refs = p.refs := by
  funext j
  have h := congrArg KVCacheBlock.refCount (p.unlink_core a j)
  exact h

@[simp] theorem hashOf_unlink : (p.unlink a).hashOf = p.hashOf := by
  funext j
  have h := congrArg KVCacheBlock.hash (p.unlink_core a j)
  exact h

@[simp] theorem refs_linkFront : (p.linkFront a).refs = p.refs := by
  funext j
  have h := congrArg KVCacheBlock.refCount (p.linkFront_core a j)
  exact h

@[simp] theorem hashOf_linkFront : (p.linkFront a).hashOf = p.hashOf := by
  funext j
  have h := congrArg KVCacheBlock.hash (p.linkFront_core a j)
  exact h

@[simp] theorem listed_unlink : (p.unlink a).listed = p.listed := rfl
@[simp] theorem listed_linkFront : (p.linkFront a).listed = p.listed := rfl
@[simp] theorem listed_modifyBlock (f) : (p.modifyBlock a f).listed = p.listed := rfl

@[simp] theorem length_unlink : (p.unlink a).blocks.length = p.blocks.length :=
  FreeBlockQueue.length_remove _ _ _

@[simp] theorem length_linkFront : (p.linkFront a).blocks.length = p.blocks.length :=
  FreeBlockQueue.length_pushFront _ _ _

@[simp] theorem length_modifyBlock (f) : (p.modifyBlock a f).blocks.length = p.blocks.length :=
  List.length_modify _ _ _

variable {p a}

theorem block_modifyBlock (f : KVCacheBlock → KVCacheBlock) (j : ℕ) (ha : a < p.blocks.length) :
    (p.modifyBlock a f).block j = if a = j then f (p.block j) else p.block j :=
  blockAt_modify f j ha

theorem refs_modifyBlock (f : KVCacheBlock → KVCacheBlock) (j : ℕ) (ha : a < p.blocks.length) :
    (p.modifyBlock a f).refs j = if a = j then (f (p.block j)).refCount else p.refs j := by
  rw [refs, block_modifyBlock f j ha]; split <;> rfl

theorem hashOf_modifyBlock (f : KVCacheBlock → KVCacheBlock) (j : ℕ) (ha : a < p.blocks.length) :
    (p.modifyBlock a f).hashOf j = if a = j then (f (p.block j)).hash else p.hashOf j := by
  rw [hashOf, block_modifyBlock f j ha]; split <;> rfl

theorem queueRep_modifyBlock {f : KVCacheBlock → KVCacheBlock} {l : List ℕ}
    (h : QueueRep p.freeQueue p.blocks l) (hn : ∀ b, (f b).nextFree = b.nextFree)
    (hp : ∀ b, (f b).prevFree = b.prevFree) :
    QueueRep (p.modifyBlock a f).freeQueue (p.modifyBlock a f).blocks l where
  linked := h.linked.congr (fun _ _ => nextFree_modify hn _ _) fun _ _ => prevFree_modify hp _ _
  lt_length i hi := by rw [length_modifyBlock]; exact h.lt_length i hi
  len_eq := h.len_eq

theorem queueRep_unlink {l : List ℕ} (h : QueueRep p.freeQueue p.blocks l) (ha : a ∈ l) :
    QueueRep (p.unlink a).freeQueue (p.unlink a).blocks (l.erase a) :=
  h.remove ha

theorem queueRep_linkFront {l : List ℕ} (h : QueueRep p.freeQueue p.blocks l) (ha : a ∉ l)
    (hr : a < p.blocks.length) :
    QueueRep (p.linkFront a).freeQueue (p.linkFront a).blocks (a :: l) :=
  h.pushFront ha hr

theorem listed_removeHashEntry (h h' : BlockHash) (b : BlockId) :
    (p.removeHashEntry h b).listed h' =
      if h' = h then (p.listed h').filter (· ≠ b) else p.listed h' := by
  unfold removeHashEntry
  split
  · rename_i ids hids
    simp only [listed]
    split
    · rename_i he
      by_cases hh : h' = h
      · subst hh
        simpa [AList.lookup_erase, hids] using he
      · simp [AList.lookup_erase_ne hh, hh]
    · by_cases hh : h' = h
      · subst hh
        simp [AList.lookup_insert, hids]
      · simp [AList.lookup_insert_ne hh, hh]
  · rename_i hids
    by_cases hh : h' = h
    · subst hh
      simp [listed, hids]
    · simp [hh]

@[simp] theorem removeHashEntry_blocks (h : BlockHash) (b : BlockId) :
    (p.removeHashEntry h b).blocks = p.blocks := by
  unfold removeHashEntry
  split
  · dsimp only; split <;> rfl
  · rfl

@[simp] theorem removeHashEntry_freeQueue (h : BlockHash) (b : BlockId) :
    (p.removeHashEntry h b).freeQueue = p.freeQueue := by
  unfold removeHashEntry
  split
  · dsimp only; split <;> rfl
  · rfl

@[simp] theorem removeHashEntry_numActiveBlocks (h : BlockHash) (b : BlockId) :
    (p.removeHashEntry h b).numActiveBlocks = p.numActiveBlocks := by
  unfold removeHashEntry
  split
  · dsimp only; split <;> rfl
  · rfl

/-- The blocks of `p'` are those of `p`, up to reference counts, hashes and links. -/
def SameBlocks (p p' : BlockPool) : Prop :=
  p'.blocks.length = p.blocks.length ∧ ∀ i, (p'.block i).sig = (p.block i).sig

theorem SameBlocks.trans {p₁ p₂ p₃ : BlockPool} (h : SameBlocks p₁ p₂) (h' : SameBlocks p₂ p₃) :
    SameBlocks p₁ p₃ :=
  ⟨h'.1.trans h.1, fun i => (h'.2 i).trans (h.2 i)⟩

theorem sameBlocks_unlink : SameBlocks p (p.unlink a) := by
  refine ⟨p.length_unlink a, fun i => ?_⟩
  have h := congrArg KVCacheBlock.sig (p.unlink_core a i)
  exact h

theorem sameBlocks_linkFront : SameBlocks p (p.linkFront a) := by
  refine ⟨p.length_linkFront a, fun i => ?_⟩
  have h := congrArg KVCacheBlock.sig (p.linkFront_core a i)
  exact h

theorem sameBlocks_modifyBlock {f : KVCacheBlock → KVCacheBlock} (hf : ∀ b, (f b).sig = b.sig) :
    SameBlocks p (p.modifyBlock a f) := by
  refine ⟨p.length_modifyBlock a f, fun i => ?_⟩
  simp only [block, blockAt, modifyBlock, List.getD_eq_getElem?_getD, List.getElem?_modify]
  by_cases hi : a = i
  · subst hi
    cases p.blocks[a]? <;> simp [hf]
  · simp [hi]

end Primitive

/-! ## Preservation -/

section Preservation

variable {n : ℕ} {p p' : BlockPool} {l l' : List ℕ} {a b : ℕ}

theorem Rep.of_sameBlocks (h : Rep n p l) (hs : SameBlocks p p') (hz : p'.refs 0 = 0)
    (hq : QueueRep p'.freeQueue p'.blocks l')
    (hm : ∀ i, i ∈ l' ↔ i < n ∧ i ≠ 0 ∧ p'.refs i = 0)
    (ht : p'.numActiveBlocks + l'.length + 1 = n)
    (hl : ∀ h, ∀ b ∈ p'.listed h, 0 < b ∧ b < n) : Rep n p' l' where
  pos := h.pos
  length_eq := hs.1.trans h.length_eq
  sig_eq i hi := (hs.2 i).trans (h.sig_eq i hi)
  null_refs := hz
  queue := hq
  mem_iff := hm
  total := ht
  listed_lt := hl

theorem Rep.id_eq (h : Rep n p l) (ha : a < n) : (p.block a).id = a :=
  congrArg Prod.fst (h.sig_eq a ha)

theorem Rep.isNull_eq (h : Rep n p l) (ha : a < n) : (p.block a).isNull = decide (a = 0) :=
  congrArg Prod.snd (h.sig_eq a ha)

theorem Rep.length_le (h : Rep n p l) : l.length ≤ p.blocks.length := by
  have := h.total
  have := h.length_eq
  omega

theorem Rep.lt_length (h : Rep n p l) (ha : a < n) : a < p.blocks.length := h.length_eq ▸ ha

theorem Rep.mem_free (h : Rep n p l) (ha : a ∈ l) : a < n ∧ a ≠ 0 ∧ p.refs a = 0 :=
  (h.mem_iff a).mp ha

theorem Rep.activate (h : Rep n p l) (ha : a ∈ l) (hs : SameBlocks p p')
    (hq : QueueRep p'.freeQueue p'.blocks (l.erase a)) {k : ℕ} (hk : 0 < k)
    (hr : ∀ i, p'.refs i = if i = a then k else p.refs i)
    (hn : p'.numActiveBlocks = p.numActiveBlocks + 1)
    (hl : ∀ h, ∀ b ∈ p'.listed h, 0 < b ∧ b < n) : Rep n p' (l.erase a) := by
  obtain ⟨han, ha0, -⟩ := h.mem_free ha
  refine h.of_sameBlocks hs ?_ hq ?_ ?_ hl
  · rw [hr, if_neg (Ne.symm ha0)]
    exact h.null_refs
  · intro i
    rw [h.queue.linked.nodup.mem_erase_iff, h.mem_iff, hr]
    by_cases hi : i = a
    · simp [hi]; omega
    · simp [hi]
  · have ht := h.total
    have hp := List.length_pos_of_mem ha
    rw [hn, List.length_erase_of_mem ha]
    omega

theorem Rep.ne_null (h : Rep n p l) (hpos : 0 < p.refs a) : a ≠ 0 := by
  rintro rfl
  exact hpos.ne' h.null_refs

/-- Not all blocks are free while one has references. -/
theorem Rep.numActive_pos (h : Rep n p l) (ha : a < n) (hpos : 0 < p.refs a) :
    0 < p.numActiveBlocks := by
  have ht := h.total
  by_contra hc
  have hnl : a ∉ l := fun hm => hpos.ne' (h.mem_free hm).2.2
  have hsub : a :: l ⊆ List.range' 1 (n - 1) := by
    intro i hi
    rw [List.mem_range'_1]
    rcases List.mem_cons.mp hi with rfl | hi
    · have := h.ne_null hpos
      omega
    · have := h.mem_free hi
      omega
  have hnd : (a :: l).Nodup := List.nodup_cons.mpr ⟨hnl, h.queue.linked.nodup⟩
  have hlen := (List.subperm_of_subset hnd hsub).length_le
  rw [List.length_cons, List.length_range'] at hlen
  omega

/-- An active block may get another number of references. -/
theorem Rep.recount (h : Rep n p l) (hpos : 0 < p.refs a) (hs : SameBlocks p p')
    (hq : QueueRep p'.freeQueue p'.blocks l) {k : ℕ} (hk : 0 < k)
    (hr : ∀ i, p'.refs i = if i = a then k else p.refs i)
    (hn : p'.numActiveBlocks = p.numActiveBlocks)
    (hl : ∀ h, ∀ b ∈ p'.listed h, 0 < b ∧ b < n) : Rep n p' l := by
  apply h.of_sameBlocks hs _ hq _ (hn ▸ h.total) hl
  · rw [hr, if_neg (h.ne_null hpos).symm, h.null_refs]
  · intro i
    rw [hr, h.mem_iff]
    by_cases hi : i = a
    · subst hi
      simp [hk.ne', hpos.ne']
    · simp [hi]

/-- A block without references goes to the front of the queue. -/
theorem Rep.release (h : Rep n p l) (ha : a < n) (hpos : 0 < p.refs a) (hs : SameBlocks p p')
    (hq : QueueRep p'.freeQueue p'.blocks (a :: l))
    (hr : ∀ i, p'.refs i = if i = a then 0 else p.refs i)
    (hn : p'.numActiveBlocks = p.numActiveBlocks - 1)
    (hl : ∀ h, ∀ b ∈ p'.listed h, 0 < b ∧ b < n) : Rep n p' (a :: l) := by
  have ha0 := h.ne_null hpos
  apply h.of_sameBlocks hs _ hq _ _ hl
  · rw [hr, if_neg ha0.symm, h.null_refs]
  · intro i
    rw [hr, List.mem_cons, h.mem_iff]
    by_cases hi : i = a
    · subst hi
      simp [ha, ha0]
    · simp [hi]
  · have ht := h.total
    have hactive := h.numActive_pos ha hpos
    rw [hn, List.length_cons]
    omega

/-- Only the number of references of one block changes. -/
theorem refs_recount (f : ℕ → ℕ) (ha : a < p.blocks.length) (i : ℕ) :
    (p.modifyBlock a fun c => { c with refCount := f c.refCount }).refs i =
      if i = a then f (p.refs a) else p.refs i := by
  rw [refs_modifyBlock _ _ ha]
  by_cases hi : a = i
  · subst hi
    simp [refs]
  · simp [hi, Ne.symm hi]

theorem hashOf_recount (f : ℕ → ℕ) (ha : a < p.blocks.length) :
    (p.modifyBlock a fun c => { c with refCount := f c.refCount }).hashOf = p.hashOf := by
  ext1 i
  rw [hashOf_modifyBlock _ _ ha]
  split <;> rfl

theorem Rep.find_forward (h : Rep n p l) (pr : ℕ → Bool) :
    findAlong (fun i => (p.block i).nextFree) pr p.blocks.length p.freeQueue.head = l.find? pr :=
  h.queue.linked.forward.findAlong_eq _ h.length_le

theorem Rep.find_backward (h : Rep n p l) (pr : ℕ → Bool) :
    findAlong (fun i => (p.block i).prevFree) pr p.blocks.length p.freeQueue.tail =
      l.reverse.find? pr :=
  h.queue.linked.backward.findAlong_eq _ (by simpa using h.length_le)

/-- Block `a` has left the free queue, and the hash map if it was cached. -/
structure Detached (p : BlockPool) (a : ℕ) (l : List ℕ) (q : BlockPool) : Prop where
  mem : a ∈ l
  same : SameBlocks p q
  queue : QueueRep q.freeQueue q.blocks (l.erase a)
  refs_eq : q.refs = p.refs
  hashOf_eq : ∀ i ≠ a, q.hashOf i = p.hashOf i
  active_eq : q.numActiveBlocks = p.numActiveBlocks
  listed_eq : ∀ h, q.listed h =
    if p.hashOf a = some h then (p.listed h).filter (· ≠ a) else p.listed h

theorem Rep.popUncached_some (h : Rep n p l) {q : BlockPool} (hr : p.popUncached = some (a, q)) :
    Detached p a l q ∧ p.hashOf a = none := by
  unfold popUncached at hr
  rw [h.find_forward] at hr
  split at hr
  · rename_i idx hf
    obtain ⟨rfl, rfl⟩ := Prod.mk.inj (Option.some.inj hr)
    have hm := List.mem_of_find?_eq_some hf
    have hn : (p.block idx).hash = none := by simpa using List.find?_some hf
    change p.hashOf idx = none at hn
    exact ⟨⟨hm, sameBlocks_unlink, h.queue.remove hm, by simp, by simp, rfl, by simp [hn]⟩, hn⟩
  · cases hr

theorem Rep.popUncached_none (h : Rep n p l) (hr : p.popUncached = none) :
    ∀ i ∈ l, (p.hashOf i).isSome := by
  unfold popUncached at hr
  rw [h.find_forward] at hr
  split at hr
  · cases hr
  · rename_i hf
    simpa [hashOf, Option.isSome_iff_ne_none] using hf

theorem Rep.evictLru_some (h : Rep n p l) {q : BlockPool} (hr : p.evictLru = some (a, q)) :
    Detached p a l q := by
  unfold evictLru at hr
  rw [h.find_backward] at hr
  split at hr
  · rename_i idx hf
    have hm : idx ∈ l := by simpa using List.mem_of_find?_eq_some hf
    have hlt : idx < (p.unlink idx).blocks.length := by
      simpa using h.lt_length (h.mem_free hm).1
    dsimp only at hr
    split at hr
    · rename_i hash hh
      obtain ⟨rfl, rfl⟩ := Prod.mk.inj (Option.some.inj hr)
      have hs : SameBlocks p ((p.unlink idx).modifyBlock idx fun b => { b with hash := none }) :=
        sameBlocks_unlink.trans (sameBlocks_modifyBlock fun _ => rfl)
      have hid : (((p.unlink idx).modifyBlock idx fun b => { b with hash := none }).block idx).id =
          idx := (congrArg Prod.fst (hs.2 idx)).trans (h.id_eq (h.mem_free hm).1)
      have hh' : p.hashOf idx = some hash := by
        rw [← hashOf_unlink p idx]; exact hh
      refine ⟨hm, ⟨by simp, fun i => ?_⟩, ?_, ?_, ?_, by simp; rfl, ?_⟩
      · simpa [block] using hs.2 i
      · simpa using queueRep_modifyBlock (a := idx) (f := fun b => { b with hash := none })
          (queueRep_unlink h.queue hm) (fun _ => rfl) (fun _ => rfl)
      · funext i
        have hr : ((p.unlink idx).modifyBlock idx fun b => { b with hash := none }).refs i =
            p.refs i := by
          rw [refs_modifyBlock _ _ hlt]
          split <;> exact congrFun (refs_unlink p idx) i
        simpa [refs, block] using hr
      · intro i hi
        have hr : ((p.unlink idx).modifyBlock idx fun b => { b with hash := none }).hashOf i =
            p.hashOf i := by
          rw [hashOf_modifyBlock _ _ hlt, if_neg (Ne.symm hi), hashOf_unlink]
        simpa [hashOf, block] using hr
      · intro hash'
        rw [listed_removeHashEntry, hid, hh']
        simp [eq_comm]
    · cases hr
  · cases hr

theorem Rep.evictLru_none (h : Rep n p l) (hr : p.evictLru = none) :
    ∀ i ∈ l, p.hashOf i = none := by
  unfold evictLru at hr
  rw [h.find_backward] at hr
  split at hr
  · rename_i idx hf
    dsimp only at hr
    split at hr
    · cases hr
    · rename_i hn
      have hs : (p.block idx).hash.isSome := by simpa using List.find?_some hf
      change (p.hashOf idx).isSome at hs
      rw [← hashOf_unlink p idx, hashOf, hn] at hs
      cases hs
  · rename_i hf
    simpa [hashOf] using hf

/-- What handing out block `b` does: it gets one reference and loses its hash. -/
structure Allocated (p : BlockPool) (b : BlockId) (p' : BlockPool) : Prop where
  refs_eq : ∀ i, p'.refs i = if i = b then 1 else p.refs i
  hashOf_eq : ∀ i, p'.hashOf i = if i = b then none else p.hashOf i
  listed_eq : ∀ h, p'.listed h =
    if p.hashOf b = some h then (p.listed h).filter (· ≠ b) else p.listed h

theorem Rep.claim (h : Rep n p l) {q : BlockPool} (hd : Detached p a l q) :
    (q.claim a).1 = a ∧ Allocated p a (q.claim a).2 ∧ Rep n (q.claim a).2 (l.erase a) := by
  have hlt : a < q.blocks.length := by
    rw [hd.same.1]; exact h.lt_length (h.mem_free hd.mem).1
  have hs : SameBlocks p (q.modifyBlock a fun b => { b with refCount := 1, hash := none }) :=
    hd.same.trans (sameBlocks_modifyBlock fun _ => rfl)
  have hr : ∀ i, (q.claim a).2.refs i = if i = a then 1 else p.refs i := by
    intro i
    refine (refs_modifyBlock _ i hlt).trans ?_
    rw [hd.refs_eq]
    by_cases hi : a = i
    · simp [hi]
    · simp [hi, Ne.symm hi]
  refine ⟨(congrArg Prod.fst (hs.2 a)).trans (h.id_eq (h.mem_free hd.mem).1),
    ⟨hr, ?_, hd.listed_eq⟩, h.activate hd.mem hs ?_ Nat.one_pos hr ?_ ?_⟩
  · intro i
    refine (hashOf_modifyBlock _ i hlt).trans ?_
    by_cases hi : a = i
    · simp [hi]
    · simp [hi, Ne.symm hi, hd.hashOf_eq i (Ne.symm hi)]
  · exact queueRep_modifyBlock hd.queue (fun _ => rfl) (fun _ => rfl)
  · exact congrArg (· + 1) hd.active_eq
  · intro hash b hb
    have hb' : b ∈ q.listed hash := hb
    rw [hd.listed_eq] at hb'
    split at hb'
    · exact h.listed_lt hash b (List.mem_of_mem_filter hb')
    · exact h.listed_lt hash b hb'

theorem Rep.allocate_some (h : Rep n p l) (ha : p.allocate = some (b, p')) :
    b ∈ l ∧ Allocated p b p' ∧ Rep n p' (l.erase b) := by
  unfold allocate at ha
  split at ha
  · rename_i idx q hq
    have hd : Detached p idx l q := by
      rcases Option.or_eq_some_iff.mp hq with hu | ⟨-, he⟩
      · exact (h.popUncached_some hu).1
      · exact h.evictLru_some he
    obtain ⟨hi, hal, hrep⟩ := h.claim hd
    rw [Option.some.inj ha] at hi hal hrep
    obtain rfl : b = idx := hi
    exact ⟨hd.mem, hal, hrep⟩
  · cases ha

theorem Rep.allocate_none (h : Rep n p l) (ha : p.allocate = none) : l = [] := by
  unfold allocate at ha
  split at ha
  · cases ha
  · rename_i hq
    obtain ⟨hu, he⟩ := Option.or_eq_none_iff.mp hq
    refine List.eq_nil_iff_forall_not_mem.mpr fun i hi => ?_
    have hs := h.popUncached_none hu i hi
    rw [h.evictLru_none he i hi] at hs
    cases hs

end Preservation

end BlockPool

end Rllm
