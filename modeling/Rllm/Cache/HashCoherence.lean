import Rllm.Cache.PoolRuns

/-! # The two sides of the prefix cache

The pool stores which block has which hash twice: in the blocks and in the
hash map. The two agree as long as no block that already has a hash is
registered again: `cacheBlock` keeps the entry of the old hash.
-/

namespace Rllm

open DoublyLinked

/-- All indices that the queue stores are below `N`. -/
structure Wired (N : ℕ) (q : FreeBlockQueue) (blocks : List KVCacheBlock) : Prop where
  le_length : N ≤ blocks.length
  head_lt : ∀ i, q.head = some i → i < N
  tail_lt : ∀ i, q.tail = some i → i < N
  next_lt : ∀ i j, (blockAt blocks i).nextFree = some j → j < N
  prev_lt : ∀ i j, (blockAt blocks i).prevFree = some j → j < N

namespace Wired

variable {N a : ℕ} {q : FreeBlockQueue} {blocks : List KVCacheBlock}

theorem modify (h : Wired N q blocks) {f : KVCacheBlock → KVCacheBlock}
    (hn : ∀ b, (f b).nextFree = b.nextFree) (hp : ∀ b, (f b).prevFree = b.prevFree) :
    Wired N q (blocks.modify a f) where
  le_length := by simpa using h.le_length
  head_lt := h.head_lt
  tail_lt := h.tail_lt
  next_lt i j hj := h.next_lt i j (by rwa [nextFree_modify hn] at hj)
  prev_lt i j hj := h.prev_lt i j (by rwa [prevFree_modify hp] at hj)

theorem pushFront (h : Wired N q blocks) (ha : a < N) :
    Wired N (q.pushFront blocks a).1 (q.pushFront blocks a).2 := by
  have hlt := ha.trans_le h.le_length
  obtain ⟨hhead, htail, -⟩ := q.pushFront_ends blocks a
  constructor
  · simpa using h.le_length
  · rintro i hi
    rw [hhead] at hi
    exact Option.some.inj hi ▸ ha
  · rintro i hi
    rw [htail] at hi
    split at hi
    · exact h.tail_lt i hi
    · exact Option.some.inj hi ▸ ha
  · rintro i j hj
    rw [FreeBlockQueue.pushFront_nextFree i hlt] at hj
    split at hj
    · exact h.head_lt j hj
    · exact h.next_lt i j hj
  · rintro i j hj
    rw [FreeBlockQueue.pushFront_prevFree i hlt
      fun b hb => (h.head_lt b hb).trans_le h.le_length] at hj
    split at hj
    · exact Option.some.inj hj ▸ ha
    · split at hj
      · cases hj
      · exact h.prev_lt i j hj

theorem pushBack (h : Wired N q blocks) (ha : a < N) :
    Wired N (q.pushBack blocks a).1 (q.pushBack blocks a).2 := by
  have hlt := ha.trans_le h.le_length
  obtain ⟨htail, hhead, -⟩ := q.pushBack_ends blocks a
  constructor
  · simpa using h.le_length
  · rintro i hi
    rw [hhead] at hi
    split at hi
    · exact h.head_lt i hi
    · exact Option.some.inj hi ▸ ha
  · rintro i hi
    rw [htail] at hi
    exact Option.some.inj hi ▸ ha
  · rintro i j hj
    rw [FreeBlockQueue.pushBack_nextFree i hlt
      fun b hb => (h.tail_lt b hb).trans_le h.le_length] at hj
    split at hj
    · exact Option.some.inj hj ▸ ha
    · split at hj
      · cases hj
      · exact h.next_lt i j hj
  · rintro i j hj
    rw [FreeBlockQueue.pushBack_prevFree i hlt] at hj
    split at hj
    · exact h.tail_lt j hj
    · exact h.prev_lt i j hj

theorem remove (h : Wired N q blocks) (ha : a < N) :
    Wired N (q.remove blocks a).1 (q.remove blocks a).2 := by
  have hlt := ha.trans_le h.le_length
  obtain ⟨hhead, htail, -⟩ := q.remove_ends blocks a
  constructor
  · simpa using h.le_length
  · rintro i hi
    rw [hhead] at hi
    split at hi
    · exact h.head_lt i hi
    · exact h.next_lt a i hi
  · rintro i hi
    rw [htail] at hi
    split at hi
    · exact h.tail_lt i hi
    · exact h.prev_lt a i hi
  · rintro i j hj
    by_cases hai : a = i
    · subst hai
      rw [(FreeBlockQueue.remove_self hlt).1] at hj
      cases hj
    · rw [FreeBlockQueue.remove_nextFree i hlt hai
        fun b hb => (h.prev_lt a b hb).trans_le h.le_length] at hj
      split at hj
      · exact h.next_lt a j hj
      · exact h.next_lt i j hj
  · rintro i j hj
    by_cases hai : a = i
    · subst hai
      rw [(FreeBlockQueue.remove_self hlt).2] at hj
      cases hj
    · rw [FreeBlockQueue.remove_prevFree i hlt hai
        fun b hb => (h.next_lt a b hb).trans_le h.le_length] at hj
      split at hj
      · exact h.prev_lt a j hj
      · exact h.prev_lt i j hj

end Wired

namespace BlockPool

variable {n N a : ℕ} {p p' : BlockPool} {b : BlockId}

/-- What the hash map rests on: the stored indices are below `N`, where a block's id is its
index. -/
structure Indexed (N : ℕ) (p : BlockPool) : Prop where
  wired : Wired N p.freeQueue p.blocks
  sig_eq : ∀ i < N, (p.block i).id = i
  listed_lt : ∀ h, ∀ b ∈ p.listed h, b < N

/-- The number of blocks that an index of type `u32` reaches. -/
def reach (n : ℕ) : ℕ := min (max n 1) (2 ^ 32)

theorem Indexed.lt_length (h : Indexed N p) (ha : a < N) : a < p.blocks.length :=
  ha.trans_le h.wired.le_length

theorem Indexed.of_sameBlocks (h : Indexed N p) (hs : SameBlocks p p')
    (hw : Wired N p'.freeQueue p'.blocks) (hl : p'.listed = p.listed) : Indexed N p' where
  wired := hw
  sig_eq i hi := (congrArg Prod.fst (hs.2 i)).trans (h.sig_eq i hi)
  listed_lt := by
    rw [hl]
    exact h.listed_lt

theorem Indexed.unlink (h : Indexed N p) (ha : a < N) : Indexed N (p.unlink a) :=
  h.of_sameBlocks sameBlocks_unlink (h.wired.remove ha) rfl

theorem Indexed.linkFront (h : Indexed N p) (ha : a < N) : Indexed N (p.linkFront a) :=
  h.of_sameBlocks sameBlocks_linkFront (h.wired.pushFront ha) rfl

theorem Indexed.modifyBlock (h : Indexed N p) {f : KVCacheBlock → KVCacheBlock}
    (hs : ∀ b, (f b).sig = b.sig) (hn : ∀ b, (f b).nextFree = b.nextFree)
    (hp : ∀ b, (f b).prevFree = b.prevFree) : Indexed N (p.modifyBlock a f) :=
  h.of_sameBlocks (sameBlocks_modifyBlock hs) (h.wired.modify hn hp) rfl

theorem Indexed.setActive (h : Indexed N p) (k : ℕ) :
    Indexed N { p with numActiveBlocks := k } :=
  ⟨h.wired, h.sig_eq, h.listed_lt⟩

theorem wired_pushAll {is : List ℕ} {s : FreeBlockQueue × List KVCacheBlock}
    (h : Wired N s.1 s.2) (his : ∀ i ∈ is, asU32 i < N) :
    Wired N (pushAll is s).1 (pushAll is s).2 := by
  induction is generalizing s with
  | nil => exact h
  | cons i is ih =>
    have hpush := h.pushBack (his i (by simp))
    exact ih hpush fun j hj => his j (List.mem_cons_of_mem _ hj)

theorem Indexed.new (n : ℕ) : Indexed (reach n) (new n) := by
  have hlen : (initBlocks n).length = max n 1 := by
    simp [initBlocks]
    omega
  have hcore : ∀ i < max n 1, (blockAt (initBlocks n) i).id = asU32 i := by
    rintro i hi
    by_cases hin : i < n
    · rw [blockAt_initBlocks i hin]
    · obtain rfl : i = 0 := by omega
      rfl
  have hfree : ∀ i, (blockAt (initBlocks n) i).nextFree = none ∧
      (blockAt (initBlocks n) i).prevFree = none := by
    rintro (_ | i)
    · exact ⟨rfl, rfl⟩
    · simp only [blockAt, initBlocks, List.getD_eq_getElem?_getD, List.getElem?_cons_succ,
        List.getElem?_map]
      cases (List.range' 1 (n - 1))[i]? <;> exact ⟨rfl, rfl⟩
  constructor
  · refine wired_pushAll (s := ({}, initBlocks n)) ⟨?_, ?_, ?_, ?_, ?_⟩ fun i hi => ?_
    · rw [hlen]
      exact min_le_left _ _
    · rintro i ⟨⟩
    · rintro i ⟨⟩
    · rintro i j hj
      rw [(hfree i).1] at hj
      cases hj
    · rintro i j hj
      rw [(hfree i).2] at hj
      cases hj
    · have hi' := List.mem_range'_1.mp hi
      have hle := asU32_le i
      exact lt_min (by omega) (asU32_lt i)
  · rintro i hi
    obtain ⟨hi₁, hi₂⟩ := lt_min_iff.mp hi
    have hc : ((BlockPool.new n).block i).core = (blockAt (initBlocks n) i).core :=
      (pushAll_core _ _).2 i
    have hid := congrArg KVCacheBlock.id hc
    exact hid.trans ((hcore i hi₁).trans (Nat.mod_eq_of_lt hi₂))
  · rintro h b hb
    rw [listed_new] at hb
    cases hb

/-! ## What an operation does to the hashes -/

/-- The hashes after an operation that registers nothing. -/
inductive HashEffect (p p' : BlockPool) : Prop
  | same (hmap : p'.hashMap = p.hashMap) (hof : p'.hashOf = p.hashOf)
  | evicted (b : BlockId) (h : BlockHash) (hb : p.hashOf b = some h)
      (hmap : p'.hashMap = (p.removeHashEntry h b).hashMap)
      (hof : p'.hashOf = Function.update p.hashOf b none)
  | cleared (hmap : p'.hashMap = ∅) (hof : ∀ b, p'.hashOf b = none)

/-- The hashes after a registration. -/
structure Registers (p : BlockPool) (b : BlockId) (h : BlockHash) (p' : BlockPool) : Prop where
  hashMap_eq : p'.hashMap = p.hashMap.insert h (p.listed h ++ [b])
  hashOf_eq : p'.hashOf = Function.update p.hashOf b (some h)

/-- `cacheBlock` does not return at once. -/
def Registrable (p : BlockPool) (b : BlockId) : Prop :=
  0 < (p.block b).refCount ∧ (p.block b).isNull = false

instance (p : BlockPool) (b : BlockId) : Decidable (p.Registrable b) :=
  inferInstanceAs (Decidable (_ ∧ _))

theorem hashOf_modifyBlock_same {f : KVCacheBlock → KVCacheBlock} (hf : ∀ b, (f b).hash = b.hash)
    (p : BlockPool) (a : ℕ) : (p.modifyBlock a f).hashOf = p.hashOf := by
  ext1 i
  simp only [hashOf, block, blockAt, BlockPool.modifyBlock, List.getD_eq_getElem?_getD,
    List.getElem?_modify]
  by_cases hi : a = i
  · subst hi
    cases p.blocks[a]? <;> simp [hf]
  · simp [hi]

theorem hashOf_setHash {f : KVCacheBlock → KVCacheBlock} {o : Option BlockHash}
    (hf : ∀ b, (f b).hash = o) (ha : a < p.blocks.length) :
    (p.modifyBlock a f).hashOf = Function.update p.hashOf a o := by
  ext1 i
  rw [hashOf_modifyBlock _ _ ha]
  by_cases hi : a = i
  · subst hi
    simp [hf]
  · rw [if_neg hi, Function.update_of_ne (Ne.symm hi)]

theorem Indexed.free_effect (h : Indexed N p) (hb : b < N) :
    Indexed N (p.free b) ∧ (p.free b).hashMap = p.hashMap ∧ (p.free b).hashOf = p.hashOf := by
  unfold free
  split
  · exact ⟨h, rfl, rfl⟩
  · have hm : Indexed N (p.modifyBlock b fun c => { c with refCount := c.refCount - 1 }) :=
      h.modifyBlock (fun _ => rfl) (fun _ => rfl) fun _ => rfl
    have ho := hashOf_modifyBlock_same (f := fun c => { c with refCount := c.refCount - 1 })
      (fun _ => rfl) p b
    dsimp only
    split
    · exact ⟨(hm.linkFront hb).setActive _, rfl, (hashOf_linkFront _ b).trans ho⟩
    · exact ⟨hm, rfl, ho⟩

theorem Indexed.touch_effect (h : Indexed N p) (hb : b < N) :
    Indexed N (p.touch b) ∧ (p.touch b).hashMap = p.hashMap ∧ (p.touch b).hashOf = p.hashOf := by
  unfold touch
  split
  · split
    · exact ⟨(h.unlink hb).linkFront hb, rfl, by simp⟩
    · exact ⟨h, rfl, rfl⟩
  · exact ⟨h, rfl, rfl⟩

theorem Indexed.claim_effect (h : Indexed N p) (ha : a < N) (hn : p.hashOf a = none) :
    Indexed N (p.claim a).2 ∧ (p.claim a).2.hashMap = p.hashMap ∧
      (p.claim a).2.hashOf = p.hashOf := by
  have hm : Indexed N (p.modifyBlock a fun c => { c with refCount := 1, hash := none }) :=
    h.modifyBlock (fun _ => rfl) (fun _ => rfl) fun _ => rfl
  refine ⟨hm.setActive _, rfl, ?_⟩
  have ho := hashOf_setHash (f := fun c => { c with refCount := 1, hash := none }) (fun _ => rfl)
    (h.lt_length ha)
  rw [Function.update_eq_self_iff.mpr hn.symm] at ho
  exact ho

theorem Indexed.popUncached_some (h : Indexed N p) {q : BlockPool}
    (hp : p.popUncached = some (a, q)) : a < N ∧ p.hashOf a = none ∧ q = p.unlink a := by
  unfold popUncached at hp
  split at hp
  · rename_i i hf
    obtain ⟨rfl, rfl⟩ := Prod.mk.inj (Option.some.inj hp)
    obtain ⟨hi, hhash⟩ := findAlong_some h.wired.next_lt h.wired.head_lt hf
    exact ⟨hi, by simpa [hashOf] using hhash, rfl⟩
  · cases hp

theorem hashMap_removeHashEntry_congr (hm : p'.hashMap = p.hashMap) (hash : BlockHash)
    (b : BlockId) :
    (p'.removeHashEntry hash b).hashMap = (p.removeHashEntry hash b).hashMap := by
  unfold removeHashEntry
  rw [hm]
  split
  · dsimp only
    split <;> rfl
  · exact hm

theorem Indexed.evictLru_some (h : Indexed N p) {q : BlockPool}
    (hp : p.evictLru = some (a, q)) : a < N ∧ Indexed N q ∧ q.hashOf a = none ∧
      ∃ hash, p.hashOf a = some hash ∧ q.hashMap = (p.removeHashEntry hash a).hashMap ∧
        q.hashOf = Function.update p.hashOf a none := by
  unfold evictLru at hp
  split at hp
  · rename_i i hf
    obtain ⟨hi, -⟩ := findAlong_some h.wired.prev_lt h.wired.tail_lt hf
    dsimp only at hp
    split at hp
    · rename_i hash hhash
      obtain ⟨rfl, rfl⟩ := Prod.mk.inj (Option.some.inj hp)
      have hm : Indexed N ((p.unlink i).modifyBlock i fun b => { b with hash := none }) :=
        (h.unlink hi).modifyBlock (fun _ => rfl) (fun _ => rfl) fun _ => rfl
      have ho := hashOf_setHash (f := fun b => { b with hash := none }) (fun _ => rfl)
        ((h.unlink hi).lt_length hi)
      rw [hm.sig_eq i hi]
      have hq : (((p.unlink i).modifyBlock i fun b => { b with hash := none }).removeHashEntry
          hash i).hashOf = Function.update p.hashOf i none := by
        rw [← hashOf_unlink p i, ← ho]
        ext1 j
        simp [hashOf, block]
      refine ⟨hi, ⟨?_, ?_, ?_⟩, ?_, hash, ?_, ?_, hq⟩
      · simpa using hm.wired
      · simpa [block] using hm.sig_eq
      · rintro g b hb
        rw [listed_removeHashEntry] at hb
        split at hb
        · exact hm.listed_lt g b (List.mem_of_mem_filter hb)
        · exact hm.listed_lt g b hb
      · rw [hq, Function.update_self]
      · rw [← hashOf_unlink p i]
        exact hhash
      · have hmap : ((p.unlink i).modifyBlock i fun b => { b with hash := none }).hashMap =
            p.hashMap := rfl
        exact hashMap_removeHashEntry_congr hmap hash i
    · cases hp
  · cases hp

theorem Indexed.allocate_effect (h : Indexed N p) (ha : p.allocate = some (b, p')) :
    Indexed N p' ∧ HashEffect p p' := by
  unfold allocate at ha
  cases hpop : p.popUncached with
  | some r =>
    obtain ⟨i, q⟩ := r
    obtain ⟨hi, hnone, rfl⟩ := h.popUncached_some hpop
    rw [hpop] at ha
    obtain ⟨hI, hm, ho⟩ := (h.unlink hi).claim_effect hi (by rwa [hashOf_unlink])
    have hp' : p' = ((p.unlink i).claim i).2 := (congrArg Prod.snd (Option.some.inj ha)).symm
    subst hp'
    exact ⟨hI, .same hm (ho.trans (hashOf_unlink p i))⟩
  | none =>
    rw [hpop] at ha
    cases hev : p.evictLru with
    | none =>
      rw [hev] at ha
      cases ha
    | some r =>
      obtain ⟨i, q⟩ := r
      rw [hev] at ha
      obtain ⟨hi, hq, hnone, hash, hh, hqm, hqo⟩ := h.evictLru_some hev
      obtain ⟨hI, hm, ho⟩ := hq.claim_effect hi hnone
      have hp' : p' = (q.claim i).2 := (congrArg Prod.snd (Option.some.inj ha)).symm
      subst hp'
      exact ⟨hI, .evicted i hash hh (hm.trans hqm) (ho.trans hqo)⟩

theorem HashEffect.trans_same (h : HashEffect p p') {q : BlockPool}
    (hm : q.hashMap = p'.hashMap) (ho : q.hashOf = p'.hashOf) : HashEffect p q := by
  cases h with
  | same hmap hof => exact .same (hm.trans hmap) (ho.trans hof)
  | evicted b hash hb hmap hof => exact .evicted b hash hb (hm.trans hmap) (ho.trans hof)
  | cleared hmap hof =>
    refine .cleared (hm.trans hmap) fun b => ?_
    rw [ho]
    exact hof b

theorem Indexed.getCachedBlock_effect (h : Indexed N p) {hash : BlockHash}
    (hc : p.getCachedBlock hash = some (b, p')) :
    Indexed N p' ∧ b ∈ p.listed hash ∧ p'.hashMap = p.hashMap ∧ p'.hashOf = p.hashOf := by
  unfold getCachedBlock at hc
  split at hc
  · rename_i c hl
    have hmem : c ∈ p.listed hash := by
      cases hlk : p.hashMap.lookup hash with
      | none => simp [hlk] at hl
      | some ids =>
        simp only [hlk, Option.bind_some] at hl
        simp only [listed, hlk, Option.getD_some]
        exact List.mem_of_mem_head? hl
    have hcN := h.listed_lt hash c hmem
    obtain ⟨ht, htm, hto⟩ := h.touch_effect hcN
    obtain ⟨rfl, rfl⟩ := Prod.mk.inj (Option.some.inj hc)
    have hunlink : ∀ d : Bool, Indexed N (if d then (p.touch c).unlink c else p.touch c) ∧
        (if d then (p.touch c).unlink c else p.touch c).hashMap = p.hashMap ∧
        (if d then (p.touch c).unlink c else p.touch c).hashOf = p.hashOf := by
      rintro (_ | _)
      · exact ⟨ht, htm, hto⟩
      · exact ⟨ht.unlink hcN, htm, (hashOf_unlink _ c).trans hto⟩
    have hactive : ∀ (q : BlockPool) (d : Bool), Indexed N q → q.hashMap = p.hashMap →
        q.hashOf = p.hashOf →
        Indexed N (if d then { q with numActiveBlocks := q.numActiveBlocks + 1 } else q) ∧
          (if d then { q with numActiveBlocks := q.numActiveBlocks + 1 } else q).hashMap =
            p.hashMap ∧
          (if d then { q with numActiveBlocks := q.numActiveBlocks + 1 } else q).hashOf =
            p.hashOf := by
      rintro q (_ | _) hq hqm hqo
      · exact ⟨hq, hqm, hqo⟩
      · exact ⟨hq.setActive _, hqm, hqo⟩
    obtain ⟨hq, hqm, hqo⟩ := hunlink (decide (((p.touch c).block c).refCount = 0) &&
      (p.touch c).inQueue c)
    obtain ⟨hr, hrm, hro⟩ := hactive _ (decide (((p.touch c).block c).refCount = 0)) hq hqm hqo
    refine ⟨hr.modifyBlock (fun _ => rfl) (fun _ => rfl) fun _ => rfl, hmem, hrm, ?_⟩
    rw [hashOf_modifyBlock_same (f := fun b => { b with refCount := b.refCount + 1 }) fun _ => rfl]
    exact hro
  · cases hc

theorem Indexed.cacheBlock_registers (h : Indexed N p) (hb : b < N) (hash : BlockHash)
    (hr : p.Registrable b) :
    Indexed N (p.cacheBlock b hash) ∧ Registers p b hash (p.cacheBlock b hash) := by
  have hif : ((p.block b).refCount = 0 || (p.block b).isNull) = false := by
    simp only [Bool.or_eq_false_iff, decide_eq_false_iff_not]
    exact ⟨hr.1.ne', hr.2⟩
  have hm : Indexed N (p.modifyBlock b fun c => { c with hash := some hash }) :=
    h.modifyBlock (fun _ => rfl) (fun _ => rfl) fun _ => rfl
  rw [cacheBlock, hif]
  refine ⟨⟨hm.wired, hm.sig_eq, fun g c hc => ?_⟩, ⟨rfl, ?_⟩⟩
  · have hc' := listed_insert (p.modifyBlock b fun c => { c with hash := some hash }) hash g
      (p.listed hash ++ [b]) ▸ hc
    split at hc'
    · rcases List.mem_append.mp hc' with hc' | hc'
      · exact h.listed_lt hash c hc'
      · exact List.mem_singleton.mp hc' ▸ hb
    · exact h.listed_lt g c hc'
  · exact hashOf_setHash (f := fun c => { c with hash := some hash }) (fun _ => rfl)
      (h.lt_length hb)

theorem cacheBlock_of_not (hash : BlockHash) (hr : ¬ p.Registrable b) :
    p.cacheBlock b hash = p := by
  unfold cacheBlock
  rw [if_pos]
  simp only [Registrable, not_and_or, not_lt, Nat.le_zero, Bool.not_eq_false] at hr
  simpa using hr

end BlockPool

/-- The operation registers no block that already has a hash. -/
def PoolOp.Fresh (p : BlockPool) : PoolOp → Prop
  | cacheBlock b _ => p.Registrable b → p.hashOf b = none
  | _ => True

instance (p : BlockPool) (op : PoolOp) : Decidable (op.Fresh p) := by
  cases op <;> unfold PoolOp.Fresh <;> infer_instance

namespace BlockPool

variable {n N a : ℕ} {p p' : BlockPool} {b : BlockId}

/-- An operation registers a block, or has one of the effects above. -/
theorem Indexed.run (h : Indexed N p) {op : PoolOp} (hop : op.InRange N) :
    Indexed N (op.run p) ∧ (op.Fresh p ∧ HashEffect p (op.run p) ∨
      ∃ b hash, op = .cacheBlock b hash ∧ p.Registrable b ∧ Registers p b hash (op.run p)) := by
  cases op with
  | allocate =>
    simp only [PoolOp.run]
    cases ha : p.allocate with
    | none => exact ⟨h, .inl ⟨trivial, .same rfl rfl⟩⟩
    | some r =>
      obtain ⟨hI, he⟩ := h.allocate_effect ha
      exact ⟨hI, .inl ⟨trivial, he⟩⟩
  | free b =>
    obtain ⟨hI, hm, ho⟩ := h.free_effect hop
    exact ⟨hI, .inl ⟨trivial, .same hm ho⟩⟩
  | incref b =>
    simp only [PoolOp.run, incref]
    split
    · refine ⟨h.modifyBlock (fun _ => rfl) (fun _ => rfl) fun _ => rfl,
        .inl ⟨trivial, .same rfl ?_⟩⟩
      rw [hashOf_modifyBlock_same (f := fun b => { b with refCount := b.refCount + 1 })
        fun _ => rfl]
    · exact ⟨h, .inl ⟨trivial, .same rfl rfl⟩⟩
  | copyOnWrite b =>
    simp only [PoolOp.run, copyOnWrite]
    split
    · exact ⟨h, .inl ⟨trivial, .same rfl rfl⟩⟩
    · cases ha : p.allocate with
      | none => exact ⟨h, .inl ⟨trivial, .same rfl rfl⟩⟩
      | some r =>
        obtain ⟨hI, he⟩ := h.allocate_effect ha
        obtain ⟨hI', hm, ho⟩ := hI.free_effect hop
        exact ⟨hI', .inl ⟨trivial, he.trans_same hm ho⟩⟩
  | touch b =>
    obtain ⟨hI, hm, ho⟩ := h.touch_effect hop
    exact ⟨hI, .inl ⟨trivial, .same hm ho⟩⟩
  | getCachedBlock hash =>
    simp only [PoolOp.run]
    cases hc : p.getCachedBlock hash with
    | none => exact ⟨h, .inl ⟨trivial, .same rfl rfl⟩⟩
    | some r =>
      obtain ⟨hI, -, hm, ho⟩ := h.getCachedBlock_effect hc
      exact ⟨hI, .inl ⟨trivial, .same hm ho⟩⟩
  | cacheBlock b hash =>
    by_cases hr : p.Registrable b
    · obtain ⟨hI, hreg⟩ := h.cacheBlock_registers hop hash hr
      exact ⟨hI, .inr ⟨b, hash, rfl, hr, hreg⟩⟩
    · rw [PoolOp.run, cacheBlock_of_not hash hr]
      exact ⟨h, .inl ⟨fun hr' => absurd hr' hr, .same rfl rfl⟩⟩
  | resetPrefixCache =>
    simp only [PoolOp.run]
    cases hr : p.resetPrefixCache with
    | error e => exact ⟨h, .inl ⟨trivial, .same rfl rfl⟩⟩
    | ok q =>
      rw [resetPrefixCache_ok hr]
      change Indexed N p.clearHashes ∧ (_ ∧ HashEffect p p.clearHashes ∨ _)
      refine ⟨⟨⟨?_, h.wired.head_lt, h.wired.tail_lt, ?_, ?_⟩, ?_, ?_⟩,
        .inl ⟨trivial, .cleared rfl hashOf_clearHashes⟩⟩
      · simpa [clearHashes] using h.wired.le_length
      · rintro i j hj
        have hb := congrArg KVCacheBlock.nextFree (clearHashes_block p i)
        exact h.wired.next_lt i j (hb.symm.trans hj)
      · rintro i j hj
        have hb := congrArg KVCacheBlock.prevFree (clearHashes_block p i)
        exact h.wired.prev_lt i j (hb.symm.trans hj)
      · rintro i hi
        have hb := congrArg KVCacheBlock.id (clearHashes_block p i)
        exact hb.trans (h.sig_eq i hi)
      · rintro g c hc
        rw [listed_clearHashes] at hc
        cases hc

/-! ## Coherence -/

/-- The hash map and the hashes of the blocks say the same. -/
structure Coherent (p : BlockPool) : Prop where
  listed_iff : ∀ b h, b ∈ p.listed h ↔ p.hashOf b = some h
  once : ∀ b h h', b ∈ p.listed h → b ∈ p.listed h' → h = h'
  nodup : ∀ h, (p.listed h).Nodup
  nonempty : ∀ h, p.hashMap.lookup h ≠ some []
  cached : ∀ h b p', p.getCachedBlock h = some (b, p') → p'.hashOf b = some h

theorem Coherent.of_listed (hI : Indexed N p) (hiff : ∀ b h, b ∈ p.listed h ↔ p.hashOf b = some h)
    (hnd : ∀ h, (p.listed h).Nodup) (hne : ∀ h, p.hashMap.lookup h ≠ some []) : Coherent p where
  listed_iff := hiff
  once b h h' hb hb' := Option.some.inj (((hiff b h).mp hb).symm.trans ((hiff b h').mp hb'))
  nodup := hnd
  nonempty := hne
  cached h b p' hc := by
    obtain ⟨-, hb, -, ho⟩ := hI.getCachedBlock_effect hc
    rw [ho]
    exact (hiff b h).mp hb

theorem lookup_removeHashEntry_ne_nil (h : ∀ g, p.hashMap.lookup g ≠ some []) (hash : BlockHash)
    (b : BlockId) (g : BlockHash) : (p.removeHashEntry hash b).hashMap.lookup g ≠ some [] := by
  unfold removeHashEntry
  split
  · dsimp only
    by_cases hg : g = hash
    · subst hg
      split
      · simp [AList.lookup_erase]
      · rename_i he
        simpa [AList.lookup_insert] using he
    · split
      · simpa [AList.lookup_erase_ne hg] using h g
      · simpa [AList.lookup_insert_ne hg] using h g
  · exact h g

theorem Indexed.run_nonempty (h : Indexed N p) {op : PoolOp} (hop : op.InRange N)
    (hne : ∀ g, p.hashMap.lookup g ≠ some []) (g : BlockHash) :
    (op.run p).hashMap.lookup g ≠ some [] := by
  rcases (h.run hop).2 with ⟨-, he⟩ | ⟨b, hash, rfl, -, hreg⟩
  · cases he with
    | same hmap => exact hmap ▸ hne g
    | evicted b hash hb hmap => exact hmap ▸ lookup_removeHashEntry_ne_nil hne hash b g
    | cleared hmap => simp [hmap]
  · rw [hreg.hashMap_eq]
    by_cases hg : g = hash
    · subst hg
      simp [AList.lookup_insert]
    · rw [AList.lookup_insert_ne hg]
      exact hne g

theorem Coherent.effect (h : Coherent p) (he : HashEffect p p') (hI : Indexed N p') :
    Coherent p' := by
  cases he with
  | same hmap hof =>
    have hl : p'.listed = p.listed := by
      ext1 g
      simp only [listed, hmap]
    refine .of_listed hI ?_ ?_ ?_
    · rw [hl, hof]
      exact h.listed_iff
    · rw [hl]
      exact h.nodup
    · rw [hmap]
      exact h.nonempty
  | evicted b hash hb hmap hof =>
    have hl : ∀ g, p'.listed g = if g = hash then (p.listed g).filter (· ≠ b) else p.listed g := by
      intro g
      rw [← listed_removeHashEntry]
      simp only [listed, hmap]
    refine .of_listed hI ?_ ?_ ?_
    · rintro c g
      rw [hl, hof, Function.update_apply]
      by_cases hc : c = b
      · subst hc
        by_cases hg : g = hash
        · simp [hg]
        · rw [if_neg hg, if_pos rfl]
          refine iff_of_false (fun hm => hg ?_) (by simp)
          exact Option.some.inj (((h.listed_iff c g).mp hm).symm.trans hb)
      · rw [if_neg hc, ← h.listed_iff]
        split
        · simp [hc]
        · rfl
    · intro g
      rw [hl]
      split
      · exact (h.nodup g).filter _
      · exact h.nodup g
    · rw [hmap]
      exact lookup_removeHashEntry_ne_nil h.nonempty hash b
  | cleared hmap hof =>
    refine .of_listed hI ?_ ?_ ?_
    · rintro b g
      simp [listed, hmap, hof]
    · intro g
      simp [listed, hmap]
    · intro g
      simp [hmap]

theorem Registers.listed_eq {hash : BlockHash} (h : Registers p b hash p') (g : BlockHash) :
    p'.listed g = if g = hash then p.listed g ++ [b] else p.listed g := by
  have hi := listed_insert p hash g (p.listed hash ++ [b])
  rw [← show p'.listed g = listed { p with
    hashMap := p.hashMap.insert hash (p.listed hash ++ [b]) } g by simp only [listed, h.hashMap_eq]]
    at hi
  rw [hi]
  by_cases hg : g = hash
  · rw [if_pos hg, if_pos hg, hg]
  · rw [if_neg hg, if_neg hg]

/-- A registration keeps the two sides coherent exactly if the block had no hash. -/
theorem Coherent.register_iff (h : Coherent p) {hash : BlockHash} (hr : Registers p b hash p')
    (hI : Indexed N p') : Coherent p' ↔ p.hashOf b = none := by
  have hl := hr.listed_eq
  constructor
  · intro h'
    by_contra hne
    obtain ⟨g, hg⟩ := Option.ne_none_iff_exists'.mp hne
    have hb : b ∈ p.listed g := (h.listed_iff b g).mpr hg
    by_cases hgh : g = hash
    · have hnd := h'.nodup g
      rw [hl, if_pos hgh] at hnd
      exact (List.nodup_append.mp hnd).2.2 b hb b (by simp) rfl
    · have hg' : b ∈ p'.listed g := by
        rw [hl, if_neg hgh]
        exact hb
      have hb' : b ∈ p'.listed hash := by
        rw [hl, if_pos rfl]
        simp
      exact hgh (h'.once b g hash hg' hb')
  · intro hn
    have hnot : ∀ g, b ∉ p.listed g := by
      rintro g hm
      rw [h.listed_iff, hn] at hm
      cases hm
    refine .of_listed hI ?_ ?_ ?_
    · rintro c g
      rw [hl, hr.hashOf_eq, Function.update_apply]
      by_cases hc : c = b
      · subst hc
        by_cases hg : g = hash
        · simp [hg]
        · rw [if_neg hg, if_pos rfl]
          exact iff_of_false (hnot g) fun he => hg (Option.some.inj he).symm
      · rw [if_neg hc, ← h.listed_iff]
        split
        · simp [hc]
        · rfl
    · intro g
      rw [hl]
      split
      · exact List.nodup_append.mpr ⟨h.nodup g, List.nodup_singleton b, by
          rintro c hc d hd rfl
          exact hnot g (List.mem_singleton.mp hd ▸ hc)⟩
      · exact h.nodup g
    · intro g
      rw [hr.hashMap_eq]
      by_cases hg : g = hash
      · subst hg
        simp [AList.lookup_insert]
      · rw [AList.lookup_insert_ne hg]
        exact h.nonempty g

end BlockPool

/-- None of the operations, each applied where the ones before it lead, registers a block that
already has a hash. -/
def FreshAlong (p : BlockPool) : List PoolOp → Prop
  | [] => True
  | op :: ops => op.Fresh p ∧ FreshAlong (op.run p) ops

namespace BlockPool

variable {n N : ℕ} {p : BlockPool}

theorem Coherent.run_iff (h : Coherent p) (hI : Indexed N p) {op : PoolOp} (hop : op.InRange N) :
    Coherent (op.run p) ↔ op.Fresh p := by
  obtain ⟨hI', ⟨hf, he⟩ | ⟨b, hash, rfl, hr, hreg⟩⟩ := hI.run hop
  · exact iff_of_true (h.effect he hI') hf
  · rw [h.register_iff hreg hI']
    exact ⟨fun hn _ => hn, fun hf => hf hr⟩

theorem Coherent.new (n : ℕ) : Coherent (new n) := by
  refine .of_listed (.new n) ?_ ?_ ?_
  · simp
  · simp
  · simp [BlockPool.new]

theorem Coherent.runAll_iff (h : Coherent p) (hI : Indexed N p) {ops : List PoolOp}
    (hops : ∀ op ∈ ops, op.InRange N) :
    (∀ ops', ops' <+: ops → Coherent (ops'.foldl PoolOp.run p)) ↔ FreshAlong p ops := by
  induction ops generalizing p with
  | nil =>
    refine iff_of_true (fun ops' hpre => ?_) trivial
    rw [List.prefix_nil.mp hpre]
    exact h
  | cons op ops ih =>
    have hrun := h.run_iff hI (hops op (by simp))
    have hI' := (hI.run (hops op (by simp))).1
    have hops' : ∀ op' ∈ ops, op'.InRange N := fun op' h' => hops op' (List.mem_cons_of_mem _ h')
    constructor
    · intro hall
      have hc : Coherent (op.run p) := hall [op] (List.prefix_append [op] ops)
      refine ⟨hrun.mp hc, (ih hc hI' hops').mp fun ops' hpre => ?_⟩
      exact hall (op :: ops') ((List.prefix_cons_inj op).mpr hpre)
    · rintro ⟨hf, halong⟩ ops' hpre
      have hc := hrun.mpr hf
      cases ops' with
      | nil => exact h
      | cons op' ops' =>
        obtain ⟨rfl, hpre'⟩ := List.cons_prefix_cons.mp hpre
        exact (ih hc hI' hops').mpr halong ops' hpre'

/-- The two sides of the prefix cache stay coherent along a sequence of operations exactly if none
of them registers a block that already has a hash. -/
theorem runOps_coherent (n : ℕ) (ops : List PoolOp) (hops : ∀ op ∈ ops, op.InRange (reach n)) :
    (∀ ops', ops' <+: ops → Coherent (runOps n ops')) ↔ FreshAlong (new n) ops :=
  (Coherent.new n).runAll_iff (.new n) hops

/-- A block is registered, freed, found again and, once freed, evicted and registered anew. -/
theorem runOps_coherent_evicted : Coherent (runOps 2 [.allocate, .cacheBlock 1 7, .free 1,
    .getCachedBlock 7, .free 1, .allocate, .cacheBlock 1 8]) :=
  (runOps_coherent 2 [.allocate, .cacheBlock 1 7, .free 1, .getCachedBlock 7, .free 1, .allocate,
    .cacheBlock 1 8] (by simp [PoolOp.InRange, reach])).mpr
    ⟨trivial, by decide, trivial, trivial, trivial, trivial, by decide, trivial⟩ _ List.prefix_rfl

/-- A block that is registered twice is listed under both hashes. -/
theorem not_runOps_coherent : ¬ ∀ (n : ℕ) (ops : List PoolOp),
    (∀ op ∈ ops, op.InRange (reach n)) → Coherent (runOps n ops) := by
  intro h
  have hc := h 2 [.allocate, .cacheBlock 1 7, .cacheBlock 1 8] (by simp [PoolOp.InRange, reach])
  have := hc.once 1 7 8 (by decide) (by decide)
  cases this

end BlockPool

end Rllm
