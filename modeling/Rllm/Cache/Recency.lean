import Rllm.Cache.HashCoherence

/-! # The order of allocation

The free queue is searched from its head for an uncached block. When all free
blocks are cached, the tail is evicted: the queue lists the cached blocks from
the one renewed last to the one renewed first, where a block is renewed when it
becomes free and when it is touched.
-/

namespace Rllm

/-! ## Renewals -/

namespace PoolOp

/-- The block that an operation touches. -/
def touched (p : BlockPool) : PoolOp → Option BlockId
  | touch b => some b
  | getCachedBlock h => (p.listed h).head?
  | _ => none

/-- The operation touches the block, or moves it into the free queue. -/
def Renews (op : PoolOp) (p : BlockPool) (b : BlockId) : Prop :=
  op.touched p = some b ∨ 0 < p.refs b ∧ (op.run p).refs b = 0

instance (op : PoolOp) (p : BlockPool) (b : BlockId) : Decidable (op.Renews p b) :=
  inferInstanceAs (Decidable (_ ∨ _))

end PoolOp

/-- A pool, the number of operations so far, and the last one that renewed each block. -/
structure PoolHistory where
  pool : BlockPool
  now : ℕ
  renewed : BlockId → ℕ

namespace PoolHistory

def new (numBlocks : ℕ) : PoolHistory := ⟨.new numBlocks, 0, fun _ => 0⟩

def run (t : PoolHistory) (op : PoolOp) : PoolHistory where
  pool := op.run t.pool
  now := t.now + 1
  renewed b := if op.Renews t.pool b then t.now + 1 else t.renewed b

end PoolHistory

namespace BlockPool

/-- The number of the last operation that renewed a block, or `0`. -/
def lastRenewal (n : ℕ) (ops : List PoolOp) (b : BlockId) : ℕ :=
  (ops.foldl PoolHistory.run (.new n)).renewed b

/-- The block can be handed out. -/
def IsFree (p : BlockPool) (b : BlockId) : Prop :=
  b < p.blocks.length ∧ (p.block b).isNull = false ∧ (p.block b).refCount = 0

/-- Allocation takes uncached blocks first, then the cached block that was renewed first. -/
structure EvictsOldest (p : BlockPool) (renewed : BlockId → ℕ) : Prop where
  none_iff : p.allocate = none ↔ p.numFree = 0
  taken_free : ∀ b p', p.allocate = some (b, p') → p.IsFree b
  uncached_first : ∀ b p', p.allocate = some (b, p') → (p.hashOf b).isSome →
    ∀ i, p.IsFree i → (p.hashOf i).isSome
  uncached_map : ∀ b p', p.allocate = some (b, p') → p.hashOf b = none → p'.hashMap = p.hashMap
  oldest : ∀ b p', p.allocate = some (b, p') → (p.hashOf b).isSome →
    ∀ i, p.IsFree i → (p.hashOf i).isSome → i ≠ b → renewed b < renewed i
  forgotten : ∀ b p', p.allocate = some (b, p') → p'.hashOf = Function.update p.hashOf b none
  evicted_map : ∀ b p' h, p.allocate = some (b, p') → p.hashOf b = some h →
    p'.listed h = (p.listed h).filter (· ≠ b) ∧
      ∀ g ≠ h, p'.hashMap.lookup g = p.hashMap.lookup g

variable {n : ℕ} {p p' : BlockPool} {l : List ℕ} {b : BlockId}

theorem Rep.isFree_iff (h : Rep n p l) (b : BlockId) : p.IsFree b ↔ b ∈ l := by
  rw [h.mem_iff, IsFree, h.length_eq]
  refine and_congr_right fun hb => and_congr ?_ Iff.rfl
  rw [h.isNull_eq hb, decide_eq_false_iff_not]

theorem lookup_removeHashEntry_ne {h g : BlockHash} (hg : g ≠ h) (b : BlockId) :
    (p.removeHashEntry h b).hashMap.lookup g = p.hashMap.lookup g := by
  unfold removeHashEntry
  split
  · dsimp only
    split
    · exact AList.lookup_erase_ne hg
    · exact AList.lookup_insert_ne hg
  · rfl

@[simp] theorem hashOf_incref (p : BlockPool) (b : BlockId) : (p.incref b).hashOf = p.hashOf := by
  unfold incref
  split
  · exact hashOf_modifyBlock_same (f := fun b => { b with refCount := b.refCount + 1 })
      (fun _ => rfl) p b
  · rfl

theorem popUncached_hashMap {a : ℕ} {q : BlockPool} (hp : p.popUncached = some (a, q)) :
    q.hashMap = p.hashMap := by
  unfold popUncached at hp
  split at hp
  · obtain ⟨-, rfl⟩ := Prod.mk.inj (Option.some.inj hp)
    rfl
  · cases hp

theorem Rep.evictLru_find (h : Rep n p l) {a : ℕ} {q : BlockPool}
    (hp : p.evictLru = some (a, q)) : l.reverse.find? (fun i => (p.hashOf i).isSome) = some a := by
  unfold evictLru at hp
  rw [h.find_backward] at hp
  split at hp
  · rename_i hf
    dsimp only at hp
    split at hp
    · obtain ⟨rfl, -⟩ := Prod.mk.inj (Option.some.inj hp)
      exact hf
    · cases hp
  · cases hp

theorem Rep.allocate_order (h : Rep n p l) (hI : Indexed n p) (ha : p.allocate = some (b, p')) :
    (p.hashOf b = none ∧ p'.hashMap = p.hashMap) ∨
      ∃ hash, p.hashOf b = some hash ∧ (∀ i ∈ l, (p.hashOf i).isSome) ∧ l.getLast? = some b ∧
        p'.hashMap = (p.removeHashEntry hash b).hashMap := by
  unfold allocate at ha
  split at ha
  · rename_i idx q hq
    have hclaim := Option.some.inj ha
    have hmap : p'.hashMap = q.hashMap := (congrArg (fun r => r.2.hashMap) hclaim).symm
    rcases Option.or_eq_some_iff.mp hq with hu | ⟨hu, he⟩
    · obtain ⟨hd, hnone⟩ := h.popUncached_some hu
      have hb := (h.claim hd).1
      rw [hclaim] at hb
      obtain rfl : b = idx := hb
      exact Or.inl ⟨hnone, hmap.trans (popUncached_hashMap hu)⟩
    · have hb := (h.claim (h.evictLru_some he)).1
      rw [hclaim] at hb
      obtain rfl : b = idx := hb
      have hcached := h.popUncached_none hu
      obtain ⟨-, -, -, hash, hhash, hevict, -⟩ := hI.evictLru_some he
      refine Or.inr ⟨hash, hhash, hcached, ?_, hmap.trans hevict⟩
      -- every free block is cached, so the search from the tail ends where it begins
      have hfind := h.evictLru_find he
      have hall : l.reverse.filter (fun i => (p.hashOf i).isSome) = l.reverse :=
        List.filter_eq_self.mpr fun i hi => hcached i (List.mem_reverse.mp hi)
      rw [← List.head?_filter, hall, List.head?_reverse] at hfind
      exact hfind
  · cases ha

end BlockPool

/-! ## The queue is sorted by renewal -/

open BlockPool

/-- The cached blocks of the queue, from the one renewed last to the one renewed first. -/
structure PoolHistory.Sorted (t : PoolHistory) (l : List ℕ) : Prop where
  le_now : ∀ b, t.renewed b ≤ t.now
  pairwise : l.Pairwise fun a b => (t.pool.hashOf a).isSome → (t.pool.hashOf b).isSome →
    t.renewed b < t.renewed a

namespace PoolHistory.Sorted

variable {n : ℕ} {t : PoolHistory} {l l' : List ℕ} {op : PoolOp} {b : BlockId}

theorem new (n : ℕ) (l : List ℕ) : (PoolHistory.new n).Sorted l where
  le_now _ := le_rfl
  pairwise := List.pairwise_of_forall fun a _ ha => by
    rw [PoolHistory.new, hashOf_new] at ha
    cases ha

theorem renewed_le (h : t.Sorted l) (op : PoolOp) (b : BlockId) :
    (t.run op).renewed b ≤ (t.run op).now := by
  simp only [PoolHistory.run]
  split
  · exact le_rfl
  · exact (h.le_now b).trans (Nat.le_succ _)

theorem keep (h : t.Sorted l) (hsub : l'.Sublist l)
    (hcached : ∀ i ∈ l', ((op.run t.pool).hashOf i).isSome → (t.pool.hashOf i).isSome)
    (hstay : ∀ i ∈ l', ((op.run t.pool).hashOf i).isSome → ¬ op.Renews t.pool i) :
    (t.run op).Sorted l' where
  le_now := h.renewed_le op
  pairwise := by
    refine (h.pairwise.sublist hsub).imp_of_mem fun {a b} ha hb hab hca hcb => ?_
    have hlt := hab (hcached a ha hca) (hcached b hb hcb)
    simpa only [PoolHistory.run, if_neg (hstay a ha hca), if_neg (hstay b hb hcb)] using hlt

theorem push (h : (t.run op).Sorted l) (hb : op.Renews t.pool b)
    (hstay : ∀ i ∈ l, ((op.run t.pool).hashOf i).isSome → ¬ op.Renews t.pool i)
    (hle : ∀ i, t.renewed i ≤ t.now) : (t.run op).Sorted (b :: l) where
  le_now := h.le_now
  pairwise := by
    refine List.pairwise_cons.mpr ⟨fun i hi _ hci => ?_, h.pairwise⟩
    simp only [PoolHistory.run, if_pos hb, if_neg (hstay i hi hci)]
    exact Nat.lt_succ_of_le (hle i)

theorem not_renews (hrep : Rep n t.pool l) (hb : b ∈ l) (ht : op.touched t.pool ≠ some b) :
    ¬ op.Renews t.pool b := by
  rintro (h | ⟨hpos, -⟩)
  · exact ht h
  · exact hpos.ne' (hrep.mem_free hb).2.2

theorem keep_sublist (h : t.Sorted l) (hrep : Rep n t.pool l) (hsub : l'.Sublist l)
    (htouched : op.touched t.pool = none)
    (hhash : ∀ i ∈ l', ((op.run t.pool).hashOf i).isSome → (t.pool.hashOf i).isSome) :
    (t.run op).Sorted l' :=
  h.keep hsub hhash fun _ hi _ =>
    not_renews hrep (hsub.subset hi) (by rw [htouched]; exact (Option.some_ne_none _).symm)

theorem idle (h : t.Sorted l) (hrep : Rep n t.pool l) (hrun : op.run t.pool = t.pool)
    (htouched : op.touched t.pool = none) :
    ∃ l', Rep n (op.run t.pool) l' ∧ (t.run op).Sorted l' := by
  refine ⟨l, hrun.symm ▸ hrep, h.keep_sublist hrep (List.Sublist.refl l) htouched fun i _ hi => ?_⟩
  rwa [hrun] at hi

theorem handOut (h : t.Sorted l) (hrep : Rep n t.pool l) (htouched : op.touched t.pool = none)
    (hrep' : Rep n (op.run t.pool) (l.erase b))
    (hhash : ∀ i, (op.run t.pool).hashOf i = if i = b then none else t.pool.hashOf i) :
    ∃ l', Rep n (op.run t.pool) l' ∧ (t.run op).Sorted l' := by
  refine ⟨l.erase b, hrep', h.keep_sublist hrep List.erase_sublist htouched fun i _ hi => ?_⟩
  rw [hhash] at hi
  split at hi
  · cases hi
  · exact hi

theorem allocate (h : t.Sorted l) (hrep : Rep n t.pool l) :
    ∃ l', Rep n (PoolOp.allocate.run t.pool) l' ∧ (t.run .allocate).Sorted l' := by
  cases ha : t.pool.allocate with
  | none => exact h.idle hrep (by simp [PoolOp.run, ha]) rfl
  | some r =>
    have hrun : PoolOp.allocate.run t.pool = r.2 := by simp [PoolOp.run, ha]
    obtain ⟨-, hal, hrep'⟩ := hrep.allocate_some (show _ = some (r.1, r.2) from ha)
    exact h.handOut hrep rfl (hrun.symm ▸ hrep') (hrun.symm ▸ hal.hashOf_eq)

theorem copyOnWrite (h : t.Sorted l) (hrep : Rep n t.pool l) (c : BlockId) :
    ∃ l', Rep n ((PoolOp.copyOnWrite c).run t.pool) l' ∧ (t.run (.copyOnWrite c)).Sorted l' := by
  cases hc : t.pool.copyOnWrite c with
  | none => exact h.idle hrep (by simp [PoolOp.run, hc]) rfl
  | some r =>
    have hrun : (PoolOp.copyOnWrite c).run t.pool = r.2 := by simp [PoolOp.run, hc]
    rcases hrep.copyOnWrite_some (show _ = some (r.1, r.2) from hc) with
      ⟨-, heq⟩ | ⟨-, -, -, -, hhash, hrep'⟩
    · exact h.idle hrep (hrun.trans heq) rfl
    · exact h.handOut hrep rfl (hrun.symm ▸ hrep') (hrun.symm ▸ hhash)

theorem free (h : t.Sorted l) (hrep : Rep n t.pool l) {c : BlockId} (hc : c < n) :
    ∃ l', Rep n ((PoolOp.free c).run t.pool) l' ∧ (t.run (.free c)).Sorted l' := by
  obtain ⟨hrefs, hhash, -, hrep'⟩ := hrep.free_spec hc
  have hkeep : (t.run (.free c)).Sorted l := by
    refine h.keep_sublist hrep (List.Sublist.refl l) rfl fun i _ hi => ?_
    rwa [PoolOp.run, hhash] at hi
  refine ⟨_, hrep', ?_⟩
  split
  · rename_i hlast
    refine push hkeep (Or.inr ⟨by omega, ?_⟩)
      (fun i hi _ => not_renews hrep hi (Option.some_ne_none _).symm) h.le_now
    rw [PoolOp.run, hrefs, if_pos rfl, hlast]
  · exact hkeep

theorem touch (h : t.Sorted l) (hrep : Rep n t.pool l) {c : BlockId} (hc : c < n) :
    ∃ l', Rep n ((PoolOp.touch c).run t.pool) l' ∧ (t.run (.touch c)).Sorted l' := by
  obtain ⟨-, hhash, -, hrep'⟩ := hrep.touch_spec hc
  refine ⟨_, hrep', ?_⟩
  have hcached : ∀ i,
      (((PoolOp.touch c).run t.pool).hashOf i).isSome → (t.pool.hashOf i).isSome := by
    intro i hi
    rwa [PoolOp.run, hhash] at hi
  have hne : ∀ i, i ≠ c → (PoolOp.touch c).touched t.pool ≠ some i := by
    rintro i hi ⟨⟩
    exact hi rfl
  split
  · have hstay : ∀ i ∈ l.erase c, ¬ (PoolOp.touch c).Renews t.pool i := by
      intro i hi
      obtain ⟨hic, hil⟩ := hrep.queue.linked.nodup.mem_erase_iff.mp hi
      exact not_renews hrep hil (hne i hic)
    exact push (h.keep List.erase_sublist (fun i _ => hcached i) fun i hi _ => hstay i hi)
      (Or.inl rfl) (fun i hi _ => hstay i hi) h.le_now
  · rename_i hnot
    refine h.keep (List.Sublist.refl l) (fun i _ => hcached i) fun i hi hci => ?_
    refine not_renews hrep hi (hne i ?_)
    rintro rfl
    exact hnot ⟨hi, hcached i hci⟩

theorem getCachedBlock (h : t.Sorted l) (hrep : Rep n t.pool l) (hash : BlockHash) :
    ∃ l', Rep n ((PoolOp.getCachedBlock hash).run t.pool) l' ∧
      (t.run (.getCachedBlock hash)).Sorted l' := by
  cases hc : t.pool.getCachedBlock hash with
  | none =>
    refine h.idle hrep (by simp [PoolOp.run, hc]) ?_
    rw [PoolOp.touched, getCachedBlock_none hc]
    rfl
  | some r =>
    have hrun : (PoolOp.getCachedBlock hash).run t.pool = r.2 := by simp [PoolOp.run, hc]
    obtain ⟨hhead, -, hhash, -, hrep'⟩ :=
      hrep.getCachedBlock_some (show _ = some (r.1, r.2) from hc)
    refine ⟨l.erase r.1, hrun.symm ▸ hrep', h.keep List.erase_sublist (fun i _ hi => ?_)
      fun i hi _ => ?_⟩
    · rwa [hrun, hhash] at hi
    · obtain ⟨hir, hil⟩ := hrep.queue.linked.nodup.mem_erase_iff.mp hi
      refine not_renews hrep hil ?_
      rw [PoolOp.touched, hhead]
      rintro ⟨⟩
      exact hir rfl

theorem cacheBlock (h : t.Sorted l) (hrep : Rep n t.pool l) {c : BlockId} (hc : c < n)
    (hash : BlockHash) : ∃ l', Rep n ((PoolOp.cacheBlock c hash).run t.pool) l' ∧
      (t.run (.cacheBlock c hash)).Sorted l' := by
  rcases Nat.eq_zero_or_pos (t.pool.refs c) with hz | hpos
  · exact h.idle hrep (cacheBlock_free hash hz) rfl
  · obtain ⟨-, hhash, -, hrep'⟩ := hrep.cacheBlock_spec hc hash hpos
    refine ⟨l, hrep', h.keep_sublist hrep (List.Sublist.refl l) rfl fun i hi hci => ?_⟩
    have hne : i ≠ c := by
      rintro rfl
      exact hpos.ne' (hrep.mem_free hi).2.2
    rwa [PoolOp.run, hhash, if_neg hne] at hci

theorem resetPrefixCache (h : t.Sorted l) (hrep : Rep n t.pool l) :
    ∃ l', Rep n (PoolOp.resetPrefixCache.run t.pool) l' ∧ (t.run .resetPrefixCache).Sorted l' := by
  cases hr : t.pool.resetPrefixCache with
  | error e => exact h.idle hrep (by simp [PoolOp.run, hr, Except.toOption]) rfl
  | ok q =>
    have hrun : PoolOp.resetPrefixCache.run t.pool = t.pool.clearHashes := by
      simp [PoolOp.run, hr, Except.toOption, resetPrefixCache_ok hr]
    refine ⟨l, hrun.symm ▸ hrep.clearHashes,
      h.keep_sublist hrep (List.Sublist.refl l) rfl fun i _ hi => ?_⟩
    rw [hrun, hashOf_clearHashes] at hi
    cases hi

theorem run (h : t.Sorted l) (hrep : Rep n t.pool l) (hop : op.InRange n) :
    ∃ l', Rep n (op.run t.pool) l' ∧ (t.run op).Sorted l' := by
  cases op with
  | allocate => exact h.allocate hrep
  | free c => exact h.free hrep hop
  | incref c =>
    refine ⟨l, hrep.incref_rep hop, h.keep_sublist hrep (List.Sublist.refl l) rfl fun i _ hi => ?_⟩
    rwa [PoolOp.run, hashOf_incref] at hi
  | copyOnWrite c => exact h.copyOnWrite hrep c
  | touch c => exact h.touch hrep hop
  | getCachedBlock hash => exact h.getCachedBlock hrep hash
  | cacheBlock c hash => exact h.cacheBlock hrep hop hash
  | resetPrefixCache => exact h.resetPrefixCache hrep

theorem runAll (h : t.Sorted l) (hrep : Rep n t.pool l) {ops : List PoolOp}
    (hops : ∀ op ∈ ops, op.InRange n) :
    ∃ l', Rep n (ops.foldl PoolHistory.run t).pool l' ∧
      (ops.foldl PoolHistory.run t).Sorted l' := by
  induction ops generalizing t l with
  | nil => exact ⟨l, hrep, h⟩
  | cons op ops ih =>
    obtain ⟨l', hrep', h'⟩ := h.run hrep (hops op List.mem_cons_self)
    exact ih h' hrep' fun op' hop' => hops op' (List.mem_cons_of_mem _ hop')

end PoolHistory.Sorted

/-! ## What allocation takes -/

namespace BlockPool

theorem pool_history (n : ℕ) (ops : List PoolOp) :
    (ops.foldl PoolHistory.run (.new n)).pool = runOps n ops := by
  have hrun : ∀ t : PoolHistory,
      (ops.foldl PoolHistory.run t).pool = ops.foldl PoolOp.run t.pool := by
    induction ops with
    | nil => exact fun _ => rfl
    | cons op ops ih => exact fun t => ih (t.run op)
  exact hrun _

variable {n : ℕ} {p p' : BlockPool} {l : List ℕ} {b : BlockId}

theorem Rep.evictsOldest {t : PoolHistory} (h : Rep n t.pool l) (hI : Indexed n t.pool)
    (hs : t.Sorted l) : EvictsOldest t.pool t.renewed := by
  have hevict : ∀ b p', t.pool.allocate = some (b, p') → (t.pool.hashOf b).isSome →
      (∀ i ∈ l, (t.pool.hashOf i).isSome) ∧ l.getLast? = some b := by
    intro b p' ha hb
    rcases h.allocate_order hI ha with ⟨hnone, -⟩ | ⟨hash, -, hcached, hlast, -⟩
    · rw [hnone] at hb
      cases hb
    · exact ⟨hcached, hlast⟩
  constructor
  case none_iff =>
    rw [numFree, h.queue.len_eq, List.length_eq_zero_iff]
    constructor
    · exact h.allocate_none
    · rintro rfl
      by_contra hne
      obtain ⟨r, hr⟩ := Option.ne_none_iff_exists'.mp hne
      cases (h.allocate_some (show _ = some (r.1, r.2) from hr)).1
  case taken_free =>
    intro b p' ha
    exact (h.isFree_iff b).mpr (h.allocate_some ha).1
  case uncached_first =>
    intro b p' ha hb i hi
    exact (hevict b p' ha hb).1 i ((h.isFree_iff i).mp hi)
  case uncached_map =>
    intro b p' ha hb
    rcases h.allocate_order hI ha with ⟨-, hmap⟩ | ⟨hash, hhash, -⟩
    · exact hmap
    · rw [hb] at hhash
      cases hhash
  case oldest =>
    intro b p' ha hb i hi hci hne
    obtain ⟨hcached, hlast⟩ := hevict b p' ha hb
    obtain ⟨front, rfl⟩ := List.getLast?_eq_some_iff.mp hlast
    have hfront : i ∈ front := by
      rcases List.mem_append.mp ((h.isFree_iff i).mp hi) with hf | hf
      · exact hf
      · exact absurd (List.mem_singleton.mp hf) hne
    exact (List.pairwise_append.mp hs.pairwise).2.2 i hfront b (List.mem_singleton_self b) hci hb
  case forgotten =>
    intro b p' ha
    funext i
    rw [(h.allocate_some ha).2.1.hashOf_eq, Function.update_apply]
  case evicted_map =>
    intro b p' hash ha hb
    refine ⟨?_, fun g hg => ?_⟩
    · rw [(h.allocate_some ha).2.1.listed_eq, if_pos hb]
    · rcases h.allocate_order hI ha with ⟨hnone, -⟩ | ⟨hash', hhash, -, -, hmap⟩
      · rw [hnone] at hb
        cases hb
      · obtain rfl : hash' = hash := Option.some.inj (hhash.symm.trans hb)
        rw [hmap, lookup_removeHashEntry_ne hg]

theorem indexed_runOps (n : ℕ) {ops : List PoolOp} (hops : ∀ op ∈ ops, op.InRange (reach n)) :
    Indexed (reach n) (runOps n ops) := by
  have hrun : ∀ p, Indexed (reach n) p → Indexed (reach n) (ops.foldl PoolOp.run p) := by
    induction ops with
    | nil => exact fun _ h => h
    | cons op ops ih =>
      intro p h
      exact ih (fun op' hop' => hops op' (List.mem_cons_of_mem _ hop')) _
        (h.run (hops op List.mem_cons_self)).1
  exact hrun _ (Indexed.new n)

/-- In every run on a pool of at most `2 ^ 32` blocks. -/
theorem runOps_evictsOldest (n : ℕ) (hle : n ≤ 2 ^ 32) (ops : List PoolOp)
    (hops : ∀ op ∈ ops, op.InRange (max n 1)) :
    EvictsOldest (runOps n ops) (lastRenewal n ops) := by
  have hreach : reach n = max n 1 := min_eq_left (max_le hle (by omega))
  obtain ⟨l₀, h₀⟩ := exists_rep_new hle
  obtain ⟨l, hrep, hs⟩ := (PoolHistory.Sorted.new n l₀).runAll h₀ hops
  have hI : Indexed (max n 1) (runOps n ops) := by
    rw [← hreach] at hops ⊢
    exact indexed_runOps n hops
  rw [← pool_history] at hI ⊢
  exact hrep.evictsOldest hI hs

/-- Two cached blocks are free, and the one that was touched stays. -/
theorem runOps_evictsOldest_touched :
    EvictsOldest (runOps 3 [.allocate, .cacheBlock 1 7, .allocate, .cacheBlock 2 8, .free 1,
      .free 2, .touch 1]) (lastRenewal 3 [.allocate, .cacheBlock 1 7, .allocate, .cacheBlock 2 8,
      .free 1, .free 2, .touch 1]) :=
  runOps_evictsOldest 3 (by decide) _ (by simp [PoolOp.InRange])

/-- After two allocations from a pool whose indices wrap, its free blocks are out of reach. -/
theorem not_runOps_evictsOldest : ¬ ∀ (n : ℕ) (ops : List PoolOp),
    (∀ op ∈ ops, op.InRange (max n 1)) → EvictsOldest (runOps n ops) (lastRenewal n ops) := by
  intro h
  obtain ⟨n, hn⟩ : ∃ n, n = 2 ^ 32 + 2 := ⟨_, rfl⟩
  obtain ⟨p₁, p₂, h₁, h₂, -, -, -, -, hqueue⟩ := wrapped_allocate_twice hn
  have hrun : runOps n [.allocate, .allocate] = p₂ := by
    simp [runOps, PoolOp.run, h₁, h₂]
  have hnone := (h n [.allocate, .allocate] (by simp [PoolOp.InRange])).none_iff
  rw [hrun] at hnone
  have hall : p₂.allocate = none := by
    have hfind : ∀ (next : ℕ → Option ℕ) (pr : ℕ → Bool) (k : ℕ),
        DoublyLinked.findAlong next pr k none = none := by
      intro next pr k
      cases k <;> rfl
    simp [allocate, popUncached, evictLru, hqueue, hfind]
  have hzero := hnone.mp hall
  rw [numFree, hqueue] at hzero
  change n - 3 = 0 at hzero
  omega

end BlockPool

end Rllm
