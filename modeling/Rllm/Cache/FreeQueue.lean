import Rllm.Cache.BlockPool

/-! # The free queue as a list

`FreeList p l` says that the links stored in the blocks of `p` spell the list
`l`. Unlinking and linking blocks act on `l` as removal and insertion, and
leave all other data of the blocks alone.
-/

namespace Rllm

open DoublyLinked

theorem blockAt_modify {blocks : List KVCacheBlock} {i : ℕ} (f : KVCacheBlock → KVCacheBlock)
    (j : ℕ) (hi : i < blocks.length) :
    blockAt (blocks.modify i f) j = if i = j then f (blockAt blocks j) else blockAt blocks j := by
  simp only [blockAt, List.getD_eq_getElem?_getD, List.getElem?_modify]
  by_cases hj : i = j
  · subst hj
    simp [hi]
  · simp [hj]

theorem nextFree_modify {blocks : List KVCacheBlock} {f : KVCacheBlock → KVCacheBlock}
    (hf : ∀ b, (f b).nextFree = b.nextFree) (i j : ℕ) :
    (blockAt (blocks.modify i f) j).nextFree = (blockAt blocks j).nextFree := by
  simp only [blockAt, List.getD_eq_getElem?_getD, List.getElem?_modify]
  by_cases hj : i = j
  · subst hj
    cases blocks[i]? <;> simp [hf]
  · simp [hj]

theorem prevFree_modify {blocks : List KVCacheBlock} {f : KVCacheBlock → KVCacheBlock}
    (hf : ∀ b, (f b).prevFree = b.prevFree) (i j : ℕ) :
    (blockAt (blocks.modify i f) j).prevFree = (blockAt blocks j).prevFree := by
  simp only [blockAt, List.getD_eq_getElem?_getD, List.getElem?_modify]
  by_cases hj : i = j
  · subst hj
    cases blocks[i]? <;> simp [hf]
  · simp [hj]

/-- A block without its free-queue links. -/
def KVCacheBlock.core (b : KVCacheBlock) : KVCacheBlock :=
  { b with prevFree := none, nextFree := none }

theorem KVCacheBlock.core_eq {b : KVCacheBlock} (hnext : b.nextFree = none)
    (hprev : b.prevFree = none) : b.core = b := by
  cases b
  cases hnext
  cases hprev
  rfl

theorem blockAt_modify_core {blocks : List KVCacheBlock} {f : KVCacheBlock → KVCacheBlock}
    (hf : ∀ b, (f b).core = b.core) (i j : ℕ) :
    (blockAt (blocks.modify i f) j).core = (blockAt blocks j).core := by
  simp only [blockAt, List.getD_eq_getElem?_getD, List.getElem?_modify]
  by_cases hj : i = j
  · subst hj
    cases blocks[i]? <;> simp [hf]
  · simp [hj]

namespace FreeBlockQueue

theorem pushFront_core (q : FreeBlockQueue) (blocks : List KVCacheBlock) (idx j : ℕ) :
    (blockAt (q.pushFront blocks idx).2 j).core = (blockAt blocks j).core := by
  simp only [pushFront]
  split
  · rw [blockAt_modify_core, blockAt_modify_core] <;> exact fun _ => rfl
  · rw [blockAt_modify_core]; exact fun _ => rfl

theorem pushBack_core (q : FreeBlockQueue) (blocks : List KVCacheBlock) (idx j : ℕ) :
    (blockAt (q.pushBack blocks idx).2 j).core = (blockAt blocks j).core := by
  simp only [pushBack]
  split
  · rw [blockAt_modify_core, blockAt_modify_core] <;> exact fun _ => rfl
  · rw [blockAt_modify_core]; exact fun _ => rfl

theorem remove_core (q : FreeBlockQueue) (blocks : List KVCacheBlock) (idx j : ℕ) :
    (blockAt (q.remove blocks idx).2 j).core = (blockAt blocks j).core := by
  simp only [remove]
  cases (blockAt blocks idx).prevFree <;> cases (blockAt blocks idx).nextFree <;> dsimp only
  · rw [blockAt_modify_core]; exact fun _ => rfl
  · rw [blockAt_modify_core, blockAt_modify_core] <;> exact fun _ => rfl
  · rw [blockAt_modify_core, blockAt_modify_core] <;> exact fun _ => rfl
  · rw [blockAt_modify_core, blockAt_modify_core, blockAt_modify_core] <;> exact fun _ => rfl

@[simp] theorem length_pushFront (q : FreeBlockQueue) (blocks : List KVCacheBlock) (idx : ℕ) :
    (q.pushFront blocks idx).2.length = blocks.length := by
  simp only [pushFront]; split <;> simp

@[simp] theorem length_pushBack (q : FreeBlockQueue) (blocks : List KVCacheBlock) (idx : ℕ) :
    (q.pushBack blocks idx).2.length = blocks.length := by
  simp only [pushBack]; split <;> simp

@[simp] theorem length_remove (q : FreeBlockQueue) (blocks : List KVCacheBlock) (idx : ℕ) :
    (q.remove blocks idx).2.length = blocks.length := by
  simp only [remove]
  cases (blockAt blocks idx).prevFree <;> cases (blockAt blocks idx).nextFree <;> simp

section Links

variable {q : FreeBlockQueue} {blocks : List KVCacheBlock} {a : ℕ} (j : ℕ)

theorem pushFront_nextFree (ha : a < blocks.length) :
    (blockAt (q.pushFront blocks a).2 j).nextFree =
      if a = j then q.head else (blockAt blocks j).nextFree := by
  simp only [pushFront]
  split
  · rw [nextFree_modify (by intro; rfl), blockAt_modify _ _ ha]
    split <;> rfl
  · rw [blockAt_modify _ _ ha]
    split <;> rfl

theorem pushFront_prevFree (ha : a < blocks.length)
    (hh : ∀ b, q.head = some b → b < blocks.length) :
    (blockAt (q.pushFront blocks a).2 j).prevFree =
      if q.head = some j then some a else if a = j then none else (blockAt blocks j).prevFree := by
  simp only [pushFront]
  split
  · rename_i b hb
    rw [blockAt_modify _ _ (by simpa using hh b hb), blockAt_modify _ _ ha, hb]
    simp only [Option.some.injEq]
    split <;> split <;> rfl
  · rename_i hb
    rw [blockAt_modify _ _ ha, hb]
    simp only [reduceCtorEq, if_false]
    split <;> rfl

theorem pushBack_prevFree (ha : a < blocks.length) :
    (blockAt (q.pushBack blocks a).2 j).prevFree =
      if a = j then q.tail else (blockAt blocks j).prevFree := by
  simp only [pushBack]
  split
  · rw [prevFree_modify (by intro; rfl), blockAt_modify _ _ ha]
    split <;> rfl
  · rw [blockAt_modify _ _ ha]
    split <;> rfl

theorem pushBack_nextFree (ha : a < blocks.length) (ht : ∀ b, q.tail = some b → b < blocks.length) :
    (blockAt (q.pushBack blocks a).2 j).nextFree =
      if q.tail = some j then some a else if a = j then none else (blockAt blocks j).nextFree := by
  simp only [pushBack]
  split
  · rename_i b hb
    rw [blockAt_modify _ _ (by simpa using ht b hb), blockAt_modify _ _ ha, hb]
    simp only [Option.some.injEq]
    split <;> split <;> rfl
  · rename_i hb
    rw [blockAt_modify _ _ ha, hb]
    simp only [reduceCtorEq, if_false]
    split <;> rfl

theorem remove_self (ha : a < blocks.length) : (blockAt (q.remove blocks a).2 a).nextFree = none ∧
    (blockAt (q.remove blocks a).2 a).prevFree = none := by
  simp only [remove]
  rw [blockAt_modify _ _ (by cases (blockAt blocks a).prevFree <;>
    cases (blockAt blocks a).nextFree <;> simpa using ha), if_pos rfl]
  exact ⟨rfl, rfl⟩

theorem remove_nextFree (ha : a < blocks.length) (haj : a ≠ j)
    (hp : ∀ b, (blockAt blocks a).prevFree = some b → b < blocks.length) :
    (blockAt (q.remove blocks a).2 j).nextFree =
      if (blockAt blocks a).prevFree = some j then (blockAt blocks a).nextFree
      else (blockAt blocks j).nextFree := by
  simp only [remove]
  rw [blockAt_modify _ _ (by cases (blockAt blocks a).prevFree <;>
    cases (blockAt blocks a).nextFree <;> simpa using ha), if_neg haj]
  cases hpa : (blockAt blocks a).prevFree <;> cases (blockAt blocks a).nextFree <;> dsimp only
  · rfl
  · exact nextFree_modify (by intro; rfl) _ _
  · rename_i b
    rw [blockAt_modify _ _ (hp b hpa)]
    simp only [Option.some.injEq]
    split <;> rfl
  · rename_i b c
    rw [nextFree_modify (by intro; rfl), blockAt_modify _ _ (hp b hpa)]
    simp only [Option.some.injEq]
    split <;> rfl

theorem remove_prevFree (ha : a < blocks.length) (haj : a ≠ j)
    (hn : ∀ b, (blockAt blocks a).nextFree = some b → b < blocks.length) :
    (blockAt (q.remove blocks a).2 j).prevFree =
      if (blockAt blocks a).nextFree = some j then (blockAt blocks a).prevFree
      else (blockAt blocks j).prevFree := by
  simp only [remove]
  rw [blockAt_modify _ _ (by cases (blockAt blocks a).prevFree <;>
    cases (blockAt blocks a).nextFree <;> simpa using ha), if_neg haj]
  cases (blockAt blocks a).prevFree <;> cases hna : (blockAt blocks a).nextFree <;> dsimp only
  · rfl
  · rename_i b
    rw [blockAt_modify _ _ (hn b hna)]
    simp only [Option.some.injEq]
    split <;> rfl
  · exact prevFree_modify (by intro; rfl) _ _
  · rename_i b c
    rw [blockAt_modify _ _ (by simpa using hn c hna)]
    simp only [Option.some.injEq]
    split
    · rfl
    · exact prevFree_modify (by intro; rfl) _ _

end Links

theorem pushFront_ends (q : FreeBlockQueue) (blocks : List KVCacheBlock) (a : ℕ) :
    (q.pushFront blocks a).1.head = some a ∧
      (q.pushFront blocks a).1.tail = (if q.head.isSome then q.tail else some a) ∧
      (q.pushFront blocks a).1.len = q.len + 1 := by
  simp only [pushFront]
  split <;> rename_i h <;> simp [h]

theorem pushBack_ends (q : FreeBlockQueue) (blocks : List KVCacheBlock) (a : ℕ) :
    (q.pushBack blocks a).1.tail = some a ∧
      (q.pushBack blocks a).1.head = (if q.tail.isSome then q.head else some a) ∧
      (q.pushBack blocks a).1.len = q.len + 1 := by
  simp only [pushBack]
  split <;> rename_i h <;> simp [h]

theorem remove_ends (q : FreeBlockQueue) (blocks : List KVCacheBlock) (a : ℕ) :
    (q.remove blocks a).1.head =
        (if (blockAt blocks a).prevFree.isSome then q.head else (blockAt blocks a).nextFree) ∧
      (q.remove blocks a).1.tail =
        (if (blockAt blocks a).nextFree.isSome then q.tail else (blockAt blocks a).prevFree) ∧
      (q.remove blocks a).1.len = q.len - 1 := by
  simp only [remove]
  cases (blockAt blocks a).prevFree <;> cases (blockAt blocks a).nextFree <;> simp

end FreeBlockQueue

/-- The queue and the links stored in the blocks spell the list `l`. -/
structure QueueRep (q : FreeBlockQueue) (blocks : List KVCacheBlock) (l : List ℕ) : Prop where
  linked : Linked (fun i => (blockAt blocks i).nextFree) (fun i => (blockAt blocks i).prevFree)
    q.head q.tail l
  lt_length : ∀ i ∈ l, i < blocks.length
  len_eq : q.len = l.length

namespace QueueRep

variable {q : FreeBlockQueue} {blocks : List KVCacheBlock} {l : List ℕ} {a : ℕ}

theorem empty (blocks : List KVCacheBlock) : QueueRep {} blocks [] :=
  ⟨.empty, by simp, rfl⟩

theorem pushFront (h : QueueRep q blocks l) (ha : a ∉ l) (hr : a < blocks.length) :
    QueueRep (q.pushFront blocks a).1 (q.pushFront blocks a).2 (a :: l) := by
  obtain ⟨hhead, htail, hlen⟩ := q.pushFront_ends blocks a
  have hh : ∀ b, q.head = some b → b < blocks.length := fun b hb =>
    h.lt_length b (h.linked.head_mem hb)
  have hne : ∀ b ∈ l, a ≠ b := fun b hb he => ha (he ▸ hb)
  refine ⟨?_, ?_, by rw [hlen, h.len_eq, List.length_cons]⟩
  · have ht : (if q.head.isSome then q.tail else some a) = q.tail.or (some a) := by
      rw [h.linked.head_eq, h.linked.tail_eq]
      cases l <;> simp [List.getLast?_cons]
    rw [hhead, htail, ht]
    refine h.linked.pushFront ha ?_ ?_ ?_ ?_ ?_
    · rw [FreeBlockQueue.pushFront_nextFree _ hr, if_pos rfl]
    · have hqa : q.head ≠ some a := fun he => ha (h.linked.head_mem he)
      rw [FreeBlockQueue.pushFront_prevFree _ hr hh, if_neg hqa, if_pos rfl]
    · intro b hb
      rw [FreeBlockQueue.pushFront_nextFree _ hr, if_neg (hne b hb)]
    · intro b hb
      rw [FreeBlockQueue.pushFront_prevFree _ hr hh, if_pos hb]
    · intro b hb hqb
      rw [FreeBlockQueue.pushFront_prevFree _ hr hh, if_neg hqb, if_neg (hne b hb)]
  · intro i hi
    rw [FreeBlockQueue.length_pushFront]
    rcases List.mem_cons.mp hi with rfl | hi
    · exact hr
    · exact h.lt_length i hi

theorem pushBack (h : QueueRep q blocks l) (ha : a ∉ l) (hr : a < blocks.length) :
    QueueRep (q.pushBack blocks a).1 (q.pushBack blocks a).2 (l ++ [a]) := by
  obtain ⟨htail, hhead, hlen⟩ := q.pushBack_ends blocks a
  have ht : ∀ b, q.tail = some b → b < blocks.length := fun b hb =>
    h.lt_length b (h.linked.tail_mem hb)
  have hne : ∀ b ∈ l, a ≠ b := fun b hb he => ha (he ▸ hb)
  refine ⟨?_, ?_, by rw [hlen, h.len_eq]; simp⟩
  · have hh : (if q.tail.isSome then q.head else some a) = q.head.or (some a) := by
      rw [h.linked.head_eq, h.linked.tail_eq]
      cases l <;> simp [List.getLast?_cons]
    rw [hhead, htail, hh]
    refine h.linked.pushBack ha ?_ ?_ ?_ ?_ ?_
    · rw [FreeBlockQueue.pushBack_prevFree _ hr, if_pos rfl]
    · have hqa : q.tail ≠ some a := fun he => ha (h.linked.tail_mem he)
      rw [FreeBlockQueue.pushBack_nextFree _ hr ht, if_neg hqa, if_pos rfl]
    · intro b hb
      rw [FreeBlockQueue.pushBack_prevFree _ hr, if_neg (hne b hb)]
    · intro b hb
      rw [FreeBlockQueue.pushBack_nextFree _ hr ht, if_pos hb]
    · intro b hb hqb
      rw [FreeBlockQueue.pushBack_nextFree _ hr ht, if_neg hqb, if_neg (hne b hb)]
  · intro i hi
    rw [FreeBlockQueue.length_pushBack]
    rcases List.mem_append.mp hi with hi | hi
    · exact h.lt_length i hi
    · simpa [List.mem_singleton.mp hi] using hr

theorem remove (h : QueueRep q blocks l) (ha : a ∈ l) :
    QueueRep (q.remove blocks a).1 (q.remove blocks a).2 (l.erase a) := by
  obtain ⟨hhead, htail, hlen⟩ := q.remove_ends blocks a
  have hr := h.lt_length a ha
  have hp : ∀ b, (blockAt blocks a).prevFree = some b → b < blocks.length := fun b hb =>
    h.lt_length b (h.linked.prev_mem ha hb)
  have hn : ∀ b, (blockAt blocks a).nextFree = some b → b < blocks.length := fun b hb =>
    h.lt_length b (h.linked.next_mem ha hb)
  refine ⟨?_, ?_, ?_⟩
  · obtain ⟨l₁, l₂, rfl⟩ := List.append_of_mem ha
    have hnd := h.linked.nodup
    have ha₁ : a ∉ l₁ := fun hm => (List.nodup_append.mp hnd).2.2 a hm a (by simp) rfl
    have ha₂ : a ∉ l₂ := (List.nodup_cons.mp (List.nodup_append.mp hnd).2.1).1
    have hne : ∀ b, b ∈ l₁ ∨ b ∈ l₂ → a ≠ b := by
      rintro b (hb | hb) rfl
      · exact ha₁ hb
      · exact ha₂ hb
    rw [List.erase_append_right _ ha₁, List.erase_cons_head, hhead, htail]
    refine h.linked.remove ?_ ?_ ?_ ?_
    · intro b hb
      have hb₁ : b ∈ l₁ := List.mem_of_mem_getLast? (h.linked.prev_eq l₁ a l₂ rfl ▸ hb)
      rw [FreeBlockQueue.remove_nextFree _ hr (hne b (Or.inl hb₁)) hp, if_pos hb]
    · intro b hb hpb
      rw [FreeBlockQueue.remove_nextFree _ hr (hne b (by simpa using hb)) hp, if_neg hpb]
    · intro b hb
      have hb₂ : b ∈ l₂ := List.mem_of_mem_head? (h.linked.next_eq l₁ a l₂ rfl ▸ hb)
      rw [FreeBlockQueue.remove_prevFree _ hr (hne b (Or.inr hb₂)) hn, if_pos hb]
    · intro b hb hnb
      rw [FreeBlockQueue.remove_prevFree _ hr (hne b (by simpa using hb)) hn, if_neg hnb]
  · intro i hi
    rw [FreeBlockQueue.length_remove]
    exact h.lt_length i (List.mem_of_mem_erase hi)
  · rw [hlen, h.len_eq, List.length_erase_of_mem ha]

end QueueRep

end Rllm
