import Mathlib.Data.List.Sort
import Rllm.Core.Config

/-! # The waiting queue

An insertion-ordered map from request ids to their priority and arrival time.
Under the priority policy every push sorts the queue again.
-/

namespace Rllm

structure QueueEntry where
  priority : ℤ
  arrivalTime : ℕ
  deriving DecidableEq, Repr

/-- No id is queued twice. -/
structure RequestQueue where
  entries : List (RequestId × QueueEntry)
  nodup : (entries.map Prod.fst).Nodup

namespace RequestQueue

def empty : RequestQueue := ⟨[], List.nodup_nil⟩

/-- The queued ids in order. -/
def ids (q : RequestQueue) : List RequestId := q.entries.map Prod.fst

/-- Higher priority first, then earlier arrival. -/
def Before (a b : RequestId × QueueEntry) : Prop :=
  b.2.priority < a.2.priority ∨
    a.2.priority = b.2.priority ∧ a.2.arrivalTime ≤ b.2.arrivalTime

instance : DecidableRel Before := fun _ _ => inferInstanceAs (Decidable (_ ∨ _ ∧ _))

/-- Set an entry, keeping the place of an id that is queued already. -/
def insertEntry (entries : List (RequestId × QueueEntry)) (id : RequestId) (e : QueueEntry) :
    List (RequestId × QueueEntry) :=
  if id ∈ entries.map Prod.fst then entries.map fun x => if x.1 = id then (id, e) else x
  else entries ++ [(id, e)]

theorem map_fst_insertEntry (entries : List (RequestId × QueueEntry)) (id : RequestId)
    (e : QueueEntry) : (insertEntry entries id e).map Prod.fst =
      if id ∈ entries.map Prod.fst then entries.map Prod.fst else entries.map Prod.fst ++ [id] := by
  unfold insertEntry
  split
  · rw [List.map_map]
    refine List.map_congr_left fun x _ => ?_
    by_cases hx : x.1 = id <;> simp [hx]
  · simp

theorem nodup_insertEntry {entries : List (RequestId × QueueEntry)} (id : RequestId)
    (e : QueueEntry) (h : (entries.map Prod.fst).Nodup) :
    ((insertEntry entries id e).map Prod.fst).Nodup := by
  rw [map_fst_insertEntry]
  split
  · exact h
  · rename_i hid
    exact List.nodup_append.mpr ⟨h, List.nodup_singleton _, fun a ha b hb =>
      fun hab => hid (List.mem_singleton.mp hb ▸ hab ▸ ha)⟩

theorem nodup_insertionSort {entries : List (RequestId × QueueEntry)}
    (h : (entries.map Prod.fst).Nodup) : ((entries.insertionSort Before).map Prod.fst).Nodup :=
  (List.Perm.map Prod.fst (List.perm_insertionSort Before entries)).nodup_iff.mpr h

def push (q : RequestQueue) (policy : SchedulingPolicy) (id : RequestId) (priority : ℤ)
    (arrivalTime : ℕ) : RequestQueue :=
  match policy with
  | .fcfs => ⟨insertEntry q.entries id { priority, arrivalTime }, nodup_insertEntry _ _ q.nodup⟩
  | .priority => ⟨(insertEntry q.entries id { priority, arrivalTime }).insertionSort Before,
      nodup_insertionSort (nodup_insertEntry _ _ q.nodup)⟩

def peek (q : RequestQueue) : Option RequestId := q.ids.head?

/-- Both `remove` and `pop_request`: the order of the others is kept. -/
def remove (q : RequestQueue) (id : RequestId) : RequestQueue :=
  ⟨q.entries.filter fun x => x.1 ≠ id,
    q.nodup.sublist (List.Sublist.map Prod.fst List.filter_sublist)⟩

def len (q : RequestQueue) : ℕ := q.entries.length

def isEmpty (q : RequestQueue) : Bool := q.entries.isEmpty

variable {q : RequestQueue} {id : RequestId}

theorem nodup_ids (q : RequestQueue) : q.ids.Nodup := q.nodup

@[simp] theorem ids_empty : empty.ids = [] := rfl

theorem len_eq (q : RequestQueue) : q.len = q.ids.length := by simp [len, ids]

theorem ids_push_perm (policy : SchedulingPolicy) (priority : ℤ) (arrivalTime : ℕ) :
    (q.push policy id priority arrivalTime).ids.Perm
      (if id ∈ q.ids then q.ids else q.ids ++ [id]) := by
  cases policy with
  | fcfs =>
    refine List.Perm.of_eq ?_
    exact map_fst_insertEntry _ _ _
  | priority =>
    refine (List.Perm.map Prod.fst (List.perm_insertionSort Before _)).trans (List.Perm.of_eq ?_)
    exact map_fst_insertEntry _ _ _

@[simp] theorem mem_ids_push {policy : SchedulingPolicy} {priority : ℤ} {arrivalTime : ℕ}
    {i : RequestId} : i ∈ (q.push policy id priority arrivalTime).ids ↔ i ∈ q.ids ∨ i = id := by
  rw [(ids_push_perm policy priority arrivalTime).mem_iff]
  split
  · rename_i hid
    exact ⟨Or.inl, fun h => h.elim (fun h => h) fun h => h ▸ hid⟩
  · simp

theorem ids_remove (q : RequestQueue) (id : RequestId) :
    (q.remove id).ids = q.ids.filter (· ≠ id) := by
  simp only [ids, remove, List.filter_map]
  rfl

@[simp] theorem mem_ids_remove {i : RequestId} : i ∈ (q.remove id).ids ↔ i ∈ q.ids ∧ i ≠ id := by
  rw [ids_remove]
  simp

theorem mem_ids_of_peek (h : q.peek = some id) : id ∈ q.ids := List.mem_of_mem_head? h

theorem isEmpty_iff : q.isEmpty = true ↔ q.ids = [] := by
  simp [isEmpty, ids, List.isEmpty_iff]

end RequestQueue

end Rllm
