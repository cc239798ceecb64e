import Mathlib.Logic.Function.Basic
import Rllm.Scheduler.Queue

/-! # Sequences of queue operations

Under the priority policy the queue lists the entries that were pushed and have
not left, sorted by priority and arrival, whatever operations led to it.
-/

namespace Rllm

namespace RequestQueue

/-- Take the front of the queue. -/
def pop (q : RequestQueue) : Option RequestId × RequestQueue :=
  (q.peek, ⟨q.entries.tail, q.nodup.sublist ((List.tail_sublist _).map Prod.fst)⟩)

def popRequest (q : RequestQueue) (id : RequestId) : Option RequestId × RequestQueue :=
  (if id ∈ q.ids then some id else none, q.remove id)

end RequestQueue

/-- The operations that change a queue. -/
inductive QueueOp where
  | push (id : RequestId) (priority : ℤ) (arrivalTime : ℕ)
  | pop
  | popRequest (id : RequestId)
  | remove (id : RequestId)

/-- What an operation means for the requests. -/
inductive QueueEvent where
  | pushed (id : RequestId) (e : QueueEntry)
  | left (id : RequestId)

namespace QueueOp

variable (policy : SchedulingPolicy) (q : RequestQueue)

def run : QueueOp → RequestQueue
  | push id priority arrivalTime => q.push policy id priority arrivalTime
  | pop => q.pop.2
  | popRequest id => (q.popRequest id).2
  | remove id => q.remove id

/-- The event of an operation: a `pop` of an empty queue has none. -/
def event : QueueOp → Option QueueEvent
  | push id priority arrivalTime => some (.pushed id { priority, arrivalTime })
  | pop => q.pop.1.map .left
  | popRequest id | remove id => some (.left id)

end QueueOp

/-- The entries pushed and not removed, by request: a push replaces the entry before it. -/
def QueueEvent.apply (pending : RequestId → Option QueueEntry) :
    QueueEvent → RequestId → Option QueueEntry
  | pushed id e => Function.update pending id (some e)
  | left id => Function.update pending id none

namespace RequestQueue

/-- The queue after a sequence of operations. -/
def runOps (policy : SchedulingPolicy) (ops : List QueueOp) : RequestQueue :=
  ops.foldl (QueueOp.run policy) empty

/-- The events of a sequence of operations. -/
def history (policy : SchedulingPolicy) : RequestQueue → List QueueOp → List QueueEvent
  | _, [] => []
  | q, op :: ops => (op.event q).toList ++ history policy (op.run policy q) ops

/-- The entry of each request in its last push, if it has not left since. -/
def lastPush (events : List QueueEvent) : RequestId → Option QueueEntry :=
  events.foldl QueueEvent.apply fun _ => none

/-- The queue lists the pending entries, each once, in the order of the policy. -/
structure Lists (q : RequestQueue) (pending : RequestId → Option QueueEntry) : Prop where
  mem_iff : ∀ id e, (id, e) ∈ q.entries ↔ pending id = some e
  once : q.ids.Nodup
  sorted : q.entries.Pairwise Before

/-- `pop` and `peek` return the first of the pending entries. -/
structure Serves (q : RequestQueue) (pending : RequestId → Option QueueEntry) : Prop where
  peek_eq : q.peek = q.ids.head?
  pop_eq : q.pop.1 = q.peek
  rest_eq : q.pop.2.ids = q.ids.tail
  first : ∀ id, q.peek = some id → ∃ e, pending id = some e ∧
    ∀ id' e', pending id' = some e' → Before (id, e) (id', e')
  none_iff : q.peek = none ↔ ∀ id, pending id = none

/-! ## The order -/

instance : Std.Total Before where
  total a b := by
    unfold Before
    omega

instance : IsTrans (RequestId × QueueEntry) Before where
  trans a b c hab hbc := by
    unfold Before at *
    omega

theorem before_refl (a : RequestId × QueueEntry) : Before a a := Or.inr ⟨rfl, le_rfl⟩

variable {q : RequestQueue} {id : RequestId} {pending : RequestId → Option QueueEntry}

theorem sorted_push (q : RequestQueue) (id : RequestId) (priority : ℤ) (arrivalTime : ℕ) :
    (q.push .priority id priority arrivalTime).entries.Pairwise Before :=
  List.pairwise_insertionSort Before _

theorem sorted_remove (h : q.entries.Pairwise Before) (id : RequestId) :
    (q.remove id).entries.Pairwise Before :=
  List.Pairwise.sublist List.filter_sublist h

/-! ## One operation -/

theorem mem_insertEntry {entries : List (RequestId × QueueEntry)} {e : QueueEntry}
    {x : RequestId × QueueEntry} :
    x ∈ insertEntry entries id e ↔ if x.1 = id then x.2 = e else x ∈ entries := by
  obtain ⟨i, e'⟩ := x
  unfold insertEntry
  split
  · rename_i hid
    rw [List.mem_map]
    constructor
    · rintro ⟨y, hy, hx⟩
      split at hx
      · obtain ⟨rfl, rfl⟩ := Prod.mk.inj hx
        exact (if_pos rfl).mpr rfl
      · rename_i hne
        subst hx
        exact (if_neg hne).mpr hy
    · intro hx
      split at hx
      · rename_i hi
        obtain ⟨y, hy, hyid⟩ := List.mem_map.mp hid
        exact ⟨y, hy, by rw [if_pos hyid, ← hi, ← hx]⟩
      · rename_i hi
        exact ⟨_, hx, if_neg hi⟩
  · rename_i hid
    rw [List.mem_append, List.mem_singleton]
    by_cases hi : i = id
    · have hnot : (i, e') ∉ entries := fun hm => hid (hi ▸ List.mem_map_of_mem hm)
      simp [hi, hi ▸ hnot]
    · simp [hi]

theorem mem_entries_push {policy : SchedulingPolicy} {priority : ℤ} {arrivalTime : ℕ}
    {x : RequestId × QueueEntry} : x ∈ (q.push policy id priority arrivalTime).entries ↔
      if x.1 = id then x.2 = ⟨priority, arrivalTime⟩ else x ∈ q.entries := by
  rw [← mem_insertEntry]
  cases policy with
  | fcfs => exact Iff.rfl
  | priority => exact List.mem_insertionSort Before

theorem Lists.push (h : Lists q pending) (id : RequestId) (priority : ℤ) (arrivalTime : ℕ) :
    Lists (q.push .priority id priority arrivalTime)
      (Function.update pending id (some ⟨priority, arrivalTime⟩)) where
  mem_iff i e := by
    rw [mem_entries_push]
    by_cases hi : i = id
    · subst hi
      rw [Function.update_self, Option.some.injEq, if_pos rfl, eq_comm]
    · rw [Function.update_of_ne hi, if_neg hi]
      exact h.mem_iff i e
  once := nodup_ids _
  sorted := sorted_push q id priority arrivalTime

theorem Lists.remove (h : Lists q pending) (id : RequestId) :
    Lists (q.remove id) (Function.update pending id none) where
  mem_iff i e := by
    change (i, e) ∈ q.entries.filter _ ↔ _
    rw [List.mem_filter, h.mem_iff]
    by_cases hi : i = id
    · simp [hi]
    · simp [hi]
  once := nodup_ids _
  sorted := sorted_remove h.sorted id

theorem pop_eq_remove (hq : q.peek = some id) : q.pop.2 = q.remove id := by
  obtain ⟨entries, hnd⟩ := q
  cases entries with
  | nil => cases hq
  | cons x xs =>
    obtain rfl : x.1 = id := Option.some.inj hq
    obtain ⟨hx, -⟩ := List.nodup_cons.mp hnd
    have hkeep : xs.filter (fun y => y.1 ≠ x.1) = xs := by
      refine List.filter_eq_self.mpr fun y hy => decide_eq_true fun he => hx ?_
      exact he ▸ List.mem_map_of_mem hy
    simp only [pop, remove, List.tail_cons, List.filter_cons, ne_eq, not_true, decide_false,
      Bool.false_eq_true, if_false]
    congr 1
    exact hkeep.symm

theorem pop_of_empty (hq : q.peek = none) : q.pop.2 = q := by
  obtain ⟨entries, hnd⟩ := q
  cases entries with
  | nil => rfl
  | cons x xs => cases hq

/-- An operation does to the queue what its event does to the pending entries. -/
theorem Lists.run (h : Lists q pending) (op : QueueOp) :
    Lists (op.run .priority q) ((op.event q).toList.foldl QueueEvent.apply pending) := by
  cases op with
  | push id priority arrivalTime => exact h.push id priority arrivalTime
  | popRequest id => exact h.remove id
  | remove id => exact h.remove id
  | pop =>
    cases hq : q.peek with
    | none =>
      have hevent : QueueOp.event q .pop = none := congrArg (Option.map QueueEvent.left) hq
      rw [hevent, QueueOp.run, pop_of_empty hq]
      exact h
    | some id =>
      have hevent : QueueOp.event q .pop = some (.left id) :=
        congrArg (Option.map QueueEvent.left) hq
      rw [hevent, QueueOp.run, pop_eq_remove hq]
      exact h.remove id

/-! ## Whole sequences -/

theorem lists_empty : Lists empty fun _ => none where
  mem_iff _ _ := by simp [empty]
  once := List.nodup_nil
  sorted := List.Pairwise.nil

theorem Lists.runAll (h : Lists q pending) (ops : List QueueOp) :
    Lists (ops.foldl (QueueOp.run .priority) q)
      ((history .priority q ops).foldl QueueEvent.apply pending) := by
  induction ops generalizing q pending with
  | nil => exact h
  | cons op ops ih =>
    rw [history, List.foldl_append]
    exact ih (h.run op)

theorem Lists.serves (h : Lists q pending) : Serves q pending where
  peek_eq := rfl
  pop_eq := rfl
  rest_eq := List.map_tail
  first id hq := by
    obtain ⟨⟨i, e⟩, xs, hx, rfl⟩ : ∃ x xs, q.entries = x :: xs ∧ x.1 = id := by
      cases hx : q.entries with
      | nil => simp [peek, ids, hx] at hq
      | cons x xs => exact ⟨x, xs, rfl, by simpa [peek, ids, hx] using hq⟩
    have hsorted := h.sorted
    rw [hx] at hsorted
    refine ⟨e, (h.mem_iff i e).mp (hx ▸ List.mem_cons_self), fun id' e' he' => ?_⟩
    have hmem := (h.mem_iff id' e').mpr he'
    rw [hx] at hmem
    rcases List.mem_cons.mp hmem with heq | hmem
    · exact heq ▸ before_refl _
    · exact List.rel_of_pairwise_cons hsorted hmem
  none_iff := by
    rw [peek, List.head?_eq_none_iff, ids, List.map_eq_nil_iff, List.eq_nil_iff_forall_not_mem]
    constructor
    · intro hempty id
      cases hp : pending id with
      | none => rfl
      | some e => exact absurd ((h.mem_iff id e).mpr hp) (hempty (id, e))
    · rintro hnone ⟨id, e⟩ hmem
      rw [h.mem_iff, hnone] at hmem
      cases hmem

/-- Whatever the operations, the queue lists what was pushed and has not left, in order, and serves
its first entry. -/
theorem runOps_ordered (ops : List QueueOp) :
    Lists (runOps .priority ops) (lastPush (history .priority empty ops)) ∧
      Serves (runOps .priority ops) (lastPush (history .priority empty ops)) :=
  have h := lists_empty.runAll ops
  ⟨h, h.serves⟩

/-- A second push moves a request behind one that arrived before it. -/
example : (runOps .priority [.push 1 5 0, .push 2 3 1, .push 1 3 2, .push 3 9 3, .pop]).ids =
    [2, 1] := by decide

end RequestQueue

end Rllm
