import Rllm.Library.Tables
import Rllm.Scheduler.Scheduler

/-! # The partition of the tracked requests

Every request the scheduler tracks is in exactly one of the waiting queue, the
running list and the finished set. The operations of the scheduler keep it so.
-/

namespace Rllm

namespace Scheduler

/-- Waiting, running and finished requests are a partition of the tracked ones. -/
structure Partition (s : Scheduler) : Prop where
  running_nodup : s.running.Nodup
  not_running : ∀ id ∈ s.waiting.ids, id ∉ s.running
  not_finished : ∀ id ∈ s.finished, id ∉ s.waiting.ids ∧ id ∉ s.running
  mem_requests : ∀ id, id ∈ s.requests ↔
    id ∈ s.waiting.ids ∨ id ∈ s.running ∨ id ∈ s.finished

variable {s : Scheduler} {id i : RequestId} {f : SchedulerRequest → SchedulerRequest}

@[simp] theorem modifyRequest_waiting : (s.modifyRequest id f).waiting = s.waiting := by
  unfold modifyRequest; split <;> rfl

@[simp] theorem modifyRequest_running : (s.modifyRequest id f).running = s.running := by
  unfold modifyRequest; split <;> rfl

@[simp] theorem modifyRequest_finished : (s.modifyRequest id f).finished = s.finished := by
  unfold modifyRequest; split <;> rfl

@[simp] theorem modifyRequest_kvCacheManager :
    (s.modifyRequest id f).kvCacheManager = s.kvCacheManager := by
  unfold modifyRequest; split <;> rfl

@[simp] theorem lookup_modifyRequest : (s.modifyRequest id f).requests.lookup i =
    if i = id then (s.requests.lookup i).map f else s.requests.lookup i := by
  unfold modifyRequest
  split
  · rename_i r hr
    by_cases hi : i = id
    · subst hi; simp [hr]
    · simp [AList.lookup_insert_ne hi, hi]
  · rename_i hr
    by_cases hi : i = id
    · subst hi; simp [hr]
    · simp [hi]

theorem mem_requests_iff : id ∈ s.requests ↔ ∃ r, s.requests.lookup id = some r := by
  rw [← AList.lookup_isSome, Option.isSome_iff_exists]

@[simp] theorem mem_modifyRequest : i ∈ (s.modifyRequest id f).requests ↔ i ∈ s.requests := by
  rw [← AList.lookup_isSome, ← AList.lookup_isSome, lookup_modifyRequest]
  split <;> simp

namespace Partition

theorem congr {s' : Scheduler} (h : Partition s) (hw : s'.waiting.ids = s.waiting.ids)
    (hr : s'.running = s.running) (hf : s'.finished = s.finished)
    (hm : ∀ id, id ∈ s'.requests ↔ id ∈ s.requests) : Partition s' where
  running_nodup := hr ▸ h.running_nodup
  not_running := by rw [hw, hr]; exact h.not_running
  not_finished := by rw [hw, hr, hf]; exact h.not_finished
  mem_requests id := by rw [hw, hr, hf, hm]; exact h.mem_requests id

theorem modifyRequest (h : Partition s) (id : RequestId)
    (f : SchedulerRequest → SchedulerRequest) : Partition (s.modifyRequest id f) :=
  h.congr (by simp) (by simp) (by simp) (by simp)

theorem finishRequestInternal (h : Partition s) (hid : id ∈ s.requests) :
    Partition (s.finishRequestInternal id) where
  running_nodup := h.running_nodup.filter _
  not_running i hi := by
    have hi' : i ∈ (s.waiting.remove id).ids := hi
    rw [RequestQueue.mem_ids_remove] at hi'
    intro hr
    exact h.not_running i hi'.1 (List.mem_of_mem_filter hr)
  not_finished i hi := by
    have hi' : i ∈ insert id s.finished := hi
    change i ∉ (s.waiting.remove id).ids ∧ i ∉ s.running.filter (· ≠ id)
    rw [RequestQueue.mem_ids_remove, List.mem_filter]
    rcases Finset.mem_insert.mp hi' with rfl | hi'
    · simp
    · have := h.not_finished i hi'
      tauto
  mem_requests i := by
    change i ∈ s.requests ↔ i ∈ (s.waiting.remove id).ids ∨ i ∈ s.running.filter (· ≠ id) ∨
      i ∈ insert id s.finished
    rw [RequestQueue.mem_ids_remove, List.mem_filter, Finset.mem_insert, h.mem_requests]
    by_cases hi : i = id
    · subst hi
      have := (h.mem_requests i).mp hid
      simp [this]
    · simp [hi]

theorem preemptRequest (h : Partition s) (cfg : Config) (hid : id ∈ s.running) :
    Partition (s.preemptRequest cfg id) := by
  obtain ⟨r, hr⟩ := mem_requests_iff.mp ((h.mem_requests id).mpr (Or.inr (Or.inl hid)))
  have hnf : id ∉ s.finished := fun hf => (h.not_finished id hf).2 hid
  unfold Scheduler.preemptRequest
  simp only [hr]
  refine ⟨h.running_nodup.filter _, ?_, ?_, ?_⟩
  · intro i hi
    rw [RequestQueue.mem_ids_push] at hi
    rw [List.mem_filter]
    rintro ⟨hri, hne⟩
    rcases hi with hi | rfl
    · exact h.not_running i hi hri
    · simp at hne
  · intro i hi
    rw [RequestQueue.mem_ids_push, List.mem_filter]
    have hi' : i ∈ s.finished := hi
    obtain ⟨hw, hrn⟩ := h.not_finished i hi'
    refine ⟨?_, fun hc => hrn hc.1⟩
    rintro (hw' | rfl)
    · exact hw hw'
    · exact hnf hi'
  · intro i
    rw [RequestQueue.mem_ids_push, List.mem_filter, AList.mem_insert, h.mem_requests]
    by_cases hi : i = id
    · simp [hi]
    · simp [hi]

theorem moveToRunning (h : Partition s) (hid : id ∈ s.waiting.ids) {s' : Scheduler}
    (hw : s'.waiting.ids = (s.waiting.remove id).ids) (hr : s'.running = s.running ++ [id])
    (hf : s'.finished = s.finished) (hm : ∀ i, i ∈ s'.requests ↔ i ∈ s.requests) :
    Partition s' := by
  have hnf : id ∉ s.finished := fun hf => (h.not_finished id hf).1 hid
  have hnr := h.not_running id hid
  refine ⟨?_, ?_, ?_, ?_⟩
  · rw [hr, List.nodup_append]
    refine ⟨h.running_nodup, List.nodup_singleton _, fun a ha b hb hab => ?_⟩
    rw [List.mem_singleton.mp hb] at hab
    exact hnr (hab ▸ ha)
  · intro i hi
    rw [hw, RequestQueue.mem_ids_remove] at hi
    rw [hr, List.mem_append, List.mem_singleton]
    rintro (hc | hc)
    · exact h.not_running i hi.1 hc
    · exact hi.2 hc
  · intro i hi
    rw [hf] at hi
    obtain ⟨hwi, hri⟩ := h.not_finished i hi
    rw [hw, hr, RequestQueue.mem_ids_remove, List.mem_append, List.mem_singleton]
    refine ⟨fun hc => hwi hc.1, ?_⟩
    rintro (hc | rfl)
    · exact hri hc
    · exact hnf hi
  · intro i
    rw [hm, hw, hr, hf, RequestQueue.mem_ids_remove, List.mem_append, List.mem_singleton,
      h.mem_requests]
    by_cases hi : i = id
    · subst hi; simp [hid]
    · simp [hi]

theorem addRequest (h : Partition s) (cfg : Config) {r : InferenceRequest}
    (hr : r.requestId ∉ s.requests) : Partition (s.addRequest cfg r) := by
  have hn := mt (h.mem_requests r.requestId).mpr hr
  push Not at hn
  refine ⟨h.running_nodup, ?_, ?_, ?_⟩
  · intro i hi
    simp only [Scheduler.addRequest, RequestQueue.mem_ids_push] at hi ⊢
    rcases hi with hi | rfl
    · exact h.not_running i hi
    · exact hn.2.1
  · intro i hi
    have hi' : i ∈ s.finished := hi
    simp only [Scheduler.addRequest, RequestQueue.mem_ids_push]
    refine ⟨?_, (h.not_finished i hi').2⟩
    rintro (hc | rfl)
    · exact (h.not_finished i hi').1 hc
    · exact hn.2.2 hi'
  · intro i
    simp only [Scheduler.addRequest, RequestQueue.mem_ids_push, AList.mem_insert, h.mem_requests]
    tauto

theorem abortRequest (h : Partition s) (id : RequestId) : Partition (s.abortRequest id) where
  running_nodup := h.running_nodup.filter _
  not_running i hi := by
    simp only [Scheduler.abortRequest, RequestQueue.mem_ids_remove] at hi ⊢
    intro hc
    exact h.not_running i hi.1 (List.mem_of_mem_filter hc)
  not_finished i hi := by
    simp only [Scheduler.abortRequest, Finset.mem_erase, RequestQueue.mem_ids_remove,
      List.mem_filter] at hi ⊢
    have := h.not_finished i hi.2
    tauto
  mem_requests i := by
    simp only [Scheduler.abortRequest, AList.mem_erase, Finset.mem_erase,
      RequestQueue.mem_ids_remove, List.mem_filter, h.mem_requests, decide_eq_true_eq]
    tauto

theorem new (cfg : Config) : Partition (Scheduler.new cfg) := by
  refine ⟨?_, ?_, ?_, ?_⟩
  · exact List.nodup_nil
  · intro id hid; cases hid
  · intro id hid; cases hid
  · intro id
    simp [Scheduler.new]

end Partition

end Scheduler

end Rllm
