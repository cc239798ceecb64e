import Rllm.Scheduler.Phases

/-! # The lists of a step's output

The five lists of an output name every request at most once, unless the
admission loop picks a request that the step has just preempted: that request
is listed as preempted and as scheduled.
-/

namespace Rllm

variable {H : HashFns} {cfg : Config} {s : Scheduler} {st st' : StepState}

/-- No request occurs twice within or across the lists. -/
def SchedulerOutput.Disjoint (o : SchedulerOutput) : Prop :=
  (o.scheduledNew ++ o.scheduledCached ++ o.scheduledRunning ++ o.preempted ++ o.finished).Nodup

instance (o : SchedulerOutput) : Decidable o.Disjoint :=
  inferInstanceAs (Decidable (List.Nodup _))

/-- The admission loop picks no request that the step has preempted. -/
def Guards.noReadmission (H : HashFns) (cfg : Config) : Guards where
  finishes _ := True
  decodes _ _ := True
  admits st := ∀ a, st.admission H cfg = some a → a.requestId ∉ st.output.preempted

/-! ## What the admission loop adds -/

/-- The lists of an output that the admission loop extends, and the one it leaves alone. -/
structure Extends (o o' : SchedulerOutput) : Prop where
  new : ∀ id ∈ o.scheduledNew, id ∈ o'.scheduledNew
  cached : ∀ id ∈ o.scheduledCached, id ∈ o'.scheduledCached
  preempted_eq : o'.preempted = o.preempted

theorem Extends.refl (o : SchedulerOutput) : Extends o o := ⟨fun _ h => h, fun _ h => h, rfl⟩

theorem Extends.trans {o o' o'' : SchedulerOutput} (h : Extends o o') (h' : Extends o' o'') :
    Extends o o'' :=
  ⟨fun id hid => h'.new id (h.new id hid), fun id hid => h'.cached id (h.cached id hid),
    h'.preempted_eq.trans h.preempted_eq⟩

namespace StepState

theorem cachedOf_output (id : RequestId) : (st.cachedOf H cfg id).2.output = st.output := by
  unfold cachedOf
  dsimp only
  split <;> rfl

theorem admitNew_extends (cfg : Config) (st : StepState) (id : RequestId) (tokens total : ℕ) :
    Extends st.output (st.admitNew cfg id tokens total).output ∧
      id ∈ (st.admitNew cfg id tokens total).output.scheduledNew := by
  rw [admitNew_output]
  exact ⟨⟨fun i hi => List.mem_append_left _ hi, fun _ hi => hi, rfl⟩, by simp⟩

theorem admit_extends (st : StepState) {id : RequestId}
    (h : st.admitSelected H cfg id = .done st' ∨ st.admitSelected H cfg id = .yield st') :
    Extends st.output st'.output := by
  unfold admitSelected at h
  cases hc : st.cachedOf H cfg id with
  | mk numCached st₁ =>
    have ho : (st.cachedOf H cfg id).2.output = st.output := cachedOf_output id
    rw [hc] at ho
    simp only [hc] at h
    rw [← ho]
    split at h
    · simp only [reduceCtorEq, false_or, ForInStep.yield.injEq] at h
      subst h
      exact ⟨fun _ hi => hi, fun i hi => List.mem_append_left _ hi, rfl⟩
    · split at h
      · simp only [reduceCtorEq, or_false, ForInStep.done.injEq] at h
        subst h
        exact .refl _
      · split at h
        · simp only [reduceCtorEq, false_or, ForInStep.yield.injEq] at h
          subst h
          rename_i kv _
          exact (admitNew_extends cfg (st₁.setKV kv) id _ _).1
        · simp only [reduceCtorEq, or_false, ForInStep.done.injEq] at h
          subst h
          exact .refl _

theorem waitingIter_extends
    (h : st.waitingIter H cfg = .done st' ∨ st.waitingIter H cfg = .yield st') :
    Extends st.output st'.output := by
  unfold waitingIter at h
  split at h
  · simp only [reduceCtorEq, or_false, ForInStep.done.injEq] at h
    subst h
    exact .refl _
  · split at h
    · simp only [reduceCtorEq, or_false, ForInStep.done.injEq] at h
      subst h
      exact .refl _
    · rename_i id sched _
      exact admit_extends { st with sched } h

theorem waitingLoop_extends (n : ℕ) (st : StepState) :
    Extends st.output (st.waitingLoop H cfg n).output := by
  induction n generalizing st with
  | zero => exact .refl _
  | succ n ih =>
    unfold waitingLoop
    split
    · split
      · rename_i st' hd
        exact waitingIter_extends (Or.inl hd)
      · rename_i st' hy
        exact (waitingIter_extends (Or.inr hy)).trans (ih st')
    · exact .refl _

theorem waitingIter_of_admission {a : Admission}
    (hmax : st.sched.running.length < cfg.scheduler.maxNumSeqs)
    (ha : st.admission H cfg = some a) : ∃ st', st.waitingIter H cfg = .yield st' ∧
      (a.requestId ∈ st'.output.scheduledNew ∨ a.requestId ∈ st'.output.scheduledCached) := by
  unfold admission selection at ha
  unfold waitingIter
  rw [if_neg (not_le.mpr hmax)]
  cases hsel : st.sched.selectWaitingRequest H cfg with
  | mk sel sched =>
    cases sel with
    | none => simp [hsel] at ha
    | some id =>
      simp only [hsel] at ha
      dsimp only
      unfold admitSelected
      cases hc : StepState.cachedOf H cfg { st with sched } id with
      | mk numCached st₁ =>
        simp only [hc] at ha
        dsimp only
        split at ha
        · rename_i hrem
          obtain rfl := Option.some.inj ha
          exact ⟨_, if_pos hrem, Or.inr (by simp [admitCached])⟩
        · rename_i hrem
          rw [if_neg hrem]
          split at ha
          · cases ha
          · rename_i htok
            rw [if_neg htok]
            split at ha
            · rename_i hsome
              obtain rfl := Option.some.inj ha
              split
              · exact ⟨_, rfl, Or.inl (admitNew_extends _ _ _ _ _).2⟩
              · rename_i hkv
                rw [hkv] at hsome
                cases hsome
            · cases ha

theorem waitingAll_of_disjoint (n : ℕ) (st : StepState)
    (h : ∀ id ∈ (st.waitingLoop H cfg n).output.preempted,
      id ∉ (st.waitingLoop H cfg n).output.scheduledNew ∧
        id ∉ (st.waitingLoop H cfg n).output.scheduledCached) :
    st.WaitingAll H cfg (Guards.noReadmission H cfg).admits n := by
  induction n generalizing st with
  | zero => exact True.intro
  | succ n ih =>
    intro hc hmax
    unfold waitingLoop at h
    rw [if_pos hc] at h
    refine ⟨fun a ha hpre => ?_, ?_⟩
    · obtain ⟨st', hy, hin⟩ := waitingIter_of_admission hmax ha
      rw [hy] at h
      have hext : Extends st'.output (st'.waitingLoop H cfg n).output := waitingLoop_extends n st'
      have hpre' := (waitingIter_extends (Or.inr hy)).preempted_eq ▸ hpre
      obtain ⟨h₁, h₂⟩ := h a.requestId (hext.preempted_eq ▸ hpre')
      exact hin.elim (fun hi => h₁ (hext.new _ hi)) fun hi => h₂ (hext.cached _ hi)
    · split
      · exact True.intro
      · rename_i st' hy
        rw [hy] at h
        exact ih st' h

end StepState

/-! ## Every step -/

theorem Phase.not_readmitted {K : Guards} {id : RequestId} {p₀ p : Place} {μ : Mention}
    (h : Phase H cfg K id p₀ p μ)
    (hK : ∀ st a, K.admits st → st.admission H cfg = some a → a.requestId ∉ st.output.preempted)
    (hpre : μ.preempted = true) : μ.new = false ∧ μ.cached = false := by
  cases h with
  | same | finished | decoded => cases hpre
  | queued => exact ⟨rfl, rfl⟩
  | admitted _ _ hg =>
    obtain ⟨st₀, hA, ha, hd, -⟩ := hg
    exact absurd (of_decide_eq_true (hd ▸ hpre)) (hK _ _ hA ha)

theorem SchedulerOutput.disjoint_iff {o : SchedulerOutput} (ho : o.EachOnce)
    (hx : ∀ id, ((o.mention id).new = true → (o.mention id).cached = false ∧
        (o.mention id).decoded = false ∧ (o.mention id).finished = false) ∧
      ((o.mention id).cached = true → (o.mention id).decoded = false ∧
        (o.mention id).finished = false) ∧
      ((o.mention id).decoded = true → (o.mention id).preempted = false ∧
        (o.mention id).finished = false) ∧
      ((o.mention id).preempted = true → (o.mention id).finished = false)) :
    o.Disjoint ↔ ∀ id ∈ o.preempted, id ∉ o.scheduledNew ∧ id ∉ o.scheduledCached := by
  simp only [SchedulerOutput.mention_new, SchedulerOutput.mention_cached,
    SchedulerOutput.mention_decoded, SchedulerOutput.mention_preempted,
    SchedulerOutput.mention_finished, decide_eq_true_eq, decide_eq_false_iff_not] at hx
  simp only [SchedulerOutput.Disjoint, List.nodup_append, List.mem_append, ho.new, ho.cached,
    ho.decoded, ho.preempted, ho.finished, true_and]
  constructor
  · rintro ⟨⟨-, h⟩, -⟩ id hid
    exact ⟨fun hn => h id (Or.inl (Or.inl hn)) id hid rfl,
      fun hc => h id (Or.inl (Or.inr hc)) id hid rfl⟩
  · intro h
    refine ⟨⟨⟨fun a ha b hb hab => ?_, fun a ha b hb hab => ?_⟩, fun a ha b hb hab => ?_⟩,
      fun a ha b hb hab => ?_⟩
    · subst hab
      exact ((hx a).1 ha).1 hb
    · subst hab
      exact ha.elim (fun ha => ((hx a).1 ha).2.1 hb) fun ha => ((hx a).2.1 ha).1 hb
    · subst hab
      rcases ha with (ha | ha) | ha
      · exact (h a hb).1 ha
      · exact (h a hb).2 ha
      · exact ((hx a).2.2.1 ha).1 hb
    · subst hab
      rcases ha with ((ha | ha) | ha) | ha
      · exact ((hx a).1 ha).2.2 hb
      · exact ((hx a).2.1 ha).2 hb
      · exact ((hx a).2.2.1 ha).2 hb
      · exact (hx a).2.2.2 ha hb

/-- The lists of a step are disjoint if and only if its admission loop never picks a request that
the step preempted. -/
theorem SchedRun.step_disjoint_iff {added : List InferenceRequest} (h : SchedRun H cfg added s)
    (ord : HashOrder) :
    (s.step H cfg ord).1.Disjoint ↔ s.StepAll H cfg (.noReadmission H cfg) ord := by
  have hp := h.partition.1
  have ho : (s.step H cfg ord).1.EachOnce := Scheduler.step_eachOnce hp ord
  rw [SchedulerOutput.disjoint_iff ho fun id =>
    (Scheduler.step_phase hp (Scheduler.stepAll_any ord s) id).exclusive]
  constructor
  · intro hd hpaused
    rw [Scheduler.step_eq hpaused] at hd
    exact ⟨fun _ _ _ _ => True.intro, StepState.runningAll_of_forall (fun _ _ => True.intro) _ _,
      StepState.waitingAll_of_disjoint _ _ hd⟩
  · intro hall id hid
    simpa using (Scheduler.step_phase hp hall id).not_readmitted (fun _ _ hA ha => hA _ ha)
      (by simpa using hid)

end Rllm
