import Rllm.Library.Tables
import Rllm.Worker.ModelRunner

/-! # What a batch feeds

Building a batch treats the scheduled requests one by one: the sequence of a
request depends on its own state and drafts only, after the finished and the
preempted requests are forgotten.
-/

namespace Rllm

/-- The pairs that a sequence feeds. -/
def BatchSeq.pairs (seq : BatchSeq) : List (ℕ × Token) := seq.positions.zip seq.tokenIds

/-- The sequence of a request in a batch. -/
def InputBatch.seqOf (b : InputBatch) (id : RequestId) : Option BatchSeq :=
  b.seqs.find? (·.requestId == id)

theorem InputBatch.mem_of_seqOf {b : InputBatch} {id : RequestId} {seq : BatchSeq}
    (h : b.seqOf id = some seq) : seq ∈ b.seqs ∧ seq.requestId = id :=
  ⟨List.mem_of_find?_eq_some h, by simpa using List.find?_some h⟩

theorem InputBatch.seqOf_eq_none {b : InputBatch} {id : RequestId} :
    b.seqOf id = none ↔ id ∉ b.requestIds := by
  simp [InputBatch.seqOf, InputBatch.requestIds]

theorem find?_of_nodup {α : Type} {f : α → RequestId} {l : List α} (hnd : (l.map f).Nodup) {a : α}
    (h : a ∈ l) : l.find? (f · == f a) = some a := by
  induction l with
  | nil => cases h
  | cons b l ih =>
    obtain ⟨hn, hnd⟩ := List.nodup_cons.mp hnd
    rcases List.mem_cons.mp h with rfl | h
    · simp
    · have hne : f b ≠ f a := fun he => hn (List.mem_map.mpr ⟨a, h, he.symm⟩)
      rw [List.find?_cons_of_neg (by simpa using hne)]
      exact ih hnd h

theorem InputBatch.seqOf_of_mem {b : InputBatch} (hnd : b.requestIds.Nodup) {seq : BatchSeq}
    (h : seq ∈ b.seqs) : b.seqOf seq.requestId = some seq :=
  find?_of_nodup hnd h

namespace ModelRunner

variable {blockSize : ℕ} {out : SchedulerOutput} {m m' m₁ m₂ : ModelRunner} {id i : RequestId}
  {seq : BatchSeq}

/-- Two runners that differ in their drafts at most. -/
structure SameStates (m m' : ModelRunner) : Prop where
  states_eq : m'.requestStates = m.requestStates
  params_eq : m'.requestSamplingParams = m.requestSamplingParams

theorem SameStates.refl (m : ModelRunner) : SameStates m m := ⟨rfl, rfl⟩

theorem SameStates.trans (h : SameStates m m₁) (h' : SameStates m₁ m₂) : SameStates m m₂ :=
  ⟨h'.states_eq.trans h.states_eq, h'.params_eq.trans h.params_eq⟩

/-- The drafts of the second runner are drafts of the first. -/
def DraftsFrom (m m' : ModelRunner) : Prop :=
  ∀ i ds, m'.speculativeDrafts.lookup i = some ds → m.speculativeDrafts.lookup i = some ds

theorem DraftsFrom.refl (m : ModelRunner) : DraftsFrom m m := fun _ _ h => h

theorem DraftsFrom.trans (h : DraftsFrom m m₁) (h' : DraftsFrom m₁ m₂) : DraftsFrom m m₂ :=
  fun i ds hi => h i ds (h' i ds hi)

/-! ## Forgetting requests -/

/-- The runner without the finished and the preempted requests of a step. -/
def clean (m : ModelRunner) (out : SchedulerOutput) : ModelRunner :=
  out.preempted.foldl removeRequest (out.finished.foldl removeRequest m)

theorem lookup_removeAll {β : Type} {f : ModelRunner → AList fun _ : RequestId => β}
    (hf : ∀ m id, f (m.removeRequest id) = (f m).erase id) (ids : List RequestId)
    (m : ModelRunner) :
    (f (ids.foldl removeRequest m)).lookup i = if i ∈ ids then none else (f m).lookup i := by
  induction ids generalizing m with
  | nil => simp
  | cons id ids ih =>
    rw [List.foldl_cons, ih, hf, lookup_erase_eq]
    by_cases h₁ : i ∈ ids
    · simp [h₁]
    · simp [h₁]

theorem lookup_clean {β : Type} {f : ModelRunner → AList fun _ : RequestId => β}
    (hf : ∀ m id, f (m.removeRequest id) = (f m).erase id) :
    (f (m.clean out)).lookup i =
      if i ∈ out.finished ∨ i ∈ out.preempted then none else (f m).lookup i := by
  rw [clean, lookup_removeAll hf, lookup_removeAll hf]
  by_cases h₁ : i ∈ out.preempted <;> by_cases h₂ : i ∈ out.finished <;> simp [h₁, h₂]

theorem states_clean : (m.clean out).requestStates.lookup i =
    if i ∈ out.finished ∨ i ∈ out.preempted then none else m.requestStates.lookup i :=
  lookup_clean fun _ _ => rfl

theorem params_clean : (m.clean out).requestSamplingParams.lookup i =
    if i ∈ out.finished ∨ i ∈ out.preempted then none else m.requestSamplingParams.lookup i :=
  lookup_clean fun _ _ => rfl

theorem drafts_clean : (m.clean out).speculativeDrafts.lookup i =
    if i ∈ out.finished ∨ i ∈ out.preempted then none else m.speculativeDrafts.lookup i :=
  lookup_clean fun _ _ => rfl

/-! ## One sequence -/

/-- A sequence with its positions counted from the computed tokens on. -/
structure SeqSpec (blockSize : ℕ) (out : SchedulerOutput) (id : RequestId) (start : ℕ)
    (tokens : List Token) (isPrefill : Bool) (seq : BatchSeq) : Prop where
  requestId_eq : seq.requestId = id
  tokenIds_eq : seq.tokenIds = tokens
  positions_eq : seq.positions = List.range' start tokens.length
  seqLen_eq : seq.seqLen = start + tokens.length
  seqLen_lt : start + tokens.length < 2 ^ 32
  blockTable_eq : seq.blockTable = (out.blockTables.lookup id).getD []
  slots_eq : seq.slotMapping = computeSlotMappings seq.positions seq.blockTable blockSize
  isPrefill_eq : seq.isPrefill = isPrefill

theorem positionsFrom_ok {start n : ℕ} {ps : List ℕ} (h : positionsFrom start n = .ok ps) :
    ps = List.range' start n := by
  unfold positionsFrom at h
  split at h
  · exact (Except.ok.inj h).symm
  · cases h

theorem makeSeq_ok {isPrefill : Bool} {computed : ℕ} {tokens : List Token} {positions : List ℕ}
    (h : makeSeq blockSize out id isPrefill computed tokens positions = .ok seq)
    (hp : positions = List.range' computed tokens.length) :
    SeqSpec blockSize out id computed tokens isPrefill seq := by
  unfold makeSeq at h
  split at h
  · rename_i hlt
    obtain rfl := Except.ok.inj h
    exact ⟨rfl, rfl, hp, rfl, hlt, rfl, rfl, rfl⟩
  · cases h

theorem prefillSeq_ok {state : RunnerRequestState} {n : ℕ} {seq? : Option BatchSeq}
    (h : prefillSeq blockSize out id state n = .ok seq?) :
    if state.promptTokenIds.length ≤ state.numComputedTokens then seq? = none
    else ∃ seq, seq? = some seq ∧ SeqSpec blockSize out id state.numComputedTokens
      ((state.promptTokenIds.drop state.numComputedTokens).take n) true seq := by
  unfold prefillSeq at h
  dsimp only at h
  split at h
  · rename_i hle
    rw [if_pos hle]
    exact (Except.ok.inj h).symm
  · rename_i hle
    rw [if_neg hle]
    cases hpos : positionsFrom state.numComputedTokens
        ((state.promptTokenIds.drop state.numComputedTokens).take n).length with
    | error e =>
      rw [hpos] at h
      cases h
    | ok ps =>
      rw [hpos] at h
      cases hseq : makeSeq blockSize out id true state.numComputedTokens
          ((state.promptTokenIds.drop state.numComputedTokens).take n) ps with
      | error e =>
        simp only [hseq, bind, Except.bind] at h
        cases h
      | ok seq =>
        simp only [hseq, bind, Except.bind, pure, Except.pure, Except.ok.injEq] at h
        exact ⟨seq, h.symm, makeSeq_ok hseq (positionsFrom_ok hpos)⟩

/-- The token a decode starts with. -/
def lastToken (state : RunnerRequestState) : Token :=
  state.generatedTokenIds.getLast?.getD (state.promptTokenIds.getLast?.getD 0)

theorem decodeSeq_ok {state : RunnerRequestState} {seq? : Option BatchSeq}
    (h : (m.decodeSeq blockSize out id state).1 = .ok seq?) :
    ∃ seq, seq? = some seq ∧ SeqSpec blockSize out id state.numComputedTokens
      (lastToken state :: (m.speculativeDrafts.lookup id).getD []) false seq := by
  unfold decodeSeq at h
  dsimp only at h
  split at h
  · cases h
  · rename_i ps hpos
    change (makeSeq blockSize out id false state.numComputedTokens
      (lastToken state :: (m.speculativeDrafts.lookup id).getD []) ps).map some = _ at h
    cases hseq : makeSeq blockSize out id false state.numComputedTokens
        (lastToken state :: (m.speculativeDrafts.lookup id).getD []) ps with
    | error e =>
      rw [hseq] at h
      cases h
    | ok seq =>
      rw [hseq] at h
      exact ⟨seq, (Except.ok.inj h).symm, makeSeq_ok hseq (positionsFrom_ok hpos)⟩

theorem decodeSeq_frame (state : RunnerRequestState) :
    SameStates m (m.decodeSeq blockSize out id state).2 ∧
      DraftsFrom m (m.decodeSeq blockSize out id state).2 ∧
      ∀ i ≠ id, (m.decodeSeq blockSize out id state).2.speculativeDrafts.lookup i =
        m.speculativeDrafts.lookup i := by
  have herase : DraftsFrom m { m with speculativeDrafts := m.speculativeDrafts.erase id } := by
    intro i ds hi
    rw [lookup_erase_eq] at hi
    exact (Option.ite_none_left_eq_some.mp hi).2
  unfold decodeSeq
  dsimp only
  split
  · exact ⟨⟨rfl, rfl⟩, herase, fun i hi => AList.lookup_erase_ne hi⟩
  · dsimp only
    split
    · exact ⟨⟨rfl, rfl⟩, herase, fun i hi => AList.lookup_erase_ne hi⟩
    · rename_i hne
      refine ⟨⟨rfl, rfl⟩, fun i ds hi => ?_, fun i hi => (AList.lookup_insert_ne hi).trans
        (AList.lookup_erase_ne hi)⟩
      simp only [setSpeculativeDrafts] at hi
      rw [lookup_insert_eq] at hi
      split at hi
      · rename_i hie
        obtain rfl := Option.some.inj hi
        cases hl : m.speculativeDrafts.lookup id with
        | none => simp [hl] at hne
        | some ds => rw [hie, hl, Option.getD_some]
      · exact herase i ds hi

/-- What the runner feeds for a scheduled request. -/
inductive Feeds (blockSize : ℕ) (out : SchedulerOutput) (m : ModelRunner) (id : RequestId) :
    Option BatchSeq → Prop
  | unknown (hm : m.requestStates.lookup id = none) : Feeds blockSize out m id none
  | nothing (hn : (out.numScheduledTokens.lookup id).getD 0 = 0) : Feeds blockSize out m id none
  | prefilled {state : RunnerRequestState} (hm : m.requestStates.lookup id = some state)
      (hid : id ∈ out.scheduledNew) (hle : state.promptTokenIds.length ≤ state.numComputedTokens) :
      Feeds blockSize out m id none
  | prefill {state : RunnerRequestState} {n : ℕ} {seq : BatchSeq}
      (hm : m.requestStates.lookup id = some state)
      (hn : out.numScheduledTokens.lookup id = some n) (hid : id ∈ out.scheduledNew)
      (hlt : state.numComputedTokens < state.promptTokenIds.length)
      (hs : SeqSpec blockSize out id state.numComputedTokens
        ((state.promptTokenIds.drop state.numComputedTokens).take n) true seq) :
      Feeds blockSize out m id (some seq)
  | decode {state : RunnerRequestState} {seq : BatchSeq}
      (hm : m.requestStates.lookup id = some state) (hid : id ∉ out.scheduledNew)
      (hs : SeqSpec blockSize out id state.numComputedTokens
        (lastToken state :: (m.speculativeDrafts.lookup id).getD []) false seq) :
      Feeds blockSize out m id (some seq)

theorem buildSeq_ok {seq? : Option BatchSeq} (h : (m.buildSeq blockSize out id).1 = .ok seq?) :
    Feeds blockSize out m id seq? := by
  unfold buildSeq at h
  split at h
  · rename_i hm
    obtain rfl := Except.ok.inj h
    exact .unknown hm
  · rename_i state hm
    dsimp only at h
    split at h
    · rename_i hn
      obtain rfl := Except.ok.inj h
      exact .nothing hn
    · rename_i hn
      split at h
      · rename_i hid
        have hp := prefillSeq_ok h
        split at hp
        · rename_i hle
          exact hp ▸ .prefilled hm hid hle
        · rename_i hle
          obtain ⟨seq, rfl, hs⟩ := hp
          cases hl : out.numScheduledTokens.lookup id with
          | none => simp [hl] at hn
          | some n =>
            rw [hl] at hs
            exact .prefill hm hl hid (not_le.mp hle) hs
      · rename_i hid
        obtain ⟨seq, rfl, hs⟩ := decodeSeq_ok h
        exact .decode hm hid hs

theorem Feeds.requestId_eq (h : Feeds blockSize out m id (some seq)) : seq.requestId = id := by
  cases h with
  | prefill _ _ _ _ hs => exact hs.requestId_eq
  | decode _ _ hs => exact hs.requestId_eq

theorem Feeds.known (h : Feeds blockSize out m id (some seq)) :
    ∃ state, m.requestStates.lookup id = some state := by
  cases h with
  | prefill hm => exact ⟨_, hm⟩
  | decode hm => exact ⟨_, hm⟩

theorem Feeds.congr {seq? : Option BatchSeq} (h : Feeds blockSize out m id seq?)
    (hs : m'.requestStates.lookup id = m.requestStates.lookup id)
    (hd : m'.speculativeDrafts.lookup id = m.speculativeDrafts.lookup id) :
    Feeds blockSize out m' id seq? := by
  cases h with
  | unknown hm => exact .unknown (hs.trans hm)
  | nothing hn => exact .nothing hn
  | prefilled hm hid hle => exact .prefilled (hs.trans hm) hid hle
  | prefill hm hn hid hlt hsp => exact .prefill (hs.trans hm) hn hid hlt hsp
  | decode hm hid hsp => exact .decode (hs.trans hm) hid (hd ▸ hsp)

theorem buildSeq_frame (m : ModelRunner) (blockSize : ℕ) (out : SchedulerOutput)
    (id : RequestId) : SameStates m (m.buildSeq blockSize out id).2 ∧
    DraftsFrom m (m.buildSeq blockSize out id).2 ∧
    ∀ i ≠ id, (m.buildSeq blockSize out id).2.speculativeDrafts.lookup i =
      m.speculativeDrafts.lookup i := by
  unfold buildSeq
  split
  · exact ⟨.refl m, .refl m, fun _ _ => rfl⟩
  · dsimp only
    split
    · exact ⟨.refl m, .refl m, fun _ _ => rfl⟩
    · split
      · exact ⟨.refl m, .refl m, fun _ _ => rfl⟩
      · exact decodeSeq_frame _

/-! ## All sequences -/

/-- The sequences feed the listed requests, each at most once. -/
structure Built (blockSize : ℕ) (out : SchedulerOutput) (m : ModelRunner) (ids : List RequestId)
    (b : InputBatch) : Prop where
  sublist : b.requestIds.Sublist ids
  feeds : ∀ id ∈ ids, Feeds blockSize out m id (b.seqOf id)

theorem Built.mem_of_seqOf {ids : List RequestId} {b : InputBatch}
    (h : Built blockSize out m ids b) (hseq : b.seqOf id = some seq) : id ∈ ids := by
  obtain ⟨hmem, rfl⟩ := InputBatch.mem_of_seqOf hseq
  exact h.sublist.subset (List.mem_map_of_mem hmem)

theorem buildLoop_frame (m : ModelRunner) (blockSize : ℕ) (out : SchedulerOutput)
    (ids : List RequestId) :
    SameStates m (buildLoop blockSize out ids m).2 ∧
      DraftsFrom m (buildLoop blockSize out ids m).2 := by
  induction ids generalizing m with
  | nil => exact ⟨.refl m, .refl m⟩
  | cons id ids ih =>
    have hf := buildSeq_frame m blockSize out id
    unfold buildLoop
    split
    · rename_i e m₁ he
      rw [he] at hf
      exact ⟨hf.1, hf.2.1⟩
    · rename_i seq m₁ he
      rw [he] at hf
      have hl := ih (m := m₁)
      have hfin := And.intro (hf.1.trans hl.1) (hf.2.1.trans hl.2)
      split
      · rename_i e m₂ he₂
        rwa [he₂] at hfin
      · rename_i seqs m₂ he₂
        rwa [he₂] at hfin

theorem buildLoop_ok {ids : List RequestId} (hnd : ids.Nodup) {seqs : List BatchSeq}
    (h : (buildLoop blockSize out ids m).1 = .ok seqs) : Built blockSize out m ids ⟨seqs⟩ := by
  induction ids generalizing m seqs with
  | nil =>
    obtain rfl := Except.ok.inj h
    exact ⟨List.Sublist.refl _, by simp⟩
  | cons id ids ih =>
    obtain ⟨hid, hnd⟩ := List.nodup_cons.mp hnd
    have hf := buildSeq_frame m blockSize out id
    unfold buildLoop at h
    split at h
    · cases h
    · rename_i seq m₁ he
      have hfeed : Feeds blockSize out m id seq := buildSeq_ok (by rw [he])
      rw [he] at hf
      split at h
      · cases h
      · rename_i rest m₂ he₂
        obtain rfl := Except.ok.inj h
        obtain ⟨hsub, hfeeds⟩ := ih hnd (congrArg Prod.fst he₂)
        have hrest : ∀ i ∈ ids, Feeds blockSize out m i ((⟨rest⟩ : InputBatch).seqOf i) := by
          intro i hi
          have hne : i ≠ id := fun he => hid (he ▸ hi)
          exact (hfeeds i hi).congr (congrArg _ hf.1.states_eq.symm) (hf.2.2 i hne).symm
        cases seq with
        | none =>
          refine ⟨hsub.cons id, fun i hi => ?_⟩
          rcases List.mem_cons.mp hi with rfl | hi
          · have hn : (⟨rest⟩ : InputBatch).seqOf i = none :=
              InputBatch.seqOf_eq_none.mpr fun hm => hid (hsub.subset hm)
            change Feeds blockSize out m i ((⟨rest⟩ : InputBatch).seqOf i)
            rw [hn]
            exact hfeed
          · exact hrest i hi
        | some seq =>
          have hsid := hfeed.requestId_eq
          have hfind : ∀ i, (⟨seq :: rest⟩ : InputBatch).seqOf i =
              if i = id then some seq else (⟨rest⟩ : InputBatch).seqOf i := by
            intro i
            split
            · rename_i hi
              simp [InputBatch.seqOf, hi, hsid]
            · rename_i hi
              simp [InputBatch.seqOf, hsid, Ne.symm hi]
          refine ⟨?_, fun i hi => ?_⟩
          · have hs : (seq.requestId :: (⟨rest⟩ : InputBatch).requestIds).Sublist (id :: ids) :=
              hsid ▸ hsub.cons_cons _
            exact hs
          · rw [Option.toList_some, List.singleton_append, hfind]
            rcases List.mem_cons.mp hi with rfl | hi
            · rw [if_pos rfl]
              exact hfeed
            · rw [if_neg (ne_of_mem_of_not_mem hi hid)]
              exact hrest i hi

theorem buildTensors_eq : m.buildTensors blockSize out =
    if out.numScheduled = 0 then (.ok {}, m.clean out)
    else match buildLoop blockSize out (out.scheduledNew ++ out.scheduledRunning) (m.clean out) with
      | (.error e, m) => (.error e, m)
      | (.ok seqs, m) => (.ok ⟨seqs⟩, m) := rfl

/-- The batch of a step feeds its scheduled requests from the cleaned runner. -/
theorem buildTensors_ok (hout : (out.scheduledNew ++ out.scheduledRunning).Nodup) {b : InputBatch}
    (h : (m.buildTensors blockSize out).1 = .ok b) :
    Built blockSize out (m.clean out) (out.scheduledNew ++ out.scheduledRunning) b := by
  rw [buildTensors_eq] at h
  split at h
  · rename_i hz
    unfold SchedulerOutput.numScheduled at hz
    have hnew : out.scheduledNew = [] := List.eq_nil_of_length_eq_zero (by omega)
    have hrun : out.scheduledRunning = [] := List.eq_nil_of_length_eq_zero (by omega)
    obtain rfl := Except.ok.inj h
    rw [hnew, hrun]
    exact ⟨List.Sublist.refl _, by simp⟩
  · split at h
    · cases h
    · rename_i seqs m₁ he
      obtain rfl := Except.ok.inj h
      exact buildLoop_ok hout (by rw [he])

theorem buildTensors_frame (m : ModelRunner) (blockSize : ℕ) (out : SchedulerOutput) :
    SameStates (m.clean out) (m.buildTensors blockSize out).2 ∧
    DraftsFrom (m.clean out) (m.buildTensors blockSize out).2 := by
  have hl := buildLoop_frame (m.clean out) blockSize out
    (out.scheduledNew ++ out.scheduledRunning)
  rw [buildTensors_eq]
  split
  · exact ⟨.refl _, .refl _⟩
  · split
    · rename_i he
      rwa [he] at hl
    · rename_i he
      rwa [he] at hl

/-! ## Slots -/

variable {table : List BlockId} {b c : BlockId} {pos pos' : ℕ}

theorem checkedI64_natCast {k : ℕ} (h : k < 2 ^ 63) : checkedI64 k = some (k : ℤ) := by
  rw [checkedI64, if_pos]
  omega

theorem slotOf_eq (hb : table[pos / blockSize]? = some b)
    (hfit : b * blockSize + pos % blockSize < 2 ^ 63) :
    slotOf table blockSize pos = (b * blockSize + pos % blockSize : ℕ) := by
  rw [slotOf, hb]
  dsimp only
  rw [← Nat.cast_mul, checkedI64_natCast ((Nat.le_add_right _ _).trans_lt hfit), Option.bind_some,
    ← Nat.cast_add, checkedI64_natCast hfit, Option.getD_some]

theorem slot_inj (hbs : 0 < blockSize)
    (h : b * blockSize + pos % blockSize = c * blockSize + pos' % blockSize) :
    b = c ∧ pos % blockSize = pos' % blockSize := by
  have hdiv := congrArg (· / blockSize) h
  have hmod := congrArg (· % blockSize) h
  simp only [Nat.mul_add_mod', Nat.mod_mod] at hmod
  simp only [Nat.mul_comm _ blockSize, Nat.mul_add_div hbs, Nat.mod_div_self, Nat.add_zero] at hdiv
  exact ⟨hdiv, hmod⟩

end ModelRunner

end Rllm
