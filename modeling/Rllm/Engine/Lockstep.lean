import Rllm.Engine.EngineCore
import Rllm.Executor.Effects
import Rllm.Scheduler.Phases

/-! # The scheduler and the runner in lockstep

Every scheduling step is followed by an execution of its output. The two keep
separate counts of the computed tokens of a request; the history of a run notes
what was fed to the model, which is what the counts are about. Requests of a
failed execution are given up on both sides.
-/

namespace Rllm

/-- A scheduler and the runner that executes its outputs. -/
structure Pair where
  sched : Scheduler
  runner : ModelRunner

namespace Pair

def new (cfg : Config) : Pair := ⟨.new cfg, .new⟩

def addRequest (cfg : Config) (p : Pair) (r : InferenceRequest) : Pair where
  sched := p.sched.addRequest cfg r
  runner := (UniProc.addRequest r.requestId r.promptTokens r.samplingParams p.runner).2

def abortRequest (p : Pair) (id : RequestId) : Pair where
  sched := p.sched.abortRequest id
  runner := p.runner.removeRequest id

end Pair

/-- A step from a pair, with the model and the sampler of its execution. -/
structure PairStep where
  pair : Pair
  ops : ModelOps
  ord : HashOrder

variable (H : HashFns) (cfg : Config)

namespace PairStep

variable (t : PairStep)

def out : SchedulerOutput := (t.pair.sched.step H cfg t.ord).1

def sched : Scheduler := (t.pair.sched.step H cfg t.ord).2

/-- The drafts and the batch of the execution. -/
def prepared : Except String ((AList fun _ : RequestId => List Token) × InputBatch) :=
  (UniProc.prepare cfg.cache.blockSize (t.out H cfg) t.pair.runner).1

def batch : InputBatch :=
  match t.prepared H cfg with
  | .ok (_, batch) => batch
  | .error _ => {}

def result : Except String ExecutorOutput × ModelRunner :=
  UniProc.executeModel t.ops cfg.cache.blockSize (t.out H cfg) t.pair.runner

/-- What the batch feeds for a request. -/
def fed (id : RequestId) : List (ℕ × Token) :=
  ((t.batch H cfg).seqs.filter (·.requestId == id)).flatMap fun s => s.positions.zip s.tokenIds

/-- The tokens sampled for a request. -/
def emitted (id : RequestId) : List Token :=
  match (t.result H cfg).1 with
  | .ok res => (res.perRequestOutputs.filter (·.requestId == id)).flatMap (·.tokenIds)
  | .error _ => []

/-- The requests of a failed execution. -/
def failed : List RequestId :=
  match (t.result H cfg).1 with
  | .ok _ => []
  | .error _ => EngineCore.affectedIds (t.out H cfg)

def next : Pair :=
  (t.ord.iter (t.failed H cfg)).foldl Pair.abortRequest ⟨t.sched H cfg, (t.result H cfg).2⟩

end PairStep

/-- The requests added, the ids given up and the steps of a run. -/
structure PairHistory where
  added : List InferenceRequest := []
  aborted : List RequestId := []
  steps : List PairStep := []

namespace PairHistory

variable (hist : PairHistory)

def accepted : List RequestId := hist.added.map (·.requestId)

/-- Everything fed for a request, in order. -/
def fed (id : RequestId) : List (ℕ × Token) := hist.steps.flatMap (·.fed H cfg id)

def emitted (id : RequestId) : List Token := hist.steps.flatMap (·.emitted H cfg id)

def preempted : List RequestId := hist.steps.flatMap fun t => (t.out H cfg).preempted

/-- Note a step. -/
def snoc (t : PairStep) : PairHistory where
  added := hist.added
  aborted := hist.aborted ++ t.failed H cfg
  steps := hist.steps ++ [t]

@[simp] theorem fed_snoc (t : PairStep) (id : RequestId) :
    (hist.snoc H cfg t).fed H cfg id = hist.fed H cfg id ++ t.fed H cfg id := by
  simp [fed, snoc]

@[simp] theorem emitted_snoc (t : PairStep) (id : RequestId) :
    (hist.snoc H cfg t).emitted H cfg id = hist.emitted H cfg id ++ t.emitted H cfg id := by
  simp [emitted, snoc]

end PairHistory

/-- The runs whose steps satisfy `P`. Ids are used once, and no proposer fails its assertions. -/
inductive PairRun (P : PairStep → Prop) : PairHistory → Pair → Prop
  | new : PairRun P {} (.new cfg)
  | addRequest {hist : PairHistory} {p : Pair} (r : InferenceRequest) (hrun : PairRun P hist p)
      (hfresh : r.requestId ∉ hist.accepted)
      (hok : (UniProc.addRequest r.requestId r.promptTokens r.samplingParams p.runner).1 = .ok ()) :
      PairRun P { hist with added := hist.added ++ [r] } (p.addRequest cfg r)
  | abortRequest {hist : PairHistory} {p : Pair} (id : RequestId) (hrun : PairRun P hist p) :
      PairRun P { hist with aborted := hist.aborted ++ [id] } (p.abortRequest id)
  | control {hist : PairHistory} {p : Pair} {s : Scheduler} (hrun : PairRun P hist p)
      (hc : p.sched.Control s) : PairRun P hist { p with sched := s }
  | step {hist : PairHistory} {p : Pair} (ops : ModelOps) (ord : HashOrder)
      (hrun : PairRun P hist p)
      (hprop : UniProc.Proposes ((⟨p, ops, ord⟩ : PairStep).out H cfg) p.runner)
      (hP : P ⟨p, ops, ord⟩) :
      PairRun P (hist.snoc H cfg ⟨p, ops, ord⟩) ((⟨p, ops, ord⟩ : PairStep).next H cfg)

variable {H cfg} {P : PairStep → Prop} {hist : PairHistory} {p : Pair}

/-! ## The scheduler of a run -/

theorem Pair.abortAll_sched (ids : List RequestId) (p : Pair) :
    (ids.foldl Pair.abortRequest p).sched = ids.foldl Scheduler.abortRequest p.sched := by
  induction ids generalizing p with
  | nil => rfl
  | cons id ids ih => exact ih _

theorem Pair.abortAll_runner (ids : List RequestId) (p : Pair) :
    (ids.foldl Pair.abortRequest p).runner = ids.foldl ModelRunner.removeRequest p.runner := by
  induction ids generalizing p with
  | nil => rfl
  | cons id ids ih => exact ih _

theorem SchedRun.abortAll {added : List InferenceRequest} {s : Scheduler}
    (h : SchedRun H cfg added s) (ids : List RequestId) :
    SchedRun H cfg added (ids.foldl Scheduler.abortRequest s) := by
  induction ids generalizing s with
  | nil => exact h
  | cons id ids ih => exact ih (.abortRequest id h)

theorem Scheduler.place_abortRequest {id i : RequestId} (hi : i ≠ id) (s : Scheduler) :
    (s.abortRequest id).place i = s.place i := by
  simp [Scheduler.place, Scheduler.abortRequest, hi]

theorem Scheduler.place_abortAll {id : RequestId} {ids : List RequestId} (hid : id ∉ ids)
    (s : Scheduler) : (ids.foldl Scheduler.abortRequest s).place id = s.place id := by
  induction ids generalizing s with
  | nil => rfl
  | cons i ids ih =>
    rw [List.mem_cons, not_or] at hid
    rw [List.foldl_cons, ih hid.2, place_abortRequest hid.1]

theorem PairStep.next_sched (t : PairStep) : (t.next H cfg).sched =
    (t.ord.iter (t.failed H cfg)).foldl Scheduler.abortRequest (t.sched H cfg) :=
  Pair.abortAll_sched _ _

theorem PairRun.schedRun (h : PairRun H cfg P hist p) : SchedRun H cfg hist.added p.sched := by
  induction h with
  | new => exact .new
  | addRequest r _ hfresh _ ih => exact .addRequest r ih hfresh
  | abortRequest id _ ih => exact .abortRequest id ih
  | control _ hc ih => exact ih.control hc
  | @step hist p ops ord _ _ _ ih =>
    rw [PairStep.next_sched]
    exact SchedRun.abortAll (.step ord ih) _

/-- Every step of a run starts in a state that a run reaches. -/
theorem PairRun.of_mem (h : PairRun H cfg P hist p) {t : PairStep} (ht : t ∈ hist.steps) :
    P t ∧ ∃ hist₀, PairRun H cfg P hist₀ t.pair := by
  induction h with
  | new => cases ht
  | addRequest r _ _ _ ih => exact ih ht
  | abortRequest id _ ih => exact ih ht
  | control _ _ ih => exact ih ht
  | step ops ord hrun _ hP ih =>
    rcases List.mem_append.mp ht with ht | ht
    · exact ih ht
    · obtain rfl := List.mem_singleton.mp ht
      exact ⟨hP, _, hrun⟩

/-! ## What a step does to the runner -/

open ModelRunner UniProc

section Served

variable (H cfg)

/-- How a step serves a request: the state of the runner, what it fed and what was sampled. -/
inductive PairStep.Served (t : PairStep) (id : RequestId) :
    Option RunnerRequestState → List (ℕ × Token) → List Token → Prop
  | idle (hfeeds : id ∈ (t.out H cfg).scheduledNew ++ (t.out H cfg).scheduledRunning →
        ∃ mp, SameStates t.pair.runner mp ∧
          Feeds cfg.cache.blockSize (t.out H cfg) (mp.clean (t.out H cfg)) id none) :
      t.Served id ((t.pair.runner.clean (t.out H cfg)).requestStates.lookup id) [] []
  | failed {seq? : Option BatchSeq} (herr : id ∈ t.failed H cfg)
      (hfeeds : ∀ seq, seq? = some seq →
        id ∈ (t.out H cfg).scheduledNew ++ (t.out H cfg).scheduledRunning ∧
        ∃ drafts mp, Drafted t.pair.runner drafts mp ∧
          Feeds cfg.cache.blockSize (t.out H cfg) (mp.clean (t.out H cfg)) id (some seq)) :
      t.Served id none (seq?.toList.flatMap (·.pairs)) []
  | ran {drafts : AList fun _ : RequestId => List Token} {batch : InputBatch} {mp m₁ : ModelRunner}
      {seq : BatchSeq} {i : ℕ} {tokens : List Token} {w : RunnerRequestState}
      (hprep : t.prepared H cfg = .ok (drafts, batch)) (hi : batch.seqs[i]? = some seq)
      (hid : id ∈ (t.out H cfg).scheduledNew ++ (t.out H cfg).scheduledRunning)
      (hdrafts : Drafted t.pair.runner drafts mp)
      (hfeeds : Feeds cfg.cache.blockSize (t.out H cfg) (mp.clean (t.out H cfg)) id (some seq))
      (hw : (t.pair.runner.clean (t.out H cfg)).requestStates.lookup id = some w)
      (hs : sampleSeq t.ops drafts batch i seq m₁ = .ok tokens) :
      t.Served id (some (UniProc.ran drafts seq tokens w)) seq.pairs tokens

/-- How a step serves a request that the runner keeps, from its state before. -/
inductive PairStep.Keeps (t : PairStep) (id : RequestId) (w w' : RunnerRequestState)
    (fed : List (ℕ × Token)) (tokens : List Token) : Prop
  | idle (hfeeds : id ∈ (t.out H cfg).scheduledNew ++ (t.out H cfg).scheduledRunning →
        ∃ mp, SameStates t.pair.runner mp ∧
          Feeds cfg.cache.blockSize (t.out H cfg) (mp.clean (t.out H cfg)) id none)
      (hw : w' = w) (hfed : fed = []) (htokens : tokens = [])
  | ran {drafts : AList fun _ : RequestId => List Token} {batch : InputBatch} {mp m₁ : ModelRunner}
      {seq : BatchSeq} {i : ℕ}
      (hprep : t.prepared H cfg = .ok (drafts, batch)) (hi : batch.seqs[i]? = some seq)
      (hid : id ∈ (t.out H cfg).scheduledNew ++ (t.out H cfg).scheduledRunning)
      (hdrafts : Drafted t.pair.runner drafts mp)
      (hfeeds : Feeds cfg.cache.blockSize (t.out H cfg) (mp.clean (t.out H cfg)) id (some seq))
      (hs : sampleSeq t.ops drafts batch i seq m₁ = .ok tokens)
      (hw : w' = UniProc.ran drafts seq tokens w) (hfed : fed = seq.pairs)

end Served

theorem find?_filter {α : Type} {f : α → RequestId} {l : List α} (hnd : (l.map f).Nodup)
    (id : RequestId) : l.filter (f · == id) = (l.find? (f · == id)).toList := by
  induction l with
  | nil => rfl
  | cons a l ih =>
    obtain ⟨hn, hnd⟩ := List.nodup_cons.mp hnd
    by_cases ha : f a = id
    · have hnone : l.filter (f · == id) = [] := by
        rw [List.filter_eq_nil_iff]
        rintro b hb he
        exact hn (List.mem_map.mpr ⟨b, hb, (of_decide_eq_true he).trans ha.symm⟩)
      simp [ha, hnone]
    · simp [ha, ih hnd]

namespace PairStep

variable {t : PairStep} {id : RequestId}

theorem fed_eq (hnd : (t.batch H cfg).requestIds.Nodup) (id : RequestId) :
    t.fed H cfg id = (((t.batch H cfg).seqOf id).toList.flatMap (·.pairs)) := by
  unfold fed InputBatch.seqOf
  rw [find?_filter hnd]
  rfl

theorem out_nodup (hp : t.pair.sched.Partition) :
    ((t.out H cfg).scheduledNew ++ (t.out H cfg).scheduledRunning).Nodup :=
  Scheduler.step_scheduledOnce hp t.ord

theorem phase (hp : t.pair.sched.Partition) {K : Guards}
    (hall : t.pair.sched.StepAll H cfg K t.ord) (id : RequestId) :
    Phase H cfg K id (t.pair.sched.place id) ((t.sched H cfg).place id)
      ((t.out H cfg).mention id) :=
  Scheduler.step_phase hp hall id

theorem lookup_next (id : RequestId) : (t.next H cfg).runner.requestStates.lookup id =
    if id ∈ t.failed H cfg then none else (t.result H cfg).2.requestStates.lookup id := by
  rw [next, Pair.abortAll_runner, lookup_removeAll fun _ _ => rfl]
  simp [(t.ord.perm _).mem_iff]

theorem not_failed {w' : RunnerRequestState}
    (hw' : (t.next H cfg).runner.requestStates.lookup id = some w') : id ∉ t.failed H cfg := by
  intro hf
  rw [lookup_next, if_pos hf] at hw'
  cases hw'

theorem emitted_ok {res : ExecutorOutput} {m' : ModelRunner}
    (hres : t.result H cfg = (.ok res, m'))
    (hnd : (res.perRequestOutputs.map (·.requestId)).Nodup) (id : RequestId) :
    t.emitted H cfg id = (res.outputOf id).toList.flatMap (·.tokenIds) := by
  rw [emitted, hres]
  dsimp only
  rw [find?_filter hnd]
  rfl

/-- A failed execution fails every scheduled request. -/
theorem mem_failed {e : String} {m' : ModelRunner} (hres : t.result H cfg = (.error e, m'))
    (hid : id ∈ (t.out H cfg).scheduledNew ++ (t.out H cfg).scheduledRunning) :
    id ∈ t.failed H cfg := by
  rw [failed, hres]
  dsimp only
  rw [EngineCore.affectedIds, List.mem_dedup]
  simp only [List.mem_append] at hid ⊢
  tauto

/-- The batch of a step feeds scheduled requests only. -/
theorem batch_feeds (hp : t.pair.sched.Partition) (id : RequestId) :
    (t.batch H cfg).requestIds.Nodup ∧ ∀ seq, (t.batch H cfg).seqOf id = some seq →
      id ∈ (t.out H cfg).scheduledNew ++ (t.out H cfg).scheduledRunning ∧
      ∃ drafts mp, Drafted t.pair.runner drafts mp ∧
        Feeds cfg.cache.blockSize (t.out H cfg) (mp.clean (t.out H cfg)) id (some seq) := by
  have hout : ((t.out H cfg).scheduledNew ++ (t.out H cfg).scheduledRunning).Nodup := out_nodup hp
  cases hprep : t.prepared H cfg with
  | error e =>
    rw [PairStep.batch, hprep]
    exact ⟨List.nodup_nil, fun seq hseq => by cases hseq⟩
  | ok db =>
    obtain ⟨drafts, batch⟩ := db
    obtain ⟨-, mp, hdrafts, hbuilt⟩ := prepare_ok hout hprep
    rw [PairStep.batch, hprep]
    refine ⟨hout.sublist hbuilt.sublist, fun seq hseq => ?_⟩
    have hsched := hbuilt.mem_of_seqOf hseq
    exact ⟨hsched, drafts, mp, hdrafts, hseq ▸ hbuilt.feeds id hsched⟩

/-- A step serves every request. -/
theorem served (hp : t.pair.sched.Partition) (hprop : Proposes (t.out H cfg) t.pair.runner)
    (id : RequestId) :
    t.Served H cfg id ((t.next H cfg).runner.requestStates.lookup id) (t.fed H cfg id)
      (t.emitted H cfg id) := by
  have hout : ((t.out H cfg).scheduledNew ++ (t.out H cfg).scheduledRunning).Nodup := out_nodup hp
  rw [lookup_next]
  cases hres : t.result H cfg with
  | mk res m' =>
    cases res with
    | ok res =>
      obtain ⟨drafts, batch, hex⟩ := executeModel_ok hout hres
      obtain ⟨-, mp, hdrafts, hbuilt⟩ := prepare_ok hout hex.prepared
      have hbatch : t.batch H cfg = batch := by rw [PairStep.batch, prepared, hex.prepared]
      have hnd : batch.requestIds.Nodup := hout.sublist hbuilt.sublist
      have hfailed : t.failed H cfg = [] := by rw [failed, hres]
      rw [fed_eq (hbatch ▸ hnd), hbatch, hfailed, if_neg List.not_mem_nil,
        emitted_ok hres (hex.ids_eq ▸ hnd)]
      have hst := hex.states id
      split at hst
      · rename_i seq o hseq ho
        obtain ⟨w, hw, hw'⟩ := hst
        obtain ⟨i, m₁, hi, hs⟩ := hex.sampled id seq o hseq ho
        have hsched := hbuilt.mem_of_seqOf hseq
        rw [hw', hseq, ho]
        simpa using Served.ran hex.prepared hi hsched hdrafts (hseq ▸ hbuilt.feeds id hsched) hw hs
      · rename_i hseq ho
        rw [hst, hseq, ho]
        exact .idle fun hsched => ⟨mp, hdrafts.states, hseq ▸ hbuilt.feeds id hsched⟩
      · exact hst.elim
    | error e =>
      obtain ⟨hnd, hfeeds⟩ : (t.batch H cfg).requestIds.Nodup ∧ _ := batch_feeds hp id
      have hem : t.emitted H cfg id = [] := by rw [emitted, hres]
      rw [fed_eq hnd, hem]
      split
      · rename_i hf
        exact .failed hf hfeeds
      · rename_i hf
        have hn := mt (mem_failed hres) hf
        have hnone : (t.batch H cfg).seqOf id = none := by
          cases hseq : (t.batch H cfg).seqOf id with
          | none => rfl
          | some seq => exact absurd (hfeeds seq hseq).1 hn
        have hframe : (t.result H cfg).2.requestStates.lookup id = _ :=
          (executeModel_frame hout hprop).1 id hn
        rw [hres] at hframe
        rw [hnone, hframe]
        exact .idle fun hsched => absurd hsched hn

theorem next_place (hid : id ∉ t.failed H cfg) :
    (t.next H cfg).sched.place id = (t.sched H cfg).place id := by
  rw [next_sched]
  refine Scheduler.place_abortAll ?_ _
  rwa [(t.ord.perm _).mem_iff]

theorem params_next (hp : t.pair.sched.Partition)
    (hprop : Proposes (t.out H cfg) t.pair.runner) (id : RequestId) :
    (t.next H cfg).runner.requestSamplingParams.lookup id =
      if id ∈ t.failed H cfg then none
      else (t.pair.runner.clean (t.out H cfg)).requestSamplingParams.lookup id := by
  rw [next, Pair.abortAll_runner, lookup_removeAll fun _ _ => rfl]
  simp only [(t.ord.perm _).mem_iff]
  split
  · rfl
  · exact (executeModel_frame (out_nodup hp) hprop).2.1 id

theorem bounded_next (hp : t.pair.sched.Partition)
    (hprop : Proposes (t.out H cfg) t.pair.runner) (h : t.pair.runner.DraftsBounded) :
    (t.next H cfg).runner.DraftsBounded := by
  rw [next, Pair.abortAll_runner]
  exact ((executeModel_frame (out_nodup hp) hprop).2.2 h).removeAll _

theorem Served.known {w' : Option RunnerRequestState} {fed : List (ℕ × Token)}
    {tokens : List Token} (h : t.Served H cfg id w' fed tokens) (hfed : fed ≠ [] ∨ tokens ≠ []) :
    ∃ w, t.pair.runner.requestStates.lookup id = some w := by
  have hclean : ∀ {mp : ModelRunner} {seq : BatchSeq}, SameStates t.pair.runner mp →
      Feeds cfg.cache.blockSize (t.out H cfg) (mp.clean (t.out H cfg)) id (some seq) →
      ∃ w, t.pair.runner.requestStates.lookup id = some w := by
    intro mp seq hs hf
    obtain ⟨w, hw⟩ := hf.known
    rw [states_clean_congr hs, states_clean, Option.ite_none_left_eq_some] at hw
    exact ⟨w, hw.2⟩
  cases h with
  | idle => exact absurd rfl (hfed.resolve_left fun h => h rfl)
  | @failed seq? _ hfeeds =>
    cases seq? with
    | none => exact absurd rfl (hfed.resolve_left fun h => h rfl)
    | some seq =>
      obtain ⟨-, drafts, mp, hd, hf⟩ := hfeeds seq rfl
      exact hclean hd.states hf
  | ran _ _ _ hd hf => exact hclean hd.states hf

theorem Served.keeps {w? : Option RunnerRequestState} {fed : List (ℕ × Token)}
    {tokens : List Token} (h : t.Served H cfg id w? fed tokens) {w' : RunnerRequestState}
    (hw' : w? = some w') : ∃ w, t.pair.runner.requestStates.lookup id = some w ∧
      id ∉ (t.out H cfg).finished ∧ id ∉ (t.out H cfg).preempted ∧
      (∀ mp, SameStates t.pair.runner mp →
        (mp.clean (t.out H cfg)).requestStates.lookup id = some w) ∧
      t.Keeps H cfg id w w' fed tokens := by
  have hclean : ∀ w, (t.pair.runner.clean (t.out H cfg)).requestStates.lookup id = some w →
      t.pair.runner.requestStates.lookup id = some w ∧
      id ∉ (t.out H cfg).finished ∧ id ∉ (t.out H cfg).preempted ∧
      ∀ mp, SameStates t.pair.runner mp →
        (mp.clean (t.out H cfg)).requestStates.lookup id = some w := by
    intro w hw
    have hsame := fun mp (hs : SameStates t.pair.runner mp) => (states_clean_congr hs id).trans hw
    rw [states_clean, Option.ite_none_left_eq_some, not_or] at hw
    exact ⟨hw.2, hw.1.1, hw.1.2, hsame⟩
  cases h with
  | idle hfeeds =>
    obtain ⟨hw, hfin, hpre, hsame⟩ := hclean w' hw'
    exact ⟨w', hw, hfin, hpre, hsame, .idle hfeeds rfl rfl rfl⟩
  | failed => cases hw'
  | ran hprep hi hid hdrafts hfeeds hw hs =>
    obtain ⟨hw, hfin, hpre, hsame⟩ := hclean _ hw
    exact ⟨_, hw, hfin, hpre, hsame,
      .ran hprep hi hid hdrafts hfeeds hs (Option.some.inj hw').symm rfl⟩

theorem Keeps.promptTokenIds {w w' : RunnerRequestState} {fed : List (ℕ × Token)}
    {tokens : List Token} (h : t.Keeps H cfg id w w' fed tokens) :
    w'.promptTokenIds = w.promptTokenIds := by
  cases h with
  | idle _ hw => rw [hw]
  | ran _ _ _ _ _ _ hw =>
    rw [hw]
    rfl

end PairStep

/-! ## The runner knows what the scheduler knows -/

/-- The requests of the runner are requests of the scheduler, with their prompts and parameters. -/
structure Matched (H : HashFns) (cfg : Config) (hist : PairHistory) (p : Pair) : Prop where
  bounded : p.runner.DraftsBounded
  params : ∀ id q, p.runner.requestSamplingParams.lookup id = some q → id ∈ hist.accepted
  states : ∀ id w, p.runner.requestStates.lookup id = some w →
    ∃ r, (p.sched.place id).progress = some r ∧ w.promptTokenIds = r.promptTokenIds ∧
      p.runner.requestSamplingParams.lookup id = some r.request.samplingParams
  served : ∀ id, hist.fed H cfg id ≠ [] ∨ hist.emitted H cfg id ≠ [] → id ∈ hist.accepted

theorem Phase.origin {K : Guards} {id : RequestId} {p₀ p : Place} {μ : Mention} {r₀ : Progress}
    (h : Phase H cfg K id p₀ p μ) (hf : μ.finished = false) (hr₀ : p₀.progress = some r₀) :
    ∃ r, p.progress = some r ∧ r.request = r₀.request ∧ r.promptTokenIds = r₀.promptTokenIds := by
  cases h with
  | same => exact ⟨r₀, hr₀, rfl, rfl⟩
  | finished => cases hf
  | decoded _ hr =>
    obtain rfl := Option.some.inj (hr.symm.trans hr₀)
    exact ⟨_, rfl, rfl, rfl⟩
  | queued hq =>
    obtain ⟨r₁, hr₁, hreq, hprompt, -⟩ := hq.same
    obtain rfl := Option.some.inj (hr₁.symm.trans hr₀)
    exact ⟨_, rfl, hreq, hprompt⟩
  | admitted hq =>
    obtain ⟨r₁, hr₁, hreq, hprompt, -⟩ := hq.same
    obtain rfl := Option.some.inj (hr₁.symm.trans hr₀)
    exact ⟨_, rfl, hreq, hprompt⟩

theorem UniProc.addRequest_ok {id : RequestId} {prompt : List Token} {params : SamplingParams}
    {m : ModelRunner} (h : (UniProc.addRequest id prompt params m).1 = .ok ()) :
    (UniProc.addRequest id prompt params m).2 =
      (m.addRequest id prompt).setSamplingParams id params := by
  unfold UniProc.addRequest at h ⊢
  split at h
  · cases h
  · rename_i hs
    rw [if_neg hs]

theorem Scheduler.place_addRequest (s : Scheduler) (r : InferenceRequest) (id : RequestId) :
    (s.addRequest cfg r).place id =
      if id = r.requestId then ⟨true, (s.place id).running, (s.place id).finished,
        some ⟨r, r.promptTokens, 0⟩⟩ else s.place id := by
  unfold Scheduler.place Scheduler.addRequest
  by_cases hi : id = r.requestId
  · subst hi
    simp [SchedulerRequest.progress]
  · simp [hi, AList.lookup_insert_ne hi]

namespace Matched

variable {id : RequestId} {t : PairStep}

theorem new : Matched H cfg {} (.new cfg) where
  bounded id ds hds := by cases hds
  params id q hq := by cases hq
  states id w hw := by cases hw
  served id h := absurd rfl (h.resolve_left fun h => h rfl)

theorem addRequest (h : Matched H cfg hist p) {r : InferenceRequest}
    (hfresh : r.requestId ∉ hist.accepted)
    (hok : (UniProc.addRequest r.requestId r.promptTokens r.samplingParams p.runner).1 = .ok ()) :
    Matched H cfg { hist with added := hist.added ++ [r] } (p.addRequest cfg r) := by
  have hrunner : (p.addRequest cfg r).runner =
      (p.runner.addRequest r.requestId r.promptTokens).setSamplingParams r.requestId
        r.samplingParams := addRequest_ok hok
  have hparams : ∀ i, (p.addRequest cfg r).runner.requestSamplingParams.lookup i =
      if i = r.requestId then some r.samplingParams
      else p.runner.requestSamplingParams.lookup i := by
    intro i
    rw [hrunner]
    exact lookup_insert_eq _ _ _ _
  have hmono : ∀ i ∈ hist.accepted,
      i ∈ ({ hist with added := hist.added ++ [r] } : PairHistory).accepted := by
    intro i hi
    rw [PairHistory.accepted, List.map_append]
    exact List.mem_append_left _ hi
  constructor
  · intro i ds hds
    have hle : ds.length ≤ p.runner.draftLimit i := h.bounded i ds (by rwa [hrunner] at hds)
    unfold draftLimit at hle ⊢
    rw [hparams]
    split
    · rename_i hi
      cases hl : p.runner.requestSamplingParams.lookup i with
      | some q => exact absurd (h.params i q hl) (hi ▸ hfresh)
      | none =>
        rw [hl] at hle
        exact hle.trans (Nat.zero_le _)
    · exact hle
  · intro i q hq
    rw [hparams] at hq
    split at hq
    · rename_i hi
      simp [PairHistory.accepted, hi]
    · exact hmono i (h.params i q hq)
  · intro i w hw
    have hstates : (p.addRequest cfg r).runner.requestStates.lookup i =
        if i = r.requestId then some { promptTokenIds := r.promptTokens }
        else p.runner.requestStates.lookup i := by
      rw [hrunner]
      exact lookup_insert_eq _ _ _ _
    rw [hstates] at hw
    rw [hparams, show (p.addRequest cfg r).sched = p.sched.addRequest cfg r from rfl,
      Scheduler.place_addRequest]
    split at hw
    · rename_i hi
      obtain rfl := Option.some.inj hw
      rw [if_pos hi, if_pos hi]
      exact ⟨_, rfl, rfl, rfl⟩
    · rename_i hi
      rw [if_neg hi, if_neg hi]
      exact h.states i w hw
  · intro i hi
    exact hmono i (h.served i hi)

theorem abortRequest (h : Matched H cfg hist p) (id : RequestId) :
    Matched H cfg { hist with aborted := hist.aborted ++ [id] } (p.abortRequest id) := by
  constructor
  · exact h.bounded.removeAll [id]
  · intro i q hq
    rw [Pair.abortRequest, removeRequest, lookup_erase_eq, Option.ite_none_left_eq_some] at hq
    exact h.params i q hq.2
  · intro i w hw
    simp only [Pair.abortRequest, removeRequest] at hw ⊢
    rw [lookup_erase_eq, Option.ite_none_left_eq_some] at hw
    rw [Scheduler.place_abortRequest hw.1, lookup_erase_eq, if_neg hw.1]
    exact h.states i w hw.2
  · exact h.served

theorem control (h : Matched H cfg hist p) {s : Scheduler} (hc : p.sched.Control s) :
    Matched H cfg hist { p with sched := s } :=
  ⟨h.bounded, h.params, fun i w hw => (hc.place i).symm ▸ h.states i w hw, h.served⟩

theorem step (h : Matched H cfg hist t.pair) (hrun : SchedRun H cfg hist.added t.pair.sched)
    (hprop : Proposes (t.out H cfg) t.pair.runner) :
    Matched H cfg (hist.snoc H cfg t) (t.next H cfg) := by
  have hp := hrun.partition.1
  constructor
  · exact PairStep.bounded_next hp hprop h.bounded
  · intro i q hq
    rw [PairStep.params_next hp hprop, Option.ite_none_left_eq_some, params_clean,
      Option.ite_none_left_eq_some] at hq
    exact h.params i q hq.2.2
  · intro i w' hw'
    have hfail := PairStep.not_failed hw'
    obtain ⟨w, hw, hfin, hpre, -, hkeeps⟩ := (PairStep.served hp hprop i).keeps hw'
    obtain ⟨r₀, hr₀, hprompt₀, hparams⟩ := h.states i w hw
    obtain ⟨r, hr, hreq, hprompt'⟩ :=
      (PairStep.phase hp (Scheduler.stepAll_any t.ord _) i).origin (by simpa using hfin) hr₀
    rw [PairStep.next_place hfail, PairStep.params_next hp hprop, if_neg hfail, params_clean,
      if_neg (not_or.mpr ⟨hfin, hpre⟩)]
    refine ⟨r, hr, ?_, hreq ▸ hparams⟩
    rw [hkeeps.promptTokenIds, hprompt₀, hprompt']
  · intro i hi
    rw [PairHistory.fed_snoc, PairHistory.emitted_snoc] at hi
    by_cases hfed : t.fed H cfg i = [] ∧ t.emitted H cfg i = []
    · rw [hfed.1, hfed.2, List.append_nil, List.append_nil] at hi
      exact h.served i hi
    · rw [not_and_or] at hfed
      obtain ⟨w, hw⟩ := (PairStep.served hp hprop i).known hfed
      obtain ⟨r, hr, -⟩ := h.states i w hw
      obtain ⟨r', hr', -⟩ := Option.map_eq_some_iff.mp hr
      obtain ⟨hadd, hid, -⟩ := hrun.partition.2 i r' hr'
      exact hid ▸ List.mem_map_of_mem hadd

theorem request_eq (hrun : SchedRun H cfg hist.added p.sched) {r : InferenceRequest}
    (hr : r ∈ hist.added) {r₀ : Progress} (hr₀ : (p.sched.place r.requestId).progress = some r₀) :
    r₀.request = r ∧ r₀.promptTokenIds = r.promptTokens := by
  obtain ⟨r', hr', rfl⟩ := Option.map_eq_some_iff.mp hr₀
  obtain ⟨hadd, hid', hpr⟩ := hrun.partition.2 _ r' hr'
  have hreq : r'.request = r := List.inj_on_of_nodup_map hrun.nodup_added hadd hr hid'
  exact ⟨hreq, hreq ▸ hpr⟩

theorem prompt_eq (h : Matched H cfg hist p) (hrun : SchedRun H cfg hist.added p.sched)
    {r : InferenceRequest} (hr : r ∈ hist.added) {w : RunnerRequestState}
    (hw : p.runner.requestStates.lookup r.requestId = some w) :
    w.promptTokenIds = r.promptTokens := by
  obtain ⟨r₀, hr₀, hprompt, -⟩ := h.states _ w hw
  rw [hprompt, (request_eq hrun hr hr₀).2]

theorem params_eq (h : Matched H cfg hist p) (hrun : SchedRun H cfg hist.added p.sched)
    {r : InferenceRequest} (hr : r ∈ hist.added) {w : RunnerRequestState}
    (hw : p.runner.requestStates.lookup r.requestId = some w) :
    p.runner.requestSamplingParams.lookup r.requestId = some r.samplingParams := by
  obtain ⟨r₀, hr₀, -, hparams⟩ := h.states _ w hw
  rw [hparams, (request_eq hrun hr hr₀).1]

end Matched

theorem PairRun.matched (h : PairRun H cfg P hist p) : Matched H cfg hist p := by
  induction h with
  | new => exact .new
  | addRequest r _ hfresh hok ih => exact ih.addRequest hfresh hok
  | abortRequest id _ ih => exact ih.abortRequest id
  | control _ hc ih => exact ih.control hc
  | step ops ord hrun hprop _ ih => exact ih.step hrun.schedRun hprop

/-- A model that always samples the token `7`. -/
def constModel : ModelOps where
  Logits := Unit
  zeroLogits := ()
  positionLogits _ _ := .ok []
  lastLogits _ _ := .ok none
  argmax _ := 7
  sample _ _ := 7
  eosTokenId := 2

end Rllm
