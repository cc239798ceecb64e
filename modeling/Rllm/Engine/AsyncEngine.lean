import Rllm.Engine.Emission

/-! # The asynchronous engine

The background loop owns the core and is fed through a queue of commands. While
the core is idle it waits for one, and in each turn it drains the queue, steps
the core and sends the outputs into the channels of the streams they belong to.
-/

namespace Rllm

/-- What the loop calls on its core. -/
structure CoreOps (K : Type) where
  hasWork : K → Bool
  addRequest : InferenceRequest → K → Except String Unit × K
  abortRequest : RequestId → K → K
  step : K → List RequestOutput × K

/-- The engine core, with the orders in which its steps will walk their hash maps. -/
def EngineCore.ops (H : HashFns) (cfg : Config) {E : Type} (exec : Executor E) :
    CoreOps (EngineCore E × (ℕ → HashOrder)) where
  hasWork core := core.1.scheduler.hasWork
  addRequest request core :=
    ((core.1.addRequest cfg exec request).1, (core.1.addRequest cfg exec request).2, core.2)
  abortRequest id core := (core.1.abortRequest exec id, core.2)
  step core :=
    ((core.1.step H cfg exec (core.2 0)).1, (core.1.step H cfg exec (core.2 0)).2,
      fun n => core.2 (n + 1))

/-- An unbounded channel of outputs, numbered in the order of creation. -/
abbrev Channel := ℕ

inductive EngineCommand where
  | addRequest (request : InferenceRequest)
  | addRequestStream (request : InferenceRequest) (sender : Channel)
  | abortRequest (requestId : RequestId)
  | shutdown
  deriving DecidableEq, Repr

/-- A call on the core that changed it, with the answer. -/
inductive CoreCall where
  | add (request : InferenceRequest) (answer : Except String Unit)
  | abort (requestId : RequestId)
  | step (outputs : List RequestOutput)

/-- Where the loop stands: at its head, or draining with the commands it has so far. -/
inductive LoopPoint where
  | head
  | drain (commands : List EngineCommand)
  | returned
  deriving DecidableEq, Repr

structure EngineLoop (K : Type) where
  core : K
  cmdRx : List EngineCommand := []
  /-- Whether somebody still holds the engine, and can send commands. -/
  connected : Bool := true
  senders : AList fun _ : RequestId => Channel := ∅
  /-- The last batch of outputs, for those who watch all of them. -/
  outputTx : List RequestOutput := []
  point : LoopPoint := .head
  /-- How many channels there are, and what was sent into them. -/
  channels : ℕ := 0
  received : Channel → List RequestOutput := fun _ => []
  /-- The calls on the core so far; nothing reads them. -/
  calls : List CoreCall := []

namespace EngineLoop

variable {K : Type} (ops : CoreOps K) (s : EngineLoop K)

/-- Carry out a command. The two places that do so have the same arms. -/
def handle (s : EngineLoop K) : EngineCommand → EngineLoop K
  | .addRequest request =>
    { s with
      core := (ops.addRequest request s.core).2
      calls := s.calls ++ [.add request (ops.addRequest request s.core).1] }
  | .addRequestStream request sender =>
    { s with
      core := (ops.addRequest request s.core).2
      calls := s.calls ++ [.add request (ops.addRequest request s.core).1]
      senders :=
        match (ops.addRequest request s.core).1 with
        | .error _ => s.senders
        | .ok _ => s.senders.insert request.requestId sender }
  | .abortRequest requestId =>
    { s with
      core := ops.abortRequest requestId s.core
      calls := s.calls ++ [.abort requestId]
      senders := s.senders.erase requestId }
  -- unreachable: a shutdown returns where it is received
  | .shutdown => s

def send (s : EngineLoop K) (output : RequestOutput) : EngineLoop K :=
  match s.senders.lookup output.requestId with
  | none => s
  | some sender =>
    { s with received := Function.update s.received sender (s.received sender ++ [output]) }

def dropFinished (s : EngineLoop K) (output : RequestOutput) : EngineLoop K :=
  if output.finished then { s with senders := s.senders.erase output.requestId } else s

/-- Send a batch of outputs, and only then drop the senders of the requests it finishes. -/
def deliver (outputs : List RequestOutput) : EngineLoop K :=
  { outputs.foldl dropFinished (outputs.foldl send s) with outputTx := outputs }

def stepCore : EngineLoop K :=
  if ops.hasWork s.core then
    let outputs := (ops.step s.core).1
    let s := { s with core := (ops.step s.core).2, calls := s.calls ++ [.step outputs] }
    if outputs = [] then s else s.deliver outputs
  else s

/-- Leave the loop: the queue and the senders go with it. -/
def leave : EngineLoop K :=
  { s with point := .returned, cmdRx := [], senders := ∅ }

/-- The next move of the loop; there is none while it waits and once it has returned. -/
def advance : Option (EngineLoop K) :=
  match s.point with
  | .returned => none
  | .head =>
    if ops.hasWork s.core then some { s with point := .drain [] }
    else
      match s.cmdRx with
      | [] => if s.connected then none else some s.leave
      | .shutdown :: _ => some s.leave
      | cmd :: cmdRx => some { handle ops { s with cmdRx } cmd with point := .drain [] }
  | .drain commands =>
    match s.cmdRx with
    | [] => some { (commands.foldl (handle ops) s).stepCore ops with point := .head }
    | .shutdown :: _ => some s.leave
    | cmd :: cmdRx => some { s with cmdRx, point := .drain (commands ++ [cmd]) }

/-- Put a command into the queue; it is lost when the loop has returned. -/
def submit (cmd : EngineCommand) : EngineLoop K :=
  if s.point = .returned then s else { s with cmdRx := s.cmdRx ++ [cmd] }

/-- A request whose outputs are to be streamed comes with a new channel. -/
def addRequestStream (request : InferenceRequest) : EngineLoop K :=
  { s.submit (.addRequestStream request s.channels) with channels := s.channels + 1 }

end EngineLoop

/-- The states of the loop in every interleaving with its clients, with the commands that were
sent so far. -/
inductive LoopRun {K : Type} (ops : CoreOps K) (core : K) :
    List EngineCommand → EngineLoop K → Prop
  | new : LoopRun ops core [] { core }
  | addRequest {sent : List EngineCommand} {s : EngineLoop K} (h : LoopRun ops core sent s)
      (hc : s.connected = true) (request : InferenceRequest) :
      LoopRun ops core (sent ++ [.addRequest request]) (s.submit (.addRequest request))
  | addRequestStream {sent : List EngineCommand} {s : EngineLoop K} (h : LoopRun ops core sent s)
      (hc : s.connected = true) (request : InferenceRequest) :
      LoopRun ops core (sent ++ [.addRequestStream request s.channels])
        (s.addRequestStream request)
  | abortRequest {sent : List EngineCommand} {s : EngineLoop K} (h : LoopRun ops core sent s)
      (hc : s.connected = true) (requestId : RequestId) :
      LoopRun ops core (sent ++ [.abortRequest requestId]) (s.submit (.abortRequest requestId))
  | shutdown {sent : List EngineCommand} {s : EngineLoop K} (h : LoopRun ops core sent s)
      (hc : s.connected = true) :
      LoopRun ops core (sent ++ [.shutdown]) (s.submit .shutdown)
  | disconnect {sent : List EngineCommand} {s : EngineLoop K} (h : LoopRun ops core sent s) :
      LoopRun ops core sent { s with connected := false }
  | advance {sent : List EngineCommand} {s s' : EngineLoop K} (h : LoopRun ops core sent s)
      (hs : s.advance ops = some s') : LoopRun ops core sent s'

/-! ## What a stream is owed -/

/-- How far a request has come, seen from its calls on the core. -/
inductive StreamPhase where
  | waiting
  | registered
  | completed
  deriving DecidableEq, Repr

/-- A request is registered by being accepted, and completed when it is rejected or aborted, or
behind a step that finishes it. -/
def StreamPhase.next (id : RequestId) : StreamPhase → CoreCall → StreamPhase
  | .waiting, .add request answer =>
    if request.requestId = id then
      match answer with
      | .error _ => .completed
      | .ok _ => .registered
    else .waiting
  | .registered, .abort requestId => if requestId = id then .completed else .registered
  | .registered, .step outputs =>
    if ∃ o ∈ outputsFor id outputs, o.finished = true then .completed else .registered
  | phase, _ => phase

def phase (id : RequestId) (calls : List CoreCall) : StreamPhase :=
  calls.foldl (StreamPhase.next id) .waiting

/-- The outputs for a request that its steps return while it is registered. -/
def owedFrom (id : RequestId) : StreamPhase → List CoreCall → List RequestOutput
  | _, [] => []
  | .registered, .step outputs :: calls =>
    outputsFor id outputs ++ owedFrom id (StreamPhase.registered.next id (.step outputs)) calls
  | phase, call :: calls => owedFrom id (phase.next id call) calls

def owed (id : RequestId) (calls : List CoreCall) : List RequestOutput :=
  owedFrom id .waiting calls

@[simp] theorem StreamPhase.over_next (id : RequestId) (call : CoreCall) :
    StreamPhase.completed.next id call = .completed := by
  cases call <;> rfl

section Owed

variable {id : RequestId} {calls : List CoreCall}

@[simp] theorem phase_snoc (id : RequestId) (calls : List CoreCall) (call : CoreCall) :
    phase id (calls ++ [call]) = (phase id calls).next id call := by
  simp [phase]

theorem owedFrom_append (id : RequestId) (p : StreamPhase) (calls calls' : List CoreCall) :
    owedFrom id p (calls ++ calls') =
      owedFrom id p calls ++ owedFrom id (calls.foldl (StreamPhase.next id) p) calls' := by
  induction calls generalizing p with
  | nil => rfl
  | cons call calls ih =>
    rw [List.cons_append, List.foldl_cons]
    cases p <;> cases call <;> simp [owedFrom, ih]

theorem owed_step (id : RequestId) (calls : List CoreCall) (outputs : List RequestOutput) :
    owed id (calls ++ [.step outputs]) =
      owed id calls ++ if phase id calls = .registered then outputsFor id outputs else [] := by
  rw [owed, owedFrom_append]
  change _ ++ owedFrom id (phase id calls) _ = _
  cases phase id calls <;> simp [owedFrom, owed]

theorem owed_snoc {call : CoreCall} (h : ∀ outputs, call ≠ .step outputs) :
    owed id (calls ++ [call]) = owed id calls := by
  rw [owed, owedFrom_append]
  change _ ++ owedFrom id (phase id calls) _ = _
  cases call with
  | step outputs => exact absurd rfl (h outputs)
  | add => cases phase id calls <;> simp [owedFrom, owed]
  | abort => cases phase id calls <;> simp [owedFrom, owed]

theorem owed_mem {o : RequestOutput} (ho : o ∈ owed id calls) : o.requestId = id := by
  induction calls using List.reverseRecOn with
  | nil => cases ho
  | append_singleton calls call ih =>
    cases call with
    | step outputs =>
      rw [owed_step] at ho
      rcases List.mem_append.mp ho with ho | ho
      · exact ih ho
      · split at ho
        · simpa using (List.mem_filter.mp ho).2
        · cases ho
    | add => exact ih (by rwa [owed_snoc (by simp)] at ho)
    | abort => exact ih (by rwa [owed_snoc (by simp)] at ho)

theorem owed_waiting (hw : phase id calls = .waiting) : owed id calls = [] := by
  induction calls using List.reverseRecOn with
  | nil => rfl
  | append_singleton calls call ih =>
    have hp : phase id calls = .waiting := by
      rw [phase_snoc] at hw
      cases hp : phase id calls with
      | waiting => rfl
      | registered =>
        rw [hp] at hw
        cases call with
        | add => cases hw
        | abort => simp only [StreamPhase.next] at hw; split at hw <;> cases hw
        | step => simp only [StreamPhase.next] at hw; split at hw <;> cases hw
      | completed => simp [hp] at hw
    cases call with
    | step outputs => rw [owed_step, hp, ih hp, if_neg (by simp), List.append_nil]
    | add => rw [owed_snoc (by simp), ih hp]
    | abort => rw [owed_snoc (by simp), ih hp]

/-- Nothing final is owed to a request that is not completed, and everything behind a final output
comes from the same step. -/
theorem owed_shape (id : RequestId) (calls : List CoreCall) :
    (phase id calls ≠ .completed → ∀ o ∈ owed id calls, o.finished = false) ∧
    ∃ before last, owed id calls = before ++ last ∧ (∀ o ∈ before, o.finished = false) ∧
      (last = [] ∨ ∃ outputs, .step outputs ∈ calls ∧ last = outputsFor id outputs) := by
  induction calls using List.reverseRecOn with
  | nil => exact ⟨fun _ o ho => absurd ho List.not_mem_nil, [], [], rfl, by simp, Or.inl rfl⟩
  | append_singleton calls call ih =>
    obtain ⟨hopen, before, last, heq, hbefore, hlast⟩ := ih
    have hkeep : phase id (calls ++ [call]) ≠ .completed → phase id calls ≠ .completed := by
      intro hp ho
      rw [phase_snoc, ho, StreamPhase.over_next] at hp
      exact hp rfl
    have hmono : last = [] ∨
        ∃ outputs, .step outputs ∈ calls ++ [call] ∧ last = outputsFor id outputs :=
      hlast.imp_right fun ⟨os, hos, h⟩ => ⟨os, List.mem_append_left _ hos, h⟩
    by_cases hstep : ∃ outputs, call = .step outputs ∧ phase id calls = .registered
    · obtain ⟨outputs, rfl, hp⟩ := hstep
      have hold : ∀ o ∈ owed id calls, o.finished = false := hopen (by simp [hp])
      rw [owed_step, if_pos hp]
      refine ⟨fun hover => ?_, _, _, rfl, hold, Or.inr ⟨outputs, by simp, rfl⟩⟩
      rw [phase_snoc, hp, StreamPhase.next] at hover
      have hnone : ¬ ∃ o ∈ outputsFor id outputs, o.finished = true :=
        fun hex => hover (if_pos hex)
      refine List.forall_mem_append.mpr ⟨hold, fun o ho => ?_⟩
      rw [← Bool.not_eq_true]
      exact fun hfin => hnone ⟨o, ho, hfin⟩
    · have hsame : owed id (calls ++ [call]) = owed id calls := by
        cases call with
        | step outputs =>
          rw [owed_step, if_neg fun hp => hstep ⟨outputs, rfl, hp⟩, List.append_nil]
        | add => exact owed_snoc (by simp)
        | abort => exact owed_snoc (by simp)
      rw [hsame]
      exact ⟨fun hp => hopen (hkeep hp), before, last, heq, hbefore, hmono⟩

end Owed

theorem EngineStep.endsFinal {H : HashFns} {cfg : Config} {E : Type} (t : EngineStep E)
    (hnd : ∀ res, t.result H cfg = some res → (res.perRequestOutputs.map (·.requestId)).Nodup)
    (id : RequestId) : EndsFinal (outputsFor id (t.outputs H cfg)) := by
  have hone : ∀ {before outputs booked after}, Reply H cfg t id before outputs booked after →
      EndsFinal outputs := by
    intro before outputs booked after hreply
    cases hreply with
    | silent => exact True.intro
    | answered => exact ⟨fun _ => rfl, True.intro⟩
    | failed => exact ⟨fun _ => rfl, True.intro⟩
  exact hone (EngineCore.step_reply hnd id)

/-! ## The channels of a state -/

/-- The request that a command adds. -/
def EngineCommand.added : EngineCommand → Option RequestId
  | .addRequest request => some request.requestId
  | .addRequestStream request _ => some request.requestId
  | .abortRequest _ => none
  | .shutdown => none

theorem added_unique {cmds : List EngineCommand} (hnd : (cmds.filterMap (·.added)).Nodup)
    {cmd cmd' : EngineCommand} {id : RequestId} (h : cmd ∈ cmds) (h' : cmd' ∈ cmds)
    (hid : cmd.added = some id) (hid' : cmd'.added = some id) : cmd = cmd' := by
  induction cmds with
  | nil => cases h
  | cons c cmds ih =>
    have hfresh : ∀ x ∈ cmds, x.added = some id → c.added ≠ some id := by
      intro x hx hxid hc
      rw [List.filterMap_cons_some hc, List.nodup_cons] at hnd
      exact hnd.1 (List.mem_filterMap.mpr ⟨x, hx, hxid⟩)
    have hnd' : (cmds.filterMap (·.added)).Nodup :=
      hnd.sublist ((List.sublist_cons_self c cmds).filterMap _)
    rcases List.mem_cons.mp h with rfl | hm
    · rcases List.mem_cons.mp h' with rfl | h'
      · rfl
      · exact absurd hid (hfresh _ h' hid')
    · rcases List.mem_cons.mp h' with rfl | h'
      · exact absurd hid' (hfresh _ hm hid)
      · exact ih hnd' hm h'

namespace EngineLoop

variable {K : Type} {ops : CoreOps K} {s s' : EngineLoop K} {sent cmds : List EngineCommand}

/-- The commands that were taken from the queue or wait in it. -/
def pending (s : EngineLoop K) : List EngineCommand :=
  match s.point with
  | .drain commands => commands ++ s.cmdRx
  | _ => s.cmdRx

/-- Whether the sender of a channel is anywhere in the loop. -/
def Holds (s : EngineLoop K) (channel : Channel) : Prop :=
  (∃ id, s.senders.lookup id = some channel) ∨ ∃ r, .addRequestStream r channel ∈ s.pending

/-- What holds of the streams between two commands. -/
structure Inv (sent cmds : List EngineCommand) (s : EngineLoop K) : Prop where
  distinct : (sent.filterMap (·.added)).Nodup
  todoSent : ∀ cmd ∈ cmds, cmd ∈ sent
  todoDistinct : (cmds.filterMap (·.added)).Nodup
  todoWaiting : ∀ cmd ∈ cmds, ∀ id, cmd.added = some id → phase id s.calls = .waiting
  fresh : ∀ id, id ∉ sent.filterMap (·.added) → phase id s.calls = .waiting
  channels : ∀ r ch, .addRequestStream r ch ∈ sent → ch < s.channels
  owner : ∀ r r' ch, .addRequestStream r ch ∈ sent → .addRequestStream r' ch ∈ sent → r = r'
  unused : ∀ ch, s.channels ≤ ch → s.received ch = []
  held : ∀ id ch, s.senders.lookup id = some ch → phase id s.calls = .registered ∧
    ∃ r, r.requestId = id ∧ .addRequestStream r ch ∈ sent
  registered : s.point ≠ .returned → ∀ r ch, .addRequestStream r ch ∈ sent →
    phase r.requestId s.calls = .registered → s.senders.lookup r.requestId = some ch
  received : ∀ r ch, .addRequestStream r ch ∈ sent → s.received ch = owed r.requestId s.calls
  returned : s.point = .returned → s.senders = ∅ ∧ cmds = []

variable (ops) in
theorem handle_frame (s : EngineLoop K) (cmd : EngineCommand) :
    (s.handle ops cmd).point = s.point ∧ (s.handle ops cmd).cmdRx = s.cmdRx := by
  cases cmd <;> exact ⟨rfl, rfl⟩

theorem phase_add {id : RequestId} {calls : List CoreCall} {request : InferenceRequest}
    {answer : Except String Unit} (hw : phase request.requestId calls = .waiting) :
    (phase id (calls ++ [.add request answer]) = if id = request.requestId then
      (match answer with | .error _ => .completed | .ok _ => .registered) else phase id calls) := by
  rw [phase_snoc]
  by_cases hid : id = request.requestId
  · subst hid
    rw [hw, if_pos rfl]
    exact if_pos rfl
  · rw [if_neg hid]
    cases phase id calls with
    | waiting => exact if_neg (Ne.symm hid)
    | registered => rfl
    | completed => rfl

theorem phase_abort (id requestId : RequestId) (calls : List CoreCall) :
    phase id (calls ++ [.abort requestId]) =
      if id = requestId ∧ phase id calls = .registered then .completed else phase id calls := by
  rw [phase_snoc]
  cases phase id calls with
  | waiting => simp [StreamPhase.next]
  | registered => simp [StreamPhase.next, eq_comm]
  | completed => simp

theorem Inv.add {request : InferenceRequest} {answer : Except String Unit} {core : K}
    {senders : AList fun _ : RequestId => Channel} (cmd : EngineCommand) (stream : Option Channel)
    (h : Inv sent cmds s) (hadded : cmd.added = some request.requestId) (hcmd : cmd ∈ sent)
    (hw : phase request.requestId s.calls = .waiting)
    (hother : ∀ cmd' ∈ cmds, ∀ id, cmd'.added = some id → cmd.added ≠ some id)
    (hlook : ∀ id, senders.lookup id =
      if id = request.requestId then stream else s.senders.lookup id)
    (hopen : ∀ r ch, cmd = .addRequestStream r ch → answer = .ok () → stream = some ch)
    (hfrom : ∀ ch, stream = some ch → cmd = .addRequestStream request ch ∧ answer = .ok ())
    (hpoint : s.point ≠ .returned) :
    Inv sent cmds { s with core, senders, calls := s.calls ++ [.add request answer] } := by
  have hphase : ∀ id, id ≠ request.requestId →
      phase id (s.calls ++ [.add request answer]) = phase id s.calls :=
    fun id hid => (phase_add hw).trans (if_neg hid)
  refine { h with todoWaiting := ?_, fresh := ?_, held := ?_, registered := ?_, received := ?_,
                  returned := fun hp => absurd hp hpoint }
  · intro cmd' hcmd' id hid
    rw [hphase id]
    · exact h.todoWaiting cmd' hcmd' id hid
    · rintro rfl
      exact hother cmd' hcmd' _ hid hadded
  · intro id hid
    rw [hphase id]
    · exact h.fresh id hid
    · rintro rfl
      exact hid (List.mem_filterMap.mpr ⟨cmd, hcmd, hadded⟩)
  · intro id ch hch
    rw [hlook] at hch
    split at hch
    · rename_i hid
      obtain ⟨rfl, rfl⟩ := hfrom ch hch
      exact ⟨by rw [phase_add hw, if_pos hid], request, hid.symm, hcmd⟩
    · rename_i hid
      rw [hphase id hid]
      exact h.held id ch hch
  · intro _ r ch hr hp
    rw [hlook]
    by_cases hid : r.requestId = request.requestId
    · obtain rfl : cmd = .addRequestStream r ch :=
        added_unique h.distinct hcmd hr hadded (congrArg some hid)
      rw [phase_add hw, if_pos hid] at hp
      rw [if_pos hid]
      cases answer with
      | error => cases hp
      | ok => exact hopen r ch rfl rfl
    · rw [if_neg hid]
      exact h.registered hpoint r ch hr (hphase _ hid ▸ hp)
  · intro r ch hr
    rw [owed_snoc (by simp)]
    exact h.received r ch hr

theorem Inv.tail {cmd : EngineCommand} (h : Inv sent (cmd :: cmds) s)
    (hpoint : s.point ≠ .returned) : Inv sent cmds s :=
  { h with
    todoSent := fun c hc => h.todoSent c (List.mem_cons_of_mem _ hc)
    todoDistinct := h.todoDistinct.sublist ((List.sublist_cons_self cmd cmds).filterMap _)
    todoWaiting := fun c hc => h.todoWaiting c (List.mem_cons_of_mem _ hc)
    returned := fun hp => absurd hp hpoint }

theorem Inv.lookup_eq_none {cmd : EngineCommand} {id : RequestId} (h : Inv sent (cmd :: cmds) s)
    (hid : cmd.added = some id) : s.senders.lookup id = none := by
  cases hl : s.senders.lookup id with
  | none => rfl
  | some ch =>
    have hp := (h.held id ch hl).1
    rw [h.todoWaiting cmd List.mem_cons_self id hid] at hp
    cases hp

theorem Inv.abort (h : Inv sent cmds s) (hpoint : s.point ≠ .returned) (requestId : RequestId)
    (core : K) : Inv sent cmds { s with
      core, senders := s.senders.erase requestId, calls := s.calls ++ [.abort requestId] } := by
  have hlook := lookup_erase_eq s.senders requestId
  have hstay : ∀ id, phase id s.calls = .waiting →
      phase id (s.calls ++ [.abort requestId]) = .waiting := by
    intro id hw
    rw [phase_abort, if_neg (by simp [hw]), hw]
  refine { h with todoWaiting := ?_, fresh := ?_, held := ?_, registered := ?_, received := ?_,
                  returned := fun hp => absurd hp hpoint }
  · exact fun cmd' hcmd' id hid => hstay id (h.todoWaiting cmd' hcmd' id hid)
  · exact fun id hid => hstay id (h.fresh id hid)
  · intro id ch hch
    rw [hlook] at hch
    split at hch
    · cases hch
    · rename_i hid
      rw [phase_abort, if_neg fun hp => hid hp.1]
      exact h.held id ch hch
  · intro _ r ch hr hp
    rw [phase_abort] at hp
    split at hp
    · cases hp
    · rename_i hid
      rw [hlook, if_neg fun he => hid ⟨he, hp⟩]
      exact h.registered hpoint r ch hr hp
  · intro r ch hr
    rw [owed_snoc (by simp)]
    exact h.received r ch hr

theorem Inv.handle {cmd : EngineCommand} (h : Inv sent (cmd :: cmds) s)
    (hpoint : s.point ≠ .returned) : Inv sent cmds (s.handle ops cmd) := by
  have hsent : cmd ∈ sent := h.todoSent cmd List.mem_cons_self
  have hrest : Inv sent cmds s := h.tail hpoint
  have hother : ∀ cmd' ∈ cmds, ∀ id, cmd'.added = some id → cmd.added ≠ some id := by
    intro cmd' hcmd' id hid hadd
    have hnd := h.todoDistinct
    rw [List.filterMap_cons_some hadd, List.nodup_cons] at hnd
    exact hnd.1 (List.mem_filterMap.mpr ⟨cmd', hcmd', hid⟩)
  cases cmd with
  | addRequest request =>
    refine hrest.add (.addRequest request) none rfl hsent
      (h.todoWaiting _ List.mem_cons_self _ rfl) hother (fun id => ?_) (by simp) (by simp) hpoint
    split
    · rename_i hid
      exact hid ▸ h.lookup_eq_none rfl
    · rfl
  | addRequestStream request sender =>
    refine hrest.add (.addRequestStream request sender)
      (match (ops.addRequest request s.core).1 with
        | .error _ => none
        | .ok _ => some sender) rfl hsent
      (h.todoWaiting _ List.mem_cons_self _ rfl) hother (fun id => ?_) ?_ ?_ hpoint
    · cases (ops.addRequest request s.core).1 with
      | error =>
        change s.senders.lookup id = if id = request.requestId then none else _
        split
        · rename_i hid
          exact hid ▸ h.lookup_eq_none rfl
        · rfl
      | ok =>
        exact lookup_insert_eq s.senders request.requestId id sender
    · rintro r ch hcmd hok
      cases hcmd
      rw [hok]
    · intro ch hch
      cases hanswer : (ops.addRequest request s.core).1 with
      | error => simp [hanswer] at hch
      | ok => simp_all
  | abortRequest requestId => exact hrest.abort hpoint requestId _
  | shutdown => exact hrest

/-! ## Deliveries -/

theorem send_foldl (outputs : List RequestOutput) (s : EngineLoop K) :
    outputs.foldl send s = { s with
      received := fun ch => s.received ch ++
        outputs.filter fun o => s.senders.lookup o.requestId = some ch } := by
  induction outputs generalizing s with
  | nil => simp
  | cons o outputs ih =>
    have hsend : s.send o = { s with
        received := fun ch => s.received ch ++
          [o].filter fun o => s.senders.lookup o.requestId = some ch } := by
      unfold send
      split
      · rename_i hl
        simp [hl]
      · rename_i sender hl
        congr 1
        funext ch
        by_cases hch : ch = sender
        · subst hch
          simp [hl]
        · simp [hl, Function.update_of_ne hch, Ne.symm hch]
    rw [List.foldl_cons, ih, hsend]
    congr 1
    funext ch
    rw [List.append_assoc, ← List.filter_append]
    rfl

theorem dropFinished_foldl (outputs : List RequestOutput) (s : EngineLoop K) :
    ∃ senders, outputs.foldl dropFinished s = { s with senders } ∧
      ∀ id, senders.lookup id =
        if ∃ o ∈ outputsFor id outputs, o.finished = true then none else s.senders.lookup id := by
  induction outputs generalizing s with
  | nil => exact ⟨s.senders, rfl, fun id => by simp⟩
  | cons o outputs ih =>
    obtain ⟨senders, heq, hl⟩ := ih (s.dropFinished o)
    have hdrop : ∃ senders', s.dropFinished o = { s with senders := senders' } ∧
        ∀ id, senders'.lookup id =
          if o.requestId = id ∧ o.finished = true then none else s.senders.lookup id := by
      unfold dropFinished
      split
      · rename_i hfin
        refine ⟨_, rfl, fun id => ?_⟩
        rw [lookup_erase_eq]
        exact if_congr ((and_iff_left hfin).trans eq_comm).symm rfl rfl
      · rename_i hfin
        exact ⟨_, rfl, fun id => (if_neg fun h => hfin h.2).symm⟩
    obtain ⟨senders', heq', hl'⟩ := hdrop
    rw [List.foldl_cons, heq, heq']
    refine ⟨senders, rfl, fun id => ?_⟩
    rw [hl, heq', hl']
    have hsplit : (∃ x ∈ outputsFor id (o :: outputs), x.finished = true) ↔
        (∃ x ∈ outputsFor id outputs, x.finished = true) ∨
          o.requestId = id ∧ o.finished = true := by
      simp only [outputsFor, List.mem_filter, List.mem_cons, beq_iff_eq]
      grind
    rw [← ite_or]
    exact if_congr hsplit.symm rfl rfl

theorem Inv.deliver (h : Inv sent [] s) (hpoint : s.point ≠ .returned) (core : K)
    (outputs : List RequestOutput) :
    Inv sent [] (deliver { s with core, calls := s.calls ++ [.step outputs] } outputs) := by
  have hphase : ∀ id, phase id (s.calls ++ [.step outputs]) =
      if phase id s.calls = .registered ∧ ∃ o ∈ outputsFor id outputs, o.finished = true then
        .completed
      else phase id s.calls := by
    intro id
    rw [phase_snoc]
    cases phase id s.calls <;> simp [StreamPhase.next]
  have hstay : ∀ id, phase id s.calls = .waiting →
      phase id (s.calls ++ [.step outputs]) = .waiting := by
    intro id hw
    rw [hphase, if_neg (by simp [hw]), hw]
  unfold EngineLoop.deliver
  rw [send_foldl]
  obtain ⟨senders, heq, hl⟩ := dropFinished_foldl outputs
    { s with
      core, calls := s.calls ++ [.step outputs]
      received := fun ch => s.received ch ++
        outputs.filter fun o => s.senders.lookup o.requestId = some ch }
  rw [heq]
  refine { h with todoWaiting := by simp, fresh := ?_, unused := ?_, held := ?_, registered := ?_,
                  received := ?_, returned := fun hp => absurd hp hpoint }
  · exact fun id hid => hstay id (h.fresh id hid)
  · intro ch hch
    change s.received ch ++ _ = []
    rw [h.unused ch hch, List.nil_append, List.filter_eq_nil_iff]
    intro o _ ho
    obtain ⟨-, r, -, hr⟩ := h.held _ ch (of_decide_eq_true ho)
    exact absurd (h.channels r ch hr) (Nat.not_lt.mpr hch)
  · intro id ch hch
    change senders.lookup id = some ch at hch
    change phase id (s.calls ++ [.step outputs]) = _ ∧ _
    rw [hl] at hch
    split at hch
    · cases hch
    · rename_i hfin
      rw [hphase, if_neg fun hp => hfin hp.2]
      exact h.held id ch hch
  · intro _ r ch hr hp
    change phase r.requestId (s.calls ++ [.step outputs]) = _ at hp
    change senders.lookup r.requestId = some ch
    rw [hphase] at hp
    split at hp
    · cases hp
    · rename_i hfin
      rw [hl, if_neg fun he => hfin ⟨hp, he⟩]
      exact h.registered hpoint r ch hr hp
  · intro r ch hr
    change s.received ch ++ _ = owed r.requestId (s.calls ++ [.step outputs])
    rw [owed_step, h.received r ch hr]
    congr 1
    split
    · rename_i hp
      refine List.filter_congr fun o _ => ?_
      rw [Bool.eq_iff_iff, decide_eq_true_iff, beq_iff_eq]
      constructor
      · intro ho
        obtain ⟨-, r', hid, hr'⟩ := h.held _ ch ho
        rw [h.owner r r' ch hr hr', hid]
      · intro hid
        rw [hid]
        exact h.registered hpoint r ch hr hp
    · rename_i hp
      rw [List.filter_eq_nil_iff]
      intro o _ ho
      obtain ⟨hreg, r', hid, hr'⟩ := h.held _ ch (of_decide_eq_true ho)
      rw [h.owner r r' ch hr hr', hid] at hp
      exact hp hreg

theorem Inv.stepCore (h : Inv sent [] s) (hpoint : s.point ≠ .returned) :
    Inv sent [] (s.stepCore ops) := by
  unfold EngineLoop.stepCore
  split
  · dsimp only
    have hd := h.deliver hpoint (ops.step s.core).2 (ops.step s.core).1
    split
    · rename_i hnil
      rw [hnil] at hd ⊢
      exact { hd with }
    · exact hd
  · exact h

variable (ops) in
theorem stepCore_frame (s : EngineLoop K) :
    (s.stepCore ops).point = s.point ∧ (s.stepCore ops).cmdRx = s.cmdRx := by
  unfold EngineLoop.stepCore EngineLoop.deliver
  dsimp only
  split
  · split
    · exact ⟨rfl, rfl⟩
    · rw [send_foldl]
      obtain ⟨senders, heq, -⟩ := dropFinished_foldl (ops.step s.core).1 _
      rw [heq]
      exact ⟨rfl, rfl⟩
  · exact ⟨rfl, rfl⟩

/-! ## Whole runs -/

variable (ops) in
theorem Inv.foldl_handle (h : Inv sent cmds s) (hpoint : s.point ≠ .returned) :
    Inv sent [] (cmds.foldl (EngineLoop.handle ops) s) ∧
      (cmds.foldl (EngineLoop.handle ops) s).point = s.point ∧
      (cmds.foldl (EngineLoop.handle ops) s).cmdRx = s.cmdRx := by
  induction cmds generalizing s with
  | nil => exact ⟨h, rfl, rfl⟩
  | cons cmd cmds ih =>
    obtain ⟨hp, hq⟩ := handle_frame ops s cmd
    obtain ⟨hinv, hpoint', hrx⟩ := ih (h.handle hpoint) (hp ▸ hpoint)
    exact ⟨hinv, hpoint'.trans hp, hrx.trans hq⟩

theorem Inv.leave (h : Inv sent cmds s) : Inv sent s.leave.pending s.leave :=
  { h with
    todoSent := by simp [EngineLoop.leave, pending]
    todoDistinct := List.nodup_nil
    todoWaiting := by simp [EngineLoop.leave, pending]
    held := fun id ch hch => by simp [EngineLoop.leave] at hch
    registered := fun hp => absurd rfl hp
    returned := fun _ => ⟨rfl, rfl⟩ }

theorem advance_cases (h : s.advance ops = some s') :
    s' = s.leave ∨ (s.point = .head ∧ s' = { s with point := .drain [] }) ∨
    (∃ cmd rest, s.point = .head ∧ s.cmdRx = cmd :: rest ∧
      s' = { EngineLoop.handle ops { s with cmdRx := rest } cmd with point := .drain [] }) ∨
    (∃ commands, s.point = .drain commands ∧ s.cmdRx = [] ∧
      s' = { EngineLoop.stepCore ops (commands.foldl (EngineLoop.handle ops) s) with
        point := .head }) ∨
    ∃ commands cmd rest, s.point = .drain commands ∧ s.cmdRx = cmd :: rest ∧
      s' = { s with cmdRx := rest, point := .drain (commands ++ [cmd]) } := by
  unfold advance at h
  split at h
  · cases h
  · rename_i hpoint
    split at h
    · exact Or.inr (Or.inl ⟨hpoint, (Option.some.inj h).symm⟩)
    · split at h
      · split at h
        · cases h
        · exact Or.inl (Option.some.inj h).symm
      · exact Or.inl (Option.some.inj h).symm
      · rename_i cmd rest _ hq
        exact Or.inr (Or.inr (Or.inl ⟨cmd, rest, hpoint, hq, (Option.some.inj h).symm⟩))
  · rename_i commands hpoint
    split at h
    · rename_i hq
      exact Or.inr (Or.inr (Or.inr (Or.inl ⟨commands, hpoint, hq, (Option.some.inj h).symm⟩)))
    · exact Or.inl (Option.some.inj h).symm
    · rename_i cmd rest _ hq
      exact Or.inr (Or.inr (Or.inr (Or.inr
        ⟨commands, cmd, rest, hpoint, hq, (Option.some.inj h).symm⟩)))

theorem Inv.moveTo {point : LoopPoint} (h : Inv sent cmds s) (hpoint : s.point ≠ .returned)
    (hnext : point ≠ .returned) (hcmds : pending { s with point } = cmds) :
    Inv sent (pending { s with point }) { s with point } := by
  rw [hcmds]
  exact { h with
    registered := fun _ => h.registered hpoint
    returned := fun hp => absurd hp hnext }

theorem Inv.advance (h : Inv sent s.pending s) (hs : s.advance ops = some s') :
    Inv sent s'.pending s' := by
  rcases advance_cases hs with rfl | ⟨hpoint, rfl⟩ | ⟨cmd, rest, hpoint, hq, rfl⟩ |
    ⟨commands, hpoint, hq, rfl⟩ | ⟨commands, cmd, rest, hpoint, hq, rfl⟩
  · exact h.leave
  · rw [pending, hpoint] at h
    exact h.moveTo (by simp [hpoint]) (by simp) rfl
  · rw [pending, hpoint] at h
    have hinv : Inv sent (cmd :: rest) { s with cmdRx := rest } :=
      { (hq ▸ h : Inv sent (cmd :: rest) s) with }
    obtain ⟨hp, hrx⟩ := handle_frame ops { s with cmdRx := rest } cmd
    have hready : s.point ≠ .returned := by simp [hpoint]
    exact (hinv.handle hready).moveTo (by rw [hp]; exact hready) (by simp) hrx
  · have hready : s.point ≠ .returned := by simp [hpoint]
    have h : Inv sent commands s := by
      rw [pending, hpoint, hq] at h
      simpa using h
    obtain ⟨hdone, hp, hrx⟩ := h.foldl_handle ops hready
    obtain ⟨hp', hrx'⟩ := stepCore_frame ops (commands.foldl (EngineLoop.handle ops) s)
    refine (hdone.stepCore (hp ▸ hready)).moveTo (by simp [hp', hp, hpoint]) (by simp) ?_
    exact hrx'.trans (hrx.trans hq)
  · rw [pending, hpoint, hq] at h
    have hinv : Inv sent (commands ++ cmd :: rest) { s with cmdRx := rest } := { h with }
    exact hinv.moveTo (by simp [hpoint]) (by simp) (List.append_assoc commands [cmd] rest)

theorem Inv.new_waiting {cmd : EngineCommand} {id : RequestId} (h : Inv sent cmds s)
    (hnd : ((sent ++ [cmd]).filterMap (·.added)).Nodup) (hid : cmd.added = some id) :
    phase id s.calls = .waiting := by
  apply h.fresh
  intro hmem
  rw [List.filterMap_append, List.nodup_append] at hnd
  exact hnd.2.2 id hmem id (by simp [hid]) rfl

/-- A command that is sent concerns no stream but the one that it opens. -/
theorem Inv.record {cmd : EngineCommand} {channels : ℕ} (h : Inv sent cmds s)
    (hnd : ((sent ++ [cmd]).filterMap (·.added)).Nodup) (hle : s.channels ≤ channels)
    (hch : ∀ r ch, cmd = .addRequestStream r ch → ch = s.channels ∧ s.channels < channels) :
    Inv (sent ++ [cmd]) cmds { s with channels } := by
  have hsplit : ∀ {r ch}, .addRequestStream r ch ∈ sent ++ [cmd] →
      .addRequestStream r ch ∈ sent ∨ cmd = .addRequestStream r ch := by
    intro r ch hr
    exact (List.mem_append.mp hr).imp_right fun hr => (List.mem_singleton.mp hr).symm
  have hunused : ∀ {r ch}, .addRequestStream r ch ∈ sent → ch ≠ s.channels :=
    fun hr => (h.channels _ _ hr).ne
  constructor
  · exact hnd
  · exact fun cmd' hcmd' => List.mem_append_left _ (h.todoSent cmd' hcmd')
  · exact h.todoDistinct
  · exact h.todoWaiting
  · intro id hid
    apply h.fresh
    intro hmem
    rw [List.filterMap_append] at hid
    exact hid (List.mem_append_left _ hmem)
  · intro r ch hr
    rcases hsplit hr with hr | hr
    · exact (h.channels r ch hr).trans_le hle
    · obtain ⟨rfl, hlt⟩ := hch r ch hr
      exact hlt
  · intro r r' ch hr hr'
    rcases hsplit hr with hr | hr <;> rcases hsplit hr' with hr' | hr'
    · exact h.owner r r' ch hr hr'
    · exact absurd (hch r' ch hr').1 (hunused hr)
    · exact absurd (hch r ch hr).1 (hunused hr')
    · cases hr.symm.trans hr'
      rfl
  · exact fun ch hle' => h.unused ch (hle.trans hle')
  · intro id ch hl
    obtain ⟨hp, r, hid, hr⟩ := h.held id ch hl
    exact ⟨hp, r, hid, List.mem_append_left _ hr⟩
  · intro hready r ch hr hp
    rcases hsplit hr with hr | rfl
    · exact h.registered hready r ch hr hp
    · cases (h.new_waiting hnd rfl).symm.trans hp
  · intro r ch hr
    rcases hsplit hr with hr | rfl
    · exact h.received r ch hr
    · rw [owed_waiting (h.new_waiting hnd rfl), (hch r ch rfl).1]
      exact h.unused _ le_rfl
  · exact h.returned

/-- The last command sent is to be handled behind all others. -/
theorem Inv.enqueue {cmd : EngineCommand} (h : Inv (sent ++ [cmd]) cmds s)
    (hold : ∀ cmd' ∈ cmds, cmd' ∈ sent)
    (hwait : ∀ id, cmd.added = some id → phase id s.calls = .waiting)
    (hpoint : s.point ≠ .returned) : Inv (sent ++ [cmd]) (cmds ++ [cmd]) s := by
  refine { h with todoSent := ?_, todoDistinct := ?_, todoWaiting := ?_,
                  returned := fun hp => absurd hp hpoint }
  · intro cmd' hcmd'
    rcases List.mem_append.mp hcmd' with hcmd' | hcmd'
    · exact h.todoSent cmd' hcmd'
    · exact List.mem_append_right _ hcmd'
  · have hnd := h.distinct
    rw [List.filterMap_append, List.nodup_append] at hnd ⊢
    refine ⟨h.todoDistinct, hnd.2.1, fun id hid => hnd.2.2 id ?_⟩
    obtain ⟨cmd', hcmd', hid'⟩ := List.mem_filterMap.mp hid
    exact List.mem_filterMap.mpr ⟨cmd', hold cmd' hcmd', hid'⟩
  · intro cmd' hcmd' id hid
    rcases List.mem_append.mp hcmd' with hcmd' | hcmd'
    · exact h.todoWaiting cmd' hcmd' id hid
    · exact hwait id (List.mem_singleton.mp hcmd' ▸ hid)

theorem Inv.submit {cmd : EngineCommand} {channels : ℕ} (h : Inv sent s.pending s)
    (hnd : ((sent ++ [cmd]).filterMap (·.added)).Nodup) (hle : s.channels ≤ channels)
    (hch : ∀ r ch, cmd = .addRequestStream r ch → ch = s.channels ∧ s.channels < channels) :
    Inv (sent ++ [cmd]) (s.submit cmd).pending { s.submit cmd with channels } := by
  have hrecord := h.record hnd hle hch
  unfold EngineLoop.submit
  split
  · exact hrecord
  · rename_i hpoint
    have hqueue := hrecord.enqueue h.todoSent (fun _ => h.new_waiting hnd) hpoint
    have hpending : pending { s with cmdRx := s.cmdRx ++ [cmd] } = s.pending ++ [cmd] := by
      unfold pending
      cases s.point <;> simp
    rw [hpending]
    exact { hqueue with }

theorem Inv.submit_quiet {cmd : EngineCommand} (h : Inv sent s.pending s)
    (hnd : ((sent ++ [cmd]).filterMap (·.added)).Nodup)
    (hquiet : ∀ r ch, cmd ≠ .addRequestStream r ch) :
    Inv (sent ++ [cmd]) (s.submit cmd).pending (s.submit cmd) := by
  have hsame : { s.submit cmd with channels := s.channels } = s.submit cmd := by
    unfold EngineLoop.submit
    split <;> rfl
  exact hsame ▸ h.submit hnd le_rfl fun r ch hr => absurd hr (hquiet r ch)

theorem stepCore_calls {P : List RequestOutput → Prop} (hP : ∀ core, P (ops.step core).1)
    (h : ∀ outputs, .step outputs ∈ s.calls → P outputs) :
    ∀ outputs, .step outputs ∈ (s.stepCore ops).calls → P outputs := by
  have hsnoc : ∀ outputs, .step outputs ∈ s.calls ++ [.step (ops.step s.core).1] → P outputs := by
    intro outputs ho
    rcases List.mem_append.mp ho with ho | ho
    · exact h outputs ho
    · cases List.mem_singleton.mp ho
      exact hP s.core
  unfold EngineLoop.stepCore EngineLoop.deliver
  dsimp only
  split
  · split
    · exact hsnoc
    · rw [send_foldl]
      obtain ⟨senders, heq, -⟩ := dropFinished_foldl (ops.step s.core).1 _
      rw [heq]
      exact hsnoc
  · exact h

theorem handle_calls {cmd : EngineCommand} {outputs : List RequestOutput} :
    .step outputs ∈ (s.handle ops cmd).calls ↔ .step outputs ∈ s.calls := by
  cases cmd <;> simp [EngineLoop.handle]

theorem Inv.endsFinal (h : Inv sent cmds s) {r : InferenceRequest} {ch : Channel}
    (hr : .addRequestStream r ch ∈ sent)
    (hends : ∀ outputs, .step outputs ∈ s.calls → EndsFinal (outputsFor r.requestId outputs)) :
    EndsFinal (s.received ch) := by
  obtain ⟨-, before, last, heq, hbefore, hlast⟩ := owed_shape r.requestId s.calls
  rw [h.received r ch hr, heq]
  refine .append hbefore ?_
  rcases hlast with rfl | ⟨outputs, hos, rfl⟩
  · exact True.intro
  · exact hends outputs hos

end EngineLoop

/-- What the channel of a stream has carried, and that its sender goes with the request. -/
structure Lossless {K : Type} (s : EngineLoop K) (r : InferenceRequest) (ch : Channel) : Prop where
  exact : s.received ch = owed r.requestId s.calls
  own : ∀ o ∈ s.received ch, o.requestId = r.requestId
  final : ∃ before last, s.received ch = before ++ last ∧ (∀ o ∈ before, o.finished = false) ∧
    (last = [] ∨ ∃ outputs, .step outputs ∈ s.calls ∧ last = outputsFor r.requestId outputs)
  ends : (∀ outputs, .step outputs ∈ s.calls → EndsFinal (outputsFor r.requestId outputs)) →
    EndsFinal (s.received ch)
  dropped : phase r.requestId s.calls = .completed ∨ s.point = .returned → ¬ s.Holds ch

namespace LoopRun

variable {K : Type} {ops : CoreOps K} {core : K} {s : EngineLoop K} {sent : List EngineCommand}

theorem inv (h : LoopRun ops core sent s) (hnd : (sent.filterMap (·.added)).Nodup) :
    EngineLoop.Inv sent s.pending s := by
  induction h with
  | new => constructor <;> simp [EngineLoop.pending, phase]
  | addRequest h hc request ih =>
    have hinv := ih (hnd.sublist ((List.sublist_append_left _ _).filterMap _))
    exact hinv.submit_quiet hnd (by simp)
  | addRequestStream h hc request ih =>
    have hinv := ih (hnd.sublist ((List.sublist_append_left _ _).filterMap _))
    refine hinv.submit hnd (Nat.le_succ _) fun r ch hr => ?_
    cases hr
    exact ⟨rfl, Nat.lt_succ_self _⟩
  | abortRequest h hc requestId ih =>
    have hinv := ih (hnd.sublist ((List.sublist_append_left _ _).filterMap _))
    exact hinv.submit_quiet hnd (by simp)
  | shutdown h hc ih =>
    have hinv := ih (hnd.sublist ((List.sublist_append_left _ _).filterMap _))
    exact hinv.submit_quiet hnd (by simp)
  | disconnect h ih => exact { ih hnd with }
  | advance h hs ih => exact (ih hnd).advance hs

theorem mem_calls {P : List RequestOutput → Prop} (hP : ∀ core, P (ops.step core).1)
    (h : LoopRun ops core sent s) : ∀ outputs, .step outputs ∈ s.calls → P outputs := by
  have hsubmit : ∀ {s : EngineLoop K} (cmd : EngineCommand), (s.submit cmd).calls = s.calls := by
    intro s cmd
    unfold EngineLoop.submit
    split <;> rfl
  induction h with
  | new => simp
  | addRequest h hc request ih => rwa [hsubmit]
  | addRequestStream h hc request ih =>
    change ∀ outputs, _ ∈ (EngineLoop.submit _ _).calls → _
    rwa [hsubmit]
  | abortRequest h hc requestId ih => rwa [hsubmit]
  | shutdown h hc ih => rwa [hsubmit]
  | disconnect h ih => exact ih
  | @advance sent s s' h hs ih =>
    rcases EngineLoop.advance_cases hs with rfl | ⟨-, rfl⟩ | ⟨cmd, rest, -, -, rfl⟩ |
      ⟨commands, -, -, rfl⟩ | ⟨commands, cmd, rest, -, -, rfl⟩
    · exact ih
    · exact ih
    · exact fun outputs ho =>
        ih outputs ((EngineLoop.handle_calls (s := { s with cmdRx := rest })).mp ho)
    · have hfold : ∀ outputs, .step outputs ∈ (commands.foldl (EngineLoop.handle ops) s).calls →
          P outputs := by
        clear hs h
        induction commands generalizing s with
        | nil => exact ih
        | cons cmd commands ihc =>
          exact ihc fun outputs ho => ih outputs (EngineLoop.handle_calls.mp ho)
      exact EngineLoop.stepCore_calls hP hfold
    · exact ih

/-- Every stream gets the outputs of its own request, from its registration to the step that
finishes it, its abort or the end of the loop. -/
theorem lossless (h : LoopRun ops core sent s) (hnd : (sent.filterMap (·.added)).Nodup)
    (r : InferenceRequest) (ch : Channel) (hr : .addRequestStream r ch ∈ sent) :
    Lossless s r ch := by
  have hinv := h.inv hnd
  have hexact := hinv.received r ch hr
  obtain ⟨-, before, last, heq, hbefore, hlast⟩ := owed_shape r.requestId s.calls
  refine ⟨hexact, ?_, ⟨before, last, hexact.trans heq, hbefore, hlast⟩, hinv.endsFinal hr, ?_⟩
  · intro o ho
    rw [hexact] at ho
    exact owed_mem ho
  · rintro (hover | hret) (⟨id, hl⟩ | ⟨r', hr'⟩)
    · obtain ⟨hp, r', rfl, hr'⟩ := hinv.held id ch hl
      rw [← hinv.owner r r' ch hr hr', hover] at hp
      cases hp
    · have hp := hinv.todoWaiting _ hr' r'.requestId rfl
      rw [← hinv.owner r r' ch hr (hinv.todoSent _ hr'), hover] at hp
      cases hp
    · rw [(hinv.returned hret).1] at hl
      cases hl
    · rw [(hinv.returned hret).2] at hr'
      cases hr'

/-- With an executor that answers every request once in a step, nothing follows the final output
of a stream. -/
theorem endsFinal_engineCore {H : HashFns} {cfg : Config} {E : Type} {exec : Executor E}
    {core : EngineCore E × (ℕ → HashOrder)} {s : EngineLoop (EngineCore E × (ℕ → HashOrder))}
    (honce : ∀ out e res, (exec.executeModel out e).1 = .ok res →
      (res.perRequestOutputs.map (·.requestId)).Nodup)
    (h : LoopRun (EngineCore.ops H cfg exec) core sent s) (hnd : (sent.filterMap (·.added)).Nodup)
    {r : InferenceRequest} {ch : Channel} (hr : .addRequestStream r ch ∈ sent) :
    EndsFinal (s.received ch) := by
  refine (h.inv hnd).endsFinal hr (h.mem_calls fun core => ?_)
  refine EngineStep.endsFinal ⟨core.1, exec, core.2 0⟩ (fun res hres => ?_) r.requestId
  unfold EngineStep.result at hres
  dsimp only at hres
  split at hres
  · cases hres
  · refine honce (core.1.scheduler.step H cfg (core.2 0)).1 core.1.executor res ?_
    cases he : (exec.executeModel (core.1.scheduler.step H cfg (core.2 0)).1 core.1.executor).1 with
    | error => simp [he, Except.toOption] at hres
    | ok res' =>
      rw [he] at hres
      rw [Option.some.inj hres]

theorem advance_getD (h : LoopRun ops core sent s) :
    LoopRun ops core sent ((s.advance ops).getD s) := by
  cases hs : s.advance ops with
  | none => exact h
  | some s' => exact h.advance hs

end LoopRun

/-- A loop that was sent a request for one token and took two moves: it has stepped once. -/
def oneTokenLoop (exec : Executor Unit) : EngineLoop (EngineCore Unit × (ℕ → HashOrder)) :=
  let ops := EngineCore.ops smallHash (smallConfig 8 false) exec
  let s : EngineLoop (EngineCore Unit × (ℕ → HashOrder)) :=
    { core := (.new (smallConfig 8 false) () [], fun _ => .id) }
  let s := s.addRequestStream oneTokenRequest
  let s := (s.advance ops).getD s
  (s.advance ops).getD s

theorem loopRun_oneToken (exec : Executor Unit) :
    LoopRun (EngineCore.ops smallHash (smallConfig 8 false) exec)
      (.new (smallConfig 8 false) () [], fun _ => .id) [.addRequestStream oneTokenRequest 0]
      (oneTokenLoop exec) :=
  (LoopRun.new.addRequestStream rfl oneTokenRequest).advance_getD.advance_getD

theorem LoopRun.lossless_small : Lossless (oneTokenLoop pairExecutor) oneTokenRequest 0 :=
  LoopRun.lossless (loopRun_oneToken pairExecutor) (by decide) oneTokenRequest 0 (by simp)

/-- An executor that answers for a request twice in a step. -/
def twiceExecutor : Executor Unit where
  executeModel out _ :=
    (.ok ⟨(out.scheduledNew ++ out.scheduledRunning).flatMap fun id => [⟨id, [7]⟩, ⟨id, [8]⟩]⟩, ())
  addRequest _ _ _ _ := (.ok (), ())
  abortRequest _ _ := ()

/-- Both answers end the request, and both are delivered. -/
theorem LoopRun.not_endsFinal : ¬ ∀ (K : Type) (ops : CoreOps K) (core : K)
    (sent : List EngineCommand) (s : EngineLoop K), LoopRun ops core sent s →
    (sent.filterMap (·.added)).Nodup → ∀ r ch, .addRequestStream r ch ∈ sent →
    EndsFinal (s.received ch) := by
  intro h
  have hends := h _ _ _ _ _ (loopRun_oneToken twiceExecutor) (by decide) oneTokenRequest 0 (by simp)
  have hfin : ((oneTokenLoop twiceExecutor).received 0).map (·.finished) = [true, true] := by
    decide +kernel
  obtain ⟨o, os, hout, ho, hos⟩ := List.map_eq_cons_iff.mp hfin
  rw [hout] at hends
  rw [hends.1 ho] at hos
  cases hos

end Rllm
