import Mathlib.Data.ENat.Basic
import Mathlib.Data.List.Indexes
import Mathlib.Data.List.TakeDrop

/-! # Layers that look back

A causal layer leaves a memory of every row that it sees, and answers a row from the
memories up to the row's own. The rows of a stack of such layers may come in pieces,
if the memories are kept from one piece to the next: the answers are those to all rows
at once. Other computations keep the rows of a batch apart altogether.
-/

namespace Rllm

theorem zipWith_map_range' {X Y R : Type*} (f : R → X → Y) (g : ℕ → R) (start : ℕ)
    (rows : List X) : List.zipWith f ((List.range' start rows.length).map g) rows =
      rows.mapIdx fun i row => f (g (start + i)) row := by
  refine List.ext_getElem (by simp) fun i hi hi' => ?_
  rw [List.getElem_zipWith, List.getElem_map, List.getElem_range', List.getElem_mapIdx,
    Nat.one_mul]

/-! ## Rows apart -/

section Apart

variable {X ε : Type*} (f : List X → Except ε (List X))

/-- What becomes of a row that comes alone. -/
def lone (x : X) : X :=
  match f [x] with
  | .ok [y] => y
  | _ => x

/-- Up to `limit` rows may come together: each becomes what it would alone. -/
def Apart (limit : ℕ∞) : Prop :=
  ∀ rows : List X, (rows.length : ℕ∞) ≤ limit → f rows = .ok (rows.map (lone f))

variable {f} {limit : ℕ∞}

theorem Apart.of_map {g : X → X} (hone : 1 ≤ limit)
    (h : ∀ rows : List X, (rows.length : ℕ∞) ≤ limit → f rows = .ok (rows.map g)) :
    Apart f limit := by
  have hlone : lone f = g := by
    ext x
    rw [lone, h [x] (by simpa using hone)]
    rfl
  intro rows hrows
  rw [hlone, h rows hrows]

theorem Apart.mapError {ε' : Type*} (h : Apart f limit) (hone : 1 ≤ limit) (g : ε → ε') :
    Apart (fun rows => (f rows).mapError g) limit := by
  refine Apart.of_map hone (g := lone f) fun rows hrows => ?_
  rw [h rows hrows]
  rfl

end Apart

/-! ## Layers -/

/-- What a layer makes of a row at a position. -/
structure CausalLayer (X M : Type*) where
  memory : ℕ → X → M
  /-- The answer, given the memories up to the row's own. -/
  answer : ℕ → X → List M → X

namespace CausalLayer

variable {X M : Type*}

section Layer

variable (layer : CausalLayer X M)

/-- The layer, if a store keeps its memories in another form. -/
def storing (form : M → M) : CausalLayer X M where
  memory p row := form (layer.memory p row)
  answer := layer.answer

/-- The layer, if its memories are kept in another shape and brought back to be read. -/
def through {M' : Type*} (pad : M → M') (cut : M' → M) : CausalLayer X M' where
  memory p row := pad (layer.memory p row)
  answer p row mem := layer.answer p row (mem.map cut)

/-- The memories of rows from a position on. -/
def memories (start : ℕ) (rows : List X) : List M :=
  rows.mapIdx fun i row => layer.memory (start + i) row

/-- The answers to rows from a position on. -/
def answers (mem : List M) (start : ℕ) (rows : List X) : List X :=
  rows.mapIdx fun i row => layer.answer (start + i) row (mem.take (start + i + 1))

/-- Run the layer on rows that come behind the rows it remembers. -/
def run (past : List M) (rows : List X) : List X × List M :=
  let mem := past ++ layer.memories past.length rows
  (layer.answers mem past.length rows, mem)

variable {layer} {past mem mem' : List M} {start : ℕ} {rows rows' : List X}

@[simp] theorem length_memories : (layer.memories start rows).length = rows.length :=
  List.length_mapIdx

@[simp] theorem length_answers : (layer.answers mem start rows).length = rows.length :=
  List.length_mapIdx

theorem memories_append : layer.memories start (rows ++ rows') =
    layer.memories start rows ++ layer.memories (start + rows.length) rows' := by
  unfold memories
  simp only [List.mapIdx_append, Nat.add_comm, Nat.add_left_comm]

theorem answers_append_left (h : start + rows.length ≤ mem.length) :
    layer.answers (mem ++ mem') start rows = layer.answers mem start rows := by
  refine List.mapIdx_eq_mapIdx_iff.mpr fun i hi => ?_
  rw [List.take_append_of_le_length (by omega)]

theorem answers_append : layer.answers mem start (rows ++ rows') =
    layer.answers mem start rows ++ layer.answers mem (start + rows.length) rows' := by
  unfold answers
  simp only [List.mapIdx_append, Nat.add_comm, Nat.add_left_comm]

@[simp] theorem length_run : (layer.run past rows).1.length = rows.length := length_answers

@[simp] theorem length_memory_run :
    (layer.run past rows).2.length = past.length + rows.length := by
  simp [run]

/-- Rows in two pieces. -/
theorem run_append : layer.run past (rows ++ rows') =
    ((layer.run past rows).1 ++ (layer.run (layer.run past rows).2 rows').1,
      (layer.run (layer.run past rows).2 rows').2) := by
  ext : 1
  · change layer.answers _ _ _ = layer.answers _ _ _ ++ layer.answers _ _ _
    rw [answers_append, memories_append, ← List.append_assoc, answers_append_left (by simp)]
    simp [run]
  · simp [run, memories_append]

end Layer

/-! ## Stacks -/

/-- Run rows through layers, each of which has memories of its own. -/
def runStack : List (CausalLayer X M) → List (List M) → List X → List X × List (List M)
  | [], _, rows => (rows, [])
  | layer :: layers, pasts, rows =>
    let (rows, mem) := layer.run (pasts.headD []) rows
    let (rows, mems) := runStack layers pasts.tail rows
    (rows, mem :: mems)

variable {layers : List (CausalLayer X M)} {pasts : List (List M)} {rows rows' : List X}

@[simp] theorem length_runStack : (runStack layers pasts rows).1.length = rows.length := by
  induction layers generalizing pasts rows with
  | nil => rfl
  | cons layer layers ih => exact ih.trans length_run

@[simp] theorem length_memories_runStack :
    (runStack layers pasts rows).2.length = layers.length := by
  induction layers generalizing pasts rows with
  | nil => rfl
  | cons layer layers ih => exact congrArg (· + 1) ih

theorem length_of_mem_runStack {start : ℕ} (hlen : pasts.length = layers.length)
    (hpasts : ∀ past ∈ pasts, past.length = start) {mem : List M}
    (h : mem ∈ (runStack layers pasts rows).2) : mem.length = start + rows.length := by
  induction layers generalizing pasts rows with
  | nil => cases h
  | cons layer layers ih =>
    obtain _ | ⟨past, pasts⟩ := pasts
    · cases hlen
    change mem ∈ (layer.run past rows).2 :: (runStack layers pasts (layer.run past rows).1).2 at h
    rcases List.mem_cons.mp h with hmem | h
    · rw [hmem, length_memory_run, hpasts past List.mem_cons_self]
    · rw [ih (Nat.succ.inj hlen) (fun p hp => hpasts p (List.mem_cons_of_mem _ hp)) h, length_run]

theorem length_of_mem_runStack_nil {mem : List M}
    (h : mem ∈ (runStack layers (List.replicate layers.length []) rows).2) :
    mem.length = rows.length := by
  have hnil : ∀ past ∈ List.replicate layers.length ([] : List M), past.length = 0 := by
    intro past hpast
    rw [List.eq_of_mem_replicate hpast]
    rfl
  rw [length_of_mem_runStack List.length_replicate hnil h, Nat.zero_add]

theorem runStack_append : runStack layers pasts (rows ++ rows') =
    ((runStack layers pasts rows).1 ++
        (runStack layers (runStack layers pasts rows).2 rows').1,
      (runStack layers (runStack layers pasts rows).2 rows').2) := by
  induction layers generalizing pasts rows rows' with
  | nil => rfl
  | cons layer layers ih =>
    simp only [runStack, run_append, ih, List.headD_cons, List.tail_cons]

theorem runStack_nil : runStack layers [] rows =
    runStack layers (List.replicate layers.length []) rows := by
  induction layers generalizing rows with
  | nil => rfl
  | cons layer layers ih =>
    simp only [runStack, List.headD_nil, List.tail_nil, List.length_cons, List.replicate_succ,
      List.headD_cons, List.tail_cons, ih]

/-- Another shape of the memories does not change the answers, if it can be undone. -/
theorem runStack_through {M' : Type*} {pad : M → M'} {cut : M' → M} (h : ∀ m, cut (pad m) = m) :
    (runStack (layers.map (·.through pad cut)) [] rows).1 = (runStack layers [] rows).1 := by
  have hrun : ∀ (layer : CausalLayer X M) (rows : List X),
      ((layer.through pad cut).run [] rows).1 = (layer.run [] rows).1 := by
    intro layer rows
    have hmem : ((layer.through pad cut).memories 0 rows).map cut = layer.memories 0 rows :=
      List.ext_getElem (by simp) fun i hi hi' => by simp [memories, through, h]
    refine List.ext_getElem (by simp) fun i hi hi' => ?_
    simp only [run, answers, List.getElem_mapIdx, List.nil_append, List.length_nil, ← hmem,
      ← List.map_take]
    rfl
  induction layers generalizing rows with
  | nil => rfl
  | cons layer layers ih =>
    refine Eq.trans ?_ ih
    exact congrArg (fun rows => (runStack (layers.map (·.through pad cut)) [] rows).1)
      (hrun layer rows)

/-- Run rows that come in pieces. -/
def runPieces (layers : List (CausalLayer X M)) :
    List (List M) → List (List X) → List X × List (List M)
  | pasts, [] => ([], pasts)
  | pasts, piece :: pieces =>
    let (rows, mems) := runStack layers pasts piece
    let (rest, mems) := runPieces layers mems pieces
    (rows ++ rest, mems)

theorem runPieces_cons (layers : List (CausalLayer X M)) (pasts : List (List M)) (piece : List X)
    (pieces : List (List X)) :
    runPieces layers pasts (piece :: pieces) = runStack layers pasts (piece ++ pieces.flatten) := by
  induction pieces generalizing pasts piece with
  | nil => simp [runPieces]
  | cons next pieces ih =>
    unfold runPieces
    simp only [ih, List.flatten_cons, runStack_append]

end CausalLayer

end Rllm
