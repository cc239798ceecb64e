import Mathlib.Data.List.Nodup
import Mathlib.Logic.Function.Basic
import Rllm.Library.CausalLayers

/-! # Memories in slots

The memories of causal layers may lie in the slots of a store, in any order, if it is
known in which slot the memory of each position of a text lies. Texts with a common
prefix may share the slots of its positions. The rows of several texts run through the
layers at once: each layer stores the memories of all of them before it answers any.
-/

namespace Rllm

/-! ## Stores -/

section Store

variable {S M : Type*} [DecidableEq S]

/-- Put memories into slots, one after another. -/
def storeAll (cells : S → M) (writes : List (S × M)) : S → M :=
  writes.foldl (fun cells w => Function.update cells w.1 w.2) cells

variable {cells : S → M} {writes : List (S × M)} {s : S} {m : M}

theorem storeAll_of_notMem (h : s ∉ writes.map Prod.fst) : storeAll cells writes s = cells s := by
  induction writes generalizing cells with
  | nil => rfl
  | cons w writes ih =>
    rw [List.map_cons, List.mem_cons, not_or] at h
    exact (ih h.2).trans (Function.update_of_ne h.1 _ _)

theorem storeAll_of_mem (hnodup : (writes.map Prod.fst).Nodup) (h : (s, m) ∈ writes) :
    storeAll cells writes s = m := by
  induction writes generalizing cells with
  | nil => cases h
  | cons w writes ih =>
    obtain ⟨hw, hnodup⟩ := List.nodup_cons.mp hnodup
    rcases List.mem_cons.mp h with rfl | h
    · exact (storeAll_of_notMem hw).trans (Function.update_self ..)
    · exact ih hnodup h

theorem apply_storeAll {M' : Type*} (f : M → M') :
    f (storeAll cells writes s) =
      storeAll (fun s => f (cells s)) (writes.map fun w => (w.1, f w.2)) s := by
  induction writes generalizing cells with
  | nil => rfl
  | cons w writes ih =>
    refine ih.trans (congrArg (fun cells => storeAll cells _ s) (funext fun s => ?_))
    exact Function.apply_update (fun _ => f) cells w.1 w.2 s

end Store

namespace CausalLayer

variable {S X M : Type*}

/-- Rows of a text, behind those that ran before. -/
structure Chunk (S X : Type*) where
  /-- Where the memory of a position lies. -/
  place : ℕ → S
  before : List X
  rows : List X

namespace Chunk

variable (c : Chunk S X)

def past : ℕ := c.before.length

def text : List X := c.before ++ c.rows

/-- The slots of the rows to run. -/
def slots : List S := (List.range' c.past c.rows.length).map c.place

/-- What a layer sees of a chunk beside its rows. -/
def view : ℕ × ℕ × (ℕ → S) := (c.past, c.rows.length, c.place)

/-- What a layer stores for the rows to run. -/
def writes (layer : CausalLayer X M) : List (S × M) :=
  c.rows.mapIdx fun i row => (c.place (c.past + i), layer.memory (c.past + i) row)

/-- The answers from the store. -/
def answersFrom (layer : CausalLayer X M) (cells : S → M) : List X :=
  c.rows.mapIdx fun i row =>
    layer.answer (c.past + i) row ((List.range (c.past + i + 1)).map fun p => cells (c.place p))

/-- The text behind a layer. -/
def next (layer : CausalLayer X M) (rows : List X) : Chunk S X where
  place := c.place
  before := (layer.run [] c.before).1
  rows

/-- What is made of the rows of a text. -/
def map {Y : Type*} (f : X → Y) : Chunk S Y := ⟨c.place, c.before.map f, c.rows.map f⟩

variable {c} {layer : CausalLayer X M} {Y : Type*} {f : X → Y}

@[simp] theorem past_map : (c.map f).past = c.past := List.length_map _

@[simp] theorem text_map : (c.map f).text = c.text.map f := (List.map_append ..).symm

@[simp] theorem view_map : (c.map f).view = c.view := by simp [view, map, past]

@[simp] theorem slots_map : (c.map f).slots = c.slots := by simp [slots, map, past]

theorem length_text : c.text.length = c.past + c.rows.length := List.length_append

theorem map_fst_writes : (c.writes layer).map Prod.fst = c.slots :=
  List.ext_getElem (by simp [writes, slots]) (by simp [writes, slots])

@[simp] theorem past_next {rows : List X} : (c.next layer rows).past = c.past := by
  simp [next, past]

end Chunk

/-- The slots that chunks are about to fill. -/
def slotsOf (chunks : List (Chunk S X)) : List S := chunks.flatMap Chunk.slots

/-- The text behind a layer, with the answers to the whole text. -/
def Chunk.behind (layer : CausalLayer X M) (c : Chunk S X) : Chunk S X :=
  c.next layer ((layer.run [] c.text).1.drop c.past)

/-- Every row has a slot of its own, which is no slot of an earlier row. -/
structure Separate (chunks : List (Chunk S X)) : Prop where
  nodup : (slotsOf chunks).Nodup
  fresh : ∀ c ∈ chunks, ∀ p < c.past, c.place p ∉ slotsOf chunks

variable [DecidableEq S]

/-- Run rows through a layer: store, then answer. -/
def stepSlots (layer : CausalLayer X M) (cells : S → M) (chunks : List (Chunk S X)) :
    List (List X) × (S → M) :=
  let cells := storeAll cells (chunks.flatMap (·.writes layer))
  (chunks.map (·.answersFrom layer cells), cells)

/-- Run rows through layers, each of which has a store of its own. -/
def runSlots : List (CausalLayer X M) → List (S → M) → List (Chunk S X) →
    List (List X) × List (S → M)
  | layer :: layers, cells :: stores, chunks =>
    let (outs, cells) := stepSlots layer cells chunks
    let (outs, stores) := runSlots layers stores (List.zipWith (·.next layer ·) chunks outs)
    (outs, cells :: stores)
  | _, stores, chunks => (chunks.map (·.rows), stores)

theorem length_runSlots {layers : List (CausalLayer X M)} {stores : List (S → M)}
    {chunks : List (Chunk S X)} (h : stores.length = layers.length) :
    (runSlots layers stores chunks).2.length = layers.length := by
  induction layers generalizing stores chunks with
  | nil => exact h
  | cons layer layers ih =>
    obtain _ | ⟨cells, stores⟩ := stores
    · cases h
    · exact congrArg (· + 1) (ih (Nat.succ.inj h))

/-- A slot holds the memories of the last row of a text. -/
def Holds : List (CausalLayer X M) → List (S → M) → S → List X → Prop
  | layer :: layers, cells :: stores, s, text =>
    (layer.memories 0 text).getLast? = some (cells s) ∧
      Holds layers stores s (layer.run [] text).1
  | _, _, _, _ => True

/-- The slots of earlier rows hold their memories. -/
def Served (layers : List (CausalLayer X M)) (stores : List (S → M)) (c : Chunk S X) : Prop :=
  ∀ p < c.past, Holds layers stores (c.place p) (c.before.take (p + 1))

/-! ## One layer -/

section Layer

variable {layer : CausalLayer X M} {cells : S → M} {chunks : List (Chunk S X)} {c : Chunk S X}
  {text : List X} {n p : ℕ}

omit [DecidableEq S] in
theorem take_run : (layer.run [] text).1.take n = (layer.run [] (text.take n)).1 := by
  conv_lhs => rw [← List.take_append_drop n text]
  rw [run_append, List.take_append, length_run, List.length_take]
  rcases Nat.le_total n text.length with h | h
  · rw [Nat.min_eq_left h, Nat.sub_self, List.take_zero, List.append_nil]
    exact List.take_of_length_le (Nat.le_trans (Nat.le_of_eq length_run) (List.length_take_le ..))
  · rw [List.drop_of_length_le h, List.take_of_length_le
      (Nat.le_trans (Nat.le_of_eq length_run) (List.length_take_le ..))]
    simp [run, answers]

omit [DecidableEq S] in
theorem getLast?_memories_take (hp : p < text.length) :
    (layer.memories 0 (text.take (p + 1))).getLast? = some (layer.memory p text[p]) := by
  rw [List.take_add_one, List.getElem?_eq_getElem hp, Option.toList_some, memories_append]
  simp [memories, List.length_take, Nat.min_eq_left (Nat.le_of_lt hp)]

omit [DecidableEq S] in
theorem map_fst_flatMap_writes :
    (chunks.flatMap (·.writes layer)).map Prod.fst = slotsOf chunks := by
  rw [List.map_flatMap, slotsOf]
  exact List.flatMap_congr fun c _ => Chunk.map_fst_writes

theorem stepSlots_place (hsep : Separate chunks) (hc : c ∈ chunks)
    (hheld : ∀ p < c.past,
      (layer.memories 0 (c.before.take (p + 1))).getLast? = some (cells (c.place p)))
    (hp : p < c.text.length) :
    (stepSlots layer cells chunks).2 (c.place p) = layer.memory p c.text[p] := by
  have hslots : (chunks.flatMap (·.writes layer)).map Prod.fst = slotsOf chunks :=
    map_fst_flatMap_writes
  change storeAll cells _ _ = _
  rcases Nat.lt_or_ge p c.past with hlt | hge
  · rw [storeAll_of_notMem (hslots ▸ hsep.fresh c hc p hlt)]
    refine Option.some.inj ((hheld p hlt).symm.trans ?_)
    rw [getLast?_memories_take hlt]
    simp only [Chunk.text, List.getElem_append_left hlt]
  · refine storeAll_of_mem (hslots ▸ hsep.nodup) (List.mem_flatMap.mpr ⟨c, hc, ?_⟩)
    rw [Chunk.length_text] at hp
    refine List.mem_mapIdx.mpr ⟨p - c.past, by omega, ?_⟩
    have hsub : c.past + (p - c.past) = p := Nat.add_sub_of_le hge
    simp only [hsub, Chunk.text, List.getElem_append_right hge]
    rfl

theorem stepSlots_answers (hsep : Separate chunks) (hc : c ∈ chunks)
    (hheld : ∀ p < c.past,
      (layer.memories 0 (c.before.take (p + 1))).getLast? = some (cells (c.place p))) :
    c.answersFrom layer (stepSlots layer cells chunks).2 =
      (layer.run [] c.text).1.drop c.past := by
  refine List.ext_getElem (by simp [Chunk.answersFrom, Chunk.length_text]) fun i hi hi' => ?_
  simp only [Chunk.answersFrom, List.length_mapIdx] at hi
  have hlen : c.past + i < c.text.length := by
    rw [Chunk.length_text]
    omega
  have hseen : (List.range (c.past + i + 1)).map
      (fun p => (stepSlots layer cells chunks).2 (c.place p)) =
      (layer.memories 0 c.text).take (c.past + i + 1) := by
    refine List.ext_getElem (by simp; omega) fun p hp hp' => ?_
    rw [List.length_map, List.length_range] at hp
    simp only [List.getElem_map, List.getElem_range, List.getElem_take, memories,
      List.getElem_mapIdx, Nat.zero_add]
    exact stepSlots_place hsep hc hheld (by omega)
  have hrow : c.text[c.past + i] = c.rows[i] := by
    simp only [Chunk.text, Chunk.past, List.getElem_append_right (Nat.le_add_right _ _),
      Nat.add_sub_cancel_left]
  simp only [Chunk.answersFrom, List.getElem_mapIdx, hseen, List.getElem_drop, run, answers,
    List.nil_append, List.length_nil, Nat.zero_add, hrow]

end Layer

/-! ## Behind a layer -/

section Behind

variable {layer : CausalLayer X M} {layers : List (CausalLayer X M)} {cells : S → M}
  {stores : List (S → M)} {chunks : List (Chunk S X)} {c : Chunk S X}

omit [DecidableEq S] in
@[simp] theorem Chunk.past_behind : (c.behind layer).past = c.past := past_next

omit [DecidableEq S] in
@[simp] theorem Chunk.text_behind : (c.behind layer).text = (layer.run [] c.text).1 := by
  have hbefore : (layer.run [] c.before).1 = (layer.run [] c.text).1.take c.past := by
    rw [take_run, text, past, List.take_left]
  change (layer.run [] c.before).1 ++ (layer.run [] c.text).1.drop c.past = _
  rw [hbefore, List.take_append_drop]

omit [DecidableEq S] in
@[simp] theorem Chunk.slots_behind : (c.behind layer).slots = c.slots := by
  have hrows : ((layer.run [] c.text).1.drop c.past).length = c.rows.length := by
    rw [List.length_drop, length_run, length_text, Nat.add_sub_cancel_left]
  rw [slots, past_behind]
  exact congrArg (fun n => (List.range' c.past n).map c.place) hrows

omit [DecidableEq S] in
@[simp] theorem slotsOf_behind : slotsOf (chunks.map (·.behind layer)) = slotsOf chunks := by
  rw [slotsOf, List.flatMap_map]
  exact List.flatMap_congr fun c _ => Chunk.slots_behind

omit [DecidableEq S] in
theorem Separate.behind (h : Separate chunks) (layer : CausalLayer X M) :
    Separate (chunks.map (·.behind layer)) where
  nodup := slotsOf_behind.symm ▸ h.nodup
  fresh := by
    simp only [List.forall_mem_map, slotsOf_behind, Chunk.past_behind]
    exact h.fresh

omit [DecidableEq S] in
theorem Served.behind (h : Served (layer :: layers) (cells :: stores) c) :
    Served layers stores (c.behind layer) := by
  intro p hp
  rw [Chunk.past_behind] at hp
  change Holds layers stores (c.place p) ((layer.run [] c.before).1.take (p + 1))
  rw [take_run]
  exact (h p hp).2

theorem runSlots_cons (hsep : Separate chunks)
    (hserved : ∀ c ∈ chunks, Served (layer :: layers) (cells :: stores) c) :
    runSlots (layer :: layers) (cells :: stores) chunks =
      ((runSlots layers stores (chunks.map (·.behind layer))).1,
        (stepSlots layer cells chunks).2 ::
          (runSlots layers stores (chunks.map (·.behind layer))).2) := by
  have hnext : List.zipWith (·.next layer ·) chunks (stepSlots layer cells chunks).1 =
      chunks.map (·.behind layer) := by
    rw [stepSlots, List.zipWith_map_right, List.zipWith_self]
    exact List.map_congr_left fun c hc => congrArg (c.next layer)
      (stepSlots_answers hsep hc fun p hp => (hserved c hc p hp).1)
  rw [← hnext]
  rfl

end Behind

/-! ## Stacks -/

section Stack

variable {layers : List (CausalLayer X M)} {stores : List (S → M)} {chunks : List (Chunk S X)}

/-- Rows with stored memories run as if their texts ran as a whole, and leave their
memories in their slots. -/
theorem runSlots_spec (hlen : stores.length = layers.length) (hsep : Separate chunks)
    (hserved : ∀ c ∈ chunks, Served layers stores c) :
    (runSlots layers stores chunks).1 =
        chunks.map (fun c => (runStack layers [] c.text).1.drop c.past) ∧
      (∀ c ∈ chunks, ∀ p < c.text.length, Holds layers (runSlots layers stores chunks).2
        (c.place p) (c.text.take (p + 1))) ∧
      ∀ s ∉ slotsOf chunks, ∀ text, Holds layers stores s text →
        Holds layers (runSlots layers stores chunks).2 s text := by
  induction layers generalizing stores chunks with
  | nil =>
    obtain rfl := List.length_eq_zero_iff.mp hlen
    refine ⟨List.map_congr_left fun c _ => ?_, fun _ _ _ _ => trivial, fun _ _ _ _ => trivial⟩
    exact List.drop_left.symm
  | cons layer layers ih =>
    obtain _ | ⟨cells, stores⟩ := stores
    · cases hlen
    have hbehind : ∀ c ∈ chunks.map (·.behind layer), Served layers stores c := by
      rw [List.forall_mem_map]
      exact fun c hc => (hserved c hc).behind
    obtain ⟨houts, hfilled, hkept⟩ := ih (Nat.succ.inj hlen) (hsep.behind layer) hbehind
    rw [runSlots_cons hsep hserved]
    refine ⟨?_, fun c hc p hp => ⟨?_, ?_⟩, fun s hs text h => ⟨?_, ?_⟩⟩
    · rw [houts, List.map_map]
      refine List.map_congr_left fun c _ => ?_
      rw [Function.comp_apply, Chunk.text_behind, Chunk.past_behind]
      rfl
    · rw [getLast?_memories_take hp,
        stepSlots_place hsep hc (fun p hp => (hserved c hc p hp).1) hp]
    · have h := hfilled _ (List.mem_map_of_mem hc) p
        (by rw [Chunk.text_behind, length_run]; exact hp)
      rwa [Chunk.text_behind, take_run] at h
    · have hwrites : s ∉ (chunks.flatMap (·.writes layer)).map Prod.fst := by
        rw [map_fst_flatMap_writes]
        exact hs
      exact h.1.trans (congrArg some (storeAll_of_notMem hwrites).symm)
    · exact hkept s (slotsOf_behind.symm ▸ hs) _ h.2

/-! ## Runs -/

/-- What the slots hold: the text up to a row, or nothing. -/
abbrev Contents (S X : Type*) := S → List X

/-- What the slots of a chunk hold after its step. -/
def Chunk.prefixes (c : Chunk S X) : List (S × List X) :=
  c.rows.mapIdx fun i _ => (c.place (c.past + i), c.text.take (c.past + i + 1))

/-- The contents after a step. -/
def fill (contents : Contents S X) (chunks : List (Chunk S X)) : Contents S X :=
  storeAll contents (chunks.flatMap Chunk.prefixes)

/-- Every step of a run finds the earlier rows of its texts in their slots, and writes to
slots that none of these needs. -/
def Sustained : Contents S X → List (List (Chunk S X)) → Prop
  | _, [] => True
  | contents, chunks :: steps =>
    Separate chunks ∧
      (∀ c ∈ chunks, ∀ p < c.past, contents (c.place p) = c.before.take (p + 1)) ∧
      Sustained (fill contents chunks) steps

/-- Run rows step by step. -/
def runSteps (layers : List (CausalLayer X M)) :
    List (S → M) → List (List (Chunk S X)) → List (List (List X)) × List (S → M)
  | stores, [] => ([], stores)
  | stores, chunks :: steps =>
    let (outs, stores) := runSlots layers stores chunks
    let (rest, stores) := runSteps layers stores steps
    (outs :: rest, stores)

variable {contents : Contents S X} {steps : List (List (Chunk S X))} {s : S}

omit [DecidableEq S] in
theorem map_fst_prefixes : (chunks.flatMap Chunk.prefixes).map Prod.fst = slotsOf chunks := by
  rw [List.map_flatMap, slotsOf]
  refine List.flatMap_congr fun c _ => ?_
  exact List.ext_getElem (by simp [Chunk.prefixes, Chunk.slots])
    (by simp [Chunk.prefixes, Chunk.slots])

theorem fill_of_notMem (h : s ∉ slotsOf chunks) : fill contents chunks s = contents s := by
  refine storeAll_of_notMem ?_
  rwa [map_fst_prefixes]

theorem fill_of_mem (hsep : Separate chunks) (h : s ∈ slotsOf chunks) :
    ∃ c ∈ chunks, ∃ p < c.text.length, s = c.place p ∧
      fill contents chunks s = c.text.take (p + 1) := by
  obtain ⟨c, hc, hs⟩ := List.mem_flatMap.mp h
  obtain ⟨p, hp, rfl⟩ := List.mem_map.mp hs
  obtain ⟨i, hi, rfl⟩ := List.mem_range'.mp hp
  rw [Nat.one_mul]
  refine ⟨c, hc, c.past + i, by rw [Chunk.length_text]; omega, rfl, ?_⟩
  have hmem : (c.place (c.past + i), c.text.take (c.past + i + 1)) ∈
      chunks.flatMap Chunk.prefixes :=
    List.mem_flatMap.mpr ⟨c, hc, List.mem_mapIdx.mpr ⟨i, hi, rfl⟩⟩
  exact storeAll_of_mem (map_fst_prefixes.symm ▸ hsep.nodup) hmem

/-- The slots hold the memories of their contents, if they have any. -/
def Faithful (layers : List (CausalLayer X M)) (stores : List (S → M)) (contents : Contents S X) :
    Prop :=
  ∀ s, contents s ≠ [] → Holds layers stores s (contents s)

omit [DecidableEq S] in
theorem Faithful.served (h : Faithful layers stores contents) {c : Chunk S X}
    (hc : ∀ p < c.past, contents (c.place p) = c.before.take (p + 1)) :
    Served layers stores c := by
  intro p hp
  rw [← hc p hp]
  refine h _ ?_
  rw [hc p hp]
  exact List.ne_nil_of_length_pos (by rw [List.length_take]; unfold Chunk.past at hp; omega)

theorem Faithful.step (h : Faithful layers stores contents) (hlen : stores.length = layers.length)
    (hsep : Separate chunks)
    (hchunks : ∀ c ∈ chunks, ∀ p < c.past, contents (c.place p) = c.before.take (p + 1)) :
    Faithful layers (runSlots layers stores chunks).2 (fill contents chunks) := by
  obtain ⟨-, hfilled, hkept⟩ := runSlots_spec hlen hsep fun c hc => h.served (hchunks c hc)
  intro s hs
  by_cases hmem : s ∈ slotsOf chunks
  · obtain ⟨c, hc, p, hp, rfl, htext⟩ := fill_of_mem hsep hmem
    rw [htext]
    exact hfilled c hc p hp
  · rw [fill_of_notMem hmem] at hs ⊢
    exact hkept s hmem _ (h s hs)

/-- Over a whole run, the rows come out as if their texts ran as a whole. -/
theorem runSteps_eq (h : Faithful layers stores contents) (hlen : stores.length = layers.length)
    (hsteps : Sustained contents steps) :
    (runSteps layers stores steps).1 =
      steps.map (·.map fun c => (runStack layers [] c.text).1.drop c.past) := by
  induction steps generalizing stores contents with
  | nil => rfl
  | cons chunks steps ih =>
    obtain ⟨hsep, hchunks, hrest⟩ := hsteps
    obtain ⟨houts, -⟩ := runSlots_spec hlen hsep fun c hc => h.served (hchunks c hc)
    rw [List.map_cons, ← houts, ← ih (h.step hlen hsep hchunks) (length_runSlots hlen) hrest]
    rfl

end Stack

/-! ## Runs of other rows -/

section Map

variable {Y : Type*} {f : X → Y} {contents : Contents S X} {chunks : List (Chunk S X)}
  {steps : List (List (Chunk S X))}

omit [DecidableEq S] in
@[simp] theorem slotsOf_map : slotsOf (chunks.map (·.map f)) = slotsOf chunks := by
  rw [slotsOf, List.flatMap_map]
  exact List.flatMap_congr fun c _ => Chunk.slots_map

omit [DecidableEq S] in
theorem Separate.map (h : Separate chunks) : Separate (chunks.map (·.map f)) where
  nodup := slotsOf_map.symm ▸ h.nodup
  fresh := by
    simp only [List.forall_mem_map, slotsOf_map, Chunk.past_map]
    exact h.fresh

theorem fill_map : fill (fun s => (contents s).map f) (chunks.map (·.map f)) =
    fun s => (fill contents chunks s).map f := by
  ext1 s
  rw [fill, fill, apply_storeAll (List.map f), List.flatMap_map, List.map_flatMap]
  refine congrArg (fun writes => storeAll _ writes s) (List.flatMap_congr fun c _ => ?_)
  refine List.ext_getElem (by simp [Chunk.prefixes, Chunk.map]) fun i hi hi' => ?_
  simp [Chunk.prefixes, List.map_take, Chunk.map, Chunk.past, Chunk.text]

theorem Sustained.map (h : Sustained contents steps) :
    Sustained (fun s => (contents s).map f) (steps.map (·.map (·.map f))) := by
  induction steps generalizing contents with
  | nil => trivial
  | cons chunks steps ih =>
    obtain ⟨hsep, hchunks, hrest⟩ := h
    refine ⟨hsep.map, ?_, ?_⟩
    · simp only [List.forall_mem_map, Chunk.past_map]
      intro c hc p hp
      exact (congrArg (List.map f) (hchunks c hc p hp)).trans (List.map_take ..)
    · rw [fill_map]
      exact ih hrest

end Map

end CausalLayer

end Rllm
