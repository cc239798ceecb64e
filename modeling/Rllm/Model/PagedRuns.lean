import Rllm.Model.Paged
import Rllm.Worker.AttentionMetadata

/-! # Runs on paged caches

Batch after batch runs through a model, the keys and values of all texts being in one
cache. If each slot that a sequence relies on still holds what its text put there, every
token gets the logits that it has in a run of its whole text.
-/

namespace Rllm

open CausalLayer

variable {K C : Type}

/-! ## Stacks of layers -/

section Stack

variable {X : Type} {numKvHeads headDim blockSize : ℕ} {seqs : List PagedSeq}
  {formats : List (CacheFormat K C)}

/-- The caches of layers have these formats, and hold the rows of stores. -/
structure CachesHold (formats : List (CacheFormat K C)) (blockSize : ℕ)
    (caches : List (DeviceCache K C))
    (stores : List (ℕ → KvRow K numKvHeads headDim headDim)) : Prop where
  formats_eq : caches.map (·.format) = formats
  rows_eq : caches.map (·.rowAt blockSize numKvHeads headDim) = stores

/-- The layers, if their memories are stored in the formats of their caches. -/
def storedLayers (layers : List (CausalLayer X (KvRow K numKvHeads headDim headDim)))
    (formats : List (CacheFormat K C)) :
    List (CausalLayer X (KvRow K numKvHeads headDim headDim)) :=
  List.zipWith (fun layer format => layer.storing format.round) layers formats

theorem CachesHold.length_storedLayers {caches : List (DeviceCache K C)}
    {stores : List (ℕ → KvRow K numKvHeads headDim headDim)}
    {layers : List (CausalLayer X (KvRow K numKvHeads headDim headDim))}
    (h : CachesHold formats blockSize caches stores) (hlen : stores.length = layers.length) :
    (storedLayers layers formats).length = layers.length := by
  rw [storedLayers, List.length_zipWith, ← h.formats_eq, List.length_map, ← hlen, ← h.rows_eq,
    List.length_map, Nat.min_self]

theorem ChunksMatch.next {chunks : List (Chunk ℕ X)} (h : ChunksMatch blockSize seqs chunks)
    {M : Type} (layer : CausalLayer X M) {cells : ℕ → M} :
    ChunksMatch blockSize seqs
      (List.zipWith (·.next layer ·) chunks (stepSlots layer cells chunks).1) := by
  refine h.trans (List.ext_getElem (by simp [stepSlots]) fun i hi hi' => ?_)
  simp [stepSlots, Chunk.view, Chunk.answersFrom, Chunk.next, Chunk.past]

/-- Layers on a device run like layers over stores. -/
theorem forwardPagedLayers_eq (context : ℕ → ForwardError → ForwardError)
    {steps : List (List X → Option (DeviceCache K C) →
      Except ForwardError (List X) × Option (DeviceCache K C))}
    {layers : List (CausalLayer X (KvRow K numKvHeads headDim headDim))}
    (h : List.Forall₂ (Simulates blockSize seqs) steps layers) (i : ℕ)
    {caches : List (DeviceCache K C)} {stores : List (ℕ → KvRow K numKvHeads headDim headDim)}
    (hlen : stores.length = layers.length) (hcaches : CachesHold formats blockSize caches stores)
    {chunks : List (Chunk ℕ X)} (hmatch : ChunksMatch blockSize seqs chunks) :
    ∃ caches',
      let run := runSlots (storedLayers layers formats) stores chunks
      forwardPagedLayers context i steps caches (chunks.flatMap (·.rows)) =
        (.ok run.1.flatten, caches') ∧ CachesHold formats blockSize caches' run.2 := by
  induction h generalizing i caches stores formats chunks with
  | nil =>
    obtain rfl := List.length_eq_zero_iff.mp hlen
    refine ⟨caches, ?_, hcaches⟩
    rw [forwardPagedLayers, List.flatMap_def]
    simp only [storedLayers, List.zipWith_nil_left, runSlots]
  | @cons step layer steps layers hstep _ ih =>
    obtain ⟨rfl, rfl⟩ := hcaches
    obtain _ | ⟨cache, caches⟩ := caches
    · cases hlen
    obtain ⟨cache', hrun, hformat, hcells⟩ := hstep chunks cache hmatch
    obtain ⟨caches', hrest, hheld⟩ := ih (i + 1) (Nat.succ.inj hlen) ⟨rfl, rfl⟩
      (hmatch.next (layer.storing cache.format.round))
    have houts : (List.zipWith (·.next (layer.storing cache.format.round) ·) chunks
        (stepSlots (layer.storing cache.format.round)
          (cache.rowAt blockSize numKvHeads headDim) chunks).1).flatMap (·.rows) =
        (stepSlots (layer.storing cache.format.round)
          (cache.rowAt blockSize numKvHeads headDim) chunks).1.flatten := by
      rw [List.flatMap_def]
      refine congrArg List.flatten (List.ext_getElem (by simp [stepSlots]) fun i hi hi' => ?_)
      simp [Chunk.next]
    refine ⟨cache' :: caches', ?_, ?_⟩
    · rw [← houts] at hrun
      unfold forwardPagedLayers
      rw [List.head?_cons, hrun, List.tail_cons]
      dsimp only
      rw [hrest]
      rfl
    · exact ⟨congrArg₂ List.cons hformat hheld.formats_eq,
        congrArg₂ List.cons hcells hheld.rows_eq⟩

theorem forwardPagedTokens_eq {Y : Type} [Zero K] {vocab hidden : ℕ}
    {table : Fin vocab → Fin hidden → K} {context : ℕ → ForwardError → ForwardError}
    {steps : List (List (Fin hidden → K) → Option (DeviceCache K C) →
      Except ForwardError (List (Fin hidden → K)) × Option (DeviceCache K C))}
    {layers : List (CausalLayer (Fin hidden → K) (KvRow K numKvHeads headDim headDim))}
    (h : List.Forall₂ (Simulates blockSize seqs) steps layers) {head : (Fin hidden → K) → Y}
    {caches : List (DeviceCache K C)} {stores : List (ℕ → KvRow K numKvHeads headDim headDim)}
    (hlen : stores.length = layers.length) (hcaches : CachesHold formats blockSize caches stores)
    {chunks : List (Chunk ℕ Token)} (hmatch : ChunksMatch blockSize seqs chunks)
    (hids : ∀ id ∈ chunks.flatMap (·.rows), id.toNat < vocab) :
    ∃ caches',
      let run := runSlots (storedLayers layers formats) stores
        (chunks.map (·.map (embedRow table)))
      forwardPagedTokens table context steps head (chunks.flatMap (·.rows)) caches =
        (.ok (run.1.flatten.map head), caches') ∧ CachesHold formats blockSize caches' run.2 := by
  have hmatch' : ChunksMatch blockSize seqs (chunks.map (·.map (embedRow table))) := by
    refine hmatch.trans ?_
    rw [List.map_map]
    exact List.map_congr_left fun c _ => Chunk.view_map.symm
  have hrows : (chunks.map (·.map (embedRow table))).flatMap (·.rows) =
      (chunks.flatMap (·.rows)).map (embedRow table) := by
    rw [List.flatMap_map, List.map_flatMap]
    rfl
  obtain ⟨caches', hrun, hheld⟩ := forwardPagedLayers_eq context h 0 hlen
    hcaches hmatch'
  refine ⟨caches', ?_, hheld⟩
  classical
  rw [forwardPagedTokens, embeddingLookup_eq, if_pos hids]
  dsimp only
  rw [← hrows, hrun]

end Stack

/-! ## Batches -/

/-- Slots are counted in 64 bits, sizes of blocks in 32. -/
structure CacheDims.Valid (geometry : CacheDims) : Prop where
  blockSize_pos : 0 < geometry.blockSize
  blockSize_lt : geometry.blockSize < 2 ^ 32
  slots_le : geometry.numBlocks * geometry.blockSize ≤ 2 ^ 63

/-- A sequence of a batch goes on with a text, and its blocks reach to the end of it. -/
structure BatchSeq.Continues (seq : BatchSeq) (geometry : CacheDims) (before : List Token) :
    Prop where
  tokens_ne : seq.tokenIds ≠ []
  positions_eq : seq.positions = List.range' before.length seq.tokenIds.length
  seqLen_eq : seq.seqLen = before.length + seq.tokenIds.length
  seqLen_lt : seq.seqLen < 2 ^ 31
  slots_eq : seq.slotMapping =
    computeSlotMappings seq.positions seq.blockTable geometry.blockSize
  covers : divCeil seq.seqLen geometry.blockSize ≤ seq.blockTable.length
  blocks_lt : ∀ id ∈ seq.blockTable, id < geometry.numBlocks

/-- A batch with the text that each sequence goes on with, and what the device does. -/
structure PagedStep (K : Type) (headDim : ℕ) where
  seqs : List (BatchSeq × List Token)
  runs : ℕ → DeviceRun K headDim

namespace PagedStep

variable {headDim : ℕ} (step : PagedStep K headDim)

def batch : InputBatch := ⟨step.seqs.map Prod.fst⟩

/-- The sequences as the metadata describe them. -/
def paged : List PagedSeq :=
  step.seqs.map fun s => ⟨s.1.blockTable, s.2.length, s.1.tokenIds.length⟩

/-- The texts, with the places of their positions. -/
def chunks (blockSize : ℕ) : List (Chunk ℕ Token) :=
  step.seqs.map fun s =>
    ⟨PagedSeq.place ⟨s.1.blockTable, s.2.length, s.1.tokenIds.length⟩ blockSize, s.2, s.1.tokenIds⟩

/-- The batch can run, and so can the kernels. -/
structure Runs (step : PagedStep K headDim) (geometry : CacheDims) : Prop where
  seqs : ∀ s ∈ step.seqs, s.1.Continues geometry s.2
  seqs_ne : step.seqs ≠ []
  describable : step.batch.Describable
  tokens_lt : step.batch.tokenIds.length < 2 ^ 31
  sound : ∀ i block, ((step.runs i).sched block).Sound

variable {step} {geometry : CacheDims} {blockSize : ℕ}

theorem chunksMatch_chunks (blockSize : ℕ) :
    ChunksMatch blockSize step.paged (step.chunks blockSize) := by
  rw [ChunksMatch, paged, chunks, List.map_map, List.map_map]
  rfl

theorem flatMap_rows (blockSize : ℕ) :
    (step.chunks blockSize).flatMap (·.rows) = step.batch.tokenIds := by
  rw [chunks, List.flatMap_map, batch, InputBatch.tokenIds, List.flatMap_map]

theorem Runs.positions_eq (h : step.Runs geometry) :
    step.batch.positions = step.paged.flatMap fun s => List.range' s.past s.new := by
  rw [batch, InputBatch.positions, paged, List.flatMap_map, List.flatMap_map]
  exact List.flatMap_congr fun s hs => (h.seqs s hs).positions_eq

theorem sum_new : (step.paged.map PagedSeq.new).sum = step.batch.tokenIds.length := by
  rw [← flatMap_rows 1, (chunksMatch_chunks 1).length_rows]

theorem Runs.slotMapping_eq (h : step.Runs geometry) (hg : geometry.Valid) :
    step.batch.slotMappings =
      (step.paged.flatMap (·.slots geometry.blockSize)).map Int.ofNat := by
  rw [batch, InputBatch.slotMappings, paged, List.flatMap_map, List.flatMap_map, List.map_flatMap]
  refine List.flatMap_congr fun s hs => ?_
  have hseq := h.seqs s hs
  rw [hseq.slots_eq, computeSlotMappings, if_pos hg.blockSize_lt, PagedSeq.slots, List.map_map,
    hseq.positions_eq]
  refine List.map_congr_left fun p hp => ?_
  obtain ⟨i, hi, rfl⟩ := List.mem_range'.mp hp
  rw [Nat.one_mul] at hp ⊢
  have hb : (s.2.length + i) / geometry.blockSize < s.1.blockTable.length :=
    (lt_divCeil_of_lt hg.blockSize_pos (by rw [hseq.seqLen_eq]; omega)).trans_le hseq.covers
  have hblock := List.getElem?_eq_getElem hb
  have hfit : s.1.blockTable[(s.2.length + i) / geometry.blockSize] * geometry.blockSize +
      (s.2.length + i) % geometry.blockSize < 2 ^ 63 :=
    (block_lt (hseq.blocks_lt _ (List.getElem_mem hb))
      (Nat.mod_lt _ hg.blockSize_pos)).trans_le hg.slots_le
  rw [ModelRunner.slotOf_eq hblock hfit, Function.comp_apply, PagedSeq.place,
    List.getD_eq_getElem?_getD, hblock]
  rfl

end PagedStep

/-! ## Metadata -/

section Metadata

open ModelRunner

theorem ModelRunner.buildAttentionMetadata_sizes {b : InputBatch} (hne : b.seqs ≠ [])
    (hlt : ∀ seq ∈ b.seqs, seq.tokenIds.length < 2 ^ 32) (htokens : b.tokenIds.length < 2 ^ 32) :
    (buildAttentionMetadata b).maxNumBlocksPerSeq = b.maxNumBlocksPerSeq ∧
      (buildAttentionMetadata b).numPrefillTokens = b.numPrefillTokens := by
  have hcount : (b.seqs.filter (·.isPrefill)).map (fun seq => seq.tokenIds.length % 2 ^ 32) =
      (b.seqs.filter (·.isPrefill)).map (·.tokenIds.length) :=
    List.map_congr_left fun seq hseq => Nat.mod_eq_of_lt (hlt seq (List.mem_of_mem_filter hseq))
  have hsum : ((b.seqs.filter (·.isPrefill)).map (·.tokenIds.length)).sum < 2 ^ 32 := by
    have hperm := (b.regrouped_perm.map (·.tokenIds.length)).sum_eq
    rw [InputBatch.regrouped, List.map_append, List.sum_append] at hperm
    have hall := b.sum_tokensPerSeq
    rw [InputBatch.tokensPerSeq] at hall
    omega
  have hfold := foldl_addU32 (c := 0) ((Nat.zero_add _).trans_lt hsum)
  rw [Nat.zero_add] at hfold
  have hsome : ¬ (((b.seqs.filter (·.isPrefill)).map (·.seqLen)).isEmpty &&
      ((b.seqs.filter (!·.isPrefill)).map (·.seqLen)).isEmpty) = true := by
    rw [Bool.and_eq_true, List.isEmpty_iff, List.isEmpty_iff, List.map_eq_nil_iff,
      List.map_eq_nil_iff]
    rintro ⟨hp, hd⟩
    have hlen := b.regrouped_perm.length_eq
    rw [InputBatch.regrouped, hp, hd] at hlen
    exact hne (List.eq_nil_of_length_eq_zero hlen.symm)
  have hseqs : b.numSeqs ≠ 0 := mt List.eq_nil_of_length_eq_zero hne
  unfold buildAttentionMetadata
  dsimp only
  rw [hcount, if_neg hseqs, if_neg hsome]
  split
  · rename_i hp
    rw [List.isEmpty_iff, List.map_eq_nil_iff] at hp
    refine ⟨rfl, ?_⟩
    rw [InputBatch.numPrefillTokens, hp]
    rfl
  · split
    · exact ⟨rfl, hfold⟩
    · exact ⟨rfl, rfl⟩

theorem InputBatch.length_le_maxNumBlocksPerSeq {b : InputBatch} {seq : BatchSeq}
    (h : seq ∈ b.seqs) : seq.blockTable.length ≤ b.maxNumBlocksPerSeq := by
  have hmem : seq.blockTable.length ∈ b.seqs.map (·.blockTable.length) := List.mem_map_of_mem h
  have hne := List.ne_nil_of_mem hmem
  rw [maxNumBlocksPerSeq, List.foldl_max_eq_max hne]
  exact (List.le_max_of_mem hmem).trans (le_max_right _ _)

namespace PagedStep

variable {headDim : ℕ} {step : PagedStep K headDim} {geometry : CacheDims}

theorem Runs.seq_mem (h : step.Runs geometry) {seq : BatchSeq} (hseq : seq ∈ step.batch.seqs) :
    ∃ before, (seq, before) ∈ step.seqs ∧ seq.Continues geometry before := by
  obtain ⟨⟨_, before⟩, hs, rfl⟩ := List.mem_map.mp hseq
  exact ⟨before, hs, h.seqs _ hs⟩

theorem Runs.seq_sound (h : step.Runs geometry) : ∀ seq ∈ step.batch.seqs, seq.Sound := by
  intro seq hseq
  obtain ⟨before, -, hcont⟩ := h.seq_mem hseq
  refine ⟨?_, ?_, fun _ => hcont.tokens_ne⟩
  · have := hcont.seqLen_eq
    have := hcont.seqLen_lt
    omega
  · rw [hcont.slots_eq, length_computeSlotMappings, hcont.positions_eq, List.length_range']

theorem Runs.place_lt (h : step.Runs geometry) (hg : geometry.Valid) {s : PagedSeq}
    (hs : s ∈ step.paged) {p : ℕ} (hp : p < s.past + s.new) :
    s.place geometry.blockSize p / geometry.blockSize < geometry.numBlocks := by
  obtain ⟨s, hmem, rfl⟩ := List.mem_map.mp hs
  have hcont := h.seqs s hmem
  have hb : p / geometry.blockSize < s.1.blockTable.length :=
    (lt_divCeil_of_lt hg.blockSize_pos (hcont.seqLen_eq ▸ hp)).trans_le hcont.covers
  rw [PagedSeq.place, block_div (Nat.mod_lt _ hg.blockSize_pos), List.getD_eq_getElem?_getD,
    List.getElem?_eq_getElem hb, Option.getD_some]
  exact hcont.blocks_lt _ (List.getElem_mem hb)

/-- The metadata of a batch serve its sequences. -/
theorem Runs.serves (h : step.Runs geometry) (hg : geometry.Valid)
    (hnodup : (slotsOf (step.chunks geometry.blockSize)).Nodup) :
    (buildAttentionMetadata step.batch).Serves geometry step.paged := by
  have hgroups := buildAttentionMetadata_groups h.seq_sound
  have hmd := (describes_iff h.seq_sound).mpr h.describable
  have hslots : step.paged.flatMap (·.slots geometry.blockSize) =
      slotsOf (step.chunks geometry.blockSize) := (chunksMatch_chunks _).slots
  have hnew : step.paged.map PagedSeq.new = step.batch.tokensPerSeq := by
    rw [paged, batch, InputBatch.tokensPerSeq, List.map_map, List.map_map]
    rfl
  refine ⟨hg.blockSize_pos, ?_, fun slot hslot => ?_, ?_, ?_, ?_, ?_, ?_, ?_, ?_⟩
  · rw [hgroups.slots_eq, h.slotMapping_eq hg]
  · obtain ⟨s, hs, hslot⟩ := List.mem_flatMap.mp hslot
    obtain ⟨p, hp, rfl⟩ := List.mem_map.mp hslot
    obtain ⟨i, hi, rfl⟩ := List.mem_range'.mp hp
    exact h.place_lt hg hs (by omega)
  · rw [hslots]
    exact hnodup
  · rw [hmd.seqLens_eq, batch, InputBatch.seqLens, paged, List.map_map, List.map_map]
    exact List.map_congr_left fun s hs => (h.seqs s hs).seqLen_eq
  · simp only [paged, List.forall_mem_map]
    intro s hs
    exact (h.seqs s hs).seqLen_eq ▸ (h.seqs s hs).seqLen_lt
  · intro i
    induction i with
    | zero =>
      intro _
      rw [blockStart_zero, ← List.head?_eq_getElem?, hgroups.starts_eq, List.head?_scanl]
    | succ i ih =>
      intro hi
      have hs := List.getElem?_eq_getElem hi
      obtain ⟨start, hstart, hnext⟩ := hmd.starts i _ (by
        rw [← hnew, List.getElem?_map, hs, Option.map_some])
      obtain rfl := Option.some.inj (hstart.symm.trans (ih (Nat.le_of_succ_le hi)))
      rw [hnext, blockStart_succ hs]
  · rw [sum_new]
    exact h.tokens_lt
  · rw [hmd.blockTables_eq, batch, InputBatch.blockTables, paged, List.map_map, List.map_map,
      List.map_map]
    rfl
  · simp only [paged, List.forall_mem_map]
    intro s hs
    have hmem : s.1 ∈ step.batch.seqs := List.mem_map_of_mem hs
    have hsizes := buildAttentionMetadata_sizes (List.ne_nil_of_mem hmem)
      (fun seq hseq => (h.seq_sound seq hseq).length_lt) h.describable.tokens_lt
    rw [hsizes.1]
    exact ⟨(h.seqs s hs).seqLen_eq ▸ (h.seqs s hs).covers,
      InputBatch.length_le_maxNumBlocksPerSeq hmem⟩

theorem Runs.prefills (h : step.Runs geometry) :
    0 < (buildAttentionMetadata step.batch).numPrefillTokens ∨ ∀ s ∈ step.paged, s.new = 1 := by
  have hne : step.batch.seqs ≠ [] := mt List.map_eq_nil_iff.mp h.seqs_ne
  have hsizes := buildAttentionMetadata_sizes hne
    (fun seq hseq => (h.seq_sound seq hseq).length_lt) h.describable.tokens_lt
  by_cases hprefill : ∃ seq ∈ step.batch.seqs, seq.isPrefill = true
  · obtain ⟨seq, hseq, hp⟩ := hprefill
    obtain ⟨before, -, hcont⟩ := h.seq_mem hseq
    have hle : seq.tokenIds.length ≤ step.batch.numPrefillTokens :=
      List.single_le_sum (fun _ _ => Nat.zero_le _) _
        (List.mem_map_of_mem (List.mem_filter.mpr ⟨hseq, hp⟩))
    rw [hsizes.2]
    exact Or.inl ((List.length_pos_iff.mpr hcont.tokens_ne).trans_le hle)
  · right
    simp only [paged, List.forall_mem_map]
    intro s hs
    have hmem : s.1 ∈ step.batch.seqs := List.mem_map_of_mem hs
    exact h.describable.oneToken s.1 hmem
      (Bool.eq_false_iff.mpr fun hp => hprefill ⟨s.1, hmem, hp⟩)

end PagedStep

end Metadata

/-! ## Runs -/

section Run

variable {X Y : Type} {numKvHeads headDim blockSize : ℕ} {formats : List (CacheFormat K C)}
  {forward : PagedStep K headDim → List (DeviceCache K C) →
    Except ForwardError (List Y) × List (DeviceCache K C)}
  {layers : List (CausalLayer X (KvRow K numKvHeads headDim headDim))} {embed : Token → X}
  {head : X → Y}

/-- Run batch after batch. -/
def runBatches (forward : PagedStep K headDim → List (DeviceCache K C) →
      Except ForwardError (List Y) × List (DeviceCache K C)) :
    List (DeviceCache K C) → List (PagedStep K headDim) → List (Except ForwardError (List Y))
  | _, [] => []
  | caches, step :: steps =>
    let (logits, caches) := forward step caches
    logits :: runBatches forward caches steps

/-- The forward pass of a batch runs layers over stores. -/
def RunsOver (forward : PagedStep K headDim → List (DeviceCache K C) →
      Except ForwardError (List Y) × List (DeviceCache K C))
    (layers : List (CausalLayer X (KvRow K numKvHeads headDim headDim))) (embed : Token → X)
    (head : X → Y) (formats : List (CacheFormat K C)) (blockSize : ℕ)
    (step : PagedStep K headDim) : Prop :=
  Separate (step.chunks blockSize) → ∀ caches stores, stores.length = layers.length →
    CachesHold formats blockSize caches stores → ∃ caches',
      let run := runSlots (storedLayers layers formats) stores
        ((step.chunks blockSize).map (·.map embed))
      forward step caches = (.ok (run.1.flatten.map head), caches') ∧
        CachesHold formats blockSize caches' run.2

theorem runBatches_eq_runSteps {steps : List (PagedStep K headDim)}
    (h : ∀ step ∈ steps, RunsOver forward layers embed head formats blockSize step)
    {caches : List (DeviceCache K C)} {stores : List (ℕ → KvRow K numKvHeads headDim headDim)}
    (hlen : stores.length = layers.length) (hcaches : CachesHold formats blockSize caches stores)
    {contents : Contents ℕ Token} (hsteps : Sustained contents (steps.map (·.chunks blockSize))) :
    runBatches forward caches steps =
      (runSteps (storedLayers layers formats) stores
        (steps.map fun step => (step.chunks blockSize).map (·.map embed))).1.map
          fun outs => .ok (outs.flatten.map head) := by
  induction steps generalizing caches stores contents with
  | nil => rfl
  | cons step steps ih =>
    obtain ⟨hstep, h⟩ := List.forall_mem_cons.mp h
    obtain ⟨hsep, -, hsteps⟩ := hsteps
    obtain ⟨caches', hrun, hheld⟩ := hstep hsep caches stores hlen hcaches
    have hstored := hcaches.length_storedLayers hlen
    have hlen' : (runSlots (storedLayers layers formats) stores
        ((step.chunks blockSize).map (·.map embed))).2.length = layers.length :=
      (length_runSlots (hlen.trans hstored.symm)).trans hstored
    rw [runBatches, hrun]
    exact congrArg (_ :: ·) (ih h hlen' hheld hsteps)

/-- Over a whole run, every token gets its logits in a run of its text, whose keys and
values are stored in the format. -/
theorem runBatches_eq {steps : List (PagedStep K headDim)}
    (h : ∀ step ∈ steps, RunsOver forward layers embed head formats blockSize step)
    {caches : List (DeviceCache K C)} (hlen : caches.length = layers.length)
    (hformats : caches.map (·.format) = formats)
    (hsteps : Sustained (fun _ => []) (steps.map (·.chunks blockSize))) :
    runBatches forward caches steps = steps.map fun step =>
      .ok ((step.chunks blockSize).flatMap fun c =>
        ((runStack (storedLayers layers formats) [] (c.text.map embed)).1.map head).drop
          c.past) := by
  let stores := caches.map (·.rowAt blockSize numKvHeads headDim)
  have hstores : stores.length = layers.length := (List.length_map _).trans hlen
  have hheld : CachesHold formats blockSize caches stores := ⟨hformats, rfl⟩
  rw [runBatches_eq_runSteps h hstores hheld hsteps]
  have hempty : Faithful (storedLayers layers formats) stores
      (fun s => (fun _ => ([] : List Token)) s |>.map embed) := fun s hs => absurd rfl hs
  have hmap := hsteps.map (f := embed)
  rw [List.map_map] at hmap
  have hrun := runSteps_eq hempty (hstores.trans (hheld.length_storedLayers hstores).symm) hmap
  change List.map _ (runSteps _ _ (steps.map _)).1 = _
  refine (congrArg _ hrun).trans ?_
  rw [List.map_map, List.map_map]
  refine List.map_congr_left fun step _ => congrArg Except.ok ?_
  simp only [Function.comp_apply, List.map_map, ← List.flatMap_def, List.map_flatMap,
    Chunk.text_map, Chunk.past_map, List.map_drop]

end Run

/-! ## A run -/

section Toy

def toyGeometry : CacheDims := ⟨8, 2⟩

theorem perm_range (n : ℕ) : (List.range n).Perm (List.range n) := .refl _

/-- All threads in order, and nothing behind the buffers. -/
def toyDevice : DeviceRun ℚ 2 where
  beyond := ⟨fun _ => 0, fun _ => 0, fun _ => 0, fun _ => 0⟩
  behind _ := 0
  memory _ := 0
  order := List.range
  complete := perm_range
  sched _ := .inOrder (by decide)

/-- A prompt, then another one that shares its block, beside a token of the first. -/
def toySteps : List (PagedStep ℚ 2) := [
  { seqs := [
      ({ requestId := 1, tokenIds := [0, 1], positions := [0, 1], seqLen := 2, blockTable := [3],
         slotMapping := [6, 7], isPrefill := true }, [])]
    runs _ := toyDevice },
  { seqs := [
      ({ requestId := 2, tokenIds := [0], positions := [2], seqLen := 3, blockTable := [3, 4],
         slotMapping := [8], isPrefill := true }, [0, 1]),
      ({ requestId := 1, tokenIds := [1], positions := [2], seqLen := 3, blockTable := [3, 5],
         slotMapping := [10], isPrefill := false }, [0, 1])]
    runs _ := toyDevice }]

def toyFormat : CacheFormat ℚ ℚ := ⟨id, id, id, id⟩

def toyCache : DeviceCache ℚ ℚ := ⟨toyFormat, 0, 0⟩

theorem isExp_flatElementary : Softmax.IsExp flatElementary.exp :=
  ⟨fun _ _ => (mul_one 1).symm, fun _ => one_pos⟩

theorem toyGeometry_valid : toyGeometry.Valid := ⟨by decide, by decide, by decide⟩

theorem toyDevice_sound (block : ℕ) : (toyDevice.sched block).Sound := ⟨⟨0, rfl⟩, fun _ _ => rfl⟩

theorem toySteps_runs : ∀ step ∈ toySteps, step.Runs toyGeometry := by
  simp only [toySteps, List.forall_mem_cons, List.not_mem_nil, false_imp_iff, implies_true,
    and_true]
  constructor
  · refine ⟨?_, by decide, ⟨by decide, by decide, by decide, by decide⟩, by decide,
      fun _ => toyDevice_sound⟩
    simp only [List.forall_mem_singleton]
    constructor <;> decide
  · refine ⟨?_, by decide, ⟨by decide, by decide, by decide, by decide⟩, by decide,
      fun _ => toyDevice_sound⟩
    simp only [List.forall_mem_cons, List.not_mem_nil, false_imp_iff, implies_true, and_true]
    constructor <;> constructor <;> decide

theorem toySteps_fits {half : ℕ} {rope : RotaryEmbedding ℚ half} (hrope : rope.maxSeqLen = 4)
    {layered : Prop} : ∀ step ∈ toySteps, ∀ c ∈ step.chunks toyGeometry.blockSize,
      Fits 2 layered (Known rope) 0 c.text := by
  have htexts : ∀ step ∈ toySteps, ∀ c ∈ step.chunks toyGeometry.blockSize,
      (c.text.all (·.toNat < 2) = true) ∧ ∀ p ∈ List.range' 0 c.text.length, p % 2 ^ 32 < 4 := by
    decide
  intro step hstep c hc
  obtain ⟨hids, hpositions⟩ := htexts step hstep c hc
  refine ⟨fun id hid => ?_, fun _ p hp => (hpositions p hp).trans_eq hrope.symm⟩
  exact of_decide_eq_true (List.all_eq_true.mp hids id hid)

theorem toySteps_sustained :
    Sustained (fun _ => []) (toySteps.map (·.chunks toyGeometry.blockSize)) := by
  refine ⟨⟨?_, ?_⟩, ?_, ⟨?_, ?_⟩, ?_, trivial⟩ <;> decide

end Toy

/-! ## Llama and Qwen -/

theorem PagedStep.known {headDim half vocab blockSize : ℕ} {step : PagedStep K headDim}
    {rope : RotaryEmbedding K half} {layered : Prop}
    (h : ∀ c ∈ step.chunks blockSize, Fits vocab layered (Known rope) 0 c.text) :
    (∀ id ∈ (step.chunks blockSize).flatMap (·.rows), id.toNat < vocab) ∧
      (layered → ∀ p ∈ step.paged.flatMap fun s => List.range' s.past s.new, rope.Knows p) := by
  constructor
  · intro id hid
    obtain ⟨c, hc, hid⟩ := List.mem_flatMap.mp hid
    exact (h c hc).1 id (List.mem_append_right _ hid)
  · intro hlayered p hp
    rw [(chunksMatch_chunks blockSize).positions] at hp
    obtain ⟨c, hc, hp⟩ := List.mem_flatMap.mp hp
    refine (h c hc).2 hlayered p ?_
    rw [Chunk.length_text]
    obtain ⟨i, hi, rfl⟩ := List.mem_range'.mp hp
    exact List.mem_range'.mpr ⟨c.past + i, by omega, by omega⟩

section Llama

variable [Field K] [LinearOrder K] {E : Elementary K} {dims : LlamaDims} {limit : ℕ∞}
  {geometry : CacheDims} {formats : List (CacheFormat K C)} {caches : List (DeviceCache K C)}
  {steps : List (PagedStep K dims.headDim)}

/-- The forward pass of a batch, with what the executor makes of it. -/
def CausalDecoder.pagedStep (m : CausalDecoder K dims limit) (E : Elementary K)
    (context : ℕ → ForwardError → ForwardError) (geometry : CacheDims)
    (step : PagedStep K dims.headDim) : List (DeviceCache K C) →
      Except ForwardError (List (dims.Logits K)) × List (DeviceCache K C) :=
  m.forwardPaged E context true geometry step.runs step.batch.tokenIds step.batch.positions
    (ModelRunner.buildAttentionMetadata step.batch)

theorem CausalDecoder.runsOver [IsStrictOrderedRing K] {m : CausalDecoder K dims limit}
    {context : ℕ → ForwardError → ForwardError} {step : PagedStep K dims.headDim}
    (hexp : Softmax.IsExp E.exp) (hg : geometry.Valid) (hlimit : ((2 ^ 31 : ℕ) : ℕ∞) ≤ limit)
    (h : step.Runs geometry) (hknown : ∀ c ∈ step.chunks geometry.blockSize, m.Knows 0 c.text) :
    RunsOver (m.pagedStep E context geometry)
      (m.layers.map fun layer => layer.deviceCausal E m.rope) (embedRow m.embedTokens)
      (fun x => m.lmHead.forward (m.norm.forward E x)) formats geometry.blockSize step := by
  intro hsep caches stores hlen hcaches
  have hserves := h.serves hg hsep.nodup
  obtain ⟨hids, hpositions⟩ := PagedStep.known hknown
  have hnew : ∀ s ∈ step.paged, 0 < s.new := by
    simp only [PagedStep.paged, List.forall_mem_map]
    exact fun s hs => List.length_pos_iff.mpr (h.seqs s hs).tokens_ne
  have hlayers : List.Forall₂ (Simulates geometry.blockSize step.paged)
      (m.layers.mapIdx fun i layer => layer.forwardPaged (C := C) E true m.rope geometry
        (step.paged.flatMap fun s => List.range' s.past s.new)
        (ModelRunner.buildAttentionMetadata step.batch) (step.runs i))
      (m.layers.map fun layer => layer.deviceCausal E m.rope) := by
    refine List.forall₂_iff_get.mpr ⟨by simp, fun i hi hi' => ?_⟩
    simp only [List.get_eq_getElem, List.getElem_mapIdx, List.getElem_map]
    rw [List.length_map] at hi'
    exact DecoderLayer.forwardPaged_simulates hexp (h.sound i) hserves hnew hlimit
      (hpositions (List.ne_nil_of_length_pos (Nat.zero_lt_of_lt hi')))
  unfold CausalDecoder.pagedStep CausalDecoder.forwardPaged
  rw [h.positions_eq, ← PagedStep.flatMap_rows geometry.blockSize]
  exact forwardPagedTokens_eq hlayers hlen hcaches (PagedStep.chunksMatch_chunks _) hids

/-- Storing a number loses nothing. -/
structure CacheFormat.Exact (format : CacheFormat K C) : Prop where
  key : ∀ x, format.loadKey (format.storeKey x) = x
  value : ∀ x, format.loadValue (format.storeValue x) = x

omit [Field K] [LinearOrder K] in
theorem storedLayers_of_exact {X : Type} {numKvHeads headDim : ℕ}
    {layers : List (CausalLayer X (KvRow K numKvHeads headDim headDim))}
    (hlen : formats.length = layers.length) (h : ∀ format ∈ formats, format.Exact) :
    storedLayers layers formats = layers := by
  have hround : ∀ format ∈ formats, ∀ row : KvRow K numKvHeads headDim headDim,
      format.round row = row := by
    intro format hformat row
    ext i d
    · exact (h format hformat).key _
    · exact (h format hformat).value _
  refine List.ext_getElem (by simp [storedLayers, hlen]) fun i hi hi' => ?_
  have hformat := hround formats[i] (List.getElem_mem (hlen ▸ hi'))
  simp only [storedLayers, List.getElem_zipWith, CausalLayer.storing, hformat]

/-- The logits of a text, if its keys and values are stored in these formats. -/
def CausalDecoder.storedLogits (m : CausalDecoder K dims limit) (E : Elementary K)
    (formats : List (CacheFormat K C)) (text : List Token) : List (dims.Logits K) :=
  (runStack (storedLayers (m.layers.map fun layer => layer.deviceCausal E m.rope) formats) []
    (text.map (embedRow m.embedTokens))).1.map fun x => m.lmHead.forward (m.norm.forward E x)

theorem CausalDecoder.oneShot_eq {m : CausalDecoder K dims limit} (hcast : ∀ x, E.toF16 x = x)
    (hlen : formats.length = m.layers.length) (hexact : ∀ format ∈ formats, format.Exact)
    {text : List Token} (hne : text ≠ []) (hle : (text.length : ℕ∞) ≤ limit)
    (hknown : m.Knows 0 text) (context : ℕ → ForwardError → ForwardError) :
    (oneShot (m.forward E context) m.layers.length text).1 =
      .ok (m.storedLogits E formats text) := by
  have hcount : (m.layers.map fun layer => layer.causal E m.rope).length = m.layers.length :=
    List.length_map _
  have hpos : 0 < 0 + text.length := by
    rw [Nat.zero_add]
    exact List.length_pos_iff.mpr hne
  have hone := ((m.runsStack E context).oneShot_iff hle).mpr
    ⟨(CausalDecoder.runnable_iff hpos).mpr ⟨hknown, Or.inr (Or.inr rfl)⟩, rfl, rfl⟩
  rw [hcount] at hone
  rw [hone, storedLogits, storedLayers_of_exact (hlen.trans (List.length_map _).symm) hexact]
  simp only [DecoderLayer.deviceCausal_eq hcast]
  rw [runStack_nil, hcount]

variable [IsStrictOrderedRing K]

theorem CausalDecoder.runBatches_eq {m : CausalDecoder K dims limit} (hexp : Softmax.IsExp E.exp)
    (hg : geometry.Valid) (hlimit : ((2 ^ 31 : ℕ) : ℕ∞) ≤ limit)
    (hlen : caches.length = m.layers.length) (hformats : caches.map (·.format) = formats)
    (hruns : ∀ step ∈ steps, step.Runs geometry)
    (hknown : ∀ step ∈ steps, ∀ c ∈ step.chunks geometry.blockSize, m.Knows 0 c.text)
    (hsteps : Sustained (fun _ => []) (steps.map (·.chunks geometry.blockSize)))
    (context : ℕ → ForwardError → ForwardError) :
    runBatches (m.pagedStep E context geometry) caches steps = steps.map fun step =>
      .ok ((step.chunks geometry.blockSize).flatMap fun c =>
        (m.storedLogits E formats c.text).drop c.past) :=
  Rllm.runBatches_eq
    (fun step hstep =>
      CausalDecoder.runsOver hexp hg hlimit (hruns step hstep) (hknown step hstep))
    (hlen.trans (List.length_map _).symm) hformats hsteps

/-- The forward pass of a batch, as the executor calls it. -/
def LlamaForCausalLM.pagedStep (m : LlamaForCausalLM K dims) (E : Elementary K)
    (geometry : CacheDims) (step : PagedStep K dims.headDim) : List (DeviceCache K C) →
      Except ForwardError (List (dims.Logits K)) × List (DeviceCache K C) :=
  m.forwardPaged E true geometry step.runs step.batch.tokenIds step.batch.positions
    (ModelRunner.buildAttentionMetadata step.batch)

def QwenForCausalLM.pagedStep (m : QwenForCausalLM K dims) (E : Elementary K)
    (geometry : CacheDims) (step : PagedStep K dims.headDim) : List (DeviceCache K C) →
      Except ForwardError (List (dims.Logits K)) × List (DeviceCache K C) :=
  m.forwardPaged E true geometry step.runs step.batch.tokenIds step.batch.positions
    (ModelRunner.buildAttentionMetadata step.batch)

/-- The caches of two layers, the first of which loses all keys. -/
def lossyCaches : List (DeviceCache ℚ ℚ) :=
  [⟨⟨fun _ => 0, id, id, id⟩, 0, 0⟩, toyCache]

end Llama

/-! ## DeepSeek -/

section Deepseek

variable [Field K] [LinearOrder K] {E : Elementary K} {dims : DeepseekDims}
  {geometry : CacheDims} {formats : List (CacheFormat K C)} {caches : List (DeviceCache K C)}
  {steps : List (PagedStep K dims.headDim)}

/-- The forward pass of a batch, as the executor calls it. -/
def DeepseekForCausalLM.pagedStep (m : DeepseekForCausalLM K dims) (E : Elementary K)
    (geometry : CacheDims) (step : PagedStep K dims.headDim) : List (DeviceCache K C) →
      Except ForwardError (List (dims.Logits K)) × List (DeviceCache K C) :=
  m.forwardPaged E geometry step.runs step.batch.tokenIds step.batch.positions
    (ModelRunner.buildAttentionMetadata step.batch)

variable [IsStrictOrderedRing K]

theorem DeepseekForCausalLM.runsOver {m : DeepseekForCausalLM K dims}
    {step : PagedStep K dims.headDim} (hexp : Softmax.IsExp E.exp) (hg : geometry.Valid)
    (hwide : dims.valueDim ≤ dims.headDim) (h : step.Runs geometry)
    (hknown : ∀ c ∈ step.chunks geometry.blockSize, m.Knows 0 c.text) :
    RunsOver (m.pagedStep E geometry)
      (m.layers.map fun layer => layer.deviceCausal E m.rope hwide) (embedRow m.embedding)
      (fun x => m.lmHead.forward (m.norm.forward E x)) formats geometry.blockSize step := by
  intro hsep caches stores hlen hcaches
  have hserves := h.serves hg hsep.nodup
  obtain ⟨hids, hpositions⟩ := PagedStep.known hknown
  have hlayers : List.Forall₂ (Simulates geometry.blockSize step.paged)
      (m.layers.mapIdx fun i layer => layer.forwardPaged (C := C) E m.rope geometry
        (step.paged.flatMap fun s => List.range' s.past s.new)
        (ModelRunner.buildAttentionMetadata step.batch) (step.runs i))
      (m.layers.map fun layer => layer.deviceCausal E m.rope hwide) := by
    refine List.forall₂_iff_get.mpr ⟨by simp, fun i hi hi' => ?_⟩
    simp only [List.get_eq_getElem, List.getElem_mapIdx, List.getElem_map]
    rw [List.length_map] at hi'
    exact DeepseekLayer.forwardPaged_simulates hexp (h.sound i) hserves h.prefills
      (hpositions (List.ne_nil_of_length_pos (Nat.zero_lt_of_lt hi'))) hwide
  have hcount : caches.length = m.layers.length := by
    rw [← hcaches.rows_eq] at hlen
    simpa using hlen
  unfold DeepseekForCausalLM.pagedStep DeepseekForCausalLM.forwardPaged
  rw [h.positions_eq, ← PagedStep.flatMap_rows geometry.blockSize]
  dsimp only
  rw [if_neg (not_not_intro hcount)]
  exact forwardPagedTokens_eq hlayers hlen hcaches (PagedStep.chunksMatch_chunks _) hids

end Deepseek

end Rllm
