import Rllm.Kernels.PagedCuda
import Rllm.Model.Deepseek
import Rllm.Model.Llama

/-! # Paged forward passes

A forward pass may keep the keys and values of many texts in one cache on a device, and
run the tokens of a whole batch at once.
-/

namespace Rllm

variable {K C : Type}

/-- What an operation on a device finds and does that is not up to it. -/
structure DeviceRun (K : Type) (headDim : ℕ) where
  /-- Memory behind the metadata and behind the rows of a tensor. -/
  beyond : DeviceMetadata
  behind : ℕ → K
  /-- What the output holds before it is written. -/
  memory : ℕ → K
  /-- The order of the threads that write, given their number. -/
  order : ℕ → List ℕ
  complete : ∀ n, (order n).Perm (List.range n)
  sched : ℕ → BlockSchedule headDim

/-- The geometry of a cache. -/
structure CacheDims where
  numBlocks : ℕ
  blockSize : ℕ

/-! ## The operation of a layer -/

section Operation

variable [Field K] [LinearOrder K] {numQHeads numKvHeads headDim : ℕ}

/-- The operation for so many heads, as the metadata describe it. -/
def AttentionMetadata.toOp (md : AttentionMetadata) (flat : List ℤ) (geometry : CacheDims)
    (numQHeads numKvHeads headDim numTokens : ℕ) (scale : K) (isPrefill : Bool) :
    PagedAttentionOp K where
  numBlocks := geometry.numBlocks
  blockSize := geometry.blockSize
  numQHeads
  numKvHeads
  headDim
  numTokens
  numSeqs := md.numSeqs
  maxNumBlocksPerSeq := md.maxNumBlocksPerSeq
  scale
  isPrefill
  slotMapping := md.slotMapping
  blockTablesFlat := flat
  seqLens := md.seqLens.map fun s : ℕ => asI32 s
  queryStartLoc := md.queryStartLoc.map fun s : ℕ => asI32 s

/-- Write the keys and values of tokens and attend from their queries. A layer without a cache
is a panic. -/
def Device.pagedAttention (E : Elementary K) (scale : K) (isPrefill : Bool)
    (geometry : CacheDims) (md : AttentionMetadata) (run : DeviceRun K headDim)
    (queries : List (Fin numQHeads → Fin headDim → K))
    (kv : List (KvRow K numKvHeads headDim headDim)) (cache? : Option (DeviceCache K C)) :
    Except ForwardError (List (Fin numQHeads → Fin headDim → K)) × Option (DeviceCache K C) :=
  match cache?, md.flattenBlockTables with
  | some cache, some flat =>
    let numTokens := queries.length
    let op := md.toOp flat geometry numQHeads numKvHeads headDim numTokens scale isPrefill
    let (output, cache) := op.forward E run.sched (op.upload run.beyond)
      (tokenMajor run.behind queries) cache (run.order (numTokens * numKvHeads * headDim))
      run.memory (tokenMajor run.behind (kv.map KvRow.key))
      (tokenMajor run.behind (kv.map KvRow.value))
    (.ok ((List.range numTokens).map fun t head d =>
      output ((t * numQHeads + head) * headDim + d)), some cache)
  | _, _ => (.error .panicked, cache?)

end Operation

/-! ## Attention -/

section Attention

variable [Field K] [LinearOrder K] (E : Elementary K)

/-- What 16 bits hold of the heads of a row. -/
def Elementary.castHeads {heads dim : ℕ} (x : Fin heads → Fin dim → K) : Fin heads → Fin dim → K :=
  fun h d => E.toF16 (x h d)

def Elementary.castKv {heads keyDim valueDim : ℕ} (row : KvRow K heads keyDim valueDim) :
    KvRow K heads keyDim valueDim where
  key := E.castHeads row.key
  value := E.castHeads row.value

/-- The paged form of the attention, which has to be switched on. The operation takes and
gives numbers of 16 bits. -/
def LlamaAttention.forwardPaged {dims : LlamaDims} (attn : LlamaAttention K dims) (enabled : Bool)
    (rope : RotaryEmbedding K dims.half) (geometry : CacheDims) (positions : List ℕ)
    (md : AttentionMetadata) (run : DeviceRun K dims.headDim) (hiddenStates : List (dims.Row K))
    (cache? : Option (DeviceCache K C)) :
    Except ForwardError (List (dims.Row K)) × Option (DeviceCache K C) :=
  match rope.gatherCache positions with
  | .error e => (.error (.candle e), cache?)
  | .ok rotations =>
    match RotaryEmbedding.broadcast rotations hiddenStates.length with
    | .error e => (.error (.candle e), cache?)
    | .ok rotations =>
      if enabled = false then
        (.error (.message ("paged-attention disabled (set RLLM_PAGED_ATTENTION=1 to enable); " ++
          "using legacy forward")), cache?)
      else
        let queries := List.zipWith (attn.query E) rotations hiddenStates
        let kv := List.zipWith (attn.kvRow E) rotations hiddenStates
        let (attnOutput, cache?) := Device.pagedAttention E (1 / E.sqrt dims.headDim)
          (1 < hiddenStates.length) geometry md run (queries.map E.castHeads) (kv.map E.castKv)
          cache?
        (attnOutput.map fun rows => rows.map fun row =>
          attn.oProj.forward (mergeHeads (E.castHeads row)), cache?)

/-- Pad the values of a row to the dimension of its keys. -/
def padValue {heads keyDim valueDim : ℕ} (row : KvRow K heads keyDim valueDim) :
    KvRow K heads keyDim keyDim where
  key := row.key
  value h d := if hd : d < valueDim then row.value h ⟨d, hd⟩ else 0

/-- The values take as much room as the keys, and are cut off afterwards. -/
def MlaAttention.forwardPaged {dims : DeepseekDims} (attn : MlaAttention K dims)
    (rope : RotaryEmbedding K dims.ropeHalf) (geometry : CacheDims) (positions : List ℕ)
    (md : AttentionMetadata) (run : DeviceRun K dims.headDim) (hidden : List (dims.Row K))
    (cache? : Option (DeviceCache K C)) :
    Except ForwardError (List (dims.Row K)) × Option (DeviceCache K C) :=
  let given := positions.length
  let tokens := hidden.length
  if given ≠ tokens then
    (.error (.message s!"DeepSeek RoPE received {given} positions for {tokens} tokens"), cache?)
  else
    match rope.gatherCache positions with
    | .error e => (.error (.candle e), cache?)
    | .ok rotations =>
      if hwide : dims.headDim < dims.valueDim then (.error (.candle .shapeMismatch), cache?)
      else
        let queries := List.zipWith (attn.queryRow E) rotations hidden
        let kv := (List.zipWith (attn.kvRow E) rotations hidden).map padValue
        let (output, cache?) := Device.pagedAttention E attn.scale (0 < md.numPrefillTokens)
          geometry md run (queries.map E.castHeads) (kv.map E.castKv) cache?
        (output.map fun rows => rows.map fun row => attn.output.forward (mergeHeads fun h d =>
          E.castHeads row h (d.castLE (Nat.not_lt.mp hwide))), cache?)

end Attention

/-! ## Layers and models -/

/-- Run rows through layers, the caches of which lie on a device. -/
def forwardPagedLayers {X : Type} (context : ℕ → ForwardError → ForwardError) :
    ℕ → List (List X → Option (DeviceCache K C) →
        Except ForwardError (List X) × Option (DeviceCache K C)) →
      List (DeviceCache K C) → List X → Except ForwardError (List X) × List (DeviceCache K C)
  | _, [], caches, rows => (.ok rows, caches)
  | i, layer :: layers, caches, rows =>
    match layer rows caches.head? with
    | (.error e, cache?) => (.error (context i e), cache?.toList ++ caches.tail)
    | (.ok rows, cache?) =>
      let (result, caches) := forwardPagedLayers context (i + 1) layers caches.tail rows
      (result, cache?.toList ++ caches)

/-- A forward pass: the embedding, the layers and what follows them. -/
def forwardPagedTokens {Y : Type} [Zero K] {vocab hidden : ℕ}
    (table : Fin vocab → Fin hidden → K) (context : ℕ → ForwardError → ForwardError)
    (layers : List (List (Fin hidden → K) → Option (DeviceCache K C) →
      Except ForwardError (List (Fin hidden → K)) × Option (DeviceCache K C)))
    (head : (Fin hidden → K) → Y) (ids : List Token) (caches : List (DeviceCache K C)) :
    Except ForwardError (List Y) × List (DeviceCache K C) :=
  match embeddingLookup table ids with
  | .error e => (.error (.candle e), caches)
  | .ok rows =>
    match forwardPagedLayers context 0 layers caches rows with
    | (.error e, caches) => (.error e, caches)
    | (.ok rows, caches) => (.ok (rows.map head), caches)

section Models

variable [Field K] [LinearOrder K] (E : Elementary K)

def DecoderLayer.forwardPaged {dims : LlamaDims} {limit : ℕ∞} (layer : DecoderLayer K dims limit)
    (enabled : Bool)
    (rope : RotaryEmbedding K dims.half) (geometry : CacheDims) (positions : List ℕ)
    (md : AttentionMetadata) (run : DeviceRun K dims.headDim) (hiddenStates : List (dims.Row K))
    (cache? : Option (DeviceCache K C)) :
    Except ForwardError (List (dims.Row K)) × Option (DeviceCache K C) :=
  let (attention, cache?) := layer.selfAttn.forwardPaged E enabled rope geometry positions md run
    (hiddenStates.map (layer.inputLayernorm.forward E)) cache?
  (attention.bind fun rows => behindAttention (layer.postAttentionLayernorm.forward E) layer.mlp
    hiddenStates rows, cache?)

/-- A batch of tokens through a model, with a run of the device for every layer. -/
def CausalDecoder.forwardPaged {dims : LlamaDims} {limit : ℕ∞} (m : CausalDecoder K dims limit)
    (context : ℕ → ForwardError → ForwardError) (enabled : Bool) (geometry : CacheDims)
    (runs : ℕ → DeviceRun K dims.headDim) (inputIds : List Token) (positions : List ℕ)
    (md : AttentionMetadata) : List (DeviceCache K C) →
      Except ForwardError (List (dims.Logits K)) × List (DeviceCache K C) :=
  forwardPagedTokens m.embedTokens context
    (m.layers.mapIdx fun i layer => layer.forwardPaged E enabled m.rope geometry positions md
      (runs i)) (fun x => m.lmHead.forward (m.norm.forward E x)) inputIds

def LlamaForCausalLM.forwardPaged {dims : LlamaDims} (m : LlamaForCausalLM K dims)
    (enabled : Bool) (geometry : CacheDims) (runs : ℕ → DeviceRun K dims.headDim)
    (inputIds : List Token) (positions : List ℕ) (md : AttentionMetadata) :
    List (DeviceCache K C) →
      Except ForwardError (List (dims.Logits K)) × List (DeviceCache K C) :=
  (m.toDecoder E).forwardPaged E (fun i e => .context s!"layer {i}" e) enabled geometry runs
    inputIds positions md

def QwenForCausalLM.forwardPaged {dims : LlamaDims} (m : QwenForCausalLM K dims)
    (enabled : Bool) (geometry : CacheDims) (runs : ℕ → DeviceRun K dims.headDim)
    (inputIds : List Token) (positions : List ℕ) (md : AttentionMetadata) :
    List (DeviceCache K C) →
      Except ForwardError (List (dims.Logits K)) × List (DeviceCache K C) :=
  (m.toDecoder E).forwardPaged E (fun layer e => .context s!"Qwen layer {layer}" e) enabled
    geometry runs inputIds positions md

def DeepseekLayer.forwardPaged {dims : DeepseekDims} (layer : DeepseekLayer K dims)
    (rope : RotaryEmbedding K dims.ropeHalf) (geometry : CacheDims) (positions : List ℕ)
    (md : AttentionMetadata) (run : DeviceRun K dims.headDim) (hidden : List (dims.Row K))
    (cache? : Option (DeviceCache K C)) :
    Except ForwardError (List (dims.Row K)) × Option (DeviceCache K C) :=
  let (attention, cache?) := layer.attention.forwardPaged E rope geometry positions md run
    (hidden.map (layer.inputNorm.forward E)) cache?
  (attention.bind fun rows => behindAttention (layer.postAttentionNorm.forward E)
    (layer.feedForward.forward E) hidden rows, cache?)

def DeepseekForCausalLM.forwardPaged {dims : DeepseekDims} (m : DeepseekForCausalLM K dims)
    (geometry : CacheDims) (runs : ℕ → DeviceRun K dims.headDim) (inputIds : List Token)
    (positions : List ℕ) (md : AttentionMetadata) (cache : List (DeviceCache K C)) :
    Except ForwardError (List (dims.Logits K)) × List (DeviceCache K C) :=
  let actual := cache.length
  let expected := m.layers.length
  if actual ≠ expected then
    (.error (.message s!"DeepSeek paged cache has {actual} layers, expected {expected}"), cache)
  else
    forwardPagedTokens m.embedding (fun index e => .context s!"DeepSeek paged layer {index}" e)
      (m.layers.mapIdx fun i layer => layer.forwardPaged E m.rope geometry positions md (runs i))
      (fun x => m.lmHead.forward (m.norm.forward E x)) inputIds cache

end Models

/-! ## Batches that the metadata describe -/

/-- The metadata belong to a list of sequences, and their tables reach far enough. -/
structure AttentionMetadata.Serves (md : AttentionMetadata) (geometry : CacheDims)
    (seqs : List PagedSeq) : Prop where
  blockSize_pos : 0 < geometry.blockSize
  slotMapping : md.slotMapping = (seqs.flatMap (·.slots geometry.blockSize)).map Int.ofNat
  inside : ∀ slot ∈ seqs.flatMap (·.slots geometry.blockSize),
    slot / geometry.blockSize < geometry.numBlocks
  nodup : (seqs.flatMap (·.slots geometry.blockSize)).Nodup
  seqLens : md.seqLens = seqs.map fun s => s.past + s.new
  seqLens_lt : ∀ s ∈ seqs, s.past + s.new < 2 ^ 31
  starts : ∀ i ≤ seqs.length, md.queryStartLoc[i]? = some (blockStart PagedSeq.new seqs i)
  tokens_lt : (seqs.map PagedSeq.new).sum < 2 ^ 31
  blockTables : md.blockTables = seqs.map fun s => s.blocks.map Int.ofNat
  covers : ∀ s ∈ seqs, divCeil (s.past + s.new) geometry.blockSize ≤ s.blocks.length ∧
    s.blocks.length ≤ md.maxNumBlocksPerSeq

namespace AttentionMetadata

variable {md : AttentionMetadata} {geometry : CacheDims} {seqs : List PagedSeq}
  {numQHeads numKvHeads headDim : ℕ} {scale : K} {isPrefill : Bool}

theorem Serves.describes (h : md.Serves geometry seqs) {flat : List ℤ}
    (hflat : md.Copied md.blockTables.length flat) :
    (md.toOp flat geometry numQHeads numKvHeads headDim (seqs.map PagedSeq.new).sum scale
      isPrefill).Describes seqs where
  slots := by
    refine ⟨h.blockSize_pos, h.slotMapping, ?_, h.inside, h.nodup⟩
    rw [List.length_flatMap]
    exact congrArg List.sum (List.map_congr_left fun s _ => by simp [PagedSeq.slots])
  numSeqs := by
    change md.seqLens.length = _
    rw [h.seqLens, List.length_map]
  seqLens := by
    change md.seqLens.map (fun s : ℕ => asI32 s) = _
    rw [h.seqLens, List.map_map]
    refine List.map_congr_left fun s hs => ?_
    rw [Function.comp_apply, asI32_of_lt (h.seqLens_lt s hs)]
  starts i hi := by
    change (md.queryStartLoc.map (fun s : ℕ => asI32 s))[i]? = _
    rw [List.getElem?_map, h.starts i hi, Option.map_some,
      asI32_of_lt ((blockStart_le i).trans_lt h.tokens_lt)]
  tables i s hs b hb := by
    have hmem := List.mem_of_getElem? hs
    have hlt : b < s.blocks.length := hb.trans_le (h.covers s hmem).1
    have htable : md.blockTables[i]? = some (s.blocks.map Int.ofNat) := by
      rw [h.blockTables, List.getElem?_map, hs, Option.map_some]
    refine ⟨s.blocks[b], List.getElem?_eq_getElem hlt, ?_⟩
    refine hflat.2 i (List.getElem?_eq_some_iff.mp htable).1 _ htable b
      (hlt.trans_le (h.covers s hmem).2) _ ?_
    rw [List.getElem?_map, List.getElem?_eq_getElem hlt]
    rfl

end AttentionMetadata

section Operation

variable [Field K] [LinearOrder K] [IsStrictOrderedRing K] {E : Elementary K}
  {numQHeads numKvHeads headDim : ℕ} {scale : K} {isPrefill : Bool} {geometry : CacheDims}
  {md : AttentionMetadata} {run : DeviceRun K headDim} {seqs : List PagedSeq}
  {queries : List (Fin numQHeads → Fin headDim → K)}
  {kv : List (KvRow K numKvHeads headDim headDim)} {cache : DeviceCache K C}

variable (scale) in
theorem pagedAttention_eq (hexp : Softmax.IsExp E.exp) (hsound : ∀ block, (run.sched block).Sound)
    (h : md.Serves geometry seqs) (hqueries : queries.length = (seqs.map PagedSeq.new).sum)
    (hkv : kv.length = queries.length)
    (hkernel : isPrefill = true ∨ ∀ s ∈ seqs, s.new = 1) {kvHead : Fin numQHeads → Fin numKvHeads}
    (hheads : ∀ head : Fin numQHeads, head * numKvHeads / numQHeads = kvHead head) :
    ∃ outs cache', Device.pagedAttention E scale isPrefill geometry md run queries kv (some cache) =
        (.ok outs, some cache') ∧
      cache'.format = cache.format ∧
      cache'.rowAt geometry.blockSize numKvHeads headDim =
        storeAll (cache.rowAt geometry.blockSize numKvHeads headDim)
          ((seqs.flatMap (·.slots geometry.blockSize)).zip (kv.map cache.format.round)) ∧
      outs.length = queries.length ∧
      ∀ i s j q, seqs[i]? = some s → j < s.new →
        queries[blockStart PagedSeq.new seqs i + j]? = some q →
        outs[blockStart PagedSeq.new seqs i + j]? = some fun head =>
          attendHead scale (q head) E ((List.range (s.past + j + 1)).map fun p =>
            let row := cache'.rowAt geometry.blockSize numKvHeads headDim
              (s.place geometry.blockSize p)
            (row.key (kvHead head), row.value (kvHead head))) fun _ => 0 := by
  have htables : md.blockTables.length ≤ md.seqLens.length := by
    rw [h.blockTables, h.seqLens, List.length_map, List.length_map]
  obtain ⟨flat, hflat, hcopied⟩ := AttentionMetadata.flattenBlockTables_ok htables
  let op := md.toOp flat geometry numQHeads numKvHeads headDim queries.length scale isPrefill
  have hop : op.Describes seqs := by
    simp only [op, hqueries]
    exact h.describes hcopied
  have hslots : (seqs.flatMap (·.slots geometry.blockSize)).length = queries.length :=
    hop.slots.tokens.symm
  let out := op.forward E run.sched (op.upload run.beyond) (tokenMajor run.behind queries) cache
    (run.order (queries.length * numKvHeads * headDim)) run.memory
    (tokenMajor run.behind (kv.map KvRow.key)) (tokenMajor run.behind (kv.map KvRow.value))
  have hrun : Device.pagedAttention E scale isPrefill geometry md run queries kv (some cache) =
      (.ok ((List.range queries.length).map fun t head d =>
        out.1 ((t * numQHeads + head) * headDim + d)), some out.2) := by
    unfold Device.pagedAttention
    rw [hflat]
  refine ⟨_, _, hrun, ?_, ?_, ?_, fun i s j q hs hj hq => ?_⟩
  · simp only [out, PagedAttentionOp.forward, cacheWriteKernel_eq]
  · exact rowAt_cacheWriteKernel hop.slots (run.complete _) (hkv.trans hslots.symm) run.behind
  · rw [List.length_map, List.length_range]
  · have ht : blockStart PagedSeq.new seqs i + j < queries.length :=
      (List.getElem?_eq_some_iff.mp hq).1
    rw [List.getElem?_map, List.getElem?_range ht, Option.map_some]
    refine congrArg some (funext fun head => funext fun d => ?_)
    exact hop.forward_apply hexp hsound hkernel hs hj hq (hheads head) d

end Operation

/-! ## Chunks of texts -/

open CausalLayer

/-- What the sequences of a batch tell of the chunks of their texts. -/
def PagedSeq.view (s : PagedSeq) (blockSize : ℕ) : ℕ × ℕ × (ℕ → ℕ) :=
  (s.past, s.new, s.place blockSize)

/-- The sequences of a batch are the chunks that run. -/
def ChunksMatch {X : Type} (blockSize : ℕ) (seqs : List PagedSeq) (chunks : List (Chunk ℕ X)) :
    Prop :=
  seqs.map (·.view blockSize) = chunks.map Chunk.view

/-- Something for each row of a chunk. -/
def mapRows {X A : Type} (f : ℕ → X → A) (c : Chunk ℕ X) : List A :=
  c.rows.mapIdx fun i x => f (c.past + i) x

@[simp] theorem length_mapRows {X A : Type} {f : ℕ → X → A} {c : Chunk ℕ X} :
    (mapRows f c).length = c.rows.length := List.length_mapIdx

theorem map_flatMap_mapRows {X A B : Type} {f : ℕ → X → A} {g : A → B} {chunks : List (Chunk ℕ X)} :
    (chunks.flatMap (mapRows f)).map g = chunks.flatMap (mapRows fun p x => g (f p x)) := by
  rw [List.map_flatMap]
  exact List.flatMap_congr fun c _ => List.ext_getElem (by simp [mapRows]) (by simp [mapRows])

theorem getElem?_mapRows {X A : Type} {f : ℕ → X → A} {c : Chunk ℕ X} {j : ℕ}
    (hj : j < c.rows.length) : (mapRows f c)[j]? = some (f (c.past + j) c.rows[j]) := by
  rw [mapRows, List.getElem?_mapIdx, List.getElem?_eq_getElem hj, Option.map_some]

namespace ChunksMatch

variable {X : Type} {blockSize : ℕ} {seqs : List PagedSeq} {chunks : List (Chunk ℕ X)}

theorem getElem? (h : ChunksMatch blockSize seqs chunks) {i : ℕ} {c : Chunk ℕ X}
    (hc : chunks[i]? = some c) : ∃ s, seqs[i]? = some s ∧ s.past = c.past ∧
      s.new = c.rows.length ∧ s.place blockSize = c.place := by
  have hi := congrArg (·[i]?) h
  simp only [List.getElem?_map, hc, Option.map_some] at hi
  obtain ⟨s, hs, hview⟩ := Option.map_eq_some_iff.mp hi
  obtain ⟨hpast, hrest⟩ := Prod.mk.inj hview
  obtain ⟨hnew, hplace⟩ := Prod.mk.inj hrest
  exact ⟨s, hs, hpast, hnew, hplace⟩

theorem map_new (h : ChunksMatch blockSize seqs chunks) :
    seqs.map PagedSeq.new = chunks.map (·.rows.length) := by
  have hnew := congrArg (List.map fun v => v.2.1) h
  rwa [List.map_map, List.map_map] at hnew

theorem slots (h : ChunksMatch blockSize seqs chunks) :
    seqs.flatMap (·.slots blockSize) = slotsOf chunks := by
  have hslots := congrArg (List.flatMap fun v : ℕ × ℕ × (ℕ → ℕ) =>
    (List.range' v.1 v.2.1).map v.2.2) h
  rwa [List.flatMap_map, List.flatMap_map] at hslots

theorem positions (h : ChunksMatch blockSize seqs chunks) :
    seqs.flatMap (fun s => List.range' s.past s.new) =
      chunks.flatMap fun c => List.range' c.past c.rows.length := by
  have hpositions := congrArg (List.flatMap fun v : ℕ × ℕ × (ℕ → ℕ) => List.range' v.1 v.2.1) h
  rwa [List.flatMap_map, List.flatMap_map] at hpositions

theorem zipWith_positions (h : ChunksMatch blockSize seqs chunks) {R Y Z : Type} (f : R → Y → Z)
    (g : ℕ → R) (prepare : X → Y) :
    List.zipWith f ((seqs.flatMap fun s => List.range' s.past s.new).map g)
        ((chunks.flatMap (·.rows)).map prepare) =
      chunks.flatMap (mapRows fun p x => f (g p) (prepare x)) := by
  rw [h.positions, List.map_flatMap, List.map_flatMap, zipWith_flatMap]
  · refine List.flatMap_congr fun c _ => ?_
    exact List.ext_getElem (by simp [mapRows]) (by simp [mapRows])
  · simp

theorem blockStart_new (h : ChunksMatch blockSize seqs chunks) (i : ℕ) :
    blockStart PagedSeq.new seqs i = blockStart (·.rows.length) chunks i := by
  rw [blockStart, blockStart, List.map_take, h.map_new, List.map_take]

theorem sum_new (h : ChunksMatch blockSize seqs chunks) {A : Type} {f : ℕ → X → A} :
    (chunks.flatMap (mapRows f)).length = (seqs.map PagedSeq.new).sum := by
  rw [h.map_new, List.length_flatMap]
  exact congrArg List.sum (List.map_congr_left fun c _ => length_mapRows)

end ChunksMatch

section Chunks

variable [Field K] [LinearOrder K] [IsStrictOrderedRing K] {E : Elementary K}
  {numQHeads numKvHeads headDim : ℕ} {scale : K} {isPrefill : Bool} {geometry : CacheDims}
  {md : AttentionMetadata} {run : DeviceRun K headDim} {seqs : List PagedSeq}
  {cache : DeviceCache K C} {X : Type} {chunks : List (Chunk ℕ X)}
  {queryOf : ℕ → X → Fin numQHeads → Fin headDim → K}
  {kvOf : ℕ → X → KvRow K numKvHeads headDim headDim}

variable (E scale) in
/-- The heads of a query over rows. -/
def attendHeads (kvHead : Fin numQHeads → Fin numKvHeads) (query : Fin numQHeads → Fin headDim → K)
    (rows : List (KvRow K numKvHeads headDim headDim)) (head : Fin numQHeads) : Fin headDim → K :=
  attendHead scale (query head) E
    (rows.map fun row => (row.key (kvHead head), row.value (kvHead head))) fun _ => 0

variable (scale cache queryOf kvOf) in
/-- The operation for the rows of chunks: all rows are stored before any is answered. -/
theorem pagedAttention_chunks (hexp : Softmax.IsExp E.exp)
    (hsound : ∀ block, (run.sched block).Sound) (h : md.Serves geometry seqs)
    (hmatch : ChunksMatch geometry.blockSize seqs chunks)
    (hkernel : isPrefill = true ∨ ∀ s ∈ seqs, s.new = 1) {kvHead : Fin numQHeads → Fin numKvHeads}
    (hheads : ∀ head : Fin numQHeads, head * numKvHeads / numQHeads = kvHead head) :
    ∃ cache' : DeviceCache K C, Device.pagedAttention E scale isPrefill geometry md run
        (chunks.flatMap (mapRows queryOf)) (chunks.flatMap (mapRows kvOf)) (some cache) =
      (.ok (chunks.flatMap fun c => mapRows (fun p x => attendHeads E scale kvHead (queryOf p x)
        ((List.range (p + 1)).map fun p =>
          cache'.rowAt geometry.blockSize numKvHeads headDim (c.place p))) c), some cache') ∧
      cache'.format = cache.format ∧
      cache'.rowAt geometry.blockSize numKvHeads headDim =
        storeAll (cache.rowAt geometry.blockSize numKvHeads headDim)
          (chunks.flatMap fun c =>
            mapRows (fun p x => (c.place p, cache.format.round (kvOf p x))) c) := by
  have hqueries := hmatch.sum_new (f := queryOf)
  have hkv : (chunks.flatMap (mapRows kvOf)).length = (chunks.flatMap (mapRows queryOf)).length :=
    hmatch.sum_new.trans hqueries.symm
  obtain ⟨outs, cache', hrun, hformat, hrows, hlen, houts⟩ :=
    pagedAttention_eq scale hexp hsound h hqueries hkv hkernel hheads
  refine ⟨cache', ?_, hformat, ?_⟩
  · rw [hrun]
    refine congrArg (fun outs => (Except.ok outs, some cache')) ?_
    refine eq_flatMap_of_getElem? (fun c _ => length_mapRows)
      (by rw [hlen, hqueries, hmatch.map_new]) fun i c j hc hj => ?_
    obtain ⟨s, hs, hpast, hnew, hplace⟩ := hmatch.getElem? hc
    have hlengths : ∀ c ∈ chunks, (mapRows queryOf c).length = c.rows.length :=
      fun c _ => length_mapRows
    have hq : (chunks.flatMap (mapRows queryOf))[blockStart PagedSeq.new seqs i + j]? =
        some (queryOf (c.past + j) c.rows[j]) := by
      rw [hmatch.blockStart_new, ← blockStart_congr hlengths,
        getElem?_flatMap_start hc (by rwa [length_mapRows]), getElem?_mapRows hj]
    have hout := houts i s j _ hs (hnew ▸ hj) hq
    rw [hmatch.blockStart_new] at hout
    rw [hout, getElem?_mapRows hj, hpast, hplace]
    refine congrArg some (funext fun head => ?_)
    rw [attendHeads, List.map_map]
    rfl
  · rw [hrows, hmatch.slots, slotsOf, List.map_flatMap, List.zip, zipWith_flatMap]
    · refine congrArg _ (List.flatMap_congr fun c _ => ?_)
      exact List.ext_getElem (by simp [Chunk.slots, mapRows]) (by simp [Chunk.slots, mapRows])
    · simp [Chunk.slots]

end Chunks

/-! ## Layers on a device -/

/-- A layer on a device does what a causal layer does with a store of memories. -/
def Simulates {X : Type} {numKvHeads headDim : ℕ} (blockSize : ℕ) (seqs : List PagedSeq)
    (step : List X → Option (DeviceCache K C) →
      Except ForwardError (List X) × Option (DeviceCache K C))
    (layer : CausalLayer X (KvRow K numKvHeads headDim headDim)) : Prop :=
  ∀ (chunks : List (Chunk ℕ X)) (cache : DeviceCache K C), ChunksMatch blockSize seqs chunks →
    ∃ cache' : DeviceCache K C,
      let run := stepSlots (layer.storing cache.format.round)
        (cache.rowAt blockSize numKvHeads headDim) chunks
      step (chunks.flatMap (·.rows)) (some cache) = (.ok run.1.flatten, some cache') ∧
        cache'.format = cache.format ∧ cache'.rowAt blockSize numKvHeads headDim = run.2

theorem zipWith_mapRows {X M A B : Type} {layer : CausalLayer X M} {cells : ℕ → M}
    {chunks : List (Chunk ℕ X)} {f : X → B → X} {g : A → B} {attended : Chunk ℕ X → ℕ → X → A}
    (h : ∀ c p x, f x (g (attended c p x)) =
      layer.answer p x ((List.range (p + 1)).map fun p => cells (c.place p))) :
    List.zipWith f (chunks.flatMap (·.rows))
        ((chunks.flatMap fun c => mapRows (attended c) c).map g) =
      (chunks.map (·.answersFrom layer cells)).flatten := by
  rw [List.map_flatMap, zipWith_flatMap _ fun c _ => by simp, ← List.flatMap_def]
  refine List.flatMap_congr fun c _ => ?_
  refine List.ext_getElem (by simp [Chunk.answersFrom]) fun i hi hi' => ?_
  simp only [mapRows, Chunk.answersFrom, List.getElem_zipWith, List.getElem_map,
    List.getElem_mapIdx, h]

theorem ChunksMatch.length_rows {X : Type} {blockSize : ℕ} {seqs : List PagedSeq}
    {chunks : List (Chunk ℕ X)} (h : ChunksMatch blockSize seqs chunks) :
    (chunks.flatMap (·.rows)).length = (seqs.map PagedSeq.new).sum := by
  rw [h.map_new, List.length_flatMap]

theorem length_positions {seqs : List PagedSeq} :
    (seqs.flatMap fun s => List.range' s.past s.new).length = (seqs.map PagedSeq.new).sum := by
  rw [List.length_flatMap]
  exact congrArg List.sum (List.map_congr_left fun s _ => List.length_range' ..)

theorem one_of_sum_le {seqs : List PagedSeq} (hnew : ∀ s ∈ seqs, 0 < s.new)
    (hsum : (seqs.map PagedSeq.new).sum ≤ 1) : ∀ s ∈ seqs, s.new = 1 := fun s hs =>
  le_antisymm
    ((List.single_le_sum (fun _ _ => Nat.zero_le _) _ (List.mem_map_of_mem hs)).trans hsum)
    (hnew s hs)

theorem AttentionMetadata.Serves.rows_le {X : Type} {md : AttentionMetadata} {geometry : CacheDims}
    {seqs : List PagedSeq} (h : md.Serves geometry seqs) {chunks : List (Chunk ℕ X)}
    (hmatch : ChunksMatch geometry.blockSize seqs chunks) {limit : ℕ∞}
    (hlimit : ((2 ^ 31 : ℕ) : ℕ∞) ≤ limit) :
    ((chunks.flatMap (·.rows)).length : ℕ∞) ≤ limit := by
  rw [hmatch.length_rows]
  exact (Nat.cast_le.mpr h.tokens_lt.le).trans hlimit

theorem Elementary.castHeads_eq {E : Elementary K} (hcast : ∀ x, E.toF16 x = x) {heads dim : ℕ}
    (x : Fin heads → Fin dim → K) : E.castHeads x = x :=
  funext₂ fun _ _ => hcast _

theorem Elementary.castKv_eq {E : Elementary K} (hcast : ∀ x, E.toF16 x = x)
    {heads keyDim valueDim : ℕ} (row : KvRow K heads keyDim valueDim) : E.castKv row = row := by
  ext : 1
  · exact E.castHeads_eq hcast row.key
  · exact E.castHeads_eq hcast row.value

section Llama

variable [Field K] [LinearOrder K] {E : Elementary K} {dims : LlamaDims} {limit : ℕ∞}
  {layer : DecoderLayer K dims limit} {rope : RotaryEmbedding K dims.half} {geometry : CacheDims}
  {md : AttentionMetadata} {run : DeviceRun K dims.headDim} {seqs : List PagedSeq}

variable (E layer rope) in
/-- What the layer does to a row if its attention runs on a device. -/
def DecoderLayer.deviceCausal : CausalLayer (dims.Row K) (dims.Kv K) where
  memory p x :=
    E.castKv (layer.selfAttn.kvRow E (rope.rotation p) (layer.inputLayernorm.forward E x))
  answer p x mem :=
    let query := layer.selfAttn.query E (rope.rotation p) (layer.inputLayernorm.forward E x)
    let attnOutput := LlamaAttention.heads E (E.castHeads query) mem fun _ => 0
    behindAttentionRow (layer.postAttentionLayernorm.forward E) layer.mlp x
      (layer.selfAttn.oProj.forward fun i => E.toF16 (attnOutput i))

theorem DecoderLayer.deviceCausal_eq (hcast : ∀ x, E.toF16 x = x) :
    layer.deviceCausal E rope = layer.causal E rope := by
  unfold deviceCausal causal
  simp only [E.castHeads_eq hcast, E.castKv_eq hcast, hcast]

theorem DecoderLayer.forwardPaged_simulates [IsStrictOrderedRing K] (hexp : Softmax.IsExp E.exp)
    (hsound : ∀ block, (run.sched block).Sound) (h : md.Serves geometry seqs)
    (hnew : ∀ s ∈ seqs, 0 < s.new) (hlimit : ((2 ^ 31 : ℕ) : ℕ∞) ≤ limit)
    (hknown : ∀ p ∈ seqs.flatMap fun s => List.range' s.past s.new, rope.Knows p) :
    Simulates (C := C) geometry.blockSize seqs
      (layer.forwardPaged E true rope geometry
        (seqs.flatMap fun s => List.range' s.past s.new) md run) (layer.deviceCausal E rope) := by
  intro chunks cache hmatch
  have hlen : (chunks.flatMap (·.rows)).length = (seqs.map PagedSeq.new).sum := hmatch.length_rows
  have hheads : ∀ head : Fin dims.numHeads, head * dims.numKvHeads / dims.numHeads =
      (head.divNat : ℕ) := by
    intro head
    have hpos : 0 < dims.numKvHeads := Nat.pos_of_mul_pos_right (Nat.zero_lt_of_lt head.isLt)
    change head * dims.numKvHeads / (dims.numKvHeads * dims.nRep) = head / dims.nRep
    rw [Nat.mul_comm dims.numKvHeads, Nat.mul_div_mul_right _ _ hpos]
  have hkernel : decide (1 < (chunks.flatMap (·.rows)).length) = true ∨ ∀ s ∈ seqs, s.new = 1 := by
    rw [decide_eq_true_iff, hlen]
    exact (Nat.lt_or_ge _ _).imp_right (one_of_sum_le hnew)
  obtain ⟨cache', hrun, hformat, hcells⟩ := pagedAttention_chunks (1 / E.sqrt dims.headDim) cache
    (fun p x => E.castHeads
      (layer.selfAttn.query E (rope.rotation p) (layer.inputLayernorm.forward E x)))
    (fun p x => E.castKv
      (layer.selfAttn.kvRow E (rope.rotation p) (layer.inputLayernorm.forward E x)))
    hexp hsound h hmatch hkernel hheads
  refine ⟨cache', ?_, hformat, hcells⟩
  have hrotations : RotaryEmbedding.broadcast ((seqs.flatMap fun s =>
      List.range' s.past s.new).map rope.rotation) ((chunks.flatMap (·.rows)).map
        (layer.inputLayernorm.forward E)).length = .ok _ :=
    RotaryEmbedding.broadcast_of_length (by
      rw [List.length_map, List.length_map, length_positions, hlen])
  unfold DecoderLayer.forwardPaged LlamaAttention.forwardPaged RotaryEmbedding.gatherCache
  rw [if_pos hknown]
  dsimp only
  rw [hrotations]
  dsimp only
  rw [if_neg Bool.true_eq_false.mp, List.length_map, hmatch.zipWith_positions,
    hmatch.zipWith_positions, map_flatMap_mapRows, map_flatMap_mapRows, hrun]
  refine congrArg (·, some cache') ?_
  have hstore : (stepSlots ((layer.deviceCausal E rope).storing cache.format.round)
      (cache.rowAt geometry.blockSize dims.numKvHeads dims.headDim) chunks).2 =
      cache'.rowAt geometry.blockSize dims.numKvHeads dims.headDim := hcells.symm
  refine (behindAttention_eq layer.mlp_apart (h.rows_le hmatch hlimit)).trans
    (congrArg Except.ok ?_)
  refine (zipWith_mapRows fun c p x => ?_).trans (congrArg (fun cells => (chunks.map
    (·.answersFrom ((layer.deviceCausal E rope).storing cache.format.round) cells)).flatten)
      hstore.symm)
  rfl

end Llama

section Deepseek

variable [Field K]

/-- Cut the values of a row. -/
def cutValue {heads keyDim valueDim : ℕ} (h : valueDim ≤ keyDim)
    (row : KvRow K heads keyDim keyDim) : KvRow K heads keyDim valueDim where
  key := row.key
  value i d := row.value i (d.castLE h)

omit [Field K] in
theorem cutValue_padValue [Field K] {heads keyDim valueDim : ℕ} (h : valueDim ≤ keyDim)
    (row : KvRow K heads keyDim valueDim) : cutValue h (padValue row) = row := by
  ext i d
  · rfl
  · exact dif_pos d.isLt

/-- The values may be cut after the average. -/
theorem attendHead_castLE [LinearOrder K] {keyDim m n : ℕ} (h : m ≤ n) {scale : K}
    {query : Fin keyDim → K} {E : Elementary K} {rows : List ((Fin keyDim → K) × (Fin n → K))}
    {mask : ℕ → WithBot K} (d : Fin m) :
    attendHead scale query E rows mask (d.castLE h) =
      attendHead scale query E (rows.map fun row => (row.1, fun d => row.2 (Fin.castLE h d))) mask
        d := by
  simp only [attendHead, List.map_map, List.zipWith_map_right]
  rfl

variable [LinearOrder K] {E : Elementary K} {dims : DeepseekDims}
  {layer : DeepseekLayer K dims} {rope : RotaryEmbedding K dims.ropeHalf} {geometry : CacheDims}
  {md : AttentionMetadata} {run : DeviceRun K dims.headDim} {seqs : List PagedSeq}

variable (E layer rope) in
/-- What the layer does to a row if its attention runs on a device. -/
def DeepseekLayer.deviceCausal (hwide : dims.valueDim ≤ dims.headDim) :
    CausalLayer (dims.Row K) (KvRow K dims.numHeads dims.headDim dims.headDim) where
  memory p x := E.castKv
    (padValue (layer.attention.kvRow E (rope.rotation p) (layer.inputNorm.forward E x)))
  answer p x mem :=
    let query := layer.attention.queryRow E (rope.rotation p) (layer.inputNorm.forward E x)
    let output :=
      layer.attention.heads E (E.castHeads query) (mem.map (cutValue hwide)) fun _ => 0
    behindAttentionRow (layer.postAttentionNorm.forward E) (layer.feedForward.forward E) x
      (layer.attention.output.forward fun i => E.toF16 (output i))

theorem DeepseekLayer.deviceCausal_eq (hwide : dims.valueDim ≤ dims.headDim)
    (hcast : ∀ x, E.toF16 x = x) : layer.deviceCausal E rope hwide =
      (layer.causal E rope).through padValue (cutValue hwide) := by
  unfold deviceCausal causal CausalLayer.through
  simp only [E.castHeads_eq hcast, E.castKv_eq hcast, hcast]

theorem DeepseekLayer.forwardPaged_simulates [IsStrictOrderedRing K] (hexp : Softmax.IsExp E.exp)
    (hsound : ∀ block, (run.sched block).Sound) (h : md.Serves geometry seqs)
    (hprefill : 0 < md.numPrefillTokens ∨ ∀ s ∈ seqs, s.new = 1)
    (hknown : ∀ p ∈ seqs.flatMap fun s => List.range' s.past s.new, rope.Knows p)
    (hwide : dims.valueDim ≤ dims.headDim) :
    Simulates (C := C) geometry.blockSize seqs
      (layer.forwardPaged E rope geometry
        (seqs.flatMap fun s => List.range' s.past s.new) md run)
      (layer.deviceCausal E rope hwide) := by
  intro chunks cache hmatch
  have hlen : (chunks.flatMap (·.rows)).length = (seqs.map PagedSeq.new).sum := hmatch.length_rows
  have hheads : ∀ head : Fin dims.numHeads,
      head * dims.numHeads / dims.numHeads = (id head : Fin dims.numHeads) :=
    fun head => Nat.mul_div_cancel _ head.pos
  have hkernel : decide (0 < md.numPrefillTokens) = true ∨ ∀ s ∈ seqs, s.new = 1 :=
    hprefill.imp_left decide_eq_true
  have hlimit : ((2 ^ 31 : ℕ) : ℕ∞) ≤ ((2 ^ 32 : ℕ) : ℕ∞) := Nat.cast_le.mpr (by decide)
  obtain ⟨cache', hrun, hformat, hcells⟩ := pagedAttention_chunks
    layer.attention.scale cache
    (fun p x => E.castHeads
      (layer.attention.queryRow E (rope.rotation p) (layer.inputNorm.forward E x)))
    (fun p x => E.castKv
      (padValue (layer.attention.kvRow E (rope.rotation p) (layer.inputNorm.forward E x))))
    hexp hsound h hmatch hkernel hheads
  refine ⟨cache', ?_, hformat, hcells⟩
  unfold DeepseekLayer.forwardPaged MlaAttention.forwardPaged RotaryEmbedding.gatherCache
  dsimp only
  rw [if_pos hknown,
    if_neg (by rw [List.length_map, length_positions, hlen]; exact not_not_intro rfl)]
  dsimp only
  rw [dif_neg (Nat.not_lt.mpr hwide), hmatch.zipWith_positions, hmatch.zipWith_positions,
    map_flatMap_mapRows, map_flatMap_mapRows, map_flatMap_mapRows, hrun]
  refine congrArg (·, some cache') ?_
  have hstore : (stepSlots ((layer.deviceCausal E rope hwide).storing cache.format.round)
      (cache.rowAt geometry.blockSize dims.numHeads dims.headDim) chunks).2 =
      cache'.rowAt geometry.blockSize dims.numHeads dims.headDim := hcells.symm
  refine (behindAttention_eq (layer.feedForward.forward_apart E) (h.rows_le hmatch hlimit)).trans
    (congrArg Except.ok ?_)
  refine (zipWith_mapRows fun c p x => ?_).trans (congrArg (fun cells => (chunks.map
    (·.answersFrom ((layer.deviceCausal E rope hwide).storing cache.format.round)
      cells)).flatten) hstore.symm)
  refine congrArg (fun out => behindAttentionRow (layer.postAttentionNorm.forward E)
    (layer.feedForward.forward E) x (layer.attention.output.forward out)) ?_
  refine funext fun i => congrArg E.toF16 ?_
  dsimp only [attendHeads, MlaAttention.heads, mergeHeads]
  rw [attendHead_castLE]
  simp only [List.map_map]
  rfl

end Deepseek

end Rllm
