import Mathlib.Data.Fin.Tuple.Basic
import Rllm.Model.Decoder
import Rllm.Model.Mixtures

/-! # DeepSeek models

The keys and values of a token are expanded from a latent vector, and all heads share
the rotated part of a key. The mask compares positions, so that tokens may be fed in any
chunks.
-/

namespace Rllm

structure DeepseekDims where
  vocabSize : ℕ
  hiddenSize : ℕ
  intermediateSize : ℕ
  numHeads : ℕ
  qkNopeDim : ℕ
  /-- Half the rotated dimension of a head. -/
  ropeHalf : ℕ
  valueDim : ℕ
  /-- The dimension of what keys and values are expanded from. -/
  latentDim : ℕ

namespace DeepseekDims

variable (K : Type) (dims : DeepseekDims)

abbrev qkRopeDim : ℕ := dims.ropeHalf * 2

abbrev headDim : ℕ := dims.qkNopeDim + dims.qkRopeDim

abbrev Row := Fin dims.hiddenSize → K

abbrev Kv := KvRow K dims.numHeads dims.headDim dims.valueDim

abbrev Cache := Option (List (dims.Kv K))

abbrev Logits := Fin dims.vocabSize → K

end DeepseekDims

variable {K : Type} [Field K]

/-- Rotate neighbours against each other. -/
def applyInterleaved {half : ℕ} (r : Rotation K half) (x : Fin (half * 2) → K)
    (i : Fin (half * 2)) : K :=
  let j := i.divNat
  let even := x (finProdFinEquiv (j, 0))
  let odd := x (finProdFinEquiv (j, 1))
  if i.modNat = 0 then even * r.cos j - odd * r.sin j else even * r.sin j + odd * r.cos j

/-! ## Attention -/

/-- A plain projection, or one of low rank. -/
inductive QueryProjection (K : Type) (inFeatures outFeatures : ℕ)
  | plain (projection : Linear K inFeatures outFeatures)
  | lora {rank : ℕ} (a : Linear K inFeatures rank) (norm : RmsNorm K rank)
      (b : Linear K rank outFeatures)

def QueryProjection.forward {inFeatures outFeatures : ℕ} (E : Elementary K) :
    QueryProjection K inFeatures outFeatures → (Fin inFeatures → K) → Fin outFeatures → K
  | plain projection, input => projection.forward input
  | lora a norm b, input => b.forward (norm.forward E (a.forward input))

structure MlaAttention (K : Type) (dims : DeepseekDims) where
  query : QueryProjection K dims.hiddenSize (dims.numHeads * dims.headDim)
  kvA : Linear K dims.hiddenSize (dims.latentDim + dims.qkRopeDim)
  kvANorm : RmsNorm K dims.latentDim
  kvB : Linear K dims.latentDim (dims.numHeads * (dims.qkNopeDim + dims.valueDim))
  output : Linear K (dims.numHeads * dims.valueDim) dims.hiddenSize
  scale : K

namespace MlaAttention

variable {dims : DeepseekDims} (E : Elementary K) (attn : MlaAttention K dims)

def queryRow (r : Rotation K dims.ropeHalf) (x : dims.Row K) (h : Fin dims.numHeads) :
    Fin dims.headDim → K :=
  let query := splitHeads (attn.query.forward E x) h
  Fin.append (fun i => query (Fin.castAdd dims.qkRopeDim i))
    (applyInterleaved r fun i => query (Fin.natAdd dims.qkNopeDim i))

def kvRow (r : Rotation K dims.ropeHalf) (x : dims.Row K) : dims.Kv K :=
  let compressed := attn.kvA.forward x
  let latent := fun i => compressed (Fin.castAdd dims.qkRopeDim i)
  let kRope := fun i => compressed (Fin.natAdd dims.latentDim i)
  let expanded : Fin dims.numHeads → Fin (dims.qkNopeDim + dims.valueDim) → K :=
    splitHeads (attn.kvB.forward (attn.kvANorm.forward E latent))
  { key := fun h => Fin.append (fun i => expanded h (Fin.castAdd dims.valueDim i))
      (applyInterleaved r kRope)
    value := fun h i => expanded h (Fin.natAdd dims.qkNopeDim i) }

variable [LinearOrder K]

def heads (query : Fin dims.numHeads → Fin dims.headDim → K) (rows : List (dims.Kv K))
    (mask : ℕ → WithBot K) : Fin (dims.numHeads * dims.valueDim) → K :=
  mergeHeads fun h =>
    attendHead attn.scale (query h) E (rows.map fun row => (row.key h, row.value h)) mask

theorem heads_causalMask {query : Fin dims.numHeads → Fin dims.headDim → K}
    {rows : List (dims.Kv K)} {i : ℕ} (hi : i < rows.length) :
    attn.heads E query rows (causalMask i) =
      attn.heads E query (rows.take (i + 1)) fun _ => 0 := by
  unfold heads
  refine congrArg mergeHeads (funext fun h => ?_)
  rw [attendHead_causalMask (by rwa [List.length_map]), List.map_take]

/-- Attend from rows to the rows of the cache and to each other. A row sees what is not
behind its position. All layers share the rotations. -/
def forward (rope : RotaryEmbedding K dims.ropeHalf) (positions : List ℕ)
    (hidden : List (dims.Row K)) (cache : dims.Cache K) :
    Except ForwardError (List (dims.Row K)) × dims.Cache K :=
  let given := positions.length
  let tokens := hidden.length
  if given ≠ tokens then
    (.error (.message s!"DeepSeek RoPE received {given} positions for {tokens} tokens"), cache)
  else
    match rope.gatherCache positions with
    | .error e => (.error (.candle e), cache)
    | .ok rotations =>
      let rows := cache.getD [] ++ List.zipWith (attn.kvRow E) rotations hidden
      -- the softmax would go over no columns
      if rows.isEmpty then (.error .panicked, some rows)
      else
        let queries := List.zipWith (attn.queryRow E) rotations hidden
        let output := List.zipWith (fun position query =>
          attn.heads E query rows (causalMask position)) positions queries
        (.ok (output.map attn.output.forward), some rows)

variable {E attn} {rope : RotaryEmbedding K dims.ropeHalf} {past : List (dims.Kv K)}
  {cache : dims.Cache K} {rows : List (dims.Row K)}

theorem forward_eq (hp : ∀ p ∈ List.range' past.length rows.length, rope.Knows p)
    (hpos : 0 < past.length + rows.length) (hcache : cache.getD [] = past) :
    let mem :=
      past ++ rows.mapIdx fun i row => attn.kvRow E (rope.rotation (past.length + i)) row
    attn.forward E rope (List.range' past.length rows.length) rows cache =
      (.ok (rows.mapIdx fun i row => attn.output.forward
        (attn.heads E (attn.queryRow E (rope.rotation (past.length + i)) row)
          (mem.take (past.length + i + 1)) fun _ => 0)), some mem) := by
  intro mem
  have hlen : mem.length = past.length + rows.length := by simp [mem]
  unfold forward RotaryEmbedding.gatherCache
  rw [if_pos hp]
  simp only [List.length_range', ne_eq, not_true_eq_false, ↓reduceIte, hcache, zipWith_map_range']
  change (if mem.isEmpty then _ else _) = _
  have hmem : ¬ mem.isEmpty = true := by
    rw [List.isEmpty_iff, ← List.length_eq_zero_iff]
    omega
  rw [if_neg hmem]
  refine Prod.ext (congrArg Except.ok (List.ext_getElem (by simp) fun i hi hi' => ?_)) rfl
  rw [List.length_mapIdx] at hi'
  simp only [List.getElem_map, List.getElem_zipWith, List.getElem_mapIdx, List.getElem_range',
    Nat.one_mul]
  have hseen : past.length + i < mem.length := by omega
  exact congrArg attn.output.forward (attn.heads_causalMask E hseen)

theorem forward_unknown {positions : List ℕ} (hlen : positions.length = rows.length)
    (hp : ¬ ∀ p ∈ positions, rope.Knows p) :
    attn.forward E rope positions rows cache = (.error (.candle .indexSelect), cache) := by
  unfold forward RotaryEmbedding.gatherCache
  rw [if_neg hp]
  simp [hlen]

theorem forward_nil (hcache : cache.getD [] = []) :
    attn.forward E rope [] [] cache = (.error .panicked, some []) := by
  unfold forward RotaryEmbedding.gatherCache
  simp [hcache]

end MlaAttention

/-! ## Layers -/

/-- What follows the attention: a mixture of experts fits the rows. -/
inductive DeepseekFeedForward (K : Type) [Field K] (dims : DeepseekDims)
  | dense (mlp : LlamaMlp K dims.hiddenSize dims.intermediateSize)
  | denseMoe (mixture : DenseMoe (WithBot K)) (loaded : mixture.Loaded dims.hiddenSize)
  | fp8Moe (mixture : DeepseekV3Moe (WithBot K)) (decode : UInt8 → WithBot K)
      (loaded : mixture.Loaded dims.hiddenSize)

namespace DeepseekFeedForward

variable {dims : DeepseekDims} [LinearOrder K] (E : Elementary K)

def forward : DeepseekFeedForward K dims → List (dims.Row K) →
    Except ForwardError (List (dims.Row K))
  | dense mlp, rows => .ok (rows.map (mlp.forward E))
  | denseMoe mixture _, rows => (overRows (mixture.forward E.moeOps) rows).mapError .message
  | fp8Moe mixture decode _, rows =>
    (overRows (mixture.forward E.moeOps decode) rows).mapError .message

theorem forward_apart (feedForward : DeepseekFeedForward K dims) :
    Apart (feedForward.forward E) ((2 ^ 32 : ℕ) : ℕ∞) := by
  have hone : (1 : ℕ∞) ≤ ((2 ^ 32 : ℕ) : ℕ∞) := Nat.cast_le.mpr Nat.one_le_two_pow
  cases feedForward with
  | dense mlp => exact fun _ _ => rfl
  | denseMoe mixture loaded =>
    obtain ⟨entry, hper⟩ := loaded.perToken E.moeOps_lawful
    exact (hper.apart hone).mapError hone _
  | fp8Moe mixture decode loaded =>
    obtain ⟨entry, hper⟩ := loaded.perToken E.moeOps_lawful decode
    exact (hper.mono le_top).apart hone |>.mapError hone _

end DeepseekFeedForward

structure DeepseekLayer (K : Type) [Field K] (dims : DeepseekDims) where
  inputNorm : RmsNorm K dims.hiddenSize
  postAttentionNorm : RmsNorm K dims.hiddenSize
  attention : MlaAttention K dims
  feedForward : DeepseekFeedForward K dims

namespace DeepseekLayer

variable {dims : DeepseekDims} [LinearOrder K] (E : Elementary K) (layer : DeepseekLayer K dims)

def forward (rope : RotaryEmbedding K dims.ropeHalf) (positions : List ℕ)
    (hidden : List (dims.Row K)) (cache : dims.Cache K) :
    Except ForwardError (List (dims.Row K)) × dims.Cache K :=
  match layer.attention.forward E rope positions (hidden.map (layer.inputNorm.forward E)) cache with
  | (.error e, cache) => (.error e, cache)
  | (.ok attention, cache) =>
    (behindAttention (layer.postAttentionNorm.forward E) (layer.feedForward.forward E) hidden
      attention, cache)

/-- What the layer does to a row, whether or not its rows come at once. -/
def causal (rope : RotaryEmbedding K dims.ropeHalf) : CausalLayer (dims.Row K) (dims.Kv K) where
  memory p x :=
    layer.attention.kvRow E (rope.rotation p) (layer.inputNorm.forward E x)
  answer p x mem :=
    let query :=
      layer.attention.queryRow E (rope.rotation p) (layer.inputNorm.forward E x)
    behindAttentionRow (layer.postAttentionNorm.forward E) (layer.feedForward.forward E) x
      (layer.attention.output.forward (layer.attention.heads E query mem fun _ => 0))

variable {E layer} {rope : RotaryEmbedding K dims.ropeHalf} {past : List (dims.Kv K)}
  {cache : dims.Cache K} {rows : List (dims.Row K)}

theorem forward_eq (hle : rows.length ≤ 2 ^ 32)
    (hp : ∀ p ∈ List.range' past.length rows.length, rope.Knows p)
    (hpos : 0 < past.length + rows.length) (hcache : cache.getD [] = past) :
    layer.forward E rope (List.range' past.length rows.length) rows cache =
      (.ok ((layer.causal E rope).run past rows).1,
        some ((layer.causal E rope).run past rows).2) := by
  have hmap : ∀ {Y : Type} (f : ℕ → dims.Row K → Y),
      (rows.map (layer.inputNorm.forward E)).mapIdx f =
        rows.mapIdx fun i row => f i (layer.inputNorm.forward E row) := fun f =>
    List.ext_getElem (by simp) (by simp)
  have hattn : layer.attention.forward E rope (List.range' past.length (rows.map _).length)
      (rows.map (layer.inputNorm.forward E)) cache = _ :=
    MlaAttention.forward_eq (by rwa [List.length_map]) (by rwa [List.length_map]) hcache
  simp only [List.length_map, hmap] at hattn
  unfold forward
  rw [hattn]
  dsimp only
  rw [behindAttention_eq (layer.feedForward.forward_apart E) (Nat.cast_le.mpr hle)]
  refine Prod.ext (congrArg Except.ok (List.ext_getElem (by simp) fun i hi hi' => ?_)) rfl
  simp only [CausalLayer.run, CausalLayer.answers, List.getElem_zipWith, List.getElem_mapIdx]
  rfl

theorem forward_unknown {positions : List ℕ} (hlen : positions.length = rows.length)
    (hp : ¬ ∀ p ∈ positions, rope.Knows p) :
    layer.forward E rope positions rows cache = (.error (.candle .indexSelect), cache) := by
  unfold forward
  rw [MlaAttention.forward_unknown (by rwa [List.length_map]) hp]

theorem forward_nil (hcache : cache.getD [] = []) :
    layer.forward E rope [] [] cache = (.error .panicked, some []) := by
  unfold forward
  rw [List.map_nil, MlaAttention.forward_nil hcache]

end DeepseekLayer

/-! ## Models -/

/-- An exponential without values that need rounding. -/
def flatElementary : Elementary ℚ := ⟨fun _ => 1, id, id⟩

structure DeepseekForCausalLM (K : Type) [Field K] (dims : DeepseekDims) where
  embedding : Fin dims.vocabSize → dims.Row K
  layers : List (DeepseekLayer K dims)
  norm : RmsNorm K dims.hiddenSize
  lmHead : Linear K dims.hiddenSize dims.vocabSize
  rope : RotaryEmbedding K dims.ropeHalf

namespace DeepseekForCausalLM

variable {dims : DeepseekDims} (m : DeepseekForCausalLM K dims)

/-- The model has rows for the tokens and rotations for their positions. -/
abbrev Knows : ℕ → List Token → Prop := Fits dims.vocabSize (m.layers ≠ []) (Known m.rope)

/-- The attention can run so many rows from a position on, if there is something to see. -/
def Runs (start n : ℕ) : Prop := Known m.rope start n ∧ 0 < start + n

/-- The model can run tokens from a position on. -/
abbrev Runnable : ℕ → List Token → Prop := Fits dims.vocabSize (m.layers ≠ []) m.Runs

variable {m} {start : ℕ} {ids : List Token}

theorem runnable_iff (hpos : 0 < start + ids.length) :
    m.Runnable start ids ↔ m.Knows start ids := by
  unfold Runnable Knows Fits Runs
  tauto

theorem runnable_snoc {next : Token} (hids : m.Runnable 0 ids) :
    m.Runnable 0 (ids ++ [next]) ↔ m.Runnable ids.length [next] := by
  have hknows : m.Knows 0 ids := ⟨hids.1, fun h => (hids.2 h).1⟩
  rw [runnable_iff (by simp), runnable_iff (by simp), Knows, fits_known_append, Nat.zero_add]
  exact and_iff_right hknows

theorem feedOk_iff {chunk : List Token} {chunks : List (List Token)}
    (hpos : 0 < start + chunk.length) :
    FeedOk m.Runnable start (chunk :: chunks) ↔ m.Runnable start (chunk ++ chunks.flatten) := by
  have hall : FeedOk m.Runnable start (chunk :: chunks) ↔
      FeedOk m.Knows start (chunk :: chunks) := by
    induction chunks generalizing start chunk with
    | nil => simp only [FeedOk, runnable_iff hpos]
    | cons next chunks ih =>
      have hnext : 0 < start + chunk.length + next.length := by omega
      rw [FeedOk, ih hnext, runnable_iff hpos]
      rfl
  rw [hall, runnable_iff (by rw [List.length_append]; omega)]
  exact feedOk_known_iff

variable (m) (E : Elementary K) [LinearOrder K]

def forward (inputIds : List Token) (positions : List ℕ) (caches : List (dims.Cache K)) :
    Except ForwardError (List (dims.Logits K)) × List (dims.Cache K) :=
  if caches.length ≠ m.layers.length then
    (.error (.message "DeepSeek cache layer count does not match the decoder"), caches)
  else
    forwardTokens m.embedding (fun index e => .context s!"DeepSeek layer {index}" e)
      (m.layers.map fun layer => layer.forward E m.rope positions)
      (fun x => m.lmHead.forward (m.norm.forward E x)) inputIds caches

def generate (prompt : List Token) (maxTokens : ℕ) : Except ForwardError (List Token) :=
  if prompt = [] then .error (.message "cannot generate from an empty prompt")
  else
    match oneShot (m.forward E) m.layers.length prompt with
    | (.error e, _) => .error e
    | (.ok logits, cache) =>
      generateLoop (m.forward E) argmax (maxTokens - prompt.length) prompt logits cache

theorem runsStack : RunsStack (m.forward E) (m.layers.map fun layer => layer.causal E m.rope)
    (embedRow m.embedding) (fun x => m.lmHead.forward (m.norm.forward E x)) m.Runnable
    ((2 ^ 32 : ℕ) : ℕ∞) where
  forward_eq_ok_iff {caches start ids} hle hlen hcaches logits caches' := by
    rw [List.length_map] at hlen
    unfold forward
    rw [if_neg (not_not_intro hlen)]
    refine (RunsStack.of_layers _ _ (fun layer _ rows cache hle hruns => ?_)
      fun layer _ rows cache _ hruns => ?_).forward_eq_ok_iff hle (by simpa using hlen) hcaches
        _ _
    · exact layer.forward_eq (Nat.cast_le.mp hle) hruns.1 hruns.2 rfl
    · by_cases hknown : Known m.rope (cache.getD []).length rows.length
      · obtain ⟨hcache, hrows⟩ := nil_of_not_pos fun hpos => hruns ⟨hknown, hpos⟩
        rw [hrows]
        exact ⟨_, congrArg Prod.fst (layer.forward_nil hcache)⟩
      · rw [layer.forward_unknown (List.length_range' ..) hknown]
        exact ⟨_, rfl⟩

variable {m E}

/-- All chunks give the logits and caches of all tokens at once. -/
theorem feed_eq_oneShot {chunk : List Token} {chunks : List (List Token)}
    (hchunks : [] ∉ chunk :: chunks) (hle : (chunk ++ chunks.flatten).length ≤ 2 ^ 32)
    {logits : List (dims.Logits K)} {caches : List (dims.Cache K)} :
    feed (m.forward E) (List.replicate m.layers.length none) 0 (chunk :: chunks) =
        (.ok logits, caches) ↔
      oneShot (m.forward E) m.layers.length (chunk ++ chunks.flatten) = (.ok logits, caches) := by
  have hlen : (m.layers.map fun layer => layer.causal E m.rope).length = m.layers.length :=
    List.length_map ..
  have hlimit : ((chunk ++ chunks.flatten).length : ℕ∞) ≤ ((2 ^ 32 : ℕ) : ℕ∞) :=
    Nat.cast_le.mpr hle
  have hpos : 0 < 0 + chunk.length := by
    rw [Nat.zero_add]
    exact List.length_pos_iff.mpr fun h => hchunks (h ▸ List.mem_cons_self)
  rw [← hlen, (m.runsStack E).feed_cons_iff hlimit, (m.runsStack E).oneShot_iff hlimit,
    feedOk_iff hpos]

/-- Generation gives the tokens of a recomputation of the whole text for every token. -/
theorem generate_iff_of_oneShot {prompt tokens : List Token} {maxTokens : ℕ}
    (hprompt_le : prompt.length ≤ 2 ^ 32) (hmax : maxTokens ≤ 2 ^ 32) :
    m.generate E prompt maxTokens = .ok tokens ↔
      prompt ≠ [] ∧
        (∃ logits caches, oneShot (m.forward E) m.layers.length prompt = (.ok logits, caches)) ∧
        regenerate (m.forward E) argmax m.layers.length (maxTokens - prompt.length) prompt =
          .ok tokens := by
  have hlen : (m.layers.map fun layer => layer.causal E m.rope).length = m.layers.length :=
    List.length_map ..
  unfold generate
  by_cases hprompt : prompt = []
  · simp [hprompt]
  rw [if_neg hprompt, ← hlen]
  rcases hone : oneShot (m.forward E) _ prompt with ⟨e | logits, caches⟩
  · simp
  · dsimp only
    have hlimit : ((prompt.length + (maxTokens - prompt.length) : ℕ) : ℕ∞) ≤
        ((2 ^ 32 : ℕ) : ℕ∞) := Nat.cast_le.mpr (by omega)
    rw [(m.runsStack E).generateLoop_iff (fun _ _ => runnable_snoc) hone rfl hlimit]
    simp [hprompt]

/-- Three experts, of which each token takes two, and a shared one. -/
def toyDenseMoe : DenseMoe (WithBot ℚ) := { scalers with gateWeight := [[0], [1], [(2 : ℚ)]] }

def toyFp8Moe : DeepseekV3Moe (WithBot ℚ) :=
  { stackedMoe with router := ⟨[[0], [1], [(2 : ℚ)]], [0, 0, 0], 2, 1, 1, true, .fin 1⟩ }

theorem toyDenseMoe_loaded : toyDenseMoe.Loaded 1 where
  width_pos := Nat.one_pos
  gate_length := rfl
  experts_fit := by
    intro mlp hmlp
    obtain ⟨e, -, rfl⟩ := List.mem_map.mp hmlp
    exact ⟨fun _ _ => List.length_map _, fun _ _ hx hy => hy.trans hx⟩
  experts_le := by decide
  shared_fits := by
    rintro _ ⟨⟩
    exact ⟨fun _ _ => rfl, fun _ _ hx hy => hy.trans hx⟩
  topK_le := by decide
  groups := by rintro ⟨⟩

theorem toyFp8Moe_loaded : toyFp8Moe.Loaded 1 where
  width_pos := Nat.one_pos
  router_new := rfl
  built := ⟨1, 1, stackedScalers_built, stackedScalers_built, stackedScalers_built,
    (fun _ h => by cases h), (fun _ h => by cases h), (fun _ h => by cases h)⟩
  experts_le := by decide

/-- A model of two layers of experts, whose values have half the dimension of its keys. -/
def toy : DeepseekForCausalLM ℚ ⟨2, 1, 1, 1, 0, 1, 1, 1⟩ where
  embedding id _ := id
  layers := [DeepseekFeedForward.denseMoe toyDenseMoe toyDenseMoe_loaded,
    .fp8Moe toyFp8Moe (fun byte => ((byte.toNat : ℚ) : WithBot ℚ)) toyFp8Moe_loaded].map
      fun feedForward => {
        inputNorm := ⟨fun _ => 1, 1⟩
        postAttentionNorm := ⟨fun _ => 1, 1⟩
        attention := {
          query := .plain ⟨fun _ _ => 1, none⟩
          kvA := ⟨fun _ _ => 1, none⟩
          kvANorm := ⟨fun _ => 1, 1⟩
          kvB := ⟨fun _ _ => 1, none⟩
          output := ⟨fun _ _ => 1, none⟩
          scale := 1 }
        feedForward }
  norm := ⟨fun _ => 1, 1⟩
  lmHead := ⟨fun id _ => id, none⟩
  rope := ⟨4, fun _ => ⟨fun _ => 1, fun _ => 0⟩⟩

theorem feed_toy_chunks : ∃ logits caches,
    feed (toy.forward flatElementary) [none, none] 0 [[0, 1], [1, 0]] = (.ok logits, caches) := by
  have hruns : toy.Runnable 0 [0, 1, 1, 0] :=
    (runnable_iff (by decide)).mpr ⟨by simp, fun _ => by unfold Known; decide⟩
  have hle : (([0, 1, 1, 0] : List Token).length : ℕ∞) ≤ ((2 ^ 32 : ℕ) : ℕ∞) :=
    Nat.cast_le.mpr (by decide)
  have hone := ((toy.runsStack flatElementary).oneShot_iff hle).mpr ⟨hruns, rfl, rfl⟩
  exact ⟨_, _, (feed_eq_oneShot (by decide) (by decide)).mpr hone⟩

end DeepseekForCausalLM

end Rllm
