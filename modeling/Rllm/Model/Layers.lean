import Mathlib.Algebra.BigOperators.Fin
import Mathlib.Logic.Equiv.Fin.Basic
import Rllm.Library.CausalLayers
import Rllm.Library.Softmax

/-! # The layers of a decoder

The layers compute row by row, a row being the vector of one token, but for
attention, which keeps the keys and values of earlier rows in a cache. Numbers are
exact; a masked logit is `-∞`.
-/

namespace Rllm

/-- The functions that a model takes beside the operations of its field. -/
structure Elementary (K : Type) where
  exp : K → K
  sqrt : K → K
  /-- What 16 bits hold of a number. -/
  toF16 : K → K

/-- What goes wrong in the tensors of a model. -/
inductive CandleError
  | indexSelect
  | shapeMismatch
  deriving DecidableEq

/-- What a forward pass reports, or the panic that ends it. -/
inductive ForwardError
  | candle (e : CandleError)
  | context (text : String) (cause : ForwardError)
  | message (text : String)
  | panicked
  deriving DecidableEq

variable {K : Type} [Field K]

namespace Elementary

variable (E : Elementary K)

def silu (x : K) : K := x / (1 + E.exp (-x))

end Elementary

/-! ## Row by row -/

structure RmsNorm (K : Type) (n : ℕ) where
  weight : Fin n → K
  eps : K

def RmsNorm.forward {n : ℕ} (E : Elementary K) (norm : RmsNorm K n) (x : Fin n → K) : Fin n → K :=
  let variance := (∑ i, x i ^ 2) / n + norm.eps
  fun i => x i / E.sqrt variance * norm.weight i

/-- Normalization that only some models have. -/
def RmsNorm.forward? {n : ℕ} (E : Elementary K) (norm : Option (RmsNorm K n)) (x : Fin n → K) :
    Fin n → K :=
  match norm with
  | some norm => norm.forward E x
  | none => x

/-- A linear layer, whose weight may have been dequantized. -/
structure Linear (K : Type) (inFeatures outFeatures : ℕ) where
  weight : Fin outFeatures → Fin inFeatures → K
  bias : Option (Fin outFeatures → K) := none

def Linear.forward {inFeatures outFeatures : ℕ} (linear : Linear K inFeatures outFeatures)
    (x : Fin inFeatures → K) : Fin outFeatures → K :=
  let output := fun o => ∑ i, x i * linear.weight o i
  match linear.bias with
  | some bias => fun o => output o + bias o
  | none => output

structure LlamaMlp (K : Type) (hidden inner : ℕ) where
  gateProj : Linear K hidden inner
  upProj : Linear K hidden inner
  downProj : Linear K inner hidden

def LlamaMlp.forward {hidden inner : ℕ} (E : Elementary K) (mlp : LlamaMlp K hidden inner)
    (x : Fin hidden → K) : Fin hidden → K :=
  let gate := mlp.gateProj.forward x
  let up := mlp.upProj.forward x
  mlp.downProj.forward fun i => E.silu (gate i) * up i

/-! ## Heads -/

/-- A row of all heads, head by head. -/
def splitHeads {heads dim : ℕ} (x : Fin (heads * dim) → K) (h : Fin heads) (d : Fin dim) : K :=
  x (finProdFinEquiv (h, d))

def mergeHeads {heads dim : ℕ} (x : Fin heads → Fin dim → K) (i : Fin (heads * dim)) : K :=
  x i.divNat i.modNat

/-! ## Rotary embeddings -/

/-- A cosine and a sine for every pair of dimensions. -/
structure Rotation (K : Type) (half : ℕ) where
  cos : Fin half → K
  sin : Fin half → K

/-- The rotations of the positions that a model knows. -/
structure RotaryEmbedding (K : Type) (half : ℕ) where
  maxSeqLen : ℕ
  cache : ℕ → Rotation K half

/-- Rotate the two halves of a head against each other. -/
def applyRotaryEmb {half : ℕ} (r : Rotation K half) (x : Fin (half + half) → K) :
    Fin (half + half) → K :=
  let x₁ := fun i => x (Fin.castAdd half i)
  let x₂ := fun i => x (Fin.natAdd half i)
  Fin.append (fun i => x₁ i * r.cos i + -x₂ i * r.sin i) (fun i => x₂ i * r.cos i + x₁ i * r.sin i)

namespace RotaryEmbedding

variable {half : ℕ} (rope : RotaryEmbedding K half)

/-- A position is a `u32` value in the index. -/
def rotation (p : ℕ) : Rotation K half := rope.cache (p % 2 ^ 32)

def Knows (p : ℕ) : Prop := p % 2 ^ 32 < rope.maxSeqLen

instance (p : ℕ) : Decidable (rope.Knows p) := inferInstanceAs (Decidable (_ < _))

def gatherCache (positions : List ℕ) : Except CandleError (List (Rotation K half)) :=
  if ∀ p ∈ positions, rope.Knows p then .ok (positions.map rope.rotation) else .error .indexSelect

/-- A rotation for each of `n` rows. A single one serves them all. -/
def broadcast (rotations : List (Rotation K half)) (n : ℕ) :
    Except CandleError (List (Rotation K half)) :=
  match rotations with
  | [rotation] => .ok (List.replicate n rotation)
  | _ => if rotations.length = n then .ok rotations else .error .shapeMismatch

omit [Field K] in
theorem broadcast_of_length {rotations : List (Rotation K half)} {n : ℕ}
    (h : rotations.length = n) : broadcast rotations n = .ok rotations := by
  unfold broadcast
  split
  · subst h
    rfl
  · exact if_pos h

end RotaryEmbedding

/-! ## Attention -/

/-- The keys and values of one position, head by head. -/
structure KvRow (K : Type) (numHeads keyDim valueDim : ℕ) where
  key : Fin numHeads → Fin keyDim → K
  value : Fin numHeads → Fin valueDim → K

section Attend

variable {keyDim valueDim : ℕ} (scale : K) (query : Fin keyDim → K)

/-- The logits of a query with keys, under a mask. -/
def attnWeights (keys : List (Fin keyDim → K)) (mask : ℕ → WithBot K) : List (WithBot K) :=
  keys.mapIdx fun j key => (((∑ i, query i * key i) * scale : K) : WithBot K) + mask j

/-- Masks what comes behind a row. -/
def causalMask (i j : ℕ) : WithBot K := if i < j then ⊥ else 0

variable {scale query}

theorem attnWeights_causalMask {keys : List (Fin keyDim → K)} {i : ℕ} (hi : i < keys.length) :
    attnWeights scale query keys (causalMask i) =
      attnWeights scale query (keys.take (i + 1)) (fun _ => 0) ++
        List.replicate (keys.length - (i + 1)) ⊥ := by
  have hlen : (keys.take (i + 1)).length = i + 1 := by
    rw [List.length_take]
    omega
  unfold attnWeights
  conv_lhs => rw [← List.take_append_drop (i + 1) keys]
  rw [List.mapIdx_append]
  congr 1
  · refine List.mapIdx_eq_mapIdx_iff.mpr fun j hj => ?_
    rw [causalMask, if_neg (by omega)]
  · rw [← List.length_drop]
    refine List.eq_replicate_iff.mpr ⟨List.length_mapIdx, fun x hx => ?_⟩
    obtain ⟨j, -, rfl⟩ := List.mem_mapIdx.mp hx
    rw [causalMask, if_pos (by omega), WithBot.add_bot]

variable [LinearOrder K]

variable (scale query) in
/-- What a head makes of keys and values under a mask. -/
def attendHead (E : Elementary K) (rows : List ((Fin keyDim → K) × (Fin valueDim → K)))
    (mask : ℕ → WithBot K) (d : Fin valueDim) : K :=
  let weights := Softmax.weights E.exp (attnWeights scale query (rows.map Prod.fst) mask)
  (List.zipWith (fun weight row => weight * row.2 d) weights rows).sum

theorem attendHead_eq_average {E : Elementary K}
    {rows : List ((Fin keyDim → K) × (Fin valueDim → K))} {d : Fin valueDim} :
    attendHead scale query E rows (fun _ => 0) d =
      Softmax.average E.exp (rows.map fun row =>
        ((((∑ i, query i * row.1 i) * scale : K) : WithBot K), row.2 d)) := by
  have hweights : attnWeights scale query (rows.map Prod.fst) (fun _ => 0) =
      rows.map fun row => (((∑ i, query i * row.1 i) * scale : K) : WithBot K) :=
    List.ext_getElem (by simp [attnWeights]) (by simp [attnWeights])
  rw [Softmax.average, attendHead, hweights, List.map_map, List.map_map, List.zipWith_map_right]
  rfl

/-- The causal mask leaves the rows up to the masked one. -/
theorem attendHead_causalMask {E : Elementary K}
    {rows : List ((Fin keyDim → K) × (Fin valueDim → K))} {i : ℕ} (hi : i < rows.length) :
    attendHead scale query E rows (causalMask i) =
      attendHead scale query E (rows.take (i + 1)) fun _ => 0 := by
  obtain ⟨seen, rest, rfl, hseen⟩ : ∃ seen rest, rows = seen ++ rest ∧ seen.length = i + 1 :=
    ⟨_, _, (List.take_append_drop (i + 1) rows).symm, by rw [List.length_take]; omega⟩
  ext d
  have hzero : ∀ n, (List.zipWith (fun weight row => weight * row.2 d)
      (List.replicate n 0) rest).sum = 0 := by
    intro n
    refine List.sum_eq_zero fun x hx => ?_
    obtain ⟨j, hj, rfl⟩ := List.mem_iff_getElem.mp hx
    simp
  have hlen : (Softmax.weights E.exp (attnWeights scale query (seen.map Prod.fst)
      fun _ => 0)).length = seen.length := by
    simp [attnWeights]
  unfold attendHead
  rw [attnWeights_causalMask (by rwa [List.length_map]), ← List.map_take,
    List.take_left' hseen]
  simp only [Softmax.weights_append_replicate_bot]
  rw [List.zipWith_append hlen, List.sum_append, hzero, add_zero]

end Attend

variable [LinearOrder K]

structure LlamaDims where
  vocabSize : ℕ
  hiddenSize : ℕ
  intermediateSize : ℕ
  numKvHeads : ℕ
  /-- How many query heads share the keys and values of a head. -/
  nRep : ℕ
  /-- Half the dimension of a head. -/
  half : ℕ

namespace LlamaDims

variable (dims : LlamaDims)

abbrev numHeads : ℕ := dims.numKvHeads * dims.nRep

abbrev headDim : ℕ := dims.half + dims.half

end LlamaDims

structure LlamaAttention (K : Type) (dims : LlamaDims) where
  qProj : Linear K dims.hiddenSize (dims.numHeads * dims.headDim)
  kProj : Linear K dims.hiddenSize (dims.numKvHeads * dims.headDim)
  vProj : Linear K dims.hiddenSize (dims.numKvHeads * dims.headDim)
  oProj : Linear K (dims.numHeads * dims.headDim) dims.hiddenSize
  qNorm : Option (RmsNorm K dims.headDim) := none
  kNorm : Option (RmsNorm K dims.headDim) := none

abbrev LlamaDims.Row (K : Type) (dims : LlamaDims) := Fin dims.hiddenSize → K

abbrev LlamaDims.Kv (K : Type) (dims : LlamaDims) :=
  KvRow K dims.numKvHeads dims.headDim dims.headDim

namespace LlamaAttention

variable {dims : LlamaDims} (E : Elementary K) (attn : LlamaAttention K dims)

/-- The query of a row, rotated. -/
def query (r : Rotation K dims.half) (x : dims.Row K) (h : Fin dims.numHeads) :
    Fin dims.headDim → K :=
  applyRotaryEmb r (RmsNorm.forward? E attn.qNorm (splitHeads (attn.qProj.forward x) h))

/-- The keys of a row, rotated, and its values. -/
def kvRow (r : Rotation K dims.half) (x : dims.Row K) : dims.Kv K where
  key h := applyRotaryEmb r (RmsNorm.forward? E attn.kNorm (splitHeads (attn.kProj.forward x) h))
  value := splitHeads (attn.vProj.forward x)

/-- The heads of a row. Each query head reads the keys and values that it shares. -/
def heads (query : Fin dims.numHeads → Fin dims.headDim → K) (rows : List (dims.Kv K))
    (mask : ℕ → WithBot K) : Fin (dims.numHeads * dims.headDim) → K :=
  let scale := 1 / E.sqrt dims.headDim
  mergeHeads fun h =>
    attendHead scale (query h) E (rows.map fun row => (row.key h.divNat, row.value h.divNat)) mask

theorem heads_causalMask {query : Fin dims.numHeads → Fin dims.headDim → K}
    {rows : List (dims.Kv K)} {i : ℕ} (hi : i < rows.length) :
    heads E query rows (causalMask i) = heads E query (rows.take (i + 1)) fun _ => 0 := by
  unfold heads
  refine congrArg mergeHeads (funext fun h => ?_)
  rw [attendHead_causalMask (by rwa [List.length_map]), List.map_take]

/-- Attend from rows to the rows of the cache and to each other. The cache is updated
before the mask is added, which has a row and a column for each new row. One row
at several positions fails; the keys that it would leave in the cache are not modelled. -/
def forward (rope : RotaryEmbedding K dims.half) (positions : List ℕ)
    (hiddenStates : List (dims.Row K)) (kvCache : Option (List (dims.Kv K))) :
    Except ForwardError (List (dims.Row K)) × Option (List (dims.Kv K)) :=
  match rope.gatherCache positions with
  | .error e => (.error (.candle e), kvCache)
  | .ok rotations =>
    match RotaryEmbedding.broadcast rotations hiddenStates.length with
    | .error e => (.error (.candle e), kvCache)
    | .ok rotations =>
      let new := List.zipWith (attn.kvRow E) rotations hiddenStates
      let rows := kvCache.getD [] ++ new
      let seqLen := hiddenStates.length
      if 1 < seqLen ∧ rows.length ≠ seqLen then
        (.error (.candle .shapeMismatch), some rows)
      -- the softmax would go over no columns
      else if rows.isEmpty then (.error .panicked, some rows)
      else
        let queries := List.zipWith (attn.query E) rotations hiddenStates
        let attnOutput := queries.mapIdx fun i query =>
          heads E query rows fun j => if 1 < seqLen then causalMask i j else 0
        (.ok (attnOutput.map attn.oProj.forward), some rows)

variable {E attn} {rope : RotaryEmbedding K dims.half} {past : List (dims.Kv K)}
  {cache : Option (List (dims.Kv K))} {rows : List (dims.Row K)}

theorem forward_eq (hp : ∀ p ∈ List.range' past.length rows.length, rope.Knows p)
    (hpos : 0 < past.length + rows.length) (hcache : cache.getD [] = past) :
    let mem := past ++ rows.mapIdx fun i row => attn.kvRow E (rope.rotation (past.length + i)) row
    attn.forward E rope (List.range' past.length rows.length) rows cache =
      (if 1 < rows.length ∧ past ≠ [] then .error (.candle .shapeMismatch)
        else .ok (rows.mapIdx fun i row => attn.oProj.forward
          (heads E (attn.query E (rope.rotation (past.length + i)) row)
            (mem.take (past.length + i + 1)) fun _ => 0)), some mem) := by
  intro mem
  have hlen : mem.length = past.length + rows.length := by simp [mem]
  unfold forward RotaryEmbedding.gatherCache
  rw [if_pos hp]
  dsimp only
  rw [RotaryEmbedding.broadcast_of_length (by rw [List.length_map, List.length_range'])]
  simp only [hcache, zipWith_map_range']
  have hmem : ¬ mem.isEmpty = true := by
    rw [List.isEmpty_iff, ← List.length_eq_zero_iff]
    omega
  change (if 1 < rows.length ∧ mem.length ≠ rows.length then _
    else if mem.isEmpty then _ else _) = _
  rw [if_neg hmem]
  have hcond : 1 < rows.length ∧ mem.length ≠ rows.length ↔ 1 < rows.length ∧ past ≠ [] := by
    rw [hlen, ← List.length_pos_iff]
    omega
  simp only [hcond]
  split
  · rfl
  · rename_i hc
    refine Prod.ext (congrArg Except.ok ?_) rfl
    refine List.ext_getElem (by simp) fun i hi hi' => ?_
    rw [List.length_mapIdx] at hi'
    simp only [List.getElem_map, List.getElem_mapIdx]
    refine congrArg attn.oProj.forward ?_
    by_cases hseq : 1 < rows.length
    · simp only [hseq, ↓reduceIte]
      obtain rfl : past = [] := by
        by_contra h
        exact hc ⟨hseq, h⟩
      have hi'' : i < mem.length := by omega
      refine (heads_causalMask E hi'').trans ?_
      simp only [List.length_nil, Nat.zero_add]
    · simp only [hseq, ↓reduceIte]
      rw [List.take_of_length_le (by omega)]

theorem forward_nil (hcache : cache.getD [] = []) :
    attn.forward E rope [] [] cache = (.error .panicked, some []) := by
  unfold forward RotaryEmbedding.gatherCache
  simp [hcache, RotaryEmbedding.broadcast]

end LlamaAttention

/-! ## Layers -/

section Residual

variable {X : Type} [Add X] (norm : X → X) (mlp : List X → Except ForwardError (List X))

/-- The part of a layer behind the attention, with both residuals. -/
def behindAttention (residual attention : List X) : Except ForwardError (List X) := do
  let hiddenStates := List.zipWith (· + ·) residual attention
  let output ← mlp (hiddenStates.map norm)
  pure (List.zipWith (· + ·) hiddenStates output)

/-- The part of a layer behind the attention, for a row that comes alone. -/
def behindAttentionRow (residual attention : X) : X :=
  let hiddenStates := residual + attention
  hiddenStates + lone mlp (norm hiddenStates)

variable {norm mlp} {limit : ℕ∞} {residual attention : List X}

omit K [Field K] [LinearOrder K] in
theorem behindAttention_eq (h : Apart mlp limit) (hle : (residual.length : ℕ∞) ≤ limit) :
    behindAttention norm mlp residual attention =
      .ok (List.zipWith (behindAttentionRow norm mlp) residual attention) := by
  have hrows : (((List.zipWith (· + ·) residual attention).map norm).length : ℕ∞) ≤ limit := by
    refine le_trans (Nat.cast_le.mpr ?_) hle
    rw [List.length_map, List.length_zipWith]
    exact Nat.min_le_left _ _
  unfold behindAttention
  dsimp only
  rw [h _ hrows]
  refine congrArg Except.ok (List.ext_getElem (by simp) fun i hi hi' => ?_)
  simp only [List.getElem_zipWith, List.getElem_map, behindAttentionRow]

end Residual

/-- A layer of a Llama or a Qwen model. These differ in what follows the attention, which
keeps up to `limit` rows apart. -/
structure DecoderLayer (K : Type) (dims : LlamaDims) (limit : ℕ∞) where
  selfAttn : LlamaAttention K dims
  mlp : List (dims.Row K) → Except ForwardError (List (dims.Row K))
  mlp_apart : Apart mlp limit
  inputLayernorm : RmsNorm K dims.hiddenSize
  postAttentionLayernorm : RmsNorm K dims.hiddenSize

namespace DecoderLayer

variable {dims : LlamaDims} {limit : ℕ∞} (E : Elementary K) (layer : DecoderLayer K dims limit)

def forward (rope : RotaryEmbedding K dims.half) (positions : List ℕ)
    (hiddenStates : List (dims.Row K)) (kvCache : Option (List (dims.Kv K))) :
    Except ForwardError (List (dims.Row K)) × Option (List (dims.Kv K)) :=
  match layer.selfAttn.forward E rope positions
      (hiddenStates.map (layer.inputLayernorm.forward E)) kvCache with
  | (.error e, kvCache) => (.error e, kvCache)
  | (.ok attention, kvCache) =>
    (behindAttention (layer.postAttentionLayernorm.forward E) layer.mlp hiddenStates attention,
      kvCache)

/-- What the layer does to a row, whether or not its rows come at once. -/
def causal (rope : RotaryEmbedding K dims.half) : CausalLayer (dims.Row K) (dims.Kv K) where
  memory p x :=
    layer.selfAttn.kvRow E (rope.rotation p) (layer.inputLayernorm.forward E x)
  answer p x mem :=
    let query := layer.selfAttn.query E (rope.rotation p) (layer.inputLayernorm.forward E x)
    behindAttentionRow (layer.postAttentionLayernorm.forward E) layer.mlp x
      (layer.selfAttn.oProj.forward (LlamaAttention.heads E query mem fun _ => 0))

variable {E layer} {rope : RotaryEmbedding K dims.half} {past : List (dims.Kv K)}
  {cache : Option (List (dims.Kv K))} {rows : List (dims.Row K)}

theorem forward_unknown {positions : List ℕ} (hp : ¬ ∀ p ∈ positions, rope.Knows p) :
    layer.forward E rope positions rows cache = (.error (.candle .indexSelect), cache) := by
  unfold forward LlamaAttention.forward RotaryEmbedding.gatherCache
  rw [if_neg hp]

theorem forward_nil (hcache : cache.getD [] = []) :
    layer.forward E rope [] [] cache = (.error .panicked, some []) := by
  unfold forward
  rw [List.map_nil, LlamaAttention.forward_nil hcache]

/-- Several rows behind others get a mask of the wrong shape. -/
theorem forward_eq (hle : (rows.length : ℕ∞) ≤ limit)
    (hp : ∀ p ∈ List.range' past.length rows.length, rope.Knows p)
    (hpos : 0 < past.length + rows.length) (hcache : cache.getD [] = past) :
    layer.forward E rope (List.range' past.length rows.length) rows cache =
      (if 1 < rows.length ∧ past ≠ [] then .error (.candle .shapeMismatch)
        else .ok ((layer.causal E rope).run past rows).1,
        some ((layer.causal E rope).run past rows).2) := by
  have hmap : ∀ {Y : Type} (f : ℕ → dims.Row K → Y),
      (rows.map (layer.inputLayernorm.forward E)).mapIdx f =
        rows.mapIdx fun i row => f i (layer.inputLayernorm.forward E row) := fun f =>
    List.ext_getElem (by simp) (by simp)
  have hattn : layer.selfAttn.forward E rope (List.range' past.length (rows.map _).length)
      (rows.map (layer.inputLayernorm.forward E)) cache = _ :=
    LlamaAttention.forward_eq (by rwa [List.length_map]) (by rwa [List.length_map]) hcache
  simp only [List.length_map, hmap] at hattn
  unfold forward
  rw [hattn]
  by_cases hc : 1 < rows.length ∧ past ≠ []
  · rw [if_pos hc, if_pos hc]
    rfl
  · rw [if_neg hc, if_neg hc]
    dsimp only
    rw [behindAttention_eq layer.mlp_apart hle]
    refine Prod.ext (congrArg Except.ok (List.ext_getElem (by simp) fun i hi hi' => ?_)) rfl
    simp only [CausalLayer.run, CausalLayer.answers, List.getElem_zipWith, List.getElem_mapIdx]
    rfl

end DecoderLayer

structure LlamaDecoderLayer (K : Type) (dims : LlamaDims) where
  selfAttn : LlamaAttention K dims
  mlp : LlamaMlp K dims.hiddenSize dims.intermediateSize
  inputLayernorm : RmsNorm K dims.hiddenSize
  postAttentionLayernorm : RmsNorm K dims.hiddenSize

def LlamaDecoderLayer.toDecoderLayer {dims : LlamaDims} (E : Elementary K)
    (layer : LlamaDecoderLayer K dims) : DecoderLayer K dims ⊤ where
  selfAttn := layer.selfAttn
  mlp rows := .ok (rows.map (layer.mlp.forward E))
  mlp_apart _ _ := rfl
  inputLayernorm := layer.inputLayernorm
  postAttentionLayernorm := layer.postAttentionLayernorm

end Rllm
