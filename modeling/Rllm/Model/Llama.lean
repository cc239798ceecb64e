import Mathlib.Algebra.Order.Ring.Rat
import Mathlib.Algebra.Field.Rat
import Rllm.Model.Decoder
import Rllm.Model.Mixtures

/-! # Llama and Qwen models

Both share their attention, whose mask has room for the new rows only: several tokens
may be fed at once in the beginning, but one by one afterwards.
-/

namespace Rllm

variable {K : Type} {dims : LlamaDims}

/-- The cache of a layer, if there is one yet. -/
abbrev LlamaDims.Cache (K : Type) (dims : LlamaDims) := Option (List (dims.Kv K))

abbrev LlamaDims.Logits (K : Type) (dims : LlamaDims) := Fin dims.vocabSize → K

/-- What the models have in common. -/
structure CausalDecoder (K : Type) [Field K] [LinearOrder K] (dims : LlamaDims) (limit : ℕ∞) where
  embedTokens : Fin dims.vocabSize → dims.Row K
  layers : List (DecoderLayer K dims limit)
  norm : RmsNorm K dims.hiddenSize
  lmHead : Linear K dims.hiddenSize dims.vocabSize
  rope : RotaryEmbedding K dims.half

namespace CausalDecoder

variable [Field K] [LinearOrder K] {limit : ℕ∞} (m : CausalDecoder K dims limit)

/-- The attention can run so many rows from a position on, if there is something to see. -/
def Runs (start n : ℕ) : Prop := Known m.rope start n ∧ (n ≤ 1 ∨ start = 0) ∧ 0 < start + n

/-- The model can run tokens from a position on. -/
abbrev Runnable : ℕ → List Token → Prop := Fits dims.vocabSize (m.layers ≠ []) m.Runs

/-- The model has rows for the tokens and rotations for their positions. -/
abbrev Knows : ℕ → List Token → Prop := Fits dims.vocabSize (m.layers ≠ []) (Known m.rope)

variable {m} {start : ℕ} {ids ids' : List Token}

theorem knows_append :
    m.Knows start (ids ++ ids') ↔ m.Knows start ids ∧ m.Knows (start + ids.length) ids' :=
  fits_known_append

theorem runnable_iff (hpos : 0 < start + ids.length) : m.Runnable start ids ↔
    m.Knows start ids ∧ (m.layers = [] ∨ ids.length ≤ 1 ∨ start = 0) := by
  unfold Runnable Knows Fits Runs
  tauto

theorem runnable_snoc {next : Token} (hids : m.Runnable 0 ids) :
    m.Runnable 0 (ids ++ [next]) ↔ m.Runnable ids.length [next] := by
  have hknows : m.Knows 0 ids := ⟨hids.1, fun h => (hids.2 h).1⟩
  rw [runnable_iff (by simp), runnable_iff (by simp), knows_append, Nat.zero_add]
  simp [hknows]

theorem feedOk_iff {chunks : List (List Token)} (hstart : 0 < start) :
    FeedOk m.Runnable start chunks ↔
      m.Knows start chunks.flatten ∧ (m.layers = [] ∨ ∀ chunk ∈ chunks, chunk.length ≤ 1) := by
  induction chunks generalizing start with
  | nil => simp [FeedOk, show m.Knows start [] from fits_known_nil]
  | cons chunk chunks ih =>
    rw [FeedOk, ih (by omega), List.flatten_cons, knows_append, List.forall_mem_cons,
      runnable_iff (by omega)]
    have hne : start ≠ 0 := Nat.ne_of_gt hstart
    tauto

theorem feedOk_cons_iff {chunk : List Token} {chunks : List (List Token)} (hchunk : chunk ≠ []) :
    FeedOk m.Runnable 0 (chunk :: chunks) ↔
      m.Runnable 0 (chunk ++ chunks.flatten) ∧
        (m.layers = [] ∨ ∀ chunk ∈ chunks, chunk.length ≤ 1) := by
  have hpos : 0 < 0 + chunk.length := by
    rw [Nat.zero_add]
    exact List.length_pos_iff.mpr hchunk
  have hall : 0 < 0 + (chunk ++ chunks.flatten).length := by
    rw [List.length_append]
    omega
  rw [FeedOk, feedOk_iff hpos, runnable_iff hpos, runnable_iff hall, knows_append]
  tauto

variable (m) (E : Elementary K)

def forward (context : ℕ → ForwardError → ForwardError) (inputIds : List Token)
    (positions : List ℕ) : List (dims.Cache K) →
      Except ForwardError (List (dims.Logits K)) × List (dims.Cache K) :=
  forwardTokens m.embedTokens context (m.layers.map fun layer => layer.forward E m.rope positions)
    (fun x => m.lmHead.forward (m.norm.forward E x)) inputIds

theorem runsStack (context : ℕ → ForwardError → ForwardError) :
    RunsStack (m.forward E context) (m.layers.map fun layer => layer.causal E m.rope)
      (embedRow m.embedTokens) (fun x => m.lmHead.forward (m.norm.forward E x)) m.Runnable
      limit := by
  have hpast : ∀ {rows : List (dims.Row K)} {past : List (dims.Kv K)},
      1 < rows.length ∧ past ≠ [] ↔ ¬ (rows.length ≤ 1 ∨ past.length = 0) := by
    intro rows past
    rw [← List.length_pos_iff]
    omega
  refine RunsStack.of_layers _ _ (fun layer _ rows cache hle hruns => ?_)
    fun layer _ rows cache hle hruns => ?_
  · rw [layer.forward_eq hle hruns.1 hruns.2.2 rfl,
      if_neg (hpast.not.mpr (not_not_intro hruns.2.1))]
  · by_cases hknown : Known m.rope (cache.getD []).length rows.length
    swap
    · rw [layer.forward_unknown hknown]
      exact ⟨_, rfl⟩
    by_cases hpos : 0 < (cache.getD []).length + rows.length
    · rw [layer.forward_eq hle hknown hpos rfl,
        if_pos (hpast.mpr fun h => hruns ⟨hknown, h, hpos⟩)]
      exact ⟨_, rfl⟩
    · obtain ⟨hcache, hrows⟩ := nil_of_not_pos hpos
      rw [hrows]
      exact ⟨_, congrArg Prod.fst (layer.forward_nil hcache)⟩

variable {m E} {logits : List (dims.Logits K)} {kvCache : List (dims.Cache K)}

theorem feed_iff_oneShot (context : ℕ → ForwardError → ForwardError) {chunk : List Token}
    {chunks : List (List Token)} (hchunks : [] ∉ chunk :: chunks)
    (hle : ((chunk ++ chunks.flatten).length : ℕ∞) ≤ limit) :
    feed (m.forward E context) (List.replicate m.layers.length none) 0 (chunk :: chunks) =
        (.ok logits, kvCache) ↔
      oneShot (m.forward E context) m.layers.length (chunk ++ chunks.flatten) =
          (.ok logits, kvCache) ∧
        (m.layers = [] ∨ ∀ chunk ∈ chunks, chunk.length = 1) := by
  have hlen : (m.layers.map fun layer => layer.causal E m.rope).length = m.layers.length :=
    List.length_map ..
  have hone : (∀ chunk ∈ chunks, chunk.length ≤ 1) ↔ ∀ chunk ∈ chunks, chunk.length = 1 := by
    refine forall₂_congr fun c hc => ?_
    have hne : c ≠ [] := fun h => hchunks (h ▸ List.mem_cons_of_mem _ hc)
    have := List.length_pos_iff.mpr hne
    omega
  rw [← hlen, (m.runsStack E context).feed_cons_iff hle, (m.runsStack E context).oneShot_iff hle,
    hlen, feedOk_cons_iff (fun h => hchunks (h ▸ List.mem_cons_self)), hone]
  tauto

end CausalDecoder

/-! ## Llama -/

structure LlamaForCausalLM (K : Type) (dims : LlamaDims) where
  embedTokens : Fin dims.vocabSize → dims.Row K
  layers : List (LlamaDecoderLayer K dims)
  norm : RmsNorm K dims.hiddenSize
  lmHead : Linear K dims.hiddenSize dims.vocabSize
  rope : RotaryEmbedding K dims.half

variable [Field K] [LinearOrder K]

namespace LlamaForCausalLM

variable (E : Elementary K) (m : LlamaForCausalLM K dims)

def toDecoder : CausalDecoder K dims ⊤ where
  embedTokens := m.embedTokens
  layers := m.layers.map (·.toDecoderLayer E)
  norm := m.norm
  lmHead := m.lmHead
  rope := m.rope

theorem length_layers_toDecoder : (m.toDecoder E).layers.length = m.layers.length :=
  List.length_map ..

def forward : List Token → List ℕ → List (dims.Cache K) →
    Except ForwardError (List (dims.Logits K)) × List (dims.Cache K) :=
  (m.toDecoder E).forward E fun i e => .context s!"layer {i}" e

def generate (prompt : List Token) (maxTokens : ℕ) : Except ForwardError (List Token) :=
  match oneShot (m.forward E) m.layers.length prompt with
  | (.error e, _) => .error e
  | (.ok logits, kvCache) =>
    match logits.getLast? with
    -- `seq_len - 1` would be negative
    | none => .error .panicked
    | some lastLogits =>
      let nextToken := argmax lastLogits
      if maxTokens ≤ prompt.length then .ok prompt
      else
        let tokens := prompt ++ [nextToken]
        decodeSteps (m.forward E) argmax (maxTokens - tokens.length) tokens nextToken kvCache

variable {E m}

/-- Chunks give the logits and caches of all tokens at once, if only the first chunk
has several tokens. -/
theorem feed_eq_ok_iff_oneShot {chunk : List Token} {chunks : List (List Token)}
    (hchunks : [] ∉ chunk :: chunks) {logits : List (dims.Logits K)}
    {kvCache : List (dims.Cache K)} :
    feed (m.forward E) (List.replicate m.layers.length none) 0 (chunk :: chunks) =
        (.ok logits, kvCache) ↔
      oneShot (m.forward E) m.layers.length (chunk ++ chunks.flatten) = (.ok logits, kvCache) ∧
        (m.layers = [] ∨ ∀ chunk ∈ chunks, chunk.length = 1) := by
  have h : feed (m.forward E) (List.replicate (m.toDecoder E).layers.length none) 0
      (chunk :: chunks) = (.ok logits, kvCache) ↔ _ :=
    CausalDecoder.feed_iff_oneShot _ hchunks le_top
  rw [length_layers_toDecoder] at h
  rw [h, toDecoder, List.map_eq_nil_iff]
  rfl

/-- Generation gives the tokens of a recomputation of the whole text for every token. -/
theorem generate_iff_regenerate {prompt tokens : List Token} {maxTokens : ℕ}
    (hprompt : prompt ≠ []) :
    m.generate E prompt maxTokens = .ok tokens ↔
      (∃ logits kvCache, oneShot (m.forward E) m.layers.length prompt = (.ok logits, kvCache)) ∧
        regenerate (m.forward E) argmax m.layers.length (maxTokens - prompt.length) prompt =
          .ok tokens := by
  have hstack : RunsStack (m.forward E) _ _ _ _ ⊤ := (m.toDecoder E).runsStack E _
  have hlen : ((m.toDecoder E).layers.map fun layer => layer.causal E m.rope).length =
      m.layers.length := (List.length_map ..).trans (m.length_layers_toDecoder E)
  unfold generate
  rw [← hlen]
  rcases hone : oneShot (m.forward E) _ prompt with ⟨e | logits, kvCache⟩
  · simp
  · have hne : logits ≠ [] := by
      rw [← List.length_pos_iff, hstack.length_of_oneShot le_top hone,
        List.length_pos_iff]
      exact hprompt
    dsimp only
    rw [List.getLast?_eq_some_getLast hne]
    dsimp only
    rw [hstack.generate_iff (fun _ _ => CausalDecoder.runnable_snoc) le_top hone
      (List.getLast?_eq_some_getLast hne)]
    simp

/-- A model of one layer, with two tokens and a single head. -/
def toy : LlamaForCausalLM ℚ ⟨2, 1, 1, 1, 1, 1⟩ where
  embedTokens id _ := id
  layers := [{
    selfAttn := {
      qProj := ⟨fun _ _ => 1, none⟩
      kProj := ⟨fun _ _ => 1, none⟩
      vProj := ⟨fun _ _ => 1, none⟩
      oProj := ⟨fun _ _ => 1, none⟩ }
    mlp := ⟨⟨fun _ _ => 1, none⟩, ⟨fun _ _ => 1, none⟩, ⟨fun _ _ => 1, none⟩⟩
    inputLayernorm := ⟨fun _ => 1, 1⟩
    postAttentionLayernorm := ⟨fun _ => 1, 1⟩ }]
  norm := ⟨fun _ => 1, 1⟩
  lmHead := ⟨fun id _ => id, none⟩
  rope := ⟨4, fun _ => ⟨fun _ => 1, fun _ => 0⟩⟩

/-- The functions of a toy model, to first order. -/
def toyElementary : Elementary ℚ := ⟨fun x => 1 + x, fun x => (1 + x) / 2, id⟩

theorem feed_toy : ∃ logits kvCache,
    feed (toy.forward toyElementary) [none] 0 [[0, 1], [1]] = (.ok logits, kvCache) := by
  have hruns : (toy.toDecoder toyElementary).Runnable 0 [0, 1, 1] :=
    (CausalDecoder.runnable_iff (by decide)).mpr
      ⟨⟨by simp, fun _ => by unfold Known; decide⟩, Or.inr (Or.inr rfl)⟩
  have hone := (((toy.toDecoder toyElementary).runsStack toyElementary
    fun i e => .context s!"layer {i}" e).oneShot_iff le_top).mpr ⟨hruns, rfl, rfl⟩
  exact ⟨_, _, (feed_eq_ok_iff_oneShot (by decide)).mpr ⟨hone, Or.inr (by decide)⟩⟩

theorem generate_toy_iff : toy.generate toyElementary [1] 2 = .ok [1, 1] ↔
    (∃ logits kvCache, oneShot (toy.forward toyElementary) 1 [1] = (.ok logits, kvCache)) ∧
      regenerate (toy.forward toyElementary) argmax 1 1 [1] = .ok [1, 1] :=
  generate_iff_regenerate (by decide)

end LlamaForCausalLM

/-! ## Qwen -/

/-- What follows the attention: a mixture of experts fits the rows. -/
inductive QwenFeedForward (K : Type) [Field K] (dims : LlamaDims)
  | dense (mlp : LlamaMlp K dims.hiddenSize dims.intermediateSize)
  | moe (mixture : QwenMoe (WithBot K)) (loaded : mixture.Loaded dims.hiddenSize)

namespace QwenFeedForward

variable (E : Elementary K)

def forward : QwenFeedForward K dims → List (dims.Row K) →
    Except ForwardError (List (dims.Row K))
  | dense mlp, rows => .ok (rows.map (mlp.forward E))
  | moe mixture _, rows => overRows (mixture.forward E.moeOps) rows

theorem forward_apart (feedForward : QwenFeedForward K dims) :
    Apart (feedForward.forward E) ((2 ^ 32 : ℕ) : ℕ∞) := by
  cases feedForward with
  | dense mlp => exact fun _ _ => rfl
  | moe mixture loaded =>
    obtain ⟨entry, hper⟩ := loaded.perToken E.moeOps_lawful
    exact hper.apart (Nat.cast_le.mpr Nat.one_le_two_pow)

end QwenFeedForward

structure QwenDecoderLayer (K : Type) [Field K] (dims : LlamaDims) where
  attention : LlamaAttention K dims
  feedForward : QwenFeedForward K dims
  inputNorm : RmsNorm K dims.hiddenSize
  postAttentionNorm : RmsNorm K dims.hiddenSize

def QwenDecoderLayer.toDecoderLayer (E : Elementary K) (layer : QwenDecoderLayer K dims) :
    DecoderLayer K dims ((2 ^ 32 : ℕ) : ℕ∞) where
  selfAttn := layer.attention
  mlp := layer.feedForward.forward E
  mlp_apart := layer.feedForward.forward_apart E
  inputLayernorm := layer.inputNorm
  postAttentionLayernorm := layer.postAttentionNorm

structure QwenForCausalLM (K : Type) [Field K] (dims : LlamaDims) where
  embedTokens : Fin dims.vocabSize → dims.Row K
  layers : List (QwenDecoderLayer K dims)
  norm : RmsNorm K dims.hiddenSize
  lmHead : Linear K dims.hiddenSize dims.vocabSize
  rope : RotaryEmbedding K dims.half

namespace QwenForCausalLM

variable (E : Elementary K) (m : QwenForCausalLM K dims)

def toDecoder : CausalDecoder K dims ((2 ^ 32 : ℕ) : ℕ∞) where
  embedTokens := m.embedTokens
  layers := m.layers.map (·.toDecoderLayer E)
  norm := m.norm
  lmHead := m.lmHead
  rope := m.rope

def forward (inputIds : List Token) (positions : List ℕ) (cache : List (dims.Cache K)) :
    Except ForwardError (List (dims.Logits K)) × List (dims.Cache K) :=
  let actual := cache.length
  let expected := m.layers.length
  if actual ≠ expected then
    (.error (.message s!"Qwen KV cache has {actual} layers; expected {expected}"), cache)
  else
    (m.toDecoder E).forward E (fun layer e => .context s!"Qwen layer {layer}" e) inputIds
      positions cache

def generate (prompt : List Token) (maxTokens : ℕ) : Except ForwardError (List Token) :=
  if prompt = [] then .error (.message "cannot generate from an empty prompt")
  else if maxTokens ≤ prompt.length then .ok prompt
  else
    match oneShot (m.forward E) m.layers.length prompt with
    | (.error e, _) => .error e
    | (.ok logits, cache) =>
      generateLoop (m.forward E) argmax (maxTokens - prompt.length) prompt logits cache

theorem runsStack : RunsStack (m.forward E)
    ((m.toDecoder E).layers.map fun layer => layer.causal E m.rope) (embedRow m.embedTokens)
    (fun x => m.lmHead.forward (m.norm.forward E x)) (m.toDecoder E).Runnable
    ((2 ^ 32 : ℕ) : ℕ∞) where
  forward_eq_ok_iff {caches start ids} hle hlen hcaches logits caches' := by
    have hcheck : ¬ caches.length ≠ m.layers.length := by
      simpa [toDecoder] using hlen
    unfold forward
    rw [if_neg hcheck]
    exact ((m.toDecoder E).runsStack E _).forward_eq_ok_iff hle hlen hcaches logits caches'

variable {E m}

/-- Generation gives the tokens of a recomputation of the whole text for every token. A
prompt that leaves no room for tokens is not run. -/
theorem generate_iff_of_prompt {prompt tokens : List Token} {maxTokens : ℕ}
    (hle : maxTokens ≤ 2 ^ 32) :
    m.generate E prompt maxTokens = .ok tokens ↔
      prompt ≠ [] ∧ regenerate (m.forward E) argmax m.layers.length (maxTokens - prompt.length)
        prompt = .ok tokens := by
  have hlen : ((m.toDecoder E).layers.map fun layer => layer.causal E m.rope).length =
      m.layers.length := by simp [toDecoder]
  unfold generate
  by_cases hprompt : prompt = []
  · simp [hprompt]
  rw [if_neg hprompt]
  by_cases hmax : maxTokens ≤ prompt.length
  · rw [if_pos hmax, Nat.sub_eq_zero_of_le hmax, regenerate]
    tauto
  · obtain ⟨left, hleft⟩ : ∃ left, maxTokens - prompt.length = left + 1 :=
      ⟨maxTokens - prompt.length - 1, by omega⟩
    rw [if_neg hmax, hleft, ← hlen]
    rcases hone : oneShot (m.forward E) _ prompt with ⟨e | logits, cache⟩
    · rw [regenerate.eq_2, hone]
      simp
    · dsimp only
      have hlimit : ((prompt.length + (left + 1) : ℕ) : ℕ∞) ≤ ((2 ^ 32 : ℕ) : ℕ∞) :=
        Nat.cast_le.mpr (by omega)
      rw [(runsStack E m).generateLoop_iff (fun _ _ => CausalDecoder.runnable_snoc) hone rfl hlimit]
      tauto

/-- Two experts, of which each token takes one, and a shared one with a gate. -/
def toyMoe : QwenMoe (WithBot ℚ) where
  experts := .dense [[0], [1]] [⟨id, id, id⟩, ⟨scaleBy 2, id, id⟩] 1 true
  sharedExpert := some ⟨id, id, id⟩
  sharedExpertGate := some fun x => x.headD 0

theorem toyMoe_loaded : toyMoe.Loaded 1 where
  width_pos := Nat.one_pos
  experts := by
    have hfits : ∀ mlp ∈ [(⟨id, id, id⟩ : DenseMlp (WithBot ℚ)), ⟨scaleBy 2, id, id⟩],
        mlp.Fits 1 := by
      intro mlp hmlp
      simp only [List.mem_cons, List.not_mem_nil, or_false] at hmlp
      rcases hmlp with rfl | rfl
      · exact ⟨fun _ _ => rfl, fun _ _ hx hy => hy.trans hx⟩
      · exact ⟨fun _ _ => List.length_map _, fun _ _ hx hy => hy.trans hx⟩
    exact ⟨rfl, by decide, by decide, hfits⟩
  shared_fits := by
    rintro _ ⟨⟩
    exact ⟨fun _ _ => rfl, fun _ _ hx hy => hy.trans hx⟩

/-- The Llama model above, with a layer of experts behind its own. -/
def toy : QwenForCausalLM ℚ ⟨2, 1, 1, 1, 1, 1⟩ where
  embedTokens := LlamaForCausalLM.toy.embedTokens
  layers := LlamaForCausalLM.toy.layers.flatMap fun layer =>
    [⟨layer.selfAttn, .dense layer.mlp, layer.inputLayernorm, layer.postAttentionLayernorm⟩,
      ⟨layer.selfAttn, .moe toyMoe toyMoe_loaded, layer.inputLayernorm,
        layer.postAttentionLayernorm⟩]
  norm := LlamaForCausalLM.toy.norm
  lmHead := LlamaForCausalLM.toy.lmHead
  rope := LlamaForCausalLM.toy.rope

theorem generate_toy_iff_of_prompt :
    toy.generate LlamaForCausalLM.toyElementary [1, 0] 4 = .ok [1, 0, 1, 1] ↔
      [1, 0] ≠ ([] : List Token) ∧
        regenerate (toy.forward LlamaForCausalLM.toyElementary) argmax 2 2 [1, 0] =
          .ok [1, 0, 1, 1] :=
  generate_iff_of_prompt (by decide)

end QwenForCausalLM

end Rllm
