import Rllm.Model.HfConfig

/-! # The configuration of a GGUF file

What is read from the metadata of a file, with the defaults. Only the number of
heads is checked.
-/

namespace Rllm

namespace GgufConfig

/-! ## The parser -/

/-- The values of metadata, and how the library reads them. -/
structure GgufValues (V : Type) where
  toStr : V → Option String
  toU64 : V → Option ℕ
  toF32 : V → Option F32
  arrayLength : V → Option ℕ

variable {V : Type} (G : GgufValues V) (metadata : String → Option V)

def getMetadataString (key : String) : Option String := (metadata key).bind G.toStr

def getMetadataValAsU64 (key : String) : Option ℕ := (metadata key).bind G.toU64

def getMetadataF32 (key : String) : Option F32 := (metadata key).bind G.toF32

def architectureOf (arch : String) : Option String :=
  match arch with
  | "llama" => some "LlamaForCausalLM"
  | "mistral" => some "MistralForCausalLM"
  | "qwen2" => some "Qwen2ForCausalLM"
  | "qwen3" => some "Qwen3ForCausalLM"
  | "qwen2moe" => some "Qwen2MoeForCausalLM"
  | "qwen3moe" => some "Qwen3MoeForCausalLM"
  | _ => none

def archOf : String := (getMetadataString G metadata "general.architecture").getD "llama"

/-- A number of the metadata of the architecture. -/
def archField (field : String) : Option ℕ :=
  getMetadataValAsU64 G metadata (archOf G metadata ++ "." ++ field)

/-- The configuration of the metadata, once they are read. -/
def parseGgufConfig (modelId : String) (loaded : Except String (String → Option V)) :
    Except String (Except String ModelConfig) :=
  match loaded with
  | .error e => return .error e
  | .ok metadata => do
    let arch := archOf G metadata
    let numLayers := (archField G metadata "block_count").getD 32
    let hiddenSize := (archField G metadata "embedding_length").getD 4096
    let numAttentionHeads := (archField G metadata "attention.head_count").getD 32
    let numKvHeads := (archField G metadata "attention.head_count_kv").getD numAttentionHeads
    let defaultIntermediateSize ← Checked.mul hiddenSize 4
    let intermediateSize :=
      (archField G metadata "feed_forward_length").getD defaultIntermediateSize
    let maxModelLen := (archField G metadata "context_length").getD 4096
    let ropeTheta := (getMetadataF32 G metadata (arch ++ ".rope.freq_base")).getD (.fin 10000)
    if numAttentionHeads = 0 then
      return .error "GGUF attention head count must be greater than zero"
    else do
      let defaultHeadDim ← Checked.div hiddenSize numAttentionHeads
      let headDim := (archField G metadata "attention.key_length").getD defaultHeadDim
      match architectureOf arch with
      | none => return .error ("unsupported GGUF architecture '" ++ arch ++ "'")
      | some architecture =>
        return .ok
          { modelId
            architecture
            vocabSize := ((metadata "tokenizer.ggml.tokens").bind G.arrayLength).getD 32000
            hiddenSize
            intermediateSize
            numLayers
            numAttentionHeads
            numKvHeads
            headDim
            maxModelLen
            ropeTheta
            dtype := .f16
            quantization := some { kind := .gguf, groupSize := none, bits := none }
            tokenizerMode := .auto }

/-! ## What the parser admits -/

variable {G metadata} {modelId : String}

/-- Nothing overflows, and where a configuration is made, its heads are shared out evenly and the
size of a head is given. -/
structure Sound (G : GgufValues V) (metadata : String → Option V) : Prop where
  hiddenSize_lt : (archField G metadata "embedding_length").getD 4096 * 4 < Checked.usizeBound
  numKvHeads_ok : (architectureOf (archOf G metadata)).isSome →
    0 < (archField G metadata "attention.head_count").getD 32 →
    ∀ n, archField G metadata "attention.head_count_kv" = some n →
      0 < n ∧ n ∣ (archField G metadata "attention.head_count").getD 32
  headDim_ok : (architectureOf (archOf G metadata)).isSome →
    0 < (archField G metadata "attention.head_count").getD 32 →
    (archField G metadata "attention.key_length" = none ∧
      (archField G metadata "attention.head_count").getD 32 ≤
        (archField G metadata "embedding_length").getD 4096) ∨
      ∃ n, archField G metadata "attention.key_length" = some n ∧ 0 < n

theorem getD_div_pos_iff {o : Option ℕ} {a b : ℕ} (hb : 0 < b) :
    0 < o.getD (a / b) ↔ o = none ∧ b ≤ a ∨ ∃ n, o = some n ∧ 0 < n := by
  rw [HfConfig.getD_pos_iff, Nat.div_pos_iff, and_iff_right hb]

/-- The parser meets its purpose on just the sound metadata. -/
theorem parseGgufConfig_admits_iff (G : GgufValues V) (modelId : String)
    (metadata : String → Option V) :
    AdmitsUsable (parseGgufConfig G modelId (.ok metadata)) ↔ Sound G metadata := by
  by_cases hmul : (archField G metadata "embedding_length").getD 4096 * 4 < Checked.usizeBound
  · rw [parseGgufConfig]
    dsimp only
    rw [Checked.mul_of_lt hmul, ok_bind]
    split
    · rename_i hzero
      refine iff_of_true ⟨_, rfl, fun config h => by cases h⟩ ⟨hmul, ?_, ?_⟩
      · intro _ hpos
        exact absurd hzero hpos.ne'
      · intro _ hpos
        exact absurd hzero hpos.ne'
    · rename_i hne
      have hheads := Nat.pos_of_ne_zero hne
      rw [Checked.div_of_pos hheads, ok_bind]
      split
      · rename_i harch
        refine iff_of_true ⟨_, rfl, fun config h => by cases h⟩ ⟨hmul, ?_, ?_⟩
        · intro hsome
          simp [harch] at hsome
        · intro hsome
          simp [harch] at hsome
      · rename_i architecture harch
        have hsome : (architectureOf (archOf G metadata)).isSome := by rw [harch]; rfl
        constructor
        · rintro ⟨r, hr, husable⟩
          obtain rfl := Except.ok.inj hr
          have hconfig := husable _ rfl
          refine ⟨hmul, fun _ _ n hn => ?_,
            fun _ _ => (getD_div_pos_iff hheads).mp hconfig.headDim_pos⟩
          have hpos := hconfig.numKvHeads_pos
          have hdvd := hconfig.numKvHeads_dvd
          dsimp only at hpos hdvd
          rw [hn] at hpos hdvd
          exact ⟨hpos, hdvd⟩
        · intro h
          refine ⟨_, rfl, fun config hconfig => ?_⟩
          obtain rfl := Except.ok.inj hconfig
          have hkv := h.numKvHeads_ok hsome hheads
          refine ⟨hheads, ?_, ?_, (getD_div_pos_iff hheads).mpr (h.headDim_ok hsome hheads)⟩
          · dsimp only
            cases hn : archField G metadata "attention.head_count_kv" with
            | none => exact hheads
            | some n => exact (hkv n hn).1
          · dsimp only
            cases hn : archField G metadata "attention.head_count_kv" with
            | none => exact dvd_rfl
            | some n => exact (hkv n hn).2
  · refine iff_of_false ?_ fun h => hmul h.hiddenSize_lt
    rintro ⟨r, hr, -⟩
    obtain ⟨product, hproduct, -⟩ := bind_eq_ok.mp hr
    exact hmul (Checked.mul_eq_ok.mp hproduct).1

end GgufConfig

/-- The two parsers of configurations admit just usable geometry from just the sound inputs. -/
theorem configParsers_admit_iff (asF32 : ℚ → F32)
    (fromValue : Json → Option HfConfig.HfQuantizationConfigJson) {V : Type}
    (G : GgufConfig.GgufValues V) (modelId : String) :
    (∀ hf, AdmitsUsable (HfConfig.parseHfConfig asF32 fromValue modelId (.ok hf)) ↔ hf.Sound) ∧
      ∀ metadata, AdmitsUsable (GgufConfig.parseGgufConfig G modelId (.ok metadata)) ↔
        GgufConfig.Sound G metadata :=
  ⟨HfConfig.parseHfConfig_admits_iff asF32 fromValue modelId,
    GgufConfig.parseGgufConfig_admits_iff G modelId⟩

/-- No heads at all are a division by zero. -/
theorem not_configParsers_admit : ∃ (asF32 : ℚ → F32)
    (fromValue : Json → Option HfConfig.HfQuantizationConfigJson) (hf : HfConfig.HfConfigJson),
    HfConfig.parseHfConfig asF32 fromValue "models/llama" (.ok hf) =
        .error "attempt to divide by zero" ∧
      ¬ AdmitsUsable (HfConfig.parseHfConfig asF32 fromValue "models/llama" (.ok hf)) := by
  have hpanic : HfConfig.parseHfConfig F32.fin (fun _ => none) "models/llama"
      (.ok { architectures := some ["LlamaForCausalLM"], numAttentionHeads := some 0 }) =
        .error "attempt to divide by zero" := rfl
  refine ⟨F32.fin, fun _ => none, _, hpanic, ?_⟩
  rw [hpanic]
  exact HfConfig.not_admitsUsable_error _

end Rllm
