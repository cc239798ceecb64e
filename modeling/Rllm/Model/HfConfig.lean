import Rllm.Core.Request
import Rllm.Library.Checked
import Rllm.Library.Json

/-! # The configuration of a model

What is read from the fields of `config.json`, with their defaults. A result is an
error or a configuration, and the arithmetic before it may panic.
-/

namespace Rllm

/-! ## Configurations -/

inductive DType where
  | f32
  | f16
  | bf16
  | fp8E4M3
  | fp8E5M2
  deriving DecidableEq, Repr

inductive QuantizationKind where
  | gptq
  | awq
  | int8
  | gguf
  deriving DecidableEq, Repr

structure QuantizationConfig where
  kind : QuantizationKind
  groupSize : Option ℕ
  bits : Option ℕ
  deriving DecidableEq, Repr

inductive TokenizerMode where
  | auto
  deriving DecidableEq, Repr

structure ModelConfig where
  modelId : String
  architecture : String
  vocabSize : ℕ
  hiddenSize : ℕ
  intermediateSize : ℕ
  numLayers : ℕ
  numAttentionHeads : ℕ
  numKvHeads : ℕ
  headDim : ℕ
  maxModelLen : ℕ
  ropeTheta : F32
  dtype : DType
  quantization : Option QuantizationConfig
  tokenizerMode : TokenizerMode

/-- What the attention code and the sizing of the cache rely on. -/
structure ModelConfig.UsableGeometry (config : ModelConfig) : Prop where
  numAttentionHeads_pos : 0 < config.numAttentionHeads
  numKvHeads_pos : 0 < config.numKvHeads
  numKvHeads_dvd : config.numKvHeads ∣ config.numAttentionHeads
  headDim_pos : 0 < config.headDim

/-- A parser returns, and what it returns is an error or can be used. -/
def AdmitsUsable (result : Except String (Except String ModelConfig)) : Prop :=
  ∃ r, result = .ok r ∧ ∀ config, r = .ok config → config.UsableGeometry

namespace HfConfig

/-! ## The quantization of a checkpoint -/

structure HfQuantizationConfigJson where
  quantMethod : Option String
  bits : Option ℕ
  groupSize : Option ℕ

/-- `Value::get`: an entry of an object. -/
def get (v : Json) (name : String) : Option Json :=
  match v with
  | .object entries => entries.lookup name.toList
  | _ => none

def asStr : Json → Option String
  | .string s => some (String.ofList s)
  | _ => none

/-- The number, if its text is that of an unsigned one. -/
def asU64 : Json → Option ℕ
  | .number text =>
    let n := Nat.ofDigitChars 10 text 0
    if text.all Char.isDigit ∧ n < 2 ^ 64 then some n else none
  | _ => none

structure QuantSchema where
  quantMethod : Option String
  format : Option String
  weightNumBits : Option ℕ
  weightStrategy : Option String

/-- The weights of the first group that has some, or those without a group. -/
def firstWeightsConfig (value : Json) : Option Json :=
  let grouped : Option Json :=
    match get value "config_groups" with
    | some (.object groups) =>
      groups.findSome? fun (group : List Char × Json) => get group.2 "weights"
    | _ => none
  grouped.or (get value "weights")

def QuantSchema.fromHfValue (value : Json) : QuantSchema :=
  let weights := firstWeightsConfig value
  { quantMethod := (get value "quant_method").bind asStr
    format := (get value "format").bind asStr
    weightNumBits := weights.bind fun w => (get w "num_bits").bind asU64
    weightStrategy := weights.bind fun w => (get w "strategy").bind asStr }

def QuantSchema.isCompressedTensorsInt8 (s : QuantSchema) : Bool :=
  s.quantMethod.any (fun method => method.toLower == "compressed-tensors") ||
    s.format.any (· == "int-quantized")

def QuantSchema.isInt8WeightOnly (s : QuantSchema) : Bool :=
  s.isCompressedTensorsInt8 && s.weightNumBits.getD 8 == 8 &&
    s.weightStrategy.all fun strategy => strategy == "channel" || strategy == "tensor"

def QuantSchema.toCoreConfig (s : QuantSchema) : Option QuantizationConfig :=
  if s.isInt8WeightOnly then some { kind := .int8, groupSize := none, bits := some 8 } else none

def quantizationKind (quantMethod : String) : Option QuantizationKind :=
  match quantMethod.toLower with
  | "gptq" => some .gptq
  | "awq" => some .awq
  | _ => none

/-- The configuration for a method that is known by its name, or else by its weights. The typed
reading of a value is a parameter. -/
def quantizationOf (fromValue : Json → Option HfQuantizationConfigJson) (value : Json) :
    Option QuantizationConfig :=
  let named : Option QuantizationConfig := do
    let q ← fromValue value
    let quantMethod ← q.quantMethod
    let kind ← quantizationKind quantMethod
    return { kind, groupSize := q.groupSize, bits := q.bits }
  named.or (QuantSchema.fromHfValue value).toCoreConfig

/-! ## The parser -/

/-- The fields of `config.json`, each of which may be missing. -/
structure HfConfigJson where
  modelType : Option String := none
  architectures : Option (List String) := none
  vocabSize : Option ℕ := none
  hiddenSize : Option ℕ := none
  intermediateSize : Option ℕ := none
  numHiddenLayers : Option ℕ := none
  numAttentionHeads : Option ℕ := none
  numKeyValueHeads : Option ℕ := none
  maxPositionEmbeddings : Option ℕ := none
  ropeTheta : Option ℚ := none
  torchDtype : Option String := none
  headDim : Option ℕ := none
  qkRopeHeadDim : Option ℕ := none
  qkNopeHeadDim : Option ℕ := none
  quantizationConfig : Option Json := none

def normalizeArchitecture (architecture : String) : String :=
  match architecture with
  | "llama" | "LlamaModel" | "LLaMAForCausalLM" => "LlamaForCausalLM"
  | "mistral" | "MistralModel" => "MistralForCausalLM"
  | "deepseek" | "deepseek_llm" | "DeepSeekForCausalLM" => "DeepseekForCausalLM"
  | "deepseek_v2" | "DeepSeekV2ForCausalLM" => "DeepseekV2ForCausalLM"
  | "deepseek_v3" | "DeepSeekV3ForCausalLM" => "DeepseekV3ForCausalLM"
  | "deepseek_r1" | "DeepSeekR1ForCausalLM" | "DeepseekR1ForCausalLM" => "DeepseekR1ForCausalLM"
  | "qwen2" => "Qwen2ForCausalLM"
  | "qwen2_moe" => "Qwen2MoeForCausalLM"
  | "qwen3" => "Qwen3ForCausalLM"
  | "qwen3_moe" => "Qwen3MoeForCausalLM"
  | other => other

def nativeDeepseek (architecture : String) : Bool :=
  architecture ∈ ["DeepseekV2ForCausalLM", "DeepseekV3ForCausalLM", "DeepseekR1ForCausalLM"]

/-- The architectures whose heads need not fill the hidden state. -/
def independentHeadDim (architecture : String) : Bool :=
  architecture ∈ ["DeepseekV2ForCausalLM", "DeepseekV3ForCausalLM", "DeepseekR1ForCausalLM",
    "Qwen3ForCausalLM", "Qwen3MoeForCausalLM"]

/-- A computation that some architectures are spared. -/
def unlessIndependent (independent : Bool) (value : ℕ) (x : Except String ℕ) : Except String ℕ :=
  if independent then .ok value else x

/-- The checks of a configuration. An architecture that is not known is only warned about. -/
def validateConfig (architecture : String) (hiddenSize numAttentionHeads numKvHeads headDim : ℕ) :
    Except String (Except String Unit) :=
  if hiddenSize = 0 then return .error "hidden_size must be > 0"
  else if numAttentionHeads = 0 then return .error "num_attention_heads must be > 0"
  else if numKvHeads = 0 ∨ numAttentionHeads < numKvHeads then
    return .error (s!"num_kv_heads must be > 0 and <= num_attention_heads " ++
      s!"({numAttentionHeads}), got {numKvHeads}")
  else do
    let independent := independentHeadDim architecture
    let hiddenRem ← unlessIndependent independent 0 (Checked.rem hiddenSize numAttentionHeads)
    if hiddenRem ≠ 0 then
      return .error (s!"hidden_size ({hiddenSize}) must be divisible by num_attention_heads " ++
        s!"({numAttentionHeads})")
    else do
      let headsRem ← Checked.rem numAttentionHeads numKvHeads
      if headsRem ≠ 0 then
        return .error (s!"num_attention_heads ({numAttentionHeads}) must be divisible by " ++
          s!"num_kv_heads ({numKvHeads})")
      else do
        let quotient ← unlessIndependent independent headDim
          (Checked.div hiddenSize numAttentionHeads)
        if headDim ≠ quotient then
          return .error (s!"head_dim ({headDim}) doesn't match hidden_size / " ++
            s!"num_attention_heads ({quotient})")
        else return .ok ()

def dtypeOf (torchDtype : Option String) : DType :=
  match torchDtype with
  | some "float16" | some "fp16" => .f16
  | some "bfloat16" | some "bf16" => .bf16
  | some "float32" | some "fp32" => .f32
  | some "float8_e4m3fn" => .fp8E4M3
  | some "float8_e5m2" => .fp8E5M2
  | _ => .f16

/-- The size of a head as far as it is computed. The quotient is computed even if it is not used. -/
def HfConfigJson.computedHeadDim (hf : HfConfigJson) (native : Bool)
    (hiddenSize numAttentionHeads : ℕ) : Except String ℕ :=
  if native then Checked.add (hf.qkNopeHeadDim.getD 0) (hf.qkRopeHeadDim.getD 0)
  else (Checked.div hiddenSize numAttentionHeads).map hf.headDim.getD

variable (asF32 : ℚ → F32) (fromValue : Json → Option HfQuantizationConfigJson)

/-- The configuration of the fields, once they are read. The identifier of the model is the
directory of the file. -/
def parseHfConfig (modelId : String) (loaded : Except String HfConfigJson) :
    Except String (Except String ModelConfig) :=
  match loaded with
  | .error e => return .error e
  | .ok hf => do
    let architecture := normalizeArchitecture
      (((hf.architectures.bind List.head?).or hf.modelType).getD "unknown")
    let hiddenSize := hf.hiddenSize.getD 4096
    let numAttentionHeads := hf.numAttentionHeads.getD 32
    let native := nativeDeepseek architecture
    let numKvHeads :=
      if native then numAttentionHeads else hf.numKeyValueHeads.getD numAttentionHeads
    let headDim ← hf.computedHeadDim native hiddenSize numAttentionHeads
    let defaultIntermediateSize ← Checked.mul hiddenSize 4
    let intermediateSize := hf.intermediateSize.getD defaultIntermediateSize
    match ← validateConfig architecture hiddenSize numAttentionHeads numKvHeads headDim with
    | .error e => return .error e
    | .ok () =>
      return .ok
        { modelId
          architecture
          vocabSize := hf.vocabSize.getD 32000
          hiddenSize
          intermediateSize
          numLayers := hf.numHiddenLayers.getD 32
          numAttentionHeads
          numKvHeads
          headDim
          maxModelLen := hf.maxPositionEmbeddings.getD 4096
          ropeTheta := asF32 (hf.ropeTheta.getD 10000)
          dtype := dtypeOf hf.torchDtype
          quantization := hf.quantizationConfig.bind (quantizationOf fromValue)
          tokenizerMode := .auto }

/-! ## What the checks say -/

variable {architecture : String} {hiddenSize numAttentionHeads numKvHeads headDim : ℕ}

/-- The sizes that pass the checks. -/
structure Valid (architecture : String) (hiddenSize numAttentionHeads numKvHeads headDim : ℕ) :
    Prop where
  hiddenSize_pos : 0 < hiddenSize
  numAttentionHeads_pos : 0 < numAttentionHeads
  numKvHeads_pos : 0 < numKvHeads
  numKvHeads_le : numKvHeads ≤ numAttentionHeads
  hiddenSize_mod : independentHeadDim architecture = false → hiddenSize % numAttentionHeads = 0
  numKvHeads_mod : numAttentionHeads % numKvHeads = 0
  headDim_eq : independentHeadDim architecture = false → headDim = hiddenSize / numAttentionHeads

theorem unlessIndependent_ok (independent : Bool) (value n : ℕ) :
    unlessIndependent independent value (.ok n) = .ok (if independent then value else n) := by
  rw [unlessIndependent, apply_ite Except.ok]

theorem rejects {P : Prop} (e : String) (h : ¬ P) :
    ∃ r, (pure (.error e) : Except String (Except String Unit)) = .ok r ∧ (r = .ok () ↔ P) := by
  refine ⟨_, rfl, fun hr => ?_, fun hP => absurd hP h⟩
  cases hr

/-- The checks return, and accept just these sizes. -/
theorem validateConfig_spec (architecture : String)
    (hiddenSize numAttentionHeads numKvHeads headDim : ℕ) :
    ∃ r, validateConfig architecture hiddenSize numAttentionHeads numKvHeads headDim = .ok r ∧
      (r = .ok () ↔ Valid architecture hiddenSize numAttentionHeads numKvHeads headDim) := by
  rw [validateConfig]
  split
  · rename_i hzero
    exact rejects _ fun h => h.hiddenSize_pos.ne' hzero
  rename_i hhidden
  split
  · rename_i hzero
    exact rejects _ fun h => h.numAttentionHeads_pos.ne' hzero
  rename_i hheads
  split
  · rename_i hkv
    exact rejects _ fun h => hkv.elim h.numKvHeads_pos.ne' h.numKvHeads_le.not_gt
  rename_i hkv
  obtain ⟨hkv, hle⟩ := not_or.mp hkv
  have hheads := Nat.pos_of_ne_zero hheads
  have hkv := Nat.pos_of_ne_zero hkv
  -- the checks that the independent architectures are spared
  have hmod : (if independentHeadDim architecture then 0 else hiddenSize % numAttentionHeads) = 0 ↔
      (independentHeadDim architecture = false → hiddenSize % numAttentionHeads = 0) := by
    cases independentHeadDim architecture <;> simp
  have hdim : (headDim = if independentHeadDim architecture then headDim
      else hiddenSize / numAttentionHeads) ↔
        (independentHeadDim architecture = false → headDim = hiddenSize / numAttentionHeads) := by
    cases independentHeadDim architecture <;> simp
  dsimp only
  rw [Checked.rem_of_pos hheads, Checked.div_of_pos hheads, unlessIndependent_ok,
    unlessIndependent_ok, ok_bind, Checked.rem_of_pos hkv, ok_bind, ok_bind]
  generalize (if independentHeadDim architecture then 0 else hiddenSize % numAttentionHeads) =
    hiddenRem at hmod
  generalize (if independentHeadDim architecture then headDim
    else hiddenSize / numAttentionHeads) = quotient at hdim
  split
  · rename_i hne
    exact rejects _ fun h => hne (hmod.mpr h.hiddenSize_mod)
  rename_i hhiddenRem
  split
  · rename_i hne
    exact rejects _ fun h => hne h.numKvHeads_mod
  rename_i hkvRem
  split
  · rename_i hne
    exact rejects _ fun h => hne (hdim.mpr h.headDim_eq)
  rename_i hquotient
  exact ⟨_, rfl, fun _ => ⟨Nat.pos_of_ne_zero hhidden, hheads, hkv, not_lt.mp hle,
    hmod.mp (not_not.mp hhiddenRem), not_not.mp hkvRem, hdim.mp (not_not.mp hquotient)⟩,
    fun _ => rfl⟩

theorem Valid.headDim_pos (h : Valid architecture hiddenSize numAttentionHeads numKvHeads headDim)
    (hdependent : independentHeadDim architecture = false) : 0 < headDim := by
  rw [h.headDim_eq hdependent]
  exact Nat.div_pos (Nat.le_of_dvd h.hiddenSize_pos
    (Nat.dvd_of_mod_eq_zero (h.hiddenSize_mod hdependent))) h.numAttentionHeads_pos

/-! ## What the parser admits -/

/-- The fields that the geometry is read from, with their defaults. -/
structure Geometry where
  architecture : String
  hiddenSize : ℕ
  numAttentionHeads : ℕ
  numKvHeads : ℕ

def HfConfigJson.geometry (hf : HfConfigJson) : Geometry :=
  let architecture := normalizeArchitecture
    (((hf.architectures.bind List.head?).or hf.modelType).getD "unknown")
  let numAttentionHeads := hf.numAttentionHeads.getD 32
  { architecture
    hiddenSize := hf.hiddenSize.getD 4096
    numAttentionHeads
    numKvHeads :=
      if nativeDeepseek architecture then numAttentionHeads
      else hf.numKeyValueHeads.getD numAttentionHeads }

/-- The fields give a head some size. -/
def HfConfigJson.GivesHeadDim (hf : HfConfigJson) : Prop :=
  if nativeDeepseek hf.geometry.architecture then
    (∃ n, hf.qkNopeHeadDim = some n ∧ 0 < n) ∨ ∃ n, hf.qkRopeHeadDim = some n ∧ 0 < n
  else
    hf.headDim = none ∧ hf.geometry.numAttentionHeads ≤ hf.geometry.hiddenSize ∨
      ∃ n, hf.headDim = some n ∧ 0 < n

/-- Nothing overflows, nothing is divided by no heads, and where the size of a head is not checked,
it is given. -/
structure HfConfigJson.Sound (hf : HfConfigJson) : Prop where
  hiddenSize_lt : hf.geometry.hiddenSize * 4 < Checked.usizeBound
  headDim_ok : if nativeDeepseek hf.geometry.architecture then
      hf.qkNopeHeadDim.getD 0 + hf.qkRopeHeadDim.getD 0 < Checked.usizeBound
    else 0 < hf.geometry.numAttentionHeads
  givesHeadDim : independentHeadDim hf.geometry.architecture → 0 < hf.geometry.hiddenSize →
    0 < hf.geometry.numAttentionHeads → 0 < hf.geometry.numKvHeads →
    hf.geometry.numKvHeads ∣ hf.geometry.numAttentionHeads → hf.GivesHeadDim

variable {hf : HfConfigJson} {asF32 : ℚ → F32} {fromValue : Json → Option HfQuantizationConfigJson}
  {modelId : String}

theorem not_admitsUsable_error (e : String) : ¬ AdmitsUsable (.error e) := by
  rintro ⟨r, hr, -⟩
  cases hr

theorem admitsUsable_iff (hmul : hf.geometry.hiddenSize * 4 < Checked.usizeBound)
    (hdim : hf.computedHeadDim (nativeDeepseek hf.geometry.architecture) hf.geometry.hiddenSize
      hf.geometry.numAttentionHeads = .ok headDim) :
    AdmitsUsable (parseHfConfig asF32 fromValue modelId (.ok hf)) ↔
      (Valid hf.geometry.architecture hf.geometry.hiddenSize hf.geometry.numAttentionHeads
        hf.geometry.numKvHeads headDim → 0 < headDim) := by
  obtain ⟨r, hr, hiff⟩ := validateConfig_spec hf.geometry.architecture hf.geometry.hiddenSize
    hf.geometry.numAttentionHeads hf.geometry.numKvHeads headDim
  change AdmitsUsable (hf.computedHeadDim (nativeDeepseek hf.geometry.architecture)
    hf.geometry.hiddenSize hf.geometry.numAttentionHeads >>= _) ↔ _
  rw [hdim, ok_bind]
  change AdmitsUsable (Checked.mul hf.geometry.hiddenSize 4 >>= _) ↔ _
  rw [Checked.mul_of_lt hmul, ok_bind]
  change AdmitsUsable (validateConfig hf.geometry.architecture hf.geometry.hiddenSize
    hf.geometry.numAttentionHeads hf.geometry.numKvHeads headDim >>= _) ↔ _
  rw [hr, ok_bind]
  cases r with
  | error e =>
    have hinvalid : ¬ Valid hf.geometry.architecture hf.geometry.hiddenSize
        hf.geometry.numAttentionHeads hf.geometry.numKvHeads headDim := by
      intro hvalid
      cases hiff.mpr hvalid
    exact iff_of_true ⟨_, rfl, fun config h => by cases h⟩ fun hvalid => absurd hvalid hinvalid
  | ok _ =>
    have hvalid := hiff.mp rfl
    constructor
    · rintro ⟨_, hresult, husable⟩ -
      obtain rfl := Except.ok.inj hresult
      exact (husable _ rfl).headDim_pos
    · intro hpos
      refine ⟨_, rfl, fun config hconfig => ?_⟩
      obtain rfl := Except.ok.inj hconfig
      exact ⟨hvalid.numAttentionHeads_pos, hvalid.numKvHeads_pos,
        Nat.dvd_of_mod_eq_zero hvalid.numKvHeads_mod, hpos hvalid⟩

theorem getD_pos_iff {size : Option ℕ} {default : ℕ} :
    0 < size.getD default ↔ size = none ∧ 0 < default ∨ ∃ n, size = some n ∧ 0 < n := by
  cases size <;> simp

theorem computedHeadDim_pos_iff
    (hdim : hf.computedHeadDim (nativeDeepseek hf.geometry.architecture) hf.geometry.hiddenSize
      hf.geometry.numAttentionHeads = .ok headDim) (hheads : 0 < hf.geometry.numAttentionHeads) :
    0 < headDim ↔ hf.GivesHeadDim := by
  rw [HfConfigJson.computedHeadDim] at hdim
  rw [HfConfigJson.GivesHeadDim]
  split at hdim
  · rename_i hnative
    obtain ⟨-, rfl⟩ := Checked.add_eq_ok.mp hdim
    simp only [if_pos hnative, Nat.add_pos_iff_pos_or_pos, getD_pos_iff, Nat.lt_irrefl, and_false,
      false_or]
  · rename_i hnative
    rw [Checked.div_of_pos hheads] at hdim
    obtain rfl := Except.ok.inj hdim
    rw [if_neg hnative, getD_pos_iff, Nat.div_pos_iff, and_iff_right hheads]

theorem valid_iff_of_independent (h : independentHeadDim architecture) :
    Valid architecture hiddenSize numAttentionHeads numKvHeads headDim ↔
      0 < hiddenSize ∧ 0 < numAttentionHeads ∧ 0 < numKvHeads ∧ numKvHeads ∣ numAttentionHeads := by
  constructor
  · intro hvalid
    exact ⟨hvalid.hiddenSize_pos, hvalid.numAttentionHeads_pos, hvalid.numKvHeads_pos,
      Nat.dvd_of_mod_eq_zero hvalid.numKvHeads_mod⟩
  · rintro ⟨hhidden, hheads, hkv, hdvd⟩
    exact ⟨hhidden, hheads, hkv, Nat.le_of_dvd hheads hdvd, by simp [h],
      Nat.mod_eq_zero_of_dvd hdvd, by simp [h]⟩

theorem computedHeadDim_ok_iff :
    (∃ headDim, hf.computedHeadDim (nativeDeepseek hf.geometry.architecture)
      hf.geometry.hiddenSize hf.geometry.numAttentionHeads = .ok headDim) ↔
      if nativeDeepseek hf.geometry.architecture then
        hf.qkNopeHeadDim.getD 0 + hf.qkRopeHeadDim.getD 0 < Checked.usizeBound
      else 0 < hf.geometry.numAttentionHeads := by
  rw [HfConfigJson.computedHeadDim]
  split
  · constructor
    · rintro ⟨headDim, hdim⟩
      exact (Checked.add_eq_ok.mp hdim).1
    · intro hlt
      exact ⟨_, Checked.add_eq_ok.mpr ⟨hlt, rfl⟩⟩
  · rw [Checked.div]
    split
    · rename_i hzero
      rw [hzero]
      exact iff_of_false (fun ⟨_, h⟩ => by cases h) (lt_irrefl 0)
    · rename_i hne
      exact iff_of_true ⟨_, rfl⟩ (Nat.pos_of_ne_zero hne)

theorem of_admitsUsable (h : AdmitsUsable (parseHfConfig asF32 fromValue modelId (.ok hf))) :
    (∃ headDim, hf.computedHeadDim (nativeDeepseek hf.geometry.architecture)
      hf.geometry.hiddenSize hf.geometry.numAttentionHeads = .ok headDim) ∧
      hf.geometry.hiddenSize * 4 < Checked.usizeBound := by
  obtain ⟨r, hr, -⟩ := h
  obtain ⟨headDim, hdim, hr⟩ := bind_eq_ok.mp hr
  obtain ⟨product, hmul, -⟩ := bind_eq_ok.mp hr
  exact ⟨⟨headDim, hdim⟩, (Checked.mul_eq_ok.mp hmul).1⟩

/-- The parser meets its purpose on just the sound fields. -/
theorem parseHfConfig_admits_iff (asF32 : ℚ → F32)
    (fromValue : Json → Option HfQuantizationConfigJson) (modelId : String) (hf : HfConfigJson) :
    AdmitsUsable (parseHfConfig asF32 fromValue modelId (.ok hf)) ↔ hf.Sound := by
  constructor
  · intro h
    obtain ⟨⟨headDim, hdim⟩, hmul⟩ := of_admitsUsable h
    refine ⟨hmul, computedHeadDim_ok_iff.mp ⟨headDim, hdim⟩, ?_⟩
    intro hindependent hhidden hheads hkv hdvd
    refine (computedHeadDim_pos_iff hdim hheads).mp ((admitsUsable_iff hmul hdim).mp h ?_)
    exact (valid_iff_of_independent hindependent).mpr ⟨hhidden, hheads, hkv, hdvd⟩
  · intro h
    obtain ⟨headDim, hdim⟩ := computedHeadDim_ok_iff.mpr h.headDim_ok
    refine (admitsUsable_iff h.hiddenSize_lt hdim).mpr fun hvalid => ?_
    cases hindependent : independentHeadDim hf.geometry.architecture with
    | false => exact hvalid.headDim_pos hindependent
    | true =>
      obtain ⟨hhidden, hheads, hkv, hdvd⟩ := (valid_iff_of_independent hindependent).mp hvalid
      exact (computedHeadDim_pos_iff hdim hheads).mpr
        (h.givesHeadDim hindependent hhidden hheads hkv hdvd)

end HfConfig

end Rllm
