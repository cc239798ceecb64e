import Rllm.Library.Loops
import Rllm.Library.Pruning
import Rllm.Library.Ranking
import Rllm.Library.Selection
import Rllm.Sampling.Exact

/-! # Routing to experts

A router scores the experts for each token. Group-limited routing keeps the groups
with the highest scores, masks the other experts by `-∞` and takes the best of all.
The mask is only kept to if the groups that are left have enough experts.
-/

namespace Rllm

open Selection

/-! ## The configuration -/

/-- The fields of the configuration that the routers and the checks read. -/
structure DeepseekV3Config where
  hiddenSize : ℕ
  numAttentionHeads : ℕ
  nSharedExperts : ℕ
  nRoutedExperts : ℕ
  numExpertsPerTok : ℕ
  moeLayerFreq : ℕ := 1
  qkNopeHeadDim : ℕ
  qkRopeHeadDim : ℕ
  vHeadDim : ℕ
  nGroup : ℕ
  topkGroup : ℕ
  normTopkProb : Bool := false
  routedScalingFactor : F32 := .fin 1
  attentionBias : Bool := false
  topkMethod : String := "greedy"
  scoringFunc : String := "softmax"
  deriving DecidableEq, Repr

def DeepseekV3Config.validate (c : DeepseekV3Config) : Except String Unit :=
  if c.hiddenSize = 0 ∨ c.numAttentionHeads = 0 then
    .error "DeepSeek V3 hidden size and attention heads must be non-zero"
  else if c.moeLayerFreq = 0 then .error "DeepSeek moe_layer_freq must be non-zero"
  else if c.nGroup = 0 ∨ c.nRoutedExperts % c.nGroup ≠ 0 then
    .error "DeepSeek V3 routed experts must be divisible by n_group"
  else if c.topkGroup = 0 ∨ c.nGroup < c.topkGroup then
    .error "DeepSeek V3 topk_group must be in 1..=n_group"
  else if c.numExpertsPerTok = 0 ∨ c.nRoutedExperts < c.numExpertsPerTok then
    .error "DeepSeek V3 num_experts_per_tok is invalid"
  else if c.qkNopeHeadDim + c.qkRopeHeadDim = 0 ∨ c.vHeadDim = 0 then
    .error "DeepSeek V3 MLA head dimensions must be non-zero"
  else if c.attentionBias then .error "DeepSeek attention projection bias is not supported"
  else if c.scoringFunc ≠ "softmax" ∧ c.scoringFunc ≠ "sigmoid" then
    .error ("unsupported DeepSeek scoring_func " ++ c.scoringFunc)
  else .ok ()

/-! ## Operations on rows -/

/-- What the experts and their routers compute with: an arithmetic, the operations on tensors, and
those on one row at a time, where `argSort` is `arg_sort_last_dim(false)` and `reshapeGroups` cuts a
row in groups of one size. -/
structure MoeOps (V : Type) extends Arithmetic V, TensorOps where
  argSort : List V → List ℕ
  softmaxLastDim : List V → List V
  gather : List V → List ℕ → List V
  narrowRow {α : Type} : List α → ℕ → Except String (List α)
  reshapeGroups {α : Type} : ℕ → ℕ → List α → Except String (List (List α))
  /-- Add one at each index. -/
  scatterAddOnes : List ℕ → List ℕ → List ℕ

namespace MoeOps

variable {V : Type} (O : MoeOps V)

def sum (xs : List V) : V := xs.foldl O.add O.zero

def sigmoid (x : V) : V := O.div O.one (O.add O.one (O.exp (O.sub O.zero x)))

/-- A product with a transposed matrix. -/
def matmulT (xs ws : List (List V)) : List (List V) :=
  xs.map fun x => ws.map fun w => O.sum (List.zipWith O.mul x w)

/-- The exponentials of a row over their sum. -/
def softmax (xs : List V) : List V :=
  let exps := xs.map fun x => O.exp (O.sub x (O.maxLogit xs))
  exps.map (O.div · (O.sum exps))

end MoeOps

/-- The entries of one group. -/
def groupOf {α : Type} (size : ℕ) (xs : List α) (g : ℕ) : List α := (xs.drop (g * size)).take size

/-! ## Routers -/

section Routers

variable {V : Type} (O : MoeOps V)

/-- The scores of one token, masked outside of the groups with the highest scores. -/
def maskedScores (numExperts numGroups topkGroups : ℕ) (groupScore : List V → V)
    (scores : List V) : Except String (List V) := do
  let expertsPerGroup := numExperts / numGroups
  let grouped ← O.reshapeGroups numGroups expertsPerGroup scores
  let selectedGroups ← O.narrowRow (O.argSort (grouped.map groupScore)) topkGroups
  let groupMask := O.scatterAddOnes (List.replicate numGroups 0) selectedGroups
  let expertMask := groupMask.flatMap (List.replicate expertsPerGroup)
  pure (List.zipWith (fun m x => if m = 0 then O.negInf else x) expertMask scores)

/-- Divide the weights by their sum. -/
def normalizeWeights (weights : List V) : List V :=
  weights.map (O.div · (O.add (O.sum weights) (O.ofF32 (.fin (1 / 10 ^ 20)))))

structure NoAuxTcRouter (V : Type) where
  weight : List (List V)
  correctionBias : List V
  topK : ℕ
  numGroups : ℕ
  topkGroups : ℕ
  normalize : Bool
  routedScalingFactor : F32

namespace NoAuxTcRouter

def new (weight : List (List V)) (correctionBias : List V) (topK numGroups topkGroups : ℕ)
    (normalize : Bool) (routedScalingFactor : F32) : Except String (NoAuxTcRouter V) :=
  let numExperts := weight.length
  if correctionBias.length ≠ numExperts then
    .error ("router correction bias must have " ++ toString numExperts ++ " elements")
  else if numGroups = 0 ∨ numExperts % numGroups ≠ 0 then
    .error "router experts must be divisible by num_groups"
  else if topK = 0 ∨ numExperts < topK then
    .error ("router top_k must be in 1..=" ++ toString numExperts)
  else if topkGroups = 0 ∨ numGroups < topkGroups then
    .error ("router topk_groups must be in 1..=" ++ toString numGroups)
  else .ok { weight, correctionBias, topK, numGroups, topkGroups, normalize, routedScalingFactor }

/-- The sum of the two best scores of a group. -/
def topTwoSum (group : List V) : V :=
  O.sum (O.gather group ((O.argSort group).take (min 2 group.length)))

variable (router : NoAuxTcRouter V)

def rawScores (hidden : List (List V)) : List (List V) :=
  (O.matmulT hidden router.weight).map (·.map O.sigmoid)

/-- The scores that the selection goes by. -/
def selectionScores (raw : List V) : List V := List.zipWith O.add raw router.correctionBias

/-- The weights of the selected experts, by the uncorrected scores. -/
def expertWeights (raw : List V) (expertIds : List ℕ) : List V :=
  let weights := O.gather raw expertIds
  let weights := if router.normalize && 1 < router.topK then normalizeWeights O weights else weights
  weights.map (O.mul · (O.ofF32 router.routedScalingFactor))

/-- The experts of one token with their weights. -/
def route (raw : List V) : Except String (List ℕ × List V) := do
  let masked ← maskedScores O router.weight.length router.numGroups router.topkGroups
    (topTwoSum O) (router.selectionScores O raw)
  let expertIds ← O.narrowRow (O.argSort masked) router.topK
  pure (expertIds, router.expertWeights O raw expertIds)

def forward (hidden : List (List V)) : Except String (List (List ℕ) × List (List V)) := do
  let routes ← (router.rawScores O hidden).mapM (router.route O)
  pure (routes.map Prod.fst, routes.map Prod.snd)

end NoAuxTcRouter

/-- A projection acts on the rows of its input. -/
abbrev Projection (V : Type) := List V → List V

structure DenseMlp (V : Type) where
  gate : Projection V
  up : Projection V
  down : Projection V

structure DenseMoe (V : Type) where
  gateWeight : List (List V)
  experts : List (DenseMlp V)
  shared : Option (DenseMlp V)
  topK : ℕ
  numGroups : ℕ
  topkGroups : ℕ
  groupLimited : Bool
  normalize : Bool
  scaling : F32

namespace DenseMoe

variable (moe : DenseMoe V)

def scores (flat : List (List V)) : List (List V) :=
  (O.matmulT flat moe.gateWeight).map O.softmaxLastDim

/-- The weights of the selected experts. Normalized weights are not scaled. -/
def routeWeights (scores : List V) (ids : List ℕ) : List V :=
  let weights := O.gather scores ids
  if moe.normalize && 1 < moe.topK then normalizeWeights O weights
  else weights.map (O.mul · (O.ofF32 moe.scaling))

/-- The experts of one token with their weights. -/
def route (scores : List V) : Except String (List ℕ × List V) := do
  let selection ← if moe.groupLimited then
      maskedScores O moe.experts.length moe.numGroups moe.topkGroups O.maxLogit scores
    else pure scores
  let ids ← O.narrowRow (O.argSort selection) moe.topK
  pure (ids, moe.routeWeights O scores ids)

/-- The routing table of all tokens. -/
def routes (flat : List (List V)) : Except String (List (List ℕ) × List (List V)) := do
  let routes ← (moe.scores O flat).mapM (moe.route O)
  pure (routes.map Prod.fst, routes.map Prod.snd)

end DenseMoe

/-- The layer of a model, with its weights from the checkpoint. -/
def loadDenseMoe (config : DeepseekV3Config) (gateWeight : List (List V)) (loadMlp : ℕ → DenseMlp V)
    (sharedExperts : DenseMlp V) : DenseMoe V where
  gateWeight := gateWeight
  experts := (List.range config.nRoutedExperts).map loadMlp
  shared := if 0 < config.nSharedExperts then some sharedExperts else none
  topK := config.numExpertsPerTok
  numGroups := config.nGroup
  topkGroups := config.topkGroup
  groupLimited := config.topkMethod == "group_limited_greedy"
  normalize := config.normTopkProb
  scaling := config.routedScalingFactor

end Routers

/-! ## What is known of the operations -/

section Laws

variable {V : Type} [LinearOrder V] [OrderBot V] {O : MoeOps V}

/-- `arg_sort_last_dim(false)` is a permutation that sorts in descending order, `-∞` is the least
number, and the other operations do what their names say as long as places and shapes fit. -/
structure MoeOps.Lawful (O : MoeOps V) : Prop extends O.toTensorOps.Lawful where
  negInf_eq : O.negInf = ⊥
  max_eq : ∀ x y, O.max x y = max x y
  descends : ∀ xs, Descends (fun i => xs.getD i ⊥) xs.length (O.argSort xs)
  softmaxLastDim_eq : ∀ xs, O.softmaxLastDim xs = O.softmax xs
  gather_eq : ∀ (xs : List V) (ids : List ℕ), (∀ i ∈ ids, i < xs.length) →
    O.gather xs ids = ids.map fun i => xs.getD i O.zero
  narrowRow_ok {α : Type} : ∀ (xs : List α) (len : ℕ), len ≤ xs.length →
    O.narrowRow xs len = .ok (xs.take len)
  reshapeGroups_ok {α : Type} : ∀ (numGroups size : ℕ) (xs : List α),
    xs.length = numGroups * size →
    O.reshapeGroups numGroups size xs = .ok ((List.range numGroups).map (groupOf size xs))
  length_scatterAddOnes : ∀ mask ids : List ℕ, (∀ i ∈ ids, i < mask.length) →
    (O.scatterAddOnes mask ids).length = mask.length
  getElem?_scatterAddOnes : ∀ (mask ids : List ℕ) (i : ℕ), (∀ i ∈ ids, i < mask.length) →
    (O.scatterAddOnes mask ids)[i]? = mask[i]?.map (· + ids.count i)

namespace MoeOps.Lawful

variable {numGroups size : ℕ} {ids : List ℕ}

theorem getElem?_expertMask (hO : O.Lawful) (hids : ∀ g ∈ ids, g < numGroups) {e : ℕ}
    (he : e < numGroups * size) :
    ((O.scatterAddOnes (List.replicate numGroups 0) ids).flatMap (List.replicate size))[e]? =
      some (ids.count (e / size)) := by
  have hsize : 0 < size := Nat.pos_of_mul_pos_left (Nat.zero_lt_of_lt he)
  have hgroup : e / size < numGroups := Nat.div_lt_of_lt_mul (by rwa [Nat.mul_comm])
  conv_lhs => rw [← Nat.div_add_mod' e size]
  rw [getElem?_flatMap_block (fun _ _ => List.length_replicate) (Nat.mod_lt e hsize),
    hO.getElem?_scatterAddOnes _ _ _ (by simpa using hids), List.getElem?_replicate_of_lt hgroup,
    Option.map_some, Option.bind_some, List.getElem?_replicate_of_lt (Nat.mod_lt e hsize),
    Nat.zero_add]

theorem length_expertMask (hO : O.Lawful) (hids : ∀ g ∈ ids, g < numGroups) :
    ((O.scatterAddOnes (List.replicate numGroups 0) ids).flatMap (List.replicate size)).length =
      numGroups * size := by
  rw [length_flatMap_block fun _ _ => List.length_replicate,
    hO.length_scatterAddOnes _ _ (by simpa using hids), List.length_replicate]

theorem length_softmaxLastDim (hO : O.Lawful) (xs : List V) :
    (O.softmaxLastDim xs).length = xs.length := by
  rw [hO.softmaxLastDim_eq, softmax, List.length_map, List.length_map]

theorem length_gather (hO : O.Lawful) {xs : List V} (h : ∀ i ∈ ids, i < xs.length) :
    (O.gather xs ids).length = ids.length := by
  rw [hO.gather_eq _ _ h, List.length_map]

end MoeOps.Lawful

end Laws

/-! ## What is selected -/

section Selected

variable {V : Type} [LinearOrder V] [OrderBot V] {O : MoeOps V}

/-- A selection of group-limited routing: the best experts of the groups with the highest scores. -/
def Routed (groupScore : List V → V) (numGroups topkGroups topK : ℕ) (scores : List V)
    (ids : List ℕ) : Prop :=
  ∃ groups, Selects (fun g => groupScore (groupOf (scores.length / numGroups) scores g))
      (Finset.range numGroups) topkGroups groups ∧
    Selects (fun e => scores.getD e ⊥)
      (members (scores.length / numGroups) scores.length groups) topK ids

variable {numGroups topkGroups topK : ℕ} {scores : List V}

theorem MoeOps.Lawful.length_argSort (hO : O.Lawful) (xs : List V) :
    (O.argSort xs).length = xs.length := by
  rw [(hO.descends xs).perm.length_eq, List.length_range]

theorem MoeOps.Lawful.narrow_argSort (hO : O.Lawful) {xs : List V} {k : ℕ} (hk : k ≤ xs.length) :
    ∃ ids, O.narrowRow (O.argSort xs) k = .ok ids ∧
      Selects (fun i => xs.getD i ⊥) (Finset.range xs.length) k ids :=
  ⟨_, hO.narrowRow_ok _ _ (hk.trans_eq (hO.length_argSort xs).symm),
    (hO.descends xs).selects_take hk⟩

theorem MoeOps.Lawful.maskedScores_ok (hO : O.Lawful) (groupScore : List V → V)
    (hdvd : scores.length = numGroups * (scores.length / numGroups)) (hk : topkGroups ≤ numGroups) :
    ∃ groups masked,
      Selects (fun g => groupScore (groupOf (scores.length / numGroups) scores g))
        (Finset.range numGroups) topkGroups groups ∧
      maskedScores O scores.length numGroups topkGroups groupScore scores = .ok masked ∧
      masked.length = scores.length ∧ ∀ e < scores.length, masked.getD e ⊥ =
        if e ∈ members (scores.length / numGroups) scores.length groups then scores.getD e ⊥
        else ⊥ := by
  have hgroups : ((((List.range numGroups).map (groupOf (scores.length / numGroups) scores)).map
      groupScore).length) = numGroups := by
    rw [List.length_map, List.length_map, List.length_range]
  obtain ⟨groups, hnarrow, hselects⟩ := hO.narrow_argSort (hk.trans_eq hgroups.symm)
  rw [hgroups] at hselects
  have hlt : ∀ g ∈ groups, g < numGroups := fun g hg =>
    Finset.mem_range.mp (hselects.mem_pool g hg)
  refine ⟨groups, List.zipWith (fun m x => if m = 0 then O.negInf else x)
    ((O.scatterAddOnes (List.replicate numGroups 0) groups).flatMap
      (List.replicate (scores.length / numGroups))) scores,
    hselects.congr fun g hg => ?_, ?_, ?_, fun e he => ?_⟩
  · have hrange := List.getElem?_range (Finset.mem_range.mp hg)
    rw [List.getD_eq_getElem?_getD, List.getElem?_map, List.getElem?_map, hrange]
    rfl
  · rw [maskedScores, hO.reshapeGroups_ok _ _ _ hdvd]
    change (O.narrowRow _ _ >>= _) = _
    rw [hnarrow]
    rfl
  · rw [List.length_zipWith, hO.length_expertMask hlt, ← hdvd, Nat.min_self]
  · have hmask := hO.getElem?_expertMask hlt (he.trans_eq hdvd)
    rw [List.getD_eq_getElem?_getD, List.getD_eq_getElem?_getD, List.getElem?_zipWith, hmask,
      List.getElem?_eq_getElem he]
    simp only [Option.getD_some, List.count_eq_zero, hO.negInf_eq, ite_not, mem_members, he,
      true_and]

omit [OrderBot V] in
theorem card_selected {groups : List ℕ} {score : ℕ → V}
    (hdvd : scores.length = numGroups * (scores.length / numGroups)) (hpos : 0 < scores.length)
    (h : Selects score (Finset.range numGroups) topkGroups groups) :
    (members (scores.length / numGroups) scores.length groups).card =
      topkGroups * (scores.length / numGroups) := by
  have hsize : 0 < scores.length / numGroups := by
    refine Nat.pos_of_ne_zero fun hzero => ?_
    rw [hzero, Nat.mul_zero] at hdvd
    omega
  have hcard := card_members hsize h.nodup fun g hg => Finset.mem_range.mp (h.mem_pool g hg)
  rwa [← hdvd, h.length_eq] at hcard

theorem Routed.le {groupScore : List V → V} {ids : List ℕ}
    (h : Routed groupScore numGroups topkGroups topK scores ids)
    (hdvd : scores.length = numGroups * (scores.length / numGroups)) (hpos : 0 < scores.length) :
    topK ≤ topkGroups * (scores.length / numGroups) := by
  obtain ⟨groups, hgroups, hselects⟩ := h
  exact hselects.le_card.trans_eq (card_selected hdvd hpos hgroups)

/-- Group-limited routing keeps to the best groups exactly if these have enough experts. -/
theorem MoeOps.Lawful.routed_iff (hO : O.Lawful) (groupScore : List V → V)
    (hdvd : scores.length = numGroups * (scores.length / numGroups))
    (hk : topkGroups ≤ numGroups) (hpos : 0 < topK) (hle : topK ≤ scores.length) :
    ∃ masked ids, maskedScores O scores.length numGroups topkGroups groupScore scores = .ok masked ∧
      O.narrowRow (O.argSort masked) topK = .ok ids ∧ ((∀ x ∈ scores, x ≠ ⊥) →
        (Routed groupScore numGroups topkGroups topK scores ids ↔
          topK ≤ topkGroups * (scores.length / numGroups))) := by
  obtain ⟨groups, masked, hgroups, hmasked, hlen, hentries⟩ :=
    hO.maskedScores_ok groupScore hdvd hk
  obtain ⟨ids, hnarrow, hids⟩ := hO.narrow_argSort (hle.trans_eq hlen.symm)
  refine ⟨masked, ids, hmasked, hnarrow, fun hfinite => ?_⟩
  constructor
  · exact fun h => h.le hdvd (hpos.trans_le hle)
  · intro henough
    have hcard := card_selected hdvd (hpos.trans_le hle) hgroups
    rw [hlen] at hids
    refine ⟨groups, hgroups, Selects.of_mask
      (hids.congr fun e he => hentries e (Finset.mem_range.mp he)) (members_subset _ _ _)
      (fun e he => ?_) (henough.trans_eq hcard.symm)⟩
    have hlt := (mem_members.mp he).1
    rw [List.getD_eq_getElem?_getD, List.getElem?_eq_getElem hlt, Option.getD_some]
    exact hfinite _ (List.getElem_mem hlt)

/-- The sum of the two best scores of a group, whatever order the sort gives to ties. -/
theorem MoeOps.Lawful.topTwoSum_eq (hO : O.Lawful) (group : List V) :
    NoAuxTcRouter.topTwoSum O group = O.sum ((Ranking.descending group).take 2) := by
  have hdescends := hO.descends group
  have hget : ∀ i < group.length, ∀ d d' : V, group.getD i d = group.getD i d' := by
    intro i hi d d'
    rw [List.getD_eq_getElem?_getD, List.getD_eq_getElem?_getD, List.getElem?_eq_getElem hi]
    rfl
  have hrange : (List.range group.length).map (group.getD · O.zero) = group := by
    refine List.ext_getElem (by rw [List.length_map, List.length_range]) fun i _ hi => ?_
    rw [List.getElem_map, List.getElem_range, List.getD_eq_getElem?_getD,
      List.getElem?_eq_getElem hi, Option.getD_some]
  have hlt : ∀ i ∈ O.argSort group, i < group.length := fun i hi =>
    List.mem_range.mp (hdescends.perm.mem_iff.mp hi)
  have hperm : ((O.argSort group).map (group.getD · O.zero)).Perm group := by
    have hmap := hdescends.perm.map (group.getD · O.zero)
    rwa [hrange] at hmap
  have hsorted : ((O.argSort group).map (group.getD · O.zero)).Pairwise (· ≥ ·) := by
    rw [List.pairwise_map]
    refine hdescends.pairwise.imp_of_mem fun {i j} hi hj hle => ?_
    rw [ge_iff_le, hget i (hlt i hi) _ ⊥, hget j (hlt j hj) _ ⊥]
    exact hle
  have hlen := hperm.length_eq
  rw [NoAuxTcRouter.topTwoSum, ← Ranking.eq_descending hperm hsorted,
    hO.gather_eq _ _ fun i hi => hlt i (List.mem_of_mem_take hi), List.map_take]
  refine congrArg O.sum (List.take_eq_take_iff.mpr ?_)
  omega

theorem MoeOps.Lawful.maxLogit_eq (hO : O.Lawful) :
    O.maxLogit = fun group => group.foldl max ⊥ := by
  have hmax : O.max = max := funext₂ hO.max_eq
  funext group
  rw [Arithmetic.maxLogit, hO.negInf_eq, hmax]

/-! ## Both routers -/

theorem DeepseekV3Config.of_validate (config : DeepseekV3Config)
    (h : config.validate = .ok ()) : 0 < config.nGroup ∧
      config.nRoutedExperts % config.nGroup = 0 ∧ config.topkGroup ≤ config.nGroup ∧
      0 < config.numExpertsPerTok ∧ config.numExpertsPerTok ≤ config.nRoutedExperts := by
  unfold validate at h
  split_ifs at h
  omega

namespace NoAuxTcRouter

omit [LinearOrder V] [OrderBot V] in
theorem new_eq_ok {weight : List (List V)} {bias : List V} {normalize : Bool} {scaling : F32}
    {router : NoAuxTcRouter V}
    (h : new weight bias topK numGroups topkGroups normalize scaling = .ok router) :
    router = ⟨weight, bias, topK, numGroups, topkGroups, normalize, scaling⟩ ∧
      bias.length = weight.length ∧ 0 < numGroups ∧ weight.length % numGroups = 0 ∧
      topkGroups ≤ numGroups ∧ 0 < topK ∧ topK ≤ weight.length := by
  unfold new at h
  dsimp only at h
  split_ifs at h
  refine ⟨(Except.ok.inj h).symm, ?_⟩
  omega

theorem route_spec (hO : O.Lawful) (router : NoAuxTcRouter V) {raw : List V}
    (hraw : raw.length = router.weight.length)
    (hbias : router.correctionBias.length = router.weight.length)
    (hdvd : router.weight.length % router.numGroups = 0)
    (hk : router.topkGroups ≤ router.numGroups) (hpos : 0 < router.topK)
    (hle : router.topK ≤ router.weight.length) :
    ∃ routes, router.route O raw = .ok routes ∧
      ((∀ x ∈ router.selectionScores O raw, x ≠ ⊥) →
        (Routed (fun group => O.sum ((Ranking.descending group).take 2)) router.numGroups
            router.topkGroups router.topK (router.selectionScores O raw) routes.1 ↔
          router.topK ≤ router.topkGroups * (router.weight.length / router.numGroups))) := by
  have hlen : (router.selectionScores O raw).length = router.weight.length := by
    rw [selectionScores, List.length_zipWith, hraw, hbias, Nat.min_self]
  have hsize := (Nat.mul_div_cancel' (Nat.dvd_of_mod_eq_zero hdvd)).symm
  rw [← hlen] at hsize hle
  obtain ⟨masked, ids, hmasked, hnarrow, hrouted⟩ :=
    hO.routed_iff (topTwoSum O) hsize hk hpos hle
  have htop : topTwoSum O = fun group => O.sum ((Ranking.descending group).take 2) :=
    funext hO.topTwoSum_eq
  rw [hlen] at hmasked hrouted
  rw [htop] at hrouted
  refine ⟨(ids, router.expertWeights O raw ids), ?_, hrouted⟩
  rw [route, hmasked]
  change (O.narrowRow _ _ >>= _) = _
  rw [hnarrow]
  rfl

theorem forward_spec (hO : O.Lawful) {weight : List (List V)} {bias : List V} {normalize : Bool}
    {scaling : F32} {router : NoAuxTcRouter V}
    (h : new weight bias topK numGroups topkGroups normalize scaling = .ok router)
    (hidden : List (List V)) :
    ∃ ids weights, router.forward O hidden = .ok (ids, weights) ∧
      List.Forall₂ (fun raw ids => (∀ x ∈ router.selectionScores O raw, x ≠ ⊥) →
        (Routed (fun group => O.sum ((Ranking.descending group).take 2)) numGroups topkGroups topK
            (router.selectionScores O raw) ids ↔
          topK ≤ topkGroups * (weight.length / numGroups)))
        (router.rawScores O hidden) ids := by
  obtain ⟨hrouter, hbias, -, hdvd, hk, hpos, hle⟩ := new_eq_ok h
  have hraw : ∀ raw ∈ router.rawScores O hidden, raw.length = weight.length := by
    intro raw hmem
    obtain ⟨logits, hlogits, rfl⟩ := List.mem_map.mp hmem
    obtain ⟨x, -, rfl⟩ := List.mem_map.mp hlogits
    rw [List.length_map, List.length_map, hrouter]
  subst hrouter
  obtain ⟨routes, hroutes, hall⟩ := exists_mapM fun raw hmem =>
    route_spec hO ⟨weight, bias, topK, numGroups, topkGroups, normalize, scaling⟩ (hraw raw hmem)
      hbias hdvd hk hpos hle
  refine ⟨_, _, by rw [forward, hroutes]; rfl, ?_⟩
  exact List.forall₂_map_right_iff.mpr hall

end NoAuxTcRouter

theorem DenseMoe.routes_spec (hO : O.Lawful) {config : DeepseekV3Config}
    (h : config.validate = .ok ()) (hlimited : config.topkMethod = "group_limited_greedy")
    {gateWeight : List (List V)} (hgate : gateWeight.length = config.nRoutedExperts)
    (loadMlp : ℕ → DenseMlp V) (sharedExperts : DenseMlp V) (flat : List (List V)) :
    ∃ ids weights, (loadDenseMoe config gateWeight loadMlp sharedExperts).routes O flat =
        .ok (ids, weights) ∧
      List.Forall₂ (fun scores ids => (∀ x ∈ scores, x ≠ ⊥) →
        (Routed (fun group => group.foldl max ⊥) config.nGroup config.topkGroup
            config.numExpertsPerTok scores ids ↔
          config.numExpertsPerTok ≤ config.topkGroup * (config.nRoutedExperts / config.nGroup)))
        ((loadDenseMoe config gateWeight loadMlp sharedExperts).scores O flat) ids := by
  obtain ⟨hgroups, hmod, hk, hpos, hle⟩ := config.of_validate h
  have hroute : ∀ scores ∈ (loadDenseMoe config gateWeight loadMlp sharedExperts).scores O flat,
      ∃ routes, (loadDenseMoe config gateWeight loadMlp sharedExperts).route O scores =
        .ok routes ∧ ((∀ x ∈ scores, x ≠ ⊥) →
          (Routed (fun group => group.foldl max ⊥) config.nGroup config.topkGroup
              config.numExpertsPerTok scores routes.1 ↔
            config.numExpertsPerTok ≤
              config.topkGroup * (config.nRoutedExperts / config.nGroup))) := by
    intro scores hscores
    have hlen : scores.length = config.nRoutedExperts := by
      obtain ⟨logits, hlogits, rfl⟩ := List.mem_map.mp hscores
      obtain ⟨x, -, rfl⟩ := List.mem_map.mp hlogits
      rw [hO.length_softmaxLastDim, List.length_map]
      exact hgate
    have hdvd : config.nRoutedExperts = config.nGroup * (config.nRoutedExperts / config.nGroup) :=
      (Nat.mul_div_cancel' (Nat.dvd_of_mod_eq_zero hmod)).symm
    rw [← hlen] at hdvd hle
    obtain ⟨masked, ids, hmasked, hnarrow, hrouted⟩ :=
      hO.routed_iff O.maxLogit hdvd hk hpos hle
    rw [hlen] at hmasked hrouted
    rw [hO.maxLogit_eq] at hrouted
    have hexperts : (loadDenseMoe config gateWeight loadMlp sharedExperts).experts.length =
        config.nRoutedExperts := by
      rw [loadDenseMoe, List.length_map, List.length_range]
    have hgrouped : (loadDenseMoe config gateWeight loadMlp sharedExperts).groupLimited = true :=
      beq_iff_eq.mpr hlimited
    refine ⟨(ids,
      (loadDenseMoe config gateWeight loadMlp sharedExperts).routeWeights O scores ids), ?_,
      hrouted⟩
    rw [route, hgrouped, hexperts, if_pos rfl]
    change (maskedScores O _ config.nGroup config.topkGroup O.maxLogit scores >>= _) = _
    rw [hmasked]
    change (O.narrowRow _ config.numExpertsPerTok >>= _) = _
    rw [hnarrow]
    rfl
  obtain ⟨routes, hroutes, hall⟩ := exists_mapM hroute
  refine ⟨_, _, by rw [DenseMoe.routes, hroutes]; rfl, ?_⟩
  exact List.forall₂_map_right_iff.mpr hall

/-- Both routers, for an accepted configuration: they select the best experts of the best groups
exactly if these groups have as many experts as are selected. -/
theorem routing_iff (hO : O.Lawful) {config : DeepseekV3Config} (hv : config.validate = .ok ()) :
    (∀ (weight : List (List V)) (bias : List V) (router : NoAuxTcRouter V),
      NoAuxTcRouter.new weight bias config.numExpertsPerTok config.nGroup config.topkGroup
        config.normTopkProb config.routedScalingFactor = .ok router →
      ∀ hidden, ∃ ids weights, router.forward O hidden = .ok (ids, weights) ∧
        List.Forall₂ (fun raw ids => (∀ x ∈ router.selectionScores O raw, x ≠ ⊥) →
          (Routed (fun group => O.sum ((Ranking.descending group).take 2)) config.nGroup
              config.topkGroup config.numExpertsPerTok (router.selectionScores O raw) ids ↔
            config.numExpertsPerTok ≤ config.topkGroup * (weight.length / config.nGroup)))
          (router.rawScores O hidden) ids) ∧
    ∀ (gateWeight : List (List V)) (loadMlp : ℕ → DenseMlp V) (sharedExperts : DenseMlp V),
      gateWeight.length = config.nRoutedExperts → config.topkMethod = "group_limited_greedy" →
      ∀ flat, ∃ ids weights, (loadDenseMoe config gateWeight loadMlp sharedExperts).routes O flat =
          .ok (ids, weights) ∧
        List.Forall₂ (fun scores ids => (∀ x ∈ scores, x ≠ ⊥) →
          (Routed (fun group => group.foldl max ⊥) config.nGroup config.topkGroup
              config.numExpertsPerTok scores ids ↔
            config.numExpertsPerTok ≤ config.topkGroup * (config.nRoutedExperts / config.nGroup)))
          ((loadDenseMoe config gateWeight loadMlp sharedExperts).scores O flat) ids := by
  constructor
  · exact fun weight bias router hnew hidden => router.forward_spec hO hnew hidden
  · exact fun gateWeight loadMlp sharedExperts hgate hlimited flat =>
      DenseMoe.routes_spec hO hv hlimited hgate loadMlp sharedExperts flat

end Selected

/-! ## Too many experts for the groups -/

section Exact

variable {K : Type} [Field K] [LinearOrder K]

/-- Row-major tensors, and a sort that puts the lower index first among ties. -/
def exactMoeOps (A : Arithmetic (WithBot K)) : MoeOps (WithBot K) where
  toArithmetic := A
  toTensorOps := .rowMajor
  argSort xs := Pruning.ranked (fun i => OrderDual.toDual (xs.getD i ⊥)) (List.range xs.length)
  softmaxLastDim xs :=
    let exps := xs.map fun x => A.exp (A.sub x (A.maxLogit xs))
    exps.map (A.div · (exps.foldl A.add A.zero))
  gather xs ids := ids.map fun i => xs.getD i A.zero
  narrowRow xs len :=
    if len ≤ xs.length then .ok (xs.take len) else .error "narrow: length out of range"
  reshapeGroups numGroups size xs :=
    if xs.length = numGroups * size then .ok ((List.range numGroups).map (groupOf size xs))
    else .error "reshape: shape mismatch"
  scatterAddOnes mask ids := ids.foldl (fun mask i => mask.modify i (· + 1)) mask

def ExactOps.moeOps (X : ExactOps K) : MoeOps (WithBot K) := exactMoeOps X.arithmetic

omit [Field K] [LinearOrder K] in
theorem map₂_assoc {f : K → K → K} (h : ∀ x y z, f (f x y) z = f x (f y z)) (x y z : WithBot K) :
    WithBot.map₂ f (WithBot.map₂ f x y) z = WithBot.map₂ f x (WithBot.map₂ f y z) := by
  cases x with
  | bot => rfl
  | coe x =>
    cases y with
    | bot => rfl
    | coe y =>
      cases z with
      | bot => rfl
      | coe z => exact congrArg ((↑) : K → WithBot K) (h x y z)

omit [Field K] [LinearOrder K] in
theorem map₂_comm {f : K → K → K} (h : ∀ x y, f x y = f y x) (x y : WithBot K) :
    WithBot.map₂ f x y = WithBot.map₂ f y x := by
  cases x with
  | bot => cases y <;> rfl
  | coe x =>
    cases y with
    | bot => rfl
    | coe y => exact congrArg ((↑) : K → WithBot K) (h x y)

instance (X : ExactOps K) : Std.Associative X.moeOps.add := ⟨map₂_assoc add_assoc⟩

instance (X : ExactOps K) : Std.Commutative X.moeOps.add := ⟨map₂_comm add_comm⟩

instance (X : ExactOps K) : Std.Associative X.moeOps.mul := ⟨map₂_assoc mul_assoc⟩

instance (X : ExactOps K) : Std.Commutative X.moeOps.mul := ⟨map₂_comm mul_comm⟩

omit [Field K] [LinearOrder K] in
theorem length_foldl_modify (mask ids : List ℕ) :
    (ids.foldl (fun mask i => mask.modify i (· + 1)) mask).length = mask.length := by
  induction ids generalizing mask with
  | nil => rfl
  | cons i ids ih => rw [List.foldl_cons, ih, List.length_modify]

omit [Field K] [LinearOrder K] in
theorem getElem?_foldl_modify (mask ids : List ℕ) (i : ℕ) :
    (ids.foldl (fun mask i => mask.modify i (· + 1)) mask)[i]? =
      mask[i]?.map (· + ids.count i) := by
  induction ids generalizing mask with
  | nil =>
    rw [List.foldl_nil, List.count_nil]
    exact Option.map_id'.symm
  | cons j ids ih =>
    rw [List.foldl_cons, ih, List.getElem?_modify, List.count_cons]
    cases mask[i]? with
    | none => rfl
    | some x =>
      by_cases h : j = i
      · simp [h, Nat.add_right_comm, Nat.add_assoc]
      · simp [h]

omit [Field K] in
theorem exactMoeOps_lawful {A : Arithmetic (WithBot K)} (hneg : A.negInf = ⊥)
    (hmax : ∀ x y, A.max x y = max x y) : (exactMoeOps A).Lawful where
  toLawful := TensorOps.rowMajor_lawful
  negInf_eq := hneg
  max_eq := hmax
  descends xs := by
    have hpairs : (Pruning.ranked (fun i => OrderDual.toDual (xs.getD i ⊥))
        (List.range xs.length)).Pairwise fun i j =>
          OrderDual.toDual (xs.getD i ⊥) ≤ OrderDual.toDual (xs.getD j ⊥) :=
      Pruning.pairwise_ranked _
    exact ⟨Pruning.ranked_perm _, hpairs⟩
  softmaxLastDim_eq _ := rfl
  gather_eq _ _ _ := rfl
  narrowRow_ok _ _ h := if_pos h
  reshapeGroups_ok _ _ _ h := if_pos h
  length_scatterAddOnes mask ids _ := length_foldl_modify mask ids
  getElem?_scatterAddOnes mask ids i _ := getElem?_foldl_modify mask ids i

theorem ExactOps.moeOps_lawful (X : ExactOps K) : X.moeOps.Lawful :=
  exactMoeOps_lawful rfl fun _ _ => rfl

end Exact

/-- Four experts in two groups, one of which is selected. -/
def twoGroups (topK : ℕ) : DeepseekV3Config where
  hiddenSize := 1
  numAttentionHeads := 1
  nSharedExperts := 0
  nRoutedExperts := 4
  numExpertsPerTok := topK
  qkNopeHeadDim := 1
  qkRopeHeadDim := 1
  vHeadDim := 1
  nGroup := 2
  topkGroup := 1
  topkMethod := "group_limited_greedy"

def evenRouter (topK : ℕ) : NoAuxTcRouter (WithBot ℚ) :=
  ⟨[[0], [0], [0], [0]], [0, 0, 0, 0], topK, 2, 1, false, .fin 1⟩

theorem routing_iff_twoGroups :
    (∃ ids weights, (evenRouter 2).forward ExactOps.rational.moeOps [[0]] = .ok (ids, weights) ∧
      List.Forall₂ (fun raw ids =>
        (∀ x ∈ (evenRouter 2).selectionScores ExactOps.rational.moeOps raw, x ≠ ⊥) →
          (Routed (fun group => ExactOps.rational.moeOps.sum ((Ranking.descending group).take 2)) 2
              1 2 ((evenRouter 2).selectionScores ExactOps.rational.moeOps raw) ids ↔
            2 ≤ 1 * (4 / 2)))
        ((evenRouter 2).rawScores ExactOps.rational.moeOps [[0]]) ids) ∧
    ∃ ids weights,
      (loadDenseMoe (twoGroups 2) [[0], [0], [0], [0]] (fun _ => ⟨id, id, id⟩) ⟨id, id, id⟩).routes
          ExactOps.rational.moeOps [[0]] = .ok (ids, weights) ∧
        List.Forall₂ (fun scores ids => (∀ x ∈ scores, x ≠ ⊥) →
          (Routed (fun group => group.foldl max ⊥) 2 1 2 scores ids ↔ 2 ≤ 1 * (4 / 2)))
          ((loadDenseMoe (twoGroups 2) [[0], [0], [0], [0]] (fun _ => ⟨id, id, id⟩)
            ⟨id, id, id⟩).scores ExactOps.rational.moeOps [[0]]) ids := by
  have hv : (twoGroups 2).validate = .ok () := rfl
  have hnew : NoAuxTcRouter.new (evenRouter 2).weight (evenRouter 2).correctionBias 2 2 1 false
      (.fin 1) = .ok (evenRouter 2) := rfl
  have hboth := routing_iff ExactOps.rational.moeOps_lawful hv
  exact ⟨hboth.1 _ _ _ hnew [[0]], hboth.2 _ _ _ rfl rfl [[0]]⟩

/-- Three experts of one group of two: the third comes from the masked group. -/
theorem not_routing : ¬ ∀ (config : DeepseekV3Config) (weight : List (List (WithBot ℚ)))
    (bias : List (WithBot ℚ)) (router : NoAuxTcRouter (WithBot ℚ))
    (hidden : List (List (WithBot ℚ))), config.validate = .ok () →
    NoAuxTcRouter.new weight bias config.numExpertsPerTok config.nGroup config.topkGroup
      config.normTopkProb config.routedScalingFactor = .ok router →
    ∃ ids weights, router.forward ExactOps.rational.moeOps hidden = .ok (ids, weights) ∧
      List.Forall₂ (fun raw ids =>
        (∀ x ∈ router.selectionScores ExactOps.rational.moeOps raw, x ≠ ⊥) →
          Routed (fun group => ExactOps.rational.moeOps.sum ((Ranking.descending group).take 2))
            config.nGroup config.topkGroup config.numExpertsPerTok
            (router.selectionScores ExactOps.rational.moeOps raw) ids)
        (router.rawScores ExactOps.rational.moeOps hidden) ids := by
  intro h
  obtain ⟨ids, weights, -, hall⟩ := h (twoGroups 3) [[0], [0], [0], [0]] [0, 0, 0, 0]
    (evenRouter 3) [[0]] rfl rfl
  have hraw : (evenRouter 3).rawScores ExactOps.rational.moeOps [[0]] =
      [List.replicate 4 ((1 / 2 : ℚ) : WithBot ℚ)] := by decide +kernel
  have hscores : (evenRouter 3).selectionScores ExactOps.rational.moeOps
      (List.replicate 4 ((1 / 2 : ℚ) : WithBot ℚ)) =
        List.replicate 4 ((1 / 2 : ℚ) : WithBot ℚ) := by decide +kernel
  rw [hraw] at hall
  cases hall with
  | cons hrouted _ =>
    rw [hscores] at hrouted
    have hfinite : ∀ x ∈ List.replicate 4 ((1 / 2 : ℚ) : WithBot ℚ), x ≠ ⊥ := by
      intro x hx
      rw [List.eq_of_mem_replicate hx]
      exact WithBot.coe_ne_bot
    exact absurd ((hrouted hfinite).le rfl (by decide)) (by decide)

end Rllm
