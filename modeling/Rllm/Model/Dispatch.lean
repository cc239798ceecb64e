import Rllm.Library.Scatter
import Rllm.Model.BlockFp8

/-! # Dispatch to experts

A layer of experts gives each token the weighted sum of the experts that its routes
name. One implementation gathers the tokens of each expert, runs the expert once and
adds the rows back; the other one runs the selected experts token by token.
-/

namespace Rllm

section Models

variable {V : Type} (O : MoeOps V)

def MoeOps.silu (x : V) : V := O.div x (O.add O.one (O.exp (O.sub O.zero x)))

/-- Rows of one shape, entry by entry. -/
def zipRow {α β γ : Type} (f : α → β → γ) (xs : List α) (ys : List β) : Except String (List γ) :=
  if xs.length = ys.length then .ok (List.zipWith f xs ys) else .error "shape mismatch"

/-- The size of the last dimension and the number of rows. -/
def rowsOf (missing : String) (hidden : Tensor V) : Except String (ℕ × ℕ) :=
  match hidden.shape.getLast? with
  | none => .error missing
  | some width =>
    if width = 0 then .error "attempt to divide by zero"
    else .ok (width, hidden.data.length / width)

/-! ## Experts over plain projections -/

namespace DenseMlp

def forwardRow (mlp : DenseMlp V) (x : List V) : Except String (List V) := do
  let y ← zipRow O.mul ((mlp.gate x).map O.silu) (mlp.up x)
  pure (mlp.down y)

def forward (mlp : DenseMlp V) (hidden : List (List V)) : Except String (List (List V)) :=
  hidden.mapM (mlp.forwardRow O)

end DenseMlp

namespace DenseMoe

/-- The tokens that are routed to an expert, as `u32` values, with their weights. -/
def assigned (cpuIds : List (List ℕ)) (cpuWeights : List (List V)) (tokens topK expertId : ℕ) :
    Except String (List (ℕ × V)) :=
  (List.range tokens).foldlM (fun acc token =>
    (List.range topK).foldlM (fun acc route => do
      let ids ← Checked.index cpuIds token
      let id ← Checked.index ids route
      if id = expertId then
        let weights ← Checked.index cpuWeights token
        let weight ← Checked.index weights route
        pure (acc ++ [(asU32 token, weight)])
      else pure acc) acc) []

/-- Add rows at the given indices. -/
def indexAdd (output : List (List V)) (rows : List (ℕ × List V)) :
    Except String (List (List V)) :=
  rows.foldlM (fun output row => do
    let old ← Checked.index output row.1
    let new ← zipRow O.add old row.2
    Checked.set output row.1 new) output

variable (moe : DenseMoe V)

/-- Run one expert on its tokens. -/
def runExpert (flat : List (List V)) (cpuIds : List (List ℕ)) (cpuWeights : List (List V))
    (output : List (List V)) (expert : DenseMlp V × ℕ) : Except String (List (List V)) := do
  let routes ← assigned cpuIds cpuWeights flat.length moe.topK expert.2
  if routes.isEmpty then pure output
  else
    let indices := routes.map Prod.fst
    let inputs ← indices.mapM (Checked.index flat)
    let selected ← expert.1.forward O inputs
    let weighted := List.zipWith (fun row weight => row.map (O.mul · weight)) selected
      (routes.map Prod.snd)
    indexAdd O output (indices.zip weighted)

/-- The part of `forward` behind the router. -/
def dispatch (flat : List (List V)) (cpuIds : List (List ℕ)) (cpuWeights : List (List V)) :
    Except String (List (List V)) := do
  let output ← moe.experts.zipIdx.foldlM (moe.runExpert O flat cpuIds cpuWeights)
    (flat.map fun row => List.replicate row.length O.zero)
  match moe.shared with
  | none => pure output
  | some shared => do
    let rows ← shared.forward O flat
    (output.zip rows).mapM fun row => zipRow O.add row.1 row.2

/-- The layer, with a router that gives the experts of every row and their weights. -/
def forwardBy (route : List (List V) → Except String (List (List ℕ) × List (List V)))
    (hidden : Tensor V) : Except String (Tensor V) := do
  let (width, tokens) ← rowsOf "dimension out of range" hidden
  let flat ← O.reshape hidden [tokens, width]
  let rows := flat.toRows tokens width
  let (cpuIds, cpuWeights) ← route rows
  let output ← moe.dispatch O rows cpuIds cpuWeights
  let output ← Tensor.fromVec output.flatten [tokens, width]
  O.reshape output hidden.shape

def forward (hidden : Tensor V) : Except String (Tensor V) :=
  moe.forwardBy O (moe.routes O) hidden

end DenseMoe

/-! ## Experts over stacked FP8 matrices -/

structure DeepseekV3Moe (V : Type) where
  router : NoAuxTcRouter V
  gateExperts : SelectedBlockFp8Experts V
  upExperts : SelectedBlockFp8Experts V
  downExperts : SelectedBlockFp8Experts V
  sharedGate : Option (BlockFp8Linear V)
  sharedUp : Option (BlockFp8Linear V)
  sharedDown : Option (BlockFp8Linear V)

namespace DeepseekV3Moe

variable (decode : UInt8 → V)

def new (router : NoAuxTcRouter V)
    (gateExperts upExperts downExperts : SelectedBlockFp8Experts V)
    (sharedGate sharedUp sharedDown : Option (BlockFp8Linear V)) :
    Except String (DeepseekV3Moe V) :=
  let sharedCount := sharedGate.isSome.toNat + sharedUp.isSome.toNat + sharedDown.isSome.toNat
  if sharedCount ≠ 0 ∧ sharedCount ≠ 3 then
    .error "shared expert gate/up/down projections must be provided together"
  else
    .ok { router, gateExperts, upExperts, downExperts, sharedGate, sharedUp, sharedDown }

variable (moe : DeepseekV3Moe V)

/-- The weighted sums of the selected experts, one row for each token. -/
def routed (hidden : Tensor V) (expertIds : Tensor UInt32) (expertWeights : Tensor V) :
    Except String (Tensor V) := do
  let (tokens, topK) ← Gptq.dims2 expertIds
  let gate ← moe.gateExperts.forwardReference O decode hidden expertIds true
  let up ← moe.upExperts.forwardReference O decode hidden expertIds true
  let intermediate ← O.zipWith O.mul (gate.map O.silu) up
  let routed ← moe.downExperts.forwardReference O decode intermediate expertIds false
  let weights ← O.reshape expertWeights [tokens, topK, 1]
  let weights ← O.repeatDim weights 2 (routed.shape.getLastD 0)
  let weighted ← O.zipWith O.mul routed weights
  O.sumMiddle O.sum weighted

/-- The sum with the shared expert, if there is one. -/
def addShared (hidden output : Tensor V) : Except String (Tensor V) :=
  match moe.sharedGate, moe.sharedUp, moe.sharedDown with
  | some gate, some up, some down => do
    let gate ← gate.forwardReference O decode hidden
    let up ← up.forwardReference O decode hidden
    let shared ← O.zipWith O.mul (gate.map O.silu) up
    let shared ← down.forwardReference O decode shared
    O.zipWith O.add output shared
  | _, _, _ => .ok output

/-- The layer, with a router that gives the experts of every row and their weights. -/
def forwardBy (route : List (List V) → Except String (List (List ℕ) × List (List V)))
    (hidden : Tensor V) : Except String (Tensor V) := do
  let (width, tokens) ← rowsOf "MoE input must have a hidden dimension" hidden
  let flat ← O.reshape hidden [tokens, width]
  let (ids, weights) ← route (flat.toRows tokens width)
  let expertIds ← Tensor.fromVec (ids.flatten.map UInt32.ofNat) [tokens, moe.router.topK]
  let expertWeights ← Tensor.fromVec weights.flatten [tokens, moe.router.topK]
  let output ← moe.routed O decode flat expertIds expertWeights
  let output ← moe.addShared O decode flat output
  O.reshape output hidden.shape

def forward (hidden : Tensor V) : Except String (Tensor V) :=
  moe.forwardBy O decode (moe.router.forward O) hidden

end DeepseekV3Moe

/-! ## The sum of a token -/

/-- For each token the experts of its routes, and the weights of these. -/
structure IsTable (tokens topK numExperts : ℕ) (ids : List (List ℕ)) (weights : List (List V)) :
    Prop where
  ids_length : ids.length = tokens
  ids_row : ∀ row ∈ ids, row.length = topK
  ids_lt : ∀ row ∈ ids, ∀ id ∈ row, id < numExperts ∧ id < 2 ^ 32
  weights_length : weights.length = tokens
  weights_row : ∀ row ∈ weights, row.length = topK

def routeId (ids : List (List ℕ)) (token route : ℕ) : ℕ := (ids.getD token []).getD route 0

def routeWeight (weights : List (List V)) (token route : ℕ) : V :=
  (weights.getD token []).getD route O.zero

/-- `weight[t][r] * expert_{id[t][r]}(x_t)` summed over the routes, and the shared expert. -/
def mixedEntry (ids : List (List ℕ)) (weights : List (List V)) (topK : ℕ)
    (expert : ℕ → ℕ → List V) (shared : Option (ℕ → List V)) (token c : ℕ) : V :=
  let routed := O.sum ((List.range topK).map fun r => O.mul (routeWeight O weights token r)
    ((expert (routeId ids token r) token).getD c O.zero))
  match shared with
  | none => routed
  | some shared => O.add routed ((shared token).getD c O.zero)

variable {O} {tokens topK numExperts width : ℕ} {ids : List (List ℕ)} {weights : List (List V)}

namespace IsTable

variable (h : IsTable tokens topK numExperts ids weights) {token route : ℕ}
include h

theorem index_ids (ht : token < tokens) (hr : route < topK) :
    Checked.index ids token = .ok (ids.getD token []) ∧
      Checked.index (ids.getD token []) route = .ok (routeId ids token route) ∧
      routeId ids token route < numExperts ∧ routeId ids token route < 2 ^ 32 := by
  have hlt : token < ids.length := ht.trans_eq h.ids_length.symm
  have hmem : ids.getD token [] ∈ ids := by
    rw [List.getD_eq_getElem _ _ hlt]
    exact List.getElem_mem hlt
  have hroute : route < (ids.getD token []).length := hr.trans_eq (h.ids_row _ hmem).symm
  refine ⟨Checked.index_getD [] hlt, Checked.index_getD 0 hroute, h.ids_lt _ hmem _ ?_⟩
  rw [routeId, List.getD_eq_getElem _ _ hroute]
  exact List.getElem_mem hroute

theorem index_weights (ht : token < tokens) (hr : route < topK) :
    Checked.index weights token = .ok (weights.getD token []) ∧
      Checked.index (weights.getD token []) route = .ok (routeWeight O weights token route) := by
  have hlt : token < weights.length := ht.trans_eq h.weights_length.symm
  have hmem : weights.getD token [] ∈ weights := by
    rw [List.getD_eq_getElem _ _ hlt]
    exact List.getElem_mem hlt
  exact ⟨Checked.index_getD [] hlt,
    Checked.index_getD O.zero (hr.trans_eq (h.weights_row _ hmem).symm)⟩

end IsTable

/-! ## The tokens of an expert -/

namespace DenseMoe

/-- A token with the expert and the weight of one of its routes. -/
def pair (O : MoeOps V) (ids : List (List ℕ)) (weights : List (List V)) (token route : ℕ) :
    ℕ × ℕ × V :=
  (asU32 token, routeId ids token route, routeWeight O weights token route)

theorem assigned_ok (h : IsTable tokens topK numExperts ids weights) (e : ℕ) :
    assigned ids weights tokens topK e =
      .ok (((grid tokens topK (pair O ids weights)).filter fun p => p.2.1 == e).map
        fun p => (p.1, p.2.2)) := by
  have hloop : ∃ acc, assigned ids weights tokens topK e = .ok acc ∧
      acc = (((List.range (tokens * topK)).map fun k =>
        pair O ids weights (k / topK) (k % topK)).filter fun p => p.2.1 == e).map
          fun p => (p.1, p.2.2) := by
    refine foldlM_nested_inv (fun k acc => acc = (((List.range k).map fun k =>
      pair O ids weights (k / topK) (k % topK)).filter fun p => p.2.1 == e).map
        fun p => (p.1, p.2.2)) rfl fun token ht route hr acc hacc => ?_
    obtain ⟨hids, hid, -⟩ := h.index_ids ht hr
    obtain ⟨hweights, hweight⟩ := h.index_weights (O := O) ht hr
    rw [List.range_succ, List.map_append, List.filter_append, List.map_append, ← hacc,
      List.map_singleton, block_div hr, block_mod hr, hids, ok_bind, hid, ok_bind]
    by_cases hexpert : routeId ids token route = e
    · rw [if_pos hexpert, hweights, ok_bind, hweight, ok_bind]
      exact ⟨_, rfl, by simp [pair, hexpert]⟩
    · rw [if_neg hexpert]
      exact ⟨_, rfl, by simp [pair, hexpert]⟩
  obtain ⟨acc, hacc, rfl⟩ := hloop
  rw [hacc, map_range_eq_grid]

/-! ## Sums of rows -/

instance [Std.Commutative O.add] [Std.Associative O.add] :
    RightCommutative (List.zipWith O.add) where
  right_comm xs ys zs := by
    have hcomm : ∀ x y z : V, O.add (O.add x y) z = O.add (O.add x z) y := by
      intro x y z
      calc
        _ = O.add x (O.add y z) := Std.Associative.assoc x y z
        _ = O.add x (O.add z y) := congrArg (O.add x) (Std.Commutative.comm y z)
        _ = _ := (Std.Associative.assoc x z y).symm
    refine List.ext_getElem? fun i => ?_
    simp only [List.getElem?_zipWith]
    cases xs[i]? <;> cases ys[i]? <;> cases zs[i]? <;> simp [hcomm]

theorem zipRow_ok {α β γ : Type} {f : α → β → γ} {xs : List α} {ys : List β}
    (h : xs.length = ys.length) : zipRow f xs ys = .ok (List.zipWith f xs ys) :=
  if_pos h

theorem foldl_zipWith_eq {rows : List (List V)} {acc : List V}
    (hrows : ∀ row ∈ rows, row.length = width) (hacc : acc.length = width) :
    rows.foldl (List.zipWith O.add) acc = (List.range width).map fun c =>
      (rows.map (·.getD c O.zero)).foldl O.add (acc.getD c O.zero) := by
  induction rows generalizing acc with
  | nil =>
    refine List.ext_getElem (by simp [hacc]) fun c hc _ => ?_
    rw [List.getElem_map, List.getElem_range]
    exact (List.getD_eq_getElem _ _ hc).symm
  | cons row rows ih =>
    obtain ⟨hrow, hrows⟩ := List.forall_mem_cons.mp hrows
    have hlen : (List.zipWith O.add acc row).length = width := by
      rw [List.length_zipWith, hacc, hrow, Nat.min_self]
    rw [List.foldl_cons, ih hrows hlen]
    refine List.map_congr_left fun c hc => ?_
    have hc := List.mem_range.mp hc
    rw [List.map_cons, List.foldl_cons, List.getD_eq_getElem _ _ (hc.trans_eq hlen.symm),
      List.getElem_zipWith, List.getD_eq_getElem _ _ (hc.trans_eq hacc.symm),
      List.getD_eq_getElem _ _ (hc.trans_eq hrow.symm)]

theorem length_scatter_row {buf : List (List V)} {writes : List (ℕ × List V)}
    (hbuf : ∀ row ∈ buf, row.length = width) (hwrites : ∀ w ∈ writes, w.2.length = width) :
    ∀ row ∈ scatter (List.zipWith O.add) buf writes, row.length = width := by
  intro row hrow
  obtain ⟨i, hi⟩ := List.getElem?_of_mem hrow
  rw [getElem?_scatter, Option.map_eq_some_iff] at hi
  obtain ⟨old, hold, rfl⟩ := hi
  have hsent : ∀ row ∈ sentTo writes i, row.length = width := by
    intro row hrow
    obtain ⟨w, hw, rfl⟩ := List.mem_map.mp hrow
    exact hwrites w (List.mem_of_mem_filter hw)
  rw [foldl_zipWith_eq hsent (hbuf _ (List.mem_of_getElem? hold)), List.length_map,
    List.length_range]

theorem indexAdd_ok {output : List (List V)} {rows : List (ℕ × List V)}
    (houtput : ∀ row ∈ output, row.length = width)
    (hrows : ∀ row ∈ rows, row.1 < output.length ∧ row.2.length = width) :
    indexAdd O output rows = .ok (scatter (List.zipWith O.add) output rows) := by
  induction rows generalizing output with
  | nil => rfl
  | cons row rows ih =>
    obtain ⟨⟨hlt, hwidth⟩, hrows⟩ := List.forall_mem_cons.mp hrows
    have hold : output[row.1].length = width := houtput _ (List.getElem_mem hlt)
    have hmodify : output.set row.1 (List.zipWith O.add output[row.1] row.2) =
        output.modify row.1 (List.zipWith O.add · row.2) := by
      rw [List.modify_eq_set_getElem? , List.getElem?_eq_getElem hlt]
      rfl
    have hnext : ∀ row' ∈ output.modify row.1 (List.zipWith O.add · row.2),
        row'.length = width :=
      length_scatter_row houtput fun w (hw : w ∈ [row]) => List.mem_singleton.mp hw ▸ hwidth
    rw [indexAdd, List.foldlM_cons, Checked.index_of_lt hlt, ok_bind,
      zipRow_ok (hold.trans hwidth.symm), ok_bind, Checked.set_of_lt hlt, ok_bind, hmodify]
    exact ih hnext fun row' hrow' => by
      rw [List.length_modify]
      exact hrows row' hrow'

/-! ## All experts -/

/-- What the experts compute on rows of a width. -/
structure Experts (O : MoeOps V) (moe : DenseMoe V) (width : ℕ) (expert : ℕ → List V → List V)
    (shared : List V → List V) : Prop where
  expert_ok : ∀ e mlp, moe.experts[e]? = some mlp → ∀ x, x.length = width →
    mlp.forwardRow O x = .ok (expert e x) ∧ (expert e x).length = width
  shared_ok : ∀ mlp, moe.shared = some mlp → ∀ x, x.length = width →
    mlp.forwardRow O x = .ok (shared x) ∧ (shared x).length = width

/-- The row that a pair adds to the output. -/
def pairRow (O : MoeOps V) (expert : ℕ → List V → List V) (flat : List (List V))
    (p : ℕ × ℕ × V) : ℕ × List V :=
  (p.1, (expert p.2.1 (flat.getD p.1 [])).map (O.mul · p.2.2))

theorem mem_pairs {p : ℕ × ℕ × V} (h : IsTable tokens topK numExperts ids weights)
    (hp : p ∈ grid tokens topK (pair O ids weights)) : p.1 < tokens ∧ p.2.1 < numExperts := by
  rw [grid_eq] at hp
  obtain ⟨token, ht, hp⟩ := List.mem_flatMap.mp hp
  obtain ⟨route, hr, rfl⟩ := List.mem_map.mp hp
  have ht := List.mem_range.mp ht
  exact ⟨(asU32_le token).trans_lt ht, (h.index_ids ht (List.mem_range.mp hr)).2.2.1⟩

variable {moe : DenseMoe V} {expert : ℕ → List V → List V} {shared : List V → List V}
  {flat : List (List V)}

theorem forward_rows {mlp : DenseMlp V} {f : List V → List V} {rows : List (List V)}
    (h : ∀ x ∈ rows, mlp.forwardRow O x = .ok (f x)) : mlp.forward O rows = .ok (rows.map f) :=
  mapM_eq_pure h

theorem runExpert_ok (he : Experts O moe width expert shared)
    (h : IsTable flat.length moe.topK numExperts ids weights)
    (hflat : ∀ row ∈ flat, row.length = width) {output : List (List V)}
    (houtput : ∀ row ∈ output, row.length = width) (hlen : output.length = flat.length)
    {mlp : DenseMlp V} {e : ℕ} (hmlp : moe.experts[e]? = some mlp) :
    moe.runExpert O flat ids weights output (mlp, e) =
      .ok (scatter (List.zipWith O.add) output
        (((grid flat.length moe.topK (pair O ids weights)).filter (·.2.1 == e)).map
          (pairRow O expert flat))) := by
  set pairs := (grid flat.length moe.topK (pair O ids weights)).filter (·.2.1 == e) with hpairs
  have hmem : ∀ p ∈ pairs, p.1 < flat.length ∧ p.2.1 = e := by
    intro p hp
    obtain ⟨hp, hkey⟩ := List.mem_filter.mp hp
    exact ⟨(mem_pairs h hp).1, beq_iff_eq.mp hkey⟩
  have hrow : ∀ p ∈ pairs, (flat.getD p.1 []).length = width := by
    intro p hp
    rw [List.getD_eq_getElem _ _ (hmem p hp).1]
    exact hflat _ (List.getElem_mem _)
  rw [runExpert, assigned_ok h, ok_bind, ← hpairs, List.isEmpty_map]
  cases hempty : pairs.isEmpty with
  | true =>
    rw [List.isEmpty_iff] at hempty
    rw [hempty]
    rfl
  | false =>
    have hinputs : (pairs.map fun p => p.1).mapM (Checked.index flat) =
        .ok ((pairs.map fun p => p.1).map fun t => flat.getD t []) := by
      refine mapM_eq_pure fun t ht => ?_
      obtain ⟨p, hp, rfl⟩ := List.mem_map.mp ht
      exact Checked.index_getD [] (hmem p hp).1
    have hselected : mlp.forward O ((pairs.map fun p => p.1).map fun t => flat.getD t []) =
        .ok (pairs.map fun p => expert p.2.1 (flat.getD p.1 [])) := by
      rw [forward_rows (f := expert e), List.map_map, List.map_map]
      · refine congrArg Except.ok (List.map_congr_left fun p hp => ?_)
        rw [(hmem p hp).2]
        rfl
      · intro x hx
        rw [List.map_map] at hx
        obtain ⟨p, hp, rfl⟩ := List.mem_map.mp hx
        exact (he.expert_ok e mlp hmlp _ (hrow p hp)).1
    rw [if_neg Bool.false_ne_true]
    dsimp only
    rw [List.map_map, List.map_map]
    change ((pairs.map fun p => p.1).mapM _ >>= _) = _
    rw [hinputs, ok_bind, hselected, ok_bind]
    have hwrites : (pairs.map fun p => p.1).zip (List.zipWith
        (fun row weight => row.map (O.mul · weight))
        (pairs.map fun p => expert p.2.1 (flat.getD p.1 [])) (pairs.map fun p => p.2.2)) =
          pairs.map (pairRow O expert flat) := by
      rw [List.zipWith_map, List.zipWith_self, List.zip_map']
      rfl
    change indexAdd O output ((pairs.map fun p => p.1).zip (List.zipWith _ _
      (pairs.map fun p => p.2.2))) = _
    rw [hwrites]
    refine indexAdd_ok houtput fun row hmem' => ?_
    obtain ⟨p, hp, rfl⟩ := List.mem_map.mp hmem'
    refine ⟨(hmem p hp).1.trans_eq hlen.symm, ?_⟩
    rw [pairRow, List.length_map, (hmem p hp).2]
    exact (he.expert_ok e mlp hmlp _ (hrow p hp)).2

section Pairs

variable (he : Experts O moe width expert shared)
  (h : IsTable flat.length moe.topK moe.experts.length ids weights)
  (hflat : ∀ row ∈ flat, row.length = width)
include he h hflat

theorem length_pairRow {p : ℕ × ℕ × V} (hp : p ∈ grid flat.length moe.topK (pair O ids weights)) :
    (pairRow O expert flat p).2.length = width := by
  obtain ⟨ht, hkey⟩ := mem_pairs h hp
  rw [pairRow, List.length_map, List.getD_eq_getElem _ _ ht]
  exact (he.expert_ok _ _ (List.getElem?_eq_getElem hkey) _ (hflat _ (List.getElem_mem ht))).2

theorem experts_ok [Std.Commutative O.add] [Std.Associative O.add] :
    moe.experts.zipIdx.foldlM (moe.runExpert O flat ids weights)
        (flat.map fun row => List.replicate row.length O.zero) =
      .ok (scatter (List.zipWith O.add) (flat.map fun row => List.replicate row.length O.zero)
        ((grid flat.length moe.topK (pair O ids weights)).map (pairRow O expert flat))) := by
  set zeros := flat.map fun row => List.replicate row.length O.zero with hzeros
  set pairs := grid flat.length moe.topK (pair O ids weights) with hpairs
  have hzero : ∀ row ∈ zeros, row.length = width := by
    intro row hrow
    obtain ⟨x, hx, rfl⟩ := List.mem_map.mp hrow
    rw [List.length_replicate, hflat x hx]
  have hloop : ∃ out, moe.experts.zipIdx.foldlM (moe.runExpert O flat ids weights) zeros =
      .ok out ∧ out = scatter (List.zipWith O.add) zeros ((List.range moe.experts.length).flatMap
        fun e => (pairs.filter (·.2.1 == e)).map (pairRow O expert flat)) := by
    refine foldlM_zipIdx_inv (fun k out => out = scatter (List.zipWith O.add) zeros
      ((List.range k).flatMap fun e => (pairs.filter (·.2.1 == e)).map (pairRow O expert flat)))
      rfl fun e mlp hmlp out hout => ⟨_, ?_, rfl⟩
    have hrows : ∀ row ∈ out, row.length = width := by
      rw [hout]
      refine length_scatter_row hzero fun w hw => ?_
      obtain ⟨e, -, hw⟩ := List.mem_flatMap.mp hw
      obtain ⟨p, hp, rfl⟩ := List.mem_map.mp hw
      exact length_pairRow he h hflat (List.mem_of_mem_filter hp)
    have hlen : out.length = flat.length := by
      rw [hout, length_scatter, hzeros, List.length_map]
    rw [runExpert_ok he h hflat hrows hlen hmlp, List.range_succ, List.flatMap_append,
      List.flatMap_singleton, scatter_append, ← hout]
    rfl
  obtain ⟨out, hout, hscatter⟩ := hloop
  have hperm : ((List.range moe.experts.length).flatMap fun e =>
      (pairs.filter (·.2.1 == e)).map (pairRow O expert flat)).Perm
        (pairs.map (pairRow O expert flat)) := by
    rw [← List.map_flatMap]
    exact (perm_groups fun p hp => (mem_pairs h hp).2).map _
  rw [hout, hscatter, scatter_perm hperm]

omit he h hflat in
theorem sentTo_pairs (hle : flat.length ≤ 2 ^ 32) {t : ℕ} (ht : t < flat.length) :
    sentTo ((grid flat.length topK (pair O ids weights)).map (pairRow O expert flat)) t =
      (List.range topK).map fun r => (expert (routeId ids t r) (flat.getD t [])).map
        (O.mul · (routeWeight O weights t r)) := by
  have htokens : (grid flat.length topK (pair O ids weights)).map (pairRow O expert flat) =
      (List.range flat.length).flatMap fun t =>
        ((List.range topK).map fun r => (expert (routeId ids t r) (flat.getD t [])).map
          (O.mul · (routeWeight O weights t r))).map (Prod.mk t) := by
    rw [grid_eq, List.map_flatMap]
    refine List.flatMap_congr fun t ht => ?_
    have hcast := asU32_of_lt ((List.mem_range.mp ht).trans_le hle)
    rw [List.map_map, List.map_map]
    refine List.map_congr_left fun r _ => ?_
    simp only [Function.comp_apply, pair, pairRow, hcast]
  rw [htokens, sentTo_flatMap ht]

omit he h hflat in
theorem sentTo_pairs_of_ge {t : ℕ} (ht : 2 ^ 32 ≤ t) :
    sentTo ((grid flat.length topK (pair O ids weights)).map (pairRow O expert flat)) t = [] := by
  refine List.map_eq_nil_iff.mpr (List.filter_eq_nil_iff.mpr fun row hrow => ?_)
  obtain ⟨p, hp, rfl⟩ := List.mem_map.mp hrow
  rw [grid_eq] at hp
  obtain ⟨token, -, hp⟩ := List.mem_flatMap.mp hp
  obtain ⟨route, -, rfl⟩ := List.mem_map.mp hp
  have hlt := asU32_lt token
  have hne : asU32 token ≠ t := by omega
  simpa [pairRow, pair] using hne

theorem scatter_pairs [Std.Commutative O.mul] (hle : flat.length ≤ 2 ^ 32) :
    scatter (List.zipWith O.add) (flat.map fun row => List.replicate row.length O.zero)
        ((grid flat.length moe.topK (pair O ids weights)).map (pairRow O expert flat)) =
      (List.range flat.length).map fun t => (List.range width).map
        (mixedEntry O ids weights moe.topK (fun e t => expert e (flat.getD t [])) none t) := by
  refine List.ext_getElem (by simp) fun t ht ht' => ?_
  rw [List.length_map, List.length_range] at ht'
  have hrow : flat[t].length = width := hflat _ (List.getElem_mem ht')
  have hsent : ∀ row ∈ (List.range moe.topK).map fun r =>
      (expert (routeId ids t r) (flat.getD t [])).map (O.mul · (routeWeight O weights t r)),
      row.length = width := by
    intro row hrow
    obtain ⟨r, hr, rfl⟩ := List.mem_map.mp hrow
    obtain ⟨-, -, hid, -⟩ := h.index_ids ht' (List.mem_range.mp hr)
    rw [List.length_map, List.getD_eq_getElem _ _ ht']
    exact (he.expert_ok _ _ (List.getElem?_eq_getElem hid) _ (hflat _ (List.getElem_mem ht'))).2
  refine Option.some.inj ?_
  rw [← List.getElem?_eq_getElem, getElem?_scatter, sentTo_pairs hle ht', List.getElem?_map,
    List.getElem?_eq_getElem ht', Option.map_some, Option.map_some,
    foldl_zipWith_eq hsent (by rw [List.length_replicate, hrow]), List.getElem_map,
    List.getElem_range]
  refine congrArg some (List.map_congr_left fun c hc => ?_)
  have hc := List.mem_range.mp hc
  rw [List.map_map, List.getD_eq_getElem _ _ (by rwa [List.length_replicate, hrow]),
    List.getElem_replicate, mixedEntry, MoeOps.sum]
  congr 1
  refine List.map_congr_left fun r hr => ?_
  have hlen := hsent _ (List.mem_map_of_mem hr)
  rw [List.length_map] at hlen
  rw [Function.comp_apply, List.getD_eq_getElem _ _ (by rwa [List.length_map, hlen]),
    List.getElem_map, List.getD_eq_getElem _ _ (hc.trans_eq hlen.symm)]
  exact Std.Commutative.comm _ _

/-- The layer behind its router: every token gets the sum of its routes and the shared expert. -/
theorem dispatch_ok [Std.Commutative O.add] [Std.Associative O.add] [Std.Commutative O.mul]
    (hle : flat.length ≤ 2 ^ 32) :
    moe.dispatch O flat ids weights = .ok ((List.range flat.length).map fun t =>
      (List.range width).map (mixedEntry O ids weights moe.topK
        (fun e t => expert e (flat.getD t []))
        (moe.shared.map fun _ t => shared (flat.getD t [])) t)) := by
  rw [dispatch, experts_ok he h hflat, ok_bind, scatter_pairs he h hflat hle]
  cases hshared : moe.shared with
  | none => rfl
  | some mlp =>
    have hrows : mlp.forward O flat = .ok (flat.map shared) :=
      forward_rows fun x hx => (he.shared_ok mlp hshared x (hflat x hx)).1
    set routed := (List.range flat.length).map fun t => (List.range width).map
      (mixedEntry O ids weights moe.topK (fun e t => expert e (flat.getD t [])) none t)
    have hadd : (routed.zip (flat.map shared)).mapM (fun row => zipRow O.add row.1 row.2) =
        .ok ((routed.zip (flat.map shared)).map fun row => List.zipWith O.add row.1 row.2) := by
      refine mapM_eq_pure fun row hrow => zipRow_ok ?_
      obtain ⟨t, -, ht⟩ := List.mem_map.mp (List.of_mem_zip hrow).1
      obtain ⟨x, hx, hshare⟩ := List.mem_map.mp (List.of_mem_zip hrow).2
      rw [← ht, ← hshare, List.length_map, List.length_range,
        (he.shared_ok mlp hshared x (hflat x hx)).2]
    change (mlp.forward O flat >>= _) = _
    rw [hrows, ok_bind, hadd]
    refine congrArg Except.ok (List.ext_getElem (by simp [routed]) fun t _ ht => ?_)
    rw [List.length_map, List.length_range] at ht
    have hlen := (he.shared_ok mlp hshared _ (hflat _ (List.getElem_mem ht))).2
    refine List.ext_getElem (by simp [routed, hlen]) fun c _ hc => ?_
    simp only [List.getElem_map, List.length_map, List.length_range, List.getElem_range] at hc
    simp only [routed, List.getElem_map, List.getElem_zip, List.getElem_zipWith,
      List.getElem_range, Option.map_some, mixedEntry]
    rw [List.getD_eq_getElem _ _ ht, List.getD_eq_getElem _ _ (hc.trans_eq hlen.symm)]

end Pairs

end DenseMoe

/-! ## Rows of a tensor -/

section Rows

variable {hidden : Tensor V} {dims : List ℕ}

theorem rowsOf_ok (missing : String) (hshape : hidden.shape = dims ++ [width])
    (hwidth : 0 < width) :
    rowsOf missing hidden = .ok (width, dims.prod) := by
  have hlen : hidden.data.length / width = dims.prod := by
    rw [hidden.size_eq, hshape, List.prod_append, List.prod_singleton,
      Nat.mul_div_cancel _ hwidth]
  rw [rowsOf, hshape, List.getLast?_concat]
  dsimp only
  rw [if_neg (Nat.ne_of_gt hwidth), hlen]

theorem DenseMoe.forwardBy_of_dispatch (hT : O.toTensorOps.Lawful) {moe : DenseMoe V}
    (hshape : hidden.shape = dims ++ [width]) (hwidth : 0 < width)
    {route : List (List V) → Except String (List (List ℕ) × List (List V))}
    (hroute : route (hidden.toRows dims.prod width) = .ok (ids, weights)) {output : List (List V)}
    (hdispatch : moe.dispatch O (hidden.toRows dims.prod width) ids weights = .ok output)
    (hlen : output.flatten.length = dims.prod * width) :
    ∃ y, moe.forwardBy O route hidden = .ok y ∧ y.shape = hidden.shape ∧
      y.data = output.flatten := by
  obtain ⟨flat, hflat, -, hdata⟩ := hT.reshape_ok (t := hidden) [dims.prod, width]
    (by simp [hshape])
  have hrows : flat.toRows dims.prod width = hidden.toRows dims.prod width := by
    rw [Tensor.toRows, Tensor.toRows, hdata]
  obtain ⟨y, hy, hyshape, hydata⟩ := hT.reshape_ok
    (t := ⟨[dims.prod, width], _, hlen.trans List.prod_pair.symm⟩) hidden.shape (by simp [hshape])
  refine ⟨y, ?_, hyshape, hydata⟩
  rw [forwardBy, rowsOf_ok _ hshape hwidth, ok_bind]
  dsimp only
  rw [hflat, ok_bind, hrows, hroute, ok_bind]
  dsimp only
  rw [hdispatch, ok_bind, Tensor.fromVec_ok (hlen.trans List.prod_pair.symm), ok_bind, hy]

theorem length_toRows_shape (hshape : hidden.shape = dims ++ [width]) :
    ∀ row ∈ hidden.toRows dims.prod width, row.length = width := by
  refine Tensor.length_of_mem_toRows ?_
  rw [hidden.size_eq, hshape, List.prod_append, List.prod_singleton]

theorem DenseMoe.forwardBy_ok (hT : O.toTensorOps.Lawful) [Std.Commutative O.add]
    [Std.Associative O.add] [Std.Commutative O.mul] {moe : DenseMoe V}
    {expert : ℕ → List V → List V} {shared : List V → List V}
    (he : moe.Experts O width expert shared)
    (hshape : hidden.shape = dims ++ [width]) (hwidth : 0 < width) (hle : dims.prod ≤ 2 ^ 32)
    {route : List (List V) → Except String (List (List ℕ) × List (List V))}
    (hroute : route (hidden.toRows dims.prod width) = .ok (ids, weights))
    (h : IsTable dims.prod moe.topK moe.experts.length ids weights) :
    Computes (moe.forwardBy O route hidden) hidden.shape dims.prod width
      (mixedEntry O ids weights moe.topK
        (fun e t => expert e ((hidden.toRows dims.prod width).getD t []))
        (moe.shared.map fun _ t => shared ((hidden.toRows dims.prod width).getD t []))) := by
  have htable : IsTable (hidden.toRows dims.prod width).length moe.topK moe.experts.length ids
      weights := by rwa [Tensor.length_toRows]
  have hdispatch := dispatch_ok he htable (length_toRows_shape hshape)
    (Tensor.length_toRows.trans_le hle)
  rw [Tensor.length_toRows] at hdispatch
  exact forwardBy_of_dispatch hT hshape hwidth hroute hdispatch length_grid

/-- A token whose index is no `u32` value is lost: no expert adds to its row. -/
theorem DenseMoe.forwardBy_of_ge (hT : O.toTensorOps.Lawful) [Std.Commutative O.add]
    [Std.Associative O.add] {moe : DenseMoe V} {expert : ℕ → List V → List V}
    {shared : List V → List V}
    (he : moe.Experts O width expert shared) (hshared : moe.shared = none)
    (hshape : hidden.shape = dims ++ [width]) (hwidth : 0 < width)
    {route : List (List V) → Except String (List (List ℕ) × List (List V))}
    (hroute : route (hidden.toRows dims.prod width) = .ok (ids, weights))
    (h : IsTable dims.prod moe.topK moe.experts.length ids weights) :
    ∃ y, moe.forwardBy O route hidden = .ok y ∧ ∀ t < dims.prod, 2 ^ 32 ≤ t → ∀ c < width,
      y.data[t * width + c]? = some O.zero := by
  have hflat := length_toRows_shape hshape
  have htable : IsTable (hidden.toRows dims.prod width).length moe.topK moe.experts.length ids
      weights := by rwa [Tensor.length_toRows]
  set flat := hidden.toRows dims.prod width with hrows
  set output := scatter (List.zipWith O.add) (flat.map fun row => List.replicate row.length O.zero)
    ((grid flat.length moe.topK (pair O ids weights)).map (pairRow O expert flat))
  have hdispatch : moe.dispatch O flat ids weights = .ok output := by
    rw [dispatch, experts_ok he htable hflat, ok_bind, hshared]
    rfl
  have hwidths : ∀ row ∈ output, row.length = width := by
    refine length_scatter_row (fun row hrow => ?_) fun w hw => ?_
    · obtain ⟨x, hx, rfl⟩ := List.mem_map.mp hrow
      rw [List.length_replicate, hflat x hx]
    · obtain ⟨p, hp, rfl⟩ := List.mem_map.mp hw
      exact length_pairRow he htable hflat hp
  have hlen : output.length = dims.prod := by
    rw [length_scatter, List.length_map, hrows, Tensor.length_toRows]
  obtain ⟨y, hy, -, hdata⟩ := forwardBy_of_dispatch hT hshape hwidth hroute hdispatch
    ((length_flatten_block hwidths).trans (congrArg (· * width) hlen))
  refine ⟨y, hy, fun t ht hge c hc => ?_⟩
  have hrow := getElem?_flatMap_block (f := id) (a := t) hwidths hc
  have hin : t < flat.length := by rwa [hrows, Tensor.length_toRows]
  rw [List.flatMap_id, getElem?_scatter, sentTo_pairs_of_ge hge, List.getElem?_map,
    List.getElem?_eq_getElem hin, Option.map_some, Option.map_some, Option.bind_some,
    List.foldl_nil, hflat _ (List.getElem_mem hin)] at hrow
  rw [hdata, hrow]
  exact List.getElem?_replicate_of_lt hc

end Rows

/-! ## Selected experts, token by token -/

variable (O) (decode : UInt8 → V)

/-- The matrix of an expert times a row. -/
def SelectedBlockFp8Experts.apply (experts : SelectedBlockFp8Experts V)
    (outFeatures inFeatures e : ℕ) (x : List V) : List V :=
  (List.range outFeatures).map (scaledDot O decode experts.weights.data experts.scales.data x
    experts.blockSize outFeatures inFeatures e 0)

def BlockFp8Linear.apply (linear : BlockFp8Linear V) (outFeatures inFeatures : ℕ) (x : List V) :
    List V :=
  (List.range outFeatures).map (scaledDot O decode linear.weight.data linear.scales.data x
    linear.blockSize outFeatures inFeatures 0 0)

/-- The stacks were built, with these dimensions. -/
structure SelectedBlockFp8Experts.Built (experts : SelectedBlockFp8Experts V)
    (numExperts outFeatures inFeatures : ℕ) : Prop where
  shape_eq : experts.weights.shape = [numExperts, outFeatures, inFeatures]
  new_eq : new experts.weights experts.scales experts.blockSize = .ok experts

structure BlockFp8Linear.Built (linear : BlockFp8Linear V) (outFeatures inFeatures : ℕ) :
    Prop where
  shape_eq : linear.weight.shape = [outFeatures, inFeatures]
  new_eq : new linear.weight linear.scales linear.blockSize = .ok linear

namespace DeepseekV3Moe

/-- What an expert computes on one row. -/
def expertRow (moe : DeepseekV3Moe V) (inner width e : ℕ) (x : List V) : List V :=
  moe.downExperts.apply O decode width inner e (List.zipWith O.mul
    ((moe.gateExperts.apply O decode inner width e x).map O.silu)
    (moe.upExperts.apply O decode inner width e x))

/-- What the shared expert computes on one row. -/
def sharedRow (moe : DeepseekV3Moe V) (inner width : ℕ) : Option (List V → List V) :=
  match moe.sharedGate, moe.sharedUp, moe.sharedDown with
  | some gate, some up, some down => some fun x =>
    down.apply O decode width inner (List.zipWith O.mul
      ((gate.apply O decode inner width x).map O.silu) (up.apply O decode inner width x))
  | _, _, _ => none

/-- The projections of the experts, and of the shared expert, fit together. -/
structure Built (moe : DeepseekV3Moe V) (numExperts inner sharedInner width : ℕ) : Prop where
  gate : moe.gateExperts.Built numExperts inner width
  up : moe.upExperts.Built numExperts inner width
  down : moe.downExperts.Built numExperts width inner
  sharedGate : ∀ gate, moe.sharedGate = some gate → gate.Built sharedInner width
  sharedUp : ∀ up, moe.sharedUp = some up → up.Built sharedInner width
  sharedDown : ∀ down, moe.sharedDown = some down → down.Built width sharedInner

end DeepseekV3Moe

variable {O decode} {numExperts inner sharedInner outFeatures inFeatures blockSize : ℕ}

theorem scaledDot_congr {ws : List UInt8} {scales xs ys : List V} {e row row' out : ℕ}
    (h : ∀ col < inFeatures,
      gridAt O.zero xs inFeatures row col = gridAt O.zero ys inFeatures row' col) :
    scaledDot O decode ws scales xs blockSize outFeatures inFeatures e row out =
      scaledDot O decode ws scales ys blockSize outFeatures inFeatures e row' out := by
  rw [scaledDot, scaledDot]
  refine congrArg O.sum (List.map_congr_left fun col hcol => ?_)
  rw [h col (List.mem_range.mp hcol)]

theorem gridAt_activation {gate up : ℕ → V} {col : ℕ} (hcol : col < inner) :
    gridAt O.zero (List.zipWith O.mul (((List.range inner).map gate).map O.silu)
      ((List.range inner).map up)) inner 0 col = O.mul (O.silu (gate col)) (up col) := by
  rw [gridAt, Nat.zero_mul, Nat.zero_add, List.map_map, List.zipWith_map, List.zipWith_self,
    List.getD_eq_getElem _ _ (by simpa using hcol), List.getElem_map, List.getElem_range]
  rfl

namespace DeepseekV3Moe

variable {moe : DeepseekV3Moe V} {hidden : Tensor V} {expertIds : Tensor UInt32}
  {expertWeights : Tensor V}

theorem expertRow_eq {e t c : ℕ} {intermediate : List V} {row : ℕ} (hc : c < width)
    (hrow : ∀ col < inner, gridAt O.zero intermediate inner row col = O.mul
      (O.silu (scaledDot O decode moe.gateExperts.weights.data moe.gateExperts.scales.data
        hidden.data moe.gateExperts.blockSize inner width e t col))
      (scaledDot O decode moe.upExperts.weights.data moe.upExperts.scales.data hidden.data
        moe.upExperts.blockSize inner width e t col)) :
    scaledDot O decode moe.downExperts.weights.data moe.downExperts.scales.data intermediate
        moe.downExperts.blockSize width inner e row c =
      (moe.expertRow O decode inner width e
        ((hidden.data.drop (t * width)).take width)).getD c O.zero := by
  have hx : ∀ col < width, gridAt O.zero hidden.data width t col =
      gridAt O.zero ((hidden.data.drop (t * width)).take width) width 0 col :=
    fun col hcol => (gridAt_block O.zero t hcol).symm
  rw [expertRow, SelectedBlockFp8Experts.apply, List.getD_eq_getElem _ _ (by simpa using hc),
    List.getElem_map, List.getElem_range]
  refine scaledDot_congr fun col hcol => ?_
  rw [hrow col hcol, SelectedBlockFp8Experts.apply, SelectedBlockFp8Experts.apply,
    gridAt_activation hcol, scaledDot_congr hx, scaledDot_congr hx]

theorem getElem?_flatten_row {α : Type} {xss : List (List α)} (default : α)
    (hlen : xss.length = tokens) (hrows : ∀ row ∈ xss, row.length = topK) {token route : ℕ}
    (ht : token < tokens) (hr : route < topK) :
    xss.flatten[token * topK + route]? = some ((xss.getD token []).getD route default) := by
  have hlt : token < xss.length := ht.trans_eq hlen.symm
  have hrow := hrows _ (List.getElem_mem hlt)
  have hblock := getElem?_flatMap_block (f := id) (a := token) hrows hr
  rw [List.flatMap_id, List.getElem?_eq_getElem hlt, Option.bind_some] at hblock
  rw [hblock, List.getD_eq_getElem _ _ hlt, List.getD_eq_getElem _ _ (hr.trans_eq hrow.symm)]
  exact List.getElem?_eq_getElem _

theorem getD_ids (h : IsTable tokens topK numExperts ids weights) {token route : ℕ}
    (ht : token < tokens) (hr : route < topK) :
    ((ids.flatten.map UInt32.ofNat).getD (token * topK + route) 0).toNat =
      routeId ids token route := by
  obtain ⟨-, -, -, hlt⟩ := h.index_ids ht hr
  rw [List.getD_eq_getElem?_getD, List.getElem?_map,
    getElem?_flatten_row 0 h.ids_length h.ids_row ht hr]
  exact UInt32.toNat_ofNat_of_lt' hlt

theorem expertCall (h : IsTable tokens topK numExperts ids weights)
    (hids : expertIds.shape = [tokens, topK])
    (hidsdata : expertIds.data = ids.flatten.map UInt32.ofNat)
    {experts : SelectedBlockFp8Experts V} (hb : experts.Built numExperts outFeatures inFeatures)
    (sharedInput : Bool) {input : Tensor V}
    (hinput : input.data.length = (if sharedInput then tokens else tokens * topK) * inFeatures) :
    ExpertCall numExperts outFeatures inFeatures tokens topK sharedInput experts.weights input
      expertIds where
  weights_shape := hb.shape_eq
  input_length := hinput
  ids_shape := hids
  ids_lt id hid := by
    rw [hidsdata] at hid
    obtain ⟨n, hn, rfl⟩ := List.mem_map.mp hid
    obtain ⟨row, hrow, hn⟩ := List.mem_flatten.mp hn
    obtain ⟨hlt, hu32⟩ := h.ids_lt row hrow n hn
    rwa [UInt32.toNat_ofNat_of_lt' hu32]

variable (O decode) in
theorem routed_ok (hT : O.toTensorOps.Lawful) (hb : moe.Built numExperts inner sharedInner width)
    (h : IsTable tokens topK numExperts ids weights) (hhidden : hidden.data.length = tokens * width)
    (hids : expertIds.shape = [tokens, topK])
    (hidsdata : expertIds.data = ids.flatten.map UInt32.ofNat)
    (hweights : expertWeights.shape = [tokens, topK])
    (hweightsdata : expertWeights.data = weights.flatten) [Std.Commutative O.mul] :
    Computes (moe.routed O decode hidden expertIds expertWeights) [tokens, width] tokens width
      (mixedEntry O ids weights topK (fun e t => moe.expertRow O decode inner width e
        ((hidden.data.drop (t * width)).take width)) none) := by
  obtain ⟨gate, hgate, hgateshape, hgatedata⟩ := SelectedBlockFp8Experts.forwardReference_spec
    O decode hb.gate.new_eq
    (expertCall h hids hidsdata hb.gate true hhidden)
  obtain ⟨up, hup, hupshape, hupdata⟩ := SelectedBlockFp8Experts.forwardReference_spec
    O decode hb.up.new_eq
    (expertCall h hids hidsdata hb.up true hhidden)
  have hsilu : (gate.map O.silu).data = _ := (congrArg (List.map O.silu) hgatedata).trans
    (map_grid O.silu)
  obtain ⟨mid, hmid, hmidshape, hmiddata⟩ := hT.zipWith_grid (t := gate.map O.silu) O.mul
    (hgateshape.trans hupshape.symm) hsilu hupdata
  have hmidlen : mid.data.length = tokens * topK * inner := by rw [hmiddata, length_grid]
  obtain ⟨down, hdown, hdownshape, hdowndata⟩ := SelectedBlockFp8Experts.forwardReference_spec
    O decode hb.down.new_eq
    (expertCall h hids hidsdata hb.down false hmidlen)
  obtain ⟨w₁, hw₁, hw₁shape, hw₁data⟩ :=
    hT.reshape_ok (t := expertWeights) [tokens, topK, 1] (by simp [hweights])
  obtain ⟨w₂, (hw₂ : O.repeatDim w₁ 2 width = .ok w₂), hw₂shape, hw₂data⟩ :=
    hT.repeatDim_ok [tokens, topK] width hw₁shape
  have hw₂grid : w₂.data = grid (tokens * topK) width fun row _ =>
      routeWeight O weights (row / topK) (row % topK) := by
    simp only [List.prod_nil, Nat.mul_one, List.prod_pair] at hw₂data
    refine eq_grid (by rw [w₂.size_eq, hw₂shape]; simp [Nat.mul_assoc]) fun row hrow c hc => ?_
    have htopK : 0 < topK := Nat.pos_of_mul_pos_left (Nat.zero_lt_of_lt hrow)
    have hentry := hw₂data row c 0 hrow hc Nat.one_pos
    rw [Nat.add_zero, Nat.add_zero] at hentry
    rw [hentry, hw₁data, hweightsdata]
    conv_lhs => rw [← Nat.div_add_mod' row topK]
    exact getElem?_flatten_row O.zero h.weights_length h.weights_row
      (Nat.div_lt_of_lt_mul (by rwa [Nat.mul_comm])) (Nat.mod_lt row htopK)
  obtain ⟨y, hy, hyshape, hydata⟩ := hT.zipWith_grid O.mul
    (hdownshape.trans (by rw [hw₂shape, Nat.mul_one]; rfl)) hdowndata hw₂grid
  obtain ⟨z, hz, hzshape, hzdata⟩ := hT.sumMiddle_ok O.sum (hyshape.trans hdownshape)
  refine ⟨z, ?_, hzshape, eq_grid (by rw [z.size_eq, hzshape, List.prod_pair]) fun t ht c hc => ?_⟩
  · rw [routed, Gptq.dims2_ok hids, ok_bind]
    dsimp only
    rw [hgate, ok_bind, hup, ok_bind, hmid, ok_bind, hdown, ok_bind, hw₁, ok_bind, hdownshape]
    change (O.repeatDim w₁ 2 width >>= _) = _
    rw [hw₂, ok_bind, hy, ok_bind, hz]
  · rw [hzdata t ht c hc _ fun r hr => by rw [hydata, getElem?_grid (block_lt ht hr) hc],
      mixedEntry]
    refine congrArg some (congrArg O.sum (List.map_congr_left fun r hr => ?_))
    have hr := List.mem_range.mp hr
    rw [block_div hr, block_mod hr, expertEntry, hidsdata, getD_ids h ht hr,
      if_neg Bool.false_ne_true]
    refine (Std.Commutative.comm _ _).trans ?_
    refine congrArg (O.mul _) (expertRow_eq hc fun col hcol => ?_)
    rw [hmiddata, gridAt_grid _ (block_lt ht hr) hcol, expertEntry, expertEntry, hidsdata,
      getD_ids h ht hr, if_pos rfl, block_div hr]

variable (O decode) in
theorem addShared_ok (hT : O.toTensorOps.Lawful) [Std.Associative O.mul]
    (hb : moe.Built numExperts inner sharedInner width)
    (hhidden : hidden.shape = [tokens] ++ [width]) {output : Tensor V}
    (hshape : output.shape = [tokens, width]) {expert : ℕ → ℕ → List V}
    (hdata : output.data = grid tokens width (mixedEntry O ids weights topK expert none)) :
    Computes (moe.addShared O decode hidden output) [tokens, width] tokens width
      (mixedEntry O ids weights topK expert ((moe.sharedRow O decode sharedInner width).map
        fun f t => f ((hidden.data.drop (t * width)).take width))) := by
  rw [addShared, sharedRow]
  cases hgate : moe.sharedGate with
  | none => exact ⟨output, rfl, hshape, hdata⟩
  | some gate =>
    cases hup : moe.sharedUp with
    | none => exact ⟨output, rfl, hshape, hdata⟩
    | some up =>
      cases hdown : moe.sharedDown with
      | none => exact ⟨output, rfl, hshape, hdata⟩
      | some down =>
        have hgateb := hb.sharedGate gate hgate
        have hupb := hb.sharedUp up hup
        have hdownb := hb.sharedDown down hdown
        obtain ⟨g, hg, hgshape, hgdata⟩ := BlockFp8Linear.forwardReference_spec
          O decode hT hgateb.new_eq hgateb.shape_eq hhidden
        obtain ⟨u, hu, hushape, hudata⟩ := BlockFp8Linear.forwardReference_spec
          O decode hT hupb.new_eq hupb.shape_eq hhidden
        have hsilu : (g.map O.silu).data = _ := (congrArg (List.map O.silu) hgdata).trans
          (map_grid O.silu)
        obtain ⟨mid, hmid, hmidshape, hmiddata⟩ := hT.zipWith_grid (t := g.map O.silu) O.mul
          (hgshape.trans hushape.symm) hsilu hudata
        obtain ⟨d, hd, hdshape, hddata⟩ := BlockFp8Linear.forwardReference_spec
          O decode hT hdownb.new_eq hdownb.shape_eq
          (hmidshape.trans hgshape)
        obtain ⟨y, hy, hyshape, hydata⟩ := hT.zipWith_grid O.add
          (hshape.trans hdshape.symm) hdata (hddata.trans (by rw [List.prod_singleton]))
        refine ⟨y, ?_, hyshape.trans hshape, hydata.trans (grid_congr fun t ht c hc => ?_)⟩
        · dsimp only
          rw [hg, ok_bind, hu, ok_bind, hmid, ok_bind, hd, ok_bind, hy]
        · have hx : ∀ col < width, gridAt O.zero hidden.data width t col =
              gridAt O.zero ((hidden.data.drop (t * width)).take width) width 0 col :=
            fun col hcol => (gridAt_block O.zero t hcol).symm
          refine congrArg (O.add _) ?_
          dsimp only
          rw [BlockFp8Linear.apply, List.getD_eq_getElem _ _ (by simpa using hc),
            List.getElem_map, List.getElem_range]
          refine scaledDot_congr fun col hcol => ?_
          rw [hmiddata, gridAt_grid _ (ht.trans_eq List.prod_singleton.symm) hcol,
            BlockFp8Linear.apply, BlockFp8Linear.apply, gridAt_activation hcol,
            scaledDot_congr hx, scaledDot_congr hx]

theorem forwardBy_ok (hT : O.toTensorOps.Lawful) [Std.Associative O.mul]
    [Std.Commutative O.mul] {dims : List ℕ} (hb : moe.Built numExperts inner sharedInner width)
    (hshape : hidden.shape = dims ++ [width]) (hwidth : 0 < width)
    {route : List (List V) → Except String (List (List ℕ) × List (List V))}
    (hroute : route (hidden.toRows dims.prod width) = .ok (ids, weights))
    (h : IsTable dims.prod moe.router.topK numExperts ids weights) :
    Computes (moe.forwardBy O decode route hidden) hidden.shape dims.prod width
      (mixedEntry O ids weights moe.router.topK
        (fun e t => moe.expertRow O decode inner width e
          ((hidden.toRows dims.prod width).getD t []))
        ((moe.sharedRow O decode sharedInner width).map
          fun f t => f ((hidden.toRows dims.prod width).getD t []))) := by
  have hlen : hidden.data.length = dims.prod * width := by
    rw [hidden.size_eq, hshape, List.prod_append, List.prod_singleton]
  obtain ⟨flat, hflat, hflatshape, hdata⟩ :=
    hT.reshape_ok (t := hidden) [dims.prod, width] (by simp [hshape])
  have hrows : flat.toRows dims.prod width = hidden.toRows dims.prod width := by
    rw [Tensor.toRows, Tensor.toRows, hdata]
  have hidslen : (ids.flatten.map UInt32.ofNat).length = [dims.prod, moe.router.topK].prod := by
    rw [List.length_map, length_flatten_block h.ids_row, h.ids_length, List.prod_pair]
  have hweightslen : weights.flatten.length = [dims.prod, moe.router.topK].prod := by
    rw [length_flatten_block h.weights_row, h.weights_length, List.prod_pair]
  obtain ⟨expertIds, hids, hidsshape, hidsdata⟩ : ∃ t : Tensor UInt32, Tensor.fromVec
      (ids.flatten.map UInt32.ofNat) [dims.prod, moe.router.topK] = .ok t ∧
      t.shape = [dims.prod, moe.router.topK] ∧ t.data = ids.flatten.map UInt32.ofNat :=
    ⟨_, Tensor.fromVec_ok hidslen, rfl, rfl⟩
  obtain ⟨expertWeights, hweights, hweightsshape, hweightsdata⟩ : ∃ t : Tensor V,
      Tensor.fromVec weights.flatten [dims.prod, moe.router.topK] = .ok t ∧
      t.shape = [dims.prod, moe.router.topK] ∧ t.data = weights.flatten :=
    ⟨_, Tensor.fromVec_ok hweightslen, rfl, rfl⟩
  obtain ⟨routed, hrouted, hroutedshape, hrouteddata⟩ := routed_ok O decode hT hb h (hdata ▸ hlen)
    hidsshape hidsdata hweightsshape hweightsdata
  obtain ⟨output, houtput, houtshape, houtdata⟩ :=
    addShared_ok O decode hT hb hflatshape hroutedshape hrouteddata
  obtain ⟨y, hy, hyshape, hydata⟩ := hT.reshape_ok (t := output) hidden.shape
    (by simp [hshape, houtshape])
  refine ⟨y, ?_, hyshape, hydata.trans (houtdata.trans (grid_congr fun t ht c hc => ?_))⟩
  · rw [forwardBy, rowsOf_ok _ hshape hwidth, ok_bind]
    dsimp only
    rw [hflat, ok_bind, hrows, hroute, ok_bind]
    dsimp only
    rw [hids, ok_bind, hweights, ok_bind, hrouted, ok_bind, houtput, ok_bind, hy]
  · have hrow : (hidden.toRows dims.prod width).getD t [] =
        (hidden.data.drop (t * width)).take width := by
      rw [Tensor.toRows, List.getD_eq_getElem _ _ (by simpa using ht), List.getElem_map,
        List.getElem_range]
    cases moe.sharedRow O decode sharedInner width with
    | none => simp only [Option.map_none, mixedEntry, hrow, hdata]
    | some shared => simp only [Option.map_some, mixedEntry, hrow, hdata]

end DeepseekV3Moe

end Models

/-! ## Both implementations -/

/-- With exact numbers each token gets the weighted sum of the experts of its routes and the shared
expert, whatever table the router gives. Experts over plain projections index their tokens by `u32`
values. -/
theorem forwardBy_perToken {K : Type} [Field K] [LinearOrder K] (X : ExactOps K)
    {dims : List ℕ} {width : ℕ} {hidden : Tensor (WithBot K)}
    (hshape : hidden.shape = dims ++ [width]) (hwidth : 0 < width)
    {route : List (List (WithBot K)) → Except String (List (List ℕ) × List (List (WithBot K)))}
    {ids : List (List ℕ)} {weights : List (List (WithBot K))}
    (hroute : route (hidden.toRows dims.prod width) = .ok (ids, weights)) :
    (∀ (moe : DenseMoe (WithBot K)) (expert : ℕ → List (WithBot K) → List (WithBot K))
      (shared : List (WithBot K) → List (WithBot K)), dims.prod ≤ 2 ^ 32 →
      moe.Experts X.moeOps width expert shared →
      IsTable dims.prod moe.topK moe.experts.length ids weights →
      Computes (moe.forwardBy X.moeOps route hidden) hidden.shape dims.prod width
        (mixedEntry X.moeOps ids weights moe.topK
          (fun e t => expert e ((hidden.toRows dims.prod width).getD t []))
          (moe.shared.map fun _ t => shared ((hidden.toRows dims.prod width).getD t [])))) ∧
    ∀ (moe : DeepseekV3Moe (WithBot K)) (decode : UInt8 → WithBot K)
      (numExperts inner sharedInner : ℕ), moe.Built numExperts inner sharedInner width →
      IsTable dims.prod moe.router.topK numExperts ids weights →
      Computes (moe.forwardBy X.moeOps decode route hidden) hidden.shape dims.prod width
        (mixedEntry X.moeOps ids weights moe.router.topK
          (fun e t => moe.expertRow X.moeOps decode inner width e
            ((hidden.toRows dims.prod width).getD t []))
          ((moe.sharedRow X.moeOps decode sharedInner width).map
            fun f t => f ((hidden.toRows dims.prod width).getD t []))) := by
  constructor
  · intro moe expert shared hle he h
    exact DenseMoe.forwardBy_ok X.moeOps_lawful.toLawful he hshape hwidth hle hroute h
  · intro moe decode numExperts inner sharedInner hb h
    exact DeepseekV3Moe.forwardBy_ok X.moeOps_lawful.toLawful hb hshape hwidth hroute h

def scaleBy (a : ℚ) : Projection (WithBot ℚ) :=
  List.map (ExactOps.rational.moeOps.mul (a : WithBot ℚ))

/-- Three experts of width one, which scale by one, two and three, and a shared one. -/
def scalers : DenseMoe (WithBot ℚ) where
  gateWeight := []
  experts := (List.range 3).map fun e : ℕ => ⟨scaleBy (e + 1), id, id⟩
  shared := some ⟨id, id, id⟩
  topK := 2
  numGroups := 1
  topkGroups := 1
  groupLimited := false
  normalize := false
  scaling := .fin 1

def stackedScalers : SelectedBlockFp8Experts (WithBot ℚ) where
  weights := ⟨[3, 1, 1], [1, 2, 3], rfl⟩
  scales := .full [3, 1, 1] ((1 : ℚ) : WithBot ℚ)
  blockSize := 1

def stackedMoe : DeepseekV3Moe (WithBot ℚ) where
  router := ⟨[], [], 2, 1, 1, false, .fin 1⟩
  gateExperts := stackedScalers
  upExperts := stackedScalers
  downExperts := stackedScalers
  sharedGate := none
  sharedUp := none
  sharedDown := none

theorem stackedScalers_built : stackedScalers.Built 3 1 1 where
  shape_eq := rfl
  new_eq := SelectedBlockFp8Experts.new_ok Nat.one_pos rfl rfl

/-- No token goes to the second expert. -/
def mixedIds : List (List ℕ) := [[2, 0], [0, 2]]

def mixedWeights : List (List (WithBot ℚ)) :=
  [[((1 / 4 : ℚ) : WithBot ℚ), ((3 / 4 : ℚ) : WithBot ℚ)],
    [((1 / 2 : ℚ) : WithBot ℚ), ((1 / 2 : ℚ) : WithBot ℚ)]]

def routeMixed (_ : List (List (WithBot ℚ))) :
    Except String (List (List ℕ) × List (List (WithBot ℚ))) :=
  .ok (mixedIds, mixedWeights)

/-- Two tokens, which hold the numbers three and five. -/
def twoTokens : Tensor (WithBot ℚ) :=
  ⟨[2, 1], [((3 : ℚ) : WithBot ℚ), ((5 : ℚ) : WithBot ℚ)], rfl⟩

theorem isTable_mixed : IsTable 2 2 3 mixedIds mixedWeights where
  ids_length := rfl
  ids_row := by decide
  ids_lt := by decide
  weights_length := rfl
  weights_row row hrow := by
    simp only [mixedWeights, List.mem_cons, List.not_mem_nil, or_false] at hrow
    rcases hrow with rfl | rfl <;> rfl

theorem gatedRow_ok {gate : Projection (WithBot ℚ)} {x : List (WithBot ℚ)}
    (h : (gate x).length = x.length) :
    DenseMlp.forwardRow ExactOps.rational.moeOps ⟨gate, id, id⟩ x =
      .ok (List.zipWith ExactOps.rational.moeOps.mul
        ((gate x).map ExactOps.rational.moeOps.silu) x) := by
  rw [DenseMlp.forwardRow, DenseMoe.zipRow_ok (by simpa using h)]
  rfl

theorem forwardBy_perToken_mixed :
    Computes (scalers.forwardBy ExactOps.rational.moeOps routeMixed twoTokens) twoTokens.shape
      [2].prod 1 (mixedEntry ExactOps.rational.moeOps mixedIds mixedWeights 2
        (fun e t => List.zipWith ExactOps.rational.moeOps.mul
          ((scaleBy (e + 1) ((twoTokens.toRows [2].prod 1).getD t [])).map
            ExactOps.rational.moeOps.silu)
          ((twoTokens.toRows [2].prod 1).getD t []))
        (some fun t => List.zipWith ExactOps.rational.moeOps.mul
          (((twoTokens.toRows [2].prod 1).getD t []).map ExactOps.rational.moeOps.silu)
          ((twoTokens.toRows [2].prod 1).getD t []))) ∧
    Computes (stackedMoe.forwardBy ExactOps.rational.moeOps
        (fun byte => ((byte.toNat : ℚ) : WithBot ℚ)) routeMixed twoTokens) twoTokens.shape
      [2].prod 1
      (mixedEntry ExactOps.rational.moeOps mixedIds mixedWeights 2
        (fun e t => stackedMoe.expertRow ExactOps.rational.moeOps
          (fun byte => ((byte.toNat : ℚ) : WithBot ℚ)) 1 1 e
          ((twoTokens.toRows [2].prod 1).getD t [])) none) := by
  have hexperts : scalers.Experts ExactOps.rational.moeOps 1
      (fun e x => List.zipWith ExactOps.rational.moeOps.mul
        ((scaleBy (e + 1) x).map ExactOps.rational.moeOps.silu) x)
      (fun x => List.zipWith ExactOps.rational.moeOps.mul
        (x.map ExactOps.rational.moeOps.silu) x) := by
    constructor
    · intro e mlp hmlp x hx
      have he : e < 3 := (List.getElem?_eq_some_iff.mp hmlp).1
      have hscaler : scalers.experts[e]? = some ⟨scaleBy (e + 1), id, id⟩ := by
        rw [scalers, List.getElem?_map, List.getElem?_range he, Option.map_some]
      obtain rfl := Option.some.inj (hmlp.symm.trans hscaler)
      have hlen : (scaleBy (e + 1) x).length = x.length := List.length_map _
      exact ⟨gatedRow_ok hlen, by simp [scaleBy, hx]⟩
    · intro mlp hmlp x hx
      obtain rfl := Option.some.inj hmlp
      exact ⟨gatedRow_ok rfl, by simp [hx]⟩
  have hbuilt : stackedMoe.Built 3 1 1 1 :=
    ⟨stackedScalers_built, stackedScalers_built, stackedScalers_built, (fun _ h => by cases h),
      (fun _ h => by cases h), (fun _ h => by cases h)⟩
  have hroute : routeMixed (twoTokens.toRows [2].prod 1) = .ok (mixedIds, mixedWeights) := rfl
  have hshape : twoTokens.shape = [2] ++ [1] := rfl
  have hboth := forwardBy_perToken ExactOps.rational hshape Nat.one_pos hroute
  have htable : IsTable [2].prod scalers.topK scalers.experts.length mixedIds mixedWeights :=
    isTable_mixed
  have htable' : IsTable [2].prod stackedMoe.router.topK 3 mixedIds mixedWeights := isTable_mixed
  have hdense := hboth.1 scalers _ _ (by simp) hexperts htable
  have hstacked := hboth.2 stackedMoe (fun byte => ((byte.toNat : ℚ) : WithBot ℚ)) 3 1 1 hbuilt
    htable'
  exact ⟨hdense, hstacked⟩

/-- One expert of width one, which all tokens are routed to. -/
def soloExpert : DenseMoe (WithBot ℚ) :=
  { scalers with experts := [⟨id, id, id⟩], shared := none, topK := 1 }

def routeSolo (rows : List (List (WithBot ℚ))) :
    Except String (List (List ℕ) × List (List (WithBot ℚ))) :=
  .ok (rows.map fun _ => [0], rows.map fun _ => [((1 : ℚ) : WithBot ℚ)])

def soloRow (x : List (WithBot ℚ)) : List (WithBot ℚ) :=
  List.zipWith ExactOps.rational.moeOps.mul (x.map ExactOps.rational.moeOps.silu) x

theorem soloExpert_experts :
    soloExpert.Experts ExactOps.rational.moeOps 1 (fun _ => soloRow) id := by
  constructor
  · intro e mlp hmlp x hx
    have hmem : mlp ∈ soloExpert.experts := List.mem_of_getElem? hmlp
    obtain rfl : mlp = ⟨id, id, id⟩ := by simpa [soloExpert] using hmem
    exact ⟨gatedRow_ok rfl, by simp [soloRow, hx]⟩
  · intro mlp hmlp
    cases hmlp

theorem isTable_solo (rows : List (List (WithBot ℚ))) :
    IsTable rows.length 1 1 (rows.map fun _ => [0])
      (rows.map fun _ => [((1 : ℚ) : WithBot ℚ)]) where
  ids_length := List.length_map _
  ids_row := by simp
  ids_lt := by simp
  weights_length := List.length_map _
  weights_row := by simp

theorem not_computes_solo {n : ℕ} (hn : 2 ^ 32 < n) {hidden : Tensor (WithBot ℚ)}
    (hshape : hidden.shape = [n] ++ [1])
    (hones : ∀ k < n, hidden.data[k]? = some ((1 : ℚ) : WithBot ℚ)) :
    ¬ Computes (soloExpert.forwardBy ExactOps.rational.moeOps routeSolo hidden) hidden.shape
      [n].prod 1 (mixedEntry ExactOps.rational.moeOps
        ((hidden.toRows [n].prod 1).map fun _ => [0])
        ((hidden.toRows [n].prod 1).map fun _ => [((1 : ℚ) : WithBot ℚ)]) 1
        (fun _ t => soloRow ((hidden.toRows [n].prod 1).getD t [])) none) := by
  rintro ⟨y, hy, -, hdata⟩
  have htable := isTable_solo (hidden.toRows [n].prod 1)
  rw [Tensor.length_toRows] at htable
  have hroute : routeSolo (hidden.toRows [n].prod 1) = .ok _ := rfl
  obtain ⟨y', hy', hlost⟩ :=
    DenseMoe.forwardBy_of_ge ExactOps.rational.moeOps_lawful.toLawful soloExpert_experts rfl hshape
      Nat.one_pos hroute htable
  obtain rfl : y = y' := Except.ok.inj (hy.symm.trans hy')
  have hin : 2 ^ 32 < [n].prod := by rwa [List.prod_singleton]
  have hzero := hlost (2 ^ 32) hin le_rfl 0 Nat.one_pos
  rw [hdata, getElem?_grid hin Nat.one_pos] at hzero
  have hrow : (hidden.toRows [n].prod 1)[2 ^ 32]? = some [((1 : ℚ) : WithBot ℚ)] := by
    rw [Tensor.getElem?_toRows hin, Nat.mul_one, List.take_one, List.head?_drop, hones _ hn]
    rfl
  simp only [mixedEntry, routeWeight, List.getD_eq_getElem?_getD, List.getElem?_map, hrow,
    Option.map_some, Option.getD_some, List.range_one, List.map_singleton] at hzero
  exact absurd hzero (by decide +kernel)

/-- Experts over plain projections, for any number of tokens. -/
theorem not_forwardBy_perToken : ¬ ∀ (dims : List ℕ) (width : ℕ) (hidden : Tensor (WithBot ℚ)),
    hidden.shape = dims ++ [width] → 0 < width →
    ∀ route ids weights, route (hidden.toRows dims.prod width) = .ok (ids, weights) →
    ∀ (moe : DenseMoe (WithBot ℚ)) (expert : ℕ → List (WithBot ℚ) → List (WithBot ℚ)) shared,
      moe.Experts ExactOps.rational.moeOps width expert shared →
      IsTable dims.prod moe.topK moe.experts.length ids weights →
      Computes (moe.forwardBy ExactOps.rational.moeOps route hidden) hidden.shape dims.prod width
        (mixedEntry ExactOps.rational.moeOps ids weights moe.topK
          (fun e t => expert e ((hidden.toRows dims.prod width).getD t []))
          (moe.shared.map fun _ t => shared ((hidden.toRows dims.prod width).getD t []))) := by
  intro h
  obtain ⟨n, hn⟩ : ∃ n, 2 ^ 32 < n := ⟨2 ^ 32 + 1, Nat.lt_succ_self _⟩
  let hidden : Tensor (WithBot ℚ) := .full [n, 1] ((1 : ℚ) : WithBot ℚ)
  have hones : ∀ k < n, hidden.data[k]? = some ((1 : ℚ) : WithBot ℚ) := fun k hk =>
    Tensor.getElem?_full (by simpa using hk)
  have htable := isTable_solo (hidden.toRows [n].prod 1)
  rw [Tensor.length_toRows] at htable
  exact not_computes_solo hn rfl hones
    (h [n] 1 hidden rfl Nat.one_pos routeSolo _ _ rfl soloExpert (fun _ => soloRow) id
      soloExpert_experts htable)

end Rllm
