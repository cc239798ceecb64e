import Rllm.Model.Dispatch
import Rllm.Model.Layers

/-! # Mixtures of experts in a decoder

A router looks at each token by itself, and so do its experts, although a mixture runs
each expert once for all of its tokens. The row of a token comes out as if it came alone.
-/

namespace Rllm

section Mixtures

variable {V : Type} {O : MoeOps V}

/-! ## Routers -/

/-- A router that gives each row its own experts and weights. -/
structure RoutesApart (route : List (List V) → Except String (List (List ℕ) × List (List V)))
    (routeRow : List V → List ℕ × List V) (width topK numExperts : ℕ) : Prop where
  route_eq : ∀ rows, (∀ x ∈ rows, x.length = width) →
    route rows = .ok (rows.map fun x => (routeRow x).1, rows.map fun x => (routeRow x).2)
  ids_length : ∀ x, x.length = width → (routeRow x).1.length = topK
  ids_lt : ∀ x, x.length = width → ∀ id ∈ (routeRow x).1, id < numExperts ∧ id < 2 ^ 32
  weights_length : ∀ x, x.length = width → (routeRow x).2.length = topK

/-- What a routing of one row says, and what its experts and a shared expert make of it. -/
def mixedRow (O : MoeOps V) (routes : List ℕ × List V) (topK : ℕ) (expert : ℕ → List V)
    (shared : Option (List V)) (c : ℕ) : V :=
  mixedEntry O [routes.1] [routes.2] topK (fun e _ => expert e) (shared.map fun y _ => y) 0 c

namespace RoutesApart

variable {route : List (List V) → Except String (List (List ℕ) × List (List V))}
  {routeRow : List V → List ℕ × List V} {width topK numExperts : ℕ} {rows : List (List V)}

theorem isTable (h : RoutesApart route routeRow width topK numExperts)
    (hrows : ∀ x ∈ rows, x.length = width) :
    IsTable rows.length topK numExperts (rows.map fun x => (routeRow x).1)
      (rows.map fun x => (routeRow x).2) where
  ids_length := List.length_map _
  ids_row := List.forall_mem_map.mpr fun x hx => h.ids_length x (hrows x hx)
  ids_lt := List.forall_mem_map.mpr fun x hx => h.ids_lt x (hrows x hx)
  weights_length := List.length_map _
  weights_row := List.forall_mem_map.mpr fun x hx => h.weights_length x (hrows x hx)

end RoutesApart

theorem mixedEntry_map {routeRow : List V → List ℕ × List V} {rows : List (List V)} {topK : ℕ}
    {expert : ℕ → List V → List V} {shared : Option (List V → List V)} {t : ℕ}
    (ht : t < rows.length) (c : ℕ) :
    mixedEntry O (rows.map fun x => (routeRow x).1) (rows.map fun x => (routeRow x).2) topK
        (fun e t => expert e (rows.getD t [])) (shared.map fun f t => f (rows.getD t [])) t c =
      mixedRow O (routeRow (rows.getD t [])) topK (fun e => expert e (rows.getD t []))
        (shared.map fun f => f (rows.getD t [])) c := by
  have hget : ∀ {β : Type} (f : List V → β) (default : β),
      (rows.map f).getD t default = f (rows.getD t []) := by
    intro β f default
    rw [List.getD_eq_getElem _ _ (by rwa [List.length_map]), List.getElem_map,
      List.getD_eq_getElem _ _ ht]
  simp only [mixedRow, mixedEntry, routeId, routeWeight, hget]
  cases shared <;> rfl

theorem RoutesApart.of_mapM {route : List V → Except String (List ℕ × List V)}
    {width topK numExperts : ℕ}
    (h : ∀ x, x.length = width → ∃ routes, route x = .ok routes ∧ routes.1.length = topK ∧
      (∀ id ∈ routes.1, id < numExperts ∧ id < 2 ^ 32) ∧ routes.2.length = topK) :
    RoutesApart (fun rows => do
        let routes ← rows.mapM route
        pure (routes.map Prod.fst, routes.map Prod.snd))
      (fun x => (route x).toOption.getD ([], [])) width topK numExperts := by
  have hroute : ∀ x, x.length = width → route x = .ok ((route x).toOption.getD ([], [])) := by
    intro x hx
    obtain ⟨routes, hr, -⟩ := h x hx
    rw [hr]
    rfl
  have hspec : ∀ x, x.length = width → ((route x).toOption.getD ([], [])).1.length = topK ∧
      (∀ id ∈ ((route x).toOption.getD ([], [])).1, id < numExperts ∧ id < 2 ^ 32) ∧
      ((route x).toOption.getD ([], [])).2.length = topK := by
    intro x hx
    obtain ⟨routes, hr, hspec⟩ := h x hx
    rw [hr]
    exact hspec
  refine ⟨fun rows hrows => ?_, fun x hx => (hspec x hx).1, fun x hx => (hspec x hx).2.1,
    fun x hx => (hspec x hx).2.2⟩
  have hmap : rows.mapM route = .ok (rows.map fun x => (route x).toOption.getD ([], [])) :=
    mapM_eq_pure fun x hx => hroute x (hrows x hx)
  rw [hmap, ok_bind, List.map_map, List.map_map]
  rfl

/-! ## Token by token -/

/-- Each token of a tensor, of up to `limit` of them, becomes a row that goes by its own. -/
def PerToken {ε : Type} (forward : Tensor V → Except ε (Tensor V)) (width : ℕ) (limit : ℕ∞)
    (entry : List V → ℕ → V) : Prop :=
  ∀ (hidden : Tensor V) (dims : List ℕ), hidden.shape = dims ++ [width] →
    (dims.prod : ℕ∞) ≤ limit →
    ∃ y, forward hidden = .ok y ∧ y.shape = hidden.shape ∧ y.data = grid dims.prod width
      fun t c => entry ((hidden.toRows dims.prod width).getD t []) c

theorem PerToken.mono {ε : Type} {forward : Tensor V → Except ε (Tensor V)} {width : ℕ}
    {limit limit' : ℕ∞} {entry : List V → ℕ → V} (h : PerToken forward width limit' entry)
    (hle : limit ≤ limit') : PerToken forward width limit entry :=
  fun hidden dims hshape hdims => h hidden dims hshape (hdims.trans hle)

/-- A layer of experts behind a router that keeps the rows apart. -/
theorem PerToken.of_computes {forward : Tensor V → Except String (Tensor V)}
    {route : List (List V) → Except String (List (List ℕ) × List (List V))}
    {routeRow : List V → List ℕ × List V} {width topK numExperts : ℕ} {limit : ℕ∞}
    (hroute : RoutesApart route routeRow width topK numExperts) (expert : ℕ → List V → List V)
    (shared : Option (List V → List V))
    (h : ∀ (hidden : Tensor V) (dims : List ℕ), hidden.shape = dims ++ [width] →
      (dims.prod : ℕ∞) ≤ limit → ∀ ids weights,
      route (hidden.toRows dims.prod width) = .ok (ids, weights) →
      IsTable dims.prod topK numExperts ids weights →
      Computes (forward hidden) hidden.shape dims.prod width
        (mixedEntry O ids weights topK
          (fun e t => expert e ((hidden.toRows dims.prod width).getD t []))
          (shared.map fun f t => f ((hidden.toRows dims.prod width).getD t [])))) :
    PerToken forward width limit fun x =>
      mixedRow O (routeRow x) topK (fun e => expert e x) (shared.map fun f => f x) := by
  intro hidden dims hshape hle
  have hrows := length_toRows_shape hshape
  have htable := hroute.isTable hrows
  rw [Tensor.length_toRows] at htable
  obtain ⟨y, hy, hyshape, hdata⟩ :=
    h hidden dims hshape hle _ _ (hroute.route_eq _ hrows) htable
  refine ⟨y, hy, hyshape, hdata.trans (grid_congr fun t ht c _ => ?_)⟩
  exact mixedEntry_map (ht.trans_eq Tensor.length_toRows.symm) c

/-! ## Experts over plain projections -/

/-- The projections of an expert fit together and keep the width of a row. -/
structure DenseMlp.Fits (mlp : DenseMlp V) (width : ℕ) : Prop where
  gate_length : ∀ x, x.length = width → (mlp.gate x).length = (mlp.up x).length
  down_length : ∀ x y, x.length = width → y.length = (mlp.up x).length →
    (mlp.down y).length = width

def DenseMlp.row (O : MoeOps V) (mlp : DenseMlp V) (x : List V) : List V :=
  mlp.down (List.zipWith O.mul ((mlp.gate x).map O.silu) (mlp.up x))

theorem DenseMlp.Fits.forwardRow_ok {mlp : DenseMlp V} {width : ℕ} (h : mlp.Fits width)
    {x : List V} (hx : x.length = width) :
    mlp.forwardRow O x = .ok (mlp.row O x) ∧ (mlp.row O x).length = width := by
  have hgate : ((mlp.gate x).map O.silu).length = (mlp.up x).length :=
    (List.length_map _).trans (h.gate_length x hx)
  constructor
  · rw [forwardRow, DenseMoe.zipRow_ok hgate]
    rfl
  · refine h.down_length x _ hx ?_
    rw [List.length_zipWith, hgate, Nat.min_self]

namespace DenseMoe

/-- What the checks of a checkpoint leave of the layers that it may hold. The indices of
the experts are `u32` values. -/
structure Loaded (moe : DenseMoe V) (width : ℕ) : Prop where
  width_pos : 0 < width
  gate_length : moe.gateWeight.length = moe.experts.length
  experts_fit : ∀ mlp ∈ moe.experts, mlp.Fits width
  experts_le : moe.experts.length ≤ 2 ^ 32
  shared_fits : ∀ mlp, moe.shared = some mlp → mlp.Fits width
  topK_le : moe.topK ≤ moe.experts.length
  groups : moe.groupLimited = true →
    moe.experts.length % moe.numGroups = 0 ∧ moe.topkGroups ≤ moe.numGroups

theorem loadDenseMoe_loaded {config : DeepseekV3Config} (hv : config.validate = .ok ())
    {width : ℕ} (hwidth : 0 < width) (hle : config.nRoutedExperts ≤ 2 ^ 32)
    {gateWeight : List (List V)} (hgate : gateWeight.length = config.nRoutedExperts)
    {loadMlp : ℕ → DenseMlp V} (hmlp : ∀ e, (loadMlp e).Fits width) {sharedExperts : DenseMlp V}
    (hshared : sharedExperts.Fits width) :
    (loadDenseMoe config gateWeight loadMlp sharedExperts).Loaded width := by
  obtain ⟨-, hmod, hk, -, htop⟩ := config.of_validate hv
  have hlen : (loadDenseMoe config gateWeight loadMlp sharedExperts).experts.length =
      config.nRoutedExperts := (List.length_map _).trans List.length_range
  constructor
  · exact hwidth
  · exact hgate.trans hlen.symm
  · intro mlp hmem
    obtain ⟨e, -, rfl⟩ := List.mem_map.mp hmem
    exact hmlp e
  · exact hlen.trans_le hle
  · intro mlp hsome
    rw [loadDenseMoe, Option.ite_none_right_eq_some] at hsome
    exact Option.some.inj hsome.2 ▸ hshared
  · exact htop.trans_eq hlen.symm
  · intro _
    rw [hlen]
    exact ⟨hmod, hk⟩

/-- What an expert of the layer computes on one row. -/
def expertRow (O : MoeOps V) (moe : DenseMoe V) (e : ℕ) (x : List V) : List V :=
  (moe.experts[e]?.map fun mlp => mlp.row O x).getD []

def sharedRow (O : MoeOps V) (moe : DenseMoe V) : Option (List V → List V) :=
  moe.shared.map fun mlp => mlp.row O

variable {moe : DenseMoe V} {width : ℕ}

theorem Loaded.experts (h : moe.Loaded width) :
    moe.Experts O width (moe.expertRow O) ((moe.sharedRow O).getD id) where
  expert_ok e mlp hmlp x hx := by
    have hrow : moe.expertRow O e x = mlp.row O x := by
      rw [expertRow, hmlp]
      rfl
    rw [hrow]
    exact (h.experts_fit mlp (List.mem_of_getElem? hmlp)).forwardRow_ok hx
  shared_ok mlp hmlp x hx := by
    have hrow : (moe.sharedRow O).getD id = mlp.row O := by
      rw [sharedRow, hmlp]
      rfl
    rw [hrow]
    exact (h.shared_fits mlp hmlp).forwardRow_ok hx

theorem Loaded.perToken_forwardBy (hT : O.toTensorOps.Lawful) [Std.Commutative O.add]
    [Std.Associative O.add] [Std.Commutative O.mul] (h : moe.Loaded width)
    {route : List (List V) → Except String (List (List ℕ) × List (List V))}
    {routeRow : List V → List ℕ × List V}
    (hroute : RoutesApart route routeRow width moe.topK moe.experts.length) :
    PerToken (moe.forwardBy O route) width ((2 ^ 32 : ℕ) : ℕ∞) fun x =>
      mixedRow O (routeRow x) moe.topK (fun e => moe.expertRow O e x)
        ((moe.sharedRow O).map fun f => f x) := by
  refine PerToken.of_computes hroute (moe.expertRow O) (moe.sharedRow O)
    fun hidden dims hshape hle ids weights hids htable => ?_
  have hok := forwardBy_ok hT (h.experts (O := O)) hshape h.width_pos (Nat.cast_le.mp hle) hids
    htable
  have hshared : (moe.shared.map fun _ t =>
      (moe.sharedRow O).getD id ((hidden.toRows dims.prod width).getD t [])) =
        (moe.sharedRow O).map fun f t => f ((hidden.toRows dims.prod width).getD t []) := by
    rw [sharedRow]
    cases moe.shared <;> rfl
  rwa [hshared] at hok

end DenseMoe

/-! ## Experts over stacked FP8 matrices -/

/-- The router was built for the experts, whose projections fit together. -/
structure DeepseekV3Moe.Loaded (moe : DeepseekV3Moe V) (width : ℕ) : Prop where
  width_pos : 0 < width
  router_new : NoAuxTcRouter.new moe.router.weight moe.router.correctionBias moe.router.topK
    moe.router.numGroups moe.router.topkGroups moe.router.normalize
    moe.router.routedScalingFactor = .ok moe.router
  built : ∃ inner sharedInner, moe.Built moe.router.weight.length inner sharedInner width
  experts_le : moe.router.weight.length ≤ 2 ^ 32

/-! ## Routes of one row -/

section Sorted

variable [LinearOrder V] [OrderBot V]

theorem MoeOps.Lawful.exists_ids (hO : O.Lawful) {scores : List V} {topK : ℕ}
    (hk : topK ≤ scores.length) : ∃ ids, O.narrowRow (O.argSort scores) topK = .ok ids ∧
      ids.length = topK ∧ ∀ id ∈ ids, id < scores.length := by
  obtain ⟨ids, hnarrow, hids⟩ := hO.narrow_argSort hk
  exact ⟨ids, hnarrow, hids.length_eq, fun id hid => Finset.mem_range.mp (hids.mem_pool id hid)⟩

theorem MoeOps.Lawful.length_maskedScores (hO : O.Lawful) (groupScore : List V → V)
    {scores : List V} {numGroups topkGroups : ℕ} (hmod : scores.length % numGroups = 0)
    (hk : topkGroups ≤ numGroups) :
    ∃ masked, maskedScores O scores.length numGroups topkGroups groupScore scores = .ok masked ∧
      masked.length = scores.length := by
  have hdvd := (Nat.mul_div_cancel' (Nat.dvd_of_mod_eq_zero hmod)).symm
  obtain ⟨-, masked, -, hmasked, hlen, -⟩ := hO.maskedScores_ok groupScore hdvd hk
  exact ⟨masked, hmasked, hlen⟩

omit [LinearOrder V] [OrderBot V] in
theorem length_normalizeWeights (weights : List V) :
    (normalizeWeights O weights).length = weights.length := List.length_map _

/-- The logits of a row. -/
def MoeOps.logits (O : MoeOps V) (ws : List (List V)) (x : List V) : List V :=
  ws.map fun w => O.sum (List.zipWith O.mul x w)

omit [LinearOrder V] [OrderBot V] in
theorem MoeOps.length_logits {ws : List (List V)} {x : List V} :
    (O.logits ws x).length = ws.length := List.length_map _

variable {width : ℕ}

theorem DenseMoe.Loaded.route_ok {moe : DenseMoe V} (h : moe.Loaded width) (hO : O.Lawful)
    {scores : List V} (hlen : scores.length = moe.experts.length) :
    ∃ routes, moe.route O scores = .ok routes ∧ routes.1.length = moe.topK ∧
      (∀ id ∈ routes.1, id < moe.experts.length ∧ id < 2 ^ 32) ∧
      routes.2.length = moe.topK := by
  obtain ⟨selection, hroute, hsel⟩ : ∃ selection, moe.route O scores =
      (O.narrowRow (O.argSort selection) moe.topK >>= fun ids =>
        pure (ids, moe.routeWeights O scores ids)) ∧
        selection.length = moe.experts.length := by
    unfold route
    cases hlimited : moe.groupLimited with
    | false => exact ⟨scores, rfl, hlen⟩
    | true =>
      obtain ⟨hmod, hk⟩ := h.groups hlimited
      rw [← hlen] at hmod ⊢
      obtain ⟨masked, hmasked, hmaskedlen⟩ := hO.length_maskedScores O.maxLogit hmod hk
      rw [if_pos rfl, hmasked]
      exact ⟨masked, rfl, hmaskedlen⟩
  obtain ⟨ids, hids, hidslen, hidslt⟩ := hO.exists_ids (h.topK_le.trans_eq hsel.symm)
  refine ⟨(ids, moe.routeWeights O scores ids), ?_, hidslen, fun id hid => ?_, ?_⟩
  · rw [hroute, hids]
    rfl
  · have hlt := (hidslt id hid).trans_eq hsel
    exact ⟨hlt, hlt.trans_le h.experts_le⟩
  · have hgather : (O.gather scores ids).length = moe.topK :=
      (hO.length_gather fun id hid => (hidslt id hid).trans_eq (hsel.trans hlen.symm)).trans hidslen
    unfold routeWeights
    dsimp only
    split
    · rw [length_normalizeWeights, hgather]
    · rw [List.length_map, hgather]

theorem DenseMoe.Loaded.routesApart {moe : DenseMoe V} (h : moe.Loaded width) (hO : O.Lawful) :
    ∃ routeRow, RoutesApart (moe.routes O) routeRow width moe.topK moe.experts.length := by
  have hroutes : moe.routes O = fun rows => (do
      let routes ← rows.mapM fun x =>
        moe.route O (O.softmaxLastDim (O.logits moe.gateWeight x))
      pure (routes.map Prod.fst, routes.map Prod.snd)) := by
    ext rows
    rw [routes, scores, MoeOps.matmulT, List.map_map, List.mapM_map]
    rfl
  rw [hroutes]
  refine ⟨_, RoutesApart.of_mapM fun x _ => h.route_ok hO ?_⟩
  rw [hO.length_softmaxLastDim, MoeOps.length_logits, h.gate_length]

theorem DeepseekV3Moe.Loaded.route_ok {moe : DeepseekV3Moe V} (h : moe.Loaded width)
    (hO : O.Lawful) {raw : List V} (hlen : raw.length = moe.router.weight.length) :
    ∃ routes, moe.router.route O raw = .ok routes ∧ routes.1.length = moe.router.topK ∧
      (∀ id ∈ routes.1, id < moe.router.weight.length ∧ id < 2 ^ 32) ∧
      routes.2.length = moe.router.topK := by
  obtain ⟨-, hbias, -, hmod, hk, -, hle⟩ := NoAuxTcRouter.new_eq_ok h.router_new
  have hscores : (moe.router.selectionScores O raw).length = moe.router.weight.length := by
    rw [NoAuxTcRouter.selectionScores, List.length_zipWith, hlen, hbias, Nat.min_self]
  rw [← hscores] at hmod
  obtain ⟨masked, hmasked, hmaskedlen⟩ :=
    hO.length_maskedScores (NoAuxTcRouter.topTwoSum O) hmod hk
  rw [hscores] at hmasked hmaskedlen
  obtain ⟨ids, hids, hidslen, hidslt⟩ := hO.exists_ids (hle.trans_eq hmaskedlen.symm)
  refine ⟨(ids, moe.router.expertWeights O raw ids), ?_, hidslen, fun id hid => ?_, ?_⟩
  · rw [NoAuxTcRouter.route, hmasked, ok_bind, hids]
    rfl
  · have hlt := (hidslt id hid).trans_eq hmaskedlen
    exact ⟨hlt, hlt.trans_le h.experts_le⟩
  · have hgather : (O.gather raw ids).length = moe.router.topK :=
      (hO.length_gather fun id hid => (hidslt id hid).trans_eq (hmaskedlen.trans hlen.symm)).trans
        hidslen
    unfold NoAuxTcRouter.expertWeights
    dsimp only
    split
    · rw [List.length_map, length_normalizeWeights, hgather]
    · rw [List.length_map, hgather]

theorem DeepseekV3Moe.Loaded.routesApart {moe : DeepseekV3Moe V} (h : moe.Loaded width)
    (hO : O.Lawful) : ∃ routeRow, RoutesApart (moe.router.forward O) routeRow width
      moe.router.topK moe.router.weight.length := by
  have hroutes : moe.router.forward O = fun rows => (do
      let routes ← rows.mapM fun x =>
        moe.router.route O ((O.logits moe.router.weight x).map O.sigmoid)
      pure (routes.map Prod.fst, routes.map Prod.snd)) := by
    ext rows
    rw [NoAuxTcRouter.forward, NoAuxTcRouter.rawScores, MoeOps.matmulT, List.map_map,
      List.mapM_map]
    rfl
  rw [hroutes]
  refine ⟨_, RoutesApart.of_mapM fun x _ => h.route_ok hO ?_⟩
  rw [List.length_map, MoeOps.length_logits]

/-! ## The layers of DeepSeek -/

theorem DenseMoe.Loaded.perToken [Std.Commutative O.add] [Std.Associative O.add]
    [Std.Commutative O.mul] {moe : DenseMoe V} (h : moe.Loaded width) (hO : O.Lawful) :
    ∃ entry, PerToken (moe.forward O) width ((2 ^ 32 : ℕ) : ℕ∞) entry := by
  obtain ⟨routeRow, hroute⟩ := h.routesApart hO
  exact ⟨_, h.perToken_forwardBy hO.toLawful hroute⟩

theorem DeepseekV3Moe.Loaded.perToken [Std.Associative O.mul] [Std.Commutative O.mul]
    {moe : DeepseekV3Moe V} (h : moe.Loaded width) (hO : O.Lawful) (decode : UInt8 → V) :
    ∃ entry, PerToken (moe.forward O decode) width ⊤ entry := by
  obtain ⟨routeRow, hroute⟩ := h.routesApart hO
  obtain ⟨inner, sharedInner, hb⟩ := h.built
  refine ⟨_, PerToken.of_computes (O := O) hroute (moe.expertRow O decode inner width)
    (moe.sharedRow O decode sharedInner width)
    fun hidden dims hshape _ ids weights hids htable => ?_⟩
  exact forwardBy_ok hO.toLawful hb hshape h.width_pos hids htable

end Sorted

/-! ## The layers of Qwen -/

/-- Experts that are run one by one, or by the grouped kernels for GGUF weights, of which
there are two. -/
inductive QwenExperts (V : Type)
  | dense (router : List (List V)) (experts : List (DenseMlp V)) (topK : ℕ) (normalize : Bool)
  | gguf (kernel : Tensor V → Bool → Except String (Tensor V))

structure QwenMoe (V : Type) where
  experts : QwenExperts V
  sharedExpert : Option (DenseMlp V)
  /-- One number for each row. -/
  sharedExpertGate : Option (List V → V)

namespace QwenExperts

variable (O : MoeOps V)

/-- The experts of one token with their weights. -/
def route (topK : ℕ) (normalize : Bool) (probabilities : List V) :
    Except String (List ℕ × List V) := do
  let ids ← O.narrowRow (O.argSort probabilities) topK
  let routeWeights := O.gather probabilities ids
  let routeWeights :=
    if normalize && 1 < topK then normalizeWeights O routeWeights else routeWeights
  pure (ids, routeWeights)

def routes (router : List (List V)) (topK : ℕ) (normalize : Bool) (flat : List (List V)) :
    Except String (List (List ℕ) × List (List V)) := do
  let routes ← ((O.matmulT flat router).map O.softmaxLastDim).mapM (route O topK normalize)
  pure (routes.map Prod.fst, routes.map Prod.snd)

/-- The experts and their number for each token are what the loop over them reads, which
is that of `DenseMoe`. -/
def denseMoe (router : List (List V)) (experts : List (DenseMlp V)) (topK : ℕ)
    (normalize : Bool) : DenseMoe V where
  gateWeight := router
  experts := experts
  shared := none
  topK := topK
  numGroups := 1
  topkGroups := 1
  groupLimited := false
  normalize := normalize
  scaling := .fin 1

def forward (experts : QwenExperts V) (tokens : ℕ) (hidden : Tensor V) :
    Except ForwardError (Tensor V) :=
  match experts with
  | dense router experts topK normalize =>
    ((denseMoe router experts topK normalize).forwardBy O (routes O router topK normalize)
      hidden).mapError .message
  | gguf kernel =>
    (kernel hidden (64 < tokens)).mapError fun e =>
      .context "executing grouped GGUF Qwen experts" (.message e)

end QwenExperts

namespace QwenMoe

variable (O : MoeOps V)

/-- The rows of the shared expert, each times its gate. -/
def sharedRows (shared : DenseMlp V) (gate : Option (List V → V)) (rows : List (List V)) :
    Except String (List (List V)) := do
  let sharedOutput ← shared.forward O rows
  match gate with
  | none => pure sharedOutput
  | some gate =>
    pure (List.zipWith (fun y x => y.map (O.mul · (O.sigmoid (gate x)))) sharedOutput rows)

def addShared (moe : QwenMoe V) (tokens width : ℕ) (hidden output : Tensor V) :
    Except String (Tensor V) :=
  match moe.sharedExpert with
  | none => .ok output
  | some shared => do
    let rows ← sharedRows O shared moe.sharedExpertGate (hidden.toRows tokens width)
    let sharedOutput ← Tensor.fromVec rows.flatten hidden.shape
    O.zipWith O.add output sharedOutput

def forward (moe : QwenMoe V) (hidden : Tensor V) : Except ForwardError (Tensor V) := do
  let (width, tokens) ← (rowsOf "dimension out of range" hidden).mapError .message
  let output ← moe.experts.forward O tokens hidden
  (moe.addShared O tokens width hidden output).mapError .message

end QwenMoe

/-- What the checks of a checkpoint leave of the experts that it may hold. Both kernels
for GGUF weights compute the same, token by token. -/
def QwenExperts.Loaded (width : ℕ) : QwenExperts V → Prop
  | dense router experts topK _ => router.length = experts.length ∧ topK ≤ experts.length ∧
      experts.length ≤ 2 ^ 32 ∧ ∀ mlp ∈ experts, mlp.Fits width
  | gguf kernel => ∃ entry, ∀ isPrefill, PerToken (kernel · isPrefill) width ⊤ entry

structure QwenMoe.Loaded (moe : QwenMoe V) (width : ℕ) : Prop where
  width_pos : 0 < width
  experts : moe.experts.Loaded width
  shared_fits : ∀ mlp, moe.sharedExpert = some mlp → mlp.Fits width

section Sorted

variable [LinearOrder V] [OrderBot V] {width : ℕ}

theorem QwenExperts.route_ok (hO : O.Lawful) {topK : ℕ} (normalize : Bool)
    {probabilities : List V} (hk : topK ≤ probabilities.length) :
    ∃ routes, route O topK normalize probabilities = .ok routes ∧ routes.1.length = topK ∧
      (∀ id ∈ routes.1, id < probabilities.length) ∧ routes.2.length = topK := by
  obtain ⟨ids, hids, hidslen, hidslt⟩ := hO.exists_ids hk
  have hgather : (O.gather probabilities ids).length = topK :=
    (hO.length_gather hidslt).trans hidslen
  refine ⟨_, by rw [route, hids]; rfl, hidslen, hidslt, ?_⟩
  dsimp only
  split
  · rw [length_normalizeWeights, hgather]
  · exact hgather

theorem QwenExperts.Loaded.perToken [Std.Commutative O.add] [Std.Associative O.add]
    [Std.Commutative O.mul] {experts : QwenExperts V} (h : experts.Loaded width)
    (hwidth : 0 < width) (hO : O.Lawful) : ∃ entry, ∀ tokens,
      PerToken (experts.forward O tokens) width ((2 ^ 32 : ℕ) : ℕ∞) entry := by
  cases experts with
  | dense router experts topK normalize =>
    obtain ⟨hrouter, hk, hle, hfits⟩ := h
    have hloaded : (denseMoe router experts topK normalize).Loaded width := by
      constructor
      · exact hwidth
      · exact hrouter
      · exact hfits
      · exact hle
      · rintro mlp ⟨⟩
      · exact hk
      · rintro ⟨⟩
    have hroutes : routes O router topK normalize = fun rows => (do
        let routes ← rows.mapM fun x =>
          route O topK normalize (O.softmaxLastDim (O.logits router x))
        pure (routes.map Prod.fst, routes.map Prod.snd)) := by
      ext rows
      rw [routes, MoeOps.matmulT, List.map_map, List.mapM_map]
      rfl
    have hapart : ∃ routeRow, RoutesApart (routes O router topK normalize) routeRow width topK
        experts.length := by
      rw [hroutes]
      refine ⟨_, RoutesApart.of_mapM fun x _ => ?_⟩
      have hlen : (O.softmaxLastDim (O.logits router x)).length = experts.length := by
        rw [hO.length_softmaxLastDim, MoeOps.length_logits, hrouter]
      obtain ⟨routes, hok, hids, hlt, hweights⟩ :=
        route_ok hO normalize (hk.trans_eq hlen.symm)
      refine ⟨routes, hok, hids, fun id hid => ?_, hweights⟩
      have hlt := (hlt id hid).trans_eq hlen
      exact ⟨hlt, hlt.trans_le hle⟩
    obtain ⟨routeRow, hroute⟩ := hapart
    obtain ⟨entry, hper⟩ : ∃ entry, PerToken ((denseMoe router experts topK normalize).forwardBy O
        (routes O router topK normalize)) width ((2 ^ 32 : ℕ) : ℕ∞) entry :=
      ⟨_, hloaded.perToken_forwardBy hO.toLawful hroute⟩
    refine ⟨entry, fun tokens hidden dims hshape hle => ?_⟩
    obtain ⟨y, hy, hdata⟩ := hper hidden dims hshape hle
    exact ⟨y, congrArg (Except.mapError _) hy, hdata⟩
  | gguf kernel =>
    obtain ⟨entry, hper⟩ := h
    refine ⟨entry, fun tokens hidden dims hshape _ => ?_⟩
    obtain ⟨y, hy, hdata⟩ := hper (64 < tokens) hidden dims hshape le_top
    exact ⟨y, congrArg (Except.mapError _) hy, hdata⟩

/-- What the shared expert of a Qwen model adds to a row. -/
def QwenMoe.sharedRow (O : MoeOps V) (moe : QwenMoe V) : Option (List V → List V) :=
  moe.sharedExpert.map fun shared x =>
    match moe.sharedExpertGate with
    | none => shared.row O x
    | some gate => (shared.row O x).map (O.mul · (O.sigmoid (gate x)))

omit [LinearOrder V] [OrderBot V] in
theorem QwenMoe.Loaded.sharedRows_ok {moe : QwenMoe V} (h : moe.Loaded width)
    {shared : DenseMlp V} (hshared : moe.sharedExpert = some shared) {rows : List (List V)}
    (hrows : ∀ x ∈ rows, x.length = width) : ∃ f, moe.sharedRow O = some f ∧
      sharedRows O shared moe.sharedExpertGate rows = .ok (rows.map f) ∧
      ∀ x ∈ rows, (f x).length = width := by
  have hfits := h.shared_fits shared hshared
  have hforward : shared.forward O rows = .ok (rows.map (shared.row O)) :=
    DenseMoe.forward_rows fun x hx => (hfits.forwardRow_ok (hrows x hx)).1
  rw [sharedRow, hshared]
  refine ⟨_, rfl, ?_, fun x hx => ?_⟩
  · rw [sharedRows, hforward, ok_bind]
    cases moe.sharedExpertGate with
    | none => rfl
    | some gate =>
      dsimp only
      rw [List.zipWith_map_left, List.zipWith_self]
      rfl
  · have hlen := (hfits.forwardRow_ok (O := O) (hrows x hx)).2
    cases moe.sharedExpertGate with
    | none => exact hlen
    | some gate => exact (List.length_map _).trans hlen

theorem QwenMoe.Loaded.perToken [Std.Commutative O.add] [Std.Associative O.add]
    [Std.Commutative O.mul] {moe : QwenMoe V} (h : moe.Loaded width) (hO : O.Lawful) :
    ∃ entry, PerToken (moe.forward O) width ((2 ^ 32 : ℕ) : ℕ∞) entry := by
  obtain ⟨entry, hper⟩ := h.experts.perToken h.width_pos hO
  refine ⟨fun x c => match moe.sharedRow O with
    | none => entry x c
    | some f => O.add (entry x c) ((f x).getD c O.zero), fun hidden dims hshape hle => ?_⟩
  obtain ⟨output, houtput, hshapeo, hdata⟩ := hper dims.prod hidden dims hshape hle
  have hforward : moe.forward O hidden =
      (moe.addShared O dims.prod width hidden output).mapError .message := by
    unfold forward
    rw [rowsOf_ok _ hshape h.width_pos]
    change (moe.experts.forward O dims.prod hidden >>= _) = _
    rw [houtput]
    rfl
  rw [hforward, addShared]
  cases hshared : moe.sharedExpert with
  | none =>
    rw [sharedRow, hshared]
    exact ⟨output, rfl, hshapeo, hdata⟩
  | some shared =>
    obtain ⟨f, hf, hsharedRows, hlen⟩ :=
      h.sharedRows_ok (O := O) hshared (length_toRows_shape hshape)
    set rows := hidden.toRows dims.prod width with hrows
    have hcount : (rows.map f).length = dims.prod := by
      rw [List.length_map, hrows, Tensor.length_toRows]
    have hwidths : ∀ row ∈ rows.map f, row.length = width := List.forall_mem_map.mpr hlen
    have hgrid : (rows.map f).flatten = grid dims.prod width
        fun t c => ((rows.map f).getD t []).getD c O.zero :=
      eq_grid (by rw [length_flatten_block hwidths, hcount]) fun t ht c hc =>
        DeepseekV3Moe.getElem?_flatten_row O.zero hcount hwidths ht hc
    have hsize : (rows.map f).flatten.length = hidden.shape.prod := by
      rw [hgrid, length_grid, hshape, List.prod_append, List.prod_singleton]
    obtain ⟨y, hy, hyshape, hydata⟩ := hO.zipWith_grid
      (u := ⟨hidden.shape, (rows.map f).flatten, hsize⟩) O.add hshapeo hdata hgrid
    refine ⟨y, ?_, hyshape.trans hshapeo, hydata.trans (grid_congr fun t ht c _ => ?_)⟩
    · dsimp only
      rw [hsharedRows, ok_bind, Tensor.fromVec_ok hsize, ok_bind, hy]
      rfl
    · have hin : t < rows.length := by rwa [hrows, Tensor.length_toRows]
      have hget : (rows.map f).getD t [] = f (rows.getD t []) := by
        rw [List.getD_eq_getElem _ _ (by rwa [List.length_map]), List.getElem_map,
          List.getD_eq_getElem _ _ hin]
      rw [hf, hget]

end Sorted

end Mixtures

/-! ## Rows of a decoder -/

section Rows

variable {K : Type} [Field K]

namespace Elementary

variable (E : Elementary K)

/-- The exponential, which is zero at `-∞`. -/
def weight : WithBot K → K
  | ⊥ => 0
  | (x : K) => E.exp x

/-- What experts compute with. They take no logarithms and sort no pairs. -/
def moeOps [LinearOrder K] : MoeOps (WithBot K) := exactMoeOps (exactArithmetic E.weight id id)

variable [LinearOrder K]

instance : Std.Associative E.moeOps.add := ⟨map₂_assoc add_assoc⟩

instance : Std.Commutative E.moeOps.add := ⟨map₂_comm add_comm⟩

instance : Std.Associative E.moeOps.mul := ⟨map₂_assoc mul_assoc⟩

instance : Std.Commutative E.moeOps.mul := ⟨map₂_comm mul_comm⟩

theorem moeOps_lawful : E.moeOps.Lawful := exactMoeOps_lawful rfl fun _ _ => rfl

end Elementary

variable {n : ℕ}

omit [Field K] in
theorem length_ofRow {x : Fin n → K} :
    (List.ofFn fun i => (x i : WithBot K)).length = n := List.length_ofFn

/-- The hidden states of one sequence. -/
def ofRows (rows : List (Fin n → K)) : Tensor (WithBot K) where
  shape := [1, rows.length, n]
  data := rows.flatMap fun x => List.ofFn fun i => (x i : WithBot K)
  size_eq := by
    rw [length_flatMap_block fun _ _ => length_ofRow]
    simp

/-- Only masks hold `-∞`, so that all entries are numbers. -/
def readRows (count n : ℕ) (y : Tensor (WithBot K)) : List (Fin n → K) :=
  (y.toRows count n).map fun row i => (row.getD i ⊥).unbotD 0

def overRows {ε : Type} (forward : Tensor (WithBot K) → Except ε (Tensor (WithBot K)))
    (rows : List (Fin n → K)) : Except ε (List (Fin n → K)) := do
  let y ← forward (ofRows rows)
  pure (readRows rows.length n y)

omit [Field K] in
theorem getD_toRows_ofRows {rows : List (Fin n → K)} {t : ℕ} (ht : t < rows.length) :
    ((ofRows rows).toRows rows.length n).getD t [] =
      List.ofFn fun i => (rows[t] i : WithBot K) := by
  refine List.ext_getElem? fun c => ?_
  rw [List.getD_eq_getElem?_getD, Tensor.getElem?_toRows ht, Option.getD_some]
  rcases lt_or_ge c n with hc | hc
  · rw [getElem?_block hc, ofRows, getElem?_flatMap_block (fun _ _ => length_ofRow) hc,
      List.getElem?_eq_getElem ht, Option.bind_some]
  · rw [List.getElem?_eq_none ((List.length_take_le _ _).trans hc),
      List.getElem?_eq_none (length_ofRow.trans_le hc)]

/-- A layer that goes token by token keeps the rows apart. -/
theorem PerToken.apart {ε : Type} {forward : Tensor (WithBot K) → Except ε (Tensor (WithBot K))}
    {limit : ℕ∞} {entry : List (WithBot K) → ℕ → WithBot K} (h : PerToken forward n limit entry)
    (hone : 1 ≤ limit) : Apart (overRows (n := n) forward) limit := by
  refine Apart.of_map hone (g := fun x i =>
    (entry (List.ofFn fun i => (x i : WithBot K)) i).unbotD 0) fun rows hle => ?_
  have hprod : [1, rows.length].prod = rows.length := by simp
  obtain ⟨y, hy, -, hdata⟩ := h (ofRows rows) [1, rows.length] rfl (by rwa [hprod])
  rw [hprod] at hdata
  rw [overRows, hy, ok_bind, readRows]
  have hlen : ((y.toRows rows.length n).map fun row (i : Fin n) =>
      (row.getD i ⊥).unbotD 0).length = rows.length := by
    rw [List.length_map, Tensor.length_toRows]
  refine congrArg Except.ok (List.ext_getElem (by rw [hlen, List.length_map]) fun t ht ht' => ?_)
  rw [List.length_map] at ht'
  obtain ⟨hin, hrow⟩ := List.getElem?_eq_some_iff.mp
    (Tensor.getElem?_toRows ht' : (y.toRows rows.length n)[t]? = _)
  ext i
  rw [List.getElem_map, List.getElem_map, hrow, getD_block ⊥ t i.2, hdata,
    gridAt_grid ⊥ ht' i.2, getD_toRows_ofRows ht']

end Rows

end Rllm
