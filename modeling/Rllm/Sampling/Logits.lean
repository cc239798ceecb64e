import Mathlib.Algebra.Order.Field.Rat
import Rllm.Sampling.Sampler

/-! # The processors of the logits

Temperature, truncations, softmax and the weighted draw over an arithmetic of
floats. A token is masked by the logit `-∞`, which no later processor takes
back; a masked token is neither the maximum nor drawn, but for draws and sums
at the edges of the interval.
-/

namespace Rllm

namespace F32

def abs : F32 → F32
  | .nan => .nan
  | .inf _ => .inf false
  | .fin q => .fin |q|

/-- `f32::max`, which passes over NaN. -/
def max (x y : F32) : F32 :=
  if x = .nan then y else if y = .nan then x else if x.lt y then y else x

def epsilon : F32 := .fin (1 / 8388608)

variable {x y z : F32}

theorem lt_self (x : F32) : x.lt x = false := by
  cases x <;> simp [lt]

theorem le_self (hx : x ≠ .nan) : x.le x = true := by
  cases x <;> simp_all [le, eq]

theorem lt_of_le_of_lt (h : x.le y = true) (h' : y.lt z = true) : x.lt z = true := by
  cases x <;> cases y <;> cases z <;> simp_all [le, lt, eq]
  rcases h with h | rfl
  · exact h.trans h'
  · exact h'

theorem lt_of_lt_of_le (h : x.lt y = true) (h' : y.le z = true) : x.lt z = true := by
  cases x <;> cases y <;> cases z <;> simp_all [le, lt, eq]
  rcases h' with h' | rfl
  · exact h.trans h'
  · exact h

theorem le_of_lt (h : x.lt y = true) : x.le y = true := by
  rw [le, h, Bool.true_or]

theorem partialCmp_gt : (x.partialCmp y).getD .eq = .gt ↔ y.lt x = true := by
  have hasymm : x.lt y = true → y.lt x = false := by
    intro h
    rw [← Bool.not_eq_true]
    intro h'
    have := lt_of_le_of_lt (le_of_lt h) h'
    rw [lt_self] at this
    cases this
  unfold partialCmp
  split
  · rename_i h
    simp [hasymm h]
  · split
    · rename_i h
      simp [h]
    · rename_i h
      split <;> simp [h]

theorem le_trans (h : x.le y = true) (h' : y.le z = true) : x.le z = true := by
  cases x <;> cases y <;> cases z <;> simp_all [le, lt, eq]
  · grind
  · rcases h with h | rfl
    · rcases h' with h' | rfl
      · exact .inl (h.trans h')
      · exact .inl h
    · exact h'

theorem le_of_not_lt (hx : x ≠ .nan) (hy : y ≠ .nan) (h : x.lt y = false) : y.le x = true := by
  cases x <;> cases y <;> simp_all [le, lt, eq]
  · grind
  · exact lt_or_eq_of_le h

end F32

/-- The arithmetic of floats with the laws of rounding that the draw rests on, and a sort in
descending order that leaves the order of equal elements open. -/
structure FloatOps where
  add : F32 → F32 → F32
  sub : F32 → F32 → F32
  mul : F32 → F32 → F32
  div : F32 → F32 → F32
  exp : F32 → F32
  ln : F32 → F32
  ofCount : ℕ → F32
  sortDescending : List (ℕ × F32) → List (ℕ × F32)
  add_zero : ∀ x, add x (.fin 0) = x
  le_add : ∀ x y, (F32.fin 0).le x = true → (F32.fin 0).le y = true →
    x.le (add x y) = true ∧ y.le (add x y) = true
  sub_fin : ∀ p q, sub (.fin p) (.fin q) ≠ .nan
  sub_self : ∀ q, sub (.fin q) (.fin q) = .fin 0
  neg_inf_sub : ∀ q, sub (.inf true) (.fin q) = .inf true
  exp_neg_inf : exp (.inf true) = .fin 0
  exp_zero : exp (.fin 0) = .fin 1
  exp_nonneg : ∀ x, x ≠ .nan → (F32.fin 0).le (exp x) = true
  zero_div : ∀ x, (F32.fin 0).lt x = true → div (.fin 0) x = .fin 0
  inv_nonneg : ∀ x, (F32.fin 0).lt x = true → (F32.fin 0).le (div (.fin 1) x) = true
  neg_inf_mul : ∀ x, (F32.fin 0).le x = true →
    mul (.inf true) x = .inf true ∨ mul (.inf true) x = .nan

namespace FloatOps

variable (F : FloatOps)

def applyTemperature (logits : List F32) (temperature : F32) : List F32 :=
  if temperature.le (.fin 0) || (F.sub temperature (.fin 1)).abs.lt .epsilon then logits
  else
    let invTemp := F.div (.fin 1) temperature
    logits.map (F.mul · invTemp)

/-- Mask the logits below a threshold. -/
def maskBelow (threshold : F32) (logits : List F32) : List F32 :=
  logits.map fun x => if x.lt threshold then .inf true else x

def applyTopK (logits : List F32) (k : ℤ) : List F32 :=
  if k ≤ 0 then logits
  else
    let indices := F.sortDescending (logits.zipIdx.map Prod.swap)
    match indices[k.toNat]? with
    | some (_, threshold) => maskBelow threshold logits
    | none => logits

/-- The number of tokens that are kept: up to the one that reaches the probability. -/
def cutoff (p sum : F32) : F32 → List F32 → ℕ
  | _, [] => 0
  | cumsum, x :: xs =>
    let cumsum := F.add cumsum (F.div x sum)
    if p.le cumsum then 1 else 1 + cutoff p sum cumsum xs

def applyTopP (logits : List F32) (p : F32) : List F32 :=
  if (F32.fin 1).le p || p.le (.fin 0) || logits.isEmpty then logits
  else
    let indexed := F.sortDescending
      ((logits.zipIdx.map Prod.swap).filter fun x => decide (x.2 ≠ .inf true))
    match indexed with
    | [] => logits
    | (_, maxVal) :: _ =>
      let exps := indexed.map fun x => F.exp (F.sub x.2 maxVal)
      let sum := exps.foldl F.add (.fin 0)
      if sum.eq (.fin 0) then logits
      else (indexed.drop (F.cutoff p sum (.fin 0) exps)).foldl (fun logits x =>
        logits.set x.1 (.inf true)) logits

def maxLogit (logits : List F32) : F32 := logits.foldl F32.max (.inf true)

def applyMinP (logits : List F32) (minP : F32) : List F32 :=
  if minP.le (.fin 0) || logits.isEmpty then logits
  else
    let max := maxLogit logits
    if max.eq (.inf true) then logits
    else maskBelow (F.add (F.ln minP) max) logits

/-- The probabilities of the tokens. The sum of the exponentials is not read by the sampler. -/
def softmaxInPlace (logits : List F32) : List F32 :=
  let max := maxLogit logits
  if max.eq (.inf true) then logits
  else
    let exps := logits.map fun x => F.exp (F.sub x max)
    let sum := exps.foldl F.add (.fin 0)
    exps.map (F.div · sum)

/-- The first index from `i` on whose cumulated probability reaches the draw. -/
def pick (r : F32) : F32 → ℕ → List F32 → Option ℕ
  | _, _, [] => none
  | cumsum, i, x :: xs =>
    let cumsum := F.add cumsum x
    if r.le cumsum then some i else pick r cumsum (i + 1) xs

/-- The draw behind the softmax, from a random number between zero and one. -/
def randomSample (r : F32) (logits : List F32) : Token :=
  if logits.isEmpty then 0
  else
    let probs := F.softmaxInPlace logits
    UInt32.ofNat ((F.pick r (.fin 0) 0 probs).getD (probs.length - 1))

/-- The sampler, with its next random number. -/
def samplerOps (r : F32) : SamplerOps where
  add := F.add
  sub := F.sub
  mul := F.mul
  div := F.div
  ofCount := F.ofCount
  applyTemperature := F.applyTemperature
  applyTopK := F.applyTopK
  applyTopP := F.applyTopP
  applyMinP := F.applyMinP
  randomSample := F.randomSample r

variable {F : FloatOps} {logits : List F32} {i : ℕ}

/-! ## Masked tokens -/

/-- The logit at an index, if there is one, is `-∞`, or NaN once it went through a product. -/
def Masked (logits : List F32) (i : ℕ) : Prop :=
  ∀ x, logits[i]? = some x → x = .inf true ∨ x = .nan

theorem Masked.map {f : F32 → F32} (h : Masked logits i)
    (hinf : f (.inf true) = .inf true ∨ f (.inf true) = .nan)
    (hnan : f .nan = .inf true ∨ f .nan = .nan) : Masked (logits.map f) i := by
  intro y hy
  rw [List.getElem?_map, Option.map_eq_some_iff] at hy
  obtain ⟨x, hx, rfl⟩ := hy
  rcases h x hx with rfl | rfl
  · exact hinf
  · exact hnan

theorem Masked.maskBelow (h : Masked logits i) (threshold : F32) :
    Masked (maskBelow threshold logits) i := by
  refine h.map ?_ (.inr rfl)
  split <;> exact .inl rfl

theorem Masked.set (h : Masked logits i) (j : ℕ) : Masked (logits.set j (.inf true)) i := by
  intro x hx
  rw [List.getElem?_set] at hx
  split at hx
  · split at hx
    · exact .inl (Option.some.inj hx).symm
    · cases hx
  · exact h x hx

theorem Masked.applyTopK (h : Masked logits i) (k : ℤ) : Masked (F.applyTopK logits k) i := by
  unfold FloatOps.applyTopK
  dsimp only
  split
  · exact h
  · split
    · exact h.maskBelow _
    · exact h

theorem Masked.applyTopP (h : Masked logits i) (p : F32) : Masked (F.applyTopP logits p) i := by
  have hfold : ∀ (xs : List (ℕ × F32)) (logits : List F32), Masked logits i →
      Masked (xs.foldl (fun logits x => logits.set x.1 (.inf true)) logits) i := by
    intro xs
    induction xs with
    | nil => exact fun _ h => h
    | cons x xs ih => exact fun _ h => ih _ (h.set x.1)
  unfold FloatOps.applyTopP
  dsimp only
  split
  · exact h
  · split
    · exact h
    · split
      · exact h
      · exact hfold _ _ h

theorem Masked.applyMinP (h : Masked logits i) (p : F32) : Masked (F.applyMinP logits p) i := by
  unfold FloatOps.applyMinP
  dsimp only
  split
  · exact h
  · split
    · exact h
    · exact h.maskBelow _

theorem masked_applyTemperature (h : ∀ x, logits[i]? = some x → x = .inf true) {t : F32}
    (ht : (F32.fin 0).lt t = true) : Masked (F.applyTemperature logits t) i := by
  unfold FloatOps.applyTemperature
  dsimp only
  split
  · exact fun x hx => .inl (h x hx)
  · intro y hy
    rw [List.getElem?_map, Option.map_eq_some_iff] at hy
    obtain ⟨x, hx, rfl⟩ := hy
    rw [h x hx]
    exact F.neg_inf_mul _ (F.inv_nonneg t ht)

theorem Masked.when {f : List F32 → List F32} (h : Masked logits i)
    (hf : Masked logits i → Masked (f logits) i) (c : Bool) :
    Masked (SamplerOps.when c f logits) i := by
  cases c
  · exact h
  · exact hf h

theorem applyEosSuppression_eq_inf {eos : Token} {n m : ℕ} (h : n < m) (x : F32)
    (hx : (SamplerOps.applyEosSuppression logits eos n m)[eos.toNat]? = some x) :
    x = .inf true := by
  rw [SamplerOps.applyEosSuppression, if_pos h, SamplerOps.atToken, List.getElem?_modify_eq,
    Option.map_eq_map, Option.map_eq_some_iff] at hx
  obtain ⟨-, -, rfl⟩ := hx
  rfl

theorem masked_prepareLogits {input : SamplingInput (List F32)} (r : F32)
    (h : input.numGenerated < input.params.minTokens) (temperature truncation : Bool) :
    Masked ((F.samplerOps r).prepareLogits input temperature truncation)
      input.eosTokenId.toNat := by
  have hmin : decide (0 < input.params.minTokens) = true := by
    rw [decide_eq_true_eq]
    omega
  unfold SamplerOps.prepareLogits
  simp only [hmin]
  refine Masked.when ?_ (fun h => h.applyMinP _) _
  refine Masked.when ?_ (fun h => h.applyTopP _) _
  refine Masked.when ?_ (fun h => h.applyTopK _) _
  rw [SamplerOps.when, SamplerOps.when, if_pos rfl]
  split
  · rename_i ht
    exact masked_applyTemperature (applyEosSuppression_eq_inf h) (Bool.and_eq_true_iff.mp ht).2
  · exact fun x hx => .inl (applyEosSuppression_eq_inf h x hx)

/-! ## The maximum -/

theorem F32.compares : Compares (fun x y : F32 => (x.partialCmp y).getD .eq) (· ≠ .nan) where
  refl x hgt := by
    have hlt := F32.partialCmp_gt.mp hgt
    rw [F32.lt_self] at hlt
    cases hlt
  asymm x y hgt hgt' := by
    have hlt := F32.lt_of_lt_of_le (F32.partialCmp_gt.mp hgt)
      (F32.le_of_lt (F32.partialCmp_gt.mp hgt'))
    rw [F32.lt_self] at hlt
    cases hlt
  trans x y z hx hy hz h h' hgt := by
    rw [ne_eq, F32.partialCmp_gt, Bool.not_eq_true] at h h'
    have hle := F32.le_trans (F32.le_of_not_lt hy hx h) (F32.le_of_not_lt hz hy h')
    have hlt := F32.lt_of_le_of_lt hle (F32.partialCmp_gt.mp hgt)
    rw [F32.lt_self] at hlt
    cases hlt

theorem greedySample_max (hne : logits ≠ []) (hnan : ∀ x ∈ logits, x ≠ .nan) :
    ∃ i x, greedySample logits = UInt32.ofNat i ∧ logits[i]? = some x ∧
      ∀ y ∈ logits, x.lt y = false := by
  obtain ⟨x, i, hmax, hx, hle⟩ := F32.compares.maxBy_zipIdx hne hnan
  refine ⟨i, x, by rw [greedySample, hmax]; rfl, hx, fun y hy => ?_⟩
  have hnot := hle y hy
  rwa [ne_eq, F32.partialCmp_gt, Bool.not_eq_true] at hnot

/-- Everything compares, and some logit is above `-∞` and above those of all stop tokens but the
end token. -/
structure GreedyClear (stops : Token → Prop) (eos : Token) (logits : List F32) : Prop where
  comparable : ∀ x ∈ logits, x ≠ .nan
  ahead : ∃ x ∈ logits, (F32.inf true).lt x = true ∧ ∀ j y, j ≠ eos.toNat →
    stops (UInt32.ofNat j) → logits[j]? = some y → y.lt x = true

theorem GreedyClear.not_stops {stops : Token → Prop} {eos : Token}
    (h : GreedyClear stops eos logits) (hm : Masked logits eos.toNat) :
    ¬ stops (greedySample logits) := by
  obtain ⟨z, hz, hinf, hahead⟩ := h.ahead
  obtain ⟨i, x, hgreedy, hx, hmax⟩ := greedySample_max (List.ne_nil_of_mem hz) h.comparable
  have hnot : ¬ x.lt z = true := by rw [hmax z hz]; nofun
  rw [hgreedy]
  intro hstops
  by_cases hi : i = eos.toNat
  · rcases hm x (hi ▸ hx) with rfl | rfl
    · exact hnot hinf
    · exact h.comparable _ (List.mem_of_getElem? hx) rfl
  · exact hnot (hahead i x hi hstops hx)

/-! ## The draw -/

theorem pick_some {r c : F32} {k : ℕ} {ps : List F32} (h : F.pick r c i ps = some k) :
    ∃ j p, k = i + j ∧ ps[j]? = some p ∧ (p = .fin 0 → k = i ∧ r.le c = true) := by
  induction ps generalizing c i with
  | nil => cases h
  | cons x xs ih =>
    rw [pick] at h
    split at h
    · rename_i hle
      obtain rfl := Option.some.inj h
      refine ⟨0, x, rfl, rfl, ?_⟩
      rintro rfl
      rw [F.add_zero] at hle
      exact ⟨rfl, hle⟩
    · rename_i hle
      obtain ⟨j, p, rfl, hp, hzero⟩ := ih h
      exact ⟨j + 1, p, by omega, hp, fun h₀ => absurd (hzero h₀).2 hle⟩

theorem pick_none {r c : F32} {ps : List F32} (h : F.pick r c i ps = none) (hne : ps ≠ []) :
    r.le (ps.foldl F.add c) = false := by
  induction ps generalizing c i with
  | nil => exact absurd rfl hne
  | cons x xs ih =>
    rw [pick] at h
    split at h
    · cases h
    · rename_i hle
      cases xs with
      | nil => exact Bool.eq_false_iff.mpr hle
      | cons y ys => exact ih h (List.cons_ne_nil y ys)

/-- A logit that is finite or `-∞`. -/
def Bounded (x : F32) : Prop := x = .inf true ∨ ∃ q, x = .fin q

theorem Bounded.not_nan {x : F32} (h : Bounded x) : x ≠ .nan := by
  rcases h with rfl | ⟨q, rfl⟩ <;> nofun

theorem max_fold {xs : List F32} {a : F32} (ha : Bounded a) (hxs : ∀ x ∈ xs, Bounded x) :
    xs.foldl F32.max a ∈ a :: xs ∧ ∀ x ∈ a :: xs, x.le (xs.foldl F32.max a) = true := by
  induction xs generalizing a with
  | nil =>
    refine ⟨List.mem_singleton_self a, fun x hx => ?_⟩
    rw [List.mem_singleton.mp hx]
    exact F32.le_self ha.not_nan
  | cons x xs ih =>
    obtain ⟨hx, hxs⟩ := List.forall_mem_cons.mp hxs
    have hmax : a.max x = if a.lt x then x else a := by
      rw [F32.max, if_neg ha.not_nan, if_neg hx.not_nan]
    rw [List.foldl_cons, hmax]
    split
    · rename_i hlt
      obtain ⟨hmem, hle⟩ := ih hx hxs
      exact ⟨List.mem_cons_of_mem _ hmem, List.forall_mem_cons.mpr
        ⟨F32.le_trans (F32.le_of_lt hlt) (hle x List.mem_cons_self), hle⟩⟩
    · rename_i hlt
      obtain ⟨hmem, hle⟩ := ih ha hxs
      obtain ⟨hlea, hles⟩ := List.forall_mem_cons.mp hle
      have hxa := F32.le_of_not_lt ha.not_nan hx.not_nan (Bool.eq_false_iff.mpr hlt)
      refine ⟨?_, List.forall_mem_cons.mpr ⟨hlea, List.forall_mem_cons.mpr
        ⟨F32.le_trans hxa hlea, hles⟩⟩⟩
      rcases List.mem_cons.mp hmem with he | hm
      · rw [he]
        exact List.mem_cons_self
      · exact List.mem_cons_of_mem _ (List.mem_cons_of_mem _ hm)

theorem le_sum {xs : List F32} {a : F32} (ha : (F32.fin 0).le a = true)
    (hxs : ∀ x ∈ xs, (F32.fin 0).le x = true) :
    ∀ x ∈ a :: xs, x.le (xs.foldl F.add a) = true := by
  have hnan : ∀ {x : F32}, (F32.fin 0).le x = true → x ≠ .nan := by
    rintro x h rfl
    cases h
  induction xs generalizing a with
  | nil =>
    intro x hx
    rw [List.mem_singleton.mp hx]
    exact F32.le_self (hnan ha)
  | cons x xs ih =>
    obtain ⟨hx, hxs⟩ := List.forall_mem_cons.mp hxs
    obtain ⟨hlea, hlex⟩ := F.le_add a x ha hx
    obtain ⟨hsum, hrest⟩ := List.forall_mem_cons.mp (ih (F32.le_trans ha hlea) hxs)
    exact List.forall_mem_cons.mpr ⟨F32.le_trans hlea hsum,
      List.forall_mem_cons.mpr ⟨F32.le_trans hlex hsum, hrest⟩⟩

theorem length_softmaxInPlace : (F.softmaxInPlace logits).length = logits.length := by
  unfold softmaxInPlace
  dsimp only
  split
  · rfl
  · rw [List.length_map, List.length_map]

theorem softmaxInPlace_masked (hb : ∀ x ∈ logits, Bounded x) {q : ℚ} (hq : .fin q ∈ logits)
    (hi : logits[i]? = some (.inf true)) : (F.softmaxInPlace logits)[i]? = some (.fin 0) := by
  obtain ⟨hmem, hle⟩ := max_fold (.inl rfl) hb
  obtain ⟨top, htop⟩ : ∃ top, maxLogit logits = .fin top := by
    rcases List.mem_cons.mp hmem with he | hm
    · have := hle _ (List.mem_cons_of_mem _ hq)
      rw [he] at this
      cases this
    · rcases hb _ hm with he | he
      · have := hle _ (List.mem_cons_of_mem _ hq)
        rw [he] at this
        cases this
      · exact he
  have hfin : (F32.fin top).eq (.inf true) = false := rfl
  have htopmem : F32.fin top ∈ logits := by
    rw [← htop]
    rcases List.mem_cons.mp hmem with he | hm
    · rw [maxLogit, he] at htop
      cases htop
    · exact hm
  have hexp : ∀ x ∈ logits.map fun x => F.exp (F.sub x (.fin top)), (F32.fin 0).le x = true := by
    intro y hy
    obtain ⟨x, hx, rfl⟩ := List.mem_map.mp hy
    rcases hb x hx with rfl | ⟨p, rfl⟩
    · rw [F.neg_inf_sub, F.exp_neg_inf]
      rfl
    · exact F.exp_nonneg _ (F.sub_fin p top)
  have hone : F32.fin 1 ∈ logits.map fun x => F.exp (F.sub x (.fin top)) := by
    refine List.mem_map.mpr ⟨_, htopmem, ?_⟩
    rw [F.sub_self, F.exp_zero]
  have hsum : (F32.fin 0).lt ((logits.map fun x => F.exp (F.sub x (.fin top))).foldl F.add
      (.fin 0)) = true :=
    F32.lt_of_lt_of_le (y := .fin 1) rfl (le_sum rfl hexp _ (List.mem_cons_of_mem _ hone))
  rw [softmaxInPlace, htop, hfin, if_neg Bool.false_ne_true, List.getElem?_map, List.getElem?_map,
    hi, Option.map_some, Option.map_some, F.neg_inf_sub, F.exp_neg_inf, F.zero_div _ hsum]

/-- The logits are finite or `-∞`, the latter for all stop tokens but the end token, and the draw
does not fall on the edges of the interval. -/
structure DrawClear (F : FloatOps) (r : F32) (stops : Token → Prop) (eos : Token)
    (logits : List F32) : Prop where
  bounded : ∀ x ∈ logits, Bounded x
  finite : ∃ q, .fin q ∈ logits
  masked : ∀ j y, j ≠ eos.toNat → stops (UInt32.ofNat j) → logits[j]? = some y → y = .inf true
  positive : (F32.fin 0).lt r = true ∨ ¬ stops 0
  reached : r.le ((F.softmaxInPlace logits).foldl F.add (.fin 0)) = true ∨
    ¬ stops (UInt32.ofNat (logits.length - 1))

theorem DrawClear.not_stops {r : F32} {stops : Token → Prop} {eos : Token}
    (h : DrawClear F r stops eos logits) (hm : Masked logits eos.toNat) :
    ¬ stops (F.randomSample r logits) := by
  obtain ⟨q, hq⟩ := h.finite
  have hne : logits ≠ [] := List.ne_nil_of_mem hq
  have hprobs : F.softmaxInPlace logits ≠ [] := by
    rw [← List.length_pos_iff, length_softmaxInPlace]
    exact List.length_pos_iff.mpr hne
  rw [randomSample, if_neg (by simpa using hne)]
  dsimp only
  intro hstops
  cases hpick : F.pick r (.fin 0) 0 (F.softmaxInPlace logits) with
  | none =>
    rw [hpick, Option.getD_none, length_softmaxInPlace] at hstops
    have hreached := h.reached.resolve_right fun hn => hn hstops
    rw [pick_none hpick hprobs] at hreached
    cases hreached
  | some k =>
    rw [hpick, Option.getD_some] at hstops
    obtain ⟨j, p, hk, hp, hzero⟩ := pick_some hpick
    rw [Nat.zero_add] at hk
    subst hk
    have hlt : k < logits.length := by
      rw [← length_softmaxInPlace (F := F)]
      exact (List.getElem?_eq_some_iff.mp hp).1
    have hmasked : logits[k]? = some (.inf true) := by
      rw [List.getElem?_eq_getElem hlt]
      by_cases hk : k = eos.toNat
      · subst hk
        have hx := hm _ (List.getElem?_eq_getElem hlt)
        exact congrArg some (hx.resolve_right (h.bounded _ (List.getElem_mem hlt)).not_nan)
      · exact congrArg some (h.masked k _ hk hstops (List.getElem?_eq_getElem hlt))
    rw [softmaxInPlace_masked h.bounded hq hmasked] at hp
    obtain ⟨rfl, hle⟩ := hzero (Option.some.inj hp).symm
    have hpos := h.positive.resolve_right fun hn => hn hstops
    have habsurd := F32.lt_of_lt_of_le hpos hle
    cases habsurd

/-! ## The sampler -/

/-- The sampler can only return a stop token if it returns the end token. -/
def Clear (F : FloatOps) (r : F32) (stops : Token → Prop) (input : SamplingInput (List F32)) :
    Prop :=
  input.logits ≠ [] ∧
    if input.params.temperature.le (.fin 0) || input.params.topK = 1 then
      GreedyClear stops input.eosTokenId ((F.samplerOps r).prepareLogits input false false)
    else DrawClear F r stops input.eosTokenId ((F.samplerOps r).prepareLogits input true true)

theorem Clear.not_stops {r : F32} {stops : Token → Prop} {input : SamplingInput (List F32)}
    (h : Clear F r stops input) (hmin : input.numGenerated < input.params.minTokens) :
    ¬ stops ((F.samplerOps r).sample input) := by
  obtain ⟨hne, h⟩ := h
  rw [SamplerOps.sample, if_neg (by simpa using hne)]
  dsimp only
  split at h
  · rename_i hgreedy
    rw [hgreedy, if_pos rfl]
    exact h.not_stops (masked_prepareLogits r hmin _ _)
  · rename_i hgreedy
    rw [Bool.not_eq_true] at hgreedy
    rw [hgreedy, if_neg Bool.false_ne_true]
    exact h.not_stops (masked_prepareLogits r hmin _ _)

end FloatOps

/-! ## Arithmetic without rounding -/

namespace F32

def neg : F32 → F32
  | .nan => .nan
  | .inf s => .inf !s
  | .fin q => .fin (-q)

def exactAdd : F32 → F32 → F32
  | .nan, _ | _, .nan => .nan
  | .inf s, .inf t => if s = t then .inf s else .nan
  | .inf s, .fin _ | .fin _, .inf s => .inf s
  | .fin p, .fin q => .fin (p + q)

def exactMul : F32 → F32 → F32
  | .nan, _ | _, .nan => .nan
  | .inf s, .inf t => .inf (s != t)
  | .inf s, .fin q | .fin q, .inf s => if q = 0 then .nan else .inf (s != decide (q < 0))
  | .fin p, .fin q => .fin (p * q)

def exactDiv : F32 → F32 → F32
  | .nan, _ | _, .nan | .inf _, .inf _ => .nan
  | .inf s, .fin q => .inf (s != decide (q < 0))
  | .fin _, .inf _ => .fin 0
  | .fin p, .fin q =>
    if q = 0 then (if p = 0 then .nan else .inf (decide (p < 0))) else .fin (p / q)

/-- An exponential that is right at zero and at `-∞`. -/
def stepExp : F32 → F32
  | .nan => .nan
  | .inf s => if s then .fin 0 else .inf false
  | .fin q => if q < 0 then .fin 0 else .fin 1

end F32

/-- Exact arithmetic, with an exponential for logits that are equal or masked. -/
def exactFloats : FloatOps where
  add := F32.exactAdd
  sub x y := F32.exactAdd x y.neg
  mul := F32.exactMul
  div := F32.exactDiv
  exp := F32.stepExp
  ln x := x
  ofCount n := .fin n
  sortDescending xs := xs.mergeSort fun x y => y.2.le x.2
  add_zero x := by cases x <;> simp [F32.exactAdd]
  le_add x y hx hy := by
    cases x <;> cases y <;> simp_all [F32.exactAdd, F32.le, F32.lt, F32.eq]
    exact ⟨hy.imp_right Eq.symm, hx.imp_right Eq.symm⟩
  sub_fin p q := nofun
  sub_self q := by simp [F32.exactAdd, F32.neg]
  neg_inf_sub q := rfl
  exp_neg_inf := rfl
  exp_zero := rfl
  exp_nonneg x hx := by
    cases x with
    | nan => exact absurd rfl hx
    | inf s => cases s <;> rfl
    | fin q =>
      rw [F32.stepExp]
      split <;> rfl
  zero_div x hx := by
    cases x with
    | nan => cases hx
    | inf s => rfl
    | fin q =>
      have hq : 0 < q := by simpa [F32.lt] using hx
      rw [F32.exactDiv, if_neg hq.ne', zero_div]
  inv_nonneg x hx := by
    cases x with
    | nan => cases hx
    | inf s => rfl
    | fin q =>
      have hq : 0 < q := by simpa [F32.lt] using hx
      rw [F32.exactDiv, if_neg hq.ne']
      apply F32.le_of_lt
      simpa [F32.lt] using one_div_pos.mpr hq
  neg_inf_mul x hx := by
    cases x with
    | nan => cases hx
    | inf s =>
      cases s with
      | true => cases hx
      | false => exact .inl rfl
    | fin q =>
      rw [F32.exactMul]
      split
      · exact .inr rfl
      · rename_i hq
        have hle : 0 ≤ q := by
          simp only [F32.le, F32.lt, F32.eq, Bool.or_eq_true, decide_eq_true_eq, F32.fin.injEq]
            at hx
          exact hx.elim le_of_lt le_of_eq
        simp [hle]

end Rllm
