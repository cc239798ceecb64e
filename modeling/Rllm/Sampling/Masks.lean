import Rllm.Sampling.Truncation

/-! # The masks

Bad words, the allowed tokens and the suppression of the end token mask tokens,
and so do the truncations. What is drawn is not masked: a maximal logit is not,
and neither is a token that a random number above zero reaches. The number zero
reaches the first token of the vocabulary, be it masked or not.
-/

namespace Rllm

open RunningSum

section Length

variable {V : Type} (A : Arithmetic V) (logits : List V)

namespace Arithmetic

theorem length_when {c : Bool} {f : List V → List V} (hf : ∀ xs, (f xs).length = xs.length) :
    (when c f logits).length = logits.length :=
  of_when (P := fun xs => xs.length = logits.length) (fun _ => hf logits) rfl

theorem length_foldl {α : Type} {f : List V → α → List V}
    (hf : ∀ xs a, (f xs a).length = xs.length) (as : List α) :
    (as.foldl f logits).length = logits.length := by
  induction as generalizing logits with
  | nil => rfl
  | cons a as ih => rw [List.foldl_cons, ih, hf]

theorem length_applyBadWord (context badWord : List Token) :
    (A.applyBadWord context logits badWord).length = logits.length := by
  rw [applyBadWord]
  cases badWord.getLast? with
  | none => rfl
  | some last => exact length_when logits fun xs => List.length_modify ..

/-- The masks of a request. -/
def maskLogits (input : SamplingInput (List V)) (logits : List V) : List V :=
  let logits := input.badWordTokenIds.foldl (A.applyBadWord input.contextTokenIds) logits
  let logits := input.params.allowedTokenIds.elim logits (A.applyAllowedTokenIds logits)
  when (0 < input.params.minTokens)
    (A.applyEosSuppression · input.eosTokenId input.numGenerated input.params.minTokens) logits

theorem length_maskLogits (input : SamplingInput (List V)) :
    (A.maskLogits input logits).length = logits.length := by
  have heos (xs : List V) : (A.applyEosSuppression xs input.eosTokenId input.numGenerated
      input.params.minTokens).length = xs.length := by
    rw [applyEosSuppression]
    split
    · exact List.length_modify ..
    · rfl
  have hallowed (xs : List V) :
      (input.params.allowedTokenIds.elim xs (A.applyAllowedTokenIds xs)).length = xs.length := by
    cases input.params.allowedTokenIds with
    | none => rfl
    | some allowed =>
      rw [Option.elim_some, applyAllowedTokenIds]
      split
      · rfl
      · rw [List.length_map, List.length_zipIdx]
  rw [maskLogits, length_when _ heos, hallowed]
  exact length_foldl _ (fun xs => A.length_applyBadWord xs _) _

/-- The bias and the penalties of a request. -/
def penalizeLogits (input : SamplingInput (List V)) : List V :=
  let p := input.params
  let context := input.contextTokenIds
  let logits := when (!p.logitBias.isEmpty) (A.applyLogitBias · p.logitBias) input.logits
  let logits := when (!context.isEmpty && !p.repetitionPenalty.eq (.fin 1))
    (A.applyRepetitionPenalty · context p.repetitionPenalty) logits
  let logits := when (!context.isEmpty && !p.frequencyPenalty.eq (.fin 0))
    (A.applyFrequencyPenalty · context p.frequencyPenalty) logits
  when (!context.isEmpty && !p.presencePenalty.eq (.fin 0))
    (A.applyPresencePenalty · context p.presencePenalty) logits

theorem adjustLogits_eq (input : SamplingInput (List V)) (c : Bool) :
    A.adjustLogits input c = when (c && (F32.fin 0).lt input.params.temperature)
      (A.applyTemperature · input.params.temperature)
      (A.maskLogits input (A.penalizeLogits input)) := by
  rw [adjustLogits, maskLogits]
  cases input.params.allowedTokenIds <;> rfl

theorem length_penalizeLogits (input : SamplingInput (List V)) :
    (A.penalizeLogits input).length = input.logits.length := by
  have htokens {α : Type} (xs : List V) (f : α → V → V) (token : α → Token) (as : List α) :
      (as.foldl (fun xs a => atToken (f a) xs (token a)) xs).length = xs.length :=
    length_foldl xs (fun _ _ => List.length_modify ..) as
  have hrepetition (xs : List V) (p : F32) :
      (A.applyRepetitionPenalty xs input.contextTokenIds p).length = xs.length := by
    rw [applyRepetitionPenalty]
    split
    · rfl
    · exact htokens xs _ id _
  have hfrequency (xs : List V) (p : F32) :
      (A.applyFrequencyPenalty xs input.contextTokenIds p).length = xs.length := by
    rw [applyFrequencyPenalty]
    split
    · rfl
    · exact htokens xs _ id _
  have hpresence (xs : List V) (p : F32) :
      (A.applyPresencePenalty xs input.contextTokenIds p).length = xs.length := by
    rw [applyPresencePenalty]
    split
    · rfl
    · exact htokens xs _ id _
  rw [penalizeLogits, length_when _ fun xs => hpresence xs _,
    length_when _ fun xs => hfrequency xs _, length_when _ fun xs => hrepetition xs _]
  exact length_when _ fun xs => htokens xs _ Prod.fst _

theorem length_adjustLogits (input : SamplingInput (List V)) (c : Bool) :
    (A.adjustLogits input c).length = input.logits.length := by
  have htemperature (xs : List V) :
      (A.applyTemperature xs input.params.temperature).length = xs.length := by
    rw [applyTemperature]
    split
    · rfl
    · exact List.length_map _
  rw [adjustLogits_eq, length_when _ htemperature, length_maskLogits, length_penalizeLogits]

theorem length_truncateLogits (p : SamplingParams) :
    (A.truncateLogits p logits).length = logits.length := by
  have hbelow (threshold : V) (xs : List V) : (A.maskBelow threshold xs).length = xs.length :=
    List.length_map _
  have htopK (xs : List V) : (A.applyTopK xs p.topK).length = xs.length := by
    rw [applyTopK]
    split
    · rfl
    · dsimp only
      split
      · exact hbelow _ xs
      · rfl
  have htopP (xs : List V) : (A.applyTopP xs p.topP).length = xs.length := by
    rw [applyTopP]
    split
    · rfl
    · dsimp only
      split
      · rfl
      · split
        · rfl
        · exact length_foldl xs (fun _ _ => List.length_set) _
  have hminP (xs : List V) : (A.applyMinP xs p.minP).length = xs.length := by
    rw [applyMinP]
    split
    · rfl
    · dsimp only
      split
      · rfl
      · exact hbelow _ xs
  rw [truncateLogits, length_when _ hminP, length_when _ htopP, length_when _ htopK]

theorem length_prepareLogits (input : SamplingInput (List V)) (c c' : Bool) :
    (A.prepareLogits input c c').length = input.logits.length := by
  rw [prepareLogits, length_when _ fun xs => A.length_truncateLogits xs _, length_adjustLogits]

end Arithmetic

end Length

section Order

variable {V : Type} [LinearOrder V] [OrderBot V] {A : Arithmetic V} {logits : List V} {i : ℕ}

/-! ## What the masks keep -/

namespace Arithmetic

theorem Ordered.keptTokens_atToken (h : A.Ordered) (token : Token) :
    keptTokens (atToken (fun _ => A.negInf) logits token) =
      (keptTokens logits).erase token.toNat := by
  ext i
  rw [Finset.mem_erase, mem_keptTokens, mem_keptTokens, atToken, List.getElem?_modify, h.negInf_eq]
  by_cases hi : token.toNat = i
  · simp [hi]
  · simp [hi, Ne.symm hi]

/-- The end of a bad word, if the context ends with what is before it. -/
def Blocks (context : List Token) (badWord : List Token) (token : Token) : Prop :=
  badWord.getLast? = some token ∧ badWord.dropLast.isSuffixOf context = true

theorem Ordered.mem_keptTokens_applyBadWord (h : A.Ordered) {context badWord : List Token}
    (hi : i ∈ keptTokens (A.applyBadWord context logits badWord)) :
    i ∈ keptTokens logits ∧ ∀ token, Blocks context badWord token → token.toNat ≠ i := by
  rw [applyBadWord] at hi
  cases hlast : badWord.getLast? with
  | none =>
    rw [hlast] at hi
    refine ⟨hi, ?_⟩
    rintro token ⟨he, -⟩
    rw [hlast] at he
    cases he
  | some last =>
    simp only [hlast, when] at hi
    split at hi
    · rw [applyBadTokenIds, List.foldl_cons, List.foldl_nil, h.keptTokens_atToken,
        Finset.mem_erase] at hi
      refine ⟨hi.2, ?_⟩
      rintro token ⟨he, -⟩
      rw [hlast] at he
      rw [← Option.some.inj he]
      exact hi.1.symm
    · rename_i hnot
      exact ⟨hi, fun token hb => absurd hb.2 hnot⟩

theorem Ordered.mem_keptTokens_badWords (h : A.Ordered) {context : List Token}
    {badWords : List (List Token)}
    (hi : i ∈ keptTokens (badWords.foldl (A.applyBadWord context) logits)) :
    i ∈ keptTokens logits ∧
      ∀ badWord ∈ badWords, ∀ token, Blocks context badWord token → token.toNat ≠ i := by
  induction badWords generalizing logits with
  | nil =>
    refine ⟨hi, fun badWord hmem => ?_⟩
    cases hmem
  | cons badWord badWords ih =>
    obtain ⟨hkept, hrest⟩ := ih hi
    obtain ⟨hkept, hword⟩ := h.mem_keptTokens_applyBadWord hkept
    exact ⟨hkept, List.forall_mem_cons.mpr ⟨hword, hrest⟩⟩

theorem Ordered.mem_keptTokens_applyAllowedTokenIds (h : A.Ordered) {allowed : List Token}
    (hi : i ∈ keptTokens (A.applyAllowedTokenIds logits allowed)) :
    i ∈ keptTokens logits ∧ (allowed ≠ [] → UInt32.ofNat i ∈ allowed) := by
  rw [applyAllowedTokenIds] at hi
  split at hi
  · rename_i hnil
    exact ⟨hi, fun hne => absurd (List.isEmpty_iff.mp hnil) hne⟩
  · obtain ⟨x, hx, hne⟩ := mem_keptTokens.mp hi
    rw [List.getElem?_map] at hx
    obtain ⟨⟨y, j⟩, hy, he⟩ := Option.map_eq_some_iff.mp hx
    rw [List.getElem?_zipIdx, Nat.zero_add] at hy
    obtain ⟨z, hz, hpair⟩ := Option.map_eq_some_iff.mp hy
    obtain ⟨rfl, rfl⟩ := Prod.mk.inj hpair
    dsimp only at he
    split at he
    · rename_i hmem
      subst he
      exact ⟨mem_keptTokens.mpr ⟨z, hz, hne⟩, fun _ => hmem⟩
    · rw [h.negInf_eq] at he
      exact absurd he.symm hne

theorem Ordered.mem_keptTokens_elim (h : A.Ordered) {allowed? : Option (List Token)}
    (hi : i ∈ keptTokens (allowed?.elim logits (A.applyAllowedTokenIds logits))) :
    i ∈ keptTokens logits ∧
      ∀ allowed, allowed? = some allowed → allowed ≠ [] → UInt32.ofNat i ∈ allowed := by
  cases allowed? with
  | none =>
    refine ⟨hi, fun allowed hsome => ?_⟩
    cases hsome
  | some allowed =>
    obtain ⟨hi, hmem⟩ := h.mem_keptTokens_applyAllowedTokenIds hi
    refine ⟨hi, fun allowed' hsome => ?_⟩
    rw [← Option.some.inj hsome]
    exact hmem

theorem Ordered.mem_keptTokens_applyEosSuppression (h : A.Ordered) {eos : Token}
    {numGenerated minTokens : ℕ}
    (hi : i ∈ keptTokens (when (0 < minTokens)
      (A.applyEosSuppression · eos numGenerated minTokens) logits)) :
    i ∈ keptTokens logits ∧ (numGenerated < minTokens → i ≠ eos.toNat) := by
  rw [when] at hi
  split at hi
  · rw [applyEosSuppression] at hi
    split at hi
    · rw [h.keptTokens_atToken, Finset.mem_erase] at hi
      exact ⟨hi.2, fun _ => hi.1⟩
    · rename_i hnot
      exact ⟨hi, fun hlt => absurd hlt hnot⟩
  · rename_i hzero
    rw [decide_eq_true_eq] at hzero
    exact ⟨hi, fun hlt => absurd (Nat.zero_lt_of_lt hlt) hzero⟩

/-- A token that no mask and no truncation takes away. -/
structure Unmasked (A : Arithmetic V) (input : SamplingInput (List V)) (token : Token) : Prop where
  badWords : ∀ badWord ∈ input.badWordTokenIds, ¬ Blocks input.contextTokenIds badWord token
  allowed : ∀ allowed, input.params.allowedTokenIds = some allowed → allowed ≠ [] →
    token ∈ allowed
  eos : input.numGenerated < input.params.minTokens → token ≠ input.eosTokenId
  kept : ∀ x, (A.adjustLogits input (!isGreedy input.params))[token.toNat]? = some x → x ≠ ⊥ →
    (A.prepareLogits input (!isGreedy input.params) (!isGreedy input.params))[token.toNat]? =
      some x

theorem Ordered.masks_adjustLogits (h : A.Ordered) {input : SamplingInput (List V)} {token : Token}
    (hi : token.toNat ∈ keptTokens (A.adjustLogits input false)) :
    (∀ badWord ∈ input.badWordTokenIds, ¬ Blocks input.contextTokenIds badWord token) ∧
      (∀ allowed, input.params.allowedTokenIds = some allowed → allowed ≠ [] → token ∈ allowed) ∧
      (input.numGenerated < input.params.minTokens → token ≠ input.eosTokenId) := by
  rw [adjustLogits_eq, Bool.false_and, when, if_neg Bool.false_ne_true, maskLogits] at hi
  obtain ⟨hi, heos⟩ := h.mem_keptTokens_applyEosSuppression hi
  obtain ⟨hi, hallowed⟩ := h.mem_keptTokens_elim hi
  obtain ⟨-, hwords⟩ := h.mem_keptTokens_badWords hi
  rw [UInt32.ofNat_toNat] at hallowed
  refine ⟨fun badWord hmem hb => hwords badWord hmem token hb rfl, hallowed, fun hlt he => ?_⟩
  exact heos hlt (congrArg UInt32.toNat he)

end Arithmetic

/-! ## The maximum -/

namespace Arithmetic

theorem Ordered.compare_gt (h : A.Ordered) (x y : V) : A.compare x y = .gt ↔ y < x := by
  unfold compare
  split
  · rename_i hlt
    rw [h.lt_iff] at hlt
    simp [hlt.not_gt]
  · split
    · rename_i hlt
      rw [h.lt_iff] at hlt
      simp [hlt]
    · rename_i hlt
      rw [h.lt_iff] at hlt
      simp [hlt]

theorem Ordered.compares (h : A.Ordered) : Compares A.compare fun _ => True where
  refl x hgt := lt_irrefl x ((h.compare_gt x x).mp hgt)
  asymm x y hgt hgt' := lt_asymm ((h.compare_gt x y).mp hgt) ((h.compare_gt y x).mp hgt')
  trans x y z _ _ _ hle hle' := by
    rw [ne_eq, h.compare_gt, not_lt] at hle hle' ⊢
    exact hle.trans hle'

theorem Ordered.greedySample_max (h : A.Ordered) (hne : logits ≠ []) :
    ∃ i x, A.greedySample logits = UInt32.ofNat i ∧ logits[i]? = some x ∧ ∀ y ∈ logits, y ≤ x := by
  obtain ⟨x, i, hmax, hx, hle⟩ := h.compares.maxBy_zipIdx hne fun _ _ => True.intro
  refine ⟨i, x, by rw [greedySample, hmax]; rfl, hx, fun y hy => ?_⟩
  have hnot := hle y hy
  rwa [ne_eq, h.compare_gt, not_lt] at hnot

end Arithmetic

end Order

section Exact

variable {K : Type} [Field K] [LinearOrder K] {X : ExactOps K} {logits : List (WithBot K)}
  {input : SamplingInput (List (WithBot K))}

namespace ExactOps

/-! ## The temperature -/

theorem keptTokens_applyTemperature (X : ExactOps K) (logits : List (WithBot K)) (t : F32) :
    keptTokens (X.arithmetic.applyTemperature logits t) = keptTokens logits := by
  rw [Arithmetic.applyTemperature]
  split
  · rfl
  · rename_i hguard
    have hbot : X.arithmetic.lt ⊥ (X.arithmetic.ofF32 .epsilon) = true :=
      (X.ordered.lt_iff ..).mpr (WithBot.bot_lt_coe _)
    obtain ⟨c, hc⟩ : ∃ c : K,
        X.arithmetic.div X.arithmetic.one (X.arithmetic.ofF32 t) = (c : WithBot K) := by
      cases t with
      | fin q => exact ⟨_, rfl⟩
      | nan => exact (hguard (Bool.or_eq_true_iff.mpr (.inr hbot))).elim
      | inf s => exact (hguard (Bool.or_eq_true_iff.mpr (.inr hbot))).elim
    have hmul : ∀ x : WithBot K, X.arithmetic.mul x c = ⊥ ↔ x = ⊥ := by
      intro x
      cases x with
      | bot => exact iff_of_true rfl rfl
      | coe x => exact iff_of_false WithBot.coe_ne_bot WithBot.coe_ne_bot
    ext i
    rw [mem_keptTokens, mem_keptTokens, hc, List.getElem?_map]
    cases logits[i]? with
    | none => simp
    | some x => simp [hmul]

theorem keptTokens_adjustLogits (X : ExactOps K) (input : SamplingInput (List (WithBot K)))
    (c : Bool) :
    keptTokens (X.arithmetic.adjustLogits input c) =
      keptTokens (X.arithmetic.adjustLogits input false) := by
  rw [Arithmetic.adjustLogits_eq, Arithmetic.adjustLogits_eq]
  exact Arithmetic.of_when (P := fun xs => keptTokens xs = keptTokens
      (X.arithmetic.maskLogits input (X.arithmetic.penalizeLogits input)))
    (fun _ => X.keptTokens_applyTemperature _ _) rfl

/-! ## The draw -/

theorem pick_coe [IsStrictOrderedRing K] (X : ExactOps K) {r c : K} {i : ℕ} {xs : List K}
    (h : r ≤ c + xs.sum) (hne : xs ≠ []) :
    X.arithmetic.pick r c i (xs.map fun x : K => (x : WithBot K)) =
      some (i + (reach r c xs - 1)) := by
  induction xs generalizing c i with
  | nil => exact absurd rfl hne
  | cons x xs ih =>
    have hadd : X.arithmetic.add c x = ((c + x : K) : WithBot K) := rfl
    have hle : X.arithmetic.le r ((c + x : K) : WithBot K) = true ↔ r ≤ c + x := by
      rw [X.ordered.le_iff, WithBot.coe_le_coe]
    rw [List.map_cons, Arithmetic.pick, hadd]
    simp only [hle]
    rcases le_or_gt r (c + x) with hreached | hlt
    · rw [if_pos hreached, reach_cons_of_le hreached]
      rfl
    · rw [List.sum_cons, ← add_assoc] at h
      have hne' : xs ≠ [] := by
        rintro rfl
        rw [List.sum_nil, add_zero] at h
        exact absurd h (not_le.mpr hlt)
      have hpos := reach_pos r (c + x) hne'
      rw [if_neg (not_le.mpr hlt), ih h hne', reach_cons_of_lt hlt]
      congr 1
      omega

theorem softmaxInPlace_coe [IsStrictOrderedRing K] (hfin : ∃ x ∈ logits, x ≠ ⊥) :
    X.arithmetic.softmaxInPlace logits =
      ((X.weights logits).map (· / (X.weights logits).sum)).map fun x : K => (x : WithBot K) := by
  obtain ⟨m, hm, -⟩ := X.exists_maxLogit hfin
  have hne : ¬ X.arithmetic.eq m X.arithmetic.negInf = true := by
    rw [X.ordered.eq_iff, X.ordered.negInf_eq]
    exact WithBot.coe_ne_bot
  have hexps : logits.map (fun x => X.arithmetic.exp (X.arithmetic.sub x m)) =
      (X.weights logits).map fun x : K => (x : WithBot K) := by
    rw [weights, List.map_map, hm]
    rfl
  rw [Arithmetic.softmaxInPlace, hm]
  dsimp only
  rw [if_neg hne, hexps, zero_eq, foldl_add_coe, zero_add, List.map_map, List.map_map]
  rfl

variable [IsStrictOrderedRing K]

theorem sum_probabilities (hfin : ∃ x ∈ logits, x ≠ ⊥) :
    ((X.weights logits).map (· / (X.weights logits).sum)).sum = 1 := by
  simp only [div_eq_mul_inv]
  rw [List.sum_map_mul_right (f := fun x => x), List.map_id']
  exact mul_inv_cancel₀ (weights_sum_pos hfin).ne'

theorem randomSample_eq (hfin : ∃ x ∈ logits, x ≠ ⊥) {r : K} (hr : r ≤ 1) :
    X.arithmetic.randomSample r logits = UInt32.ofNat
      (reach r 0 ((X.weights logits).map (· / (X.weights logits).sum)) - 1) := by
  obtain ⟨x, hx, -⟩ := id hfin
  have hne : logits ≠ [] := List.ne_nil_of_mem hx
  have hsum : r ≤ 0 + ((X.weights logits).map (· / (X.weights logits).sum)).sum := by
    rwa [sum_probabilities hfin, zero_add]
  have hprobs : (X.weights logits).map (· / (X.weights logits).sum) ≠ [] := by
    rw [ne_eq, List.map_eq_nil_iff, weights, List.map_eq_nil_iff]
    exact hne
  rw [Arithmetic.randomSample, if_neg (by simpa using hne)]
  dsimp only
  rw [softmaxInPlace_coe hfin, zero_eq, pick_coe X hsum hprobs, Option.getD_some, Nat.zero_add]

theorem randomSample_kept (hfin : ∃ x ∈ logits, x ≠ ⊥) {r : K} (hpos : 0 < r) (hr : r ≤ 1) :
    ∃ i ∈ keptTokens logits, X.arithmetic.randomSample r logits = UInt32.ofNat i := by
  have hsum : r ≤ 0 + ((X.weights logits).map (· / (X.weights logits).sum)).sum := by
    rwa [sum_probabilities hfin, zero_add]
  obtain ⟨y, hy, hy₀⟩ := exists_reach hpos hsum
  refine ⟨_, ?_, randomSample_eq hfin hr⟩
  generalize reach r 0 ((X.weights logits).map (· / (X.weights logits).sum)) - 1 = i at hy ⊢
  rw [weights, List.map_map, List.getElem?_map] at hy
  obtain ⟨x, hx, rfl⟩ := Option.map_eq_some_iff.mp hy
  refine mem_keptTokens.mpr ⟨x, hx, ?_⟩
  rintro rfl
  have hzero : X.weight (X.arithmetic.sub ⊥ (X.arithmetic.maxLogit logits)) = 0 := rfl
  rw [Function.comp_apply, hzero, zero_div] at hy₀
  exact lt_irrefl _ hy₀

/-- The number zero draws the first token. -/
theorem randomSample_zero (hfin : ∃ x ∈ logits, x ≠ ⊥) :
    X.arithmetic.randomSample ((0 : K) : WithBot K) logits = 0 := by
  rw [randomSample_eq hfin zero_le_one]
  cases hprobs : (X.weights logits).map (· / (X.weights logits).sum) with
  | nil => rfl
  | cons y ys =>
    have hy : 0 ≤ y := by
      have hmem : y ∈ (X.weights logits).map (· / (X.weights logits).sum) := by
        rw [hprobs]
        exact List.mem_cons_self
      obtain ⟨w, hw, rfl⟩ := List.mem_map.mp hmem
      obtain ⟨x, -, rfl⟩ := List.mem_map.mp hw
      exact div_nonneg (X.weight_nonneg _) (weights_sum_pos hfin).le
    rw [reach_cons_of_le (by rwa [zero_add])]
    rfl

/-! ## The sampler -/

omit [IsStrictOrderedRing K] in
theorem truncates_prepareLogits (X : ExactOps K) (input : SamplingInput (List (WithBot K)))
    (c : Bool) :
    Truncates (X.arithmetic.adjustLogits input c) (X.arithmetic.prepareLogits input c c) := by
  cases c with
  | false => exact .refl _
  | true => exact X.ordered.truncates_truncateLogits input.params _

omit [IsStrictOrderedRing K] in
theorem unmasked_of_kept {token : Token}
    (h : token.toNat ∈ keptTokens (X.arithmetic.prepareLogits input
      (!Arithmetic.isGreedy input.params) (!Arithmetic.isGreedy input.params))) :
    X.arithmetic.Unmasked input token := by
  obtain ⟨x, hx, hne⟩ := mem_keptTokens.mp h
  have hadjusted := (X.truncates_prepareLogits input _).keeps _ x hx hne
  have hkept := mem_keptTokens.mpr ⟨x, hadjusted, hne⟩
  rw [keptTokens_adjustLogits] at hkept
  obtain ⟨hwords, hallowed, heos⟩ := X.ordered.masks_adjustLogits hkept
  refine ⟨hwords, hallowed, heos, fun y hy _ => ?_⟩
  rw [hx, ← hadjusted, hy]

omit [IsStrictOrderedRing K] in
theorem sample_eq (hfin : ∃ x ∈ X.arithmetic.adjustLogits input false, x ≠ ⊥) (r : WithBot K) :
    X.arithmetic.sample r input =
      if Arithmetic.isGreedy input.params then
        X.arithmetic.greedySample (X.arithmetic.prepareLogits input false false)
      else X.arithmetic.randomSample r (X.arithmetic.prepareLogits input true true) := by
  obtain ⟨x, hx, -⟩ := hfin
  have hlen := List.length_pos_of_mem hx
  rw [Arithmetic.length_adjustLogits] at hlen
  have hne : input.logits.isEmpty = false := by
    rw [List.isEmpty_eq_false_iff]
    exact List.length_pos_iff.mp hlen
  rw [Arithmetic.sample, hne, if_neg Bool.false_ne_true]
  dsimp only
  split
  · rename_i h
    rw [h]
    rfl
  · rename_i h
    rw [Bool.not_eq_true] at h
    rw [h]
    rfl

theorem finite_prepareLogits (hminP : (F32.fin 1).lt input.params.minP = false)
    (hfin : ∃ x ∈ X.arithmetic.adjustLogits input false, x ≠ ⊥) (c : Bool) :
    ∃ x ∈ X.arithmetic.prepareLogits input c c, x ≠ ⊥ := by
  obtain ⟨x, hx, hne⟩ := hfin
  obtain ⟨i, hi⟩ := List.mem_iff_getElem?.mp hx
  have hkept := mem_keptTokens.mpr ⟨x, hi, hne⟩
  rw [← X.keptTokens_adjustLogits input c] at hkept
  obtain ⟨y, hy, hne'⟩ := mem_keptTokens.mp hkept
  cases c with
  | false => exact ⟨y, List.mem_of_getElem? hy, hne'⟩
  | true =>
    obtain ⟨j, z, hz, hbest, -⟩ :=
      X.keepsOneBest_truncateLogits _ hminP ⟨y, List.mem_of_getElem? hy, hne'⟩
    exact ⟨z, List.mem_of_getElem? hz, hbest⟩

/-- The sample stays finite behind all processors, but for the random number zero. -/
theorem sample_kept (hlen : input.logits.length ≤ 2 ^ 32)
    (hminP : (F32.fin 1).lt input.params.minP = false)
    (hfin : ∃ x ∈ X.arithmetic.adjustLogits input false, x ≠ ⊥) {r : K} (hr : r ≤ 1)
    (hdraw : Arithmetic.isGreedy input.params = true ∨ 0 < r) :
    (X.arithmetic.sample r input).toNat ∈ keptTokens (X.arithmetic.prepareLogits input
      (!Arithmetic.isGreedy input.params) (!Arithmetic.isGreedy input.params)) := by
  have htoken : ∀ {c : Bool} {i : ℕ}, i ∈ keptTokens (X.arithmetic.prepareLogits input c c) →
      (UInt32.ofNat i).toNat = i := by
    intro c i hi
    obtain ⟨x, hx, -⟩ := mem_keptTokens.mp hi
    have hlt := (List.getElem?_eq_some_iff.mp hx).1
    rw [(X.truncates_prepareLogits input c).length, Arithmetic.length_adjustLogits] at hlt
    exact UInt32.toNat_ofNat_of_lt' (hlt.trans_le hlen)
  rw [sample_eq hfin]
  cases hgreedy : Arithmetic.isGreedy input.params with
  | true =>
    obtain ⟨x, hx, hne⟩ := finite_prepareLogits hminP hfin false
    obtain ⟨i, y, he, hy, hmax⟩ := X.ordered.greedySample_max (List.ne_nil_of_mem hx)
    have hkept : i ∈ keptTokens (X.arithmetic.prepareLogits input false false) :=
      mem_keptTokens.mpr ⟨y, hy, fun hbot => hne (le_bot_iff.mp (hbot ▸ hmax x hx))⟩
    rw [if_pos rfl, he, htoken hkept]
    exact hkept
  | false =>
    have hpos := hdraw.resolve_left (Bool.eq_false_iff.mp hgreedy)
    obtain ⟨i, hkept, he⟩ := randomSample_kept (finite_prepareLogits hminP hfin true) hpos hr
    rw [if_neg Bool.false_ne_true, he, htoken hkept]
    exact hkept

theorem sample_zero (hminP : (F32.fin 1).lt input.params.minP = false)
    (hfin : ∃ x ∈ X.arithmetic.adjustLogits input false, x ≠ ⊥)
    (hgreedy : Arithmetic.isGreedy input.params = false) :
    X.arithmetic.sample ((0 : K) : WithBot K) input = 0 := by
  rw [sample_eq hfin, hgreedy, if_neg Bool.false_ne_true]
  exact randomSample_zero (finite_prepareLogits hminP hfin true)

/-- The sample is not masked exactly if it is greedy, or the random number is above zero, or the
first token of the vocabulary is not masked itself. -/
theorem unmasked_sample_iff (X : ExactOps K) (input : SamplingInput (List (WithBot K)))
    (hlen : input.logits.length ≤ 2 ^ 32) (hminP : (F32.fin 1).lt input.params.minP = false)
    (hfin : ∃ x ∈ X.arithmetic.adjustLogits input false, x ≠ ⊥) (r : K) (hr : 0 ≤ r)
    (hr₁ : r < 1) :
    X.arithmetic.Unmasked input (X.arithmetic.sample r input) ↔
      Arithmetic.isGreedy input.params = true ∨ 0 < r ∨ X.arithmetic.Unmasked input 0 := by
  constructor
  · intro h
    rcases hr.lt_or_eq with hpos | rfl
    · exact .inr (.inl hpos)
    · cases hgreedy : Arithmetic.isGreedy input.params with
      | true => exact .inl rfl
      | false =>
        rw [sample_zero hminP hfin hgreedy] at h
        exact .inr (.inr h)
  · intro h
    by_cases hdraw : Arithmetic.isGreedy input.params = true ∨ 0 < r
    · exact unmasked_of_kept (sample_kept hlen hminP hfin hr₁.le hdraw)
    · obtain ⟨hgreedy, hpos⟩ := not_or.mp hdraw
      obtain rfl : 0 = r := le_antisymm hr (not_lt.mp hpos)
      rw [sample_zero hminP hfin (Bool.eq_false_iff.mpr hgreedy)]
      exact (h.resolve_left hgreedy).resolve_left hpos

/-- Two tokens, of which the first is a bad word. -/
def firstBlocked : SamplingInput (List (WithBot ℚ)) where
  logits := [0, 0]
  params := {}
  contextTokenIds := []
  numGenerated := 0
  eosTokenId := 2
  badWordTokenIds := [[0]]

theorem unmasked_sample_half :
    rational.arithmetic.Unmasked firstBlocked
      (rational.arithmetic.sample ((1 / 2 : ℚ) : WithBot ℚ) firstBlocked) :=
  (unmasked_sample_iff rational firstBlocked (by decide) (by decide +kernel)
    ⟨0, by decide +kernel, by decide⟩ (1 / 2) (by norm_num) (by norm_num)).mpr
    (.inr (.inl (by norm_num)))

theorem not_unmasked_sample_zero :
    firstBlocked.params.validate = .ok () ∧
      (∃ x ∈ rational.arithmetic.adjustLogits firstBlocked false, x ≠ ⊥) ∧
      ¬ rational.arithmetic.Unmasked firstBlocked
        (rational.arithmetic.sample ((0 : ℚ) : WithBot ℚ) firstBlocked) := by
  refine ⟨by decide +kernel, ⟨0, by decide +kernel, by decide⟩, fun h => ?_⟩
  have hzero : rational.arithmetic.sample ((0 : ℚ) : WithBot ℚ) firstBlocked = 0 := by
    decide +kernel
  rw [hzero] at h
  exact h.badWords [0] List.mem_cons_self ⟨rfl, rfl⟩

end ExactOps

end Exact

end Rllm
