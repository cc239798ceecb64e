import Rllm.Core.Request

/-! # The sampler

One token is sampled from a vector of logits: processors adjust the logits,
then the token is their maximum or a random draw. The arithmetic of floats and
the random draw are parameters.
-/

namespace Rllm

structure SamplingInput (Logits : Type) where
  logits : Logits
  params : SamplingParams
  contextTokenIds : List Token
  numGenerated : ℕ
  eosTokenId : Token
  badWordTokenIds : List (List Token) := []

/-- What the sampler computes with floats. -/
structure SamplerOps where
  add : F32 → F32 → F32
  sub : F32 → F32 → F32
  mul : F32 → F32 → F32
  div : F32 → F32 → F32
  ofCount : ℕ → F32
  applyTemperature : List F32 → F32 → List F32
  applyTopK : List F32 → ℤ → List F32
  applyTopP : List F32 → F32 → List F32
  applyMinP : List F32 → F32 → List F32
  randomSample : List F32 → Token

/-- `f32::partial_cmp`: nothing compares with NaN. -/
def F32.partialCmp (x y : F32) : Option Ordering :=
  if x.lt y then some .lt else if y.lt x then some .gt else if x.eq y then some .eq else none

def F32.isFinite : F32 → Bool
  | .fin _ => true
  | _ => false

/-- `Iterator::max_by`: the last of the maximal elements. -/
def maxBy {α : Type} (compare : α → α → Ordering) : List α → Option α
  | [] => none
  | x :: xs => some (xs.foldl (fun x y => if compare x y = .gt then x else y) x)

/-- A comparison that orders some elements. -/
structure Compares {α : Type} (compare : α → α → Ordering) (P : α → Prop) : Prop where
  refl : ∀ x, compare x x ≠ .gt
  asymm : ∀ x y, compare x y = .gt → compare y x ≠ .gt
  trans : ∀ x y z, P x → P y → P z → compare x y ≠ .gt → compare y z ≠ .gt → compare x z ≠ .gt

namespace Compares

variable {α : Type} {compare : α → α → Ordering} {P : α → Prop} {xs : List α}

theorem foldl_maximal (hc : Compares compare P) {a : α} (h : ∀ x ∈ a :: xs, P x) :
    xs.foldl (fun x y => if compare x y = .gt then x else y) a ∈ a :: xs ∧
      ∀ y ∈ a :: xs,
        compare y (xs.foldl (fun x y => if compare x y = .gt then x else y) a) ≠ .gt := by
  induction xs generalizing a with
  | nil =>
    refine ⟨List.mem_singleton_self a, fun y hy => ?_⟩
    rw [List.mem_singleton.mp hy]
    exact hc.refl a
  | cons x xs ih =>
    obtain ⟨ha, h⟩ := List.forall_mem_cons.mp h
    obtain ⟨hx, hxs⟩ := List.forall_mem_cons.mp h
    rw [List.foldl_cons]
    split
    · rename_i hgt
      have hall := List.forall_mem_cons.mpr ⟨ha, hxs⟩
      obtain ⟨hmem, hmax⟩ := ih hall
      obtain ⟨hmaxa, hmaxs⟩ := List.forall_mem_cons.mp hmax
      have hmaxx := hc.trans x a _ hx ha (hall _ hmem) (hc.asymm a x hgt) hmaxa
      refine ⟨?_, List.forall_mem_cons.mpr ⟨hmaxa, List.forall_mem_cons.mpr ⟨hmaxx, hmaxs⟩⟩⟩
      rcases List.mem_cons.mp hmem with he | hmem
      · rw [he]
        exact List.mem_cons_self
      · exact List.mem_cons_of_mem _ (List.mem_cons_of_mem _ hmem)
    · rename_i hgt
      obtain ⟨hmem, hmax⟩ := ih h
      have hmaxa := hc.trans a x _ ha hx (h _ hmem) hgt (hmax x List.mem_cons_self)
      exact ⟨List.mem_cons_of_mem _ hmem, List.forall_mem_cons.mpr ⟨hmaxa, hmax⟩⟩

theorem maxBy_zipIdx (hc : Compares compare P) (hne : xs ≠ []) (h : ∀ x ∈ xs, P x) :
    ∃ x i, maxBy (fun x y => compare x.1 y.1) xs.zipIdx = some (x, i) ∧ xs[i]? = some x ∧
      ∀ y ∈ xs, compare y x ≠ .gt := by
  obtain ⟨a, rest, hl⟩ : ∃ a rest, xs.zipIdx = a :: rest := by
    cases xs with
    | nil => exact absurd rfl hne
    | cons x xs => exact ⟨_, _, rfl⟩
  have hfst : Compares (fun x y : α × ℕ => compare x.1 y.1) fun x => P x.1 :=
    ⟨fun x => hc.refl x.1, fun x y => hc.asymm x.1 y.1, fun x y z => hc.trans x.1 y.1 z.1⟩
  have hall : ∀ x ∈ a :: rest, P x.1 := by
    intro x hx
    rw [← hl] at hx
    exact h x.1 (List.fst_mem_of_mem_zipIdx hx)
  obtain ⟨hmem, hmax⟩ := hfst.foldl_maximal hall
  rw [← hl] at hmem hmax
  refine ⟨_, _, by rw [hl, maxBy], List.mk_mem_zipIdx_iff_getElem?.mp hmem, fun y hy => ?_⟩
  obtain ⟨j, hj⟩ := List.mem_iff_getElem?.mp hy
  exact hmax (y, j) (List.mk_mem_zipIdx_iff_getElem?.mpr hj)

end Compares

def greedySample (logits : List F32) : Token :=
  ((maxBy (fun x y => (x.1.partialCmp y.1).getD .eq) logits.zipIdx).map
    fun x => UInt32.ofNat x.2).getD 0

namespace SamplerOps

variable (S : SamplerOps)

/-- Change the logit of a token of the vocabulary. -/
def atToken (f : F32 → F32) (logits : List F32) (token : Token) : List F32 :=
  logits.modify token.toNat f

def applyLogitBias (logits : List F32) (bias : List (Token × F32)) : List F32 :=
  bias.foldl (fun logits (token, value) => atToken (S.add · value) logits token) logits

def applyRepetitionPenalty (logits : List F32) (tokenIds : List Token) (penalty : F32) :
    List F32 :=
  if penalty.eq (.fin 1) || tokenIds.isEmpty then logits
  else tokenIds.foldl (atToken fun x => if (F32.fin 0).lt x then S.div x penalty
    else S.mul x penalty) logits

def applyFrequencyPenalty (logits : List F32) (tokenIds : List Token) (penalty : F32) :
    List F32 :=
  if penalty.eq (.fin 0) || tokenIds.isEmpty then logits
  else tokenIds.dedup.foldl (fun logits token =>
    atToken (S.sub · (S.mul penalty (S.ofCount (tokenIds.count token)))) logits token) logits

def applyPresencePenalty (logits : List F32) (tokenIds : List Token) (penalty : F32) :
    List F32 :=
  if penalty.eq (.fin 0) || tokenIds.isEmpty then logits
  else tokenIds.dedup.foldl (atToken (S.sub · penalty)) logits

def applyBadTokenIds (logits : List F32) (badTokenIds : List Token) : List F32 :=
  badTokenIds.foldl (atToken fun _ => .inf true) logits

def applyAllowedTokenIds (logits : List F32) (allowed : List Token) : List F32 :=
  if allowed.isEmpty then logits
  else logits.zipIdx.map fun (x, i) => if UInt32.ofNat i ∈ allowed then x else .inf true

def applyEosSuppression (logits : List F32) (eosTokenId : Token) (numGenerated minTokens : ℕ) :
    List F32 :=
  if numGenerated < minTokens then atToken (fun _ => .inf true) logits eosTokenId else logits

/-- Apply `f` under a condition. -/
def when (c : Bool) (f : List F32 → List F32) (logits : List F32) : List F32 :=
  if c then f logits else logits

/-- A bad word blocks its last token after the others. -/
def applyBadWord (context : List Token) (logits : List F32) (badWord : List Token) : List F32 :=
  match badWord.getLast? with
  | some last => when (badWord.dropLast.isSuffixOf context) (applyBadTokenIds · [last]) logits
  | none => logits

def prepareLogits (input : SamplingInput (List F32)) (applyTemperature applyTruncation : Bool) :
    List F32 :=
  let p := input.params
  let context := input.contextTokenIds
  let logits := when (!p.logitBias.isEmpty) (S.applyLogitBias · p.logitBias) input.logits
  let logits := when (!context.isEmpty && !p.repetitionPenalty.eq (.fin 1))
    (S.applyRepetitionPenalty · context p.repetitionPenalty) logits
  let logits := when (!context.isEmpty && !p.frequencyPenalty.eq (.fin 0))
    (S.applyFrequencyPenalty · context p.frequencyPenalty) logits
  let logits := when (!context.isEmpty && !p.presencePenalty.eq (.fin 0))
    (S.applyPresencePenalty · context p.presencePenalty) logits
  let logits := input.badWordTokenIds.foldl (applyBadWord context) logits
  let logits := match p.allowedTokenIds with
    | some allowed => applyAllowedTokenIds logits allowed
    | none => logits
  let logits := when (0 < p.minTokens)
    (applyEosSuppression · input.eosTokenId input.numGenerated p.minTokens) logits
  let logits := when (applyTemperature && (F32.fin 0).lt p.temperature)
    (S.applyTemperature · p.temperature) logits
  let logits := when (applyTruncation && 0 < p.topK) (S.applyTopK · p.topK) logits
  let logits := when (applyTruncation && p.topP.lt (.fin 1)) (S.applyTopP · p.topP) logits
  when (applyTruncation && (F32.fin 0).lt p.minP) (S.applyMinP · p.minP) logits

/-- The token that the sampler draws; its log probabilities are left out. -/
def sample (input : SamplingInput (List F32)) : Token :=
  if input.logits.isEmpty then 0
  else
    let isGreedy := input.params.temperature.le (.fin 0) || input.params.topK = 1
    let logits := S.prepareLogits input (!isGreedy) (!isGreedy)
    if isGreedy then greedySample logits else S.randomSample logits

end SamplerOps

/-- Temperature zero, and processors that leave the logits alone. -/
structure SamplingParams.Neutral (p : SamplingParams) : Prop where
  temperature : p.temperature = .fin 0
  logitBias : p.logitBias = []
  repetitionPenalty : p.repetitionPenalty = .fin 1
  frequencyPenalty : p.frequencyPenalty = .fin 0
  presencePenalty : p.presencePenalty = .fin 0
  allowedTokenIds : p.allowedTokenIds = none
  minTokens : p.minTokens = 0

theorem SamplerOps.sample_neutral (S : SamplerOps) {input : SamplingInput (List F32)}
    (h : input.params.Neutral) (hb : input.badWordTokenIds = []) :
    S.sample input = greedySample input.logits := by
  obtain ⟨ht, hl, hr, hf, hp, ha, hm⟩ := h
  have hgreedy : (F32.fin 0).le (.fin 0) = true := by decide
  have h₀ : (F32.fin 0).eq (.fin 0) = true := by decide
  have h₁ : (F32.fin 1).eq (.fin 1) = true := by decide
  unfold sample
  split
  · rename_i he
    rw [List.isEmpty_iff.mp he]
    rfl
  · simp only [ht, hgreedy, Bool.true_or, if_true, prepareLogits, hl, hr, hf, hp, ha, hm, hb, h₀,
      h₁, SamplerOps.when, List.isEmpty_nil, Bool.not_true, Bool.and_false, Bool.false_and,
      Bool.false_eq_true, if_false, List.foldl_nil, lt_irrefl, decide_false]

end Rllm
