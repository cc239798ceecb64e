import Rllm.Sampling.Logits

/-! # The processors over any arithmetic

The sampler again, over an arithmetic that the logits are numbers of, be it the
floats or an exact one. The parameters of a request are floats, and enter the
arithmetic where the sampler computes with them.
-/

namespace Rllm

/-- An arithmetic of logits, with a sort in descending order. -/
structure Arithmetic (V : Type) where
  ofF32 : F32 → V
  lt : V → V → Bool
  le : V → V → Bool
  eq : V → V → Bool
  add : V → V → V
  sub : V → V → V
  mul : V → V → V
  div : V → V → V
  max : V → V → V
  abs : V → V
  exp : V → V
  ln : V → V
  ofCount : ℕ → V
  sortDescending : List (ℕ × V) → List (ℕ × V)

namespace Arithmetic

variable {V : Type} (A : Arithmetic V)

def zero : V := A.ofF32 (.fin 0)

def one : V := A.ofF32 (.fin 1)

def negInf : V := A.ofF32 (.inf true)

/-! ## The processors -/

def applyTemperature (logits : List V) (temperature : F32) : List V :=
  if temperature.le (.fin 0) ||
      A.lt (A.abs (A.sub (A.ofF32 temperature) A.one)) (A.ofF32 .epsilon) then logits
  else
    let invTemp := A.div A.one (A.ofF32 temperature)
    logits.map (A.mul · invTemp)

def maskBelow (threshold : V) (logits : List V) : List V :=
  logits.map fun x => if A.lt x threshold then A.negInf else x

def applyTopK (logits : List V) (k : ℤ) : List V :=
  if k ≤ 0 then logits
  else
    let indices := A.sortDescending (logits.zipIdx.map Prod.swap)
    match indices[k.toNat]? with
    | some (_, threshold) => A.maskBelow threshold logits
    | none => logits

def cutoff (p sum : V) : V → List V → ℕ
  | _, [] => 0
  | cumsum, x :: xs =>
    let cumsum := A.add cumsum (A.div x sum)
    if A.le p cumsum then 1 else 1 + cutoff p sum cumsum xs

def applyTopP (logits : List V) (p : F32) : List V :=
  if (F32.fin 1).le p || p.le (.fin 0) || logits.isEmpty then logits
  else
    let indexed := A.sortDescending
      ((logits.zipIdx.map Prod.swap).filter fun x => !A.eq x.2 A.negInf)
    match indexed with
    | [] => logits
    | (_, maxVal) :: _ =>
      let exps := indexed.map fun x => A.exp (A.sub x.2 maxVal)
      let sum := exps.foldl A.add A.zero
      if A.eq sum A.zero then logits
      else (indexed.drop (A.cutoff (A.ofF32 p) sum A.zero exps)).foldl (fun logits x =>
        logits.set x.1 A.negInf) logits

def maxLogit (logits : List V) : V := logits.foldl A.max A.negInf

def applyMinP (logits : List V) (minP : F32) : List V :=
  if minP.le (.fin 0) || logits.isEmpty then logits
  else
    let max := A.maxLogit logits
    if A.eq max A.negInf then logits
    else A.maskBelow (A.add (A.ln (A.ofF32 minP)) max) logits

/-- Change the logit of a token of the vocabulary. -/
def atToken (f : V → V) (logits : List V) (token : Token) : List V :=
  logits.modify token.toNat f

def applyLogitBias (logits : List V) (bias : List (Token × F32)) : List V :=
  bias.foldl (fun logits (token, value) => atToken (A.add · (A.ofF32 value)) logits token) logits

def applyRepetitionPenalty (logits : List V) (tokenIds : List Token) (penalty : F32) : List V :=
  if penalty.eq (.fin 1) || tokenIds.isEmpty then logits
  else tokenIds.foldl (atToken fun x => if A.lt A.zero x then A.div x (A.ofF32 penalty)
    else A.mul x (A.ofF32 penalty)) logits

def applyFrequencyPenalty (logits : List V) (tokenIds : List Token) (penalty : F32) : List V :=
  if penalty.eq (.fin 0) || tokenIds.isEmpty then logits
  else tokenIds.dedup.foldl (fun logits token =>
    atToken (A.sub · (A.mul (A.ofF32 penalty) (A.ofCount (tokenIds.count token)))) logits token)
    logits

def applyPresencePenalty (logits : List V) (tokenIds : List Token) (penalty : F32) : List V :=
  if penalty.eq (.fin 0) || tokenIds.isEmpty then logits
  else tokenIds.dedup.foldl (atToken (A.sub · (A.ofF32 penalty))) logits

def applyBadTokenIds (logits : List V) (badTokenIds : List Token) : List V :=
  badTokenIds.foldl (atToken fun _ => A.negInf) logits

def applyAllowedTokenIds (logits : List V) (allowed : List Token) : List V :=
  if allowed.isEmpty then logits
  else logits.zipIdx.map fun (x, i) => if UInt32.ofNat i ∈ allowed then x else A.negInf

def applyEosSuppression (logits : List V) (eosTokenId : Token) (numGenerated minTokens : ℕ) :
    List V :=
  if numGenerated < minTokens then atToken (fun _ => A.negInf) logits eosTokenId else logits

/-! ## The sampler -/

/-- Apply `f` under a condition. -/
def when (c : Bool) (f : List V → List V) (logits : List V) : List V :=
  if c then f logits else logits

/-- A bad word blocks its last token after the others. -/
def applyBadWord (context : List Token) (logits : List V) (badWord : List Token) : List V :=
  match badWord.getLast? with
  | some last => when (badWord.dropLast.isSuffixOf context) (A.applyBadTokenIds · [last]) logits
  | none => logits

/-- The processors before the truncations. -/
def adjustLogits (input : SamplingInput (List V)) (applyTemperature : Bool) : List V :=
  let p := input.params
  let context := input.contextTokenIds
  let logits := when (!p.logitBias.isEmpty) (A.applyLogitBias · p.logitBias) input.logits
  let logits := when (!context.isEmpty && !p.repetitionPenalty.eq (.fin 1))
    (A.applyRepetitionPenalty · context p.repetitionPenalty) logits
  let logits := when (!context.isEmpty && !p.frequencyPenalty.eq (.fin 0))
    (A.applyFrequencyPenalty · context p.frequencyPenalty) logits
  let logits := when (!context.isEmpty && !p.presencePenalty.eq (.fin 0))
    (A.applyPresencePenalty · context p.presencePenalty) logits
  let logits := input.badWordTokenIds.foldl (A.applyBadWord context) logits
  let logits := match p.allowedTokenIds with
    | some allowed => A.applyAllowedTokenIds logits allowed
    | none => logits
  let logits := when (0 < p.minTokens)
    (A.applyEosSuppression · input.eosTokenId input.numGenerated p.minTokens) logits
  when (applyTemperature && (F32.fin 0).lt p.temperature) (A.applyTemperature · p.temperature)
    logits

/-- The truncations. -/
def truncateLogits (p : SamplingParams) (logits : List V) : List V :=
  let logits := when (0 < p.topK) (A.applyTopK · p.topK) logits
  let logits := when (p.topP.lt (.fin 1)) (A.applyTopP · p.topP) logits
  when ((F32.fin 0).lt p.minP) (A.applyMinP · p.minP) logits

def prepareLogits (input : SamplingInput (List V)) (applyTemperature applyTruncation : Bool) :
    List V :=
  when applyTruncation (A.truncateLogits input.params) (A.adjustLogits input applyTemperature)

/-- `f32::partial_cmp`, where what does not compare is equal. -/
def compare (x y : V) : Ordering := if A.lt x y then .lt else if A.lt y x then .gt else .eq

def greedySample (logits : List V) : Token :=
  ((maxBy (fun x y => A.compare x.1 y.1) logits.zipIdx).map fun x => UInt32.ofNat x.2).getD 0

def softmaxInPlace (logits : List V) : List V :=
  let max := A.maxLogit logits
  if A.eq max A.negInf then logits
  else
    let exps := logits.map fun x => A.exp (A.sub x max)
    let sum := exps.foldl A.add A.zero
    exps.map (A.div · sum)

def pick (r : V) : V → ℕ → List V → Option ℕ
  | _, _, [] => none
  | cumsum, i, x :: xs =>
    let cumsum := A.add cumsum x
    if A.le r cumsum then some i else pick r cumsum (i + 1) xs

def randomSample (r : V) (logits : List V) : Token :=
  if logits.isEmpty then 0
  else
    let probs := A.softmaxInPlace logits
    UInt32.ofNat ((A.pick r A.zero 0 probs).getD (probs.length - 1))

def isGreedy (p : SamplingParams) : Bool := p.temperature.le (.fin 0) || p.topK = 1

def sample (r : V) (input : SamplingInput (List V)) : Token :=
  if input.logits.isEmpty then 0
  else
    let isGreedy := isGreedy input.params
    let logits := A.prepareLogits input (!isGreedy) (!isGreedy)
    if isGreedy then A.greedySample logits else A.randomSample r logits

end Arithmetic

/-! ## Floats -/

namespace FloatOps

variable (F : FloatOps)

/-- The arithmetic of floats. -/
def arithmetic : Arithmetic F32 where
  ofF32 := id
  lt := F32.lt
  le := F32.le
  eq := F32.eq
  add := F.add
  sub := F.sub
  mul := F.mul
  div := F.div
  max := F32.max
  abs := F32.abs
  exp := F.exp
  ln := F.ln
  ofCount := F.ofCount
  sortDescending := F.sortDescending

theorem arithmetic_cutoff (p sum c : F32) (xs : List F32) :
    F.arithmetic.cutoff p sum c xs = F.cutoff p sum c xs := by
  induction xs generalizing c with
  | nil => rfl
  | cons x xs ih =>
    rw [Arithmetic.cutoff, cutoff, ih]
    rfl

theorem arithmetic_pick (r c : F32) (i : ℕ) (xs : List F32) :
    F.arithmetic.pick r c i xs = F.pick r c i xs := by
  induction xs generalizing c i with
  | nil => rfl
  | cons x xs ih =>
    rw [Arithmetic.pick, pick, ih]
    rfl

theorem arithmetic_applyTopK (logits : List F32) (k : ℤ) :
    F.arithmetic.applyTopK logits k = F.applyTopK logits k := by
  unfold Arithmetic.applyTopK applyTopK
  dsimp only [arithmetic]
  cases (F.sortDescending (logits.zipIdx.map Prod.swap))[k.toNat]? <;> rfl

theorem arithmetic_applyTopP (logits : List F32) (p : F32) :
    F.arithmetic.applyTopP logits p = F.applyTopP logits p := by
  have hne : ∀ x : ℕ × F32, (!F.arithmetic.eq x.2 F.arithmetic.negInf) =
      decide (x.2 ≠ .inf true) := by
    rintro ⟨i, x⟩
    cases x with
    | nan => rfl
    | inf s => cases s <;> rfl
    | fin q => rfl
  unfold Arithmetic.applyTopP applyTopP
  simp only [hne, arithmetic_cutoff]
  have hsort : ∀ xs, F.arithmetic.sortDescending xs = F.sortDescending xs := fun _ => rfl
  simp only [hsort]
  split
  · rfl
  · split
    · rename_i h
      rw [h]
    · rename_i h
      rw [h]
      rfl

theorem arithmetic_compare (x y : F32) :
    F.arithmetic.compare x y = (x.partialCmp y).getD .eq := by
  unfold Arithmetic.compare F32.partialCmp
  change (if x.lt y then _ else if y.lt x then _ else _) = _
  split_ifs <;> rfl

theorem arithmetic_randomSample (r : F32) (logits : List F32) :
    F.arithmetic.randomSample r logits = F.randomSample r logits := by
  unfold Arithmetic.randomSample randomSample
  simp only [arithmetic_pick]
  rfl

theorem arithmetic_prepareLogits (r : F32) (input : SamplingInput (List F32))
    (temperature truncation : Bool) :
    F.arithmetic.prepareLogits input temperature truncation =
      (F.samplerOps r).prepareLogits input temperature truncation := by
  cases truncation with
  | false => rfl
  | true =>
    unfold Arithmetic.prepareLogits Arithmetic.truncateLogits
    simp only [arithmetic_applyTopK, arithmetic_applyTopP]
    rfl

/-- Over the floats it is the sampler. -/
theorem arithmetic_sample (r : F32) (input : SamplingInput (List F32)) :
    F.arithmetic.sample r input = (F.samplerOps r).sample input := by
  have hgreedy : ∀ logits, F.arithmetic.greedySample logits = greedySample logits := by
    intro logits
    unfold Arithmetic.greedySample
    simp only [arithmetic_compare]
    rfl
  unfold Arithmetic.sample SamplerOps.sample
  simp only [hgreedy, arithmetic_randomSample, arithmetic_prepareLogits F r]
  rfl

end FloatOps

end Rllm
