import Mathlib.Logic.Function.Iterate
import Rllm.Sampling.Processors

/-! # The repetition penalty

The context lists a token as often as it was seen, and the penalty goes over
the whole context: a logit is updated once for each occurrence. The order of
the context does not matter, the number of occurrences does.
-/

namespace Rllm

namespace Arithmetic

variable {V : Type} (A : Arithmetic V)

/-- The update of the logit of a seen token. -/
def penalize (penalty : F32) (x : V) : V :=
  if A.lt A.zero x then A.div x (A.ofF32 penalty) else A.mul x (A.ofF32 penalty)

/-- The logits with one update for each token that was seen. -/
def penalizeSeen (logits : List V) (tokenIds : List Token) (penalty : F32) : List V :=
  logits.zipIdx.map fun (x, i) =>
    if i ∈ tokenIds.map UInt32.toNat then A.penalize penalty x else x

theorem getElem?_foldl_atToken {f : V → V} (logits : List V) (tokenIds : List Token) (i : ℕ) :
    (tokenIds.foldl (atToken f) logits)[i]? =
      logits[i]?.map f^[(tokenIds.map UInt32.toNat).count i] := by
  induction tokenIds generalizing logits with
  | nil => exact Option.map_id'.symm
  | cons token tokenIds ih =>
    rw [List.foldl_cons, ih, atToken, List.getElem?_modify, List.map_cons, List.count_cons]
    cases logits[i]? with
    | none => rfl
    | some x =>
      by_cases hi : token.toNat = i
      · simp [hi]
      · simp [hi]

variable {A} {logits : List V} {tokenIds tokenIds' : List Token} {penalty : F32}

theorem getElem?_applyRepetitionPenalty (hp : penalty.eq (.fin 1) = false) (i : ℕ) :
    (A.applyRepetitionPenalty logits tokenIds penalty)[i]? =
      logits[i]?.map (A.penalize penalty)^[(tokenIds.map UInt32.toNat).count i] := by
  rw [applyRepetitionPenalty, hp, Bool.false_or]
  split
  · rename_i he
    rw [List.isEmpty_iff.mp he]
    exact Option.map_id'.symm
  · exact getElem?_foldl_atToken _ _ i

theorem applyRepetitionPenalty_perm (h : tokenIds.Perm tokenIds') :
    A.applyRepetitionPenalty logits tokenIds penalty =
      A.applyRepetitionPenalty logits tokenIds' penalty := by
  cases hp : penalty.eq (.fin 1) with
  | true =>
    rw [applyRepetitionPenalty, applyRepetitionPenalty, hp, Bool.true_or, Bool.true_or, if_pos rfl,
      if_pos rfl]
  | false =>
    apply List.ext_getElem?
    intro i
    rw [getElem?_applyRepetitionPenalty hp, getElem?_applyRepetitionPenalty hp,
      (h.map UInt32.toNat).count_eq]

theorem getElem?_penalizeSeen (i : ℕ) :
    (A.penalizeSeen logits tokenIds penalty)[i]? = logits[i]?.map fun x =>
      if i ∈ tokenIds.map UInt32.toNat then A.penalize penalty x else x := by
  rw [penalizeSeen, List.getElem?_map, List.getElem?_zipIdx, Option.map_map]
  simp [Function.comp_def]

/-- The updates of the repeated tokens add up to one update. -/
theorem applyRepetitionPenalty_eq_iff (hp : penalty.eq (.fin 1) = false) :
    A.applyRepetitionPenalty logits tokenIds penalty = A.penalizeSeen logits tokenIds penalty ↔
      ∀ i x, logits[i]? = some x → 2 ≤ (tokenIds.map UInt32.toNat).count i →
        (A.penalize penalty)^[(tokenIds.map UInt32.toNat).count i] x = A.penalize penalty x := by
  constructor
  · intro h i x hx hn
    have hi := congrArg (·[i]?) h
    simp only [getElem?_applyRepetitionPenalty hp, getElem?_penalizeSeen, hx, Option.map_some,
      Option.some.injEq] at hi
    rw [hi, if_pos (List.count_pos_iff.mp (by omega))]
  · intro h
    apply List.ext_getElem?
    intro i
    rw [getElem?_applyRepetitionPenalty hp, getElem?_penalizeSeen]
    cases hx : logits[i]? with
    | none => rfl
    | some x =>
      rw [Option.map_some, Option.map_some]
      rcases Nat.lt_or_ge ((tokenIds.map UInt32.toNat).count i) 2 with hn | hn
      · rcases Nat.lt_or_ge ((tokenIds.map UInt32.toNat).count i) 1 with hn' | hn'
        · have h₀ : (tokenIds.map UInt32.toNat).count i = 0 := by omega
          rw [h₀, if_neg (List.count_eq_zero.mp h₀)]
          rfl
        · have h₁ : (tokenIds.map UInt32.toNat).count i = 1 := by omega
          rw [h₁, if_pos (List.count_pos_iff.mp (by omega))]
          rfl
      · rw [h i x hx hn, if_pos (List.count_pos_iff.mp (by omega))]

end Arithmetic

/-! ## Without rounding -/

namespace F32

/-- A logit on which every update shows: a number other than zero, which is no longer moved once
an infinite penalty has sent it to `-∞`. -/
def Moves (penalty x : F32) : Prop := ∃ q, x = .fin q ∧ q ≠ 0 ∧ (penalty = .inf false → 0 < q)

theorem eq_fin_or_inf {x : F32} (h : (F32.fin 0).lt x = true) :
    x = .inf false ∨ ∃ q, x = .fin q ∧ 0 < q := by
  cases x with
  | nan => cases h
  | inf s =>
    cases s with
    | false => exact .inl rfl
    | true => cases h
  | fin q => exact .inr ⟨q, rfl, of_decide_eq_true h⟩

end F32

open Arithmetic

variable {penalty x : F32} {q p : ℚ}

theorem penalize_fin (hp : 0 < p) :
    exactFloats.arithmetic.penalize (.fin p) (.fin q) = .fin (if 0 < q then q / p else q * p) := by
  have hlt : exactFloats.arithmetic.lt exactFloats.arithmetic.zero (.fin q) = decide (0 < q) := rfl
  rw [penalize, hlt]
  by_cases hq : 0 < q
  · rw [decide_eq_true hq, if_pos rfl, if_pos hq]
    exact if_neg hp.ne'
  · rw [decide_eq_false hq, if_neg Bool.false_ne_true, if_neg hq]
    rfl

theorem iterate_penalize_fin (hp : 0 < p) (n : ℕ) :
    (exactFloats.arithmetic.penalize (.fin p))^[n] (.fin q) =
      .fin (if 0 < q then q / p ^ n else q * p ^ n) := by
  induction n with
  | zero => simp
  | succ n ih =>
    rw [Function.iterate_succ_apply', ih, penalize_fin hp]
    congr 1
    by_cases hq : 0 < q
    · have hpos : 0 < q / p ^ n := div_pos hq (pow_pos hp n)
      rw [if_pos hq, if_pos hq, if_pos hpos, pow_succ, div_div]
    · have hnot : ¬ 0 < q * p ^ n :=
        not_lt.mpr (mul_nonpos_of_nonpos_of_nonneg (not_lt.mp hq) (pow_pos hp n).le)
      rw [if_neg hq, if_neg hq, if_neg hnot, pow_succ, mul_assoc]

theorem penalize_inf (s : Bool) (hp : 0 < p) :
    exactFloats.arithmetic.penalize (.fin p) (.inf s) = .inf s := by
  have hneg : decide (p < 0) = false := decide_eq_false (not_lt.mpr hp.le)
  cases s with
  | false => exact congrArg F32.inf (by rw [hneg]; rfl)
  | true =>
    have hmul : F32.exactMul (.inf true) (.fin p) = .inf true := by
      rw [F32.exactMul, if_neg hp.ne', hneg]
      rfl
    exact hmul

theorem penalize_inf_of_neg (hq : q < 0) :
    exactFloats.arithmetic.penalize (.inf false) (.fin q) = .inf true := by
  have hlt : exactFloats.arithmetic.lt exactFloats.arithmetic.zero (.fin q) = false :=
    decide_eq_false (not_lt.mpr hq.le)
  have hmul : F32.exactMul (.fin q) (.inf false) = .inf true := by
    rw [F32.exactMul, if_neg hq.ne, decide_eq_true hq]
    rfl
  rw [penalize, hlt, if_neg Bool.false_ne_true]
  exact hmul

theorem iterate_penalize_of_not_moves (hpos : (F32.fin 0).lt penalty = true)
    (h : ¬ F32.Moves penalty x) (n : ℕ) :
    (exactFloats.arithmetic.penalize penalty)^[n + 1] x =
      exactFloats.arithmetic.penalize penalty x := by
  have hfix : exactFloats.arithmetic.penalize penalty
      (exactFloats.arithmetic.penalize penalty x) = exactFloats.arithmetic.penalize penalty x := by
    rcases F32.eq_fin_or_inf hpos with rfl | ⟨p, rfl, hp⟩
    · cases x with
      | nan => rfl
      | inf s => cases s <;> rfl
      | fin q =>
        rcases lt_trichotomy q 0 with hq | rfl | hq
        · rw [penalize_inf_of_neg hq]
          rfl
        · rfl
        · exact absurd ⟨q, rfl, hq.ne', fun _ => hq⟩ h
    · cases x with
      | nan => rfl
      | inf s => rw [penalize_inf s hp, penalize_inf s hp]
      | fin q =>
        have hq : q = 0 := by
          by_contra hq
          refine h ⟨q, rfl, hq, fun he => ?_⟩
          cases he
        rw [hq, penalize_fin hp, if_neg (lt_irrefl 0), zero_mul, penalize_fin hp,
          if_neg (lt_irrefl 0), zero_mul]
  rw [Function.iterate_succ_apply]
  exact Function.iterate_fixed hfix n

theorem iterate_penalize_nan (n : ℕ) :
    (exactFloats.arithmetic.penalize (.inf false))^[n] .nan = .nan :=
  Function.iterate_fixed rfl n

theorem iterate_penalize_of_moves (hpos : (F32.fin 0).lt penalty = true) (hone : penalty ≠ .fin 1)
    (h : F32.Moves penalty x) (n : ℕ) :
    (exactFloats.arithmetic.penalize penalty)^[n + 2] x ≠
      exactFloats.arithmetic.penalize penalty x := by
  obtain ⟨q, rfl, hq, hinf⟩ := h
  rcases F32.eq_fin_or_inf hpos with rfl | ⟨p, rfl, hp⟩
  · have hlt : exactFloats.arithmetic.lt exactFloats.arithmetic.zero (.fin q) = true :=
      decide_eq_true (hinf rfl)
    have hdiv : exactFloats.arithmetic.penalize (.inf false) (.fin q) = .fin 0 := by
      rw [penalize, hlt, if_pos rfl]
      rfl
    have hnan : exactFloats.arithmetic.penalize (.inf false) (.fin 0) = .nan := rfl
    rw [Function.iterate_succ_apply, Function.iterate_succ_apply, hdiv, hnan, iterate_penalize_nan]
    intro he
    cases he
  · have hp₁ : p ≠ 1 := fun hp₁ => hone (congrArg F32.fin hp₁)
    have hpow : p ^ (n + 2) ≠ p := by
      intro he
      rw [pow_succ, mul_eq_right₀ hp.ne'] at he
      exact hp₁ ((pow_eq_one_iff_of_nonneg hp.le n.succ_ne_zero).mp he)
    rw [iterate_penalize_fin hp, penalize_fin hp]
    intro he
    have he := F32.fin.inj he
    by_cases hq' : 0 < q
    · rw [if_pos hq', if_pos hq', div_eq_div_iff (pow_pos hp _).ne' hp.ne', mul_right_inj' hq] at he
      exact hpow he.symm
    · rw [if_neg hq', if_neg hq', mul_right_inj' hq] at he
      exact hpow he

theorem penalize_one (x : F32) : exactFloats.arithmetic.penalize (.fin 1) x = x := by
  cases x with
  | nan => rfl
  | inf s => exact penalize_inf s one_pos
  | fin q => rw [penalize_fin one_pos, div_one, mul_one, ite_self]

variable {logits : List F32} {tokenIds : List Token}

/-- Without rounding, a context counts as the set of its tokens exactly if the penalty is one, or
no logit moves whose token was seen more than once. -/
theorem applyRepetitionPenalty_seen_iff (hpos : (F32.fin 0).lt penalty = true) :
    exactFloats.arithmetic.applyRepetitionPenalty logits tokenIds penalty =
        exactFloats.arithmetic.penalizeSeen logits tokenIds penalty ↔
      penalty = .fin 1 ∨ ∀ i x, logits[i]? = some x →
        2 ≤ (tokenIds.map UInt32.toNat).count i → ¬ F32.Moves penalty x := by
  by_cases hone : penalty = .fin 1
  · subst hone
    refine iff_of_true ?_ (.inl rfl)
    have heq : (F32.fin 1).eq (.fin 1) = true := by decide
    rw [applyRepetitionPenalty, heq, Bool.true_or, if_pos rfl]
    apply List.ext_getElem?
    intro i
    rw [getElem?_penalizeSeen]
    simp [penalize_one]
  · have hne : penalty.eq (.fin 1) = false := by
      cases penalty with
      | nan => rfl
      | inf s => rfl
      | fin p => exact decide_eq_false fun hp => hone hp
    rw [applyRepetitionPenalty_eq_iff hne, or_iff_right hone]
    constructor
    · intro h i x hx hn hmoves
      obtain ⟨n, hn'⟩ := Nat.exists_eq_add_of_le' hn
      have hi := h i x hx hn
      rw [hn'] at hi
      exact iterate_penalize_of_moves hpos hone hmoves n hi
    · intro h i x hx hn
      obtain ⟨n, hn'⟩ := Nat.exists_eq_add_of_le' (Nat.one_le_of_lt hn)
      rw [hn']
      exact iterate_penalize_of_not_moves hpos (h i x hx hn) n

theorem applyRepetitionPenalty_seen_iff_repeated :
    exactFloats.arithmetic.applyRepetitionPenalty [.fin 0, .fin (-4)] [0, 1, 0, 7] (.fin 2) =
        exactFloats.arithmetic.penalizeSeen [.fin 0, .fin (-4)] [0, 1, 0, 7] (.fin 2) ∧
      exactFloats.arithmetic.applyRepetitionPenalty [.fin 4, .fin (-4)] [0, 1, 0, 7] (.fin 2) ≠
        exactFloats.arithmetic.penalizeSeen [.fin 4, .fin (-4)] [0, 1, 0, 7] (.fin 2) := by
  constructor
  · apply (applyRepetitionPenalty_seen_iff (by decide)).mpr
    right
    rintro (_ | _ | i) x hx hn ⟨q, rfl, hne, -⟩
    · exact hne (F32.fin.inj (Option.some.inj hx)).symm
    · exact absurd hn (by decide)
    · cases hx
  · rw [ne_eq, applyRepetitionPenalty_seen_iff (by decide)]
    rintro (h | h)
    · exact absurd h (by decide)
    · exact h 0 (.fin 4) rfl (by decide) ⟨4, rfl, by decide, fun h => by cases h⟩

/-- A token that was seen twice is penalized twice. -/
theorem applyRepetitionPenalty_twice :
    ¬ ∀ (logits : List F32) (tokenIds : List Token) (penalty : F32),
      (F32.fin 0).lt penalty = true →
        exactFloats.arithmetic.applyRepetitionPenalty logits tokenIds penalty =
          exactFloats.arithmetic.penalizeSeen logits tokenIds penalty := by
  intro h
  have h := h [.fin 4] [0, 0] (.fin 2) (by decide)
  revert h
  decide +kernel

end Rllm
