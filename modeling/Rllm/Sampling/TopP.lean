import Mathlib.Algebra.BigOperators.Ring.List
import Rllm.Sampling.Exact

/-! # Top-p

The finite logits in descending order are kept up to the one whose probability
brings the running sum to the bound. Those are a nucleus: a smallest set of
likeliest tokens that reaches it.
-/

namespace Rllm

open RunningSum

section

variable {V : Type}

namespace Arithmetic

/-- The tokens with a logit above `-∞`, in descending order. -/
def finiteTokens (A : Arithmetic V) (logits : List V) : List (ℕ × V) :=
  A.sortDescending ((logits.zipIdx.map Prod.swap).filter fun x => !A.eq x.2 A.negInf)

/-- The tokens at some indices become `-∞`. -/
def maskTokens (A : Arithmetic V) (tokens : List (ℕ × V)) (logits : List V) : List V :=
  tokens.foldl (fun logits x => logits.set x.1 A.negInf) logits

theorem getElem?_maskTokens (A : Arithmetic V) (tokens : List (ℕ × V)) (logits : List V) (i : ℕ) :
    (A.maskTokens tokens logits)[i]? =
      if i ∈ tokens.map Prod.fst then logits[i]?.map fun _ => A.negInf else logits[i]? := by
  induction tokens generalizing logits with
  | nil => rfl
  | cons t tokens ih =>
    rw [maskTokens, List.foldl_cons, ← maskTokens, ih, List.getElem?_set]
    simp only [List.map_cons, List.mem_cons]
    by_cases hi : i = t.1
    · rw [if_pos hi.symm, if_pos (Or.inl hi)]
      subst hi
      by_cases hlt : t.1 < logits.length
      · rw [if_pos hlt, List.getElem?_eq_getElem hlt]
        split <;> rfl
      · rw [if_neg hlt, List.getElem?_eq_none (not_lt.mp hlt)]
        split <;> rfl
    · rw [if_neg (Ne.symm hi)]
      simp only [hi, false_or]

theorem applyTopP_of_cons {A : Arithmetic V} {logits : List V} {p : F32} {i : ℕ} {m : V}
    {rest : List (ℕ × V)}
    (hguard : ((F32.fin 1).le p || p.le (.fin 0) || logits.isEmpty) = false)
    (h : A.finiteTokens logits = (i, m) :: rest) :
    A.applyTopP logits p =
      let exps := (A.finiteTokens logits).map fun x => A.exp (A.sub x.2 m)
      let sum := exps.foldl A.add A.zero
      if A.eq sum A.zero then logits
      else A.maskTokens ((A.finiteTokens logits).drop (A.cutoff (A.ofF32 p) sum A.zero exps))
        logits := by
  have h' : A.sortDescending ((logits.zipIdx.map Prod.swap).filter fun x =>
    !A.eq x.2 A.negInf) = (i, m) :: rest := h
  rw [applyTopP, hguard, if_neg Bool.false_ne_true]
  simp only [h', h]
  rfl

end Arithmetic

end

section Order

variable {V : Type} [LinearOrder V] [OrderBot V] {A : Arithmetic V} {logits : List V} {i : ℕ}
  {x : V}

namespace Arithmetic

theorem Ordered.finite_iff (h : A.Ordered) : (!A.eq x A.negInf) = true ↔ x ≠ ⊥ := by
  rw [Bool.not_eq_true', ← Bool.not_eq_true, h.eq_iff, h.negInf_eq]

theorem Ordered.mem_finiteTokens (h : A.Ordered) :
    (i, x) ∈ A.finiteTokens logits ↔ logits[i]? = some x ∧ x ≠ ⊥ := by
  rw [finiteTokens, (h.sort_perm _).mem_iff, List.mem_filter, h.finite_iff]
  refine and_congr_left' ?_
  rw [← List.mk_mem_zipIdx_iff_getElem?]
  constructor
  · intro hmem
    obtain ⟨⟨y, j⟩, hy, he⟩ := List.mem_map.mp hmem
    obtain ⟨rfl, rfl⟩ := Prod.mk.inj he
    exact hy
  · exact fun hmem => List.mem_map.mpr ⟨_, hmem, rfl⟩

theorem Ordered.nodup_finiteTokens (h : A.Ordered) (logits : List V) :
    ((A.finiteTokens logits).map Prod.fst).Nodup := by
  have hindices : (logits.zipIdx.map Prod.swap).map Prod.fst = List.range logits.length := by
    rw [List.map_map]
    exact (List.zipIdx_map_snd 0 logits).trans (List.range_eq_range' ..).symm
  have hsub := (List.filter_sublist (p := fun x : ℕ × V => !A.eq x.2 A.negInf)
    (l := logits.zipIdx.map Prod.swap)).map Prod.fst
  rw [hindices] at hsub
  exact (((h.sort_perm _).map Prod.fst).nodup_iff).mpr (List.nodup_range.sublist hsub)

theorem Ordered.pairwise_finiteTokens (h : A.Ordered) (logits : List V) :
    (A.finiteTokens logits).Pairwise fun x y => y.2 ≤ x.2 :=
  h.sort_pairwise _

theorem Ordered.finite_maskTokens (h : A.Ordered) (logits : List V) (n : ℕ) :
    (∃ x, (A.maskTokens ((A.finiteTokens logits).drop n) logits)[i]? = some x ∧ x ≠ ⊥) ↔
      i ∈ ((A.finiteTokens logits).take n).map Prod.fst := by
  have hnodup := h.nodup_finiteTokens logits
  rw [← List.take_append_drop n (A.finiteTokens logits), List.map_append,
    List.nodup_append] at hnodup
  rw [getElem?_maskTokens]
  constructor
  · rintro ⟨x, hx, hne⟩
    split at hx
    · obtain ⟨y, -, rfl⟩ := Option.map_eq_some_iff.mp hx
      exact absurd h.negInf_eq hne
    · rename_i hnot
      have hmem := List.mem_map_of_mem (f := Prod.fst) (h.mem_finiteTokens.mpr ⟨hx, hne⟩)
      rw [← List.take_append_drop n (A.finiteTokens logits), List.map_append,
        List.mem_append] at hmem
      exact hmem.resolve_right hnot
  · intro hi
    rw [if_neg fun hdrop => hnodup.2.2 i hi i hdrop rfl]
    obtain ⟨⟨j, x⟩, hx, rfl⟩ := List.mem_map.mp hi
    exact ⟨x, h.mem_finiteTokens.mp (List.mem_of_mem_take hx)⟩

theorem Ordered.maxLogit_spec (h : A.Ordered) (logits : List V) :
    A.maxLogit logits ∈ ⊥ :: logits ∧ ∀ x ∈ logits, x ≤ A.maxLogit logits := by
  have hmax : (⊥ :: logits).max? = some (A.maxLogit logits) := by
    have hop : A.max = Max.max := by
      funext x y
      exact h.max_eq x y
    rw [List.max?_cons', maxLogit, h.negInf_eq, hop]
  obtain ⟨hmem, hall⟩ := List.max?_eq_some_iff.mp hmax
  exact ⟨hmem, (List.forall_mem_cons.mp hall).2⟩

end Arithmetic

/-- The tokens whose logits are above `-∞`. -/
def keptTokens (logits : List V) : Finset ℕ :=
  (Finset.range logits.length).filter fun i => logits[i]? ≠ some ⊥

theorem mem_keptTokens : i ∈ keptTokens logits ↔ ∃ x, logits[i]? = some x ∧ x ≠ ⊥ := by
  rw [keptTokens, Finset.mem_filter, Finset.mem_range]
  constructor
  · rintro ⟨hlt, hne⟩
    exact ⟨_, List.getElem?_eq_getElem hlt, fun he => hne (he ▸ List.getElem?_eq_getElem hlt)⟩
  · rintro ⟨x, hx, hne⟩
    refine ⟨(List.getElem?_eq_some_iff.mp hx).1, fun he => hne ?_⟩
    exact Option.some.inj (hx.symm.trans he)

end Order

section Exact

variable {K : Type} [Field K] [LinearOrder K] {X : ExactOps K} {logits : List (WithBot K)}

namespace ExactOps

/-- The weights of the tokens, relative to the maximal logit. -/
def weights (X : ExactOps K) (logits : List (WithBot K)) : List K :=
  logits.map fun x => X.weight (X.arithmetic.sub x (X.arithmetic.maxLogit logits))

/-- The normalised weight of a token. -/
def probability (X : ExactOps K) (logits : List (WithBot K)) (i : ℕ) : K :=
  (X.weights logits).getD i 0 / (X.weights logits).sum

theorem weight_nonneg (X : ExactOps K) (x : WithBot K) : 0 ≤ X.weight x := by
  cases x with
  | bot => exact le_rfl
  | coe x => exact (X.exp_pos x).le

theorem probability_eq {i : ℕ} {x : WithBot K} (hx : logits[i]? = some x) :
    X.probability logits i =
      X.weight (X.arithmetic.sub x (X.arithmetic.maxLogit logits)) / (X.weights logits).sum := by
  rw [probability, List.getD_eq_getElem?_getD, weights, List.getElem?_map, hx]
  rfl

theorem exists_maxLogit (hfin : ∃ x ∈ logits, x ≠ ⊥) :
    ∃ m : K, X.arithmetic.maxLogit logits = m ∧ (m : WithBot K) ∈ logits := by
  obtain ⟨hmem, hle⟩ := X.ordered.maxLogit_spec logits
  obtain ⟨x, hx, hne⟩ := hfin
  have hmax : X.arithmetic.maxLogit logits ≠ ⊥ := by
    intro he
    exact hne (le_bot_iff.mp (he ▸ hle x hx))
  obtain ⟨m, hm⟩ := WithBot.ne_bot_iff_exists.mp hmax
  rw [← hm] at hmem
  exact ⟨m, hm.symm, (List.mem_cons.mp hmem).resolve_left (WithBot.coe_ne_bot)⟩

theorem weights_sum_pos [IsStrictOrderedRing K] (hfin : ∃ x ∈ logits, x ≠ ⊥) :
    0 < (X.weights logits).sum := by
  obtain ⟨m, hm, hmem⟩ := X.exists_maxLogit hfin
  have hpos : 0 < X.weight (X.arithmetic.sub m (X.arithmetic.maxLogit logits)) := by
    rw [hm]
    exact X.exp_pos _
  refine hpos.trans_le (List.single_le_sum ?_ _ (List.mem_map_of_mem hmem))
  intro w hw
  obtain ⟨x, -, rfl⟩ := List.mem_map.mp hw
  exact X.weight_nonneg _

theorem sum_finiteTokens (X : ExactOps K) (logits : List (WithBot K)) (f : WithBot K → K)
    (hf : f ⊥ = 0) :
    ((X.arithmetic.finiteTokens logits).map fun x => f x.2).sum = (logits.map f).sum := by
  have hfilter : ∀ xs : List (ℕ × WithBot K),
      ((xs.filter fun x => !X.arithmetic.eq x.2 X.arithmetic.negInf).map fun x => f x.2).sum =
        (xs.map fun x => f x.2).sum := by
    intro xs
    induction xs with
    | nil => rfl
    | cons x xs ih =>
      rw [List.filter_cons, List.map_cons, List.sum_cons, ← ih]
      split
      · rfl
      · rename_i hbot
        rw [X.ordered.finite_iff, not_not] at hbot
        rw [hbot, hf, zero_add]
  have hperm := (X.sort_perm ((logits.zipIdx.map Prod.swap).filter
    fun x => !X.arithmetic.eq x.2 X.arithmetic.negInf)).map fun x => f x.2
  rw [Arithmetic.finiteTokens]
  refine hperm.sum_eq.trans ((hfilter _).trans ?_)
  conv_rhs => rw [← List.zipIdx_map_fst 0 logits, List.map_map]
  rw [List.map_map]
  rfl

theorem foldl_add_coe (X : ExactOps K) (xs : List K) (a : K) :
    (xs.map fun x : K => (x : WithBot K)).foldl X.arithmetic.add a =
      ((a + xs.sum : K) : WithBot K) := by
  induction xs generalizing a with
  | nil => exact congrArg _ (add_zero a).symm
  | cons x xs ih =>
    rw [List.map_cons, List.foldl_cons, List.sum_cons, ← add_assoc]
    exact ih (a + x)

theorem cutoff_coe (X : ExactOps K) (p sum c : K) (xs : List K) :
    X.arithmetic.cutoff p sum c (xs.map fun x : K => (x : WithBot K)) =
      reach p c (xs.map (· / sum)) := by
  induction xs generalizing c with
  | nil => rfl
  | cons x xs ih =>
    rw [List.map_cons, Arithmetic.cutoff, List.map_cons, reach]
    have hadd : X.arithmetic.add c (X.arithmetic.div x sum) = ((c + x / sum : K) : WithBot K) := rfl
    have hle : X.arithmetic.le p ((c + x / sum : K) : WithBot K) = true ↔ p ≤ c + x / sum := by
      rw [X.ordered.le_iff, WithBot.coe_le_coe]
    rw [hadd, ih]
    simp only [hle]

theorem zero_eq (X : ExactOps K) : X.arithmetic.zero = ((0 : K) : WithBot K) :=
  congrArg _ Rat.cast_zero

theorem head_finiteTokens {i : ℕ} {m : WithBot K} {rest : List (ℕ × WithBot K)}
    (h : X.arithmetic.finiteTokens logits = (i, m) :: rest) : m = X.arithmetic.maxLogit logits := by
  have hmem : (i, m) ∈ X.arithmetic.finiteTokens logits := by
    rw [h]
    exact List.mem_cons_self
  obtain ⟨hi, hm⟩ := X.ordered.mem_finiteTokens.mp hmem
  obtain ⟨hmax, hle⟩ := X.ordered.maxLogit_spec logits
  refine le_antisymm (hle m (List.mem_of_getElem? hi)) ?_
  rcases List.mem_cons.mp hmax with he | hmax
  · rw [he]
    exact bot_le
  · obtain ⟨j, hj⟩ := List.mem_iff_getElem?.mp hmax
    by_cases hbot : X.arithmetic.maxLogit logits = ⊥
    · rw [hbot]
      exact bot_le
    · have hin := X.ordered.mem_finiteTokens.mpr ⟨hj, hbot⟩
      have hsorted := X.ordered.pairwise_finiteTokens logits
      rw [h] at hin hsorted
      rcases List.mem_cons.mp hin with he | hin
      · exact (Prod.mk.inj he).2.le
      · exact (List.pairwise_cons.mp hsorted).1 _ hin

theorem map_probability (X : ExactOps K) (logits : List (WithBot K)) :
    ((X.arithmetic.finiteTokens logits).map Prod.fst).map (X.probability logits) =
      ((X.arithmetic.finiteTokens logits).map fun x =>
        X.weight (X.arithmetic.sub x.2 (X.arithmetic.maxLogit logits))).map
          (· / (X.weights logits).sum) := by
  rw [List.map_map, List.map_map]
  refine List.map_congr_left fun x hx => ?_
  exact probability_eq (X.ordered.mem_finiteTokens.mp hx).1

/-- The tokens up to where the running sum of the probabilities reaches the bound are kept. -/
theorem applyTopP_eq [IsStrictOrderedRing K] (hfin : ∃ x ∈ logits, x ≠ ⊥) {q : ℚ} (hpos : 0 < q)
    (hlt : q < 1) :
    X.arithmetic.applyTopP logits (.fin q) =
      X.arithmetic.maskTokens ((X.arithmetic.finiteTokens logits).drop (reach (q : K) 0
        (((X.arithmetic.finiteTokens logits).map Prod.fst).map (X.probability logits))))
        logits := by
  have hguard : ((F32.fin 1).le (.fin q) || (F32.fin q).le (.fin 0) || logits.isEmpty) = false := by
    obtain ⟨x, hx, -⟩ := hfin
    have hne : logits.isEmpty = false := by
      rw [List.isEmpty_eq_false_iff]
      exact List.ne_nil_of_mem hx
    simp [F32.le, F32.lt, F32.eq, hlt.not_gt, hlt.ne', hpos.not_gt, hpos.ne', hne]
  have hpositive := weights_sum_pos (X := X) hfin
  cases hidx : X.arithmetic.finiteTokens logits with
  | nil =>
    obtain ⟨x, hx, hne⟩ := hfin
    obtain ⟨i, hi⟩ := List.mem_iff_getElem?.mp hx
    have hmem := X.ordered.mem_finiteTokens.mpr ⟨hi, hne⟩
    rw [hidx] at hmem
    cases hmem
  | cons t rest =>
    obtain ⟨i, m⟩ := t
    have hm := head_finiteTokens hidx
    subst hm
    rw [Arithmetic.applyTopP_of_cons hguard hidx, ← hidx, map_probability]
    have hsum := X.sum_finiteTokens logits (fun x => X.weight (X.arithmetic.sub x
      (X.arithmetic.maxLogit logits))) rfl
    have hexps : (X.arithmetic.finiteTokens logits).map (fun x => X.arithmetic.exp
        (X.arithmetic.sub x.2 (X.arithmetic.maxLogit logits))) =
        ((X.arithmetic.finiteTokens logits).map fun x => X.weight (X.arithmetic.sub x.2
          (X.arithmetic.maxLogit logits))).map fun x : K => (x : WithBot K) := by
      rw [List.map_map]
      rfl
    have hsome : ¬ X.arithmetic.eq ((X.weights logits).sum : WithBot K) ((0 : K) : WithBot K) =
        true := by
      rw [X.ordered.eq_iff, WithBot.coe_eq_coe]
      exact hpositive.ne'
    have hofF32 : X.arithmetic.ofF32 (.fin q) = ((q : K) : WithBot K) := rfl
    simp only [hexps, zero_eq, foldl_add_coe, zero_add, hsum, hofF32, cutoff_coe]
    rw [← weights, if_neg hsome]

theorem sum_probability [IsStrictOrderedRing K] (hfin : ∃ x ∈ logits, x ≠ ⊥) :
    (((X.arithmetic.finiteTokens logits).map Prod.fst).map (X.probability logits)).sum = 1 := by
  have hsum := X.sum_finiteTokens logits (fun x => X.weight (X.arithmetic.sub x
    (X.arithmetic.maxLogit logits))) rfl
  rw [map_probability]
  simp only [div_eq_mul_inv]
  rw [List.sum_map_mul_right (f := fun x => x), List.map_id', hsum]
  exact mul_inv_cancel₀ (weights_sum_pos hfin).ne'

variable [IsStrictOrderedRing K]

theorem weight_mono {x y m : WithBot K} (h : x ≤ y) :
    X.weight (X.arithmetic.sub x m) ≤ X.weight (X.arithmetic.sub y m) := by
  cases x with
  | bot => exact X.weight_nonneg _
  | coe x =>
    cases m with
    | bot =>
      rw [show X.arithmetic.sub (x : WithBot K) ⊥ = ⊥ from rfl]
      exact X.weight_nonneg _
    | coe m =>
      obtain ⟨y, rfl⟩ := WithBot.ne_bot_iff_exists.mp
        fun he : y = ⊥ => WithBot.coe_ne_bot (le_bot_iff.mp (he ▸ h))
      exact X.exp_strictMono.monotone (sub_le_sub_right (WithBot.coe_le_coe.mp h) m)

theorem probability_mono {i j : ℕ} {x y : WithBot K} (hi : logits[i]? = some x)
    (hj : logits[j]? = some y) (hfin : ∃ x ∈ logits, x ≠ ⊥) (h : x ≤ y) :
    X.probability logits i ≤ X.probability logits j := by
  rw [probability_eq hi, probability_eq hj]
  exact div_le_div_of_nonneg_right (weight_mono h) (weights_sum_pos hfin).le

theorem probability_pos {i : ℕ} (hi : i ∈ (X.arithmetic.finiteTokens logits).map Prod.fst) :
    0 < X.probability logits i := by
  obtain ⟨⟨i, x⟩, hx, rfl⟩ := List.mem_map.mp hi
  obtain ⟨hi, hne⟩ := X.ordered.mem_finiteTokens.mp hx
  have hfin : ∃ x ∈ logits, x ≠ ⊥ := ⟨x, List.mem_of_getElem? hi, hne⟩
  obtain ⟨m, hm, -⟩ := X.exists_maxLogit hfin
  obtain ⟨x, rfl⟩ := WithBot.ne_bot_iff_exists.mp hne
  rw [probability_eq hi, hm]
  exact div_pos (X.exp_pos _) (weights_sum_pos hfin)

/-- The number of tokens that are kept. -/
def topP (X : ExactOps K) (logits : List (WithBot K)) (q : ℚ) : ℕ :=
  reach (q : K) 0 (((X.arithmetic.finiteTokens logits).map Prod.fst).map (X.probability logits))

theorem keptTokens_applyTopP (hfin : ∃ x ∈ logits, x ≠ ⊥) {q : ℚ} (hpos : 0 < q)
    (hle : q ≤ 1) :
    keptTokens (X.arithmetic.applyTopP logits (.fin q)) =
      (((X.arithmetic.finiteTokens logits).map Prod.fst).take (X.topP logits q)).toFinset := by
  rw [← List.map_take]
  ext i
  rw [mem_keptTokens, List.mem_toFinset, ← X.ordered.finite_maskTokens logits]
  rcases hle.lt_or_eq with hlt | rfl
  · rw [applyTopP_eq hfin hpos hlt]
    rfl
  · have hall : X.topP logits 1 = (X.arithmetic.finiteTokens logits).length := by
      have hpositive : ∀ x ∈ ((X.arithmetic.finiteTokens logits).map Prod.fst).map
          (X.probability logits), 0 < x := by
        intro x hx
        obtain ⟨i, hi, rfl⟩ := List.mem_map.mp hx
        exact probability_pos hi
      have hreach := reach_sum 0 hpositive
      rw [sum_probability hfin, zero_add, List.length_map, List.length_map] at hreach
      rw [topP, Rat.cast_one, hreach]
    rw [hall, List.drop_length]
    rfl

/-- With a bound above zero the tokens that are kept are a nucleus of all tokens. -/
theorem nucleus_applyTopP (hfin : ∃ x ∈ logits, x ≠ ⊥) {q : ℚ} (hpos : 0 < q) (hle : q ≤ 1) :
    Nucleus (X.probability logits) (q : K) (Finset.range logits.length)
      (keptTokens (X.arithmetic.applyTopP logits (.fin q))) := by
  rw [keptTokens_applyTopP hfin hpos hle]
  have hsorted : ((X.arithmetic.finiteTokens logits).map Prod.fst).Pairwise fun i j =>
      X.probability logits j ≤ X.probability logits i := by
    refine List.pairwise_map.mpr ((X.ordered.pairwise_finiteTokens logits).imp_of_mem ?_)
    intro x y hx hy h
    exact probability_mono (X.ordered.mem_finiteTokens.mp hy).1
      (X.ordered.mem_finiteTokens.mp hx).1 hfin h
  have hne : (X.arithmetic.finiteTokens logits).map Prod.fst ≠ [] := by
    obtain ⟨x, hx, hne⟩ := hfin
    obtain ⟨i, hi⟩ := List.mem_iff_getElem?.mp hx
    exact List.ne_nil_of_mem (List.mem_map_of_mem (X.ordered.mem_finiteTokens.mpr ⟨hi, hne⟩))
  have hreach : (q : K) ≤ (((X.arithmetic.finiteTokens logits).map Prod.fst).map
      (X.probability logits)).sum := by
    rw [sum_probability hfin]
    exact_mod_cast hle
  refine (Nucleus.take_reach (X.ordered.nodup_finiteTokens logits) hsorted hne hreach).extend ?_ ?_
  · intro i hi
    obtain ⟨⟨i, x⟩, hx, rfl⟩ := List.mem_map.mp (List.mem_toFinset.mp hi)
    exact Finset.mem_range.mpr
      (List.getElem?_eq_some_iff.mp (X.ordered.mem_finiteTokens.mp hx).1).1
  · intro i hi j hj hnot
    have hlt := Finset.mem_range.mp hj
    have hj' := List.getElem?_eq_getElem hlt
    obtain ⟨⟨i, x⟩, hx, rfl⟩ := List.mem_map.mp (List.mem_toFinset.mp hi)
    have hbot : logits[j] = ⊥ := by
      by_contra hne
      exact hnot (List.mem_toFinset.mpr
        (List.mem_map_of_mem (X.ordered.mem_finiteTokens.mpr ⟨hj', hne⟩)))
    rw [hbot] at hj'
    exact probability_mono hj' (X.ordered.mem_finiteTokens.mp hx).1 hfin bot_le

/-- With the bound zero the truncation is off, and above it keeps a nucleus. -/
theorem applyTopP_spec (X : ExactOps K) (logits : List (WithBot K)) (hfin : ∃ x ∈ logits, x ≠ ⊥)
    (q : ℚ) (hq : 0 ≤ q) (hle : q ≤ 1) :
    (q = 0 → X.arithmetic.applyTopP logits (.fin q) = logits) ∧
      (0 < q → Nucleus (X.probability logits) (q : K) (Finset.range logits.length)
        (keptTokens (X.arithmetic.applyTopP logits (.fin q)))) := by
  refine ⟨?_, fun hpos => nucleus_applyTopP hfin hpos hle⟩
  rintro rfl
  rfl

theorem applyTopP_spec_half :
    Nucleus (rational.probability [1, ⊥, 0]) ((1 / 2 : ℚ) : ℚ) (Finset.range 3)
      (keptTokens (rational.arithmetic.applyTopP [1, ⊥, 0] (.fin (1 / 2)))) :=
  (applyTopP_spec rational [1, ⊥, 0] ⟨1, by decide, by decide⟩ (1 / 2) (by norm_num)
    (by norm_num)).2 (by norm_num)

theorem not_nucleus_applyTopP_zero :
    ¬ Nucleus (rational.probability [0, 0]) ((0 : ℚ) : ℚ) (Finset.range 2)
      (keptTokens (rational.arithmetic.applyTopP [0, 0] (.fin 0))) := by
  intro h
  have hmin := h.minimal 0 (by decide +kernel) (by decide +kernel)
  revert hmin
  decide +kernel
end ExactOps

end Exact

end Rllm
