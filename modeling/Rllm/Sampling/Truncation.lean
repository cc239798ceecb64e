import Rllm.Sampling.TopK
import Rllm.Sampling.TopP

/-! # The truncations

Top-k, top-p and min-p in sequence. Each keeps some logits as they are and
masks the others, keeps all that are greater than one it keeps, and keeps a
best one. Only top-p parts logits that tie.
-/

namespace Rllm

namespace F32

variable {a b : ℚ} {x : F32}

theorem fin_le_fin : (F32.fin a).le (.fin b) = true ↔ a ≤ b := by
  simp [le, lt, eq, le_iff_lt_or_eq]

theorem fin_lt_fin : (F32.fin a).lt (.fin b) = true ↔ a < b := by
  simp [lt]

theorem exists_fin_of_not_lt (ha : (F32.fin a).lt x = true) (hb : (F32.fin b).lt x = false) :
    ∃ q, x = .fin q ∧ a < q ∧ q ≤ b := by
  cases x with
  | nan => cases ha
  | inf s => cases s <;> [cases hb; cases ha]
  | fin q =>
    refine ⟨q, rfl, fin_lt_fin.mp ha, not_lt.mp fun hlt => ?_⟩
    rw [fin_lt_fin.mpr hlt] at hb
    cases hb

end F32

/-! ## What a truncation keeps -/

section Order

variable {V : Type} [LinearOrder V] [OrderBot V] {A : Arithmetic V} {logits middle result : List V}

/-- Some logits are masked: the survivors keep their values, and what is greater than a survivor
survives. -/
structure Truncates (logits result : List V) : Prop where
  length : result.length = logits.length
  keeps : ∀ (i : ℕ) (x : V), result[i]? = some x → x ≠ ⊥ → logits[i]? = some x
  upward : ∀ (i j : ℕ) (x y : V), result[i]? = some x → x ≠ ⊥ → logits[j]? = some y → x < y →
    result[j]? = some y

/-- One of the greatest logits survives, if any is finite. -/
def KeepsOneBest (logits result : List V) : Prop :=
  (∃ x ∈ logits, x ≠ ⊥) → ∃ (i : ℕ) (x : V), result[i]? = some x ∧ x ≠ ⊥ ∧ ∀ y ∈ logits, y ≤ x

/-- All of the greatest logits survive. -/
def KeepsEveryBest (logits result : List V) : Prop :=
  ∀ (i : ℕ) (x : V), logits[i]? = some x → x ≠ ⊥ → (∀ y ∈ logits, y ≤ x) →
    result[i]? = some x

theorem exists_best (hfin : ∃ x ∈ logits, x ≠ ⊥) :
    ∃ (i : ℕ) (x : V), logits[i]? = some x ∧ x ≠ ⊥ ∧ ∀ y ∈ logits, y ≤ x := by
  obtain ⟨x, hx, hne⟩ := hfin
  cases hmax : logits.max? with
  | none =>
    rw [List.max?_eq_none_iff.mp hmax] at hx
    cases hx
  | some m =>
    obtain ⟨hm, hle⟩ := List.max?_eq_some_iff.mp hmax
    obtain ⟨i, hi⟩ := List.mem_iff_getElem?.mp hm
    exact ⟨i, m, hi, fun he => hne (le_bot_iff.mp (he ▸ hle x hx)), hle⟩

theorem Truncates.refl (logits : List V) : Truncates logits logits where
  length := rfl
  keeps _ _ h _ := h
  upward _ _ _ _ _ _ h _ := h

theorem Truncates.trans (h : Truncates logits middle) (h' : Truncates middle result) :
    Truncates logits result where
  length := h'.length.trans h.length
  keeps i x hx hne := h.keeps i x (h'.keeps i x hx hne) hne
  upward i j x y hx hne hy hlt :=
    h'.upward i j x y hx hne (h.upward i j x y (h'.keeps i x hx hne) hne hy hlt) hlt

theorem KeepsOneBest.trans (h : KeepsOneBest logits middle) (h' : KeepsOneBest middle result) :
    KeepsOneBest logits result := by
  intro hfin
  obtain ⟨i, x, hx, hne, hmax⟩ := h hfin
  obtain ⟨j, y, hy, hne', hmax'⟩ := h' ⟨x, List.mem_of_getElem? hx, hne⟩
  exact ⟨j, y, hy, hne', fun z hz => (hmax z hz).trans (hmax' x (List.mem_of_getElem? hx))⟩

theorem KeepsEveryBest.refl (logits : List V) : KeepsEveryBest logits logits :=
  fun _ _ hx _ _ => hx

theorem KeepsEveryBest.trans (htrunc : Truncates logits middle) (h : KeepsEveryBest logits middle)
    (h' : KeepsEveryBest middle result) : KeepsEveryBest logits result := by
  intro i x hx hne hmax
  refine h' i x (h i x hx hne hmax) hne fun y hy => ?_
  by_cases hbot : y = ⊥
  · exact hbot ▸ bot_le
  · obtain ⟨j, hj⟩ := List.mem_iff_getElem?.mp hy
    exact hmax y (List.mem_of_getElem? (htrunc.keeps j y hj hbot))

theorem KeepsEveryBest.keepsOneBest (h : KeepsEveryBest logits result) :
    KeepsOneBest logits result := by
  intro hfin
  obtain ⟨i, x, hx, hne, hmax⟩ := exists_best hfin
  exact ⟨i, x, h i x hx hne hmax, hne, hmax⟩

namespace Arithmetic

theorem Ordered.getElem?_maskBelow (h : A.Ordered) {t x : V} {i : ℕ} (hne : x ≠ ⊥) :
    (A.maskBelow t logits)[i]? = some x ↔ logits[i]? = some x ∧ t ≤ x := by
  rw [h.maskBelow_eq, List.getElem?_map]
  constructor
  · intro hx
    obtain ⟨y, hy, he⟩ := Option.map_eq_some_iff.mp hx
    split at he
    · exact absurd he.symm hne
    · rename_i hnot
      subst he
      exact ⟨hy, not_lt.mp hnot⟩
  · rintro ⟨hx, hle⟩
    rw [hx, Option.map_some, if_neg (not_lt.mpr hle)]

theorem Ordered.truncates_maskBelow (h : A.Ordered) (t : V) :
    Truncates logits (A.maskBelow t logits) where
  length := List.length_map _
  keeps i x hx hne := ((h.getElem?_maskBelow hne).mp hx).1
  upward i j x y hx hne hy hlt := by
    have hle := ((h.getElem?_maskBelow hne).mp hx).2.trans hlt.le
    exact (h.getElem?_maskBelow (bot_le.trans_lt hlt).ne').mpr ⟨hy, hle⟩

theorem Ordered.keepsEveryBest_maskBelow (h : A.Ordered) {t : V}
    (ht : ∀ x ∈ logits, x ≠ ⊥ → (∀ y ∈ logits, y ≤ x) → t ≤ x) :
    KeepsEveryBest logits (A.maskBelow t logits) := by
  intro i x hx hne hmax
  exact (h.getElem?_maskBelow hne).mpr ⟨hx, ht x (List.mem_of_getElem? hx) hne hmax⟩

theorem Ordered.truncates_applyTopK (h : A.Ordered) (k : ℤ) :
    Truncates logits (A.applyTopK logits k) ∧ KeepsEveryBest logits (A.applyTopK logits k) := by
  rw [applyTopK]
  split
  · exact ⟨.refl logits, .refl logits⟩
  · dsimp only
    cases hget : (A.sortDescending (logits.zipIdx.map Prod.swap))[k.toNat]? with
    | none => exact ⟨.refl logits, .refl logits⟩
    | some t =>
      refine ⟨h.truncates_maskBelow t.2, h.keepsEveryBest_maskBelow fun x _ _ hmax => hmax t.2 ?_⟩
      have hmem := (h.sort_perm _).mem_iff.mp (List.mem_of_getElem? hget)
      obtain ⟨⟨y, i⟩, hy, rfl⟩ := List.mem_map.mp hmem
      exact List.fst_mem_of_mem_zipIdx hy

theorem Ordered.keeps_maskTokens (h : A.Ordered) (tokens : List (ℕ × V)) {i : ℕ} {x : V}
    (hx : (A.maskTokens tokens logits)[i]? = some x) (hne : x ≠ ⊥) : logits[i]? = some x := by
  rw [A.getElem?_maskTokens] at hx
  split at hx
  · obtain ⟨y, -, rfl⟩ := Option.map_eq_some_iff.mp hx
    exact absurd h.negInf_eq hne
  · exact hx

theorem Ordered.getElem?_maskTokens_drop (h : A.Ordered) {n i : ℕ} {x : V} (hne : x ≠ ⊥) :
    (A.maskTokens ((A.finiteTokens logits).drop n) logits)[i]? = some x ↔
      (i, x) ∈ (A.finiteTokens logits).take n := by
  constructor
  · intro hx
    obtain ⟨⟨j, y⟩, hy, rfl⟩ := List.mem_map.mp ((h.finite_maskTokens logits n).mp ⟨x, hx, hne⟩)
    have hlogits := (h.mem_finiteTokens.mp (List.mem_of_mem_take hy)).1
    have he := hlogits.symm.trans (h.keeps_maskTokens _ hx hne)
    exact Option.some.inj he ▸ hy
  · intro hx
    have hlogits := (h.mem_finiteTokens.mp (List.mem_of_mem_take hx)).1
    obtain ⟨y, hy, hne'⟩ :=
      (h.finite_maskTokens logits n).mpr (List.mem_map_of_mem (f := Prod.fst) hx)
    have he := hlogits.symm.trans (h.keeps_maskTokens _ hy hne')
    exact Option.some.inj he ▸ hy

theorem Ordered.truncates_maskTokens (h : A.Ordered) (n : ℕ) :
    Truncates logits (A.maskTokens ((A.finiteTokens logits).drop n) logits) where
  length := by
    rw [maskTokens]
    induction (A.finiteTokens logits).drop n generalizing logits with
    | nil => rfl
    | cons t tokens ih => rw [List.foldl_cons, ih, List.length_set]
  keeps i x := h.keeps_maskTokens _
  upward i j x y hx hne hy hlt := by
    have hne' : y ≠ ⊥ := (bot_le.trans_lt hlt).ne'
    have hx' := (h.getElem?_maskTokens_drop hne).mp hx
    refine (h.getElem?_maskTokens_drop hne').mpr ?_
    have hmem := h.mem_finiteTokens.mpr ⟨hy, hne'⟩
    have hsorted := h.pairwise_finiteTokens logits
    rw [← List.take_append_drop n (A.finiteTokens logits)] at hmem hsorted
    refine (List.mem_append.mp hmem).resolve_right fun hdrop => ?_
    exact absurd ((List.pairwise_append.mp hsorted).2.2 _ hx' _ hdrop) (not_le.mpr hlt)

theorem Ordered.keepsOneBest_maskTokens (h : A.Ordered) {n : ℕ} (hpos : 0 < n) :
    KeepsOneBest logits (A.maskTokens ((A.finiteTokens logits).drop n) logits) := by
  intro hfin
  obtain ⟨i, x, hx, hne, hmax⟩ := exists_best hfin
  have hmem := h.mem_finiteTokens.mpr ⟨hx, hne⟩
  have hsorted := h.pairwise_finiteTokens logits
  cases hidx : A.finiteTokens logits with
  | nil =>
    rw [hidx] at hmem
    cases hmem
  | cons t rest =>
    obtain ⟨j, y⟩ := t
    have hfirst : (j, y) ∈ A.finiteTokens logits := by
      rw [hidx]
      exact List.mem_cons_self
    have hne' := (h.mem_finiteTokens.mp hfirst).2
    have hle : x ≤ y := by
      rw [hidx] at hmem hsorted
      rcases List.mem_cons.mp hmem with he | hrest
      · exact (Prod.mk.inj he).2.le
      · exact (List.pairwise_cons.mp hsorted).1 _ hrest
    refine ⟨j, y, ?_, hne', fun z hz => (hmax z hz).trans hle⟩
    rw [← hidx, h.getElem?_maskTokens_drop hne', hidx]
    obtain ⟨m, rfl⟩ := Nat.exists_eq_add_one_of_ne_zero hpos.ne'
    exact List.mem_cons_self

theorem cutoff_pos {V : Type} (A : Arithmetic V) (p sum c : V) {xs : List V} (hne : xs ≠ []) :
    0 < A.cutoff p sum c xs := by
  cases xs with
  | nil => exact absurd rfl hne
  | cons x xs =>
    rw [cutoff]
    split <;> omega

/-- Whatever the bound, the tokens that stay are the first. -/
theorem Ordered.truncates_applyTopP (h : A.Ordered) (logits : List V) (p : F32) :
    Truncates logits (A.applyTopP logits p) ∧ KeepsOneBest logits (A.applyTopP logits p) := by
  have hself : Truncates logits logits ∧ KeepsOneBest logits logits :=
    ⟨.refl logits, (KeepsEveryBest.refl logits).keepsOneBest⟩
  cases hguard : (F32.fin 1).le p || p.le (.fin 0) || logits.isEmpty with
  | true => rwa [applyTopP, hguard, if_pos rfl]
  | false =>
    cases hidx : A.finiteTokens logits with
    | nil =>
      have hnil : A.sortDescending ((logits.zipIdx.map Prod.swap).filter fun x =>
        !A.eq x.2 A.negInf) = [] := hidx
      rw [applyTopP, hguard, if_neg Bool.false_ne_true]
      simpa only [hnil] using hself
    | cons t rest =>
      rw [applyTopP_of_cons hguard hidx]
      dsimp only
      split
      · exact hself
      · refine ⟨h.truncates_maskTokens _, h.keepsOneBest_maskTokens (A.cutoff_pos _ _ _ ?_)⟩
        rw [hidx]
        exact List.cons_ne_nil _ _

theorem Ordered.truncates_applyMinP (h : A.Ordered) (logits : List V) (minP : F32) :
    Truncates logits (A.applyMinP logits minP) := by
  rw [applyMinP]
  split
  · exact .refl logits
  · dsimp only
    split
    · exact .refl logits
    · exact h.truncates_maskBelow _

omit [LinearOrder V] [OrderBot V] in
theorem of_when {P : List V → Prop} {c : Bool} {f : List V → List V}
    (h : c = true → P (f logits)) (h' : P logits) : P (when c f logits) := by
  cases c with
  | false => exact h'
  | true => exact h rfl

theorem Ordered.truncates_truncateLogits (h : A.Ordered) (p : SamplingParams) (logits : List V) :
    Truncates logits (A.truncateLogits p logits) := by
  have htopK (xs : List V) : Truncates xs (when (0 < p.topK) (A.applyTopK · p.topK) xs) :=
    of_when (fun _ => (h.truncates_applyTopK p.topK).1) (.refl xs)
  have htopP (xs : List V) : Truncates xs (when (p.topP.lt (.fin 1)) (A.applyTopP · p.topP) xs) :=
    of_when (fun _ => (h.truncates_applyTopP xs p.topP).1) (.refl xs)
  have hminP (xs : List V) :
      Truncates xs (when ((F32.fin 0).lt p.minP) (A.applyMinP · p.minP) xs) :=
    of_when (fun _ => h.truncates_applyMinP xs p.minP) (.refl xs)
  exact ((htopK _).trans (htopP _)).trans (hminP _)

end Arithmetic

end Order

section Exact

variable {K : Type} [Field K] [LinearOrder K] [IsStrictOrderedRing K] {X : ExactOps K}
  {logits : List (WithBot K)}

namespace ExactOps

theorem keepsEveryBest_applyMinP (X : ExactOps K) (logits : List (WithBot K)) {q : ℚ} (hq : 0 < q)
    (hle : q ≤ 1) : KeepsEveryBest logits (X.arithmetic.applyMinP logits (.fin q)) := by
  rw [Arithmetic.applyMinP]
  split
  · exact .refl logits
  · dsimp only
    split
    · exact .refl logits
    · refine X.ordered.keepsEveryBest_maskBelow fun x hx hne hmax => ?_
      obtain ⟨m, hm, hmem⟩ := X.exists_maxLogit ⟨x, hx, hne⟩
      have hln : X.ln (q : K) ≤ 0 :=
        X.ln_nonpos _ (Rat.cast_pos.mpr hq) (by exact_mod_cast hle)
      rw [hm]
      calc ((X.ln (q : K) + m : K) : WithBot K)
          ≤ ((0 + m : K) : WithBot K) := WithBot.coe_le_coe.mpr (add_le_add_left hln m)
        _ = m := by rw [zero_add]
        _ ≤ x := hmax _ hmem

omit [IsStrictOrderedRing K] in
theorem keepsEveryBest_topP (X : ExactOps K) (logits : List (WithBot K)) {p : F32}
    (hp : ¬ ((F32.fin 0).lt p = true ∧ p.lt (.fin 1) = true)) :
    KeepsEveryBest logits
      (Arithmetic.when (p.lt (.fin 1)) (X.arithmetic.applyTopP · p) logits) := by
  refine Arithmetic.of_when (fun hlt => ?_) (.refl logits)
  have hle : p.le (.fin 0) = true := by
    cases p with
    | nan => cases hlt
    | inf s => cases s <;> [cases hlt; rfl]
    | fin q =>
      exact F32.fin_le_fin.mpr (not_lt.mp fun hpos => hp ⟨F32.fin_lt_fin.mpr hpos, hlt⟩)
  rw [Arithmetic.applyTopP, hle, Bool.or_true, Bool.true_or, if_pos rfl]
  exact .refl logits

theorem keepsEveryBest_minP (X : ExactOps K) (logits : List (WithBot K)) {p : F32}
    (hp : (F32.fin 1).lt p = false) :
    KeepsEveryBest logits
      (Arithmetic.when ((F32.fin 0).lt p) (X.arithmetic.applyMinP · p) logits) := by
  refine Arithmetic.of_when (fun hpos => ?_) (.refl logits)
  obtain ⟨q, rfl, hq, hle⟩ := F32.exists_fin_of_not_lt hpos hp
  exact X.keepsEveryBest_applyMinP logits hq hle

theorem keepsOneBest_truncateLogits (X : ExactOps K) {p : SamplingParams}
    (logits : List (WithBot K)) (hp : (F32.fin 1).lt p.minP = false) :
    KeepsOneBest logits (X.arithmetic.truncateLogits p logits) := by
  have htopK : KeepsOneBest logits
      (Arithmetic.when (0 < p.topK) (X.arithmetic.applyTopK · p.topK) logits) :=
    Arithmetic.of_when (fun _ => (X.ordered.truncates_applyTopK p.topK).2.keepsOneBest)
      (KeepsEveryBest.refl logits).keepsOneBest
  have htopP (xs : List (WithBot K)) : KeepsOneBest xs
      (Arithmetic.when (p.topP.lt (.fin 1)) (X.arithmetic.applyTopP · p.topP) xs) :=
    Arithmetic.of_when (fun _ => (X.ordered.truncates_applyTopP xs p.topP).2)
      (KeepsEveryBest.refl xs).keepsOneBest
  exact (htopK.trans (htopP _)).trans (X.keepsEveryBest_minP _ hp).keepsOneBest

theorem keepsEveryBest_truncateLogits (X : ExactOps K) {p : SamplingParams}
    (logits : List (WithBot K)) (hp : (F32.fin 1).lt p.minP = false)
    (hoff : ¬ ((F32.fin 0).lt p.topP = true ∧ p.topP.lt (.fin 1) = true)) :
    KeepsEveryBest logits (X.arithmetic.truncateLogits p logits) := by
  have htopK : Truncates logits
        (Arithmetic.when (0 < p.topK) (X.arithmetic.applyTopK · p.topK) logits) ∧
      KeepsEveryBest logits
        (Arithmetic.when (0 < p.topK) (X.arithmetic.applyTopK · p.topK) logits) :=
    Arithmetic.of_when (P := fun xs => Truncates logits xs ∧ KeepsEveryBest logits xs)
      (fun _ => X.ordered.truncates_applyTopK p.topK) ⟨.refl logits, .refl logits⟩
  have htopP (xs : List (WithBot K)) : Truncates xs
      (Arithmetic.when (p.topP.lt (.fin 1)) (X.arithmetic.applyTopP · p.topP) xs) :=
    Arithmetic.of_when (fun _ => (X.ordered.truncates_applyTopP xs p.topP).1) (.refl xs)
  have hboth := KeepsEveryBest.trans htopK.1 htopK.2 (X.keepsEveryBest_topP _ hoff)
  exact hboth.trans (htopK.1.trans (htopP _)) (X.keepsEveryBest_minP _ hp)

/-- The truncations mask what is not among the best. One of the best stays if the ratio to the
greatest is not above one, and all of them if top-p is off as well. -/
theorem truncateLogits_spec (X : ExactOps K) (p : SamplingParams) (logits : List (WithBot K)) :
    Truncates logits (X.arithmetic.truncateLogits p logits) ∧
      ((F32.fin 1).lt p.minP = false →
        KeepsOneBest logits (X.arithmetic.truncateLogits p logits) ∧
        (¬ ((F32.fin 0).lt p.topP = true ∧ p.topP.lt (.fin 1) = true) →
          KeepsEveryBest logits (X.arithmetic.truncateLogits p logits))) :=
  ⟨X.ordered.truncates_truncateLogits p logits, fun hp =>
    ⟨X.keepsOneBest_truncateLogits logits hp, X.keepsEveryBest_truncateLogits logits hp⟩⟩

theorem truncateLogits_spec_half :
    KeepsOneBest [(1 : WithBot ℚ), ⊥, 0] (rational.arithmetic.truncateLogits
      { topP := .fin (1 / 2), topK := 2, minP := .fin (1 / 2) } [1, ⊥, 0]) :=
  ((truncateLogits_spec rational { topP := .fin (1 / 2), topK := 2, minP := .fin (1 / 2) }
    [1, ⊥, 0]).2 (by decide +kernel)).1

theorem not_keepsEveryBest_half :
    SamplingParams.validate { topP := .fin (1 / 2) } = .ok () ∧
      ¬ KeepsEveryBest [(0 : WithBot ℚ), 0] (rational.arithmetic.truncateLogits
        { topP := .fin (1 / 2) } [0, 0]) := by
  refine ⟨by decide +kernel, fun h => ?_⟩
  have hkept := h 1 0 rfl (by decide) (by decide)
  revert hkept
  decide +kernel

end ExactOps

end Exact

end Rllm
