import Rllm.Sampling.Exact

/-! # Top-k

The threshold of the truncation to `k` logits is the element of rank `k`,
counted from zero, which is one more than the `k` best. So one logit too many
is kept, unless it ties with the last of the best or is masked.
-/

namespace Rllm

open Ranking

variable {V : Type} [LinearOrder V] [OrderBot V] {A : Arithmetic V} {logits : List V} {k : ℕ}

namespace Arithmetic

theorem Ordered.maskBelow_eq (h : A.Ordered) (threshold : V) (logits : List V) :
    A.maskBelow threshold logits = logits.map fun x => if x < threshold then ⊥ else x := by
  simp only [maskBelow, h.lt_iff, h.negInf_eq]

theorem Ordered.map_snd_sort (h : A.Ordered) (logits : List V) :
    (A.sortDescending (logits.zipIdx.map Prod.swap)).map Prod.snd = descending logits := by
  refine eq_descending ?_ ?_
  · have hvalues : (logits.zipIdx.map Prod.swap).map Prod.snd = logits := by
      rw [List.map_map]
      exact List.zipIdx_map_fst 0 logits
    have hperm := (h.sort_perm (logits.zipIdx.map Prod.swap)).map Prod.snd
    rwa [hvalues] at hperm
  · exact List.pairwise_map.mpr (h.sort_pairwise _)

/-- The threshold is the logit of rank `k`, counted from zero. -/
theorem Ordered.applyTopK_eq (h : A.Ordered) (hpos : 0 < k)
    (hk : k < (descending logits).length) :
    A.applyTopK logits k =
      logits.map fun x => if x < (descending logits)[k] then ⊥ else x := by
  have hget : ((A.sortDescending (logits.zipIdx.map Prod.swap))[k]?).map Prod.snd =
      some (descending logits)[k] := by
    rw [← List.getElem?_map, h.map_snd_sort, List.getElem?_eq_getElem hk]
  obtain ⟨⟨i, t⟩, ht, hsnd⟩ := Option.map_eq_some_iff.mp hget
  have hnot : ¬ (k : ℤ) ≤ 0 := by omega
  rw [applyTopK, if_neg hnot]
  simp only [Int.toNat_natCast, ht]
  rw [h.maskBelow_eq, ← hsnd]

/-- The logits that are kept are the `k` best, and with ties those that are no less than the
`k`-th; the others become `-∞`. -/
def KeepsBest (A : Arithmetic V) (logits : List V) (k : ℕ) : Prop :=
  A.applyTopK logits k = logits.map fun x => if Best logits k x then x else ⊥

/-- The truncation keeps the `k` best exactly if the next in descending order ties with the
last of them, or is `-∞`. -/
theorem Ordered.keepsBest_iff (h : A.Ordered) (logits : List V) (k : ℕ) (hpos : 1 ≤ k)
    (hk : k < logits.length) :
    A.KeepsBest logits k ↔ (descending logits)[k]? = (descending logits)[k - 1]? ∨
      (descending logits)[k]? = some ⊥ := by
  obtain ⟨m, rfl⟩ := Nat.exists_eq_add_of_le' hpos
  have hk' : m + 1 < (descending logits).length := by rwa [length_descending]
  have hm : m < (descending logits).length := by omega
  rw [KeepsBest, h.applyTopK_eq hpos hk', Nat.add_sub_cancel, List.getElem?_eq_getElem hk',
    List.getElem?_eq_getElem hm, Option.some_inj, Option.some_inj, List.map_inj_left]
  simp only [best_succ_iff hm]
  constructor
  · intro hkept
    have hmem : (descending logits)[m + 1] ∈ logits :=
      (descending_perm logits).mem_iff.mp (List.getElem_mem hk')
    have hlast := hkept _ hmem
    rw [if_neg (lt_irrefl _)] at hlast
    split at hlast
    · rename_i hbest
      exact .inl (le_antisymm (descending_anti (Nat.le_succ m) hk') hbest)
    · exact .inr hlast
  · rintro (htie | hbot) x hx
    · rw [htie]
      rcases lt_or_ge x (descending logits)[m] with hlt | hge
      · rw [if_pos hlt, if_neg (not_le.mpr hlt)]
      · rw [if_neg (not_lt.mpr hge), if_pos hge]
    · rw [hbot, if_neg not_lt_bot]
      split
      · rfl
      · rename_i hnot
        rw [← best_succ_iff hm] at hnot
        exact le_bot_iff.mp (hbot ▸ le_of_not_best hk' hx hnot)

theorem Ordered.keepsBest_iff_tie : ExactOps.rational.arithmetic.KeepsBest [2, 1, 2] 1 :=
  (ExactOps.rational.ordered.keepsBest_iff [2, 1, 2] 1 (by decide) (by decide)).mpr
    (.inl (by decide))

theorem not_keepsBest_distinct : ¬ ExactOps.rational.arithmetic.KeepsBest [3, 2, 1] 1 := by
  unfold KeepsBest
  decide

end Arithmetic

end Rllm
