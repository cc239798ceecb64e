import Mathlib.Data.List.Sort

/-! # Ranks

The best elements of a list are those that few elements are greater than. In
descending order they come first, and with them those that tie with the last.
-/

namespace Rllm

namespace Ranking

variable {α : Type*} [LinearOrder α]

/-- A list in descending order. -/
def descending (xs : List α) : List α := xs.insertionSort (· ≥ ·)

/-- Fewer than `k` elements are greater. -/
def Best (xs : List α) (k : ℕ) (x : α) : Prop := (xs.filter (x < ·)).length < k

instance (xs : List α) (k : ℕ) (x : α) : Decidable (Best xs k x) :=
  inferInstanceAs (Decidable (_ < _))

variable {xs ys : List α} {x : α} {k : ℕ}

theorem sortedGE_descending (xs : List α) : (descending xs).SortedGE :=
  List.sortedGE_insertionSort

theorem descending_perm (xs : List α) : (descending xs).Perm xs :=
  List.perm_insertionSort _ xs

@[simp] theorem length_descending (xs : List α) : (descending xs).length = xs.length :=
  (descending_perm xs).length_eq

theorem eq_descending (hperm : ys.Perm xs) (hsorted : ys.Pairwise (· ≥ ·)) :
    ys = descending xs :=
  (hperm.trans (descending_perm xs).symm).eq_of_sortedGE hsorted.sortedGE
    (sortedGE_descending xs)

theorem descending_anti {i j : ℕ} (hij : i ≤ j) (hj : j < (descending xs).length) :
    (descending xs)[j] ≤ (descending xs)[i] :=
  (sortedGE_descending xs).getElem_ge_getElem_of_le hij

theorem length_filter_eq (hk : k < (descending xs).length) (hle : (descending xs)[k] ≤ x) :
    (xs.filter (x < ·)).length = (((descending xs).take k).filter (x < ·)).length := by
  have hnone : ((descending xs).drop k).filter (x < ·) = [] := by
    rw [List.filter_eq_nil_iff]
    intro y hy
    obtain ⟨i, hi, rfl⟩ := List.mem_drop_iff_getElem.mp hy
    rw [decide_eq_true_eq, not_lt]
    exact (descending_anti (Nat.le_add_right k i) (by omega)).trans hle
  rw [← ((descending_perm xs).filter _).length_eq]
  conv_lhs => rw [← List.take_append_drop k (descending xs)]
  rw [List.filter_append, hnone, List.append_nil]

/-- The `k` best are those that are no less than the `k`-th in descending order. -/
theorem best_succ_iff (hk : k < (descending xs).length) :
    Best xs (k + 1) x ↔ (descending xs)[k] ≤ x := by
  constructor
  · intro hlt
    by_contra hnot
    have hall : ((descending xs).take (k + 1)).filter (x < ·) = (descending xs).take (k + 1) := by
      rw [List.filter_eq_self]
      intro y hy
      obtain ⟨i, hi, rfl⟩ := List.mem_take_iff_getElem.mp hy
      rw [decide_eq_true_eq]
      exact (not_le.mp hnot).trans_le (descending_anti (by omega) hk)
    have hle := ((List.take_sublist (k + 1) (descending xs)).filter (x < ·)).length_le
    rw [hall, List.length_take, Nat.min_eq_left hk,
      ((descending_perm xs).filter _).length_eq] at hle
    exact absurd hlt (not_lt.mpr hle)
  · intro hle
    have htake := List.length_filter_le (x < ·) ((descending xs).take k)
    rw [List.length_take] at htake
    rw [Best, length_filter_eq hk hle]
    omega

theorem le_of_not_best (hk : k < (descending xs).length) (hx : x ∈ xs) (h : ¬ Best xs k x) :
    x ≤ (descending xs)[k] := by
  by_contra hnot
  obtain ⟨j, hj, hxj⟩ := List.mem_iff_getElem.mp ((descending_perm xs).mem_iff.mpr hx)
  have hjk : j < k := by
    by_contra hge
    exact hnot (hxj ▸ descending_anti (not_lt.mp hge) hj)
  have hfail : (((descending xs).take k).filter (x < ·)).length <
      ((descending xs).take k).length := by
    refine List.length_filter_lt_length_iff_exists.mpr ⟨x, ?_, by simp⟩
    exact List.mem_take_iff_getElem.mpr ⟨j, by omega, hxj⟩
  refine h ?_
  rw [Best, length_filter_eq hk (not_le.mp hnot).le]
  rw [List.length_take] at hfail
  omega

end Ranking

end Rllm
