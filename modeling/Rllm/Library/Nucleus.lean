import Mathlib.Algebra.BigOperators.Group.Finset.Basic
import Mathlib.Algebra.Order.BigOperators.Group.Finset
import Mathlib.Algebra.Order.Group.Defs
import Mathlib.Data.Finset.Dedup

/-! # Running sums and nuclei

The elements of a list whose running sum reaches a bound first. Of weights in
descending order they are a nucleus: a set of heaviest elements that reaches
the bound, and does not without its lightest.
-/

namespace Rllm

namespace RunningSum

variable {K : Type*} [AddCommGroup K] [LinearOrder K]

/-- How many numbers it takes until their sum reaches a bound, and all of them if it does not. -/
def reach (p : K) : K → List K → ℕ
  | _, [] => 0
  | c, x :: xs => if p ≤ c + x then 1 else 1 + reach p (c + x) xs

variable {p c : K} {xs : List K} {n : ℕ}

theorem reach_cons_of_le {x : K} (h : p ≤ c + x) : reach p c (x :: xs) = 1 := if_pos h

theorem reach_cons_of_lt {x : K} (h : c + x < p) :
    reach p c (x :: xs) = reach p (c + x) xs + 1 := by
  rw [reach, if_neg (not_le.mpr h), Nat.add_comm]

theorem reach_pos (p c : K) (hne : xs ≠ []) : 0 < reach p c xs := by
  cases xs with
  | nil => exact absurd rfl hne
  | cons x xs =>
    rw [reach]
    split <;> omega

theorem reach_le_length (p c : K) (xs : List K) : reach p c xs ≤ xs.length := by
  induction xs generalizing c with
  | nil => exact le_rfl
  | cons x xs ih =>
    have := ih (c + x)
    rw [reach, List.length_cons]
    split <;> omega

theorem le_sum_take_reach (h : p ≤ c + xs.sum) : p ≤ c + (xs.take (reach p c xs)).sum := by
  induction xs generalizing c with
  | nil => exact h
  | cons x xs ih =>
    rcases le_or_gt p (c + x) with hle | hlt
    · rw [reach_cons_of_le hle, List.take_succ_cons, List.take_zero, List.sum_singleton]
      exact hle
    · rw [List.sum_cons, ← add_assoc] at h
      rw [reach_cons_of_lt hlt, List.take_succ_cons, List.sum_cons, ← add_assoc]
      exact ih h

theorem sum_take_lt (hpos : 0 < n) (h : n < reach p c xs) : c + (xs.take n).sum < p := by
  induction xs generalizing c n with
  | nil => exact absurd h (Nat.not_lt_zero _)
  | cons x xs ih =>
    rcases le_or_gt p (c + x) with hle | hlt
    · rw [reach_cons_of_le hle] at h
      omega
    · rw [reach_cons_of_lt hlt] at h
      obtain ⟨m, rfl⟩ := Nat.exists_eq_add_one_of_ne_zero hpos.ne'
      rw [List.take_succ_cons, List.sum_cons, ← add_assoc]
      cases m with
      | zero => rwa [List.take_zero, List.sum_nil, add_zero]
      | succ m => exact ih m.succ_pos (by omega)

theorem reach_sum [IsOrderedAddMonoid K] (c : K) (hpos : ∀ x ∈ xs, 0 < x) :
    reach (c + xs.sum) c xs = xs.length := by
  refine le_antisymm (reach_le_length _ c xs) (not_lt.mp fun hlt => ?_)
  have hle : c + xs.sum ≤ c + (xs.take (reach (c + xs.sum) c xs)).sum := le_sum_take_reach le_rfl
  have hdrop : 0 < (xs.drop (reach (c + xs.sum) c xs)).sum := by
    refine List.sum_pos _ (fun x hx => hpos x (List.mem_of_mem_drop hx)) ?_
    rw [ne_eq, List.drop_eq_nil_iff]
    exact not_le.mpr hlt
  have hwhole := List.sum_take_add_sum_drop xs (reach (c + xs.sum) c xs)
  have habove := lt_add_of_pos_right (xs.take (reach (c + xs.sum) c xs)).sum hdrop
  rw [hwhole] at habove
  exact absurd (le_of_add_le_add_left hle) (not_le.mpr habove)

theorem exists_reach [IsOrderedAddMonoid K] (hc : c < p) (h : p ≤ c + xs.sum) :
    ∃ x, xs[reach p c xs - 1]? = some x ∧ 0 < x := by
  induction xs generalizing c with
  | nil =>
    rw [List.sum_nil, add_zero] at h
    exact absurd h (not_le.mpr hc)
  | cons x xs ih =>
    rcases le_or_gt p (c + x) with hle | hlt
    · rw [reach_cons_of_le hle]
      exact ⟨x, rfl, pos_of_lt_add_right (hc.trans_le hle)⟩
    · rw [List.sum_cons, ← add_assoc] at h
      obtain ⟨y, hy, hpos⟩ := ih hlt h
      have hne : xs ≠ [] := by
        rintro rfl
        cases hy
      obtain ⟨m, hm⟩ := Nat.exists_eq_add_one_of_ne_zero (reach_pos p (c + x) hne).ne'
      rw [hm, Nat.add_sub_cancel] at hy
      rw [reach_cons_of_lt hlt, hm]
      exact ⟨y, hy, hpos⟩

end RunningSum

/-- A set of heaviest elements whose weights reach a bound, and would not without a lightest one,
unless it is alone. -/
structure Nucleus {ι K : Type*} [DecidableEq ι] [AddCommGroup K] [LinearOrder K]
    (w : ι → K) (p : K) (all kept : Finset ι) : Prop where
  subset : kept ⊆ all
  nonempty : kept.Nonempty
  heaviest : ∀ i ∈ kept, ∀ j ∈ all, j ∉ kept → w j ≤ w i
  reaches : p ≤ ∑ i ∈ kept, w i
  minimal : ∀ i ∈ kept, (∀ j ∈ kept, w i ≤ w j) → kept = {i} ∨ ∑ j ∈ kept.erase i, w j < p

namespace Nucleus

open RunningSum

variable {ι K : Type*} [DecidableEq ι] [AddCommGroup K] [LinearOrder K] [IsOrderedAddMonoid K]
  {w : ι → K} {p : K} {is : List ι}

/-- The first elements in descending order, up to the one that reaches the bound. -/
theorem take_reach (hnodup : is.Nodup) (hsorted : is.Pairwise fun i j => w j ≤ w i)
    (hne : is ≠ []) (hreach : p ≤ (is.map w).sum) :
    Nucleus w p is.toFinset (is.take (reach p 0 (is.map w))).toFinset := by
  have hpos : 0 < reach p 0 (is.map w) := reach_pos p 0 (List.map_eq_nil_iff.not.mpr hne)
  have hlen := reach_le_length p 0 (is.map w)
  have hsum : p ≤ 0 + ((is.map w).take (reach p 0 (is.map w))).sum :=
    le_sum_take_reach (by rwa [zero_add])
  have hlt : ∀ m, 0 < m → m < reach p 0 (is.map w) → 0 + ((is.map w).take m).sum < p :=
    fun m => sum_take_lt
  rw [List.length_map] at hlen
  obtain ⟨m, hm⟩ := Nat.exists_eq_add_one_of_ne_zero hpos.ne'
  rw [hm] at hlen hsum hlt ⊢
  have htake : is.take (m + 1) = is.take m ++ [is[m]] := List.take_succ_eq_append_getElem hlen
  have hnodup' : (is.take (m + 1)).Nodup := hnodup.sublist (List.take_sublist _ _)
  have hkept : ∑ i ∈ (is.take (m + 1)).toFinset, w i = ((is.take m).map w).sum + w is[m] := by
    rw [List.sum_toFinset w hnodup', htake, List.map_append, List.sum_append, List.map_singleton,
      List.sum_singleton]
  refine ⟨?_, ⟨is[m], ?_⟩, fun i hi j hj hnot => ?_, ?_, fun i hi hmin => ?_⟩
  · exact fun i hi => List.mem_toFinset.mpr (List.mem_of_mem_take (List.mem_toFinset.mp hi))
  · rw [htake]
    exact List.mem_toFinset.mpr (List.mem_append_right _ List.mem_cons_self)
  · rw [List.mem_toFinset] at hi hj hnot
    rw [← List.take_append_drop (m + 1) is] at hj hsorted
    exact (List.pairwise_append.mp hsorted).2.2 i hi j ((List.mem_append.mp hj).resolve_left hnot)
  · rw [hkept]
    rwa [zero_add, ← List.map_take, htake, List.map_append, List.sum_append, List.map_singleton,
      List.sum_singleton] at hsum
  · rcases Nat.eq_zero_or_pos m with rfl | hm₀
    · rw [List.mem_toFinset, htake, List.take_zero, List.nil_append, List.mem_singleton] at hi
      left
      rw [htake, List.take_zero, hi]
      rfl
    · -- the lightest element weighs as much as the last
      have hlast : w i = w is[m] := by
        refine le_antisymm (hmin _ ?_) ?_
        · rw [htake]
          exact List.mem_toFinset.mpr (List.mem_append_right _ List.mem_cons_self)
        · rw [List.mem_toFinset, htake, List.mem_append, List.mem_singleton] at hi
          rcases hi with hi | rfl
          · have hsorted' := hsorted.sublist (List.take_sublist (m + 1) is)
            rw [htake] at hsorted'
            exact (List.pairwise_append.mp hsorted').2.2 i hi _ List.mem_cons_self
          · exact le_rfl
      right
      have hlt' := hlt m hm₀ (Nat.lt_succ_self m)
      rw [zero_add, ← List.map_take] at hlt'
      have herase := Finset.sum_erase_add (is.take (m + 1)).toFinset w hi
      rw [hkept, hlast, add_left_inj] at herase
      rwa [herase]

omit [IsOrderedAddMonoid K] in
theorem extend {all all' kept : Finset ι} (h : Nucleus w p all kept) (hsub : all ⊆ all')
    (hlight : ∀ i ∈ all, ∀ j ∈ all', j ∉ all → w j ≤ w i) : Nucleus w p all' kept where
  subset := h.subset.trans hsub
  nonempty := h.nonempty
  heaviest i hi j hj hnot := by
    by_cases hall : j ∈ all
    · exact h.heaviest i hi j hall hnot
    · exact hlight i (h.subset hi) j hj hall
  reaches := h.reaches
  minimal := h.minimal

end Nucleus

end Rllm
