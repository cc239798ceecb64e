import Mathlib.Algebra.Order.Group.Abs
import Mathlib.Data.List.Induction
import Mathlib.Tactic.Linarith

/-! # Nearest entries of a table

A scan that keeps the first of the nearest entries, and the greatest absolute
value of a list, which says how far a table has to reach.
-/

namespace Rllm

section Nearest

variable {K : Type*} [AddCommGroup K] [LinearOrder K] {table : List K} {x c limit : K}

/-- The entry has the least distance. -/
def IsNearest (table : List K) (x c : K) : Prop := c ∈ table ∧ ∀ c' ∈ table, |x - c| ≤ |x - c'|

/-- The position and distance of the first nearest entry that is nearer than the limit. -/
def nearestScan (limit x : K) (table : List K) : ℕ × K :=
  table.zipIdx.foldl (fun best entry =>
    let diff := |x - entry.1|
    if diff < best.2 then (entry.2, diff) else best) (0, limit)

/-- What a scan has found: nothing below the limit, or the nearest entry so far. -/
theorem nearestScan_spec (limit x : K) (table : List K) :
    (∀ c ∈ table, (nearestScan limit x table).2 ≤ |x - c|) ∧
      ((nearestScan limit x table).2 = limit ∨ ∃ c,
        table[(nearestScan limit x table).1]? = some c ∧
          (nearestScan limit x table).2 = |x - c|) := by
  induction table using List.reverseRecOn with
  | nil => exact ⟨fun c hc => absurd hc List.not_mem_nil, .inl rfl⟩
  | append_singleton table a ih =>
    obtain ⟨hle, hfound⟩ := ih
    have hnext : nearestScan limit x (table ++ [a]) =
        if |x - a| < (nearestScan limit x table).2 then (table.length, |x - a|)
        else nearestScan limit x table := by
      rw [nearestScan, List.zipIdx_append, List.foldl_append, Nat.zero_add]
      rfl
    rw [hnext]
    split
    · rename_i hlt
      refine ⟨fun c hc => ?_, .inr ⟨a, by simp, rfl⟩⟩
      rcases List.mem_append.mp hc with hc | hc
      · exact hlt.le.trans (hle c hc)
      · rw [List.mem_singleton.mp hc]
    · rename_i hge
      refine ⟨fun c hc => ?_, hfound.imp_right ?_⟩
      · rcases List.mem_append.mp hc with hc | hc
        · exact hle c hc
        · rw [List.mem_singleton.mp hc]
          exact not_lt.mp hge
      · rintro ⟨c, hc, hdist⟩
        refine ⟨c, ?_, hdist⟩
        rwa [List.getElem?_append_left (List.getElem?_eq_some_iff.mp hc).1]

theorem nearestScan_isNearest (hc : c ∈ table) (hlimit : |x - c| < limit) :
    ∃ c', table[(nearestScan limit x table).1]? = some c' ∧ IsNearest table x c' := by
  obtain ⟨hle, hfound⟩ := nearestScan_spec limit x table
  obtain ⟨c', hc', hdist⟩ := hfound.resolve_left ((hle c hc).trans_lt hlimit).ne
  exact ⟨c', hc', List.mem_of_getElem? hc', fun d hd => hdist ▸ hle d hd⟩

variable [IsOrderedAddMonoid K]

theorem IsNearest.eq_of_mem (h : IsNearest table x c) (hx : x ∈ table) : c = x := by
  have hzero := h.2 x hx
  rw [sub_self, abs_zero] at hzero
  exact (sub_eq_zero.mp (abs_nonpos_iff.mp hzero)).symm

end Nearest

section MaxAbs

variable {K : Type*} [AddCommGroup K] [LinearOrder K] {xs : List K} {v : K}

def maxAbs (xs : List K) : K := xs.foldl (fun m v => max m |v|) 0

theorem maxAbs_concat (xs : List K) (v : K) : maxAbs (xs ++ [v]) = max (maxAbs xs) |v| := by
  rw [maxAbs, List.foldl_append]
  rfl

theorem maxAbs_nonneg (xs : List K) : 0 ≤ maxAbs xs := by
  induction xs using List.reverseRecOn with
  | nil => exact le_rfl
  | append_singleton xs v ih =>
    rw [maxAbs_concat]
    exact le_max_of_le_left ih

theorem abs_le_maxAbs (h : v ∈ xs) : |v| ≤ maxAbs xs := by
  induction xs using List.reverseRecOn with
  | nil => cases h
  | append_singleton xs w ih =>
    rw [maxAbs_concat]
    rcases List.mem_append.mp h with h | h
    · exact le_max_of_le_left (ih h)
    · rw [List.mem_singleton.mp h]
      exact le_max_right _ _

theorem maxAbs_attained (xs : List K) : maxAbs xs = 0 ∨ ∃ v ∈ xs, |v| = maxAbs xs := by
  induction xs using List.reverseRecOn with
  | nil => exact .inl rfl
  | append_singleton xs w ih =>
    rw [maxAbs_concat]
    rcases le_total |w| (maxAbs xs) with hle | hle
    · rw [max_eq_left hle]
      refine ih.imp_right ?_
      rintro ⟨v, hv, heq⟩
      exact ⟨v, List.mem_append_left _ hv, heq⟩
    · rw [max_eq_right hle]
      exact .inr ⟨w, by simp, rfl⟩

end MaxAbs

end Rllm
