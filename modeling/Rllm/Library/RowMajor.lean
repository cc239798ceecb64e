import Mathlib.Data.List.Forall2
import Rllm.Library.Checked
import Rllm.Library.Tensor

/-! # Row-major places

The entries of a tensor are numbered in the order of their indices. Every number
below the size is the place of exactly one index.
-/

namespace Rllm

/-- An index has a number below each dimension. -/
def Within (shape index : List ℕ) : Prop := List.Forall₂ (· < ·) index shape

/-- The place of an index. -/
def rowMajor : List ℕ → List ℕ → ℕ
  | _ :: shape, i :: index => i * shape.prod + rowMajor shape index
  | _, _ => 0

variable {shape index index' : List ℕ}

theorem rowMajor_lt (h : Within shape index) : rowMajor shape index < shape.prod := by
  induction h with
  | nil => exact Nat.one_pos
  | cons hi _ ih =>
    rw [List.prod_cons]
    exact block_lt hi ih

theorem rowMajor_inj (h : Within shape index) (h' : Within shape index')
    (heq : rowMajor shape index = rowMajor shape index') : index = index' := by
  induction h generalizing index' with
  | nil =>
    cases h'
    rfl
  | cons hi hrest ih =>
    rcases h' with _ | ⟨hi', hrest'⟩
    obtain ⟨rfl, hplace⟩ := block_inj (rowMajor_lt hrest) (rowMajor_lt hrest') heq
    rw [ih hrest' hplace]

theorem exists_rowMajor {k : ℕ} (hk : k < shape.prod) :
    ∃ index, Within shape index ∧ rowMajor shape index = k := by
  induction shape generalizing k with
  | nil =>
    obtain rfl : k = 0 := Nat.lt_one_iff.mp hk
    exact ⟨[], .nil, rfl⟩
  | cons n shape ih =>
    rw [List.prod_cons] at hk
    have hpos : 0 < shape.prod := Nat.pos_of_mul_pos_left (Nat.zero_lt_of_lt hk)
    obtain ⟨index, hindex, hplace⟩ := ih (Nat.mod_lt k hpos)
    have hi : k / shape.prod < n := Nat.div_lt_of_lt_mul (by rwa [Nat.mul_comm])
    refine ⟨k / shape.prod :: index, .cons hi hindex, ?_⟩
    rw [rowMajor, hplace, Nat.div_add_mod']

/-! ## Machine integers -/

namespace Checked

/-- One step from a place of some dimensions to a place of one dimension more. -/
def mulAdd (a m b : ℕ) : Except String ℕ := do
  let product ← mul a m
  add product b

theorem mulAdd_of_lt {n a m b : ℕ} (ha : a < n) (hb : b < m) (hsize : n * m ≤ usizeBound) :
    mulAdd a m b = .ok (a * m + b) := by
  have hlt : a * m + b < usizeBound := (block_lt ha hb).trans_le hsize
  rw [mulAdd, mul_of_lt ((Nat.le_add_right _ _).trans_lt hlt), ok_bind, add, if_pos hlt]

end Checked

end Rllm
