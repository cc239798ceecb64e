import Mathlib.Algebra.Order.Field.Basic
import Mathlib.Algebra.Order.Monoid.WithTop
import Mathlib.Data.Rat.Cast.Order
import Mathlib.Tactic.Linarith
import Rllm.Library.Nucleus
import Rllm.Library.Ranking
import Rllm.Sampling.Processors

/-! # Exact arithmetic

Numbers of an ordered field, and `-∞` below them. The exponential is any
positive function that grows strictly. Over such an arithmetic the truncations
can be told apart from rounding: which logits they keep, and how many.
-/

namespace Rllm

/-- An arithmetic whose comparisons are a linear order with `-∞` at the bottom. -/
structure Arithmetic.Ordered {V : Type} [LinearOrder V] [OrderBot V] (A : Arithmetic V) :
    Prop where
  lt_iff : ∀ x y, A.lt x y = true ↔ x < y
  le_iff : ∀ x y, A.le x y = true ↔ x ≤ y
  eq_iff : ∀ x y, A.eq x y = true ↔ x = y
  max_eq : ∀ x y, A.max x y = Max.max x y
  negInf_eq : A.negInf = ⊥
  sort_perm : ∀ xs, (A.sortDescending xs).Perm xs
  sort_pairwise : ∀ xs, (A.sortDescending xs).Pairwise fun x y => y.2 ≤ x.2

section Arithmetic

variable {K : Type} [Field K]

/-- The number that a float is. The exact arithmetic has no NaN and no `∞`. -/
def ofF32 : F32 → WithBot K
  | .fin q => ((q : K) : WithBot K)
  | .inf _ | .nan => ⊥

variable [LinearOrder K]

/-- Exact arithmetic. An operation on `-∞` is `-∞`, as with floats where the other number is
added or subtracted, or a positive factor. -/
def exactArithmetic (weight : WithBot K → K) (ln : K → K)
    (sortDescending : List (ℕ × WithBot K) → List (ℕ × WithBot K)) :
    Arithmetic (WithBot K) where
  ofF32 := ofF32
  lt x y := decide (x < y)
  le x y := decide (x ≤ y)
  eq x y := decide (x = y)
  add := WithBot.map₂ (· + ·)
  sub := WithBot.map₂ (· - ·)
  mul := WithBot.map₂ (· * ·)
  div := WithBot.map₂ (· / ·)
  max := max
  abs := WithBot.map fun x => |x|
  exp x := (weight x : WithBot K)
  ln := WithBot.map ln
  ofCount n := ((n : K) : WithBot K)
  sortDescending := sortDescending

end Arithmetic

/-- An exponential, its logarithm and a sort for the numbers of an ordered field. -/
structure ExactOps (K : Type) [Field K] [LinearOrder K] where
  exp : K → K
  ln : K → K
  sortDescending : List (ℕ × WithBot K) → List (ℕ × WithBot K)
  exp_strictMono : StrictMono exp
  exp_pos : ∀ x, 0 < exp x
  ln_nonpos : ∀ x, 0 < x → x ≤ 1 → ln x ≤ 0
  sort_perm : ∀ xs, (sortDescending xs).Perm xs
  sort_pairwise : ∀ xs, (sortDescending xs).Pairwise fun x y => y.2 ≤ x.2

namespace ExactOps

variable {K : Type} [Field K] [LinearOrder K] (X : ExactOps K)

/-- The exponential, which is zero at `-∞`. -/
def weight : WithBot K → K
  | ⊥ => 0
  | (x : K) => X.exp x

def arithmetic : Arithmetic (WithBot K) := exactArithmetic X.weight X.ln X.sortDescending

theorem ordered : X.arithmetic.Ordered where
  lt_iff _ _ := decide_eq_true_iff
  le_iff _ _ := decide_eq_true_iff
  eq_iff _ _ := decide_eq_true_iff
  max_eq _ _ := rfl
  negInf_eq := rfl
  sort_perm := X.sort_perm
  sort_pairwise := X.sort_pairwise

/-- An exponential of rational numbers, with its inverse. -/
def rational : ExactOps ℚ where
  exp x := if 0 ≤ x then 1 + x else 1 / (1 - x)
  ln x := if 1 ≤ x then x - 1 else 1 - 1 / x
  sortDescending xs := xs.insertionSort fun x y => y.2 ≤ x.2
  exp_strictMono x y hlt := by
    dsimp only
    rcases le_or_gt 0 x with hx | hx
    · rw [if_pos hx, if_pos (hx.trans hlt.le)]
      exact add_lt_add_right hlt 1
    · rw [if_neg (not_le.mpr hx)]
      rcases le_or_gt 0 y with hy | hy
      · rw [if_pos hy]
        have hone : 1 / (1 - x) < 1 := (div_lt_one (by linarith)).mpr (by linarith)
        linarith
      · rw [if_neg (not_le.mpr hy)]
        exact one_div_lt_one_div_of_lt (by linarith) (by linarith)
  exp_pos x := by
    split
    · linarith
    · exact one_div_pos.mpr (by linarith)
  ln_nonpos x hpos hle := by
    split
    · linarith
    · have hone : 1 ≤ 1 / x := (one_le_div hpos).mpr hle
      linarith
  sort_perm xs := List.perm_insertionSort _ xs
  sort_pairwise xs := by
    have : Std.Total fun x y : ℕ × WithBot ℚ => y.2 ≤ x.2 := ⟨fun x y => le_total y.2 x.2⟩
    have : IsTrans (ℕ × WithBot ℚ) fun x y => y.2 ≤ x.2 := ⟨fun _ _ _ h h' => h'.trans h⟩
    exact List.pairwise_insertionSort _ xs

end ExactOps

end Rllm
