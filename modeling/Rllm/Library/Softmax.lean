import Mathlib.Algebra.BigOperators.Ring.List
import Mathlib.Algebra.Order.BigOperators.Group.List
import Mathlib.Algebra.Order.Field.Basic
import Mathlib.Algebra.Order.Monoid.WithTop
import Mathlib.Data.List.Induction

/-! # Softmax

The weights of logits, of which some may be `-∞`, and averages by these weights. One pass
over the logits is enough for an average, if what was added so far is corrected whenever
a greater logit comes.
-/

namespace Rllm

namespace Softmax

variable {K : Type*}

section Greatest

variable [LinearOrder K]

def greatest (logits : List (WithBot K)) : WithBot K := logits.foldl max ⊥

theorem greatest_concat (logits : List (WithBot K)) (x : WithBot K) :
    greatest (logits ++ [x]) = max (greatest logits) x := by
  rw [greatest, List.foldl_append]
  rfl

theorem le_greatest {logits : List (WithBot K)} {x : WithBot K} (h : x ∈ logits) :
    x ≤ greatest logits := by
  induction logits using List.reverseRecOn with
  | nil => cases h
  | append_singleton logits y ih =>
    rw [greatest_concat]
    rcases List.mem_append.mp h with h | h
    · exact (ih h).trans (le_max_left _ _)
    · rw [List.mem_singleton.mp h]
      exact le_max_right _ _

theorem greatest_append_replicate_bot (logits : List (WithBot K)) (n : ℕ) :
    greatest (logits ++ List.replicate n ⊥) = greatest logits := by
  induction n with
  | zero => rw [List.replicate_zero, List.append_nil]
  | succ n ih => rw [List.replicate_succ', ← List.append_assoc, greatest_concat, ih, max_bot_right]

end Greatest

variable [Field K]

section Weights

variable (exp : K → K)

/-- The exponential of a logit less another one, zero at `-∞`. -/
def expSub : WithBot K → WithBot K → K
  | (x : K), (m : K) => exp (x - m)
  | _, _ => 0

@[simp] theorem expSub_bot (m : WithBot K) : expSub exp ⊥ m = 0 := rfl

variable [LinearOrder K]

/-- The exponentials of logits less the greatest one. -/
def shifted (logits : List (WithBot K)) : List K := logits.map (expSub exp · (greatest logits))

def weights (logits : List (WithBot K)) : List K :=
  (shifted exp logits).map (· / (shifted exp logits).sum)

@[simp] theorem length_weights (logits : List (WithBot K)) :
    (weights exp logits).length = logits.length := by simp [weights, shifted]

theorem weights_append_replicate_bot (logits : List (WithBot K)) (n : ℕ) :
    weights exp (logits ++ List.replicate n ⊥) = weights exp logits ++ List.replicate n 0 := by
  simp [weights, shifted, greatest_append_replicate_bot]

/-- The average of values by the weights of their logits. -/
def average (rows : List (WithBot K × K)) : K :=
  (List.zipWith (· * ·) (weights exp (rows.map Prod.fst)) (rows.map Prod.snd)).sum

theorem average_eq_div (rows : List (WithBot K × K)) :
    average exp rows =
      (rows.map fun row => row.2 * expSub exp row.1 (greatest (rows.map Prod.fst))).sum /
        (shifted exp (rows.map Prod.fst)).sum := by
  rw [average, weights]
  generalize (shifted exp (rows.map Prod.fst)).sum = total
  simp only [shifted, List.map_map, List.zipWith_map, List.zipWith_self, div_eq_mul_inv,
    ← List.sum_map_mul_right, Function.comp_apply]
  exact congrArg List.sum (List.map_congr_left fun row _ => by
    rw [mul_right_comm, mul_comm row.2])

end Weights

/-! ## One pass -/

/-- What a function has to share with the exponential function. -/
structure IsExp [LinearOrder K] (exp : K → K) : Prop where
  add : ∀ x y, exp (x + y) = exp x * exp y
  pos : ∀ x, 0 < exp x

section Unshifted

variable [LinearOrder K] {exp : K → K}

theorem IsExp.zero (h : IsExp exp) : exp 0 = 1 := by
  have hadd := h.add 0 0
  rw [add_zero] at hadd
  exact (mul_eq_left₀ (h.pos 0).ne').mp hadd.symm

/-- The shift cancels, unless a logit is `-∞`. -/
theorem average_coe (h : IsExp exp) (rows : List (K × K)) :
    average exp (rows.map fun row => ((row.1 : WithBot K), row.2)) =
      (rows.map fun row => row.2 * exp row.1).sum / (rows.map fun row => exp row.1).sum := by
  obtain _ | ⟨row, rows⟩ := rows
  · simp [average]
  have hle : (row.1 : WithBot K) ≤
      greatest ((row :: rows).map fun row => (row.1 : WithBot K)) := le_greatest List.mem_cons_self
  obtain ⟨m, hm⟩ := WithBot.ne_bot_iff_exists.mp (ne_bot_of_le_ne_bot WithBot.coe_ne_bot hle)
  have hshift : ∀ x : K, expSub exp x (m : WithBot K) = exp x * exp (-m) := by
    intro x
    rw [← h.add, ← sub_eq_add_neg]
    rfl
  rw [average_eq_div, shifted]
  simp only [List.map_map, Function.comp_def, ← hm, hshift, ← mul_assoc, List.sum_map_mul_right]
  exact mul_div_mul_right _ _ (h.pos _).ne'

end Unshifted

/-- The greatest logit so far, and sums that are relative to it. -/
structure Online (K : Type*) where
  greatest : WithBot K
  sum : K
  acc : K

namespace Online

variable [LinearOrder K] (exp : K → K)

def start : Online K := ⟨⊥, 0, 0⟩

def step (o : Online K) (row : WithBot K × K) : Online K :=
  let greatest := max o.greatest row.1
  let correction := expSub exp o.greatest greatest
  let weight := expSub exp row.1 greatest
  ⟨greatest, o.sum * correction + weight, o.acc * correction + row.2 * weight⟩

def run (rows : List (WithBot K × K)) : Online K := rows.foldl (step exp) start

def result (o : Online K) : K := if 0 < o.sum then o.acc / o.sum else o.acc

variable {exp}

theorem expSub_mul_expSub (h : IsExp exp) {x m m' : WithBot K} (hx : x ≤ m) (hm : m ≤ m') :
    expSub exp x m * expSub exp m m' = expSub exp x m' := by
  cases x with
  | bot => simp
  | coe x =>
    cases m with
    | bot => simp at hx
    | coe m =>
      cases m' with
      | bot => simp at hm
      | coe m' =>
        change exp (x - m) * exp (m - m') = exp (x - m')
        rw [← h.add, sub_add_sub_cancel]

theorem run_eq (h : IsExp exp) (rows : List (WithBot K × K)) :
    run exp rows =
      ⟨Softmax.greatest (rows.map Prod.fst), (shifted exp (rows.map Prod.fst)).sum,
        (rows.map fun row =>
          row.2 * expSub exp row.1 (Softmax.greatest (rows.map Prod.fst))).sum⟩ := by
  induction rows using List.reverseRecOn with
  | nil => rfl
  | append_singleton rows row ih =>
    have hcorrect : ∀ x ∈ rows, expSub exp x.1 (Softmax.greatest (rows.map Prod.fst)) *
        expSub exp (Softmax.greatest (rows.map Prod.fst))
          (max (Softmax.greatest (rows.map Prod.fst)) row.1) =
        expSub exp x.1 (max (Softmax.greatest (rows.map Prod.fst)) row.1) := fun x hx =>
      expSub_mul_expSub h (le_greatest (List.mem_map_of_mem hx)) (le_max_left _ _)
    rw [run, List.foldl_append]
    change step exp (run exp rows) row = _
    rw [ih, List.map_append, List.map_singleton, greatest_concat]
    refine (Online.mk.injEq ..).mpr ⟨rfl, ?_, ?_⟩
    · rw [shifted, shifted, greatest_concat, List.map_append, List.sum_append, List.map_map,
        List.map_map, ← List.sum_map_mul_right]
      congr 2
      · exact List.map_congr_left hcorrect
      · simp
    · rw [List.map_append, List.sum_append, ← List.sum_map_mul_right]
      congr 2
      · refine List.map_congr_left fun x hx => ?_
        rw [mul_assoc, hcorrect x hx]
      · simp

/-- One pass gives the average. -/
theorem result_run [IsStrictOrderedRing K] (h : IsExp exp) (rows : List (WithBot K × K)) :
    (run exp rows).result = average exp rows := by
  have hnonneg : ∀ x ∈ shifted exp (rows.map Prod.fst), 0 ≤ x := by
    intro x hx
    obtain ⟨y, -, rfl⟩ := List.mem_map.mp hx
    unfold expSub
    split
    · exact (h.pos _).le
    · exact le_rfl
  rw [run_eq h, result, average_eq_div]
  dsimp only
  split
  · rfl
  · rename_i hsum
    have hzero : (shifted exp (rows.map Prod.fst)).sum = 0 :=
      le_antisymm (not_lt.mp hsum) (List.sum_nonneg hnonneg)
    rw [hzero, div_zero]
    refine List.sum_eq_zero fun x hx => ?_
    obtain ⟨row, hrow, rfl⟩ := List.mem_map.mp hx
    have hmem : expSub exp row.1 (Softmax.greatest (rows.map Prod.fst)) ∈
        shifted exp (rows.map Prod.fst) :=
      List.mem_map_of_mem (List.mem_map_of_mem hrow)
    rw [List.all_zero_of_le_zero_le_of_sum_eq_zero hnonneg hzero hmem, mul_zero]

end Online

end Softmax

end Rllm
