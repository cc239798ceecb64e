import Mathlib.Algebra.Order.Round
import Mathlib.Tactic.Linarith
import Mathlib.Tactic.NormNum

/-! # Rounding and clamping

Rounding to the nearest integer, halves away from zero, and what clamping the
result to a range does to the error.
-/

namespace Rllm

variable {K : Type*} [Field K] [LinearOrder K] [FloorRing K]

/-- The nearest integer, halves away from zero. -/
def roundAway (x : K) : ℤ := if 0 ≤ x then ⌊x + 1 / 2⌋ else ⌈x - 1 / 2⌉

/-- The nearest value of a range. -/
def clamp {α : Type*} [LinearOrder α] (lo hi x : α) : α := max lo (min x hi)

section Clamp

variable {α : Type*} [LinearOrder α] {lo hi x : α}

theorem clamp_of_mem (hlo : lo ≤ x) (hhi : x ≤ hi) : clamp lo hi x = x := by
  rw [clamp, min_eq_left hhi, max_eq_right hlo]

theorem clamp_of_le (h : x ≤ lo) : clamp lo hi x = lo :=
  max_eq_left ((min_le_left x hi).trans h)

theorem clamp_of_ge (hlo : lo ≤ hi) (h : hi ≤ x) : clamp lo hi x = hi := by
  rw [clamp, min_eq_right h, max_eq_right hlo]

theorem le_clamp (lo hi x : α) : lo ≤ clamp lo hi x := le_max_left lo _

theorem clamp_le (h : lo ≤ hi) (x : α) : clamp lo hi x ≤ hi := max_le h (min_le_right x hi)

end Clamp

variable [IsStrictOrderedRing K] {x : K} {n lo hi : ℤ}

theorem abs_sub_roundAway_le (x : K) : |x - roundAway x| ≤ 1 / 2 := by
  rw [roundAway, abs_le]
  split
  · have hle := Int.floor_le (x + 1 / 2)
    have hlt := Int.lt_floor_add_one (x + 1 / 2)
    constructor <;> linarith
  · have hle := Int.le_ceil (x - 1 / 2)
    have hlt := Int.ceil_lt_add_one (x - 1 / 2)
    constructor <;> linarith

theorem le_roundAway (h : (n : K) ≤ x) : n ≤ roundAway x := by
  have herr := (abs_le.mp (abs_sub_roundAway_le x)).2
  have hlt : (n : K) < roundAway x + 1 := by linarith
  exact Int.lt_add_one_iff.mp (by exact_mod_cast hlt)

theorem roundAway_le (h : x ≤ n) : roundAway x ≤ n := by
  have herr := (abs_le.mp (abs_sub_roundAway_le x)).1
  have hlt : (roundAway x : K) < n + 1 := by linarith
  exact Int.lt_add_one_iff.mp (by exact_mod_cast hlt)

theorem le_half_of_roundAway_lt (h : roundAway x < n) : x ≤ n - 1 / 2 := by
  have herr := (abs_le.mp (abs_sub_roundAway_le x)).2
  have hle : (roundAway x : K) + 1 ≤ n := by exact_mod_cast h
  linarith

theorem half_le_of_lt_roundAway (h : n < roundAway x) : n + 1 / 2 ≤ x := by
  have herr := (abs_le.mp (abs_sub_roundAway_le x)).1
  have hle : (n : K) + 1 ≤ roundAway x := by exact_mod_cast h
  linarith

theorem abs_sub_clamp_roundAway_le_one (h : lo ≤ hi) :
    |x - clamp lo hi (roundAway x)| ≤ 1 ↔ (lo : K) - 1 ≤ x ∧ x ≤ hi + 1 := by
  have hcast : (lo : K) ≤ hi := by exact_mod_cast h
  rcases lt_or_ge (roundAway x) lo with hlo | hlo
  · have hx := le_half_of_roundAway_lt hlo
    rw [clamp_of_le hlo.le, abs_le]
    constructor
    · rintro ⟨hle, -⟩
      constructor <;> linarith
    · rintro ⟨hle, -⟩
      constructor <;> linarith
  rcases lt_or_ge hi (roundAway x) with hhi | hhi
  · have hx := half_le_of_lt_roundAway hhi
    rw [clamp_of_ge h hhi.le, abs_le]
    constructor
    · rintro ⟨-, hle⟩
      constructor <;> linarith
    · rintro ⟨-, hle⟩
      constructor <;> linarith
  · have herr := abs_sub_roundAway_le x
    have hlo' : (lo : K) ≤ roundAway x := by exact_mod_cast hlo
    have hhi' : (roundAway x : K) ≤ hi := by exact_mod_cast hhi
    rw [clamp_of_mem hlo hhi]
    rw [abs_le] at herr ⊢
    constructor
    · intro _
      constructor <;> linarith
    · intro _
      constructor <;> linarith

end Rllm
