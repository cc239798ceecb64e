import Mathlib.Algebra.BigOperators.Group.Finset.Basic
import Mathlib.Algebra.BigOperators.Intervals
import Mathlib.Data.Nat.Factorization.Basic

/-! # Sums by halves

The threads of a block add up a vector in place. In each phase a thread below the stride
adds what lies a stride behind its own entry, and the stride is halved. The phases have
barriers between them, and the threads of a phase may run in any order.
-/

namespace Rllm

namespace TreeReduction

variable {K : Type*} [AddCommMonoid K] {n stride : ℕ} {s : ℕ → K}

/-- What one thread does in a phase. -/
def addBehind (n stride : ℕ) (s : ℕ → K) (t : ℕ) : ℕ → K :=
  if t < stride ∧ t + stride < n then Function.update s t (s t + s (t + stride)) else s

/-- A phase, with its threads in some order. -/
def phase (n stride : ℕ) (order : List ℕ) (s : ℕ → K) : ℕ → K := order.foldl (addBehind n stride) s

/-- All phases from a stride on. -/
def reduce (order : ℕ → List ℕ) (n stride : ℕ) (s : ℕ → K) : ℕ → K :=
  if stride = 0 then s
  else reduce order n (stride / 2) (phase n stride (order stride) s)

theorem phase_apply {order : List ℕ} (hnodup : order.Nodup) (t : ℕ) :
    phase n stride order s t =
      if t ∈ order ∧ t < stride ∧ t + stride < n then s t + s (t + stride) else s t := by
  induction order generalizing s with
  | nil => simp [phase]
  | cons a order ih =>
    obtain ⟨ha, hnodup⟩ := List.nodup_cons.mp hnodup
    change phase n stride order (addBehind n stride s a) t = _
    rw [ih hnodup]
    have hbehind : t < stride → addBehind n stride s a (t + stride) = s (t + stride) := by
      intro ht
      unfold addBehind
      split
      · rw [Function.update_of_ne (by omega)]
      · rfl
    by_cases hta : t = a
    · subst hta
      simp only [ha, false_and, ↓reduceIte, List.mem_cons, true_or, true_and, addBehind]
      split
      · rw [Function.update_self]
      · rfl
    · have hsame : addBehind n stride s a t = s t := by
        unfold addBehind
        split
        · rw [Function.update_of_ne hta]
        · rfl
      simp only [List.mem_cons, hta, false_or, hsame]
      split
      · rename_i h
        rw [hbehind h.2.1]
      · rfl

variable {order : ℕ → List ℕ}

theorem reduce_zero : reduce order n 0 s = s := by
  rw [reduce, if_pos rfl]

theorem reduce_of_ne (h : stride ≠ 0) :
    reduce order n stride s = reduce order n (stride / 2) (phase n stride (order stride) s) := by
  rw [reduce, if_neg h]

/-- Every thread takes part in every phase. -/
def Complete (n : ℕ) (order : ℕ → List ℕ) : Prop := ∀ stride, (order stride).Perm (List.range n)

theorem Complete.phase_apply (h : Complete n order) (t : ℕ) :
    phase n stride (order stride) s t =
      if t < stride ∧ t + stride < n then s t + s (t + stride) else s t := by
  rw [TreeReduction.phase_apply ((h stride).nodup_iff.mpr List.nodup_range)]
  have hmem : t ∈ order stride ↔ t < n := by rw [(h stride).mem_iff, List.mem_range]
  refine if_congr ?_ rfl rfl
  rw [hmem]
  omega

theorem Complete.sum_phase (h : Complete n order) :
    ∑ i ∈ Finset.range (min n stride), phase n stride (order stride) s i =
      ∑ i ∈ Finset.range (min n (2 * stride)), s i := by
  simp only [h.phase_apply]
  rcases Nat.le_total n stride with hn | hn
  · rw [Nat.min_eq_left hn, Nat.min_eq_left (by omega)]
    exact Finset.sum_congr rfl fun i _ => if_neg (by omega)
  · obtain ⟨behind, hbehind⟩ : ∃ behind, min n (2 * stride) = stride + behind :=
      ⟨min n (2 * stride) - stride, by omega⟩
    have hsplit : ∀ i ∈ Finset.range stride,
        (if i < stride ∧ i + stride < n then s i + s (i + stride) else s i) =
          s i + if i < behind then s (stride + i) else 0 := by
      intro i hi
      rw [Finset.mem_range] at hi
      by_cases hin : i < behind
      · rw [if_pos (by omega), if_pos hin, Nat.add_comm i]
      · rw [if_neg (by omega), if_neg hin, add_zero]
    have hfilter : (Finset.range stride).filter (· < behind) = Finset.range behind := by
      ext i
      simp only [Finset.mem_filter, Finset.mem_range]
      omega
    rw [Nat.min_eq_right hn, hbehind, Finset.sum_congr rfl hsplit, Finset.sum_add_distrib,
      ← Finset.sum_filter, hfilter, Finset.sum_range_add]

theorem reduce_two_pow (h : Complete n order) (hn : n ≠ 0) (k : ℕ) :
    reduce order n (2 ^ k) s 0 = ∑ i ∈ Finset.range (min n (2 * 2 ^ k)), s i := by
  induction k generalizing s with
  | zero =>
    rw [pow_zero, reduce_of_ne one_ne_zero, show 1 / 2 = 0 from rfl, reduce_zero, ← h.sum_phase,
      Nat.min_eq_right (Nat.one_le_iff_ne_zero.mpr hn), Finset.sum_range_one]
  | succ k ih =>
    rw [reduce_of_ne (Nat.two_pow_pos _).ne', pow_succ, Nat.mul_div_cancel _ Nat.two_pos, ih,
      Nat.mul_comm (2 ^ k) 2, h.sum_phase]

theorem reduce_of_lost {i : ℕ} (h : Complete n order)
    (hlost : ∀ j, 0 < stride / 2 ^ j → stride / 2 ^ j ≤ i → 2 * (stride / 2 ^ j) ≤ i)
    (hs : ∀ t, t ≠ i → s t = 0) : reduce order n stride s 0 = s 0 := by
  induction stride using Nat.strong_induction_on generalizing s with
  | _ stride ih =>
    by_cases hstride : stride = 0
    · subst hstride
      rw [reduce_zero]
    have hphase : ∀ t, phase n stride (order stride) s t = s t := by
      intro t
      rw [h.phase_apply]
      split
      · rename_i hadd
        have hne : t + stride ≠ i := by
          have h₀ := hlost 0
          rw [pow_zero, Nat.div_one] at h₀
          omega
        rw [hs _ hne, add_zero]
      · rfl
    rw [reduce_of_ne hstride, ih _ (Nat.div_lt_self (Nat.pos_of_ne_zero hstride) Nat.one_lt_two)
      (fun j hpos hj => ?_) fun t ht => (hphase t).trans (hs t ht), hphase]
    rw [Nat.div_div_eq_div_mul, ← pow_succ'] at hpos hj ⊢
    exact hlost _ hpos hj

theorem reduce_of_head (h : Complete n order) (hs : ∀ t, t ≠ 0 → s t = 0) :
    reduce order n stride s 0 = s 0 :=
  reduce_of_lost h (fun _ hpos hj => by omega) hs

/-- If the first stride is not a power of two, some entry is lost. -/
theorem exists_lost (h : Complete n order) (hn : n ≠ 0) (hpow : ¬ ∃ k, (n + 1) / 2 = 2 ^ k) :
    ∃ i, i ≠ 0 ∧ i < n ∧ ∀ x : K, reduce order n ((n + 1) / 2) (Pi.single i x) 0 = 0 := by
  obtain ⟨j, o, ⟨q, rfl⟩, hstride⟩ := Nat.exists_eq_two_pow_mul_odd (n := (n + 1) / 2) (by omega)
  obtain rfl | hq := Nat.eq_zero_or_pos q
  · exact absurd ⟨j, by rw [hstride, Nat.mul_zero, Nat.zero_add, Nat.mul_one]⟩ hpow
  have hlost : ∀ a, (n + 1) / 2 / 2 ^ a ≤ 2 * q → 2 * ((n + 1) / 2 / 2 ^ a) ≤ 2 * q := by
    intro a ha
    rw [hstride] at ha ⊢
    rcases Nat.lt_or_ge j a with haj | haj
    · obtain ⟨b, rfl⟩ := Nat.exists_eq_add_of_lt haj
      rw [Nat.add_assoc, pow_add, ← Nat.div_div_eq_div_mul,
        Nat.mul_div_cancel_left _ (Nat.two_pow_pos j), pow_succ', ← Nat.div_div_eq_div_mul]
      have := Nat.div_le_self ((2 * q + 1) / 2) (2 ^ b)
      omega
    · rw [← Nat.sub_add_cancel haj, pow_add, Nat.mul_right_comm,
        Nat.mul_div_cancel _ (Nat.two_pow_pos a)] at ha
      have := Nat.le_mul_of_pos_left (2 * q + 1) (Nat.two_pow_pos (j - a))
      omega
  have hle : 2 * q + 1 ≤ (n + 1) / 2 := by
    rw [hstride]
    exact Nat.le_mul_of_pos_left _ (Nat.two_pow_pos j)
  refine ⟨2 * q, by omega, by omega, fun x => ?_⟩
  rw [reduce_of_lost h (fun a _ => hlost a) fun t ht => by simp [ht]]
  simp [show 0 ≠ 2 * q by omega]

/-- If the first stride is a power of two, the sum is complete. -/
theorem reduce_eq_sum (h : Complete n order) (hn : n ≠ 0) (hpow : ∃ k, (n + 1) / 2 = 2 ^ k) :
    reduce order n ((n + 1) / 2) s 0 = ∑ i ∈ Finset.range n, s i := by
  obtain ⟨k, hk⟩ := hpow
  rw [hk, reduce_two_pow h hn, Nat.min_eq_left (by omega)]

end TreeReduction

end Rllm
