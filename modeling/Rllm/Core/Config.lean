import Rllm.Cache.Prefix

/-! # Configuration

The settings that the scheduler, the cache manager and the runner read. They
never change while the engine runs, so they are parameters of the model.
-/

namespace Rllm

inductive SchedulingPolicy where
  | fcfs
  | priority
  deriving DecidableEq, Repr

structure SchedulerConfig where
  maxNumSeqs : ℕ
  maxNumScheduledTokens : ℕ
  longPrefillTokenThreshold : ℕ
  enableChunkedPrefill : Bool
  schedulingPolicy : SchedulingPolicy
  deriving DecidableEq, Repr

/-- A block size of zero is a division by zero at the first scheduled token. -/
structure CacheConfig where
  blockSize : ℕ
  blockSize_pos : 0 < blockSize
  enablePrefixCaching : Bool
  prefixHashAlgorithm : PrefixHashAlgorithm

/-- The arguments of `Scheduler::new`. -/
structure Config where
  scheduler : SchedulerConfig
  cache : CacheConfig
  numCacheBlocks : ℕ
  maxModelLen : ℕ

/-- `usize::div_ceil`. -/
def divCeil (n d : ℕ) : ℕ := (n + d - 1) / d

section DivCeil

variable {n m d : ℕ}

@[simp] theorem divCeil_zero (hd : 0 < d) : divCeil 0 d = 0 := by
  rw [divCeil, Nat.div_eq_of_lt]
  omega

theorem divCeil_le_iff (hd : 0 < d) : divCeil n d ≤ m ↔ n ≤ m * d := by
  have h : divCeil n d < m + 1 ↔ n + d - 1 < (m + 1) * d := Nat.div_lt_iff_lt_mul hd
  rw [Nat.add_mul, Nat.one_mul] at h
  omega

theorem le_divCeil_mul (hd : 0 < d) : n ≤ divCeil n d * d := (divCeil_le_iff hd).mp le_rfl

theorem divCeil_mono (hd : 0 < d) (h : n ≤ m) : divCeil n d ≤ divCeil m d :=
  (divCeil_le_iff hd).mpr (h.trans (le_divCeil_mul hd))

theorem divCeil_add_le (hd : 0 < d) : divCeil (n + m) d ≤ divCeil n d + divCeil m d := by
  rw [divCeil_le_iff hd, Nat.add_mul]
  exact Nat.add_le_add (le_divCeil_mul hd) (le_divCeil_mul hd)

theorem divCeil_mul_add (hd : 0 < d) (k : ℕ) : divCeil (k * d + n) d = k + divCeil n d := by
  rw [divCeil, divCeil, Nat.add_assoc, Nat.add_sub_assoc (by omega), Nat.mul_comm,
    Nat.mul_add_div hd]

theorem divCeil_pos (hd : 0 < d) (h : 0 < n) : 0 < divCeil n d :=
  Nat.div_pos (by omega) hd

theorem lt_divCeil_of_lt (hd : 0 < d) (h : m < n) : m / d < divCeil n d := by
  by_contra hc
  have hle := (divCeil_le_iff hd).mp (not_lt.mp hc)
  have := Nat.div_mul_le_self m d
  omega

end DivCeil

end Rllm
