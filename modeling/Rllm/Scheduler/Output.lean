import Mathlib.Data.List.AList
import Rllm.Core.Request

/-! # The output of a scheduling step -/

namespace Rllm

structure SchedulerStats where
  numWaiting : ℕ := 0
  numRunning : ℕ := 0
  numFinished : ℕ := 0
  totalPreemptions : ℕ := 0
  prefillTokens : ℕ := 0
  decodeTokens : ℕ := 0
  deriving DecidableEq, Repr

structure SchedulerOutput where
  /-- Requests scheduled for prefill. -/
  scheduledNew : List RequestId := []
  /-- Requests whose whole prompt came from the prefix cache. -/
  scheduledCached : List RequestId := []
  /-- Requests scheduled for decode. -/
  scheduledRunning : List RequestId := []
  numScheduledTokens : AList fun _ : RequestId => ℕ := ∅
  blockTables : AList fun _ : RequestId => List BlockId := ∅
  tokenBudgetUsed : ℕ := 0
  preempted : List RequestId := []
  finished : List RequestId := []
  stats : SchedulerStats := {}

def SchedulerOutput.numScheduled (o : SchedulerOutput) : ℕ :=
  o.scheduledNew.length + o.scheduledCached.length + o.scheduledRunning.length

end Rllm
