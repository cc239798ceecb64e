import Rllm.Library.DoublyLinked
import Rllm.Library.Checked
import Rllm.Library.Tables
import Rllm.Library.Framing
import Rllm.Library.Tensor
import Rllm.Library.RowMajor
import Rllm.Library.Loops
import Rllm.Library.LossyUtf8
import Rllm.Library.Search
import Rllm.Library.Json
import Rllm.Library.FileNames
import Rllm.Library.Selection
import Rllm.Library.Scatter
import Rllm.Library.Regex
import Rllm.Library.Nucleus
import Rllm.Library.Ranking
import Rllm.Library.Pruning
import Rllm.Library.Rounding
import Rllm.Library.Codebook
import Rllm.Library.CausalLayers
import Rllm.Library.Softmax
import Rllm.Library.TreeReduction
import Rllm.Library.SlotStore
import Rllm.Core.Request
import Rllm.Cache.Prefix
import Rllm.Cache.BlockPool
import Rllm.Cache.FreeQueue
import Rllm.Cache.PoolInvariant
import Rllm.Cache.PoolRuns
import Rllm.Cache.HashChain
import Rllm.Cache.HashCoherence
import Rllm.Cache.Recency
import Rllm.Cache.Offload
import Rllm.Core.Config
import Rllm.Cache.Manager
import Rllm.Cache.ManagerInvariant
import Rllm.Cache.Accounting
import Rllm.Cache.ManagerRuns
import Rllm.Cache.RefCounts
import Rllm.Cache.PrefixLookup
import Rllm.Cache.Rollback
import Rllm.Scheduler.Queue
import Rllm.Scheduler.QueueRuns
import Rllm.Scheduler.Output
import Rllm.Scheduler.Scheduler
import Rllm.Scheduler.Partition
import Rllm.Scheduler.Moves
import Rllm.Scheduler.Invariant
import Rllm.Scheduler.Runs
import Rllm.Scheduler.Coverage
import Rllm.Scheduler.PrefixSound
import Rllm.Scheduler.Phases
import Rllm.Scheduler.Disjoint
import Rllm.Scheduler.Budget
import Rllm.Scheduler.PrefixClosed
import Rllm.Scheduler.Liveness
import Rllm.Scheduler.Registration
import Rllm.Scheduler.TableSources
import Rllm.Scheduler.CacheHistory
import Rllm.Scheduler.CacheSalt
import Rllm.Scheduler.Exclusive
import Rllm.Scheduler.Reports
import Rllm.Scheduler.QueueOrder
import Rllm.Scheduler.Inversion
import Rllm.Scheduler.Selection
import Rllm.Scheduler.Readmission
import Rllm.Sampling.Constraint
import Rllm.Sampling.Repetition
import Rllm.Sampling.Sampler
import Rllm.Sampling.Logits
import Rllm.Sampling.Processors
import Rllm.Sampling.Exact
import Rllm.Sampling.TopK
import Rllm.Sampling.TopP
import Rllm.Sampling.Truncation
import Rllm.Sampling.Masks
import Rllm.Sampling.BeamSearch
import Rllm.Sampling.BeamRuns
import Rllm.Sampling.BeamPruning
import Rllm.Sampling.BeamExhaustive
import Rllm.Worker.ModelRunner
import Rllm.Worker.Batch
import Rllm.Worker.AttentionMetadata
import Rllm.Executor.UniProc
import Rllm.Executor.Effects
import Rllm.Executor.Speculative
import Rllm.Executor.Suppression
import Rllm.Executor.Solo
import Rllm.Executor.MultiProc
import Rllm.Executor.Panics
import Rllm.Executor.Structured
import Rllm.Executor.Bitmask
import Rllm.Engine.EngineCore
import Rllm.Engine.Runs
import Rllm.Engine.Replies
import Rllm.Engine.Emission
import Rllm.Engine.LLMEngine
import Rllm.Engine.Lockstep
import Rllm.Engine.Executable
import Rllm.Engine.MinTokens
import Rllm.Engine.Reproducible
import Rllm.Engine.ComputedKV
import Rllm.Engine.Containment
import Rllm.Engine.Release
import Rllm.Engine.Bookkeeping
import Rllm.Engine.Prefill
import Rllm.Engine.PrefixHits
import Rllm.Engine.WriteExclusive
import Rllm.Engine.AsyncEngine
import Rllm.Kernels.Attention
import Rllm.Kernels.Layout
import Rllm.Kernels.Metadata
import Rllm.Kernels.Paged
import Rllm.Kernels.Batch
import Rllm.Model.Gptq
import Rllm.Model.Awq
import Rllm.Model.GptqQuantizer
import Rllm.Model.Routing
import Rllm.Model.BlockFp8
import Rllm.Model.Dispatch
import Rllm.Model.Loader
import Rllm.Model.HfConfig
import Rllm.Model.GgufConfig
import Rllm.Kernels.DeepseekV3
import Rllm.Kernels.Int4
import Rllm.Model.Layers
import Rllm.Model.Mixtures
import Rllm.Model.Decoder
import Rllm.Model.Llama
import Rllm.Model.Deepseek
import Rllm.Kernels.DeviceCache
import Rllm.Kernels.PagedCuda
import Rllm.Model.Paged
import Rllm.Model.PagedRuns
import Rllm.Quant.Fp4
import Rllm.Quant.Fp4Runs
import Rllm.Quant.Int8
import Rllm.Tokenizer.Detokenizer
import Rllm.Tokenizer.Incremental
import Rllm.Tokenizer.Cuts
import Rllm.Tokenizer.Streams
import Rllm.Server.OpenAI
import Rllm.Server.Streaming
import Rllm.Server.StopStrings
import Rllm.Server.ToolCalls
