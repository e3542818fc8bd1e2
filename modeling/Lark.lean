import Lark.Base.Double
import Lark.Base.Exn
import Lark.Base.Fold
import Lark.Base.Kahn
import Lark.Base.Run
import Lark.Base.Strings
import Lark.Base.Transition
import Lark.Base.Counting
import Lark.Base.Recency
import Lark.Base.Chunks
import Lark.Base.Splitting
import Lark.Base.Trie
import Lark.Toolkit.Dsl
import Lark.Toolkit.DslSyntax
import Lark.Toolkit.Str
import Lark.Metric.Profile
import Lark.Coro.AsyncEvent
import Lark.Coro.Future
import Lark.Coro.NodeExecutor
import Lark.Coro.Joining
import Lark.Coro.AllOf
import Lark.Coro.AnyOf
import Lark.Coro.Task
import Lark.Coro.Batch
import Lark.Coro.Pipeline
import Lark.Coro.ThreadPool
import Lark.Dag.OpGraph
import Lark.Dag.OpExecutor
import Lark.Dag.OpGraphBuilder
import Lark.Dag.ArrowDsl
import Lark.Dag.ArrowGraph
import Lark.Rpc.InProc
import Lark.Rpc.Ownership
import Lark.Cache.LocalCache
import Lark.Cache.Lru
import Lark.Cache.RemoteCache
import Lark.Column.Tensor
import Lark.Column.Quantization
import Lark.Column.BlockDot
import Lark.Column.TensorStore
import Lark.Column.Exec.Kernels
import Lark.Column.Exec.Ops
import Lark.Column.Exec.KernelValues
import Lark.Column.Exec.Conversions
import Lark.Column.Exec.ScalarOps
import Lark.Column.Exec.Reductions
import Lark.Column.Exec.Arity
import Lark.Column.Compute.Kernels
import Lark.Column.Storage
import Lark.Column.TableObject
import Lark.Column.FetchRows
import Lark.Column.FilterNode
import Lark.Column.Exec.ComputeGraph
import Lark.Column.Biz.Dsl
import Lark.Column.Biz.DslTokens
import Lark.Column.Biz.DslGrammar
import Lark.Column.Biz.DslSyntax
import Lark.Column.Biz.DslCorrect
import Lark.Column.Biz.DslSemantics
import Lark.Column.Biz.SelectCalls
import Lark.Column.Biz.FoldedColumns
import Lark.Column.Biz.Folding
import Lark.Column.Biz.SubGraph
import Lark.Column.Biz.DslNames
import Lark.Column.Biz.PipelineCompiler
import Lark.Column.Biz.Wiring
import Lark.Column.Biz.CompilerSim
import Lark.Column.Biz.CompilerRuns
import Lark.Column.Biz.Sites
import Lark.Column.Biz.CompilerSpec
import Lark.Column.Biz.Acceptance
import Lark.Column.Biz.DataFlow
import Lark.Column.Biz.ModuleOrder
import Lark.Column.Exec.Execution
import Lark.Column.Exec.Reservation
import Lark.Column.Biz.Schedule
import Lark.Column.Biz.PartialGraph
import Lark.Column.Biz.Provenance
import Lark.Column.Biz.Pipeline
import Lark.Column.Biz.DependsOn
import Lark.Column.Biz.Reuse
import Lark.Column.Biz.Fetching
import Lark.Base.Dfs
import Lark.Toolkit.Lexing
import Lark.Toolkit.Parsing
import Lark.Column.Biz.DslParens
import Lark.Column.Biz.DslTemps
import Lark.Column.Exec.GraphCalls
import Lark.Dag.GraphBuilder
import Lark.Dag.OpGraphRuns
import Lark.Dag.DslErrors
import Lark.Toolkit.Appending
import Lark.Column.Biz.DslAppend
import Lark.Column.Biz.Appends
import Lark.Coro.BatchRanges
import Lark.Coro.BatchReduce
import Lark.Coro.Context
import Lark.Cache.Lifetime
import Lark.Cache.Requests
import Lark.Metric.Snapshots
import Lark.Metric.TimeBounds
import Lark.Metric.Probe
import Lark.Dag.Contexts
import Lark.Toolkit.Replace
import Lark.Base.Memo
import Lark.Base.Strides
import Lark.Column.Monitor
import Lark.Column.Exec.NodeIds
import Lark.Column.Exec.NodeEvents
import Lark.Column.Biz.Roster
import Lark.Column.Biz.Monitored
import Lark.Column.Biz.TempNames
import Lark.Column.Compute.VectorLoops
import Lark.Dag.NodeEvents
import Lark.Dag.NodeStats
import Lark.Coro.Blocking
import Lark.Dag.OpEvents
import Lark.Dag.ArrowRuns
import Lark.Coro.Backpressure
import Lark.Dag.GraphRuns
import Lark.Coro.BatchElements
import Lark.Coro.BatchTransform
import Lark.Column.Graph
import Lark.Column.RowPipeline
import Lark.Base.Audit
import Lark.Base.PackedWrites
import Lark.Base.Rounding
import Lark.Cache.EventLog
import Lark.Column.Exec.Solutions
import Lark.Column.Biz.DslFlow
import Lark.Column.Biz.KeyedNodes
import Lark.Column.Biz.DslModules
import Lark.Column.Biz.DslFrame
import Lark.Column.Biz.ProgramRuns
import Lark.Column.Biz.ProgramRequests
