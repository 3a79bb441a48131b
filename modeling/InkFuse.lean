import InkFuse.Exec.RerunMorsel
import InkFuse.Runtime.AtomicDisable
import InkFuse.Algebra.PkJoin
import InkFuse.Algebra.OuterJoin
import InkFuse.Algebra.Grouping
import InkFuse.Algebra.LayoutConsistency
import InkFuse.Exec.RuntimeTasks
import InkFuse.Exec.HybridMorsels
import InkFuse.Exec.HybridSwitch
import InkFuse.Algebra.Continuations
import InkFuse.Algebra.Repipe
import InkFuse.Algebra.RepipedCode
import InkFuse.Exec.RofSafety
import InkFuse.Algebra.CodegenProtocol
import InkFuse.C.Parsing
import InkFuse.C.Parentheses
import InkFuse.Codegen.Expression
import InkFuse.Codegen.StringLists
import InkFuse.Storage.LoadRow
import InkFuse.Exec.RerunFrame
import InkFuse.Exec.TableMorsels
import InkFuse.Runtime.OuterMarking
import InkFuse.Runtime.MaterializedChunks
import InkFuse.Algebra.BuildWorkers
import InkFuse.Algebra.BuildShares
import InkFuse.Algebra.MaterializedInsert
import InkFuse.Algebra.BuildReturns
import InkFuse.Storage.StringColumn
import InkFuse.Storage.Dates
import InkFuse.Runtime.ProbesEnd
import InkFuse.Runtime.SlotAddresses
import InkFuse.Probing.Progress
import InkFuse.Runtime.DirectAgreement
import InkFuse.Runtime.FixedProbes
import InkFuse.Algebra.JoinTableSize
import InkFuse.Graph.PostOrder
import InkFuse.Algebra.ExpressionOp
import InkFuse.Algebra.ExpressionDecay
import InkFuse.Codegen.ExpressionText
import InkFuse.Codegen.ExpressionReads
import InkFuse.Float.Rounding
import InkFuse.C.Constants
import InkFuse.Codegen.BakedConstants
import InkFuse.Algebra.ParallelAggregation
import InkFuse.Algebra.FilterProtocol
import InkFuse.Algebra.FusedExecution
import InkFuse.Algebra.FragmentLayout
import InkFuse.Algebra.Interpretation
import InkFuse.Algebra.InterpretedColumns
