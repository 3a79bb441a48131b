import InkFuse.Algebra.Join

/-!
Relational operators and their decay into a DAG of pipelines. A suboperator is kept with
the runtime state it touches; its expressions and columns are left out. The state of a
hash table or of tuple materializers is the number of its slot in `runtime_state`.
-/

namespace InkFuse.Algebra

open Codegen

inductive Subop
  | tscanDriver
  | tscanIUProvider
  | expressionSubop
  | columnFilterScope
  | columnFilterLogic
  | scratchPadIUProvider
  /-- Packs into a tuple of these materializers, or into a scratch pad. -/
  | keyPacker (materializers : Option ℕ)
  | keyUnpacker
  | materializeTuple (materializers : ℕ)
  | htHashAndPrefetch (hashTable : ℕ)
  | htLookupWithHash (hashTable : ℕ)
  | htLookupOrInsert (hashTable : ℕ)
  | htNoKeyLookup (hashTable : ℕ)
  /-- Updates the aggregation state in a slot of this table. -/
  | aggregator (hashTable : ℕ)
  | aggReader
  | hashTableSource (hashTable : ℕ)
  | atomicHashTableSource (hashTable : ℕ)
  deriving DecidableEq, Repr

namespace Subop

def writes : Subop → Option ℕ
  | keyPacker materializers => materializers
  | materializeTuple materializers => some materializers
  | htLookupOrInsert hashTable => some hashTable
  | htNoKeyLookup hashTable => some hashTable
  | aggregator hashTable => some hashTable
  | _ => none

def probes : Subop → Option ℕ
  | htHashAndPrefetch hashTable => some hashTable
  | htLookupWithHash hashTable => some hashTable
  | hashTableSource hashTable => some hashTable
  | atomicHashTableSource hashTable => some hashTable
  | _ => none

end Subop

abbrev Pipeline := List Subop

/-- A task reads one state and produces one; for the merge of an aggregation it is the same
state with the tables of the threads and the merged tables. -/
structure RuntimeTask where
  afterPipe : ℕ
  reads : ℕ
  produces : ℕ
  deriving DecidableEq, Repr

/-- A continuation is a new pipeline with the number of suboperators that the current
pipeline had when it was attached. -/
structure PipelineDAG where
  pipelines : List Pipeline
  continuations : List (ℕ × Pipeline)
  runtimeTasks : List RuntimeTask
  runtimeState : ℕ

namespace PipelineDAG

def empty : PipelineDAG := ⟨[], [], [], 0⟩

variable (d : PipelineDAG)

def currentPipeline : Pipeline := d.pipelines.getLastD []

def attach (ops : List Subop) : PipelineDAG :=
  { d with pipelines := d.pipelines.dropLast ++ [d.currentPipeline ++ ops] }

/-- Append the continuations. Each one gets the suboperators that the last pipeline has
behind its index. -/
def flush : List Pipeline → List (ℕ × Pipeline) → List Pipeline
  | pipes, [] => pipes
  | pipes, (subopIdx, pipe) :: rest =>
    flush (pipes ++ [pipe ++ (pipes.getLastD []).drop subopIdx]) rest

def buildNewPipeline : PipelineDAG :=
  { d with pipelines := flush d.pipelines d.continuations ++ [[]], continuations := [] }

def attachContinuation (source : Subop) : PipelineDAG :=
  { d with continuations := d.continuations ++ [(d.currentPipeline.length, [source])] }

def addRuntimeTask (task : RuntimeTask) : PipelineDAG :=
  { d with runtimeTasks := d.runtimeTasks ++ [task] }

/-- Reserve slots of `runtime_state`; the first one is the old `runtimeState`. -/
def attachState (count : ℕ) : PipelineDAG := { d with runtimeState := d.runtimeState + count }

end PipelineDAG

/-- Operator trees. `ExpressionOp` and `Aggregation` decay all their children, and work on
the pipeline of the last one. -/
inductive RelAlgOp
  | tableScan (cols : ℕ)
  | expressionOp (nodes : ℕ) (child : RelAlgOp) (more : List RelAlgOp)
  | filter (redefined : ℕ) (child : RelAlgOp)
  | join (j : Join) (left right : RelAlgOp)
  | aggregation (groupBy : List IRType) (granules aggregates : ℕ) (child : RelAlgOp)
      (more : List RelAlgOp)

section Subops

def Join.buildSubops (j : Join) (mat : ℕ) : List Subop :=
  .materializeTuple mat :: j.fullRowLeft.map fun _ => .keyPacker (some mat)

def Join.lookupSubops (j : Join) (ht : ℕ) : List Subop :=
  .scratchPadIUProvider :: (j.fullRowRight.map fun _ => .keyPacker none) ++
    [.htHashAndPrefetch ht, .htLookupWithHash ht]

def Join.unpackSubops (j : Join) : List Subop :=
  [.columnFilterScope, .columnFilterLogic] ++
    (if j.type = .leftSemi then [] else [.columnFilterLogic]) ++
    (j.rowLeftOut ++ j.rowRightOut).map fun _ => .keyUnpacker

def aggregateSubops (groupBy : List IRType) (granules ht : ℕ) : List Subop :=
  (if groupBy.length = 1 then []
    else .scratchPadIUProvider :: groupBy.map fun _ => .keyPacker none) ++
  [if Join.sizeOf groupBy ≠ 0 then .htLookupOrInsert ht else .htNoKeyLookup ht] ++
  List.replicate granules (.aggregator ht)

def readSubops (groupBy : List IRType) (aggregates ht : ℕ) : List Subop :=
  .hashTableSource ht :: (groupBy.map fun _ => .keyUnpacker) ++ List.replicate aggregates .aggReader

end Subops

mutual

/-- `RelAlgOp::decay` -/
def RelAlgOp.decay : RelAlgOp → PipelineDAG → PipelineDAG
  | .tableScan cols, d =>
    d.buildNewPipeline.attach (.tscanDriver :: List.replicate cols .tscanIUProvider)
  | .expressionOp nodes child more, d =>
    (decayAll more (child.decay d)).attach (List.replicate nodes .expressionSubop)
  | .filter redefined child, d =>
    (child.decay d).attach (.columnFilterScope :: List.replicate redefined .columnFilterLogic)
  | .join j left right, d =>
    let mat := d.runtimeState
    let ht := d.runtimeState + 1
    let d := (left.decay (d.attachState 2)).attach (j.buildSubops mat)
    let d := d.addRuntimeTask ⟨d.pipelines.length - 1, mat, ht⟩
    let d := (right.decay d).attach (j.lookupSubops ht)
    let d := if j.type = .leftOuter then d.attachContinuation (.atomicHashTableSource ht) else d
    d.attach j.unpackSubops
  | .aggregation groupBy granules aggregates child more, d =>
    let d := decayAll more (child.decay d)
    let ht := d.runtimeState
    let d := (d.attachState 1).attach (aggregateSubops groupBy granules ht)
    let d := d.addRuntimeTask ⟨d.pipelines.length - 1, ht, ht⟩
    d.buildNewPipeline.attach (readSubops groupBy aggregates ht)

def decayAll : List RelAlgOp → PipelineDAG → PipelineDAG
  | [], d => d
  | op :: ops, d => decayAll ops (op.decay d)

end

mutual

/-- The pipeline that the operator leaves open has a continuation: it contains the probe
side of a left outer join. -/
def RelAlgOp.hasContinuation : RelAlgOp → Bool
  | .tableScan _ => false
  | .expressionOp _ child more => lastHasContinuation child.hasContinuation more
  | .filter _ child => child.hasContinuation
  | .join j _ right => j.type == .leftOuter || right.hasContinuation
  | .aggregation .. => false

def lastHasContinuation : Bool → List RelAlgOp → Bool
  | last, [] => last
  | _, op :: ops => lastHasContinuation op.hasContinuation ops

end

mutual

/-- No join materializes, and no aggregation aggregates, the rows of a pipeline with a
continuation. -/
def RelAlgOp.BreakersComplete : RelAlgOp → Prop
  | .tableScan _ => True
  | .expressionOp _ child more => child.BreakersComplete ∧ AllBreakersComplete more
  | .filter _ child => child.BreakersComplete
  | .join _ left right =>
    left.hasContinuation = false ∧ left.BreakersComplete ∧ right.BreakersComplete
  | .aggregation _ _ _ child more =>
    lastHasContinuation child.hasContinuation more = false ∧ child.BreakersComplete ∧
      AllBreakersComplete more

def AllBreakersComplete : List RelAlgOp → Prop
  | [] => True
  | op :: ops => op.BreakersComplete ∧ AllBreakersComplete ops

end

end InkFuse.Algebra
