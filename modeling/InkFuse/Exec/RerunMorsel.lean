import InkFuse.Runtime.TableReachable

/-!
The interpreter of a suboperator that inserts into a growing table. A doubling frees the storage
that earlier pointers of the morsel point into; it sets the restart flag of the thread, and the
morsel runs again until no doubling happens.
-/

namespace InkFuse.Exec.Rerun

open InkFuse.Runtime

/-- A slot of one of the storages that the table has had. -/
structure Pointer where
  storage : ℕ
  slot : ℕ
  deriving DecidableEq, Repr

/-- A value of a column, of the type of its IU. -/
inductive Cell (κ : Type)
  | key (key : κ)
  | pointer (pointer : Pointer)

structure Column (κ : Type) where
  rawData : ℕ → Cell κ
  size : ℕ

/-- What the interpreted suboperators call on the table of the aggregation. -/
inductive RuntimeFunction
  | htInsert
  | htLookupOrInsert
  deriving DecidableEq, Repr

/-- `RuntimeFunctionSubop`. Pseudo IUs are inputs that are no arguments. -/
structure RuntimeFunctionSubop (IU : Type) where
  fct : RuntimeFunction
  pointers : Option IU
  key : IU
  pseudo : List IU

section Pipeline

variable {IU : Type} [DecidableEq IU]

/-- The suboperators of an interpreted pipeline. The IU of the loop is `none`. -/
inductive Subop (IU : Type)
  | fuseChunkSourceDriver
  | fuseChunkSourceIUProvider (iu : IU)
  | runtimeFunction (op : RuntimeFunctionSubop IU)
  | fuseChunkSink (iu : IU)

namespace Subop

def getSourceIUs : Subop IU → List (Option IU)
  | fuseChunkSourceDriver => []
  | fuseChunkSourceIUProvider _ => [none]
  | runtimeFunction op => some op.key :: op.pseudo.map some
  | fuseChunkSink iu => [some iu]

def getIUs : Subop IU → List (Option IU)
  | fuseChunkSourceDriver => [none]
  | fuseChunkSourceIUProvider iu => [some iu]
  | runtimeFunction op => op.pointers.toList.map some
  | fuseChunkSink _ => []

def isSink (op : Subop IU) : Bool := op.getIUs.isEmpty

end Subop

/-- The pipeline that `repipeAll` builds around the suboperator. IUs of type void have no columns,
so they are neither read nor written. -/
def getRepiped (isVoid : IU → Bool) (op : RuntimeFunctionSubop IU) : List (Subop IU) :=
  .fuseChunkSourceDriver ::
    (((op.key :: op.pseudo).eraseDups.filter fun iu => !isVoid iu).map .fuseChunkSourceIUProvider ++
    .runtimeFunction op ::
      (op.pointers.toList.filter fun iu => !isVoid iu).map .fuseChunkSink)

end Pipeline

/-- A thread with its chunk, its restart flag, and the state of the loop. -/
structure State (IU κ : Type) where
  table : SharedHashTableState
  storage : ℕ
  restartFlag : Bool
  chunk : IU → Option (Column κ)
  start : ℕ
  stop : ℕ

namespace State

variable {IU κ : Type} [DecidableEq IU]

/-- `getColumn` throws for an IU without a column. -/
def getColumn (st : State IU κ) (iu : IU) : Except Fault (Column κ) :=
  match st.chunk iu with
  | some column => .ok column
  | none => .error .runtimeError

def setColumn (st : State IU κ) (iu : IU) (column : Column κ) : State IU κ :=
  { st with chunk := Function.update st.chunk iu (some column) }

/-- The value of a row. Every column holds values of its type. -/
def readKey (st : State IU κ) (iu : IU) (row : ℕ) : Except Fault κ := do
  let column ← st.getColumn iu
  match column.rawData row with
  | .key key => .ok key
  | .pointer _ => .error .runtimeError

/-- `FuseChunkSink`: the size of the column is the position of the value. -/
def sink (st : State IU κ) (iu : IU) (cell : Cell κ) : Except Fault (State IU κ) := do
  let column ← st.getColumn iu
  .ok (st.setColumn iu
    ⟨Function.update column.rawData column.size cell, column.size + 1⟩)

end State

section Run

variable {IU κ : Type} [DecidableEq IU] (A : KeyAccess κ) (isVoid : IU → Bool)
  (op : RuntimeFunctionSubop IU)

def RuntimeFunction.call (fct : RuntimeFunction) (s : SharedHashTableState) (key : κ) :
    Except Fault SharedHashTableState.Inserted :=
  match fct with
  | htInsert => s.insert A key
  | htLookupOrInsert => s.lookupOrInsert A key

/-- The driver takes the size of the column of its first consumer. -/
def pickMorsel (st : State IU κ) : Except Fault (State IU κ) := do
  let column ← st.getColumn op.key
  .ok { st with start := 0, stop := column.size }

def runRow (st : State IU κ) (row : ℕ) : Except Fault (State IU κ) := do
  let key ← st.readKey op.key row
  let r ← op.fct.call A st.table key
  let st := { st with
    table := r.table
    storage := if r.grown then st.storage + 1 else st.storage
    restartFlag := st.restartFlag || r.grown }
  match op.pointers with
  | some iu => if isVoid iu then .ok st else st.sink iu (.pointer ⟨st.storage, r.slot⟩)
  | none => .ok st

/-- The generated loop over the rows of the morsel. -/
def runMorsel (st : State IU κ) : Except Fault (State IU κ) :=
  (List.range' st.start (st.stop - st.start)).foldlM (runRow A isVoid op) st

/-- Clear one of the columns that a sink reads. -/
def clearColumn (st : State IU κ) (iu : Option IU) : Except Fault (State IU κ) :=
  match iu with
  | some iu => do
    let column ← st.getColumn iu
    .ok (st.setColumn iu { column with size := 0 })
  | none => .error .runtimeError

def clearSink (st : State IU κ) (subop : Subop IU) : Except Fault (State IU κ) :=
  if subop.isSink then subop.getSourceIUs.foldlM clearColumn st else .ok st

def prepareForRerun (st : State IU κ) : Except Fault (State IU κ) :=
  (getRepiped isVoid op).foldlM clearSink st

/-- One iteration of the loop of `runMorselWithRetry`. -/
def rerun (st : State IU κ) : Except Fault (State IU κ) := do
  let st ← prepareForRerun isVoid op { st with restartFlag := false }
  runMorsel A isVoid op st

/-- The loop of `runMorselWithRetry`, with a bound on the number of its iterations. -/
def retryLoop : ℕ → State IU κ → Option (Except Fault (State IU κ))
  | 0, st => if st.restartFlag then none else some (.ok st)
  | fuel + 1, st =>
    if st.restartFlag then
      match rerun A isVoid op st with
      | .ok st => retryLoop fuel st
      | .error fault => some (.error fault)
    else some (.ok st)

def runMorselWithRetry (fuel : ℕ) (st : State IU κ) : Option (Except Fault (State IU κ)) :=
  match runMorsel A isVoid op st with
  | .ok st => retryLoop A isVoid op fuel st
  | .error fault => some (.error fault)

/-- An interpreter on its chunk: the source fixes the range of the rows first. -/
def runInterpreter (fuel : ℕ) (st : State IU κ) : Option (Except Fault (State IU κ)) :=
  match pickMorsel op st with
  | .ok st => runMorselWithRetry A isVoid op fuel st
  | .error fault => some (.error fault)

end Run

end InkFuse.Exec.Rerun
