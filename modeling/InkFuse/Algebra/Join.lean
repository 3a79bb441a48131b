import InkFuse.Codegen.Type
import InkFuse.Runtime.NewHashTables
import InkFuse.Runtime.TupleMaterializer

/-!
The suboperator plan of a primary-key join, as `Join::plan` and `Join::decayPkJoin` build
it, and its execution row by row. Values are kept as the bytes of their fixed-width
representation. The plan is data: every offset that the source computes while it attaches
suboperators is a number in it.
-/

namespace InkFuse.Algebra

open Bytes Codegen InkFuse.Runtime

inductive JoinType
  | inner
  | leftSemi
  | leftOuter
  deriving DecidableEq, Repr

/-- The information units of a join. Numbered ones belong to the columns of a list. -/
inductive JoinIU
  | keyLeft (i : ℕ)
  | payloadLeft (i : ℕ)
  | keyRight (i : ℕ)
  | payloadRight (i : ℕ)
  | lookupLeft
  | scratchPadRight
  | hashRight
  | lookupRight
  | filterPseudo
  | filteredBuild
  | filteredProbe
  | keyLeftOut (i : ℕ)
  | payloadLeftOut (i : ℕ)
  | keyRightOut (i : ℕ)
  | payloadRightOut (i : ℕ)
  deriving DecidableEq, Repr

/-- The suboperators of the plan. Pseudo IUs that only order packers before the probe are
left out: the plan is a list. -/
inductive JoinSubop
  | materializeTuple (pointerOut : JoinIU)
  | scratchPadIUProvider (provided : JoinIU) (size : ℕ)
  | keyPacker (toPack compoundKey : JoinIU) (offset : ℕ)
  | keyUnpacker (compoundKey target : JoinIU) (width offset : ℕ)
  | htHashAndPrefetch (hash key : JoinIU)
  | htLookupWithHash (disableSlot : Bool) (pointers key hash : JoinIU)
  | columnFilterScope (filterIU pseudo : JoinIU)
  | columnFilterLogic (pseudo incoming redefined : JoinIU)
  deriving DecidableEq, Repr

structure Join where
  type : JoinType
  keysLeft : List IRType
  payloadLeft : List IRType
  keysRight : List IRType
  payloadRight : List IRType

namespace Join

variable (j : Join)

def sizeOf (types : List IRType) : ℕ := (types.map IRType.numBytes).sum

def keySizeLeft : ℕ := sizeOf j.keysLeft

def payloadSizeLeft : ℕ := sizeOf j.payloadLeft

def keySizeRight : ℕ := sizeOf j.keysRight

def payloadSizeRight : ℕ := sizeOf j.payloadRight

def columns (iu : ℕ → JoinIU) (types : List IRType) : List (JoinIU × IRType) :=
  types.zipIdx.map fun p => (iu p.2, p.1)

def fullRowLeft : List (JoinIU × IRType) :=
  columns .keyLeft j.keysLeft ++ columns .payloadLeft j.payloadLeft

def fullRowRight : List (JoinIU × IRType) :=
  columns .keyRight j.keysRight ++ columns .payloadRight j.payloadRight

def rowLeftOut : List (JoinIU × IRType) :=
  columns .keyLeftOut j.keysLeft ++ columns .payloadLeftOut j.payloadLeft

/-- A left semi join has no output from the probe side. -/
def rowRightOut : List (JoinIU × IRType) :=
  if j.type = .leftSemi then []
  else columns .keyRightOut j.keysRight ++ columns .payloadRightOut j.payloadRight

def outputIUs : List JoinIU := (j.rowLeftOut ++ j.rowRightOut).map Prod.fst

/-- Pack the columns of a row, the offset running on by the size of each one. -/
def packers (compoundKey : JoinIU) : List (JoinIU × IRType) → ℕ → List JoinSubop
  | [], _ => []
  | (iu, type) :: rest, offset =>
    .keyPacker iu compoundKey offset :: packers compoundKey rest (offset + type.numBytes)

def unpackers (compoundKey : JoinIU) : List (JoinIU × IRType) → ℕ → List JoinSubop
  | [], _ => []
  | (iu, type) :: rest, offset =>
    .keyUnpacker compoundKey iu type.numBytes offset ::
      unpackers compoundKey rest (offset + type.numBytes)

/-- Step 1: materialize a tuple and pack the entire left side into it. -/
def buildPipe : List JoinSubop :=
  .materializeTuple .lookupLeft :: packers .lookupLeft j.fullRowLeft 0

/-- Steps 2.1 and 2.2: pack the right side, hash it and look it up. -/
def probeLookup : List JoinSubop :=
  .scratchPadIUProvider .scratchPadRight (j.keySizeRight + j.payloadSizeRight) ::
    (packers .scratchPadRight j.fullRowRight 0 ++
      [.htHashAndPrefetch .hashRight .scratchPadRight,
        .htLookupWithHash (j.type == .leftSemi) .lookupRight .scratchPadRight .hashRight])

def probeFilter : List JoinSubop :=
  [.columnFilterScope .lookupRight .filterPseudo,
    .columnFilterLogic .filterPseudo .lookupRight .filteredBuild] ++
  if j.type = .leftSemi then []
  else [.columnFilterLogic .filterPseudo .scratchPadRight .filteredProbe]

def probeUnpack : List JoinSubop :=
  unpackers .filteredBuild j.rowLeftOut 0 ++ unpackers .filteredProbe j.rowRightOut 0

def probePipe : List JoinSubop := j.probeLookup ++ j.probeFilter ++ j.probeUnpack

end Join

section Execution

/-- What a pointer points to: the tuple being materialized, the scratch pad of the row, or
a slot of the hash table. -/
inductive Location
  | tuple
  | scratch
  | slot (i : ℕ)

inductive Value
  | bytes (b : Bytes)
  | word (w : UInt64)
  | null
  | pointer (l : Location)

/-- A row in a pipeline: the values of its IUs, and the memory it packs into. -/
structure JoinRow where
  iu : JoinIU → Option Value
  tuple : Bytes
  scratch : Bytes

namespace JoinRow

def set (r : JoinRow) (iu : JoinIU) (v : Value) : JoinRow :=
  { r with iu := Function.update r.iu iu (some v) }

def bytesAt (r : JoinRow) (table : AtomicHashTable) : Location → Bytes
  | .tuple => r.tuple
  | .scratch => r.scratch
  | .slot i => table.data i

def storeAt (table : AtomicHashTable) (r : JoinRow) :
    Location → Bytes → AtomicHashTable × JoinRow
  | .tuple, b => (table, { r with tuple := b })
  | .scratch, b => (table, { r with scratch := b })
  | .slot i, b => ({ table with data := Function.update table.data i b }, r)

end JoinRow

/-- `REGION_SIZE` of `inkfuse_malloc`, which asserts that an allocation is smaller. -/
def memoryRegionSize : ℕ := 8 * 512

/-- The offset of a packer is a runtime parameter of type `UI<2>`. -/
def packingOffset (offset : ℕ) : ℕ := offset % 2 ^ 16

open AtomicHashTable in
/-- One suboperator on one row. A filtered row has no successor. The limit of a scratch pad is that
of compiled execution with assertions. -/
def JoinSubop.exec (C : Comparator) (tupleSize : ℕ) (table : AtomicHashTable) (r : JoinRow) :
    JoinSubop → Except Fault (AtomicHashTable × Option JoinRow)
  | .materializeTuple pointerOut =>
    .ok (table, some { r.set pointerOut (.pointer .tuple) with
      tuple := List.replicate tupleSize 0 })
  | .scratchPadIUProvider provided size =>
    if size < memoryRegionSize then
      .ok (table, some { r.set provided (.pointer .scratch) with
        scratch := List.replicate size 0 })
    else
      .error .outOfBounds
  | .keyPacker toPack compoundKey offset =>
    match r.iu toPack, r.iu compoundKey with
    | some (.bytes b), some (.pointer l) =>
      let memory := r.bytesAt table l
      if packingOffset offset + b.length ≤ memory.length then
        let stored := JoinRow.storeAt table r l (writeAt memory (packingOffset offset) b)
        .ok (stored.1, some stored.2)
      else
        .error .outOfBounds
    | _, _ => .error .runtimeError
  | .keyUnpacker compoundKey target width offset =>
    match r.iu compoundKey with
    | some (.pointer l) =>
      if packingOffset offset + width ≤ (r.bytesAt table l).length then
        .ok (table, some (r.set target
          (.bytes (readAt (r.bytesAt table l) (packingOffset offset) width))))
      else
        .error .outOfBounds
    | _ => .error .runtimeError
  | .htHashAndPrefetch hash key =>
    match r.iu key with
    | some (.pointer l) => .ok (table, some (r.set hash (.word (C.hash (r.bytesAt table l)))))
    | _ => .error .runtimeError
  | .htLookupWithHash disableSlot pointers key hash =>
    match r.iu key, r.iu hash with
    | some (.pointer l), some (.word w) => do
      let (table, found) ←
        if disableSlot then table.lookupDisable C (r.bytesAt table l) w
        else do
          let found ← table.lookup C (r.bytesAt table l) w
          .ok (table, found)
      match found with
      | some i => .ok (table, some (r.set pointers (.pointer (.slot i))))
      | none => .ok (table, some (r.set pointers .null))
    | _, _ => .error .runtimeError
  | .columnFilterScope filterIU _ =>
    match r.iu filterIU with
    | some (.pointer _) => .ok (table, some r)
    | some .null => .ok (table, none)
    | _ => .error .runtimeError
  | .columnFilterLogic _ incoming redefined =>
    match r.iu incoming with
    | some v => .ok (table, some (r.set redefined v))
    | none => .error .runtimeError

def execRow (C : Comparator) (tupleSize : ℕ) :
    List JoinSubop → AtomicHashTable → JoinRow → Except Fault (AtomicHashTable × Option JoinRow)
  | [], table, r => .ok (table, some r)
  | op :: ops, table, r => do
    let (table, next) ← op.exec C tupleSize table r
    match next with
    | some r => execRow C tupleSize ops table r
    | none => .ok (table, none)

end Execution

end InkFuse.Algebra
