import InkFuse.Algebra.Join
import InkFuse.Runtime.HashTables

/-!
The plan of an aggregation, as `Aggregation::plan` builds it, and the suboperators that
`Aggregation::decay` attaches in front of the hash table source, executed row by row. The
plan fixes the layout of a slot: the key, a gap, and the aggregate state in granules.
-/

namespace InkFuse.Algebra

open Bytes Codegen InkFuse.Runtime

structure IU where
  address : ℕ
  type : IRType
  deriving DecidableEq, Repr

abbrev Row := IU → Bytes

/-- The virtual functions of an aggregate state. `updateState` maps the stored bits and the
bits of the aggregated value to the new bits. All states start with zeroed memory. -/
structure AggState where
  id : String
  getStateSize : ℕ
  updateState : ℕ → ℕ → ℕ

def typeId : IRType → String
  | .signedInt size => "I" ++ toString size
  | .unsignedInt size => "UI" ++ toString size
  | .float size => "F" ++ toString size
  | .bool => "Bool"
  | .char => "Char"
  | .string => "String"
  | .date => "Date"
  | .void => "Void"
  | .byteArray _ => "ByteArray"
  | .pointer pointedTo => "Ptr_" ++ typeId pointedTo

def AggStateCount : AggState where
  id := "agg_state_count"
  getStateSize := 8
  updateState := fun state _ => 1 + state

/-- `floatAdd` adds floating-point numbers of a size, given by their bits. -/
def AggStateSum (floatAdd : ℕ → ℕ → ℕ → ℕ) (type : IRType) : AggState where
  id := "agg_state_sum_" ++ typeId type
  getStateSize := type.numBytes
  updateState := fun state value =>
    match type with
    | .float size => floatAdd size value state
    | _ => value + state

namespace AggregateFunctions

inductive Opcode
  | min
  | max
  | sum
  | count
  | avg
  | median
  deriving DecidableEq, Repr

structure Description where
  aggIu : IU
  code : Opcode
  distinct : Bool

def lookupSubops (floatAdd : ℕ → ℕ → ℕ → ℕ) (description : Description) :
    Except Fault (List AggState) :=
  if description.distinct then
    .error .runtimeError
  else
    match description.code with
    | .count => .ok [AggStateCount]
    | .sum => .ok [AggStateSum floatAdd description.aggIu.type]
    | .avg => .ok [AggStateSum floatAdd description.aggIu.type, AggStateCount]
    | .min | .max | .median => .error .runtimeError

end AggregateFunctions

open AggregateFunctions

structure Granule where
  aggIu : IU
  aggState : AggState

namespace Granule

/-- The order of `std::set<GranuleDescription, std::greater<>>`: state size, IU and id,
the largest first. -/
def precedes (g h : Granule) : Bool :=
  h.aggState.getStateSize < g.aggState.getStateSize ||
    (h.aggState.getStateSize == g.aggState.getStateSize &&
      (h.aggIu.address < g.aggIu.address ||
        (h.aggIu.address == g.aggIu.address && h.aggState.id < g.aggState.id)))

/-- Insert a granule into the ordered list. Of equal granules the last one stays. -/
def insert (g : Granule) : List Granule → List Granule
  | [] => [g]
  | h :: rest =>
    if g.precedes h then g :: h :: rest
    else if h.precedes g then h :: insert g rest
    else g :: rest

def stateSize (g : Granule) : ℕ := g.aggState.getStateSize

end Granule

/-- The members of `Aggregation` that `plan` computes and `decay` reads. -/
structure Aggregation where
  groupBy : List IU
  granules : List Granule
  keySize : ℕ
  payloadOffset : ℕ
  payloadSize : ℕ
  requiresComplexHt : Bool

namespace Aggregation

/-- Advance the offset of the payload behind the key in steps of one state. A step of zero
bytes never gets there. -/
def skipKey (keySize step : ℕ) : ℕ → ℕ → Except Fault ℕ
  | 0, _ => .error .diverges
  | fuel + 1, offset =>
    if offset < keySize then skipKey keySize step fuel (offset + step) else .ok offset

def toCompute (floatAdd : ℕ → ℕ → ℕ → ℕ) (description : List Description) :
    Except Fault (List Granule) :=
  description.foldlM (fun granules func => do
    let states ← lookupSubops floatAdd func
    .ok (states.foldl (fun granules state => Granule.insert ⟨func.aggIu, state⟩ granules) granules))
    []

/-- The state size is taken at the end of the ordered granules, where the smallest one is. -/
def plan (floatAdd : ℕ → ℕ → ℕ → ℕ) (groupBy : List IU) (description : List Description) :
    Except Fault Aggregation := do
  let keySize := (groupBy.map fun key => key.type.numBytes).sum
  let granules ← toCompute floatAdd description
  match granules.getLast? with
  | none => .error .outOfBounds
  | some last => do
    let start ← skipKey keySize last.stateSize (keySize + 1) 0
    .ok {
      groupBy := groupBy
      granules := granules
      keySize := keySize
      payloadOffset := start - keySize
      payloadSize := start - keySize + (granules.map Granule.stateSize).sum
      requiresComplexHt := groupBy.map IU.type == [.string]
    }

end Aggregation

/-- The suboperators of the pipeline that aggregates. The scratch pad is allocated in the
preamble of the generated function. The key of the lookup is an IU or the scratch pad. -/
inductive AggSubop
  | keyPacker (toPack : IU) (offset : ℕ)
  | htLookupOrInsert (key : Option IU)
  | htNoKeyLookup
  | aggregator (aggState : AggState) (aggIu : IU) (offset : ℕ)

namespace Aggregation

variable (agg : Aggregation)

/-- Pack the group-by columns, the offset running on by the size of each one. -/
def packers : List IU → ℕ → List AggSubop
  | [], _ => []
  | key :: rest, offset => .keyPacker key offset :: packers rest (offset + key.type.numBytes)

/-- Update the granules, which lie one behind the other. -/
def aggregators : List Granule → ℕ → List AggSubop
  | [], _ => []
  | g :: rest, offset =>
    .aggregator g.aggState g.aggIu offset :: aggregators rest (offset + g.stateSize)

/-- Step 1: pack the aggregation key, if it needs to be packed. -/
def packKey : List AggSubop :=
  match agg.groupBy with
  | [_] => []
  | keys => packers keys 0

/-- Step 2: lookup or insert the key in the aggregation hash table. -/
def lookupKey : AggSubop :=
  if agg.keySize = 0 then .htNoKeyLookup
  else
    match agg.groupBy with
    | [key] => .htLookupOrInsert (some key)
    | _ => .htLookupOrInsert none

/-- Step 3: update the aggregation state. -/
def updateGranules : List AggSubop := aggregators agg.granules (agg.keySize + agg.payloadOffset)

def subops : List AggSubop := agg.packKey ++ agg.lookupKey :: agg.updateGranules

end Aggregation

section Execution

/-- The hash table of a thread, the scratch pad, and the pointer that the last lookup returned. -/
structure AggFrame where
  table : SharedHashTableState
  scratch : Bytes
  pointer : ℕ

variable {κ : Type} (A : KeyAccess κ) (readKey : Bytes → κ)

/-- One suboperator on one row. `readKey` is what the table reads through the key pointer. -/
def AggSubop.exec (row : Row) (f : AggFrame) : AggSubop → Except Fault AggFrame
  | .keyPacker toPack offset =>
    if packingOffset offset + (row toPack).length ≤ f.scratch.length then
      .ok { f with scratch := writeAt f.scratch (packingOffset offset) (row toPack) }
    else
      .error .outOfBounds
  | .htLookupOrInsert key => do
    let keyBytes := match key with
      | some iu => row iu
      | none => f.scratch
    let result ← f.table.lookupOrInsert A (readKey keyBytes)
    .ok { f with table := result.table, pointer := result.slot }
  | .htNoKeyLookup =>
    let result := f.table.lookupOrInsertSingleKey
    .ok { f with table := result.1, pointer := result.2 }
  | .aggregator aggState aggIu offset => do
    let offset := packingOffset offset
    let state := readAt (f.table.data f.pointer) offset aggState.getStateSize
    let updated := aggState.updateState (decode state) (decode (row aggIu))
    let table ← f.table.copyTo f.pointer offset (encode aggState.getStateSize updated)
    .ok { f with table := table }

def execSubops (ops : List AggSubop) (f : AggFrame) (row : Row) : Except Fault AggFrame :=
  ops.foldlM (AggSubop.exec A readKey row) f

namespace Aggregation

variable (agg : Aggregation)

/-- Allocate the scratch pad for packed keys. The limit is that of compiled execution with
assertions. -/
def scratchPad : Except Fault Bytes :=
  match agg.groupBy with
  | [_] => .ok []
  | _ =>
    if agg.keySize < memoryRegionSize then .ok (List.replicate agg.keySize 0)
    else .error .outOfBounds

def runWith (created : Except Fault SharedHashTableState) (rows : List Row) :
    Except Fault SharedHashTableState := do
  let table ← created
  let scratch ← agg.scratchPad
  let frame ← rows.foldlM (execSubops A readKey agg.subops) ⟨table, scratch, 0⟩
  .ok frame.table

/-- The pointer that a string table finds behind the key pointer. -/
def readPointer (key : Bytes) : UInt64 := UInt64.ofNat (decode key)

/-- The hash table that one thread fills. Every table starts with eight slots. -/
def run (hash : Bytes → UInt64) (text : UInt64 → Bytes) (rows : List Row) :
    Except Fault SharedHashTableState :=
  if agg.requiresComplexHt then
    agg.runWith (complexKey hash text) readPointer
      (HashTableComplexKey.create 0 1 agg.payloadSize 8) rows
  else
    agg.runWith (simpleKey hash agg.keySize) id
      (HashTableSimpleKey.create agg.keySize agg.payloadSize 8) rows

end Aggregation

end Execution

end InkFuse.Algebra
