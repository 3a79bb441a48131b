import InkFuse.Algebra.Aggregation
import Mathlib.Data.Nat.Size

/-!
The merge of the hash tables of all threads into tables without duplicates. Thread `k`
merges the keys whose hash is `k` modulo the number of threads. A pointer into a merge
table is a slot with the generation of the storage it belongs to: when the table
grows, the storage is replaced, and an access through an older pointer is one to freed storage.
-/

namespace InkFuse.Algebra

open Bytes Codegen Probing InkFuse.Runtime SharedHashTableState

section Sizing

/-- Round to the nearest double: 53 significant bits, ties to even. -/
def roundDouble (n : ℕ) : ℕ :=
  if n < 2 ^ 53 then n
  else
    let ulp := 2 ^ (n.size - 53)
    let q := n / ulp
    let r := n % ulp
    (if ulp < 2 * r ∨ (2 * r = ulp ∧ q % 2 = 1) then q + 1 else q) * ulp

/-- `1.2 * 2 * std::max(8, total_keys / thread_count)`, truncated to an integer. The double
`1.2` is this numerator over `2 ^ 52`. -/
def perThread (totalKeys threadCount : ℕ) : ℕ :=
  roundDouble (5404319552844595 * roundDouble (max 8 (totalKeys / threadCount))) / 2 ^ 51

/-- `1ull << (64 - __builtin_clzl(per_thread - 1))` -/
def slotsPerMergeTable (totalKeys threadCount : ℕ) : ℕ :=
  2 ^ (perThread totalKeys threadCount - 1).size

end Sizing

section Merge

/-- A slot of a source table with the pointer to the slot of its key in the merge table. -/
structure MergePair where
  source : Bytes
  generation : ℕ
  slot : ℕ

structure MergeState where
  table : SharedHashTableState
  generation : ℕ
  pairs : List MergePair
  restartFlag : Bool

variable {κ : Type} (A : KeyAccess κ) (slotKey : Bytes → κ)

def mergeSlot (totalThreads threadId : ℕ) (st : MergeState) (source : Bytes) :
    Except Fault MergeState :=
  if (A.slotHash source).toNat % totalThreads = threadId then do
    let result ← st.table.lookupOrInsert A (slotKey source)
    let generation := if result.grown then st.generation + 1 else st.generation
    .ok {
      table := result.table
      generation := generation
      pairs := st.pairs ++ [⟨source, generation, result.slot⟩]
      restartFlag := st.restartFlag || result.grown
    }
  else
    .ok st

/-- The rounds of the loop over a source table. The iterator is not started again after the
first round, so that a further one visits no slot. -/
def mergeKeys (totalThreads threadId : ℕ) (src : SharedHashTableState) :
    ℕ → Option ℕ → MergeState → Except Fault MergeState
  | 0, _, _ => .error .diverges
  | fuel + 1, it, st => do
    let st ← (src.iterate it).foldlM (mergeSlot A slotKey totalThreads threadId)
      { st with restartFlag := false }
    if st.restartFlag then mergeKeys totalThreads threadId src fuel none st else .ok st

/-- The width of the merge primitive and its addition. The type of the aggregated IU comes
first, also for counts. -/
def mergePrimitive (floatAdd : ℕ → ℕ → ℕ → ℕ) (g : Granule) : Except Fault (ℕ × (ℕ → ℕ → ℕ)) :=
  match g.aggIu.type with
  | .unsignedInt 4 => .ok (4, (· + ·))
  | .unsignedInt 8 => .ok (8, (· + ·))
  | .signedInt 4 => .ok (4, (· + ·))
  | .signedInt 8 => .ok (8, (· + ·))
  | .float 4 => .ok (4, floatAdd 4)
  | .float 8 => .ok (8, floatAdd 8)
  | _ => if g.aggState.id = "agg_state_count" then .ok (8, (· + ·)) else .error .runtimeError

/-- One iteration of `mergeSum`. The first component is the generation of the storage. -/
def mergePair (generation width : ℕ) (add : ℕ → ℕ → ℕ) (offset : ℕ)
    (table : SharedHashTableState) (pair : MergePair) : Except Fault SharedHashTableState :=
  if pair.generation = generation then
    if offset + width ≤ pair.source.length then
      let src := decode (readAt pair.source offset width)
      let dest := decode (readAt (table.data pair.slot) offset width)
      table.copyTo pair.slot offset (encode width (add dest src))
    else
      .error .outOfBounds
  else
    .error .useAfterFree

/-- Granules with their offsets, one behind the other. -/
def placed : List Granule → ℕ → List (Granule × ℕ)
  | [], _ => []
  | g :: rest, offset => (g, offset) :: placed rest (offset + g.stateSize)

def mergeGranules (floatAdd : ℕ → ℕ → ℕ → ℕ) (st : MergeState) (granules : List (Granule × ℕ)) :
    Except Fault SharedHashTableState :=
  granules.foldlM (fun table granule => do
    let primitive ← mergePrimitive floatAdd granule.1
    st.pairs.foldlM (mergePair st.generation primitive.1 primitive.2 granule.2) table) st.table

variable (floatAdd : ℕ → ℕ → ℕ → ℕ) (agg : Aggregation)

/-- `AggregationMerger::mergeSingleTable` -/
def mergeSingleTable (totalThreads threadId : ℕ) (target src : SharedHashTableState) :
    Except Fault SharedHashTableState := do
  let st ← mergeKeys A slotKey totalThreads threadId src 2 src.iteratorStart ⟨target, 0, [], false⟩
  mergeGranules floatAdd st (placed agg.granules (agg.keySize + agg.payloadOffset))

/-- `AggregationMerger::mergeTables` -/
def mergeTables (preMerge : List SharedHashTableState) (totalThreads : ℕ)
    (merged : ℕ → SharedHashTableState) (threadId : ℕ) :
    Except Fault (ℕ → SharedHashTableState) := do
  let table ← preMerge.foldlM (mergeSingleTable A slotKey floatAdd agg totalThreads threadId)
    (merged threadId)
  .ok (Function.update merged threadId table)

/-- The runtime task of an aggregation: `prepareState`, which builds one table for each thread,
and `mergeTables` for the thread ids in some order. With one thread nothing is merged. -/
def runMerge (preMerge : List SharedHashTableState) (created : Except Fault SharedHashTableState)
    (totalThreads : ℕ) (order : List ℕ) : Except Fault (ℕ → SharedHashTableState) := do
  let table ← created
  order.foldlM (mergeTables A slotKey floatAdd agg preMerge totalThreads) fun _ => table

end Merge

/-- `HashTableSimpleKey::buildMergeTables`, one of the equal tables. -/
def buildSimpleMergeTable (keySize : ℕ) (preMerge : List SharedHashTableState) (threadCount : ℕ) :
    Except Fault SharedHashTableState :=
  match preMerge with
  | [] => .error .outOfBounds
  | original :: _ =>
    HashTableSimpleKey.create keySize (original.totalSlotSize - keySize)
      (slotsPerMergeTable (preMerge.map size).sum threadCount)

/-- `HashTableComplexKey::buildMergeTables`. The payload size of the original table is kept
beside its state. -/
def buildComplexMergeTable (payloadSize : ℕ) (preMerge : List SharedHashTableState)
    (threadCount : ℕ) : Except Fault SharedHashTableState :=
  match preMerge with
  | [] => .error .outOfBounds
  | _ :: _ =>
    HashTableComplexKey.create 0 1 payloadSize
      (slotsPerMergeTable (preMerge.map size).sum threadCount)

end InkFuse.Algebra
