import InkFuse.Bytes.LittleEndian
import InkFuse.Probing.Ring
import InkFuse.Probing.Scan
import InkFuse.Runtime.SlotTag
import Mathlib.Logic.Function.Basic

/-!
The growing hash tables of the aggregation. `HashTableSimpleKey` compares key bytes,
`HashTableComplexKey` follows a string pointer stored in the slot; everything else
is the same code. `KeyAccess` holds what the two variants do differently, and
the operations are written once over it.

Slots are numbered; a pointer into the table is the number of its slot. An access that
leaves its slot is an error. The sizes and counters are natural numbers, except for the
slot size, which the source keeps in sixteen bits.
-/

namespace InkFuse.Runtime

open Bytes Probing

/-- How a table variant treats keys of type `κ`: the hash of a searched key and of a key
stored in a slot, the comparison of a slot with a searched key, and the bytes that an
insert copies to the start of the slot. -/
structure KeyAccess (κ : Type) where
  hash : κ → UInt64
  slotHash : Bytes → UInt64
  slotMatches : Bytes → κ → Bool
  store : κ → Bytes

structure SharedHashTableState where
  tags : ℕ → UInt8
  data : ℕ → Bytes
  modMask : ℕ
  inserted : ℕ
  maxFill : ℕ
  totalSlotSize : ℕ

namespace SharedHashTableState

/-- The constructor. Its first argument has type `uint16_t`. -/
def create (totalSlotSize startSlots : ℕ) : Except Fault SharedHashTableState :=
  if startSlots < 2 ∨ startSlots &&& (startSlots - 1) ≠ 0 then
    .error .runtimeError
  else
    .ok {
      tags := fun _ => 0
      data := fun _ => List.replicate (totalSlotSize % 2 ^ 16) 0
      modMask := startSlots - 1
      inserted := 0
      maxFill := startSlots / 2
      totalSlotSize := totalSlotSize % 2 ^ 16
    }

def size (s : SharedHashTableState) : ℕ := s.inserted

def capacity (s : SharedHashTableState) : ℕ := s.modMask + 1

def setTag (s : SharedHashTableState) (idx : ℕ) (tag : UInt8) : SharedHashTableState :=
  { s with tags := Function.update s.tags idx tag }

def setData (s : SharedHashTableState) (idx : ℕ) (slot : Bytes) : SharedHashTableState :=
  { s with data := Function.update s.data idx slot }

/-- `std::memcpy` of `bs` to offset `off` of a slot. -/
def copyTo (s : SharedHashTableState) (idx off : ℕ) (bs : Bytes) :
    Except Fault SharedHashTableState :=
  if off + bs.length ≤ (s.data idx).length then
    .ok (s.setData idx (writeAt (s.data idx) off bs))
  else
    .error .outOfBounds

/-- Walk the ring from the home slot of a hash until `stop`. The table does not change
during the walk, so one round without a stop means that the loop has no exit. -/
def walk (s : SharedHashTableState) (hash : UInt64) (stop : ℕ → Bool) : Except Fault ℕ :=
  match probe (s.modMask + 1) stop (s.modMask + 1) (homeSlot s.modMask hash) with
  | some idx => .ok idx
  | none => .error .diverges

section Operations

variable {κ : Type} (A : KeyAccess κ)

def findSlotOrEmpty (s : SharedHashTableState) (hash : UInt64) (key : κ) : Except Fault ℕ :=
  let targetTag := tagHashMask &&& topByte hash
  s.walk hash (fun idx =>
    s.tags idx &&& tagFillMask == 0 ||
      (s.tags idx &&& tagHashMask == targetTag && A.slotMatches (s.data idx) key))

def findFirstEmptySlot (s : SharedHashTableState) (hash : UInt64) : Except Fault ℕ :=
  s.walk hash (fun idx => s.tags idx == 0)

/-- One iteration of the copy loop of `reserveSlot`. -/
def moveSlot (old s : SharedHashTableState) (idx : ℕ) : Except Fault SharedHashTableState :=
  if old.tags idx = 0 then
    .ok s
  else do
    let slot ← s.findFirstEmptySlot (A.slotHash (old.data idx))
    .ok ((s.setTag slot (old.tags idx)).setData slot (old.data idx))

/-- Make room for one more slot. The flag says whether the table was doubled; the source
sets the restart flag of the execution context in this case. -/
def reserveSlot (s : SharedHashTableState) : Except Fault (SharedHashTableState × Bool) :=
  if s.inserted < s.maxFill then
    .ok (s, false)
  else do
    let fresh ← create s.totalSlotSize (2 * (s.modMask + 1))
    let moved ← (List.range (s.modMask + 1)).foldlM (moveSlot A s) fresh
    .ok ({ moved with inserted := s.inserted }, true)

/-- Tag a free slot and copy the key to its start. -/
def initSlot (s : SharedHashTableState) (idx : ℕ) (hash : UInt64) (key : κ) :
    Except Fault SharedHashTableState := do
  let s ← (s.setTag idx (filledTag hash)).copyTo idx 0 (A.store key)
  .ok { s with inserted := s.inserted + 1 }

def lookup (s : SharedHashTableState) (key : κ) : Except Fault (Option ℕ) := do
  let slot ← s.findSlotOrEmpty A (A.hash key) key
  .ok (if s.tags slot &&& tagFillMask ≠ 0 then some slot else none)

/-- `HashTableSimpleKey::lookupDisable`: invert the fingerprint of the slot at which the search
has ended. -/
def lookupDisable (s : SharedHashTableState) (key : κ) :
    Except Fault (SharedHashTableState × Option ℕ) := do
  let slot ← s.findSlotOrEmpty A (A.hash key) key
  let tagBefore := s.tags slot
  .ok (s.setTag slot (tagBefore ^^^ fingerprintInversionMask),
    if tagBefore &&& tagFillMask ≠ 0 then some slot else none)

/-- The result of `lookupOrInsert`: the table, the slot, `is_new_key`, and whether the
table was doubled. -/
structure Inserted where
  table : SharedHashTableState
  slot : ℕ
  isNewKey : Bool
  grown : Bool

def lookupOrInsert (s : SharedHashTableState) (key : κ) : Except Fault Inserted := do
  let (s, grown) ← s.reserveSlot A
  let slot ← s.findSlotOrEmpty A (A.hash key) key
  if s.tags slot = 0 then
    let s ← s.initSlot A slot (A.hash key) key
    .ok ⟨s, slot, true, grown⟩
  else
    .ok ⟨s, slot, false, grown⟩

/-- `HashTableSimpleKey::insert`, to be called with an absent key only. -/
def insert (s : SharedHashTableState) (key : κ) : Except Fault Inserted := do
  let (s, grown) ← s.reserveSlot A
  let slot ← s.walk (A.hash key) (fun idx => s.tags idx &&& tagFillMask == 0)
  let s ← s.initSlot A slot (A.hash key) key
  .ok ⟨s, slot, true, grown⟩

end Operations

/-- `HashTableSimpleKey::lookupOrInsertSingleKey`: the first slot, which is tagged when it is
used for the first time. -/
def lookupOrInsertSingleKey (s : SharedHashTableState) : SharedHashTableState × ℕ :=
  if s.tags 0 = 0 then
    ({ s.setTag 0 tagFillMask with inserted := s.inserted + 1 }, 0)
  else
    (s, 0)

def filled (s : SharedHashTableState) (idx : ℕ) : Bool := s.tags idx &&& tagFillMask != 0

def iteratorStart (s : SharedHashTableState) : Option ℕ := scanStart s.filled (s.modMask + 1)

def iteratorAdvance (s : SharedHashTableState) (idx : ℕ) : Option ℕ :=
  scanNext s.filled (s.modMask + 1) idx

/-- The slots that an iterator still visits, and what is stored in them. -/
def iterate (s : SharedHashTableState) (it : Option ℕ) : List Bytes :=
  (follow s.filled (s.modMask + 1) (s.modMask + 1) it).map s.data

end SharedHashTableState

/-- `HashTableSimpleKey`: keys are compared with `memcmp`. -/
def simpleKey (hash : Bytes → UInt64) (keySize : ℕ) : KeyAccess Bytes where
  hash := fun key => hash (readAt key 0 keySize)
  slotHash := fun slot => hash (readAt slot 0 keySize)
  slotMatches := fun slot key => readAt slot 0 keySize == readAt key 0 keySize
  store := fun key => readAt key 0 keySize

def slotPointer (slot : Bytes) : UInt64 := UInt64.ofNat (decode (readAt slot 0 8))

/-- `HashTableComplexKey`: a key is a pointer to a string, `text` gives the characters before
the terminating zero. Strings are compared with `strcmp`. -/
def complexKey (hash : Bytes → UInt64) (text : UInt64 → Bytes) : KeyAccess UInt64 where
  hash := fun key => hash (text key)
  slotHash := fun slot => hash (text (slotPointer slot))
  slotMatches := fun slot key => slotPointer slot != 0 && text (slotPointer slot) == text key
  store := fun key => encode 8 key.toNat

/-- The constructor of `HashTableSimpleKey`. A table with an empty key holds one slot at most. -/
def HashTableSimpleKey.create (keySize payloadSize startSlots : ℕ) :
    Except Fault SharedHashTableState := do
  let state ← SharedHashTableState.create (keySize + payloadSize) startSlots
  if keySize = 0 then
    SharedHashTableState.create (keySize + payloadSize) 4
  else
    .ok state

/-- The constructor of `HashTableComplexKey`, which supports a single string only. -/
def HashTableComplexKey.create (simpleKeySize complexKeySlots payloadSize startSlots : ℕ) :
    Except Fault SharedHashTableState := do
  let state ← SharedHashTableState.create
    (simpleKeySize + 8 * complexKeySlots + payloadSize) startSlots
  if simpleKeySize ≠ 0 ∨ complexKeySlots ≠ 1 then
    .error .runtimeError
  else
    .ok state

end InkFuse.Runtime
