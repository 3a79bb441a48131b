import InkFuse.Bytes.LittleEndian
import InkFuse.Probing.Ring
import InkFuse.Probing.Scan
import InkFuse.Runtime.SlotTag
import Mathlib.Logic.Function.Basic

/-!
The hash table of the joins. It has a fixed number of slots, and a key comparator. Slots
are numbered, and a pointer into the table is the number of its slot. The operations
here run alone; inserts that race with each other are in `AtomicBuild`.
-/

namespace InkFuse.Runtime

open Bytes Probing

/-- Equality, hash and size of packed keys. The functions get a pointer to the first key
byte, which for a slot is the start of the slot. -/
structure Comparator where
  eq : Bytes → Bytes → Bool
  hash : Bytes → UInt64
  keySize : ℕ

/-- `SimpleKeyComparator` with `hash` in place of XXH3. -/
def simpleKeyComparator (hash : Bytes → UInt64) (keySize : ℕ) : Comparator where
  eq := fun k1 k2 => readAt k1 0 keySize == readAt k2 0 keySize
  hash := fun k => hash (readAt k 0 keySize)
  keySize := keySize

/-- `ComplexKeyComparator` for a single string; `text` gives the characters of a string
pointer before the terminating zero. -/
def complexKeyComparator (hash : Bytes → UInt64) (text : UInt64 → Bytes) : Comparator where
  eq := fun k1 k2 => text (UInt64.ofNat (decode (readAt k1 0 8))) ==
    text (UInt64.ofNat (decode (readAt k2 0 8)))
  hash := fun k => hash (text (UInt64.ofNat (decode (readAt k 0 8))))
  keySize := 8

theorem simpleKeyComparator_hash_eq {hash : Bytes → UInt64} {keySize : ℕ} (a b : Bytes)
    (h : (simpleKeyComparator hash keySize).eq a b = true) :
    (simpleKeyComparator hash keySize).hash a = (simpleKeyComparator hash keySize).hash b :=
  congrArg hash (beq_iff_eq.mp h)

structure AtomicHashTable where
  tags : ℕ → UInt8
  data : ℕ → Bytes
  numSlots : ℕ
  modMask : ℕ
  totalSlotSize : ℕ

namespace AtomicHashTable

/-- The constructor. Its first argument has type `uint16_t`. -/
def create (totalSlotSize numSlots : ℕ) : Except Fault AtomicHashTable :=
  if numSlots < 2 ∨ numSlots &&& (numSlots - 1) ≠ 0 then
    .error .runtimeError
  else
    .ok {
      tags := fun _ => 0
      data := fun _ => List.replicate (totalSlotSize % 2 ^ 16) 0
      numSlots := numSlots
      modMask := numSlots - 1
      totalSlotSize := totalSlotSize % 2 ^ 16
    }

def setTag (s : AtomicHashTable) (idx : ℕ) (tag : UInt8) : AtomicHashTable :=
  { s with tags := Function.update s.tags idx tag }

/-- `std::memcpy` of the row to its slot. -/
def copyRow (s : AtomicHashTable) (idx : ℕ) (row : Bytes) : AtomicHashTable :=
  let slot := writeAt (s.data idx) 0 (readAt row 0 s.totalSlotSize)
  { s with data := Function.update s.data idx slot }

/-- `itAdvance`: the next slot, with wrap-around. -/
def itAdvance (s : AtomicHashTable) (idx : ℕ) : ℕ := next (s.modMask + 1) idx

/-- Walk the ring from the home slot of a hash until `stop`, as the loops of the lookups do.
No more than `num_slots` slots are probed: a round without a stop has no exit. -/
def walk (s : AtomicHashTable) (hash : UInt64) (stop : ℕ → Bool) : Except Fault ℕ :=
  match probe (s.modMask + 1) stop (s.modMask + 1) (homeSlot s.modMask hash) with
  | some idx => .ok idx
  | none => .error .diverges

section Operations

variable (C : Comparator)

/-- The walk of `lookup` and `lookupDisable`: to the key or to the end of its chain. -/
def findKey (s : AtomicHashTable) (key : Bytes) (hash : UInt64) : Except Fault ℕ :=
  s.walk hash (fun idx =>
    s.tags idx &&& tagFillMask == 0 ||
      (s.tags idx == filledTag hash && C.eq key (s.data idx)))

def lookup (s : AtomicHashTable) (key : Bytes) (hash : UInt64) : Except Fault (Option ℕ) := do
  let slot ← s.findKey C key hash
  .ok (if s.tags slot &&& tagFillMask = 0 then none else some slot)

/-- Find the key and disable its slot: the inverted fingerprint hides it from later lookups,
and the chain stays intact. -/
def lookupDisable (s : AtomicHashTable) (key : Bytes) (hash : UInt64) :
    Except Fault (AtomicHashTable × Option ℕ) := do
  let slot ← s.findKey C key hash
  if s.tags slot &&& tagFillMask = 0 then
    .ok (s, none)
  else
    .ok (s.setTag slot (filledTag hash ^^^ fingerprintInversionMask), some slot)

end Operations

/-- The slots that the outer join iterator stops at: filled and not marked as matched. -/
def unmatched (s : AtomicHashTable) (idx : ℕ) : Bool :=
  s.tags idx &&& tagFillMask != 0 && s.tags idx &&& outerTagFillMask == 0

def iteratorStart (s : AtomicHashTable) : Option ℕ := scanStart s.unmatched (s.modMask + 1)

def iteratorAdvance (s : AtomicHashTable) (idx : ℕ) : Option ℕ :=
  scanNext s.unmatched (s.modMask + 1) idx

end AtomicHashTable

end InkFuse.Runtime
