import Mathlib.Tactic.Common

/-!
Slot tags of the hash tables. The highest bit says that a slot is filled, the
seven bits below hold the highest hash byte without its top bit. Outer joins use
one bit less of the hash and mark matched slots with the bit that becomes free.
-/

namespace InkFuse.Runtime

/-- The ways in which a call ends without a result: a loop with no exit, an access outside
the slot or allocation, an access to freed storage, a division by zero, or a thrown
`std::runtime_error`. -/
inductive Fault
  | diverges
  | outOfBounds
  | useAfterFree
  | divisionByZero
  | runtimeError
  deriving DecidableEq, Repr

def tagFillMask : UInt8 := (1 : UInt8) <<< 7

def fingerprintInversionMask : UInt8 := tagFillMask - 1

def tagHashMask : UInt8 := tagFillMask - 1

def outerTagFillMask : UInt8 := (1 : UInt8) <<< 6

def outerTagHashMask : UInt8 := outerTagFillMask - 1

/-- `static_cast<uint8_t>(hash >> 56ul)` -/
def topByte (hash : UInt64) : UInt8 := (hash >>> 56).toUInt8

/-- The tag of a filled slot, `tag_fill_mask | static_cast<uint8_t>(hash >> 56ul)`. -/
def filledTag (hash : UInt64) : UInt8 := tagFillMask ||| topByte hash

/-- The slot at which the chain of a hash starts, `hash & mod_mask`. -/
def homeSlot (modMask : ℕ) (hash : UInt64) : ℕ := hash.toNat &&& modMask

private theorem forall_uint8 {P : UInt8 → Prop} (h : ∀ b : BitVec 8, P (UInt8.ofBitVec b))
    (b : UInt8) : P b := h b.toBitVec

theorem fill_or_and_fill (b : UInt8) : (tagFillMask ||| b) &&& tagFillMask = tagFillMask := by
  revert b
  exact forall_uint8 (by decide)

theorem fill_or_and_hash (b : UInt8) : (tagFillMask ||| b) &&& tagHashMask = tagHashMask &&& b := by
  revert b
  exact forall_uint8 (by decide)

theorem fill_or_ne_zero (b : UInt8) : tagFillMask ||| b ≠ 0 := by
  revert b
  exact forall_uint8 (by decide)

theorem filledTag_ne_zero (hash : UInt64) : filledTag hash ≠ 0 := fill_or_ne_zero _

theorem filledTag_and_fill_ne_zero (hash : UInt64) : filledTag hash &&& tagFillMask ≠ 0 := by
  rw [filledTag, fill_or_and_fill]
  decide

theorem filledTag_and_hash (hash : UInt64) :
    filledTag hash &&& tagHashMask = tagHashMask &&& topByte hash := fill_or_and_hash _

/-- An inverted fingerprint keeps the slot filled and hides it from its own key. -/
theorem filledTag_inverted (hash : UInt64) :
    (filledTag hash ^^^ fingerprintInversionMask) &&& tagFillMask ≠ 0 ∧
      filledTag hash ^^^ fingerprintInversionMask ≠ filledTag hash := by
  have h : ∀ b : UInt8, ((tagFillMask ||| b) ^^^ fingerprintInversionMask) &&& tagFillMask ≠ 0 ∧
      (tagFillMask ||| b) ^^^ fingerprintInversionMask ≠ tagFillMask ||| b :=
    forall_uint8 (by decide)
  exact h (topByte hash)

/-- The fingerprint of a disabled slot is another one than that of its key. -/
theorem filledTag_inverted_hash (hash : UInt64) :
    (filledTag hash ^^^ fingerprintInversionMask) &&& tagHashMask ≠
      tagHashMask &&& topByte hash := by
  have h : ∀ b : UInt8, ((tagFillMask ||| b) ^^^ fingerprintInversionMask) &&& tagHashMask ≠
      tagHashMask &&& b := forall_uint8 (by decide)
  exact h (topByte hash)

theorem inverted_and_fill (tag : UInt8) :
    (tag ^^^ fingerprintInversionMask) &&& tagFillMask = tag &&& tagFillMask := by
  revert tag
  exact forall_uint8 (by decide)

/-- The tag of a row in an outer join table: the mark bit is free, and six bits of the hash are
left. -/
def outerTag (hash : UInt64) : UInt8 := tagFillMask ||| (outerTagHashMask &&& topByte hash)

/-- The tag of a row that has found a join partner. -/
def markedTag (hash : UInt64) : UInt8 :=
  tagFillMask ||| outerTagFillMask ||| (outerTagHashMask &&& topByte hash)

theorem outerTag_bits (hash : UInt64) : outerTag hash &&& tagFillMask ≠ 0 ∧
    outerTag hash &&& outerTagFillMask = 0 ∧
    outerTagHashMask &&& outerTag hash = outerTagHashMask &&& topByte hash := by
  have h : ∀ b : UInt8, (tagFillMask ||| (outerTagHashMask &&& b)) &&& tagFillMask ≠ 0 ∧
      (tagFillMask ||| (outerTagHashMask &&& b)) &&& outerTagFillMask = 0 ∧
      outerTagHashMask &&& (tagFillMask ||| (outerTagHashMask &&& b)) = outerTagHashMask &&& b :=
    forall_uint8 (by decide)
  exact h (topByte hash)

theorem markedTag_bits (hash : UInt64) : markedTag hash &&& tagFillMask ≠ 0 ∧
    markedTag hash &&& outerTagFillMask ≠ 0 ∧
    outerTagHashMask &&& markedTag hash = outerTagHashMask &&& topByte hash := by
  have h : ∀ b : UInt8,
      (tagFillMask ||| outerTagFillMask ||| (outerTagHashMask &&& b)) &&& tagFillMask ≠ 0 ∧
      (tagFillMask ||| outerTagFillMask ||| (outerTagHashMask &&& b)) &&& outerTagFillMask ≠ 0 ∧
      outerTagHashMask &&& (tagFillMask ||| outerTagFillMask ||| (outerTagHashMask &&& b)) =
        outerTagHashMask &&& b :=
    forall_uint8 (by decide)
  exact h (topByte hash)

theorem homeSlot_lt (modMask : ℕ) (hash : UInt64) : homeSlot modMask hash < modMask + 1 := by
  have hle : hash.toNat &&& modMask ≤ modMask := Nat.and_le_right
  simpa only [homeSlot, Nat.lt_succ_iff] using hle

end InkFuse.Runtime
