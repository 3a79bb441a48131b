import InkFuse.Bytes.LittleEndian
import InkFuse.Runtime.TableIterators

/-!
`HashTableDirectLookup`, which has one slot for every key of two bytes. Its data is one array,
and a slot is found by multiplying the key with the slot size.
-/

namespace InkFuse.Runtime

open Bytes

structure HashTableDirectLookup where
  data : Bytes
  tags : ℕ → Bool
  numInserted : ℕ
  slotSize : ℕ

namespace HashTableDirectLookup

/-- The constructor. The slot size has sixteen bits. The length of the array is computed with the
type `int`; a product that does not fit makes the allocation fail. -/
def create (payloadSize : ℕ) : Except Fault HashTableDirectLookup :=
  let slotSize := (2 + payloadSize) % 2 ^ 16
  if 2 ^ 16 * slotSize < 2 ^ 31 then
    .ok {
      data := List.replicate (2 ^ 16 * slotSize) 0
      tags := fun _ => false
      numInserted := 0
      slotSize := slotSize
    }
  else
    .error .runtimeError

/-- The key is read as a `uint16_t`. -/
def keyIndex (key : Bytes) : ℕ := decode (readAt key 0 2)

theorem keyIndex_lt (key : Bytes) : keyIndex key < 2 ^ 16 := by
  have hlength : (readAt key 0 2).length ≤ 2 := by
    rw [readAt]
    exact List.length_take_le _ _
  exact Nat.lt_of_lt_of_le (decode_lt _) (Nat.pow_le_pow_right (by omega) hlength)

variable (t : HashTableDirectLookup)

def size : ℕ := t.numInserted

def capacity (_ : HashTableDirectLookup) : ℕ := 2 ^ 16

def lookup (key : Bytes) : Option ℕ :=
  if t.tags (keyIndex key) then some (t.slotSize * keyIndex key) else none

def store (off : ℕ) (bs : Bytes) : Except Fault HashTableDirectLookup :=
  if off + bs.length ≤ t.data.length then
    .ok { t with data := writeAt t.data off bs }
  else
    .error .outOfBounds

def lookupOrInsert (key : Bytes) : Except Fault (HashTableDirectLookup × ℕ) := do
  let idx := keyIndex key
  let tagged : HashTableDirectLookup := {
    t with
    numInserted := if t.tags idx then t.numInserted else t.numInserted + 1
    tags := Function.update t.tags idx true
  }
  let ptr := t.slotSize * idx
  let stored ← tagged.store ptr (encode 2 idx)
  .ok (stored, ptr)

/-- The loop of `iteratorAdvance`. -/
def advanceToTagged : ℕ → ℕ → ℕ → Except Fault TableIterator
  | 0, _, _ => .error .diverges
  | fuel + 1, data, idx =>
    if idx < 2 ^ 16 then
      if t.tags idx then .ok ⟨some data, idx⟩
      else advanceToTagged fuel (data + t.slotSize) (idx + 1)
    else
      .ok ⟨none, idx⟩

/-- `iteratorAdvance`, which the null pointer must not be passed to. -/
def itAdvance (it : TableIterator) : Except Fault TableIterator :=
  match it.data with
  | none => .error .outOfBounds
  | some data => t.advanceToTagged (t.capacity + 1) (data + t.slotSize) (it.idx + 1)

/-- `iteratorStart` -/
def itStart : Except Fault TableIterator :=
  if t.tags 0 then .ok ⟨some 0, 0⟩ else t.itAdvance ⟨some 0, 0⟩

/-- The tables a client reaches. It writes to the payloads of slots in use. -/
inductive Used (start : HashTableDirectLookup) : HashTableDirectLookup → Prop
  | start : Used start start
  | lookupOrInsert {t key u ptr} : Used start t → t.lookupOrInsert key = .ok (u, ptr) → Used start u
  | write {t key ptr off bs u} : Used start t → t.lookup key = some ptr →
      2 + off + bs.length ≤ t.slotSize → t.store (ptr + 2 + off) bs = .ok u → Used start u

section Iterators

variable {t}

theorem advanceToTagged_spec {i : ℕ} (fuel : ℕ) (hfuel : 2 ^ 16 - i ≤ fuel) :
    ∃ it, t.advanceToTagged (fuel + 1) (i * t.slotSize) i = .ok it ∧
      it.Stands t.slotSize t.tags (2 ^ 16) (entriesFrom t.tags (2 ^ 16) i) := by
  induction fuel generalizing i with
  | zero =>
    have hend : 2 ^ 16 ≤ i := by omega
    refine ⟨⟨none, i⟩, ?_, ?_⟩
    · rw [advanceToTagged, if_neg (Nat.not_lt.mpr hend)]
    · rw [entriesFrom_end hend]
      rfl
  | succ fuel ih =>
    by_cases hi : i < 2 ^ 16
    · cases htag : t.tags i with
      | true =>
        refine ⟨⟨some (i * t.slotSize), i⟩, ?_, TableIterator.stands_occupied hi htag⟩
        rw [advanceToTagged, if_pos hi, if_pos htag]
      | false =>
        obtain ⟨it, hit, hstands⟩ := ih (i := i + 1) (by omega)
        rw [entriesFrom_free hi htag]
        refine ⟨it, ?_, hstands⟩
        rw [advanceToTagged, if_pos hi, if_neg (by simp [htag])]
        rwa [Nat.succ_mul] at hit
    · refine ⟨⟨none, i⟩, ?_, ?_⟩
      · rw [advanceToTagged, if_neg hi]
      · rw [entriesFrom_end (Nat.le_of_not_lt hi)]
        rfl

theorem itAdvance_spec (i : ℕ) : ∃ it, t.itAdvance ⟨some (i * t.slotSize), i⟩ = .ok it ∧
    it.Stands t.slotSize t.tags t.capacity (entriesFrom t.tags t.capacity (i + 1)) := by
  obtain ⟨it, hit, hstands⟩ := advanceToTagged_spec (t := t) (i := i + 1) t.capacity
    (Nat.sub_le _ _)
  rw [Nat.succ_mul] at hit
  exact ⟨it, hit, hstands⟩

theorem itStart_spec : ∃ it, t.itStart = .ok it ∧
    it.Stands t.slotSize t.tags t.capacity (entriesFrom t.tags t.capacity 0) := by
  have hpos : 0 < t.capacity := Nat.two_pow_pos 16
  cases htag : t.tags 0 with
  | true =>
    have hstands : TableIterator.Stands t.slotSize t.tags t.capacity ⟨some (0 * t.slotSize), 0⟩ _ :=
      TableIterator.stands_occupied hpos htag
    rw [Nat.zero_mul] at hstands
    exact ⟨⟨some 0, 0⟩, by rw [itStart, if_pos htag], hstands⟩
  | false =>
    obtain ⟨it, hit, hstands⟩ := itAdvance_spec (t := t) 0
    rw [Nat.zero_mul] at hit
    rw [entriesFrom_free hpos htag]
    exact ⟨it, by rw [itStart, if_neg (by simp [htag]), hit], hstands⟩

end Iterators

end HashTableDirectLookup

end InkFuse.Runtime
