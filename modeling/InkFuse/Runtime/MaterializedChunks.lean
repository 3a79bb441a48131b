import InkFuse.Runtime.TupleMaterializer
import Mathlib.Algebra.BigOperators.Group.List.Basic

/-!
The memory of a `TupleMaterializer`: chunks whose tuples end at `end_ptr`. Every call of
`materialize` returns the memory of one more tuple, which the build pipeline fills later on.
Seen as lists of tuples, the chunks are those of `TupleMaterializer`.
-/

namespace InkFuse.Runtime

open Bytes

/-- `end_ptr` counts the bytes from the start of `data`. -/
structure MatChunk where
  endPtr : ℕ
  data : Bytes

namespace MatChunk

def alloc : MatChunk := ⟨0, List.replicate regionSize 0⟩

def write (c : MatChunk) (off : ℕ) (bs : Bytes) : MatChunk :=
  { c with data := writeAt c.data off bs }

def tuples (c : MatChunk) (tupleSize : ℕ) : List Bytes :=
  (List.range (c.endPtr / tupleSize)).map fun i => readAt c.data (i * tupleSize) tupleSize

/-- A chunk holds whole tuples, and they lie in its memory. -/
structure Fits (c : MatChunk) (tupleSize : ℕ) : Prop where
  dvd : tupleSize ∣ c.endPtr
  le : c.endPtr ≤ regionSize
  length : c.data.length = regionSize

end MatChunk

/-- The memory that `materialize` returns: the number of a chunk, and an offset in it. -/
structure TupleSlot where
  chunk : ℕ
  offset : ℕ
deriving DecidableEq

/-- The slots of one chunk that ends at `endPtr`, from `offset` on. -/
def slotsFrom (tupleSize endPtr chunk offset : ℕ) : List TupleSlot :=
  (List.range ((endPtr - offset) / tupleSize)).map fun i => ⟨chunk, offset + i * tupleSize⟩

/-- The chunks before the current one, and the one that `curr_chunk_end_ptr_ptr` points into. -/
structure ChunkMaterializer where
  tupleSize : ℕ
  full : List MatChunk
  current : MatChunk

namespace ChunkMaterializer

def chunks (m : ChunkMaterializer) : List MatChunk := m.full ++ [m.current]

def allocNewChunk (m : ChunkMaterializer) : ChunkMaterializer :=
  { m with full := m.full ++ [m.current], current := MatChunk.alloc }

def create (tupleSize : ℕ) : Except Fault ChunkMaterializer :=
  if tupleSize > regionSize then
    .error .runtimeError
  else
    .ok ⟨tupleSize, [], MatChunk.alloc⟩

/-- The memory of one more tuple. A tuple that would end with its chunk gets a new chunk. -/
def materialize (m : ChunkMaterializer) : ChunkMaterializer × TupleSlot :=
  let m := if m.current.endPtr + m.tupleSize ≥ regionSize then m.allocNewChunk else m
  ({ m with current := { m.current with endPtr := m.current.endPtr + m.tupleSize } },
    ⟨m.full.length, m.current.endPtr⟩)

/-- A write of the build pipeline to the memory of a slot, `off` bytes after its start. -/
def store (m : ChunkMaterializer) (s : TupleSlot) (off : ℕ) (bs : Bytes) : ChunkMaterializer :=
  if s.chunk = m.full.length then
    { m with current := m.current.write (s.offset + off) bs }
  else
    { m with full := m.full.modify s.chunk fun c => c.write (s.offset + off) bs }

/-- `occupied / tuple_size`, summed up over the chunks -/
def getNumTuples (m : ChunkMaterializer) : Except Fault ℕ :=
  if m.tupleSize = 0 then
    .error .divisionByZero
  else
    .ok (m.chunks.map fun c => c.endPtr / m.tupleSize).sum

def endPtrs (m : ChunkMaterializer) : List ℕ := m.chunks.map MatChunk.endPtr

def slots (m : ChunkMaterializer) : List TupleSlot :=
  m.endPtrs.zipIdx.flatMap fun (endPtr, chunk) => slotsFrom m.tupleSize endPtr chunk 0

def tupleAt (m : ChunkMaterializer) (s : TupleSlot) : Bytes :=
  match m.chunks[s.chunk]? with
  | some c => readAt c.data s.offset m.tupleSize
  | none => []

def toMaterializer (m : ChunkMaterializer) : TupleMaterializer where
  tupleSize := m.tupleSize
  closed := m.full.map fun c => c.tuples m.tupleSize
  current := m.current.tuples m.tupleSize

end ChunkMaterializer

/-- `m` after calls of `materialize` that have returned `slots`, the first one first, with any
writes to these slots in between. -/
inductive Materialized (tupleSize : ℕ) : ChunkMaterializer → List TupleSlot → Prop
  | create {m} : ChunkMaterializer.create tupleSize = .ok m → Materialized tupleSize m []
  | materialize {m slots} : Materialized tupleSize m slots →
      Materialized tupleSize m.materialize.1 (slots ++ [m.materialize.2])
  | store {m slots s off bs} : Materialized tupleSize m slots → s ∈ slots →
      off + bs.length ≤ tupleSize → Materialized tupleSize (m.store s off bs) slots

/-- Two pieces of memory of the same length that do not overlap. -/
def TupleSlot.Disjoint (tupleSize : ℕ) (a b : TupleSlot) : Prop :=
  a.chunk ≠ b.chunk ∨ a.offset + tupleSize ≤ b.offset ∨ b.offset + tupleSize ≤ a.offset

section Slots

variable {tupleSize : ℕ}

theorem mem_slotsFrom {endPtr chunk offset : ℕ} {s : TupleSlot} :
    s ∈ slotsFrom tupleSize endPtr chunk offset ↔
      ∃ i, i < (endPtr - offset) / tupleSize ∧ s = ⟨chunk, offset + i * tupleSize⟩ := by
  simp [slotsFrom, eq_comm]

theorem slotsFrom_length (endPtr chunk offset : ℕ) :
    (slotsFrom tupleSize endPtr chunk offset).length = (endPtr - offset) / tupleSize := by
  simp [slotsFrom]

theorem slotsFrom_eq_nil {endPtr chunk offset : ℕ} (h : endPtr ≤ offset) :
    slotsFrom tupleSize endPtr chunk offset = [] := by
  simp [slotsFrom, Nat.sub_eq_zero_of_le h]

/-- The slot at `offset` is the first one from there on. -/
theorem slotsFrom_eq_cons (hpos : 0 < tupleSize) {endPtr chunk offset : ℕ}
    (h : offset + tupleSize ≤ endPtr) :
    slotsFrom tupleSize endPtr chunk offset =
      ⟨chunk, offset⟩ :: slotsFrom tupleSize endPtr chunk (offset + tupleSize) := by
  have hsplit : endPtr - offset = endPtr - (offset + tupleSize) + tupleSize := by omega
  have hdiv : (endPtr - offset) / tupleSize = (endPtr - (offset + tupleSize)) / tupleSize + 1 := by
    rw [hsplit, Nat.add_div_right _ hpos]
  rw [slotsFrom, hdiv, List.range_succ_eq_map, List.map_cons, List.map_map]
  simp only [Nat.zero_mul, Nat.add_zero, slotsFrom, List.cons.injEq, true_and]
  apply List.map_congr_left
  intro i _
  simp only [Function.comp_apply, TupleSlot.mk.injEq, true_and]
  rw [Nat.succ_mul]
  omega

/-- A chunk that grows by a tuple has one more slot, at its old end. -/
theorem slotsFrom_grow (hpos : 0 < tupleSize) {endPtr : ℕ} (hdvd : tupleSize ∣ endPtr)
    (chunk : ℕ) : slotsFrom tupleSize (endPtr + tupleSize) chunk 0 =
      slotsFrom tupleSize endPtr chunk 0 ++ [⟨chunk, endPtr⟩] := by
  have hlast : endPtr / tupleSize * tupleSize = endPtr := Nat.div_mul_cancel hdvd
  rw [slotsFrom, Nat.sub_zero, Nat.add_div_right _ hpos, List.range_succ, List.map_append]
  simp [slotsFrom, hlast]

theorem slotsFrom_pairwise (endPtr chunk offset : ℕ) :
    (slotsFrom tupleSize endPtr chunk offset).Pairwise (TupleSlot.Disjoint tupleSize) := by
  rw [slotsFrom, List.pairwise_map]
  apply List.pairwise_lt_range.imp
  intro i k hik
  right
  left
  have hle : (i + 1) * tupleSize ≤ k * tupleSize := Nat.mul_le_mul_right _ hik
  rw [Nat.succ_mul] at hle
  show offset + i * tupleSize + tupleSize ≤ offset + k * tupleSize
  omega

/-- The slots of a list of chunks, of which the first one has the number `k`. -/
theorem mem_slots_zipIdx {ends : List ℕ} {k : ℕ} {s : TupleSlot} :
    s ∈ ((ends.zipIdx k).flatMap fun (endPtr, chunk) => slotsFrom tupleSize endPtr chunk 0) ↔
      ∃ endPtr i, k ≤ s.chunk ∧ ends[s.chunk - k]? = some endPtr ∧
        i < endPtr / tupleSize ∧ s.offset = i * tupleSize := by
  rw [List.mem_flatMap]
  constructor
  · intro h
    obtain ⟨⟨endPtr, chunk⟩, hmem, hs⟩ := h
    obtain ⟨i, hi, rfl⟩ := mem_slotsFrom.mp hs
    obtain ⟨hle, hget⟩ := List.mk_mem_zipIdx_iff_le_and_getElem?_sub.mp hmem
    exact ⟨endPtr, i, hle, hget, hi, Nat.zero_add _⟩
  · intro h
    obtain ⟨endPtr, i, hle, hget, hi, hoff⟩ := h
    refine ⟨(endPtr, s.chunk), List.mk_mem_zipIdx_iff_le_and_getElem?_sub.mpr ⟨hle, hget⟩, ?_⟩
    apply mem_slotsFrom.mpr
    refine ⟨i, hi, ?_⟩
    rw [Nat.zero_add, ← hoff]

end Slots

namespace ChunkMaterializer

variable {tupleSize : ℕ} {m : ChunkMaterializer}

def WellFormed (m : ChunkMaterializer) : Prop := ∀ c ∈ m.chunks, c.Fits m.tupleSize

theorem wellFormed_iff :
    m.WellFormed ↔ (∀ c ∈ m.full, c.Fits m.tupleSize) ∧ m.current.Fits m.tupleSize := by
  simp [WellFormed, chunks, or_imp, forall_and]

theorem endPtrs_eq (m : ChunkMaterializer) :
    m.endPtrs = m.full.map MatChunk.endPtr ++ [m.current.endPtr] := by
  simp [endPtrs, chunks]

/-- The slots of the current chunk come last. -/
theorem slots_eq (m : ChunkMaterializer) : m.slots =
    ((m.full.map MatChunk.endPtr).zipIdx.flatMap fun (endPtr, chunk) =>
      slotsFrom m.tupleSize endPtr chunk 0) ++
      slotsFrom m.tupleSize m.current.endPtr m.full.length 0 := by
  rw [slots, endPtrs_eq, List.zipIdx_append, List.flatMap_append]
  simp

theorem allocNewChunk_slots (m : ChunkMaterializer) : m.allocNewChunk.slots = m.slots := by
  have hempty : slotsFrom m.tupleSize 0 (m.full.length + 1) 0 = [] :=
    slotsFrom_eq_nil (Nat.le_refl 0)
  rw [slots_eq m.allocNewChunk, slots_eq m]
  simp only [allocNewChunk, List.map_append, List.zipIdx_append, List.flatMap_append,
    MatChunk.alloc, List.length_append, List.length_singleton, hempty, List.append_nil]
  simp

theorem alloc_fits (tupleSize : ℕ) : MatChunk.alloc.Fits tupleSize where
  dvd := Nat.dvd_zero _
  le := Nat.zero_le _
  length := List.length_replicate

theorem WellFormed.allocNewChunk (h : m.WellFormed) : m.allocNewChunk.WellFormed := by
  apply wellFormed_iff.mpr
  exact ⟨h, alloc_fits _⟩

/-- The current chunk has room for one more tuple. -/
def grow (m : ChunkMaterializer) : ChunkMaterializer :=
  { m with current := { m.current with endPtr := m.current.endPtr + m.tupleSize } }

theorem WellFormed.grow (h : m.WellFormed) (hroom : m.current.endPtr + m.tupleSize ≤ regionSize) :
    m.grow.WellFormed := by
  obtain ⟨hfull, hcurrent⟩ := wellFormed_iff.mp h
  apply wellFormed_iff.mpr
  exact ⟨hfull, Nat.dvd_add hcurrent.dvd (Nat.dvd_refl _), hroom, hcurrent.length⟩

theorem WellFormed.grow_slots (h : m.WellFormed) (hpos : 0 < m.tupleSize) :
    m.grow.slots = m.slots ++ [⟨m.full.length, m.current.endPtr⟩] := by
  have hcurrent := (wellFormed_iff.mp h).2
  have hgrow : slotsFrom m.tupleSize (m.current.endPtr + m.tupleSize) m.full.length 0 =
      slotsFrom m.tupleSize m.current.endPtr m.full.length 0 ++
        [⟨m.full.length, m.current.endPtr⟩] := slotsFrom_grow hpos hcurrent.dvd _
  rw [slots_eq m, slots_eq m.grow, List.append_assoc, ← hgrow]
  rfl

/-- A call of `materialize` grows the last chunk, which may be a new one. -/
theorem materialize_cases (hle : m.tupleSize ≤ regionSize) (h : m.WellFormed) :
    ∃ m₀ : ChunkMaterializer, m₀.WellFormed ∧ m₀.tupleSize = m.tupleSize ∧ m₀.slots = m.slots ∧
      m₀.current.endPtr + m₀.tupleSize ≤ regionSize ∧
      m.materialize = (m₀.grow, ⟨m₀.full.length, m₀.current.endPtr⟩) := by
  by_cases hfull : m.current.endPtr + m.tupleSize ≥ regionSize
  · refine ⟨m.allocNewChunk, h.allocNewChunk, rfl, m.allocNewChunk_slots, ?_, ?_⟩
    · show 0 + m.tupleSize ≤ regionSize
      omega
    · unfold materialize
      rw [if_pos hfull]
      rfl
  · refine ⟨m, h, rfl, rfl, by omega, ?_⟩
    unfold materialize
    rw [if_neg hfull]
    rfl

theorem WellFormed.materialize (h : m.WellFormed) (hpos : 0 < m.tupleSize)
    (hle : m.tupleSize ≤ regionSize) :
    m.materialize.1.WellFormed ∧ m.materialize.1.tupleSize = m.tupleSize ∧
      m.materialize.1.slots = m.slots ++ [m.materialize.2] := by
  obtain ⟨m₀, hwf, hsize, hslots, hroom, heq⟩ := materialize_cases hle h
  have hgrow : m₀.grow.slots = m₀.slots ++ [⟨m₀.full.length, m₀.current.endPtr⟩] :=
    hwf.grow_slots (by omega)
  rw [heq]
  refine ⟨hwf.grow hroom, hsize, ?_⟩
  rw [hgrow, hslots]

theorem store_tupleSize (m : ChunkMaterializer) (s : TupleSlot) (off : ℕ) (bs : Bytes) :
    (m.store s off bs).tupleSize = m.tupleSize := by
  unfold store
  split <;> rfl

theorem store_chunks (m : ChunkMaterializer) (s : TupleSlot) (off : ℕ) (bs : Bytes) :
    (m.store s off bs).chunks = m.chunks.modify s.chunk fun c => c.write (s.offset + off) bs := by
  apply List.ext_getElem?
  intro k
  unfold store chunks
  split <;> grind

theorem store_getElem?_self {s : TupleSlot} {c : MatChunk} (hc : m.chunks[s.chunk]? = some c)
    (off : ℕ) (bs : Bytes) :
    (m.store s off bs).chunks[s.chunk]? = some (c.write (s.offset + off) bs) := by
  rw [store_chunks, List.getElem?_modify_eq, hc]
  rfl

theorem store_getElem?_of_ne {s : TupleSlot} {k : ℕ} (hk : s.chunk ≠ k) (off : ℕ) (bs : Bytes) :
    (m.store s off bs).chunks[k]? = m.chunks[k]? := by
  rw [store_chunks, List.getElem?_modify_ne _ _ hk]

/-- A write changes the data of a chunk only. -/
theorem store_slots (m : ChunkMaterializer) (s : TupleSlot) (off : ℕ) (bs : Bytes) :
    (m.store s off bs).slots = m.slots := by
  have hends : (m.store s off bs).endPtrs = m.endPtrs := by
    rw [endPtrs, store_chunks]
    apply List.ext_getElem?
    intro k
    by_cases hk : s.chunk = k
    · subst hk
      cases hc : m.chunks[s.chunk]? <;> simp [endPtrs, hc, MatChunk.write]
    · simp [endPtrs, List.getElem?_modify_ne _ _ hk]
  rw [slots, slots, hends, store_tupleSize]

theorem mem_slots {s : TupleSlot} : s ∈ m.slots ↔
    ∃ c i, m.chunks[s.chunk]? = some c ∧ i < c.endPtr / m.tupleSize ∧
      s.offset = i * m.tupleSize := by
  rw [slots, mem_slots_zipIdx]
  simp [endPtrs]

/-- The memory of a slot is used by tuples, and inside one chunk. -/
theorem WellFormed.slot_inside (h : m.WellFormed) {s : TupleSlot} (hs : s ∈ m.slots) :
    ∃ c, m.chunks[s.chunk]? = some c ∧ s.offset + m.tupleSize ≤ c.endPtr ∧
      c.endPtr ≤ c.data.length := by
  obtain ⟨c, i, hc, hi, hoff⟩ := mem_slots.mp hs
  have hfits := h c (List.mem_of_getElem? hc)
  have hend : c.endPtr / m.tupleSize * m.tupleSize = c.endPtr := Nat.div_mul_cancel hfits.dvd
  have hle : (i + 1) * m.tupleSize ≤ c.endPtr / m.tupleSize * m.tupleSize :=
    Nat.mul_le_mul_right _ hi
  rw [hend, Nat.succ_mul, ← hoff] at hle
  refine ⟨c, hc, hle, ?_⟩
  rw [hfits.length]
  exact hfits.le

theorem WellFormed.store (h : m.WellFormed) {s : TupleSlot} (hs : s ∈ m.slots) {off : ℕ}
    {bs : Bytes} (hoff : off + bs.length ≤ m.tupleSize) : (m.store s off bs).WellFormed := by
  obtain ⟨c₀, hc₀, hle, hend⟩ := h.slot_inside hs
  intro c hc
  rw [store_tupleSize]
  obtain ⟨k, hk⟩ := List.getElem?_of_mem hc
  by_cases hsk : s.chunk = k
  · subst hsk
    rw [store_getElem?_self hc₀] at hk
    obtain rfl := Option.some.inj hk
    have hfits := h c₀ (List.mem_of_getElem? hc₀)
    have hlen : (writeAt c₀.data (s.offset + off) bs).length = c₀.data.length :=
      writeAt_length (by omega)
    exact ⟨hfits.dvd, hfits.le, hlen.trans hfits.length⟩
  · rw [store_getElem?_of_ne hsk] at hk
    exact h c (List.mem_of_getElem? hk)

theorem slots_pairwise (m : ChunkMaterializer) :
    m.slots.Pairwise (TupleSlot.Disjoint m.tupleSize) := by
  have hchunk : ∀ (endPtr chunk : ℕ), ∀ s ∈ slotsFrom m.tupleSize endPtr chunk 0,
      s.chunk = chunk := by
    intro endPtr chunk s hs
    obtain ⟨i, _, rfl⟩ := mem_slotsFrom.mp hs
    rfl
  have hnum : m.endPtrs.zipIdx.Pairwise fun a b => a.2 < b.2 := by
    apply List.pairwise_map.mp
    rw [List.zipIdx_map_snd]
    exact List.pairwise_lt_range'
  rw [slots, List.pairwise_flatMap]
  constructor
  · intro p _
    exact slotsFrom_pairwise _ _ _
  · apply hnum.imp
    intro a b hab x hx y hy
    left
    rw [hchunk _ _ x hx, hchunk _ _ y hy]
    exact Nat.ne_of_lt hab

/-- Every chunk counts its tuples. -/
theorem getNumTuples_eq (hpos : 0 < m.tupleSize) : m.getNumTuples = .ok m.slots.length := by
  have hlen : ∀ (ends : List ℕ) (k : ℕ),
      ((ends.zipIdx k).flatMap fun (endPtr, chunk) =>
        slotsFrom m.tupleSize endPtr chunk 0).length =
      (ends.map fun endPtr => endPtr / m.tupleSize).sum := by
    intro ends
    induction ends with
    | nil => simp
    | cons e ends ih =>
      intro k
      simp [List.zipIdx_cons, slotsFrom_length, ih]
  rw [getNumTuples, if_neg (by omega), slots, hlen, endPtrs, List.map_map]
  rfl

/-- A chunk that grows by a tuple has one more tuple. -/
theorem tuples_grow {c : MatChunk} {tupleSize : ℕ} (hc : c.Fits tupleSize) (hpos : 0 < tupleSize)
    {tuple : Bytes} (hlen : tuple.length = tupleSize) :
    (MatChunk.write ⟨c.endPtr + tupleSize, c.data⟩ c.endPtr tuple).tuples tupleSize =
      c.tuples tupleSize ++ [tuple] := by
  have hend : c.endPtr / tupleSize * tupleSize = c.endPtr := Nat.div_mul_cancel hc.dvd
  have hdata : c.endPtr ≤ c.data.length := by
    rw [hc.length]
    exact hc.le
  have hlast : readAt (writeAt c.data c.endPtr tuple) c.endPtr tupleSize = tuple := by
    rw [← hlen]
    exact readAt_writeAt hdata
  simp only [MatChunk.tuples, MatChunk.write]
  rw [Nat.add_div_right _ hpos, List.range_succ, List.map_append, List.map_singleton, hend, hlast]
  congr 1
  apply List.map_congr_left
  intro i hi
  have hle : (i + 1) * tupleSize ≤ c.endPtr / tupleSize * tupleSize :=
    Nat.mul_le_mul_right _ (List.mem_range.mp hi)
  rw [Nat.succ_mul] at hle
  exact readAt_writeAt_before hdata (by omega)

/-- Materializing a tuple is what it is for lists of tuples. -/
theorem materialize_toMaterializer (h : m.WellFormed) (hpos : 0 < m.tupleSize)
    {tuple : Bytes} (hlen : tuple.length = m.tupleSize) :
    (m.materialize.1.store m.materialize.2 0 tuple).toMaterializer =
      m.toMaterializer.materialize tuple := by
  have hcurrent := (wellFormed_iff.mp h).2
  have hend : m.tupleSize * (m.current.tuples m.tupleSize).length = m.current.endPtr := by
    simp [MatChunk.tuples, Nat.mul_div_cancel' hcurrent.dvd]
  unfold TupleMaterializer.materialize
  by_cases hfull : m.current.endPtr + m.tupleSize ≥ regionSize
  · have hone := tuples_grow (alloc_fits m.tupleSize) hpos hlen
    rw [if_pos (by simpa [toMaterializer, hend] using hfull)]
    simp only [materialize, if_pos hfull, store, allocNewChunk, toMaterializer]
    simpa [MatChunk.alloc, MatChunk.tuples] using hone
  · have hgrow := tuples_grow hcurrent hpos hlen
    rw [if_neg (by simpa [toMaterializer, hend] using hfull)]
    simp only [materialize, if_neg hfull, store, toMaterializer, if_true]
    simpa using hgrow

theorem toMaterializer_getNumTuples (m : ChunkMaterializer) :
    m.toMaterializer.getNumTuples = m.getNumTuples := by
  unfold TupleMaterializer.getNumTuples getNumTuples
  by_cases hzero : m.tupleSize = 0
  · rw [if_pos hzero]
    exact if_pos hzero
  · have hpos : 0 < m.tupleSize := by omega
    rw [if_neg hzero]
    simp [toMaterializer, hzero, TupleMaterializer.chunks, chunks, MatChunk.tuples,
      Nat.mul_div_cancel_left _ hpos, Function.comp_def]

/-- The tuples of the chunks are what is in the memory of the slots. -/
theorem toMaterializer_tuples (m : ChunkMaterializer) :
    m.toMaterializer.tuples = m.slots.map m.tupleAt := by
  have hchunks : m.toMaterializer.chunks = m.chunks.map fun c => c.tuples m.tupleSize := by
    simp [toMaterializer, TupleMaterializer.chunks, chunks]
  have hall : ∀ (cs : List MatChunk) (k : ℕ), (∀ i, cs[i]? = m.chunks[k + i]? ∨ cs.length ≤ i) →
      (cs.map fun c => c.tuples m.tupleSize).flatten =
        (((cs.map MatChunk.endPtr).zipIdx k).flatMap fun (endPtr, chunk) =>
          slotsFrom m.tupleSize endPtr chunk 0).map m.tupleAt := by
    intro cs
    induction cs with
    | nil => simp
    | cons c cs ih =>
      intro k hget
      have hc : m.chunks[k]? = some c := by
        rcases hget 0 with h | h
        · exact h.symm
        · simp at h
      have htail := ih (k + 1) (fun i => by
        rcases hget (i + 1) with h | h
        · left
          rw [Nat.add_right_comm, ← Nat.add_assoc] at *
          exact h
        · right
          simpa using h)
      rw [List.map_cons, List.flatten_cons, htail, List.map_cons, List.zipIdx_cons,
        List.flatMap_cons, List.map_append]
      congr 1
      simp [slotsFrom, MatChunk.tuples, tupleAt, hc]
  rw [TupleMaterializer.tuples, hchunks, slots, endPtrs]
  exact hall m.chunks 0 fun i => Or.inl (by rw [Nat.zero_add])

end ChunkMaterializer

namespace Materialized

open ChunkMaterializer

variable {tupleSize : ℕ} {m : ChunkMaterializer} {slots : List TupleSlot}

/-- The slots that were returned are the slots of the chunks, in the same order. -/
theorem spec (hpos : 0 < tupleSize) (hle : tupleSize ≤ regionSize)
    (h : Materialized tupleSize m slots) :
    m.WellFormed ∧ m.tupleSize = tupleSize ∧ slots = m.slots := by
  induction h with
  | create hcreate =>
    rw [ChunkMaterializer.create, if_neg (by omega)] at hcreate
    obtain rfl := Except.ok.inj hcreate
    refine ⟨?_, rfl, ?_⟩
    · apply wellFormed_iff.mpr
      exact ⟨by simp, alloc_fits _⟩
    · simp [slots_eq, MatChunk.alloc, slotsFrom]
  | materialize _ ih =>
    obtain ⟨hwf, hsize, rfl⟩ := ih
    obtain ⟨hwf', hsize', hslots'⟩ := hwf.materialize (by omega) (by omega)
    exact ⟨hwf', hsize'.trans hsize, hslots'.symm⟩
  | store _ hs hoff ih =>
    obtain ⟨hwf, hsize, rfl⟩ := ih
    refine ⟨hwf.store hs (by omega), (store_tupleSize ..).trans hsize, ?_⟩
    rw [store_slots]

end Materialized

end InkFuse.Runtime
