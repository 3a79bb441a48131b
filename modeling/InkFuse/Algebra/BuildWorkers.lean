import InkFuse.Algebra.JoinBuild
import InkFuse.Runtime.MaterializedChunks
import Mathlib.Data.Multiset.Basic

/-!
The worker threads that fill the hash table of a join. All of them run
`materializedTupleToHashTable`: they pull chunks from the read handles of the materializers,
and go over the tuples of a chunk in batches, first to hash them and then to insert them.
A schedule says which worker takes the next step.
-/

namespace InkFuse.Algebra

open Bytes
open InkFuse.Runtime

/-- The most tuples in a batch, and the length of `hashes`. -/
def batchSize : ℕ := 256

/-- A materialized tuple: the number of its materializer, and its memory there. -/
abbrev Place (M : ℕ) := Fin M × TupleSlot

/-- The chunk that a worker has pulled, with its number in the materializer. -/
structure PulledChunk (M : ℕ) where
  handle : Fin M
  number : ℕ
  chunk : MatChunk

/-- A batch: `curr_tuple`, `curr_batch_size` and `batch_idx`. -/
structure Batch (M : ℕ) where
  pulled : PulledChunk M
  currTuple : ℕ
  size : ℕ
  batchIdx : ℕ

/-- Where a worker is. `probes` counts the slots that the current insert has left behind. -/
inductive WorkerPc (M : ℕ)
  | pull (handle : ℕ)
  | chunk (p : PulledChunk M) (currTuple : ℕ)
  | hash (b : Batch M) (currTupleHashIt : ℕ)
  | insert (b : Batch M)
  | load (b : Batch M) (idx probes : ℕ)
  | exchange (b : Batch M) (idx : ℕ) (currTag : UInt8) (probes : ℕ)
  | copy (b : Batch M) (idx : ℕ)

/-- An insert that has returned: the tuple, the hash it was given, and the slot it returned. -/
structure Insertion (M : ℕ) where
  tuple : Place M
  hash : UInt64
  slot : ℕ

structure Worker (M : ℕ) where
  pc : WorkerPc M
  hashes : ℕ → UInt64
  hashed : List (Place M × UInt64)
  inserted : List (Insertion M)

/-- The hash table, the offsets of the read handles and the workers. -/
structure Workers (M T : ℕ) where
  table : AtomicHashTable
  offsets : Fin M → ℕ
  threads : Fin T → Worker M

variable {M T : ℕ}

def PulledChunk.place (p : PulledChunk M) (offset : ℕ) : Place M := (p.handle, ⟨p.number, offset⟩)

/-- What a pointer into the chunk points to. -/
def PulledChunk.pointer (p : PulledChunk M) (offset : ℕ) : Bytes := p.chunk.data.drop offset

def Workers.setThread (w : Workers M T) (t : Fin T) (th : Worker M) : Workers M T :=
  { w with threads := Function.update w.threads t th }

def startWorkers (M : ℕ) {T : ℕ} (table : AtomicHashTable) : Workers M T where
  table := table
  offsets := fun _ => 0
  threads := fun _ => ⟨.pull 0, fun _ => 0, [], []⟩

/-- The next atomic step of worker `t`. A worker that has been at all read handles has
returned from `materializedTupleToHashTable`. -/
def workerStep (C : Comparator) (slotSize : ℕ) (mats : Fin M → ChunkMaterializer)
    (w : Workers M T) (t : Fin T) : Workers M T :=
  let th := w.threads t
  match th.pc with
  | .pull handle =>
    if hlt : handle < M then
      -- `pullChunk`: the `fetch_add`, and the comparison with the number of chunks.
      let readOffset := w.offsets ⟨handle, hlt⟩
      let w := { w with offsets := Function.update w.offsets ⟨handle, hlt⟩ (readOffset + 1) }
      match (mats ⟨handle, hlt⟩).chunks[readOffset]? with
      | none => w.setThread t { th with pc := .pull (handle + 1) }
      | some chunk => w.setThread t { th with pc := .chunk ⟨⟨handle, hlt⟩, readOffset, chunk⟩ 0 }
    else
      w
  | .chunk p currTuple =>
    if currTuple < p.chunk.endPtr then
      let size := min batchSize ((p.chunk.endPtr - currTuple) / slotSize)
      w.setThread t { th with pc := .hash ⟨p, currTuple, size, 0⟩ currTuple }
    else
      w.setThread t { th with pc := .pull p.handle }
  | .hash b it =>
    if b.batchIdx < b.size then
      let hash := C.hash (b.pulled.pointer it)
      w.setThread t { th with
        pc := .hash { b with batchIdx := b.batchIdx + 1 } (it + slotSize)
        hashes := Function.update th.hashes b.batchIdx hash
        hashed := th.hashed ++ [(b.pulled.place it, hash)] }
    else
      w.setThread t { th with pc := .insert { b with batchIdx := 0 } }
  | .insert b =>
    if b.batchIdx < b.size then
      let idx := homeSlot w.table.modMask (th.hashes b.batchIdx)
      w.setThread t { th with pc := .load b idx 0 }
    else
      w.setThread t { th with pc := .chunk b.pulled b.currTuple }
  | .load b idx probes =>
    let currTag := w.table.tags idx
    if currTag &&& tagFillMask = 0 then
      w.setThread t { th with pc := .exchange b idx currTag probes }
    else
      w.setThread t { th with pc := .load b (w.table.itAdvance idx) (probes + 1) }
  | .exchange b idx currTag probes =>
    if w.table.tags idx = currTag then
      { w.setThread t { th with pc := .copy b idx } with
        table := w.table.setTag idx (filledTag (th.hashes b.batchIdx)) }
    else
      w.setThread t { th with pc := .load b (w.table.itAdvance idx) (probes + 1) }
  | .copy b idx =>
    { w.setThread t { th with
        pc := .insert { b with currTuple := b.currTuple + slotSize, batchIdx := b.batchIdx + 1 }
        inserted := th.inserted ++
          [⟨b.pulled.place b.currTuple, th.hashes b.batchIdx, idx⟩] } with
      table := w.table.copyRow idx (b.pulled.pointer b.currTuple) }

def workersRun (C : Comparator) (slotSize : ℕ) (mats : Fin M → ChunkMaterializer)
    (w : Workers M T) (schedule : List (Fin T)) : Workers M T :=
  schedule.foldl (workerStep C slotSize mats) w

def Workers.Finished (w : Workers M T) : Prop :=
  ∀ t, ∃ handle, M ≤ handle ∧ (w.threads t).pc = .pull handle

/-- The bytes of a chunk that the next step of a worker reads: the chunk, where the bytes
start, and how many they are. Hashing reads a key, and the copy of a row reads a row. -/
def Workers.reads (C : Comparator) (w : Workers M T) (t : Fin T) :
    Option (PulledChunk M × ℕ × ℕ) :=
  match (w.threads t).pc with
  | .hash b it => if b.batchIdx < b.size then some (b.pulled, it, C.keySize) else none
  | .copy b _ => some (b.pulled, b.currTuple, w.table.totalSlotSize)
  | _ => none

def Workers.hashed (w : Workers M T) : List (Place M × UInt64) :=
  (List.finRange T).flatMap fun t => (w.threads t).hashed

def Workers.inserted (w : Workers M T) : List (Insertion M) :=
  (List.finRange T).flatMap fun t => (w.threads t).inserted

def places (mats : Fin M → ChunkMaterializer) : List (Place M) :=
  (List.finRange M).flatMap fun h => (mats h).slots.map (Prod.mk h)

/-- What is in the memory from a tuple on. -/
def pointerTo (mats : Fin M → ChunkMaterializer) (p : Place M) : Bytes :=
  match (mats p.1).chunks[p.2.chunk]? with
  | some c => c.data.drop p.2.offset
  | none => []

section Moves

variable {C : Comparator} {slotSize : ℕ} {mats : Fin M → ChunkMaterializer}

/-- What a step does to the offsets of the read handles and to the worker that takes it. -/
inductive Move (C : Comparator) (slotSize : ℕ) (mats : Fin M → ChunkMaterializer) :
    (Fin M → ℕ) → Worker M → (Fin M → ℕ) → Worker M → Prop
  | returned {offsets th handle} : M ≤ handle → th.pc = .pull handle →
      Move C slotSize mats offsets th offsets th
  | exhausted {offsets th} (handle : Fin M) : th.pc = .pull handle →
      (mats handle).chunks[offsets handle]? = none →
      Move C slotSize mats offsets th (Function.update offsets handle (offsets handle + 1))
        { th with pc := .pull (handle + 1) }
  | pulled {offsets th} (handle : Fin M) {chunk} : th.pc = .pull handle →
      (mats handle).chunks[offsets handle]? = some chunk →
      Move C slotSize mats offsets th (Function.update offsets handle (offsets handle + 1))
        { th with pc := .chunk ⟨handle, offsets handle, chunk⟩ 0 }
  | batch {offsets th p currTuple} : th.pc = .chunk p currTuple → currTuple < p.chunk.endPtr →
      Move C slotSize mats offsets th offsets { th with
        pc := .hash ⟨p, currTuple, min batchSize ((p.chunk.endPtr - currTuple) / slotSize), 0⟩
          currTuple }
  | chunkDone {offsets th p currTuple} : th.pc = .chunk p currTuple → p.chunk.endPtr ≤ currTuple →
      Move C slotSize mats offsets th offsets { th with pc := .pull p.handle }
  | hashed {offsets th b it} : th.pc = .hash b it → b.batchIdx < b.size →
      Move C slotSize mats offsets th offsets { th with
        pc := .hash { b with batchIdx := b.batchIdx + 1 } (it + slotSize)
        hashes := Function.update th.hashes b.batchIdx (C.hash (b.pulled.pointer it))
        hashed := th.hashed ++ [(b.pulled.place it, C.hash (b.pulled.pointer it))] }
  | hashesDone {offsets th b it} : th.pc = .hash b it → b.size ≤ b.batchIdx →
      Move C slotSize mats offsets th offsets { th with pc := .insert { b with batchIdx := 0 } }
  | call {offsets th b} (idx : ℕ) : th.pc = .insert b → b.batchIdx < b.size →
      Move C slotSize mats offsets th offsets { th with pc := .load b idx 0 }
  | batchDone {offsets th b} : th.pc = .insert b → b.size ≤ b.batchIdx →
      Move C slotSize mats offsets th offsets { th with pc := .chunk b.pulled b.currTuple }
  | loaded {offsets th b idx probes} (currTag : UInt8) : th.pc = .load b idx probes →
      Move C slotSize mats offsets th offsets { th with pc := .exchange b idx currTag probes }
  | filled {offsets th b idx probes} (next : ℕ) : th.pc = .load b idx probes →
      Move C slotSize mats offsets th offsets { th with pc := .load b next (probes + 1) }
  | lost {offsets th b idx currTag probes} (next : ℕ) : th.pc = .exchange b idx currTag probes →
      Move C slotSize mats offsets th offsets { th with pc := .load b next (probes + 1) }
  | claimed {offsets th b idx currTag probes} : th.pc = .exchange b idx currTag probes →
      Move C slotSize mats offsets th offsets { th with pc := .copy b idx }
  | copied {offsets th b idx} : th.pc = .copy b idx →
      Move C slotSize mats offsets th offsets { th with
        pc := .insert { b with currTuple := b.currTuple + slotSize, batchIdx := b.batchIdx + 1 }
        inserted := th.inserted ++ [⟨b.pulled.place b.currTuple, th.hashes b.batchIdx, idx⟩] }

variable (C slotSize mats) in
/-- A step moves one worker. -/
theorem workerStep_move (w : Workers M T) (t : Fin T) :
    ∃ offsets th, Move C slotSize mats w.offsets (w.threads t) offsets th ∧
      (workerStep C slotSize mats w t).offsets = offsets ∧
      (workerStep C slotSize mats w t).threads = Function.update w.threads t th := by
  cases hpc : (w.threads t).pc with
  | pull handle =>
    by_cases hlt : handle < M
    · cases hchunk : (mats ⟨handle, hlt⟩).chunks[w.offsets ⟨handle, hlt⟩]? with
      | none =>
        refine ⟨_, _, .exhausted ⟨handle, hlt⟩ hpc hchunk, ?_, ?_⟩ <;>
          simp [workerStep, hpc, hlt, hchunk, Workers.setThread]
      | some chunk =>
        refine ⟨_, _, .pulled ⟨handle, hlt⟩ hpc hchunk, ?_, ?_⟩ <;>
          simp [workerStep, hpc, hlt, hchunk, Workers.setThread]
    · refine ⟨_, _, .returned (Nat.le_of_not_lt hlt) hpc, ?_, ?_⟩ <;>
        simp [workerStep, hpc, hlt]
  | chunk p currTuple =>
    by_cases hlt : currTuple < p.chunk.endPtr
    · refine ⟨_, _, .batch hpc hlt, ?_, ?_⟩ <;>
        simp [workerStep, hpc, hlt, Workers.setThread]
    · refine ⟨_, _, .chunkDone hpc (Nat.le_of_not_lt hlt), ?_, ?_⟩ <;>
        simp [workerStep, hpc, hlt, Workers.setThread]
  | hash b it =>
    by_cases hlt : b.batchIdx < b.size
    · refine ⟨_, _, .hashed hpc hlt, ?_, ?_⟩ <;>
        simp [workerStep, hpc, hlt, Workers.setThread]
    · refine ⟨_, _, .hashesDone hpc (Nat.le_of_not_lt hlt), ?_, ?_⟩ <;>
        simp [workerStep, hpc, hlt, Workers.setThread]
  | insert b =>
    by_cases hlt : b.batchIdx < b.size
    · refine ⟨_, _, .call (homeSlot w.table.modMask ((w.threads t).hashes b.batchIdx)) hpc hlt,
        ?_, ?_⟩ <;>
        simp [workerStep, hpc, hlt, Workers.setThread]
    · refine ⟨_, _, .batchDone hpc (Nat.le_of_not_lt hlt), ?_, ?_⟩ <;>
        simp [workerStep, hpc, hlt, Workers.setThread]
  | load b idx probes =>
    by_cases hfree : w.table.tags idx &&& tagFillMask = 0
    · refine ⟨_, _, .loaded (w.table.tags idx) hpc, ?_, ?_⟩ <;>
        simp [workerStep, hpc, hfree, Workers.setThread]
    · refine ⟨_, _, .filled (w.table.itAdvance idx) hpc, ?_, ?_⟩ <;>
        simp [workerStep, hpc, hfree, Workers.setThread]
  | exchange b idx currTag probes =>
    by_cases htag : w.table.tags idx = currTag
    · refine ⟨_, _, .claimed hpc, ?_, ?_⟩ <;>
        simp [workerStep, hpc, htag, Workers.setThread]
    · refine ⟨_, _, .lost (w.table.itAdvance idx) hpc, ?_, ?_⟩ <;>
        simp [workerStep, hpc, htag, Workers.setThread]
  | copy b idx =>
    refine ⟨_, _, .copied hpc, ?_, ?_⟩ <;> simp [workerStep, hpc, Workers.setThread]

end Moves

section Shares

variable {slotSize : ℕ} {mats : Fin M → ChunkMaterializer}

def PulledChunk.placesFrom (slotSize : ℕ) (p : PulledChunk M) (offset : ℕ) : List (Place M) :=
  (slotsFrom slotSize p.chunk.endPtr p.number offset).map (Prod.mk p.handle)

/-- The tuples that a worker will still hash before it pulls a chunk. -/
def Worker.toHash (slotSize : ℕ) (th : Worker M) : List (Place M) :=
  match th.pc with
  | .pull _ => []
  | .chunk p currTuple => p.placesFrom slotSize currTuple
  | .hash b it => b.pulled.placesFrom slotSize it
  | .insert b | .load b _ _ | .exchange b _ _ _ | .copy b _ =>
    b.pulled.placesFrom slotSize (b.currTuple + (b.size - b.batchIdx) * slotSize)

/-- The tuples that a worker will still insert before it pulls a chunk. -/
def Worker.toInsert (slotSize : ℕ) (th : Worker M) : List (Place M) :=
  match th.pc with
  | .pull _ => []
  | .chunk p currTuple => p.placesFrom slotSize currTuple
  | .hash b _ | .insert b | .load b _ _ | .exchange b _ _ _ | .copy b _ =>
    b.pulled.placesFrom slotSize b.currTuple

/-- The tuples of the chunks that no worker has pulled from a read handle. -/
def unread (slotSize : ℕ) (mats : Fin M → ChunkMaterializer) (handle : Fin M) (offset : ℕ) :
    List (Place M) :=
  (((mats handle).endPtrs.zipIdx.drop offset).flatMap fun (endPtr, chunk) =>
    slotsFrom slotSize endPtr chunk 0).map (Prod.mk handle)

def unreadAll (slotSize : ℕ) (mats : Fin M → ChunkMaterializer) (offsets : Fin M → ℕ) :
    Multiset (Place M) :=
  ∑ h, (unread slotSize mats h (offsets h) : Multiset (Place M))

/-- A sum over a function that changes in one place. -/
theorem sum_update {ι β A : Type*} [Fintype ι] [DecidableEq ι] [AddCommMonoid A] (f : ι → β → A)
    (g : ι → β) (i : ι) (x : β) :
    ∑ j, f j (Function.update g i x j) + f i (g i) = ∑ j, f j (g j) + f i x := by
  have hother : ∀ j ∈ Finset.univ.erase i, f j (Function.update g i x j) = f j (g j) := by
    intro j hj
    rw [Function.update_of_ne (Finset.ne_of_mem_erase hj)]
  rw [← Finset.add_sum_erase _ _ (Finset.mem_univ i), Finset.sum_congr rfl hother,
    ← Finset.add_sum_erase (a := i) Finset.univ (fun j => f j (g j)) (Finset.mem_univ i),
    Function.update_self]
  ac_rfl

theorem unread_none {handle : Fin M} {offset : ℕ}
    (h : (mats handle).chunks[offset]? = none) : unread slotSize mats handle offset = [] := by
  have hle : (mats handle).chunks.length ≤ offset := List.getElem?_eq_none_iff.mp h
  rw [unread, List.drop_eq_nil_of_le (by simpa [ChunkMaterializer.endPtrs] using hle)]
  rfl

/-- The next chunk of a read handle, and the chunks after it. -/
theorem unread_some {handle : Fin M} {offset : ℕ} {chunk : MatChunk}
    (h : (mats handle).chunks[offset]? = some chunk) :
    unread slotSize mats handle offset =
      PulledChunk.placesFrom slotSize ⟨handle, offset, chunk⟩ 0 ++
        unread slotSize mats handle (offset + 1) := by
  obtain ⟨hlt, hget⟩ := List.getElem?_eq_some_iff.mp h
  have hlen : offset < (mats handle).endPtrs.zipIdx.length := by
    simpa [ChunkMaterializer.endPtrs] using hlt
  rw [unread, List.drop_eq_getElem_cons hlen, List.flatMap_cons, List.map_append]
  simp [PulledChunk.placesFrom, unread, ChunkMaterializer.endPtrs, hget]

/-- Reading a chunk takes its tuples from those that are unread. -/
theorem unreadAll_pull {offsets : Fin M → ℕ} {handle : Fin M} {chunk : MatChunk}
    (h : (mats handle).chunks[offsets handle]? = some chunk) :
    (PulledChunk.placesFrom slotSize ⟨handle, offsets handle, chunk⟩ 0 : Multiset (Place M)) +
        unreadAll slotSize mats (Function.update offsets handle (offsets handle + 1)) =
      unreadAll slotSize mats offsets := by
  have hsum := sum_update
    (fun j o => (unread slotSize mats j o : Multiset (Place M))) offsets handle
    (offsets handle + 1)
  simp only [unread_some h, ← Multiset.coe_add] at hsum
  rw [← add_assoc] at hsum
  rw [add_comm]
  exact add_right_cancel hsum

theorem unreadAll_exhausted {offsets : Fin M → ℕ} {handle : Fin M}
    (h : (mats handle).chunks[offsets handle]? = none) :
    unreadAll slotSize mats (Function.update offsets handle (offsets handle + 1)) =
      unreadAll slotSize mats offsets := by
  have hsum := sum_update
    (fun j o => (unread slotSize mats j o : Multiset (Place M))) offsets handle
    (offsets handle + 1)
  have hnext : (mats handle).chunks[offsets handle + 1]? = none := by
    rw [List.getElem?_eq_none_iff] at h ⊢
    omega
  simpa [unreadAll, unread_none h, unread_none hnext] using hsum

end Shares

section Invariant

variable {C : Comparator} {slotSize : ℕ} {mats : Fin M → ChunkMaterializer}

def PulledChunk.Stored (mats : Fin M → ChunkMaterializer) (p : PulledChunk M) : Prop :=
  (mats p.handle).chunks[p.number]? = some p.chunk

/-- A batch of which `batchIdx` tuples are hashed. -/
structure Batch.Hashing (C : Comparator) (slotSize : ℕ) (mats : Fin M → ChunkMaterializer)
    (b : Batch M) (it : ℕ) (hashes : ℕ → UInt64) : Prop where
  stored : b.pulled.Stored mats
  dvd : slotSize ∣ b.currTuple
  size_pos : 0 < b.size
  size_le : b.size ≤ batchSize
  idx_le : b.batchIdx ≤ b.size
  it_eq : it = b.currTuple + b.batchIdx * slotSize
  within : b.currTuple + b.size * slotSize ≤ b.pulled.chunk.endPtr
  own : ∀ i, i < b.batchIdx →
    hashes i = C.hash (b.pulled.pointer (b.currTuple + i * slotSize))

/-- A batch of which `batchIdx` tuples are inserted: `curr_tuple` is the next one. -/
structure Batch.Inserting (C : Comparator) (slotSize : ℕ) (mats : Fin M → ChunkMaterializer)
    (b : Batch M) (hashes : ℕ → UInt64) : Prop where
  stored : b.pulled.Stored mats
  dvd : slotSize ∣ b.currTuple
  size_le : b.size ≤ batchSize
  idx_le : b.batchIdx ≤ b.size
  within : b.currTuple + (b.size - b.batchIdx) * slotSize ≤ b.pulled.chunk.endPtr
  own : ∀ i, i < b.size - b.batchIdx →
    hashes (b.batchIdx + i) = C.hash (b.pulled.pointer (b.currTuple + i * slotSize))

def Worker.InPlace (C : Comparator) (slotSize : ℕ) (mats : Fin M → ChunkMaterializer)
    (th : Worker M) : Prop :=
  match th.pc with
  | .pull _ => True
  | .chunk p currTuple => p.Stored mats ∧ slotSize ∣ currTuple
  | .hash b it => b.Hashing C slotSize mats it th.hashes
  | .insert b => b.Inserting C slotSize mats th.hashes
  | .load b _ _ | .exchange b _ _ _ | .copy b _ =>
    b.Inserting C slotSize mats th.hashes ∧ b.batchIdx < b.size

structure Worker.OwnHashes (C : Comparator) (mats : Fin M → ChunkMaterializer)
    (th : Worker M) : Prop where
  hashed : ∀ e ∈ th.hashed, e.2 = C.hash (pointerTo mats e.1)
  inserted : ∀ e ∈ th.inserted, e.hash = C.hash (pointerTo mats e.tuple)

theorem PulledChunk.Stored.pointerTo {p : PulledChunk M} (h : p.Stored mats) (offset : ℕ) :
    pointerTo mats (p.place offset) = p.pointer offset := by
  unfold PulledChunk.Stored at h
  simp only [Algebra.pointerTo, PulledChunk.place, h]
  rfl

variable {offsets offsets' : Fin M → ℕ} {th th' : Worker M}

/-- The hashes of a batch are complete, and its first tuple is the next to insert. -/
theorem Batch.Hashing.inserting {b : Batch M} {it : ℕ} {hashes : ℕ → UInt64}
    (h : b.Hashing C slotSize mats it hashes) (hdone : b.size ≤ b.batchIdx) :
    Batch.Inserting C slotSize mats { b with batchIdx := 0 } hashes where
  stored := h.stored
  dvd := h.dvd
  size_le := h.size_le
  idx_le := Nat.zero_le _
  within := h.within
  own := by
    intro i hi
    rw [Nat.zero_add]
    exact h.own i (by simp only at hi; omega)

theorem Batch.Hashing.next {b : Batch M} {it : ℕ} {hashes : ℕ → UInt64}
    (h : b.Hashing C slotSize mats it hashes) (hlt : b.batchIdx < b.size) :
    Batch.Hashing C slotSize mats { b with batchIdx := b.batchIdx + 1 } (it + slotSize)
      (Function.update hashes b.batchIdx (C.hash (b.pulled.pointer it))) where
  stored := h.stored
  dvd := h.dvd
  size_pos := h.size_pos
  size_le := h.size_le
  idx_le := hlt
  it_eq := by
    simp only [h.it_eq, Nat.succ_mul]
    omega
  within := h.within
  own := by
    intro i hi
    rcases Nat.lt_succ_iff_lt_or_eq.mp hi with hbefore | rfl
    · rw [Function.update_of_ne hbefore.ne]
      exact h.own i hbefore
    · rw [Function.update_self, h.it_eq]

/-- The tuple that is hashed next lies before `end_ptr`. -/
theorem Batch.Hashing.next_le {b : Batch M} {it : ℕ} {hashes : ℕ → UInt64}
    (h : b.Hashing C slotSize mats it hashes) (hlt : b.batchIdx < b.size) :
    it + slotSize ≤ b.pulled.chunk.endPtr := by
  have hle : (b.batchIdx + 1) * slotSize ≤ b.size * slotSize := Nat.mul_le_mul_right _ hlt
  have hwithin := h.within
  rw [Nat.succ_mul] at hle
  rw [h.it_eq]
  omega

/-- The tuple that is inserted next lies before `end_ptr`. -/
theorem Batch.Inserting.next_le {b : Batch M} {hashes : ℕ → UInt64}
    (h : b.Inserting C slotSize mats hashes) (hlt : b.batchIdx < b.size) :
    b.currTuple + slotSize ≤ b.pulled.chunk.endPtr := by
  have hle : 1 * slotSize ≤ (b.size - b.batchIdx) * slotSize :=
    Nat.mul_le_mul_right _ (by omega)
  have hwithin := h.within
  omega

theorem Batch.Inserting.next {b : Batch M} {hashes : ℕ → UInt64}
    (h : b.Inserting C slotSize mats hashes) (hlt : b.batchIdx < b.size) :
    Batch.Inserting C slotSize mats
      { b with currTuple := b.currTuple + slotSize, batchIdx := b.batchIdx + 1 } hashes where
  stored := h.stored
  dvd := Nat.dvd_add h.dvd (Nat.dvd_refl _)
  size_le := h.size_le
  idx_le := hlt
  within := by
    have hsplit : b.size - b.batchIdx = b.size - (b.batchIdx + 1) + 1 := by omega
    have hwithin := h.within
    rw [hsplit, Nat.succ_mul] at hwithin
    simp only
    omega
  own := by
    intro i hi
    have hown := h.own (i + 1) (by simp only at hi; omega)
    rw [Nat.succ_mul] at hown
    simp only
    rw [show b.batchIdx + 1 + i = b.batchIdx + (i + 1) by omega, hown]
    congr 2
    omega

theorem PulledChunk.placesFrom_eq_nil {p : PulledChunk M} {offset : ℕ}
    (h : p.chunk.endPtr ≤ offset) : p.placesFrom slotSize offset = [] := by
  rw [PulledChunk.placesFrom, slotsFrom_eq_nil h]
  rfl

theorem Move.ownHashes (hmove : Move C slotSize mats offsets th offsets' th')
    (h : th.InPlace C slotSize mats) (hown : th.OwnHashes C mats) : th'.OwnHashes C mats := by
  obtain ⟨hhashed, hinserted⟩ := hown
  cases hmove with
  | hashed hpc hlt =>
    simp only [Worker.InPlace, hpc] at h
    refine ⟨?_, hinserted⟩
    intro e he
    rcases List.mem_append.mp he with hbefore | hnew
    · exact hhashed e hbefore
    · obtain rfl := List.mem_singleton.mp hnew
      simp only [h.stored.pointerTo]
  | copied hpc =>
    simp only [Worker.InPlace, hpc] at h
    refine ⟨hhashed, ?_⟩
    intro e he
    rcases List.mem_append.mp he with hbefore | hnew
    · exact hinserted e hbefore
    · obtain rfl := List.mem_singleton.mp hnew
      have hfirst := h.1.own 0 (by omega)
      simpa [h.1.stored.pointerTo] using hfirst
  | _ => exact ⟨hhashed, hinserted⟩

variable (hpos : 0 < slotSize)
include hpos

theorem PulledChunk.placesFrom_eq_cons {p : PulledChunk M} {offset : ℕ}
    (h : offset + slotSize ≤ p.chunk.endPtr) :
    p.placesFrom slotSize offset = p.place offset :: p.placesFrom slotSize (offset + slotSize) := by
  rw [PulledChunk.placesFrom, slotsFrom_eq_cons hpos h]
  rfl

/-- What a worker has hashed, will hash, and what is unread stays the same. -/
theorem Move.hash_once (hmove : Move C slotSize mats offsets th offsets' th')
    (h : th.InPlace C slotSize mats) :
    ((th'.hashed.map Prod.fst ++ th'.toHash slotSize : List (Place M)) : Multiset (Place M)) +
        unreadAll slotSize mats offsets' =
      ((th.hashed.map Prod.fst ++ th.toHash slotSize : List (Place M)) : Multiset (Place M)) +
        unreadAll slotSize mats offsets := by
  cases hmove with
  | returned _ _ => rfl
  | exhausted handle hpc hnone =>
    rw [unreadAll_exhausted hnone]
    simp [Worker.toHash, hpc]
  | pulled handle hpc hchunk =>
    rw [← unreadAll_pull hchunk]
    simp [Worker.toHash, hpc, add_assoc, ← Multiset.coe_add]
  | batch hpc hlt => simp [Worker.toHash, hpc]
  | chunkDone hpc hle =>
    simp [Worker.toHash, hpc, PulledChunk.placesFrom_eq_nil hle]
  | @hashed b it hpc hlt =>
    simp only [Worker.InPlace, hpc] at h
    have hroom : it + slotSize ≤ b.pulled.chunk.endPtr := h.next_le hlt
    simp [Worker.toHash, hpc, PulledChunk.placesFrom_eq_cons hpos hroom]
  | @hashesDone b it hpc hdone =>
    simp only [Worker.InPlace, hpc] at h
    have hall : b.batchIdx = b.size := Nat.le_antisymm h.idx_le hdone
    simp [Worker.toHash, hpc, h.it_eq, hall]
  | call idx hpc hlt => simp [Worker.toHash, hpc]
  | batchDone hpc hle => simp [Worker.toHash, hpc, Nat.sub_eq_zero_of_le hle]
  | loaded currTag hpc => simp [Worker.toHash, hpc]
  | filled next hpc => simp [Worker.toHash, hpc]
  | lost next hpc => simp [Worker.toHash, hpc]
  | claimed hpc => simp [Worker.toHash, hpc]
  | @copied b idx hpc =>
    simp only [Worker.InPlace, hpc] at h
    have hlt := h.2
    have hsplit : b.size - b.batchIdx = b.size - (b.batchIdx + 1) + 1 := by omega
    have hrest : b.currTuple + slotSize + (b.size - (b.batchIdx + 1)) * slotSize =
        b.currTuple + (b.size - b.batchIdx) * slotSize := by
      rw [hsplit, Nat.succ_mul]
      omega
    simp [Worker.toHash, hpc, hrest]

/-- What a worker has inserted, will insert, and what is unread stays the same. -/
theorem Move.insert_once (hmove : Move C slotSize mats offsets th offsets' th')
    (h : th.InPlace C slotSize mats) :
    ((th'.inserted.map Insertion.tuple ++ th'.toInsert slotSize : List (Place M)) :
        Multiset (Place M)) + unreadAll slotSize mats offsets' =
      ((th.inserted.map Insertion.tuple ++ th.toInsert slotSize : List (Place M)) :
        Multiset (Place M)) + unreadAll slotSize mats offsets := by
  cases hmove with
  | returned _ _ => rfl
  | exhausted handle hpc hnone =>
    rw [unreadAll_exhausted hnone]
    simp [Worker.toInsert, hpc]
  | pulled handle hpc hchunk =>
    rw [← unreadAll_pull hchunk]
    simp [Worker.toInsert, hpc, add_assoc, ← Multiset.coe_add]
  | batch hpc hlt => simp [Worker.toInsert, hpc]
  | chunkDone hpc hle => simp [Worker.toInsert, hpc, PulledChunk.placesFrom_eq_nil hle]
  | hashed hpc hlt => simp [Worker.toInsert, hpc]
  | hashesDone hpc hdone => simp [Worker.toInsert, hpc]
  | call idx hpc hlt => simp [Worker.toInsert, hpc]
  | batchDone hpc hle => simp [Worker.toInsert, hpc]
  | loaded currTag hpc => simp [Worker.toInsert, hpc]
  | filled next hpc => simp [Worker.toInsert, hpc]
  | lost next hpc => simp [Worker.toInsert, hpc]
  | claimed hpc => simp [Worker.toInsert, hpc]
  | @copied b idx hpc =>
    simp only [Worker.InPlace, hpc] at h
    have hroom : b.currTuple + slotSize ≤ b.pulled.chunk.endPtr := h.1.next_le h.2
    simp [Worker.toInsert, hpc, PulledChunk.placesFrom_eq_cons hpos hroom]

variable (hwf : ∀ h, (mats h).WellFormed) (hsize : ∀ h, (mats h).tupleSize = slotSize)
include hwf hsize

omit hpos in
theorem PulledChunk.Stored.fits {p : PulledChunk M} (h : p.Stored mats) :
    p.chunk.Fits slotSize := by
  rw [← hsize p.handle]
  exact hwf p.handle p.chunk (List.mem_of_getElem? h)

/-- A batch starts in a chunk that is not at its end. -/
theorem hashing_start {p : PulledChunk M} {currTuple : ℕ} (hashes : ℕ → UInt64)
    (hp : p.Stored mats) (hdvd : slotSize ∣ currTuple) (hlt : currTuple < p.chunk.endPtr) :
    Batch.Hashing C slotSize mats
      ⟨p, currTuple, min batchSize ((p.chunk.endPtr - currTuple) / slotSize), 0⟩ currTuple
      hashes where
  stored := hp
  dvd := hdvd
  size_pos := by
    have hfits := hp.fits hwf hsize
    have hle : slotSize ≤ p.chunk.endPtr - currTuple :=
      Nat.le_of_dvd (by omega) (Nat.dvd_sub hfits.dvd hdvd)
    have hone : 0 < (p.chunk.endPtr - currTuple) / slotSize := Nat.div_pos hle hpos
    exact lt_min (by decide) hone
  size_le := min_le_left _ _
  idx_le := Nat.zero_le _
  it_eq := by simp
  within := by
    have hmin : min batchSize ((p.chunk.endPtr - currTuple) / slotSize) * slotSize ≤
        (p.chunk.endPtr - currTuple) / slotSize * slotSize :=
      Nat.mul_le_mul_right _ (min_le_right _ _)
    have hdiv := Nat.div_mul_le_self (p.chunk.endPtr - currTuple) slotSize
    simp only
    omega
  own := by
    intro i hi
    exact absurd hi (Nat.not_lt_zero i)

theorem Move.inPlace (hmove : Move C slotSize mats offsets th offsets' th')
    (h : th.InPlace C slotSize mats) : th'.InPlace C slotSize mats := by
  cases hmove with
  | returned _ _ => exact h
  | exhausted _ _ _ => trivial
  | pulled _ _ hchunk => exact ⟨hchunk, Nat.dvd_zero _⟩
  | batch hpc hlt =>
    simp only [Worker.InPlace, hpc] at h
    exact hashing_start hpos hwf hsize _ h.1 h.2 hlt
  | chunkDone _ _ => trivial
  | hashed hpc hlt =>
    simp only [Worker.InPlace, hpc] at h
    exact h.next hlt
  | hashesDone hpc hdone =>
    simp only [Worker.InPlace, hpc] at h
    exact h.inserting hdone
  | call idx hpc hlt =>
    simp only [Worker.InPlace, hpc] at h
    exact ⟨h, hlt⟩
  | batchDone hpc _ =>
    simp only [Worker.InPlace, hpc] at h
    exact ⟨h.stored, h.dvd⟩
  | loaded currTag hpc =>
    simp only [Worker.InPlace, hpc] at h
    exact h
  | filled next hpc =>
    simp only [Worker.InPlace, hpc] at h
    exact h
  | lost next hpc =>
    simp only [Worker.InPlace, hpc] at h
    exact h
  | claimed hpc =>
    simp only [Worker.InPlace, hpc] at h
    exact h
  | copied hpc =>
    simp only [Worker.InPlace, hpc] at h
    exact h.1.next h.2

end Invariant

end InkFuse.Algebra
