import InkFuse.Algebra.MaterializedInsert

/-!
The workers of a join build return. A worker is done after a number of own steps that does
not depend on the schedule, and then every materialized tuple is in the hash table.
-/

namespace InkFuse.Algebra

open Bytes
open InkFuse.Runtime

variable {M T : ℕ}

/-- The most steps that a worker takes for `n` tuples of a chunk, in a table with `numSlots`
slots. An insert takes up to two steps for every slot. -/
def chunkSteps (numSlots n : ℕ) : ℕ := (2 * numSlots + 6) * n + 1

/-- The most steps for the chunks that are unread in a materializer. -/
def unreadSteps (numSlots slotSize : ℕ) (m : ChunkMaterializer) (offset : ℕ) : ℕ :=
  ((m.endPtrs.drop offset).map fun endPtr => chunkSteps numSlots (endPtr / slotSize) + 1).sum

def handleSteps (numSlots slotSize : ℕ) (mats : Fin M → ChunkMaterializer) (offsets : Fin M → ℕ)
    (handle : ℕ) : ℕ :=
  ∑ k, if handle ≤ k.val then unreadSteps numSlots slotSize (mats k) (offsets k) + 1 else 0

def Batch.rest (b : Batch M) : ℕ := b.size - b.batchIdx

def Batch.steps (numSlots slotSize : ℕ) (b : Batch M) : ℕ :=
  (2 * numSlots + 2) * b.rest + 1 +
    chunkSteps numSlots
      ((b.pulled.chunk.endPtr - (b.currTuple + b.rest * slotSize)) / slotSize)

def Worker.chunkStepsLeft (numSlots slotSize : ℕ) (th : Worker M) : ℕ :=
  match th.pc with
  | .pull _ => 0
  | .chunk p currTuple => chunkSteps numSlots ((p.chunk.endPtr - currTuple) / slotSize)
  | .hash b _ => b.rest + 1 + Batch.steps numSlots slotSize { b with batchIdx := 0 }
  | .insert b => b.steps numSlots slotSize
  | .load b _ probes =>
    2 * (numSlots - probes) + 1 + Batch.steps numSlots slotSize
      { b with currTuple := b.currTuple + slotSize, batchIdx := b.batchIdx + 1 }
  | .exchange b _ _ probes =>
    2 * (numSlots - probes) + Batch.steps numSlots slotSize
      { b with currTuple := b.currTuple + slotSize, batchIdx := b.batchIdx + 1 }
  | .copy b _ =>
    1 + Batch.steps numSlots slotSize
      { b with currTuple := b.currTuple + slotSize, batchIdx := b.batchIdx + 1 }

def Worker.stepsLeft (numSlots slotSize : ℕ) (mats : Fin M → ChunkMaterializer)
    (offsets : Fin M → ℕ) (th : Worker M) : ℕ :=
  th.chunkStepsLeft numSlots slotSize + handleSteps numSlots slotSize mats offsets th.handle

def Worker.Returned (th : Worker M) : Prop := ∃ handle, M ≤ handle ∧ th.pc = .pull handle

section Handles

variable {numSlots slotSize : ℕ} {mats : Fin M → ChunkMaterializer} {offsets : Fin M → ℕ}

theorem unreadSteps_none {m : ChunkMaterializer} {offset : ℕ} (h : m.chunks[offset]? = none) :
    unreadSteps numSlots slotSize m offset = 0 := by
  have hle : m.chunks.length ≤ offset := List.getElem?_eq_none_iff.mp h
  rw [unreadSteps, List.drop_eq_nil_of_le (by simpa [ChunkMaterializer.endPtrs] using hle)]
  rfl

theorem unreadSteps_some {m : ChunkMaterializer} {offset : ℕ} {c : MatChunk}
    (h : m.chunks[offset]? = some c) :
    unreadSteps numSlots slotSize m offset =
      chunkSteps numSlots (c.endPtr / slotSize) + 1 +
        unreadSteps numSlots slotSize m (offset + 1) := by
  obtain ⟨hlt, hget⟩ := List.getElem?_eq_some_iff.mp h
  have hlen : offset < m.endPtrs.length := by simpa [ChunkMaterializer.endPtrs] using hlt
  rw [unreadSteps, List.drop_eq_getElem_cons hlen, List.map_cons, List.sum_cons]
  simp [unreadSteps, ChunkMaterializer.endPtrs, hget]

theorem unreadSteps_mono (m : ChunkMaterializer) {o o' : ℕ} (h : o ≤ o') :
    unreadSteps numSlots slotSize m o' ≤ unreadSteps numSlots slotSize m o := by
  induction h with
  | refl => exact Nat.le_refl _
  | @step k _ ih =>
    apply Nat.le_trans _ ih
    show unreadSteps numSlots slotSize m (k + 1) ≤ unreadSteps numSlots slotSize m k
    cases hk : m.chunks[k]? with
    | none =>
      have hnext : m.chunks[k + 1]? = none := by
        rw [List.getElem?_eq_none_iff] at hk ⊢
        omega
      rw [unreadSteps_none hnext]
      exact Nat.zero_le _
    | some c =>
      rw [unreadSteps_some hk]
      omega

theorem handleSteps_mono {offsets' : Fin M → ℕ} (h : ∀ k, offsets k ≤ offsets' k) (handle : ℕ) :
    handleSteps numSlots slotSize mats offsets' handle ≤
      handleSteps numSlots slotSize mats offsets handle := by
  apply Finset.sum_le_sum
  intro k _
  have hk : unreadSteps numSlots slotSize (mats k) (offsets' k) ≤
      unreadSteps numSlots slotSize (mats k) (offsets k) := unreadSteps_mono (mats k) (h k)
  split
  · omega
  · exact Nat.le_refl _

theorem handleSteps_returned {handle : ℕ} (h : M ≤ handle) :
    handleSteps numSlots slotSize mats offsets handle = 0 := by
  apply Finset.sum_eq_zero
  intro k _
  have hlt := k.isLt
  rw [if_neg (by omega)]

/-- What is left at a read handle is left at it and at those after it. -/
theorem handleSteps_eq (handle : Fin M) :
    handleSteps numSlots slotSize mats offsets handle =
      unreadSteps numSlots slotSize (mats handle) (offsets handle) + 1 +
        handleSteps numSlots slotSize mats offsets (handle + 1) := by
  have hsplit : ∀ k : Fin M,
      (if handle.val ≤ k.val then unreadSteps numSlots slotSize (mats k) (offsets k) + 1 else 0) =
      (if k = handle then unreadSteps numSlots slotSize (mats k) (offsets k) + 1 else 0) +
        if handle.val + 1 ≤ k.val then
          unreadSteps numSlots slotSize (mats k) (offsets k) + 1 else 0 := by
    intro k
    by_cases hk : k = handle
    · subst hk
      simp
    · have hne : k.val ≠ handle.val := fun heq => hk (Fin.ext heq)
      have hiff : handle.val ≤ k.val ↔ handle.val + 1 ≤ k.val := by omega
      simp [hk, hiff]
  rw [handleSteps, Finset.sum_congr rfl fun k _ => hsplit k, Finset.sum_add_distrib,
    Finset.sum_ite_eq' Finset.univ handle, if_pos (Finset.mem_univ _)]
  rfl

theorem handleSteps_update (handle : Fin M) (x : ℕ) :
    handleSteps numSlots slotSize mats (Function.update offsets handle x) (handle + 1) =
      handleSteps numSlots slotSize mats offsets (handle + 1) := by
  apply Finset.sum_congr rfl
  intro k _
  by_cases hk : k = handle
  · subst hk
    rw [if_neg (by omega), if_neg (by omega)]
  · rw [Function.update_of_ne hk]

end Handles

section Steps

variable {C : Comparator} {numSlots slotSize : ℕ} {mats : Fin M → ChunkMaterializer}
  {offsets offsets' : Fin M → ℕ} {th th' : Worker M}

/-- A batch takes fewer steps than its chunk has left. -/
theorem batch_steps_lt {p : PulledChunk M} {currTuple size : ℕ} (hpos : 0 < slotSize)
    (hsize : 0 < size) (hwithin : currTuple + size * slotSize ≤ p.chunk.endPtr) :
    size + 1 + Batch.steps numSlots slotSize ⟨p, currTuple, size, 0⟩ <
      chunkSteps numSlots ((p.chunk.endPtr - currTuple) / slotSize) := by
  have hsplit : p.chunk.endPtr - currTuple =
      p.chunk.endPtr - (currTuple + size * slotSize) + size * slotSize := by omega
  have hdiv : (p.chunk.endPtr - currTuple) / slotSize =
      (p.chunk.endPtr - (currTuple + size * slotSize)) / slotSize + size := by
    rw [hsplit, Nat.add_mul_div_right _ _ hpos]
  have hrest : Batch.rest (⟨p, currTuple, size, 0⟩ : Batch M) = size := Nat.sub_zero size
  rw [hdiv]
  simp only [Batch.steps, hrest, chunkSteps]
  set after := (p.chunk.endPtr - (currTuple + size * slotSize)) / slotSize
  have hcost : (2 * numSlots + 6) * (after + size) =
      (2 * numSlots + 6) * after + (2 * numSlots + 2) * size + 4 * size := by ring
  omega

theorem Batch.steps_next {b : Batch M} (hlt : b.batchIdx < b.size) :
    b.steps numSlots slotSize = 2 * numSlots + 2 + Batch.steps numSlots slotSize
      { b with currTuple := b.currTuple + slotSize, batchIdx := b.batchIdx + 1 } := by
  have hrest : b.size - b.batchIdx = b.size - (b.batchIdx + 1) + 1 := by omega
  have hend : b.currTuple + (b.size - (b.batchIdx + 1) + 1) * slotSize =
      b.currTuple + slotSize + (b.size - (b.batchIdx + 1)) * slotSize := by
    rw [Nat.succ_mul]
    omega
  simp only [Batch.steps, Batch.rest]
  rw [hrest, hend, Nat.mul_succ]
  omega

/-- A step brings its worker closer to its return. -/
theorem Move.stepsLeft_lt (hmove : Move C slotSize mats offsets th offsets' th')
    (hpos : 0 < slotSize) (hwf : ∀ h, (mats h).WellFormed)
    (hsize : ∀ h, (mats h).tupleSize = slotSize) (hin : th.InPlace C slotSize mats)
    (hload : ∀ b idx probes, th.pc = .load b idx probes → probes < numSlots)
    (hexchange : ∀ b idx currTag probes, th.pc = .exchange b idx currTag probes →
      probes < numSlots)
    (hactive : ¬ th.Returned) :
    th'.stepsLeft numSlots slotSize mats offsets' <
      th.stepsLeft numSlots slotSize mats offsets := by
  cases hmove with
  | returned hM hpc => exact absurd ⟨_, hM, hpc⟩ hactive
  | exhausted handle hpc hnone =>
    simp only [Worker.stepsLeft, Worker.chunkStepsLeft, Worker.handle, hpc]
    rw [handleSteps_update, handleSteps_eq handle, unreadSteps_none hnone]
    omega
  | @pulled handle chunk hpc hsome =>
    simp only [Worker.stepsLeft, Worker.chunkStepsLeft, Worker.handle, hpc]
    rw [handleSteps_eq handle, handleSteps_eq handle, handleSteps_update, Function.update_self,
      unreadSteps_some hsome, Nat.sub_zero]
    omega
  | @batch p currTuple hpc hlt =>
    simp only [Worker.InPlace, hpc] at hin
    have hstart : Batch.Hashing C slotSize mats _ currTuple th.hashes :=
      hashing_start hpos hwf hsize th.hashes hin.1 hin.2 hlt
    have hbatch : _ < chunkSteps numSlots ((p.chunk.endPtr - currTuple) / slotSize) :=
      batch_steps_lt hpos hstart.size_pos hstart.within
    simp only [Worker.stepsLeft, Worker.chunkStepsLeft, Worker.handle, hpc, Batch.rest,
      Nat.sub_zero] at hbatch ⊢
    omega
  | chunkDone hpc _ =>
    simp only [Worker.stepsLeft, Worker.chunkStepsLeft, Worker.handle, hpc, chunkSteps]
    omega
  | hashed hpc hlt =>
    simp only [Worker.stepsLeft, Worker.chunkStepsLeft, Worker.handle, hpc, Batch.rest]
    omega
  | hashesDone hpc hdone =>
    simp only [Worker.stepsLeft, Worker.chunkStepsLeft, Worker.handle, hpc, Batch.rest]
    omega
  | call idx hpc hlt =>
    simp only [Worker.stepsLeft, Worker.chunkStepsLeft, Worker.handle, hpc]
    rw [Batch.steps_next hlt]
    omega
  | batchDone hpc hdone =>
    simp only [Worker.stepsLeft, Worker.chunkStepsLeft, Worker.handle, hpc, Batch.steps, Batch.rest,
      Nat.sub_eq_zero_of_le hdone, Nat.mul_zero, Nat.zero_mul, Nat.add_zero]
    omega
  | loaded currTag hpc =>
    simp only [Worker.stepsLeft, Worker.chunkStepsLeft, Worker.handle, hpc]
    omega
  | filled next hpc =>
    have hlt := hload _ _ _ hpc
    simp only [Worker.stepsLeft, Worker.chunkStepsLeft, Worker.handle, hpc]
    omega
  | lost next hpc =>
    have hlt := hexchange _ _ _ _ hpc
    simp only [Worker.stepsLeft, Worker.chunkStepsLeft, Worker.handle, hpc]
    omega
  | claimed hpc =>
    have hlt := hexchange _ _ _ _ hpc
    simp only [Worker.stepsLeft, Worker.chunkStepsLeft, Worker.handle, hpc]
    omega
  | copied hpc =>
    simp only [Worker.stepsLeft, Worker.chunkStepsLeft, Worker.handle, hpc]
    omega

end Steps

section Returns

variable {C : Comparator} {slotSize numSlots : ℕ} {mats : Fin M → ChunkMaterializer}
  {table : AtomicHashTable}

def Workers.stepsLeft (numSlots slotSize : ℕ) (mats : Fin M → ChunkMaterializer) (w : Workers M T)
    (t : Fin T) : ℕ :=
  (w.threads t).stepsLeft numSlots slotSize mats w.offsets

theorem stepsLeft_returned {w : Workers M T} {t : Fin T} (h : (w.threads t).Returned) :
    w.stepsLeft numSlots slotSize mats t = 0 ∧ workerStep C slotSize mats w t = w := by
  obtain ⟨handle, hM, hpc⟩ := h
  constructor
  · simp only [Workers.stepsLeft, Worker.stepsLeft, Worker.chunkStepsLeft, Worker.handle, hpc,
      handleSteps_returned hM]
  · have hlt : ¬ handle < M := by omega
    simp only [workerStep, hpc, hlt, dif_neg, not_false_iff]

theorem workersRun_append (w : Workers M T) (s₁ s₂ : List (Fin T)) :
    workersRun C slotSize mats w (s₁ ++ s₂) =
      workersRun C slotSize mats (workersRun C slotSize mats w s₁) s₂ := by
  simp [workersRun]

/-- A step takes one off the steps left of its worker, and adds to no other worker's. -/
theorem Ready.step_stepsLeft (h : Ready C slotSize numSlots mats table) (schedule : List (Fin T))
    (u : Fin T) :
    let w := workersRun C slotSize mats (startWorkers M table) schedule
    (¬ (w.threads u).Returned →
      (workerStep C slotSize mats w u).stepsLeft numSlots slotSize mats u <
        w.stepsLeft numSlots slotSize mats u) ∧
      ∀ t, t ≠ u → (workerStep C slotSize mats w u).stepsLeft numSlots slotSize mats t ≤
        w.stepsLeft numSlots slotSize mats t := by
  intro w
  have hinv : WorkersInv C slotSize mats w := h.inv schedule
  obtain ⟨offsets, th, hmove, hoffsets, hthreads⟩ := workerStep_move C slotSize mats w u
  have hprobes := h.probes_lt schedule u
  simp only [Workers.stepsLeft, hoffsets, hthreads]
  constructor
  · intro hactive
    rw [Function.update_self]
    exact hmove.stepsLeft_lt h.pos h.wellFormed h.tupleSize (hinv.inPlace u) hprobes.1 hprobes.2
      hactive
  · intro t htu
    rw [Function.update_of_ne htu]
    exact Nat.add_le_add_left (handleSteps_mono hmove.passed.1 _) _

/-- A schedule in which every worker has enough steps lets all of them return. -/
theorem Ready.finished_of_count (h : Ready C slotSize numSlots mats table)
    (before schedule : List (Fin T))
    (hcount : ∀ t, (workersRun C slotSize mats (startWorkers M table) before).stepsLeft numSlots
      slotSize mats t ≤ schedule.count t) :
    (workersRun C slotSize mats (startWorkers M table) (before ++ schedule)).Finished := by
  induction schedule generalizing before with
  | nil =>
    rw [List.append_nil]
    intro t
    by_contra hactive
    have hlt := (h.step_stepsLeft before t).1 hactive
    have hzero := hcount t
    rw [List.count_nil] at hzero
    omega
  | cons u rest ih =>
    have hstep := h.step_stepsLeft before u
    set w := workersRun C slotSize mats (startWorkers M table) before with hw
    have hnext : workersRun C slotSize mats (startWorkers M table) (before ++ [u]) =
        workerStep C slotSize mats w u := by
      rw [workersRun_append, ← hw]
      rfl
    rw [← List.singleton_append, ← List.append_assoc]
    apply ih
    intro t
    rw [hnext]
    have hle := hcount t
    by_cases htu : t = u
    · subst htu
      rw [List.count_cons_self] at hle
      by_cases hreturned : (w.threads t).Returned
      · obtain ⟨hzero, hsame⟩ : w.stepsLeft numSlots slotSize mats t = 0 ∧
            workerStep C slotSize mats w t = w := stepsLeft_returned hreturned
        rw [hsame, hzero]
        exact Nat.zero_le _
      · have hlt := hstep.1 hreturned
        omega
    · have hother := hstep.2 t htu
      rw [List.count_cons_of_ne (Ne.symm htu)] at hle
      omega

end Returns

def handedOut (slots : Fin M → List TupleSlot) : List (Place M) :=
  (List.finRange M).flatMap fun h => (slots h).map (Prod.mk h)

section Join

variable {keySize tupleSize : ℕ} {mats : Fin M → ChunkMaterializer}
  {slots : Fin M → List TupleSlot} {table : AtomicHashTable}

theorem places_eq_handedOut (hslots : ∀ h, slots h = (mats h).slots) :
    places mats = handedOut slots := by
  simp only [places, handedOut, hslots]

theorem hash_pointerTo {C : Comparator} (hC : ReadsRow C tupleSize)
    (hsize : ∀ h, (mats h).tupleSize = tupleSize) (p : Place M) :
    C.hash (pointerTo mats p) = C.hash (tupleOf mats p) := by
  unfold pointerTo tupleOf ChunkMaterializer.tupleAt
  cases (mats p.1).chunks[p.2.chunk]? with
  | none => rfl
  | some c =>
    have hrow := hC (c.data.drop p.2.offset)
    rw [← hrow, hsize]
    rfl

/-- The workers find the table that `allocHashTable` has made for the materializers. -/
theorem ready_of_allocHashTable (hash : Bytes → UInt64) (hpos : 0 < tupleSize)
    (hle : tupleSize ≤ regionSize) (hkey : keySize ≤ tupleSize)
    (hmats : ∀ h, Materialized tupleSize (mats h) (slots h))
    (halloc : allocHashTable tupleSize (List.ofFn fun h => (mats h).toMaterializer) = .ok table) :
    ∃ numSlots, Ready (simpleKeyComparator hash keySize) tupleSize numSlots mats table := by
  have hspec := fun h => (hmats h).spec hpos hle
  have hpos' : ∀ m ∈ List.ofFn fun h => (mats h).toMaterializer, 0 < m.tupleSize := by
    intro m hm
    obtain ⟨h, rfl⟩ := (List.mem_ofFn' _ _).mp hm
    show 0 < (mats h).tupleSize
    rw [(hspec h).2.1]
    exact hpos
  have hsize : tupleSize < 2 ^ 16 := by
    rw [regionSize] at hle
    omega
  obtain ⟨table', numSlots, halloc', hcreate, hslot, hmask, hroom⟩ :=
    allocHashTable_spec hsize hpos'
  obtain rfl := Except.ok.inj (halloc.symm.trans halloc')
  have hlen : ((List.ofFn fun h => (mats h).toMaterializer).map
      TupleMaterializer.tuples).flatten.length = (places mats).length := by
    rw [List.map_ofFn, places, List.flatMap, List.length_flatten, List.length_flatten,
      List.ofFn_eq_map, List.map_map, List.map_map]
    congr 1
    apply List.map_congr_left
    intro h _
    simp [ChunkMaterializer.toMaterializer_tuples]
  rw [hlen] at hroom
  exact ⟨numSlots, {
    pos := hpos
    wellFormed := fun h => (hspec h).1
    tupleSize := fun h => (hspec h).2.1
    readsRow := simpleKeyComparator_readsRow hash hkey
    keySize := hkey
    create := hcreate
    totalSlotSize := hslot
    modMask := hmask
    room := hroom }⟩

/-- Every build tuple is inserted exactly once. The memory that one materializer hands out does
not overlap, and `getNumTuples` counts it. Whatever the schedule, no worker reads beyond the
`end_ptr` of a chunk, no tuple is hashed or inserted twice, and only with its own hash. All
workers return if each gets enough steps, and then each tuple is hashed, inserted and in the
table, in a slot of its own. -/
theorem materialized_inserted_once (hash : Bytes → UInt64) (hpos : 0 < tupleSize)
    (hle : tupleSize ≤ regionSize) (hkey : keySize ≤ tupleSize)
    (hmats : ∀ h, Materialized tupleSize (mats h) (slots h))
    (halloc : allocHashTable tupleSize (List.ofFn fun h => (mats h).toMaterializer) = .ok table)
    (hT : 0 < T) :
    let C := simpleKeyComparator hash keySize
    let run := fun schedule : List (Fin T) =>
      workersRun C tupleSize mats (startWorkers M table) schedule
    let ownHash := fun p => hash (readAt (tupleOf mats p) 0 keySize)
    (∀ h, (slots h).Pairwise (TupleSlot.Disjoint tupleSize) ∧
      (∀ s ∈ slots h, ∃ c, (mats h).chunks[s.chunk]? = some c ∧
        s.offset + tupleSize ≤ c.endPtr ∧ c.endPtr ≤ c.data.length) ∧
      (mats h).getNumTuples = .ok (slots h).length) ∧
    (∀ schedule t p off len, (run schedule).reads C t = some (p, off, len) →
      (mats p.handle).chunks[p.number]? = some p.chunk ∧ off + len ≤ p.chunk.endPtr) ∧
    (∀ schedule, (handedOut slots).Nodup ∧
      ((run schedule).hashed.map Prod.fst).Subperm (handedOut slots) ∧
      ((run schedule).inserted.map Insertion.tuple).Subperm (handedOut slots) ∧
      (∀ e ∈ (run schedule).hashed, e.2 = ownHash e.1) ∧
      ∀ e ∈ (run schedule).inserted, e.hash = ownHash e.tuple) ∧
    (∃ enough, ∀ schedule, (∀ t, enough ≤ schedule.count t) → (run schedule).Finished) ∧
    ∀ schedule, (run schedule).Finished →
      ((run schedule).hashed.map Prod.fst).Perm (handedOut slots) ∧
      ((run schedule).inserted.map Insertion.tuple).Perm (handedOut slots) ∧
      ((run schedule).inserted.map Insertion.slot).Nodup ∧
      (∀ e ∈ (run schedule).inserted, e.slot < table.modMask + 1 ∧
        (run schedule).table.data e.slot = tupleOf mats e.tuple ∧
        (run schedule).table.tags e.slot = filledTag e.hash) ∧
      ∀ i, i < table.modMask + 1 → (run schedule).table.filled i →
        ∃ e ∈ (run schedule).inserted, e.slot = i := by
  intro C run ownHash
  have hspec := fun h => (hmats h).spec hpos hle
  have hslots : ∀ h, slots h = (mats h).slots := fun h => (hspec h).2.2
  obtain ⟨numSlots, hready⟩ := ready_of_allocHashTable hash hpos hle hkey hmats halloc
  have hinv : ∀ schedule, WorkersInv C tupleSize mats (run schedule) := hready.inv
  have hown : ∀ p, C.hash (pointerTo mats p) = ownHash p :=
    hash_pointerTo hready.readsRow hready.tupleSize
  have hmask : ∀ schedule, (run schedule).table.modMask = table.modMask :=
    fun schedule => (workersRun_table _ schedule).2
  have hinserted : ∀ schedule, ∀ e ∈ (run schedule).inserted, e.hash = ownHash e.tuple := by
    intro schedule e he
    obtain ⟨t, _, he⟩ := List.mem_flatMap.mp he
    rw [((hinv schedule).own t).inserted e he, hown]
  rw [← places_eq_handedOut hslots]
  refine ⟨?_, ?_, ?_, ?_, ?_⟩
  · intro h
    have hsize := (hspec h).2.1
    rw [hslots h, ← hsize]
    exact ⟨(mats h).slots_pairwise, fun s hs => (hspec h).1.slot_inside hs,
      ChunkMaterializer.getNumTuples_eq (by omega)⟩
  · intro schedule t p off len hreads
    have htable : (run schedule).table.totalSlotSize = tupleSize :=
      (workersRun_table _ schedule).1.trans hready.totalSlotSize
    exact (hinv schedule).reads_le hkey htable hreads
  · intro schedule
    have hsub := (hinv schedule).subperm
    refine ⟨places_nodup hpos hready.tupleSize, hsub.1, hsub.2, ?_, hinserted schedule⟩
    intro e he
    obtain ⟨t, _, he⟩ := List.mem_flatMap.mp he
    rw [((hinv schedule).own t).hashed e he, hown]
  · refine ⟨Worker.stepsLeft numSlots tupleSize mats (fun _ => 0) ⟨.pull 0, fun _ => 0, [], []⟩, ?_⟩
    intro schedule hcount
    exact hready.finished_of_count [] schedule hcount
  · intro schedule hfin
    obtain ⟨hfilled, htagged⟩ := hready.filled schedule hfin
    obtain ⟨hhashed, hdone⟩ := (hinv schedule).finished hfin ⟨0, hT⟩
    have hnodup := hfilled.nodup
    rw [List.map_map] at hnodup
    refine ⟨hhashed, hdone, hnodup, ?_, ?_⟩
    · intro e he
      obtain ⟨hlt, hfill, hdata⟩ := hfilled.placed_slot (tupleOf mats e.tuple) e.slot
        (List.mem_map.mpr ⟨e, he, rfl⟩)
      have htag := htagged e.slot hlt hfill
      refine ⟨by rwa [hmask schedule] at hlt, hdata, ?_⟩
      rw [hinserted schedule e he]
      rw [hdata] at htag
      exact htag
    · intro i hi hfill
      obtain ⟨row, hrow⟩ := hfilled.only_placed i (by rwa [← hmask schedule] at hi) hfill
      obtain ⟨e, he, heq⟩ := List.mem_map.mp hrow
      exact ⟨e, he, congrArg Prod.snd heq⟩

/-- Two materializers with two tuples each, and two workers that take turns. -/
theorem four_tuples_inserted :
    let mats : Fin 2 → ChunkMaterializer := fun h =>
      let first := (ChunkMaterializer.materialize ⟨2, [], MatChunk.alloc⟩).1.store ⟨0, 0⟩ 0
        [UInt8.ofNat h, 1]
      first.materialize.1.store ⟨0, 2⟩ 0 [UInt8.ofNat h + 2, 2]
    ∃ (table : AtomicHashTable) (rounds : ℕ),
      ((workersRun (simpleKeyComparator (fun _ => 0) 1) 2 mats (startWorkers 2 table)
        (List.replicate rounds [(0 : Fin 2), 1]).flatten).inserted.map Insertion.tuple).Perm
          [(0, ⟨0, 0⟩), (0, ⟨0, 2⟩), (1, ⟨0, 0⟩), (1, ⟨0, 2⟩)] := by
  intro mats
  have hcreated : Materialized 2 ⟨2, [], MatChunk.alloc⟩ [] := .create rfl
  have hmats : ∀ h, Materialized 2 (mats h) [⟨0, 0⟩, ⟨0, 2⟩] := fun h =>
    .store (.materialize (.store (.materialize hcreated) (by decide) (by simp)))
      (by decide) (by simp)
  have hpos : ∀ m ∈ List.ofFn fun h => (mats h).toMaterializer, 0 < m.tupleSize := by
    intro m hm
    obtain ⟨h, rfl⟩ := (List.mem_ofFn' _ _).mp hm
    exact Nat.two_pos
  obtain ⟨table, _, halloc, _⟩ := allocHashTable_spec (by decide : 2 < 2 ^ 16) hpos
  obtain ⟨_, _, _, ⟨enough, hfinish⟩, hall⟩ := materialized_inserted_once (T := 2) (fun _ => 0)
    (by decide : 0 < 2) (by decide) (by decide : 1 ≤ 2) hmats halloc (by decide)
  refine ⟨table, enough, (hall _ (hfinish _ fun t => ?_)).2.1⟩
  have hturns : ∀ n, (List.replicate n [(0 : Fin 2), 1]).flatten.count t = n := by
    intro n
    induction n with
    | zero => rfl
    | succ n ih =>
      rw [List.replicate_succ, List.flatten_cons, List.count_append, ih]
      fin_cases t <;> exact Nat.add_comm 1 n
  exact (hturns enough).ge

/-- What the workers leave behind is a table of the build side. -/
theorem workers_buildsTable {j : Join} {hash : Bytes → UInt64} {left : Fin T → List SideRow}
    (hsizes : BuildSizes j) {mats : Fin T → ChunkMaterializer} {slots : Fin T → List TupleSlot}
    (hmats : ∀ t, Materialized j.tupleSize (mats t) (slots t))
    (hrows : ∀ t, j.materializeRows (left t) = .ok (mats t).toMaterializer)
    (halloc : allocHashTable j.tupleSize (List.ofFn fun t => (mats t).toMaterializer) = .ok table)
    (hT : 0 < T) (schedule : List (Fin T)) :
    let w := workersRun (j.comparator hash) j.tupleSize mats (startWorkers T table) schedule
    w.Finished → BuildsTable j hash left w.table := by
  intro w hfin
  have hkey : j.keySizeLeft % 2 ^ 16 ≤ j.tupleSize := by
    have hmod := Nat.mod_le j.keySizeLeft (2 ^ 16)
    unfold Join.tupleSize
    omega
  obtain ⟨numSlots, hready⟩ :=
    ready_of_allocHashTable hash hsizes.tuple_pos hsizes.tuple_le hkey hmats halloc
  obtain ⟨picked, buildSchedule, occ, hrun, hroom, hbuild⟩ := hready.build schedule
  have hdone : (w.toBuild j.tupleSize mats fun _ => []).Finished := hfin.toBuild
  have hpicked := (hbuild.filled hroom hdone).2.2
  have hperm := ((hready.inv schedule).finished hfin ⟨0, hT⟩).2
  refine ⟨fun t => (mats t).toMaterializer, hrows, table, halloc, picked, buildSchedule, ?_, ?_, ?_⟩
  · have hflat : (List.ofFn picked).flatten =
        (w.inserted.map Insertion.tuple).map (tupleOf mats) := by
      rw [Workers.inserted, List.map_map, List.map_flatMap, List.ofFn_eq_map, List.flatMap]
      congr 1
      apply List.map_congr_left
      intro t _
      rw [← hpicked t]
      show ((w.threads t).done mats).map Prod.fst = _
      rw [Worker.done, List.map_map]
      rfl
    have htuples : ((List.ofFn fun t => (mats t).toMaterializer).map
        TupleMaterializer.tuples).flatten = (places mats).map (tupleOf mats) := by
      rw [List.map_ofFn, places, List.map_flatMap, List.ofFn_eq_map, List.flatMap]
      congr 1
      apply List.map_congr_left
      intro t _
      simp only [Function.comp_apply, ChunkMaterializer.toMaterializer_tuples, List.map_map]
      rfl
    rw [hflat, htuples]
    exact hperm.map _
  · rw [show j.comparator hash = simpleKeyComparator hash (j.keySizeLeft % 2 ^ 16) from rfl, hrun]
    exact hdone
  · rw [show j.comparator hash = simpleKeyComparator hash (j.keySizeLeft % 2 ^ 16) from rfl, hrun]
    rfl

end Join

end InkFuse.Algebra
