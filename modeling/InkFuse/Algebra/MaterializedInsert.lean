import InkFuse.Algebra.BuildShares

/-!
The workers of a join build insert the materialized tuples as the threads of `AtomicBuild`
insert their rows: every run of the workers is a parallel build in which each thread has the
tuples of the chunks it has pulled. All workers return after a bounded number of own steps.
-/

namespace InkFuse.Algebra

open Bytes
open InkFuse.Runtime

variable {M T : ℕ}

def Batch.tuple (slotSize : ℕ) (b : Batch M) : Bytes :=
  readAt b.pulled.chunk.data b.currTuple slotSize

def tupleOf (mats : Fin M → ChunkMaterializer) (p : Place M) : Bytes := (mats p.1).tupleAt p.2

def Worker.insertPc (slotSize : ℕ) (th : Worker M) : Pc :=
  match th.pc with
  | .load b idx probes => .load (b.tuple slotSize) idx probes
  | .exchange b idx currTag probes => .exchange (b.tuple slotSize) idx currTag probes
  | .copy b idx => .copy (b.tuple slotSize) idx
  | _ => .idle

def Worker.done (mats : Fin M → ChunkMaterializer) (th : Worker M) : List (Bytes × ℕ) :=
  th.inserted.map fun e => (tupleOf mats e.tuple, e.slot)

/-- The workers as threads that insert rows, where `todo` are the rows they have yet to start. -/
def Workers.toBuild (slotSize : ℕ) (mats : Fin M → ChunkMaterializer) (w : Workers M T)
    (todo : Fin T → List Bytes) : Build T where
  table := w.table
  threads := fun t => ⟨todo t, (w.threads t).insertPc slotSize, (w.threads t).done mats⟩

/-- The comparator reads no more of a row than `slotSize` bytes. -/
def ReadsRow (C : Comparator) (slotSize : ℕ) : Prop :=
  ∀ row, C.hash (readAt row 0 slotSize) = C.hash row

theorem simpleKeyComparator_readsRow (hash : Bytes → UInt64) {keySize slotSize : ℕ}
    (hkey : keySize ≤ slotSize) : ReadsRow (simpleKeyComparator hash keySize) slotSize := by
  intro row
  have hread : readAt (readAt row 0 slotSize) 0 keySize = readAt row (0 + 0) keySize :=
    readAt_readAt row (by omega)
  exact congrArg hash hread

section Simulation

variable {C : Comparator} {slotSize : ℕ} {mats : Fin M → ChunkMaterializer} {w : Workers M T}

/-- When one worker moves, one thread moves. -/
theorem toBuild_update (w : Workers M T) (t : Fin T) (th : Worker M) (table : AtomicHashTable)
    (offsets : Fin M → ℕ) (todo : Fin T → List Bytes) (rows : List Bytes) :
    Workers.toBuild slotSize mats ⟨table, offsets, Function.update w.threads t th⟩ todo =
      { (w.toBuild slotSize mats (Function.update todo t rows)).setThread t
          ⟨todo t, th.insertPc slotSize, th.done mats⟩ with table := table } := by
  simp only [Workers.toBuild, Build.setThread, Build.mk.injEq, true_and]
  funext u
  by_cases hut : u = t
  · subst hut
    simp
  · simp [Function.update_of_ne hut]

/-- A step outside of an insert is none of the parallel build. -/
theorem toBuild_same {t : Fin T} {th : Worker M} {offsets : Fin M → ℕ}
    (hpc : th.insertPc slotSize = (w.threads t).insertPc slotSize)
    (hdone : th.inserted = (w.threads t).inserted) (todo : Fin T → List Bytes) :
    Workers.toBuild slotSize mats ⟨w.table, offsets, Function.update w.threads t th⟩ todo =
      w.toBuild slotSize mats todo := by
  simp only [Workers.toBuild, Build.mk.injEq, true_and]
  funext u
  by_cases hut : u = t
  · subst hut
    simp [hpc, Worker.done, hdone]
  · simp [Function.update_of_ne hut]

/-- The steps that pull a chunk, hash a batch, or end one. -/
theorem toBuild_outside {t : Fin T}
    (hpc : (∃ handle, (w.threads t).pc = .pull handle) ∨
      (∃ p currTuple, (w.threads t).pc = .chunk p currTuple) ∨
      (∃ b it, (w.threads t).pc = .hash b it) ∨
      ∃ b, (w.threads t).pc = .insert b ∧ b.size ≤ b.batchIdx) (todo : Fin T → List Bytes) :
    (workerStep C slotSize mats w t).toBuild slotSize mats todo =
      w.toBuild slotSize mats todo := by
  rcases hpc with ⟨handle, hpc⟩ | ⟨p, currTuple, hpc⟩ | ⟨b, it, hpc⟩ | ⟨b, hpc, hdone⟩
  · by_cases hlt : handle < M
    · cases hchunk : (mats ⟨handle, hlt⟩).chunks[w.offsets ⟨handle, hlt⟩]? with
      | none =>
        simp only [workerStep, hpc, hlt, dif_pos, hchunk, Workers.setThread]
        apply toBuild_same
        · simp [Worker.insertPc, hpc]
        · rfl
      | some chunk =>
        simp only [workerStep, hpc, hlt, dif_pos, hchunk, Workers.setThread]
        apply toBuild_same
        · simp [Worker.insertPc, hpc]
        · rfl
    · simp only [workerStep, hpc, hlt, dif_neg, not_false_iff]
  · by_cases hlt : currTuple < p.chunk.endPtr
    · simp only [workerStep, hpc, hlt, if_pos, Workers.setThread]
      apply toBuild_same
      · simp [Worker.insertPc, hpc]
      · rfl
    · simp only [workerStep, hpc, hlt, if_neg, not_false_iff, Workers.setThread]
      apply toBuild_same
      · simp [Worker.insertPc, hpc]
      · rfl
  · by_cases hlt : b.batchIdx < b.size
    · simp only [workerStep, hpc, hlt, if_pos, Workers.setThread]
      apply toBuild_same
      · simp [Worker.insertPc, hpc]
      · rfl
    · simp only [workerStep, hpc, hlt, if_neg, not_false_iff, Workers.setThread]
      apply toBuild_same
      · simp [Worker.insertPc, hpc]
      · rfl
  · have hlt : ¬ b.batchIdx < b.size := by omega
    simp only [workerStep, hpc, hlt, if_neg, not_false_iff, Workers.setThread]
    apply toBuild_same
    · simp [Worker.insertPc, hpc]
    · rfl

/-- The hash that a worker passes to an insert is the one of its tuple. -/
theorem Batch.Inserting.hash_eq {b : Batch M} {hashes : ℕ → UInt64}
    (h : b.Inserting C slotSize mats hashes) (hlt : b.batchIdx < b.size)
    (hC : ReadsRow C slotSize) : hashes b.batchIdx = C.hash (b.tuple slotSize) := by
  have hown := h.own 0 (by omega)
  rw [Nat.add_zero, Nat.zero_mul, Nat.add_zero, ← hC] at hown
  exact hown

theorem PulledChunk.Stored.tupleOf {p : PulledChunk M} (h : p.Stored mats)
    (hsize : ∀ h, (mats h).tupleSize = slotSize) (offset : ℕ) :
    tupleOf mats (p.place offset) = readAt p.chunk.data offset slotSize := by
  unfold PulledChunk.Stored at h
  simp only [Algebra.tupleOf, ChunkMaterializer.tupleAt, PulledChunk.place, h, hsize]

/-- The call of an insert takes a row from those that a thread has yet to start. -/
theorem toBuild_call (hC : ReadsRow C slotSize) {t : Fin T} {b : Batch M}
    (hb : b.Inserting C slotSize mats (w.threads t).hashes) (hlt : b.batchIdx < b.size)
    (hpc : (w.threads t).pc = .insert b) (todo : Fin T → List Bytes) :
    buildStep C (w.toBuild slotSize mats (Function.update todo t (b.tuple slotSize :: todo t))) t =
      (workerStep C slotSize mats w t).toBuild slotSize mats todo := by
  have hhash := hb.hash_eq hlt hC
  simp only [workerStep, hpc, hlt, if_pos, Workers.setThread]
  rw [toBuild_update w t _ w.table w.offsets todo (b.tuple slotSize :: todo t)]
  simp only [buildStep, insertStep, Workers.toBuild, Worker.insertPc, hpc, Function.update_self,
    hhash]
  rfl

/-- The steps inside of an insert are those of the thread that inserts the row. -/
theorem toBuild_inside (hsize : ∀ h, (mats h).tupleSize = slotSize)
    (htable : w.table.totalSlotSize = slotSize) (hC : ReadsRow C slotSize)
    {t : Fin T} {b : Batch M} (hb : b.Inserting C slotSize mats (w.threads t).hashes)
    (hlt : b.batchIdx < b.size)
    (hpc : (∃ idx probes, (w.threads t).pc = .load b idx probes) ∨
      (∃ idx currTag probes, (w.threads t).pc = .exchange b idx currTag probes) ∨
      ∃ idx, (w.threads t).pc = .copy b idx) (todo : Fin T → List Bytes) :
    buildStep C (w.toBuild slotSize mats todo) t =
      (workerStep C slotSize mats w t).toBuild slotSize mats todo := by
  have hhash := hb.hash_eq hlt hC
  have htuple := hb.stored.tupleOf hsize b.currTuple
  have hsame : Function.update todo t (todo t) = todo := Function.update_eq_self t todo
  rcases hpc with ⟨idx, probes, hpc⟩ | ⟨idx, currTag, probes, hpc⟩ | ⟨idx, hpc⟩
  · by_cases hfree : w.table.tags idx &&& tagFillMask = 0
    · simp only [workerStep, hpc, hfree, if_true, Workers.setThread]
      rw [toBuild_update w t _ w.table w.offsets todo (todo t), hsame]
      simp only [buildStep, insertStep, Workers.toBuild, Worker.insertPc, hpc, hfree, if_true]
      rfl
    · simp only [workerStep, hpc, hfree, if_false, Workers.setThread]
      rw [toBuild_update w t _ w.table w.offsets todo (todo t), hsame]
      simp only [buildStep, insertStep, Workers.toBuild, Worker.insertPc, hpc, hfree, if_false]
      rfl
  · by_cases htag : w.table.tags idx = currTag
    · simp only [workerStep, hpc, htag, if_true, Workers.setThread]
      rw [toBuild_update w t _ _ w.offsets todo (todo t), hsame]
      simp only [buildStep, insertStep, Workers.toBuild, Worker.insertPc, hpc, htag, if_true, hhash]
      rfl
    · simp only [workerStep, hpc, htag, if_false, Workers.setThread]
      rw [toBuild_update w t _ w.table w.offsets todo (todo t), hsame]
      simp only [buildStep, insertStep, Workers.toBuild, Worker.insertPc, hpc, htag, if_false]
      rfl
  · have hcopy : w.table.copyRow idx (b.pulled.pointer b.currTuple) =
        w.table.copyRow idx (b.tuple slotSize) := by
      have hread : readAt (b.tuple slotSize) 0 slotSize =
          readAt b.pulled.chunk.data (b.currTuple + 0) slotSize := readAt_readAt _ (by omega)
      simp only [AtomicHashTable.copyRow, htable, hread]
      rfl
    simp only [workerStep, hpc, Workers.setThread, hcopy]
    rw [toBuild_update w t _ _ w.offsets todo (todo t), hsame]
    simp only [buildStep, insertStep, Workers.toBuild, Worker.insertPc, hpc, Worker.done,
      List.map_append, List.map_singleton, htuple]
    rfl

/-- Every step of a worker is a step of the parallel build or none, where the rows that a
thread starts to insert are added to those it has yet to start. -/
theorem toBuild_step (hsize : ∀ h, (mats h).tupleSize = slotSize)
    (hinv : WorkersInv C slotSize mats w) (htable : w.table.totalSlotSize = slotSize)
    (hC : ReadsRow C slotSize) (t : Fin T) :
    ∃ begun : List Bytes, ∀ todo, ∃ schedule,
      buildRun C (w.toBuild slotSize mats (Function.update todo t (begun ++ todo t))) schedule =
        (workerStep C slotSize mats w t).toBuild slotSize mats todo := by
  have hin := hinv.inPlace t
  have houtside : (∀ todo, (workerStep C slotSize mats w t).toBuild slotSize mats todo =
      w.toBuild slotSize mats todo) → ∃ begun : List Bytes, ∀ todo, ∃ schedule,
      buildRun C (w.toBuild slotSize mats (Function.update todo t (begun ++ todo t))) schedule =
        (workerStep C slotSize mats w t).toBuild slotSize mats todo := by
    intro hsame
    refine ⟨[], fun todo => ⟨[], ?_⟩⟩
    rw [hsame, List.nil_append, Function.update_eq_self]
    rfl
  have hinside : (∀ todo, buildStep C (w.toBuild slotSize mats todo) t =
      (workerStep C slotSize mats w t).toBuild slotSize mats todo) →
      ∃ begun : List Bytes, ∀ todo, ∃ schedule,
      buildRun C (w.toBuild slotSize mats (Function.update todo t (begun ++ todo t))) schedule =
        (workerStep C slotSize mats w t).toBuild slotSize mats todo := by
    intro hstep
    refine ⟨[], fun todo => ⟨[t], ?_⟩⟩
    rw [← hstep, List.nil_append, Function.update_eq_self]
    rfl
  cases hpc : (w.threads t).pc with
  | pull handle => exact houtside (toBuild_outside (Or.inl ⟨handle, hpc⟩))
  | chunk p currTuple => exact houtside (toBuild_outside (Or.inr (Or.inl ⟨p, currTuple, hpc⟩)))
  | hash b it => exact houtside (toBuild_outside (Or.inr (Or.inr (Or.inl ⟨b, it, hpc⟩))))
  | insert b =>
    simp only [Worker.InPlace, hpc] at hin
    by_cases hlt : b.batchIdx < b.size
    · exact ⟨[b.tuple slotSize], fun todo => ⟨[t], toBuild_call hC hin hlt hpc todo⟩⟩
    · exact houtside
        (toBuild_outside (Or.inr (Or.inr (Or.inr ⟨b, hpc, Nat.le_of_not_lt hlt⟩))))
  | load b idx probes =>
    simp only [Worker.InPlace, hpc] at hin
    exact hinside (toBuild_inside hsize htable hC hin.1 hin.2 (Or.inl ⟨idx, probes, hpc⟩))
  | exchange b idx currTag probes =>
    simp only [Worker.InPlace, hpc] at hin
    exact hinside
      (toBuild_inside hsize htable hC hin.1 hin.2 (Or.inr (Or.inl ⟨idx, currTag, probes, hpc⟩)))
  | copy b idx =>
    simp only [Worker.InPlace, hpc] at hin
    exact hinside (toBuild_inside hsize htable hC hin.1 hin.2 (Or.inr (Or.inr ⟨idx, hpc⟩)))

theorem workerStep_table (w : Workers M T) (t : Fin T) :
    (workerStep C slotSize mats w t).table.totalSlotSize = w.table.totalSlotSize ∧
      (workerStep C slotSize mats w t).table.modMask = w.table.modMask := by
  unfold workerStep
  dsimp only
  split
  · split
    · split <;> exact ⟨rfl, rfl⟩
    · exact ⟨rfl, rfl⟩
  · split <;> exact ⟨rfl, rfl⟩
  · split <;> exact ⟨rfl, rfl⟩
  · split <;> exact ⟨rfl, rfl⟩
  · split <;> exact ⟨rfl, rfl⟩
  · split <;> exact ⟨rfl, rfl⟩
  · exact ⟨rfl, rfl⟩

theorem workersRun_table (w : Workers M T) (schedule : List (Fin T)) :
    (workersRun C slotSize mats w schedule).table.totalSlotSize = w.table.totalSlotSize ∧
      (workersRun C slotSize mats w schedule).table.modMask = w.table.modMask := by
  induction schedule generalizing w with
  | nil => exact ⟨rfl, rfl⟩
  | cons t rest ih =>
    have hstep : (workerStep C slotSize mats w t).table.totalSlotSize = w.table.totalSlotSize ∧
        (workerStep C slotSize mats w t).table.modMask = w.table.modMask := workerStep_table w t
    have hrest := ih (workerStep C slotSize mats w t)
    exact ⟨hrest.1.trans hstep.1, hrest.2.trans hstep.2⟩

theorem buildRun_append (b : Build T) (s₁ s₂ : List (Fin T)) :
    buildRun C b (s₁ ++ s₂) = buildRun C (buildRun C b s₁) s₂ := by
  simp [buildRun]

/-- Every run of the workers is a parallel build. -/
theorem toBuild_run (hpos : 0 < slotSize) (hwf : ∀ h, (mats h).WellFormed)
    (hsize : ∀ h, (mats h).tupleSize = slotSize) (hinv : WorkersInv C slotSize mats w)
    (htable : w.table.totalSlotSize = slotSize) (hC : ReadsRow C slotSize)
    (schedule : List (Fin T)) :
    ∃ (picked : Fin T → List Bytes) (buildSchedule : List (Fin T)),
      buildRun C (w.toBuild slotSize mats picked) buildSchedule =
        (workersRun C slotSize mats w schedule).toBuild slotSize mats fun _ => [] := by
  induction schedule generalizing w with
  | nil => exact ⟨fun _ => [], [], rfl⟩
  | cons t rest ih =>
    have htable' : (workerStep C slotSize mats w t).table.totalSlotSize = slotSize :=
      (workerStep_table w t).1.trans htable
    obtain ⟨picked, buildRest, hrest⟩ := ih (hinv.step hpos hwf hsize t) htable'
    obtain ⟨begun, hbegun⟩ := toBuild_step hsize hinv htable hC t
    obtain ⟨buildFirst, hfirst⟩ := hbegun picked
    refine ⟨Function.update picked t (begun ++ picked t), buildFirst ++ buildRest, ?_⟩
    rw [buildRun_append, hfirst, hrest]
    rfl

end Simulation

section Picked

variable {C : Comparator}

/-- All rows of a thread, whether they have a slot or not. -/
def rowsOf (th : Inserter) : List Bytes := th.claims.map Prod.fst ++ th.pending

theorem buildStep_rowsOf (b : Build T) (t u : Fin T) :
    rowsOf ((buildStep C b t).threads u) = rowsOf (b.threads u) := by
  by_cases hut : u = t
  · subst hut
    cases hpc : (b.threads u).pc with
    | idle =>
      cases htodo : (b.threads u).todo <;>
        simp [buildStep, insertStep, hpc, htodo, Build.setThread, rowsOf, Inserter.claims,
          Inserter.pending]
    | load row idx probes =>
      by_cases hfree : b.table.tags idx &&& tagFillMask = 0 <;>
        simp [buildStep, insertStep, hpc, hfree, Build.setThread, rowsOf, Inserter.claims,
          Inserter.pending]
    | exchange row idx currTag probes =>
      by_cases htag : b.table.tags idx = currTag <;>
        simp [buildStep, insertStep, hpc, htag, Build.setThread, rowsOf, Inserter.claims,
          Inserter.pending]
    | copy row idx =>
      simp [buildStep, insertStep, hpc, Build.setThread, rowsOf, Inserter.claims, Inserter.pending]
  · rw [buildStep_other b hut]

theorem buildRun_rowsOf (b : Build T) (schedule : List (Fin T)) (u : Fin T) :
    rowsOf ((buildRun C b schedule).threads u) = rowsOf (b.threads u) := by
  induction schedule generalizing b with
  | nil => rfl
  | cons t rest ih => exact (ih (buildStep C b t)).trans (buildStep_rowsOf b t u)

variable {slotSize : ℕ} {mats : Fin M → ChunkMaterializer} {w : Workers M T}

/-- The rows that a worker has started to insert: those that are inserted, and the one that
it is inserting. -/
theorem rowsOf_toBuild (t : Fin T) :
    rowsOf ((w.toBuild slotSize mats fun _ => []).threads t) =
      (w.threads t).inserted.map (fun e => tupleOf mats e.tuple) ++
        match (w.threads t).pc with
        | .load b _ _ | .exchange b _ _ _ | .copy b _ => [b.tuple slotSize]
        | _ => [] := by
  cases hpc : (w.threads t).pc <;>
    simp [rowsOf, Workers.toBuild, Worker.insertPc, Worker.done, hpc, Inserter.claims,
      Inserter.pending, Function.comp_def]

/-- A worker that is in an insert has the tuple among those that it will still insert. -/
theorem rowsOf_length_le (hpos : 0 < slotSize) (hinv : WorkersInv C slotSize mats w) (t : Fin T) :
    (rowsOf ((w.toBuild slotSize mats fun _ => []).threads t)).length ≤
      ((w.threads t).inserted.map Insertion.tuple ++ (w.threads t).toInsert slotSize).length := by
  have hin := hinv.inPlace t
  have hone : ∀ b : Batch M, b.Inserting C slotSize mats (w.threads t).hashes ∧
      b.batchIdx < b.size → 1 ≤ (b.pulled.placesFrom slotSize b.currTuple).length := by
    intro b hb
    rw [PulledChunk.placesFrom_eq_cons hpos (hb.1.next_le hb.2), List.length_cons]
    omega
  rw [rowsOf_toBuild, List.length_append, List.length_append, List.length_map, List.length_map]
  apply Nat.add_le_add_left
  cases hpc : (w.threads t).pc with
  | load b _ _ | exchange b _ _ _ | copy b _ =>
    simp only [Worker.InPlace, hpc] at hin
    simpa [Worker.toInsert, hpc] using hone b hin
  | _ => simp

/-- No more rows are started than there are tuples. -/
theorem rowsOf_sum_le (hpos : 0 < slotSize) (hinv : WorkersInv C slotSize mats w) :
    ∑ t, (rowsOf ((w.toBuild slotSize mats fun _ => []).threads t)).length ≤
      (places mats).length := by
  have hcard := congrArg Multiset.card hinv.insert_once
  rw [Multiset.card_add, Multiset.card_sum, Multiset.coe_card] at hcard
  have hle := Finset.sum_le_sum fun t (_ : t ∈ Finset.univ) =>
    rowsOf_length_le hpos hinv t
  simp only [Multiset.coe_card] at hcard
  omega

theorem tupleOf_length (hwf : ∀ h, (mats h).WellFormed)
    (hsize : ∀ h, (mats h).tupleSize = slotSize) {p : Place M} (hp : p ∈ places mats) :
    (tupleOf mats p).length = slotSize := by
  obtain ⟨h, _, hmem⟩ := List.mem_flatMap.mp hp
  obtain ⟨s, hs, rfl⟩ := List.mem_map.mp hmem
  obtain ⟨c, hc, hle, hend⟩ := (hwf h).slot_inside hs
  simp only [tupleOf, ChunkMaterializer.tupleAt, hc]
  rw [← hsize h]
  exact readAt_length _ (by omega)

/-- The rows have the size of a slot. -/
theorem rowsOf_row_length (hwf : ∀ h, (mats h).WellFormed)
    (hsize : ∀ h, (mats h).tupleSize = slotSize) (hinv : WorkersInv C slotSize mats w) (t : Fin T)
    {row : Bytes} (hrow : row ∈ rowsOf ((w.toBuild slotSize mats fun _ => []).threads t)) :
    row.length = slotSize := by
  have hin := hinv.inPlace t
  have hbatch : ∀ b : Batch M, b.Inserting C slotSize mats (w.threads t).hashes ∧
      b.batchIdx < b.size → (b.tuple slotSize).length = slotSize := by
    intro b hb
    have hfits := hb.1.stored.fits hwf hsize
    have hle := hb.1.next_le hb.2
    have hend := hfits.le
    apply readAt_length
    rw [hfits.length]
    omega
  rw [rowsOf_toBuild] at hrow
  rcases List.mem_append.mp hrow with hinserted | hflight
  · obtain ⟨e, he, rfl⟩ := List.mem_map.mp hinserted
    apply tupleOf_length hwf hsize
    apply hinv.subperm.2.subset
    apply List.mem_map_of_mem
    exact List.mem_flatMap.mpr ⟨t, List.mem_finRange t, he⟩
  · cases hpc : (w.threads t).pc with
    | load b _ _ | exchange b _ _ _ | copy b _ =>
      simp only [Worker.InPlace, hpc] at hin
      simp only [hpc, List.mem_singleton] at hflight
      rw [hflight]
      exact hbatch b hin
    | _ => simp [hpc] at hflight

end Picked

section Build

variable {C : Comparator} {slotSize numSlots : ℕ} {mats : Fin M → ChunkMaterializer}
  {table : AtomicHashTable}

/-- What the workers need: materializers in order, and a new table with room for all tuples. -/
structure Ready (C : Comparator) (slotSize numSlots : ℕ) (mats : Fin M → ChunkMaterializer)
    (table : AtomicHashTable) : Prop where
  pos : 0 < slotSize
  wellFormed : ∀ h, (mats h).WellFormed
  tupleSize : ∀ h, (mats h).tupleSize = slotSize
  readsRow : ReadsRow C slotSize
  keySize : C.keySize ≤ slotSize
  create : AtomicHashTable.create slotSize numSlots = .ok table
  totalSlotSize : table.totalSlotSize = slotSize
  modMask : table.modMask + 1 = numSlots
  room : (places mats).length < numSlots

theorem Ready.inv (h : Ready C slotSize numSlots mats table) (schedule : List (Fin T)) :
    WorkersInv C slotSize mats (workersRun C slotSize mats (startWorkers M table) schedule) :=
  (startWorkers_inv h.tupleSize table).run h.pos h.wellFormed h.tupleSize schedule

theorem Ready.modMask_run (h : Ready C slotSize numSlots mats table) (schedule : List (Fin T)) :
    (workersRun C slotSize mats (startWorkers M table) schedule).table.modMask + 1 = numSlots := by
  rw [(workersRun_table (startWorkers M table) schedule).2]
  exact h.modMask

/-- The state of the workers is one of a parallel build that inserts the rows they have
started. -/
theorem Ready.build (h : Ready C slotSize numSlots mats table) (schedule : List (Fin T)) :
    let w := workersRun C slotSize mats (startWorkers M table) schedule
    ∃ (picked : Fin T → List Bytes) (buildSchedule : List (Fin T)) (occ : ℕ → Option Bytes),
      buildRun C (startBuild table picked) buildSchedule =
        w.toBuild slotSize mats (fun _ => []) ∧
      ∑ t, (picked t).length < w.table.modMask + 1 ∧
      BuildInv C picked (w.toBuild slotSize mats fun _ => []) occ := by
  intro w
  have hinv : WorkersInv C slotSize mats w := h.inv schedule
  obtain ⟨picked, buildSchedule, hrun⟩ := toBuild_run h.pos h.wellFormed h.tupleSize
    (startWorkers_inv (T := T) (C := C) h.tupleSize table) h.totalSlotSize h.readsRow schedule
  have hstart : (startWorkers M table).toBuild slotSize mats picked = startBuild table picked := rfl
  rw [hstart] at hrun
  have hpicked : ∀ t, picked t =
      rowsOf ((w.toBuild slotSize mats fun _ => []).threads t) := by
    intro t
    rw [← hrun, buildRun_rowsOf]
    rfl
  have hlen : ∀ t, ∀ row ∈ picked t, row.length = table.totalSlotSize := by
    intro t row hrow
    rw [hpicked t] at hrow
    rw [h.totalSlotSize]
    exact rowsOf_row_length h.wellFormed h.tupleSize hinv t hrow
  have hroom : ∑ t, (picked t).length < numSlots := by
    have hle := rowsOf_sum_le h.pos hinv
    have hroom := h.room
    simp only [hpicked]
    omega
  have hroom' : ∑ t, (picked t).length < (startBuild table picked).table.modMask + 1 := by
    show _ < table.modMask + 1
    rwa [h.modMask]
  obtain ⟨_, occ, hbuild⟩ :=
    buildRun_inv (startBuild_inv (C := C) h.create hlen) hroom' buildSchedule
  rw [hrun] at hbuild
  refine ⟨picked, buildSchedule, occ, hrun, ?_, hbuild⟩
  show _ < w.table.modMask + 1
  rwa [h.modMask_run schedule]

/-- No insert probes all slots. -/
theorem Ready.probes_lt (h : Ready C slotSize numSlots mats table) (schedule : List (Fin T))
    (t : Fin T) :
    let w := workersRun C slotSize mats (startWorkers M table) schedule
    (∀ b idx probes, (w.threads t).pc = .load b idx probes → probes < numSlots) ∧
      ∀ b idx currTag probes, (w.threads t).pc = .exchange b idx currTag probes →
        probes < numSlots := by
  intro w
  obtain ⟨picked, buildSchedule, occ, _, _, hbuild⟩ := h.build schedule
  have hmask : w.table.modMask + 1 = numSlots := h.modMask_run schedule
  have honChain := hbuild.onChain t
  constructor
  · intro b idx probes hpc
    have hinsert : (w.threads t).insertPc slotSize = .load (b.tuple slotSize) idx probes := by
      simp [Worker.insertPc, hpc]
    simp only [Inserter.OnChain, Workers.toBuild, w, hinsert] at honChain
    rw [← hmask]
    exact honChain.1
  · intro b idx currTag probes hpc
    have hinsert : (w.threads t).insertPc slotSize =
        .exchange (b.tuple slotSize) idx currTag probes := by
      simp [Worker.insertPc, hpc]
    simp only [Inserter.OnChain, Workers.toBuild, w, hinsert] at honChain
    rw [← hmask]
    exact honChain.1.1

theorem Workers.Finished.toBuild {w : Workers M T} (h : w.Finished) :
    (w.toBuild slotSize mats fun _ => []).Finished := by
  intro t
  obtain ⟨handle, _, hpc⟩ := h t
  refine ⟨?_, rfl⟩
  show (w.threads t).insertPc slotSize = .idle
  simp [Worker.insertPc, hpc]

/-- When all workers have returned, the table holds their tuples, and nothing else. -/
theorem Ready.filled (h : Ready C slotSize numSlots mats table) (schedule : List (Fin T)) :
    let w := workersRun C slotSize mats (startWorkers M table) schedule
    w.Finished → AtomicHashTable.Filled C w.table
        (w.inserted.map fun e => (tupleOf mats e.tuple, e.slot)) ∧
      AtomicHashTable.Tagged C w.table := by
  intro w hfin
  obtain ⟨picked, buildSchedule, occ, _, hroom, hbuild⟩ := h.build schedule
  have hdone : (w.toBuild slotSize mats fun _ => []).Finished := hfin.toBuild
  obtain ⟨hfilled, htagged, _⟩ := hbuild.filled hroom hdone
  have hplaced : (w.toBuild slotSize mats fun _ => []).placed =
      w.inserted.map fun e => (tupleOf mats e.tuple, e.slot) := by
    rw [Workers.inserted, List.map_flatMap]
    rfl
  rw [hplaced] at hfilled
  exact ⟨hfilled, htagged⟩

end Build

end InkFuse.Algebra
