import InkFuse.Algebra.BuildWorkers

/-!
How the workers of a join build share the materialized tuples. A tuple is unread, or in the
hands of one worker, or hashed and inserted; this holds in every state that a schedule leads
to, and when all workers have returned every tuple is inserted.
-/

namespace InkFuse.Algebra

open Bytes
open InkFuse.Runtime

variable {M T : ℕ}

def Worker.handle (th : Worker M) : ℕ :=
  match th.pc with
  | .pull handle => handle
  | .chunk p _ => p.handle
  | .hash b _ | .insert b | .load b _ _ | .exchange b _ _ _ | .copy b _ => b.pulled.handle

def Workers.past (w : Workers M T) (h : Fin M) : ℕ :=
  ∑ t, if h.val < (w.threads t).handle then 1 else 0

structure WorkersInv (C : Comparator) (slotSize : ℕ) (mats : Fin M → ChunkMaterializer)
    (w : Workers M T) : Prop where
  inPlace : ∀ t, (w.threads t).InPlace C slotSize mats
  own : ∀ t, (w.threads t).OwnHashes C mats
  hash_once : ∑ t, (((w.threads t).hashed.map Prod.fst ++ (w.threads t).toHash slotSize :
      List (Place M)) : Multiset (Place M)) + unreadAll slotSize mats w.offsets = places mats
  insert_once : ∑ t, (((w.threads t).inserted.map Insertion.tuple ++
      (w.threads t).toInsert slotSize : List (Place M)) : Multiset (Place M)) +
      unreadAll slotSize mats w.offsets = places mats
  passed : ∀ t (h : Fin M), h.val < (w.threads t).handle →
    (mats h).chunks.length ≤ w.offsets h
  offset_le : ∀ h, w.offsets h ≤ (mats h).chunks.length + w.past h

section Step

variable {C : Comparator} {slotSize : ℕ} {mats : Fin M → ChunkMaterializer}
  {offsets offsets' : Fin M → ℕ} {th th' : Worker M} {w : Workers M T}

/-- Offsets grow, and a worker goes on to the next read handle when it has no chunks left. -/
theorem Move.passed (hmove : Move C slotSize mats offsets th offsets' th') :
    (∀ h, offsets h ≤ offsets' h) ∧
      ∀ h : Fin M, h.val < th'.handle →
        h.val < th.handle ∨ (mats h).chunks.length ≤ offsets' h := by
  cases hmove with
  | exhausted handle hpc hnone =>
    have hlen : (mats handle).chunks.length ≤ offsets handle := List.getElem?_eq_none_iff.mp hnone
    constructor
    · intro h
      by_cases hh : h = handle
      · subst hh
        simp
      · simp [Function.update_of_ne hh]
    · intro h hlt
      have hle : h.val < handle.val + 1 := hlt
      rcases Nat.lt_succ_iff_lt_or_eq.mp hle with hbefore | heq
      · left
        simpa [Worker.handle, hpc] using hbefore
      · right
        obtain rfl := Fin.ext heq
        rw [Function.update_self]
        omega
  | pulled handle hpc _ =>
    constructor
    · intro h
      by_cases hh : h = handle
      · subst hh
        simp
      · simp [Function.update_of_ne hh]
    · intro h hlt
      left
      simpa [Worker.handle, hpc] using hlt
  | returned _ _ => exact ⟨fun _ => Nat.le_refl _, fun _ hlt => Or.inl hlt⟩
  | batch hpc _ | chunkDone hpc _ | hashed hpc _ | hashesDone hpc _ | call _ hpc _
  | batchDone hpc _ | loaded _ hpc | filled _ hpc | lost _ hpc | claimed hpc | copied hpc =>
    refine ⟨fun _ => Nat.le_refl _, fun h hlt => Or.inl ?_⟩
    simpa [Worker.handle, hpc] using hlt

/-- A `fetch_add` that finds no chunk is the last one of its worker at this read handle. -/
theorem Move.offset_le (hmove : Move C slotSize mats offsets th offsets' th') {h : Fin M} {n : ℕ}
    (hle : offsets h ≤ (mats h).chunks.length + (n + if h.val < th.handle then 1 else 0)) :
    offsets' h ≤ (mats h).chunks.length + (n + if h.val < th'.handle then 1 else 0) := by
  cases hmove with
  | exhausted handle hpc _ =>
    simp only [Worker.handle, hpc] at hle ⊢
    by_cases hh : h = handle
    · subst hh
      simp only [Function.update_self, lt_irrefl, if_false, Nat.lt_succ_self, if_true] at hle ⊢
      omega
    · have hne : h.val ≠ handle.val := fun heq => hh (Fin.ext heq)
      have hiff : h.val < handle.val + 1 ↔ h.val < handle.val := by omega
      simp only [hiff, Function.update_of_ne hh]
      exact hle
  | pulled handle hpc hsome =>
    simp only [Worker.handle, hpc] at hle ⊢
    by_cases hh : h = handle
    · subst hh
      have hlt : offsets h < (mats h).chunks.length := (List.getElem?_eq_some_iff.mp hsome).1
      rw [Function.update_self]
      omega
    · rwa [Function.update_of_ne hh]
  | returned _ _ => exact hle
  | batch hpc _ | chunkDone hpc _ | hashed hpc _ | hashesDone hpc _ | call _ hpc _
  | batchDone hpc _ | loaded _ hpc | filled _ hpc | lost _ hpc | claimed hpc | copied hpc =>
    simpa [Worker.handle, hpc] using hle

/-- If the share of one worker and the unread tuples stay the same together, so does the sum
over all workers. -/
theorem sum_share (share : Worker M → Multiset (Place M)) {threads : Fin T → Worker M} {t : Fin T}
    (h : share th' + unreadAll slotSize mats offsets' =
      share (threads t) + unreadAll slotSize mats offsets) :
    ∑ u, share (Function.update threads t th' u) + unreadAll slotSize mats offsets' =
      ∑ u, share (threads u) + unreadAll slotSize mats offsets := by
  have hsum := sum_update (fun _ : Fin T => share) threads t th'
  set before := ∑ u, share (threads u) with hbefore
  set after := ∑ u, share (Function.update threads t th' u) with hafter
  apply add_right_cancel (b := share (threads t))
  calc after + unreadAll slotSize mats offsets' + share (threads t)
      = before + (share th' + unreadAll slotSize mats offsets') := by
        rw [add_right_comm, hsum]
        ac_rfl
    _ = before + unreadAll slotSize mats offsets + share (threads t) := by
        rw [h]
        ac_rfl

variable (hpos : 0 < slotSize) (hwf : ∀ h, (mats h).WellFormed)
  (hsize : ∀ h, (mats h).tupleSize = slotSize)
include hpos hwf hsize

/-- Every step keeps the invariant. -/
theorem WorkersInv.step (h : WorkersInv C slotSize mats w) (t : Fin T) :
    WorkersInv C slotSize mats (workerStep C slotSize mats w t) := by
  obtain ⟨offsets, th, hmove, hoffsets, hthreads⟩ :=
    workerStep_move C slotSize mats w t
  have hpassed := hmove.passed
  constructor
  · rw [hthreads]
    exact (Function.forall_update_iff _
      (p := fun _ (th : Worker M) => th.InPlace C slotSize mats)).mpr
      ⟨hmove.inPlace hpos hwf hsize (h.inPlace t), fun u _ => h.inPlace u⟩
  · rw [hthreads]
    exact (Function.forall_update_iff _ (p := fun _ (th : Worker M) => th.OwnHashes C mats)).mpr
      ⟨hmove.ownHashes (h.inPlace t) (h.own t), fun u _ => h.own u⟩
  · rw [hthreads, hoffsets, ← h.hash_once]
    exact sum_share (fun th => ((th.hashed.map Prod.fst ++ th.toHash slotSize : List (Place M)) :
      Multiset (Place M))) (hmove.hash_once hpos (h.inPlace t))
  · rw [hthreads, hoffsets, ← h.insert_once]
    exact sum_share (fun th => ((th.inserted.map Insertion.tuple ++ th.toInsert slotSize :
      List (Place M)) : Multiset (Place M))) (hmove.insert_once hpos (h.inPlace t))
  · rw [hthreads, hoffsets]
    apply (Function.forall_update_iff _
      (p := fun _ (th : Worker M) => ∀ k : Fin M, k.val < th.handle →
      (mats k).chunks.length ≤ offsets k)).mpr
    constructor
    · intro k hlt
      rcases hpassed.2 k hlt with hbefore | hall
      · exact (h.passed t k hbefore).trans (hpassed.1 k)
      · exact hall
    · intro u _ k hlt
      exact (h.passed u k hlt).trans (hpassed.1 k)
  · intro k
    have hsum := sum_update (fun (_ : Fin T) (th : Worker M) => if k.val < th.handle then 1 else 0)
      w.threads t th
    have hle := h.offset_le k
    have hone := Finset.single_le_sum
      (f := fun t => if k.val < (w.threads t).handle then 1 else 0)
      (fun _ _ => Nat.zero_le _) (Finset.mem_univ t)
    rw [Workers.past] at hle
    rw [hoffsets, Workers.past, hthreads]
    obtain ⟨n, hn⟩ := Nat.exists_eq_add_of_le' hone
    rw [hn] at hle hsum
    have hnew := hmove.offset_le hle
    omega

theorem WorkersInv.run (h : WorkersInv C slotSize mats w) (schedule : List (Fin T)) :
    WorkersInv C slotSize mats (workersRun C slotSize mats w schedule) := by
  induction schedule generalizing w with
  | nil => exact h
  | cons t rest ih => exact ih (h.step hpos hwf hsize t)

end Step

section Totals

variable {C : Comparator} {slotSize : ℕ} {mats : Fin M → ChunkMaterializer} {w : Workers M T}

theorem sum_coe {n : ℕ} {A : Type*} (f : Fin n → List A) :
    ∑ i, (f i : Multiset A) = ((List.finRange n).flatMap f : List A) := by
  have hlist : ∀ l : List (Fin n),
      (l.map fun i => (f i : Multiset A)).sum = (l.flatMap f : List A) := by
    intro l
    induction l with
    | nil => rfl
    | cons i l ih => rw [List.map_cons, List.sum_cons, ih, List.flatMap_cons, Multiset.coe_add]
  rw [Fin.sum_univ_def]
  exact hlist _

theorem unread_zero (hsize : ∀ h, (mats h).tupleSize = slotSize) (h : Fin M) :
    unread slotSize mats h 0 = (mats h).slots.map (Prod.mk h) := by
  rw [unread, List.drop_zero, ChunkMaterializer.slots, hsize h]

/-- Before the first step all tuples are unread. -/
theorem startWorkers_inv (hsize : ∀ h, (mats h).tupleSize = slotSize) (table : AtomicHashTable) :
    WorkersInv C slotSize mats (startWorkers M table : Workers M T) := by
  have hall : unreadAll slotSize mats (fun _ => 0) = places mats := by
    simp only [unreadAll, unread_zero hsize, sum_coe]
    rfl
  constructor
  · intro t
    trivial
  · intro t
    exact ⟨by simp [startWorkers], by simp [startWorkers]⟩
  · simp [startWorkers, Worker.toHash, hall]
  · simp [startWorkers, Worker.toInsert, hall]
  · intro t h hlt
    exact absurd hlt (Nat.not_lt_zero _)
  · intro h
    exact Nat.zero_le _

/-- No two materialized tuples share memory. -/
theorem places_nodup (hpos : 0 < slotSize) (hsize : ∀ h, (mats h).tupleSize = slotSize) :
    (places mats).Nodup := by
  rw [places, List.nodup_flatMap]
  constructor
  · intro h _
    apply List.Nodup.map (Prod.mk_right_injective h)
    apply (mats h).slots_pairwise.imp
    intro a b hab heq
    subst heq
    rw [hsize h] at hab
    rcases hab with hne | hle | hle
    · exact hne rfl
    · omega
    · omega
  · apply (List.nodup_finRange M).imp
    intro h k hne x hx hy
    obtain ⟨_, _, rfl⟩ := List.mem_map.mp hx
    obtain ⟨_, _, heq⟩ := List.mem_map.mp hy
    exact hne (congrArg Prod.fst heq).symm

theorem WorkersInv.hashed_eq (h : WorkersInv C slotSize mats w) :
    (w.hashed.map Prod.fst : Multiset (Place M)) +
      (∑ t, ((w.threads t).toHash slotSize : Multiset (Place M)) +
        unreadAll slotSize mats w.offsets) = places mats := by
  have hsplit : (w.hashed.map Prod.fst : Multiset (Place M)) =
      ∑ t, ((w.threads t).hashed.map Prod.fst : Multiset (Place M)) := by
    rw [sum_coe, Workers.hashed, List.map_flatMap]
  rw [← h.hash_once, hsplit, ← add_assoc, ← Finset.sum_add_distrib]
  simp only [Multiset.coe_add]

theorem WorkersInv.inserted_eq (h : WorkersInv C slotSize mats w) :
    (w.inserted.map Insertion.tuple : Multiset (Place M)) +
      (∑ t, ((w.threads t).toInsert slotSize : Multiset (Place M)) +
        unreadAll slotSize mats w.offsets) = places mats := by
  have hsplit : (w.inserted.map Insertion.tuple : Multiset (Place M)) =
      ∑ t, ((w.threads t).inserted.map Insertion.tuple : Multiset (Place M)) := by
    rw [sum_coe, Workers.inserted, List.map_flatMap]
  rw [← h.insert_once, hsplit, ← add_assoc, ← Finset.sum_add_distrib]
  simp only [Multiset.coe_add]

/-- When all workers have returned, no chunk is unread. -/
theorem WorkersInv.unread_finished (h : WorkersInv C slotSize mats w) (hfin : w.Finished)
    (t : Fin T) : unreadAll slotSize mats w.offsets = 0 := by
  apply Finset.sum_eq_zero
  intro k _
  obtain ⟨handle, hM, hpc⟩ := hfin t
  have hlt : k.val < (w.threads t).handle := by
    simp only [Worker.handle, hpc]
    omega
  rw [unread_none (List.getElem?_eq_none (h.passed t k hlt))]
  rfl

/-- When all workers have returned, they have hashed and inserted every tuple once. -/
theorem WorkersInv.finished (h : WorkersInv C slotSize mats w) (hfin : w.Finished) (t : Fin T) :
    (w.hashed.map Prod.fst).Perm (places mats) ∧
      (w.inserted.map Insertion.tuple).Perm (places mats) := by
  have hunread := h.unread_finished hfin t
  have hhash : ∀ u, (w.threads u).toHash slotSize = [] := by
    intro u
    obtain ⟨handle, _, hpc⟩ := hfin u
    simp [Worker.toHash, hpc]
  have hinsert : ∀ u, (w.threads u).toInsert slotSize = [] := by
    intro u
    obtain ⟨handle, _, hpc⟩ := hfin u
    simp [Worker.toInsert, hpc]
  have hhashed := h.hashed_eq
  have hinserted := h.inserted_eq
  rw [hunread] at hhashed hinserted
  simp only [hhash, hinsert, Multiset.coe_nil, Finset.sum_const_zero, add_zero] at hhashed hinserted
  exact ⟨Multiset.coe_eq_coe.mp hhashed, Multiset.coe_eq_coe.mp hinserted⟩

/-- At no time is a tuple hashed or inserted twice. -/
theorem WorkersInv.subperm (h : WorkersInv C slotSize mats w) :
    (w.hashed.map Prod.fst).Subperm (places mats) ∧
      (w.inserted.map Insertion.tuple).Subperm (places mats) := by
  constructor
  · apply Multiset.coe_le.mp
    rw [← h.hashed_eq]
    exact Multiset.le_add_right _ _
  · apply Multiset.coe_le.mp
    rw [← h.inserted_eq]
    exact Multiset.le_add_right _ _

/-- No step reads beyond the `end_ptr` of its chunk. -/
theorem WorkersInv.reads_le (h : WorkersInv C slotSize mats w) (hkey : C.keySize ≤ slotSize)
    (htable : w.table.totalSlotSize = slotSize) {t : Fin T} {p : PulledChunk M} {off len : ℕ}
    (hreads : w.reads C t = some (p, off, len)) :
    p.Stored mats ∧ off + len ≤ p.chunk.endPtr := by
  have hin := h.inPlace t
  unfold Workers.reads at hreads
  cases hpc : (w.threads t).pc with
  | hash b it =>
    simp only [Worker.InPlace, hpc] at hin
    simp only [hpc] at hreads
    split at hreads
    · rename_i hlt
      obtain ⟨rfl, rfl, rfl⟩ := by simpa using hreads
      have hle := hin.next_le hlt
      exact ⟨hin.stored, by omega⟩
    · exact absurd hreads (by simp)
  | copy b idx =>
    simp only [Worker.InPlace, hpc] at hin
    simp only [hpc, htable] at hreads
    obtain ⟨rfl, rfl, rfl⟩ := by simpa using hreads
    exact ⟨hin.1.stored, hin.1.next_le hin.2⟩
  | _ =>
    simp only [hpc] at hreads
    exact absurd hreads (by simp)

end Totals

end InkFuse.Algebra
