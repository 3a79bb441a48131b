import InkFuse.Runtime.OuterFill
import InkFuse.Runtime.TableIterators

/-!
Concurrent `lookupOuter` calls on a filled outer join table, and the scan of the rows that no call
has found. A call loads the tag of a slot and goes on along the chain until it meets its key or a
free slot. It marks the slot of its key with a plain store, unless the slot is marked already.
-/

namespace InkFuse.Runtime

open Bytes Probing AtomicHashTable

/-- Where a thread is. `probes` counts the slots that the current call has left behind. -/
inductive OuterPc
  | idle
  | load (key : Bytes) (idx probes : ℕ)
  | store (key : Bytes) (idx : ℕ)

/-- The keys still to look up, and the answers that were returned. -/
structure OuterCaller where
  todo : List Bytes
  pc : OuterPc
  done : List (Bytes × Option ℕ)

structure Marking (T : ℕ) where
  table : AtomicHashTable
  threads : Fin T → OuterCaller

variable {T U : ℕ}

def Marking.setThread (b : Marking T) (t : Fin T) (th : OuterCaller) : Marking T :=
  { b with threads := Function.update b.threads t th }

def OuterCaller.ret (th : OuterCaller) (key : Bytes) (result : Option ℕ) : OuterCaller :=
  ⟨th.todo, .idle, th.done ++ [(key, result)]⟩

def startMarking (table : AtomicHashTable) (calls : Fin T → List Bytes) : Marking T where
  table := table
  threads := fun t => ⟨calls t, .idle, []⟩

/-- The next atomic step of thread `t`, which calls `lookupOuter`. -/
def markStep (C : Comparator) (b : Marking T) (t : Fin T) : Marking T :=
  let th := b.threads t
  match th.pc with
  | .idle =>
    match th.todo with
    | [] => b
    | key :: rest =>
      b.setThread t ⟨rest, .load key (homeSlot b.table.modMask (C.hash key)) 0, th.done⟩
  | .load key idx probes =>
    let currTag := b.table.tags idx
    let targetTag := outerTagHashMask &&& topByte (C.hash key)
    if currTag &&& tagFillMask = 0 then
      b.setThread t (th.ret key none)
    else if outerTagHashMask &&& currTag = targetTag ∧ C.eq key (b.table.data idx) = true then
      if currTag ≠ markedTag (C.hash key) then
        b.setThread t { th with pc := .store key idx }
      else
        b.setThread t (th.ret key (some idx))
    else
      b.setThread t { th with pc := .load key (b.table.itAdvance idx) (probes + 1) }
  | .store key idx =>
    { b.setThread t (th.ret key (some idx)) with
      table := b.table.setTag idx (markedTag (C.hash key)) }

def markRun (C : Comparator) (b : Marking T) (schedule : List (Fin T)) : Marking T :=
  schedule.foldl (markStep C) b

def Marking.Finished (b : Marking T) : Prop :=
  ∀ t, (b.threads t).pc = .idle ∧ (b.threads t).todo = []

def Marking.Found (b : Marking T) (i : ℕ) : Prop := ∃ t key, (key, some i) ∈ (b.threads t).done

namespace OuterCaller

def pending (th : OuterCaller) : List Bytes :=
  match th.pc with
  | .idle => th.todo
  | .load key _ _ => key :: th.todo
  | .store key _ => key :: th.todo

def stepsLeft (n : ℕ) (th : OuterCaller) : ℕ :=
  (n + 2) * th.todo.length +
    match th.pc with
    | .idle => 0
    | .load _ _ probes => n - probes + 1
    | .store _ _ => 1

end OuterCaller

section Marking

variable {κ : Type*} (ident : Bytes → κ)

/-- A call has passed filled slots with other keys only, and not all slots; a call that is about
to mark has met its key. -/
def OuterCaller.OnChain (C : Comparator) (modMask : ℕ) (occ : ℕ → Option Bytes)
    (th : OuterCaller) : Prop :=
  match th.pc with
  | .idle => True
  | .load key idx probes => Passed key idx probes
  | .store key idx => idx < modMask + 1 ∧ ∃ row, occ idx = some row ∧ ident row = ident key
where
  Passed (key : Bytes) (idx probes : ℕ) : Prop :=
    probes < modMask + 1 ∧ offset (modMask + 1) (homeSlot modMask (C.hash key)) probes = idx ∧
      ∀ e, e < probes → ∃ row,
        occ (offset (modMask + 1) (homeSlot modMask (C.hash key)) e) = some row ∧
          ident row ≠ ident key

/-- The invariant over all schedules. `table` is the table before the first call, and `occ` says
which key is in a slot. -/
structure MarkInv (C : Comparator) (table : AtomicHashTable) (occ : ℕ → Option Bytes)
    (calls : Fin T → List Bytes) (b : Marking T) : Prop where
  frame : b.table = { table with tags := b.table.tags }
  free : ∀ i, i < table.modMask + 1 → occ i = none → b.table.tags i = 0
  tags : ∀ i row, i < table.modMask + 1 → occ i = some row →
    b.table.tags i = outerTag (C.hash row) ∧ ¬ b.Found i ∨
      b.table.tags i = markedTag (C.hash row) ∧ b.Found i
  returned : ∀ t key i, (key, some i) ∈ (b.threads t).done →
    i < table.modMask + 1 ∧ ∃ row, occ i = some row ∧ ident row = ident key
  missed : ∀ t key, (key, none) ∈ (b.threads t).done →
    ∀ i row, i < table.modMask + 1 → occ i = some row → ident row ≠ ident key
  calls_eq : ∀ t, calls t = (b.threads t).done.map Prod.fst ++ (b.threads t).pending
  onChain : ∀ t, (b.threads t).OnChain ident C table.modMask occ

variable {ident} {C : Comparator} {table : AtomicHashTable} {occ : ℕ → Option Bytes}
  {calls : Fin T → List Bytes} {b : Marking T} {t : Fin T} {key : Bytes} {idx probes : ℕ}

theorem forall_setOuter (P : Fin T → OuterCaller → Prop) {th : OuterCaller} (hself : P t th)
    (hother : ∀ u, u ≠ t → P u (b.threads u)) (u : Fin T) : P u ((b.setThread t th).threads u) := by
  by_cases hut : u = t
  · subst hut
    simpa [Marking.setThread] using hself
  · simpa [Marking.setThread, Function.update_of_ne hut] using hother u hut

theorem mem_done_setRet {u : Fin T} {result r : Option ℕ} {k : Bytes} :
    (k, r) ∈ ((b.setThread t ((b.threads t).ret key result)).threads u).done ↔
      (k, r) ∈ (b.threads u).done ∨ u = t ∧ k = key ∧ r = result := by
  refine forall_setOuter (fun u th => (k, r) ∈ th.done ↔
    (k, r) ∈ (b.threads u).done ∨ u = t ∧ k = key ∧ r = result) ?_ ?_ u
  · simp [OuterCaller.ret]
  · intro v hvt
    simp [hvt]

theorem found_setRet {result : Option ℕ} {i : ℕ} :
    (b.setThread t ((b.threads t).ret key result)).Found i ↔ b.Found i ∨ result = some i := by
  unfold Marking.Found
  constructor
  · intro hfound
    obtain ⟨u, k, hk⟩ := hfound
    obtain hold | ⟨_, _, hr⟩ := mem_done_setRet.mp hk
    · exact Or.inl ⟨u, k, hold⟩
    · exact Or.inr hr.symm
  · intro h
    obtain ⟨u, k, hk⟩ | hr := h
    · exact ⟨u, k, mem_done_setRet.mpr (Or.inl hk)⟩
    · exact ⟨t, key, mem_done_setRet.mpr (Or.inr ⟨rfl, rfl, hr.symm⟩)⟩

/-- A step that returns no call and writes no tag. -/
theorem MarkInv.setThread (h : MarkInv ident C table occ calls b) {th : OuterCaller}
    (hdone : th.done = (b.threads t).done) (hpending : th.pending = (b.threads t).pending)
    (honChain : th.OnChain ident C table.modMask occ) :
    MarkInv ident C table occ calls (b.setThread t th) := by
  have hd : ∀ u, ((b.setThread t th).threads u).done = (b.threads u).done :=
    forall_setOuter (fun u th => th.done = (b.threads u).done) hdone fun _ _ => rfl
  have hp : ∀ u, ((b.setThread t th).threads u).pending = (b.threads u).pending :=
    forall_setOuter (fun u th => th.pending = (b.threads u).pending) hpending fun _ _ => rfl
  have hfound : ∀ i, (b.setThread t th).Found i ↔ b.Found i := by
    intro i
    simp only [Marking.Found, hd]
  refine ⟨h.frame, h.free, ?_, ?_, ?_, ?_, ?_⟩
  · intro i row hi hrow
    rw [hfound]
    exact h.tags i row hi hrow
  · intro u k i hmem
    exact h.returned u k i (hd u ▸ hmem)
  · intro u k hmem
    exact h.missed u k (hd u ▸ hmem)
  · intro u
    rw [hd u, hp u]
    exact h.calls_eq u
  · exact forall_setOuter (fun _ th => th.OnChain ident C table.modMask occ) honChain
      fun u _ => h.onChain u

/-- A call that returns without marking: the slot of the answer was found before. -/
theorem MarkInv.ret (h : MarkInv ident C table occ calls b) {result : Option ℕ}
    (hpending : (b.threads t).pending = key :: (b.threads t).todo)
    (hfound : ∀ i, result = some i → b.Found i ∧ i < table.modMask + 1 ∧
      ∃ row, occ i = some row ∧ ident row = ident key)
    (hmissed : result = none → ∀ i row, i < table.modMask + 1 → occ i = some row →
      ident row ≠ ident key) :
    MarkInv ident C table occ calls (b.setThread t ((b.threads t).ret key result)) := by
  have hsame : ∀ i, (b.setThread t ((b.threads t).ret key result)).Found i ↔ b.Found i := by
    intro i
    rw [found_setRet]
    exact or_iff_left_of_imp fun hr => (hfound i hr).1
  refine ⟨h.frame, h.free, ?_, ?_, ?_, ?_, ?_⟩
  · intro i row hi hrow
    rw [hsame]
    exact h.tags i row hi hrow
  · intro u k i hmem
    obtain hold | ⟨_, rfl, hr⟩ := mem_done_setRet.mp hmem
    · exact h.returned u k i hold
    · exact (hfound i hr.symm).2
  · intro u k hmem
    obtain hold | ⟨_, rfl, hr⟩ := mem_done_setRet.mp hmem
    · exact h.missed u k hold
    · exact hmissed hr.symm
  · refine forall_setOuter (fun u th => calls u = th.done.map Prod.fst ++ th.pending) ?_
      fun u _ => h.calls_eq u
    rw [h.calls_eq t, hpending]
    simp [OuterCaller.ret, OuterCaller.pending]
  · exact forall_setOuter (fun _ th => th.OnChain ident C table.modMask occ)
      (by simp [OuterCaller.ret, OuterCaller.OnChain]) fun u _ => h.onChain u

/-- Marking a slot and returning it is one step. -/
theorem MarkInv.mark (h : MarkInv ident C table occ calls b) (hkeyed : C.Keyed ident)
    (hpc : (b.threads t).pc = .store key idx) :
    MarkInv ident C table occ calls
      { b.setThread t ((b.threads t).ret key (some idx)) with
        table := b.table.setTag idx (markedTag (C.hash key)) } := by
  have honChain := h.onChain t
  simp only [OuterCaller.OnChain, hpc] at honChain
  obtain ⟨hidx, row, hrow, hident⟩ := honChain
  have hpending : (b.threads t).pending = key :: (b.threads t).todo := by
    simp [OuterCaller.pending, hpc]
  refine ⟨?_, ?_, ?_, ?_, ?_, ?_, ?_⟩
  · show b.table.setTag idx _ = _
    rw [h.frame]
    rfl
  · intro i hi hnone
    have hne : i ≠ idx := by
      rintro rfl
      rw [hrow] at hnone
      cases hnone
    simpa [AtomicHashTable.setTag, Function.update_of_ne hne] using h.free i hi hnone
  · intro i q hi hq
    show (b.table.setTag idx _).tags i = _ ∧
      ¬ (b.setThread t ((b.threads t).ret key (some idx))).Found i ∨
      (b.table.setTag idx _).tags i = _ ∧
      (b.setThread t ((b.threads t).ret key (some idx))).Found i
    rw [found_setRet, Option.some.injEq]
    by_cases hne : i = idx
    · subst hne
      obtain rfl := Option.some.inj (hrow.symm.trans hq)
      refine Or.inr ⟨?_, Or.inr rfl⟩
      simp [AtomicHashTable.setTag, hkeyed.hash_eq _ _ hident]
    · have hold := h.tags i q hi hq
      simpa [AtomicHashTable.setTag, Function.update_of_ne hne, Ne.symm hne] using hold
  · intro u k i hmem
    obtain hold | ⟨_, rfl, hr⟩ := mem_done_setRet.mp hmem
    · exact h.returned u k i hold
    · obtain rfl := Option.some.inj hr
      exact ⟨hidx, row, hrow, hident⟩
  · intro u k hmem
    obtain hold | ⟨_, _, hr⟩ := mem_done_setRet.mp hmem
    · exact h.missed u k hold
    · cases hr
  · refine forall_setOuter (fun u th => calls u = th.done.map Prod.fst ++ th.pending) ?_
      fun u _ => h.calls_eq u
    rw [h.calls_eq t, hpending]
    simp [OuterCaller.ret, OuterCaller.pending]
  · exact forall_setOuter (fun _ th => th.OnChain ident C table.modMask occ)
      (by simp [OuterCaller.ret, OuterCaller.OnChain]) fun u _ => h.onChain u

/-- A filled slot that does not match has another key. -/
theorem OuterCaller.OnChain.Passed.advance
    (h : OuterCaller.OnChain.Passed ident C table.modMask occ key idx probes) {row : Bytes}
    (hrow : occ idx = some row) (hident : ident row ≠ ident key)
    (hroom : ∃ i, i < table.modMask + 1 ∧ occ i = none) :
    OuterCaller.OnChain.Passed ident C table.modMask occ key (next (table.modMask + 1) idx)
      (probes + 1) := by
  obtain ⟨hlt, hoff, hpassed⟩ := h
  have hall : ∀ e, e < probes + 1 → ∃ row,
      occ (offset (table.modMask + 1) (homeSlot table.modMask (C.hash key)) e) = some row ∧
        ident row ≠ ident key := by
    intro e he
    obtain he | rfl := Nat.lt_succ_iff_lt_or_eq.mp he
    · exact hpassed e he
    · exact ⟨row, hoff ▸ hrow, hident⟩
  refine ⟨?_, by rw [← hoff, next_offset (Nat.succ_pos _)], hall⟩
  by_contra hge
  obtain ⟨i, hi, hnone⟩ := hroom
  obtain ⟨d, hd, rfl⟩ := exists_offset (homeSlot_lt table.modMask (C.hash key)) hi
  obtain ⟨q, hq, _⟩ := hall d (by omega)
  rw [hnone] at hq
  cases hq

/-- The key is not in the table if its chain ends before it was met. -/
theorem OuterCaller.OnChain.Passed.absent
    (h : OuterCaller.OnChain.Passed ident C table.modMask occ key idx probes)
    (hfilled : OuterFilled C ident table occ) (hkeyed : C.Keyed ident) (hnone : occ idx = none)
    {i : ℕ} {row : Bytes} (hi : i < table.modMask + 1) (hrow : occ i = some row) :
    ident row ≠ ident key := by
  intro hident
  obtain ⟨_, hoff, hpassed⟩ := h
  obtain ⟨d, hd, hdi, hbefore⟩ := hfilled.chained i row hi hrow
  simp only [hkeyed.hash_eq _ _ hident] at hdi hbefore
  obtain hlt | heq | hgt := Nat.lt_trichotomy d probes
  · obtain ⟨q, hq, hne⟩ := hpassed d hlt
    rw [hdi, hrow, Option.some.injEq] at hq
    exact hne (hq ▸ hident)
  · rw [heq, hoff] at hdi
    rw [← hdi, hnone] at hrow
    cases hrow
  · exact hbefore probes hgt (hoff ▸ hnone)

/-- Every atomic step keeps the invariant. -/
theorem markStep_inv (h : MarkInv ident C table occ calls b)
    (hfilled : OuterFilled C ident table occ) (hkeyed : C.Keyed ident)
    (hroom : ∃ i, i < table.modMask + 1 ∧ occ i = none) (t : Fin T) :
    MarkInv ident C table occ calls (markStep C b t) := by
  have hmask : b.table.modMask = table.modMask := by rw [h.frame]
  have hdata : b.table.data = table.data := by rw [h.frame]
  have honChain := h.onChain t
  cases hpc : (b.threads t).pc with
  | idle =>
    cases htodo : (b.threads t).todo with
    | nil =>
      simp only [markStep, hpc, htodo]
      exact h
    | cons key rest =>
      simp only [markStep, hpc, htodo, hmask]
      refine h.setThread rfl ?_ ?_
      · simp [OuterCaller.pending, hpc, htodo]
      · exact ⟨Nat.succ_pos _, offset_zero (homeSlot_lt _ _), by simp⟩
  | load key idx probes =>
    simp only [OuterCaller.OnChain, hpc] at honChain
    have hidx : idx < table.modMask + 1 := honChain.2.1 ▸ offset_lt (Nat.succ_pos _) _ _
    have hpending : (b.threads t).pending = key :: (b.threads t).todo := by
      simp [OuterCaller.pending, hpc]
    simp only [markStep, hpc]
    cases hocc : occ idx with
    | none =>
      have htag := h.free idx hidx hocc
      rw [if_pos (by rw [htag]; exact UInt8.zero_and)]
      apply h.ret hpending
      · intro i hi
        cases hi
      · intro _ i row hi hrow
        exact honChain.absent hfilled hkeyed hocc hi hrow
    | some row =>
      have hbits : b.table.tags idx &&& tagFillMask ≠ 0 ∧
          outerTagHashMask &&& b.table.tags idx = outerTagHashMask &&& topByte (C.hash row) := by
        obtain ⟨htag, _⟩ | ⟨htag, _⟩ := h.tags idx row hidx hocc
        · rw [htag]
          exact ⟨(outerTag_bits _).1, (outerTag_bits _).2.2⟩
        · rw [htag]
          exact ⟨(markedTag_bits _).1, (markedTag_bits _).2.2⟩
      have hrowKey : C.eq key (b.table.data idx) = true ↔ ident row = ident key := by
        rw [hkeyed.eq_iff, hdata, hfilled.data_eq idx row hidx hocc, eq_comm]
      rw [if_neg hbits.1]
      by_cases hident : ident row = ident key
      · have hhash := hkeyed.hash_eq _ _ hident
        rw [if_pos ⟨by rw [hbits.2, hhash], hrowKey.mpr hident⟩]
        split
        · refine h.setThread rfl ?_ ⟨hidx, row, hocc, hident⟩
          simp [OuterCaller.pending, hpc]
        · next hmarked =>
          rw [not_not, ← hhash] at hmarked
          apply h.ret hpending
          · intro i hi
            obtain rfl := Option.some.inj hi
            refine ⟨?_, hidx, row, hocc, hident⟩
            obtain ⟨htag, _⟩ | ⟨_, hfound⟩ := h.tags idx row hidx hocc
            · rw [htag] at hmarked
              have hbit := (markedTag_bits (C.hash row)).2.1
              rw [← hmarked, (outerTag_bits (C.hash row)).2.1] at hbit
              exact absurd rfl hbit
            · exact hfound
          · intro hr
            cases hr
      · rw [if_neg fun hmatch => hident (hrowKey.mp hmatch.2)]
        refine h.setThread rfl ?_ ?_
        · simp [OuterCaller.pending, hpc]
        · simp only [OuterCaller.OnChain, AtomicHashTable.itAdvance, hmask]
          exact honChain.advance hocc hident hroom
  | store key idx =>
    simp only [markStep, hpc]
    exact h.mark hkeyed hpc

theorem markRun_inv (h : MarkInv ident C table occ calls b)
    (hfilled : OuterFilled C ident table occ) (hkeyed : C.Keyed ident)
    (hroom : ∃ i, i < table.modMask + 1 ∧ occ i = none) (schedule : List (Fin T)) :
    MarkInv ident C table occ calls (markRun C b schedule) := by
  induction schedule generalizing b with
  | nil => exact h
  | cons t rest ih => exact ih (markStep_inv h hfilled hkeyed hroom t)

theorem startMarking_inv (hfilled : OuterFilled C ident table occ) :
    MarkInv ident C table occ calls (startMarking table calls) := by
  have hnot : ∀ i, ¬ (startMarking table calls).Found i := by
    intro i hfound
    obtain ⟨t, key, hmem⟩ := hfound
    cases hmem
  refine ⟨rfl, hfilled.tag_free, ?_, ?_, ?_, ?_, ?_⟩
  · intro i row hi hrow
    exact Or.inl ⟨hfilled.tag_eq i row hi hrow, hnot i⟩
  · intro t key i hmem
    cases hmem
  · intro t key hmem
    cases hmem
  · intro t
    rfl
  · intro t
    trivial

def OuterCaller.InRound (n : ℕ) (th : OuterCaller) : Prop :=
  match th.pc with
  | .idle => True
  | .load _ _ probes => probes < n
  | .store _ _ => True

theorem MarkInv.inRound (h : MarkInv ident C table occ calls b) (t : Fin T) :
    (b.threads t).InRound (table.modMask + 1) := by
  have honChain := h.onChain t
  unfold OuterCaller.OnChain at honChain
  unfold OuterCaller.InRound
  split at honChain
  · trivial
  · exact honChain.1
  · trivial

/-- No thread waits for another one. -/
theorem markStep_stepsLeft {n : ℕ} {t : Fin T} (h : (b.threads t).InRound n)
    (hactive : ¬ ((b.threads t).pc = .idle ∧ (b.threads t).todo = [])) :
    ((markStep C b t).threads t).stepsLeft n < (b.threads t).stepsLeft n := by
  cases hpc : (b.threads t).pc with
  | idle =>
    cases htodo : (b.threads t).todo with
    | nil => exact absurd ⟨hpc, htodo⟩ hactive
    | cons key rest =>
      simp only [markStep, hpc, htodo, Marking.setThread, Function.update_self,
        OuterCaller.stepsLeft, List.length_cons, Nat.mul_add]
      omega
  | load key idx probes =>
    simp only [OuterCaller.InRound, hpc] at h
    simp only [markStep, hpc]
    split
    · simp only [Marking.setThread, Function.update_self, OuterCaller.ret,
        OuterCaller.stepsLeft, hpc]
      omega
    · split
      · split
        · simp only [Marking.setThread, Function.update_self, OuterCaller.stepsLeft, hpc]
          omega
        · simp only [Marking.setThread, Function.update_self, OuterCaller.ret,
            OuterCaller.stepsLeft, hpc]
          omega
      · simp only [Marking.setThread, Function.update_self, OuterCaller.stepsLeft, hpc]
        omega
  | store key idx =>
    simp only [markStep, hpc, Marking.setThread, Function.update_self, OuterCaller.ret,
      OuterCaller.stepsLeft]
    omega

/-- A scan stops at the filled slots that no call has returned. -/
theorem MarkInv.unmatched_iff (h : MarkInv ident C table occ calls b) {i : ℕ}
    (hi : i < table.modMask + 1) :
    b.table.unmatched i = true ↔ occ i ≠ none ∧ ¬ b.Found i := by
  cases hocc : occ i with
  | none => simp [AtomicHashTable.unmatched, h.free i hi hocc]
  | some row =>
    obtain ⟨htag, hfound⟩ | ⟨htag, hfound⟩ := h.tags i row hi hocc
    · obtain ⟨hfill, hmark, _⟩ := outerTag_bits (C.hash row)
      simp [AtomicHashTable.unmatched, htag, hfill, hmark, hfound]
    · obtain ⟨_, hmark, _⟩ := markedTag_bits (C.hash row)
      simp [AtomicHashTable.unmatched, htag, hmark, hfound]

/-- A call returns the one slot with its key. -/
theorem MarkInv.answer (h : MarkInv ident C table occ calls b)
    (hunique : Unique (table.modMask + 1) ident occ) {result : Option ℕ}
    (hmem : (key, result) ∈ (b.threads t).done) (i : ℕ) :
    result = some i ↔ i < table.modMask + 1 ∧ ∃ row, occ i = some row ∧ ident row = ident key := by
  constructor
  · rintro rfl
    exact h.returned t key i hmem
  · rintro ⟨hi, row, hrow, hident⟩
    cases result with
    | none => exact absurd hident (h.missed t key hmem i row hi hrow)
    | some j =>
      obtain ⟨hj, q, hq, hqident⟩ := h.returned t key j hmem
      rw [hunique j i q row hj hi hq hrow (hqident.trans hident.symm)]

/-- When all calls have returned, the slots that were found are those of the keys looked up. -/
theorem MarkInv.found_iff (h : MarkInv ident C table occ calls b)
    (hunique : Unique (table.modMask + 1) ident occ) (hfin : b.Finished) {i : ℕ} {row : Bytes}
    (hi : i < table.modMask + 1) (hrow : occ i = some row) :
    b.Found i ↔ ∃ t, ∃ key ∈ calls t, ident key = ident row := by
  have hcalls : ∀ t, calls t = (b.threads t).done.map Prod.fst := by
    intro t
    rw [h.calls_eq t]
    simp [OuterCaller.pending, (hfin t).1, (hfin t).2]
  constructor
  · intro hfound
    obtain ⟨t, key, hmem⟩ := hfound
    obtain ⟨_, q, hq, hident⟩ := h.returned t key i hmem
    refine ⟨t, key, ?_, ?_⟩
    · rw [hcalls t]
      exact List.mem_map.mpr ⟨_, hmem, rfl⟩
    · rw [hrow, Option.some.injEq] at hq
      rw [← hident, hq]
  · intro hlooked
    obtain ⟨t, key, hkey, hident⟩ := hlooked
    rw [hcalls t] at hkey
    obtain ⟨⟨_, result⟩, hmem, rfl⟩ := List.mem_map.mp hkey
    have hresult := (h.answer hunique hmem i).mpr ⟨hi, row, hrow, hident.symm⟩
    exact ⟨t, _, hresult ▸ hmem⟩

end Marking

section Exact

variable {κ : Type*} {ident : Bytes → κ} {C : Comparator} {copyOnlyKey : Bool}
  {start s : AtomicHashTable} {order : List (Bytes × ℕ)} {occ : ℕ → Option Bytes}

theorem coe_flatMap_finRange {α : Type*} (f : Fin U → List α) :
    (((List.finRange U).flatMap f : List α) : Multiset α) = ∑ t, (f t : Multiset α) := by
  have hlist : ∀ l : List (Fin U), ((l.flatMap f : List α) : Multiset α) =
      (l.map fun t => (f t : Multiset α)).sum := by
    intro l
    induction l with
    | nil => rfl
    | cons t l ih => rw [List.flatMap_cons, ← Multiset.coe_add, ih, List.map_cons, List.sum_cons]
  rw [hlist, Fin.sum_univ_def]

/-- Distinct keys are in distinct slots, and every slot has its own key. -/
theorem Linearized.unique {keys : Fin U → List Bytes} {b : Build U}
    (h : Linearized C ident copyOnlyKey start keys b s order occ) (hfin : b.Finished)
    (hdistinct : (((List.finRange U).flatMap keys).map ident).Nodup) :
    Unique (s.modMask + 1) ident occ := by
  obtain ⟨_, _, hkeys⟩ := h.finished hfin
  have hperm : ((order.map Prod.fst : List Bytes) : Multiset Bytes) =
      ((List.finRange U).flatMap keys : List Bytes) := by rw [hkeys, coe_flatMap_finRange]
  have hnodup : ((order.map Prod.fst).map ident).Nodup :=
    ((Multiset.coe_eq_coe.mp hperm).map ident).nodup_iff.mpr hdistinct
  rw [List.map_map] at hnodup
  intro i j row q hi hj hrow hq hident
  have hentry := List.inj_on_of_nodup_map hnodup ((h.order_iff row i).mpr ⟨hi, hrow⟩)
    ((h.order_iff q j).mpr ⟨hj, hq⟩) hident
  exact congrArg Prod.snd hentry

/-- The marking of outer join partners under every schedule of the inserts and of the lookups: no
call waits for another one, a call returns the slot of its key if the key was inserted and nothing
otherwise, and when all calls have returned, a scan ends and yields each row whose key was not
looked up once, and no other row. -/
theorem outer_marking_exact (C : Comparator) (hcopies : C.Copies ident) {slotSize numSlots : ℕ}
    {start : AtomicHashTable} (hcreate : create slotSize numSlots = .ok start) (copyOnlyKey : Bool)
    (keys : Fin U → List Bytes) (hkeys : ∀ t, ∀ key ∈ keys t, Insertable C copyOnlyKey start key)
    (hdistinct : (((List.finRange U).flatMap keys).map ident).Nodup) (fills : List (Fin U))
    (hfin : (outerBuildRun C copyOnlyKey (startBuild start keys) fills).Finished)
    (hroom : ∃ i, i < numSlots ∧ (outerBuildRun C copyOnlyKey (startBuild start keys)
      fills).table.tags i &&& tagFillMask = 0)
    (calls : Fin T → List Bytes) (schedule : List (Fin T)) :
    let f := outerBuildRun C copyOnlyKey (startBuild start keys) fills
    let b := markRun C (startMarking f.table calls) schedule
    (∀ row, (∃ t, row ∈ keys t) ↔ ∃ i, (row, i) ∈ f.placed) ∧
    (∀ row i, (row, i) ∈ f.placed → ident (b.table.data i) = ident row) ∧
    (∀ t, ¬ ((b.threads t).pc = .idle ∧ (b.threads t).todo = []) →
      ((markStep C b t).threads t).stepsLeft numSlots < (b.threads t).stepsLeft numSlots) ∧
    (∀ t key result, (key, result) ∈ (b.threads t).done →
      ∀ i, result = some i ↔ ∃ row, (row, i) ∈ f.placed ∧ ident row = ident key) ∧
    (b.Finished → (∀ t, (b.threads t).done.map Prod.fst = calls t) ∧
      ∃ its, b.table.iterate = .ok its ∧ (its.map TableIterator.idx).Nodup ∧
        (∀ it ∈ its, it.data = some (it.idx * b.table.totalSlotSize)) ∧
        ∀ i, i ∈ its.map TableIterator.idx ↔
          ∃ row, (row, i) ∈ f.placed ∧ ∀ t, ∀ key ∈ calls t, ident key ≠ ident row) := by
  intro f b
  have hmask : start.modMask + 1 = numSlots := by
    unfold create at hcreate
    split at hcreate
    · cases hcreate
    · cases hcreate
      simp only
      omega
  have hstart : Linearized C ident copyOnlyKey start keys (startBuild start keys) start [] _ :=
    startBuild_linearized hcreate
  obtain ⟨s, order, occ, hlin, hsmask⟩ := outerBuildRun_linearized hstart hcopies hkeys fills
  obtain ⟨htable, hplaced, hinserted⟩ := hlin.finished hfin
  have hunique := hlin.unique hfin hdistinct
  have hfilled := hlin.filled
  rw [← htable] at hunique hfilled hsmask
  have hn : f.table.modMask + 1 = numSlots := by rw [← hmask, ← hsmask]
  have hplaced' : ∀ row i, (row, i) ∈ f.placed ↔
      i < f.table.modMask + 1 ∧ occ i = some row := by
    intro row i
    rw [hplaced, hlin.order_iff, ← htable]
  have hroom' : ∃ i, i < f.table.modMask + 1 ∧ occ i = none := by
    obtain ⟨i, hi, hfree⟩ := hroom
    rw [← hn] at hi
    exact ⟨i, hi, (hfilled.free_iff hi).mp hfree⟩
  have hinv : MarkInv ident C f.table occ calls b :=
    markRun_inv (startMarking_inv hfilled) hfilled hcopies.toKeyed hroom' schedule
  have hbmask : b.table.modMask = f.table.modMask := by rw [hinv.frame]
  have hbdata : b.table.data = f.table.data := by rw [hinv.frame]
  rw [← hn]
  refine ⟨?_, ?_, fun t hactive => markStep_stepsLeft (hinv.inRound t) hactive, ?_,
    fun hbfin => ⟨?_, ?_⟩⟩
  · intro row
    have hmem : (∃ t, row ∈ keys t) ↔
      row ∈ ((order.map Prod.fst : List Bytes) : Multiset Bytes) := by
      rw [hinserted, Multiset.mem_sum]
      simp
    rw [hmem, Multiset.mem_coe, List.mem_map]
    constructor
    · rintro ⟨⟨_, i⟩, hentry, rfl⟩
      exact ⟨i, (hplaced _ _).mpr hentry⟩
    · rintro ⟨i, hentry⟩
      exact ⟨(row, i), (hplaced _ _).mp hentry, rfl⟩
  · intro row i hmem
    obtain ⟨hi, hrow⟩ := (hplaced' row i).mp hmem
    rw [hbdata]
    exact hfilled.data_eq i row hi hrow
  · intro t key result hmem i
    rw [hinv.answer hunique hmem i]
    simp only [hplaced', and_assoc, exists_and_left]
  · intro t
    rw [hinv.calls_eq t]
    simp [OuterCaller.pending, (hbfin t).1, (hbfin t).2]
  · refine ⟨_, b.table.iterate_eq, ?_, ?_, ?_⟩
    · rw [List.map_map, entriesFrom_zero]
      exact (List.nodup_range.filter _).map fun _ _ h => h
    · intro it hit
      obtain ⟨i, _, rfl⟩ := List.mem_map.mp hit
      rfl
    · intro i
      have hidx : i ∈ ((entriesFrom b.table.unmatched (b.table.modMask + 1) 0).map
          fun i => (⟨some (i * b.table.totalSlotSize), i⟩ : TableIterator)).map
            TableIterator.idx ↔ i < f.table.modMask + 1 ∧ b.table.unmatched i = true := by
        rw [List.map_map, entriesFrom_zero, hbmask]
        simp
      rw [hidx]
      constructor
      · rintro ⟨hi, hunmatched⟩
        obtain ⟨hocc, hnot⟩ := (hinv.unmatched_iff hi).mp hunmatched
        obtain ⟨row, hrow⟩ := Option.ne_none_iff_exists'.mp hocc
        refine ⟨row, (hplaced' row i).mpr ⟨hi, hrow⟩, fun t key hkey hident => hnot ?_⟩
        exact (hinv.found_iff hunique hbfin hi hrow).mpr ⟨t, key, hkey, hident⟩
      · rintro ⟨row, hmem, hnever⟩
        obtain ⟨hi, hrow⟩ := (hplaced' row i).mp hmem
        refine ⟨hi, (hinv.unmatched_iff hi).mpr ⟨by simp [hrow], fun hfound => ?_⟩⟩
        obtain ⟨t, key, hkey, hident⟩ := (hinv.found_iff hunique hbfin hi hrow).mp hfound
        exact hnever t key hkey hident

/-- Two threads fill a table, two look up the same key; the other row is left for the scan. -/
theorem outer_marking_small :
    let C := simpleKeyComparator (fun _ => 3) 1
    let f := outerBuildRun C true (startBuild ⟨fun _ => 0, fun _ => [0], 4, 3, 1⟩ ![[[7]], [[8]]])
      [0, 1, 0, 1, 0, 1, 0, 1, 1, 1]
    let b := markRun C (startMarking f.table ![[[8]], [[8]]]) [0, 1, 0, 1, 0, 1, 0, 1]
    ∃ its, b.table.iterate = .ok its ∧ (its.map TableIterator.idx).Nodup := by
  have hspec := outer_marking_exact (simpleKeyComparator (fun _ => 3) 1)
    (simpleKeyComparator_copies _ _)
    (rfl : create 1 4 = .ok ⟨fun _ => 0, fun _ => [0], 4, 3, 1⟩) true ![[[7]], [[8]]]
    (by unfold Insertable; intro t; fin_cases t <;> decide) (by decide)
    [0, 1, 0, 1, 0, 1, 0, 1, 1, 1]
    (by intro t; fin_cases t <;> exact ⟨rfl, rfl⟩) ⟨1, by decide, by decide⟩
    ![[[8]], [[8]]] [0, 1, 0, 1, 0, 1, 0, 1]
  obtain ⟨_, its, hiterate, hnodup, _⟩ :=
    hspec.2.2.2.2 (by intro t; fin_cases t <;> exact ⟨rfl, rfl⟩)
  exact ⟨its, hiterate, hnodup⟩

end Exact

end InkFuse.Runtime
