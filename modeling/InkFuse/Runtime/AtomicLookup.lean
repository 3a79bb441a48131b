import InkFuse.Runtime.AtomicBuild
import Mathlib.Data.Fin.VecNotation
import Mathlib.Tactic.FinCases

/-!
The join hash table after its build. `Filled` says which rows are in which slots; it is
what a finished parallel build establishes for every schedule, and what the lookups need.
-/

namespace InkFuse.Runtime

open Bytes Probing AtomicHashTable

namespace AtomicHashTable

def filled (s : AtomicHashTable) (idx : ℕ) : Prop := s.tags idx &&& tagFillMask ≠ 0

def entries (s : AtomicHashTable) (idx : ℕ) : Option (Bytes × UInt8) :=
  if s.tags idx &&& tagFillMask = 0 then none else some (s.data idx, s.tags idx)

theorem entries_eq_none {s : AtomicHashTable} {i : ℕ} : s.entries i = none ↔ ¬ s.filled i := by
  unfold entries filled
  split <;> simp_all

theorem entries_eq_some {s : AtomicHashTable} {i : ℕ} {r : Bytes × UInt8} :
    s.entries i = some r ↔ s.filled i ∧ r = (s.data i, s.tags i) := by
  unfold entries filled
  split <;> simp_all [eq_comm]

/-- The rows in the table are those of `placed`, each in its own slot, and all chains are
unbroken. -/
structure Filled (C : Comparator) (s : AtomicHashTable) (placed : List (Bytes × ℕ)) : Prop where
  nodup : (placed.map Prod.snd).Nodup
  placed_slot : ∀ row i, (row, i) ∈ placed → i < s.modMask + 1 ∧ s.filled i ∧ s.data i = row
  only_placed : ∀ i, i < s.modMask + 1 → s.filled i → ∃ row, (row, i) ∈ placed
  chained : Chained (s.modMask + 1) (fun r => homeSlot s.modMask (C.hash r.1)) s.entries
  room : ∃ i, i < s.modMask + 1 ∧ ¬ s.filled i

/-- All slots carry the tag of their row; no slot is marked or disabled. -/
def Tagged (C : Comparator) (s : AtomicHashTable) : Prop :=
  ∀ i, i < s.modMask + 1 → s.filled i → s.tags i = filledTag (C.hash (s.data i))

/-- Changing the tag of a filled slot so that it stays filled. -/
theorem Filled.setTag {C : Comparator} {s : AtomicHashTable} {placed : List (Bytes × ℕ)}
    (hf : Filled C s placed) {i : ℕ} (hi : s.filled i) {tag : UInt8}
    (htag : tag &&& tagFillMask ≠ 0) : Filled C (s.setTag i tag) placed := by
  have hfilled : ∀ k, (s.setTag i tag).filled k ↔ s.filled k := by
    intro k
    by_cases hki : k = i
    · subst hki
      simpa [filled, AtomicHashTable.setTag, htag] using hi
    · simp [filled, AtomicHashTable.setTag, Function.update_of_ne hki]
  have hentries : (s.setTag i tag).entries =
      Function.update s.entries i (some (s.data i, tag)) := by
    funext k
    by_cases hki : k = i
    · subst hki
      simp [entries, AtomicHashTable.setTag, htag]
    · simp [entries, AtomicHashTable.setTag, Function.update_of_ne hki]
  have hold : s.entries i = some (s.data i, s.tags i) := entries_eq_some.mpr ⟨hi, rfl⟩
  refine ⟨hf.nodup, ?_, ?_, ?_, ?_⟩
  · intro row k hk
    obtain ⟨hlt, hfill, hdata⟩ := hf.placed_slot row k hk
    exact ⟨hlt, (hfilled k).mpr hfill, hdata⟩
  · intro k hk hfill
    exact hf.only_placed k hk ((hfilled k).mp hfill)
  · rw [hentries]
    exact hf.chained.replace hold rfl
  · obtain ⟨k, hk, hfree⟩ := hf.room
    exact ⟨k, hk, fun h => hfree ((hfilled k).mp h)⟩

section Lookup

variable {C : Comparator} {s : AtomicHashTable} {placed : List (Bytes × ℕ)}

/-- The walk of the lookups ends at a slot with the key and its tag if there is one, and
at a free slot otherwise. -/
theorem findKey_spec (hf : Filled C s placed)
    (heq : ∀ a b, C.eq a b = true → C.hash a = C.hash b) (key : Bytes) :
    (∃ i, i < s.modMask + 1 ∧ s.findKey C key (C.hash key) = .ok i ∧ s.filled i ∧
      s.tags i = filledTag (C.hash key) ∧ C.eq key (s.data i) = true) ∨
    ((∀ i, i < s.modMask + 1 → s.filled i → s.tags i = filledTag (C.hash key) →
      C.eq key (s.data i) = false) ∧
      ∃ i, i < s.modMask + 1 ∧ s.findKey C key (C.hash key) = .ok i ∧ ¬ s.filled i) := by
  let m : Bytes × UInt8 → Prop := fun r => r.2 = filledTag (C.hash key) ∧ C.eq key r.1 = true
  let stop : ℕ → Bool := fun i => s.tags i &&& tagFillMask == 0 ||
    (s.tags i == filledTag (C.hash key) && C.eq key (s.data i))
  have hstop : ∀ i, i < s.modMask + 1 → (stop i = true ↔
      ∀ r, s.entries i = some r → m r) := by
    intro i _
    simp only [stop]
    rw [Bool.or_eq_true, Bool.and_eq_true, beq_iff_eq, beq_iff_eq]
    constructor
    · intro h r hr
      obtain ⟨hfill, rfl⟩ := entries_eq_some.mp hr
      rcases h with hzero | hmatch
      · exact absurd hzero hfill
      · exact hmatch
    · intro h
      by_cases hfill : s.filled i
      · exact Or.inr (h _ (entries_eq_some.mpr ⟨hfill, rfl⟩))
      · exact Or.inl (not_not.mp hfill)
  have hwalk : ∀ i, probe (s.modMask + 1) stop (s.modMask + 1)
      (homeSlot s.modMask (C.hash key)) = some i → s.findKey C key (C.hash key) = .ok i := by
    intro i hi
    simp only [findKey, walk]
    rw [hi]
  by_cases hex : ∃ i r, i < s.modMask + 1 ∧ s.entries i = some r ∧ m r
  · obtain ⟨i, r, hi, hprobe, hr, htag, hkey⟩ := probe_found (homeSlot_lt s.modMask (C.hash key))
      hf.chained (fun r hr => by rw [heq key r.1 hr.2]) hstop hex
    obtain ⟨hfill, rfl⟩ := entries_eq_some.mp hr
    exact Or.inl ⟨i, hi, hwalk i hprobe, hfill, htag, hkey⟩
  · have habsent : ∀ i r, i < s.modMask + 1 → s.entries i = some r → ¬ m r :=
      fun i r hi hr hm => hex ⟨i, r, hi, hr, hm⟩
    have hroom : ∃ i, i < s.modMask + 1 ∧ s.entries i = none := by
      obtain ⟨i, hi, hfree⟩ := hf.room
      exact ⟨i, hi, entries_eq_none.mpr hfree⟩
    obtain ⟨i, hi, hprobe, hnone, _⟩ :=
      probe_absent (homeSlot_lt s.modMask (C.hash key)) hstop habsent hroom
    refine Or.inr ⟨?_, i, hi, hwalk i hprobe, entries_eq_none.mp hnone⟩
    intro j hj hfill htag
    by_contra hkey
    exact habsent j _ hj (entries_eq_some.mpr ⟨hfill, rfl⟩) ⟨htag, by simpa using hkey⟩

/-- `lookup` in a table without marked slots. -/
theorem lookup_spec (hf : Filled C s placed) (htagged : Tagged C s)
    (heq : ∀ a b, C.eq a b = true → C.hash a = C.hash b) (key : Bytes) :
    (∃ i row, (row, i) ∈ placed ∧ C.eq key row = true ∧
      s.lookup C key (C.hash key) = .ok (some i)) ∨
    ((∀ row i, (row, i) ∈ placed → C.eq key row = false) ∧
      s.lookup C key (C.hash key) = .ok none) := by
  rcases findKey_spec hf heq key with ⟨i, hi, hfind, hfill, _, hkey⟩ | ⟨habsent, i, _, hfind, hfree⟩
  · obtain ⟨row, hrow⟩ := hf.only_placed i hi hfill
    refine Or.inl ⟨i, row, hrow, ?_, ?_⟩
    · rw [← (hf.placed_slot row i hrow).2.2, hkey]
    · have hne : s.tags i &&& tagFillMask ≠ 0 := hfill
      simp [AtomicHashTable.lookup, hfind, hne, bind, Except.bind]
  · refine Or.inr ⟨fun row j hrow => ?_, ?_⟩
    · obtain ⟨hj, hfill, rfl⟩ := hf.placed_slot row j hrow
      by_contra hkey
      have hkey' : C.eq key (s.data j) = true := by simpa using hkey
      have htag : s.tags j = filledTag (C.hash key) := by
        rw [htagged j hj hfill, heq key _ hkey']
      exact hkey (habsent j hj hfill htag)
    · have hzero : s.tags i &&& tagFillMask = 0 := not_not.mp hfree
      simp [AtomicHashTable.lookup, hfind, hzero, bind, Except.bind]

end Lookup

end AtomicHashTable

section Build

variable {T : ℕ} {C : Comparator} {rows : Fin T → List Bytes} {b : Build T}
  {occ : ℕ → Option Bytes}

def Build.placed (b : Build T) : List (Bytes × ℕ) :=
  (List.finRange T).flatMap fun t => (b.threads t).done

theorem mem_placed {row : Bytes} {i : ℕ} :
    (row, i) ∈ b.placed ↔ ∃ t, (row, i) ∈ (b.threads t).done := by
  simp [Build.placed]

theorem Build.Finished.claims_eq (hfin : b.Finished) (t : Fin T) :
    (b.threads t).claims = (b.threads t).done := by
  simp [Inserter.claims, (hfin t).1]

/-- Before the first step nothing is claimed. -/
theorem startBuild_inv {slotSize numSlots : ℕ} {table : AtomicHashTable}
    (hcreate : create slotSize numSlots = .ok table)
    (hlen : ∀ t, ∀ row ∈ rows t, row.length = table.totalSlotSize) :
    BuildInv C rows (startBuild table rows) (fun _ => none) := by
  unfold create at hcreate
  split at hcreate
  · exact absurd hcreate (by simp)
  · obtain rfl := Except.ok.inj hcreate
    refine ⟨?_, hlen, fun _ _ => rfl, chained_empty _ _, ?_, ?_, ?_, ?_, ?_, ?_, ?_⟩
    · intro i _
      simp [startBuild]
    · intro t
      simp [startBuild, Inserter.claims, Inserter.pending]
    · intro t row i hmem
      simp [startBuild, Inserter.claims] at hmem
    · intro i _ h
      exact absurd rfl h
    · intro t row i hmem
      simp [startBuild] at hmem
    · intro t
      simp [startBuild, Inserter.claims]
    · intro t u r q i hmem
      simp [startBuild, Inserter.claims] at hmem
    · intro t
      simp [startBuild, Inserter.OnChain]

theorem buildStep_mask (b : Build T) (t : Fin T) :
    (buildStep C b t).table.modMask = b.table.modMask := by
  unfold buildStep insertStep
  dsimp only
  split
  · split <;> rfl
  · split <;> rfl
  · split <;> rfl
  · rfl

/-- The invariant holds after every schedule. -/
theorem buildRun_inv (h : BuildInv C rows b occ)
    (hroom : ∑ t, (rows t).length < b.table.modMask + 1) (schedule : List (Fin T)) :
    (buildRun C b schedule).table.modMask = b.table.modMask ∧
      ∃ occ', BuildInv C rows (buildRun C b schedule) occ' := by
  induction schedule generalizing b occ with
  | nil => exact ⟨rfl, occ, h⟩
  | cons t rest ih =>
    obtain ⟨occ', hstep⟩ := buildStep_inv h hroom t
    have hmask := buildStep_mask (C := C) b t
    obtain ⟨hmask', hrest⟩ := ih hstep (by rwa [hmask])
    exact ⟨hmask'.trans hmask, hrest⟩

/-- A thread with rows left comes closer to its end with each of its steps. -/
theorem buildStep_stepsLeft (h : BuildInv C rows b occ) {t : Fin T}
    (hactive : ¬ ((b.threads t).pc = .idle ∧ (b.threads t).todo = [])) :
    ((buildStep C b t).threads t).stepsLeft (b.table.modMask + 1) <
      (b.threads t).stepsLeft (b.table.modMask + 1) := by
  have honChain := h.onChain t
  cases hpc : (b.threads t).pc with
  | idle =>
    cases htodo : (b.threads t).todo with
    | nil => exact absurd ⟨hpc, htodo⟩ hactive
    | cons row rest =>
      simp only [buildStep, insertStep, hpc, htodo, Build.setThread, Function.update_self,
        Inserter.stepsLeft, List.length_cons, Nat.mul_add]
      omega
  | load row idx probes =>
    simp only [Inserter.OnChain, hpc] at honChain
    have hlt := honChain.1
    simp only [buildStep, insertStep, hpc]
    split
    · simp only [Build.setThread, Function.update_self, Inserter.stepsLeft, hpc]
      omega
    · simp only [Build.setThread, Function.update_self, Inserter.stepsLeft, hpc]
      omega
  | exchange row idx currTag probes =>
    simp only [Inserter.OnChain, hpc] at honChain
    have hlt := honChain.1.1
    simp only [buildStep, insertStep, hpc]
    split
    · simp only [Build.setThread, Function.update_self, Inserter.stepsLeft, hpc]
      omega
    · simp only [Build.setThread, Function.update_self, Inserter.stepsLeft, hpc]
      omega
  | copy row idx =>
    simp only [buildStep, insertStep, hpc, Build.setThread, Function.update_self,
      Inserter.stepsLeft]
    omega

theorem buildStep_other (b : Build T) {t u : Fin T} (hut : u ≠ t) :
    (buildStep C b t).threads u = b.threads u := by
  unfold buildStep insertStep
  dsimp only
  split
  · split
    · rfl
    · simp [Build.setThread, Function.update_of_ne hut]
  · split <;> simp [Build.setThread, Function.update_of_ne hut]
  · split <;> simp [Build.setThread, Function.update_of_ne hut]
  · simp [Build.setThread, Function.update_of_ne hut]

/-- Some schedule lets all inserts return. -/
theorem BuildInv.exists_finished (h : BuildInv C rows b occ)
    (hroom : ∑ t, (rows t).length < b.table.modMask + 1) :
    ∃ schedule, (buildRun C b schedule).Finished := by
  induction hleft : ∑ t, (b.threads t).stepsLeft (b.table.modMask + 1) using Nat.strong_induction_on
    generalizing b occ with
  | _ left ih =>
    by_cases hfin : b.Finished
    · exact ⟨[], hfin⟩
    · rw [Build.Finished] at hfin
      push Not at hfin
      obtain ⟨t, ht⟩ := hfin
      obtain ⟨occ', hstep⟩ := buildStep_inv h hroom t
      have hmask := buildStep_mask (C := C) b t
      have hlt := buildStep_stepsLeft (t := t) h fun hidle => ht hidle.1 hidle.2
      have hsum : ∑ u, ((buildStep C b t).threads u).stepsLeft (b.table.modMask + 1) < left := by
        rw [← hleft]
        refine Finset.sum_lt_sum (fun u _ => ?_) ⟨t, Finset.mem_univ t, hlt⟩
        by_cases hut : u = t
        · subst hut
          exact hlt.le
        · rw [buildStep_other b hut]
      obtain ⟨schedule, hschedule⟩ := ih _ hsum hstep (by rwa [hmask]) (by rw [hmask])
      exact ⟨t :: schedule, hschedule⟩

/-- When all inserts have returned, the table holds their rows. -/
theorem BuildInv.filled (h : BuildInv C rows b occ)
    (hroom : ∑ t, (rows t).length < b.table.modMask + 1) (hfin : b.Finished) :
    Filled C b.table b.placed ∧ Tagged C b.table ∧
      ∀ t, (b.threads t).done.map Prod.fst = rows t := by
  have hfill : ∀ i, i < b.table.modMask + 1 → (b.table.filled i ↔ occ i ≠ none) := by
    intro i hi
    rw [AtomicHashTable.filled, h.tag_eq i hi, ne_eq, claimTag_and_fill]
  have hdata : ∀ i row, i < b.table.modMask + 1 → occ i = some row →
      b.table.data i = row ∧ ∃ t, (row, i) ∈ (b.threads t).done := by
    intro i row hi hocc
    obtain ⟨t, q, hq⟩ := h.claimed i hi (by simp [hocc])
    have hq' := (h.claim t q i hq).2
    rw [hocc, Option.some.injEq] at hq'
    subst hq'
    rw [hfin.claims_eq t] at hq
    exact ⟨h.copied t row i hq, t, hq⟩
  have hentries : ∀ i r, i < b.table.modMask + 1 → b.table.entries i = some r →
      occ i = some r.1 := by
    intro i r hi hr
    obtain ⟨hf, rfl⟩ := entries_eq_some.mp hr
    obtain ⟨row, hrow⟩ := Option.ne_none_iff_exists'.mp ((hfill i hi).mp hf)
    rw [hrow, (hdata i row hi hrow).1]
  refine ⟨⟨?_, ?_, ?_, ?_, ?_⟩, ?_, ?_⟩
  · rw [Build.placed, List.map_flatMap, List.nodup_flatMap]
    refine ⟨fun t _ => ?_, ?_⟩
    · rw [← hfin.claims_eq t]
      exact h.nodup t
    · refine (List.nodup_finRange T).imp fun {t u} htu => ?_
      intro i hi hu
      obtain ⟨⟨r, _⟩, hr, rfl⟩ := List.mem_map.mp hi
      obtain ⟨⟨q, _⟩, hq, rfl⟩ := List.mem_map.mp hu
      rw [← hfin.claims_eq] at hr hq
      exact htu (h.disjoint t u r q _ hr hq)
  · intro row i hmem
    obtain ⟨t, ht⟩ := mem_placed.mp hmem
    obtain ⟨hi, hocc⟩ := h.claim t row i (hfin.claims_eq t ▸ ht)
    exact ⟨hi, (hfill i hi).mpr (by simp [hocc]), h.copied t row i ht⟩
  · intro i hi hf
    obtain ⟨row, hrow⟩ := Option.ne_none_iff_exists'.mp ((hfill i hi).mp hf)
    exact ⟨row, mem_placed.mpr (hdata i row hi hrow).2⟩
  · intro i r hi hr
    obtain ⟨d, hd, hoff, hbefore⟩ := h.chained i r.1 hi (hentries i r hi hr)
    refine ⟨d, hd, hoff, fun e he => ?_⟩
    have hlt := offset_lt (by omega : 0 < b.table.modMask + 1)
      (homeSlot b.table.modMask (C.hash r.1)) e
    rw [ne_eq, entries_eq_none, not_not, hfill _ hlt]
    exact hbefore e he
  · have hcard := h.card_occupied
    have hlen : ∀ t, (rows t).length = (b.threads t).claims.length := by
      intro t
      have hrows := congrArg List.length (h.rows_eq t)
      simpa [Inserter.pending, (hfin t).1, (hfin t).2] using hrows
    obtain ⟨i, hi, hnone⟩ := exists_free (by
      rw [hcard, ← Finset.sum_congr rfl fun t _ => hlen t]
      exact hroom)
    exact ⟨i, hi, fun hf => (hfill i hi).mp hf hnone⟩
  · intro i hi hf
    obtain ⟨row, hrow⟩ := Option.ne_none_iff_exists'.mp ((hfill i hi).mp hf)
    rw [h.tag_eq i hi, hrow, (hdata i row hi hrow).1]
    rfl
  · intro t
    rw [h.rows_eq t, hfin.claims_eq t]
    simp [Inserter.pending, (hfin t).1, (hfin t).2]

/-- The parallel build under every schedule: no insert probes all slots, every step of an
unfinished thread brings it closer to its end, and when all inserts have returned the
table holds each row in its own slot and nothing else, and finds exactly the inserted keys. -/
theorem parallel_build_exact (C : Comparator)
    (heq : ∀ a b, C.eq a b = true → C.hash a = C.hash b) {slotSize numSlots : ℕ}
    {table : AtomicHashTable} (hcreate : create slotSize numSlots = .ok table)
    (rows : Fin T → List Bytes)
    (hlen : ∀ t, ∀ row ∈ rows t, row.length = table.totalSlotSize)
    (hroom : ∑ t, (rows t).length < numSlots) (schedule : List (Fin T)) :
    let b := buildRun C (startBuild table rows) schedule
    (∀ t row idx probes, (b.threads t).pc = .load row idx probes → probes < numSlots) ∧
    (∀ t row idx tag probes, (b.threads t).pc = .exchange row idx tag probes →
      probes < numSlots) ∧
    (∀ t, ¬ ((b.threads t).pc = .idle ∧ (b.threads t).todo = []) →
      ((buildStep C b t).threads t).stepsLeft numSlots < (b.threads t).stepsLeft numSlots) ∧
    (b.Finished →
      (∀ t, (b.threads t).done.map Prod.fst = rows t) ∧
      (b.placed.map Prod.snd).Nodup ∧
      (∀ row i, (row, i) ∈ b.placed → i < numSlots ∧ b.table.data i = row) ∧
      (∀ i, i < numSlots → (b.table.filled i ↔ ∃ row, (row, i) ∈ b.placed)) ∧
      (∀ key, (∃ t, ∃ row ∈ rows t, C.eq key row = true) →
        ∃ i, b.table.lookup C key (C.hash key) = .ok (some i) ∧
          ∃ row, (row, i) ∈ b.placed ∧ C.eq key row = true) ∧
      (∀ key, (∀ t, ∀ row ∈ rows t, C.eq key row = false) →
        b.table.lookup C key (C.hash key) = .ok none)) := by
  intro b
  have hmask : table.modMask + 1 = numSlots := by
    unfold create at hcreate
    split at hcreate
    · exact absurd hcreate (by simp)
    · obtain rfl := Except.ok.inj hcreate
      simp only
      omega
  have hstart := startBuild_inv (C := C) hcreate hlen
  obtain ⟨hbmask, occ, h⟩ := buildRun_inv hstart (by rw [← hmask] at hroom; exact hroom) schedule
  have hn : b.table.modMask + 1 = numSlots := by
    rw [← hmask, hbmask]
    rfl
  replace h : BuildInv C rows b occ := h
  clear_value b
  rw [← hn] at hroom ⊢
  refine ⟨?_, ?_, fun t hactive => buildStep_stepsLeft h hactive, fun hfin => ?_⟩
  · intro t row idx probes hpc
    have honChain := h.onChain t
    simp only [Inserter.OnChain, hpc] at honChain
    exact honChain.1
  · intro t row idx tag probes hpc
    have honChain := h.onChain t
    simp only [Inserter.OnChain, hpc] at honChain
    exact honChain.1.1
  · obtain ⟨hf, htagged, hrows⟩ := h.filled hroom hfin
    have hplaced : ∀ row, (∃ t, row ∈ rows t) ↔ ∃ i, (row, i) ∈ b.placed := by
      intro row
      constructor
      · intro hex
        obtain ⟨t, ht⟩ := hex
        rw [← hrows t] at ht
        obtain ⟨⟨q, i⟩, hq, rfl⟩ := List.mem_map.mp ht
        exact ⟨i, mem_placed.mpr ⟨t, hq⟩⟩
      · intro hex
        obtain ⟨i, hi⟩ := hex
        obtain ⟨t, ht⟩ := mem_placed.mp hi
        refine ⟨t, ?_⟩
        rw [← hrows t]
        exact List.mem_map.mpr ⟨(row, i), ht, rfl⟩
    refine ⟨hrows, hf.nodup, ?_, ?_, ?_, ?_⟩
    · intro row i hmem
      obtain ⟨hi, _, hdata⟩ := hf.placed_slot row i hmem
      exact ⟨hi, hdata⟩
    · intro i hi
      constructor
      · exact hf.only_placed i hi
      · intro hex
        obtain ⟨row, hrow⟩ := hex
        exact (hf.placed_slot row i hrow).2.1
    · intro key hex
      obtain ⟨t, row, hrow, hkey⟩ := hex
      rcases lookup_spec hf htagged heq key with ⟨i, q, hq, hqkey, hlook⟩ | ⟨habsent, _⟩
      · exact ⟨i, hlook, q, hq, hqkey⟩
      · obtain ⟨i, hi⟩ := (hplaced row).mp ⟨t, hrow⟩
        rw [habsent row i hi] at hkey
        exact absurd hkey (by simp)
    · intro key habsent
      rcases lookup_spec hf htagged heq key with ⟨i, q, hq, hqkey, _⟩ | ⟨_, hlook⟩
      · obtain ⟨t, ht⟩ := (hplaced q).mpr ⟨i, hq⟩
        rw [habsent t q ht] at hqkey
        exact absurd hqkey (by simp)
      · exact hlook

/-- Two threads race for one slot; both rows are in the table at the end. -/
theorem parallel_build_race :
    let C := simpleKeyComparator (fun _ => 3) 1
    let b := buildRun C (startBuild ⟨fun _ => 0, fun _ => [0], 4, 3, 1⟩ ![[[7]], [[8]]])
      [0, 1, 0, 1, 0, 1, 0, 1, 1, 1]
    (b.placed.map Prod.snd).Nodup ∧ ∃ i, b.table.lookup C [8] 3 = .ok (some i) := by
  have hspec := parallel_build_exact (simpleKeyComparator (fun _ => 3) 1)
    simpleKeyComparator_hash_eq (rfl : create 1 4 = .ok ⟨fun _ => 0, fun _ => [0], 4, 3, 1⟩)
    ![[[7]], [[8]]] (by decide) (by decide) [0, 1, 0, 1, 0, 1, 0, 1, 1, 1]
  obtain ⟨_, hnodup, _, _, hfound, _⟩ := hspec.2.2.2 (by intro t; fin_cases t <;> exact ⟨rfl, rfl⟩)
  obtain ⟨i, hi, _⟩ := hfound [8] ⟨1, [8], by simp, rfl⟩
  exact ⟨hnodup, i, hi⟩

end Build

end InkFuse.Runtime
