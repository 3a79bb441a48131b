import InkFuse.Runtime.UsedTables

/-!
The probe loops of the growing tables end. A table is at most half full, whatever was hashed to
where, whatever was disabled and whatever its slots hold, so a search meets a slot that is not
filled. A table that is being filled again after its growth has a slot without a tag: every slot
of the old table takes at most one.
-/

namespace InkFuse.Runtime

open Bytes Probing SharedHashTableState

/-- Some slot is free if not all are occupied. -/
theorem exists_free_slot {p : ℕ → Bool} {n : ℕ} (h : entryCount p n < n) :
    ∃ i, i < n ∧ p i = false := by
  by_contra hfull
  push Not at hfull
  have hall : ∀ i ∈ List.range n, p i = true := by
    intro i hi
    exact Bool.eq_true_of_not_eq_false (hfull i (List.mem_range.mp hi))
  have hcount := List.countP_eq_length.mpr hall
  rw [List.length_range] at hcount
  unfold entryCount at h
  omega

namespace SharedHashTableState

variable {κ : Type} {A : KeyAccess κ} {s t : SharedHashTableState} {key : κ} {r : Inserted}

/-- Some slot stops the walk, so it ends within one round. -/
theorem walk_ends {hash : UInt64} {stop : ℕ → Bool} (h : ∃ i, i < s.capacity ∧ stop i = true) :
    ∃ i, s.walk hash stop = .ok i := by
  obtain ⟨i, hi⟩ := probe_isSome (homeSlot_lt s.modMask hash) h
  exact ⟨i, walk_eq_ok.mpr hi⟩

/-- What the counters of a table say: no more than half of its slots are filled. -/
structure HalfFull (s : SharedHashTableState) : Prop where
  pow : s.capacity.isPowerOfTwo
  two_le : 2 ≤ s.capacity
  maxFill_eq : s.maxFill = s.capacity / 2
  counts : CountsFilled s
  bound : s.inserted ≤ s.maxFill
  size_lt : s.totalSlotSize < 2 ^ 16

section Searches

theorem HalfFull.exists_unfilled (hs : HalfFull s) : ∃ i, i < s.capacity ∧ s.filled i = false := by
  apply exists_free_slot
  have hcounts : s.inserted = entryCount s.filled s.capacity := hs.counts
  have hbound := hs.bound
  have hmax := hs.maxFill_eq
  have htwo := hs.two_le
  omega

theorem HalfFull.find (hs : HalfFull s) (hash : UInt64) (key : κ) :
    ∃ i, s.findSlotOrEmpty A hash key = .ok i := by
  obtain ⟨i, hi, hfree⟩ := hs.exists_unfilled
  apply walk_ends
  refine ⟨i, hi, ?_⟩
  rw [filled_eq_false] at hfree
  rw [hfree]
  rfl

theorem HalfFull.findFree (hs : HalfFull s) (hash : UInt64) :
    ∃ i, s.walk hash (fun idx => s.tags idx &&& tagFillMask == 0) = .ok i := by
  obtain ⟨i, hi, hfree⟩ := hs.exists_unfilled
  apply walk_ends
  exact ⟨i, hi, beq_iff_eq.mpr (filled_eq_false.mp hfree)⟩

end Searches

section Growth

def tagged (s : SharedHashTableState) (idx : ℕ) : Bool := s.tags idx != 0

theorem tagged_setTag (s : SharedHashTableState) (i : ℕ) (tag : UInt8) :
    (s.setTag i tag).tagged = Function.update s.tagged i (tag != 0) := by
  funext j
  by_cases hji : j = i
  · subst hji
    simp [tagged, setTag]
  · simp [tagged, setTag, Function.update_of_ne hji]

/-- An old slot takes at most one new slot, and finds one while there is one. -/
theorem moveSlot_ends (old : SharedHashTableState) (m : ℕ)
    (hroom : entryCount s.tagged s.capacity < s.capacity) :
    ∃ t, moveSlot A old s m = .ok t ∧ t.capacity = s.capacity ∧ t.maxFill = s.maxFill ∧
      entryCount t.tagged s.capacity ≤ entryCount s.tagged s.capacity + 1 := by
  by_cases htag : old.tags m = 0
  · refine ⟨s, ?_, rfl, rfl, Nat.le_succ _⟩
    unfold moveSlot
    rw [if_pos htag]
  · obtain ⟨i, hi, hfree⟩ := exists_free_slot hroom
    have hzero : s.tags i = 0 := by
      unfold tagged at hfree
      rw [bne_eq_false_iff_eq] at hfree
      exact hfree
    obtain ⟨slot, hwalk⟩ : ∃ slot, s.findFirstEmptySlot (A.slotHash (old.data m)) = .ok slot :=
      walk_ends ⟨i, hi, beq_iff_eq.mpr hzero⟩
    obtain ⟨hslot, hstop⟩ := walk_stop hwalk
    refine ⟨(s.setTag slot (old.tags m)).setData slot (old.data m), ?_, rfl, rfl, ?_⟩
    · unfold moveSlot
      rw [if_neg htag, hwalk]
      rfl
    · show entryCount (s.setTag slot (old.tags m)).tagged s.capacity ≤ _
      have huntagged : s.tagged slot = false := by
        unfold tagged
        rw [beq_iff_eq.mp hstop]
        decide
      rw [tagged_setTag, entryCount_update hslot huntagged]
      split <;> omega

theorem moveSlots_end (old : SharedHashTableState) (m : ℕ)
    (hempty : entryCount s.tagged s.capacity = 0) (hm : m ≤ s.capacity) :
    ∃ t, (List.range m).foldlM (moveSlot A old) s = .ok t ∧ t.capacity = s.capacity ∧
      t.maxFill = s.maxFill ∧ entryCount t.tagged s.capacity ≤ m := by
  induction m with
  | zero => exact ⟨s, rfl, rfl, rfl, Nat.le_of_eq hempty⟩
  | succ m ih =>
    obtain ⟨u, hu, hcap, hmax, hcount⟩ := ih (by omega)
    rw [← hcap] at hcount
    have hroom : entryCount u.tagged u.capacity < u.capacity := by omega
    obtain ⟨t, ht, hcap', hmax', hcount'⟩ := moveSlot_ends (A := A) old m hroom
    refine ⟨t, ?_, hcap'.trans hcap, hmax'.trans hmax, ?_⟩
    · rw [List.range_succ, List.foldlM_append, hu]
      show (moveSlot A old u m >>= fun s => pure s) = _
      rw [ht]
      rfl
    · rw [← hcap]
      omega

theorem create_ok (slotSize : ℕ) {startSlots : ℕ} (hpow : startSlots.isPowerOfTwo)
    (htwo : 2 ≤ startSlots) :
    ∃ s, create slotSize startSlots = .ok s ∧ s.capacity = startSlots ∧
      s.maxFill = startSlots / 2 ∧ HalfFull s := by
  have hcheck : ¬ (startSlots < 2 ∨ startSlots &&& (startSlots - 1) ≠ 0) := by
    have hand := (Nat.and_sub_one_eq_zero_iff_isPowerOfTwo (by omega)).mpr hpow
    rw [hand]
    omega
  have hcap : startSlots - 1 + 1 = startSlots := by omega
  obtain ⟨s, hs⟩ : ∃ s, create slotSize startSlots = .ok s := by
    unfold create
    rw [if_neg hcheck]
    exact ⟨_, rfl⟩
  have hfields : s.modMask = startSlots - 1 ∧ s.maxFill = startSlots / 2 := by
    unfold create at hs
    rw [if_neg hcheck] at hs
    cases hs
    exact ⟨rfl, rfl⟩
  have hcapacity : s.capacity = startSlots := by
    unfold capacity
    rw [hfields.1, hcap]
  obtain ⟨hsize, hinserted, -⟩ := create_empty hs
  refine ⟨s, hs, hcapacity, hfields.2, ?_, ?_, ?_, countsFilled_create hs, ?_, ?_⟩
  · rw [hcapacity]
    exact hpow
  · rw [hcapacity]
    exact htwo
  · rw [hcapacity]
    exact hfields.2
  · rw [hinserted]
    exact Nat.zero_le _
  · rw [hsize]
    exact Nat.mod_lt _ (Nat.two_pow_pos 16)

/-- Making room ends, and there is room for one more slot afterwards. -/
theorem HalfFull.reserve (hs : HalfFull s) :
    ∃ t grown, s.reserveSlot A = .ok (t, grown) ∧ HalfFull t ∧ t.inserted < t.maxFill := by
  by_cases hroom : s.inserted < s.maxFill
  · refine ⟨s, false, ?_, hs, hroom⟩
    unfold reserveSlot
    rw [if_pos hroom]
  · have hpow : (2 * s.capacity).isPowerOfTwo := by
      obtain ⟨k, hk⟩ := hs.pow
      exact ⟨k + 1, by rw [hk, pow_succ, Nat.mul_comm]⟩
    have htwo := hs.two_le
    obtain ⟨fresh, hfresh, hcap, hmax, hhalf⟩ :=
      create_ok s.totalSlotSize hpow (by omega)
    have hempty : entryCount fresh.tagged fresh.capacity = 0 := by
      apply entryCount_none
      intro i _
      unfold tagged
      rw [(create_empty hfresh).2.2.1]
      exact bne_self_eq_false 0
    obtain ⟨moved, hmoved, hcap', hmax', -⟩ :=
      moveSlots_end (A := A) s s.capacity hempty (by omega)
    have hreserve : s.reserveSlot A = .ok ({ moved with inserted := s.inserted }, true) := by
      unfold reserveSlot
      rw [if_neg hroom]
      show (create s.totalSlotSize (2 * s.capacity) >>= fun fresh =>
        (List.range s.capacity).foldlM (moveSlot A s) fresh >>= fun moved =>
          Except.ok (({ moved with inserted := s.inserted } : SharedHashTableState), true)) = _
      rw [hfresh]
      show ((List.range s.capacity).foldlM (moveSlot A s) fresh >>= fun moved =>
        Except.ok (({ moved with inserted := s.inserted } : SharedHashTableState), true)) = _
      rw [hmoved]
      rfl
    obtain ⟨hcounts, hsize⟩ := hs.counts.reserveSlot hs.size_lt hreserve
    have hcapacity : moved.capacity = 2 * s.capacity := hcap'.trans hcap
    have hmaxFill : moved.maxFill = s.capacity := by omega
    have hbound := hs.bound
    have hhalf_le := hs.maxFill_eq
    refine ⟨_, true, hreserve, ⟨?_, ?_, ?_, hcounts, ?_, ?_⟩, ?_⟩
    · exact hcapacity ▸ hpow
    · show 2 ≤ moved.capacity
      omega
    · show moved.maxFill = moved.capacity / 2
      omega
    · show s.inserted ≤ moved.maxFill
      omega
    · rw [hsize]
      exact hs.size_lt
    · show s.inserted < moved.maxFill
      omega

end Growth

section Steps

/-- Filling a slot in a table with room. -/
theorem HalfFull.initSlot (hs : HalfFull s) (hroom : s.inserted < s.maxFill) {i : ℕ}
    {hash : UInt64} (hi : i < s.capacity) (hfree : s.filled i = false)
    (h : s.initSlot A i hash key = .ok t) : HalfFull t := by
  obtain ⟨hcounts, hsize⟩ := hs.counts.initSlot hi hfree h
  unfold SharedHashTableState.initSlot copyTo at h
  split at h
  · cases h
    exact ⟨hs.pow, hs.two_le, hs.maxFill_eq, hcounts, hroom, hs.size_lt⟩
  · cases h

theorem HalfFull.lookupOrInsert (hs : HalfFull s) (h : s.lookupOrInsert A key = .ok r) :
    HalfFull r.table := by
  obtain ⟨t, hreserve, hslot⟩ := lookupOrInsert_slot h
  obtain ⟨t', grown, hreserve', ht, hroom⟩ := hs.reserve (A := A)
  obtain ⟨rfl, rfl⟩ := Prod.mk.inj (Except.ok.inj (hreserve.symm.trans hreserve'))
  rcases hslot with htable | ⟨hi, htag, hinit⟩
  · rw [htable]
    exact ht
  · have hfree : t.filled r.slot = false := by
      rw [filled_eq_false, htag]
      decide
    exact ht.initSlot hroom hi hfree hinit

theorem HalfFull.insert (hs : HalfFull s) (h : s.insert A key = .ok r) : HalfFull r.table := by
  obtain ⟨t, hreserve, -, hwalk, hinit⟩ := insert_cases h
  obtain ⟨t', grown, hreserve', ht, hroom⟩ := hs.reserve (A := A)
  obtain ⟨rfl, rfl⟩ := Prod.mk.inj (Except.ok.inj (hreserve.symm.trans hreserve'))
  obtain ⟨hi, hstop⟩ := walk_stop hwalk
  exact ht.initSlot hroom hi (filled_eq_false.mpr (beq_iff_eq.mp hstop)) hinit

/-- Disabling rewrites a tag, but not its fill bit. -/
theorem HalfFull.lookupDisable (hs : HalfFull s) {i : Option ℕ}
    (h : s.lookupDisable A key = .ok (t, i)) : HalfFull t := by
  obtain ⟨hcounts, hsize⟩ := hs.counts.lookupDisable h
  obtain ⟨slot, hfind⟩ := hs.find (A := A) (A.hash key) key
  unfold SharedHashTableState.lookupDisable at h
  rw [hfind] at h
  cases h
  exact ⟨hs.pow, hs.two_le, hs.maxFill_eq, hcounts, hs.bound, hs.size_lt⟩

theorem HalfFull.setData (hs : HalfFull s) (i : ℕ) (slot : Bytes) : HalfFull (s.setData i slot) :=
  ⟨hs.pow, hs.two_le, hs.maxFill_eq, hs.counts, hs.bound, hs.size_lt⟩

end Steps

end SharedHashTableState

section Runs

variable {κ : Type} (A : KeyAccess κ)

/-- The tables that any sequence of operations leads to. A lookup leaves the table as it is. Keys
may be inserted twice and disabled twice, and anything may be written to the slots in between. -/
inductive ProbedTable (start : SharedHashTableState) : SharedHashTableState → Prop
  | start : ProbedTable start start
  | lookupDisable {s key t i} : ProbedTable start s → s.lookupDisable A key = .ok (t, i) →
      ProbedTable start t
  | lookupOrInsert {s key r} : ProbedTable start s → s.lookupOrInsert A key = .ok r →
      ProbedTable start r.table
  | insert {s key r} : ProbedTable start s → s.insert A key = .ok r → ProbedTable start r.table
  | write {s} (i : ℕ) (slot : Bytes) : ProbedTable start s → ProbedTable start (s.setData i slot)

/-- The loops of all operations end on a table, and a walk is one round at most. `reserveSlot`
succeeds only if every slot was moved. -/
structure ProbesEnd (s : SharedHashTableState) : Prop where
  pow : s.capacity.isPowerOfTwo
  half_le : 2 * entryCount s.filled s.capacity ≤ s.capacity
  find : ∀ hash key, ∃ i, s.findSlotOrEmpty A hash key = .ok i
  lookup : ∀ key, ∃ i, s.lookup A key = .ok i
  lookupDisable : ∀ key, ∃ t i, s.lookupDisable A key = .ok (t, i)
  reserve : ∃ t grown, s.reserveSlot A = .ok (t, grown) ∧
    (∀ hash key, ∃ i, t.findSlotOrEmpty A hash key = .ok i) ∧
    ∀ hash, ∃ i, t.walk hash (fun idx => t.tags idx &&& tagFillMask == 0) = .ok i
  lookupOrInsert : ∀ key, s.lookupOrInsert A key ≠ .error .diverges
  insert : ∀ key, s.insert A key ≠ .error .diverges

variable {A} {s start : SharedHashTableState}

theorem ProbedTable.halfFull (hstart : HalfFull start) (h : ProbedTable A start s) :
    HalfFull s := by
  induction h with
  | start => exact hstart
  | lookupDisable _ ht ih => exact ih.lookupDisable ht
  | lookupOrInsert _ hr ih => exact ih.lookupOrInsert hr
  | insert _ hr ih => exact ih.insert hr
  | write i slot _ ih => exact ih.setData i slot

theorem initSlot_ends {s : SharedHashTableState} {i : ℕ} {hash : UInt64} {key : κ} :
    s.initSlot A i hash key ≠ .error .diverges := by
  intro h
  unfold SharedHashTableState.initSlot copyTo at h
  split at h <;> cases h

theorem SharedHashTableState.HalfFull.probesEnd (hs : HalfFull s) : ProbesEnd A s := by
  obtain ⟨t, grown, hreserve, ht, -⟩ := hs.reserve (A := A)
  refine ⟨hs.pow, ?_, hs.find, ?_, ?_, ⟨t, grown, hreserve, ht.find, ht.findFree⟩, ?_, ?_⟩
  · have hcounts : s.inserted = entryCount s.filled s.capacity := hs.counts
    have hbound := hs.bound
    have hmax := hs.maxFill_eq
    omega
  · intro key
    obtain ⟨i, hfind⟩ := hs.find (A := A) (A.hash key) key
    unfold SharedHashTableState.lookup
    rw [hfind]
    exact ⟨_, rfl⟩
  · intro key
    obtain ⟨i, hfind⟩ := hs.find (A := A) (A.hash key) key
    unfold SharedHashTableState.lookupDisable
    rw [hfind]
    exact ⟨_, _, rfl⟩
  · intro key h
    obtain ⟨i, hfind⟩ := ht.find (A := A) (A.hash key) key
    unfold SharedHashTableState.lookupOrInsert at h
    simp only [hreserve, hfind, bind, Except.bind] at h
    split at h
    · split at h
      · next e hinit =>
        cases h
        exact initSlot_ends hinit
      · cases h
    · cases h
  · intro key h
    obtain ⟨i, hwalk⟩ := ht.findFree (A.hash key)
    unfold SharedHashTableState.insert at h
    simp only [hreserve, hwalk, bind, Except.bind] at h
    split at h
    · next e hinit =>
      cases h
      exact initSlot_ends hinit
    · cases h

/-- Both tables, with any hash function and any strings, can be created with every power of two from
two on, and from then on every probe loop ends. -/
theorem growing_probes_end (hash : Bytes → UInt64) (text : UInt64 → Bytes)
    (keySize payloadSize startSlots : ℕ) (hpow : startSlots.isPowerOfTwo) (htwo : 2 ≤ startSlots) :
    (∃ start, HashTableSimpleKey.create keySize payloadSize startSlots = .ok start ∧
      ∀ s, ProbedTable (simpleKey hash keySize) start s → ProbesEnd (simpleKey hash keySize) s) ∧
    ∃ start, HashTableComplexKey.create 0 1 payloadSize startSlots = .ok start ∧
      ∀ s, ProbedTable (complexKey hash text) start s → ProbesEnd (complexKey hash text) s := by
  constructor
  · obtain ⟨t, ht, -, -, hhalf⟩ := create_ok (keySize + payloadSize) hpow htwo
    by_cases hzero : keySize = 0
    · have hfour : Nat.isPowerOfTwo 4 := ⟨2, rfl⟩
      obtain ⟨u, hu, -, -, hhalf'⟩ := create_ok (keySize + payloadSize) hfour (by omega)
      refine ⟨u, ?_, fun s hs => (hs.halfFull hhalf').probesEnd⟩
      unfold HashTableSimpleKey.create
      rw [ht]
      show (if keySize = 0 then _ else _) = _
      rw [if_pos hzero, hu]
    · refine ⟨t, ?_, fun s hs => (hs.halfFull hhalf).probesEnd⟩
      unfold HashTableSimpleKey.create
      rw [ht]
      show (if keySize = 0 then _ else _) = _
      rw [if_neg hzero]
  · obtain ⟨t, ht, -, -, hhalf⟩ := create_ok (0 + 8 * 1 + payloadSize) hpow htwo
    refine ⟨t, ?_, fun s hs => (hs.halfFull hhalf).probesEnd⟩
    unfold HashTableComplexKey.create
    rw [ht]
    rfl

/-- A table of two slots. -/
theorem two_slots_probes_end :
    Nat.isPowerOfTwo 2 ∧ 2 ≤ 2 ∧
      (∃ start, HashTableSimpleKey.create 4 8 2 = .ok start ∧
        ∀ s, ProbedTable (simpleKey (fun _ => 0) 4) start s →
          ProbesEnd (simpleKey (fun _ => 0) 4) s) ∧
      ∃ start, HashTableComplexKey.create 0 1 8 2 = .ok start ∧
        ∀ s, ProbedTable (complexKey (fun _ => 0) fun _ => []) start s →
          ProbesEnd (complexKey (fun _ => 0) fun _ => []) s :=
  ⟨⟨1, rfl⟩, Nat.le_refl 2,
    growing_probes_end (fun _ => 0) (fun _ => []) 4 8 2 ⟨1, rfl⟩ (Nat.le_refl 2)⟩

end Runs

end InkFuse.Runtime
