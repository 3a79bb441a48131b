import InkFuse.Runtime.TableInvariant

/-!
What the operations of the growing hash tables do: one theorem for each operation.
Doubling keeps the stored slots, and a search ends at the slot of the key or at
the free slot at the end of the key's chain.
-/

namespace InkFuse.Runtime

open Bytes Probing SharedHashTableState

variable {κ : Type} {A : KeyAccess κ} {L : KeyLayout A} {s : SharedHashTableState}

def SharedHashTableState.Holds (s : SharedHashTableState) (d : Bytes) : Prop :=
  ∃ i, s.Stored i d

theorem walk_eq_ok {hash : UInt64} {stop : ℕ → Bool} {i : ℕ} :
    s.walk hash stop = .ok i ↔
      probe s.capacity stop s.capacity (homeSlot s.modMask hash) = some i := by
  unfold walk capacity
  split
  · rename_i j hj
    simp [hj]
  · rename_i hnone
    simp [hnone]

theorem WellFormed.fill_bit (hw : WellFormed L s) {i : ℕ} (hi : i < s.capacity) :
    s.tags i &&& tagFillMask = 0 ↔ s.tags i = 0 := by
  constructor
  · intro hfill
    by_contra htag
    have hslot : s.Stored i (s.data i) := ⟨hi, slots_eq_some_iff.mpr ⟨htag, rfl⟩⟩
    rw [hw.tag_eq i _ hslot] at hfill
    exact filledTag_and_fill_ne_zero _ hfill
  · intro htag
    rw [htag]
    decide

section Search

/-- A search for a free slot ends at the first free slot of the chain. -/
theorem walk_free (hash : UInt64) (stop : ℕ → Bool)
    (hstop : ∀ i, i < s.capacity → (stop i = true ↔ s.slots i = none))
    (hfree : ∃ i, i < s.capacity ∧ s.slots i = none) :
    ∃ i, i < s.capacity ∧ s.walk hash stop = .ok i ∧ s.slots i = none ∧
      Reaches s.capacity s.slots (homeSlot s.modMask hash) i := by
  have hstop' : ∀ i, i < s.capacity → (stop i = true ↔ ∀ d, s.slots i = some d → False) := by
    intro i hi
    rw [hstop i hi, Option.eq_none_iff_forall_ne_some]
  obtain ⟨i, hi, hprobe, hnone, hreach⟩ := probe_absent (m := fun _ => False)
    (homeSlot_lt s.modMask hash) hstop' (fun _ _ _ _ h => h) hfree
  exact ⟨i, hi, walk_eq_ok.mpr hprobe, hnone, hreach⟩

/-- The exit condition of `findSlotOrEmpty`. -/
theorem findSlotOrEmpty_stop (hw : WellFormed L s) (key : κ) {i : ℕ} (hi : i < s.capacity) :
    (s.tags i &&& tagFillMask == 0 ||
      (s.tags i &&& tagHashMask == tagHashMask &&& topByte (A.hash key) &&
        A.slotMatches (s.data i) key)) = true ↔
      ∀ d, s.slots i = some d → L.slotIdent d = L.ident key := by
  by_cases htag : s.tags i = 0
  · have hnone := slots_eq_none_iff.mpr htag
    simp [htag, hnone]
  · have hslot : s.Stored i (s.data i) := ⟨hi, slots_eq_some_iff.mpr ⟨htag, rfl⟩⟩
    have hfill : (s.tags i &&& tagFillMask == 0) = false := by
      simpa [beq_eq_false_iff_ne, hw.fill_bit hi] using htag
    have hmatch := L.matches_iff (s.data i) key (hw.valid i _ hslot)
    have hhash : s.tags i &&& tagHashMask =
        tagHashMask &&& topByte (L.hashOf (L.slotIdent (s.data i))) := by
      rw [hw.tag_eq i _ hslot, filledTag_and_hash]
    rw [hfill, Bool.false_or, Bool.and_eq_true, hmatch, beq_iff_eq, hhash, L.hash_eq]
    constructor
    · rintro ⟨_, hident⟩ d hd
      exact (slots_eq_some_iff.mp hd).2 ▸ hident
    · intro h
      have hident := h _ hslot.2
      exact ⟨by rw [hident], hident⟩

theorem findSlotOrEmpty_found (hw : WellFormed L s) {key : κ}
    (hex : ∃ d, s.Holds d ∧ L.slotIdent d = L.ident key) :
    ∃ i d, s.Stored i d ∧ s.findSlotOrEmpty A (A.hash key) key = .ok i ∧
      L.slotIdent d = L.ident key := by
  obtain ⟨e, ⟨j, hj⟩, he⟩ := hex
  obtain ⟨i, d, hi, hprobe, hd, hident⟩ := probe_found (m := fun d => L.slotIdent d = L.ident key)
    (homeSlot_lt s.modMask (A.hash key)) hw.chained
    (fun d hd => by rw [home, hd, L.hash_eq]) (fun i hi => findSlotOrEmpty_stop hw key hi)
    ⟨j, e, hj.1, hj.2, he⟩
  exact ⟨i, d, ⟨hi, hd⟩, walk_eq_ok.mpr hprobe, hident⟩

theorem findSlotOrEmpty_absent (hw : WellFormed L s) {key : κ}
    (habsent : ∀ d, s.Holds d → L.slotIdent d ≠ L.ident key)
    (hfree : ∃ i, i < s.capacity ∧ s.slots i = none) :
    ∃ i, i < s.capacity ∧ s.findSlotOrEmpty A (A.hash key) key = .ok i ∧ s.slots i = none ∧
      Reaches s.capacity s.slots (homeSlot s.modMask (A.hash key)) i := by
  obtain ⟨i, hi, hprobe, hnone, hreach⟩ :=
    probe_absent (m := fun d => L.slotIdent d = L.ident key)
      (homeSlot_lt s.modMask (A.hash key)) (fun i hi => findSlotOrEmpty_stop hw key hi)
      (fun i d hi hd => habsent d ⟨i, hi, hd⟩) hfree
  exact ⟨i, hi, walk_eq_ok.mpr hprobe, hnone, hreach⟩

theorem Inv.exists_free (hs : Inv L s) : ∃ i, i < s.capacity ∧ s.slots i = none := by
  have hcount := hs.count
  have hbound := hs.bound
  have hmax := hs.maxFill_eq
  have htwo := hs.two_le
  exact Probing.exists_free (by omega)

end Search

/-- `lookup` returns the slot of the key, or null when the key is not stored. -/
theorem lookup_spec (hs : Inv L s) (key : κ) :
    (∃ i d, s.Stored i d ∧ L.slotIdent d = L.ident key ∧ s.lookup A key = .ok (some i)) ∨
      ((∀ d, s.Holds d → L.slotIdent d ≠ L.ident key) ∧ s.lookup A key = .ok none) := by
  by_cases hex : ∃ d, s.Holds d ∧ L.slotIdent d = L.ident key
  · obtain ⟨i, d, hd, hfind, hident⟩ := findSlotOrEmpty_found hs.toWellFormed hex
    have hfill : s.tags i &&& tagFillMask ≠ 0 := by
      rw [ne_eq, hs.fill_bit hd.1]
      exact hd.tag_ne_zero
    refine Or.inl ⟨i, d, hd, hident, ?_⟩
    simp [lookup, hfind, hfill, bind, Except.bind]
  · have habsent : ∀ d, s.Holds d → L.slotIdent d ≠ L.ident key :=
      fun d hd hident => hex ⟨d, hd, hident⟩
    obtain ⟨i, hi, hfind, hnone, _⟩ :=
      findSlotOrEmpty_absent hs.toWellFormed habsent hs.exists_free
    have htag := slots_eq_none_iff.mp hnone
    refine Or.inr ⟨habsent, ?_⟩
    simp [lookup, hfind, htag, bind, Except.bind]

section Growth

/-- Filling a free slot adds one content to those that are held. -/
theorem holds_fill {t : SharedHashTableState} {i : ℕ} {d : Bytes} (hi : i < s.capacity)
    (hfree : s.slots i = none) (hslots : t.slots = Function.update s.slots i (some d))
    (hcap : t.capacity = s.capacity) (e : Bytes) : t.Holds e ↔ e = d ∨ s.Holds e := by
  constructor
  · rintro ⟨j, hj⟩
    rcases stored_of_update hslots hcap j e hj with ⟨_, rfl⟩ | ⟨_, hj'⟩
    · exact Or.inl rfl
    · exact Or.inr ⟨j, hj'⟩
  · rintro (rfl | ⟨j, hj⟩)
    · exact ⟨i, stored_update_self hslots (hcap ▸ hi)⟩
    · have hji : j ≠ i := by
        rintro rfl
        rw [hj.2] at hfree
        exact absurd hfree (by simp)
      exact ⟨j, stored_update_of_ne hslots hcap hji hj⟩

/-- The new table after the slots below `m` of the old one were moved. -/
structure Moved (L : KeyLayout A) (old s : SharedHashTableState) (m : ℕ) : Prop
    extends WellFormed L s where
  capacity_eq : s.capacity = 2 * old.capacity
  slotSize_eq : s.totalSlotSize = old.totalSlotSize
  holds_iff : ∀ d, s.Holds d ↔ ∃ i, i < m ∧ old.Stored i d
  card_eq : (occupied s.capacity s.slots).card =
    ((occupied old.capacity old.slots).filter (· < m)).card

theorem Moved.exists_free {old : SharedHashTableState} (hold : Inv L old) {m : ℕ}
    (hm : Moved L old s m) : ∃ i, i < s.capacity ∧ s.slots i = none := by
  have hcard := hm.card_eq
  have hle := Finset.card_filter_le (occupied old.capacity old.slots) (· < m)
  have hcount := hold.count
  have hbound := hold.bound
  have hmax := hold.maxFill_eq
  have htwo := hold.two_le
  have hcap := hm.capacity_eq
  exact Probing.exists_free (by omega)

/-- One iteration of the copy loop moves one slot. -/
theorem moveSlot_spec {old : SharedHashTableState} (hold : Inv L old) {m : ℕ}
    (hm : Moved L old s m) (hlt : m < old.capacity) :
    ∃ t, moveSlot A old s m = .ok t ∧ Moved L old t (m + 1) := by
  by_cases htag : old.tags m = 0
  · have hnone := slots_eq_none_iff.mpr htag
    refine ⟨s, by rw [moveSlot, if_pos htag],
      hm.toWellFormed, hm.capacity_eq, hm.slotSize_eq, fun d => ?_, ?_⟩
    · rw [hm.holds_iff]
      constructor
      · rintro ⟨i, hi, hd⟩
        exact ⟨i, by omega, hd⟩
      · rintro ⟨i, hi, hd⟩
        have hne : i ≠ m := by
          rintro rfl
          exact hd.tag_ne_zero htag
        exact ⟨i, by omega, hd⟩
    · rw [hm.card_eq, filter_occupied_succ_of_none hnone]
  · have hslot : old.Stored m (old.data m) := ⟨hlt, slots_eq_some_iff.mpr ⟨htag, rfl⟩⟩
    have hhash := L.slotHash_eq (old.data m)
    obtain ⟨i, hi, hwalk, hnone, hreach⟩ := walk_free (A.slotHash (old.data m))
      (fun idx => s.tags idx == 0)
      (fun i _ => by rw [beq_iff_eq, slots_eq_none_iff]) (hm.exists_free hold)
    have habsent : ∀ j e, s.Stored j e → L.slotIdent e ≠ L.slotIdent (old.data m) := by
      intro j e hj hident
      obtain ⟨i', hi', he⟩ := (hm.holds_iff e).mp ⟨j, hj⟩
      have heq := hold.unique i' m e (old.data m) he.1 hlt he.2 hslot.2 hident
      omega
    have hlen : (old.data m).length = s.totalSlotSize := by
      rw [hm.slotSize_eq, hold.slot_length m hlt]
    rw [hhash] at hreach
    have hfill := hm.toWellFormed.fill hi hnone hlen (hold.valid m _ hslot) hreach habsent
    rw [← hold.tag_eq m _ hslot] at hfill
    have hslots := slots_put (s := s) (i := i) htag (old.data m)
    refine ⟨(s.setTag i (old.tags m)).setData i (old.data m), ?_,
      hfill, hm.capacity_eq, hm.slotSize_eq, fun d => ?_, ?_⟩
    · simp only [moveSlot, htag, if_false, findFirstEmptySlot, hwalk, bind, Except.bind]
    · rw [holds_fill hi hnone hslots rfl, hm.holds_iff]
      constructor
      · rintro (rfl | ⟨j, hj, hd⟩)
        · exact ⟨m, by omega, hslot⟩
        · exact ⟨j, by omega, hd⟩
      · rintro ⟨j, hj, hd⟩
        rcases Nat.lt_succ_iff_lt_or_eq.mp hj with hj' | rfl
        · exact Or.inr ⟨j, hj', hd⟩
        · exact Or.inl hd.data_eq.symm
    · have hsome : old.slots m ≠ none := by rw [hslot.2]; simp
      rw [card_filter_occupied_succ hlt hsome, ← hm.card_eq, hslots]
      exact card_occupied_fill hi hnone _

theorem moveSlots_spec {old : SharedHashTableState} (hold : Inv L old)
    (hm : Moved L old s 0) (m : ℕ) (hle : m ≤ old.capacity) :
    ∃ t, (List.range m).foldlM (moveSlot A old) s = .ok t ∧ Moved L old t m := by
  induction m with
  | zero => exact ⟨s, rfl, hm⟩
  | succ m ih =>
    obtain ⟨t, hfold, ht⟩ := ih (by omega)
    obtain ⟨u, hstep, hu⟩ := moveSlot_spec hold ht (by omega)
    refine ⟨u, ?_, hu⟩
    rw [List.range_succ, List.foldlM_append, hfold]
    simp [bind, Except.bind, hstep, pure, Except.pure]

/-- `reserveSlot` leaves room for one more key and keeps the stored slots. Without a growth
the table is the same one. -/
theorem reserveSlot_spec (hs : Inv L s) :
    ∃ t grown, s.reserveSlot A = .ok (t, grown) ∧ Inv L t ∧ t.inserted < t.maxFill ∧
      t.inserted = s.inserted ∧ t.totalSlotSize = s.totalSlotSize ∧
      (∀ d, t.Holds d ↔ s.Holds d) ∧ (grown = false → t = s) ∧
      (grown = true ↔ s.inserted = s.maxFill) ∧
      t.capacity = (if grown then 2 * s.capacity else s.capacity) := by
  by_cases hroom : s.inserted < s.maxFill
  · refine ⟨s, false, by rw [reserveSlot, if_pos hroom], hs, hroom, rfl, rfl,
      fun _ => Iff.rfl, fun _ => rfl, ?_, rfl⟩
    simp only [Bool.false_eq_true, false_iff]
    omega
  · have hpow : (2 * s.capacity).isPowerOfTwo := by
      rw [Nat.mul_comm]
      exact Nat.isPowerOfTwo_mul_two_of_isPowerOfTwo hs.pow
    have htwo := hs.two_le
    obtain ⟨fresh, hcreate, hfresh, hcap, hsize, hins, htags⟩ :=
      create_wellFormed (L := L) rfl hs.keySize_le hs.size_lt hpow (by omega)
    have hnone : ∀ i, fresh.slots i = none := fun i => slots_eq_none_iff.mpr (htags i)
    have hstart : Moved L s fresh 0 := by
      refine ⟨hfresh.toWellFormed, hcap, hsize, fun d => ?_, ?_⟩
      · constructor
        · rintro ⟨i, _, hi⟩
          rw [hnone i] at hi
          exact absurd hi (by simp)
        · rintro ⟨i, hi, _⟩
          omega
      · simp [← hfresh.count, hins]
    obtain ⟨t, hfold, ht⟩ := moveSlots_spec hs hstart s.capacity le_rfl
    have hall : (occupied s.capacity s.slots).filter (· < s.capacity) =
        occupied s.capacity s.slots :=
      Finset.filter_true_of_mem fun i hi => (mem_occupied.mp hi).1
    have hcard := ht.card_eq
    rw [hall, ← hs.count] at hcard
    have hmax := hs.maxFill_eq
    have hbound := hs.bound
    have htmax := ht.maxFill_eq
    have htcap := ht.capacity_eq
    refine ⟨{ t with inserted := s.inserted }, true, ?_,
      ⟨ht.setInserted s.inserted, hcard.symm, ?_⟩, ?_, rfl, ht.slotSize_eq, fun d => ?_,
      by simp, ?_, htcap⟩
    · rw [reserveSlot, if_neg hroom]
      unfold capacity at hcreate hfold
      simp only [bind, Except.bind, hcreate, hfold]
    · change s.inserted ≤ t.maxFill
      omega
    · change s.inserted < t.maxFill
      omega
    · change t.Holds d ↔ s.Holds d
      rw [ht.holds_iff]
      constructor
      · rintro ⟨i, _, hi⟩
        exact ⟨i, hi⟩
      · rintro ⟨i, hi⟩
        exact ⟨i, hi.1, hi⟩
    · simp only [true_iff]
      omega

end Growth

section Insertion

/-- The content of a slot right after its key was inserted: the key, then zeros. -/
def freshSlot (A : KeyAccess κ) (slotSize : ℕ) (key : κ) : Bytes :=
  writeAt (List.replicate slotSize 0) 0 (A.store key)

theorem freshSlot_length {slotSize : ℕ} {key : κ} (hkey : L.ValidKey key)
    (hfit : L.keySize ≤ slotSize) : (freshSlot A slotSize key).length = slotSize := by
  rw [freshSlot, writeAt_length]
  · simp
  · simpa [L.store_length key hkey] using hfit

theorem ident_freshSlot {slotSize : ℕ} {key : κ} (hkey : L.ValidKey key)
    (hfit : L.keySize ≤ slotSize) : L.slotIdent (freshSlot A slotSize key) = L.ident key :=
  L.ident_store _ _ hkey (by simpa using hfit)

/-- `initSlot` fills the free slot at the end of the key's chain. -/
theorem initSlot_spec (hs : Inv L s) (hroom : s.inserted < s.maxFill) {key : κ}
    (hkey : L.ValidKey key) {i : ℕ} (hi : i < s.capacity) (hfree : s.slots i = none)
    (hreach : Reaches s.capacity s.slots (homeSlot s.modMask (A.hash key)) i)
    (habsent : ∀ d, s.Holds d → L.slotIdent d ≠ L.ident key) :
    ∃ t, s.initSlot A i (A.hash key) key = .ok t ∧ Inv L t ∧ t.inserted = s.inserted + 1 ∧
      t.totalSlotSize = s.totalSlotSize ∧ t.capacity = s.capacity ∧
      t.slots = Function.update s.slots i (some (freshSlot A s.totalSlotSize key)) := by
  have hzero := hs.free_zero i hi (slots_eq_none_iff.mp hfree)
  have hstore := L.store_length key hkey
  have hident := ident_freshSlot hkey hs.keySize_le
  have hvalid := L.valid_store (List.replicate s.totalSlotSize 0) key hkey
    (by simpa using hs.keySize_le)
  have hfill := hs.toWellFormed.fill hi hfree (freshSlot_length hkey hs.keySize_le) hvalid
    (by rwa [home, hident, ← L.hash_eq])
    (fun j e he => by rw [hident]; exact habsent e ⟨j, he⟩)
  rw [hident, ← L.hash_eq] at hfill
  have hslots := slots_put (s := s) (i := i) (filledTag_ne_zero (A.hash key))
    (freshSlot A s.totalSlotSize key)
  refine ⟨_, ?_, ⟨hfill.setInserted (s.inserted + 1), ?_, ?_⟩, rfl, rfl, rfl, hslots⟩
  · have hroomy : 0 + (A.store key).length ≤ (s.data i).length := by
      rw [hzero, hstore]
      simpa using hs.keySize_le
    have hcopy : (s.setTag i (filledTag (A.hash key))).copyTo i 0 (A.store key) =
        .ok ((s.setTag i (filledTag (A.hash key))).setData i
          (freshSlot A s.totalSlotSize key)) := by
      rw [copyTo, if_pos (by exact hroomy), freshSlot, ← hzero]
      rfl
    simp only [initSlot, hcopy, bind, Except.bind]
    rfl
  · change s.inserted + 1 = (occupied s.capacity _).card
    rw [hs.count, ← card_occupied_fill hi hfree (freshSlot A s.totalSlotSize key), ← hslots]
    rfl
  · change s.inserted + 1 ≤ s.maxFill
    omega

/-- How an insertion of `key` leads from the table `s` to its result `r`. -/
structure InsertSpec (L : KeyLayout A) (s : SharedHashTableState) (key : κ) (r : Inserted) :
    Prop where
  inv : Inv L r.table
  slotSize_eq : r.table.totalSlotSize = s.totalSlotSize
  new_iff : r.isNewKey = true ↔ ∀ d, s.Holds d → L.slotIdent d ≠ L.ident key
  stored : ∃ d, r.table.Stored r.slot d ∧ L.slotIdent d = L.ident key ∧
    (r.isNewKey = true → d = freshSlot A s.totalSlotSize key) ∧ (r.isNewKey = false → s.Holds d)
  holds_iff : ∀ e, r.table.Holds e ↔
    (r.isNewKey = true ∧ e = freshSlot A s.totalSlotSize key) ∨ s.Holds e
  inserted_eq : r.table.inserted = s.inserted + if r.isNewKey then 1 else 0
  kept : r.grown = false → ∀ j e, s.Stored j e → r.table.Stored j e
  grown_iff : r.grown = true ↔ s.inserted = s.maxFill
  capacity_eq : r.table.capacity = if r.grown then 2 * s.capacity else s.capacity

/-- Inserting an absent key after `reserveSlot`, at the slot a search has found. -/
theorem insertSpec_of_new {t u : SharedHashTableState} {grown : Bool} {key : κ} {i : ℕ}
    (hkey : L.ValidKey key) (htsize : t.totalSlotSize = s.totalSlotSize)
    (htins : t.inserted = s.inserted) (htholds : ∀ d, t.Holds d ↔ s.Holds d)
    (hsame : grown = false → t = s) (hgrown : grown = true ↔ s.inserted = s.maxFill)
    (htcap : t.capacity = if grown then 2 * s.capacity else s.capacity)
    (hfit : L.keySize ≤ s.totalSlotSize) (hi : i < t.capacity) (hfree : t.slots i = none)
    (habsent : ∀ d, t.Holds d → L.slotIdent d ≠ L.ident key)
    (hu : Inv L u) (huins : u.inserted = t.inserted + 1)
    (husize : u.totalSlotSize = t.totalSlotSize)
    (hucap : u.capacity = t.capacity)
    (huslots : u.slots = Function.update t.slots i (some (freshSlot A t.totalSlotSize key))) :
    InsertSpec L s key ⟨u, i, true, grown⟩ := by
  rw [htsize] at huslots
  refine ⟨hu, husize.trans htsize, ?_, ?_, fun e => ?_, ?_, ?_, hgrown, hucap.trans htcap⟩
  · simp only [true_iff]
    exact fun d hd => habsent d ((htholds d).mpr hd)
  · exact ⟨_, stored_update_self huslots (hucap ▸ hi), ident_freshSlot hkey hfit,
      fun _ => rfl, fun h => absurd h (by simp)⟩
  · rw [holds_fill hi hfree huslots hucap, htholds]
    simp
  · simp [huins, htins]
  · intro h j e hj
    have hts := hsame h
    subst hts
    have hji : j ≠ i := by
      rintro rfl
      rw [hj.2] at hfree
      exact absurd hfree (by simp)
    exact stored_update_of_ne huslots hucap hji hj

theorem lookupOrInsert_spec (hs : Inv L s) {key : κ} (hkey : L.ValidKey key) :
    ∃ r, s.lookupOrInsert A key = .ok r ∧ InsertSpec L s key r := by
  obtain ⟨t, grown, hreserve, ht, hroom, htins, htsize, htholds, hsame, hgrown, htcap⟩ :=
    reserveSlot_spec hs
  by_cases hex : ∃ d, t.Holds d ∧ L.slotIdent d = L.ident key
  · obtain ⟨i, d, hd, hfind, hident⟩ := findSlotOrEmpty_found ht.toWellFormed hex
    have hold : ¬ ∀ e, s.Holds e → L.slotIdent e ≠ L.ident key :=
      fun h => h d ((htholds d).mp ⟨i, hd⟩) hident
    refine ⟨⟨t, i, false, grown⟩, ?_, ht, htsize, ?_, ?_, fun e => ?_, ?_, ?_, hgrown, htcap⟩
    · simp [lookupOrInsert, hreserve, hfind, hd.tag_ne_zero, bind, Except.bind]
    · simpa using hold
    · exact ⟨d, hd, hident, fun h => absurd h (by simp), fun _ => (htholds d).mp ⟨i, hd⟩⟩
    · rw [htholds]
      simp
    · simp [htins]
    · intro h j e hj
      rwa [hsame h]
  · have habsent : ∀ d, t.Holds d → L.slotIdent d ≠ L.ident key :=
      fun d hd hident => hex ⟨d, hd, hident⟩
    obtain ⟨i, hi, hfind, hfree, hreach⟩ :=
      findSlotOrEmpty_absent ht.toWellFormed habsent ht.exists_free
    obtain ⟨u, hinit, hu, huins, husize, hucap, huslots⟩ :=
      initSlot_spec ht hroom hkey hi hfree hreach habsent
    refine ⟨⟨u, i, true, grown⟩, ?_, insertSpec_of_new hkey htsize htins htholds hsame hgrown
      htcap hs.keySize_le hi hfree habsent hu huins husize hucap huslots⟩
    simp [lookupOrInsert, hreserve, hfind, slots_eq_none_iff.mp hfree, hinit, bind, Except.bind]

theorem insert_spec (hs : Inv L s) {key : κ} (hkey : L.ValidKey key)
    (habsent : ∀ d, s.Holds d → L.slotIdent d ≠ L.ident key) :
    ∃ r, s.insert A key = .ok r ∧ InsertSpec L s key r := by
  obtain ⟨t, grown, hreserve, ht, hroom, htins, htsize, htholds, hsame, hgrown, htcap⟩ :=
    reserveSlot_spec hs
  have habsent' : ∀ d, t.Holds d → L.slotIdent d ≠ L.ident key :=
    fun d hd => habsent d ((htholds d).mp hd)
  obtain ⟨i, hi, hwalk, hfree, hreach⟩ := walk_free (A.hash key)
    (fun idx => t.tags idx &&& tagFillMask == 0)
    (fun i hi => by rw [beq_iff_eq, ht.fill_bit hi, slots_eq_none_iff]) ht.exists_free
  obtain ⟨u, hinit, hu, huins, husize, hucap, huslots⟩ :=
    initSlot_spec ht hroom hkey hi hfree hreach habsent'
  refine ⟨⟨u, i, true, grown⟩, ?_, insertSpec_of_new hkey htsize htins htholds hsame hgrown
    htcap hs.keySize_le hi hfree habsent' hu huins husize hucap huslots⟩
  simp only [SharedHashTableState.insert, hreserve, hwalk, hinit, bind, Except.bind]

end Insertion

end InkFuse.Runtime
