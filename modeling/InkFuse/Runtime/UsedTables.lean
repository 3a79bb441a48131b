import InkFuse.Runtime.DirectLookup
import InkFuse.Runtime.TableReachable

/-!
The counters of the tables that clients reach. The counter of a growing table is the number of its
slots with a set fill bit, whatever the keys are and whatever was disabled. A table whose slots have
no bytes holds one entry at most, unless keys are disabled in it.
-/

namespace InkFuse.Runtime

open Bytes Probing SharedHashTableState

def entryCount (occupied : ℕ → Bool) (n : ℕ) : ℕ := (List.range n).countP occupied

section Count

variable {p q : ℕ → Bool} {n i : ℕ}

theorem entryCount_congr (h : ∀ i, i < n → p i = q i) : entryCount p n = entryCount q n := by
  apply List.countP_congr
  intro i hi
  rw [h i (List.mem_range.mp hi)]

theorem entryCount_succ (p : ℕ → Bool) (n : ℕ) :
    entryCount p (n + 1) = entryCount p n + if p n then 1 else 0 := by
  rw [entryCount, List.range_succ, List.countP_append, List.countP_singleton]
  rfl

theorem entryCount_none (h : ∀ i, i < n → p i = false) : entryCount p n = 0 := by
  apply List.countP_eq_zero.mpr
  intro i hi
  simp [h i (List.mem_range.mp hi)]

theorem entryCount_update (hi : i < n) (hfree : p i = false) (b : Bool) :
    entryCount (Function.update p i b) n = entryCount p n + if b then 1 else 0 := by
  induction n with
  | zero => omega
  | succ n ih =>
    rw [entryCount_succ, entryCount_succ]
    by_cases hin : i = n
    · subst hin
      rw [Function.update_self, hfree, entryCount_congr fun j hj =>
        Function.update_of_ne (Nat.ne_of_lt hj) b p]
      rfl
    · rw [ih (by omega), Function.update_of_ne (Ne.symm hin)]
      omega

theorem length_entries (p : ℕ → Bool) (n : ℕ) :
    (entriesFrom p n 0).length = entryCount p n := by
  rw [entriesFrom_zero, entryCount, List.countP_eq_length_filter]

end Count

section Growing

variable {κ : Type} {A : KeyAccess κ} {s t : SharedHashTableState} {key : κ} {r : Inserted}

def CountsFilled (s : SharedHashTableState) : Prop := s.inserted = entryCount s.filled s.capacity

theorem filled_setTag (s : SharedHashTableState) (i : ℕ) (tag : UInt8) :
    (s.setTag i tag).filled = Function.update s.filled i (tag &&& tagFillMask != 0) := by
  funext j
  by_cases hji : j = i
  · subst hji
    simp [filled, setTag]
  · simp [filled, setTag, Function.update_of_ne hji]

theorem walk_stop {hash : UInt64} {stop : ℕ → Bool} {i : ℕ} (h : s.walk hash stop = .ok i) :
    i < s.capacity ∧ stop i = true := by
  obtain ⟨d, _, hoff, hstop, _⟩ :=
    (probe_eq_some_iff s.capacity (homeSlot_lt s.modMask hash)).mp (walk_eq_ok.mp h)
  exact ⟨hoff ▸ offset_lt (Nat.succ_pos _) _ _, hstop⟩

/-- Moving a slot during growth. -/
theorem moveSlot_filled {old : SharedHashTableState} {m : ℕ} (h : moveSlot A old s m = .ok t) :
    t.capacity = s.capacity ∧ t.totalSlotSize = s.totalSlotSize ∧
      entryCount t.filled s.capacity = entryCount s.filled s.capacity +
        if old.filled m then 1 else 0 := by
  unfold moveSlot at h
  split at h
  · next htag =>
    cases h
    simp [filled, htag]
  · cases hwalk : s.findFirstEmptySlot (A.slotHash (old.data m)) with
    | error e =>
      rw [hwalk] at h
      cases h
    | ok slot =>
      rw [hwalk] at h
      cases h
      obtain ⟨hslot, hstop⟩ := walk_stop hwalk
      have hfree : s.filled slot = false := by
        rw [filled_eq_false, beq_iff_eq.mp hstop]
        decide
      refine ⟨rfl, rfl, ?_⟩
      show entryCount (s.setTag slot (old.tags m)).filled s.capacity = _
      rw [filled_setTag, entryCount_update hslot hfree]
      rfl

theorem moveSlots_filled {old : SharedHashTableState} (m : ℕ)
    (h : (List.range m).foldlM (moveSlot A old) s = .ok t) :
    t.capacity = s.capacity ∧ t.totalSlotSize = s.totalSlotSize ∧
      entryCount t.filled s.capacity =
        entryCount s.filled s.capacity + entryCount old.filled m := by
  induction m generalizing t with
  | zero =>
    cases h
    exact ⟨rfl, rfl, rfl⟩
  | succ m ih =>
    rw [List.range_succ, List.foldlM_append] at h
    cases hfold : (List.range m).foldlM (moveSlot A old) s with
    | error e =>
      rw [hfold] at h
      cases h
    | ok u =>
      rw [hfold] at h
      have hlast : moveSlot A old u m = .ok t := by
        rw [← h]
        simp only [bind, Except.bind, List.foldlM_cons, List.foldlM_nil, pure, Except.pure]
        cases moveSlot A old u m <;> rfl
      obtain ⟨hcap, hsize, hcount⟩ := ih hfold
      obtain ⟨hcap', hsize', hcount'⟩ := moveSlot_filled hlast
      refine ⟨hcap'.trans hcap, hsize'.trans hsize, ?_⟩
      rw [hcap] at hcount'
      rw [hcount', hcount, entryCount_succ, Nat.add_assoc]

theorem create_empty {slotSize startSlots : ℕ}
    (h : SharedHashTableState.create slotSize startSlots = .ok s) :
    s.totalSlotSize = slotSize % 2 ^ 16 ∧ s.inserted = 0 ∧ s.tags = (fun _ => 0) ∧
      0 < s.maxFill ∧ s.data = (fun _ => List.replicate (slotSize % 2 ^ 16) 0) := by
  unfold SharedHashTableState.create at h
  split at h
  · cases h
  · next hstart =>
    cases h
    exact ⟨rfl, rfl, rfl, Nat.div_pos (by omega) (by omega), rfl⟩

theorem HashTableSimpleKey.create_shared {keySize payloadSize startSlots : ℕ}
    {s : SharedHashTableState}
    (h : HashTableSimpleKey.create keySize payloadSize startSlots = .ok s) :
    ∃ slots, SharedHashTableState.create (keySize + payloadSize) slots = .ok s := by
  unfold HashTableSimpleKey.create at h
  cases hcreate : SharedHashTableState.create (keySize + payloadSize) startSlots with
  | error e =>
    rw [hcreate] at h
    cases h
  | ok t =>
    simp only [hcreate, bind, Except.bind] at h
    split at h
    · exact ⟨4, h⟩
    · cases h
      exact ⟨startSlots, hcreate⟩

theorem HashTableComplexKey.create_shared
    {simpleKeySize complexKeySlots payloadSize startSlots : ℕ} {s : SharedHashTableState}
    (h : HashTableComplexKey.create simpleKeySize complexKeySlots payloadSize startSlots = .ok s) :
    SharedHashTableState.create (simpleKeySize + 8 * complexKeySlots + payloadSize) startSlots =
      .ok s := by
  unfold HashTableComplexKey.create at h
  cases hcreate : SharedHashTableState.create (simpleKeySize + 8 * complexKeySlots + payloadSize)
      startSlots with
  | error e =>
    rw [hcreate] at h
    cases h
  | ok t =>
    simp only [hcreate, bind, Except.bind] at h
    split at h
    · cases h
    · exact h

theorem filled_of_tags (htags : s.tags = fun _ => 0) (i : ℕ) : s.filled i = false := by
  rw [filled_eq_false, htags]
  exact UInt8.zero_and

theorem countsFilled_create {slotSize startSlots : ℕ}
    (h : SharedHashTableState.create slotSize startSlots = .ok s) : CountsFilled s := by
  obtain ⟨_, hins, htags, _⟩ := create_empty h
  rw [CountsFilled, hins, entryCount_none fun i _ => filled_of_tags htags i]

/-- Growth keeps the entries and the slot size. -/
theorem CountsFilled.reserveSlot (hs : CountsFilled s) {grown : Bool}
    (hsize : s.totalSlotSize < 2 ^ 16) (h : s.reserveSlot A = .ok (t, grown)) :
    CountsFilled t ∧ t.totalSlotSize = s.totalSlotSize := by
  unfold SharedHashTableState.reserveSlot at h
  split at h
  · cases h
    exact ⟨hs, rfl⟩
  · cases hcreate : SharedHashTableState.create s.totalSlotSize (2 * (s.modMask + 1)) with
    | error e =>
      rw [hcreate] at h
      cases h
    | ok fresh =>
      cases hmoved : (List.range (s.modMask + 1)).foldlM (moveSlot A s) fresh with
      | error e =>
        simp only [hcreate, hmoved, bind, Except.bind] at h
        cases h
      | ok moved =>
        simp only [hcreate, hmoved, bind, Except.bind] at h
        cases h
        obtain ⟨hfresh, _, htags, _⟩ := create_empty hcreate
        obtain ⟨hcap, hkept, hcount⟩ := moveSlots_filled _ hmoved
        rw [entryCount_none fun i _ => filled_of_tags htags i, Nat.zero_add] at hcount
        refine ⟨?_, by rw [← Nat.mod_eq_of_lt hsize, ← hfresh, ← hkept]⟩
        have hcapacity : moved.capacity = fresh.capacity := hcap
        show s.inserted = entryCount moved.filled moved.capacity
        rw [hcapacity, hcount]
        exact hs

theorem CountsFilled.initSlot (hs : CountsFilled s) {i : ℕ} {hash : UInt64} (hi : i < s.capacity)
    (hfree : s.filled i = false) (h : s.initSlot A i hash key = .ok t) :
    CountsFilled t ∧ t.totalSlotSize = s.totalSlotSize := by
  unfold SharedHashTableState.initSlot copyTo at h
  split at h
  · cases h
    refine ⟨?_, rfl⟩
    have hfill : (filledTag hash &&& tagFillMask != 0) = true := by
      simpa using filledTag_and_fill_ne_zero hash
    show s.inserted + 1 = entryCount (s.setTag i (filledTag hash)).filled s.capacity
    rw [filled_setTag, hfill, entryCount_update hi hfree, hs]
    rfl
  · cases h

/-- `lookupOrInsert` tags the slot at which the search ended, or nothing. -/
theorem lookupOrInsert_slot (h : s.lookupOrInsert A key = .ok r) :
    ∃ t, s.reserveSlot A = .ok (t, r.grown) ∧ (r.table = t ∨
      r.slot < t.capacity ∧ t.tags r.slot = 0 ∧
        t.initSlot A r.slot (A.hash key) key = .ok r.table) := by
  unfold lookupOrInsert at h
  cases hreserve : s.reserveSlot A with
  | error e =>
    rw [hreserve] at h
    cases h
  | ok reserved =>
    obtain ⟨t, grown⟩ := reserved
    cases hfind : t.findSlotOrEmpty A (A.hash key) key with
    | error e =>
      simp only [hreserve, hfind, bind, Except.bind] at h
      cases h
    | ok slot =>
      simp only [hreserve, hfind, bind, Except.bind] at h
      split at h
      · next htag =>
        cases hinit : t.initSlot A slot (A.hash key) key with
        | error e =>
          rw [hinit] at h
          cases h
        | ok u =>
          rw [hinit] at h
          cases h
          exact ⟨t, rfl, Or.inr ⟨(walk_stop hfind).1, htag, hinit⟩⟩
      · cases h
        exact ⟨t, rfl, Or.inl rfl⟩

theorem CountsFilled.lookupOrInsert (hs : CountsFilled s) (hsize : s.totalSlotSize < 2 ^ 16)
    (h : s.lookupOrInsert A key = .ok r) :
    CountsFilled r.table ∧ r.table.totalSlotSize = s.totalSlotSize := by
  obtain ⟨t, hreserve, htable | ⟨hslot, htag, hinit⟩⟩ := lookupOrInsert_slot h
  · rw [htable]
    exact hs.reserveSlot hsize hreserve
  · obtain ⟨ht, hkept⟩ := hs.reserveSlot hsize hreserve
    have hfree : t.filled r.slot = false := by
      rw [filled_eq_false, htag]
      decide
    obtain ⟨hr, hkept'⟩ := ht.initSlot hslot hfree hinit
    exact ⟨hr, hkept'.trans hkept⟩

theorem CountsFilled.insert (hs : CountsFilled s) (hsize : s.totalSlotSize < 2 ^ 16)
    (h : s.insert A key = .ok r) :
    CountsFilled r.table ∧ r.table.totalSlotSize = s.totalSlotSize := by
  obtain ⟨t, hreserve, _, hwalk, hinit⟩ := insert_cases h
  obtain ⟨ht, hkept⟩ := hs.reserveSlot hsize hreserve
  obtain ⟨hslot, hstop⟩ := walk_stop hwalk
  obtain ⟨hr, hkept'⟩ := ht.initSlot hslot (filled_eq_false.mpr (beq_iff_eq.mp hstop)) hinit
  exact ⟨hr, hkept'.trans hkept⟩

theorem CountsFilled.lookupDisable (hs : CountsFilled s) {i : Option ℕ}
    (h : s.lookupDisable A key = .ok (t, i)) :
    CountsFilled t ∧ t.totalSlotSize = s.totalSlotSize := by
  unfold SharedHashTableState.lookupDisable at h
  cases hfind : s.findSlotOrEmpty A (A.hash key) key with
  | error e =>
    rw [hfind] at h
    cases h
  | ok slot =>
    rw [hfind] at h
    cases h
    refine ⟨?_, rfl⟩
    show s.inserted = entryCount (s.setTag slot _).filled s.capacity
    have hsame : ((s.tags slot ^^^ fingerprintInversionMask) &&& tagFillMask != 0) =
        s.filled slot := by
      rw [inverted_and_fill, filled]
    rw [filled_setTag, hsame, Function.update_eq_self]
    exact hs

theorem CountsFilled.lookupOrInsertSingleKey (hs : CountsFilled s) :
    CountsFilled s.lookupOrInsertSingleKey.1 ∧
      s.lookupOrInsertSingleKey.1.totalSlotSize = s.totalSlotSize := by
  unfold SharedHashTableState.lookupOrInsertSingleKey
  split
  · next htag =>
    have hfree : s.filled 0 = false := by
      rw [filled_eq_false, htag]
      decide
    have hpos : 0 < s.capacity := Nat.succ_pos _
    refine ⟨?_, rfl⟩
    show s.inserted + 1 = entryCount (s.setTag 0 tagFillMask).filled s.capacity
    rw [filled_setTag, entryCount_update hpos hfree, hs]
    rfl
  · exact ⟨hs, rfl⟩

theorem CountsFilled.copyTo (hs : CountsFilled s) {i off : ℕ} {bs : Bytes}
    (h : s.copyTo i off bs = .ok t) : CountsFilled t ∧ t.totalSlotSize = s.totalSlotSize := by
  unfold SharedHashTableState.copyTo at h
  split at h
  · cases h
    exact ⟨hs, rfl⟩
  · cases h

end Growing

section Runs

variable {κ : Type} {A : KeyAccess κ} (L : KeyLayout A) (payloadSize : ℕ)

/-- The tables a client reaches with inserts and lookups. A lookup leaves the table as it is. Where
slots have bytes, `insert` need not be called with an absent key, keys may also be disabled, and the
single slot may be used along with others. -/
inductive UsedTable (start : SharedHashTableState) : SharedHashTableState → Prop
  | start : UsedTable start start
  | lookupOrInsert {s key r} : UsedTable start s → L.ValidKey key →
      s.lookupOrInsert A key = .ok r → UsedTable start r.table
  | insert {s key r} : UsedTable start s → L.ValidKey key →
      0 < s.totalSlotSize ∨ s.lookup A key = .ok none → s.insert A key = .ok r →
      UsedTable start r.table
  | lookupDisable {s key t i} : UsedTable start s → 0 < s.totalSlotSize →
      s.lookupDisable A key = .ok (t, i) → UsedTable start t
  | singleKey {s} : UsedTable start s → 0 < s.totalSlotSize →
      UsedTable start s.lookupOrInsertSingleKey.1
  | write {s i off bs t} : UsedTable start s → i < s.capacity → s.filled i = true →
      off + bs.length ≤ payloadSize → s.copyTo i (L.keySize + off) bs = .ok t →
      UsedTable start t

/-- The tables that are only used through their single slot. -/
inductive SingleKeyTable (start : SharedHashTableState) : SharedHashTableState → Prop
  | start : SingleKeyTable start start
  | lookupOrInsert {s} : SingleKeyTable start s → SingleKeyTable start s.lookupOrInsertSingleKey.1
  | write {s off bs t} : SingleKeyTable start s → s.copyTo 0 off bs = .ok t →
      SingleKeyTable start t

variable {L payloadSize} {start s t : SharedHashTableState} {key : κ} {r : Inserted}
  {slotSize startSlots : ℕ}

theorem UsedTable.counts (h : UsedTable L payloadSize start s) (hstart : CountsFilled start)
    (hsize : start.totalSlotSize < 2 ^ 16) :
    CountsFilled s ∧ s.totalSlotSize = start.totalSlotSize := by
  induction h with
  | start => exact ⟨hstart, rfl⟩
  | lookupOrInsert _ _ hr ih =>
    obtain ⟨hr', hkept⟩ := ih.1.lookupOrInsert (ih.2 ▸ hsize) hr
    exact ⟨hr', hkept.trans ih.2⟩
  | insert _ _ _ hr ih =>
    obtain ⟨hr', hkept⟩ := ih.1.insert (ih.2 ▸ hsize) hr
    exact ⟨hr', hkept.trans ih.2⟩
  | lookupDisable _ _ ht ih =>
    obtain ⟨ht', hkept⟩ := ih.1.lookupDisable ht
    exact ⟨ht', hkept.trans ih.2⟩
  | singleKey _ _ ih =>
    obtain ⟨ht', hkept⟩ := ih.1.lookupOrInsertSingleKey
    exact ⟨ht', hkept.trans ih.2⟩
  | write _ _ _ _ ht ih =>
    obtain ⟨ht', hkept⟩ := ih.1.copyTo ht
    exact ⟨ht', hkept.trans ih.2⟩

theorem SingleKeyTable.counts (h : SingleKeyTable start s) (hstart : CountsFilled start) :
    CountsFilled s ∧ s.totalSlotSize = start.totalSlotSize := by
  induction h with
  | start => exact ⟨hstart, rfl⟩
  | lookupOrInsert _ ih =>
    obtain ⟨ht', hkept⟩ := ih.1.lookupOrInsertSingleKey
    exact ⟨ht', hkept.trans ih.2⟩
  | write _ ht ih =>
    obtain ⟨ht', hkept⟩ := ih.1.copyTo ht
    exact ⟨ht', hkept.trans ih.2⟩

theorem copyTo_length {i off : ℕ} {bs : Bytes} (h : s.copyTo i off bs = .ok t) :
    off + bs.length ≤ (s.data i).length ∧ t = s.setData i (writeAt (s.data i) off bs) := by
  unfold copyTo at h
  split at h
  · next hroom =>
    cases h
    exact ⟨hroom, rfl⟩
  · cases h

theorem initSlot_length {i : ℕ} {hash : UInt64} (h : s.initSlot A i hash key = .ok t) :
    (A.store key).length ≤ (s.data i).length := by
  unfold initSlot at h
  cases hcopy : (s.setTag i (filledTag hash)).copyTo i 0 (A.store key) with
  | error e =>
    rw [hcopy] at h
    cases h
  | ok u =>
    have hroom := (copyTo_length hcopy).1
    rwa [Nat.zero_add] at hroom

theorem SingleKeyTable.single (h : SingleKeyTable start s)
    (hcreate : SharedHashTableState.create slotSize startSlots = .ok start) :
    s.inserted ≤ 1 ∧ (s.tags 0 = 0 → s.inserted = 0) := by
  induction h with
  | start =>
    obtain ⟨_, hins, _⟩ := create_empty hcreate
    exact ⟨by omega, fun _ => hins⟩
  | lookupOrInsert _ ih =>
    unfold lookupOrInsertSingleKey
    split
    · next htag =>
      have hins := ih.2 htag
      refine ⟨?_, fun hzero => absurd hzero ?_⟩
      · show _ + 1 ≤ 1
        omega
      · simp only [setTag, Function.update_self]
        decide
    · exact ih
  | write _ ht ih =>
    rw [(copyTo_length ht).2]
    exact ih

/-- No key of at least one byte fits into a slot without bytes. -/
theorem UsedTable.stays_empty (h : UsedTable L payloadSize start s)
    (hcreate : SharedHashTableState.create slotSize startSlots = .ok start)
    (hzero : start.totalSlotSize = 0) (hkey : 0 < L.keySize) :
    s.inserted = 0 ∧ 0 < s.maxFill ∧ ∀ i, (s.data i).length = 0 := by
  obtain ⟨hslot, hins, _, hmax, hdata⟩ := create_empty hcreate
  have hsize : start.totalSlotSize < 2 ^ 16 := by omega
  have hcounts := countsFilled_create hcreate
  have hnoKey : ∀ {s t : SharedHashTableState} {i : ℕ} {hash : UInt64} {key : κ},
      L.ValidKey key → (∀ i, (s.data i).length = 0) → s.initSlot A i hash key ≠ .ok t := by
    intro s t i hash key hvalid hempty hinit
    have hlength := initSlot_length hinit
    rw [hempty, L.store_length key hvalid] at hlength
    omega
  induction h with
  | start =>
    refine ⟨hins, hmax, fun i => ?_⟩
    rw [hdata, List.length_replicate, ← hslot, hzero]
  | lookupOrInsert _ hvalid hr ih =>
    obtain ⟨t, hreserve, hslot⟩ := lookupOrInsert_slot hr
    obtain ⟨_, rfl, _⟩ | ⟨hfull, _⟩ := reserveSlot_cases hreserve
    · obtain htable | ⟨_, _, hinit⟩ := hslot
      · rw [htable]
        exact ih
      · exact absurd hinit (hnoKey hvalid ih.2.2)
    · omega
  | insert _ hvalid _ hr ih =>
    obtain ⟨t, hreserve, _, _, hinit⟩ := insert_cases hr
    obtain ⟨_, rfl, _⟩ | ⟨hfull, _⟩ := reserveSlot_cases hreserve
    · exact absurd hinit (hnoKey hvalid ih.2.2)
    · omega
  | lookupDisable hs hpos _ _ =>
    have hkept := (hs.counts hcounts hsize).2
    omega
  | singleKey hs hpos _ =>
    have hkept := (hs.counts hcounts hsize).2
    omega
  | write _ _ _ _ ht ih =>
    have hroom := (copyTo_length ht).1
    rw [ih.2.2] at hroom
    omega

theorem inv_create (h : SharedHashTableState.create slotSize startSlots = .ok start)
    (hfit : L.keySize ≤ start.totalSlotSize) : Inv L start := by
  have hsize := (create_empty h).1
  rw [hsize] at hfit
  have hlt : slotSize % 2 ^ 16 < 2 ^ 16 := Nat.mod_lt _ (Nat.two_pow_pos 16)
  have hmod : SharedHashTableState.create (slotSize % 2 ^ 16) startSlots = .ok start := by
    rw [← h]
    unfold SharedHashTableState.create
    rw [Nat.mod_mod]
  have hcheck : ¬ (startSlots < 2 ∨ startSlots &&& (startSlots - 1) ≠ 0) := by
    intro hbad
    unfold SharedHashTableState.create at h
    rw [if_pos hbad] at h
    cases h
  rw [not_or, ne_eq, not_not] at hcheck
  have hpow : startSlots.isPowerOfTwo :=
    (Nat.and_sub_one_eq_zero_iff_isPowerOfTwo (by omega)).mp hcheck.2
  obtain ⟨s, hs, hinv, _⟩ := create_wellFormed (L := L) rfl hfit hlt hpow (by omega)
  obtain rfl := Except.ok.inj (hs.symm.trans hmod)
  exact hinv

/-- Keys without bytes are all equal, so there is one entry at most. -/
theorem UsedTable.one_key (h : UsedTable L payloadSize start s)
    (hcreate : SharedHashTableState.create slotSize startSlots = .ok start)
    (hzero : start.totalSlotSize = 0) (hkey : L.keySize = 0) : Inv L s := by
  have hsize : start.totalSlotSize < 2 ^ 16 := by omega
  have hcounts := countsFilled_create hcreate
  induction h with
  | start => exact inv_create hcreate (by omega)
  | lookupOrInsert _ hvalid hr ih =>
    obtain ⟨r', hr', hspec⟩ := lookupOrInsert_spec ih hvalid
    obtain rfl := Except.ok.inj (hr.symm.trans hr')
    exact hspec.inv
  | @insert s key r hs hvalid habsent hr ih =>
    have hkept := (hs.counts hcounts hsize).2
    have habsent := habsent.resolve_left (by omega)
    obtain ⟨i, d, _, _, hfound⟩ | ⟨hnone, _⟩ := lookup_spec ih key
    · rw [hfound] at habsent
      cases habsent
    · obtain ⟨r', hr', hspec⟩ := insert_spec ih hvalid hnone
      obtain rfl := Except.ok.inj (hr.symm.trans hr')
      exact hspec.inv
  | lookupDisable hs hpos _ _ =>
    have hkept := (hs.counts hcounts hsize).2
    omega
  | singleKey hs hpos _ =>
    have hkept := (hs.counts hcounts hsize).2
    omega
  | @write s i off bs t hs hi _ _ ht ih =>
    have hkept := (hs.counts hcounts hsize).2
    obtain ⟨hroom, rfl⟩ := copyTo_length ht
    have hlength := ih.slot_length i hi
    obtain rfl : bs = [] := List.eq_nil_of_length_eq_zero (by omega)
    have hsame : s.setData i (writeAt (s.data i) (L.keySize + off) []) = s := by
      rw [writeAt_nil, setData, Function.update_eq_self]
    rw [hsame]
    exact ih

/-- A table whose slots have no bytes has one entry at most. -/
theorem UsedTable.entries_le (h : UsedTable L payloadSize start s)
    (hcreate : SharedHashTableState.create slotSize startSlots = .ok start)
    (hident : L.keySize = 0 → ∀ d e, L.slotIdent d = L.slotIdent e)
    (hzero : start.totalSlotSize = 0) : s.inserted ≤ 1 := by
  by_cases hkey : L.keySize = 0
  · have hinv := h.one_key hcreate hzero hkey
    rw [hinv.count]
    apply Finset.card_le_one.mpr
    intro i hi j hj
    obtain ⟨hilt, hi⟩ := mem_occupied.mp hi
    obtain ⟨hjlt, hj⟩ := mem_occupied.mp hj
    obtain ⟨d, hd⟩ := Option.ne_none_iff_exists'.mp hi
    obtain ⟨e, he⟩ := Option.ne_none_iff_exists'.mp hj
    exact hinv.unique i j d e hilt hjlt hd he (hident hkey d e)
  · have hempty := (h.stays_empty hcreate hzero (Nat.pos_of_ne_zero hkey)).1
    omega

end Runs

section DirectLookup

open HashTableDirectLookup

variable {start t : HashTableDirectLookup} {payloadSize : ℕ}

/-- What the clients of a direct-lookup table can rely on. -/
structure CountsTagged (t : HashTableDirectLookup) : Prop where
  count : t.numInserted = entryCount t.tags t.capacity
  length : t.data.length = 2 ^ 16 * t.slotSize

theorem store_cases {u : HashTableDirectLookup} {off : ℕ} {bs : Bytes}
    (h : t.store off bs = .ok u) :
    off + bs.length ≤ t.data.length ∧ u = { t with data := writeAt t.data off bs } := by
  unfold store at h
  split at h
  · next hroom =>
    cases h
    exact ⟨hroom, rfl⟩
  · cases h

theorem CountsTagged.store (ht : CountsTagged t) {u : HashTableDirectLookup} {off : ℕ} {bs : Bytes}
    (h : t.store off bs = .ok u) : CountsTagged u := by
  obtain ⟨hroom, rfl⟩ := store_cases h
  exact ⟨ht.count, (writeAt_length hroom).trans ht.length⟩

theorem CountsTagged.lookupOrInsert (ht : CountsTagged t) {u : HashTableDirectLookup} {key : Bytes}
    {ptr : ℕ} (h : t.lookupOrInsert key = .ok (u, ptr)) :
    CountsTagged u ∧ u.slotSize = t.slotSize ∧ 0 < t.slotSize := by
  unfold HashTableDirectLookup.lookupOrInsert at h
  simp only [bind, Except.bind] at h
  split at h
  · cases h
  · next stored hstore =>
    cases h
    have hroom := (store_cases hstore).1
    have hpos : 0 < t.slotSize := by
      apply Nat.pos_of_ne_zero
      intro hzero
      have hlength := ht.length
      simp only [encode_length] at hroom
      rw [hzero] at hlength
      omega
    have hcount : (if t.tags (keyIndex key) then t.numInserted else t.numInserted + 1) =
        entryCount (Function.update t.tags (keyIndex key) true) (2 ^ 16) := by
      cases htag : t.tags (keyIndex key) with
      | true =>
        rw [if_pos rfl, ht.count, ← htag, Function.update_eq_self]
        rfl
      | false =>
        rw [entryCount_update (keyIndex_lt key) htag, if_neg (by simp), ht.count]
        rfl
    refine ⟨?_, by rw [(store_cases hstore).2], hpos⟩
    apply CountsTagged.store _ hstore
    exact ⟨hcount, ht.length⟩

theorem HashTableDirectLookup.Used.counts (h : Used start t)
    (hcreate : HashTableDirectLookup.create payloadSize = .ok start) :
    CountsTagged t ∧ (t.slotSize = 0 → t.numInserted = 0) := by
  induction h with
  | start =>
    unfold HashTableDirectLookup.create at hcreate
    simp only at hcreate
    split at hcreate
    · cases hcreate
      refine ⟨⟨(entryCount_none fun _ _ => rfl).symm, List.length_replicate⟩, fun _ => rfl⟩
    · cases hcreate
  | lookupOrInsert _ hinsert ih =>
    obtain ⟨hu, hsize, hpos⟩ := ih.1.lookupOrInsert hinsert
    exact ⟨hu, fun hzero => by omega⟩
  | write _ hfound _ hstore ih =>
    refine ⟨ih.1.store hstore, ?_⟩
    rw [(store_cases hstore).2]
    exact ih.2

end DirectLookup

end InkFuse.Runtime
