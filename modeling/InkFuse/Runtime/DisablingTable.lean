import InkFuse.Runtime.TableVariants

/-!
The growing table as a map with removal. `lookupDisable` inverts the fingerprint of a slot,
which stays filled: the chains through it are kept and its key is no longer found. A key may
be inserted again after that, so that several slots store it, and one of them at most is
enabled. `Removable` is the invariant of the runs that disable enabled keys only.
-/

namespace InkFuse.Runtime

open Bytes Probing SharedHashTableState

section Invariant

variable {κ : Type} {A : KeyAccess κ} (L : KeyLayout A)

def enabledTag (d : Bytes) : UInt8 := filledTag (L.hashOf (L.slotIdent d))

def Enabled (r : Bytes × UInt8) : Prop := r.2 = enabledTag L r.1

def EnabledAt (s : SharedHashTableState) (q : Bytes) (i : ℕ) : Prop :=
  i < s.capacity ∧ ∃ r, s.entries i = some r ∧ Enabled L r ∧ L.slotIdent r.1 = q

/-- Every filled slot carries the tag of its key, or the inverted one when it is disabled. No
two enabled slots have the same key. -/
structure Removable (s : SharedHashTableState) : Prop extends Zeroed L s where
  tag : ∀ i r, i < s.capacity → s.entries i = some r →
    Enabled L r ∨ r.2 = enabledTag L r.1 ^^^ fingerprintInversionMask
  valid : ∀ i r, i < s.capacity → s.entries i = some r → L.ValidSlot r.1
  chained : Chained s.capacity (fun r => home L s.modMask r.1) s.entries
  unique : ∀ i j r q, i < s.capacity → j < s.capacity → s.entries i = some r →
    s.entries j = some q → Enabled L r → Enabled L q → L.slotIdent r.1 = L.slotIdent q.1 → i = j

/-- A removable table as the operations leave it. -/
structure Disabled (s : SharedHashTableState) : Prop extends Removable L s where
  count : s.inserted = (occupied s.capacity s.entries).card
  bound : s.inserted ≤ s.maxFill

end Invariant

section Removable

variable {κ : Type} {A : KeyAccess κ} {L : KeyLayout A} {s : SharedHashTableState}

theorem Removable.setInserted (hw : Removable L s) (n : ℕ) :
    Removable L { s with inserted := n } :=
  ⟨hw.toZeroed.setInserted n, hw.tag, hw.valid, hw.chained, hw.unique⟩

/-- The fill bit of an entry is set, whether the entry is enabled or not. -/
theorem Removable.fill_bit (hw : Removable L s) {i : ℕ} (hi : i < s.capacity) :
    s.tags i &&& tagFillMask = 0 ↔ s.entries i = none := by
  rw [entries_eq_none]
  constructor
  · intro hfill
    by_contra htag
    have hentry := entries_eq_some.mpr ⟨htag, rfl⟩
    rcases hw.tag i _ hi hentry with henabled | hdisabled
    · have htagi : s.tags i = enabledTag L (s.data i) := henabled
      rw [htagi] at hfill
      exact filledTag_and_fill_ne_zero _ hfill
    · have htagi : s.tags i = enabledTag L (s.data i) ^^^ fingerprintInversionMask := hdisabled
      rw [htagi] at hfill
      exact (filledTag_inverted _).1 hfill
  · intro htag
    rw [htag]
    decide

/-- A table without disabled slots. -/
theorem Inv.disabled (hs : Inv L s) : Disabled L s := by
  have hstored : ∀ i r, i < s.capacity → s.entries i = some r →
      s.Stored i r.1 ∧ r.2 = s.tags i := by
    intro i r hi hr
    obtain ⟨htag, rfl⟩ := entries_eq_some.mp hr
    exact ⟨⟨hi, slots_eq_some_iff.mpr ⟨htag, rfl⟩⟩, rfl⟩
  have hnone : ∀ i, s.entries i ≠ none ↔ s.slots i ≠ none := by
    intro i
    rw [ne_eq, entries_eq_none, ne_eq, slots_eq_none_iff]
  refine ⟨⟨hs.toZeroed, ?_, ?_, ?_, ?_⟩, ?_, hs.bound⟩
  · intro i r hi hr
    obtain ⟨hslot, htag⟩ := hstored i r hi hr
    left
    rw [Enabled, htag, hs.tag_eq i _ hslot, enabledTag]
  · intro i r hi hr
    exact hs.valid i _ (hstored i r hi hr).1
  · intro i r hi hr
    obtain ⟨d, hd, hoff, hbefore⟩ := hs.chained i r.1 hi (hstored i r hi hr).1.2
    exact ⟨d, hd, hoff, fun e he => (hnone _).mpr (hbefore e he)⟩
  · intro i j r q hi hj hr hq _ _ hident
    exact hs.unique i j r.1 q.1 hi hj (hstored i r hi hr).1.2 (hstored j q hj hq).1.2 hident
  · rw [hs.count]
    congr 1
    ext i
    rw [mem_occupied, mem_occupied, hnone]

/-- Filling a free slot at the end of a chain. An enabled record needs a key that no enabled
slot has. -/
theorem Removable.put (hw : Removable L s) {i : ℕ} {d : Bytes} {tag : UInt8}
    (hi : i < s.capacity) (hfree : s.entries i = none) (hlen : d.length = s.totalSlotSize)
    (hvalid : L.ValidSlot d)
    (htag : tag = enabledTag L d ∨ tag = enabledTag L d ^^^ fingerprintInversionMask)
    (hreach : Reaches s.capacity s.entries (home L s.modMask d) i)
    (habsent : tag = enabledTag L d → ∀ j, ¬ EnabledAt L s (L.slotIdent d) j) :
    Removable L ((s.setTag i tag).setData i d) := by
  have hne : tag ≠ 0 := by
    intro hzero
    rcases htag with h | h
    · exact filledTag_ne_zero _ (h.symm.trans hzero)
    · have hfill := (filledTag_inverted (L.hashOf (L.slotIdent d))).1
      rw [← enabledTag, ← h, hzero] at hfill
      exact hfill (by decide)
  have hentries := entries_put s (i := i) hne d
  have hcases : ∀ j r, j < s.capacity →
      ((s.setTag i tag).setData i d).entries j = some r →
      (j = i ∧ r = (d, tag)) ∨ (j ≠ i ∧ s.entries j = some r) := by
    intro j r _ hr
    rw [hentries] at hr
    by_cases hji : j = i
    · subst hji
      rw [Function.update_self, Option.some.injEq] at hr
      exact Or.inl ⟨rfl, hr.symm⟩
    · rw [Function.update_of_ne hji] at hr
      exact Or.inr ⟨hji, hr⟩
  refine ⟨hw.toZeroed.put i hne hlen, ?_, ?_, ?_, ?_⟩
  · intro j r hj hr
    rcases hcases j r hj hr with ⟨_, rfl⟩ | ⟨_, hold⟩
    · exact htag
    · exact hw.tag j r hj hold
  · intro j r hj hr
    rcases hcases j r hj hr with ⟨_, rfl⟩ | ⟨_, hold⟩
    · exact hvalid
    · exact hw.valid j r hj hold
  · rw [hentries]
    exact hw.chained.fill hfree hreach
  · intro j k r q hj hk hr hq her heq hident
    rcases hcases j r hj hr with ⟨rfl, rfl⟩ | ⟨_, hr'⟩ <;>
      rcases hcases k q hk hq with ⟨rfl, rfl⟩ | ⟨_, hq'⟩
    · rfl
    · exact absurd ⟨hk, q, hq', heq, hident.symm⟩ (habsent her k)
    · exact absurd ⟨hj, r, hr', her, hident⟩ (habsent heq j)
    · exact hw.unique j k r q hj hk hr' hq' her heq hident

/-- Disabling an enabled slot. -/
theorem Removable.disable (hw : Removable L s) {i : ℕ} {r : Bytes × UInt8} (hi : i < s.capacity)
    (hr : s.entries i = some r) (henabled : Enabled L r) :
    Removable L (s.setTag i (s.tags i ^^^ fingerprintInversionMask)) ∧
      (s.setTag i (s.tags i ^^^ fingerprintInversionMask)).entries = Function.update s.entries i
        (some (r.1, enabledTag L r.1 ^^^ fingerprintInversionMask)) := by
  obtain ⟨htag, rfl⟩ := entries_eq_some.mp hr
  have htagi : s.tags i = enabledTag L (s.data i) := henabled
  have hinv := filledTag_inverted (L.hashOf (L.slotIdent (s.data i)))
  rw [← enabledTag] at hinv
  have hne : s.tags i ^^^ fingerprintInversionMask ≠ 0 := by
    intro hzero
    rw [← htagi, hzero] at hinv
    exact hinv.1 (by decide)
  have hentries := entries_setTag s (i := i) hne
  rw [htagi] at hentries
  refine ⟨?_, by rw [htagi, hentries]⟩
  rw [htagi]
  set t := s.setTag i (enabledTag L (s.data i) ^^^ fingerprintInversionMask) with ht
  have hcases : ∀ j q, j < s.capacity → t.entries j = some q →
      (j = i ∧ q = (s.data i, enabledTag L (s.data i) ^^^ fingerprintInversionMask)) ∨
        (j ≠ i ∧ s.entries j = some q) := by
    intro j q _ hq
    rw [hentries] at hq
    by_cases hji : j = i
    · subst hji
      rw [Function.update_self, Option.some.injEq] at hq
      exact Or.inl ⟨rfl, hq.symm⟩
    · rw [Function.update_of_ne hji] at hq
      exact Or.inr ⟨hji, hq⟩
  have hnot : ¬ Enabled L (s.data i, enabledTag L (s.data i) ^^^ fingerprintInversionMask) :=
    hinv.2
  refine ⟨hw.toZeroed.setTag i (htagi ▸ hne), ?_, ?_, ?_, ?_⟩
  · intro j q hj hq
    rcases hcases j q hj hq with ⟨_, rfl⟩ | ⟨_, hold⟩
    · exact Or.inr rfl
    · exact hw.tag j q hj hold
  · intro j q hj hq
    have hvalid : L.ValidSlot (s.data i) := hw.valid i _ hi hr
    rcases hcases j q hj hq with ⟨_, rfl⟩ | ⟨_, hold⟩
    · exact hvalid
    · exact hw.valid j q hj hold
  · rw [hentries]
    exact hw.chained.replace hr rfl
  · intro j k q p hj hk hq hp heq hep hident
    rcases hcases j q hj hq with ⟨rfl, rfl⟩ | ⟨_, hq'⟩
    · exact absurd heq hnot
    · rcases hcases k p hk hp with ⟨rfl, rfl⟩ | ⟨_, hp'⟩
      · exact absurd hep hnot
      · exact hw.unique j k q p hj hk hq' hp' heq hep hident

end Removable

section Operations

variable {κ : Type} {A : KeyAccess κ} {L : KeyLayout A} {s : SharedHashTableState}

theorem Removable.exists_free (hw : Removable L s)
    (hcard : (occupied s.capacity s.entries).card ≤ s.capacity / 2) :
    ∃ i, i < s.capacity ∧ s.entries i = none := by
  have htwo := hw.two_le
  exact Probing.exists_free (by omega)

/-- The exit condition of `findSlotOrEmpty`. -/
theorem Removable.stop_iff (hw : Removable L s) (key : κ) {i : ℕ} (hi : i < s.capacity) :
    (s.tags i &&& tagFillMask == 0 ||
      (s.tags i &&& tagHashMask == tagHashMask &&& topByte (A.hash key) &&
        A.slotMatches (s.data i) key)) = true ↔
      ∀ r, s.entries i = some r → Enabled L r ∧ L.slotIdent r.1 = L.ident key := by
  rw [Bool.or_eq_true, Bool.and_eq_true, beq_iff_eq, beq_iff_eq, hw.fill_bit hi]
  cases hentry : s.entries i with
  | none => simp
  | some r =>
    obtain ⟨htag, rfl⟩ := entries_eq_some.mp hentry
    have hmatch := L.matches_iff (s.data i) key (hw.valid i _ hi hentry)
    simp only [reduceCtorEq, false_or, Option.some.injEq, forall_eq', hmatch, Enabled]
    refine and_congr_left fun hident => ?_
    have henabled : enabledTag L (s.data i) = filledTag (A.hash key) := by
      rw [enabledTag, hident, L.hash_eq]
    rw [henabled]
    constructor
    · intro hhash
      rcases hw.tag i _ hi hentry with htagi | htagi
      · exact htagi.trans henabled
      · have hinverted : s.tags i = filledTag (A.hash key) ^^^ fingerprintInversionMask := by
          rw [← henabled]
          exact htagi
        rw [hinverted] at hhash
        exact absurd hhash (filledTag_inverted_hash _)
    · intro htagi
      rw [htagi, filledTag_and_hash]

/-- A search ends at the enabled slot of the key, or at the free slot at the end of the
chain of the key when no slot is enabled for it. -/
theorem Removable.find_spec (hw : Removable L s) (key : κ)
    (hfree : ∃ i, i < s.capacity ∧ s.entries i = none) :
    (∃ i, s.findSlotOrEmpty A (A.hash key) key = .ok i ∧ EnabledAt L s (L.ident key) i) ∨
      ((∀ i, ¬ EnabledAt L s (L.ident key) i) ∧
        ∃ i, i < s.capacity ∧ s.findSlotOrEmpty A (A.hash key) key = .ok i ∧
          s.entries i = none ∧
          Reaches s.capacity s.entries (homeSlot s.modMask (A.hash key)) i) := by
  let m : Bytes × UInt8 → Prop := fun r => Enabled L r ∧ L.slotIdent r.1 = L.ident key
  by_cases hex : ∃ i r, i < s.capacity ∧ s.entries i = some r ∧ m r
  · obtain ⟨i, r, hi, hprobe, hr, henabled, hident⟩ :=
      probe_found (homeSlot_lt s.modMask (A.hash key)) hw.chained
        (fun r hr => by rw [home, hr.2, L.hash_eq]) (fun i hi => hw.stop_iff key hi) hex
    exact Or.inl ⟨i, walk_eq_ok.mpr hprobe, hi, r, hr, henabled, hident⟩
  · have habsent : ∀ i r, i < s.capacity → s.entries i = some r → ¬ m r :=
      fun i r hi hr hm => hex ⟨i, r, hi, hr, hm⟩
    obtain ⟨i, hi, hprobe, hnone, hreach⟩ :=
      probe_absent (homeSlot_lt s.modMask (A.hash key)) (fun i hi => hw.stop_iff key hi)
        habsent hfree
    refine Or.inr ⟨?_, i, hi, walk_eq_ok.mpr hprobe, hnone, hreach⟩
    intro j hj
    obtain ⟨hlt, r, hr, henabled, hident⟩ := hj
    exact habsent j r hlt hr ⟨henabled, hident⟩

/-- A search for a free slot ends at the first free slot of the chain. -/
theorem walk_free_entry (hash : UInt64) (stop : ℕ → Bool)
    (hstop : ∀ i, i < s.capacity → (stop i = true ↔ s.entries i = none))
    (hfree : ∃ i, i < s.capacity ∧ s.entries i = none) :
    ∃ i, i < s.capacity ∧ s.walk hash stop = .ok i ∧ s.entries i = none ∧
      Reaches s.capacity s.entries (homeSlot s.modMask hash) i := by
  have hslots : ∀ i, s.slots i = none ↔ s.entries i = none := by
    intro i
    rw [slots_eq_none_iff, entries_eq_none]
  obtain ⟨j, hj, hnone⟩ := hfree
  obtain ⟨i, hi, hwalk, hfreei, hreach⟩ := walk_free hash stop
    (fun i hi => by rw [hstop i hi, hslots]) ⟨j, hj, (hslots j).mpr hnone⟩
  refine ⟨i, hi, hwalk, (hslots i).mp hfreei, ?_⟩
  obtain ⟨d, hd, hoff, hbefore⟩ := hreach
  exact ⟨d, hd, hoff, fun e he hn => hbefore e he ((hslots _).mpr hn)⟩

theorem Disabled.exists_free (hs : Disabled L s) : ∃ i, i < s.capacity ∧ s.entries i = none := by
  have hcount := hs.count
  have hbound := hs.bound
  have hmax := hs.maxFill_eq
  exact hs.toRemovable.exists_free (by omega)

theorem EnabledAt.fill_bit (hw : Removable L s) {q : Bytes} {i : ℕ} (h : EnabledAt L s q i) :
    s.tags i &&& tagFillMask ≠ 0 := by
  obtain ⟨hi, r, hr, _⟩ := h
  rw [ne_eq, hw.fill_bit hi, hr]
  simp

theorem Removable.enabledAt_unique (hw : Removable L s) {q : Bytes} {i j : ℕ}
    (hi : EnabledAt L s q i) (hj : EnabledAt L s q j) : i = j := by
  obtain ⟨hi, r, hr, her, hqr⟩ := hi
  obtain ⟨hj, p, hp, hep, hqp⟩ := hj
  exact hw.unique i j r p hi hj hr hp her hep (hqr.trans hqp.symm)

/-- `lookup` returns the enabled slot of the key, or null when there is none. -/
theorem Disabled.lookup_spec (hs : Disabled L s) (key : κ) :
    (∃ i, s.lookup A key = .ok (some i) ∧ EnabledAt L s (L.ident key) i) ∨
      (s.lookup A key = .ok none ∧ ∀ i, ¬ EnabledAt L s (L.ident key) i) := by
  rcases hs.find_spec key hs.exists_free with ⟨i, hfind, hi⟩ | ⟨habsent, i, hi, hfind, hfree, _⟩
  · refine Or.inl ⟨i, ?_, hi⟩
    have hfill := hi.fill_bit hs.toRemovable
    simp [lookup, hfind, hfill, bind, Except.bind]
  · refine Or.inr ⟨?_, habsent⟩
    have hfill := (hs.fill_bit hi).mpr hfree
    simp [lookup, hfind, hfill, bind, Except.bind]

theorem Disabled.lookup_iff (hs : Disabled L s) (key : κ) (i : ℕ) :
    s.lookup A key = .ok (some i) ↔ EnabledAt L s (L.ident key) i := by
  rcases hs.lookup_spec key with ⟨j, hlook, hj⟩ | ⟨hlook, habsent⟩
  · rw [hlook, Except.ok.injEq, Option.some.injEq]
    constructor
    · intro hji
      exact hji ▸ hj
    · exact hs.enabledAt_unique hj
  · rw [hlook]
    simpa using habsent i

theorem Disabled.lookup_none_iff (hs : Disabled L s) (key : κ) :
    s.lookup A key = .ok none ↔ ∀ i, ¬ EnabledAt L s (L.ident key) i := by
  rcases hs.lookup_spec key with ⟨j, hlook, hj⟩ | ⟨hlook, habsent⟩
  · rw [hlook]
    simp only [Except.ok.injEq, reduceCtorEq, false_iff]
    intro hall
    exact hall j hj
  · simpa [hlook] using habsent

/-- `lookupDisable` of an enabled key returns its slot. It changes the tag of this slot only,
and no other key. -/
theorem Disabled.lookupDisable_spec (hs : Disabled L s) {key : κ}
    (hex : ∃ i, EnabledAt L s (L.ident key) i) :
    ∃ i t, s.lookupDisable A key = .ok (t, some i) ∧ EnabledAt L s (L.ident key) i ∧
      Disabled L t ∧ t.inserted = s.inserted ∧ t.totalSlotSize = s.totalSlotSize ∧
      t.capacity = s.capacity ∧ t.data = s.data ∧ (∀ j, j ≠ i → t.tags j = s.tags j) ∧
      ∀ q j, EnabledAt L t q j ↔ EnabledAt L s q j ∧ q ≠ L.ident key := by
  rcases hs.find_spec key hs.exists_free with ⟨i, hfind, hi⟩ | ⟨habsent, _⟩
  · have hfill := hi.fill_bit hs.toRemovable
    obtain ⟨hlt, r, hr, henabled, hident⟩ := hi
    obtain ⟨hremovable, hentries⟩ := hs.disable hlt hr henabled
    refine ⟨i, s.setTag i (s.tags i ^^^ fingerprintInversionMask), ?_,
      ⟨hlt, r, hr, henabled, hident⟩, ⟨hremovable, ?_, hs.bound⟩, rfl, rfl, rfl, rfl, ?_, ?_⟩
    · simp [lookupDisable, hfind, hfill, bind, Except.bind]
    · rw [hentries]
      exact hs.count.trans (by rw [← occupied_replace hr]; rfl)
    · intro j hji
      simp [setTag, Function.update_of_ne hji]
    · intro q j
      unfold EnabledAt
      rw [hentries]
      by_cases hji : j = i
      · subst hji
        constructor
        · intro h
          obtain ⟨_, p, hp, hep, _⟩ := h
          rw [Function.update_self, Option.some.injEq] at hp
          subst hp
          exact absurd hep (filledTag_inverted _).2
        · intro h
          obtain ⟨⟨_, p, hp, _, hq⟩, hne⟩ := h
          obtain rfl := Option.some.inj (hr.symm.trans hp)
          exact absurd (hq.symm.trans hident) hne
      · rw [Function.update_of_ne hji]
        constructor
        · intro h
          refine ⟨h, fun hq => hji ?_⟩
          subst hq
          exact hs.enabledAt_unique h ⟨hlt, r, hr, henabled, hident⟩
        · exact And.left
  · obtain ⟨i, hi⟩ := hex
    exact absurd hi (habsent i)

/-- `lookupDisable` of any other key returns null. -/
theorem Disabled.lookupDisable_absent (hs : Disabled L s) {key : κ}
    (habsent : ∀ i, ¬ EnabledAt L s (L.ident key) i) :
    ∃ t, s.lookupDisable A key = .ok (t, none) := by
  rcases hs.find_spec key hs.exists_free with ⟨i, _, hi⟩ | ⟨_, i, hi, hfind, hfree, _⟩
  · exact absurd hi (habsent i)
  · refine ⟨s.setTag i (s.tags i ^^^ fingerprintInversionMask), ?_⟩
    have hfill := (hs.fill_bit hi).mpr hfree
    simp [lookupDisable, hfind, hfill, bind, Except.bind]

end Operations

section Growth

variable {κ : Type} {A : KeyAccess κ} {L : KeyLayout A} {s : SharedHashTableState}

/-- The new table after the slots below `m` of the old one were moved, with their tags. -/
structure MovedTags (L : KeyLayout A) (old s : SharedHashTableState) (m : ℕ) : Prop
    extends Removable L s where
  capacity_eq : s.capacity = 2 * old.capacity
  slotSize_eq : s.totalSlotSize = old.totalSlotSize
  holds_iff : ∀ r, (∃ i, i < s.capacity ∧ s.entries i = some r) ↔
    ∃ i, i < m ∧ i < old.capacity ∧ old.entries i = some r
  card_eq : (occupied s.capacity s.entries).card =
    ((occupied old.capacity old.entries).filter (· < m)).card

theorem enabledAt_of_entry_iff {s t : SharedHashTableState}
    (h : ∀ r, (∃ i, i < t.capacity ∧ t.entries i = some r) ↔
      ∃ i, i < s.capacity ∧ s.entries i = some r) (q : Bytes) :
    (∃ i, EnabledAt L t q i) ↔ ∃ i, EnabledAt L s q i := by
  have hswap : ∀ u : SharedHashTableState, (∃ i, EnabledAt L u q i) ↔
      ∃ r, (∃ i, i < u.capacity ∧ u.entries i = some r) ∧ Enabled L r ∧
        L.slotIdent r.1 = q := by
    intro u
    constructor
    · intro hex
      obtain ⟨i, hi, r, hr, hen, hq⟩ := hex
      exact ⟨r, ⟨i, hi, hr⟩, hen, hq⟩
    · intro hex
      obtain ⟨r, ⟨i, hi, hr⟩, hen, hq⟩ := hex
      exact ⟨i, hi, r, hr, hen, hq⟩
  rw [hswap t, hswap s]
  exact exists_congr fun r => by rw [h r]

/-- What is in the slots after a free one was filled. -/
theorem entry_iff_of_put {t : SharedHashTableState} {i : ℕ} {r : Bytes × UInt8}
    (hi : i < s.capacity) (hfree : s.entries i = none)
    (hentries : t.entries = Function.update s.entries i (some r)) (hcap : t.capacity = s.capacity)
    (q : Bytes × UInt8) :
    (∃ j, j < t.capacity ∧ t.entries j = some q) ↔
      q = r ∨ ∃ j, j < s.capacity ∧ s.entries j = some q := by
  rw [hentries, hcap]
  constructor
  · intro hex
    obtain ⟨j, hj, hq⟩ := hex
    by_cases hji : j = i
    · subst hji
      rw [Function.update_self, Option.some.injEq] at hq
      exact Or.inl hq.symm
    · rw [Function.update_of_ne hji] at hq
      exact Or.inr ⟨j, hj, hq⟩
  · intro hq
    rcases hq with rfl | ⟨j, hj, hq⟩
    · exact ⟨i, hi, Function.update_self ..⟩
    · have hji : j ≠ i := by
        rintro rfl
        rw [hfree] at hq
        exact absurd hq (by simp)
      exact ⟨j, hj, by rw [Function.update_of_ne hji, hq]⟩

theorem MovedTags.exists_free {old : SharedHashTableState} (hold : Disabled L old) {m : ℕ}
    (hm : MovedTags L old s m) : ∃ i, i < s.capacity ∧ s.entries i = none := by
  have hcard := hm.card_eq
  have hle := Finset.card_filter_le (occupied old.capacity old.entries) (· < m)
  have hcount := hold.count
  have hbound := hold.bound
  have hmax := hold.maxFill_eq
  have hcap := hm.capacity_eq
  exact hm.toRemovable.exists_free (by omega)

/-- One iteration of the copy loop moves one slot and leaves its tag as it is. -/
theorem moveSlot_tags {old : SharedHashTableState} (hold : Disabled L old) {m : ℕ}
    (hm : MovedTags L old s m) (hlt : m < old.capacity) :
    ∃ t, moveSlot A old s m = .ok t ∧ MovedTags L old t (m + 1) := by
  by_cases htag : old.tags m = 0
  · have hnone := entries_eq_none.mpr htag
    refine ⟨s, by rw [moveSlot, if_pos htag],
      hm.toRemovable, hm.capacity_eq, hm.slotSize_eq, fun r => ?_, ?_⟩
    · rw [hm.holds_iff]
      constructor
      · intro hex
        obtain ⟨i, hi, hir⟩ := hex
        exact ⟨i, by omega, hir⟩
      · intro hex
        obtain ⟨i, hi, hcap, hir⟩ := hex
        have hne : i ≠ m := by
          rintro rfl
          rw [hnone] at hir
          exact absurd hir (by simp)
        exact ⟨i, by omega, hcap, hir⟩
    · rw [hm.card_eq, filter_occupied_succ_of_none hnone]
  · have hentry : old.entries m = some (old.data m, old.tags m) :=
      entries_eq_some.mpr ⟨htag, rfl⟩
    obtain ⟨i, hi, hwalk, hnone, hreach⟩ := walk_free_entry (A.slotHash (old.data m))
      (fun idx => s.tags idx == 0)
      (fun i _ => by rw [beq_iff_eq, entries_eq_none]) (hm.exists_free hold)
    have habsent : old.tags m = enabledTag L (old.data m) →
        ∀ j, ¬ EnabledAt L s (L.slotIdent (old.data m)) j := by
      intro hen j hj
      obtain ⟨hlt', r, hr, her, hident⟩ := hj
      obtain ⟨i', hi', hcap, hold'⟩ := (hm.holds_iff r).mp ⟨j, hlt', hr⟩
      have heq := hold.unique i' m r _ hcap hlt hold' hentry her hen hident
      omega
    have hlen : (old.data m).length = s.totalSlotSize := by
      rw [hm.slotSize_eq, hold.slot_length m hlt]
    rw [L.slotHash_eq] at hreach
    have hvalid : L.ValidSlot (old.data m) := hold.valid m _ hlt hentry
    have htags : old.tags m = enabledTag L (old.data m) ∨
        old.tags m = enabledTag L (old.data m) ^^^ fingerprintInversionMask :=
      hold.tag m _ hlt hentry
    have hput := hm.toRemovable.put hi hnone hlen hvalid htags hreach habsent
    have hentries := entries_put s (i := i) htag (old.data m)
    refine ⟨(s.setTag i (old.tags m)).setData i (old.data m), ?_,
      hput, hm.capacity_eq, hm.slotSize_eq, fun r => ?_, ?_⟩
    · simp only [moveSlot, htag, if_false, findFirstEmptySlot, hwalk, bind, Except.bind]
    · rw [entry_iff_of_put hi hnone hentries rfl, hm.holds_iff]
      constructor
      · intro hr
        rcases hr with rfl | ⟨j, hj, hjr⟩
        · exact ⟨m, by omega, hlt, hentry⟩
        · exact ⟨j, by omega, hjr⟩
      · intro hex
        obtain ⟨j, hj, hcap, hjr⟩ := hex
        rcases Nat.lt_succ_iff_lt_or_eq.mp hj with hj' | rfl
        · exact Or.inr ⟨j, hj', hcap, hjr⟩
        · exact Or.inl (Option.some.inj (hjr.symm.trans hentry))
    · have hsome : old.entries m ≠ none := by rw [hentry]; simp
      rw [card_filter_occupied_succ hlt hsome, ← hm.card_eq, hentries]
      exact card_occupied_fill hi hnone _

theorem moveSlots_tags {old : SharedHashTableState} (hold : Disabled L old)
    (hm : MovedTags L old s 0) (m : ℕ) (hle : m ≤ old.capacity) :
    ∃ t, (List.range m).foldlM (moveSlot A old) s = .ok t ∧ MovedTags L old t m := by
  induction m with
  | zero => exact ⟨s, rfl, hm⟩
  | succ m ih =>
    obtain ⟨t, hfold, ht⟩ := ih (by omega)
    obtain ⟨u, hstep, hu⟩ := moveSlot_tags hold ht (by omega)
    refine ⟨u, ?_, hu⟩
    rw [List.range_succ, List.foldlM_append, hfold]
    simp [bind, Except.bind, hstep, pure, Except.pure]

/-- `reserveSlot` leaves room for one more slot and keeps enabled and disabled slots. -/
theorem Disabled.reserveSlot_spec (hs : Disabled L s) :
    ∃ t grown, s.reserveSlot A = .ok (t, grown) ∧ Disabled L t ∧ t.inserted < t.maxFill ∧
      t.inserted = s.inserted ∧ t.totalSlotSize = s.totalSlotSize ∧
      ∀ r, (∃ i, i < t.capacity ∧ t.entries i = some r) ↔
        ∃ i, i < s.capacity ∧ s.entries i = some r := by
  by_cases hroom : s.inserted < s.maxFill
  · exact ⟨s, false, by rw [reserveSlot, if_pos hroom], hs, hroom, rfl, rfl, fun _ => Iff.rfl⟩
  · have hpow : (2 * s.capacity).isPowerOfTwo := by
      rw [Nat.mul_comm]
      exact Nat.isPowerOfTwo_mul_two_of_isPowerOfTwo hs.pow
    have htwo := hs.two_le
    obtain ⟨fresh, hcreate, hfresh, hcap, hsize, hins, htags⟩ :=
      create_wellFormed (L := L) rfl hs.keySize_le hs.size_lt hpow (by omega)
    have hstart : MovedTags L s fresh 0 := by
      refine ⟨hfresh.disabled.toRemovable, hcap, hsize, fun r => ?_, ?_⟩
      · constructor
        · intro hex
          obtain ⟨i, _, hi⟩ := hex
          rw [entries_eq_none.mpr (htags i)] at hi
          exact absurd hi (by simp)
        · intro hex
          obtain ⟨i, hi, _⟩ := hex
          omega
      · simp [← hfresh.disabled.count, hins]
    obtain ⟨t, hfold, ht⟩ := moveSlots_tags hs hstart s.capacity le_rfl
    have hall : (occupied s.capacity s.entries).filter (· < s.capacity) =
        occupied s.capacity s.entries :=
      Finset.filter_true_of_mem fun i hi => (mem_occupied.mp hi).1
    have hcard := ht.card_eq
    rw [hall, ← hs.count] at hcard
    have hmax := hs.maxFill_eq
    have hbound := hs.bound
    have htmax := ht.maxFill_eq
    have htcap := ht.capacity_eq
    refine ⟨{ t with inserted := s.inserted }, true, ?_,
      ⟨ht.setInserted s.inserted, hcard.symm, ?_⟩, ?_, rfl, ht.slotSize_eq, fun r => ?_⟩
    · rw [reserveSlot, if_neg hroom]
      unfold capacity at hcreate hfold
      simp only [bind, Except.bind, hcreate, hfold]
    · show s.inserted ≤ t.maxFill
      omega
    · show s.inserted < t.maxFill
      omega
    · apply (ht.holds_iff r).trans
      constructor
      · intro hex
        obtain ⟨i, _, hi⟩ := hex
        exact ⟨i, hi⟩
      · intro hex
        obtain ⟨i, hi⟩ := hex
        exact ⟨i, hi.1, hi⟩

end Growth

section Insertion

variable {κ : Type} {A : KeyAccess κ} {L : KeyLayout A} {s : SharedHashTableState}

/-- `initSlot` enables the key in the free slot at the end of its chain. -/
theorem Disabled.initSlot_spec (hs : Disabled L s) (hroom : s.inserted < s.maxFill) {key : κ}
    (hkey : L.ValidKey key) {i : ℕ} (hi : i < s.capacity) (hfree : s.entries i = none)
    (hreach : Reaches s.capacity s.entries (homeSlot s.modMask (A.hash key)) i)
    (habsent : ∀ j, ¬ EnabledAt L s (L.ident key) j) :
    ∃ t r, s.initSlot A i (A.hash key) key = .ok t ∧ Disabled L t ∧
      t.inserted = s.inserted + 1 ∧ t.totalSlotSize = s.totalSlotSize ∧
      t.capacity = s.capacity ∧ t.entries = Function.update s.entries i (some r) ∧
      Enabled L r ∧ L.slotIdent r.1 = L.ident key := by
  have hzero := hs.free_zero i hi (entries_eq_none.mp hfree)
  have hstore := L.store_length key hkey
  have hident := ident_freshSlot hkey hs.keySize_le
  have hvalid : L.ValidSlot (freshSlot A s.totalSlotSize key) :=
    L.valid_store (List.replicate s.totalSlotSize 0) key hkey (by simpa using hs.keySize_le)
  have htag : filledTag (A.hash key) = enabledTag L (freshSlot A s.totalSlotSize key) := by
    rw [enabledTag, hident, L.hash_eq]
  have hput := hs.toRemovable.put hi hfree (freshSlot_length hkey hs.keySize_le) hvalid
    (Or.inl htag) (by rwa [home, hident, ← L.hash_eq]) (by rw [hident]; exact fun _ => habsent)
  have hentries := entries_put s (i := i) (filledTag_ne_zero (A.hash key))
    (freshSlot A s.totalSlotSize key)
  refine ⟨_, (freshSlot A s.totalSlotSize key, filledTag (A.hash key)), ?_,
    ⟨hput.setInserted (s.inserted + 1), ?_, ?_⟩, rfl, rfl, rfl, hentries, htag, hident⟩
  · have hroomy : 0 + (A.store key).length ≤ (s.data i).length := by
      rw [hzero, hstore]
      simpa using hs.keySize_le
    have hcopy : (s.setTag i (filledTag (A.hash key))).copyTo i 0 (A.store key) =
        .ok ((s.setTag i (filledTag (A.hash key))).setData i
          (freshSlot A s.totalSlotSize key)) := by
      rw [copyTo, if_pos (by exact hroomy), freshSlot, ← hzero]
      rfl
    simp only [initSlot, hcopy, bind, Except.bind]
    rfl
  · show s.inserted + 1 = (occupied s.capacity _).card
    rw [hs.count, ← card_occupied_fill hi hfree
      (freshSlot A s.totalSlotSize key, filledTag (A.hash key)), ← hentries]
    rfl
  · show s.inserted + 1 ≤ s.maxFill
    omega

structure InsertsKey (L : KeyLayout A) (s : SharedHashTableState) (key : κ) (r : Inserted) :
    Prop where
  disabled : Disabled L r.table
  slotSize_eq : r.table.totalSlotSize = s.totalSlotSize
  new_iff : r.isNewKey = true ↔ ∀ i, ¬ EnabledAt L s (L.ident key) i
  enabledAt : EnabledAt L r.table (L.ident key) r.slot
  enabled_iff : ∀ q, (∃ i, EnabledAt L r.table q i) ↔ q = L.ident key ∨ ∃ i, EnabledAt L s q i
  inserted_eq : r.table.inserted = s.inserted + if r.isNewKey then 1 else 0

/-- Enabling a key after `reserveSlot`, in the slot that a search has found. -/
theorem insertsKey_of_new {t u : SharedHashTableState} {grown : Bool} {key : κ} {i : ℕ}
    {r : Bytes × UInt8} (htsize : t.totalSlotSize = s.totalSlotSize)
    (htins : t.inserted = s.inserted)
    (hteq : ∀ q, (∃ i, EnabledAt L t q i) ↔ ∃ i, EnabledAt L s q i)
    (hi : i < t.capacity) (hfree : t.entries i = none)
    (habsent : ∀ j, ¬ EnabledAt L t (L.ident key) j)
    (hu : Disabled L u) (huins : u.inserted = t.inserted + 1)
    (husize : u.totalSlotSize = t.totalSlotSize) (hucap : u.capacity = t.capacity)
    (huentries : u.entries = Function.update t.entries i (some r))
    (henabled : Enabled L r) (hident : L.slotIdent r.1 = L.ident key) :
    InsertsKey L s key ⟨u, i, true, grown⟩ := by
  have hat : EnabledAt L u (L.ident key) i :=
    ⟨hucap ▸ hi, r, by rw [huentries, Function.update_self], henabled, hident⟩
  refine ⟨hu, husize.trans htsize, ?_, hat, fun q => ?_, ?_⟩
  · simp only [true_iff]
    intro j hj
    obtain ⟨k, hk⟩ := (hteq _).mpr ⟨j, hj⟩
    exact habsent k hk
  · rw [← hteq q]
    constructor
    · intro hex
      obtain ⟨j, hj, p, hp, hep, hq⟩ := hex
      rcases (entry_iff_of_put hi hfree huentries hucap p).mp ⟨j, hj, hp⟩ with rfl | ⟨k, hk, hpk⟩
      · exact Or.inl (hq.symm.trans hident)
      · exact Or.inr ⟨k, hk, p, hpk, hep, hq⟩
    · intro hq
      rcases hq with rfl | ⟨j, hj, p, hp, hep, hqp⟩
      · exact ⟨i, hat⟩
      · obtain ⟨k, hk, hpk⟩ := (entry_iff_of_put hi hfree huentries hucap p).mpr
          (Or.inr ⟨j, hj, hp⟩)
        exact ⟨k, hk, p, hpk, hep, hqp⟩
  · simp [huins, htins]

theorem Disabled.lookupOrInsert_spec (hs : Disabled L s) {key : κ} (hkey : L.ValidKey key) :
    ∃ r, s.lookupOrInsert A key = .ok r ∧ InsertsKey L s key r := by
  obtain ⟨t, grown, hreserve, ht, hroom, htins, htsize, htholds⟩ := hs.reserveSlot_spec
  have hteq := enabledAt_of_entry_iff (L := L) htholds
  rcases ht.find_spec key ht.exists_free with
    ⟨i, hfind, hat⟩ | ⟨habsent, i, hi, hfind, hfree, hreach⟩
  · have htag : t.tags i ≠ 0 := by
      intro hzero
      apply hat.fill_bit ht.toRemovable
      rw [hzero]
      decide
    refine ⟨⟨t, i, false, grown⟩, ?_, ht, htsize, ?_, hat, fun q => ?_, ?_⟩
    · simp [lookupOrInsert, hreserve, hfind, htag, bind, Except.bind]
    · obtain ⟨j, hj⟩ := (hteq _).mp ⟨i, hat⟩
      simp only [Bool.false_eq_true, false_iff]
      intro hall
      exact hall j hj
    · rw [hteq q]
      constructor
      · exact Or.inr
      · intro hq
        rcases hq with rfl | hq
        · exact (hteq _).mp ⟨i, hat⟩
        · exact hq
    · simp [htins]
  · obtain ⟨u, r, hinit, hu, huins, husize, hucap, huentries, henabled, hident⟩ :=
      ht.initSlot_spec hroom hkey hi hfree hreach habsent
    refine ⟨⟨u, i, true, grown⟩, ?_, insertsKey_of_new htsize htins hteq hi hfree habsent hu
      huins husize hucap huentries henabled hident⟩
    simp [lookupOrInsert, hreserve, hfind, entries_eq_none.mp hfree, hinit, bind, Except.bind]

theorem Disabled.insert_spec (hs : Disabled L s) {key : κ} (hkey : L.ValidKey key)
    (habsent : ∀ i, ¬ EnabledAt L s (L.ident key) i) :
    ∃ r, s.insert A key = .ok r ∧ InsertsKey L s key r := by
  obtain ⟨t, grown, hreserve, ht, hroom, htins, htsize, htholds⟩ := hs.reserveSlot_spec
  have hteq := enabledAt_of_entry_iff (L := L) htholds
  have habsent' : ∀ i, ¬ EnabledAt L t (L.ident key) i := by
    intro i hi
    obtain ⟨j, hj⟩ := (hteq _).mp ⟨i, hi⟩
    exact habsent j hj
  obtain ⟨i, hi, hwalk, hfree, hreach⟩ := walk_free_entry (A.hash key)
    (fun idx => t.tags idx &&& tagFillMask == 0)
    (fun i hi => by rw [beq_iff_eq, ht.fill_bit hi]) ht.exists_free
  obtain ⟨u, r, hinit, hu, huins, husize, hucap, huentries, henabled, hident⟩ :=
    ht.initSlot_spec hroom hkey hi hfree hreach habsent'
  refine ⟨⟨u, i, true, grown⟩, ?_, insertsKey_of_new htsize htins hteq hi hfree habsent' hu
    huins husize hucap huentries henabled hident⟩
  simp only [SharedHashTableState.insert, hreserve, hwalk, hinit, bind, Except.bind]

end Insertion

/-- The purpose of a table with removal: the keys that can be found, and the number of all
insertions, which removals do not take back. -/
structure RemovalMap where
  enabled : Finset Bytes
  inserts : ℕ

namespace RemovalMap

def empty : RemovalMap := ⟨∅, 0⟩

def inserted (m : RemovalMap) (q : Bytes) : RemovalMap where
  enabled := Insert.insert q m.enabled
  inserts := if q ∈ m.enabled then m.inserts else m.inserts + 1

def removed (m : RemovalMap) (q : Bytes) : RemovalMap :=
  { m with enabled := m.enabled.erase q }

end RemovalMap

section Run

variable {κ : Type} {A : KeyAccess κ} (L : KeyLayout A)

/-- The tables of the runs that disable enabled keys only, each with its map. -/
inductive RemovalRun (start : SharedHashTableState) : SharedHashTableState → RemovalMap → Prop
  | start : RemovalRun start start RemovalMap.empty
  | lookup {s m key r} : RemovalRun start s m → L.ValidKey key → s.lookup A key = .ok r →
      RemovalRun start s m
  | lookupDisable {s m key t r} : RemovalRun start s m → L.ValidKey key →
      L.ident key ∈ m.enabled → s.lookupDisable A key = .ok (t, r) →
      RemovalRun start t (m.removed (L.ident key))
  | lookupOrInsert {s m key r} : RemovalRun start s m → L.ValidKey key →
      s.lookupOrInsert A key = .ok r → RemovalRun start r.table (m.inserted (L.ident key))
  | insert {s m key r} : RemovalRun start s m → L.ValidKey key → L.ident key ∉ m.enabled →
      s.insert A key = .ok r → RemovalRun start r.table (m.inserted (L.ident key))

def InsertsInto (s : SharedHashTableState) (key : κ) (r : Inserted) : Prop :=
  L.slotIdent (r.table.data r.slot) = L.ident key ∧
    r.table.lookup A key = .ok (some r.slot) ∧
    r.table.size = s.size + (if r.isNewKey then 1 else 0) ∧
    ∀ k, L.ident k ≠ L.ident key → (r.table.lookup A k = .ok none ↔ s.lookup A k = .ok none)

/-- Every operation answers as a map with removal does, and none fails. -/
structure ActsAsMap (s : SharedHashTableState) (m : RemovalMap) : Prop where
  lookup : ∀ key, L.ValidKey key → ∃ r, s.lookup A key = .ok r ∧
    (r = none ↔ L.ident key ∉ m.enabled) ∧
    ∀ i, r = some i → i < s.capacity ∧ L.slotIdent (s.data i) = L.ident key
  lookupDisable : ∀ key, L.ValidKey key → L.ident key ∈ m.enabled → ∃ i t,
    s.lookup A key = .ok (some i) ∧ s.lookupDisable A key = .ok (t, some i) ∧
      t.lookup A key = .ok none ∧ t.data = s.data ∧ (∀ j, j ≠ i → t.tags j = s.tags j) ∧
      t.size = s.size ∧ ∀ k, L.ident k ≠ L.ident key → t.lookup A k = s.lookup A k
  lookupDisable_absent : ∀ key, L.ValidKey key → L.ident key ∉ m.enabled →
    ∃ t, s.lookupDisable A key = .ok (t, none)
  lookupOrInsert : ∀ key, L.ValidKey key → ∃ r, s.lookupOrInsert A key = .ok r ∧
    (r.isNewKey = true ↔ L.ident key ∉ m.enabled) ∧ InsertsInto L s key r
  insert : ∀ key, L.ValidKey key → L.ident key ∉ m.enabled → ∃ r, s.insert A key = .ok r ∧
    r.isNewKey = true ∧ InsertsInto L s key r
  size_eq : s.size = m.inserts

end Run

section Simulation

variable {κ : Type} {A : KeyAccess κ} {L : KeyLayout A} {s : SharedHashTableState}
  {m : RemovalMap}

structure Removes (L : KeyLayout A) (s : SharedHashTableState) (m : RemovalMap) : Prop where
  disabled : Disabled L s
  mem_enabled : ∀ q, q ∈ m.enabled ↔ ∃ i, EnabledAt L s q i
  inserts_eq : m.inserts = s.inserted

theorem Removes.notMem_iff (h : Removes L s m) (q : Bytes) :
    q ∉ m.enabled ↔ ∀ i, ¬ EnabledAt L s q i := by
  rw [h.mem_enabled, not_exists]

theorem Removes.inserted (h : Removes L s m) {key : κ} {r : Inserted}
    (hr : InsertsKey L s key r) : Removes L r.table (m.inserted (L.ident key)) := by
  refine ⟨hr.disabled, fun q => ?_, ?_⟩
  · rw [RemovalMap.inserted, Finset.mem_insert, h.mem_enabled, hr.enabled_iff]
  · rw [hr.inserted_eq, RemovalMap.inserted, h.inserts_eq]
    have hnew := hr.new_iff.trans (h.notMem_iff (L.ident key)).symm
    by_cases hmem : L.ident key ∈ m.enabled
    · have hold : r.isNewKey = false := by
        rw [Bool.eq_false_iff, ne_eq, hnew]
        exact not_not.mpr hmem
      simp [hmem, hold]
    · simp [hmem, hnew.mpr hmem]

theorem Removes.removed (h : Removes L s m) {key : κ} (hmem : L.ident key ∈ m.enabled) :
    ∃ t i, s.lookupDisable A key = .ok (t, some i) ∧ Removes L t (m.removed (L.ident key)) := by
  obtain ⟨i, t, hdisable, _, ht, htins, _, _, _, _, hiff⟩ :=
    h.disabled.lookupDisable_spec ((h.mem_enabled _).mp hmem)
  refine ⟨t, i, hdisable, ht, fun q => ?_, h.inserts_eq.trans htins.symm⟩
  simp only [RemovalMap.removed, Finset.mem_erase, hiff, h.mem_enabled]
  constructor
  · intro hq
    obtain ⟨hne, j, hj⟩ := hq
    exact ⟨j, hj, hne⟩
  · intro hex
    obtain ⟨j, hj, hne⟩ := hex
    exact ⟨hne, j, hj⟩

/-- Every state of a run stands for its map. -/
theorem RemovalRun.removes {start : SharedHashTableState}
    (hstart : Removes L start RemovalMap.empty) (hrun : RemovalRun L start s m) :
    Removes L s m := by
  induction hrun with
  | start => exact hstart
  | lookup _ _ _ ih => exact ih
  | lookupDisable _ _ hmem hdisable ih =>
    obtain ⟨t, i, ht, hremoves⟩ := ih.removed hmem
    obtain ⟨rfl, rfl⟩ := Prod.mk.inj (Except.ok.inj (hdisable.symm.trans ht))
    exact hremoves
  | lookupOrInsert _ hkey hr ih =>
    obtain ⟨r', hr', hspec⟩ := ih.disabled.lookupOrInsert_spec hkey
    obtain rfl := Except.ok.inj (hr.symm.trans hr')
    exact ih.inserted hspec
  | insert _ hkey habsent hr ih =>
    obtain ⟨r', hr', hspec⟩ := ih.disabled.insert_spec hkey ((ih.notMem_iff _).mp habsent)
    obtain rfl := Except.ok.inj (hr.symm.trans hr')
    exact ih.inserted hspec

theorem EnabledAt.data_ident {q : Bytes} {i : ℕ} (h : EnabledAt L s q i) :
    i < s.capacity ∧ L.slotIdent (s.data i) = q := by
  obtain ⟨hi, r, hr, _, hq⟩ := h
  obtain ⟨_, rfl⟩ := entries_eq_some.mp hr
  exact ⟨hi, hq⟩

theorem InsertsKey.insertsInto (hs : Disabled L s) {key : κ} {r : Inserted}
    (hr : InsertsKey L s key r) : InsertsInto L s key r := by
  refine ⟨hr.enabledAt.data_ident.2, (hr.disabled.lookup_iff key _).mpr hr.enabledAt,
    hr.inserted_eq, fun k hk => ?_⟩
  have henabled := hr.enabled_iff (L.ident k)
  rw [hr.disabled.lookup_none_iff, hs.lookup_none_iff, ← not_exists, ← not_exists, henabled]
  simp [hk]

theorem Removes.actsAsMap (h : Removes L s m) : ActsAsMap L s m where
  lookup := by
    intro key _
    rcases h.disabled.lookup_spec key with ⟨i, hlook, hi⟩ | ⟨hlook, habsent⟩
    · refine ⟨some i, hlook, ?_, fun j hj => ?_⟩
      · have hmem := (h.mem_enabled (L.ident key)).mpr ⟨i, hi⟩
        simpa using hmem
      · obtain rfl := Option.some.inj hj
        exact hi.data_ident
    · exact ⟨none, hlook, by simpa using (h.notMem_iff _).mpr habsent,
        fun j hj => absurd hj (by simp)⟩
  lookupDisable := by
    intro key _ hmem
    obtain ⟨i, t, hdisable, hi, ht, htins, _, _, hdata, htags, hiff⟩ :=
      h.disabled.lookupDisable_spec ((h.mem_enabled _).mp hmem)
    refine ⟨i, t, (h.disabled.lookup_iff key i).mpr hi, hdisable, ?_, hdata, htags, htins, ?_⟩
    · rw [ht.lookup_none_iff]
      intro j hj
      exact ((hiff _ j).mp hj).2 rfl
    · intro k hk
      rcases h.disabled.lookup_spec k with ⟨j, hlook, hj⟩ | ⟨hlook, habsent⟩
      · rw [hlook, ht.lookup_iff, hiff]
        exact ⟨hj, hk⟩
      · rw [hlook, ht.lookup_none_iff]
        intro j hj
        exact habsent j ((hiff _ j).mp hj).1
  lookupDisable_absent := by
    intro key _ habsent
    apply h.disabled.lookupDisable_absent
    exact (h.notMem_iff _).mp habsent
  lookupOrInsert := by
    intro key hkey
    obtain ⟨r, hr, hspec⟩ := h.disabled.lookupOrInsert_spec hkey
    exact ⟨r, hr, by rw [hspec.new_iff, h.notMem_iff], hspec.insertsInto h.disabled⟩
  insert := by
    intro key hkey habsent
    have hnone := (h.notMem_iff _).mp habsent
    obtain ⟨r, hr, hspec⟩ := h.disabled.insert_spec hkey hnone
    exact ⟨r, hr, hspec.new_iff.mpr hnone, hspec.insertsInto h.disabled⟩
  size_eq := h.inserts_eq.symm

end Simulation

theorem removes_create {κ : Type} {A : KeyAccess κ} (L : KeyLayout A) {payloadSize : ℕ}
    (hfit : L.keySize + payloadSize < 2 ^ 16) {startSlots : ℕ} (hpow : startSlots.isPowerOfTwo)
    (htwo : 2 ≤ startSlots) :
    ∃ s, SharedHashTableState.create (L.keySize + payloadSize) startSlots = .ok s ∧
      Removes L s RemovalMap.empty := by
  obtain ⟨s, hcreate, hinv, _, _, hins, htags⟩ :=
    create_wellFormed (L := L) rfl (Nat.le_add_right L.keySize payloadSize) hfit hpow htwo
  refine ⟨s, hcreate, hinv.disabled, fun q => ?_, hins.symm⟩
  simp only [RemovalMap.empty, Finset.notMem_empty, false_iff]
  intro hex
  obtain ⟨i, _, r, hr, _⟩ := hex
  exact (entries_eq_some.mp hr).1 (htags i)

theorem HashTableSimpleKey.create_removes (hash : Bytes → UInt64) {keySize payloadSize : ℕ}
    (hfit : keySize + payloadSize < 2 ^ 16) {startSlots : ℕ} (hpow : startSlots.isPowerOfTwo)
    (htwo : 2 ≤ startSlots) :
    ∃ s, HashTableSimpleKey.create keySize payloadSize startSlots = .ok s ∧
      Removes (simpleLayout hash keySize) s RemovalMap.empty := by
  have hcreate : ∀ slots, slots.isPowerOfTwo → 2 ≤ slots →
      ∃ s, SharedHashTableState.create (keySize + payloadSize) slots = .ok s ∧
        Removes (simpleLayout hash keySize) s RemovalMap.empty :=
    fun slots hpow htwo => removes_create (simpleLayout hash keySize) hfit hpow htwo
  obtain ⟨s, hs, hremoves⟩ := hcreate startSlots hpow htwo
  by_cases hkey : keySize = 0
  · obtain ⟨s', hs', hremoves'⟩ := hcreate 4 ⟨2, rfl⟩ (by omega)
    refine ⟨s', ?_, hremoves'⟩
    subst hkey
    simp only [HashTableSimpleKey.create, hs, bind, Except.bind, if_true]
    exact hs'
  · refine ⟨s, ?_, hremoves⟩
    simp only [HashTableSimpleKey.create, hs, hkey, bind, Except.bind, if_false]

/-- The table acts as a map with removal in every state of a run in which every
`lookupDisable` names an enabled key, for every hash function and every slot size that fits
its sixteen bits. -/
theorem disabling_enabled_keys (hash : Bytes → UInt64) {keySize payloadSize startSlots : ℕ}
    (hfit : keySize + payloadSize < 2 ^ 16) (hpow : startSlots.isPowerOfTwo)
    (htwo : 2 ≤ startSlots) :
    ∃ start, HashTableSimpleKey.create keySize payloadSize startSlots = .ok start ∧
      ∀ s m, RemovalRun (simpleLayout hash keySize) start s m →
        ActsAsMap (simpleLayout hash keySize) s m := by
  obtain ⟨start, hcreate, hremoves⟩ :=
    HashTableSimpleKey.create_removes hash hfit hpow htwo
  exact ⟨start, hcreate, fun s m hrun => (hrun.removes hremoves).actsAsMap⟩

theorem disabling_enabled_keys_small :
    ∃ start, HashTableSimpleKey.create 4 8 2 = .ok start ∧
      ∀ s m, RemovalRun (simpleLayout (fun _ => 5) 4) start s m →
        ActsAsMap (simpleLayout (fun _ => 5) 4) s m :=
  disabling_enabled_keys (fun _ => 5) (by decide) ⟨1, rfl⟩ (by decide)

/-- Disabling a key that is not in the table marks the free slot at which the search has
ended. The next insertion of the key takes it for a filled slot. -/
theorem disabled_absent_key_lost :
    ∃ start t r, HashTableSimpleKey.create 1 0 4 = .ok start ∧
      start.lookupDisable (simpleKey (fun _ => 0) 1) [7] = .ok (t, none) ∧
      t.lookupOrInsert (simpleKey (fun _ => 0) 1) [7] = .ok r ∧ r.isNewKey = false ∧
      r.table.size = 0 ∧ r.table.lookup (simpleKey (fun _ => 0) 1) [7] = .ok none :=
  ⟨_, _, _, rfl, rfl, rfl, rfl, rfl, rfl⟩

end InkFuse.Runtime
