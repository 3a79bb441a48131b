import InkFuse.Runtime.DisablingTable

/-!
The tables that a client reaches with inserts, removals of enabled keys and payload writes, and
what an insertion adds to the entries of such a table. `Counted` is the part of the invariant that
also outlasts the insertion of a key that is in the table already.
-/

namespace InkFuse.Runtime

open Bytes Probing SharedHashTableState

section Rewrite

variable {κ : Type} {A : KeyAccess κ} {L : KeyLayout A} {s : SharedHashTableState}

/-- Changing an entry behind its key. -/
theorem Removable.rewrite (hw : Removable L s) {i : ℕ} {r : Bytes × UInt8} {d : Bytes}
    (hi : i < s.capacity) (hr : s.entries i = some r) (hlen : d.length = s.totalSlotSize)
    (hvalid : L.ValidSlot d) (hident : L.slotIdent d = L.slotIdent r.1) :
    Removable L (s.setData i d) := by
  have htag : s.tags i ≠ 0 := (entries_eq_some.mp hr).1
  have hentries : (s.setData i d).entries = Function.update s.entries i (some (d, r.2)) := by
    rw [s.entries_setData htag, (entries_eq_some.mp hr).2]
  have henabledTag : enabledTag L d = enabledTag L r.1 := by rw [enabledTag, enabledTag, hident]
  have henabled : Enabled L (d, r.2) ↔ Enabled L r := by
    rw [Enabled, Enabled, henabledTag]
  have hcases : ∀ j q, (s.setData i d).entries j = some q →
      (j = i ∧ q = (d, r.2)) ∨ (j ≠ i ∧ s.entries j = some q) := by
    intro j q hq
    rw [hentries] at hq
    by_cases hji : j = i
    · subst hji
      rw [Function.update_self, Option.some.injEq] at hq
      exact Or.inl ⟨rfl, hq.symm⟩
    · rw [Function.update_of_ne hji] at hq
      exact Or.inr ⟨hji, hq⟩
  have hold : ∀ j q, (s.setData i d).entries j = some q → ∃ p, s.entries j = some p ∧
      (Enabled L q ↔ Enabled L p) ∧ L.slotIdent q.1 = L.slotIdent p.1 := by
    intro j q hq
    rcases hcases j q hq with ⟨rfl, rfl⟩ | ⟨_, hq'⟩
    · exact ⟨r, hr, henabled, hident⟩
    · exact ⟨q, hq', Iff.rfl, rfl⟩
  refine ⟨hw.toZeroed.setData htag hlen, ?_, ?_, ?_, ?_⟩
  · intro j q hj hq
    rcases hcases j q hq with ⟨rfl, rfl⟩ | ⟨_, hq'⟩
    · rw [henabled, henabledTag]
      exact hw.tag j r hj hr
    · exact hw.tag j q hj hq'
  · intro j q hj hq
    rcases hcases j q hq with ⟨_, rfl⟩ | ⟨_, hq'⟩
    · exact hvalid
    · exact hw.valid j q hj hq'
  · rw [hentries]
    apply hw.chained.replace hr
    show home L s.modMask d = home L s.modMask r.1
    rw [home, home, hident]
  · intro j k q p hj hk hq hp heq hep hqp
    obtain ⟨q', hq', hqe, hqi⟩ := hold j q hq
    obtain ⟨p', hp', hpe, hpi⟩ := hold k p hp
    exact hw.unique j k q' p' hj hk hq' hp' (hqe.mp heq) (hpe.mp hep)
      (hqi.symm.trans (hqp.trans hpi))

/-- A write behind the key of a filled slot. -/
theorem Disabled.write (hs : Disabled L s) {i off : ℕ} {bs : Bytes} {t : SharedHashTableState}
    (hi : i < s.capacity) (hfilled : s.filled i = true)
    (h : s.copyTo i (L.keySize + off) bs = .ok t) : Disabled L t := by
  have hentry : s.entries i ≠ none := by
    intro hnone
    have hbit := (hs.fill_bit hi).mpr hnone
    unfold filled at hfilled
    rw [hbit] at hfilled
    exact absurd hfilled (by decide)
  obtain ⟨r, hr⟩ := Option.ne_none_iff_exists'.mp hentry
  have hdata : r.1 = s.data i := by rw [(entries_eq_some.mp hr).2]
  have hlength := hs.slot_length i hi
  unfold copyTo at h
  split at h
  · next hroom =>
    cases h
    have hoff : L.keySize + off ≤ (s.data i).length := by omega
    have hvalid := L.valid_writeAt (s.data i) (L.keySize + off) bs (Nat.le_add_right _ _) hoff
      (hdata ▸ hs.valid i r hi hr)
    have hident := L.ident_writeAt (s.data i) (L.keySize + off) bs (Nat.le_add_right _ _) hoff
    have hlen : (writeAt (s.data i) (L.keySize + off) bs).length = s.totalSlotSize := by
      rw [writeAt_length hroom, hlength]
    refine ⟨hs.rewrite hi hr hlen hvalid (by rw [hident, hdata]), ?_, hs.bound⟩
    rw [s.entries_setData (entries_eq_some.mp hr).1]
    exact hs.count.trans (by rw [← occupied_replace hr]; rfl)
  · cases h

end Rewrite

section Reachable

variable {κ : Type} {A : KeyAccess κ} (L : KeyLayout A) (payloadSize : ℕ)

/-- The tables a client reaches. It inserts keys, disables keys that it can find, and writes to the
payload of slots in use. A lookup leaves the table as it is. -/
inductive TableReachable (start : SharedHashTableState) : SharedHashTableState → Prop
  | start : TableReachable start start
  | lookupOrInsert {s key r} : TableReachable start s → L.ValidKey key →
      s.lookupOrInsert A key = .ok r → TableReachable start r.table
  | insert {s key r} : TableReachable start s → L.ValidKey key → s.lookup A key = .ok none →
      s.insert A key = .ok r → TableReachable start r.table
  | lookupDisable {s key i t r} : TableReachable start s → L.ValidKey key →
      s.lookup A key = .ok (some i) → s.lookupDisable A key = .ok (t, r) →
      TableReachable start t
  | write {s i off bs t} : TableReachable start s → i < s.capacity → s.filled i = true →
      off + bs.length ≤ payloadSize → s.copyTo i (L.keySize + off) bs = .ok t →
      TableReachable start t

variable {L payloadSize}

theorem TableReachable.disabled {start s : SharedHashTableState} (hstart : Disabled L start)
    (h : TableReachable L payloadSize start s) : Disabled L s := by
  induction h with
  | start => exact hstart
  | lookupOrInsert _ hkey hr ih =>
    obtain ⟨r', hr', hspec⟩ := ih.lookupOrInsert_spec hkey
    obtain rfl := Except.ok.inj (hr.symm.trans hr')
    exact hspec.disabled
  | insert _ hkey habsent hr ih =>
    obtain ⟨r', hr', hspec⟩ := ih.insert_spec hkey ((ih.lookup_none_iff _).mp habsent)
    obtain rfl := Except.ok.inj (hr.symm.trans hr')
    exact hspec.disabled
  | lookupDisable _ _ hfound hdisable ih =>
    obtain ⟨i, t, ht, _, hdisabled, _⟩ := ih.lookupDisable_spec ⟨_, (ih.lookup_iff _ _).mp hfound⟩
    obtain ⟨rfl, rfl⟩ := Prod.mk.inj (Except.ok.inj (hdisable.symm.trans ht))
    exact hdisabled
  | write _ hi hfilled _ ht ih => exact ih.write hi hfilled ht

end Reachable

section Cases

variable {κ : Type} {A : KeyAccess κ} {s t : SharedHashTableState} {key : κ} {r : Inserted}

theorem reserveSlot_cases {grown : Bool} (h : s.reserveSlot A = .ok (t, grown)) :
    (s.inserted < s.maxFill ∧ t = s ∧ grown = false) ∨
    (¬ s.inserted < s.maxFill ∧ grown = true) := by
  unfold reserveSlot at h
  split at h
  · next hroom =>
    cases h
    exact Or.inl ⟨hroom, rfl, rfl⟩
  · next hfull =>
    refine Or.inr ⟨hfull, ?_⟩
    simp only [bind, Except.bind] at h
    split at h
    · cases h
    · split at h
      · cases h
      · cases h
        rfl

theorem initSlot_cases {i : ℕ} {hash : UInt64} (h : s.initSlot A i hash key = .ok t) :
    t.capacity = s.capacity ∧ t.entries =
      Function.update s.entries i (some (writeAt (s.data i) 0 (A.store key), filledTag hash)) := by
  unfold initSlot copyTo at h
  split at h
  · cases h
    exact ⟨rfl, entries_put s (filledTag_ne_zero hash) _⟩
  · cases h

theorem lookupOrInsert_cases (h : s.lookupOrInsert A key = .ok r) :
    ∃ t, s.reserveSlot A = .ok (t, r.grown) ∧ (r.isNewKey = false ∧ r.table = t ∨
      r.isNewKey = true ∧ t.tags r.slot = 0 ∧
        t.initSlot A r.slot (A.hash key) key = .ok r.table) := by
  unfold lookupOrInsert at h
  cases hreserve : s.reserveSlot A with
  | error e =>
    rw [hreserve] at h
    cases h
  | ok reserved =>
    obtain ⟨t, grown⟩ := reserved
    rw [hreserve] at h
    simp only [bind, Except.bind] at h
    split at h
    · cases h
    · split at h
      · next htag =>
        split at h
        · cases h
        · next u hinit =>
          cases h
          exact ⟨t, rfl, Or.inr ⟨rfl, htag, hinit⟩⟩
      · cases h
        exact ⟨t, rfl, Or.inl ⟨rfl, rfl⟩⟩

theorem insert_cases (h : s.insert A key = .ok r) :
    ∃ t, s.reserveSlot A = .ok (t, r.grown) ∧ r.isNewKey = true ∧
      t.walk (A.hash key) (fun idx => t.tags idx &&& tagFillMask == 0) = .ok r.slot ∧
      t.initSlot A r.slot (A.hash key) key = .ok r.table := by
  unfold SharedHashTableState.insert at h
  cases hreserve : s.reserveSlot A with
  | error e =>
    rw [hreserve] at h
    cases h
  | ok reserved =>
    obtain ⟨t, grown⟩ := reserved
    rw [hreserve] at h
    simp only [bind, Except.bind] at h
    split at h
    · cases h
    · next slot hwalk =>
      split at h
      · cases h
      · next u hinit =>
        cases h
        exact ⟨t, rfl, rfl, hwalk, hinit⟩

end Cases

section Entries

variable {κ : Type} {A : KeyAccess κ} {L : KeyLayout A} {s : SharedHashTableState} {key : κ}
  {r : Inserted}

def SharedHashTableState.HasEntry (s : SharedHashTableState) (e : Bytes × UInt8) : Prop :=
  ∃ i, i < s.capacity ∧ s.entries i = some e

def freshEntry (A : KeyAccess κ) (slotSize : ℕ) (key : κ) : Bytes × UInt8 :=
  (freshSlot A slotSize key, filledTag (A.hash key))

/-- An insertion adds an entry for a new key and keeps all others. The slots keep their places
unless the table was doubled. -/
structure AddsEntry (A : KeyAccess κ) (s : SharedHashTableState) (key : κ) (r : Inserted) :
    Prop where
  entry_iff : ∀ e, r.table.HasEntry e ↔
    r.isNewKey = true ∧ e = freshEntry A s.totalSlotSize key ∨ s.HasEntry e
  kept : r.grown = false → ∀ j, s.entries j ≠ none → r.table.entries j = s.entries j
  capacity_eq : r.grown = false → r.table.capacity = s.capacity
  put : r.grown = false → r.isNewKey = true → r.slot < s.capacity ∧ s.entries r.slot = none ∧
    r.table.entries = Function.update s.entries r.slot
      (some (freshEntry A s.totalSlotSize key))
  grown_iff : r.grown = true ↔ ¬ s.inserted < s.maxFill

/-- A key stays in its slot unless the table was doubled. -/
theorem AddsEntry.enabledAt (h : AddsEntry A s key r) (hgrown : r.grown = false) {q : Bytes}
    {i : ℕ} (hi : EnabledAt L s q i) : EnabledAt L r.table q i := by
  obtain ⟨hlt, e, he, henabled, hident⟩ := hi
  refine ⟨by rw [h.capacity_eq hgrown]; exact hlt, e, ?_, henabled, hident⟩
  rw [h.kept hgrown i (by rw [he]; simp), he]

theorem addsEntry_of_reserve {t : SharedHashTableState} (hs : Disabled L s)
    (hreserve : s.reserveSlot A = .ok (t, r.grown))
    (h : r.isNewKey = false ∧ r.table = t ∨ r.isNewKey = true ∧ r.slot < r.table.capacity ∧
      t.entries r.slot = none ∧ t.initSlot A r.slot (A.hash key) key = .ok r.table) :
    AddsEntry A s key r := by
  obtain ⟨t', grown, hreserve', ht, _, _, hsize, hentry⟩ := hs.reserveSlot_spec
  obtain ⟨rfl, rfl⟩ := Prod.mk.inj (Except.ok.inj (hreserve.symm.trans hreserve'))
  have hcases := reserveSlot_cases hreserve
  have hsame : r.grown = false → t = s := by
    intro hgrown
    obtain ⟨_, hts, _⟩ | ⟨_, hgrown'⟩ := hcases
    · exact hts
    · rw [hgrown] at hgrown'
      cases hgrown'
  have hgrown : r.grown = true ↔ ¬ s.inserted < s.maxFill := by
    obtain ⟨hroom, _, hgrown⟩ | ⟨hfull, hgrown⟩ := hcases
    · simp [hroom, hgrown]
    · simp [hfull, hgrown]
  obtain ⟨hold, htable⟩ | ⟨hnew, hslot, hfree, hinit⟩ := h
  · refine ⟨fun e => ?_, fun hg j _ => ?_, fun hg => ?_, fun _ hnew => ?_, hgrown⟩
    · rw [htable, hold]
      simpa [HasEntry] using hentry e
    · rw [htable, hsame hg]
    · rw [htable, hsame hg]
    · rw [hold] at hnew
      cases hnew
  · obtain ⟨hcapacity, hentries⟩ := initSlot_cases hinit
    have hdata : t.data r.slot = List.replicate s.totalSlotSize 0 := by
      rw [ht.free_zero r.slot (hcapacity ▸ hslot) (entries_eq_none.mp hfree), hsize]
    rw [hdata] at hentries
    refine ⟨fun e => ?_, fun hg j hj => ?_, fun hg => ?_, fun hg _ => ?_, hgrown⟩
    · rw [HasEntry, entry_iff_of_put (hcapacity ▸ hslot) hfree hentries hcapacity, hentry, hnew]
      simp [freshEntry, freshSlot, HasEntry]
    · rw [hentries, hsame hg, Function.update_of_ne]
      rintro rfl
      exact hj (hsame hg ▸ hfree)
    · rw [hcapacity, hsame hg]
    · obtain rfl := hsame hg
      exact ⟨hcapacity ▸ hslot, hfree, hentries⟩

theorem Disabled.lookupOrInsert_adds (hs : Disabled L s) (hkey : L.ValidKey key)
    (h : s.lookupOrInsert A key = .ok r) : InsertsKey L s key r ∧ AddsEntry A s key r := by
  obtain ⟨r', hr', hspec⟩ := hs.lookupOrInsert_spec hkey
  obtain rfl := Except.ok.inj (h.symm.trans hr')
  obtain ⟨t, hreserve, hcases⟩ := lookupOrInsert_cases h
  refine ⟨hspec, addsEntry_of_reserve hs hreserve (hcases.imp_right fun hnew => ?_)⟩
  exact ⟨hnew.1, hspec.enabledAt.1, entries_eq_none.mpr hnew.2.1, hnew.2.2⟩

theorem Disabled.insert_adds (hs : Disabled L s) (hkey : L.ValidKey key)
    (habsent : ∀ i, ¬ EnabledAt L s (L.ident key) i) (h : s.insert A key = .ok r) :
    InsertsKey L s key r ∧ AddsEntry A s key r := by
  obtain ⟨r', hr', hspec⟩ := hs.insert_spec hkey habsent
  obtain rfl := Except.ok.inj (h.symm.trans hr')
  obtain ⟨t, hreserve, hnew, hwalk, hinit⟩ := insert_cases h
  obtain ⟨t', _, hreserve', ht, _⟩ := hs.reserveSlot_spec
  obtain ⟨rfl, -⟩ := Prod.mk.inj (Except.ok.inj (hreserve.symm.trans hreserve'))
  have hslot := hspec.enabledAt.1
  have hfree : t.entries r.slot = none := by
    obtain ⟨i, hi, hwalk', hnone, _⟩ := walk_free_entry (A.hash key)
      (fun idx => t.tags idx &&& tagFillMask == 0)
      (fun i hi => by rw [beq_iff_eq, ht.fill_bit hi]) ht.exists_free
    obtain rfl := Except.ok.inj (hwalk.symm.trans hwalk')
    exact hnone
  exact ⟨hspec, addsEntry_of_reserve hs hreserve (Or.inr ⟨hnew, hslot, hfree, hinit⟩)⟩

end Entries

section Contents

def SharedHashTableState.contents (s : SharedHashTableState) : Multiset (Bytes × UInt8) :=
  (Multiset.range s.capacity).filterMap s.entries

theorem filterMap_congr {α β : Type} {f g : α → Option β} {m : Multiset α}
    (h : ∀ a ∈ m, f a = g a) : m.filterMap f = m.filterMap g := by
  induction m using Multiset.induction with
  | empty => rfl
  | cons a m ih =>
    have hrest := ih fun b hb => h b (Multiset.mem_cons_of_mem hb)
    rw [Multiset.filterMap_cons, Multiset.filterMap_cons, h a (Multiset.mem_cons_self a m), hrest]

theorem contents_put {s t : SharedHashTableState} {i : ℕ} {e : Bytes × UInt8}
    (hi : i < s.capacity) (hfree : s.entries i = none) (hcapacity : t.capacity = s.capacity)
    (hentries : t.entries = Function.update s.entries i (some e)) :
    t.contents = e ::ₘ s.contents := by
  have hmem : i ∈ Multiset.range s.capacity := Multiset.mem_range.mpr hi
  have hnodup := Multiset.nodup_range s.capacity
  have hothers : ∀ j ∈ (Multiset.range s.capacity).erase i, t.entries j = s.entries j := by
    intro j hj
    rw [hentries, Function.update_of_ne (hnodup.mem_erase_iff.mp hj).1]
  unfold contents
  rw [hcapacity, ← Multiset.cons_erase hmem,
    Multiset.filterMap_cons_some _ _ _ (by rw [hentries, Function.update_self]),
    Multiset.filterMap_cons_none _ _ hfree, filterMap_congr hothers]

end Contents

section Counted

variable {κ : Type} {A : KeyAccess κ} (L : KeyLayout A)

/-- The counter of a table counts its entries, at most one for every other slot. Nothing is said
about the keys. -/
structure Filling (s : SharedHashTableState) : Prop extends Sized L s where
  fill_bit : ∀ i, i < s.capacity → s.tags i ≠ 0 → s.tags i &&& tagFillMask ≠ 0

structure Counted (s : SharedHashTableState) : Prop extends Filling L s where
  count : s.inserted = (occupied s.capacity s.entries).card
  bound : s.inserted ≤ s.maxFill

variable {L} {s t : SharedHashTableState} {key : κ}

theorem Disabled.counted (hs : Disabled L s) : Counted L s where
  toSized := hs.toSized
  fill_bit := fun _ hi htag hbit => htag (entries_eq_none.mp ((hs.fill_bit hi).mp hbit))
  count := hs.count
  bound := hs.bound

theorem Filling.setInserted (hs : Filling L s) (n : ℕ) : Filling L { s with inserted := n } :=
  ⟨hs.toSized.setInserted n, hs.fill_bit⟩

theorem Filling.put (hs : Filling L s) (i : ℕ) {tag : UInt8} {d : Bytes}
    (hlen : d.length = s.totalSlotSize) (htag : tag &&& tagFillMask ≠ 0) :
    Filling L ((s.setTag i tag).setData i d) := by
  refine ⟨(hs.toSized.setTag i tag).setData i hlen, fun j hj hne => ?_⟩
  by_cases hji : j = i
  · simpa [setData, setTag, hji] using htag
  · simp only [setData, setTag, Function.update_of_ne hji] at hne ⊢
    exact hs.fill_bit j hj hne

theorem Filling.exists_free (hs : Filling L s)
    (hcard : (occupied s.capacity s.entries).card ≤ s.capacity / 2) :
    ∃ i, i < s.capacity ∧ s.entries i = none := by
  have htwo := hs.two_le
  exact Probing.exists_free (by omega)

theorem Counted.exists_free (hs : Counted L s) : ∃ i, i < s.capacity ∧ s.entries i = none := by
  have hcount := hs.count
  have hbound := hs.bound
  have hmax := hs.maxFill_eq
  exact hs.toFilling.exists_free (by omega)

/-- A walk ends if there is a slot to stop at. -/
theorem walk_stops (hash : UInt64) (stop : ℕ → Bool) (hex : ∃ i, i < s.capacity ∧ stop i = true) :
    ∃ i, i < s.capacity ∧ s.walk hash stop = .ok i ∧ stop i = true := by
  let occ : ℕ → Option Unit := fun i => if stop i then none else some ()
  have hocc : ∀ i, stop i = true ↔ occ i = none := by
    intro i
    cases hstop : stop i <;> simp [occ, hstop]
  have hnever : ∀ i, i < s.capacity → (stop i = true ↔ ∀ d, occ i = some d → False) := by
    intro i _
    rw [hocc, Option.eq_none_iff_forall_ne_some]
  obtain ⟨j, hj, hstop⟩ := hex
  obtain ⟨i, hi, hprobe, hnone, _⟩ := probe_absent (m := fun _ => False)
    (homeSlot_lt s.modMask hash) hnever (fun _ _ _ _ h => h) ⟨j, hj, (hocc j).mp hstop⟩
  exact ⟨i, hi, walk_eq_ok.mpr hprobe, (hocc i).mpr hnone⟩

structure MovedCount (L : KeyLayout A) (old s : SharedHashTableState) (m : ℕ) : Prop
    extends Filling L s where
  capacity_eq : s.capacity = 2 * old.capacity
  slotSize_eq : s.totalSlotSize = old.totalSlotSize
  card_eq : (occupied s.capacity s.entries).card =
    ((occupied old.capacity old.entries).filter (· < m)).card

theorem moveSlot_counted {old : SharedHashTableState} (hold : Counted L old) {m : ℕ}
    (hm : MovedCount L old s m) (hlt : m < old.capacity) :
    ∃ t, moveSlot A old s m = .ok t ∧ MovedCount L old t (m + 1) := by
  by_cases htag : old.tags m = 0
  · refine ⟨s, by rw [moveSlot, if_pos htag], hm.toFilling, hm.capacity_eq, hm.slotSize_eq, ?_⟩
    rw [hm.card_eq, filter_occupied_succ_of_none (entries_eq_none.mpr htag)]
  · have hfree : ∃ i, i < s.capacity ∧ s.entries i = none := by
      have hcard := hm.card_eq
      have hle := Finset.card_filter_le (occupied old.capacity old.entries) (· < m)
      have hcount := hold.count
      have hbound := hold.bound
      have hmax := hold.maxFill_eq
      have hcap := hm.capacity_eq
      exact hm.toFilling.exists_free (by omega)
    obtain ⟨i, hi, hwalk, hnone, _⟩ := walk_free_entry (A.slotHash (old.data m))
      (fun idx => s.tags idx == 0) (fun i _ => by rw [beq_iff_eq, entries_eq_none]) hfree
    have hlen : (old.data m).length = s.totalSlotSize := by
      rw [hm.slotSize_eq, hold.slot_length m hlt]
    have hput := hm.toFilling.put i hlen (hold.fill_bit m hlt htag)
    refine ⟨(s.setTag i (old.tags m)).setData i (old.data m), ?_,
      hput, hm.capacity_eq, hm.slotSize_eq, ?_⟩
    · simp only [moveSlot, htag, if_false, findFirstEmptySlot, hwalk, bind, Except.bind]
    · have hsome : old.entries m ≠ none := by rwa [ne_eq, entries_eq_none]
      rw [card_filter_occupied_succ hlt hsome, ← hm.card_eq, entries_put s htag]
      exact card_occupied_fill hi hnone _

theorem moveSlots_counted {old : SharedHashTableState} (hold : Counted L old)
    (hm : MovedCount L old s 0) (m : ℕ) (hle : m ≤ old.capacity) :
    ∃ t, (List.range m).foldlM (moveSlot A old) s = .ok t ∧ MovedCount L old t m := by
  induction m with
  | zero => exact ⟨s, rfl, hm⟩
  | succ m ih =>
    obtain ⟨t, hfold, ht⟩ := ih (by omega)
    obtain ⟨u, hstep, hu⟩ := moveSlot_counted hold ht (by omega)
    refine ⟨u, ?_, hu⟩
    rw [List.range_succ, List.foldlM_append, hfold]
    simp [bind, Except.bind, hstep, pure, Except.pure]

/-- `reserveSlot` doubles a full table. -/
theorem Counted.reserveSlot_spec (hs : Counted L s) :
    ∃ t grown, s.reserveSlot A = .ok (t, grown) ∧ Counted L t ∧ t.inserted < t.maxFill ∧
      t.inserted = s.inserted ∧ t.capacity = if grown then 2 * s.capacity else s.capacity := by
  by_cases hroom : s.inserted < s.maxFill
  · exact ⟨s, false, by rw [reserveSlot, if_pos hroom], hs, hroom, rfl, rfl⟩
  · have hpow : (2 * s.capacity).isPowerOfTwo := by
      rw [Nat.mul_comm]
      exact Nat.isPowerOfTwo_mul_two_of_isPowerOfTwo hs.pow
    have htwo := hs.two_le
    obtain ⟨fresh, hcreate, hfresh, hcap, hsize, hins, _⟩ :=
      create_wellFormed (L := L) rfl hs.keySize_le hs.size_lt hpow (by omega)
    have hstart : MovedCount L s fresh 0 := by
      refine ⟨hfresh.disabled.counted.toFilling, hcap, hsize, ?_⟩
      simp [← hfresh.disabled.count, hins]
    obtain ⟨t, hfold, ht⟩ := moveSlots_counted hs hstart s.capacity le_rfl
    have hall : (occupied s.capacity s.entries).filter (· < s.capacity) =
        occupied s.capacity s.entries :=
      Finset.filter_true_of_mem fun i hi => (mem_occupied.mp hi).1
    have hcard := ht.card_eq
    rw [hall, ← hs.count] at hcard
    have hmax := hs.maxFill_eq
    have hbound := hs.bound
    have htmax := ht.maxFill_eq
    have htcap := ht.capacity_eq
    refine ⟨{ t with inserted := s.inserted }, true, ?_,
      ⟨ht.toFilling.setInserted s.inserted, hcard.symm, ?_⟩, ?_, rfl, htcap⟩
    · rw [reserveSlot, if_neg hroom]
      unfold capacity at hcreate hfold
      simp only [bind, Except.bind, hcreate, hfold]
    · show s.inserted ≤ t.maxFill
      omega
    · show s.inserted < t.maxFill
      omega

theorem Counted.initSlot_spec (hs : Counted L s) (hroom : s.inserted < s.maxFill)
    (hkey : L.ValidKey key) {i : ℕ} (hi : i < s.capacity) (hfree : s.entries i = none)
    (hash : UInt64) : ∃ t, s.initSlot A i hash key = .ok t ∧ Counted L t ∧
      t.inserted = s.inserted + 1 ∧ t.capacity = s.capacity := by
  have hstore := L.store_length key hkey
  have hlength := hs.slot_length i hi
  have hkeySize := hs.keySize_le
  have hroomy : 0 + (A.store key).length ≤ (s.data i).length := by omega
  have hlen : (writeAt (s.data i) 0 (A.store key)).length = s.totalSlotSize := by
    rw [writeAt_length hroomy, hlength]
  have hput := hs.toFilling.put i hlen (filledTag_and_fill_ne_zero hash)
  refine ⟨_, ?_, ⟨hput.setInserted (s.inserted + 1), ?_, ?_⟩, rfl, rfl⟩
  · have hcopy : (s.setTag i (filledTag hash)).copyTo i 0 (A.store key) = .ok ((s.setTag i
        (filledTag hash)).setData i (writeAt (s.data i) 0 (A.store key))) := if_pos hroomy
    simp only [initSlot, hcopy, bind, Except.bind]
    rfl
  · show s.inserted + 1 = (occupied s.capacity _).card
    rw [hs.count, ← card_occupied_fill hi hfree
      (writeAt (s.data i) 0 (A.store key), filledTag hash),
      ← entries_put s (filledTag_ne_zero hash)]
    rfl
  · exact hroom

/-- What every insertion does to the counters. -/
structure CountsInsert (L : KeyLayout A) (s : SharedHashTableState) (r : Inserted) : Prop where
  counted : Counted L r.table
  inserted_eq : r.table.inserted = s.inserted + if r.isNewKey then 1 else 0
  capacity_eq : r.table.capacity = if r.grown then 2 * s.capacity else s.capacity
  grown_iff : r.grown = true ↔ ¬ s.inserted < s.maxFill

theorem countsInsert_grown {grown : Bool} (h : s.reserveSlot A = .ok (t, grown)) :
    grown = true ↔ ¬ s.inserted < s.maxFill := by
  obtain ⟨hroom, _, rfl⟩ | ⟨hfull, rfl⟩ := reserveSlot_cases h
  · simp [hroom]
  · simp [hfull]

/-- A key is inserted whether it is in the table or not. -/
theorem Counted.insert_counts (hs : Counted L s) (hkey : L.ValidKey key) :
    ∃ r, s.insert A key = .ok r ∧ r.isNewKey = true ∧ CountsInsert L s r := by
  obtain ⟨t, grown, hreserve, ht, hroom, htins, htcap⟩ := hs.reserveSlot_spec
  obtain ⟨j, hj, hnone⟩ := ht.exists_free
  obtain ⟨i, hi, hwalk, hstop⟩ := walk_stops (A.hash key)
    (fun idx => t.tags idx &&& tagFillMask == 0)
    ⟨j, hj, by rw [entries_eq_none.mp hnone]; decide⟩
  have hfree : t.entries i = none := by
    rw [entries_eq_none]
    by_contra htag
    exact ht.fill_bit i hi htag (beq_iff_eq.mp hstop)
  obtain ⟨u, hinit, hu, huins, hucap⟩ := ht.initSlot_spec hroom hkey hi hfree (A.hash key)
  refine ⟨⟨u, i, true, grown⟩, ?_, rfl, hu, ?_, hucap.trans htcap, countsInsert_grown hreserve⟩
  · simp only [SharedHashTableState.insert, hreserve, hwalk, hinit, bind, Except.bind]
  · rw [if_pos rfl, huins, htins]

theorem Counted.lookupOrInsert_counts (hs : Counted L s) (hkey : L.ValidKey key) :
    ∃ r, s.lookupOrInsert A key = .ok r ∧ CountsInsert L s r := by
  obtain ⟨t, grown, hreserve, ht, hroom, htins, htcap⟩ := hs.reserveSlot_spec
  obtain ⟨j, hj, hnone⟩ := ht.exists_free
  obtain ⟨i, hi, hfind, -⟩ := walk_stops (A.hash key) (fun idx =>
    t.tags idx &&& tagFillMask == 0 || (t.tags idx &&& tagHashMask ==
      tagHashMask &&& topByte (A.hash key) && A.slotMatches (t.data idx) key))
    ⟨j, hj, by rw [entries_eq_none.mp hnone]; simp⟩
  have hgrown := countsInsert_grown hreserve
  by_cases htag : t.tags i = 0
  · obtain ⟨u, hinit, hu, huins, hucap⟩ :=
      ht.initSlot_spec hroom hkey hi (entries_eq_none.mpr htag) (A.hash key)
    refine ⟨⟨u, i, true, grown⟩, ?_, hu, ?_, hucap.trans htcap, hgrown⟩
    · simp only [lookupOrInsert, hreserve, findSlotOrEmpty, hfind, htag, hinit, bind, Except.bind,
        if_true]
    · rw [if_pos rfl, huins, htins]
  · refine ⟨⟨t, i, false, grown⟩, ?_, ht, ?_, htcap, hgrown⟩
    · simp only [lookupOrInsert, hreserve, findSlotOrEmpty, hfind, htag, bind, Except.bind,
        if_false]
    · simpa using htins

end Counted

end InkFuse.Runtime
