import InkFuse.Runtime.TableOperations

/-!
The growing hash tables refine a finite map from key identities to payloads. The map has
no slots and no capacity: it knows the inserted keys and the bytes last written for each.
A run interleaves the operations of the table with payload writes through slots that
were returned since the table was last doubled; a doubling frees the old storage.
-/

namespace InkFuse.Runtime

open Bytes Probing SharedHashTableState

/-- The purpose of a table: inserted keys with their payloads. `live` names the key of every
slot the client may still write to. -/
structure PayloadMap where
  keys : Finset Bytes
  payload : Bytes → Bytes
  live : ℕ → Option Bytes

namespace PayloadMap

def empty (payloadSize : ℕ) : PayloadMap where
  keys := ∅
  payload := fun _ => List.replicate payloadSize 0
  live := fun _ => none

def returned (m : PayloadMap) (slot : Option ℕ) (q : Bytes) : PayloadMap :=
  match slot with
  | some i => { m with live := Function.update m.live i (some q) }
  | none => m

def inserted (m : PayloadMap) (q : Bytes) (slot : ℕ) (grown : Bool) : PayloadMap where
  keys := Insert.insert q m.keys
  payload := m.payload
  live := Function.update (if grown then fun _ => none else m.live) slot (some q)

def write (m : PayloadMap) (q : Bytes) (off : ℕ) (bs : Bytes) : PayloadMap :=
  { m with payload := Function.update m.payload q (writeAt (m.payload q) off bs) }

end PayloadMap

section Run

variable {κ : Type} {A : KeyAccess κ} (L : KeyLayout A) (payloadSize : ℕ)

/-- The tables a client reaches, each with the map it stands for. -/
inductive Run (start : SharedHashTableState) : SharedHashTableState → PayloadMap → Prop
  | start : Run start start (PayloadMap.empty payloadSize)
  | lookup {s m key r} : Run start s m → L.ValidKey key → s.lookup A key = .ok r →
      Run start s (m.returned r (L.ident key))
  | lookupOrInsert {s m key r} : Run start s m → L.ValidKey key →
      s.lookupOrInsert A key = .ok r →
      Run start r.table (m.inserted (L.ident key) r.slot r.grown)
  | insert {s m key r} : Run start s m → L.ValidKey key → L.ident key ∉ m.keys →
      s.insert A key = .ok r →
      Run start r.table (m.inserted (L.ident key) r.slot r.grown)
  | write {s m i q off bs t} : Run start s m → m.live i = some q →
      off + bs.length ≤ payloadSize → s.copyTo i (L.keySize + off) bs = .ok t →
      Run start t (m.write q off bs)

/-- Slot `i` is the only one that stores the key `q`, and `p` is its payload. -/
def StoresAt (s : SharedHashTableState) (q p : Bytes) (i : ℕ) : Prop :=
  i < s.capacity ∧ s.tags i ≠ 0 ∧ L.slotIdent (s.data i) = q ∧
    readAt (s.data i) L.keySize payloadSize = p ∧
    ∀ j, j < s.capacity → s.tags j ≠ 0 → L.slotIdent (s.data j) = q → j = i

/-- In every state of every run each operation answers as the map does, and none fails. -/
structure RefinesMap (s : SharedHashTableState) (m : PayloadMap) : Prop where
  lookup : ∀ key, L.ValidKey key → ∃ r, s.lookup A key = .ok r ∧
    (r = none ↔ L.ident key ∉ m.keys) ∧
    ∀ i, r = some i → StoresAt L payloadSize s (L.ident key) (m.payload (L.ident key)) i
  lookupOrInsert : ∀ key, L.ValidKey key → ∃ r, s.lookupOrInsert A key = .ok r ∧
    (r.isNewKey = true ↔ L.ident key ∉ m.keys) ∧
    StoresAt L payloadSize r.table (L.ident key) (m.payload (L.ident key)) r.slot
  insert : ∀ key, L.ValidKey key → L.ident key ∉ m.keys → ∃ r, s.insert A key = .ok r ∧
    StoresAt L payloadSize r.table (L.ident key) (m.payload (L.ident key)) r.slot
  write : ∀ i q off bs, m.live i = some q → off + bs.length ≤ payloadSize →
    ∃ t, s.copyTo i (L.keySize + off) bs = .ok t
  size_eq : s.size = m.keys.card

end Run

section Simulation

variable {κ : Type} {A : KeyAccess κ} {L : KeyLayout A} {payloadSize : ℕ}
  {s : SharedHashTableState} {m : PayloadMap}

structure Represents (L : KeyLayout A) (payloadSize : ℕ) (s : SharedHashTableState)
    (m : PayloadMap) : Prop where
  inv : Inv L s
  slotSize_eq : s.totalSlotSize = L.keySize + payloadSize
  mem_keys : ∀ q, q ∈ m.keys ↔ ∃ d, s.Holds d ∧ L.slotIdent d = q
  payload_eq : ∀ d, s.Holds d → readAt d L.keySize payloadSize = m.payload (L.slotIdent d)
  payload_zero : ∀ q, q ∉ m.keys → m.payload q = List.replicate payloadSize 0
  card_eq : m.keys.card = s.inserted
  live_stored : ∀ i q, m.live i = some q → ∃ d, s.Stored i d ∧ L.slotIdent d = q

theorem Represents.absent_iff (h : Represents L payloadSize s m) (q : Bytes) :
    q ∉ m.keys ↔ ∀ d, s.Holds d → L.slotIdent d ≠ q := by
  rw [h.mem_keys]
  push Not
  rfl

theorem Represents.storesAt (h : Represents L payloadSize s m) {i : ℕ} {d : Bytes}
    (hi : s.Stored i d) :
    StoresAt L payloadSize s (L.slotIdent d) (m.payload (L.slotIdent d)) i := by
  refine ⟨hi.1, hi.tag_ne_zero, by rw [hi.data_eq], ?_, ?_⟩
  · rw [hi.data_eq]
    exact h.payload_eq d ⟨i, hi⟩
  · intro j hj htag hident
    exact h.inv.unique j i _ d hj hi.1 (slots_eq_some_iff.mpr ⟨htag, rfl⟩) hi.2 hident

theorem represents_create (hfit : L.keySize + payloadSize < 2 ^ 16) {startSlots : ℕ}
    (hpow : startSlots.isPowerOfTwo) (htwo : 2 ≤ startSlots) :
    ∃ s, create (L.keySize + payloadSize) startSlots = .ok s ∧
      Represents L payloadSize s (PayloadMap.empty payloadSize) := by
  obtain ⟨s, hcreate, hinv, _, hsize, hins, htags⟩ :=
    create_wellFormed (L := L) rfl (Nat.le_add_right L.keySize payloadSize) hfit hpow htwo
  have hnone : ∀ d, ¬ s.Holds d := by
    rintro d ⟨i, hi⟩
    exact hi.tag_ne_zero (htags i)
  refine ⟨s, hcreate, hinv, hsize, fun q => ?_, fun d hd => absurd hd (hnone d),
    fun _ _ => rfl, ?_, fun i q h => absurd h (by simp [PayloadMap.empty])⟩
  · simp only [PayloadMap.empty, Finset.notMem_empty, false_iff]
    rintro ⟨d, hd, _⟩
    exact hnone d hd
  · simp [PayloadMap.empty, hins]

theorem readAt_freshSlot {key : κ} (hkey : L.ValidKey key) :
    readAt (freshSlot A (L.keySize + payloadSize) key) L.keySize payloadSize =
      List.replicate payloadSize 0 := by
  have hstore := L.store_length key hkey
  rw [freshSlot, readAt_writeAt_after (Nat.zero_le _) (by omega), readAt_replicate 0 le_rfl]

/-- What `lookup` returns may be written to. -/
theorem Represents.returned (h : Represents L payloadSize s m) {key : κ} {r : Option ℕ}
    (hr : s.lookup A key = .ok r) : Represents L payloadSize s (m.returned r (L.ident key)) := by
  rcases lookup_spec h.inv key with ⟨i, d, hi, hident, hlook⟩ | ⟨_, hlook⟩
  · obtain rfl : r = some i := by simpa [hlook] using hr.symm
    refine ⟨h.inv, h.slotSize_eq, h.mem_keys, h.payload_eq, h.payload_zero, h.card_eq, ?_⟩
    intro j q hj
    by_cases hji : j = i
    · subst hji
      simp only [PayloadMap.returned, Function.update_self, Option.some.injEq] at hj
      exact ⟨d, hi, by rw [hident, hj]⟩
    · simp only [PayloadMap.returned, Function.update_of_ne hji] at hj
      exact h.live_stored j q hj
  · obtain rfl : r = none := by simpa [hlook] using hr.symm
    exact h

theorem Represents.inserted (h : Represents L payloadSize s m) {key : κ} {r : Inserted}
    (hkey : L.ValidKey key) (hr : InsertSpec L s key r) :
    Represents L payloadSize r.table (m.inserted (L.ident key) r.slot r.grown) := by
  obtain ⟨d, hd, hident, _, _⟩ := hr.stored
  have hfresh := ident_freshSlot hkey h.inv.keySize_le
  have hnew : r.isNewKey = true ↔ L.ident key ∉ m.keys := by
    rw [hr.new_iff, h.absent_iff]
  refine ⟨hr.inv, hr.slotSize_eq.trans h.slotSize_eq, fun q => ?_, fun e he => ?_,
    fun q hq => ?_, ?_, fun i q hi => ?_⟩
  · simp only [PayloadMap.inserted, Finset.mem_insert, h.mem_keys]
    constructor
    · rintro (rfl | ⟨e, he, hq⟩)
      · exact ⟨d, ⟨r.slot, hd⟩, hident⟩
      · exact ⟨e, (hr.holds_iff e).mpr (Or.inr he), hq⟩
    · rintro ⟨e, he, rfl⟩
      rcases (hr.holds_iff e).mp he with ⟨_, rfl⟩ | hold
      · exact Or.inl hfresh
      · exact Or.inr ⟨e, hold, rfl⟩
  · rcases (hr.holds_iff e).mp he with ⟨hisNew, rfl⟩ | hold
    · have hzero := h.payload_zero _ (hnew.mp hisNew)
      rw [hfresh, h.slotSize_eq, readAt_freshSlot hkey]
      exact hzero.symm
    · exact h.payload_eq e hold
  · simp only [PayloadMap.inserted, Finset.mem_insert, not_or] at hq
    exact h.payload_zero q hq.2
  · have hcard := h.card_eq
    have hins := hr.inserted_eq
    simp only [PayloadMap.inserted]
    by_cases hisNew : r.isNewKey = true
    · rw [Finset.card_insert_of_notMem (hnew.mp hisNew), hins, if_pos hisNew, hcard]
    · have hmem : L.ident key ∈ m.keys := by
        by_contra habs
        exact hisNew (hnew.mpr habs)
      rw [Finset.insert_eq_of_mem hmem, hins, if_neg hisNew, hcard, Nat.add_zero]
  · by_cases hir : i = r.slot
    · subst hir
      simp only [PayloadMap.inserted, Function.update_self, Option.some.injEq] at hi
      exact ⟨d, hd, by rw [hident, hi]⟩
    · simp only [PayloadMap.inserted, Function.update_of_ne hir] at hi
      cases hgrown : r.grown with
      | true =>
        rw [hgrown] at hi
        exact absurd hi (by simp)
      | false =>
        rw [hgrown] at hi
        obtain ⟨e, he, hq⟩ := h.live_stored i q (by simpa using hi)
        exact ⟨e, hr.kept hgrown i e he, hq⟩

/-- A payload write reaches the slot of its key and no other one. -/
theorem Represents.write (h : Represents L payloadSize s m) {i off : ℕ} {q bs : Bytes}
    (hlive : m.live i = some q) (hoff : off + bs.length ≤ payloadSize) :
    ∃ t, s.copyTo i (L.keySize + off) bs = .ok t ∧
      Represents L payloadSize t (m.write q off bs) := by
  obtain ⟨d, hd, rfl⟩ := h.live_stored i q hlive
  have hdlen : d.length = L.keySize + payloadSize := by
    rw [← hd.data_eq, h.inv.slot_length i hd.1, h.slotSize_eq]
  have hroom : L.keySize + off + bs.length ≤ (s.data i).length := by
    rw [hd.data_eq, hdlen]
    omega
  have hident := L.ident_writeAt d (L.keySize + off) bs (Nat.le_add_right _ _) (by omega)
  have hvalid := L.valid_writeAt d (L.keySize + off) bs (Nat.le_add_right _ _) (by omega)
    (h.inv.valid i d hd)
  have hwf := h.inv.toWellFormed.rewrite hd (writeAt_length (by omega)) hvalid hident
  have hslots := slots_setData (s := s) hd.tag_ne_zero (writeAt d (L.keySize + off) bs)
  have hpayload : readAt (writeAt d (L.keySize + off) bs) L.keySize payloadSize =
      writeAt (m.payload (L.slotIdent d)) off bs := by
    rw [readAt_writeAt_inside hoff (by omega), h.payload_eq d ⟨i, hd⟩]
  have hstored := stored_of_update hslots rfl
  refine ⟨s.setData i (writeAt d (L.keySize + off) bs), ?_,
    ⟨hwf, ?_, h.inv.bound⟩, h.slotSize_eq, fun q => ?_, ?_, fun q hq => ?_, h.card_eq, ?_⟩
  · rw [copyTo, if_pos hroom, hd.data_eq]
  · rw [hslots]
    exact h.inv.count.trans (by rw [← occupied_replace hd.2]; rfl)
  · change q ∈ m.keys ↔ _
    rw [h.mem_keys]
    constructor
    · rintro ⟨e, ⟨j, hj⟩, rfl⟩
      by_cases hji : j = i
      · subst hji
        obtain rfl : d = e := hd.data_eq.symm.trans hj.data_eq
        exact ⟨_, ⟨j, stored_update_self hslots hd.1⟩, hident⟩
      · exact ⟨e, ⟨j, stored_update_of_ne hslots rfl hji hj⟩, rfl⟩
    · rintro ⟨e, ⟨j, hj⟩, rfl⟩
      rcases hstored j e hj with ⟨rfl, rfl⟩ | ⟨_, hold⟩
      · exact ⟨d, ⟨j, hd⟩, hident.symm⟩
      · exact ⟨e, ⟨j, hold⟩, rfl⟩
  · rintro e ⟨j, hj⟩
    rcases hstored j e hj with ⟨rfl, rfl⟩ | ⟨hji, hold⟩
    · simp only [PayloadMap.write]
      rw [hpayload, hident, Function.update_self]
    · have hne : L.slotIdent e ≠ L.slotIdent d := fun heq =>
        hji (h.inv.unique j i e d hold.1 hd.1 hold.2 hd.2 heq)
      simp only [PayloadMap.write]
      rw [Function.update_of_ne hne]
      exact h.payload_eq e ⟨j, hold⟩
  · have hne : q ≠ L.slotIdent d := by
      rintro rfl
      exact hq ((h.mem_keys _).mpr ⟨d, ⟨i, hd⟩, rfl⟩)
    simp only [PayloadMap.write]
    rw [Function.update_of_ne hne]
    exact h.payload_zero q hq
  · intro j q hj
    obtain ⟨e, he, rfl⟩ := h.live_stored j q hj
    by_cases hji : j = i
    · subst hji
      obtain rfl : d = e := hd.data_eq.symm.trans he.data_eq
      exact ⟨_, stored_update_self hslots hd.1, hident⟩
    · exact ⟨e, stored_update_of_ne hslots rfl hji he, rfl⟩

/-- Every state of a run represents its map. -/
theorem Run.represents {start : SharedHashTableState}
    (hstart : Represents L payloadSize start (PayloadMap.empty payloadSize))
    (hrun : Run L payloadSize start s m) : Represents L payloadSize s m := by
  induction hrun with
  | start => exact hstart
  | lookup _ _ hr ih => exact ih.returned hr
  | lookupOrInsert _ hkey hr ih =>
    obtain ⟨r', hr', hspec⟩ := lookupOrInsert_spec ih.inv hkey
    obtain rfl := Except.ok.inj (hr.symm.trans hr')
    exact ih.inserted hkey hspec
  | insert _ hkey habsent hr ih =>
    obtain ⟨r', hr', hspec⟩ := insert_spec ih.inv hkey ((ih.absent_iff _).mp habsent)
    obtain rfl := Except.ok.inj (hr.symm.trans hr')
    exact ih.inserted hkey hspec
  | write _ hlive hoff ht ih =>
    obtain ⟨t', ht', hrep⟩ := ih.write hlive hoff
    obtain rfl := Except.ok.inj (ht.symm.trans ht')
    exact hrep

theorem Represents.refinesMap (h : Represents L payloadSize s m) :
    RefinesMap L payloadSize s m where
  lookup := by
    intro key _
    rcases lookup_spec h.inv key with ⟨i, d, hi, hident, hlook⟩ | ⟨habsent, hlook⟩
    · refine ⟨some i, hlook, ?_, fun j hj => ?_⟩
      · have hmem := (h.mem_keys (L.ident key)).mpr ⟨d, ⟨i, hi⟩, hident⟩
        simpa using hmem
      · obtain rfl := Option.some.inj hj
        rw [← hident]
        exact h.storesAt hi
    · exact ⟨none, hlook, by simpa using (h.absent_iff _).mpr habsent,
        fun j hj => absurd hj (by simp)⟩
  lookupOrInsert := by
    intro key hkey
    obtain ⟨r, hr, hspec⟩ := lookupOrInsert_spec h.inv hkey
    obtain ⟨d, hd, hident, _⟩ := hspec.stored
    refine ⟨r, hr, by rw [hspec.new_iff, h.absent_iff], ?_⟩
    rw [← hident]
    exact (h.inserted hkey hspec).storesAt hd
  insert := by
    intro key hkey habsent
    obtain ⟨r, hr, hspec⟩ := insert_spec h.inv hkey ((h.absent_iff _).mp habsent)
    obtain ⟨d, hd, hident, _⟩ := hspec.stored
    refine ⟨r, hr, ?_⟩
    rw [← hident]
    exact (h.inserted hkey hspec).storesAt hd
  write := by
    intro i q off bs hlive hoff
    obtain ⟨t, ht, _⟩ := h.write hlive hoff
    exact ⟨t, ht⟩
  size_eq := h.card_eq.symm

end Simulation

end InkFuse.Runtime
