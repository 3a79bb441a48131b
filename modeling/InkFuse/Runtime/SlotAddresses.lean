import InkFuse.Runtime.ProbesEnd

/-!
The addresses of slots. A slot is found by a product, or by adding the slot size to the address of
the slot before it, and the array of slots has the length that the constructor computes. Slot
sizes have sixteen bits; products have 64 bits in the growing tables, and they have the type `int`
in the direct-lookup table. Addresses are offsets into the array.
-/

namespace InkFuse.Runtime

open Bytes Probing

/-- Where a probe is: the index of a slot and the pointer to it. -/
structure ProbeCursor where
  idx : ℕ
  elem : ℕ
  deriving DecidableEq, Repr

namespace SharedHashTableState

section Addresses

variable (s : SharedHashTableState)

/-- The length of the array, a product of 64 bits. -/
def allocated : ℕ := s.capacity * s.totalSlotSize % 2 ^ 64

def homeCursor (hash : UInt64) : ProbeCursor :=
  ⟨homeSlot s.modMask hash, homeSlot s.modMask hash * s.totalSlotSize % 2 ^ 64⟩

def advance (c : ProbeCursor) : ProbeCursor :=
  if c.idx = s.modMask then ⟨0, 0⟩ else ⟨c.idx + 1, c.elem + s.totalSlotSize⟩

/-- The slots that pointers are made for: the first slot, the home slots, and the slots behind
these. -/
inductive Pointed : ProbeCursor → Prop
  | first : Pointed ⟨0, 0⟩
  | home (hash : UInt64) : Pointed (s.homeCursor hash)
  | advance {c : ProbeCursor} : Pointed c → Pointed (s.advance c)

/-- The slots have room for `width` bytes each: they are inside of the array, a pointer is never
the pointer to another slot, and different slots do not overlap. -/
structure SlotsFit (width : ℕ) : Prop where
  inside : ∀ c, s.Pointed c → c.idx < s.capacity ∧ c.elem + width ≤ s.allocated
  same : ∀ c d, s.Pointed c → s.Pointed d → c.idx = d.idx → c.elem = d.elem
  disjoint : ∀ c d, s.Pointed c → s.Pointed d → c.idx ≠ d.idx →
    c.elem + width ≤ d.elem ∨ d.elem + width ≤ c.elem

end Addresses

section Probes

variable {s : SharedHashTableState} {stop : ℕ → Bool}

/-- A probe that carries a pointer along with the index. -/
def probeCursor (s : SharedHashTableState) (stop : ℕ → Bool) : ℕ → ProbeCursor → Option ProbeCursor
  | 0, _ => none
  | fuel + 1, c => if stop c.idx then some c else probeCursor s stop fuel (s.advance c)

theorem advance_idx (c : ProbeCursor) : (s.advance c).idx = next s.capacity c.idx := by
  unfold advance next capacity
  by_cases h : c.idx = s.modMask
  · rw [if_pos h, if_pos (by omega)]
  · rw [if_neg h, if_neg (by omega)]

theorem probeCursor_idx (s : SharedHashTableState) (stop : ℕ → Bool) (fuel : ℕ) (c : ProbeCursor) :
    (probeCursor s stop fuel c).map ProbeCursor.idx = probe s.capacity stop fuel c.idx := by
  induction fuel generalizing c with
  | zero => rfl
  | succ fuel ih =>
    unfold probeCursor probe
    split
    · rfl
    · rw [ih, advance_idx]

theorem probeCursor_pointed {fuel : ℕ} {c d : ProbeCursor} (hc : s.Pointed c)
    (h : probeCursor s stop fuel c = some d) : s.Pointed d := by
  induction fuel generalizing c with
  | zero => cases h
  | succ fuel ih =>
    unfold probeCursor at h
    split at h
    · cases h
      exact hc
    · exact ih hc.advance h

/-- The slot at which a walk ends is one that its pointer was moved to. -/
theorem walk_pointed {hash : UInt64} {i : ℕ} (h : s.walk hash stop = .ok i) :
    ∃ c, s.Pointed c ∧ c.idx = i := by
  have hprobe := walk_eq_ok.mp h
  have hidx := probeCursor_idx s stop s.capacity (s.homeCursor hash)
  have hhome : (s.homeCursor hash).idx = homeSlot s.modMask hash := rfl
  rw [hhome, hprobe] at hidx
  obtain ⟨c, hc, rfl⟩ := Option.map_eq_some_iff.mp hidx
  exact ⟨c, probeCursor_pointed (.home hash) hc, rfl⟩

end Probes

section Fit

variable {s : SharedHashTableState} {width : ℕ}

/-- While no product wraps, a pointer is the product for its index. -/
theorem Pointed.elem_eq (hsize : s.totalSlotSize = width) (hfit : s.capacity * width < 2 ^ 64)
    {c : ProbeCursor} (hc : s.Pointed c) : c.idx < s.capacity ∧ c.elem = c.idx * width := by
  induction hc with
  | first => exact ⟨Nat.succ_pos _, (Nat.zero_mul width).symm⟩
  | home hash =>
    have hlt : homeSlot s.modMask hash < s.capacity := homeSlot_lt s.modMask hash
    refine ⟨hlt, ?_⟩
    show homeSlot s.modMask hash * s.totalSlotSize % 2 ^ 64 = homeSlot s.modMask hash * width
    rw [hsize]
    apply Nat.mod_eq_of_lt
    exact Nat.lt_of_le_of_lt (Nat.mul_le_mul_right width hlt.le) hfit
  | @advance c _ ih =>
    unfold SharedHashTableState.advance
    split
    · exact ⟨Nat.succ_pos _, (Nat.zero_mul width).symm⟩
    · next hlast =>
      refine ⟨?_, ?_⟩
      · have hlt := ih.1
        unfold capacity at hlt ⊢
        show c.idx + 1 < _
        omega
      · show c.elem + s.totalSlotSize = (c.idx + 1) * width
        rw [ih.2, hsize, Nat.succ_mul]

theorem slotsFit_of_lt (hsize : s.totalSlotSize = width) (hfit : s.capacity * width < 2 ^ 64) :
    s.SlotsFit width := by
  have hpointed : ∀ c, s.Pointed c → c.idx < s.capacity ∧ c.elem = c.idx * width :=
    fun c hc => hc.elem_eq hsize hfit
  have hspan : ∀ i j, i < j → i * width + width ≤ j * width := by
    intro i j hij
    calc
      i * width + width = (i + 1) * width := (Nat.succ_mul i width).symm
      _ ≤ j * width := Nat.mul_le_mul_right width hij
  refine ⟨?_, ?_, ?_⟩
  · intro c hc
    obtain ⟨hlt, helem⟩ := hpointed c hc
    refine ⟨hlt, ?_⟩
    unfold allocated
    rw [hsize, Nat.mod_eq_of_lt hfit, helem]
    exact hspan c.idx s.capacity hlt
  · intro c d hc hd hidx
    rw [(hpointed c hc).2, (hpointed d hd).2, hidx]
  · intro c d hc hd hidx
    rw [(hpointed c hc).2, (hpointed d hd).2]
    rcases Nat.lt_or_gt_of_ne hidx with hlt | hgt
    · exact .inl (hspan _ _ hlt)
    · exact .inr (hspan _ _ hgt)

/-- The pointer that has gone through the array up to a slot. -/
theorem pointed_steps {i : ℕ} (hi : i ≤ s.modMask) : s.Pointed ⟨i, i * s.totalSlotSize⟩ := by
  induction i with
  | zero =>
    rw [Nat.zero_mul]
    exact .first
  | succ i ih =>
    have hstep : s.advance ⟨i, i * s.totalSlotSize⟩ = ⟨i + 1, (i + 1) * s.totalSlotSize⟩ := by
      unfold advance
      rw [if_neg (by show i ≠ s.modMask; omega), Nat.succ_mul]
    rw [← hstep]
    exact (ih (by omega)).advance

/-- The slots have room for the bytes they are made for exactly if their size has sixteen bits and
the array a length of 64 bits. -/
theorem slotsFit_iff (htwo : 2 ≤ s.capacity) (hsize : s.totalSlotSize = width % 2 ^ 16) :
    s.SlotsFit width ↔ width < 2 ^ 16 ∧ s.capacity * width < 2 ^ 64 := by
  have hcap : s.capacity = s.modMask + 1 := rfl
  constructor
  · intro h
    have hnarrow : width < 2 ^ 16 := by
      by_contra hwide
      have hstep : s.Pointed ⟨1, 1 * s.totalSlotSize⟩ := pointed_steps (by omega)
      have hapart := h.disjoint _ _ .first hstep Nat.zero_ne_one
      simp only at hapart
      omega
    refine ⟨hnarrow, ?_⟩
    by_contra hlong
    have hwidth : s.totalSlotSize = width := by
      rw [hsize]
      exact Nat.mod_eq_of_lt hnarrow
    have hlast := (h.inside _ (pointed_steps (Nat.le_refl s.modMask))).2
    have hlt : s.allocated < 2 ^ 64 := Nat.mod_lt _ (Nat.two_pow_pos 64)
    rw [hwidth, ← Nat.succ_mul] at hlast
    rw [hcap] at hlong
    exact hlong (Nat.lt_of_le_of_lt hlast hlt)
  · intro h
    apply slotsFit_of_lt _ h.2
    rw [hsize]
    exact Nat.mod_eq_of_lt h.1

end Fit

section Returns

variable {κ : Type} {A : KeyAccess κ} {s t : SharedHashTableState}

/-- Only the number of slots and their size matter for pointers. -/
theorem Pointed.congr (hmask : t.modMask = s.modMask) (hsize : t.totalSlotSize = s.totalSlotSize)
    {c : ProbeCursor} (hc : s.Pointed c) : t.Pointed c := by
  induction hc with
  | first => exact .first
  | home hash =>
    have hhome : s.homeCursor hash = t.homeCursor hash := by
      unfold homeCursor
      rw [hmask, hsize]
    rw [hhome]
    exact .home hash
  | @advance c _ ih =>
    have hstep : s.advance c = t.advance c := by
      unfold SharedHashTableState.advance
      rw [hmask, hsize]
    rw [hstep]
    exact ih.advance

theorem initSlot_shape {i : ℕ} {hash : UInt64} {key : κ} (h : s.initSlot A i hash key = .ok t) :
    t.modMask = s.modMask ∧ t.totalSlotSize = s.totalSlotSize := by
  unfold initSlot copyTo at h
  split at h
  · cases h
    exact ⟨rfl, rfl⟩
  · cases h

/-- Every slot that an operation returns is one that its pointer was moved to. -/
structure ReturnsPointed (A : KeyAccess κ) (s : SharedHashTableState) : Prop where
  lookup : ∀ key i, s.lookup A key = .ok (some i) → ∃ c, s.Pointed c ∧ c.idx = i
  lookupDisable : ∀ key t i, s.lookupDisable A key = .ok (t, some i) →
    ∃ c, t.Pointed c ∧ c.idx = i
  lookupOrInsert : ∀ key r, s.lookupOrInsert A key = .ok r →
    ∃ c, r.table.Pointed c ∧ c.idx = r.slot
  insert : ∀ key r, s.insert A key = .ok r → ∃ c, r.table.Pointed c ∧ c.idx = r.slot

theorem returnsPointed (A : KeyAccess κ) (s : SharedHashTableState) : ReturnsPointed A s where
  lookup := by
    intro key i h
    unfold SharedHashTableState.lookup at h
    cases hfind : s.findSlotOrEmpty A (A.hash key) key with
    | error e =>
      rw [hfind] at h
      cases h
    | ok slot =>
      rw [hfind] at h
      simp only [bind, Except.bind] at h
      split at h
      · cases h
        exact walk_pointed hfind
      · cases h
  lookupDisable := by
    intro key t i h
    unfold SharedHashTableState.lookupDisable at h
    cases hfind : s.findSlotOrEmpty A (A.hash key) key with
    | error e =>
      rw [hfind] at h
      cases h
    | ok slot =>
      rw [hfind] at h
      obtain ⟨rfl, hslot⟩ := Prod.mk.inj (Except.ok.inj h)
      split at hslot
      · cases hslot
        obtain ⟨c, hc, hidx⟩ := walk_pointed hfind
        have hsame : (s.setTag i (s.tags i ^^^ fingerprintInversionMask)).modMask = s.modMask := rfl
        exact ⟨c, Pointed.congr hsame rfl hc, hidx⟩
      · cases hslot
  lookupOrInsert := by
    intro key r h
    unfold SharedHashTableState.lookupOrInsert at h
    cases hreserve : s.reserveSlot A with
    | error e =>
      rw [hreserve] at h
      cases h
    | ok reserved =>
      obtain ⟨t, grown⟩ := reserved
      cases hfind : t.findSlotOrEmpty A (A.hash key) key with
      | error e =>
        simp only [hreserve, hfind, bind, Except.bind] at h
        cases h
      | ok slot =>
        obtain ⟨c, hc, hidx⟩ := walk_pointed hfind
        simp only [hreserve, hfind, bind, Except.bind] at h
        split at h
        · split at h
          · cases h
          · next u hinit =>
            cases h
            obtain ⟨hmask, hsize⟩ := initSlot_shape hinit
            exact ⟨c, hc.congr hmask hsize, hidx⟩
        · cases h
          exact ⟨c, hc, hidx⟩
  insert := by
    intro key r h
    obtain ⟨t, -, -, hwalk, hinit⟩ := insert_cases h
    obtain ⟨c, hc, hidx⟩ := walk_pointed hwalk
    obtain ⟨hmask, hsize⟩ := initSlot_shape hinit
    exact ⟨c, hc.congr hmask hsize, hidx⟩

end Returns

end SharedHashTableState

section Runs

open SharedHashTableState

variable {κ : Type} {A : KeyAccess κ} {s start : SharedHashTableState} {slotSize startSlots : ℕ}

theorem create_halfFull (h : create slotSize startSlots = .ok start) : HalfFull start := by
  have hcheck : ¬ (startSlots < 2 ∨ startSlots &&& (startSlots - 1) ≠ 0) := by
    intro hbad
    unfold create at h
    rw [if_pos hbad] at h
    cases h
  rw [not_or, ne_eq, not_not] at hcheck
  have hpow : startSlots.isPowerOfTwo :=
    (Nat.and_sub_one_eq_zero_iff_isPowerOfTwo (by omega)).mp hcheck.2
  obtain ⟨s, hs, -, -, hhalf⟩ := create_ok slotSize hpow (by omega)
  obtain rfl := Except.ok.inj (hs.symm.trans h)
  exact hhalf

/-- No operation changes the slot size. -/
theorem ProbedTable.slotSize_eq (hstart : HalfFull start) (h : ProbedTable A start s) :
    s.totalSlotSize = start.totalSlotSize := by
  induction h with
  | start => rfl
  | lookupDisable hs ht ih => exact ((hs.halfFull hstart).counts.lookupDisable ht).2.trans ih
  | lookupOrInsert hs hr ih =>
    have hhalf := hs.halfFull hstart
    exact (hhalf.counts.lookupOrInsert hhalf.size_lt hr).2.trans ih
  | insert hs hr ih =>
    have hhalf := hs.halfFull hstart
    exact (hhalf.counts.insert hhalf.size_lt hr).2.trans ih
  | write i slot _ ih => exact ih

theorem ProbedTable.slotsFit_iff (hcreate : create slotSize startSlots = .ok start)
    (h : ProbedTable A start s) :
    s.SlotsFit slotSize ↔ slotSize < 2 ^ 16 ∧ s.capacity * slotSize < 2 ^ 64 := by
  have hstart := create_halfFull hcreate
  apply SharedHashTableState.slotsFit_iff (h.halfFull hstart).two_le
  rw [h.slotSize_eq hstart]
  exact (create_empty hcreate).1

end Runs

namespace HashTableDirectLookup

variable {start t u : HashTableDirectLookup} {width payloadSize : ℕ}

/-- The slots have room for `width` bytes each: they are inside of the array, and different slots
do not overlap. -/
structure SlotsFit (t : HashTableDirectLookup) (width : ℕ) : Prop where
  inside : ∀ idx, idx < 2 ^ 16 → t.slotSize * idx + width ≤ t.data.length
  disjoint : ∀ i j, i < 2 ^ 16 → j < 2 ^ 16 → i ≠ j →
    t.slotSize * i + width ≤ t.slotSize * j ∨ t.slotSize * j + width ≤ t.slotSize * i

theorem Used.slotSize_eq (h : Used start t) : t.slotSize = start.slotSize := by
  induction h with
  | start => rfl
  | lookupOrInsert _ hinsert ih =>
    unfold HashTableDirectLookup.lookupOrInsert at hinsert
    simp only [bind, Except.bind] at hinsert
    split at hinsert
    · cases hinsert
    · next stored hstore =>
      cases hinsert
      rw [(store_cases hstore).2]
      exact ih
  | write _ _ _ hstore ih =>
    rw [(store_cases hstore).2]
    exact ih

theorem slotsFit_iff (ht : CountsTagged t) (hsize : t.slotSize = width % 2 ^ 16) :
    t.SlotsFit width ↔ width < 2 ^ 16 := by
  constructor
  · intro h
    by_contra hwide
    have hapart := h.disjoint 0 1 (by omega) (by omega) (by omega)
    omega
  · intro hnarrow
    have hwidth : t.slotSize = width := by
      rw [hsize]
      exact Nat.mod_eq_of_lt hnarrow
    have hspan : ∀ i j, i < j → t.slotSize * i + width ≤ t.slotSize * j := by
      intro i j hij
      rw [hwidth]
      calc
        width * i + width = width * (i + 1) := (Nat.mul_succ width i).symm
        _ ≤ width * j := Nat.mul_le_mul_left width hij
    refine ⟨?_, ?_⟩
    · intro idx hidx
      rw [ht.length, Nat.mul_comm (2 ^ 16)]
      exact hspan idx (2 ^ 16) hidx
    · intro i j _ _ hne
      rcases Nat.lt_or_gt_of_ne hne with hlt | hgt
      · exact .inl (hspan i j hlt)
      · exact .inr (hspan j i hgt)

/-- The products fit into the type `int` exactly if a slot has less than `2 ^ 15` bytes. -/
theorem fits_iff (payloadSize : ℕ) (hpayload : payloadSize < 2 ^ 16) :
    (∃ start, create payloadSize = .ok start ∧
      ∀ t, Used start t → t.SlotsFit (2 + payloadSize)) ↔ 2 + payloadSize < 2 ^ 15 := by
  constructor
  · intro h
    obtain ⟨start, hcreate, hfit⟩ := h
    have hcounts := (Used.start.counts hcreate).1
    unfold create at hcreate
    simp only at hcreate
    split at hcreate
    · next hint =>
      cases hcreate
      have hnarrow := (slotsFit_iff hcounts rfl).mp (hfit _ .start)
      omega
    · cases hcreate
  · intro hnarrow
    have hmod : (2 + payloadSize) % 2 ^ 16 = 2 + payloadSize := Nat.mod_eq_of_lt (by omega)
    obtain ⟨start, hcreate⟩ : ∃ start, create payloadSize = .ok start := by
      unfold create
      simp only
      rw [hmod, if_pos (by omega)]
      exact ⟨_, rfl⟩
    have hsize : start.slotSize = (2 + payloadSize) % 2 ^ 16 := by
      unfold create at hcreate
      simp only at hcreate
      split at hcreate
      · cases hcreate
        rfl
      · cases hcreate
    refine ⟨start, hcreate, ?_⟩
    intro t ht
    apply (slotsFit_iff (ht.counts hcreate).1 _).mpr (by omega)
    rw [ht.slotSize_eq, hsize]

end HashTableDirectLookup

section Tables

open SharedHashTableState

/-- In every table that operations lead to, the slots have room for key and payload exactly if the
sum of the sizes was not cut to sixteen bits and the length of the array not to 64 bits; in the
direct-lookup table, if the length of the array has the type `int`. -/
theorem slot_addresses_iff (hash : Bytes → UInt64) (text : UInt64 → Bytes)
    (keySize complexKeySlots payloadSize : UInt16) (startSlots : ℕ) :
    (∀ start s : SharedHashTableState,
      HashTableSimpleKey.create keySize.toNat payloadSize.toNat startSlots = .ok start →
      ProbedTable (simpleKey hash keySize.toNat) start s →
      ReturnsPointed (simpleKey hash keySize.toNat) s ∧
      (s.SlotsFit (keySize.toNat + payloadSize.toNat) ↔
        keySize.toNat + payloadSize.toNat < 2 ^ 16 ∧
          s.capacity * (keySize.toNat + payloadSize.toNat) < 2 ^ 64)) ∧
    (∀ start s : SharedHashTableState,
      HashTableComplexKey.create keySize.toNat complexKeySlots.toNat payloadSize.toNat
        startSlots = .ok start →
      ProbedTable (complexKey hash text) start s →
      ReturnsPointed (complexKey hash text) s ∧
      (s.SlotsFit (keySize.toNat + 8 * complexKeySlots.toNat + payloadSize.toNat) ↔
        keySize.toNat + 8 * complexKeySlots.toNat + payloadSize.toNat < 2 ^ 16 ∧
          s.capacity *
            (keySize.toNat + 8 * complexKeySlots.toNat + payloadSize.toNat) < 2 ^ 64)) ∧
    ((∃ start, HashTableDirectLookup.create payloadSize.toNat = .ok start ∧
        ∀ t, HashTableDirectLookup.Used start t → t.SlotsFit (2 + payloadSize.toNat)) ↔
      2 + payloadSize.toNat < 2 ^ 15) := by
  refine ⟨?_, ?_, ?_⟩
  · intro start s hcreate hs
    obtain ⟨slots, hshared⟩ := HashTableSimpleKey.create_shared hcreate
    exact ⟨returnsPointed _ s, ProbedTable.slotsFit_iff hshared hs⟩
  · intro start s hcreate hs
    have hshared := HashTableComplexKey.create_shared hcreate
    exact ⟨returnsPointed _ s, ProbedTable.slotsFit_iff hshared hs⟩
  · exact HashTableDirectLookup.fits_iff payloadSize.toNat payloadSize.toNat_lt

/-- A table of two slots with a key of four bytes and a payload of eight. -/
theorem small_slots_fit : ∃ start,
    HashTableSimpleKey.create (4 : UInt16).toNat (8 : UInt16).toNat 2 = .ok start ∧
      start.SlotsFit ((4 : UInt16).toNat + (8 : UInt16).toNat) := by
  refine ⟨_, rfl, ?_⟩
  apply (((slot_addresses_iff (fun _ => 0) (fun _ => []) 4 0 8 2).1 _ _ rfl .start).2).mpr
  decide

/-- With a key of 65535 bytes and a payload of one byte all slots are at one address, and with a
payload of 65534 bytes those of the direct-lookup table are. -/
theorem wide_slots_overlap :
    (∃ start, HashTableSimpleKey.create (65535 : UInt16).toNat (1 : UInt16).toNat 2 = .ok start ∧
      start.totalSlotSize = 0 ∧
      ¬ start.SlotsFit ((65535 : UInt16).toNat + (1 : UInt16).toNat)) ∧
    ∃ start, HashTableDirectLookup.create (65534 : UInt16).toNat = .ok start ∧
      start.slotSize = 0 ∧ ¬ start.SlotsFit (2 + (65534 : UInt16).toNat) := by
  constructor
  · refine ⟨_, rfl, rfl, ?_⟩
    intro h
    have hfirst := h.disjoint _ _ .first (.advance .first) (by decide)
    revert hfirst
    decide
  · refine ⟨_, rfl, rfl, ?_⟩
    intro h
    have hapart := h.disjoint 0 1 (by decide) (by decide) (by decide)
    revert hapart
    decide

end Tables

end InkFuse.Runtime
