import InkFuse.Probing.Chain
import InkFuse.Runtime.HashTables

/-!
The invariant of the growing hash tables. Tags agree with the stored keys, free slots
are zero, no probing chain is broken and no key is stored twice. A slot is filled in one
way only, which `WellFormed.fill` describes; looking up, inserting and moving slots into
a larger table all rest on it.
-/

namespace InkFuse.Runtime

open Bytes Probing

/-- Keys have an identity, which the searched key and the slot that stores it share and which
determines the hash. It is kept by writes behind the key. -/
structure KeyLayout {κ : Type} (A : KeyAccess κ) where
  keySize : ℕ
  hashOf : Bytes → UInt64
  ident : κ → Bytes
  slotIdent : Bytes → Bytes
  ValidKey : κ → Prop
  ValidSlot : Bytes → Prop
  hash_eq : ∀ k, A.hash k = hashOf (ident k)
  slotHash_eq : ∀ d, A.slotHash d = hashOf (slotIdent d)
  matches_iff : ∀ d k, ValidSlot d → (A.slotMatches d k = true ↔ slotIdent d = ident k)
  store_length : ∀ k, ValidKey k → (A.store k).length = keySize
  ident_store : ∀ d k, ValidKey k → keySize ≤ d.length →
    slotIdent (writeAt d 0 (A.store k)) = ident k
  valid_store : ∀ d k, ValidKey k → keySize ≤ d.length → ValidSlot (writeAt d 0 (A.store k))
  ident_writeAt : ∀ d off bs, keySize ≤ off → off ≤ d.length →
    slotIdent (writeAt d off bs) = slotIdent d
  valid_writeAt : ∀ d off bs, keySize ≤ off → off ≤ d.length → ValidSlot d →
    ValidSlot (writeAt d off bs)

namespace SharedHashTableState

/-- The filled slots with content and tag. -/
def entries (s : SharedHashTableState) (i : ℕ) : Option (Bytes × UInt8) :=
  if s.tags i = 0 then none else some (s.data i, s.tags i)

def slots (s : SharedHashTableState) (i : ℕ) : Option Bytes := (s.entries i).map Prod.fst

def Stored (s : SharedHashTableState) (i : ℕ) (d : Bytes) : Prop :=
  i < s.capacity ∧ s.slots i = some d

theorem entries_eq_none {s : SharedHashTableState} {i : ℕ} : s.entries i = none ↔ s.tags i = 0 := by
  unfold entries
  split <;> simp_all

theorem entries_eq_some {s : SharedHashTableState} {i : ℕ} {r : Bytes × UInt8} :
    s.entries i = some r ↔ s.tags i ≠ 0 ∧ r = (s.data i, s.tags i) := by
  unfold entries
  split <;> simp_all [eq_comm]

theorem entries_put (s : SharedHashTableState) {i : ℕ} {tag : UInt8} (htag : tag ≠ 0) (d : Bytes) :
    ((s.setTag i tag).setData i d).entries = Function.update s.entries i (some (d, tag)) := by
  funext j
  by_cases hij : j = i
  · subst hij
    simp [entries, setTag, setData, htag]
  · simp [entries, setTag, setData, Function.update_of_ne hij]

theorem entries_setTag (s : SharedHashTableState) {i : ℕ} {tag : UInt8} (htag : tag ≠ 0) :
    (s.setTag i tag).entries = Function.update s.entries i (some (s.data i, tag)) := by
  funext j
  by_cases hij : j = i
  · subst hij
    simp [entries, setTag, htag]
  · simp [entries, setTag, Function.update_of_ne hij]

theorem entries_setData (s : SharedHashTableState) {i : ℕ} (htag : s.tags i ≠ 0) (d : Bytes) :
    (s.setData i d).entries = Function.update s.entries i (some (d, s.tags i)) := by
  funext j
  by_cases hij : j = i
  · subst hij
    simp [entries, setData, htag]
  · simp [entries, setData, Function.update_of_ne hij]

theorem slots_eq_none_iff {s : SharedHashTableState} {i : ℕ} :
    s.slots i = none ↔ s.tags i = 0 := by
  rw [slots, Option.map_eq_none_iff, entries_eq_none]

theorem slots_eq_some_iff {s : SharedHashTableState} {i : ℕ} {d : Bytes} :
    s.slots i = some d ↔ s.tags i ≠ 0 ∧ s.data i = d := by
  unfold slots entries
  split <;> simp_all

theorem slots_of_entries {s t : SharedHashTableState} {i : ℕ} {r : Bytes × UInt8}
    (h : t.entries = Function.update s.entries i (some r)) :
    t.slots = Function.update s.slots i (some r.1) := by
  funext j
  unfold slots
  rw [h]
  by_cases hij : j = i
  · subst hij
    simp
  · simp [Function.update_of_ne hij]

theorem slots_put {s : SharedHashTableState} {i : ℕ} {tag : UInt8} (htag : tag ≠ 0) (d : Bytes) :
    ((s.setTag i tag).setData i d).slots = Function.update s.slots i (some d) :=
  slots_of_entries (s.entries_put htag d)

theorem slots_setData {s : SharedHashTableState} {i : ℕ} (htag : s.tags i ≠ 0) (d : Bytes) :
    (s.setData i d).slots = Function.update s.slots i (some d) :=
  slots_of_entries (s.entries_setData htag d)

/-- What is stored after slot `i` was given the content `d`. -/
theorem stored_of_update {s t : SharedHashTableState} {i : ℕ} {d : Bytes}
    (hslots : t.slots = Function.update s.slots i (some d)) (hcap : t.capacity = s.capacity)
    (j : ℕ) (e : Bytes) (h : t.Stored j e) : (j = i ∧ e = d) ∨ (j ≠ i ∧ s.Stored j e) := by
  obtain ⟨hj, he⟩ := h
  rw [hslots] at he
  by_cases hji : j = i
  · rw [hji, Function.update_self, Option.some.injEq] at he
    exact Or.inl ⟨hji, he.symm⟩
  · rw [Function.update_of_ne hji] at he
    exact Or.inr ⟨hji, hcap ▸ hj, he⟩

theorem stored_update_self {s t : SharedHashTableState} {i : ℕ} {d : Bytes}
    (hslots : t.slots = Function.update s.slots i (some d)) (hi : i < t.capacity) :
    t.Stored i d := ⟨hi, by rw [hslots, Function.update_self]⟩

theorem stored_update_of_ne {s t : SharedHashTableState} {i j : ℕ} {d e : Bytes}
    (hslots : t.slots = Function.update s.slots i (some d)) (hcap : t.capacity = s.capacity)
    (hji : j ≠ i) (h : s.Stored j e) : t.Stored j e :=
  ⟨hcap ▸ h.1, by rw [hslots, Function.update_of_ne hji, h.2]⟩

theorem Stored.data_eq {s : SharedHashTableState} {i : ℕ} {d : Bytes} (h : s.Stored i d) :
    s.data i = d := (slots_eq_some_iff.mp h.2).2

theorem Stored.tag_ne_zero {s : SharedHashTableState} {i : ℕ} {d : Bytes} (h : s.Stored i d) :
    s.tags i ≠ 0 := (slots_eq_some_iff.mp h.2).1

end SharedHashTableState

open SharedHashTableState

section Invariant

variable {κ : Type} {A : KeyAccess κ} (L : KeyLayout A)

/-- The chain of a slot's content starts at the home slot of its hash. -/
def home (L : KeyLayout A) (modMask : ℕ) (d : Bytes) : ℕ :=
  homeSlot modMask (L.hashOf (L.slotIdent d))

/-- The sizes fit together, as `create` has set them. -/
structure Sized (s : SharedHashTableState) : Prop where
  pow : s.capacity.isPowerOfTwo
  two_le : 2 ≤ s.capacity
  maxFill_eq : s.maxFill = s.capacity / 2
  keySize_le : L.keySize ≤ s.totalSlotSize
  size_lt : s.totalSlotSize < 2 ^ 16
  slot_length : ∀ i, i < s.capacity → (s.data i).length = s.totalSlotSize

structure Zeroed (s : SharedHashTableState) : Prop extends Sized L s where
  free_zero : ∀ i, i < s.capacity → s.tags i = 0 → s.data i = List.replicate s.totalSlotSize 0

structure WellFormed (s : SharedHashTableState) : Prop extends Zeroed L s where
  tag_eq : ∀ i d, s.Stored i d → s.tags i = filledTag (L.hashOf (L.slotIdent d))
  valid : ∀ i d, s.Stored i d → L.ValidSlot d
  chained : Chained s.capacity (home L s.modMask) s.slots
  unique : Unique s.capacity L.slotIdent s.slots

/-- A table as the operations leave it: no more than half of the slots are filled. -/
structure Inv (s : SharedHashTableState) : Prop extends WellFormed L s where
  count : s.inserted = (occupied s.capacity s.slots).card
  bound : s.inserted ≤ s.maxFill

end Invariant

section Sized

variable {κ : Type} {A : KeyAccess κ} {L : KeyLayout A} {s : SharedHashTableState}

theorem Sized.setInserted (h : Sized L s) (n : ℕ) : Sized L { s with inserted := n } where
  pow := h.pow
  two_le := h.two_le
  maxFill_eq := h.maxFill_eq
  keySize_le := h.keySize_le
  size_lt := h.size_lt
  slot_length := h.slot_length

theorem Sized.setTag (h : Sized L s) (i : ℕ) (tag : UInt8) : Sized L (s.setTag i tag) where
  pow := h.pow
  two_le := h.two_le
  maxFill_eq := h.maxFill_eq
  keySize_le := h.keySize_le
  size_lt := h.size_lt
  slot_length := h.slot_length

theorem Sized.setData (h : Sized L s) (i : ℕ) {d : Bytes} (hlen : d.length = s.totalSlotSize) :
    Sized L (s.setData i d) where
  pow := h.pow
  two_le := h.two_le
  maxFill_eq := h.maxFill_eq
  keySize_le := h.keySize_le
  size_lt := h.size_lt
  slot_length := by
    intro j hj
    by_cases hji : j = i
    · simp [SharedHashTableState.setData, hji, hlen]
    · simpa [SharedHashTableState.setData, Function.update_of_ne hji] using h.slot_length j hj

theorem Zeroed.setInserted (h : Zeroed L s) (n : ℕ) : Zeroed L { s with inserted := n } :=
  ⟨h.toSized.setInserted n, h.free_zero⟩

theorem Zeroed.setTag (h : Zeroed L s) (i : ℕ) {tag : UInt8} (htag : tag ≠ 0) :
    Zeroed L (s.setTag i tag) := by
  refine ⟨h.toSized.setTag i tag, fun j hj hzero => ?_⟩
  by_cases hji : j = i
  · simp only [SharedHashTableState.setTag, hji, Function.update_self] at hzero
    exact absurd hzero htag
  · simp only [SharedHashTableState.setTag, Function.update_of_ne hji] at hzero
    exact h.free_zero j hj hzero

/-- Free slots stay zero when a filled one is written. -/
theorem Zeroed.setData (h : Zeroed L s) {i : ℕ} (htag : s.tags i ≠ 0) {d : Bytes}
    (hlen : d.length = s.totalSlotSize) : Zeroed L (s.setData i d) := by
  refine ⟨h.toSized.setData i hlen, fun j hj hzero => ?_⟩
  by_cases hji : j = i
  · exact absurd (hji ▸ hzero) htag
  · simpa [SharedHashTableState.setData, Function.update_of_ne hji] using h.free_zero j hj hzero

theorem Zeroed.put (h : Zeroed L s) (i : ℕ) {tag : UInt8} (htag : tag ≠ 0) {d : Bytes}
    (hlen : d.length = s.totalSlotSize) : Zeroed L ((s.setTag i tag).setData i d) :=
  (h.setTag i htag).setData (by simpa [SharedHashTableState.setTag] using htag) hlen

end Sized

section WellFormed

variable {κ : Type} {A : KeyAccess κ} {L : KeyLayout A} {s : SharedHashTableState}

theorem WellFormed.setInserted (hw : WellFormed L s) (n : ℕ) :
    WellFormed L { s with inserted := n } :=
  ⟨hw.toZeroed.setInserted n, hw.tag_eq, hw.valid, hw.chained, hw.unique⟩

/-- An empty table of a power-of-two capacity is well formed. -/
theorem create_wellFormed {keySize slotSize startSlots : ℕ} (hkey : L.keySize = keySize)
    (hfit : keySize ≤ slotSize) (hsize : slotSize < 2 ^ 16) (hpow : startSlots.isPowerOfTwo)
    (htwo : 2 ≤ startSlots) :
    ∃ s, create slotSize startSlots = .ok s ∧ Inv L s ∧ s.capacity = startSlots ∧
      s.totalSlotSize = slotSize ∧ s.inserted = 0 ∧ ∀ i, s.tags i = 0 := by
  have hcheck : ¬ (startSlots < 2 ∨ startSlots &&& (startSlots - 1) ≠ 0) := by
    have hand := (Nat.and_sub_one_eq_zero_iff_isPowerOfTwo (by omega)).mpr hpow
    simp only [hand, ne_eq, not_true_eq_false, or_false]
    omega
  have hcap : startSlots - 1 + 1 = startSlots := by omega
  rw [create, if_neg hcheck, Nat.mod_eq_of_lt hsize]
  refine ⟨_, rfl, ?_, hcap, rfl, rfl, fun _ => rfl⟩
  have hslots : ∀ s : SharedHashTableState, (∀ i, s.tags i = 0) → s.slots = fun _ => none :=
    fun s htags => funext fun i => slots_eq_none_iff.mpr (htags i)
  have hempty := hslots
    { tags := fun _ => 0, data := fun _ => List.replicate slotSize 0, modMask := startSlots - 1,
      inserted := 0, maxFill := startSlots / 2, totalSlotSize := slotSize } (fun _ => rfl)
  refine ⟨⟨⟨⟨hcap ▸ hpow, hcap ▸ htwo, ?_, hkey ▸ hfit, hsize, ?_⟩, ?_⟩, ?_, ?_, ?_, ?_⟩, ?_, ?_⟩
  · simp only [capacity, hcap]
  · intro i _
    simp
  · intro i _ _
    rfl
  · rintro i d ⟨_, hd⟩
    exact absurd hd (by rw [hempty]; simp)
  · rintro i d ⟨_, hd⟩
    exact absurd hd (by rw [hempty]; simp)
  · rw [hempty]
    exact chained_empty _ _
  · rw [hempty]
    exact unique_empty _ _
  · rw [hempty, occupied_empty, Finset.card_empty]
  · exact Nat.zero_le _

/-- Filling a free slot at the end of a chain with a new key keeps a table well formed. -/
theorem WellFormed.fill (hw : WellFormed L s) {i : ℕ} {d : Bytes} (hi : i < s.capacity)
    (hfree : s.slots i = none) (hlen : d.length = s.totalSlotSize) (hvalid : L.ValidSlot d)
    (hreach : Reaches s.capacity s.slots (home L s.modMask d) i)
    (habsent : ∀ j e, s.Stored j e → L.slotIdent e ≠ L.slotIdent d) :
    WellFormed L ((s.setTag i (filledTag (L.hashOf (L.slotIdent d)))).setData i d) := by
  have hslots := slots_put (s := s) (i := i)
    (filledTag_ne_zero (L.hashOf (L.slotIdent d))) d
  have hstored := stored_of_update hslots rfl
  refine ⟨hw.toZeroed.put i (filledTag_ne_zero _) hlen, ?_, ?_, ?_, ?_⟩
  · intro j e he
    rcases hstored j e he with ⟨rfl, rfl⟩ | ⟨hji, he'⟩
    · simp [setData, setTag]
    · simpa [setData, setTag, Function.update_of_ne hji] using hw.tag_eq j e he'
  · intro j e he
    rcases hstored j e he with ⟨rfl, rfl⟩ | ⟨_, he'⟩
    · exact hvalid
    · exact hw.valid j e he'
  · rw [hslots]
    exact hw.chained.fill hfree hreach
  · rw [hslots]
    exact hw.unique.fill fun j e hj he => habsent j e ⟨hj, he⟩

/-- Changing a slot behind its key keeps a table well formed. -/
theorem WellFormed.rewrite (hw : WellFormed L s) {i : ℕ} {d d' : Bytes} (hi : s.Stored i d)
    (hlen : d'.length = d.length) (hvalid : L.ValidSlot d')
    (hident : L.slotIdent d' = L.slotIdent d) : WellFormed L (s.setData i d') := by
  have htag := (slots_eq_some_iff.mp hi.2).1
  have hslots := slots_setData htag d'
  have hdlen : d.length = s.totalSlotSize := by
    rw [← (slots_eq_some_iff.mp hi.2).2]
    exact hw.slot_length i hi.1
  have hhome : home L s.modMask d' = home L s.modMask d := by rw [home, home, hident]
  have hstored := stored_of_update hslots rfl
  refine ⟨hw.toZeroed.setData htag (hlen.trans hdlen), ?_, ?_, ?_, ?_⟩
  · intro j e he
    rcases hstored j e he with ⟨rfl, rfl⟩ | ⟨_, he'⟩
    · simpa only [setData, hident] using hw.tag_eq j d hi
    · simpa only [setData] using hw.tag_eq j e he'
  · intro j e he
    rcases hstored j e he with ⟨rfl, rfl⟩ | ⟨_, he'⟩
    · exact hvalid
    · exact hw.valid j e he'
  · rw [hslots]
    exact hw.chained.replace hi.2 hhome
  · rw [hslots]
    exact hw.unique.replace hi.2 hident

end WellFormed

end InkFuse.Runtime
