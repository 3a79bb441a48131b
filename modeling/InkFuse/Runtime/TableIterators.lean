import InkFuse.Probing.Cursor
import InkFuse.Runtime.HashTables
import InkFuse.Runtime.NewHashTables

/-!
The iterators of the hash tables as the code keeps them: a pointer to the current slot,
which is null behind the last entry, and the index of the slot, which is left behind there. Pointers
are offsets into the data array. An iterator stands in front of a list of entries, and
advancing it drops the first of them.
-/

namespace InkFuse.Runtime

open Probing

/-- `it_data` and `it_idx` -/
structure TableIterator where
  data : Option ℕ
  idx : ℕ
  deriving DecidableEq, Repr

def entriesFrom (occupied : ℕ → Bool) (n i : ℕ) : List ℕ :=
  (List.range' i (n - i)).filter occupied

/-- The iterator is null, or it points to the first of the entries left. -/
def TableIterator.Stands (slotSize : ℕ) (occupied : ℕ → Bool) (n : ℕ) (it : TableIterator) :
    List ℕ → Prop
  | [] => it.data = none
  | i :: left => it = ⟨some (i * slotSize), i⟩ ∧ i < n ∧ occupied i = true ∧
      left = entriesFrom occupied n (i + 1)

section Entries

variable {occupied : ℕ → Bool} {n i : ℕ}

theorem entriesFrom_end (h : n ≤ i) : entriesFrom occupied n i = [] := by
  rw [entriesFrom, Nat.sub_eq_zero_of_le h, List.range'_zero, List.filter_nil]

theorem range'_pred (h : i < n) :
    List.range' i (n - i) = i :: List.range' (i + 1) (n - (i + 1)) := by
  obtain ⟨k, rfl⟩ : ∃ k, n = i + 1 + k := ⟨n - (i + 1), by omega⟩
  rw [show i + 1 + k - i = k + 1 by omega, List.range'_succ, Nat.add_sub_cancel_left]

theorem entriesFrom_occupied (h : i < n) (hi : occupied i = true) :
    entriesFrom occupied n i = i :: entriesFrom occupied n (i + 1) := by
  rw [entriesFrom, range'_pred h, List.filter_cons_of_pos hi, entriesFrom]

theorem entriesFrom_free (h : i < n) (hi : occupied i = false) :
    entriesFrom occupied n i = entriesFrom occupied n (i + 1) := by
  rw [entriesFrom, range'_pred h, List.filter_cons_of_neg (by simp [hi]), entriesFrom]

theorem entriesFrom_zero : entriesFrom occupied n 0 = (List.range n).filter occupied := by
  rw [entriesFrom, Nat.sub_zero, List.range_eq_range']

theorem seek_eq_head (k i : ℕ) : seek occupied k i = ((List.range' i k).filter occupied).head? := by
  induction k generalizing i with
  | zero => rfl
  | succ k ih =>
    rw [List.range'_succ]
    by_cases hi : occupied i = true
    · rw [List.filter_cons_of_pos hi, List.head?_cons, seek, if_pos hi]
    · rw [List.filter_cons_of_neg hi, seek, if_neg hi, ih]

variable {slotSize : ℕ} {it : TableIterator} {l : List ℕ}

theorem TableIterator.Stands.data_eq (h : it.Stands slotSize occupied n l) :
    it.data = l.head?.map (· * slotSize) := by
  cases l with
  | nil => exact h
  | cons i left =>
    obtain ⟨rfl, _⟩ := h
    rfl

theorem TableIterator.stands_occupied (h : i < n) (hi : occupied i = true) :
    TableIterator.Stands slotSize occupied n ⟨some (i * slotSize), i⟩
      (entriesFrom occupied n i) := by
  rw [entriesFrom_occupied h hi]
  exact ⟨rfl, h, hi, rfl⟩

end Entries

/-- The arguments of `advanceNoWrap`; the tag pointer is an index, too. -/
structure SlotCursor where
  idx : ℕ
  data : Option ℕ
  tag : ℕ

section Slots

variable (modMask slotSize : ℕ) (stop : ℕ → Bool)

/-- The next slot, or null behind the last one. The asserts are errors. -/
def advanceNoWrap (c : SlotCursor) : Except Fault SlotCursor :=
  match c.data with
  | none => .error .outOfBounds
  | some data =>
    if modMask < c.idx then .error .outOfBounds
    else if c.idx = modMask then .ok { c with data := none }
    else .ok ⟨c.idx + 1, some (data + slotSize), c.tag + 1⟩

/-- The loop of the iterator functions: advance until there is a slot to stop at. -/
def advanceTo : ℕ → SlotCursor → Except Fault SlotCursor
  | 0, _ => .error .diverges
  | fuel + 1, c =>
    if stop c.tag = false ∧ c.data ≠ none then do
      let next ← advanceNoWrap modMask slotSize c
      advanceTo fuel next
    else
      .ok c

def slotStart : Except Fault TableIterator := do
  let c ← advanceTo modMask slotSize stop (modMask + 2) ⟨0, some 0, 0⟩
  .ok ⟨c.data, c.idx⟩

def slotAdvance (it : TableIterator) : Except Fault TableIterator := do
  let next ← advanceNoWrap modMask slotSize ⟨it.idx, it.data, it.idx⟩
  let c ← advanceTo modMask slotSize stop (modMask + 2) next
  .ok ⟨c.data, c.idx⟩

variable {modMask slotSize stop}

theorem advanceTo_end (fuel idx tag : ℕ) :
    advanceTo modMask slotSize stop (fuel + 1) ⟨idx, none, tag⟩ = .ok ⟨idx, none, tag⟩ := by
  simp [advanceTo]

/-- The search from slot `i` on. -/
theorem advanceTo_spec {i : ℕ} (fuel : ℕ) (hi : i ≤ modMask) (hfuel : modMask + 1 - i ≤ fuel) :
    ∃ c, advanceTo modMask slotSize stop (fuel + 1) ⟨i, some (i * slotSize), i⟩ = .ok c ∧
      TableIterator.Stands slotSize stop (modMask + 1) ⟨c.data, c.idx⟩
        (entriesFrom stop (modMask + 1) i) := by
  induction fuel generalizing i with
  | zero => omega
  | succ fuel ih =>
    cases hstop : stop i with
    | true =>
      refine ⟨⟨i, some (i * slotSize), i⟩, ?_, TableIterator.stands_occupied (by omega) hstop⟩
      simp [advanceTo, hstop]
    | false =>
      rw [entriesFrom_free (by omega) hstop]
      by_cases hlast : i = modMask
      · subst hlast
        refine ⟨⟨i, none, i⟩, ?_, ?_⟩
        · have hstay : advanceTo i slotSize stop (fuel + 1) ⟨i, none, i⟩ = .ok ⟨i, none, i⟩ :=
            advanceTo_end fuel i i
          rw [advanceTo]
          simp only [hstop, advanceNoWrap, ne_eq, reduceCtorEq, not_false_eq_true, and_self,
            if_true, Nat.lt_irrefl, if_false, bind, Except.bind, hstay]
        · rw [entriesFrom_end le_rfl]
          rfl
      · obtain ⟨c, hc, hstands⟩ := ih (i := i + 1) (by omega) (by omega)
        refine ⟨c, ?_, hstands⟩
        have hnot : ¬ modMask < i := by omega
        rw [advanceTo]
        simp only [hstop, advanceNoWrap, hlast, hnot, bind, Except.bind, ne_eq, reduceCtorEq,
          not_false_eq_true, and_self, if_true, if_false]
        rwa [Nat.succ_mul] at hc

variable (modMask slotSize stop) in
theorem slotStart_spec : ∃ it, slotStart modMask slotSize stop = .ok it ∧
    it.Stands slotSize stop (modMask + 1) (entriesFrom stop (modMask + 1) 0) := by
  obtain ⟨c, hc, hstands⟩ := advanceTo_spec (modMask + 1) (Nat.zero_le modMask) (Nat.sub_le _ _)
  rw [Nat.zero_mul] at hc
  refine ⟨⟨c.data, c.idx⟩, ?_, hstands⟩
  simp only [slotStart, hc, bind, Except.bind]

theorem slotAdvance_spec {i : ℕ} (hi : i ≤ modMask) :
    ∃ it, slotAdvance modMask slotSize stop ⟨some (i * slotSize), i⟩ = .ok it ∧
      it.Stands slotSize stop (modMask + 1) (entriesFrom stop (modMask + 1) (i + 1)) := by
  by_cases hlast : i = modMask
  · subst hlast
    refine ⟨⟨none, i⟩, ?_, ?_⟩
    · have hstay : advanceTo i slotSize stop (i + 2) ⟨i, none, i⟩ = .ok ⟨i, none, i⟩ :=
        advanceTo_end (i + 1) i i
      simp only [slotAdvance, advanceNoWrap, Nat.lt_irrefl, if_true, if_false, bind, Except.bind,
        hstay]
    · rw [entriesFrom_end le_rfl]
      rfl
  · obtain ⟨c, hc, hstands⟩ := advanceTo_spec (modMask + 1) (by omega : i + 1 ≤ modMask)
      (Nat.sub_le _ _)
    refine ⟨⟨c.data, c.idx⟩, ?_, hstands⟩
    have hnot : ¬ modMask < i := by omega
    rw [Nat.succ_mul] at hc
    simp only [slotAdvance, advanceNoWrap, hlast, hnot, hc, if_false, bind, Except.bind]

end Slots

/-- Following such an iterator visits the slots to stop at, one after the other. -/
def slotCursor (modMask slotSize : ℕ) (stop : ℕ → Bool) : Cursor Fault TableIterator where
  advance := slotAdvance modMask slotSize stop
  atEnd := fun it => it.data.isNone

theorem TableIterator.Stands.atEnd {slotSize n : ℕ} {occupied : ℕ → Bool} {it : TableIterator}
    {l : List ℕ} (h : it.Stands slotSize occupied n l) : it.data.isNone = true ↔ l = [] := by
  rw [h.data_eq]
  cases l <;> simp

theorem slotCursor_enumerates (modMask slotSize : ℕ) (stop : ℕ → Bool) :
    (slotCursor modMask slotSize stop).Enumerates
      (TableIterator.Stands slotSize stop (modMask + 1)) where
  atEnd := TableIterator.Stands.atEnd
  advance := by
    rintro it i left ⟨rfl, hi, _, rfl⟩
    exact slotAdvance_spec (Nat.le_of_lt_succ hi)

theorem stands_visited {slotSize n : ℕ} {occupied : ℕ → Bool} {visited : List TableIterator}
    {l : List ℕ} (h : List.Forall₂
      (fun it a => ∃ left, TableIterator.Stands slotSize occupied n it (a :: left)) visited l) :
    visited = l.map fun i => ⟨some (i * slotSize), i⟩ := by
  induction h with
  | nil => rfl
  | cons hit _ ih =>
    obtain ⟨left, rfl, _⟩ := hit
    rw [ih, List.map_cons]

namespace SharedHashTableState

variable (s : SharedHashTableState)

/-- `iteratorStart` of `HashTableSimpleKey` and `HashTableComplexKey` -/
def itStart : Except Fault TableIterator := slotStart s.modMask s.totalSlotSize s.filled

/-- `iteratorAdvance` of `HashTableSimpleKey` and `HashTableComplexKey` -/
def itAdvance (it : TableIterator) : Except Fault TableIterator :=
  slotAdvance s.modMask s.totalSlotSize s.filled it

variable {s}

theorem filled_eq_false {i : ℕ} : s.filled i = false ↔ s.tags i &&& tagFillMask = 0 := by
  simp [filled]

/-- The iterators over slot numbers are these iterators. -/
theorem itStart_refines : ∃ it, s.itStart = .ok it ∧
    it.data = s.iteratorStart.map (· * s.totalSlotSize) := by
  obtain ⟨it, hstart, hstands⟩ := slotStart_spec s.modMask s.totalSlotSize s.filled
  refine ⟨it, hstart, ?_⟩
  rw [hstands.data_eq, iteratorStart, scanStart, seek_eq_head, entriesFrom, Nat.sub_zero]

theorem itAdvance_refines {i : ℕ} (hi : i ≤ s.modMask) :
    ∃ it, s.itAdvance ⟨some (i * s.totalSlotSize), i⟩ = .ok it ∧
      it.data = (s.iteratorAdvance i).map (· * s.totalSlotSize) := by
  obtain ⟨it, hadvance, hstands⟩ := slotAdvance_spec hi
  refine ⟨it, hadvance, ?_⟩
  rw [hstands.data_eq, iteratorAdvance, scanNext, seek_eq_head, entriesFrom]

end SharedHashTableState

namespace AtomicHashTable

variable (s : AtomicHashTable)

/-- `iteratorStart` of `AtomicHashTable`, which skips marked slots -/
def itStart : Except Fault TableIterator := slotStart s.modMask s.totalSlotSize s.unmatched

def iterate : Except Fault (List TableIterator) := do
  let it ← s.itStart
  (slotCursor s.modMask s.totalSlotSize s.unmatched).visit .diverges (fun it => it.data.isNone)
    (s.modMask + 1) it

theorem iterate_eq : s.iterate = .ok ((entriesFrom s.unmatched (s.modMask + 1) 0).map
    fun i => ⟨some (i * s.totalSlotSize), i⟩) := by
  obtain ⟨it, hstart, hstands⟩ :=
    slotStart_spec (s.modMask) (s.totalSlotSize) (s.unmatched)
  have hlength : (entriesFrom s.unmatched (s.modMask + 1) 0).length ≤ s.modMask + 1 := by
    rw [entriesFrom_zero]
    exact (List.length_filter_le _ _).trans_eq List.length_range
  rw [← List.append_nil (entriesFrom s.unmatched (s.modMask + 1) 0)] at hstands
  obtain ⟨visited, hvisit, hvisited⟩ :=
    (slotCursor_enumerates s.modMask s.totalSlotSize s.unmatched).visit Fault.diverges
      (fun it => it.data.isNone) (fun it hit => hit.atEnd.mpr rfl)
      (fun a _ it left hit => by simp [hit.1]) (s.modMask + 1) hlength hstands
  rw [← stands_visited hvisited]
  simp only [iterate, itStart, hstart, hvisit, bind, Except.bind]

end AtomicHashTable

end InkFuse.Runtime
