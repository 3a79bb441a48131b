import InkFuse.Exec.HybridScan
import InkFuse.Runtime.UsedTables
import InkFuse.Runtime.TableVariants
import Mathlib.Data.Rat.Defs

/-!
The morsels of `HashTableSource`. Picking a morsel moves the end iterator, the generated loop
walks from the start iterator until its pointer is the end pointer. Every thread scans a table of
its own with a state of its own.
-/

namespace InkFuse.Exec

open Probing InkFuse.Runtime

/-- What the source uses of its template parameter, with the slots that the table occupies. -/
structure ScannedTable where
  itStart : Except Fault TableIterator
  itAdvance : TableIterator → Except Fault TableIterator
  capacity : ℕ
  size : ℕ
  slotSize : ℕ
  occupied : ℕ → Bool

structure HashTableSourceState where
  itStart : TableIterator
  itEnd : TableIterator

/-- The progress is the exact quotient. -/
structure PickedMorsel where
  morselSize : ℕ
  pipelineProgress : ℚ

namespace ScannedTable

variable (T : ScannedTable)

def cursor : Cursor Fault TableIterator where
  advance := T.itAdvance
  atEnd := fun it => it.data.isNone

/-- `setUpStateImpl`: the first morsel starts where it ends. -/
def setUpState : Except Fault HashTableSourceState := do
  let it ← T.itStart
  .ok ⟨it, it⟩

/-- `pickMorsel`, which returns nothing when there are no more morsels. -/
def pickMorsel (state : HashTableSourceState) :
    Except Fault (HashTableSourceState × Option PickedMorsel) :=
  if state.itEnd.data = none then
    .ok (state, none)
  else do
    let (itEnd, entriesFound) ← T.cursor.skip defaultChunkSize state.itEnd
    .ok (⟨state.itEnd, itEnd⟩, some ⟨entriesFound, itEnd.idx / T.capacity⟩)

/-- The generated loop over a morsel, with the iterators that it hands to the operators behind. A
loop with more rounds than there are slots has no exit. -/
def runLoop (state : HashTableSourceState) : Except Fault (List TableIterator) :=
  T.cursor.visit .diverges (fun it => it.data == state.itEnd.data) T.capacity state.itStart

def runMorsels : ℕ → HashTableSourceState → Except Fault (List (PickedMorsel × List TableIterator))
  | 0, _ => .error .diverges
  | fuel + 1, state => do
    let (state, picked) ← T.pickMorsel state
    match picked with
    | none => .ok []
    | some morsel => do
      let produced ← T.runLoop state
      let rest ← runMorsels fuel state
      .ok ((morsel, produced) :: rest)

structure ProducedOnce (produced : List TableIterator) : Prop where
  nodup : (produced.map TableIterator.idx).Nodup
  mem_iff : ∀ i, i ∈ produced.map TableIterator.idx ↔ i < T.capacity ∧ T.occupied i = true
  data_eq : ∀ it ∈ produced, it.data = some (it.idx * T.slotSize)
  length_eq : produced.length = T.size

/-- A morsel has a row at least and a chunk at most, and its loop produces as many rows. -/
def Fits (m : PickedMorsel × List TableIterator) : Prop :=
  1 ≤ m.1.morselSize ∧ m.1.morselSize ≤ defaultChunkSize ∧ m.2.length = m.1.morselSize

def VisitsOnce : Prop :=
  ∃ state fuel morsels, T.setUpState = .ok state ∧ T.runMorsels fuel state = .ok morsels ∧
    (∀ m ∈ morsels, Fits m) ∧ T.ProducedOnce (morsels.flatMap Prod.snd)

/-- The iterators of the table walk over its occupied slots. -/
structure Walks : Prop where
  enumerates : T.cursor.Enumerates
    (TableIterator.Stands T.slotSize T.occupied T.capacity)
  itStart : ∃ it, T.itStart = .ok it ∧
    it.Stands T.slotSize T.occupied T.capacity (entriesFrom T.occupied T.capacity 0)

variable {T}

/-- The pointer tells the entries of a morsel from the first entry behind it. -/
theorem data_ne_of_mem {l : List ℕ} (hnodup : l.Nodup)
    (hroom : 0 < T.slotSize ∨ l.length ≤ defaultChunkSize) {a : ℕ}
    (ha : a ∈ l.take defaultChunkSize)
    {it last : TableIterator} {left : List ℕ}
    (hit : it.Stands T.slotSize T.occupied T.capacity (a :: left))
    (hlast : last.Stands T.slotSize T.occupied T.capacity (l.drop defaultChunkSize)) :
    (it.data == last.data) = false := by
  rw [hit.data_eq, hlast.data_eq]
  cases hrest : l.drop defaultChunkSize with
  | nil => rfl
  | cons b rest =>
    have hpos : 0 < T.slotSize := by
      apply hroom.resolve_right
      intro hle
      rw [List.drop_eq_nil_of_le hle] at hrest
      cases hrest
    have hab : a ≠ b := by
      rintro rfl
      rw [← List.take_append_drop defaultChunkSize l, hrest] at hnodup
      exact (List.disjoint_of_nodup_append hnodup) ha List.mem_cons_self
    have hne : a * T.slotSize ≠ b * T.slotSize :=
      fun heq => hab (Nat.eq_of_mul_eq_mul_right hpos heq)
    simp [hne]

/-- One morsel from an end iterator in front of the entries `l`. -/
theorem Walks.morsel (h : T.Walks) {state : HashTableSourceState} {l : List ℕ}
    (hstate : state.itEnd.Stands T.slotSize T.occupied T.capacity l) (hne : l ≠ [])
    (hnodup : l.Nodup) (hroom : 0 < T.slotSize ∨ l.length ≤ defaultChunkSize)
    (hlength : l.length ≤ T.capacity) :
    ∃ next morsel, T.pickMorsel state = .ok (next, some morsel) ∧
      morsel.morselSize = min defaultChunkSize l.length ∧
      next.itEnd.Stands T.slotSize T.occupied T.capacity (l.drop defaultChunkSize) ∧
      T.runLoop next =
        .ok ((l.take defaultChunkSize).map fun i => ⟨some (i * T.slotSize), i⟩) := by
  have hdata : state.itEnd.data ≠ none := by
    rw [hstate.data_eq]
    cases l with
    | nil => exact absurd rfl hne
    | cons a l => simp
  obtain ⟨last, hskip, hlast⟩ := h.enumerates.skip defaultChunkSize hstate
  have hstands : state.itEnd.Stands T.slotSize T.occupied T.capacity
      (l.take defaultChunkSize ++ l.drop defaultChunkSize) := by
    rw [List.take_append_drop]
    exact hstate
  obtain ⟨visited, hvisit, hvisited⟩ := h.enumerates.visit Fault.diverges
    (fun it => it.data == last.data)
    (fun it hit => by rw [hit.data_eq, hlast.data_eq]; exact beq_self_eq_true _)
    (fun a ha it left hit => data_ne_of_mem hnodup hroom ha hit hlast)
    T.capacity (by rw [List.length_take]; omega) hstands
  refine ⟨⟨state.itEnd, last⟩, ⟨min defaultChunkSize l.length, last.idx / T.capacity⟩, ?_, rfl,
    hlast, ?_⟩
  · simp only [pickMorsel, hdata, if_false, hskip, bind, Except.bind]
  · rw [runLoop, hvisit, stands_visited hvisited]

theorem Walks.run (h : T.Walks) (fuel : ℕ) (state : HashTableSourceState) {l : List ℕ}
    (hstate : state.itEnd.Stands T.slotSize T.occupied T.capacity l) (hnodup : l.Nodup)
    (hroom : 0 < T.slotSize ∨ l.length ≤ defaultChunkSize) (hlength : l.length ≤ T.capacity)
    (hfuel : l.length < fuel) :
    ∃ morsels, T.runMorsels fuel state = .ok morsels ∧ (∀ m ∈ morsels, Fits m) ∧
      morsels.flatMap Prod.snd = l.map fun i => ⟨some (i * T.slotSize), i⟩ := by
  induction fuel generalizing state l with
  | zero => omega
  | succ fuel ih =>
    by_cases hne : l = []
    · subst hne
      refine ⟨[], ?_, by simp, rfl⟩
      have hdata : state.itEnd.data = none := hstate
      simp only [runMorsels, pickMorsel, hdata, if_true, bind, Except.bind]
    · obtain ⟨next, morsel, hpick, hsize, hnext, hloop⟩ :=
        h.morsel hstate hne hnodup hroom hlength
      have hpos := List.length_pos_iff.mpr hne
      have hdrop : (l.drop defaultChunkSize).length = l.length - defaultChunkSize :=
        List.length_drop
      have hchunk : defaultChunkSize = 512 := rfl
      obtain ⟨morsels, hrun, hfits, hflat⟩ := ih next hnext (hnodup.sublist (List.drop_sublist _ _))
        (hroom.imp_right fun hle => by omega) (by omega) (by omega)
      refine ⟨(morsel, (l.take defaultChunkSize).map fun i => ⟨some (i * T.slotSize), i⟩) ::
        morsels, ?_, ?_, ?_⟩
      · simp only [runMorsels, hpick, hloop, hrun, bind, Except.bind]
      · intro m hm
        obtain rfl | hm := List.mem_cons.mp hm
        · have hlow : 1 ≤ morsel.morselSize := by omega
          have hhigh : morsel.morselSize ≤ defaultChunkSize := by omega
          refine ⟨hlow, hhigh, ?_⟩
          rw [List.length_map, List.length_take, hsize]
        · exact hfits m hm
      · rw [List.flatMap_cons, hflat, ← List.map_append, List.take_append_drop]

/-- A scan visits all entries if pointers tell them apart or all of them fit into one morsel. -/
theorem Walks.visitsOnce (h : T.Walks) (hsize : T.size = entryCount T.occupied T.capacity)
    (hroom : 0 < T.slotSize ∨ T.size ≤ defaultChunkSize) : T.VisitsOnce := by
  obtain ⟨it, hstart, hstands⟩ := h.itStart
  have hcount := length_entries T.occupied T.capacity
  have hentries : entriesFrom T.occupied T.capacity 0 = _ := entriesFrom_zero
  have hnodup : (entriesFrom T.occupied T.capacity 0).Nodup := by
    rw [hentries]
    exact List.nodup_range.filter _
  have hlength : (entriesFrom T.occupied T.capacity 0).length ≤ T.capacity := by
    rw [hentries]
    exact (List.length_filter_le _ _).trans_eq List.length_range
  obtain ⟨morsels, hrun, hfits, hflat⟩ := h.run (T.capacity + 1) ⟨it, it⟩ hstands hnodup
    (by rwa [hcount, ← hsize]) hlength (by omega)
  have hidx : (morsels.flatMap Prod.snd).map TableIterator.idx =
      entriesFrom T.occupied T.capacity 0 := by
    rw [hflat, List.map_map]
    exact List.map_id _
  refine ⟨⟨it, it⟩, T.capacity + 1, morsels, ?_, hrun, hfits, ?_, ?_, ?_, ?_⟩
  · simp only [setUpState, hstart, bind, Except.bind]
  · rw [hidx]
    exact hnodup
  · intro i
    rw [hidx, hentries, List.mem_filter, List.mem_range]
  · intro it hit
    rw [hflat] at hit
    obtain ⟨i, _, rfl⟩ := List.mem_map.mp hit
    rfl
  · rw [hflat, List.length_map, hcount, hsize]

end ScannedTable

open ScannedTable

section Tables

def growing (s : SharedHashTableState) : ScannedTable where
  itStart := s.itStart
  itAdvance := s.itAdvance
  capacity := s.capacity
  size := s.size
  slotSize := s.totalSlotSize
  occupied := s.filled

def directLookup (t : HashTableDirectLookup) : ScannedTable where
  itStart := t.itStart
  itAdvance := t.itAdvance
  capacity := t.capacity
  size := t.size
  slotSize := t.slotSize
  occupied := t.tags

theorem growing_walks (s : SharedHashTableState) : (growing s).Walks where
  enumerates := slotCursor_enumerates s.modMask s.totalSlotSize s.filled
  itStart := slotStart_spec s.modMask s.totalSlotSize s.filled

theorem directLookup_walks (t : HashTableDirectLookup) : (directLookup t).Walks where
  enumerates := {
    atEnd := TableIterator.Stands.atEnd
    advance := by
      rintro it i left ⟨rfl, _, _, rfl⟩
      exact HashTableDirectLookup.itAdvance_spec i
  }
  itStart := HashTableDirectLookup.itStart_spec

/-- The tables that clients reach with inserts and lookups. -/
inductive ReachedTable : ScannedTable → Prop
  | simpleKey {hash keySize payloadSize startSlots start s} :
      HashTableSimpleKey.create keySize payloadSize startSlots = .ok start →
      UsedTable (simpleLayout hash keySize) payloadSize start s → ReachedTable (growing s)
  | singleKey {keySize payloadSize startSlots start s} :
      HashTableSimpleKey.create keySize payloadSize startSlots = .ok start →
      SingleKeyTable start s → ReachedTable (growing s)
  | complexKey {hash text simpleKeySize complexKeySlots payloadSize startSlots start s} :
      HashTableComplexKey.create simpleKeySize complexKeySlots payloadSize startSlots = .ok start →
      UsedTable (complexLayout hash text) payloadSize start s → ReachedTable (growing s)
  | directLookup {payloadSize start t} :
      HashTableDirectLookup.create payloadSize = .ok start → start.Used t →
      ReachedTable (directLookup t)

theorem create_counts {slotSize startSlots : ℕ} {start : SharedHashTableState}
    (h : SharedHashTableState.create slotSize startSlots = .ok start) :
    CountsFilled start ∧ start.totalSlotSize < 2 ^ 16 := by
  refine ⟨countsFilled_create h, ?_⟩
  rw [(create_empty h).1]
  exact Nat.mod_lt _ (Nat.two_pow_pos 16)

theorem growing_visitsOnce {s : SharedHashTableState} (hcounts : CountsFilled s)
    (hroom : s.totalSlotSize = 0 → s.inserted ≤ 1) : (growing s).VisitsOnce := by
  apply (growing_walks s).visitsOnce hcounts
  by_cases hzero : s.totalSlotSize = 0
  · exact Or.inr ((hroom hzero).trans (by decide))
  · exact Or.inl (Nat.pos_of_ne_zero hzero)

theorem UsedTable.visitsOnce {κ : Type} {A : KeyAccess κ} {L : KeyLayout A} {payloadSize : ℕ}
    {slotSize startSlots : ℕ} {start s : SharedHashTableState}
    (hcreate : SharedHashTableState.create slotSize startSlots = .ok start)
    (hident : L.keySize = 0 → ∀ d e, L.slotIdent d = L.slotIdent e)
    (h : UsedTable L payloadSize start s) : (growing s).VisitsOnce := by
  obtain ⟨hstart, hsize⟩ := create_counts hcreate
  obtain ⟨hcounts, hkept⟩ := h.counts hstart hsize
  apply growing_visitsOnce hcounts
  rw [hkept]
  exact h.entries_le hcreate hident

/-- Scanning a table in morsels ends and visits every entry once, for every table that inserts and
lookups lead to. -/
theorem table_morsels_visit_once {T : ScannedTable} (h : ReachedTable T) : T.VisitsOnce := by
  cases h with
  | simpleKey hcreate hused =>
    obtain ⟨slots, hshared⟩ := HashTableSimpleKey.create_shared hcreate
    apply UsedTable.visitsOnce hshared _ hused
    rintro rfl d e
    simp [simpleLayout, Bytes.readAt]
  | singleKey hcreate hused =>
    obtain ⟨slots, hshared⟩ := HashTableSimpleKey.create_shared hcreate
    obtain ⟨hcounts, _⟩ := hused.counts (create_counts hshared).1
    exact growing_visitsOnce hcounts fun _ => (hused.single hshared).1
  | complexKey hcreate hused =>
    apply UsedTable.visitsOnce (HashTableComplexKey.create_shared hcreate) _ hused
    intro hzero
    cases hzero
  | @directLookup payloadSize start t hcreate hused =>
    obtain ⟨hcounts, hempty⟩ := hused.counts hcreate
    apply (directLookup_walks t).visitsOnce hcounts.count
    by_cases hzero : t.slotSize = 0
    · refine Or.inr ?_
      show t.numInserted ≤ defaultChunkSize
      rw [hempty hzero]
      exact Nat.zero_le _
    · exact Or.inl (Nat.pos_of_ne_zero hzero)

/-- Three keys in a table that starts with two slots. -/
theorem grown_visited : ∃ start r r' r'', HashTableSimpleKey.create 4 8 2 = .ok start ∧
    start.lookupOrInsert (simpleKey (fun _ => 5) 4) [1, 2, 3, 4] = .ok r ∧
    r.table.lookupOrInsert (simpleKey (fun _ => 5) 4) [5, 6, 7, 8] = .ok r' ∧
    r'.table.lookupOrInsert (simpleKey (fun _ => 5) 4) [9, 10, 11, 12] = .ok r'' ∧
    r''.table.inserted = 3 ∧ (growing r''.table).VisitsOnce := by
  have hkey : ∀ a b c d : UInt8, (simpleLayout (fun _ => 5) 4).ValidKey [a, b, c, d] :=
    fun _ _ _ _ => rfl
  have hcreate : HashTableSimpleKey.create 4 8 2 = .ok _ := rfl
  refine ⟨_, _, _, _, hcreate, rfl, rfl, rfl, rfl, ?_⟩
  exact table_morsels_visit_once (.simpleKey hcreate (.lookupOrInsert (.lookupOrInsert
    (.lookupOrInsert .start (hkey 1 2 3 4) rfl) (hkey 5 6 7 8) rfl) (hkey 9 10 11 12) rfl))

end Tables

end InkFuse.Exec
