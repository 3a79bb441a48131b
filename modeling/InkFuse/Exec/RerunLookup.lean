import InkFuse.Exec.RerunInsert

/-!
A morsel that is looked up and inserted. Every run leaves the table with its old entries and the
keys of the morsel, so that running it again adds nothing, and the run that does not double the
table leaves a pointer for each row.
-/

namespace InkFuse.Exec.Rerun

open InkFuse.Bytes InkFuse.Runtime InkFuse.Runtime.SharedHashTableState

variable {IU κ : Type} {A : KeyAccess κ} {L : KeyLayout A} {isVoid : IU → Bool}
  {op : RuntimeFunctionSubop IU} {keys : List κ} {st st' : State IU κ}

section Found

variable {s t u : SharedHashTableState} {key : κ} {r : Inserted}

def absent (A : KeyAccess κ) (s : SharedHashTableState) (key : κ) : Bool :=
  match s.lookup A key with
  | .ok none => true
  | _ => false

theorem absent_iff (hs : Disabled L s) : absent A s key = true ↔
    ¬ ∃ i, EnabledAt L s (L.ident key) i := by
  unfold absent
  rcases hs.lookup_spec key with ⟨i, hlookup, hi⟩ | ⟨hlookup, hnone⟩
  · rw [hlookup]
    simp only [Bool.false_eq_true, false_iff, not_not]
    exact ⟨i, hi⟩
  · rw [hlookup]
    simpa using hnone

def newKeys (L : KeyLayout A) (s : SharedHashTableState) (keys : List κ) : Finset Bytes :=
  ((keys.filter (absent A s)).map L.ident).toFinset

theorem mem_newKeys (hs : Disabled L s) {q : Bytes} : q ∈ newKeys L s keys ↔
    (∃ key ∈ keys, L.ident key = q) ∧ ¬ ∃ i, EnabledAt L s q i := by
  simp only [newKeys, List.mem_toFinset, List.mem_map, List.mem_filter, absent_iff hs]
  constructor
  · intro h
    obtain ⟨key, ⟨hkey, habsent⟩, rfl⟩ := h
    exact ⟨⟨key, hkey, rfl⟩, habsent⟩
  · intro h
    obtain ⟨⟨key, hkey, rfl⟩, habsent⟩ := h
    exact ⟨key, ⟨hkey, habsent⟩, rfl⟩

theorem newKeys_mono {keys' : List κ} (h : keys' ⊆ keys) :
    (newKeys L s keys').card ≤ (newKeys L s keys).card := by
  apply Finset.card_le_card
  intro q hq
  simp only [newKeys, List.mem_toFinset, List.mem_map, List.mem_filter] at hq ⊢
  obtain ⟨key, ⟨hkey, habsent⟩, rfl⟩ := hq
  exact ⟨key, ⟨h hkey, habsent⟩, rfl⟩

theorem card_newKeys_append (s : SharedHashTableState) (keys : List κ) (key : κ) :
    (newKeys L s (keys ++ [key])).card = (newKeys L s keys).card +
      if absent A s key = true ∧ L.ident key ∉ newKeys L s keys then 1 else 0 := by
  have happend : newKeys L s (keys ++ [key]) = newKeys L s keys ∪
      (([key].filter (absent A s)).map L.ident).toFinset := by
    rw [newKeys, List.filter_append, List.map_append, List.toFinset_append]
    rfl
  rw [happend]
  cases habsent : absent A s key with
  | false => simp [habsent]
  | true =>
    by_cases hmem : L.ident key ∈ newKeys L s keys
    · simp [habsent, hmem]
    · simp [habsent, hmem, Finset.union_comm _ {L.ident key}]

/-- What looking up and inserting keys makes of a table. -/
structure Found (L : KeyLayout A) (s : SharedHashTableState) (keys : List κ)
    (t : SharedHashTableState) : Prop where
  disabled : Disabled L t
  slotSize_eq : t.totalSlotSize = s.totalSlotSize
  enabled_iff : ∀ q, (∃ i, EnabledAt L t q i) ↔
    (∃ key ∈ keys, L.ident key = q) ∨ ∃ i, EnabledAt L s q i
  old : ∀ e, s.HasEntry e → t.HasEntry e
  new : ∀ e, t.HasEntry e →
    s.HasEntry e ∨ ∃ key ∈ keys, e = freshEntry A s.totalSlotSize key
  inserted_eq : t.inserted = s.inserted + (newKeys L s keys).card

theorem found_nil (hs : Disabled L s) : Found L s [] s where
  disabled := hs
  slotSize_eq := rfl
  enabled_iff := by simp
  old := fun _ h => h
  new := fun _ h => Or.inl h
  inserted_eq := by simp [newKeys]

theorem Found.row (hs : Disabled L s) (h : Found L s keys t) (hr : InsertsKey L t key r)
    (hadds : AddsEntry A t key r) : Found L s (keys ++ [key]) r.table := by
  refine ⟨hr.disabled, hr.slotSize_eq.trans h.slotSize_eq, fun q => ?_, fun e he => ?_,
    fun e he => ?_, ?_⟩
  · rw [hr.enabled_iff, h.enabled_iff]
    simp only [List.mem_append, List.mem_singleton]
    constructor
    · intro hq
      rcases hq with rfl | ⟨k, hk, rfl⟩ | hold
      · exact Or.inl ⟨key, Or.inr rfl, rfl⟩
      · exact Or.inl ⟨k, Or.inl hk, rfl⟩
      · exact Or.inr hold
    · intro hq
      rcases hq with ⟨k, hk | rfl, rfl⟩ | hold
      · exact Or.inr (Or.inl ⟨k, hk, rfl⟩)
      · exact Or.inl rfl
      · exact Or.inr (Or.inr hold)
  · exact (hadds.entry_iff e).mpr (Or.inr (h.old e he))
  · rcases (hadds.entry_iff e).mp he with ⟨_, rfl⟩ | hold
    · exact Or.inr ⟨key, by simp, by rw [h.slotSize_eq]⟩
    · rcases h.new e hold with hold | ⟨k, hk, rfl⟩
      · exact Or.inl hold
      · exact Or.inr ⟨k, List.mem_append_left _ hk, rfl⟩
  · have hcard := card_newKeys_append (L := L) s keys key
    have hnew : r.isNewKey = true ↔ absent A s key = true ∧ L.ident key ∉ newKeys L s keys := by
      rw [hr.new_iff, ← not_exists, h.enabled_iff, mem_newKeys hs, absent_iff hs]
      constructor
      · intro hnone
        exact ⟨fun hold => hnone (Or.inr hold), fun hmem => hnone (Or.inl hmem.1)⟩
      · intro hnone hsome
        rcases hsome with hmem | hold
        · exact hnone.2 ⟨hmem, hnone.1⟩
        · exact hnone.1 hold
    rw [hr.inserted_eq, h.inserted_eq, hcard]
    simp only [hnew, Nat.add_assoc]

/-- Doing it again changes nothing. -/
theorem Found.again (h : Found L s keys t) (h' : Found L t keys u) : Found L s keys u := by
  have hnone : newKeys L t keys = ∅ := by
    rw [Finset.eq_empty_iff_forall_notMem]
    intro q hq
    obtain ⟨hkey, habsent⟩ := (mem_newKeys h.disabled).mp hq
    exact habsent ((h.enabled_iff q).mpr (Or.inl hkey))
  refine ⟨h'.disabled, h'.slotSize_eq.trans h.slotSize_eq, fun q => ?_,
    fun e he => h'.old e (h.old e he), fun e he => ?_, ?_⟩
  · rw [h'.enabled_iff, h.enabled_iff, ← or_assoc, or_self]
  · rcases h'.new e he with hold | ⟨key, hkey, rfl⟩
    · exact h.new e hold
    · exact Or.inr ⟨key, hkey, by rw [h.slotSize_eq]⟩
  · rw [h'.inserted_eq, hnone, Finset.card_empty, h.inserted_eq, Nat.add_zero]

end Found

section Rows

/-- The cell points to the slot of the current storage that holds the key. -/
def PointsTo (L : KeyLayout A) (st : State IU κ) (cell : Cell κ) (key : κ) : Prop :=
  ∃ slot, cell = .pointer ⟨st.storage, slot⟩ ∧ EnabledAt L st.table (L.ident key) slot

structure RowsFound (L : KeyLayout A) (isVoid : IU → Bool) (op : RuntimeFunctionSubop IU)
    (keys : List κ) (st : State IU κ) (n : ℕ) (st' : State IU κ) : Prop
    extends RowsCounted L isVoid op keys st n st' where
  found : Found L st.table (keys.take n) st'.table
  restartFlag_iff : st'.restartFlag = true ↔ 0 < n ∧ st.table.maxFill ≤
    st.table.inserted + (newKeys L st.table (keys.take (n - 1))).card
  pointers : ∀ iu, op.pointers = some iu → ∃ column, st'.chunk iu = some column ∧
    column.size = n ∧ (st'.restartFlag = false →
      ∀ i key, i < n → keys[i]? = some key → PointsTo L st' (column.rawData i) key)

variable [DecidableEq IU]

theorem PointsTo.afterRow {key k : κ} {cell : Cell κ} {r : Inserted}
    (hadds : AddsEntry A st.table key r) (hgrown : r.grown = false) (h : PointsTo L st cell k) :
    PointsTo L (st.afterRow op r) cell k := by
  obtain ⟨slot, rfl, hslot⟩ := h
  refine ⟨slot, ?_, hadds.enabledAt hgrown hslot⟩
  show Cell.pointer ⟨st.storage, slot⟩ =
    .pointer ⟨if r.grown then st.storage + 1 else st.storage, slot⟩
  rw [hgrown, if_neg Bool.false_ne_true]

theorem RowsFound.row {n : ℕ} {key : κ} (hs : Disabled L st.table)
    (hfct : op.fct = .htLookupOrInsert) (hvalid : L.ValidKey key) (hkey : keys[n]? = some key)
    (h : RowsFound L isVoid op keys st n st') :
    ∃ st'', runRow A isVoid op st' n = .ok st'' ∧ RowsFound L isVoid op keys st (n + 1) st'' := by
  obtain ⟨hn, hget⟩ := List.getElem?_eq_some_iff.mp hkey
  have htake : keys.take (n + 1) = keys.take n ++ [key] := by
    rw [← hget, List.take_append_getElem hn]
  obtain ⟨r, hr, hcounts⟩ := h.found.disabled.counted.lookupOrInsert_counts hvalid
  obtain ⟨hspec, hadds⟩ := h.found.disabled.lookupOrInsert_adds hvalid hr
  have hcall : op.fct.call A st'.table key = .ok r := by rw [hfct]; exact hr
  refine ⟨_, runRow_eq h.ready hkey hcall, h.toRowsCounted.row hcounts (by simp [hfct]), ?_, ?_,
    fun iu hiu => ?_⟩
  · rw [htake]
    exact h.found.row hs hspec hadds
  · show (st'.restartFlag || r.grown) = true ↔ _
    have hmono := newKeys_mono (L := L) (s := st.table)
      (List.take_subset_take_left keys (Nat.sub_le n 1))
    have hins := h.found.inserted_eq
    cases hflag : st'.restartFlag with
    | true =>
      have hfull := (h.restartFlag_iff.mp hflag).2
      simp only [Bool.true_or, Nat.zero_lt_succ, true_and, Nat.add_sub_cancel, true_iff]
      omega
    | false =>
      have hcap := h.capacity_eq hflag
      have hmax := hs.maxFill_eq
      have hmax' := h.found.disabled.maxFill_eq
      rw [Bool.false_or, hadds.grown_iff]
      simp only [Nat.zero_lt_succ, true_and, Nat.add_sub_cancel]
      omega
  · obtain ⟨column, hcolumn, hsize, hpoints⟩ := h.pointers iu hiu
    refine ⟨_, by simp only [State.afterRow, hiu, if_true, hcolumn, Option.map_some]; rfl, ?_,
      fun hflag i k hi hk => ?_⟩
    · show column.size + 1 = n + 1
      rw [hsize]
    · obtain ⟨hold, hgrown⟩ := Bool.or_eq_false_iff.mp hflag
      show PointsTo L _ (Function.update column.rawData column.size _ i) k
      by_cases hin : i = n
      · obtain rfl : k = key := by
          rw [hin, hkey] at hk
          exact (Option.some.inj hk).symm
        rw [hin, hsize, Function.update_self]
        exact ⟨r.slot, rfl, hspec.enabledAt⟩
      · rw [hsize, Function.update_of_ne hin]
        exact (hpoints hold i k (by omega) hk).afterRow hadds hgrown

/-- A run of a morsel finds all its keys. -/
theorem runMorsel_found (hs : Disabled L st.table) (hfct : op.fct = .htLookupOrInsert)
    (hvalid : ∀ key ∈ keys, L.ValidKey key) (hready : Ready isVoid op keys st)
    (hflag : st.restartFlag = false)
    (hempty : ∀ iu, op.pointers = some iu → ∃ column, st.chunk iu = some column ∧ column.size = 0) :
    ∃ st', runMorsel A isVoid op st = .ok st' ∧ RowsFound L isVoid op keys st keys.length st' := by
  apply runMorsel_induct hready.start_eq hready.stop_eq
  · refine ⟨rowsCounted_zero hready hs.counted hflag, found_nil hs, by simp [hflag],
      fun iu hiu => ?_⟩
    obtain ⟨column, hcolumn, hsize⟩ := hempty iu hiu
    exact ⟨column, hcolumn, hsize, fun _ i key hi => absurd hi (Nat.not_lt_zero i)⟩
  · intro i key st' hkey h
    exact h.row hs hfct (hvalid key (List.mem_of_getElem? hkey)) hkey

end Rows

section Runs

variable [DecidableEq IU]

/-- A further run starts with an empty output column and the rest as it was. -/
def State.emptied (st : State IU κ) (iu : IU) (column : Column κ) : State IU κ :=
  ({ st with restartFlag := false } : State IU κ).setColumn iu { column with size := 0 }

theorem rerun_eq {iu : IU} (hpointers : op.pointers = some iu) (hready : Ready isVoid op keys st) :
    ∃ column, st.chunk iu = some column ∧
      rerun A isVoid op st = runMorsel A isVoid op (st.emptied iu column) := by
  obtain ⟨hvoid, _, column, hcolumn⟩ := hready.pointers iu hpointers
  have hflagless : ({ st with restartFlag := false } : State IU κ).chunk iu = some column := hcolumn
  refine ⟨column, hcolumn, ?_⟩
  rw [rerun, prepareForRerun_pointers hpointers hvoid hflagless]
  rfl

theorem Ready.emptied {iu : IU} (hready : Ready isVoid op keys st)
    (hpointers : op.pointers = some iu) (column : Column κ) :
    Ready isVoid op keys (st.emptied iu column) := by
  obtain ⟨hvoid, hne, _⟩ := hready.pointers iu hpointers
  refine ⟨hready.start_eq, hready.stop_eq, ?_, fun iu' hiu' => ?_⟩
  · obtain ⟨keyColumn, hcolumn, hrows⟩ := hready.keyColumn
    exact ⟨keyColumn, (Function.update_of_ne (Ne.symm hne) _ _).trans hcolumn, hrows⟩
  · obtain rfl := Option.some.inj (hiu'.symm.trans hpointers)
    exact ⟨hvoid, hne, _, Function.update_self ..⟩

/-- What some runs of a morsel have done. -/
structure Resolves (L : KeyLayout A) (isVoid : IU → Bool) (op : RuntimeFunctionSubop IU)
    (keys : List κ) (st st' : State IU κ) : Prop where
  ready : Ready isVoid op keys st'
  found : Found L st.table keys st'.table
  pointers : ∀ iu, op.pointers = some iu → ∃ column, st'.chunk iu = some column ∧
    column.size = keys.length ∧ (st'.restartFlag = false →
      ∀ i key, keys[i]? = some key → PointsTo L st' (column.rawData i) key)

omit [DecidableEq IU] in
theorem RowsFound.resolves (h : RowsFound L isVoid op keys st keys.length st') :
    Resolves L isVoid op keys st st' := by
  refine ⟨h.ready, ?_, fun iu hiu => ?_⟩
  · have hfound := h.found
    rwa [List.take_length] at hfound
  · obtain ⟨column, hcolumn, hsize, hpoints⟩ := h.pointers iu hiu
    refine ⟨column, hcolumn, hsize, fun hflag i key hkey => hpoints hflag i key ?_ hkey⟩
    exact (List.getElem?_eq_some_iff.mp hkey).1

omit [DecidableEq IU] in
theorem RowsCounted.grows {n : ℕ} (h : RowsCounted L isVoid op keys st n st') : Grows n st st' :=
  ⟨h.inserted_le, h.doubled⟩

theorem Resolves.rerun {st₁ : State IU κ} (hfct : op.fct = .htLookupOrInsert)
    (hpointers : op.pointers ≠ none) (hvalid : ∀ key ∈ keys, L.ValidKey key)
    (h : Resolves L isVoid op keys st st₁) :
    ∃ st₂, rerun A isVoid op st₁ = .ok st₂ ∧ Resolves L isVoid op keys st st₂ ∧
      Grows keys.length st₁ st₂ := by
  obtain ⟨iu, hiu⟩ := Option.ne_none_iff_exists'.mp hpointers
  obtain ⟨column, hcolumn, hrerun⟩ := rerun_eq (A := A) hiu h.ready
  have hempty : ∀ iu', op.pointers = some iu' → ∃ column',
      (st₁.emptied iu column).chunk iu' = some column' ∧ column'.size = 0 := by
    intro iu' hiu'
    obtain rfl := Option.some.inj (hiu'.symm.trans hiu)
    exact ⟨_, Function.update_self .., rfl⟩
  have hdisabled : Disabled L (st₁.emptied iu column).table := h.found.disabled
  obtain ⟨st₂, hrun, hrows⟩ := runMorsel_found hdisabled hfct hvalid (h.ready.emptied hiu column)
    rfl hempty
  have hresolves := hrows.resolves
  refine ⟨st₂, hrerun.trans hrun, ⟨hresolves.ready, h.found.again hresolves.found,
    hresolves.pointers⟩, hrows.toRowsCounted.grows⟩

/-- The interpreter ends, with a pointer for each row. -/
theorem runInterpreter_resolves (hs : Disabled L st.table) (hfct : op.fct = .htLookupOrInsert)
    (hpointers : op.pointers ≠ none) (hvalid : ∀ key ∈ keys, L.ValidKey key)
    (hinput : Input isVoid op keys st) :
    ∃ fuel st', (∀ k, runInterpreter A isVoid op (fuel + k) st = some (.ok st')) ∧
      st'.restartFlag = false ∧ Resolves L isVoid op keys st st' := by
  have hdisabled : Disabled L (st.picked keys.length).table := hs
  obtain ⟨st₁, hrun, hrows⟩ := runMorsel_found hdisabled hfct hvalid hinput.ready
    hinput.restartFlag_eq fun iu hiu => (hinput.pointers iu hiu).2.2
  have hresolves := hrows.resolves
  have hstart : Resolves L isVoid op keys st st₁ :=
    ⟨hresolves.ready, hresolves.found, hresolves.pointers⟩
  obtain ⟨fuel, st', hloop, hst', hflag⟩ := retryLoop_terminates
    (P := Resolves L isVoid op keys st)
    (fun st' h => by
      have hbound := h.found.disabled.bound
      have hmax := h.found.disabled.maxFill_eq
      omega)
    (fun st' h => by
      have htwo := h.found.disabled.two_le
      omega)
    (fun st' h _ => h.rerun hfct hpointers hvalid) st₁ hstart
  refine ⟨fuel, st', fun k => ?_, hflag, hst'⟩
  rw [runInterpreter, hinput.pickMorsel]
  show runMorselWithRetry A isVoid op (fuel + k) (st.picked keys.length) = _
  rw [runMorselWithRetry, hrun]
  exact retryLoop_more hloop k

end Runs

section SimpleKey

/-- What a morsel with the output column `iu` leaves to its client. -/
structure SurvivesGrowth (hash : Bytes → UInt64) (keySize : ℕ) (iu : IU) (keys : List Bytes)
    (st st' : State IU Bytes) : Prop where
  restartFlag_eq : st'.restartFlag = false
  pointers : ∃ column, st'.chunk iu = some column ∧ column.size = keys.length ∧
    ∀ i key, keys[i]? = some key → ∃ slot, column.rawData i = .pointer ⟨st'.storage, slot⟩ ∧
      slot < st'.table.capacity ∧ readAt (st'.table.data slot) 0 keySize = key ∧
      st'.table.lookup (simpleKey hash keySize) key = .ok (some slot)
  lookup_none_iff : ∀ key, key.length = keySize →
    (st'.table.lookup (simpleKey hash keySize) key = .ok none ↔
      st.table.lookup (simpleKey hash keySize) key = .ok none ∧ key ∉ keys)
  old : ∀ key i, st.table.lookup (simpleKey hash keySize) key = .ok (some i) →
    ∃ j, st'.table.lookup (simpleKey hash keySize) key = .ok (some j) ∧
      st'.table.data j = st.table.data i
  new : ∀ key ∈ keys, st.table.lookup (simpleKey hash keySize) key = .ok none →
    ∃ j, st'.table.lookup (simpleKey hash keySize) key = .ok (some j) ∧
      st'.table.data j = freshSlot (simpleKey hash keySize) st.table.totalSlotSize key
  size_eq : st'.table.size = st.table.size +
    (keys.filter (absent (simpleKey hash keySize) st.table)).toFinset.card

theorem simpleLayout_ident (hash : Bytes → UInt64) {keySize : ℕ} {key : Bytes}
    (hkey : key.length = keySize) : (simpleLayout hash keySize).ident key = key := by
  show readAt key 0 keySize = key
  rw [← hkey, readAt_all]

theorem Found.lookup_none_iff {hash : Bytes → UInt64} {keySize : ℕ} {keys : List Bytes}
    {s t : SharedHashTableState} (hs : Disabled (simpleLayout hash keySize) s)
    (h : Found (simpleLayout hash keySize) s keys t) (hkeys : ∀ key ∈ keys, key.length = keySize)
    {key : Bytes} (hkey : key.length = keySize) :
    t.lookup (simpleKey hash keySize) key = .ok none ↔
      s.lookup (simpleKey hash keySize) key = .ok none ∧ key ∉ keys := by
  rw [h.disabled.lookup_none_iff, hs.lookup_none_iff, ← not_exists, ← not_exists, h.enabled_iff,
    not_or, and_comm]
  refine and_congr_right fun _ => not_congr ⟨fun hex => ?_, fun hmem => ⟨key, hmem, rfl⟩⟩
  obtain ⟨k, hk, hident⟩ := hex
  rw [simpleLayout_ident hash (hkeys k hk), simpleLayout_ident hash hkey] at hident
  exact hident ▸ hk

theorem Found.lookup_old {hash : Bytes → UInt64} {keySize : ℕ} {keys : List Bytes}
    {s t : SharedHashTableState} (hs : Disabled (simpleLayout hash keySize) s)
    (h : Found (simpleLayout hash keySize) s keys t) {key : Bytes} {i : ℕ}
    (hlookup : s.lookup (simpleKey hash keySize) key = .ok (some i)) :
    ∃ j, t.lookup (simpleKey hash keySize) key = .ok (some j) ∧ t.data j = s.data i := by
  obtain ⟨hi, e, he, henabled, hident⟩ := (hs.lookup_iff key i).mp hlookup
  obtain ⟨j, hj, he'⟩ := h.old e ⟨i, hi, he⟩
  refine ⟨j, (h.disabled.lookup_iff key j).mpr ⟨hj, e, he', henabled, hident⟩, ?_⟩
  have hs' := (entries_eq_some.mp he).2
  have ht' := (entries_eq_some.mp he').2
  exact congrArg Prod.fst (ht'.symm.trans hs')

theorem Found.lookup_new {hash : Bytes → UInt64} {keySize : ℕ} {keys : List Bytes}
    {s t : SharedHashTableState} (hs : Disabled (simpleLayout hash keySize) s)
    (h : Found (simpleLayout hash keySize) s keys t) (hkeys : ∀ key ∈ keys, key.length = keySize)
    {key : Bytes} (hmem : key ∈ keys) (hlookup : s.lookup (simpleKey hash keySize) key = .ok none) :
    ∃ j, t.lookup (simpleKey hash keySize) key = .ok (some j) ∧
      t.data j = freshSlot (simpleKey hash keySize) s.totalSlotSize key := by
  have habsent := (hs.lookup_none_iff key).mp hlookup
  obtain ⟨j, hj, e, he, henabled, hident⟩ :=
    (h.enabled_iff ((simpleLayout hash keySize).ident key)).mpr (Or.inl ⟨key, hmem, rfl⟩)
  refine ⟨j, (h.disabled.lookup_iff key j).mpr ⟨hj, e, he, henabled, hident⟩, ?_⟩
  have hdata : t.data j = e.1 := by rw [(entries_eq_some.mp he).2]
  rw [hdata]
  rcases h.new e ⟨j, hj, he⟩ with hold | ⟨k, hk, hfresh⟩
  · obtain ⟨i, hi, he'⟩ := hold
    exact absurd ⟨hi, e, he', henabled, hident⟩ (habsent i)
  · -- The slot stores the key that it was filled with.
    have hvalid : (simpleLayout hash keySize).ValidKey k := hkeys k hk
    have hstored : (simpleLayout hash keySize).slotIdent e.1 =
        (simpleLayout hash keySize).ident k := by
      rw [hfresh]
      exact (simpleLayout hash keySize).ident_store _ k hvalid
        (by rw [List.length_replicate]; exact hs.keySize_le)
    have heq := hident.symm.trans hstored
    rw [simpleLayout_ident hash (hkeys key hmem), simpleLayout_ident hash (hkeys k hk)] at heq
    rw [hfresh, heq]
    rfl

theorem newKeys_simple (hash : Bytes → UInt64) {keySize : ℕ} {keys : List Bytes}
    (hkeys : ∀ key ∈ keys, key.length = keySize) (s : SharedHashTableState) :
    newKeys (simpleLayout hash keySize) s keys =
      (keys.filter (absent (simpleKey hash keySize) s)).toFinset := by
  rw [newKeys, simpleLayout_map_ident hash]
  exact fun key hkey => hkeys key (List.mem_filter.mp hkey).1

theorem Resolves.survivesGrowth {hash : Bytes → UInt64} {keySize : ℕ} {keys : List Bytes} {iu : IU}
    {st st' : State IU Bytes} (hs : Disabled (simpleLayout hash keySize) st.table)
    (hkeys : ∀ key ∈ keys, key.length = keySize) (hpointers : op.pointers = some iu)
    (hflag : st'.restartFlag = false)
    (h : Resolves (simpleLayout hash keySize) isVoid op keys st st') :
    SurvivesGrowth hash keySize iu keys st st' := by
  refine ⟨hflag, ?_, fun key hkey => h.found.lookup_none_iff hs hkeys hkey,
    fun key i hlookup => h.found.lookup_old hs hlookup,
    fun key hmem hlookup => h.found.lookup_new hs hkeys hmem hlookup, ?_⟩
  · obtain ⟨column, hcolumn, hsize, hpoints⟩ := h.pointers iu hpointers
    refine ⟨column, hcolumn, hsize, fun i key hkey => ?_⟩
    obtain ⟨slot, hcell, hslot⟩ := hpoints hflag i key hkey
    obtain ⟨hlt, hdata⟩ := hslot.data_ident
    refine ⟨slot, hcell, hlt, ?_, (h.found.disabled.lookup_iff key slot).mpr hslot⟩
    rw [simpleLayout_ident hash (hkeys key (List.mem_of_getElem? hkey))] at hdata
    exact hdata
  · rw [← newKeys_simple hash hkeys]
    exact h.found.inserted_eq

/-- A morsel that is looked up and inserted ends with a pointer for each of its rows, however often
the table is doubled on the way. -/
theorem lookupOrInsert_survives_growth (IU : Type) [DecidableEq IU] (hash : Bytes → UInt64)
    {keySize payloadSize startSlots : ℕ}
    (hfit : keySize + payloadSize < 2 ^ 16) (hpow : startSlots.isPowerOfTwo)
    (htwo : 2 ≤ startSlots) :
    ∃ start, HashTableSimpleKey.create keySize payloadSize startSlots = .ok start ∧
      ∀ (isVoid : IU → Bool) (op : RuntimeFunctionSubop IU) (iu : IU) (keys : List Bytes)
        (st : State IU Bytes),
        TableReachable (simpleLayout hash keySize) payloadSize start st.table →
        op.fct = .htLookupOrInsert → op.pointers = some iu → Input isVoid op keys st →
        (∀ key ∈ keys, key.length = keySize) →
        ∃ fuel st', (∀ k, runInterpreter (simpleKey hash keySize) isVoid op (fuel + k) st =
          some (.ok st')) ∧ SurvivesGrowth hash keySize iu keys st st' := by
  obtain ⟨start, hcreate, hremoves⟩ := HashTableSimpleKey.create_removes hash hfit hpow htwo
  refine ⟨start, hcreate, fun isVoid op iu keys st hreach hfct hpointers hinput hkeys => ?_⟩
  have hs := hreach.disabled hremoves.disabled
  obtain ⟨fuel, st', hrun, hflag, hresolves⟩ := runInterpreter_resolves hs hfct
    (by rw [hpointers]; exact Option.some_ne_none iu) hkeys hinput
  exact ⟨fuel, st', hrun, hresolves.survivesGrowth hs hkeys hpointers hflag⟩

theorem lookupOrInsert_survives_growth_two :
    ∃ start, HashTableSimpleKey.create 1 0 2 = .ok start ∧
      ∃ fuel st', (∀ k, runInterpreter (simpleKey (fun _ => 0) 1) (fun _ => false)
        ⟨.htLookupOrInsert, some true, false, []⟩ (fuel + k) (chunkOf start [[1], [2], [1]]) =
          some (.ok st')) ∧
        SurvivesGrowth (fun _ => 0) 1 true [[1], [2], [1]] (chunkOf start [[1], [2], [1]]) st' := by
  obtain ⟨start, hcreate, h⟩ := lookupOrInsert_survives_growth Bool (fun _ => 0)
    (by decide : 1 + 0 < 2 ^ 16) (⟨1, rfl⟩ : (2 : ℕ).isPowerOfTwo) (by decide)
  have hinput := input_chunkOf .htLookupOrInsert (some true) (by decide) start [[1], [2], [1]]
  exact ⟨start, hcreate, h _ _ true _ _ (.start) rfl rfl hinput (by decide)⟩

/-- Behind a removal of a key that is not in the table, the morsel gets a pointer to a slot that
does not hold its key. -/
theorem lookupOrInsert_misses_key :
    ∃ start t st', HashTableSimpleKey.create 1 0 4 = .ok start ∧
      start.lookupDisable (simpleKey (fun _ => 0) 1) [7] = .ok (t, none) ∧
      (∀ fuel, runInterpreter (simpleKey (fun _ => 0) 1) (fun _ => false)
        ⟨.htLookupOrInsert, some true, false, []⟩ fuel (chunkOf t [[7]]) = some (.ok st')) ∧
      ¬ SurvivesGrowth (fun _ => 0) 1 true [[7]] (chunkOf t [[7]]) st' := by
  have hinsert : ∃ start t r, HashTableSimpleKey.create 1 0 4 = .ok start ∧
      start.lookupDisable (simpleKey (fun _ => 0) 1) [7] = .ok (t, none) ∧
      t.lookupOrInsert (simpleKey (fun _ => 0) 1) [7] = .ok r ∧ r.grown = false ∧
      r.table.lookup (simpleKey (fun _ => 0) 1) [7] = .ok none :=
    ⟨_, _, _, rfl, rfl, rfl, rfl, rfl⟩
  obtain ⟨start, t, r, hcreate, hdisable, hr, hgrown, hlookup⟩ := hinsert
  have hinput := input_chunkOf .htLookupOrInsert (some true) (by decide) t [[7]]
  have hrow := runRow_eq hinput.ready (i := 0) rfl hr
  let st' := ((chunkOf t [[7]]).picked 1).afterRow ⟨.htLookupOrInsert, some true, false, []⟩ r
  have hrun : runMorsel (simpleKey (fun _ => 0) 1) (fun _ => false)
      ⟨.htLookupOrInsert, some true, false, []⟩ ((chunkOf t [[7]]).picked 1) = .ok st' := by
    show (runRow _ _ _ ((chunkOf t [[7]]).picked 1) 0 >>= fun st => List.foldlM _ st []) = _
    exact (congrArg (· >>= fun st => List.foldlM _ st []) hrow).trans rfl
  refine ⟨start, t, st', hcreate, hdisable, fun fuel => ?_, fun h => ?_⟩
  · rw [runInterpreter, hinput.pickMorsel]
    show runMorselWithRetry _ _ _ fuel ((chunkOf t [[7]]).picked 1) = _
    rw [runMorselWithRetry, hrun]
    exact retryLoop_done hgrown fuel
  · obtain ⟨_, _, _, hpoints⟩ := h.pointers
    obtain ⟨slot, _, _, _, hfound⟩ := hpoints 0 [7] rfl
    have hsome := hlookup.symm.trans hfound
    cases hsome

end SimpleKey

end InkFuse.Exec.Rerun
