import InkFuse.Exec.RerunLoop

/-!
A morsel that is inserted without a lookup. Its rows are added once if the table has room for all
of them, and once more with every further run otherwise.
-/

namespace InkFuse.Exec.Rerun

open InkFuse.Bytes InkFuse.Runtime InkFuse.Runtime.SharedHashTableState

variable {IU κ : Type} {A : KeyAccess κ} {L : KeyLayout A} {isVoid : IU → Bool}
  {op : RuntimeFunctionSubop IU} {keys : List κ} {st st' : State IU κ}

section Input

/-- The chunk in front of the interpreter: the keys of the morsel and an empty output column. -/
structure Input (isVoid : IU → Bool) (op : RuntimeFunctionSubop IU) (keys : List κ)
    (st : State IU κ) : Prop where
  restartFlag_eq : st.restartFlag = false
  keyColumn : ∃ column, st.chunk op.key = some column ∧ column.size = keys.length ∧
    ∀ i key, keys[i]? = some key → column.rawData i = .key key
  pointers : ∀ iu, op.pointers = some iu → isVoid iu = false ∧ iu ≠ op.key ∧
    ∃ column, st.chunk iu = some column ∧ column.size = 0

def State.picked (st : State IU κ) (n : ℕ) : State IU κ := { st with start := 0, stop := n }

theorem Input.pickMorsel (h : Input isVoid op keys st) :
    pickMorsel op st = .ok (st.picked keys.length) := by
  obtain ⟨column, hcolumn, hsize, _⟩ := h.keyColumn
  simp only [Rerun.pickMorsel, State.getColumn, hcolumn, hsize, bind, Except.bind, State.picked]

theorem Input.ready (h : Input isVoid op keys st) :
    Ready isVoid op keys (st.picked keys.length) := by
  refine ⟨rfl, rfl, ?_, fun iu hiu => ?_⟩
  · obtain ⟨column, hcolumn, _, hrows⟩ := h.keyColumn
    exact ⟨column, hcolumn, hrows⟩
  · obtain ⟨hvoid, hne, column, hcolumn, _⟩ := h.pointers iu hiu
    exact ⟨hvoid, hne, column, hcolumn⟩

end Input

section Cleared

structure Cleared (st st' : State IU κ) : Prop where
  table_eq : st'.table = st.table
  storage_eq : st'.storage = st.storage
  restartFlag_eq : st'.restartFlag = st.restartFlag
  start_eq : st'.start = st.start
  stop_eq : st'.stop = st.stop
  rawData_eq : ∀ iu, (st'.chunk iu).map Column.rawData = (st.chunk iu).map Column.rawData

theorem Cleared.refl (st : State IU κ) : Cleared st st :=
  ⟨rfl, rfl, rfl, rfl, rfl, fun _ => rfl⟩

theorem Cleared.trans {st₁ st₂ st₃ : State IU κ} (h : Cleared st₁ st₂) (h' : Cleared st₂ st₃) :
    Cleared st₁ st₃ where
  table_eq := h'.table_eq.trans h.table_eq
  storage_eq := h'.storage_eq.trans h.storage_eq
  restartFlag_eq := h'.restartFlag_eq.trans h.restartFlag_eq
  start_eq := h'.start_eq.trans h.start_eq
  stop_eq := h'.stop_eq.trans h.stop_eq
  rawData_eq := fun iu => (h'.rawData_eq iu).trans (h.rawData_eq iu)

theorem cleared_foldlM {α : Type} {f : State IU κ → α → Except Fault (State IU κ)}
    (hf : ∀ st a st', f st a = .ok st' → Cleared st st') (l : List α)
    (h : l.foldlM f st = .ok st') : Cleared st st' := by
  induction l generalizing st with
  | nil =>
    cases h
    exact Cleared.refl _
  | cons a l ih =>
    rw [List.foldlM_cons] at h
    cases hstep : f st a with
    | error fault =>
      rw [hstep] at h
      cases h
    | ok st₁ =>
      rw [hstep] at h
      exact (hf st a st₁ hstep).trans (ih h)

variable [DecidableEq IU]

theorem clearColumn_cases {iu : Option IU} (h : clearColumn st iu = .ok st') :
    ∃ i column, iu = some i ∧ st.chunk i = some column ∧
      st' = st.setColumn i { column with size := 0 } := by
  cases iu with
  | none => cases h
  | some i =>
    cases hcolumn : st.chunk i with
    | none => simp [clearColumn, State.getColumn, hcolumn, bind, Except.bind] at h
    | some column =>
      simp only [clearColumn, State.getColumn, hcolumn, bind, Except.bind, Except.ok.injEq] at h
      exact ⟨i, column, rfl, hcolumn, h.symm⟩

theorem clearColumn_cleared (iu : Option IU) (h : clearColumn st iu = .ok st') :
    Cleared st st' := by
  obtain ⟨i, column, rfl, hcolumn, rfl⟩ := clearColumn_cases h
  refine ⟨rfl, rfl, rfl, rfl, rfl, fun iu => ?_⟩
  show Option.map _ (Function.update st.chunk i _ iu) = _
  by_cases hiu : iu = i
  · subst hiu
    simp [hcolumn]
  · rw [Function.update_of_ne hiu]

theorem clearSink_cleared (subop : Subop IU) (h : clearSink st subop = .ok st') :
    Cleared st st' := by
  unfold clearSink at h
  split at h
  · exact cleared_foldlM (fun _ iu _ => clearColumn_cleared iu) _ h
  · cases h
    exact Cleared.refl st

theorem prepareForRerun_cleared (h : prepareForRerun isVoid op st = .ok st') : Cleared st st' :=
  cleared_foldlM (fun _ subop _ => clearSink_cleared subop) _ h

omit [DecidableEq IU] in
theorem Cleared.ready (h : Cleared st st') (hready : Ready isVoid op keys st) :
    Ready isVoid op keys st' := by
  have hcolumns : ∀ iu column, st.chunk iu = some column →
      ∃ column', st'.chunk iu = some column' ∧ column'.rawData = column.rawData := by
    intro iu column hcolumn
    have hraw := h.rawData_eq iu
    rw [hcolumn, Option.map_some, Option.map_eq_some_iff] at hraw
    exact hraw
  refine ⟨h.start_eq.trans hready.start_eq, h.stop_eq.trans hready.stop_eq, ?_, fun iu hiu => ?_⟩
  · obtain ⟨column, hcolumn, hrows⟩ := hready.keyColumn
    obtain ⟨column', hcolumn', hraw⟩ := hcolumns _ _ hcolumn
    exact ⟨column', hcolumn', fun i key hkey => by rw [hraw, hrows i key hkey]⟩
  · obtain ⟨hvoid, hne, column, hcolumn⟩ := hready.pointers iu hiu
    obtain ⟨column', hcolumn', _⟩ := hcolumns _ _ hcolumn
    exact ⟨hvoid, hne, column', hcolumn'⟩

end Cleared

section Flag

variable [DecidableEq IU]

omit [DecidableEq IU] in
/-- A morsel of insertions fits into the table, or its first run sets the flag. -/
theorem RowsCounted.insert_restartFlag (hs : Counted L st.table) (hfct : op.fct = .htInsert)
    (h : RowsCounted L isVoid op keys st keys.length st') :
    st'.restartFlag = false ↔ st.table.inserted + keys.length ≤ st.table.maxFill := by
  have hmax := hs.maxFill_eq
  have hmax' := h.counted.maxFill_eq
  have hbound := h.counted.bound
  have hins := h.inserted_eq hfct
  constructor
  · intro hflag
    have hcap := h.capacity_eq hflag
    omega
  · intro hroom
    cases hflag : st'.restartFlag with
    | false => rfl
    | true =>
      have hfull := (h.doubled hflag).2
      omega

/-- A further run is one from a state that only differs in the sizes of columns. -/
theorem rerun_cases (hkeys : ∀ key ∈ keys, L.ValidKey key) (hready : Ready isVoid op keys st)
    (hs : Counted L st.table) (h : rerun A isVoid op st = .ok st') :
    ∃ st₁, prepareForRerun isVoid op { st with restartFlag := false } = .ok st₁ ∧
      st₁.table = st.table ∧ RowsCounted L isVoid op keys st₁ keys.length st' := by
  simp only [rerun] at h
  cases hprepare : prepareForRerun isVoid op { st with restartFlag := false } with
  | error fault =>
    rw [hprepare] at h
    cases h
  | ok st₁ =>
    rw [hprepare] at h
    have hcleared := prepareForRerun_cleared hprepare
    have htable : st₁.table = st.table := hcleared.table_eq
    have hready₀ : Ready isVoid op keys { st with restartFlag := false } :=
      ⟨hready.start_eq, hready.stop_eq, hready.keyColumn, hready.pointers⟩
    obtain ⟨st₂, hrun, hrows⟩ := runMorsel_counted hkeys (hcleared.ready hready₀) (htable ▸ hs)
      hcleared.restartFlag_eq
    obtain rfl := Except.ok.inj (hrun.symm.trans h)
    exact ⟨st₁, rfl, htable, hrows⟩

/-- Every further run of the morsel inserts its keys once more. -/
theorem rerun_inserts (hkeys : ∀ key ∈ keys, L.ValidKey key) (hfct : op.fct = .htInsert)
    (hready : Ready isVoid op keys st) (hs : Counted L st.table)
    (h : rerun A isVoid op st = .ok st') :
    Ready isVoid op keys st' ∧ Counted L st'.table ∧
      st'.table.inserted = st.table.inserted + keys.length := by
  obtain ⟨st₁, _, htable, hrows⟩ := rerun_cases hkeys hready hs h
  exact ⟨hrows.ready, hrows.counted, by rw [hrows.inserted_eq hfct, htable]⟩

theorem retryLoop_inserts (hkeys : ∀ key ∈ keys, L.ValidKey key) (hfct : op.fct = .htInsert)
    {fuel : ℕ} (hready : Ready isVoid op keys st) (hs : Counted L st.table)
    (h : retryLoop A isVoid op fuel st = some (.ok st')) :
    st.table.inserted ≤ st'.table.inserted ∧
      (st.restartFlag = true → st.table.inserted + keys.length ≤ st'.table.inserted) := by
  induction fuel generalizing st with
  | zero =>
    cases hflag : st.restartFlag with
    | true => simp [retryLoop, hflag] at h
    | false =>
      rw [retryLoop_done hflag] at h
      cases h
      simp
  | succ fuel ih =>
    cases hflag : st.restartFlag with
    | false =>
      rw [retryLoop_done hflag] at h
      cases h
      simp
    | true =>
      cases hrerun : rerun A isVoid op st with
      | error fault => simp [retryLoop, hflag, hrerun] at h
      | ok st₁ =>
        rw [retryLoop_again hflag hrerun] at h
        obtain ⟨hready₁, hs₁, hins⟩ := rerun_inserts hkeys hfct hready hs hrerun
        have hle := (ih hready₁ hs₁ h).1
        exact ⟨by omega, fun _ => by omega⟩

end Flag

section Once

structure RowsInserted (L : KeyLayout A) (isVoid : IU → Bool) (op : RuntimeFunctionSubop IU)
    (keys : List κ) (st : State IU κ) (n : ℕ) (st' : State IU κ) : Prop where
  ready : Ready isVoid op keys st'
  disabled : Disabled L st'.table
  restartFlag_eq : st'.restartFlag = false
  inserted_eq : st'.table.inserted = st.table.inserted + n
  capacity_eq : st'.table.capacity = st.table.capacity
  slotSize_eq : st'.table.totalSlotSize = st.table.totalSlotSize
  contents_eq : st'.table.contents = st.table.contents +
    ((keys.take n).map (freshEntry A st.table.totalSlotSize) : List (Bytes × UInt8))
  absent : ∀ key ∈ keys.drop n, ∀ i, ¬ EnabledAt L st'.table (L.ident key) i

variable [DecidableEq IU]

theorem RowsInserted.row {n : ℕ} {key : κ} (hs : Disabled L st.table) (hfct : op.fct = .htInsert)
    (hroom : st.table.inserted + keys.length ≤ st.table.maxFill)
    (hnodup : (keys.map L.ident).Nodup) (hvalid : L.ValidKey key) (hkey : keys[n]? = some key)
    (h : RowsInserted L isVoid op keys st n st') :
    ∃ st'', runRow A isVoid op st' n = .ok st'' ∧
      RowsInserted L isVoid op keys st (n + 1) st'' := by
  obtain ⟨hn, hget⟩ := List.getElem?_eq_some_iff.mp hkey
  have hdrop : keys.drop n = key :: keys.drop (n + 1) := by
    rw [List.drop_eq_getElem_cons hn, hget]
  have habsent := h.absent key (by rw [hdrop]; exact List.mem_cons_self)
  obtain ⟨r, hr, _⟩ := h.disabled.insert_spec hvalid habsent
  obtain ⟨hspec, hadds⟩ := h.disabled.insert_adds hvalid habsent hr
  have hnew : r.isNewKey = true := hspec.new_iff.mpr habsent
  have hgrown : r.grown = false := by
    have hmax := hs.maxFill_eq
    have hmax' := h.disabled.maxFill_eq
    have hcap := h.capacity_eq
    have hins := h.inserted_eq
    rw [← Bool.not_eq_true, hadds.grown_iff]
    omega
  have hcapacity := hadds.capacity_eq hgrown
  obtain ⟨hslot, hfree, hentries⟩ := hadds.put hgrown hnew
  have hcall : op.fct.call A st'.table key = .ok r := by rw [hfct]; exact hr
  refine ⟨_, runRow_eq h.ready hkey hcall, h.ready.afterRow r, hspec.disabled, ?_, ?_, ?_, ?_, ?_,
    fun k hk i hi => ?_⟩
  · show (st'.restartFlag || r.grown) = false
    rw [h.restartFlag_eq, hgrown]
    rfl
  · show r.table.inserted = _
    rw [hspec.inserted_eq, hnew, h.inserted_eq, if_pos rfl, Nat.add_assoc]
  · exact hcapacity.trans h.capacity_eq
  · exact hspec.slotSize_eq.trans h.slotSize_eq
  · show r.table.contents = _
    have htake : keys.take (n + 1) = keys.take n ++ [key] := by
      rw [← hget, List.take_append_getElem hn]
    rw [contents_put hslot hfree hcapacity hentries, h.contents_eq, h.slotSize_eq, htake,
      List.map_append, ← Multiset.coe_add, ← Multiset.add_assoc, List.map_singleton,
      Multiset.coe_singleton, ← Multiset.singleton_add, Multiset.add_comm]
  · -- The keys of the other rows differ from this one.
    have hex := (hspec.enabled_iff (L.ident k)).mp ⟨i, hi⟩
    rcases hex with heq | ⟨j, hj⟩
    · have hrest : ((keys.drop n).map L.ident).Nodup := by
        rw [List.map_drop]
        exact hnodup.sublist (List.drop_sublist _ _)
      rw [hdrop, List.map_cons, List.nodup_cons] at hrest
      exact hrest.1 (heq ▸ List.mem_map_of_mem hk)
    · exact h.absent k (by rw [hdrop]; exact List.mem_cons_of_mem _ hk) j hj

theorem runMorsel_inserted (hs : Disabled L st.table) (hfct : op.fct = .htInsert)
    (hroom : st.table.inserted + keys.length ≤ st.table.maxFill)
    (hnodup : (keys.map L.ident).Nodup) (hvalid : ∀ key ∈ keys, L.ValidKey key)
    (habsent : ∀ key ∈ keys, ∀ i, ¬ EnabledAt L st.table (L.ident key) i)
    (hready : Ready isVoid op keys st) (hflag : st.restartFlag = false) :
    ∃ st', runMorsel A isVoid op st = .ok st' ∧
      RowsInserted L isVoid op keys st keys.length st' := by
  apply runMorsel_induct hready.start_eq hready.stop_eq
  · exact ⟨hready, hs, hflag, rfl, rfl, rfl, by simp,
      fun key hkey => habsent key (by simpa using hkey)⟩
  · intro i key st' hkey h
    exact h.row hs hfct hroom hnodup (hvalid key (List.mem_of_getElem? hkey)) hkey

/-- The interpreter ends with a table that has its old entries and one for each key. -/
def InsertedOnce (A : KeyAccess κ) (isVoid : IU → Bool) (op : RuntimeFunctionSubop IU)
    (keys : List κ) (st : State IU κ) : Prop :=
  ∃ fuel st', runInterpreter A isVoid op fuel st = some (.ok st') ∧
    st'.table.contents = st.table.contents +
      (keys.map (freshEntry A st.table.totalSlotSize) : List (Bytes × UInt8)) ∧
    st'.table.size = st.table.size + keys.length

theorem insertedOnce_iff (hs : Disabled L st.table) (hfct : op.fct = .htInsert)
    (hnodup : (keys.map L.ident).Nodup) (hvalid : ∀ key ∈ keys, L.ValidKey key)
    (habsent : ∀ key ∈ keys, ∀ i, ¬ EnabledAt L st.table (L.ident key) i)
    (hinput : Input isVoid op keys st) :
    InsertedOnce A isVoid op keys st ↔
      st.table.inserted + keys.length ≤ st.table.maxFill := by
  have hrun : ∀ fuel, runInterpreter A isVoid op fuel st =
      runMorselWithRetry A isVoid op fuel (st.picked keys.length) := by
    intro fuel
    rw [runInterpreter, hinput.pickMorsel]
  constructor
  · intro h
    obtain ⟨fuel, st', hst', _, hsize⟩ := h
    obtain ⟨st₁, hst₁, hrows⟩ := runMorsel_counted (A := A) hvalid hinput.ready hs.counted
      hinput.restartFlag_eq
    rw [hrun, runMorselWithRetry, hst₁] at hst'
    obtain ⟨hle, hmore⟩ := retryLoop_inserts hvalid hfct hrows.ready hrows.counted hst'
    have hins : st₁.table.inserted = st.table.inserted + keys.length := hrows.inserted_eq hfct
    have hsize' : st'.table.inserted = st.table.inserted + keys.length := hsize
    have hbound := hs.bound
    have hcounted : Counted L (st.picked keys.length).table := hs.counted
    cases hflag : st₁.restartFlag with
    | false => exact (hrows.insert_restartFlag hcounted hfct).mp hflag
    | true =>
      have := hmore hflag
      omega
  · intro hroom
    have hdisabled : Disabled L (st.picked keys.length).table := hs
    obtain ⟨st₁, hst₁, hrows⟩ := runMorsel_inserted hdisabled hfct hroom hnodup hvalid habsent
      hinput.ready hinput.restartFlag_eq
    refine ⟨0, st₁, ?_, ?_, hrows.inserted_eq⟩
    · rw [hrun, runMorselWithRetry, hst₁]
      exact retryLoop_done hrows.restartFlag_eq 0
    · have hcontents := hrows.contents_eq
      rw [List.take_length] at hcontents
      exact hcontents

end Once

section SimpleKey

theorem simpleLayout_map_ident (hash : Bytes → UInt64) {keySize : ℕ} {keys : List Bytes}
    (hkeys : ∀ key ∈ keys, key.length = keySize) :
    keys.map (simpleLayout hash keySize).ident = keys := by
  have hident : ∀ key ∈ keys, (simpleLayout hash keySize).ident key = id key := by
    intro key hkey
    show readAt key 0 keySize = key
    rw [← hkeys key hkey, readAt_all]
  rw [List.map_congr_left hident, List.map_id]

/-- Distinct new keys are inserted once each if the table has room for them without growing, and
only then. -/
theorem insertedOnce_iff_room (IU : Type) [DecidableEq IU] (hash : Bytes → UInt64)
    {keySize payloadSize startSlots : ℕ}
    (hfit : keySize + payloadSize < 2 ^ 16) (hpow : startSlots.isPowerOfTwo)
    (htwo : 2 ≤ startSlots) :
    ∃ start, HashTableSimpleKey.create keySize payloadSize startSlots = .ok start ∧
      ∀ (isVoid : IU → Bool) (op : RuntimeFunctionSubop IU) (keys : List Bytes)
        (st : State IU Bytes),
        TableReachable (simpleLayout hash keySize) payloadSize start st.table →
        op.fct = .htInsert → Input isVoid op keys st → keys.Nodup →
        (∀ key ∈ keys, key.length = keySize ∧
          st.table.lookup (simpleKey hash keySize) key = .ok none) →
        (InsertedOnce (simpleKey hash keySize) isVoid op keys st ↔
          st.table.inserted + keys.length ≤ st.table.maxFill) := by
  obtain ⟨start, hcreate, hremoves⟩ := HashTableSimpleKey.create_removes hash hfit hpow htwo
  refine ⟨start, hcreate, fun isVoid op keys st hreach hfct hinput hnodup hkeys => ?_⟩
  have hs := hreach.disabled hremoves.disabled
  have hvalid : ∀ key ∈ keys, key.length = keySize := fun key hkey => (hkeys key hkey).1
  apply insertedOnce_iff hs hfct _ hvalid _ hinput
  · rw [simpleLayout_map_ident hash hvalid]
    exact hnodup
  · exact fun key hkey => (hs.lookup_none_iff key).mp (hkeys key hkey).2

end SimpleKey

section Small

def chunkOf (table : SharedHashTableState) (keys : List Bytes) : State Bool Bytes where
  table := table
  storage := 0
  restartFlag := false
  chunk := fun iu => some (if iu then ⟨fun _ => .key [], 0⟩ else
    ⟨fun row => .key (keys.getD row []), keys.length⟩)
  start := 0
  stop := 0

theorem input_chunkOf (fct : RuntimeFunction) (pointers : Option Bool)
    (hpointers : pointers ≠ some false) (table : SharedHashTableState) (keys : List Bytes) :
    Input (fun _ => false) ⟨fct, pointers, false, []⟩ keys (chunkOf table keys) := by
  refine ⟨rfl, ⟨_, rfl, rfl, fun i key hkey => ?_⟩, fun iu hiu => ?_⟩
  · show Cell.key (keys.getD i []) = Cell.key key
    rw [List.getD_eq_getElem?_getD, hkey, Option.getD_some]
  · cases iu with
    | false => exact absurd hiu hpointers
    | true => exact ⟨rfl, nofun, _, rfl, rfl⟩

theorem insertedOnce_iff_room_eight :
    ∃ start, HashTableSimpleKey.create 1 0 8 = .ok start ∧
      (InsertedOnce (simpleKey (fun _ => 0) 1) (fun _ => false) ⟨.htInsert, some true, false, []⟩
        [[1], [2]] (chunkOf start [[1], [2]]) ↔ start.inserted + 2 ≤ start.maxFill) := by
  obtain ⟨start, hcreate, h⟩ := insertedOnce_iff_room Bool (fun _ => 0)
    (by decide : 1 + 0 < 2 ^ 16) (⟨3, rfl⟩ : (8 : ℕ).isPowerOfTwo) (by decide)
  have hinput : Input (fun _ => false) ⟨.htInsert, some true, false, []⟩ [[1], [2]]
    (chunkOf start [[1], [2]]) := input_chunkOf .htInsert (some true) (by decide) start _
  refine ⟨start, hcreate, h _ _ [[1], [2]] _ (.start) rfl hinput (by decide) ?_⟩
  cases hcreate
  intro key hkey
  simp only [List.mem_cons, List.not_mem_nil, or_false] at hkey
  rcases hkey with rfl | rfl <;> exact ⟨rfl, rfl⟩

/-- Two keys for a table with room for one: the second one doubles the table, and the runs that
follow insert both keys three times more. -/
theorem inserted_again :
    ∃ start, HashTableSimpleKey.create 1 0 2 = .ok start ∧
      ((runInterpreter (simpleKey (fun _ => 0) 1) (fun _ => false)
        ⟨.htInsert, some true, false, []⟩ 3 (chunkOf start [[1], [2]])).map fun r =>
          r.toOption.map fun st => st.table.size) = some (some 8) ∧
      ¬ InsertedOnce (simpleKey (fun _ => 0) 1) (fun _ => false) ⟨.htInsert, some true, false, []⟩
        [[1], [2]] (chunkOf start [[1], [2]]) := by
  obtain ⟨start, hcreate, hremoves⟩ := HashTableSimpleKey.create_removes (fun _ => 0)
    (by decide : 1 + 0 < 2 ^ 16) (⟨1, rfl⟩ : (2 : ℕ).isPowerOfTwo) (by decide)
  refine ⟨start, hcreate, ?_, ?_⟩
  · cases hcreate
    decide +kernel
  · have hinput : Input (fun _ => false) ⟨.htInsert, some true, false, []⟩ [[1], [2]]
      (chunkOf start [[1], [2]]) := input_chunkOf .htInsert (some true) (by decide) start _
    have hvalid : ∀ key ∈ [[1], [2]], (simpleLayout (fun _ => 0) 1).ValidKey key := by
      intro key hkey
      simp only [List.mem_cons, List.not_mem_nil, or_false] at hkey
      rcases hkey with rfl | rfl <;> rfl
    have habsent : ∀ key ∈ [[1], [2]], ∀ i, ¬ EnabledAt (simpleLayout (fun _ => 0) 1) start
        ((simpleLayout (fun _ => 0) 1).ident key) i :=
      fun key _ => (hremoves.notMem_iff _).mp (Finset.notMem_empty _)
    rw [insertedOnce_iff hremoves.disabled rfl (by decide) hvalid habsent hinput]
    cases hcreate
    decide

end Small

end InkFuse.Exec.Rerun
