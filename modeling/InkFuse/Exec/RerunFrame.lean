import InkFuse.Exec.RerunLookup

/-!
What a morsel that runs again does to the columns that it reads. The reset is meant for the output
column. A suboperator without one counts as a sink itself, and the reset empties its inputs.
-/

namespace InkFuse.Exec.Rerun

open InkFuse.Bytes InkFuse.Runtime InkFuse.Runtime.SharedHashTableState

variable {IU κ : Type} [DecidableEq IU] {A : KeyAccess κ} {L : KeyLayout A} {isVoid : IU → Bool}
  {op : RuntimeFunctionSubop IU} {keys : List κ} {st st' : State IU κ}

section FirstRun

def fills (L : KeyLayout A) (fct : RuntimeFunction) (s : SharedHashTableState) (keys : List κ) :
    ℕ :=
  match fct with
  | .htInsert => keys.length
  | .htLookupOrInsert => (newKeys L s keys).card

/-- The first run sets the flag if the table is full in front of the last row. -/
theorem restartFlag_iff_fills (hs : Disabled L st.table) (hvalid : ∀ key ∈ keys, L.ValidKey key)
    (hready : Ready isVoid op keys st) (hflag : st.restartFlag = false)
    (hempty : ∀ iu, op.pointers = some iu → ∃ column, st.chunk iu = some column ∧ column.size = 0) :
    ∃ st', runMorsel A isVoid op st = .ok st' ∧
      RowsCounted L isVoid op keys st keys.length st' ∧
      (st'.restartFlag = false ↔ keys = [] ∨
        st.table.inserted + fills L op.fct st.table keys.dropLast < st.table.maxFill) := by
  obtain ⟨st', hrun, hrows⟩ := runMorsel_counted hvalid hready hs.counted hflag
  refine ⟨st', hrun, hrows, ?_⟩
  have hpos : 0 < keys.length ↔ keys ≠ [] := List.length_pos_iff
  cases hfct : op.fct with
  | htInsert =>
    have hbound := hs.bound
    have hlast : (keys.dropLast).length = keys.length - 1 := List.length_dropLast
    rw [hrows.insert_restartFlag hs.counted hfct]
    by_cases hnil : keys = []
    · simpa [hnil] using hbound
    · have := hpos.mpr hnil
      simp only [hnil, false_or, fills, hlast]
      omega
  | htLookupOrInsert =>
    obtain ⟨st'', hrun', hfound⟩ := runMorsel_found hs hfct hvalid hready hflag hempty
    obtain rfl := Except.ok.inj (hrun.symm.trans hrun')
    have hiff := hfound.restartFlag_iff
    rw [← List.dropLast_eq_take, hpos] at hiff
    rw [← Bool.not_eq_true, hiff]
    simp only [fills, not_and_or, not_not, not_le]

end FirstRun

section Frame

def Emptied (op : RuntimeFunctionSubop IU) (st : State IU κ) : Prop :=
  ∃ column, st.chunk op.key = some column ∧ column.size = 0

theorem clearColumn_emptied {iu : Option IU} (h : clearColumn st iu = .ok st')
    (hiu : iu = some op.key ∨ Emptied op st) : Emptied op st' := by
  obtain ⟨i, column, rfl, hcolumn, rfl⟩ := clearColumn_cases h
  by_cases hi : op.key = i
  · subst hi
    exact ⟨_, Function.update_self .., rfl⟩
  · rcases hiu with heq | ⟨keyColumn, hkey, hsize⟩
    · exact absurd (Option.some.inj heq).symm hi
    · exact ⟨keyColumn, (Function.update_of_ne hi _ _).trans hkey, hsize⟩

theorem clearColumns_emptied {ius : List (Option IU)} (hempty : Emptied op st)
    (h : ius.foldlM clearColumn st = .ok st') : Emptied op st' := by
  induction ius generalizing st with
  | nil =>
    cases h
    exact hempty
  | cons iu ius ih =>
    rw [List.foldlM_cons] at h
    cases hclear : clearColumn st iu with
    | error fault =>
      rw [hclear] at h
      cases h
    | ok st₁ =>
      rw [hclear] at h
      exact ih (clearColumn_emptied hclear (Or.inr hempty)) h

/-- Without an output column, the reset empties the key column. -/
theorem prepareForRerun_emptied (hpointers : op.pointers = none)
    (h : prepareForRerun isVoid op st = .ok st') : Emptied op st' := by
  rw [prepareForRerun_none hpointers, List.foldlM_cons] at h
  cases hclear : clearColumn st (some op.key) with
  | error fault =>
    rw [hclear] at h
    cases h
  | ok st₁ =>
    rw [hclear] at h
    exact clearColumns_emptied (clearColumn_emptied hclear (Or.inl rfl)) h

theorem retryLoop_emptied (hvalid : ∀ key ∈ keys, L.ValidKey key) (hpointers : op.pointers = none)
    {fuel : ℕ} (hready : Ready isVoid op keys st) (hs : Counted L st.table)
    (hempty : st.restartFlag = true ∨ Emptied op st)
    (h : retryLoop A isVoid op fuel st = some (.ok st')) : Emptied op st' := by
  induction fuel generalizing st with
  | zero =>
    cases hflag : st.restartFlag with
    | true => simp [retryLoop, hflag] at h
    | false =>
      rw [retryLoop_done hflag] at h
      cases h
      exact hempty.resolve_left (by simp [hflag])
  | succ fuel ih =>
    cases hflag : st.restartFlag with
    | false =>
      rw [retryLoop_done hflag] at h
      cases h
      exact hempty.resolve_left (by simp [hflag])
    | true =>
      cases hrerun : rerun A isVoid op st with
      | error fault => simp [retryLoop, hflag, hrerun] at h
      | ok st₂ =>
        rw [retryLoop_again hflag hrerun] at h
        obtain ⟨st₁, hprepare, _, hrows⟩ := rerun_cases hvalid hready hs hrerun
        obtain ⟨column, hcolumn, hsize⟩ := prepareForRerun_emptied hpointers hprepare
        have hsame := hrows.chunk_eq op.key (by simp [hpointers])
        exact ih hrows.ready hrows.counted (Or.inr ⟨column, hsame.trans hcolumn, hsize⟩) h

end Frame

section Inputs

/-- The interpreter ends, and every column but its output is as it was. -/
def KeepsInputs (A : KeyAccess κ) (isVoid : IU → Bool) (op : RuntimeFunctionSubop IU)
    (st : State IU κ) : Prop :=
  ∃ fuel st', runInterpreter A isVoid op fuel st = some (.ok st') ∧
    ∀ iu, op.pointers ≠ some iu → st'.chunk iu = st.chunk iu

/-- What holds between the runs of a morsel with an output column. -/
structure Kept (L : KeyLayout A) (isVoid : IU → Bool) (op : RuntimeFunctionSubop IU)
    (keys : List κ) (st st' : State IU κ) : Prop where
  ready : Ready isVoid op keys st'
  counted : Counted L st'.table
  chunk_eq : ∀ iu, op.pointers ≠ some iu → st'.chunk iu = st.chunk iu

theorem Kept.rerun {st₁ : State IU κ} (hvalid : ∀ key ∈ keys, L.ValidKey key)
    (hpointers : op.pointers ≠ none) (h : Kept L isVoid op keys st st₁) :
    ∃ st₂, rerun A isVoid op st₁ = .ok st₂ ∧ Kept L isVoid op keys st st₂ ∧
      Grows keys.length st₁ st₂ := by
  obtain ⟨iu, hiu⟩ := Option.ne_none_iff_exists'.mp hpointers
  obtain ⟨column, hcolumn, hrerun⟩ := rerun_eq (A := A) hiu h.ready
  have hcounted : Counted L (st₁.emptied iu column).table := h.counted
  obtain ⟨st₂, hrun, hrows⟩ := runMorsel_counted hvalid (h.ready.emptied hiu column) hcounted rfl
  refine ⟨st₂, hrerun.trans hrun, ⟨hrows.ready, hrows.counted, fun iu' hiu' => ?_⟩, hrows.grows⟩
  have hne : iu' ≠ iu := fun heq => hiu' (heq ▸ hiu)
  rw [hrows.chunk_eq iu' hiu', ← h.chunk_eq iu' hiu']
  exact Function.update_of_ne hne _ _

theorem keepsInputs_iff (hs : Disabled L st.table) (hvalid : ∀ key ∈ keys, L.ValidKey key)
    (hinput : Input isVoid op keys st) :
    KeepsInputs A isVoid op st ↔ op.pointers ≠ none ∨ keys = [] ∨
      st.table.inserted + fills L op.fct st.table keys.dropLast < st.table.maxFill := by
  have hdisabled : Disabled L (st.picked keys.length).table := hs
  obtain ⟨st₁, hrun, hrows, hflag⟩ := restartFlag_iff_fills hdisabled hvalid hinput.ready
    hinput.restartFlag_eq fun iu hiu => (hinput.pointers iu hiu).2.2
  have hinterpret : ∀ fuel, runInterpreter A isVoid op fuel st =
      retryLoop A isVoid op fuel st₁ := by
    intro fuel
    rw [runInterpreter, hinput.pickMorsel]
    show runMorselWithRetry A isVoid op fuel (st.picked keys.length) = _
    rw [runMorselWithRetry, hrun]
  by_cases hpointers : op.pointers = none
  · simp only [hpointers, ne_eq, not_true_eq_false, false_or]
    refine Iff.trans ?_ hflag
    constructor
    · intro h
      obtain ⟨fuel, st', hst', hsame⟩ := h
      rw [hinterpret] at hst'
      by_contra hset
      obtain ⟨column, hcolumn, hsize⟩ := retryLoop_emptied hvalid hpointers hrows.ready
        hrows.counted (Or.inl (Bool.eq_true_of_not_eq_false hset)) hst'
      obtain ⟨column', hcolumn', hsize', _⟩ := hinput.keyColumn
      rw [hsame op.key (by simp [hpointers]), hcolumn', Option.some.injEq] at hcolumn
      rw [hcolumn, hsize] at hsize'
      exact hset (hflag.mpr (Or.inl (List.length_eq_zero_iff.mp hsize'.symm)))
    · intro hdone
      exact ⟨0, st₁, (hinterpret 0).trans (retryLoop_done hdone 0), hrows.chunk_eq⟩
  · simp only [ne_eq, hpointers, not_false_eq_true, true_or, iff_true]
    have hstart : Kept L isVoid op keys st st₁ := ⟨hrows.ready, hrows.counted, hrows.chunk_eq⟩
    obtain ⟨fuel, st', hloop, hst', _⟩ := retryLoop_terminates (P := Kept L isVoid op keys st)
      (fun st' h => by
        have hbound := h.counted.bound
        have hmax := h.counted.maxFill_eq
        omega)
      (fun st' h => by
        have htwo := h.counted.two_le
        omega)
      (fun st' h _ => h.rerun hvalid hpointers) st₁ hstart
    exact ⟨fuel, st', (hinterpret fuel).trans hloop, hst'.chunk_eq⟩

/-- On every table that a client reaches, the functions of the table keep their inputs when they
have an output column or the table does not grow in the middle of the morsel, and only then. -/
def KeepsInputsIff (IU : Type) [DecidableEq IU] (L : KeyLayout A) (payloadSize : ℕ)
    (fcts : List RuntimeFunction) (created : Except Fault SharedHashTableState) : Prop :=
  ∃ start, created = .ok start ∧
    ∀ (isVoid : IU → Bool) (op : RuntimeFunctionSubop IU) (keys : List κ) (st : State IU κ),
      TableReachable L payloadSize start st.table → op.fct ∈ fcts → Input isVoid op keys st →
      (∀ key ∈ keys, L.ValidKey key) →
      (KeepsInputs A isVoid op st ↔ op.pointers ≠ none ∨ keys = [] ∨
        st.table.inserted + fills L op.fct st.table keys.dropLast < st.table.maxFill)

theorem keepsInputsIff_of_removes {payloadSize : ℕ} (fcts : List RuntimeFunction)
    {created : Except Fault SharedHashTableState}
    (h : ∃ start, created = .ok start ∧ Removes L start RemovalMap.empty) :
    KeepsInputsIff IU L payloadSize fcts created := by
  obtain ⟨start, hcreate, hremoves⟩ := h
  refine ⟨start, hcreate, fun isVoid op keys st hreach _ hinput hvalid => ?_⟩
  exact keepsInputs_iff (hreach.disabled hremoves.disabled) hvalid hinput

theorem keepsInputs_iff_output (hash : Bytes → UInt64) (text : UInt64 → Bytes)
    {keySize payloadSize startSlots : ℕ} (hpow : startSlots.isPowerOfTwo)
    (htwo : 2 ≤ startSlots) :
    (keySize + payloadSize < 2 ^ 16 →
      KeepsInputsIff IU (simpleLayout hash keySize) payloadSize [.htInsert, .htLookupOrInsert]
        (HashTableSimpleKey.create keySize payloadSize startSlots)) ∧
    (8 + payloadSize < 2 ^ 16 →
      KeepsInputsIff IU (complexLayout hash text) payloadSize [.htLookupOrInsert]
        (HashTableComplexKey.create 0 1 payloadSize startSlots)) := by
  constructor
  · intro hfit
    apply keepsInputsIff_of_removes
    exact HashTableSimpleKey.create_removes hash hfit hpow htwo
  · intro hfit
    apply keepsInputsIff_of_removes
    rw [HashTableComplexKey.create_string]
    exact removes_create (complexLayout hash text) hfit hpow htwo

theorem keepsInputs_iff_output_two :
    KeepsInputsIff Bool (simpleLayout (fun _ => 0) 1) 0 [.htInsert, .htLookupOrInsert]
      (HashTableSimpleKey.create 1 0 2) :=
  (keepsInputs_iff_output (fun _ => 0) (fun _ => []) ⟨1, rfl⟩ (by decide)).1 (by decide)

/-- Two keys for a table with room for one: without an output column the key column ends empty,
whichever function is called. -/
theorem inputs_emptied :
    ∃ start, HashTableSimpleKey.create 1 0 2 = .ok start ∧ ∀ fct,
      ((runInterpreter (simpleKey (fun _ => 0) 1) (fun _ => false) ⟨fct, none, false, []⟩ 3
        (chunkOf start [[1], [2]])).map fun r => r.toOption.map fun st =>
          (st.chunk false).map Column.size) = some (some (some 0)) ∧
      ¬ KeepsInputs (simpleKey (fun _ => 0) 1) (fun _ => false) ⟨fct, none, false, []⟩
        (chunkOf start [[1], [2]]) := by
  obtain ⟨start, hcreate, hremoves⟩ := HashTableSimpleKey.create_removes (fun _ => 0)
    (by decide : 1 + 0 < 2 ^ 16) (⟨1, rfl⟩ : (2 : ℕ).isPowerOfTwo) (by decide)
  have hvalid : ∀ key ∈ [[1], [2]], (simpleLayout (fun _ => 0) 1).ValidKey key := by
    intro key hkey
    simp only [List.mem_cons, List.not_mem_nil, or_false] at hkey
    rcases hkey with rfl | rfl <;> rfl
  refine ⟨start, hcreate, fun fct => ⟨?_, ?_⟩⟩
  · cases hcreate
    cases fct <;> decide +kernel
  · have hinput := input_chunkOf fct none (by decide) start [[1], [2]]
    rw [keepsInputs_iff hremoves.disabled hvalid hinput]
    cases hcreate
    cases fct <;> decide

end Inputs

end InkFuse.Exec.Rerun
