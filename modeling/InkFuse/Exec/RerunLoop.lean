import InkFuse.Exec.RerunMorsel

/-!
One run of a morsel, the reset in front of the next one, and why the runs come to an end: every
run that sets the flag has doubled the table, and fills as many slots as there are rows at most.
-/

namespace InkFuse.Exec.Rerun

open InkFuse.Runtime InkFuse.Runtime.SharedHashTableState

variable {IU κ : Type} [DecidableEq IU] {A : KeyAccess κ} {L : KeyLayout A} {isVoid : IU → Bool}
  {op : RuntimeFunctionSubop IU} {st st' : State IU κ}

section Rows

def State.afterRow (st : State IU κ) (op : RuntimeFunctionSubop IU) (r : Inserted) :
    State IU κ where
  table := r.table
  storage := if r.grown then st.storage + 1 else st.storage
  restartFlag := st.restartFlag || r.grown
  chunk := fun iu => if op.pointers = some iu then
      (st.chunk iu).map fun column => ⟨Function.update column.rawData column.size
        (.pointer ⟨if r.grown then st.storage + 1 else st.storage, r.slot⟩), column.size + 1⟩
    else st.chunk iu
  start := st.start
  stop := st.stop

/-- What the suboperator expects of the chunk: the keys of the morsel and a column for its output.
Nothing else reads or writes the output while it runs. -/
structure Ready (isVoid : IU → Bool) (op : RuntimeFunctionSubop IU) (keys : List κ)
    (st : State IU κ) : Prop where
  start_eq : st.start = 0
  stop_eq : st.stop = keys.length
  keyColumn : ∃ column, st.chunk op.key = some column ∧
    ∀ i key, keys[i]? = some key → column.rawData i = .key key
  pointers : ∀ iu, op.pointers = some iu → isVoid iu = false ∧ iu ≠ op.key ∧
    ∃ column, st.chunk iu = some column

theorem runRow_eq {keys : List κ} (hready : Ready isVoid op keys st) {i : ℕ} {key : κ}
    {r : Inserted} (hkey : keys[i]? = some key) (hr : op.fct.call A st.table key = .ok r) :
    runRow A isVoid op st i = .ok (st.afterRow op r) := by
  obtain ⟨column, hcolumn, hrows⟩ := hready.keyColumn
  have hread : st.readKey op.key i = .ok key := by
    simp only [State.readKey, State.getColumn, hcolumn, hrows i key hkey, bind, Except.bind]
  simp only [runRow, hread, hr, bind, Except.bind]
  cases hpointers : op.pointers with
  | none => simp [State.afterRow, hpointers]
  | some iu =>
    obtain ⟨hvoid, _, out, hout⟩ := hready.pointers iu hpointers
    simp only [hvoid, State.sink, State.getColumn, hout, State.setColumn, bind, Except.bind,
      Bool.false_eq_true, if_false, State.afterRow, hpointers, Option.some.injEq]
    congr 2
    funext iu'
    by_cases hiu : iu' = iu
    · subst hiu
      simp [hout]
    · simp [Function.update_of_ne hiu, Ne.symm hiu]

theorem Ready.afterRow {keys : List κ} (hready : Ready isVoid op keys st) (r : Inserted) :
    Ready isVoid op keys (st.afterRow op r) := by
  refine ⟨hready.start_eq, hready.stop_eq, ?_, fun iu hiu => ?_⟩
  · obtain ⟨column, hcolumn, hrows⟩ := hready.keyColumn
    refine ⟨column, ?_, hrows⟩
    have hne : op.pointers ≠ some op.key := fun h => (hready.pointers _ h).2.1 rfl
    simp [State.afterRow, hne, hcolumn]
  · obtain ⟨hvoid, hne, out, hout⟩ := hready.pointers iu hiu
    exact ⟨hvoid, hne, by simp [State.afterRow, hiu, hout]⟩

/-- A property of the states behind the rows holds at the end of the morsel. -/
theorem runMorsel_induct {keys : List κ} {P : ℕ → State IU κ → Prop} (hstart : st.start = 0)
    (hstop : st.stop = keys.length) (hzero : P 0 st)
    (hstep : ∀ i key st', keys[i]? = some key → P i st' →
      ∃ st'', runRow A isVoid op st' i = .ok st'' ∧ P (i + 1) st'') :
    ∃ st', runMorsel A isVoid op st = .ok st' ∧ P keys.length st' := by
  have hrows : ∀ n, n ≤ keys.length →
      ∃ st', (List.range n).foldlM (runRow A isVoid op) st = .ok st' ∧ P n st' := by
    intro n
    induction n with
    | zero => exact fun _ => ⟨st, rfl, hzero⟩
    | succ n ih =>
      intro hn
      obtain ⟨st', hfold, hst'⟩ := ih (by omega)
      obtain ⟨st'', hrow, hst''⟩ := hstep n _ st' (List.getElem?_eq_getElem (by omega)) hst'
      refine ⟨st'', ?_, hst''⟩
      rw [List.range_succ, List.foldlM_append, hfold]
      simp [bind, Except.bind, hrow, pure, Except.pure]
  obtain ⟨st', hfold, hst'⟩ := hrows keys.length le_rfl
  refine ⟨st', ?_, hst'⟩
  rw [runMorsel, hstart, hstop, Nat.sub_zero, ← List.range_eq_range']
  exact hfold

end Rows

section Reset

theorem clearSinks_providers (ius : List IU) (st : State IU κ) :
    (ius.map Subop.fuseChunkSourceIUProvider).foldlM clearSink st = .ok st := by
  induction ius with
  | nil => rfl
  | cons iu ius ih => exact ih

/-- The providers keep the chunk, the rest is up to the suboperator and its sinks. -/
theorem prepareForRerun_eq : prepareForRerun isVoid op st = (do
    let st ← clearSink st (.runtimeFunction op)
    ((op.pointers.toList.filter fun iu => !isVoid iu).map Subop.fuseChunkSink).foldlM
      clearSink st) := by
  have hdriver : clearSink st Subop.fuseChunkSourceDriver = .ok st := rfl
  rw [prepareForRerun, getRepiped, List.foldlM_cons, hdriver]
  show List.foldlM clearSink st _ = _
  rw [List.foldlM_append, clearSinks_providers]
  show List.foldlM clearSink st (_ :: _) = _
  rw [List.foldlM_cons]

/-- A suboperator with an output: only the output is cleared. -/
theorem prepareForRerun_pointers {iu : IU} {column : Column κ} (hpointers : op.pointers = some iu)
    (hvoid : isVoid iu = false) (hcolumn : st.chunk iu = some column) :
    prepareForRerun isVoid op st = .ok (st.setColumn iu { column with size := 0 }) := by
  have hfct : clearSink st (.runtimeFunction op) = .ok st := by
    simp [clearSink, Subop.isSink, Subop.getIUs, hpointers]
  have hsinks : (op.pointers.toList.filter fun iu => !isVoid iu) = [iu] := by
    simp [hpointers, hvoid]
  have hclear : clearSink st (.fuseChunkSink iu) =
      .ok (st.setColumn iu { column with size := 0 }) := by
    simp [clearSink, Subop.isSink, Subop.getIUs, Subop.getSourceIUs, clearColumn,
      State.getColumn, hcolumn, bind, Except.bind, pure, Except.pure]
  rw [prepareForRerun_eq, hfct, hsinks]
  show (clearSink st (.fuseChunkSink iu)).bind _ = _
  rw [hclear]
  rfl

/-- A suboperator without an output counts as a sink: its inputs are cleared. -/
theorem prepareForRerun_none (hpointers : op.pointers = none) :
    prepareForRerun isVoid op st = (some op.key :: op.pseudo.map some).foldlM clearColumn st := by
  have hfct : clearSink st (.runtimeFunction op) =
      (some op.key :: op.pseudo.map some).foldlM clearColumn st := by
    simp [clearSink, Subop.isSink, Subop.getIUs, Subop.getSourceIUs, hpointers]
  have hsinks : (op.pointers.toList.filter fun iu => !isVoid iu) = [] := by
    simp [hpointers]
  rw [prepareForRerun_eq, hfct, hsinks]
  exact bind_pure _

end Reset

section Counting

theorem call_counts {s : SharedHashTableState} {key : κ} (fct : RuntimeFunction)
    (hs : Counted L s) (hkey : L.ValidKey key) :
    ∃ r, fct.call A s key = .ok r ∧ CountsInsert L s r ∧
      (fct = .htInsert → r.isNewKey = true) := by
  cases fct with
  | htInsert =>
    obtain ⟨r, hr, hnew, hcounts⟩ := hs.insert_counts hkey
    exact ⟨r, hr, hcounts, fun _ => hnew⟩
  | htLookupOrInsert =>
    obtain ⟨r, hr, hcounts⟩ := hs.lookupOrInsert_counts hkey
    exact ⟨r, hr, hcounts, fun h => by cases h⟩

/-- What the first `n` rows of a morsel have done to the counters and the chunk. -/
structure RowsCounted (L : KeyLayout A) (isVoid : IU → Bool) (op : RuntimeFunctionSubop IU)
    (keys : List κ) (st : State IU κ) (n : ℕ) (st' : State IU κ) : Prop where
  ready : Ready isVoid op keys st'
  counted : Counted L st'.table
  chunk_eq : ∀ iu, op.pointers ≠ some iu → st'.chunk iu = st.chunk iu
  le_inserted : st.table.inserted ≤ st'.table.inserted
  inserted_le : st'.table.inserted ≤ st.table.inserted + n
  inserted_eq : op.fct = .htInsert → st'.table.inserted = st.table.inserted + n
  capacity_eq : st'.restartFlag = false → st'.table.capacity = st.table.capacity
  capacity_le : st.table.capacity ≤ st'.table.capacity
  doubled : st'.restartFlag = true → 2 * st.table.capacity ≤ st'.table.capacity ∧
    st.table.capacity < 2 * (st.table.inserted + n)

omit [DecidableEq IU] in
theorem rowsCounted_zero {keys : List κ} (hready : Ready isVoid op keys st)
    (hs : Counted L st.table) (hflag : st.restartFlag = false) :
    RowsCounted L isVoid op keys st 0 st where
  ready := hready
  counted := hs
  chunk_eq := fun _ _ => rfl
  le_inserted := le_rfl
  inserted_le := le_rfl
  inserted_eq := fun _ => rfl
  capacity_eq := fun _ => rfl
  capacity_le := le_rfl
  doubled := fun h => by rw [hflag] at h; cases h

theorem RowsCounted.row {keys : List κ} {n : ℕ} {r : Inserted}
    (h : RowsCounted L isVoid op keys st n st') (hr : CountsInsert L st'.table r)
    (hnew : op.fct = .htInsert → r.isNewKey = true) :
    RowsCounted L isVoid op keys st (n + 1) (st'.afterRow op r) := by
  have hle := h.le_inserted
  have hupper := h.inserted_le
  have hins := hr.inserted_eq
  have hcap := hr.capacity_eq
  have hmono := h.capacity_le
  have hmax := h.counted.maxFill_eq
  have hone : r.table.inserted ≤ st'.table.inserted + 1 := by
    rw [hins]
    split <;> omega
  refine ⟨h.ready.afterRow r, hr.counted, fun iu hiu => ?_, ?_, ?_, fun hfct => ?_, fun hflag => ?_,
    ?_, fun hflag => ?_⟩
  · show (if op.pointers = some iu then _ else st'.chunk iu) = _
    rw [if_neg hiu, h.chunk_eq iu hiu]
  · show st.table.inserted ≤ r.table.inserted
    omega
  · show r.table.inserted ≤ _
    omega
  · show r.table.inserted = _
    rw [hins, h.inserted_eq hfct, hnew hfct, if_pos rfl, Nat.add_assoc]
  · obtain ⟨hold, hgrown⟩ := Bool.or_eq_false_iff.mp hflag
    show r.table.capacity = _
    rw [hcap, hgrown, if_neg Bool.false_ne_true, h.capacity_eq hold]
  · show st.table.capacity ≤ r.table.capacity
    rw [hcap]
    split <;> omega
  · show 2 * st.table.capacity ≤ r.table.capacity ∧ _
    cases hold : st'.restartFlag with
    | true =>
      obtain ⟨hdoubled, hfull⟩ := h.doubled hold
      refine ⟨?_, by omega⟩
      rw [hcap]
      split <;> omega
    | false =>
      have hgrown : r.grown = true := by
        have hor : (st'.restartFlag || r.grown) = true := hflag
        rwa [hold, Bool.false_or] at hor
      have hfull := hr.grown_iff.mp hgrown
      have hsame := h.capacity_eq hold
      rw [hcap, if_pos hgrown]
      omega

/-- A morsel is run to its end, whatever the table holds. -/
theorem runMorsel_counted {keys : List κ} (hkeys : ∀ key ∈ keys, L.ValidKey key)
    (hready : Ready isVoid op keys st) (hs : Counted L st.table) (hflag : st.restartFlag = false) :
    ∃ st', runMorsel A isVoid op st = .ok st' ∧
      RowsCounted L isVoid op keys st keys.length st' := by
  apply runMorsel_induct hready.start_eq hready.stop_eq (rowsCounted_zero hready hs hflag)
  intro i key st' hkey h
  obtain ⟨r, hr, hcounts, hnew⟩ :=
    call_counts op.fct h.counted (hkeys key (List.mem_of_getElem? hkey))
  exact ⟨_, runRow_eq h.ready hkey hr, h.row hcounts hnew⟩

end Counting

section Termination

theorem retryLoop_done (hflag : st.restartFlag = false) (fuel : ℕ) :
    retryLoop A isVoid op fuel st = some (.ok st) := by
  cases fuel <;> simp [retryLoop, hflag]

theorem retryLoop_again (hflag : st.restartFlag = true) (hrerun : rerun A isVoid op st = .ok st')
    (fuel : ℕ) : retryLoop A isVoid op (fuel + 1) st = retryLoop A isVoid op fuel st' := by
  simp [retryLoop, hflag, hrerun]

/-- What one more run of a morsel of `n` rows does to the counters. -/
def Grows (n : ℕ) (st st' : State IU κ) : Prop :=
  st'.table.inserted ≤ st.table.inserted + n ∧ (st'.restartFlag = true →
    2 * st.table.capacity ≤ st'.table.capacity ∧ st.table.capacity < 2 * (st.table.inserted + n))

/-- Once the table has more than two slots for each row, the free half of it grows with every
doubling until the morsel fits. -/
theorem retryLoop_terminates_of_large {n : ℕ} {P : State IU κ → Prop}
    (hbound : ∀ st, P st → 2 * st.table.inserted ≤ st.table.capacity)
    (hrerun : ∀ st, P st → st.restartFlag = true →
      ∃ st', rerun A isVoid op st = .ok st' ∧ P st' ∧ Grows n st st')
    (m : ℕ) (st : State IU κ) (hst : P st) (hlarge : 2 * n < st.table.capacity)
    (hm : 2 * n ≤ st.table.capacity - 2 * st.table.inserted + m) :
    ∃ fuel st', retryLoop A isVoid op fuel st = some (.ok st') ∧ P st' ∧
      st'.restartFlag = false := by
  induction m generalizing st with
  | zero =>
    cases hflag : st.restartFlag with
    | false => exact ⟨0, st, retryLoop_done hflag 0, hst, hflag⟩
    | true =>
      obtain ⟨st', hst', hP, hins, hgrown⟩ := hrerun st hst hflag
      have hb := hbound st hst
      cases hflag' : st'.restartFlag with
      | false =>
        exact ⟨1, st', by rw [retryLoop_again hflag hst', retryLoop_done hflag'], hP, hflag'⟩
      | true =>
        have hfull := hgrown hflag'
        omega
  | succ m ih =>
    cases hflag : st.restartFlag with
    | false => exact ⟨0, st, retryLoop_done hflag 0, hst, hflag⟩
    | true =>
      obtain ⟨st', hst', hP, hins, hgrown⟩ := hrerun st hst hflag
      have hb := hbound st hst
      cases hflag' : st'.restartFlag with
      | false =>
        exact ⟨1, st', by rw [retryLoop_again hflag hst', retryLoop_done hflag'], hP, hflag'⟩
      | true =>
        obtain ⟨hdoubled, hfull⟩ := hgrown hflag'
        obtain ⟨fuel, st'', hloop, hresult⟩ := ih st' hP (by omega) (by omega)
        exact ⟨fuel + 1, st'', by rw [retryLoop_again hflag hst', hloop], hresult⟩

/-- The loop of `runMorselWithRetry` ends. -/
theorem retryLoop_terminates {n : ℕ} {P : State IU κ → Prop}
    (hbound : ∀ st, P st → 2 * st.table.inserted ≤ st.table.capacity)
    (hpos : ∀ st, P st → 0 < st.table.capacity)
    (hrerun : ∀ st, P st → st.restartFlag = true →
      ∃ st', rerun A isVoid op st = .ok st' ∧ P st' ∧ Grows n st st')
    (st : State IU κ) (hst : P st) :
    ∃ fuel st', retryLoop A isVoid op fuel st = some (.ok st') ∧ P st' ∧
      st'.restartFlag = false := by
  -- The table gets large enough because its capacity doubles.
  generalize hm : 2 * n + 1 - st.table.capacity = m
  induction m using Nat.strong_induction_on generalizing st with
  | _ m ih =>
    by_cases hlarge : 2 * n < st.table.capacity
    · exact retryLoop_terminates_of_large hbound hrerun (2 * n) st hst hlarge (by omega)
    · cases hflag : st.restartFlag with
      | false => exact ⟨0, st, retryLoop_done hflag 0, hst, hflag⟩
      | true =>
        obtain ⟨st', hst', hP, hins, hgrown⟩ := hrerun st hst hflag
        cases hflag' : st'.restartFlag with
        | false =>
          exact ⟨1, st', by rw [retryLoop_again hflag hst', retryLoop_done hflag'], hP, hflag'⟩
        | true =>
          have hcap := hpos st hst
          obtain ⟨hdoubled, _⟩ := hgrown hflag'
          obtain ⟨fuel, st'', hloop, hresult⟩ := ih _ (by omega) st' hP rfl
          exact ⟨fuel + 1, st'', by rw [retryLoop_again hflag hst', hloop], hresult⟩

/-- A result does not depend on the bound. -/
theorem retryLoop_more {fuel : ℕ} {result : Except Fault (State IU κ)}
    (h : retryLoop A isVoid op fuel st = some result) (k : ℕ) :
    retryLoop A isVoid op (fuel + k) st = some result := by
  induction fuel generalizing st with
  | zero =>
    cases hflag : st.restartFlag with
    | true => simp [retryLoop, hflag] at h
    | false => rw [retryLoop_done hflag, ← h, retryLoop_done hflag]
  | succ fuel ih =>
    rw [Nat.add_right_comm]
    unfold retryLoop at h ⊢
    split at h
    · next hflag =>
      rw [if_pos hflag]
      split at h
      · exact ih h
      · exact h
    · next hflag =>
      rw [if_neg hflag]
      exact h

end Termination

end InkFuse.Exec.Rerun
