import InkFuse.Algebra.FusedBlocks

/-!
What a pipeline means for whole columns: every suboperator turns the columns that it reads into the
one that it provides, and a filter keeps the rows for which its condition holds. The same pipeline
has a meaning for a single row; a column is the list of the values of the rows that pass the filters
around it.
-/

namespace InkFuse.Algebra.SubopGraph

variable {IU : Type} [DecidableEq IU] {V B : Type}

/-- The value of a variable: a loop index, or anything else. -/
inductive Cell (V : Type)
  | index (n : ℕ)
  | data (v : V)
  deriving DecidableEq, Repr

/-- A morsel, the columns behind the IU providers, the expressions, and what values mean for
conditions and for `memcpy`. -/
structure Inputs (V B : Type) where
  start : ℕ
  stop : ℕ
  /-- The element of the column of the provider `k`. -/
  load : ℕ → ℕ → V
  /-- The pointer to a byte of the column of the provider `k`. -/
  address : ℕ → ℕ → V
  compute : ℕ → List (Cell V) → V
  holds : Cell V → Bool
  byteAt : Cell V → ℕ → B

def Inputs.rows (inputs : Inputs V B) : List ℕ :=
  List.range' inputs.start (inputs.stop - inputs.start)

def meaning {α : Type} (step : ℕ → Suboperator IU → (IU → α) → α) (init : IU → α)
    (subops : List (Suboperator IU)) : ℕ → IU → α
  | 0 => init
  | k + 1 =>
    match subops[k]? with
    | some op => fun iu =>
      if iu ∈ op.getIUs then step k op (meaning step init subops k)
      else meaning step init subops k iu
    | none => meaning step init subops k

variable (widths : Widths IU) (inputs : Inputs V B)

def readAt (k : ℕ) : Cell V → Cell V
  | .index n => .data (inputs.load k n)
  | value => value

def keep (conditions column : List (Cell V)) : List (Cell V) :=
  ((conditions.zip column).filter fun row => inputs.holds row.1).map Prod.snd

/-- The column that a suboperator provides. The pseudo IU of a scope stands for the column of
conditions. The custom iterator of a provider of `ByteArray`s counts the rows of the morsel. -/
def columnStep (k : ℕ) (op : Suboperator IU) (columns : IU → List (Cell V)) : List (Cell V) :=
  match op with
  | .loopDriver _ => inputs.rows.map .index
  | .tscanIUProvider driverIU iu | .fuseChunkSourceIUProvider driverIU iu =>
    match widths iu with
    | none => (columns driverIU).map (readAt inputs k)
    | some width => (List.range (columns driverIU).length).map fun j =>
        .data (inputs.address k (j * width))
  | .copy source _ => columns source
  | .columnFilterScope filterIU _ => columns filterIU
  | .columnFilterLogic pseudo source _ => keep inputs (columns pseudo) (columns source)
  | .other input others _ => (List.range (columns input).length).map fun j =>
      .data (inputs.compute k ((input :: others).map fun iu => (columns iu).getD j (.index 0)))
  | _ => []

def columns (subops : List (Suboperator IU)) : IU → List (Cell V) :=
  meaning (columnStep widths inputs) (fun _ => []) subops subops.length

/-- The value that a suboperator provides for the row with this index. -/
def rowStep (row : ℕ) (k : ℕ) (op : Suboperator IU) (values : IU → Cell V) : Cell V :=
  match op with
  | .loopDriver _ => .index row
  | .tscanIUProvider driverIU iu | .fuseChunkSourceIUProvider driverIU iu =>
    match widths iu with
    | none => readAt inputs k (values driverIU)
    | some width => .data (inputs.address k ((row - inputs.start) * width))
  | .copy source _ => values source
  | .columnFilterScope filterIU _ => values filterIU
  | .columnFilterLogic _ source _ => values source
  | .other input others _ => .data (inputs.compute k ((input :: others).map values))
  | _ => .index 0

def rowValues (subops : List (Suboperator IU)) (row : ℕ) : IU → Cell V :=
  meaning (rowStep widths inputs row) (fun _ => .index 0) subops subops.length

section Meaning

variable {α : Type} {step : ℕ → Suboperator IU → (IU → α) → α} {init : IU → α}
variable {subops : List (Suboperator IU)}

theorem meaning_succ {k : ℕ} {op : Suboperator IU} (hop : subops[k]? = some op) (iu : IU) :
    meaning step init subops (k + 1) iu =
      if iu ∈ op.getIUs then step k op (meaning step init subops k)
      else meaning step init subops k iu := by
  rw [meaning, hop]

/-- An IU keeps what its provider assigned. -/
theorem meaning_stable (hunique : UniqueProviders subops) {j : ℕ} {iu : IU}
    (hj : iu ∈ iusAt subops j) {k : ℕ} (hjk : j < k) :
    meaning step init subops k iu = meaning step init subops (j + 1) iu := by
  induction k with
  | zero => exact absurd hjk (Nat.not_lt_zero j)
  | succ k ih =>
    rcases Nat.lt_succ_iff_lt_or_eq.mp hjk with hlt | rfl
    · cases hop : subops[k]? with
      | none =>
        rw [meaning, hop]
        exact ih hlt
      | some op =>
        obtain ⟨producer, hproducer, hmem⟩ := mem_iusAt.mp hj
        rw [meaning_succ hop, if_neg, ih hlt]
        intro hiu
        have := hunique.eq hproducer hop hmem hiu
        omega
    · rfl

/-- The equation of each suboperator. -/
theorem meaning_eq (hprovided : SourcesProvided subops) (hunique : UniqueProviders subops)
    (hstep : ∀ k op env env', (∀ iu ∈ op.getSourceIUs, env iu = env' iu) →
      step k op env = step k op env')
    {k : ℕ} {op : Suboperator IU} (hop : subops[k]? = some op) {iu : IU} (hiu : iu ∈ op.getIUs) :
    meaning step init subops subops.length iu =
      step k op (meaning step init subops subops.length) := by
  have hk := (List.getElem?_eq_some_iff.mp hop).1
  rw [meaning_stable hunique (mem_iusAt.mpr ⟨op, hop, hiu⟩) hk, meaning_succ hop, if_pos hiu]
  apply hstep
  intro source hsource
  obtain ⟨j, hjk, hj, -⟩ := hprovided k source (by rwa [sourceIUsAt_eq hop])
  rw [meaning_stable hunique hj hjk, meaning_stable hunique hj (Nat.lt_trans hjk hk)]

omit [DecidableEq IU] in
theorem columnStep_congr (k : ℕ) (op : Suboperator IU) (env env' : IU → List (Cell V))
    (h : ∀ iu ∈ op.getSourceIUs, env iu = env' iu) :
    columnStep widths inputs k op env = columnStep widths inputs k op env' := by
  cases op with
  | other input others ius =>
    have hmap : ∀ j, ((input :: others).map fun iu => (env iu).getD j (.index 0)) =
        (input :: others).map fun iu => (env' iu).getD j (.index 0) := by
      intro j
      apply List.map_congr_left
      intro iu hiu
      rw [h iu hiu]
    simp only [columnStep, hmap, h input (List.mem_cons_self ..)]
  | _ => simp_all [columnStep, Suboperator.getSourceIUs]

omit [DecidableEq IU] in
theorem rowStep_congr (row k : ℕ) (op : Suboperator IU) (env env' : IU → Cell V)
    (h : ∀ iu ∈ op.getSourceIUs, env iu = env' iu) :
    rowStep widths inputs row k op env = rowStep widths inputs row k op env' := by
  cases op with
  | other input others ius =>
    have hmap : (input :: others).map env = (input :: others).map env' :=
      List.map_congr_left h
    simp only [rowStep, hmap]
  | _ => simp_all [rowStep, Suboperator.getSourceIUs]

end Meaning

section Columns

variable {widths inputs} {subops : List (Suboperator IU)} {layer : ℕ → ℕ}
variable {innermost driver : ℕ} {driverIU : IU}

def passes (widths : Widths IU) (inputs : Inputs V B) (subops : List (Suboperator IU))
    (layer : ℕ → ℕ) (l row : ℕ) : Bool :=
  (List.range subops.length).all fun s =>
    match subops[s]? with
    | some (.columnFilterScope filterIU _) =>
      !(decide (layer s ≤ l)) || inputs.holds (rowValues widths inputs subops row filterIU)
    | _ => true

theorem passes_iff {l row : ℕ} : passes widths inputs subops layer l row = true ↔
    ∀ (s : ℕ) (filterIU pseudo : IU),
      subops[s]? = some (.columnFilterScope filterIU pseudo) → layer s ≤ l →
        inputs.holds (rowValues widths inputs subops row filterIU) = true := by
  rw [passes, List.all_eq_true]
  constructor
  · intro h s filterIU pseudo hop hl
    have hs := h s (List.mem_range.mpr (List.getElem?_eq_some_iff.mp hop).1)
    rw [hop] at hs
    simpa [hl] using hs
  · intro h s _
    split
    · next filterIU pseudo hop =>
      by_cases hl : layer s ≤ l
      · simp [h s filterIU pseudo hop hl]
      · simp [hl]
    · rfl

/-- The layer whose rows are in the column of a suboperator: for the conditions of a scope, the one
around it. -/
def columnLayer (subops : List (Suboperator IU)) (layer : ℕ → ℕ) (k : ℕ) : ℕ :=
  match subops[k]? with
  | some (.columnFilterScope _ _) => layer k - 1
  | _ => layer k

theorem columns_eq (h : FilterLayers subops layer innermost driver driverIU) {k : ℕ}
    {op : Suboperator IU} (hop : subops[k]? = some op) {iu : IU} (hiu : iu ∈ op.getIUs) :
    columns widths inputs subops iu =
      columnStep widths inputs k op (columns widths inputs subops) :=
  meaning_eq h.links.provided h.unique (columnStep_congr widths inputs) hop hiu

theorem rowValues_eq (h : FilterLayers subops layer innermost driver driverIU) (row : ℕ) {k : ℕ}
    {op : Suboperator IU} (hop : subops[k]? = some op) {iu : IU} (hiu : iu ∈ op.getIUs) :
    rowValues widths inputs subops row iu =
      rowStep widths inputs row k op (rowValues widths inputs subops row) :=
  meaning_eq h.links.provided h.unique (rowStep_congr widths inputs row) hop hiu

def rowsAt (widths : Widths IU) (inputs : Inputs V B) (subops : List (Suboperator IU))
    (layer : ℕ → ℕ) (l : ℕ) : List ℕ :=
  inputs.rows.filter (passes widths inputs subops layer l)

theorem FilterLayers.scope_pos (h : FilterLayers subops layer innermost driver driverIU) {s : ℕ}
    {filterIU pseudo : IU} (hop : subops[s]? = some (.columnFilterScope filterIU pseudo)) :
    1 ≤ layer s := by
  have hne : s ≠ driver := by
    rintro rfl
    rw [h.driverAt] at hop
    cases hop
  obtain ⟨j, hj⟩ := h.has_input hop hne
  rw [h.scope s _ _ hop j hj]
  exact Nat.succ_pos _

theorem FilterLayers.rowsAt_zero (h : FilterLayers subops layer innermost driver driverIU) :
    rowsAt widths inputs subops layer 0 = inputs.rows := by
  apply List.filter_eq_self.mpr
  intro row _
  rw [passes_iff]
  intro s filterIU pseudo hop hl
  have := h.scope_pos hop
  omega

/-- A layer keeps the rows of the one around it for which the filter holds. -/
theorem FilterLayers.rowsAt_scope (h : FilterLayers subops layer innermost driver driverIU) {s : ℕ}
    {filterIU pseudo : IU} (hop : subops[s]? = some (.columnFilterScope filterIU pseudo)) :
    rowsAt widths inputs subops layer (layer s) =
      (rowsAt widths inputs subops layer (layer s - 1)).filter fun row =>
        inputs.holds (rowValues widths inputs subops row filterIU) := by
  have hpos := h.scope_pos hop
  rw [rowsAt, rowsAt, List.filter_filter]
  apply List.filter_congr
  intro row _
  rw [Bool.eq_iff_iff, Bool.and_eq_true, passes_iff, passes_iff]
  constructor
  · intro hall
    exact ⟨hall s _ _ hop (Nat.le_refl _), fun t f p ht hl => hall t f p ht (by omega)⟩
  · rintro ⟨hs, hall⟩ t f p ht hl
    rcases Nat.lt_or_eq_of_le hl with hlt | heq
    · exact hall t f p ht (by omega)
    · have hts : t = s := by
        apply h.oneScope t s _ _ heq
        · rw [opensBlockAt, ht]
          rfl
        · rw [opensBlockAt, hop]
          rfl
      subst hts
      rw [hop] at ht
      cases ht
      exact hs

omit [DecidableEq IU] in
theorem keep_map (rows : List ℕ) (f g : ℕ → Cell V) :
    keep inputs (rows.map f) (rows.map g) =
      (rows.filter fun row => inputs.holds (f row)).map g := by
  induction rows with
  | nil => rfl
  | cons row rows ih =>
    unfold keep at ih ⊢
    rw [List.map_cons, List.map_cons, List.zip_cons_cons, List.filter_cons, List.filter_cons]
    split
    · rw [List.map_cons, List.map_cons, ih]
    · exact ih

omit [DecidableEq IU] in
theorem columnLayer_eq {k : ℕ} {op : Suboperator IU} (hop : subops[k]? = some op)
    (hscope : ∀ filterIU pseudo, op ≠ .columnFilterScope filterIU pseudo) :
    columnLayer subops layer k = layer k := by
  rw [columnLayer, hop]
  cases op with
  | columnFilterScope filterIU pseudo => exact absurd rfl (hscope filterIU pseudo)
  | _ => rfl

/-- What is no filter reads columns of its own layer. -/
theorem FilterLayers.same_layer (h : FilterLayers subops layer innermost driver driverIU) {k : ℕ}
    {op : Suboperator IU} (hop : subops[k]? = some op)
    (hscope : ∀ filterIU pseudo, op ≠ .columnFilterScope filterIU pseudo)
    (hlogic : ∀ pseudo incoming redefined, op ≠ .columnFilterLogic pseudo incoming redefined)
    {iu : IU} (hiu : iu ∈ op.reads) :
    ∃ j < k, ∃ producer, subops[j]? = some producer ∧ iu ∈ producer.getIUs ∧
      columnLayer subops layer j = layer k := by
  obtain ⟨j, hjk, producer, hproducer, hplain, hmem, hedge, -⟩ := h.producer hop hiu
  refine ⟨j, hjk, producer, hproducer, hmem, ?_⟩
  rw [columnLayer_eq hproducer hplain, h.same k op hop hscope hlogic j hedge]

/-- IU providers are in the outermost layer. -/
theorem FilterLayers.provider_layer (h : FilterLayers subops layer innermost driver driverIU)
    {k : ℕ} {source iu : IU} (hop : subops[k]? = some (.tscanIUProvider source iu) ∨
      subops[k]? = some (.fuseChunkSourceIUProvider source iu)) :
    source = driverIU ∧ layer k = 0 := by
  have hsource := h.indexed k source iu hop
  subst hsource
  have hdriver : ∀ (j : ℕ) (producer : Suboperator IU), subops[j]? = some producer →
      source ∈ producer.getIUs → columnLayer subops layer j = layer k → layer k = 0 := by
    intro j producer hproducer hmem hlayer
    obtain rfl := h.unique.eq hproducer h.driverAt hmem (List.mem_singleton_self _)
    rw [← hlayer, columnLayer_eq h.driverAt (by simp), h.driverLayer]
  refine ⟨rfl, ?_⟩
  rcases hop with hop | hop
  · obtain ⟨j, -, producer, hproducer, hmem, hlayer⟩ :=
      h.same_layer hop (by simp) (by simp) (List.mem_singleton_self _)
    exact hdriver j producer hproducer hmem hlayer
  · obtain ⟨j, -, producer, hproducer, hmem, hlayer⟩ :=
      h.same_layer hop (by simp) (by simp) (List.mem_singleton_self _)
    exact hdriver j producer hproducer hmem hlayer

theorem range'_eq_map (inputs : Inputs V B) : inputs.rows =
    (List.range inputs.rows.length).map (inputs.start + ·) := by
  rw [Inputs.rows, List.length_range', List.range'_eq_map_range]

theorem map_range_getD (rows : List ℕ) {α : Type} (f : ℕ → α) :
    ((List.range rows.length).map fun j => f (rows.getD j 0)) = rows.map f := by
  apply List.ext_getElem
  · simp
  · intro j hj hj'
    rw [List.length_map] at hj'
    simp [List.getD_eq_getElem?_getD, List.getElem?_eq_getElem hj']

omit [DecidableEq IU] in
/-- An expression, row by row. -/
theorem compute_rows (rows : List ℕ) (k : ℕ) (operands : List IU) (length : ℕ)
    (columns : IU → List (Cell V)) (values : ℕ → IU → Cell V) (hlength : length = rows.length)
    (hcolumns : ∀ iu ∈ operands, columns iu = rows.map fun row => values row iu) :
    ((List.range length).map fun j => Cell.data
      (inputs.compute k (operands.map fun iu => (columns iu).getD j (.index 0)))) =
      rows.map fun row => Cell.data (inputs.compute k (operands.map (values row))) := by
  subst hlength
  rw [← map_range_getD rows]
  apply List.map_congr_left
  intro j hj
  rw [List.mem_range] at hj
  have hoperands : (operands.map fun iu => (columns iu).getD j (.index 0)) =
      operands.map (values (rows.getD j 0)) := by
    apply List.map_congr_left
    intro iu hiu
    simp [hcolumns iu hiu, List.getD_eq_getElem?_getD, List.getElem?_eq_getElem hj]
  rw [hoperands]

/-- The scope of a filter logic, and where the redefined column comes from. -/
theorem FilterLayers.logicScope (h : FilterLayers subops layer innermost driver driverIU) {k : ℕ}
    {pseudo incoming redefined : IU}
    (hop : subops[k]? = some (.columnFilterLogic pseudo incoming redefined)) :
    ∃ s < k, ∃ filterIU, subops[s]? = some (.columnFilterScope filterIU pseudo) ∧
      layer k = layer s ∧ ∃ j < k, ∃ producer, subops[j]? = some producer ∧
        incoming ∈ producer.getIUs ∧ columnLayer subops layer j = layer s - 1 := by
  have hop' : (Pipeline.build subops).suboperators[k]? =
      some (.columnFilterLogic pseudo incoming redefined) := by
    rwa [build_suboperators]
  obtain ⟨s, hscope, -, -⟩ := h.links.dag.logic k _ _ _ hop'
  obtain ⟨s', hlt, filterIU, hs', -⟩ := h.links.scopes k _ _ _ hop
  have hsource : pseudo ∈ sourceIUsAt subops k := by
    rw [sourceIUsAt_eq hop]
    exact List.mem_cons_self ..
  have hprovider := providerOf_eq h.links.provided hsource hlt
    (mem_iusAt.mpr ⟨_, hs', List.mem_singleton_self _⟩)
  have hfind := (@Dag.findProvider IU _ _ (dag_build h.links.provided) k pseudo
    (by rwa [build_suboperators])).1
  have hs : s = s' := by
    rw [Pipeline.scopeOf, hop'] at hscope
    rw [hprovider] at hfind
    simpa [hfind] using hscope.symm
  subst hs
  obtain ⟨j, hjk, producer, hproducer, hplain, hmem, -, hof⟩ :=
    h.producer hop (List.mem_singleton_self incoming)
  obtain ⟨hlayer, hincoming⟩ := h.logic k s _ _ _ hop hscope
  refine ⟨s, hlt, filterIU, hs', hlayer, j, hjk, producer, hproducer, hmem, ?_⟩
  rw [columnLayer_eq hproducer hplain]
  rw [hof] at hincoming
  omega

/-- An IU provider, row by row. -/
theorem provider_rows (h : FilterLayers subops layer innermost driver driverIU) (k : ℕ) (iu : IU)
    (hread : columns widths inputs subops driverIU =
      (rowsAt widths inputs subops layer 0).map fun row =>
        rowValues widths inputs subops row driverIU) :
    columnStep widths inputs k (.tscanIUProvider driverIU iu) (columns widths inputs subops) =
      (rowsAt widths inputs subops layer 0).map fun row =>
        rowStep widths inputs row k (.tscanIUProvider driverIU iu)
          (rowValues widths inputs subops row) := by
  simp only [columnStep, rowStep]
  cases widths iu with
  | none =>
    rw [hread, List.map_map]
    rfl
  | some width =>
    rw [hread, List.length_map, h.rowsAt_zero]
    dsimp only
    conv_rhs => rw [range'_eq_map, List.map_map]
    apply List.map_congr_left
    intro j _
    simp

/-- Every column holds, for the rows of its layer, the values of the single rows. -/
theorem FilterLayers.column_rows (h : FilterLayers subops layer innermost driver driverIU) {k : ℕ}
    {op : Suboperator IU} (hop : subops[k]? = some op) {iu : IU} (hiu : iu ∈ op.getIUs) :
    columns widths inputs subops iu =
      (rowsAt widths inputs subops layer (columnLayer subops layer k)).map fun row =>
        rowValues widths inputs subops row iu := by
  induction k using Nat.strong_induction_on generalizing op iu with
  | _ k ih =>
    have hvalue : ∀ row, rowValues widths inputs subops row iu =
        rowStep widths inputs row k op (rowValues widths inputs subops row) :=
      fun row => rowValues_eq h row hop hiu
    have hread : (∀ filterIU pseudo, op ≠ .columnFilterScope filterIU pseudo) →
        (∀ pseudo incoming redefined, op ≠ .columnFilterLogic pseudo incoming redefined) →
        ∀ x ∈ op.reads, columns widths inputs subops x =
          (rowsAt widths inputs subops layer (layer k)).map fun row =>
            rowValues widths inputs subops row x := by
      intro hscope hlogic x hx
      obtain ⟨j, hjk, producer, hproducer, hmem, hlayer⟩ := h.same_layer hop hscope hlogic hx
      rw [ih j hjk hproducer hmem, hlayer]
    simp only [columns_eq h hop hiu, hvalue]
    cases op with
    | loopDriver driverIU' =>
      rw [h.oneDriver k _ hop, columnLayer_eq h.driverAt (by simp), h.driverLayer, h.rowsAt_zero]
      rfl
    | tscanIUProvider source iu' =>
      obtain ⟨rfl, hzero⟩ := h.provider_layer (.inl hop)
      rw [columnLayer_eq hop (by simp), hzero]
      exact provider_rows h k iu' (hzero ▸ hread (by simp) (by simp) _ (List.mem_singleton_self _))
    | fuseChunkSourceIUProvider source iu' =>
      obtain ⟨rfl, hzero⟩ := h.provider_layer (.inr hop)
      rw [columnLayer_eq hop (by simp), hzero]
      exact provider_rows h k iu' (hzero ▸ hread (by simp) (by simp) _ (List.mem_singleton_self _))
    | copy source iu' =>
      rw [columnLayer_eq hop (by simp)]
      exact hread (by simp) (by simp) source (List.mem_singleton_self _)
    | other input others ius =>
      rw [columnLayer_eq hop (by simp)]
      have hcolumns := hread (by simp) (by simp)
      apply compute_rows
      · rw [hcolumns input (List.mem_cons_self ..), List.length_map]
      · exact hcolumns
    | columnFilterScope filterIU pseudo =>
      obtain ⟨j, hjk, producer, hproducer, hplain, hmem, hedge, -⟩ :=
        h.producer hop (List.mem_singleton_self filterIU)
      have hlayer : columnLayer subops layer k = columnLayer subops layer j := by
        rw [columnLayer_eq hproducer hplain, columnLayer, hop, h.scope k _ _ hop j hedge]
        exact Nat.add_sub_cancel ..
      rw [hlayer]
      exact ih j hjk hproducer hmem
    | columnFilterLogic pseudo incoming redefined =>
      obtain ⟨s, hlt, filterIU, hs, hlayer, j, hjk, producer, hproducer, hmem, houter⟩ :=
        h.logicScope hop
      have hconditions : columns widths inputs subops pseudo =
          (rowsAt widths inputs subops layer (layer s - 1)).map fun row =>
            rowValues widths inputs subops row filterIU := by
        have hcolumn := ih s hlt hs (List.mem_singleton_self pseudo)
        rw [columnLayer, hs] at hcolumn
        simp only [rowValues_eq h _ hs (List.mem_singleton_self pseudo)] at hcolumn
        exact hcolumn
      have hincoming := ih j hjk hproducer hmem
      rw [houter] at hincoming
      rw [columnLayer_eq hop (by simp), hlayer, h.rowsAt_scope hs]
      show keep inputs (columns widths inputs subops pseudo)
        (columns widths inputs subops incoming) = _
      rw [hconditions, hincoming, keep_map]
      rfl
    | fuseChunkSink source => cases hiu
    | _ => cases h.fusable _ (List.mem_of_getElem? hop)

end Columns

end InkFuse.Algebra.SubopGraph
