import InkFuse.Algebra.Interpretation

/-!
A whole morsel in the interpreter. After each suboperator the fuse chunk holds the columns of all
suboperators up to it. In the end it holds what the fused function writes.
-/

namespace InkFuse.Algebra.SubopGraph

open Blocks

variable {IU : Type} [DecidableEq IU] {V B : Type}

/-- The fragments of all suboperators agree with the pipeline, which reads a table; only table scans
read the loop index. -/
structure Interpreted (subops : List (Suboperator IU)) (isVoid : IU → Bool)
    (filtersItself : ℕ → Bool) (driverIU : IU) : Prop extends Interpretable subops isVoid where
  apart : ∀ (k : ℕ) (op : Suboperator IU), subops[k]? = some op →
    ReadsApart subops (filtersItself k) op
  tableScan : ∀ (k : ℕ) (source iu : IU),
    subops[k]? ≠ some (.fuseChunkSourceIUProvider source iu)
  index : ∀ op ∈ subops, driverIU ∈ op.reads → ∃ iu, op = .tscanIUProvider driverIU iu

/-- The columns of the first `k` suboperators are there, and nothing else. -/
structure InterpretedTo (inputs : Inputs V B) (subops : List (Suboperator IU)) (k : ℕ)
    (chunk : Chunk IU V) : Prop where
  done : ∀ j < k, ∀ op, subops[j]? = some op → op.isInterpreted = true → ∀ iu ∈ op.getIUs,
    (chunk iu).map .data = columns (fun _ => none) inputs subops iu
  empty : ∀ j ≥ k, ∀ iu ∈ iusAt subops j, chunk iu = []

variable {subops : List (Suboperator IU)} {layer : ℕ → ℕ} {innermost driver : ℕ} {driverIU : IU}
variable {isVoid : IU → Bool} {filtersItself : ℕ → Bool} {inputs : Inputs V B} {garbage : V}
variable {chunk : Chunk IU V} {k : ℕ} {op : Suboperator IU}

/-- Whoever provides a column other than the loop index has an interpreter. -/
theorem Interpreted.producer (hi : Interpreted subops isVoid filtersItself driverIU)
    (h : FilterLayers subops layer innermost driver driverIU) (hop : subops[k]? = some op)
    (hscan : ∀ iu, op ≠ .tscanIUProvider driverIU iu) {iu : IU} (hiu : iu ∈ op.reads) :
    ∃ j < k, ∃ producer, subops[j]? = some producer ∧ iu ∈ producer.getIUs ∧
      producer.isInterpreted = true := by
  obtain ⟨j, hjk, producer, hproducer, hplain, hmem, -, -⟩ := h.producer hop hiu
  refine ⟨j, hjk, producer, hproducer, hmem, ?_⟩
  have hfusable := h.fusable producer (List.mem_of_getElem? hproducer)
  cases producer with
  | loopDriver driverIU' =>
    obtain rfl := h.oneDriver j driverIU' hproducer
    rw [h.driverAt] at hproducer
    cases hproducer
    obtain rfl := List.mem_singleton.mp hmem
    obtain ⟨iu', hscan'⟩ := hi.index op (List.mem_of_getElem? hop) hiu
    exact absurd hscan' (hscan iu')
  | columnFilterScope filterIU pseudo => exact absurd rfl (hplain filterIU pseudo)
  | fuseChunkSourceIUProvider source iu' => exact absurd hproducer (hi.tableScan j source iu')
  | fuseChunkSink source => cases hmem
  | tscanIUProvider => rfl
  | copy => rfl
  | columnFilterLogic => rfl
  | other input inputs ius => exact hfusable
  | _ => cases hfusable

/-- What a suboperator reads is there. -/
theorem InterpretedTo.read (hinv : InterpretedTo inputs subops k chunk)
    (hi : Interpreted subops isVoid filtersItself driverIU)
    (h : FilterLayers subops layer innermost driver driverIU) {i : ℕ} (hik : i ≤ k)
    (hop : subops[i]? = some op) (hscan : ∀ iu, op ≠ .tscanIUProvider driverIU iu) {iu : IU}
    (hiu : iu ∈ op.reads) : (chunk iu).map .data = columns (fun _ => none) inputs subops iu := by
  obtain ⟨j, hj, producer, hproducer, hmem, hinterpreted⟩ := hi.producer h hop hscan hiu
  exact hinv.done j (Nat.lt_of_lt_of_le hj hik) producer hproducer hinterpreted iu hmem

theorem length_rows (h : FilterLayers subops layer innermost driver driverIU) {j : ℕ}
    (hop : subops[j]? = some op) {iu : IU} (hiu : iu ∈ op.getIUs)
    (hcolumn : (chunk iu).map .data = columns (fun _ => none) inputs subops iu) :
    (chunk iu).length =
      (rowsAt (fun _ => none) inputs subops layer (columnLayer subops layer j)).length := by
  have hlength := congrArg List.length hcolumn
  rw [h.column_rows hop hiu, List.length_map, List.length_map] at hlength
  exact hlength

/-- One more column. -/
theorem InterpretedTo.append (hinv : InterpretedTo inputs subops k chunk)
    (h : FilterLayers subops layer innermost driver driverIU) (hop : subops[k]? = some op)
    {out : IU}
    (hius : op.getIUs = [out]) {vs : List V}
    (hvs : vs.map .data = columns (fun _ => none) inputs subops out) :
    InterpretedTo inputs subops (k + 1) (Function.update chunk out vs) := by
  have hout : out ∈ op.getIUs := by
    rw [hius]
    exact List.mem_singleton_self _
  constructor
  · intro j hj producer hproducer hinterpreted iu hiu
    by_cases heq : iu = out
    · rw [heq, Function.update_self, hvs]
    · rw [Function.update_of_ne heq]
      have hne : j ≠ k := by
        rintro rfl
        rw [hop, Option.some_inj] at hproducer
        rw [← hproducer, hius] at hiu
        exact heq (List.mem_singleton.mp hiu)
      exact hinv.done j (by omega) producer hproducer hinterpreted iu hiu
  · intro j hj iu hiu
    obtain ⟨producer, hproducer, hmem⟩ := mem_iusAt.mp hiu
    have hne : iu ≠ out := by
      rintro rfl
      have := h.unique.eq hproducer hop hmem hout
      omega
    rw [Function.update_of_ne hne]
    exact hinv.empty j (Nat.le_of_succ_le hj) iu hiu

/-- A suboperator without an interpreter changes nothing. -/
theorem InterpretedTo.skip (hinv : InterpretedTo inputs subops k chunk)
    (hop : subops[k]? = some op) (hskip : op.isInterpreted = false) :
    InterpretedTo inputs subops (k + 1) chunk := by
  constructor
  · intro j hj producer hproducer hinterpreted iu hiu
    have hne : j ≠ k := by
      rintro rfl
      rw [hop, Option.some_inj] at hproducer
      rw [← hproducer, hskip] at hinterpreted
      cases hinterpreted
    exact hinv.done j (by omega) producer hproducer hinterpreted iu hiu
  · intro j hj iu hiu
    exact hinv.empty j (Nat.le_of_succ_le hj) iu hiu

/-- A table scan hooks up the rows of the morsel. -/
theorem interpret_scan (h : FilterLayers subops layer innermost driver driverIU) {iu : IU}
    (hop : subops[k]? = some (.tscanIUProvider driverIU iu)) :
    (inputs.rows.map (inputs.load k)).map Cell.data = columns (fun _ => none) inputs subops iu := by
  rw [columns_eq h hop (List.mem_singleton_self iu)]
  show _ = (columns (fun _ => none) inputs subops driverIU).map (readAt inputs k)
  rw [columns_eq h h.driverAt (List.mem_singleton_self driverIU)]
  show _ = (inputs.rows.map Cell.index).map (readAt inputs k)
  rw [List.map_map, List.map_map]
  rfl

def Interprets (inputs : Inputs V B) (garbage : V) (subops : List (Suboperator IU))
    (isVoid : IU → Bool) (filtersItself : ℕ → Bool) (chunk : Chunk IU V) (k : ℕ) : Prop :=
  ∃ chunk', InterpretedTo inputs subops (k + 1) chunk' ∧ ∃ bound, ∀ fuel ≥ bound,
    interpretStep inputs garbage subops isVoid filtersItself fuel chunk k = some chunk'

theorem InterpretedTo.skips (hinv : InterpretedTo inputs subops k chunk)
    (hop : subops[k]? = some op) (hskip : op.isInterpreted = false)
    (hnone : (op.outgoingStrongLinks || op.isFuseChunkOp) = true) :
    Interprets inputs garbage subops isVoid filtersItself chunk k := by
  refine ⟨chunk, hinv.skip hop hskip, 0, fun fuel _ => ?_⟩
  simp only [interpretStep, hop, hnone, Option.bind_eq_bind, Option.bind_some, if_true]

theorem InterpretedTo.runs (hinv : InterpretedTo inputs subops k chunk)
    (h : FilterLayers subops layer innermost driver driverIU) (hop : subops[k]? = some op)
    (hsome : (op.outgoingStrongLinks || op.isFuseChunkOp) = false) {out : IU} {vs : List V}
    (hius : op.getIUs = [out])
    (hrun : ∃ bound, ∀ fuel ≥ bound,
      runInterpreter inputs garbage subops isVoid filtersItself fuel k op chunk =
        some (Function.update chunk out vs))
    (hvs : vs.map .data = columns (fun _ => none) inputs subops out) :
    Interprets inputs garbage subops isVoid filtersItself chunk k := by
  obtain ⟨bound, hbound⟩ := hrun
  refine ⟨_, hinv.append h hop hius hvs, bound, fun fuel hfuel => ?_⟩
  simp only [interpretStep, hop, hsome, Option.bind_eq_bind, Option.bind_some, Bool.false_eq_true,
    if_false]
  exact hbound fuel hfuel

/-- The columns of the operands have the same length. -/
theorem InterpretedTo.other (hinv : InterpretedTo inputs subops k chunk)
    (hi : Interpreted subops isVoid filtersItself driverIU)
    (h : FilterLayers subops layer innermost driver driverIU) {input out : IU} {others : List IU}
    (hop : subops[k]? = some (.other input others [out])) :
    Interprets inputs garbage subops isVoid filtersItself chunk k := by
  have hread : ∀ iu ∈ input :: others,
      (chunk iu).map .data = columns (fun _ => none) inputs subops iu :=
    fun iu hiu => hinv.read hi h (Nat.le_refl k) hop (by simp) hiu
  have hrows : ∀ iu ∈ input :: others,
      (chunk iu).length = (rowsAt (fun _ => none) inputs subops layer (layer k)).length := by
    intro iu hiu
    obtain ⟨j, -, producer, hproducer, hmem, hlayer⟩ :=
      h.same_layer hop (by simp) (by simp) hiu
    rw [length_rows h hproducer hmem (hread iu hiu), hlayer]
  have hlength : ∀ iu ∈ input :: others, (chunk iu).length = (chunk input).length := by
    intro iu hiu
    rw [hrows iu hiu, hrows input (List.mem_cons_self ..)]
  have hempty : chunk out = [] :=
    hinv.empty k (Nat.le_refl k) out (mem_iusAt.mpr ⟨_, hop, List.mem_singleton_self out⟩)
  apply hinv.runs h hop rfl rfl
    (interpret_other hi.toInterpretable hop (hi.apart k _ hop) hempty hlength)
  rw [columns_eq h hop (List.mem_singleton_self out), columnStep, List.map_map,
    ← hread input (List.mem_cons_self ..), List.length_map]
  apply List.map_congr_left
  intro j _
  have hoperands : ((input :: others).map fun iu => ((chunk iu).map Cell.data).getD j (.index 0)) =
      (input :: others).map fun iu =>
        (columns (fun _ => none) inputs subops iu).getD j (.index 0) := by
    apply List.map_congr_left
    intro iu hiu
    rw [hread iu hiu]
  exact congrArg (fun cells => Cell.data (inputs.compute k cells)) hoperands

/-- The conditions and the incoming column belong to the rows of the layer around the filter. -/
theorem InterpretedTo.filter (hinv : InterpretedTo inputs subops k chunk)
    (hi : Interpreted subops isVoid filtersItself driverIU)
    (h : FilterLayers subops layer innermost driver driverIU) {pseudo incoming redefined : IU}
    (hop : subops[k]? = some (.columnFilterLogic pseudo incoming redefined)) :
    Interprets inputs garbage subops isVoid filtersItself chunk k := by
  obtain ⟨s, hsk, filterIU, hs, -, j, -, source, hsource, hmem, hlayer⟩ := h.logicScope hop
  have hconditions :=
    hinv.read hi h (Nat.le_of_lt hsk) hs (by simp) (List.mem_singleton_self filterIU)
  have hincoming :=
    hinv.read hi h (Nat.le_refl k) hop (by simp) (List.mem_singleton_self incoming)
  have hlength : (chunk incoming).length = (chunk filterIU).length := by
    obtain ⟨i, -, condition, hcondition, hplain, hmem', hedge, -⟩ :=
      h.producer hs (List.mem_singleton_self filterIU)
    rw [length_rows h hsource hmem hincoming, length_rows h hcondition hmem' hconditions, hlayer,
      columnLayer_eq hcondition hplain, h.scope s _ _ hs i hedge, Nat.add_sub_cancel]
  have hempty : chunk redefined = [] :=
    hinv.empty k (Nat.le_refl k) redefined
      (mem_iusAt.mpr ⟨_, hop, List.mem_singleton_self redefined⟩)
  have hflag := (hi.readsApart_filter hs).mp (hi.apart k _ hop)
  apply hinv.runs h hop rfl rfl (interpret_filter hi.toInterpretable hop hs hflag hempty hlength)
  rw [keepRows_data, hincoming, hconditions, columns_eq h hop (List.mem_singleton_self redefined),
    columnStep, columns_eq h hs (List.mem_singleton_self pseudo)]
  rfl

/-- One suboperator. -/
theorem InterpretedTo.step (hinv : InterpretedTo inputs subops k chunk)
    (hi : Interpreted subops isVoid filtersItself driverIU)
    (h : FilterLayers subops layer innermost driver driverIU) (hk : k < subops.length) :
    Interprets inputs garbage subops isVoid filtersItself chunk k := by
  obtain ⟨op, hop⟩ : ∃ op, subops[k]? = some op := ⟨_, List.getElem?_eq_getElem hk⟩
  have hfusable := h.fusable op (List.mem_of_getElem? hop)
  cases op with
  | loopDriver => exact hinv.skips hop rfl rfl
  | columnFilterScope => exact hinv.skips hop rfl rfl
  | fuseChunkSink => exact hinv.skips hop rfl rfl
  | fuseChunkSourceIUProvider source iu => exact absurd hop (hi.tableScan k source iu)
  | tscanIUProvider source iu =>
    obtain rfl := h.indexed k source iu (.inl hop)
    exact hinv.runs h hop rfl rfl ⟨0, fun _ _ => rfl⟩ (interpret_scan h hop)
  | copy source iu =>
    have hempty : chunk iu = [] :=
      hinv.empty k (Nat.le_refl k) iu (mem_iusAt.mpr ⟨_, hop, List.mem_singleton_self iu⟩)
    apply hinv.runs h hop rfl rfl (interpret_copy hi.toInterpretable hop hempty)
    rw [columns_eq h hop (List.mem_singleton_self iu)]
    exact hinv.read hi h (Nat.le_refl k) hop (by simp) (List.mem_singleton_self source)
  | other input others ius =>
    obtain ⟨out, rfl⟩ : ∃ out, ius = [out] := by
      simpa [Suboperator.isFusable, List.length_eq_one_iff] using hfusable
    exact hinv.other hi h hop
  | columnFilterLogic pseudo incoming redefined => exact hinv.filter hi h hop
  | _ => cases hfusable

/-- All suboperators, one after the other. -/
theorem interpret_run (hi : Interpreted subops isVoid filtersItself driverIU)
    (h : FilterLayers subops layer innermost driver driverIU) (n : ℕ) (hn : n ≤ subops.length) :
    ∃ chunk, InterpretedTo inputs subops n chunk ∧ ∃ bound, ∀ fuel ≥ bound,
      (List.range n).foldlM (interpretStep inputs garbage subops isVoid filtersItself fuel)
        (fun _ => []) = some chunk := by
  induction n with
  | zero =>
    refine ⟨fun _ => [], ⟨?_, ?_⟩, 0, fun _ _ => rfl⟩
    · intro j hj
      exact absurd hj (Nat.not_lt_zero j)
    · intro _ _ _ _
      rfl
  | succ n ih =>
    obtain ⟨chunk, hinv, bound, hbound⟩ := ih (Nat.le_of_succ_le hn)
    have hstep : Interprets inputs garbage subops isVoid filtersItself chunk n := hinv.step hi h hn
    obtain ⟨chunk', hinv', bound', hbound'⟩ := hstep
    refine ⟨chunk', hinv', max bound bound', fun fuel hfuel => ?_⟩
    rw [List.range_succ, List.foldlM_append, hbound fuel (by omega)]
    simp only [Option.bind_eq_bind, Option.bind_some, List.foldlM_cons, List.foldlM_nil]
    rw [hbound' fuel (by omega)]
    rfl

/-- Vectorized interpretation computes what the fused function computes: on every morsel both end,
and the columns of the fuse chunk are the ones that the sinks of the function hold. -/
theorem interpretation_agrees (h : FilterLayers subops layer innermost driver driverIU)
    (hi : Interpreted subops isVoid filtersItself driverIU) (fuel : ℕ)
    (hfuel : 2 * subops.length + 1 ≤ fuel) :
    ∃ c, generate (fun _ => none) subops fuel = some c ∧
      ∀ (inputs : Inputs V B) (garbage : V) (m : Machine IU V B), (∀ k, (m.sinks k).size = 0) →
        ∃ m' chunk bound, (∀ fuel ≥ bound,
            exec (semantics inputs) c.builder.blocks fuel (c.builder.blocks 0) m = some m' ∧
            runInterpretedMorsel inputs garbage subops isVoid filtersItself fuel = some chunk) ∧
          ∀ k source, subops[k]? = some (.fuseChunkSink source) →
            (m'.sinks k).values = some (chunk source) ∧
            (chunk source).map .data = columns (fun _ => none) inputs subops source := by
  obtain ⟨c, hgenerate, -, hruns⟩ := generate_runs (fun _ => none) h fuel hfuel
  refine ⟨c, hgenerate, fun inputs garbage m hempty => ?_⟩
  obtain ⟨m', hrun, hsinks⟩ := hruns inputs m hempty
  obtain ⟨bound, hbound⟩ := hrun.enough
  obtain ⟨chunk, hinv, bound', hbound'⟩ := interpret_run hi h subops.length (Nat.le_refl _)
  refine ⟨m', chunk, max bound bound', fun fuel hfuel => ⟨?_, ?_⟩, fun k source hop => ?_⟩
  · exact hbound fuel (by omega)
  · exact hbound' fuel (by omega)
  · have hread := hinv.read hi h (Nat.le_of_lt (List.getElem?_eq_some_iff.mp hop).1) hop (by simp)
      (List.mem_singleton_self source)
    have hwritten := hsinks k source hop
    rw [h.passed_eq hop, ← hread] at hwritten
    exact ⟨hwritten.values, hread⟩

end InkFuse.Algebra.SubopGraph
