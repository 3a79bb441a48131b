import InkFuse.Algebra.ColumnMeaning

/-!
What the generated function does. It goes over the rows of the morsel one by one; the sinks end up
with the columns that the pipeline means.
-/

namespace InkFuse.Algebra.SubopGraph

open Blocks

variable {IU : Type} [DecidableEq IU] {V B : Type}

/-- The column of a fuse chunk: `cells` for types of a fixed size, `bytes` for `ByteArray`s. -/
structure SinkColumn (V B : Type) where
  cells : ℕ → Option (Cell V)
  bytes : ℕ → Option B
  size : ℕ

/-- A variable without a value cannot be read. -/
structure Machine (IU V B : Type) where
  vars : IU → Option (Cell V)
  limits : ℕ → Option ℕ
  iterators : ℕ → Option ℕ
  sinks : ℕ → SinkColumn V B

namespace Machine

def set (m : Machine IU V B) (iu : IU) (value : Option (Cell V)) : Machine IU V B :=
  { m with vars := Function.update m.vars iu value }

def setIterator (m : Machine IU V B) (k n : ℕ) : Machine IU V B :=
  { m with iterators := Function.update m.iterators k (some n) }

def setSink (m : Machine IU V B) (k : ℕ) (column : SinkColumn V B) : Machine IU V B :=
  { m with sinks := Function.update m.sinks k column }

def indexOf (m : Machine IU V B) (iu : IU) : Option ℕ :=
  match m.vars iu with
  | some (.index n) => some n
  | _ => none

section Updates

variable (m : Machine IU V B) (iu x : IU) (value : Option (Cell V)) (k n j : ℕ)
variable (column : SinkColumn V B)

@[simp] theorem set_vars : (m.set iu value).vars = Function.update m.vars iu value := by rfl

@[simp] theorem set_limits : (m.set iu value).limits = m.limits := by rfl

@[simp] theorem set_iterators : (m.set iu value).iterators = m.iterators := by rfl

@[simp] theorem set_sinks : (m.set iu value).sinks = m.sinks := by rfl

omit [DecidableEq IU]

@[simp] theorem setIterator_vars : (m.setIterator k n).vars = m.vars := by rfl

@[simp] theorem setIterator_limits : (m.setIterator k n).limits = m.limits := by rfl

@[simp] theorem setIterator_iterators :
    (m.setIterator k n).iterators = Function.update m.iterators k (some n) := by rfl

@[simp] theorem setIterator_sinks : (m.setIterator k n).sinks = m.sinks := by rfl

@[simp] theorem setSink_vars : (m.setSink k column).vars = m.vars := by rfl

@[simp] theorem setSink_limits : (m.setSink k column).limits = m.limits := by rfl

@[simp] theorem setSink_iterators : (m.setSink k column).iterators = m.iterators := by rfl

@[simp] theorem setSink_sinks :
    (m.setSink k column).sinks = Function.update m.sinks k column := by rfl

end Updates

end Machine

/-- `*(raw_data + *size) = value` -/
def SinkColumn.writeCell (column : SinkColumn V B) (value : Cell V) : SinkColumn V B :=
  { column with cells := Function.update column.cells column.size (some value) }

/-- `memcpy(raw_data + start, value, width)` -/
def SinkColumn.writeBytes (column : SinkColumn V B) (start width : ℕ) (bytes : ℕ → B) :
    SinkColumn V B :=
  { column with bytes := fun i =>
      if start ≤ i ∧ i < start + width then some (bytes (i - start)) else column.bytes i }

def Statement.run (inputs : Inputs V B) (m : Machine IU V B) :
    Statement IU → Option (Machine IU V B)
  | .declare iu => some (m.set iu none)
  | .loadMorsel driverIU k =>
    some { m.set driverIU (some (.index inputs.start)) with
      limits := Function.update m.limits k (some inputs.stop) }
  | .zeroIterator k => some (m.setIterator k 0)
  | .readCell iu driverIU k =>
    (m.indexOf driverIU).map fun n => m.set iu (some (.data (inputs.load k n)))
  | .readAddress iu k =>
    (m.iterators k).map fun n => m.set iu (some (.data (inputs.address k n)))
  | .advance k width => (m.iterators k).map fun n => m.setIterator k (n + width)
  | .compute iu operands k =>
    (operands.mapM m.vars).map fun values => m.set iu (some (.data (inputs.compute k values)))
  | .assign iu source => (m.vars source).map fun value => m.set iu (some value)
  | .writeCell k source => (m.vars source).map fun value =>
    m.setSink k ((m.sinks k).writeCell value)
  | .writeBytes k source width => do
    let value ← m.vars source
    let start ← m.iterators k
    some (m.setSink k ((m.sinks k).writeBytes start width (inputs.byteAt value)))
  | .incrementSize k => some (m.setSink k { m.sinks k with size := (m.sinks k).size + 1 })
  | .incrementIndex driverIU =>
    (m.indexOf driverIU).map fun n => m.set driverIU (some (.index (n + 1)))

def Condition.test (inputs : Inputs V B) (m : Machine IU V B) : Condition IU → Option Bool
  | .beforeEnd driverIU k => do
    let n ← m.indexOf driverIU
    let stop ← m.limits k
    some (decide (n < stop))
  | .holds filterIU => (m.vars filterIU).map inputs.holds

def semantics (inputs : Inputs V B) :
    Semantics (Statement IU) (Condition IU) (Machine IU V B) where
  step a m := a.run inputs m
  test cond m := cond.test inputs m

def SinkColumn.Written (inputs : Inputs V B) (column : SinkColumn V B) (width : Option ℕ)
    (values : List (Cell V)) : Prop :=
  column.size = values.length ∧
  match width with
  | none => ∀ j value, values[j]? = some value → column.cells j = some value
  | some w => ∀ j value, values[j]? = some value →
      ∀ b < w, column.bytes (j * w + b) = some (inputs.byteAt value b)

section Columns

variable {inputs : Inputs V B} {column : SinkColumn V B} {values : List (Cell V)} {value : Cell V}

theorem SinkColumn.Written.concatCell (h : column.Written inputs none values) :
    SinkColumn.Written inputs
      { column.writeCell value with size := (column.writeCell value).size + 1 } none
      (values ++ [value]) := by
  obtain ⟨hsize, hcells⟩ := h
  refine ⟨by simp [SinkColumn.writeCell, hsize], ?_⟩
  intro j v hj
  show Function.update column.cells column.size (some value) j = some v
  rcases Nat.lt_trichotomy j values.length with hlt | heq | hgt
  · rw [List.getElem?_append_left hlt] at hj
    rw [Function.update_of_ne (by omega)]
    exact hcells j v hj
  · rw [heq, List.getElem?_concat_length, Option.some_inj] at hj
    rw [heq, ← hsize, Function.update_self, hj]
  · have hnone : (values ++ [value])[j]? = none :=
      List.getElem?_eq_none (by simpa using Nat.succ_le_of_lt hgt)
    rw [hnone] at hj
    cases hj

theorem SinkColumn.Written.concatBytes {w : ℕ} (h : column.Written inputs (some w) values) :
    SinkColumn.Written inputs
      { column.writeBytes (values.length * w) w (inputs.byteAt value) with size := column.size + 1 }
      (some w) (values ++ [value]) := by
  obtain ⟨hsize, hbytes⟩ := h
  refine ⟨by simp [hsize], ?_⟩
  intro j v hj b hb
  show (if values.length * w ≤ j * w + b ∧ j * w + b < values.length * w + w then
    some (inputs.byteAt value (j * w + b - values.length * w)) else column.bytes (j * w + b)) = _
  rcases Nat.lt_trichotomy j values.length with hlt | heq | hgt
  · rw [List.getElem?_append_left hlt] at hj
    have hle : (j + 1) * w ≤ values.length * w := Nat.mul_le_mul_right w hlt
    rw [Nat.succ_mul] at hle
    rw [if_neg (by omega)]
    exact hbytes j v hj b hb
  · rw [heq, List.getElem?_concat_length, Option.some_inj] at hj
    rw [heq, if_pos (by omega), Nat.add_sub_cancel_left, hj]
  · have hnone : (values ++ [value])[j]? = none :=
      List.getElem?_eq_none (by simpa using Nat.succ_le_of_lt hgt)
    rw [hnone] at hj
    cases hj

end Columns

section Timely

variable {subops : List (Suboperator IU)} {layer : ℕ → ℕ} {innermost driver : ℕ} {driverIU : IU}
variable {order closings pre post : List ℕ} {k s j : ℕ}

/-- The suboperator generates its code in the block of its layer. Those that nobody in an inner
layer asks for may come later, in the `if` of a filter that is not around their columns. -/
def Timely (subops : List (Suboperator IU)) (layer : ℕ → ℕ) (order : List ℕ) (k : ℕ) : Prop :=
  ∀ s ∈ order, opensBlockAt subops s = true → order.idxOf s < order.idxOf k → layer s ≤ layer k

theorem CodeOrder.mem_op (ho : CodeOrder subops order closings) {op : Suboperator IU}
    (hop : subops[k]? = some op) : k ∈ order :=
  ho.mem (List.getElem?_eq_some_iff.mp hop).1

theorem FilterLayers.layer_lt (h : FilterLayers subops layer innermost driver driverIU)
    (ho : CodeOrder subops order closings) (hs : s ∈ order) (hopens : opensBlockAt subops j = true)
    (hopens' : opensBlockAt subops s = true) (hlt : order.idxOf j < order.idxOf s) :
    layer j < layer s := by
  obtain ⟨pre, post, horder⟩ := List.append_of_mem hs
  have hj := (idxOf_lt_iff ho.nodup horder).mp hlt
  have hlayers := h.order_layers ho
  rw [horder, List.filter_append, List.pairwise_append] at hlayers
  apply hlayers.2.2 j (List.mem_filter.mpr ⟨hj, hopens⟩) s
  exact List.mem_filter.mpr ⟨List.mem_cons_self .., hopens'⟩

/-- The columns that a timely suboperator reads are timely; those that filters read always are. -/
theorem FilterLayers.timely_input (h : FilterLayers subops layer innermost driver driverIU)
    (ho : CodeOrder subops order closings) {op : Suboperator IU} (hop : subops[k]? = some op)
    {producer : Suboperator IU} (hproducer : subops[j]? = some producer)
    (hplain : ∀ filterIU pseudo, producer ≠ .columnFilterScope filterIU pseudo)
    (hedge : j ∈ (Pipeline.build subops).incomingEdges k) {iu : IU} (hiu : iu ∈ op.reads)
    (hof : (Pipeline.build subops).providerOf (k, iu) = j)
    (hk : Timely subops layer order k) : Timely subops layer order j := by
  intro s hs hopens hlt
  have hjk := ho.input_lt (ho.mem_op hop) hedge
  have hsk := hk s hs hopens (Nat.lt_trans hlt hjk)
  cases hcase : op with
  | columnFilterScope filterIU pseudo =>
    rw [hcase] at hop
    have hopens' : opensBlockAt subops k = true := by
      rw [opensBlockAt, hop]
      rfl
    have hlayer := h.layer_lt ho (ho.mem_op hop) hopens hopens' (Nat.lt_trans hlt hjk)
    rw [h.scope k _ _ hop j hedge] at hlayer
    exact Nat.le_of_lt_succ hlayer
  | columnFilterLogic pseudo incoming redefined =>
    rw [hcase] at hop hiu
    obtain rfl : iu = incoming := List.mem_singleton.mp hiu
    have hop' : (Pipeline.build subops).suboperators[k]? =
        some (.columnFilterLogic pseudo iu redefined) := by
      rwa [build_suboperators]
    obtain ⟨t, hscope, hisScope, -⟩ := h.links.dag.logic k _ _ _ hop'
    obtain ⟨filterIU, pseudo', hscopeAt⟩ := isScopeAt_iff.mp hisScope
    rw [build_suboperators] at hscopeAt
    obtain ⟨pre, post, horder⟩ := List.append_of_mem (ho.mem_op hscopeAt)
    have hjt : order.idxOf j < order.idxOf t := by
      rw [idxOf_lt_iff ho.nodup horder]
      apply (ho.redefined pre t post horder k hscope j hedge).resolve_left
      rintro rfl
      rw [hproducer, Option.some_inj] at hscopeAt
      exact hplain _ _ hscopeAt
    have hopens' : opensBlockAt subops t = true := by
      rw [opensBlockAt, hscopeAt]
      rfl
    have hlayer := h.layer_lt ho (ho.mem_op hscopeAt) hopens hopens' (Nat.lt_trans hlt hjt)
    obtain ⟨heq, hincoming⟩ := h.logic k t _ _ _ hop hscope
    rw [hof] at hincoming
    omega
  | _ =>
    rw [h.same k op hop (by simp [hcase]) (by simp [hcase]) j hedge]
    exact hsk

theorem FilterLayers.timely_scope (h : FilterLayers subops layer innermost driver driverIU)
    (ho : CodeOrder subops order closings) (hs : opensBlockAt subops s = true) (hmem : s ∈ order) :
    Timely subops layer order s := by
  intro t _ hopens hlt
  exact Nat.le_of_lt (h.layer_lt ho hmem hopens hs hlt)

theorem FilterLayers.timely_sink (h : FilterLayers subops layer innermost driver driverIU)
    {source : IU} (hop : subops[k]? = some (.fuseChunkSink source)) :
    Timely subops layer order k := by
  intro t _ hopens _
  rw [h.sinks k source hop]
  exact h.inside t (opensBlockAt_lt hopens)

/-- A timely provider of the outermost layer comes before all filters. -/
theorem FilterLayers.before_scope (h : FilterLayers subops layer innermost driver driverIU)
    (ho : CodeOrder subops order closings) (horder : order = pre ++ s :: post)
    {filterIU pseudo : IU}
    (hs : subops[s]? = some (.columnFilterScope filterIU pseudo)) (hk : k ∈ order) (hne : k ≠ s)
    (hlayer : layer k = 0) (htimely : Timely subops layer order k) : k ∈ pre := by
  by_contra hnot
  have hle : ¬ order.idxOf k < order.idxOf s := by
    rwa [idxOf_lt_iff ho.nodup horder]
  have hne' : order.idxOf k ≠ order.idxOf s := by
    intro heq
    exact hne ((List.idxOf_inj hk).mp heq)
  have hopens : opensBlockAt subops s = true := by
    rw [opensBlockAt, hs]
    rfl
  have := htimely s (ho.mem_op hs) hopens (by omega)
  have := h.scope_pos hs
  omega

/-- A sink comes after all filters. -/
theorem FilterLayers.after_scope (h : FilterLayers subops layer innermost driver driverIU)
    (ho : CodeOrder subops order closings) (horder : order = pre ++ s :: post)
    {filterIU pseudo : IU}
    (hs : subops[s]? = some (.columnFilterScope filterIU pseudo)) {source : IU}
    (hop : subops[k]? = some (.fuseChunkSink source)) : k ∉ pre := by
  intro hmem
  have hlt := (idxOf_lt_iff ho.nodup horder).mpr hmem
  have hlengthS := (List.getElem?_eq_some_iff.mp hs).1
  have hlengthK := (List.getElem?_eq_some_iff.mp hop).1
  have hclosed : ∀ x, x ∈ order ∧ order.idxOf x ≤ order.idxOf k →
      ∀ y ∈ (Pipeline.build subops).incomingEdges x,
        y ∈ order ∧ order.idxOf y ≤ order.idxOf k := by
    rintro x ⟨hx, hle⟩ y hy
    have hyx := ho.input_lt hx hy
    have hxmem : x < subops.length := by
      rwa [← List.mem_range, ← ho.emitted.mem_iff]
    have hyx' := (lt_of_mem_incomingEdges h.links.provided hy).1
    refine ⟨?_, by omega⟩
    rw [ho.emitted.mem_iff, List.mem_range]
    omega
  obtain ⟨t, ⟨-, hle⟩, hopens, hlayer⟩ := h.opens_below hclosed hlengthK
    ⟨ho.mem_op hop, Nat.le_refl _⟩ (l := layer s) (by
      rw [h.sinks k source hop]
      exact h.inside s hlengthS)
  have hopens' : opensBlockAt subops s = true := by
    rw [opensBlockAt, hs]
    rfl
  obtain rfl := h.oneScope t s hopens hopens' hlayer
  omega

end Timely

section Rows

variable {widths : Widths IU} {inputs : Inputs V B} {subops : List (Suboperator IU)}
variable {layer : ℕ → ℕ} {innermost driver : ℕ} {driverIU : IU} {order closings : List ℕ}

def ProviderAt (widths : Widths IU) (subops : List (Suboperator IU)) (layer : ℕ → ℕ)
    (order : List ℕ) (m : Machine IU V B) (n k : ℕ) : Prop :=
  ∀ (source iu : IU) (width : ℕ), subops[k]? = some (.tscanIUProvider source iu) ∨
    subops[k]? = some (.fuseChunkSourceIUProvider source iu) → widths iu = some width →
      ∃ start, m.iterators k = some start ∧ (Timely subops layer order k → start = n * width)

def SinkAt (widths : Widths IU) (inputs : Inputs V B) (subops : List (Suboperator IU))
    (m : Machine IU V B) (values : IU → List (Cell V)) (k : ℕ) : Prop :=
  ∀ source, subops[k]? = some (.fuseChunkSink source) →
    (m.sinks k).Written inputs (widths source) (values source) ∧
    ∀ width, widths source = some width → m.iterators k = some ((values source).length * width)

def passed (widths : Widths IU) (inputs : Inputs V B) (subops : List (Suboperator IU))
    (layer : ℕ → ℕ) (innermost n : ℕ) (source : IU) : List (Cell V) :=
  ((List.range' inputs.start n).filter (passes widths inputs subops layer innermost)).map
    fun row => rowValues widths inputs subops row source

/-- In the row `n` of the morsel, after the code of `done`. -/
structure RowInv (widths : Widths IU) (inputs : Inputs V B) (subops : List (Suboperator IU))
    (layer : ℕ → ℕ) (innermost driver : ℕ) (order : List ℕ) (n : ℕ) (done : List ℕ)
    (m : Machine IU V B) : Prop where
  started : driver ∈ done
  limit : m.limits driver = some inputs.stop
  vars : ∀ k ∈ done, ∀ iu ∈ declaresAt subops k, ∃ value, m.vars iu = some value ∧
    (Timely subops layer order k →
      value = rowValues widths inputs subops (inputs.start + n) iu)
  providers : ∀ k, ProviderAt widths subops layer order m (if k ∈ done then n + 1 else n) k
  sinks : ∀ k, SinkAt widths inputs subops m (fun source =>
    passed widths inputs subops layer innermost n source ++
      if k ∈ done then [rowValues widths inputs subops (inputs.start + n) source] else []) k
  scopes : ∀ s ∈ done, ∀ filterIU pseudo,
    subops[s]? = some (.columnFilterScope filterIU pseudo) →
      inputs.holds (rowValues widths inputs subops (inputs.start + n) filterIU) = true

/-- The loop index is at the row `i`, and `n` rows have been processed. -/
structure LoopInv (widths : Widths IU) (inputs : Inputs V B) (subops : List (Suboperator IU))
    (layer : ℕ → ℕ) (innermost driver : ℕ) (driverIU : IU) (order : List ℕ) (i n : ℕ)
    (m : Machine IU V B) : Prop where
  limit : m.limits driver = some inputs.stop
  index : m.vars driverIU = some (.index (inputs.start + i))
  providers : ∀ k, ProviderAt widths subops layer order m n k
  sinks : ∀ k, SinkAt widths inputs subops m
    (passed widths inputs subops layer innermost n) k

structure Frame (k : ℕ) (op : Suboperator IU) (m m' : Machine IU V B) : Prop where
  limits : m'.limits = m.limits
  vars : ∀ iu ∉ op.declares, m'.vars iu = m.vars iu
  iterators : ∀ j ≠ k, m'.iterators j = m.iterators j
  sinks : ∀ j ≠ k, m'.sinks j = m.sinks j

variable {n k : ℕ} {done rest : List ℕ} {m m' : Machine IU V B} {op : Suboperator IU}

/-- A suboperator that has to show only what it does itself. -/
theorem RowInv.concat (hinv : RowInv widths inputs subops layer innermost driver order n done m)
    (h : FilterLayers subops layer innermost driver driverIU) (hop : subops[k]? = some op)
    (hk : k ∉ done) (hframe : Frame k op m m')
    (hvars : ∀ iu ∈ op.declares, ∃ value, m'.vars iu = some value ∧
      (Timely subops layer order k →
        value = rowValues widths inputs subops (inputs.start + n) iu))
    (hprovider : ProviderAt widths subops layer order m' (n + 1) k)
    (hsink : SinkAt widths inputs subops m' (fun source =>
      passed widths inputs subops layer innermost n source ++
        [rowValues widths inputs subops (inputs.start + n) source]) k)
    (hscope : ∀ filterIU pseudo, op = .columnFilterScope filterIU pseudo →
      inputs.holds (rowValues widths inputs subops (inputs.start + n) filterIU) = true) :
    RowInv widths inputs subops layer innermost driver order n (done ++ [k]) m' := by
  have hmem : ∀ j ≠ k, j ∈ done ++ [k] ↔ j ∈ done := by
    intro j hj
    simp [hj]
  constructor
  · exact List.mem_append_left _ hinv.started
  · rw [hframe.limits]
    exact hinv.limit
  · intro j hj iu hiu
    by_cases hjk : j = k
    · subst hjk
      rw [declaresAt_eq hop] at hiu
      exact hvars iu hiu
    · rw [hmem j hjk] at hj
      rw [hframe.vars iu fun hiu' => h.fresh hop hjk hiu' hiu]
      exact hinv.vars j hj iu hiu
  · intro j
    by_cases hjk : j = k
    · subst hjk
      rw [if_pos (by simp)]
      exact hprovider
    · simp only [hmem j hjk]
      intro source iu width hopj hwidth
      rw [hframe.iterators j hjk]
      exact hinv.providers j source iu width hopj hwidth
  · intro j
    by_cases hjk : j = k
    · subst hjk
      simp only [List.mem_append, List.mem_singleton, or_true, if_true]
      exact hsink
    · simp only [hmem j hjk]
      intro source hopj
      rw [hframe.sinks j hjk, hframe.iterators j hjk]
      exact hinv.sinks j source hopj
  · intro s hs filterIU pseudo hops
    by_cases hsk : s = k
    · subst hsk
      rw [hop, Option.some_inj] at hops
      exact hscope filterIU pseudo hops
    · exact hinv.scopes s ((hmem s hsk).mp hs) filterIU pseudo hops

/-- What is read has a value, and the value of the row when the suboperator is timely. -/
theorem RowInv.read (hinv : RowInv widths inputs subops layer innermost driver order n done m)
    (h : FilterLayers subops layer innermost driver driverIU)
    (ho : CodeOrder subops order closings) (horder : order = done ++ k :: rest)
    (hop : subops[k]? = some op) {iu : IU} (hiu : iu ∈ op.reads) :
    iu ∉ op.declares ∧ ∃ value, m.vars iu = some value ∧ (Timely subops layer order k →
      value = rowValues widths inputs subops (inputs.start + n) iu) := by
  obtain ⟨j, hjk, producer, hproducer, hplain, hmem, hedge, hof⟩ := h.producer hop hiu
  have hdeclares : iu ∈ declaresAt subops j := by
    rwa [declaresAt_eq hproducer, declares_eq hplain]
  obtain ⟨value, hvalue, htimely⟩ :=
    hinv.vars j (ho.inputs done k rest horder j hedge) iu hdeclares
  refine ⟨fun hiu' => h.fresh hop (Nat.ne_of_lt hjk) hiu' hdeclares, value, hvalue, ?_⟩
  intro hk
  exact htimely (h.timely_input ho hop hproducer hplain hedge hiu hof hk)

theorem RowInv.index (hinv : RowInv widths inputs subops layer innermost driver order n done m)
    (h : FilterLayers subops layer innermost driver driverIU)
    (ho : CodeOrder subops order closings) :
    m.vars driverIU = some (.index (inputs.start + n)) := by
  have hmem : driverIU ∈ declaresAt subops driver := by
    rw [declaresAt_eq h.driverAt]
    exact List.mem_singleton_self _
  obtain ⟨value, hvalue, htimely⟩ := hinv.vars driver hinv.started driverIU hmem
  rw [hvalue, htimely (h.timely_scope ho h.opens_driver (ho.mem_op h.driverAt)),
    rowValues_eq h _ h.driverAt (List.mem_singleton_self _)]
  rfl

/-- A suboperator that only gives a variable its value. -/
theorem RowInv.assign (hinv : RowInv widths inputs subops layer innermost driver order n done m)
    (h : FilterLayers subops layer innermost driver driverIU) (hop : subops[k]? = some op)
    (hk : k ∉ done) {iu : IU} (hdeclares : op.declares = [iu])
    (hnarrow : ∀ source x, op = .tscanIUProvider source x ∨
      op = .fuseChunkSourceIUProvider source x →
      widths x = none)
    (hscope : ∀ filterIU pseudo, op ≠ .columnFilterScope filterIU pseudo)
    (hsink : ∀ source, op ≠ .fuseChunkSink source) {value : Cell V}
    (hvalue : Timely subops layer order k →
      value = rowValues widths inputs subops (inputs.start + n) iu) :
    RowInv widths inputs subops layer innermost driver order n (done ++ [k])
      ((m.set iu none).set iu (some value)) := by
  apply hinv.concat h hop hk
  · refine ⟨rfl, fun x hx => ?_, fun _ _ => rfl, fun _ _ => rfl⟩
    have hne : x ≠ iu := by simpa [hdeclares] using hx
    simp [hne]
  · intro x hx
    obtain rfl : x = iu := by simpa [hdeclares] using hx
    exact ⟨value, by simp, hvalue⟩
  · intro source x width hop' hwidth
    rw [hop, Option.some_inj, Option.some_inj] at hop'
    rw [hnarrow source x hop'] at hwidth
    cases hwidth
  · intro source hop'
    rw [hop, Option.some_inj] at hop'
    exact absurd hop' (hsink source)
  · intro filterIU pseudo hop'
    exact absurd hop' (hscope filterIU pseudo)

/-- `IndexedIUProvider::consume` -/
theorem RowInv.readColumn
    (hinv : RowInv widths inputs subops layer innermost driver order n done m)
    (h : FilterLayers subops layer innermost driver driverIU)
    (ho : CodeOrder subops order closings) (horder : order = done ++ k :: rest) (hk : k ∉ done)
    {source iu : IU} (hop : subops[k]? = some op)
    (hkind : op = .tscanIUProvider source iu ∨ op = .fuseChunkSourceIUProvider source iu) :
    ∃ m', (op.code widths k).foldlM (fun m a => (semantics inputs).step a m) m = some m' ∧
      RowInv widths inputs subops layer innermost driver order n (done ++ [k]) m' := by
  have hreads : op.reads = [source] ∧ op.declares = [iu] := by
    rcases hkind with rfl | rfl
    · exact ⟨rfl, rfl⟩
    · exact ⟨rfl, rfl⟩
  have hprovider : subops[k]? = some (.tscanIUProvider source iu) ∨
      subops[k]? = some (.fuseChunkSourceIUProvider source iu) := by
    rcases hkind with rfl | rfl
    · exact .inl hop
    · exact .inr hop
  obtain rfl := h.indexed k source iu hprovider
  have hne : source ≠ iu := by
    have hmem : source ∈ op.reads := by simp [hreads.1]
    simpa [hreads.2] using (hinv.read h ho horder hop hmem).1
  have hrow : rowValues widths inputs subops (inputs.start + n) iu =
      rowStep widths inputs (inputs.start + n) k (.tscanIUProvider source iu)
        (rowValues widths inputs subops (inputs.start + n)) := by
    rcases hkind with rfl | rfl
    · exact rowValues_eq h _ hop (List.mem_singleton_self _)
    · exact rowValues_eq h _ hop (List.mem_singleton_self _)
  have hdriver : rowValues widths inputs subops (inputs.start + n) source =
      .index (inputs.start + n) :=
    rowValues_eq h _ h.driverAt (List.mem_singleton_self _)
  have hcode : op.code widths k = Suboperator.code widths k (.tscanIUProvider source iu) := by
    rcases hkind with rfl | rfl
    · rfl
    · rfl
  have hindex := hinv.index h ho
  rw [hcode]
  cases hwidth : widths iu with
  | none =>
    refine ⟨(m.set iu none).set iu (some (.data (inputs.load k (inputs.start + n)))), ?_, ?_⟩
    · simp [Suboperator.code, hwidth, semantics, Statement.run, Machine.indexOf, hne, hindex]
    · apply hinv.assign h hop hk hreads.2
      · rintro source' x (hop' | hop')
        · rcases hkind with rfl | rfl
          · cases hop'
            exact hwidth
          · cases hop'
        · rcases hkind with rfl | rfl
          · cases hop'
          · cases hop'
            exact hwidth
      · rcases hkind with rfl | rfl
        · simp
        · simp
      · rcases hkind with rfl | rfl
        · simp
        · simp
      · intro _
        rw [hrow, rowStep, hwidth, hdriver]
        rfl
  | some width =>
    obtain ⟨start, hstart, htimely⟩ := hinv.providers k source iu width hprovider hwidth
    rw [if_neg hk] at htimely
    refine ⟨((m.set iu none).set iu (some (.data (inputs.address k start)))).setIterator k
      (start + width), ?_, ?_⟩
    · simp [Suboperator.code, hwidth, semantics, Statement.run, hstart]
    · apply hinv.concat h hop hk
      · refine ⟨rfl, fun x hx => ?_, fun j hj => ?_, fun _ _ => rfl⟩
        · have hxne : x ≠ iu := by simpa [hreads.2] using hx
          simp [hxne]
        · simp [hj]
      · intro x hx
        obtain rfl : x = iu := by simpa [hreads.2] using hx
        refine ⟨.data (inputs.address k start), by simp, ?_⟩
        intro hk'
        rw [hrow, rowStep, hwidth, htimely hk', Nat.add_sub_cancel_left]
      · intro source' x width' hop' hwidth'
        obtain ⟨-, rfl⟩ : source = source' ∧ iu = x := by
          rw [hop, Option.some_inj, Option.some_inj] at hop'
          rcases hkind with rfl | rfl
          · simpa using hop'
          · simpa using hop'
        rw [hwidth, Option.some_inj] at hwidth'
        subst hwidth'
        refine ⟨start + width, by simp, ?_⟩
        intro hk'
        rw [htimely hk', Nat.succ_mul]
      · intro source' hop'
        rw [hop] at hop'
        rcases hkind with rfl | rfl
        · cases hop'
        · cases hop'
      · intro filterIU pseudo hop'
        rcases hkind with rfl | rfl
        · cases hop'
        · cases hop'

/-- `FuseChunkSink::consume` -/
theorem RowInv.writeChunk
    (hinv : RowInv widths inputs subops layer innermost driver order n done m)
    (h : FilterLayers subops layer innermost driver driverIU)
    (ho : CodeOrder subops order closings) (horder : order = done ++ k :: rest) (hk : k ∉ done)
    {source : IU} (hop : subops[k]? = some (.fuseChunkSink source)) :
    ∃ m', (Suboperator.code widths k (.fuseChunkSink source)).foldlM
        (fun m a => (semantics inputs).step a m) m = some m' ∧
      RowInv widths inputs subops layer innermost driver order n (done ++ [k]) m' := by
  obtain ⟨-, value, hvalue, htimely⟩ :=
    hinv.read h ho horder hop (List.mem_singleton_self source)
  have hrow := htimely (h.timely_sink hop)
  subst hrow
  have hsink := hinv.sinks k source hop
  simp only [if_neg hk, List.append_nil] at hsink
  obtain ⟨hwritten, hiterator⟩ := hsink
  have hother : ∀ m' : Machine IU V B, Frame k (.fuseChunkSink source) m m' →
      SinkAt widths inputs subops m' (fun source =>
        passed widths inputs subops layer innermost n source ++
          [rowValues widths inputs subops (inputs.start + n) source]) k →
      RowInv widths inputs subops layer innermost driver order n (done ++ [k]) m' := by
    intro m' hframe hsink
    apply hinv.concat h hop hk hframe
    · intro iu hiu
      cases hiu
    · intro source' iu width hop'
      rw [hop] at hop'
      simp at hop'
    · exact hsink
    · intro filterIU pseudo hop'
      cases hop'
  set value := rowValues widths inputs subops (inputs.start + n) source with hvalueDef
  cases hwidth : widths source with
  | none =>
    rw [hwidth] at hwritten
    set column := (m.sinks k).writeCell value with hcolumn
    refine ⟨(m.setSink k column).setSink k { column with size := column.size + 1 }, ?_, ?_⟩
    · simp [Suboperator.code, hwidth, semantics, Statement.run, hvalue, hcolumn]
    · apply hother
      · refine ⟨rfl, fun _ _ => rfl, fun _ _ => rfl, fun j hj => ?_⟩
        simp [hj]
      · intro source' hop'
        obtain rfl : source = source' := by simpa [hop] using hop'
        refine ⟨?_, fun width hwidth' => ?_⟩
        · rw [hwidth]
          simpa using hwritten.concatCell
        · rw [hwidth] at hwidth'
          cases hwidth'
  | some width =>
    rw [hwidth] at hwritten
    have hstart := hiterator width hwidth
    set start :=
      (passed widths inputs subops layer innermost n source).length * width with hstartDef
    set column := (m.sinks k).writeBytes start width (inputs.byteAt value) with hcolumn
    refine ⟨((m.setSink k column).setIterator k (start + width)).setSink k
      { column with size := column.size + 1 }, ?_, ?_⟩
    · simp [Suboperator.code, hwidth, semantics, Statement.run, hvalue, hstart, hcolumn]
    · apply hother
      · refine ⟨rfl, fun _ _ => rfl, fun j hj => ?_, fun j hj => ?_⟩
        · simp [hj]
        · simp [hj]
      · intro source' hop'
        obtain rfl : source = source' := by simpa [hop] using hop'
        refine ⟨?_, fun width' hwidth' => ?_⟩
        · rw [hwidth, Machine.setSink_sinks, Function.update_self]
          exact hwritten.concatBytes
        · rw [hwidth, Option.some_inj] at hwidth'
          subst hwidth'
          simp [Nat.succ_mul, hstartDef]

omit [DecidableEq IU] in
/-- The operands of an expression. -/
theorem mapM_vars {T : Prop} {values : IU → Cell V} (operands : List IU)
    (hread : ∀ x ∈ operands, ∃ value, m.vars x = some value ∧ (T → value = values x)) :
    ∃ cells, operands.mapM m.vars = some cells ∧ (T → cells = operands.map values) := by
  induction operands with
  | nil => exact ⟨[], rfl, fun _ => rfl⟩
  | cons x operands ih =>
    obtain ⟨value, hvalue, hx⟩ := hread x (List.mem_cons_self ..)
    obtain ⟨cells, hcells, hrest⟩ := ih fun y hy => hread y (List.mem_cons_of_mem _ hy)
    refine ⟨value :: cells, ?_, fun ht => ?_⟩
    · rw [List.mapM_cons, hvalue, hcells]
      rfl
    · rw [hx ht, hrest ht, List.map_cons]

/-- `Copy` and `ColumnFilterLogic`: one variable gets the value of another one. -/
theorem RowInv.redefine
    (hinv : RowInv widths inputs subops layer innermost driver order n done m)
    (h : FilterLayers subops layer innermost driver driverIU)
    (ho : CodeOrder subops order closings) (horder : order = done ++ k :: rest) (hk : k ∉ done)
    {source iu : IU} (hop : subops[k]? = some op)
    (hkind : op = .copy source iu ∨ ∃ pseudo, op = .columnFilterLogic pseudo source iu) :
    ∃ m', (op.code widths k).foldlM (fun m a => (semantics inputs).step a m) m = some m' ∧
      RowInv widths inputs subops layer innermost driver order n (done ++ [k]) m' := by
  obtain ⟨hcode, hreads, hdeclares, hius, hrow⟩ :
      op.code widths k = [.declare iu, .assign iu source] ∧ op.reads = [source] ∧
        op.declares = [iu] ∧ iu ∈ op.getIUs ∧ ∀ values : IU → Cell V,
          rowStep widths inputs (inputs.start + n) k op values = values source := by
    rcases hkind with rfl | ⟨pseudo, rfl⟩
    · exact ⟨rfl, rfl, rfl, List.mem_singleton_self _, fun _ => rfl⟩
    · exact ⟨rfl, rfl, rfl, List.mem_singleton_self _, fun _ => rfl⟩
  have hmem : source ∈ op.reads := by simp [hreads]
  obtain ⟨hnot, value, hvalue, htimely⟩ := hinv.read h ho horder hop hmem
  have hne : source ≠ iu := by simpa [hdeclares] using hnot
  refine ⟨(m.set iu none).set iu (some value), ?_, ?_⟩
  · simp [hcode, semantics, Statement.run, hne, hvalue]
  · apply hinv.assign h hop hk hdeclares
    · rintro source' x (rfl | rfl)
      · simp at hkind
      · simp at hkind
    · rintro filterIU pseudo rfl
      simp at hkind
    · rintro source' rfl
      simp at hkind
    · intro hk'
      rw [htimely hk', rowValues_eq h _ hop hius, hrow]

/-- `ExpressionSubop::consumeAllChildren` -/
theorem RowInv.compute
    (hinv : RowInv widths inputs subops layer innermost driver order n done m)
    (h : FilterLayers subops layer innermost driver driverIU)
    (ho : CodeOrder subops order closings) (horder : order = done ++ k :: rest) (hk : k ∉ done)
    {input iu : IU} {others : List IU} (hop : subops[k]? = some (.other input others [iu])) :
    ∃ m', (Suboperator.code widths k (.other input others [iu])).foldlM
        (fun m a => (semantics inputs).step a m) m = some m' ∧
      RowInv widths inputs subops layer innermost driver order n (done ++ [k]) m' := by
  have hread : ∀ x ∈ input :: others, ∃ value, (m.set iu none).vars x = some value ∧
      (Timely subops layer order k →
        value = rowValues widths inputs subops (inputs.start + n) x) := by
    intro x hx
    obtain ⟨hnot, value, hvalue, htimely⟩ := hinv.read h ho horder hop hx
    have hne : x ≠ iu := by simpa [Suboperator.declares, Suboperator.getIUs] using hnot
    exact ⟨value, by simp [hne, hvalue], htimely⟩
  obtain ⟨cells, hcells, htimely⟩ := mapM_vars _ hread
  refine ⟨(m.set iu none).set iu (some (.data (inputs.compute k cells))), ?_, ?_⟩
  · simp only [Suboperator.code, semantics, List.foldlM_cons, List.foldlM_nil, Statement.run,
      hcells, Option.map_some, Option.bind_eq_bind, Option.bind_some]
    rfl
  · apply hinv.assign h hop hk rfl (by simp) (by simp) (by simp)
    intro hk'
    rw [htimely hk', rowValues_eq h _ hop (List.mem_singleton_self iu)]
    rfl

/-- The code of a suboperator that opens no block. -/
theorem RowInv.execute
    (hinv : RowInv widths inputs subops layer innermost driver order n done m)
    (h : FilterLayers subops layer innermost driver driverIU)
    (ho : CodeOrder subops order closings) (horder : order = done ++ k :: rest)
    (hop : subops[k]? = some op) (hplain : op.opensBlock = false) :
    ∃ m', (op.code widths k).foldlM (fun m a => (semantics inputs).step a m) m = some m' ∧
      RowInv widths inputs subops layer innermost driver order n (done ++ [k]) m' := by
  have hk : k ∉ done := by
    have hnodup := ho.nodup
    rw [horder] at hnodup
    intro hmem
    exact List.disjoint_of_nodup_append hnodup hmem (List.mem_cons_self ..)
  have hfusable := h.fusable op (List.mem_of_getElem? hop)
  cases op with
  | tscanIUProvider source iu => exact hinv.readColumn h ho horder hk hop (.inl rfl)
  | fuseChunkSourceIUProvider source iu => exact hinv.readColumn h ho horder hk hop (.inr rfl)
  | copy source iu => exact hinv.redefine h ho horder hk hop (.inl rfl)
  | columnFilterLogic pseudo source iu =>
    exact hinv.redefine h ho horder hk hop (.inr ⟨pseudo, rfl⟩)
  | other input others ius =>
    obtain ⟨iu, rfl⟩ : ∃ iu, ius = [iu] := by
      simpa [Suboperator.isFusable, List.length_eq_one_iff] using hfusable
    exact hinv.compute h ho horder hk hop
  | fuseChunkSink source => exact hinv.writeChunk h ho horder hk hop
  | loopDriver driverIU' => cases hplain
  | columnFilterScope filterIU pseudo => cases hplain
  | _ => cases hfusable

theorem passed_succ (source : IU) :
    passed widths inputs subops layer innermost (n + 1) source =
      passed widths inputs subops layer innermost n source ++
        if passes widths inputs subops layer innermost (inputs.start + n) = true then
          [rowValues widths inputs subops (inputs.start + n) source] else [] := by
  rw [passed, List.range'_concat, List.filter_append, List.map_append, Nat.one_mul]
  congr 1
  split
  · next hpasses => simp [hpasses]
  · next hpasses => simp [hpasses]

/-- All filters held, and everything has run. -/
theorem RowInv.complete
    (hinv : RowInv widths inputs subops layer innermost driver order n order m)
    (h : FilterLayers subops layer innermost driver driverIU)
    (ho : CodeOrder subops order closings) :
    LoopInv widths inputs subops layer innermost driver driverIU order n (n + 1) m := by
  have hpasses : passes widths inputs subops layer innermost (inputs.start + n) = true := by
    rw [passes_iff]
    intro s filterIU pseudo hop _
    exact hinv.scopes s (ho.mem_op hop) filterIU pseudo hop
  refine ⟨hinv.limit, hinv.index h ho, fun k => ?_, fun k => ?_⟩
  · intro source iu width hop hwidth
    have hk : k ∈ order := by
      rcases hop with hop | hop
      · exact ho.mem_op hop
      · exact ho.mem_op hop
    have hprovider := hinv.providers k
    rw [if_pos hk] at hprovider
    exact hprovider source iu width hop hwidth
  · intro source hop
    have hsink := hinv.sinks k source hop
    simp only [if_pos (ho.mem_op hop)] at hsink
    rw [passed_succ, if_pos hpasses]
    exact hsink

/-- A filter does not hold, so all that is left is skipped: of what counts, only the sinks. -/
theorem RowInv.abort
    (hinv : RowInv widths inputs subops layer innermost driver order n done m)
    (h : FilterLayers subops layer innermost driver driverIU)
    (ho : CodeOrder subops order closings) (horder : order = done ++ k :: rest)
    {filterIU pseudo : IU} (hop : subops[k]? = some (.columnFilterScope filterIU pseudo))
    (hholds : inputs.holds (rowValues widths inputs subops (inputs.start + n) filterIU) = false) :
    LoopInv widths inputs subops layer innermost driver driverIU order n (n + 1) m := by
  have hpasses : ¬ passes widths inputs subops layer innermost (inputs.start + n) = true := by
    intro hpasses
    rw [passes_iff] at hpasses
    have hlt := (List.getElem?_eq_some_iff.mp hop).1
    rw [hpasses k filterIU pseudo hop (h.inside k hlt)] at hholds
    cases hholds
  refine ⟨hinv.limit, hinv.index h ho, fun j => ?_, fun j => ?_⟩
  · intro source iu width hopj hwidth
    obtain ⟨start, hstart, htimely⟩ := hinv.providers j source iu width hopj hwidth
    refine ⟨start, hstart, fun hj => ?_⟩
    have hmem : j ∈ order ∧ j ≠ k := by
      rcases hopj with hopj | hopj
      · refine ⟨ho.mem_op hopj, ?_⟩
        rintro rfl
        rw [hop] at hopj
        cases hopj
      · refine ⟨ho.mem_op hopj, ?_⟩
        rintro rfl
        rw [hop] at hopj
        cases hopj
    have hdone := h.before_scope ho horder hop hmem.1 hmem.2 (h.provider_layer hopj).2 hj
    rw [htimely hj, if_pos hdone]
  · intro source hopj
    have hsink := hinv.sinks j source hopj
    simp only [if_neg (h.after_scope ho horder hop hopj)] at hsink
    rw [passed_succ, if_neg hpasses]
    exact hsink

/-- One row. By induction on the blocks: each `if` that holds leads into the next one. -/
theorem RowInv.row (h : FilterLayers subops layer innermost driver driverIU)
    (ho : CodeOrder subops order closings)
    {blocks : ℕ → List (Stmt (Statement IU) (Condition IU))} {c : ℕ}
    {stmts : List (Stmt (Statement IU) (Condition IU))}
    (hcode : Code widths subops blocks c stmts rest) (horder : order = done ++ rest)
    (hinv : RowInv widths inputs subops layer innermost driver order n done m) :
    ∃ m', Runs (semantics inputs) blocks stmts m m' ∧
      LoopInv widths inputs subops layer innermost driver driverIU order n (n + 1) m' := by
  induction hcode generalizing done m with
  | nil c =>
    rw [List.append_nil] at horder
    subst horder
    exact ⟨m, Runs.nil, hinv.complete h ho⟩
  | @plain c k op stmts rest hop hplain _ ih =>
    obtain ⟨m₁, hcode, hinv₁⟩ := hinv.execute h ho horder hop hplain
    obtain ⟨m₂, hrest, hend⟩ := ih (by rw [horder, List.append_assoc]; rfl) hinv₁
    exact ⟨m₂, Runs.atoms hcode hrest, hend⟩
  | @scope c s filterIU pseudo rest hop _ ih =>
    have hopens : opensBlockAt subops s = true := by
      rw [opensBlockAt, hop]
      rfl
    obtain ⟨-, value, hvalue, htimely⟩ :=
      hinv.read h ho horder hop (List.mem_singleton_self filterIU)
    have hrow := htimely (h.timely_scope ho hopens (ho.mem_op hop))
    subst hrow
    have htest : (semantics inputs).test (.holds filterIU) m = some
        (inputs.holds (rowValues widths inputs subops (inputs.start + n) filterIU)) := by
      simp [semantics, Condition.test, hvalue]
    cases hholds : inputs.holds (rowValues widths inputs subops (inputs.start + n) filterIU) with
    | false =>
      rw [hholds] at htest
      exact ⟨m, Runs.ite_false htest Runs.nil, hinv.abort h ho horder hop hholds⟩
    | true =>
      rw [hholds] at htest
      have hs : s ∉ done := by
        have hnodup := ho.nodup
        rw [horder] at hnodup
        intro hmem
        exact List.disjoint_of_nodup_append hnodup hmem (List.mem_cons_self ..)
      have hinv₁ : RowInv widths inputs subops layer innermost driver order n (done ++ [s]) m := by
        apply hinv.concat h hop hs ⟨rfl, fun _ _ => rfl, fun _ _ => rfl, fun _ _ => rfl⟩
        · intro iu hiu
          cases hiu
        · intro source iu width hop'
          simp [hop] at hop'
        · intro source hop'
          simp [hop] at hop'
        · intro filterIU' pseudo' heq
          cases heq
          exact hholds
      obtain ⟨m', hrun, hend⟩ := ih (by rw [horder, List.append_assoc]; rfl) hinv₁
      exact ⟨m', Runs.ite_true htest hrun Runs.nil, hend⟩

/-- A row starts with the loop index. -/
theorem LoopInv.enter
    (hinv : LoopInv widths inputs subops layer innermost driver driverIU order n n m)
    (h : FilterLayers subops layer innermost driver driverIU) :
    RowInv widths inputs subops layer innermost driver order n [driver] m := by
  refine ⟨List.mem_singleton_self _, hinv.limit, ?_, ?_, ?_, ?_⟩
  · intro k hk iu hiu
    obtain rfl := List.mem_singleton.mp hk
    rw [declaresAt_eq h.driverAt] at hiu
    obtain rfl := List.mem_singleton.mp hiu
    refine ⟨_, hinv.index, fun _ => ?_⟩
    rw [rowValues_eq h _ h.driverAt (List.mem_singleton_self _)]
    rfl
  · intro k source iu width hop
    have hk : k ∉ [driver] := by
      intro hk
      rw [List.mem_singleton.mp hk, h.driverAt] at hop
      simp at hop
    rw [if_neg hk]
    exact hinv.providers k source iu width hop
  · intro k source hop
    have hk : k ∉ [driver] := by
      intro hk
      rw [List.mem_singleton.mp hk, h.driverAt] at hop
      cases hop
    simp only [if_neg hk, List.append_nil]
    exact hinv.sinks k source hop
  · intro s hs filterIU pseudo hop
    rw [List.mem_singleton.mp hs, h.driverAt] at hop
    cases hop

/-- `LoopDriver::close` increments the index; no sink or provider notices. -/
theorem LoopInv.increment
    (hinv : LoopInv widths inputs subops layer innermost driver driverIU order n (n + 1) m) :
    ∃ m', Statement.run inputs m (.incrementIndex driverIU) = some m' ∧
      LoopInv widths inputs subops layer innermost driver driverIU order (n + 1) (n + 1) m' := by
  refine ⟨m.set driverIU (some (.index (inputs.start + n + 1))), ?_, hinv.limit, ?_,
    hinv.providers, hinv.sinks⟩
  · simp [Statement.run, Machine.indexOf, hinv.index]
  · simp [Nat.add_assoc]

/-- The loop goes over the morsel. -/
theorem LoopInv.runs (h : FilterLayers subops layer innermost driver driverIU)
    (ho : CodeOrder subops (driver :: rest) closings)
    {blocks : ℕ → List (Stmt (Statement IU) (Condition IU))}
    (hfunction : LoopFunction widths subops driver driverIU rest blocks)
    (hinv : LoopInv widths inputs subops layer innermost driver driverIU (driver :: rest) 0 0 m) :
    ∃ m', Runs (semantics inputs) blocks [.loop (.beforeEnd driverIU driver) 1] m m' ∧
      LoopInv widths inputs subops layer innermost driver driverIU (driver :: rest)
        (inputs.stop - inputs.start) (inputs.stop - inputs.start) m' := by
  have htest : ∀ i m, LoopInv widths inputs subops layer innermost driver driverIU
      (driver :: rest) i i m → (semantics inputs).test (.beforeEnd driverIU driver) m =
        some (decide (inputs.start + i < inputs.stop)) := by
    intro i m hm
    simp [semantics, Condition.test, Machine.indexOf, hm.index, hm.limit]
  obtain ⟨stmts, hbody, hcode⟩ := hfunction.body
  apply Runs.loop (fun i m => LoopInv widths inputs subops layer innermost driver driverIU
    (driver :: rest) i i m)
  · intro i hi m hm
    obtain ⟨m₁, hrow, hm₁⟩ := (hm.enter h).row h ho hcode rfl
    obtain ⟨m₂, hstep, hm₂⟩ := hm₁.increment
    refine ⟨?_, m₂, ?_, hm₂⟩
    · rw [htest i m hm, decide_eq_true (by omega)]
    · rw [hbody]
      exact hrow.append (Runs.atom hstep Runs.nil)
  · intro m hm
    rw [htest _ m hm, decide_eq_false (by omega)]
  · exact hinv

/-- After the driver, the preambles set iterators to 0. -/
theorem preambles_run (widths : Widths IU) (inputs : Inputs V B)
    (h : FilterLayers subops layer innermost driver driverIU) (ks : List ℕ) (hks : driver ∉ ks)
    (m : Machine IU V B) :
    ∃ m', (preambles widths subops ks).foldlM (fun m a => (semantics inputs).step a m) m = some m' ∧
      m'.vars = m.vars ∧ m'.limits = m.limits ∧ m'.sinks = m.sinks ∧
      ∀ j, (m.iterators j = some 0 ∨ ∃ op, j ∈ ks ∧ subops[j]? = some op ∧
        op.preamble widths j = [.zeroIterator j]) → m'.iterators j = some 0 := by
  induction ks generalizing m with
  | nil =>
    refine ⟨m, rfl, rfl, rfl, rfl, fun j hj => ?_⟩
    rcases hj with hj | ⟨op, hj, -⟩
    · exact hj
    · cases hj
  | cons k ks ih =>
    obtain ⟨hne, hrest⟩ := List.ne_and_not_mem_of_not_mem_cons hks
    have hsplit : preambles widths subops (k :: ks) =
        (subops[k]?.map (·.preamble widths k)).getD [] ++ preambles widths subops ks := by
      rw [preambles, List.flatMap_cons, preambles]
    have hstep : (∀ op, subops[k]? = some op → op.preamble widths k = []) ∨
        ∃ op, subops[k]? = some op ∧ op.preamble widths k = [.zeroIterator k] := by
      cases hop : subops[k]? with
      | none => exact .inl (by simp)
      | some op =>
        cases op with
        | loopDriver iu => exact absurd (h.oneDriver k iu hop) hne.symm
        | tscanIUProvider source iu =>
          by_cases hwidth : (widths iu).isSome
          · exact .inr ⟨_, rfl, if_pos hwidth⟩
          · simp [Suboperator.preamble, hwidth]
        | fuseChunkSourceIUProvider source iu =>
          by_cases hwidth : (widths iu).isSome
          · exact .inr ⟨_, rfl, if_pos hwidth⟩
          · simp [Suboperator.preamble, hwidth]
        | fuseChunkSink source =>
          by_cases hwidth : (widths source).isSome
          · exact .inr ⟨_, rfl, if_pos hwidth⟩
          · simp [Suboperator.preamble, hwidth]
        | _ => simp [Suboperator.preamble]
    rcases hstep with hnil | ⟨op, hop, hzero⟩
    · obtain ⟨m', hrun, hvars, hlimits, hsinks, hiterators⟩ := ih hrest m
      refine ⟨m', ?_, hvars, hlimits, hsinks, fun j hj => hiterators j ?_⟩
      · have hempty : (subops[k]?.map (·.preamble widths k)).getD [] = [] := by
          cases hop : subops[k]? with
          | none => rfl
          | some op => exact hnil op hop
        rw [hsplit, hempty]
        exact hrun
      · rcases hj with hj | ⟨op, hj, hop, hzero⟩
        · exact .inl hj
        · right
          refine ⟨op, ?_, hop, hzero⟩
          apply (List.mem_cons.mp hj).resolve_left
          rintro rfl
          rw [hnil op hop] at hzero
          cases hzero
    · obtain ⟨m', hrun, hvars, hlimits, hsinks, hiterators⟩ := ih hrest (m.setIterator k 0)
      refine ⟨m', ?_, hvars, hlimits, hsinks, fun j hj => hiterators j ?_⟩
      · rw [hsplit, hop, Option.map_some, Option.getD_some, hzero, List.singleton_append,
          List.foldlM_cons]
        exact hrun
      · by_cases hjk : j = k
        · left
          simp [hjk]
        · rcases hj with hj | ⟨op, hj, hop, hzero⟩
          · left
            simpa [hjk] using hj
          · exact .inr ⟨op, (List.mem_cons.mp hj).resolve_left hjk, hop, hzero⟩

/-- What the preamble leaves behind, when the sinks are empty. -/
theorem FilterLayers.preamble (h : FilterLayers subops layer innermost driver driverIU)
    (ho : CodeOrder subops (driver :: rest) closings) (m : Machine IU V B)
    (hempty : ∀ k, (m.sinks k).size = 0) :
    ∃ m', (preambles widths subops (driver :: rest)).foldlM
        (fun m a => (semantics inputs).step a m) m = some m' ∧
      LoopInv widths inputs subops layer innermost driver driverIU (driver :: rest) 0 0 m' := by
  have hdriver : driver ∉ rest := (List.nodup_cons.mp ho.nodup).1
  obtain ⟨m', hrun, hvars, hlimits, hsinks, hiterators⟩ := preambles_run widths inputs h rest
    hdriver
    { m.set driverIU (some (.index inputs.start)) with
      limits := Function.update m.limits driver (some inputs.stop) }
  have hmem : ∀ k op, subops[k]? = some op → op ≠ .loopDriver driverIU → k ∈ rest := by
    intro k op hop hne
    apply (List.mem_cons.mp (ho.mem_op hop)).resolve_left
    rintro rfl
    rw [h.driverAt, Option.some_inj] at hop
    exact hne hop.symm
  refine ⟨m', ?_, ?_, ?_, ?_, ?_⟩
  · rw [preambles, List.flatMap_cons, h.driverAt]
    exact hrun
  · simp [hlimits]
  · simp [hvars]
  · intro k source iu width hop hwidth
    refine ⟨0, hiterators k (.inr ?_), fun _ => (Nat.zero_mul width).symm⟩
    rcases hop with hop | hop
    · exact ⟨_, hmem k _ hop (by simp), hop, if_pos (by simp [hwidth])⟩
    · exact ⟨_, hmem k _ hop (by simp), hop, if_pos (by simp [hwidth])⟩
  · intro k source hop
    have hsize : (m'.sinks k).size = 0 := by
      rw [hsinks]
      exact hempty k
    refine ⟨⟨hsize, ?_⟩, fun width hwidth => ?_⟩
    · cases widths source with
      | none =>
        intro j value hj
        cases hj
      | some width =>
        intro j value hj
        cases hj
    · rw [hiterators k (.inr ⟨_, hmem k _ hop (by simp), hop, if_pos (by simp [hwidth])⟩)]
      simp [passed]

/-- The rows that pass all filters have the values of the column that a sink reads. -/
theorem FilterLayers.passed_eq (h : FilterLayers subops layer innermost driver driverIU)
    {source : IU} (hop : subops[k]? = some (.fuseChunkSink source)) :
    passed widths inputs subops layer innermost (inputs.stop - inputs.start) source =
      columns widths inputs subops source := by
  obtain ⟨j, -, producer, hproducer, hmem, hlayer⟩ :=
    h.same_layer hop (by simp) (by simp) (List.mem_singleton_self source)
  rw [h.column_rows hproducer hmem, hlayer, h.sinks k source hop]
  rfl

end Rows

/-- The generated function ends on every morsel, and every sink has the values of the rows that pass
all filters. -/
theorem generate_runs (widths : Widths IU) {subops : List (Suboperator IU)} {layer : ℕ → ℕ}
    {innermost driver : ℕ} {driverIU : IU}
    (h : FilterLayers subops layer innermost driver driverIU) (fuel : ℕ)
    (hfuel : 2 * subops.length + 1 ≤ fuel) :
    ∃ c, generate widths subops fuel = some c ∧ c.builder.curr = 0 ∧
      ∀ (inputs : Inputs V B) (m : Machine IU V B), (∀ k, (m.sinks k).size = 0) →
        ∃ m', Runs (semantics inputs) c.builder.blocks (c.builder.blocks 0) m m' ∧
          ∀ k source, subops[k]? = some (.fuseChunkSink source) →
            (m'.sinks k).Written inputs (widths source) (passed widths inputs subops layer innermost
              (inputs.stop - inputs.start) source) := by
  obtain ⟨c, rest, closings, hgenerate, hcurr, ho, hfunction⟩ := generate_layout h fuel hfuel
  refine ⟨c, hgenerate, hcurr, fun inputs m hempty => ?_⟩
  obtain ⟨m₁, hpreamble, hstart⟩ := h.preamble ho m hempty
  obtain ⟨m₂, hloop, hend⟩ := hstart.runs h ho hfunction
  refine ⟨m₂, ?_, fun k source hop => (hend.sinks k source hop).1⟩
  rw [hfunction.root]
  exact Runs.atoms hpreamble hloop

/-- The generated function means what the pipeline means: on every morsel it ends, and every sink
holds the column of its IU. -/
theorem generate_columns {widths : Widths IU} {subops : List (Suboperator IU)} {layer : ℕ → ℕ}
    {innermost driver : ℕ} {driverIU : IU}
    (h : FilterLayers subops layer innermost driver driverIU) (fuel : ℕ)
    (hfuel : 2 * subops.length + 1 ≤ fuel) :
    ∃ c, generate widths subops fuel = some c ∧ c.builder.curr = 0 ∧
      ∀ (inputs : Inputs V B) (m : Machine IU V B), (∀ k, (m.sinks k).size = 0) →
        ∃ m' bound, (∀ fuel ≥ bound, exec (semantics inputs) c.builder.blocks fuel
            (c.builder.blocks 0) m = some m') ∧
          ∀ k source, subops[k]? = some (.fuseChunkSink source) →
            (m'.sinks k).Written inputs (widths source)
              (columns widths inputs subops source) := by
  obtain ⟨c, hgenerate, hcurr, hruns⟩ := generate_runs widths h fuel hfuel
  refine ⟨c, hgenerate, hcurr, fun inputs m hempty => ?_⟩
  obtain ⟨m', hrun, hsinks⟩ := hruns inputs m hempty
  obtain ⟨bound, hbound⟩ := hrun.enough
  refine ⟨m', bound, hbound, fun k source hop => ?_⟩
  rw [← h.passed_eq hop]
  exact hsinks k source hop

/-- The layers of `nestedFilters`. -/
def nestedLayer (k : ℕ) : ℕ :=
  if k < 4 then 0 else if k < 8 then 1 else 2

theorem nestedFilters_opens {s : ℕ} (h : opensBlockAt nestedFilters s = true) :
    s = 0 ∨ s = 4 ∨ s = 8 := by
  have hlt := opensBlockAt_lt h
  rw [opensBlockAt, List.getElem?_eq_getElem hlt, Option.any_some] at h
  generalize hop : nestedFilters[s] = op at h
  cases nestedFilters_part (List.getElem?_eq_some_iff.mpr ⟨hlt, hop⟩) with
  | driver => exact .inl rfl
  | outerScope => exact .inr (.inl rfl)
  | innerScope => exact .inr (.inr rfl)
  | _ => cases h

theorem nestedFilters_layers : FilterLayers nestedFilters nestedLayer 2 0 0 := by
  constructor
  case links => exact nestedFilters_links
  case unique =>
    show (nestedFilters.flatMap (·.getIUs)).Nodup
    decide
  case fusable => decide
  case driverAt => rfl
  case oneDriver =>
    intro k iu h
    cases nestedFilters_part h with
    | driver => rfl
  case driverLayer => rfl
  case indexed =>
    intro k source iu h
    rcases h with h | h
    · cases nestedFilters_part h with
      | column => rfl
      | operand => rfl
    · cases nestedFilters_part h
  case scope =>
    intro k filterIU pseudo h
    cases nestedFilters_part h with
    | outerScope => decide
    | innerScope => decide
  case logic =>
    intro k s pseudo incoming redefined h hscope
    cases nestedFilters_part h with
    | outerColumn =>
      obtain rfl := Option.some.inj (hscope.symm.trans
        (show (Pipeline.build nestedFilters).scopeOf 5 = some 4 by decide))
      decide
    | outerCondition =>
      obtain rfl := Option.some.inj (hscope.symm.trans
        (show (Pipeline.build nestedFilters).scopeOf 6 = some 4 by decide))
      decide
    | innerColumn =>
      obtain rfl := Option.some.inj (hscope.symm.trans
        (show (Pipeline.build nestedFilters).scopeOf 9 = some 8 by decide))
      decide
    | innerCondition =>
      obtain rfl := Option.some.inj (hscope.symm.trans
        (show (Pipeline.build nestedFilters).scopeOf 10 = some 8 by decide))
      decide
  case same =>
    intro k op h hscope hlogic
    cases nestedFilters_part h with
    | outerScope => exact absurd rfl (hscope _ _)
    | innerScope => exact absurd rfl (hscope _ _)
    | outerColumn => exact absurd rfl (hlogic _ _ _)
    | outerCondition => exact absurd rfl (hlogic _ _ _)
    | innerColumn => exact absurd rfl (hlogic _ _ _)
    | innerCondition => exact absurd rfl (hlogic _ _ _)
    | _ => decide
  case pseudo =>
    intro s filterIU pseudo h
    cases nestedFilters_part h with
    | outerScope => decide
    | innerScope => decide
  case oneScope =>
    intro s t hs ht hlayer
    rcases nestedFilters_opens hs with rfl | rfl | rfl
    · rcases nestedFilters_opens ht with rfl | rfl | rfl
      · rfl
      · cases hlayer
      · cases hlayer
    · rcases nestedFilters_opens ht with rfl | rfl | rfl
      · cases hlayer
      · rfl
      · cases hlayer
    · rcases nestedFilters_opens ht with rfl | rfl | rfl
      · cases hlayer
      · cases hlayer
      · rfl
  case sinks =>
    intro k iu h
    cases nestedFilters_part h with
    | columnSink => rfl
    | conditionSink => rfl
  case inside => decide

def Cell.number : Cell ℕ → ℕ
  | .index n => n
  | .data v => v

/-- Six rows; the first filter keeps three of them and the second one two of these. The `ByteArray`s
of the IU 1 become pointers when they are filtered. -/
def nestedInputs : Inputs ℕ ℕ where
  start := 2
  stop := 8
  load k n := 10 * k + n
  address k start := 100 * k + start
  compute k cells := (cells.map Cell.number).sum / k
  holds cell := cell.number % 2 = 0
  byteAt cell b := cell.number + b

theorem nestedFilters_columns :
    ∃ c, generate (fun iu => if iu = 1 then some 4 else none) nestedFilters 27 = some c ∧
      ∀ m : Machine ℕ ℕ ℕ, (∀ k, (m.sinks k).size = 0) →
        ∃ m' bound, (∀ fuel ≥ bound, exec (semantics nestedInputs) c.builder.blocks fuel
            (c.builder.blocks 0) m = some m') ∧
          (m'.sinks 11).Written nestedInputs none [.data 100, .data 104] ∧
          (m'.sinks 12).Written nestedInputs none [.data 20, .data 20] := by
  obtain ⟨c, hgenerate, -, hruns⟩ := generate_columns nestedFilters_layers 27 (by decide)
  refine ⟨c, hgenerate, fun m hempty => ?_⟩
  obtain ⟨m', bound, hrun, hsinks⟩ := hruns nestedInputs m hempty
  exact ⟨m', bound, hrun, hsinks 11 9 rfl, hsinks 12 10 rfl⟩

end InkFuse.Algebra.SubopGraph
