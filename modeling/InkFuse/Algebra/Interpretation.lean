import InkFuse.Algebra.FragmentLayout
import InkFuse.Algebra.FusedExecution

/-!
Vectorized interpretation. A morsel goes through the suboperators one after the other; each of them
runs the function of its fragment on the columns of the fuse chunk, and appends what it computes to
the columns of its IUs. Table scans hook the column of the table up. All types have a fixed size.
-/

namespace InkFuse.Algebra.SubopGraph

open Blocks

variable {IU : Type} {V B : Type}

abbrev Chunk (IU V : Type) := IU → List V

/-- `FragmentGenerator::build` compiles the repiped pipeline. -/
def compileFragment (filtersItself : Bool) (op : Suboperator IU) :
    Option (CodeBuilder (Option ℕ)) := do
  let layout ← op.fragmentLayout filtersItself
  let subops ← layout.mapM (·.toSuboperator (op.fragment filtersItself))
  generate (fun _ => none) subops (2 * subops.length + 1)

/-- The IU of the first consumer of the driver, whose column gives the size of the morsel. -/
def drivingIU (layout : List (Repiped IU)) : Option IU :=
  layout.findSome? fun
    | .fuseChunkSourceIUProvider iu => some iu
    | _ => none

/-- What the states of a repiped suboperator give its code to read. Behind a column there is
garbage. -/
def boundInputs (inputs : Inputs V B) (garbage : V) (layout : List (Repiped IU))
    (chunk : Chunk IU V) : Inputs V B where
  start := 0
  stop := ((drivingIU layout).map fun iu => (chunk iu).length).getD 0
  load i n :=
    match layout[i]? with
    | some (.fuseChunkSourceIUProvider iu) => (chunk iu).getD n garbage
    | _ => garbage
  address _ _ := garbage
  compute i cells :=
    match layout[i]? with
    | some (.shared k) => inputs.compute k cells
    | _ => garbage
  holds := inputs.holds
  byteAt := inputs.byteAt

/-- The sinks go on behind what their columns hold. -/
def boundMachine {IU' : Type} (layout : List (Repiped IU)) (chunk : Chunk IU V) :
    Machine IU' V B where
  vars _ := none
  limits _ := none
  iterators _ := none
  sinks i :=
    match layout[i]? with
    | some (.fuseChunkSink iu) =>
      ⟨fun j => (chunk iu)[j]?.map .data, fun _ => none, (chunk iu).length⟩
    | _ => ⟨fun _ => none, fun _ => none, 0⟩

def Cell.data? : Cell V → Option V
  | .data v => some v
  | .index _ => none

def SinkColumn.values (column : SinkColumn V B) : Option (List V) :=
  (List.range column.size).mapM fun j => (column.cells j).bind Cell.data?

variable [DecidableEq IU]

def writeBack {IU' : Type} (m : Machine IU' V B) :
    List (Repiped IU) → ℕ → Chunk IU V → Option (Chunk IU V)
  | [], _, chunk => some chunk
  | .fuseChunkSink iu :: rest, i, chunk => do
    let values ← (m.sinks i).values
    writeBack m rest (i + 1) (Function.update chunk iu values)
  | _ :: rest, i, chunk => writeBack m rest (i + 1) chunk

variable (inputs : Inputs V B) (garbage : V) (subops : List (Suboperator IU))
variable (isVoid : IU → Bool) (filtersItself : ℕ → Bool)

/-- `InterpretedRunner::runMorsel` -/
def runInterpreter (fuel k : ℕ) (op : Suboperator IU) (chunk : Chunk IU V) :
    Option (Chunk IU V) :=
  match op with
  | .tscanIUProvider _ iu =>
    some (Function.update chunk iu (inputs.rows.map (inputs.load k)))
  | _ => do
    let c ← compileFragment (filtersItself k) op
    let layout ← (Pipeline.build subops).repipeAll isVoid k (k + 1)
    let m ← exec (semantics (boundInputs inputs garbage layout chunk)) c.builder.blocks fuel
      (c.builder.blocks 0) (boundMachine layout chunk)
    writeBack m layout 0 chunk

/-- Only suboperators without outgoing strong links have an interpreter. -/
def interpretStep (fuel : ℕ) (chunk : Chunk IU V) (k : ℕ) : Option (Chunk IU V) := do
  let op ← subops[k]?
  if op.outgoingStrongLinks || op.isFuseChunkOp then some chunk
  else runInterpreter inputs garbage subops isVoid filtersItself fuel k op chunk

/-- `PipelineExecutor::runInterpretedMorsel`, on a cleared fuse chunk. -/
def runInterpretedMorsel (fuel : ℕ) : Option (Chunk IU V) :=
  (List.range subops.length).foldlM
    (interpretStep inputs garbage subops isVoid filtersItself fuel) fun _ => []

section Fragments

/-- An expression or a copy between a fuse chunk source and a sink. -/
def plainFragment (n : ℕ) (op : Suboperator (Option ℕ)) : List (Suboperator (Option ℕ)) :=
  .loopDriver none :: (List.range n).map (fun x => .fuseChunkSourceIUProvider none (some x)) ++
    [op, .fuseChunkSink (some n)]

variable {n k : ℕ} {op op' : Suboperator (Option ℕ)}

theorem plainFragment_provider {x : ℕ} (hx : x < n) :
    (plainFragment n op)[x + 1]? = some (.fuseChunkSourceIUProvider none (some x)) := by
  rw [plainFragment, List.cons_append, List.getElem?_cons_succ,
    List.getElem?_append_left (by simpa using hx)]
  simp [hx]

theorem plainFragment_op : (plainFragment n op)[n + 1]? = some op := by
  rw [plainFragment, List.cons_append, List.getElem?_cons_succ,
    List.getElem?_append_right (by simp)]
  simp

theorem plainFragment_sink : (plainFragment n op)[n + 2]? = some (.fuseChunkSink (some n)) := by
  rw [plainFragment, List.cons_append, List.getElem?_cons_succ,
    List.getElem?_append_right (by simp)]
  simp

inductive PlainPart (n : ℕ) (op : Suboperator (Option ℕ)) : ℕ → Suboperator (Option ℕ) → Prop
  | driver : PlainPart n op 0 (.loopDriver none)
  | provider {x : ℕ} : x < n → PlainPart n op (x + 1) (.fuseChunkSourceIUProvider none (some x))
  | subop : PlainPart n op (n + 1) op
  | sink : PlainPart n op (n + 2) (.fuseChunkSink (some n))

theorem plainFragment_part (h : (plainFragment n op)[k]? = some op') : PlainPart n op k op' := by
  have hlt := (List.getElem?_eq_some_iff.mp h).1
  have hlength : (plainFragment n op).length = n + 3 := by simp [plainFragment]
  rw [hlength] at hlt
  rcases Nat.lt_trichotomy k (n + 1) with hk | rfl | hk
  · cases k with
    | zero =>
      obtain rfl := Option.some.inj h
      exact .driver
    | succ x =>
      have hx : x < n := by omega
      rw [plainFragment_provider hx] at h
      obtain rfl := Option.some.inj h
      exact .provider hx
  · rw [plainFragment_op] at h
    obtain rfl := Option.some.inj h
    exact .subop
  · obtain rfl : k = n + 2 := by omega
    rw [plainFragment_sink] at h
    obtain rfl := Option.some.inj h
    exact .sink

/-- What has no strong links, provides one IU, and is fusable. -/
theorem plain_kind (hfusable : op.isFusable = true) (hincoming : op.incomingStrongLinks = false)
    (houtgoing : op.outgoingStrongLinks = false) {out : Option ℕ} (hius : op.getIUs = [out]) :
    (∃ source, op = .copy source out) ∨ ∃ input inputs, op = .other input inputs [out] := by
  cases op with
  | copy source produced =>
    obtain rfl : produced = out := by simpa [Suboperator.getIUs] using hius
    exact .inl ⟨source, rfl⟩
  | other input inputs ius =>
    obtain rfl : ius = [out] := hius
    exact .inr ⟨input, inputs, rfl⟩
  | fuseChunkSink => cases hius
  | loopDriver => cases houtgoing
  | columnFilterScope => cases houtgoing
  | tscanIUProvider => cases hincoming
  | fuseChunkSourceIUProvider => cases hincoming
  | columnFilterLogic => cases hincoming
  | _ => cases hfusable

theorem plainFragment_no_scope (houtgoing : op.outgoingStrongLinks = false) (k : ℕ)
    (filterIU pseudo : Option ℕ) :
    (plainFragment n op)[k]? ≠ some (.columnFilterScope filterIU pseudo) := by
  intro hop
  cases plainFragment_part hop with
  | subop => cases houtgoing

theorem plainFragment_no_logic (hincoming : op.incomingStrongLinks = false) (k : ℕ)
    (pseudo incoming redefined : Option ℕ) :
    (plainFragment n op)[k]? ≠ some (.columnFilterLogic pseudo incoming redefined) := by
  intro hop
  cases plainFragment_part hop with
  | subop => cases hincoming

theorem plainFragment_getIUs (hius : op.getIUs = [some n]) :
    (plainFragment n op).flatMap (·.getIUs) = none :: (List.range (n + 1)).map some := by
  have hproviders : ((List.range n).map fun x =>
      Suboperator.fuseChunkSourceIUProvider none (some x)).flatMap (·.getIUs) =
        (List.range n).map some := by
    rw [List.flatMap_map, List.map_eq_flatMap]
    rfl
  rw [plainFragment, List.flatMap_append, List.flatMap_cons, hproviders, List.flatMap_cons,
    hius, List.range_succ, List.map_append]
  rfl

theorem plainFragment_unique (hius : op.getIUs = [some n]) :
    UniqueProviders (plainFragment n op) := by
  show ((plainFragment n op).flatMap (·.getIUs)).Nodup
  rw [plainFragment_getIUs hius, List.nodup_cons]
  exact ⟨by simp, List.nodup_range.map (Option.some_injective ℕ)⟩

theorem plainFragment_provided (hius : op.getIUs = [some n])
    (hsources : op.getSourceIUs = (List.range n).map some) :
    SourcesProvided (plainFragment n op) := by
  intro k iu hiu
  obtain ⟨op', hop, hsource⟩ := mem_sourceIUsAt.mp hiu
  have hfound : ∃ j < k, iu ∈ iusAt (plainFragment n op) j := by
    cases plainFragment_part hop with
    | driver => cases hsource
    | @provider x hx =>
      obtain rfl := List.mem_singleton.mp hsource
      exact ⟨0, Nat.succ_pos x, mem_iusAt.mpr ⟨_, rfl, List.mem_singleton_self _⟩⟩
    | subop =>
      rw [hsources] at hsource
      obtain ⟨x, hx, rfl⟩ := List.mem_map.mp hsource
      rw [List.mem_range] at hx
      exact ⟨x + 1, by omega,
        mem_iusAt.mpr ⟨_, plainFragment_provider hx, List.mem_singleton_self _⟩⟩
    | sink =>
      obtain rfl := List.mem_singleton.mp hsource
      refine ⟨n + 1, Nat.lt_succ_self _, mem_iusAt.mpr ⟨_, plainFragment_op, ?_⟩⟩
      rw [hius]
      exact List.mem_singleton_self _
  obtain ⟨j, hjk, hj⟩ := hfound
  refine ⟨j, hjk, hj, fun i _ hi => ?_⟩
  obtain ⟨a, ha, hia⟩ := mem_iusAt.mp hi
  obtain ⟨b, hb, hib⟩ := mem_iusAt.mp hj
  exact (plainFragment_unique hius).eq ha hb hia hib

/-- Only the driver opens a block. -/
theorem plainFragment_opens
    (hkind : (∃ source, op = .copy source (some n)) ∨
      ∃ input inputs, op = .other input inputs [some n])
    (hk : opensBlockAt (plainFragment n op) k = true) : k = 0 := by
  have hlt := opensBlockAt_lt hk
  rw [opensBlockAt, List.getElem?_eq_getElem hlt, Option.any_some] at hk
  generalize hop : (plainFragment n op)[k] = op' at hk
  cases plainFragment_part (List.getElem?_eq_some_iff.mpr ⟨hlt, hop⟩) with
  | driver => rfl
  | provider => cases hk
  | subop =>
    rcases hkind with ⟨source, rfl⟩ | ⟨input, inputs, rfl⟩
    · cases hk
    · cases hk
  | sink => cases hk

theorem plainFragment_layers (hfusable : op.isFusable = true)
    (hincoming : op.incomingStrongLinks = false) (houtgoing : op.outgoingStrongLinks = false)
    (hius : op.getIUs = [some n]) (hsources : op.getSourceIUs = (List.range n).map some) :
    FilterLayers (plainFragment n op) (fun _ => 0) 0 0 none := by
  have hno := plainFragment_no_scope (n := n) houtgoing
  have hno' := plainFragment_no_logic (n := n) hincoming
  have hopens : ∀ {k}, opensBlockAt (plainFragment n op) k = true → k = 0 :=
    plainFragment_opens (plain_kind hfusable hincoming houtgoing hius)
  constructor
  case links =>
    exact ⟨plainFragment_provided hius hsources, fun k pseudo incoming redefined hop =>
      absurd hop (hno' k pseudo incoming redefined), fun s filterIU pseudo hop =>
      absurd hop (hno s filterIU pseudo)⟩
  case unique => exact plainFragment_unique hius
  case fusable =>
    intro op' hop'
    obtain ⟨k, hop⟩ := List.mem_iff_getElem?.mp hop'
    cases plainFragment_part hop with
    | driver => rfl
    | provider => rfl
    | subop => exact hfusable
    | sink => rfl
  case driverAt => rfl
  case oneDriver =>
    intro k iu hop
    cases plainFragment_part hop with
    | driver => rfl
    | subop => cases houtgoing
  case driverLayer => rfl
  case indexed =>
    intro k source iu hop
    rcases hop with hop | hop
    · cases plainFragment_part hop with
      | subop => cases hincoming
    · cases plainFragment_part hop with
      | provider => rfl
      | subop => cases hincoming
  case scope => exact fun k filterIU pseudo hop => absurd hop (hno k filterIU pseudo)
  case logic =>
    exact fun k s pseudo incoming redefined hop => absurd hop (hno' k pseudo incoming redefined)
  case same => exact fun k op' _ _ _ j _ => rfl
  case pseudo => exact fun s filterIU pseudo hop => absurd hop (hno s filterIU pseudo)
  case oneScope =>
    intro s t hs ht _
    rw [hopens hs, hopens ht]
  case sinks => exact fun k iu _ => rfl
  case inside => exact fun k _ => Nat.le_refl 0

/-- A scope and its logic between a fuse chunk source and a sink. -/
def filterFragment (filtersItself : Bool) : List (Suboperator (Option ℕ)) :=
  if filtersItself then
    [.loopDriver none, .fuseChunkSourceIUProvider none (some 0),
      .columnFilterScope (some 0) (some 1),
      .columnFilterLogic (some 1) (some 0) (some 2), .fuseChunkSink (some 2)]
  else
    [.loopDriver none, .fuseChunkSourceIUProvider none (some 0),
      .fuseChunkSourceIUProvider none (some 2), .columnFilterScope (some 0) (some 1),
      .columnFilterLogic (some 1) (some 2) (some 3), .fuseChunkSink (some 3)]

/-- The providers are outside of the filter. -/
def filterLayer (filtersItself : Bool) (k : ℕ) : ℕ :=
  if filtersItself then if k < 2 then 0 else 1 else if k < 3 then 0 else 1

def filterScopeAt (filtersItself : Bool) : ℕ := if filtersItself then 2 else 3

/-- What is where in the fragment of a filter. A filter on its own condition has one provider. -/
inductive FilterPart (filtersItself : Bool) : ℕ → Suboperator (Option ℕ) → Prop
  | driver : FilterPart filtersItself 0 (.loopDriver none)
  | condition : FilterPart filtersItself 1 (.fuseChunkSourceIUProvider none (some 0))
  | column : filtersItself = false →
      FilterPart filtersItself 2 (.fuseChunkSourceIUProvider none (some 2))
  | scope : FilterPart filtersItself (filterScopeAt filtersItself)
      (.columnFilterScope (some 0) (some 1))
  | logic : FilterPart filtersItself (filterScopeAt filtersItself + 1)
      (.columnFilterLogic (some 1) (some (if filtersItself then 0 else 2))
        (some (if filtersItself then 2 else 3)))
  | sink : FilterPart filtersItself (filterScopeAt filtersItself + 2)
      (.fuseChunkSink (some (if filtersItself then 2 else 3)))

variable {filtersItself : Bool}

theorem filterFragment_part (h : (filterFragment filtersItself)[k]? = some op) :
    FilterPart filtersItself k op := by
  have hlt := (List.getElem?_eq_some_iff.mp h).1
  cases filtersItself with
  | true =>
    replace hlt : k < 5 := hlt
    interval_cases k
    · exact Option.some.inj h ▸ .driver
    · exact Option.some.inj h ▸ .condition
    · exact Option.some.inj h ▸ .scope
    · exact Option.some.inj h ▸ .logic
    · exact Option.some.inj h ▸ .sink
  | false =>
    replace hlt : k < 6 := hlt
    interval_cases k
    · exact Option.some.inj h ▸ .driver
    · exact Option.some.inj h ▸ .condition
    · exact Option.some.inj h ▸ .column rfl
    · exact Option.some.inj h ▸ .scope
    · exact Option.some.inj h ▸ .logic
    · exact Option.some.inj h ▸ .sink

theorem filterFragment_opens (h : opensBlockAt (filterFragment filtersItself) k = true) :
    k = 0 ∨ k = filterScopeAt filtersItself := by
  have hlt := opensBlockAt_lt h
  rw [opensBlockAt, List.getElem?_eq_getElem hlt, Option.any_some] at h
  generalize hop : (filterFragment filtersItself)[k] = op at h
  cases filterFragment_part (List.getElem?_eq_some_iff.mpr ⟨hlt, hop⟩) with
  | driver => exact .inl rfl
  | scope => exact .inr rfl
  | condition => cases h
  | column => cases h
  | logic => cases h
  | sink => cases h

theorem filterFragment_scopeOf : (Pipeline.build (filterFragment filtersItself)).scopeOf
    (filterScopeAt filtersItself + 1) = some (filterScopeAt filtersItself) := by
  cases filtersItself <;> decide

theorem filterFragment_links : FilterLinks (filterFragment filtersItself) where
  provided := by cases filtersItself <;> decide
  scopes := by
    intro k pseudo incoming redefined hop
    cases filterFragment_part hop
    refine ⟨filterScopeAt filtersItself, Nat.lt_succ_self _, some 0, ?_,
      filterScopeAt filtersItself - 1, ?_, ?_⟩
    · cases filtersItself <;> rfl
    · cases filtersItself <;> decide
    · cases filtersItself <;> decide
  used := by
    intro s filterIU pseudo hop
    cases filterFragment_part hop
    refine ⟨filterScopeAt filtersItself + 1, some (if filtersItself then 0 else 2),
      some (if filtersItself then 2 else 3), ?_, filterFragment_scopeOf⟩
    cases filtersItself <;> rfl

theorem filterFragment_layers (filtersItself : Bool) :
    FilterLayers (filterFragment filtersItself) (filterLayer filtersItself) 1 0 none := by
  constructor
  case links => exact filterFragment_links
  case unique =>
    show ((filterFragment filtersItself).flatMap (·.getIUs)).Nodup
    cases filtersItself <;> decide
  case fusable => cases filtersItself <;> decide
  case driverAt => cases filtersItself <;> rfl
  case oneDriver =>
    intro k iu hop
    cases filterFragment_part hop
    rfl
  case driverLayer => cases filtersItself <;> rfl
  case indexed =>
    intro k source iu hop
    rcases hop with hop | hop
    · cases filterFragment_part hop
    · cases filterFragment_part hop with
      | condition => rfl
      | column => rfl
  case scope =>
    intro k filterIU pseudo hop
    cases filterFragment_part hop
    cases filtersItself <;> decide
  case logic =>
    intro k s pseudo incoming redefined hop hscope
    cases filterFragment_part hop
    obtain rfl := Option.some.inj (filterFragment_scopeOf.symm.trans hscope)
    cases filtersItself <;> decide
  case same =>
    intro k op hop hscope hlogic
    cases filterFragment_part hop with
    | driver => cases filtersItself <;> decide
    | condition => cases filtersItself <;> decide
    | column hfilters =>
      subst hfilters
      decide
    | scope => exact absurd rfl (hscope _ _)
    | logic => exact absurd rfl (hlogic _ _ _)
    | sink => cases filtersItself <;> decide
  case pseudo =>
    intro s filterIU pseudo hop
    cases filterFragment_part hop
    cases filtersItself <;> decide
  case oneScope =>
    have hne : filterLayer filtersItself 0 ≠
        filterLayer filtersItself (filterScopeAt filtersItself) := by
      cases filtersItself <;> decide
    intro s t hs ht hlayer
    rcases filterFragment_opens hs with rfl | rfl
    · rcases filterFragment_opens ht with rfl | rfl
      · rfl
      · exact absurd hlayer hne
    · rcases filterFragment_opens ht with rfl | rfl
      · exact absurd hlayer.symm hne
      · rfl
  case sinks =>
    intro k iu hop
    cases filterFragment_part hop
    cases filtersItself <;> rfl
  case inside => cases filtersItself <;> decide

end Fragments

section Compiled

variable {filtersItself : Bool}

theorem mapM_some {α β : Type} {f : α → Option β} {g : α → β} (l : List α)
    (h : ∀ x ∈ l, f x = some (g x)) : l.mapM f = some (l.map g) := by
  induction l with
  | nil => rfl
  | cons x l ih =>
    rw [List.mapM_cons, h x (List.mem_cons_self ..), ih fun y hy => h y (List.mem_cons_of_mem _ hy)]
    rfl

omit [DecidableEq IU] in
theorem compileFragment_copy (source iu : IU) :
    compileFragment filtersItself (.copy source iu) =
      generate (fun _ => none) (plainFragment 1 (.copy (some 0) (some 1))) 9 := by
  rw [compileFragment, fragmentLayout_copy]
  rfl

omit [DecidableEq IU] in
theorem compileFragment_other (input out : IU) (others : List IU) :
    compileFragment filtersItself (.other input others [out]) =
      generate (fun _ => none) (plainFragment (others.length + 1) (.other (some 0)
        ((List.range' 1 others.length).map some) [some (others.length + 1)]))
        (2 * (plainFragment (others.length + 1) (.other (some 0)
          ((List.range' 1 others.length).map some) [some (others.length + 1)])).length + 1) := by
  set fragment := (Suboperator.other input others [out]).fragment filtersItself with hfragment
  set layout : List (Repiped ℕ) := .fuseChunkSourceDriver ::
    (List.range (others.length + 1)).map .fuseChunkSourceIUProvider ++
      [.shared 0, .fuseChunkSink (others.length + 1)] with hlayout
  have hsome : ∀ x ∈ layout,
      x.toSuboperator fragment = some ((x.toSuboperator fragment).getD (.loopDriver none)) := by
    intro x hx
    cases x with
    | shared i =>
      obtain rfl : i = 0 := by simpa [hlayout] using hx
      rfl
    | _ => rfl
  have hsubops : (layout.map fun x => (x.toSuboperator fragment).getD (.loopDriver none)) =
      plainFragment (others.length + 1) (.other (some 0)
        ((List.range' 1 others.length).map some) [some (others.length + 1)]) := by
    simp [hlayout, plainFragment, Repiped.toSuboperator, hfragment, Suboperator.fragment,
      Suboperator.rename]
  rw [compileFragment, fragmentLayout_other]
  simp only [Option.bind_eq_bind, Option.bind_some]
  rw [mapM_some _ hsome, Option.bind_some, hsubops]

omit [DecidableEq IU] in
theorem compileFragment_filter (filtersItself : Bool) (pseudo incoming redefined : IU) :
    compileFragment filtersItself (.columnFilterLogic pseudo incoming redefined) =
      generate (fun _ => none) (filterFragment filtersItself)
        (2 * (filterFragment filtersItself).length + 1) := by
  rw [compileFragment, fragmentLayout_filter]
  cases filtersItself with
  | false => rfl
  | true => rfl

end Compiled

section Running

variable {inputs : Inputs V B} {garbage : V} {layout pre : List (Repiped IU)} {chunk : Chunk IU V}
variable {fragment : List (Suboperator (Option ℕ))} {layer : ℕ → ℕ} {innermost i k x : ℕ}
variable {subops : List (Suboperator IU)} {isVoid : IU → Bool} {filtersItself : ℕ → Bool}
variable {op : Suboperator IU} {out : IU}

theorem range_getD (garbage : V) (l : List V) :
    ((List.range l.length).map fun n => l.getD n garbage) = l := by
  apply List.ext_getElem
  · simp
  · intro n hn hn'
    simp [List.getD_eq_getElem?_getD, List.getElem?_eq_getElem hn']

omit [DecidableEq IU] in
/-- A provider of a fragment hands over the column that its state points to. -/
theorem bound_column (h : FilterLayers fragment layer innermost 0 none)
    (hop : fragment[i]? = some (.fuseChunkSourceIUProvider none (some x))) {iu first : IU}
    (hlayout : layout[i]? = some (.fuseChunkSourceIUProvider iu))
    (hdriving : drivingIU layout = some first)
    (hlength : (chunk iu).length = (chunk first).length) :
    columns (fun _ => none) (boundInputs inputs garbage layout chunk) fragment (some x) =
      (chunk iu).map .data := by
  have hindex : columns (fun _ => none) (boundInputs inputs garbage layout chunk) fragment none =
      (boundInputs inputs garbage layout chunk).rows.map .index :=
    columns_eq h h.driverAt (List.mem_singleton_self _)
  have hrows : (boundInputs inputs garbage layout chunk).rows = List.range (chunk iu).length := by
    rw [Inputs.rows, List.range_eq_range', hlength]
    simp [boundInputs, hdriving]
  have hload : ∀ n, (boundInputs inputs garbage layout chunk).load i n =
      (chunk iu).getD n garbage := by
    intro n
    simp only [boundInputs, hlayout]
  rw [columns_eq h hop (List.mem_singleton_self _), columnStep]
  simp only [hindex, hrows, List.map_map]
  conv_rhs => rw [← range_getD garbage (chunk iu), List.map_map]
  apply List.map_congr_left
  intro n _
  simp [readAt, hload]

theorem SinkColumn.Written.values {column : SinkColumn V B} {vs : List V}
    (h : column.Written inputs none (vs.map .data)) : column.values = some vs := by
  obtain ⟨hsize, hcells⟩ := h
  rw [List.length_map] at hsize
  cases vs with
  | nil =>
    rw [SinkColumn.values, hsize]
    rfl
  | cons v vs =>
    have hsome : ∀ j ∈ List.range column.size,
        (column.cells j).bind Cell.data? = some ((v :: vs).getD j v) := by
      intro j hj
      rw [List.mem_range, hsize] at hj
      rw [hcells j (.data (v :: vs)[j])
        (by rw [List.getElem?_map, List.getElem?_eq_getElem hj]; rfl)]
      rw [Option.bind_some, Cell.data?, List.getD_eq_getElem?_getD, List.getElem?_eq_getElem hj,
        Option.getD_some]
    rw [SinkColumn.values, mapM_some _ hsome, hsize, range_getD]

theorem writeBack_last {IU' : Type} {m : Machine IU' V B}
    (hpre : ∀ slot ∈ pre, ∀ iu, slot ≠ .fuseChunkSink iu) {vs : List V}
    (hvalues : (m.sinks (i + pre.length)).values = some vs) :
    writeBack m (pre ++ [.fuseChunkSink out]) i chunk = some (Function.update chunk out vs) := by
  induction pre generalizing i with
  | nil =>
    rw [List.nil_append, writeBack]
    rw [List.length_nil, Nat.add_zero] at hvalues
    rw [hvalues]
    rfl
  | cons slot pre ih =>
    have hrest := ih (fun slot hslot => hpre slot (List.mem_cons_of_mem _ hslot)) (i := i + 1) (by
      rw [← hvalues, List.length_cons, Nat.add_assoc, Nat.add_comm 1])
    cases slot with
    | fuseChunkSink iu => exact absurd rfl (hpre _ (List.mem_cons_self ..) iu)
    | _ =>
      rw [List.cons_append, writeBack]
      · exact hrest
      · simp

/-- An interpreter appends to its sink the column that its fragment means. -/
theorem runInterpreter_eq (pre : List (Repiped IU))
    (h : FilterLayers fragment layer innermost 0 none)
    (hcompile : compileFragment (filtersItself k) op =
      generate (fun _ => none) fragment (2 * fragment.length + 1))
    (hlayout : (Pipeline.build subops).repipeAll isVoid k (k + 1) =
      some (pre ++ [.fuseChunkSink out]))
    (hpre : ∀ slot ∈ pre, ∀ iu, slot ≠ .fuseChunkSink iu)
    (hsink : fragment[pre.length]? = some (.fuseChunkSink (some x)))
    (hscan : ∀ source iu, op ≠ .tscanIUProvider source iu) (hempty : chunk out = []) {vs : List V}
    (hcolumn : columns (fun _ => none)
      (boundInputs inputs garbage (pre ++ [.fuseChunkSink out]) chunk) fragment (some x) =
        vs.map .data) :
    ∃ bound, ∀ fuel ≥ bound,
      runInterpreter inputs garbage subops isVoid filtersItself fuel k op chunk =
        some (Function.update chunk out vs) := by
  obtain ⟨c, hgenerate, -, hruns⟩ :=
    generate_runs (V := V) (B := B) (fun _ => none) h _ (Nat.le_refl _)
  have hsizes : ∀ j, ((boundMachine (pre ++ [.fuseChunkSink out]) chunk :
      Machine (Option ℕ) V B).sinks j).size = 0 := by
    intro j
    unfold boundMachine
    dsimp only
    split
    · next iu hiu =>
      rcases List.mem_append.mp (List.mem_of_getElem? hiu) with hmem | hmem
      · exact absurd rfl (hpre _ hmem iu)
      · obtain rfl : iu = out := by simpa using hmem
        rw [hempty]
        rfl
    · rfl
  obtain ⟨m, hrun, hsinks⟩ :=
    hruns (boundInputs inputs garbage (pre ++ [.fuseChunkSink out]) chunk) _ hsizes
  obtain ⟨bound, hbound⟩ := hrun.enough
  refine ⟨bound, fun fuel hfuel => ?_⟩
  have hwritten := hsinks pre.length (some x) hsink
  rw [h.passed_eq hsink, hcolumn] at hwritten
  have hvalues : (m.sinks (0 + pre.length)).values = some vs := by
    rw [Nat.zero_add]
    exact hwritten.values
  unfold runInterpreter
  split
  · next source iu => exact absurd rfl (hscan source iu)
  · rw [hcompile, hgenerate, hlayout]
    simp only [Option.bind_eq_bind, Option.bind_some]
    rw [hbound fuel hfuel, Option.bind_some]
    exact writeBack_last hpre hvalues

/-- `Copy` -/
theorem interpret_copy (h : Interpretable subops isVoid) {source iu : IU}
    (hop : subops[k]? = some (.copy source iu)) (hempty : chunk iu = []) :
    ∃ bound, ∀ fuel ≥ bound,
      runInterpreter inputs garbage subops isVoid filtersItself fuel k (.copy source iu) chunk =
        some (Function.update chunk iu (chunk source)) := by
  have hlayers : FilterLayers (plainFragment 1 (.copy (some 0) (some 1))) (fun _ => 0) 0 0 none :=
    plainFragment_layers rfl rfl rfl rfl rfl
  have hlayout := h.layout_plain hop rfl rfl rfl rfl
  apply runInterpreter_eq [.fuseChunkSourceDriver, .fuseChunkSourceIUProvider source,
    .shared k] hlayers (compileFragment_copy source iu) hlayout
  · simp
  · exact plainFragment_sink
  · simp
  · exact hempty
  · rw [columns_eq hlayers plainFragment_op (List.mem_singleton_self _)]
    exact bound_column hlayers (plainFragment_provider Nat.zero_lt_one) rfl rfl rfl

/-- Expressions. -/
theorem interpret_other (h : Interpretable subops isVoid) {input : IU} {others : List IU}
    (hop : subops[k]? = some (.other input others [out])) (hnodup : (input :: others).Nodup)
    (hempty : chunk out = [])
    (hlength : ∀ iu ∈ input :: others, (chunk iu).length = (chunk input).length) :
    ∃ bound, ∀ fuel ≥ bound,
      runInterpreter inputs garbage subops isVoid filtersItself fuel k (.other input others [out])
        chunk = some (Function.update chunk out ((List.range (chunk input).length).map fun j =>
          inputs.compute k ((input :: others).map fun iu =>
            ((chunk iu).map Cell.data).getD j (.index 0)))) := by
  set n := others.length + 1 with hn
  set op' : Suboperator (Option ℕ) := .other (some 0) ((List.range' 1 others.length).map some)
    [some n] with hop'
  have hsources : op'.getSourceIUs = (List.range n).map some := by
    rw [hn, List.range_eq_range', List.range'_succ]
    rfl
  have hlayers : FilterLayers (plainFragment n op') (fun _ => 0) 0 0 none :=
    plainFragment_layers rfl rfl rfl rfl hsources
  have hlayout := h.layout_plain hop rfl rfl rfl rfl
  rw [show (Suboperator.other input others [out]).getSourceIUs = input :: others from rfl,
    eraseDups_of_nodup hnodup] at hlayout
  set pre : List (Repiped IU) := .fuseChunkSourceDriver ::
    (input :: others).map .fuseChunkSourceIUProvider ++ [.shared k] with hpre
  have hsplit : (.fuseChunkSourceDriver :: (input :: others).map .fuseChunkSourceIUProvider ++
      [.shared k, .fuseChunkSink out] : List (Repiped IU)) = pre ++ [.fuseChunkSink out] := by
    simp [hpre]
  rw [hsplit] at hlayout
  have hprovider : ∀ x iu, (input :: others)[x]? = some iu → columns (fun _ => none)
      (boundInputs inputs garbage (pre ++ [.fuseChunkSink out]) chunk) (plainFragment n op')
        (some x) = (chunk iu).map .data := by
    intro x iu hiu
    obtain ⟨hx, hget⟩ := List.getElem?_eq_some_iff.mp hiu
    apply bound_column hlayers (plainFragment_provider hx)
    · rw [← hsplit, List.cons_append, List.getElem?_cons_succ,
        List.getElem?_append_left (by simpa using hx), List.getElem?_map, hiu]
      rfl
    · rfl
    · exact hlength _ (List.mem_of_getElem? hiu)
  apply runInterpreter_eq pre hlayers (compileFragment_other input out others) hlayout
  · rintro slot hslot iu rfl
    simp [hpre] at hslot
  · have hpreLength : pre.length = n + 2 := by simp [hpre, hn]
    rw [hpreLength]
    exact plainFragment_sink
  · simp
  · exact hempty
  · have hcompute : ∀ cells,
      (boundInputs inputs garbage (pre ++ [.fuseChunkSink out]) chunk).compute
        (n + 1) cells = inputs.compute k cells := by
      intro cells
      have hslot : (pre ++ [.fuseChunkSink out])[n + 1]? = some (Repiped.shared k) := by
        rw [← hsplit, List.cons_append, List.getElem?_cons_succ,
          List.getElem?_append_right (by simp [hn])]
        simp [hn]
      simp only [boundInputs, hslot]
    have hoperands : ∀ j, ((some 0 :: (List.range' 1 others.length).map some).map fun iu =>
        (columns (fun _ => none)
          (boundInputs inputs garbage (pre ++ [.fuseChunkSink out]) chunk) (plainFragment n op')
            iu).getD j (.index 0)) =
        (input :: others).map fun iu => ((chunk iu).map Cell.data).getD j (.index 0) := by
      intro j
      have hrange : (some 0 :: (List.range' 1 others.length).map some) =
          (List.range n).map some := hsources
      rw [hrange, List.map_map]
      apply List.ext_getElem
      · simp [hn]
      · intro x hx hx'
        rw [List.length_map] at hx'
        rw [List.getElem_map, List.getElem_map, List.getElem_range]
        exact congrArg (·.getD j (.index 0)) (hprovider x _ (List.getElem?_eq_getElem hx'))
    rw [columns_eq hlayers plainFragment_op (List.mem_singleton_self _), columnStep]
    rw [hprovider 0 input rfl, List.length_map, List.map_map]
    apply List.map_congr_left
    intro j _
    rw [hcompute, hoperands]
    rfl

def keepRows (inputs : Inputs V B) (conditions : List (Cell V)) (column : List V) : List V :=
  ((conditions.zip column).filter fun row => inputs.holds row.1).map Prod.snd

theorem keepRows_data (conditions : List (Cell V)) (column : List V) :
    (keepRows inputs conditions column).map .data = keep inputs conditions (column.map .data) := by
  induction conditions generalizing column with
  | nil => rfl
  | cons condition conditions ih =>
    cases column with
    | nil => rfl
    | cons v column =>
      unfold keepRows keep at ih ⊢
      rw [List.zip_cons_cons, List.map_cons, List.zip_cons_cons, List.filter_cons, List.filter_cons]
      split
      · rw [List.map_cons, List.map_cons, List.map_cons, ih]
      · exact ih column

/-- `ColumnFilterLogic`, with its scope. -/
theorem interpret_filter (h : Interpretable subops isVoid) {s : ℕ}
    {filterIU pseudo incoming redefined : IU}
    (hop : subops[k]? = some (.columnFilterLogic pseudo incoming redefined))
    (hs : subops[s]? = some (.columnFilterScope filterIU pseudo))
    (hflag : filtersItself k = true ↔ incoming = filterIU) (hempty : chunk redefined = [])
    (hlength : (chunk incoming).length = (chunk filterIU).length) :
    ∃ bound, ∀ fuel ≥ bound,
      runInterpreter inputs garbage subops isVoid filtersItself fuel k
        (.columnFilterLogic pseudo incoming redefined) chunk =
          some (Function.update chunk redefined
            (keepRows inputs ((chunk filterIU).map .data) (chunk incoming))) := by
  have hcompile := compileFragment_filter (filtersItself k) pseudo incoming redefined
  have hlayout := h.layout_filter hop hs
  cases hf : filtersItself k with
  | true =>
    have hlayers := filterFragment_layers true
    obtain rfl := hflag.mp hf
    rw [if_pos rfl] at hlayout
    rw [hf] at hcompile
    apply runInterpreter_eq [.fuseChunkSourceDriver, .fuseChunkSourceIUProvider incoming,
      .shared s, .shared k] (x := 2) hlayers (by rw [hf]; exact hcompile) hlayout
    · simp
    · rfl
    · simp
    · exact hempty
    · rw [columns_eq (k := 3) hlayers rfl (List.mem_singleton_self _), columnStep,
        columns_eq (k := 2) hlayers rfl (List.mem_singleton_self _), columnStep, keepRows_data,
        bound_column (i := 1) hlayers rfl rfl rfl rfl]
      rfl
  | false =>
    have hlayers := filterFragment_layers false
    have hne : incoming ≠ filterIU := by
      intro heq
      rw [hflag.mpr heq] at hf
      cases hf
    rw [if_neg hne] at hlayout
    rw [hf] at hcompile
    apply runInterpreter_eq [.fuseChunkSourceDriver, .fuseChunkSourceIUProvider filterIU,
      .fuseChunkSourceIUProvider incoming, .shared s, .shared k] (x := 3) hlayers
      (by rw [hf]; exact hcompile) hlayout
    · simp
    · rfl
    · simp
    · exact hempty
    · rw [columns_eq (k := 4) hlayers rfl (List.mem_singleton_self _), columnStep,
        columns_eq (k := 3) hlayers rfl (List.mem_singleton_self _), columnStep, keepRows_data,
        bound_column (i := 1) hlayers rfl rfl rfl rfl,
        bound_column (i := 2) hlayers rfl rfl rfl hlength]
      rfl

end Running

end InkFuse.Algebra.SubopGraph
