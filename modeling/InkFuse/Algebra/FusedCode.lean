import InkFuse.Algebra.FilterProtocol
import InkFuse.Codegen.Blocks

/-!
The function that `compile` generates for a pipeline of one loop driver, IU providers, expressions,
copies, filters and fuse chunk sinks. Variables are known by what they belong to: those of an IU by
the IU, the others by the suboperator. The pointers that the preamble takes from the states never
change, so a read or a write names the suboperator whose state it goes to.
-/

namespace InkFuse.Algebra.SubopGraph

open Blocks

/-- The statements that are generated, without control flow. -/
inductive Statement (IU : Type)
  /-- `DeclareStmt` -/
  | declare (iu : IU)
  /-- The start and the end of the morsel, from the state of the driver `k`. -/
  | loadMorsel (driverIU : IU) (k : ℕ)
  /-- The custom iterator of `k` starts at 0. -/
  | zeroIterator (k : ℕ)
  /-- `iu = *(start + driverIU)` -/
  | readCell (iu driverIU : IU) (k : ℕ)
  /-- `iu = start + iterator` -/
  | readAddress (iu : IU) (k : ℕ)
  /-- `iterator = iterator + width` -/
  | advance (k width : ℕ)
  | compute (iu : IU) (operands : List IU) (k : ℕ)
  /-- `iu = source` -/
  | assign (iu source : IU)
  /-- `*(raw_data + *size) = source` -/
  | writeCell (k : ℕ) (source : IU)
  /-- `memcpy(raw_data + iterator, source, width)` -/
  | writeBytes (k : ℕ) (source : IU) (width : ℕ)
  /-- `*size = *size + 1` -/
  | incrementSize (k : ℕ)
  /-- `driverIU = driverIU + 1` -/
  | incrementIndex (driverIU : IU)
  deriving DecidableEq, Repr

inductive Condition (IU : Type)
  /-- `driverIU < end` -/
  | beforeEnd (driverIU : IU) (k : ℕ)
  | holds (filterIU : IU)
  deriving DecidableEq, Repr

variable {IU : Type} [DecidableEq IU]

/-- `opt_if` and `opt_while` of the suboperators, and the keys of `iu_declarations`. -/
structure CodeBuilder (IU : Type) where
  builder : FunctionBuilder (Statement IU) (Condition IU)
  handles : ℕ → Option (Handle (Condition IU))
  declared : IU → Bool

namespace CodeBuilder

def start : CodeBuilder IU := ⟨.start, fun _ => none, fun _ => false⟩

def append (c : CodeBuilder IU) (stmts : List (Statement IU)) : CodeBuilder IU :=
  { c with builder := c.builder.append stmts }

def appendRoot (c : CodeBuilder IU) (stmts : List (Statement IU)) : CodeBuilder IU :=
  { c with builder := c.builder.appendRoot stmts }

/-- Asserts that the IU has no declaration yet. -/
def declareIU (c : CodeBuilder IU) (iu : IU) : Option (CodeBuilder IU) :=
  if c.declared iu then none else some { c with declared := Function.update c.declared iu true }

/-- `getIUDeclaration` throws when the IU was not declared. -/
def getIUDeclaration (c : CodeBuilder IU) (iu : IU) : Option Unit :=
  if c.declared iu then some () else none

def enter (c : CodeBuilder IU) (k : ℕ) (cond : Condition IU) : CodeBuilder IU :=
  { c with
    builder := (c.builder.enter cond).1
    handles := Function.update c.handles k (some (c.builder.enter cond).2) }

end CodeBuilder

/-- The width of the types that are `ByteArray`s. -/
abbrev Widths (IU : Type) := IU → Option ℕ

variable (widths : Widths IU)

namespace Suboperator

/-- The suboperators whose code is modelled. Only a driver has no inputs. -/
def isFusable : Suboperator IU → Bool
  | loopDriver _ => true
  | tscanIUProvider .. => true
  | fuseChunkSourceIUProvider .. => true
  | copy .. => true
  | columnFilterScope .. => true
  | columnFilterLogic .. => true
  | fuseChunkSink _ => true
  | other _ _ ius => ius.length = 1
  | _ => false

/-- `IndexedIUProvider::consume` -/
def readColumn (k : ℕ) (driverIU iu : IU) (c : CodeBuilder IU) : Option (CodeBuilder IU) := do
  c.getIUDeclaration driverIU
  match widths iu with
  | none =>
    let c ← (c.append [.declare iu]).declareIU iu
    some (c.append [.readCell iu driverIU k])
  | some width =>
    let c ← ((c.appendRoot [.zeroIterator k]).append [.declare iu]).declareIU iu
    some (c.append [.readAddress iu k, .advance k width])

/-- `consume` of `Copy`, `consumeAllChildren` of `ColumnFilterLogic`. -/
def redefine (source iu : IU) (c : CodeBuilder IU) : Option (CodeBuilder IU) := do
  c.getIUDeclaration source
  let c ← c.declareIU iu
  some (c.append [.declare iu, .assign iu source])

/-- `ExpressionSubop::consumeAllChildren` -/
def computeExpression (k : ℕ) (operands : List IU) (iu : IU) (c : CodeBuilder IU) :
    Option (CodeBuilder IU) := do
  let c ← (c.append [.declare iu]).declareIU iu
  operands.forM c.getIUDeclaration
  some (c.append [.compute iu operands k])

/-- `FuseChunkSink::consume` -/
def writeChunk (k : ℕ) (source : IU) (c : CodeBuilder IU) : Option (CodeBuilder IU) := do
  c.getIUDeclaration source
  match widths source with
  | none => some (c.append [.writeCell k source, .incrementSize k])
  | some width =>
    some ((c.appendRoot [.zeroIterator k]).append
      [.writeBytes k source width, .advance k width, .incrementSize k])

def emit (k : ℕ) (c : CodeBuilder IU) : Suboperator IU → Option (CodeBuilder IU)
  | loopDriver driverIU => do
    let c ← (c.appendRoot [.loadMorsel driverIU k]).declareIU driverIU
    some (c.enter k (.beforeEnd driverIU k))
  | tscanIUProvider driverIU iu => readColumn widths k driverIU iu c
  | fuseChunkSourceIUProvider driverIU iu => readColumn widths k driverIU iu c
  | copy source iu => redefine source iu c
  | other input inputs [iu] => computeExpression k (input :: inputs) iu c
  | columnFilterScope filterIU _ => do
    c.getIUDeclaration filterIU
    some (c.enter k (.holds filterIU))
  | columnFilterLogic _ source iu => redefine source iu c
  | fuseChunkSink source => writeChunk widths k source c
  | _ => none

/-- The statements of `close`. Fails when there is nothing to end. -/
def finish (k : ℕ) (c : CodeBuilder IU) : Suboperator IU → Option (CodeBuilder IU)
  | loopDriver driverIU => do
    let handle ← c.handles k
    some { c.append [.incrementIndex driverIU] with
      builder := (c.append [.incrementIndex driverIU]).builder.endWhile handle
      handles := Function.update c.handles k none }
  | columnFilterScope _ _ => do
    let handle ← c.handles k
    some { c with
      builder := c.builder.endIf handle
      handles := Function.update c.handles k none }
  | _ => some c

end Suboperator

def generateAction (subops : List (Suboperator IU)) (c : CodeBuilder IU) :
    CodeAction → Option (CodeBuilder IU)
  | .emit k => subops[k]?.bind (·.emit widths k c)
  | .finish k => subops[k]?.bind (·.finish k c)

/-- The function that `compile` builds. Each call appends its statements before it goes on, so the
calls that generate code are taken in their order. -/
def generate (subops : List (Suboperator IU)) (fuel : ℕ) : Option (CodeBuilder IU) := do
  let ctx ← (Pipeline.build subops).compileWithFilters fuel
  (ctx.actions (Pipeline.build subops)).foldlM (generateAction widths subops) .start

namespace Suboperator

/-- What a suboperator without control flow appends to the current block. -/
def code (k : ℕ) : Suboperator IU → List (Statement IU)
  | tscanIUProvider driverIU iu | fuseChunkSourceIUProvider driverIU iu =>
    match widths iu with
    | none => [.declare iu, .readCell iu driverIU k]
    | some width => [.declare iu, .readAddress iu k, .advance k width]
  | copy source iu => [.declare iu, .assign iu source]
  | columnFilterLogic _ source iu => [.declare iu, .assign iu source]
  | other input inputs [iu] => [.declare iu, .compute iu (input :: inputs) k]
  | fuseChunkSink source =>
    match widths source with
    | none => [.writeCell k source, .incrementSize k]
    | some width => [.writeBytes k source width, .advance k width, .incrementSize k]
  | _ => []

def preamble (k : ℕ) : Suboperator IU → List (Statement IU)
  | loopDriver driverIU => [.loadMorsel driverIU k]
  | tscanIUProvider _ iu | fuseChunkSourceIUProvider _ iu | fuseChunkSink iu =>
    if (widths iu).isSome then [.zeroIterator k] else []
  | _ => []

def reads : Suboperator IU → List IU
  | columnFilterLogic _ source _ => [source]
  | op => op.getSourceIUs

/-- The IUs that get a variable; a pseudo IU gets none. -/
def declares : Suboperator IU → List IU
  | columnFilterScope _ _ => []
  | op => op.getIUs

def opensBlock : Suboperator IU → Bool
  | loopDriver _ => true
  | columnFilterScope _ _ => true
  | _ => false

end Suboperator

omit [DecidableEq IU] in
theorem declares_eq {op : Suboperator IU}
    (hscope : ∀ filterIU pseudo, op ≠ .columnFilterScope filterIU pseudo) :
    op.declares = op.getIUs := by
  cases op with
  | columnFilterScope filterIU pseudo => exact absurd rfl (hscope filterIU pseudo)
  | _ => rfl

section Emitting

variable {widths} {c : CodeBuilder IU} {k : ℕ} {op : Suboperator IU}

omit [DecidableEq IU] in
theorem append_append (b : FunctionBuilder (Statement IU) (Condition IU))
    (stmts stmts' : List (Statement IU)) :
    (b.append stmts).append stmts' = b.append (stmts ++ stmts') := by
  simp [FunctionBuilder.append, FunctionBuilder.appendTo]

omit [DecidableEq IU] in
theorem appendRoot_nil (b : FunctionBuilder (Statement IU) (Condition IU)) :
    b.appendRoot [] = b := by
  simp [FunctionBuilder.appendRoot, FunctionBuilder.appendTo]

def CodeBuilder.emitted (widths : Widths IU) (c : CodeBuilder IU) (k : ℕ) (op : Suboperator IU)
    (declared : IU → Bool) : CodeBuilder IU :=
  ⟨(c.builder.appendRoot (op.preamble widths k)).append (op.code widths k), c.handles, declared⟩

theorem readColumn_spec {driverIU iu : IU} (hdriver : c.declared driverIU = true)
    (hfresh : c.declared iu = false) :
    Suboperator.readColumn widths k driverIU iu c = some (c.emitted widths k
      (.tscanIUProvider driverIU iu) (Function.update c.declared iu true)) := by
  unfold Suboperator.readColumn CodeBuilder.emitted
  cases hwidth : widths iu with
  | none =>
    simp [CodeBuilder.getIUDeclaration, CodeBuilder.declareIU, CodeBuilder.append, hdriver, hfresh,
      hwidth, Suboperator.preamble, Suboperator.code, append_append, appendRoot_nil]
  | some width =>
    simp [CodeBuilder.getIUDeclaration, CodeBuilder.declareIU, CodeBuilder.append,
      CodeBuilder.appendRoot, hdriver, hfresh, hwidth, Suboperator.preamble, Suboperator.code,
      append_append]

theorem redefine_spec (widths : Widths IU) (k : ℕ) {source iu : IU}
    (hsource : c.declared source = true)
    (hfresh : c.declared iu = false) :
    Suboperator.redefine source iu c = some
      (c.emitted widths k (.copy source iu) (Function.update c.declared iu true)) := by
  simp [Suboperator.redefine, CodeBuilder.emitted, CodeBuilder.getIUDeclaration,
    CodeBuilder.declareIU, CodeBuilder.append, hsource, hfresh, Suboperator.preamble,
    Suboperator.code, appendRoot_nil]

theorem computeExpression_spec {input iu : IU} {inputs : List IU}
    (hinputs : ∀ x ∈ input :: inputs, c.declared x = true) (hfresh : c.declared iu = false) :
    Suboperator.computeExpression k (input :: inputs) iu c = some
      (c.emitted widths k (.other input inputs [iu]) (Function.update c.declared iu true)) := by
  have hdeclared : ∀ xs : List IU, (∀ x ∈ xs, c.declared x = true) →
      xs.forM (CodeBuilder.getIUDeclaration
        ⟨c.builder.append [.declare iu], c.handles, Function.update c.declared iu true⟩) =
          some () := by
    intro xs hxs
    induction xs with
    | nil => rfl
    | cons x xs ih =>
      have hx : Function.update c.declared iu true x = true := by
        by_cases heq : x = iu
        · rw [heq, Function.update_self]
        · rw [Function.update_of_ne heq]
          exact hxs x (List.mem_cons_self ..)
      show (CodeBuilder.getIUDeclaration _ x).bind (fun _ => xs.forM _) = some ()
      rw [CodeBuilder.getIUDeclaration, if_pos hx]
      exact ih fun y hy => hxs y (List.mem_cons_of_mem _ hy)
  unfold Suboperator.computeExpression
  simp only [CodeBuilder.declareIU, CodeBuilder.append, hfresh, Bool.false_eq_true, if_false,
    Option.bind_eq_bind, Option.bind_some]
  rw [hdeclared _ hinputs]
  simp [CodeBuilder.emitted, Suboperator.preamble, Suboperator.code, append_append, appendRoot_nil]

omit [DecidableEq IU] in
theorem writeChunk_spec {source : IU} (hsource : c.declared source = true) :
    Suboperator.writeChunk widths k source c = some
      (c.emitted widths k (.fuseChunkSink source) c.declared) := by
  unfold Suboperator.writeChunk CodeBuilder.emitted
  cases hwidth : widths source with
  | none =>
    simp [CodeBuilder.getIUDeclaration, CodeBuilder.append, hsource, hwidth, Suboperator.preamble,
      Suboperator.code, appendRoot_nil]
  | some width =>
    simp [CodeBuilder.getIUDeclaration, CodeBuilder.append, CodeBuilder.appendRoot, hsource, hwidth,
      Suboperator.preamble, Suboperator.code]

theorem update_declared (iu x : IU) :
    Function.update c.declared iu true x = true ↔ c.declared x = true ∨ x ∈ [iu] := by
  by_cases hx : x = iu
  · simp [hx]
  · simp [hx]

/-- What is appended when all inputs are declared and the outputs are not. -/
theorem emit_plain (hop : op.isFusable = true) (hplain : op.opensBlock = false)
    (hreads : ∀ iu ∈ op.reads, c.declared iu = true)
    (hfresh : ∀ iu ∈ op.declares, c.declared iu = false) :
    ∃ declared, op.emit widths k c = some (c.emitted widths k op declared) ∧
      ∀ iu, declared iu = true ↔ c.declared iu = true ∨ iu ∈ op.declares := by
  cases op with
  | tscanIUProvider driverIU iu =>
    exact ⟨_, readColumn_spec (hreads _ (List.mem_cons_self ..)) (hfresh _ (List.mem_cons_self ..)),
      update_declared iu⟩
  | fuseChunkSourceIUProvider driverIU iu =>
    exact ⟨_, readColumn_spec (hreads _ (List.mem_cons_self ..)) (hfresh _ (List.mem_cons_self ..)),
      update_declared iu⟩
  | copy source iu =>
    exact ⟨_, redefine_spec widths k (hreads _ (List.mem_cons_self ..))
      (hfresh _ (List.mem_cons_self ..)), update_declared iu⟩
  | columnFilterLogic pseudo source iu =>
    exact ⟨_, redefine_spec widths k (hreads _ (List.mem_cons_self ..))
      (hfresh _ (List.mem_cons_self ..)), update_declared iu⟩
  | fuseChunkSink source =>
    exact ⟨_, writeChunk_spec (hreads _ (List.mem_cons_self ..)), by
      simp [Suboperator.declares, Suboperator.getIUs]⟩
  | other input inputs ius =>
    obtain ⟨iu, rfl⟩ : ∃ iu, ius = [iu] := by
      simpa [Suboperator.isFusable, List.length_eq_one_iff] using hop
    exact ⟨_, computeExpression_spec hreads (hfresh _ (List.mem_cons_self ..)), update_declared iu⟩
  | _ => simp_all [Suboperator.isFusable, Suboperator.opensBlock]

end Emitting

end InkFuse.Algebra.SubopGraph
