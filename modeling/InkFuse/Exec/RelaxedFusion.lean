import InkFuse.Algebra.RepipedCode

/-!
Relaxed operator fusion. Scope guards mark suboperators that are to be interpreted, the marks
become the intervals to compile, and a morsel replays the intervals and the interpreters.
-/

namespace InkFuse.Exec.RelaxedFusion

open Algebra.SubopGraph

inductive ROFStrategy
  | unset
  | beginVectorized
  | endVectorized
  deriving DecidableEq, Repr

/-- An `attachSuboperator`, or an `ROFScopeGuard` around any number of them. -/
inductive BuildStep (IU : Type)
  | attach (subop : Suboperator IU)
  | guarded (subops : List (Suboperator IU))

structure RofPipeline (IU : Type) where
  pipe : Pipeline IU
  strategies : List ROFStrategy

/-- What happens in a morsel: a source picks, a compiled interval runs, or the interpreter of a
suboperator. The code of a run is that of a repiped pipeline. -/
inductive Event (IU : Type)
  | picked (source : Repiped IU)
  | compiled (start stop : ℕ) (layout : List (Repiped IU))
  | interpreted (k : ℕ) (layout : List (Repiped IU))
  deriving DecidableEq, Repr

variable {IU : Type} [DecidableEq IU]

namespace RofPipeline

def attachSuboperator (p : RofPipeline IU) (subop : Suboperator IU) : RofPipeline IU :=
  ⟨p.pipe.attachSuboperator subop, p.strategies ++ [.unset]⟩

/-- The destructor of an `ROFScopeGuard`. -/
def closeGuard (sizeAtStart : ℕ) (p : RofPipeline IU) : RofPipeline IU :=
  let size := p.pipe.suboperators.length
  if sizeAtStart < size then
    { p with strategies :=
        (p.strategies.set sizeAtStart .beginVectorized).set (size - 1) .endVectorized }
  else
    p

def applyStep (p : RofPipeline IU) : BuildStep IU → RofPipeline IU
  | .attach subop => p.attachSuboperator subop
  | .guarded subops =>
    (subops.foldl attachSuboperator p).closeGuard p.pipe.suboperators.length

def ofSteps (steps : List (BuildStep IU)) : RofPipeline IU :=
  steps.foldl applyStep ⟨Pipeline.empty, []⟩

end RofPipeline

/-- The variables of the loop in `setUpFusedAsync`. -/
structure JitScan where
  inVectorizedInterval : Bool
  currIntervalStart : ℕ
  intervals : List (ℕ × ℕ)
  deriving DecidableEq, Repr

namespace JitScan

def scanSubop (s : JitScan) (k : ℕ) : ROFStrategy → Option JitScan
  | .beginVectorized =>
    some { s with
      inVectorizedInterval := true
      intervals := s.intervals ++ [(s.currIntervalStart, k)] }
  | .endVectorized =>
    if s.inVectorizedInterval then
      some { s with inVectorizedInterval := false, currIntervalStart := k + 1 }
    else
      none
  | .unset => some s

def scan : ℕ → List ROFStrategy → JitScan → Option JitScan
  | _, [], s => some s
  | k, strategy :: rest, s => (s.scanSubop k strategy).bind (scan (k + 1) rest)

end JitScan

section Runners

variable (p : Pipeline IU) (isVoid : IU → Bool) (hasFragment : Suboperator IU → Bool)

/-- The asserts in the constructor of `PipelineRunner`. -/
def constructs (layout : List (Repiped IU)) : Bool :=
  layout.head?.any (fun first => (first.getSourceIUs p.suboperators).isEmpty) &&
    layout.getLast?.any fun last => (last.getIUs p.suboperators).isEmpty ||
      (last.getIUs p.suboperators).head?.any (·.any isVoid)

/-- `setUpState` of a `FuseChunkSourceDriver`, which goes by the column of its first consumer. -/
def setsUp (layout : List (Repiped IU)) : Bool :=
  !(layout.any fun
      | .fuseChunkSourceDriver => true
      | _ => false) ||
    layout.any fun
      | .fuseChunkSourceIUProvider _ => true
      | _ => false

/-- The runner of an interval that was compiled. -/
structure CompileState (IU : Type) where
  start : ℕ
  stop : ℕ
  layout : List (Repiped IU)
  deriving DecidableEq, Repr

/-- `attach_compile_state`, up to the `setUpState` of the runner. -/
def attachCompileState (interval : ℕ × ℕ) : Option (CompileState IU) := do
  let layout ← p.repipeRequired isVoid interval.1 interval.2
  if constructs p isVoid layout && (p.generateC layout).isSome && setsUp layout then
    some ⟨interval.1, interval.2, layout⟩
  else
    none

/-- An `InterpretedRunner`. -/
structure Interpreter (IU : Type) where
  idx : ℕ
  layout : List (Repiped IU)
  pickFromSourceTable : Bool
  deriving DecidableEq, Repr

/-- The pipeline that an `InterpretedRunner` is set up with. -/
def interpretedLayout (k : ℕ) (op : Suboperator IU) : Option (List (Repiped IU)) := do
  let layout ← p.repipeAll isVoid k (k + 1)
  if constructs p isVoid layout && hasFragment op && setsUp layout then some layout else none

structure Interpreters (IU : Type) where
  interpreters : List (Interpreter IU)
  offsets : List (Option ℕ)
  deriving DecidableEq, Repr

def isInterpreted (op : Suboperator IU) : Bool := !op.outgoingStrongLinks && !op.isFuseChunkOp

/-- One step of the loop in `setUpInterpreted`. -/
def Interpreters.add (i : Interpreters IU) (op : Suboperator IU) : Option (Interpreters IU) :=
  if isInterpreted op then
    (interpretedLayout p isVoid hasFragment i.offsets.length op).map fun layout =>
      ⟨i.interpreters ++ [⟨i.offsets.length, layout, i.interpreters.isEmpty⟩],
        i.offsets ++ [some i.interpreters.length]⟩
  else
    some ⟨i.interpreters, i.offsets ++ [none]⟩

def setUpInterpreted : Option (Interpreters IU) :=
  p.suboperators.foldlM (Interpreters.add p isVoid hasFragment) ⟨[], []⟩

/-- `TScanDriver` and `HashTableSource` pick from a source. -/
def isLoopSource : Suboperator IU → Bool
  | .loopDriver _ => true
  | .hashTableSource .. => true
  | _ => false

def isLoopSourceAt (k : ℕ) : Bool := p.suboperators[k]?.any isLoopSource

/-- `pickMorsel` of the first suboperator. The default implementation throws. -/
def pickMorsel (layout : List (Repiped IU)) : Option (List (Event IU)) :=
  match layout.head? with
  | some .fuseChunkSourceDriver => some [.picked .fuseChunkSourceDriver]
  | some (.shared k) => if isLoopSourceAt p k then some [.picked (.shared k)] else none
  | _ => none

def CompileState.run (state : CompileState IU) : Option (List (Event IU)) :=
  (pickMorsel p state.layout).map fun picks =>
    picks ++ [.compiled state.start state.stop state.layout]

def isTableScanAt (k : ℕ) : Bool :=
  match p.suboperators[k]? with
  | some (.tscanIUProvider ..) => true
  | _ => false

/-- A table scan only picks a morsel when its interpreter is the first one. -/
def Interpreter.run (i : Interpreter IU) : Option (List (Event IU)) :=
  if isTableScanAt p i.idx && !i.pickFromSourceTable then
    some [.interpreted i.idx i.layout]
  else
    (pickMorsel p i.layout).map fun picks => picks ++ [.interpreted i.idx i.layout]

def Interpreters.interpret (i : Interpreters IU) (current : ℕ) : Option (List (Event IU)) :=
  match i.offsets[current]?.join.bind fun offset => i.interpreters[offset]? with
  | some interpreter => interpreter.run p
  | none => some []

/-- The loop of `runROFMorsel` behind the first compiled interval, over the intervals that have
not run yet. -/
def replay (i : Interpreters IU) : List (CompileState IU) → ℕ → Option (List (Event IU))
  | [], current =>
    if current < p.suboperators.length then do
      let events ← i.interpret p current
      let rest ← replay i [] (current + 1)
      some (events ++ rest)
    else
      some []
  | state :: states, current =>
    if current < p.suboperators.length then
      if state.start = current then do
        let events ← state.run p
        let rest ← replay i states state.stop
        some (events ++ rest)
      else do
        let events ← i.interpret p current
        let rest ← replay i (state :: states) (current + 1)
        some (events ++ rest)
    else
      some []
termination_by states current => (states.length, p.suboperators.length - current)

/-- A morsel that was picked; the first interval has to start at 0. -/
def runROFMorsel (i : Interpreters IU) : List (CompileState IU) → Option (List (Event IU))
  | state :: states =>
    if state.start = 0 then do
      let events ← state.run p
      let rest ← replay p i states state.stop
      some (events ++ rest)
    else
      none
  | [] => none

end Runners

/-- The intervals that `setUpFusedAsync` compiles in ROF mode. -/
def RofPipeline.jitIntervals (p : RofPipeline IU) : Option (List (ℕ × ℕ)) :=
  (JitScan.scan 0 p.strategies ⟨false, 0, []⟩).map fun s =>
    if s.inVectorizedInterval then
      s.intervals
    else
      s.intervals ++ [(s.currIntervalStart, p.pipe.suboperators.length)]

/-- An exception in `attach_compile_state` ends the set-up. -/
def RofPipeline.setUpFusedAsync (p : RofPipeline IU) (isVoid : IU → Bool) :
    Option (List (CompileState IU)) := do
  let intervals ← p.jitIntervals
  intervals.mapM (attachCompileState p.pipe isVoid)

section Coverage

variable (p : Pipeline IU)

def sharedSubops (layout : List (Repiped IU)) : List ℕ :=
  layout.filterMap fun
    | .shared k => some k
    | _ => none

def Event.executed : Event IU → List ℕ
  | .picked _ => []
  | .compiled _ _ layout => sharedSubops layout
  | .interpreted _ layout => sharedSubops layout

def Event.range : Event IU → ℕ × ℕ
  | .picked _ => (0, 0)
  | .compiled start stop _ => (start, stop)
  | .interpreted k _ => (k, k + 1)

/-- A pick from a source of the pipeline, not from a fuse chunk. -/
def Event.sharedPick : Event IU → Option ℕ
  | .picked (.shared k) => some k
  | _ => none

def hasOutgoing (k : ℕ) : Bool := p.suboperators[k]?.any (·.outgoingStrongLinks)

/-- The producer that the suboperator at an index cannot be separated from. -/
def strongProducer (k : ℕ) : Option ℕ := (p.suboperators[k]?.bind (p.incomingStrong k)).join

/-- A suboperator without interpreter is fused into the runs of all its strongly linked consumers,
and has one. -/
def FusedIntoConsumers (events : List (Event IU)) (k : ℕ) : Prop :=
  (∃ j, strongProducer p j = some k) ∧
  ∀ j, strongProducer p j = some k → ∃ event ∈ events, j ∈ event.executed ∧ k ∈ event.executed

def loopSources (layout : List (Repiped IU)) : List (Repiped IU) :=
  layout.filter fun
    | .fuseChunkSourceDriver => true
    | .shared k => isLoopSourceAt p k
    | _ => false

def Event.loops (p : Pipeline IU) : Event IU → Prop
  | .picked _ => True
  | .compiled _ _ layout => loopSources p layout = [.fuseChunkSourceDriver] ∨
      loopSources p layout = [.shared 0]
  | .interpreted _ layout => loopSources p layout = [.fuseChunkSourceDriver] ∨
      loopSources p layout = [.shared 0]

/-- What relaxed operator fusion is to do for a pipeline and a morsel. The suboperators without
outgoing strong links are executed one after the other, each by the run that it belongs to. The
others are in such a run as well, or fused into all their consumers. One morsel is picked, and
every run goes over this morsel, or over the rows of its fuse chunk. -/
structure CoversPipeline (intervals : List (ℕ × ℕ)) (events : List (Event IU)) : Prop where
  nonempty : ∀ interval ∈ intervals, interval.1 < interval.2
  first : ∃ stop rest, intervals = (0, stop) :: rest
  once : (events.flatMap (·.executed)).filter (fun k => !hasOutgoing p k) =
    (List.range p.suboperators.length).filter fun k => !hasOutgoing p k
  own : ∀ event ∈ events, ∀ k ∈ event.executed,
    event.range.1 ≤ k ∧ k < event.range.2 ∨ hasOutgoing p k = true
  strong : ∀ k < p.suboperators.length, hasOutgoing p k = true →
    (∃ event ∈ events, event.range.1 ≤ k ∧ k < event.range.2) ∨ FusedIntoConsumers p events k
  picked : events.filterMap (·.sharedPick) = [0]
  loops : ∀ event ∈ events, event.loops p

/-- The pipeline is set up, replayed and covered. The executor asserts that it goes from a source
to a sink. -/
def RofCovers (isVoid : IU → Bool) (hasFragment : Suboperator IU → Bool)
    (steps : List (BuildStep IU)) : Prop :=
  let p := RofPipeline.ofSteps steps
  (∃ first ∈ p.pipe.suboperators.head?, first.isSource = true) ∧
  (∃ last ∈ p.pipe.suboperators.getLast?, last.isSink = true) ∧
  ∃ states interpreters events, p.setUpFusedAsync isVoid = some states ∧
    setUpInterpreted p.pipe isVoid hasFragment = some interpreters ∧
    runROFMorsel p.pipe interpreters states = some events ∧
    CoversPipeline p.pipe (states.map fun state => (state.start, state.stop)) events

end Coverage

section Layout

/-- The lengths of the parts of a pipeline: what is in front of the first guard, and for each
guard around at least one suboperator what is inside and behind it. -/
structure Layout where
  lead : ℕ
  guards : List (ℕ × ℕ)
  deriving DecidableEq, Repr

def layoutOf : List (BuildStep IU) → Layout
  | [] => ⟨0, []⟩
  | .attach _ :: steps => { layoutOf steps with lead := (layoutOf steps).lead + 1 }
  | .guarded [] :: steps => layoutOf steps
  | .guarded (op :: ops) :: steps =>
    ⟨0, ((op :: ops).length, (layoutOf steps).lead) :: (layoutOf steps).guards⟩

def behindGuards : ℕ → List (ℕ × ℕ) → List (ℕ × ℕ)
  | _, [] => []
  | k, (inside, behind) :: guards =>
    (k + inside, k + inside + behind) :: behindGuards (k + inside + behind) guards

def insideGuards : ℕ → List (ℕ × ℕ) → List (ℕ × ℕ)
  | _, [] => []
  | k, (inside, behind) :: guards => (k, k + inside) :: insideGuards (k + inside + behind) guards

def Layout.outside (l : Layout) : List (ℕ × ℕ) := (0, l.lead) :: behindGuards l.lead l.guards

def Layout.inside (l : Layout) : List (ℕ × ℕ) := insideGuards l.lead l.guards

/-- A repiped range keeps the producer that its first suboperator is strongly linked to. -/
def keptAt (p : Pipeline IU) (start stop : ℕ) : List ℕ := kept (strongProducer p start) start stop

def requiredAt (p : Pipeline IU) (start stop : ℕ) : List IU :=
  match p.suboperators[start]? with
  | some first => Pipeline.hackfix first (externalIUs p.suboperators (keptAt p start stop))
  | none => []

/-- The suboperators that `setUpInterpreted` builds an interpreter for. -/
def hasInterpreter (p : Pipeline IU) (k : ℕ) : Bool := p.suboperators[k]?.any isInterpreted

/-- A part outside of guards that can be compiled and run. It is cut where nothing is strongly
linked, reads columns that can be in a fuse chunk and has filters with all their logics. It has an
output, and behind a guard it goes over the rows of a fuse chunk. -/
structure PartSafe (p : Pipeline IU) (isVoid : IU → Bool) (start stop : ℕ) : Prop where
  last : hasOutgoing p (stop - 1) = false
  reads : ReadsInside p.suboperators isVoid (requiredAt p start stop) (keptAt p start stop)
  logics : ∀ k s, p.scopeOf k = some s → s ∈ keptAt p start stop → k ∈ keptAt p start stop
  output : p.outRequired isVoid start stop ≠ [] ∨
    (iusAt p.suboperators (stop - 1)).head?.all isVoid = true
  input : 0 < start → strongProducer p start ≠ some 0 ∧ requiredAt p start stop ≠ []

/-- A suboperator inside of a guard. It is interpreted on the rows of a fuse chunk, or is a table
scan on the morsel of the first interpreter; or it is fused into its consumers, which are inside of
guards or in parts that begin with one. -/
structure InsideSafe (p : Pipeline IU) (l : Layout) (k : ℕ) : Prop where
  interpreted : hasOutgoing p k = true ∨ hasInterpreter p k = true
  picks : hasInterpreter p k = true →
    if strongProducer p k = some 0 then ∃ j < k, hasInterpreter p j = true
    else requiredAt p k (k + 1) ≠ []
  fused : hasOutgoing p k = true → (∃ j, strongProducer p j = some k) ∧
    ∀ j, strongProducer p j = some k → ∀ part ∈ l.outside, part.1 ≤ j → j < part.2 →
      strongProducer p part.1 = some k

/-- The pipelines that relaxed operator fusion covers. They go from their one source to a sink,
every guard is around at least two suboperators and has some in front of it and behind it, and
every interpreter has a fragment and reads a column. -/
structure RofSafe (isVoid : IU → Bool) (hasFragment : Suboperator IU → Bool) (p : Pipeline IU)
    (l : Layout) : Prop where
  lead : 0 < l.lead
  guards : ∀ g ∈ l.guards, 2 ≤ g.1 ∧ 0 < g.2
  source : ∀ k < p.suboperators.length, isLoopSourceAt p k = true ↔ k = 0
  sink : ∀ last ∈ p.suboperators.getLast?, last.isSink = true
  interpreters : ∀ k op, p.suboperators[k]? = some op → hasInterpreter p k = true →
    hasFragment op = true ∧
      (requiredAt p k (k + 1) = [] ∨ ∃ iu ∈ requiredAt p k (k + 1), isVoid iu = false)
  parts : ∀ part ∈ l.outside, PartSafe p isVoid part.1 part.2
  inside : ∀ part ∈ l.inside, ∀ k, part.1 ≤ k → k < part.2 → InsideSafe p l k

end Layout

section Strategies

/-- The strategies inside of a guard. Around one suboperator the end overwrites the begin. -/
def marks : ℕ → List ROFStrategy
  | 0 => []
  | 1 => [.endVectorized]
  | m + 2 => .beginVectorized :: List.replicate m .unset ++ [.endVectorized]

def guardStrategies (guards : List (ℕ × ℕ)) : List ROFStrategy :=
  guards.flatMap fun g => marks g.1 ++ List.replicate g.2 .unset

def Layout.strategies (l : Layout) : List ROFStrategy :=
  List.replicate l.lead .unset ++ guardStrategies l.guards

def total (guards : List (ℕ × ℕ)) : ℕ := (guards.map fun g => g.1 + g.2).sum

theorem foldl_attachSuboperator (p : RofPipeline IU) (subops : List (Suboperator IU)) :
    (subops.foldl RofPipeline.attachSuboperator p).strategies =
        p.strategies ++ List.replicate subops.length .unset ∧
      (subops.foldl RofPipeline.attachSuboperator p).pipe.suboperators.length =
        p.pipe.suboperators.length + subops.length := by
  induction subops generalizing p with
  | nil => simp
  | cons op ops ih =>
    obtain ⟨hstrategies, hlength⟩ := ih (p.attachSuboperator op)
    rw [List.foldl_cons, hstrategies, hlength]
    simp only [RofPipeline.attachSuboperator, Pipeline.attachSuboperator, List.append_assoc,
      List.length_append, List.length_cons, List.length_nil, List.replicate_succ,
      List.singleton_append, true_and]
    omega

theorem strategies_closeGuard (old : List ROFStrategy) (m : ℕ) :
    ((old ++ List.replicate (m + 1) ROFStrategy.unset).set old.length .beginVectorized).set
      (old.length + (m + 1) - 1) .endVectorized = old ++ marks (m + 1) := by
  cases m with
  | zero => simp [marks]
  | succ m =>
    have hlast : old.length + (m + 1 + 1) - 1 = old.length + (m + 1) := by omega
    rw [hlast, List.set_append_right _ _ (Nat.le_refl _), Nat.sub_self,
      List.set_append_right _ _ (Nat.le_add_right ..), Nat.add_sub_cancel_left,
      List.replicate_succ, List.set_cons_zero, List.set_cons_succ, List.replicate_succ', marks,
      List.set_append_right _ _ (by simp)]
    simp

theorem strategies_applySteps (steps : List (BuildStep IU)) (p : RofPipeline IU)
    (h : p.strategies.length = p.pipe.suboperators.length) :
    (steps.foldl RofPipeline.applyStep p).strategies =
        p.strategies ++ (layoutOf steps).strategies ∧
      (steps.foldl RofPipeline.applyStep p).pipe.suboperators.length =
        p.pipe.suboperators.length + (layoutOf steps).lead + total (layoutOf steps).guards := by
  induction steps generalizing p with
  | nil => simp [layoutOf, Layout.strategies, guardStrategies, total]
  | cons step steps ih =>
    rw [List.foldl_cons]
    cases step with
    | attach op =>
      obtain ⟨hstrategies, hlength⟩ := ih (p.attachSuboperator op) (by
        simp [RofPipeline.attachSuboperator, Pipeline.attachSuboperator, h])
      rw [RofPipeline.applyStep, hstrategies, hlength]
      simp only [RofPipeline.attachSuboperator, Pipeline.attachSuboperator, layoutOf,
        Layout.strategies, List.replicate_succ, List.append_assoc, List.length_append,
        List.length_singleton, List.cons_append, List.nil_append, true_and]
      omega
    | guarded ops =>
      obtain ⟨hattached, hsize⟩ := foldl_attachSuboperator p ops
      cases ops with
      | nil =>
        have hsame : p.applyStep (.guarded []) = p := by
          simp [RofPipeline.applyStep, RofPipeline.closeGuard]
        rw [hsame, layoutOf]
        exact ih p h
      | cons op ops =>
        set q := p.applyStep (.guarded (op :: ops)) with hq
        have hqstrategies : q.strategies = p.strategies ++ marks (op :: ops).length := by
          rw [hq, RofPipeline.applyStep, RofPipeline.closeGuard, if_pos (by rw [hsize]; simp)]
          show ((List.foldl _ p (op :: ops)).strategies.set _ _).set _ _ = _
          rw [hattached, hsize, ← h]
          exact strategies_closeGuard p.strategies ops.length
        have hqlength : q.pipe.suboperators.length =
            p.pipe.suboperators.length + (op :: ops).length := by
          rw [hq, RofPipeline.applyStep, RofPipeline.closeGuard]
          split <;> exact hsize
        have hmarks : (marks (op :: ops).length).length = (op :: ops).length := by
          cases ops <;> simp [marks]
        obtain ⟨hstrategies, hlength⟩ := ih q (by
          rw [hqstrategies, hqlength, List.length_append, hmarks, h])
        rw [hstrategies, hlength, hqstrategies, hqlength]
        simp only [layoutOf, Layout.strategies, guardStrategies, total, List.flatMap_cons,
          List.replicate_zero, List.nil_append, List.append_assoc, List.map_cons, List.sum_cons,
          true_and]
        omega

/-- What a sequence of steps builds is told by its layout. -/
theorem ofSteps_layout (steps : List (BuildStep IU)) :
    (RofPipeline.ofSteps steps).strategies = (layoutOf steps).strategies ∧
      (RofPipeline.ofSteps steps).pipe.suboperators.length =
        (layoutOf steps).lead + total (layoutOf steps).guards := by
  obtain ⟨hstrategies, hlength⟩ := strategies_applySteps steps ⟨Pipeline.empty, []⟩ rfl
  refine ⟨hstrategies, hlength.trans ?_⟩
  simp [Pipeline.empty]

omit [DecidableEq IU] in
theorem layoutOf_guards (steps : List (BuildStep IU)) :
    ∀ g ∈ (layoutOf steps).guards, 1 ≤ g.1 := by
  induction steps with
  | nil => simp [layoutOf]
  | cons step steps ih =>
    cases step with
    | attach op => exact ih
    | guarded ops =>
      cases ops with
      | nil => exact ih
      | cons op ops =>
        intro g hg
        rcases List.mem_cons.mp hg with rfl | hg
        · simp
        · exact ih g hg

end Strategies

section Scan

namespace JitScan

theorem scan_append (k : ℕ) (xs ys : List ROFStrategy) (s : JitScan) :
    scan k (xs ++ ys) s = (scan k xs s).bind (scan (k + xs.length) ys) := by
  induction xs generalizing k s with
  | nil => rfl
  | cons x xs ih =>
    rw [List.cons_append, scan, scan]
    cases s.scanSubop k x with
    | none => rfl
    | some s' =>
      show scan (k + 1) (xs ++ ys) s' = _
      rw [ih, List.length_cons, Nat.add_assoc, Nat.add_comm 1]
      rfl

theorem scan_unset (k n : ℕ) (s : JitScan) :
    scan k (List.replicate n .unset) s = some s := by
  induction n generalizing k with
  | zero => rfl
  | succ n ih =>
    rw [List.replicate_succ, scan]
    exact ih (k + 1)

/-- Inside of a guard around at least two suboperators, one interval ends and the next begins
behind the guard. -/
theorem scan_marks (k m start : ℕ) (intervals : List (ℕ × ℕ)) :
    scan k (marks (m + 2)) ⟨false, start, intervals⟩ =
      some ⟨false, k + (m + 2), intervals ++ [(start, k)]⟩ := by
  rw [marks, List.cons_append, scan]
  show scan (k + 1) _ _ = _
  rw [scan_append, scan_unset]
  simp only [Option.bind_some, List.length_replicate, scan, scanSubop, if_true]
  rw [show k + 1 + m + 1 = k + (m + 2) by omega]

/-- The loop over guards: it fails at the first one around a single suboperator. -/
theorem scan_guards (guards : List (ℕ × ℕ)) (hguards : ∀ g ∈ guards, 1 ≤ g.1) (k start : ℕ)
    (intervals : List (ℕ × ℕ)) :
    (scan k (guardStrategies guards) ⟨false, start, intervals⟩).map (fun s =>
        if s.inVectorizedInterval then s.intervals
        else s.intervals ++ [(s.currIntervalStart, k + total guards)]) =
      if ∀ g ∈ guards, 2 ≤ g.1 then some (intervals ++ (start, k) :: behindGuards k guards)
      else none := by
  induction guards generalizing k start intervals with
  | nil => simp [guardStrategies, scan, total, behindGuards]
  | cons g guards ih =>
    obtain ⟨inside, behind⟩ := g
    have hinside : 1 ≤ inside := hguards _ (List.mem_cons_self ..)
    obtain ⟨m, rfl⟩ : ∃ m, inside = m + 1 := ⟨inside - 1, by omega⟩
    have hlength : (marks (m + 1)).length = m + 1 := by cases m <;> simp [marks]
    rw [guardStrategies, List.flatMap_cons, List.append_assoc, scan_append, hlength]
    cases m with
    | zero =>
      rw [if_neg (by simp)]
      rfl
    | succ m =>
      rw [scan_marks, Option.bind_some, scan_append, scan_unset, Option.bind_some,
        List.length_replicate]
      have hrest := ih (fun g hg => hguards g (List.mem_cons_of_mem _ hg))
        (k + (m + 2) + behind) (k + (m + 2)) (intervals ++ [(start, k)])
      have htotal : k + total ((m + 2, behind) :: guards) =
          k + (m + 2) + behind + total guards := by
        simp only [total, List.map_cons, List.sum_cons]
        omega
      have hcond : (∀ g ∈ (m + 1 + 1, behind) :: guards, 2 ≤ g.1) ↔ ∀ g ∈ guards, 2 ≤ g.1 := by
        rw [List.forall_mem_cons]
        simp
      rw [htotal]
      refine hrest.trans ?_
      simp only [hcond, behindGuards, List.append_assoc, List.singleton_append]

end JitScan

theorem jitIntervals_eq (steps : List (BuildStep IU)) :
    (RofPipeline.ofSteps steps).jitIntervals =
      if ∀ g ∈ (layoutOf steps).guards, 2 ≤ g.1 then some (layoutOf steps).outside else none := by
  obtain ⟨hstrategies, hlength⟩ := ofSteps_layout steps
  rw [RofPipeline.jitIntervals, hstrategies, hlength, Layout.strategies, JitScan.scan_append,
    JitScan.scan_unset, Option.bind_some, List.length_replicate, Nat.zero_add]
  exact JitScan.scan_guards _ (layoutOf_guards steps) _ 0 []

end Scan

end InkFuse.Exec.RelaxedFusion
