import Mathlib.Tactic.Common

/-!
The calls that build a pipeline DAG, with the identity of every pipeline. A plan records which
suboperators each call sequence attaches where; the DAG of `Pipeline.cpp` is compared with it.
-/

namespace InkFuse.Algebra.Continuations

/-- The object behind a `Pipeline&`: what the n-th `buildNewPipeline` or the n-th
`attachContinuation` returned. -/
inductive Handle
  | pipeline (n : ℕ)
  | continuation (n : ℕ)
  deriving DecidableEq, Repr

structure Pipeline (α : Type*) where
  handle : Handle
  suboperators : List α
  parallelCodegen : Bool
  deriving DecidableEq, Repr

/-- `continuations` keeps with every continuation the number of suboperators that the current
pipeline had. `built` and `attached` count the pipelines handed out. -/
structure DAG (α : Type*) where
  pipelines : List (Pipeline α)
  continuations : List (ℕ × Pipeline α)
  built : ℕ
  attached : ℕ
  deriving DecidableEq, Repr

/-- The target of an `attachSuboperator` is the current pipeline, or the n-th pipeline that
`attachContinuation` returned. -/
inductive Call (α : Type*)
  | buildNewPipeline
  | attachContinuation
  | attachSuboperator (target : Option ℕ) (subop : α)
  deriving DecidableEq, Repr

variable {α : Type*}

namespace Pipeline

def attachSuboperator (p : Pipeline α) (subop : α) : Pipeline α :=
  { p with suboperators := p.suboperators ++ [subop] }

def disallowParallelCodegen (p : Pipeline α) : Pipeline α := { p with parallelCodegen := false }

def attachTo (target : Handle) (subop : α) (p : Pipeline α) : Pipeline α :=
  if p.handle = target then p.attachSuboperator subop else p

end Pipeline

namespace DAG

def empty : DAG α := ⟨[], [], 0, 0⟩

/-- The loop of `buildNewPipeline`. The vector that it appends to is the one whose back it
copies from. -/
def flush : List (Pipeline α) → List (ℕ × Pipeline α) → List (Pipeline α)
  | pipelines, [] => pipelines
  | pipelines, (subopIdx, pipe) :: rest =>
    let currSubops := (pipelines.getLast?.map (·.suboperators)).getD []
    flush (pipelines ++ [(currSubops.drop subopIdx).foldl .attachSuboperator pipe]) rest

def buildNewPipeline (d : DAG α) : DAG α :=
  { d with
    pipelines := flush d.pipelines d.continuations ++ [⟨.pipeline d.built, [], true⟩]
    continuations := []
    built := d.built + 1 }

/-- Fails as the assert does when there is no pipeline. -/
def attachContinuation (d : DAG α) : Option (DAG α) :=
  match d.pipelines.getLast? with
  | none => none
  | some curr =>
    let newPipe := ⟨.continuation d.attached, [], false⟩
    some { d with
      pipelines := d.pipelines.dropLast ++ [curr.disallowParallelCodegen]
      continuations := d.continuations ++ [(curr.suboperators.length, newPipe)]
      attached := d.attached + 1 }

def attachSuboperator (d : DAG α) : Option ℕ → α → Option (DAG α)
  | none, subop =>
    match d.pipelines.getLast? with
    | none => none
    | some curr =>
      some { d with pipelines := d.pipelines.dropLast ++ [curr.attachSuboperator subop] }
  | some n, subop =>
    if n < d.attached then
      some { d with
        pipelines := d.pipelines.map (.attachTo (.continuation n) subop)
        continuations := d.continuations.map fun c => (c.1, c.2.attachTo (.continuation n) subop) }
    else
      none

def step (d : DAG α) : Call α → Option (DAG α)
  | .buildNewPipeline => some d.buildNewPipeline
  | .attachContinuation => d.attachContinuation
  | .attachSuboperator target subop => d.attachSuboperator target subop

def run (d : DAG α) (calls : List (Call α)) : Option (DAG α) := calls.foldlM step d

/-- `getPipelines`, as far as the suboperators go. -/
def getPipelines (d : DAG α) : List (Handle × List α) :=
  d.pipelines.map fun p => (p.handle, p.suboperators)

end DAG

/-- What is attached to a continuation, before (`early`) and after (`late`) the next pipeline is
built. `start` suboperators were on the originating pipeline before it. -/
structure PlannedContinuation (α : Type*) where
  handle : ℕ
  start : ℕ
  early : List α
  late : List α
  deriving DecidableEq, Repr

structure PlannedPipeline (α : Type*) where
  number : ℕ
  suboperators : List α
  continuations : List (PlannedContinuation α)
  deriving DecidableEq, Repr

/-- The plan that a sequence of calls describes: the pipelines of `buildNewPipeline`, each with
the continuations created from it. -/
structure Plan (α : Type*) where
  finished : List (PlannedPipeline α)
  current : Option (PlannedPipeline α)
  built : ℕ
  attached : ℕ
  deriving DecidableEq, Repr

namespace PlannedPipeline

def suffix (b : PlannedPipeline α) (c : PlannedContinuation α) : List α :=
  b.suboperators.drop c.start

/-- The pipeline and its continuations as they are meant to be in the DAG. -/
def layout (b : PlannedPipeline α) : List (Handle × List α) :=
  (.pipeline b.number, b.suboperators) ::
    b.continuations.map fun c => (.continuation c.handle, c.early ++ c.late ++ b.suffix c)

def attachEarly (n : ℕ) (subop : α) (b : PlannedPipeline α) : PlannedPipeline α :=
  { b with continuations := b.continuations.map fun c =>
      if c.handle = n then { c with early := c.early ++ [subop] } else c }

def attachLate (n : ℕ) (subop : α) (b : PlannedPipeline α) : PlannedPipeline α :=
  { b with continuations := b.continuations.map fun c =>
      if c.handle = n then { c with late := c.late ++ [subop] } else c }

/-- When the continuations of a pipeline get what they should. A later continuation is copied
from the one before it, so the suboperators in front of the copied suffix must be as many as on
the originating pipeline. -/
def CopiesSuffix (b : PlannedPipeline α) : Prop :=
  (b.continuations.IsChain fun c next => c.early.length = c.start ∨
    next.start = b.suboperators.length ∧ c.early.length ≤ c.start) ∧
  ∀ c ∈ b.continuations, c.late ++ b.suffix c = b.suffix c ++ c.late

end PlannedPipeline

namespace Plan

def empty : Plan α := ⟨[], none, 0, 0⟩

def step (p : Plan α) : Call α → Option (Plan α)
  | .buildNewPipeline =>
    some ⟨p.finished ++ p.current.toList, some ⟨p.built, [], []⟩, p.built + 1, p.attached⟩
  | .attachContinuation => p.current.map fun b =>
    { p with
      current := some { b with
        continuations := b.continuations ++ [⟨p.attached, b.suboperators.length, [], []⟩] }
      attached := p.attached + 1 }
  | .attachSuboperator none subop => p.current.map fun b =>
    { p with current := some { b with suboperators := b.suboperators ++ [subop] } }
  | .attachSuboperator (some n) subop =>
    if n < p.attached then
      some { p with
        finished := p.finished.map (.attachLate n subop)
        current := p.current.map (.attachEarly n subop) }
    else
      none

def run (p : Plan α) (calls : List (Call α)) : Option (Plan α) := calls.foldlM step p

/-- Every pipeline, followed by the continuations created from it. -/
def layout (p : Plan α) : List (Handle × List α) :=
  (p.finished ++ p.current.toList).flatMap (·.layout)

/-- The calls for which the DAG is as planned. -/
def Flushed (p : Plan α) : Prop :=
  (∀ b ∈ p.finished, b.CopiesSuffix) ∧ ∀ b ∈ p.current, b.continuations = []

end Plan

section Realization

/-- The continuations of a pipeline after the flush: each is copied from the one before it. -/
def copies : List α → List (PlannedContinuation α) → List (Pipeline α)
  | _, [] => []
  | back, c :: cs =>
    ⟨.continuation c.handle, c.early ++ back.drop c.start ++ c.late, false⟩ ::
      copies (c.early ++ back.drop c.start) cs

def PlannedPipeline.pipeline (b : PlannedPipeline α) : Pipeline α :=
  ⟨.pipeline b.number, b.suboperators, b.continuations.isEmpty⟩

def PlannedPipeline.realize (b : PlannedPipeline α) : List (Pipeline α) :=
  b.pipeline :: copies b.suboperators b.continuations

def PlannedContinuation.pending (c : PlannedContinuation α) : ℕ × Pipeline α :=
  (c.start, ⟨.continuation c.handle, c.early, false⟩)

def Plan.realize (p : Plan α) : DAG α where
  pipelines := p.finished.flatMap (·.realize) ++ p.current.toList.map (·.pipeline)
  continuations := p.current.toList.flatMap fun b => b.continuations.map (·.pending)
  built := p.built
  attached := p.attached

/-- Starts grow along the continuations and stay within the pipeline. -/
structure PlannedPipeline.Inv (b : PlannedPipeline α) : Prop where
  sorted : b.continuations.Pairwise fun c d => c.start ≤ d.start
  within : ∀ c ∈ b.continuations, c.start ≤ b.suboperators.length

structure Plan.Inv (p : Plan α) : Prop where
  started : p.current = none → p.finished = []
  finished : ∀ b ∈ p.finished, b.Inv
  current : ∀ b ∈ p.current, b.Inv ∧ ∀ c ∈ b.continuations, c.late = []

theorem foldl_attachSuboperator (subops : List α) (p : Pipeline α) :
    subops.foldl .attachSuboperator p = { p with suboperators := p.suboperators ++ subops } := by
  induction subops generalizing p with
  | nil => simp
  | cons x xs ih => simp [ih, Pipeline.attachSuboperator]

theorem flush_pending (older : List (Pipeline α)) (last : Pipeline α)
    (cs : List (PlannedContinuation α)) (hlate : ∀ c ∈ cs, c.late = []) :
    DAG.flush (older ++ [last]) (cs.map (·.pending)) =
      older ++ [last] ++ copies last.suboperators cs := by
  induction cs generalizing older last with
  | nil => simp [DAG.flush, copies]
  | cons c cs ih =>
    have hc := hlate c (List.mem_cons_self ..)
    have hrest := ih (older ++ [last])
      ⟨.continuation c.handle, c.early ++ last.suboperators.drop c.start, false⟩
      fun d hd => hlate d (List.mem_cons_of_mem _ hd)
    show DAG.flush (older ++ [last]) ((c.start, ⟨.continuation c.handle, c.early, false⟩) ::
      cs.map (·.pending)) = _
    simp only [DAG.flush, List.getLast?_append, List.getLast?_singleton, Option.some_or,
      Option.map_some, Option.getD_some, foldl_attachSuboperator, copies, hc, List.append_nil]
    simpa using hrest

theorem map_attachTo_copies (n : ℕ) (subop : α) (back : List α)
    (cs : List (PlannedContinuation α)) :
    (copies back cs).map (.attachTo (.continuation n) subop) =
      copies back (cs.map fun c =>
        if c.handle = n then { c with late := c.late ++ [subop] } else c) := by
  induction cs generalizing back with
  | nil => rfl
  | cons c cs ih =>
    simp only [copies, List.map_cons, ih]
    by_cases hc : c.handle = n <;>
      simp [hc, Pipeline.attachTo, Pipeline.attachSuboperator]

theorem map_attachTo_realize (n : ℕ) (subop : α) (b : PlannedPipeline α) :
    b.realize.map (.attachTo (.continuation n) subop) = (b.attachLate n subop).realize := by
  show Pipeline.attachTo _ _ b.pipeline :: (copies _ _).map _ = _
  rw [map_attachTo_copies]
  simp [PlannedPipeline.realize, PlannedPipeline.attachLate, PlannedPipeline.pipeline,
    Pipeline.attachTo]

/-- What `buildNewPipeline` flushes is the realization of the pipeline that ends. -/
theorem realize_buildNewPipeline {p : Plan α} (h : p.Inv) :
    p.realize.buildNewPipeline =
      Plan.realize ⟨p.finished ++ p.current.toList, some ⟨p.built, [], []⟩, p.built + 1,
        p.attached⟩ := by
  have hflush : DAG.flush p.realize.pipelines p.realize.continuations =
      (p.finished ++ p.current.toList).flatMap (·.realize) := by
    cases hcurrent : p.current with
    | none => simp [Plan.realize, hcurrent, DAG.flush]
    | some b =>
      have hlate := (h.current b hcurrent).2
      simp only [Plan.realize, hcurrent, Option.toList_some, List.map_singleton,
        List.flatMap_singleton, List.flatMap_append]
      rw [flush_pending _ _ _ hlate, List.append_assoc]
      rfl
  rw [DAG.buildNewPipeline, hflush]
  simp [Plan.realize, PlannedPipeline.pipeline]

/-- The DAG follows the plan: the same calls fail, and the others lead to what is planned. -/
theorem realize_step {p : Plan α} (h : p.Inv) (call : Call α) :
    p.realize.step call = (p.step call).map (·.realize) := by
  cases call with
  | buildNewPipeline => exact congrArg some (realize_buildNewPipeline h)
  | attachContinuation =>
    cases hcurrent : p.current with
    | none =>
      simp [DAG.step, DAG.attachContinuation, Plan.step, Plan.realize, hcurrent,
        h.started hcurrent]
    | some b =>
      simp [DAG.step, DAG.attachContinuation, Plan.step, Plan.realize, hcurrent,
        PlannedPipeline.pipeline, Pipeline.disallowParallelCodegen, PlannedContinuation.pending]
  | attachSuboperator target subop =>
    cases target with
    | none =>
      cases hcurrent : p.current with
      | none =>
        simp [DAG.step, DAG.attachSuboperator, Plan.step, Plan.realize, hcurrent,
          h.started hcurrent]
      | some b =>
        simp [DAG.step, DAG.attachSuboperator, Plan.step, Plan.realize, hcurrent,
          PlannedPipeline.pipeline, Pipeline.attachSuboperator]
    | some n =>
      by_cases hn : n < p.attached
      · have hfinished : (p.finished.flatMap (·.realize)).map
            (Pipeline.attachTo (.continuation n) subop) =
              (p.finished.map (PlannedPipeline.attachLate n subop)).flatMap (·.realize) := by
          rw [List.map_flatMap, List.flatMap_map]
          simp only [map_attachTo_realize]
        have hcurrent : (p.current.toList.map (·.pipeline)).map
            (Pipeline.attachTo (.continuation n) subop) =
              (p.current.map (PlannedPipeline.attachEarly n subop)).toList.map (·.pipeline) := by
          cases p.current <;>
            simp [PlannedPipeline.pipeline, Pipeline.attachTo, PlannedPipeline.attachEarly]
        have hpending : ∀ c : PlannedContinuation α,
            (c.pending.1, c.pending.2.attachTo (.continuation n) subop) =
              PlannedContinuation.pending
                (if c.handle = n then { c with early := c.early ++ [subop] } else c) := by
          intro c
          by_cases hc : c.handle = n <;>
            simp [hc, PlannedContinuation.pending, Pipeline.attachTo, Pipeline.attachSuboperator]
        have hcontinuations : (p.current.toList.flatMap
            fun b => b.continuations.map (·.pending)).map
              (fun c => (c.1, c.2.attachTo (.continuation n) subop)) =
            (p.current.map (PlannedPipeline.attachEarly n subop)).toList.flatMap
              fun b => b.continuations.map (·.pending) := by
          cases p.current with
          | none => rfl
          | some b => simp [PlannedPipeline.attachEarly, hpending]
        simp only [DAG.step, DAG.attachSuboperator, Plan.step, Plan.realize, if_pos hn,
          List.map_append, Option.map_some, ← hfinished, ← hcurrent, ← hcontinuations]
      · simp [DAG.step, DAG.attachSuboperator, Plan.step, Plan.realize, hn]

theorem Plan.start_inv : (Plan.empty : Plan α).Inv := ⟨fun _ => rfl, by simp [Plan.empty],
  by simp [Plan.empty]⟩

theorem PlannedPipeline.Inv.congr {b : PlannedPipeline α} (h : b.Inv)
    {f : PlannedContinuation α → PlannedContinuation α} (hf : ∀ c, (f c).start = c.start) :
    PlannedPipeline.Inv { b with continuations := b.continuations.map f } := by
  refine ⟨List.pairwise_map.mpr ?_, ?_⟩
  · simpa only [hf] using h.sorted
  · intro c hc
    obtain ⟨d, hd, rfl⟩ := List.mem_map.mp hc
    exact (hf d).symm ▸ h.within d hd

theorem step_inv {p p' : Plan α} {call : Call α} (hstep : p.step call = some p') (h : p.Inv) :
    p'.Inv := by
  cases call with
  | buildNewPipeline =>
    cases hstep
    refine ⟨by simp, ?_, ?_⟩
    · intro b hb
      rcases List.mem_append.mp hb with hb | hb
      · exact h.finished b hb
      · exact (h.current b (Option.mem_toList.mp hb)).1
    · rintro b ⟨rfl⟩
      exact ⟨⟨List.Pairwise.nil, by simp⟩, by simp⟩
  | attachContinuation =>
    obtain ⟨b, hb, rfl⟩ := Option.map_eq_some_iff.mp hstep
    obtain ⟨hinv, hlate⟩ := h.current b hb
    refine ⟨by simp, h.finished, ?_⟩
    rintro b' ⟨rfl⟩
    refine ⟨⟨?_, ?_⟩, ?_⟩
    · refine List.pairwise_append.mpr ⟨hinv.sorted, List.pairwise_singleton .., ?_⟩
      intro c hc d hd
      rw [List.mem_singleton.mp hd]
      exact hinv.within c hc
    · intro c hc
      rcases List.mem_append.mp hc with hc | hc
      · exact hinv.within c hc
      · obtain rfl := List.mem_singleton.mp hc
        exact Nat.le_refl _
    · intro c hc
      rcases List.mem_append.mp hc with hc | hc
      · exact hlate c hc
      · rw [List.mem_singleton.mp hc]
  | attachSuboperator target subop =>
    cases target with
    | none =>
      obtain ⟨b, hb, rfl⟩ := Option.map_eq_some_iff.mp hstep
      obtain ⟨hinv, hlate⟩ := h.current b hb
      refine ⟨by simp, h.finished, ?_⟩
      rintro b' ⟨rfl⟩
      refine ⟨⟨hinv.sorted, fun c hc => ?_⟩, hlate⟩
      rw [List.length_append]
      exact Nat.le_add_right_of_le (hinv.within c hc)
    | some n =>
      simp only [Plan.step] at hstep
      split at hstep
      · cases hstep
        refine ⟨?_, ?_, ?_⟩
        · intro hnone
          simp only [Option.map_eq_none_iff] at hnone
          simp [h.started hnone]
        · intro b' hb'
          obtain ⟨b, hb, rfl⟩ := List.mem_map.mp hb'
          apply (h.finished b hb).congr
          intro c
          split <;> rfl
        · intro b' hb'
          obtain ⟨b, hb, rfl⟩ := Option.map_eq_some_iff.mp hb'
          obtain ⟨hinv, hlate⟩ := h.current b hb
          refine ⟨hinv.congr fun c => by split <;> rfl, ?_⟩
          intro c' hc'
          obtain ⟨c, hc, rfl⟩ := List.mem_map.mp hc'
          split <;> exact hlate c hc
      · cases hstep

theorem realize_run {p : Plan α} (h : p.Inv) (calls : List (Call α)) :
    p.realize.run calls = (p.run calls).map (·.realize) := by
  induction calls generalizing p with
  | nil => rfl
  | cons call calls ih =>
    simp only [DAG.run, Plan.run, List.foldlM_cons]
    rw [realize_step h]
    cases hstep : p.step call with
    | none => rfl
    | some p' => exact ih (step_inv hstep h)

theorem run_inv {p p' : Plan α} {calls : List (Call α)} (hrun : p.run calls = some p')
    (h : p.Inv) : p'.Inv := by
  induction calls generalizing p with
  | nil =>
    cases hrun
    exact h
  | cons call calls ih =>
    obtain ⟨p₁, hstep, hrest⟩ := Option.bind_eq_some_iff.mp hrun
    exact ih hrest (step_inv hstep h)

end Realization

section Suffixes

/-- How the suffix behind `next` survives in a copy that has other suboperators in front. -/
theorem length_drop_copy_iff {subops early : List α} {start next : ℕ} (hle : start ≤ next)
    (hwithin : next ≤ subops.length) :
    ((early ++ subops.drop start).drop next).length = (subops.drop next).length ↔
      early.length = start ∨ next = subops.length ∧ early.length ≤ start := by
  simp only [List.length_drop, List.length_append]
  omega

theorem drop_copy_eq {subops early : List α} {start next : ℕ} (hle : start ≤ next)
    (hwithin : next ≤ subops.length)
    (h : early.length = start ∨ next = subops.length ∧ early.length ≤ start) :
    (early ++ subops.drop start).drop next = subops.drop next := by
  rcases h with hstart | ⟨hend, _⟩
  · rw [List.drop_append, List.drop_eq_nil_of_le (by omega), List.nil_append, List.drop_drop,
      hstart, show start + (next - start) = next by omega]
  · have hlength := (@length_drop_copy_iff _ _ early _ _ hle hwithin).mpr (by omega)
    rw [hend, List.drop_length, List.length_nil, List.length_eq_zero_iff] at hlength
    rw [hend, hlength, List.drop_length]

/-- The copies are right exactly when every suffix survives up to the next copy, and what is
attached late commutes with the suffix. -/
theorem copies_iff (subops back : List α) (cs : List (PlannedContinuation α))
    (hsorted : cs.Pairwise fun c d => c.start ≤ d.start)
    (hwithin : ∀ c ∈ cs, c.start ≤ subops.length)
    (hback : ∀ c ∈ cs.head?, back.drop c.start = subops.drop c.start) :
    (copies back cs).map (fun p => (p.handle, p.suboperators)) =
        cs.map (fun c => (.continuation c.handle, c.early ++ c.late ++ subops.drop c.start)) ↔
      (cs.IsChain fun c next => c.early.length = c.start ∨
        next.start = subops.length ∧ c.early.length ≤ c.start) ∧
      ∀ c ∈ cs, c.late ++ subops.drop c.start = subops.drop c.start ++ c.late := by
  induction cs generalizing back with
  | nil => simp [copies]
  | cons c cs ih =>
    have hc : back.drop c.start = subops.drop c.start := hback c rfl
    have hhead : c.early ++ subops.drop c.start ++ c.late =
        c.early ++ c.late ++ subops.drop c.start ↔
          c.late ++ subops.drop c.start = subops.drop c.start ++ c.late := by
      rw [List.append_assoc, List.append_assoc, List.append_cancel_left_eq, eq_comm]
    obtain ⟨hfirst, hrest⟩ := List.pairwise_cons.mp hsorted
    have hwithin' : ∀ d ∈ cs, d.start ≤ subops.length := fun d hd =>
      hwithin d (List.mem_cons_of_mem _ hd)
    simp only [copies, List.map_cons, List.cons.injEq, Prod.mk.injEq, true_and, hc, hhead,
      List.forall_mem_cons]
    cases cs with
    | nil => simp [copies]
    | cons next cs =>
      have hle := hfirst next (List.mem_cons_self ..)
      have hnext := hwithin' next (List.mem_cons_self ..)
      rw [List.isChain_cons_cons]
      by_cases hlink : c.early.length = c.start ∨
          next.start = subops.length ∧ c.early.length ≤ c.start
      · rw [ih (c.early ++ subops.drop c.start) hrest hwithin'
          (by rintro d ⟨rfl⟩; exact drop_copy_eq hle hnext hlink)]
        tauto
      · -- the copy of `next` has the wrong length
        apply iff_of_false
        · rintro ⟨_, htail⟩
          simp only [copies, List.map_cons, List.cons.injEq, Prod.mk.injEq, true_and] at htail
          have hlength := congrArg List.length htail.1
          simp only [List.length_append] at hlength
          exact hlink ((length_drop_copy_iff hle hnext).mp (by omega))
        · rintro ⟨⟨hlink', _⟩, _⟩
          exact hlink hlink'

theorem realize_eq_layout_iff {b : PlannedPipeline α} (h : b.Inv) :
    b.realize.map (fun p => (p.handle, p.suboperators)) = b.layout ↔ b.CopiesSuffix := by
  show (Handle.pipeline b.number, b.suboperators) :: _ = _ :: _ ↔ _
  rw [List.cons.injEq, eq_self_iff_true, true_and]
  exact copies_iff b.suboperators b.suboperators b.continuations h.sorted h.within
    fun _ _ => rfl

end Suffixes

section Plans

theorem length_copies (back : List α) (cs : List (PlannedContinuation α)) :
    (copies back cs).length = cs.length := by
  induction cs generalizing back with
  | nil => rfl
  | cons c cs ih => simp [copies, ih]

/-- Pipeline by pipeline, since a pipeline has as many copies as continuations. -/
theorem flatMap_realize_eq_iff (bs : List (PlannedPipeline α))
    (rest rest' : List (Handle × List α)) :
    (bs.flatMap (·.realize)).map (fun p => (p.handle, p.suboperators)) ++ rest =
        bs.flatMap (·.layout) ++ rest' ↔
      (∀ b ∈ bs, b.realize.map (fun p => (p.handle, p.suboperators)) = b.layout) ∧
        rest = rest' := by
  induction bs with
  | nil => simp
  | cons b bs ih =>
    have hlength : (b.realize.map fun p => (p.handle, p.suboperators)).length =
        b.layout.length := by
      simp [PlannedPipeline.realize, PlannedPipeline.layout, length_copies]
    have hsplit : ∀ xs ys : List (Handle × List α),
        (b.realize.map fun p => (p.handle, p.suboperators)) ++ xs = b.layout ++ ys ↔
          (b.realize.map fun p => (p.handle, p.suboperators)) = b.layout ∧ xs = ys := by
      intro xs ys
      constructor
      · intro h
        exact List.append_inj h hlength
      · rintro ⟨h, h'⟩
        rw [h, h']
    rw [List.flatMap_cons, List.flatMap_cons, List.map_append, List.append_assoc,
      List.append_assoc, hsplit, ih, List.forall_mem_cons, and_assoc]

/-- The pipeline that is not finished stands in the DAG without its continuations. -/
theorem current_eq_layout_iff (current : Option (PlannedPipeline α)) :
    (current.toList.map fun b => (Handle.pipeline b.number, b.suboperators)) =
        current.toList.flatMap (·.layout) ↔
      ∀ b ∈ current, b.continuations = [] := by
  cases current with
  | none => simp
  | some b => simp [PlannedPipeline.layout, @eq_comm _ []]

theorem getPipelines_eq_layout_iff {p : Plan α} (h : p.Inv) :
    p.realize.getPipelines = p.layout ↔ p.Flushed := by
  have hpipelines : p.realize.getPipelines =
      (p.finished.flatMap (·.realize)).map (fun q => (q.handle, q.suboperators)) ++
        p.current.toList.map fun b => (Handle.pipeline b.number, b.suboperators) := by
    simp [DAG.getPipelines, Plan.realize, PlannedPipeline.pipeline, Function.comp_def]
  rw [hpipelines, Plan.layout, List.flatMap_append, flatMap_realize_eq_iff,
    current_eq_layout_iff, Plan.Flushed]
  apply and_congr_left'
  apply forall₂_congr
  intro b hb
  exact realize_eq_layout_iff (h.finished b hb)

/-- The DAG of any sequence of calls consists of the planned pipelines, each followed by its
continuations with what was attached to them and the suffix of their pipeline, exactly when no
continuation is left behind, none gets suboperators in between once the suffix was copied, and
the copies start at the right place. -/
theorem continuations_receive_suffix_iff {calls : List (Call α)} {d : DAG α}
    (hrun : DAG.empty.run calls = some d) :
    ∃ p, Plan.empty.run calls = some p ∧ (d.getPipelines = p.layout ↔ p.Flushed) := by
  have hrealize := realize_run Plan.start_inv calls
  rw [show (Plan.empty : Plan α).realize = DAG.empty from rfl, hrun] at hrealize
  obtain ⟨p, hp, rfl⟩ := Option.map_eq_some_iff.mp hrealize.symm
  exact ⟨p, hp, getPipelines_eq_layout_iff (run_inv hp Plan.start_inv)⟩

def oneContinuation : List (Call ℕ) :=
  [.buildNewPipeline, .attachSuboperator none 0, .attachSuboperator none 1, .attachContinuation,
    .attachSuboperator (some 0) 2, .attachSuboperator none 3, .buildNewPipeline]

theorem oneContinuation_receives_suffix :
    ∃ d, DAG.empty.run oneContinuation = some d ∧
      d.getPipelines =
        [(.pipeline 0, [0, 1, 3]), (.continuation 0, [2, 3]), (.pipeline 1, [])] := by
  have hrun : DAG.empty.run oneContinuation = some _ := rfl
  obtain ⟨p, hp, hiff⟩ := continuations_receive_suffix_iff hrun
  cases hp
  refine ⟨_, rfl, (hiff.mpr ?_).trans rfl⟩
  unfold Plan.Flushed PlannedPipeline.CopiesSuffix
  decide

/-- A second continuation gets the suffix of the first, a continuation of the last pipeline is
not in the DAG, and what is attached after the flush ends up behind the suffix. -/
theorem continuations_miss_suffix :
    (∃ d p, DAG.empty.run (oneContinuation.dropLast ++ [.attachContinuation,
        .attachSuboperator (some 1) 4, .attachSuboperator none 5, .buildNewPipeline]) = some d ∧
      Plan.empty.run (oneContinuation.dropLast ++ [.attachContinuation,
        .attachSuboperator (some 1) 4, .attachSuboperator none 5, .buildNewPipeline]) = some p ∧
      d.getPipelines[2]? = some (.continuation 1, [4]) ∧
      p.layout[2]? = some (.continuation 1, [4, 5])) ∧
    (∃ d p, DAG.empty.run oneContinuation.dropLast = some d ∧
      Plan.empty.run oneContinuation.dropLast = some p ∧
      d.getPipelines = [(.pipeline 0, [0, 1, 3])] ∧
      p.layout = [(.pipeline 0, [0, 1, 3]), (.continuation 0, [2, 3])]) ∧
    ∃ d p, DAG.empty.run (oneContinuation ++ [.attachSuboperator (some 0) 6]) = some d ∧
      Plan.empty.run (oneContinuation ++ [.attachSuboperator (some 0) 6]) = some p ∧
      d.getPipelines[1]? = some (.continuation 0, [2, 3, 6]) ∧
      p.layout[1]? = some (.continuation 0, [2, 6, 3]) :=
  ⟨⟨_, _, rfl, rfl, rfl, rfl⟩, ⟨_, _, rfl, rfl, rfl, rfl⟩, ⟨_, _, rfl, rfl, rfl, rfl⟩⟩

end Plans

end InkFuse.Algebra.Continuations
