import InkFuse.Algebra.PipelineDAG
import Mathlib.Data.List.Pairwise

/-!
How a pipeline DAG grows while operators decay: pipelines only get more suboperators, new
ones and new tasks come behind the old ones, and every operator ends in a pipeline of its
own.
-/

namespace InkFuse.Algebra

open PipelineDAG

section Primitives

variable {d : PipelineDAG} {ops : List Subop}

@[simp] theorem attach_continuations : (d.attach ops).continuations = d.continuations := rfl

@[simp] theorem attach_runtimeTasks : (d.attach ops).runtimeTasks = d.runtimeTasks := rfl

@[simp] theorem attach_runtimeState : (d.attach ops).runtimeState = d.runtimeState := rfl

@[simp] theorem attach_currentPipeline :
    (d.attach ops).currentPipeline = d.currentPipeline ++ ops := by
  simp [attach, currentPipeline]

theorem attach_length (h : d.pipelines ≠ []) :
    (d.attach ops).pipelines.length = d.pipelines.length := by
  have hpos := List.length_pos_iff.mpr h
  simp only [attach, List.length_append, List.length_dropLast, List.length_singleton]
  omega

theorem attach_ne_nil : (d.attach ops).pipelines ≠ [] := by
  simp [attach]

/-- Attaching changes the last pipeline only. -/
theorem attach_getElem? (h : d.pipelines ≠ []) (i : ℕ) :
    (d.attach ops).pipelines[i]? =
      if i + 1 = d.pipelines.length then some (d.currentPipeline ++ ops) else d.pipelines[i]? := by
  have hpos := List.length_pos_iff.mpr h
  have hlen : d.pipelines.dropLast.length = d.pipelines.length - 1 := List.length_dropLast
  rw [attach]
  rcases Nat.lt_trichotomy (i + 1) d.pipelines.length with hlt | heq | hgt
  · rw [List.getElem?_append_left (by omega), if_neg (by omega), List.getElem?_dropLast,
      if_pos (by omega)]
  · rw [List.getElem?_append_right (by omega), if_pos heq, hlen]
    simp [show i - (d.pipelines.length - 1) = 0 by omega]
  · have hlen' : (d.attach ops).pipelines.length = d.pipelines.length := attach_length h
    rw [attach] at hlen'
    rw [if_neg (by omega), List.getElem?_eq_none (by omega), List.getElem?_eq_none (by omega)]

theorem currentPipeline_getElem? (h : d.pipelines ≠ []) :
    d.pipelines[d.pipelines.length - 1]? = some d.currentPipeline := by
  have hpos := List.length_pos_iff.mpr h
  rw [currentPipeline, List.getLastD_eq_getLast?, ← List.getLast?_eq_getElem?,
    List.getLast?_eq_some_getLast h, Option.getD_some]

/-- The continuations become new pipelines, with their own suboperators and with some of the
last pipeline. -/
theorem flush_spec (pipes : List Pipeline) (conts : List (ℕ × Pipeline)) :
    ∃ new, flush pipes conts = pipes ++ new ∧ new.length = conts.length ∧
      (∀ pipe ∈ new, ∀ op ∈ pipe, op ∈ pipes.getLastD [] ∨ ∃ c ∈ conts, op ∈ c.2) ∧
      ∀ idx pipe rest, conts = (idx, pipe) :: rest →
        new[0]? = some (pipe ++ (pipes.getLastD []).drop idx) := by
  induction conts generalizing pipes with
  | nil => exact ⟨[], by simp [flush], rfl, by simp, by simp⟩
  | cons c conts ih =>
    obtain ⟨idx, pipe⟩ := c
    obtain ⟨new, hflush, hlen, hops, _⟩ := ih (pipes ++ [pipe ++ (pipes.getLastD []).drop idx])
    have hfirst : ∀ op ∈ pipe ++ (pipes.getLastD []).drop idx,
        op ∈ pipes.getLastD [] ∨ ∃ c ∈ (idx, pipe) :: conts, op ∈ c.2 := by
      intro op hop
      rcases List.mem_append.mp hop with h | h
      · exact Or.inr ⟨(idx, pipe), List.mem_cons_self, h⟩
      · exact Or.inl (List.mem_of_mem_drop h)
    refine ⟨(pipe ++ (pipes.getLastD []).drop idx) :: new, ?_, by simp [hlen], ?_, ?_⟩
    · rw [flush, hflush, List.append_assoc, List.singleton_append]
    · intro p hp op hop
      rcases List.mem_cons.mp hp with rfl | hp
      · exact hfirst op hop
      · rcases hops p hp op hop with h | h
        · rw [List.getLastD_concat] at h
          exact hfirst op h
        · obtain ⟨c, hc, hop⟩ := h
          exact Or.inr ⟨c, List.mem_cons_of_mem _ hc, hop⟩
    · intro idx' pipe' rest h
      obtain ⟨⟨rfl, rfl⟩, rfl⟩ := by simpa using h
      rfl

@[simp] theorem build_continuations : d.buildNewPipeline.continuations = [] := rfl

@[simp] theorem build_runtimeTasks : d.buildNewPipeline.runtimeTasks = d.runtimeTasks := rfl

@[simp] theorem build_runtimeState : d.buildNewPipeline.runtimeState = d.runtimeState := rfl

@[simp] theorem build_currentPipeline : d.buildNewPipeline.currentPipeline = [] := by
  simp [buildNewPipeline, currentPipeline]

theorem build_ne_nil : d.buildNewPipeline.pipelines ≠ [] := by
  simp [buildNewPipeline]

end Primitives

section Extension

structure Extends (d d' : PipelineDAG) : Prop where
  length_le : d.pipelines.length ≤ d'.pipelines.length
  pipeline : ∀ (i : ℕ) (pipe : Pipeline), d.pipelines[i]? = some pipe →
    ∃ ops : Pipeline, d'.pipelines[i]? = some (pipe ++ ops)
  state_le : d.runtimeState ≤ d'.runtimeState
  tasks : ∃ new : List RuntimeTask, d'.runtimeTasks = d.runtimeTasks ++ new ∧ ∀ task ∈ new,
    d.runtimeState ≤ task.reads ∧ d.runtimeState ≤ task.produces

variable {d d' d'' : PipelineDAG}

theorem Extends.refl (d : PipelineDAG) : Extends d d :=
  ⟨le_rfl, fun _ pipe h => ⟨[], by simpa using h⟩, le_rfl, [], by simp, by simp⟩

theorem Extends.trans (h : Extends d d') (h' : Extends d' d'') : Extends d d'' := by
  refine ⟨h.length_le.trans h'.length_le, fun i pipe hi => ?_, h.state_le.trans h'.state_le, ?_⟩
  · obtain ⟨ops, hops⟩ := h.pipeline i pipe hi
    obtain ⟨ops', hops'⟩ := h'.pipeline i _ hops
    exact ⟨ops ++ ops', by rw [hops', List.append_assoc]⟩
  · obtain ⟨new, hnew, hids⟩ := h.tasks
    obtain ⟨new', hnew', hids'⟩ := h'.tasks
    refine ⟨new ++ new', by rw [hnew', hnew, List.append_assoc], fun task htask => ?_⟩
    rcases List.mem_append.mp htask with hmem | hmem
    · exact hids task hmem
    · have := hids' task hmem
      have := h.state_le
      omega

theorem extends_attach (h : d.pipelines ≠ []) (ops : List Subop) : Extends d (d.attach ops) := by
  refine ⟨(attach_length h).ge, fun i pipe hi => ?_, le_rfl, [], by simp, by simp⟩
  rw [attach_getElem? h]
  split
  · rename_i hlast
    rw [show i = d.pipelines.length - 1 by omega, currentPipeline_getElem? h] at hi
    obtain rfl := Option.some.inj hi
    exact ⟨ops, rfl⟩
  · exact ⟨[], by simpa using hi⟩

theorem extends_build (d : PipelineDAG) : Extends d d.buildNewPipeline := by
  obtain ⟨new, hflush, _⟩ := flush_spec d.pipelines d.continuations
  refine ⟨?_, fun i pipe hi => ⟨[], ?_⟩, le_rfl, [], by simp, by simp⟩
  · simp [buildNewPipeline, hflush]
  · obtain ⟨hlt, _⟩ := List.getElem?_eq_some_iff.mp hi
    rw [buildNewPipeline, hflush, List.append_assoc, List.getElem?_append_left hlt, List.append_nil]
    exact hi

theorem Extends.addTask (h : Extends d d') {task : RuntimeTask}
    (hreads : d.runtimeState ≤ task.reads) (hproduces : d.runtimeState ≤ task.produces) :
    Extends d (d'.addRuntimeTask task) := by
  obtain ⟨new, hnew, hids⟩ := h.tasks
  refine ⟨h.length_le, h.pipeline, h.state_le, new ++ [task], ?_, ?_⟩
  · rw [← List.append_assoc, ← hnew]
    rfl
  · intro t ht
    rcases List.mem_append.mp ht with hmem | hmem
    · exact hids t hmem
    · obtain rfl := List.mem_singleton.mp hmem
      exact ⟨hreads, hproduces⟩

theorem Extends.of_attachState {count : ℕ} (h : Extends (d.attachState count) d') :
    Extends d d' := by
  have hle : d.runtimeState + count ≤ d'.runtimeState := h.state_le
  obtain ⟨new, hnew, hids⟩ := h.tasks
  refine ⟨h.length_le, h.pipeline, by omega, new, hnew, fun task ht => ?_⟩
  obtain ⟨hreads, hproduces⟩ : d.runtimeState + count ≤ task.reads ∧
      d.runtimeState + count ≤ task.produces := hids task ht
  omega

end Extension

section Order

/-- The tasks are ordered and wait for pipelines that exist; the continuations start within
the current pipeline. -/
structure Chronological (d : PipelineDAG) : Prop where
  ordered : d.runtimeTasks.Pairwise fun a b => a.afterPipe ≤ b.afterPipe
  after_lt : ∀ task ∈ d.runtimeTasks, task.afterPipe < d.pipelines.length
  state_lt : ∀ task ∈ d.runtimeTasks, task.reads < d.runtimeState ∧ task.produces < d.runtimeState
  index_le : ∀ c ∈ d.continuations, c.1 ≤ d.currentPipeline.length

variable {d d' d'' : PipelineDAG}

theorem Chronological.attach (h : Chronological d) (hne : d.pipelines ≠ []) (ops : List Subop) :
    Chronological (d.attach ops) := by
  refine ⟨h.ordered, fun task ht => ?_, h.state_lt, fun c hc => ?_⟩
  · rw [attach_length hne]
    exact h.after_lt task ht
  · have hle := h.index_le c hc
    rw [attach_currentPipeline, List.length_append]
    omega

theorem Chronological.attachState (h : Chronological d) (count : ℕ) :
    Chronological (d.attachState count) := by
  refine ⟨h.ordered, h.after_lt, fun task ht => ?_, h.index_le⟩
  have hlt := h.state_lt task ht
  simp only [PipelineDAG.attachState]
  omega

theorem Chronological.addTask (h : Chronological d) (hne : d.pipelines ≠ []) {reads produces : ℕ}
    (hreads : reads < d.runtimeState) (hproduces : produces < d.runtimeState) :
    Chronological (d.addRuntimeTask ⟨d.pipelines.length - 1, reads, produces⟩) := by
  have hpos := List.length_pos_iff.mpr hne
  refine ⟨?_, ?_, ?_, h.index_le⟩
  · refine List.pairwise_append.mpr ⟨h.ordered, List.pairwise_singleton _ _, ?_⟩
    intro a ha b hb
    obtain rfl := List.mem_singleton.mp hb
    have hlt := h.after_lt a ha
    simp only
    omega
  · intro task htask
    change task.afterPipe < d.pipelines.length
    rcases List.mem_append.mp htask with hmem | hmem
    · exact h.after_lt task hmem
    · obtain rfl := List.mem_singleton.mp hmem
      simp only
      omega
  · intro task htask
    rcases List.mem_append.mp htask with hmem | hmem
    · exact h.state_lt task hmem
    · obtain rfl := List.mem_singleton.mp hmem
      exact ⟨hreads, hproduces⟩

theorem build_length (d : PipelineDAG) :
    d.pipelines.length + 1 ≤ d.buildNewPipeline.pipelines.length := by
  obtain ⟨new, hflush, _⟩ := flush_spec d.pipelines d.continuations
  simp only [buildNewPipeline, hflush, List.length_append, List.length_singleton]
  omega

theorem Chronological.build (h : Chronological d) : Chronological d.buildNewPipeline := by
  refine ⟨h.ordered, fun task ht => ?_, h.state_lt, by simp⟩
  have hlt := h.after_lt task ht
  have hlen := build_length d
  omega

theorem Chronological.attachContinuation (h : Chronological d) (source : Subop) :
    Chronological (d.attachContinuation source) := by
  refine ⟨h.ordered, h.after_lt, h.state_lt, fun c hc => ?_⟩
  change c.1 ≤ d.currentPipeline.length
  rcases List.mem_append.mp hc with hmem | hmem
  · exact h.index_le c hmem
  · obtain rfl := List.mem_singleton.mp hmem
    exact le_rfl

/-- `d'` comes out of `d` by the decay of operators that end in a pipeline of their own, with
a continuation if `cont` says so. No task waits for this pipeline. -/
structure Decayed (d d' : PipelineDAG) (cont : Bool) : Prop where
  ext : Extends d d'
  chron : Chronological d'
  length_lt : d.pipelines.length < d'.pipelines.length
  settled : ∀ task ∈ d'.runtimeTasks, task.afterPipe + 1 < d'.pipelines.length
  continuation : d'.continuations ≠ [] ↔ cont = true

/-- All tasks of `d'` read and produce states other than the reserved one. -/
theorem Extends.fresh (hchron : Chronological d) {count : ℕ}
    (h : Extends (d.attachState count) d') {s : ℕ} (hle : d.runtimeState ≤ s)
    (hlt : s < d.runtimeState + count) :
    ∀ task ∈ d'.runtimeTasks, task.reads ≠ s ∧ task.produces ≠ s := by
  intro task ht
  obtain ⟨new, hnew, hids⟩ := h.tasks
  rw [hnew] at ht
  rcases List.mem_append.mp ht with hmem | hmem
  · have hstate := hchron.state_lt task hmem
    omega
  · obtain ⟨hreads, hproduces⟩ : d.runtimeState + count ≤ task.reads ∧
        d.runtimeState + count ≤ task.produces := hids task hmem
    omega

theorem Extends.mem_tasks (h : Extends d d') {task : RuntimeTask} (ht : task ∈ d.runtimeTasks) :
    task ∈ d'.runtimeTasks := by
  obtain ⟨new, hnew, _⟩ := h.tasks
  rw [hnew]
  exact List.mem_append_left _ ht

theorem Decayed.ne_nil {cont : Bool} (h : Decayed d d' cont) : d'.pipelines ≠ [] := by
  have hlt := h.length_lt
  exact List.length_pos_iff.mp (by omega)

theorem Decayed.trans {c c' : Bool} (h : Decayed d d' c) (h' : Decayed d' d'' c') :
    Decayed d d'' c' :=
  ⟨h.ext.trans h'.ext, h'.chron, h.length_lt.trans h'.length_lt, h'.settled, h'.continuation⟩

theorem Decayed.attach {cont : Bool} (h : Decayed d d' cont) (ops : List Subop) :
    Decayed d (d'.attach ops) cont := by
  refine ⟨h.ext.trans (extends_attach h.ne_nil ops), h.chron.attach h.ne_nil ops, ?_, ?_,
    h.continuation⟩
  · rw [attach_length h.ne_nil]
    exact h.length_lt
  · rw [attach_length h.ne_nil]
    exact h.settled

/-- A new pipeline settles all tasks before it. -/
theorem decayed_build (h : Extends d d') (hchron : Chronological d') :
    Decayed d d'.buildNewPipeline false := by
  have hlen := build_length d'
  refine ⟨h.trans (extends_build d'), hchron.build, ?_, fun task ht => ?_, by simp⟩
  · have hle := h.length_le
    omega
  · have hlt := hchron.after_lt task ht
    omega

def joinBuilt (j : Join) (left : RelAlgOp) (d : PipelineDAG) : PipelineDAG :=
  let built := (left.decay (d.attachState 2)).attach (j.buildSubops d.runtimeState)
  built.addRuntimeTask ⟨built.pipelines.length - 1, d.runtimeState, d.runtimeState + 1⟩

def aggregated (groupBy : List Codegen.IRType) (granules : ℕ) (d : PipelineDAG) : PipelineDAG :=
  let filled := (d.attachState 1).attach (aggregateSubops groupBy granules d.runtimeState)
  filled.addRuntimeTask ⟨filled.pipelines.length - 1, d.runtimeState, d.runtimeState⟩

def joinProbed (j : Join) (ht : ℕ) (d : PipelineDAG) : PipelineDAG :=
  let probed := d.attach (j.lookupSubops ht)
  let probed := if j.type = .leftOuter then
    probed.attachContinuation (.atomicHashTableSource ht) else probed
  probed.attach j.unpackSubops

theorem decay_join (j : Join) (left right : RelAlgOp) (d : PipelineDAG) :
    (RelAlgOp.join j left right).decay d =
      joinProbed j (d.runtimeState + 1) (right.decay (joinBuilt j left d)) := by
  rw [RelAlgOp.decay]
  rfl

theorem decay_aggregation (groupBy : List Codegen.IRType) (granules aggregates : ℕ)
    (child : RelAlgOp) (more : List RelAlgOp) (d : PipelineDAG) :
    (RelAlgOp.aggregation groupBy granules aggregates child more).decay d =
      (aggregated groupBy granules (decayAll more (child.decay d))).buildNewPipeline.attach
        (readSubops groupBy aggregates (decayAll more (child.decay d)).runtimeState) := by
  rw [RelAlgOp.decay]
  rfl

/-- The probe pipeline only grows. -/
theorem extends_probed (hne : d.pipelines ≠ []) (j : Join) (ht : ℕ) :
    Extends d (joinProbed j ht d) := by
  have hlookup := extends_attach hne (j.lookupSubops ht)
  rw [joinProbed]
  by_cases htype : j.type = .leftOuter
  · simp only [htype, if_true]
    have hcont : Extends d ((d.attach (j.lookupSubops ht)).attachContinuation
        (.atomicHashTableSource ht)) :=
      ⟨hlookup.length_le, hlookup.pipeline, hlookup.state_le, hlookup.tasks⟩
    refine hcont.trans (extends_attach ?_ _)
    exact attach_ne_nil (d := d)
  · simp only [htype, if_false]
    exact hlookup.trans (extends_attach attach_ne_nil _)

theorem Decayed.probed {cont : Bool} (h : Decayed d d' cont) (j : Join) (ht : ℕ) :
    Decayed d (joinProbed j ht d') (j.type == .leftOuter || cont) := by
  have hlookup := h.attach (j.lookupSubops ht)
  rw [joinProbed]
  by_cases htype : j.type = .leftOuter
  · have hcont : Decayed d ((d'.attach (j.lookupSubops ht)).attachContinuation
        (.atomicHashTableSource ht)) true :=
      ⟨⟨hlookup.ext.length_le, hlookup.ext.pipeline, hlookup.ext.state_le, hlookup.ext.tasks⟩,
        hlookup.chron.attachContinuation _, hlookup.length_lt, hlookup.settled,
        by simp [PipelineDAG.attachContinuation]⟩
    simpa [htype] using hcont.attach j.unpackSubops
  · have hfalse : (j.type == .leftOuter) = false := by simpa using htype
    simpa [htype, hfalse] using hlookup.attach j.unpackSubops

theorem joinBuilt_spec {j : Join} {left : RelAlgOp} {cont : Bool}
    (h : Decayed (d.attachState 2) (left.decay (d.attachState 2)) cont) :
    Extends d (joinBuilt j left d) ∧ Chronological (joinBuilt j left d) := by
  have hattach := h.attach (j.buildSubops d.runtimeState)
  have hstate : d.runtimeState + 2 ≤ _ := hattach.ext.state_le
  exact ⟨hattach.ext.of_attachState.addTask le_rfl (Nat.le_succ _),
    hattach.chron.addTask hattach.ne_nil (by omega) (by omega)⟩

theorem aggregated_spec (groupBy : List Codegen.IRType) (granules : ℕ) (hne : d.pipelines ≠ [])
    (h : Chronological d) :
    Extends d (aggregated groupBy granules d) ∧ Chronological (aggregated groupBy granules d) := by
  have hattach := (h.attachState 1).attach hne (aggregateSubops groupBy granules d.runtimeState)
  have hext := extends_attach (d := d.attachState 1) hne
    (aggregateSubops groupBy granules d.runtimeState)
  refine ⟨hext.of_attachState.addTask le_rfl le_rfl, hattach.addTask ?_ ?_ ?_⟩
  · exact attach_ne_nil
  · exact Nat.lt_succ_self _
  · exact Nat.lt_succ_self _

mutual

/-- What every decay does, whatever the operators. -/
theorem decay_decayed (op : RelAlgOp) {d : PipelineDAG} (h : Chronological d) :
    Decayed d (op.decay d) op.hasContinuation := by
  cases op with
  | tableScan cols =>
    rw [RelAlgOp.decay, RelAlgOp.hasContinuation]
    exact (decayed_build (Extends.refl d) h).attach _
  | expressionOp nodes child more =>
    rw [RelAlgOp.decay, RelAlgOp.hasContinuation]
    exact (decayAll_decayed more (decay_decayed child h)).attach _
  | filter redefined child =>
    rw [RelAlgOp.decay, RelAlgOp.hasContinuation]
    exact (decay_decayed child h).attach _
  | join j left right =>
    obtain ⟨hext, hchron⟩ := joinBuilt_spec (j := j) (decay_decayed left (h.attachState 2))
    have hright := (decay_decayed right hchron).probed j (d.runtimeState + 1)
    rw [decay_join, RelAlgOp.hasContinuation]
    exact ⟨hext.trans hright.ext, hright.chron, hext.length_le.trans_lt hright.length_lt,
      hright.settled, hright.continuation⟩
  | aggregation groupBy granules aggregates child more =>
    have hchild := decayAll_decayed more (decay_decayed child h)
    obtain ⟨hext, hchron⟩ := aggregated_spec groupBy granules
      hchild.ne_nil hchild.chron
    rw [decay_aggregation, RelAlgOp.hasContinuation]
    exact (decayed_build (hchild.ext.trans hext) hchron).attach _

theorem decayAll_decayed (ops : List RelAlgOp) {d d' : PipelineDAG} {cont : Bool}
    (h : Decayed d d' cont) : Decayed d (decayAll ops d') (lastHasContinuation cont ops) := by
  cases ops with
  | nil => rwa [decayAll, lastHasContinuation]
  | cons op ops =>
    rw [decayAll, lastHasContinuation]
    exact decayAll_decayed ops (h.trans (decay_decayed op h.chron))

end

theorem decayAll_extends (ops : List RelAlgOp) {d : PipelineDAG} (h : Chronological d) :
    Extends d (decayAll ops d) := by
  cases ops with
  | nil =>
    rw [decayAll]
    exact Extends.refl d
  | cons op ops =>
    rw [decayAll]
    exact (decayAll_decayed ops (decay_decayed op h)).ext

end Order

end InkFuse.Algebra
