import InkFuse.Algebra.PipelineGrowth
import InkFuse.Exec.QueryExecutor

/-!
The place of the runtime tasks in a run of a decayed operator tree. A task is recorded with
the number of pipelines at the time of decay, and stands behind everything that writes
its input unless a continuation copies a writer to a later pipeline.
-/

namespace InkFuse.Exec

open InkFuse.Algebra
open InkFuse.Algebra.PipelineDAG

/-- Every runtime task runs once, after each pipeline that writes what it reads and before each
pipeline that uses what it produces. -/
def TasksOrdered (d : PipelineDAG) : Prop :=
  ∃ trace, runQuery d = some trace ∧
    ∀ k task, d.runtimeTasks[k]? = some task → trace.count (.task k) = 1 ∧
      ∀ i pipe, d.pipelines[i]? = some pipe → trace.count (.pipeline i) = 1 ∧
        ((∃ op ∈ pipe, op.writes = some task.reads) →
          [.pipeline i, .task k].Sublist trace) ∧
        ((∃ op ∈ pipe, op.probes = some task.produces) →
          [.task k, .pipeline i].Sublist trace)

section Placement

/-- No writer of a task's input stands behind the task, and no user of its result before it;
what a continuation copies has no writers. -/
structure Placed (d : PipelineDAG) : Prop where
  writes_le : ∀ task ∈ d.runtimeTasks, ∀ (i : ℕ) (pipe : Pipeline), d.pipelines[i]? = some pipe →
    ∀ op ∈ pipe, op.writes = some task.reads → i ≤ task.afterPipe
  probes_gt : ∀ task ∈ d.runtimeTasks, ∀ (i : ℕ) (pipe : Pipeline), d.pipelines[i]? = some pipe →
    ∀ op ∈ pipe, op.probes = some task.produces → task.afterPipe < i
  produced : ∀ pipe ∈ d.pipelines, ∀ op ∈ pipe, ∀ s, op.probes = some s →
    ∃ task ∈ d.runtimeTasks, task.produces = s
  cont_produced : ∀ c ∈ d.continuations, ∀ op ∈ c.2, ∀ s, op.probes = some s →
    ∃ task ∈ d.runtimeTasks, task.produces = s
  cont_writes : ∀ c ∈ d.continuations, ∀ op ∈ c.2, op.writes = none
  current_writes : d.continuations ≠ [] → ∀ op ∈ d.currentPipeline, op.writes = none

variable {d d' : PipelineDAG}

theorem currentPipeline_mem (h : d.pipelines ≠ []) : d.currentPipeline ∈ d.pipelines :=
  List.mem_of_getElem? (currentPipeline_getElem? h)

/-- Attached writers need that nothing is copied from the pipeline and no task reads their
state yet; attached users need the task before them. -/
theorem Placed.attach (h : Placed d) (hne : d.pipelines ≠ []) {ops : List Subop}
    (hwrites : ∀ op ∈ ops, ∀ s, op.writes = some s →
      d.continuations = [] ∧ ∀ task ∈ d.runtimeTasks, task.reads ≠ s)
    (hprobes : ∀ op ∈ ops, ∀ s, op.probes = some s →
      (∀ task ∈ d.runtimeTasks, task.afterPipe + 1 < d.pipelines.length) ∧
      ∃ task ∈ d.runtimeTasks, task.produces = s) : Placed (d.attach ops) := by
  have hcurrent := currentPipeline_getElem? hne
  refine ⟨?_, ?_, ?_, h.cont_produced, h.cont_writes, ?_⟩
  · intro task ht i pipe hi op hop hw
    rw [attach_getElem? hne] at hi
    split at hi
    · obtain rfl := Option.some.inj hi
      rcases List.mem_append.mp hop with hmem | hmem
      · have hle := h.writes_le task ht _ _ hcurrent op hmem hw
        omega
      · exact absurd rfl ((hwrites op hmem _ hw).2 task ht)
    · exact h.writes_le task ht i pipe hi op hop hw
  · intro task ht i pipe hi op hop hp
    rw [attach_getElem? hne] at hi
    split at hi
    · obtain rfl := Option.some.inj hi
      rcases List.mem_append.mp hop with hmem | hmem
      · have hlt := h.probes_gt task ht _ _ hcurrent op hmem hp
        omega
      · have hlt := (hprobes op hmem _ hp).1 task ht
        omega
    · exact h.probes_gt task ht i pipe hi op hop hp
  · intro pipe hpipe op hop s hs
    simp only [PipelineDAG.attach, List.mem_append, List.mem_singleton] at hpipe
    rcases hpipe with hold | rfl
    · exact h.produced pipe (List.mem_of_mem_dropLast hold) op hop s hs
    · rcases List.mem_append.mp hop with hmem | hmem
      · exact h.produced _ (currentPipeline_mem hne) op hmem s hs
      · exact (hprobes op hmem s hs).2
  · intro hcont op hop
    rw [attach_currentPipeline] at hop
    rcases List.mem_append.mp hop with hmem | hmem
    · exact h.current_writes hcont op hmem
    · cases hw : op.writes with
      | none => rfl
      | some s => exact absurd (hwrites op hmem s hw).1 hcont

theorem Placed.attachState (h : Placed d) (count : ℕ) : Placed (d.attachState count) :=
  ⟨h.writes_le, h.probes_gt, h.produced, h.cont_produced, h.cont_writes, h.current_writes⟩

theorem Placed.addTask (h : Placed d) {reads produces : ℕ}
    (hfresh : ∀ task ∈ d.runtimeTasks, task.produces ≠ produces) :
    Placed (d.addRuntimeTask ⟨d.pipelines.length - 1, reads, produces⟩) := by
  have hmore : ∀ {s : ℕ}, (∃ task ∈ d.runtimeTasks, task.produces = s) →
      ∃ task ∈ (d.addRuntimeTask ⟨d.pipelines.length - 1, reads, produces⟩).runtimeTasks,
        task.produces = s := by
    intro s hex
    obtain ⟨task, ht, hs⟩ := hex
    exact ⟨task, List.mem_append_left _ ht, hs⟩
  refine ⟨?_, ?_, fun pipe hp op hop s hs => hmore (h.produced pipe hp op hop s hs),
    fun c hc op hop s hs => hmore (h.cont_produced c hc op hop s hs), h.cont_writes,
    h.current_writes⟩
  · intro task ht i pipe hi op hop hw
    rcases List.mem_append.mp ht with hmem | hmem
    · exact h.writes_le task hmem i pipe hi op hop hw
    · obtain rfl := List.mem_singleton.mp hmem
      obtain ⟨hlt, _⟩ := List.getElem?_eq_some_iff.mp hi
      change i < d.pipelines.length at hlt
      simp only
      omega
  · intro task ht i pipe hi op hop hp
    rcases List.mem_append.mp ht with hmem | hmem
    · exact h.probes_gt task hmem i pipe hi op hop hp
    · obtain rfl := List.mem_singleton.mp hmem
      obtain ⟨task, ht', hs⟩ := h.produced pipe (List.mem_of_getElem? hi) op hop _ hp
      exact absurd hs (hfresh task ht')

theorem Placed.attachContinuation (h : Placed d) {source : Subop}
    (hcurrent : ∀ op ∈ d.currentPipeline, op.writes = none) (hwrites : source.writes = none)
    (hprobes : ∀ s, source.probes = some s → ∃ task ∈ d.runtimeTasks, task.produces = s) :
    Placed (d.attachContinuation source) := by
  refine ⟨h.writes_le, h.probes_gt, h.produced, ?_, ?_, fun _ => hcurrent⟩
  · intro c hc op hop s hs
    rcases List.mem_append.mp hc with hmem | hmem
    · exact h.cont_produced c hmem op hop s hs
    · obtain rfl := List.mem_singleton.mp hmem
      obtain rfl := List.mem_singleton.mp hop
      exact hprobes s hs
  · intro c hc op hop
    rcases List.mem_append.mp hc with hmem | hmem
    · exact h.cont_writes c hmem op hop
    · obtain rfl := List.mem_singleton.mp hmem
      obtain rfl := List.mem_singleton.mp hop
      exact hwrites

/-- New pipelines stand behind all tasks, and bring no writers. -/
theorem Placed.build (h : Placed d) (hchron : Chronological d) : Placed d.buildNewPipeline := by
  obtain ⟨new, hflush, hlen, hops, _⟩ := flush_spec d.pipelines d.continuations
  have hpipes : d.buildNewPipeline.pipelines = d.pipelines ++ (new ++ [[]]) := by
    rw [buildNewPipeline, hflush, List.append_assoc]
  have hnew : ∀ pipe ∈ new ++ [[]], ∀ op ∈ pipe, op.writes = none ∧
      ∀ s, op.probes = some s → ∃ task ∈ d.runtimeTasks, task.produces = s := by
    intro pipe hpipe op hop
    rcases List.mem_append.mp hpipe with hmem | hmem
    · have hconts : d.continuations ≠ [] := by
        rw [← List.length_pos_iff, ← hlen]
        exact List.length_pos_of_mem hmem
      rcases hops pipe hmem op hop with hcur | hex
      · refine ⟨h.current_writes hconts op hcur, h.produced d.currentPipeline ?_ op hcur⟩
        refine currentPipeline_mem fun hnil => ?_
        rw [hnil] at hcur
        simp at hcur
      · obtain ⟨c, hc, hop⟩ := hex
        exact ⟨h.cont_writes c hc op hop, h.cont_produced c hc op hop⟩
    · obtain rfl := List.mem_singleton.mp hmem
      exact absurd hop (by simp)
  have hold : ∀ (i : ℕ) (pipe : Pipeline), d.buildNewPipeline.pipelines[i]? = some pipe →
      d.pipelines[i]? = some pipe ∨ d.pipelines.length ≤ i ∧ pipe ∈ new ++ [[]] := by
    intro i pipe hi
    rw [hpipes, List.getElem?_append] at hi
    split at hi
    · exact Or.inl hi
    · exact Or.inr ⟨by omega, List.mem_of_getElem? hi⟩
  refine ⟨?_, ?_, ?_, by simp, by simp, by simp⟩
  · intro task ht i pipe hi op hop hw
    rcases hold i pipe hi with hi | ⟨_, hmem⟩
    · exact h.writes_le task ht i pipe hi op hop hw
    · rw [(hnew pipe hmem op hop).1] at hw
      exact absurd hw (by simp)
  · intro task ht i pipe hi op hop hp
    rcases hold i pipe hi with hi | ⟨hle, _⟩
    · exact h.probes_gt task ht i pipe hi op hop hp
    · exact (hchron.after_lt task ht).trans_le hle
  · intro pipe hpipe op hop s hs
    rw [hpipes] at hpipe
    rcases List.mem_append.mp hpipe with hmem | hmem
    · exact h.produced pipe hmem op hop s hs
    · exact (hnew pipe hmem op hop).2 s hs

/-- Suboperators that touch no runtime state. -/
def Quiet (ops : List Subop) : Prop := ∀ op ∈ ops, op.writes = none ∧ op.probes = none

theorem quiet_nil : Quiet [] := by simp [Quiet]

theorem quiet_replicate {op : Subop} (hw : op.writes = none) (hp : op.probes = none) (n : ℕ) :
    Quiet (List.replicate n op) := by
  intro o ho
  obtain rfl := List.eq_of_mem_replicate ho
  exact ⟨hw, hp⟩

theorem quiet_map {α : Type} {op : Subop} (hw : op.writes = none) (hp : op.probes = none)
    (as : List α) : Quiet (as.map fun _ => op) := by
  rw [List.map_const']
  exact quiet_replicate hw hp _

theorem Quiet.cons {op : Subop} {ops : List Subop} (hw : op.writes = none)
    (hp : op.probes = none) (h : Quiet ops) : Quiet (op :: ops) :=
  List.forall_mem_cons.mpr ⟨⟨hw, hp⟩, h⟩

theorem Quiet.append {ops ops' : List Subop} (h : Quiet ops) (h' : Quiet ops') :
    Quiet (ops ++ ops') := by
  intro op hop
  rcases List.mem_append.mp hop with hmem | hmem
  · exact h op hmem
  · exact h' op hmem

theorem quiet_unpack (j : Join) : Quiet j.unpackSubops := by
  have hright : Quiet (if j.type = .leftSemi then [] else [.columnFilterLogic]) := by
    split
    · exact quiet_nil
    · exact quiet_nil.cons rfl rfl
  have hfilters : Quiet ([.columnFilterScope, .columnFilterLogic] ++
      if j.type = .leftSemi then [] else [.columnFilterLogic]) :=
    (hright.cons rfl rfl).cons rfl rfl
  exact hfilters.append (quiet_map rfl rfl _)

theorem build_writes (j : Join) (mat : ℕ) :
    ∀ op ∈ j.buildSubops mat, op.writes = some mat ∧ op.probes = none := by
  intro op hop
  rcases List.mem_cons.mp hop with rfl | hop
  · exact ⟨rfl, rfl⟩
  · obtain ⟨_, _, rfl⟩ := List.mem_map.mp hop
    exact ⟨rfl, rfl⟩

theorem lookup_probes (j : Join) (ht : ℕ) :
    ∀ op ∈ j.lookupSubops ht, op.writes = none ∧ ∀ s, op.probes = some s → s = ht := by
  intro op hop
  rcases List.mem_append.mp hop with hmem | hmem
  · have hquiet : Quiet (.scratchPadIUProvider :: j.fullRowRight.map fun _ => .keyPacker none) :=
      (quiet_map rfl rfl _).cons rfl rfl
    obtain ⟨hw, hp⟩ := hquiet op hmem
    exact ⟨hw, fun s hs => absurd (hp.symm.trans hs) (by simp)⟩
  · simp only [List.mem_cons, List.not_mem_nil, or_false] at hmem
    rcases hmem with rfl | rfl
    · exact ⟨rfl, fun s hs => (Option.some.inj hs).symm⟩
    · exact ⟨rfl, fun s hs => (Option.some.inj hs).symm⟩

theorem aggregate_writes (groupBy : List Codegen.IRType) (granules ht : ℕ) :
    ∀ op ∈ aggregateSubops groupBy granules ht,
      (∀ s, op.writes = some s → s = ht) ∧ op.probes = none := by
  intro op hop
  rcases List.mem_append.mp hop with hmem | hmem
  · rcases List.mem_append.mp hmem with hmem | hmem
    · have hquiet : Quiet (if groupBy.length = 1 then []
          else .scratchPadIUProvider :: groupBy.map fun _ => .keyPacker none) := by
        split
        · exact fun o ho => absurd ho (by simp)
        · exact (quiet_map rfl rfl _).cons rfl rfl
      obtain ⟨hw, hp⟩ := hquiet op hmem
      exact ⟨fun s hs => absurd (hw.symm.trans hs) (by simp), hp⟩
    · obtain rfl := List.mem_singleton.mp hmem
      split
      · exact ⟨fun s hs => (Option.some.inj hs).symm, rfl⟩
      · exact ⟨fun s hs => (Option.some.inj hs).symm, rfl⟩
  · obtain rfl := List.eq_of_mem_replicate hmem
    exact ⟨fun s hs => (Option.some.inj hs).symm, rfl⟩

theorem exists_aggregate_writer (groupBy : List Codegen.IRType) (granules ht : ℕ) :
    ∃ op ∈ aggregateSubops groupBy granules ht, op.writes = some ht := by
  refine ⟨if Join.sizeOf groupBy ≠ 0 then .htLookupOrInsert ht else .htNoKeyLookup ht, ?_, ?_⟩
  · exact List.mem_append_left _ (List.mem_append_right _ (List.mem_singleton_self _))
  · split <;> rfl

theorem read_probes (groupBy : List Codegen.IRType) (aggregates ht : ℕ) :
    ∀ op ∈ readSubops groupBy aggregates ht,
      op.writes = none ∧ ∀ s, op.probes = some s → s = ht := by
  intro op hop
  rcases List.mem_cons.mp hop with rfl | hop
  · exact ⟨rfl, fun s hs => (Option.some.inj hs).symm⟩
  · have hquiet : Quiet ((groupBy.map fun _ => Subop.keyUnpacker) ++
        List.replicate aggregates .aggReader) :=
      (quiet_map rfl rfl _).append (quiet_replicate rfl rfl _)
    obtain ⟨hw, hp⟩ := hquiet op hop
    exact ⟨hw, fun s hs => absurd (hp.symm.trans hs) (by simp)⟩

/-- A placed DAG whose current pipeline has no writers, as every decay leaves it. -/
structure PlacedOpen (d : PipelineDAG) : Prop extends Placed d where
  open_writes : ∀ op ∈ d.currentPipeline, op.writes = none

theorem PlacedOpen.attach (h : PlacedOpen d) (hne : d.pipelines ≠ []) {ops : List Subop}
    (hwrites : ∀ op ∈ ops, op.writes = none)
    (hprobes : ∀ op ∈ ops, ∀ s, op.probes = some s →
      (∀ task ∈ d.runtimeTasks, task.afterPipe + 1 < d.pipelines.length) ∧
      ∃ task ∈ d.runtimeTasks, task.produces = s) : PlacedOpen (d.attach ops) := by
  refine ⟨h.toPlaced.attach hne (fun op hop s hs => ?_) hprobes, fun op hop => ?_⟩
  · exact absurd ((hwrites op hop).symm.trans hs) (by simp)
  · rw [attach_currentPipeline] at hop
    rcases List.mem_append.mp hop with hmem | hmem
    · exact h.open_writes op hmem
    · exact hwrites op hmem

theorem PlacedOpen.attach_quiet (h : PlacedOpen d) (hne : d.pipelines ≠ []) {ops : List Subop}
    (hquiet : Quiet ops) : PlacedOpen (d.attach ops) :=
  h.attach hne (fun op hop => (hquiet op hop).1)
    fun op hop _ hs => absurd ((hquiet op hop).2.symm.trans hs) (by simp)

theorem Placed.build_open (h : Placed d) (hchron : Chronological d) :
    PlacedOpen d.buildNewPipeline :=
  ⟨h.build hchron, by simp⟩

/-- The build side of a join: nothing of it is copied, so its writers stand before the task. -/
theorem joinBuilt_placed {j : Join} {left : RelAlgOp} (hchron : Chronological d)
    (h : Decayed (d.attachState 2) (left.decay (d.attachState 2)) false)
    (hplaced : Placed (left.decay (d.attachState 2))) : Placed (joinBuilt j left d) := by
  have hconts : (left.decay (d.attachState 2)).continuations = [] := by
    by_contra hne
    exact absurd (h.continuation.mp hne) (by simp)
  have hfresh := fun s hle hlt => h.ext.fresh hchron (s := s) hle hlt
  refine (hplaced.attach h.ne_nil ?_ ?_).addTask fun task ht => ?_
  · intro op hop s hs
    obtain rfl := Option.some.inj ((build_writes j _ op hop).1.symm.trans hs)
    exact ⟨hconts, fun task ht => (hfresh _ le_rfl (by omega) task ht).1⟩
  · intro op hop s hs
    exact absurd ((build_writes j _ op hop).2.symm.trans hs) (by simp)
  · exact (hfresh _ (Nat.le_succ _) (by omega) task ht).2

theorem joinProbed_placed {cont : Bool} (h : Decayed d d' cont) (hplaced : PlacedOpen d')
    (j : Join) {ht : ℕ} (htask : ∃ task ∈ d'.runtimeTasks, task.produces = ht) :
    PlacedOpen (joinProbed j ht d') := by
  have hlookup : PlacedOpen (d'.attach (j.lookupSubops ht)) := by
    refine hplaced.attach h.ne_nil (fun op hop => (lookup_probes j ht op hop).1) ?_
    intro op hop s hs
    obtain rfl := (lookup_probes j ht op hop).2 s hs
    exact ⟨h.settled, htask⟩
  rw [joinProbed]
  by_cases htype : j.type = .leftOuter
  · simp only [htype, if_true]
    have hcont : PlacedOpen ((d'.attach (j.lookupSubops ht)).attachContinuation
        (.atomicHashTableSource ht)) :=
      ⟨hlookup.toPlaced.attachContinuation hlookup.open_writes rfl
        (fun s hs => by obtain rfl := Option.some.inj hs; exact htask), hlookup.open_writes⟩
    exact hcont.attach_quiet attach_ne_nil (quiet_unpack j)
  · simp only [htype, if_false]
    exact hlookup.attach_quiet attach_ne_nil (quiet_unpack j)

/-- The pre-aggregation, with its task and the pipeline that reads the merged tables. -/
theorem aggregated_placed {groupBy : List Codegen.IRType} {granules : ℕ} (hne : d.pipelines ≠ [])
    (hchron : Chronological d) (hconts : d.continuations = []) (hplaced : Placed d) :
    Placed (aggregated groupBy granules d) := by
  refine ((hplaced.attachState 1).attach hne ?_ ?_).addTask fun task ht => ?_
  · intro op hop s hs
    obtain rfl := (aggregate_writes groupBy granules _ op hop).1 s hs
    exact ⟨hconts, fun task ht => (hchron.state_lt task ht).1.ne⟩
  · intro op hop s hs
    exact absurd ((aggregate_writes groupBy granules _ op hop).2.symm.trans hs) (by simp)
  · exact (hchron.state_lt task ht).2.ne

mutual

/-- Complete breakers keep all tasks in their place. -/
theorem decay_placed (op : RelAlgOp) {d : PipelineDAG} (hchron : Chronological d)
    (hok : op.BreakersComplete) (h : Placed d) : PlacedOpen (op.decay d) := by
  cases op with
  | tableScan cols =>
    rw [RelAlgOp.decay]
    exact (h.build_open hchron).attach_quiet build_ne_nil
      ((quiet_replicate rfl rfl _).cons rfl rfl)
  | expressionOp nodes child more =>
    rw [RelAlgOp.BreakersComplete] at hok
    have hchild := decay_decayed child hchron
    have hmore := decayAll_decayed more hchild
    rw [RelAlgOp.decay]
    exact (decayAll_placed more hchild hok.2 (decay_placed child hchron hok.1 h)).attach_quiet
      hmore.ne_nil (quiet_replicate rfl rfl _)
  | filter redefined child =>
    rw [RelAlgOp.BreakersComplete] at hok
    rw [RelAlgOp.decay]
    exact (decay_placed child hchron hok h).attach_quiet (decay_decayed child hchron).ne_nil
      ((quiet_replicate rfl rfl _).cons rfl rfl)
  | join j left right =>
    rw [RelAlgOp.BreakersComplete] at hok
    obtain ⟨hcont, hleft, hright⟩ := hok
    have hdecayed := decay_decayed left (hchron.attachState 2)
    rw [hcont] at hdecayed
    obtain ⟨_, hbuilt⟩ := joinBuilt_spec (j := j) hdecayed
    have hplaced := joinBuilt_placed (j := j) hchron hdecayed
      (decay_placed left (hchron.attachState 2) hleft (h.attachState 2)).toPlaced
    have hprobe := decay_decayed right hbuilt
    rw [decay_join]
    exact joinProbed_placed hprobe (decay_placed right hbuilt hright hplaced) j
      ⟨_, hprobe.ext.mem_tasks (List.mem_append_right _ (List.mem_singleton_self _)), rfl⟩
  | aggregation groupBy granules aggregates child more =>
    rw [RelAlgOp.BreakersComplete] at hok
    obtain ⟨hcont, hchild, hmore⟩ := hok
    have hdecayed := decay_decayed child hchron
    have hall := decayAll_decayed more hdecayed
    have hopen := decayAll_placed more hdecayed hmore (decay_placed child hchron hchild h)
    have hconts : (decayAll more (child.decay d)).continuations = [] := by
      by_contra hne
      exact absurd (hcont.symm.trans (hall.continuation.mp hne)) (by simp)
    obtain ⟨_, hagg⟩ := aggregated_spec groupBy granules hall.ne_nil
      hall.chron
    have hbuild := decayed_build (Extends.refl _) hagg
    rw [decay_aggregation]
    refine ((aggregated_placed hall.ne_nil hall.chron hconts hopen.toPlaced).build_open
      hagg).attach build_ne_nil (fun op hop => (read_probes _ _ _ op hop).1) ?_
    intro op hop s hs
    obtain rfl := (read_probes _ _ _ op hop).2 s hs
    exact ⟨hbuild.settled, _, List.mem_append_right _ (List.mem_singleton_self _), rfl⟩

theorem decayAll_placed (ops : List RelAlgOp) {d d' : PipelineDAG} {cont : Bool}
    (hdecayed : Decayed d d' cont) (hok : AllBreakersComplete ops) (h : PlacedOpen d') :
    PlacedOpen (decayAll ops d') := by
  cases ops with
  | nil => rwa [decayAll]
  | cons op ops =>
    rw [AllBreakersComplete] at hok
    rw [decayAll]
    exact decayAll_placed ops (decay_decayed op hdecayed.chron) hok.2
      (decay_placed op hdecayed.chron hok.1 h.toPlaced)

end

end Placement

section Misplacement

/-- A writer of a task's input stands behind the task. -/
def Misplaced (d : PipelineDAG) : Prop :=
  ∃ task ∈ d.runtimeTasks, ∃ (i : ℕ) (pipe : Pipeline) (op : Subop),
    d.pipelines[i]? = some pipe ∧ op ∈ pipe ∧ op.writes = some task.reads ∧ task.afterPipe < i

/-- The next new pipeline copies a writer of a task's input. -/
def Copies (d : PipelineDAG) : Prop :=
  ∃ task ∈ d.runtimeTasks, ∃ (idx : ℕ) (pipe : Pipeline) (rest : List (ℕ × Pipeline)) (op : Subop),
    d.continuations = (idx, pipe) :: rest ∧ op ∈ d.currentPipeline.drop idx ∧
    op.writes = some task.reads ∧ task.afterPipe < d.pipelines.length

variable {d d' : PipelineDAG}

theorem Misplaced.extend (h : Misplaced d) (hext : Extends d d') : Misplaced d' := by
  obtain ⟨task, ht, i, pipe, op, hi, hop, hw, hlt⟩ := h
  obtain ⟨ops, hops⟩ := hext.pipeline i pipe hi
  exact ⟨task, hext.mem_tasks ht, i, _, op, hops, List.mem_append_left _ hop, hw, hlt⟩

theorem Copies.build (h : Copies d) : Misplaced d.buildNewPipeline := by
  obtain ⟨task, ht, idx, pipe, rest, op, hconts, hop, hw, hlt⟩ := h
  obtain ⟨new, hflush, _, _, hfirst⟩ := flush_spec d.pipelines d.continuations
  refine ⟨task, ht, d.pipelines.length, _, op, ?_, List.mem_append_right pipe hop, hw, hlt⟩
  rw [buildNewPipeline, hflush, List.append_assoc, List.getElem?_append_right le_rfl,
    Nat.sub_self, List.getElem?_append_left (List.length_pos_iff.mpr ?_)]
  · exact hfirst idx pipe rest hconts
  · intro hnil
    have hnone := hfirst idx pipe rest hconts
    simp [hnil] at hnone

/-- A writer that is attached while a continuation waits is copied later. -/
theorem copies_of_attach (hchron : Chronological d)
    (hconts : d.continuations ≠ []) {ops : List Subop} {op : Subop} (hop : op ∈ ops)
    {reads produces : ℕ} (hw : op.writes = some reads) :
    Copies ((d.attach ops).addRuntimeTask
      ⟨(d.attach ops).pipelines.length - 1, reads, produces⟩) := by
  obtain ⟨⟨idx, pipe⟩, rest, hcons⟩ := List.exists_cons_of_ne_nil hconts
  have hidx : idx ≤ d.currentPipeline.length :=
    hchron.index_le (idx, pipe) (by rw [hcons]; exact List.mem_cons_self)
  have hpos : 0 < (d.attach ops).pipelines.length := List.length_pos_iff.mpr attach_ne_nil
  refine ⟨_, List.mem_append_right _ (List.mem_singleton_self _), idx, pipe, rest, op, hcons, ?_,
    hw, ?_⟩
  · change op ∈ (d.attach ops).currentPipeline.drop idx
    rw [attach_currentPipeline, List.drop_append_of_le_length hidx]
    exact List.mem_append_right _ hop
  · change (d.attach ops).pipelines.length - 1 < (d.attach ops).pipelines.length
    omega

theorem Misplaced.addTask (h : Misplaced d) (task : RuntimeTask) :
    Misplaced (d.addRuntimeTask task) := by
  obtain ⟨t, ht, hrest⟩ := h
  exact ⟨t, List.mem_append_left _ ht, hrest⟩

/-- The build side of a join stays misplaced. -/
theorem Misplaced.joinBuilt {j : Join} {left : RelAlgOp}
    (h : Misplaced (left.decay (d.attachState 2)))
    (hne : (left.decay (d.attachState 2)).pipelines ≠ []) : Misplaced (joinBuilt j left d) :=
  (h.extend (extends_attach hne _)).addTask _

theorem Misplaced.aggregation {groupBy : List Codegen.IRType} {granules aggregates : ℕ}
    {child : RelAlgOp} {more : List RelAlgOp} (hchron : Chronological d)
    (h : Misplaced (decayAll more (child.decay d))) :
    Misplaced ((RelAlgOp.aggregation groupBy granules aggregates child more).decay d) := by
  have hall := decayAll_decayed more (decay_decayed child hchron)
  obtain ⟨hagg, _⟩ := aggregated_spec groupBy granules hall.ne_nil hall.chron
  rw [decay_aggregation]
  exact ((h.extend hagg).extend (extends_build _)).extend (extends_attach build_ne_nil _)

theorem decay_copies (op : RelAlgOp) {d : PipelineDAG} (hchron : Chronological d)
    (h : Copies d) : Misplaced (op.decay d) := by
  cases op with
  | tableScan cols =>
    rw [RelAlgOp.decay]
    exact h.build.extend (extends_attach build_ne_nil _)
  | expressionOp nodes child more =>
    have hchild := decay_decayed child hchron
    rw [RelAlgOp.decay]
    exact ((decay_copies child hchron h).extend (decayAll_extends more hchild.chron)).extend
      (extends_attach (decayAll_decayed more hchild).ne_nil _)
  | filter redefined child =>
    rw [RelAlgOp.decay]
    exact (decay_copies child hchron h).extend
      (extends_attach (decay_decayed child hchron).ne_nil _)
  | join j left right =>
    have hleft := decay_decayed left (hchron.attachState 2)
    obtain ⟨_, hbuilt⟩ := joinBuilt_spec (j := j) hleft
    have hmis : Misplaced (left.decay (d.attachState 2)) :=
      decay_copies left (hchron.attachState 2) h
    rw [decay_join]
    exact (hmis.joinBuilt hleft.ne_nil).extend ((decay_decayed right hbuilt).probed j _).ext
  | aggregation groupBy granules aggregates child more =>
    have hchild := decay_decayed child hchron
    exact ((decay_copies child hchron h).extend
      (decayAll_extends more hchild.chron)).aggregation hchron

mutual

/-- An incomplete breaker misplaces a writer. -/
theorem decay_misplaced (op : RelAlgOp) {d : PipelineDAG} (hchron : Chronological d)
    (hbad : ¬ op.BreakersComplete) : Misplaced (op.decay d) := by
  cases op with
  | tableScan cols =>
    rw [RelAlgOp.BreakersComplete] at hbad
    exact absurd trivial hbad
  | expressionOp nodes child more =>
    rw [RelAlgOp.BreakersComplete] at hbad
    have hchild := decay_decayed child hchron
    rw [RelAlgOp.decay]
    refine Misplaced.extend ?_ (extends_attach (decayAll_decayed more hchild).ne_nil _)
    by_cases hok : child.BreakersComplete
    · exact decayAll_misplaced more hchild.chron fun hmore => hbad ⟨hok, hmore⟩
    · exact (decay_misplaced child hchron hok).extend (decayAll_extends more hchild.chron)
  | filter redefined child =>
    rw [RelAlgOp.BreakersComplete] at hbad
    rw [RelAlgOp.decay]
    exact (decay_misplaced child hchron hbad).extend
      (extends_attach (decay_decayed child hchron).ne_nil _)
  | join j left right =>
    rw [RelAlgOp.BreakersComplete] at hbad
    have hleft := decay_decayed left (hchron.attachState 2)
    obtain ⟨_, hbuilt⟩ := joinBuilt_spec (j := j) hleft
    have hright := decay_decayed right hbuilt
    rw [decay_join]
    refine Misplaced.extend ?_ (extends_probed hright.ne_nil j _)
    by_cases hcont : left.hasContinuation = false
    · by_cases hok : left.BreakersComplete
      · exact decay_misplaced right hbuilt fun hr => hbad ⟨hcont, hok, hr⟩
      · exact ((decay_misplaced left (hchron.attachState 2) hok).joinBuilt hleft.ne_nil).extend
          hright.ext
    · -- The build pipeline has a continuation, which gets the materialization too.
      have hconts : (left.decay (d.attachState 2)).continuations ≠ [] :=
        hleft.continuation.mpr (by simpa using hcont)
      have hcopies : Copies (joinBuilt j left d) :=
        copies_of_attach hleft.chron hconts List.mem_cons_self rfl
      exact decay_copies right hbuilt hcopies
  | aggregation groupBy granules aggregates child more =>
    rw [RelAlgOp.BreakersComplete] at hbad
    have hchild := decay_decayed child hchron
    have hall := decayAll_decayed more hchild
    by_cases hcont : lastHasContinuation child.hasContinuation more = false
    · refine Misplaced.aggregation hchron ?_
      by_cases hok : child.BreakersComplete
      · exact decayAll_misplaced more hchild.chron fun hmore => hbad ⟨hcont, hok, hmore⟩
      · exact (decay_misplaced child hchron hok).extend (decayAll_extends more hchild.chron)
    · have hconts : (decayAll more (child.decay d)).continuations ≠ [] :=
        hall.continuation.mpr (by simpa using hcont)
      obtain ⟨op, hop, hw⟩ := exists_aggregate_writer groupBy granules
        (decayAll more (child.decay d)).runtimeState
      have hcopies : Copies (aggregated groupBy granules (decayAll more (child.decay d))) :=
        copies_of_attach (hall.chron.attachState 1) hconts hop hw
      rw [decay_aggregation]
      exact hcopies.build.extend (extends_attach build_ne_nil _)

theorem decayAll_misplaced (ops : List RelAlgOp) {d : PipelineDAG} (hchron : Chronological d)
    (hbad : ¬ AllBreakersComplete ops) : Misplaced (decayAll ops d) := by
  cases ops with
  | nil =>
    rw [AllBreakersComplete] at hbad
    exact absurd trivial hbad
  | cons op ops =>
    rw [AllBreakersComplete] at hbad
    have hop := decay_decayed op hchron
    rw [decayAll]
    by_cases hok : op.BreakersComplete
    · exact decayAll_misplaced ops hop.chron fun hops => hbad ⟨hok, hops⟩
    · exact (decay_misplaced op hchron hok).extend (decayAll_extends ops hop.chron)

end

end Misplacement

section Tasks

/-- With ordered tasks, the run is right when all suboperators stand on the right side of
their tasks. -/
theorem tasksOrdered_iff {d : PipelineDAG} (hchron : Chronological d) :
    TasksOrdered d ↔ ∀ task ∈ d.runtimeTasks, ∀ (i : ℕ) (pipe : Pipeline),
      d.pipelines[i]? = some pipe → ∀ op ∈ pipe,
        (op.writes = some task.reads → i ≤ task.afterPipe) ∧
        (op.probes = some task.produces → task.afterPipe < i) := by
  obtain ⟨trace, hrun, hpipes, htasks⟩ := runQuery_spec d hchron.ordered hchron.after_lt
  constructor
  · intro hordered task ht i pipe hi op hop
    obtain ⟨trace', hrun', htasks'⟩ := hordered
    obtain rfl := Option.some.inj (hrun.symm.trans hrun')
    obtain ⟨k, hk⟩ := List.getElem?_of_mem ht
    obtain ⟨hlt, _⟩ := List.getElem?_eq_some_iff.mp hi
    obtain ⟨hbefore, hafter⟩ := (htasks k task hk).2 i hlt
    obtain ⟨_, hw, hp⟩ := (htasks' k task hk).2 i pipe hi
    exact ⟨fun h => hbefore.mp (hw ⟨op, hop, h⟩), fun h => hafter.mp (hp ⟨op, hop, h⟩)⟩
  · intro hplaced
    refine ⟨trace, hrun, fun k task hk => ⟨(htasks k task hk).1, fun i pipe hi => ?_⟩⟩
    obtain ⟨hlt, _⟩ := List.getElem?_eq_some_iff.mp hi
    obtain ⟨hbefore, hafter⟩ := (htasks k task hk).2 i hlt
    have hsides := hplaced task (List.mem_of_getElem? hk) i pipe hi
    refine ⟨hpipes i hlt, fun hex => ?_, fun hex => ?_⟩
    · obtain ⟨op, hop, hw⟩ := hex
      exact hbefore.mpr ((hsides op hop).1 hw)
    · obtain ⟨op, hop, hp⟩ := hex
      exact hafter.mpr ((hsides op hop).2 hp)

theorem chronological_empty : Chronological PipelineDAG.empty :=
  ⟨List.Pairwise.nil, by simp [PipelineDAG.empty], by simp [PipelineDAG.empty],
    by simp [PipelineDAG.empty]⟩

theorem placed_empty : Placed PipelineDAG.empty :=
  ⟨by simp [PipelineDAG.empty], by simp [PipelineDAG.empty], by simp [PipelineDAG.empty],
    by simp [PipelineDAG.empty], by simp [PipelineDAG.empty], by simp [PipelineDAG.empty]⟩

/-- The tasks of an operator tree run in order exactly when no breaker of the tree ends a
pipeline that has a continuation. -/
theorem runtime_tasks_ordered_iff (op : RelAlgOp) :
    TasksOrdered (op.decay PipelineDAG.empty) ↔ op.BreakersComplete := by
  rw [tasksOrdered_iff (decay_decayed op chronological_empty).chron]
  constructor
  · intro hordered
    by_contra hbad
    obtain ⟨task, ht, i, pipe, o, hi, ho, hw, hlt⟩ := decay_misplaced op chronological_empty hbad
    exact absurd ((hordered task ht i pipe hi o ho).1 hw) (by omega)
  · intro hok task ht i pipe hi o ho
    have hplaced := decay_placed op chronological_empty hok placed_empty
    exact ⟨hplaced.writes_le task ht i pipe hi o ho, hplaced.probes_gt task ht i pipe hi o ho⟩

/-- An aggregation over a left outer join: the merge of the tables runs before the pipeline
with the unmatched rows. -/
theorem aggregated_outer_join_misordered :
    ¬ TasksOrdered (RelAlgOp.decay (.aggregation [.char] 1 1
      (.join ⟨.leftOuter, [.char], [], [.char], []⟩ (.tableScan 1) (.tableScan 1)) [])
      PipelineDAG.empty) := by
  intro hordered
  rw [tasksOrdered_iff (decay_decayed _ chronological_empty).chron] at hordered
  have hbad : ¬ RelAlgOp.BreakersComplete (.aggregation [.char] 1 1
      (.join ⟨.leftOuter, [.char], [], [.char], []⟩ (.tableScan 1) (.tableScan 1)) []) := by
    simp [RelAlgOp.BreakersComplete, RelAlgOp.hasContinuation, lastHasContinuation]
  obtain ⟨task, ht, i, pipe, o, hi, ho, hw, hlt⟩ := decay_misplaced _ chronological_empty hbad
  exact absurd ((hordered task ht i pipe hi o ho).1 hw) (by omega)

end Tasks

end InkFuse.Exec
