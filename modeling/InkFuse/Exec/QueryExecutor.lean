import InkFuse.Algebra.PipelineDAG
import Mathlib.Data.List.Sublists

/-!
The stepwise execution of a query: pipelines in their order, and after each one the
runtime tasks that wait for it.
-/

namespace InkFuse.Exec

open InkFuse.Algebra

/-- What the executor runs: a pipeline, or a runtime task, each by its position in the DAG. -/
inductive Event
  | pipeline (idx : ℕ)
  | task (idx : ℕ)
  deriving DecidableEq, Repr

/-- The tasks that are due after a pipeline, with the iterator behind them. Without a result
the assertion on `after_pipe` fails. -/
def runTasks (pipelineIdx : ℕ) :
    List (RuntimeTask × ℕ) → Option (List Event × List (RuntimeTask × ℕ))
  | [] => some ([], [])
  | (task, k) :: rest =>
    if task.afterPipe ≤ pipelineIdx then
      if task.afterPipe = pipelineIdx then do
        let (events, it) ← runTasks pipelineIdx rest
        some (.task k :: events, it)
      else
        none
    else
      some ([], (task, k) :: rest)

/-- The executors of the pipelines from `pipelineIdx` on. -/
def runExecutors : ℕ → ℕ → List (RuntimeTask × ℕ) → Option (List Event)
  | 0, _, _ => some []
  | left + 1, pipelineIdx, it => do
    let (events, it) ← runTasks pipelineIdx it
    let trace ← runExecutors left (pipelineIdx + 1) it
    some (.pipeline pipelineIdx :: events ++ trace)

/-- `StepwiseExecutor::runQuery` -/
def runQuery (d : PipelineDAG) : Option (List Event) :=
  runExecutors d.pipelines.length 0 d.runtimeTasks.zipIdx

section Order

variable {α : Type} {rank : α → ℕ}

/-- In a list ordered by rank, an element of lower rank comes first. -/
theorem pair_sublist_of_lt {l : List α} (hsorted : l.Pairwise fun a b => rank a ≤ rank b) {a b : α}
    (ha : a ∈ l) (hb : b ∈ l) (hlt : rank a < rank b) : [a, b].Sublist l := by
  obtain ⟨l₁, l₂, rfl⟩ := List.append_of_mem ha
  have hback : b ∉ l₁ := by
    intro hmem
    have hle := (List.pairwise_append.mp hsorted).2.2 b hmem a List.mem_cons_self
    omega
  have hmem : b ∈ l₂ := by
    rcases List.mem_append.mp hb with h | h
    · exact absurd h hback
    · rcases List.mem_cons.mp h with rfl | h
      · omega
      · exact h
  exact ((List.singleton_sublist.mpr hmem).cons_cons a).trans (List.sublist_append_right l₁ _)

theorem rank_le_of_pair_sublist {l : List α} (hsorted : l.Pairwise fun a b => rank a ≤ rank b)
    {a b : α} (h : [a, b].Sublist l) : rank a ≤ rank b := by
  have hpair := hsorted.sublist h
  rw [List.pairwise_cons] at hpair
  exact hpair.1 b List.mem_cons_self

end Order

section Trace

/-- The place of an event in a run: each task follows the pipeline it waits for. -/
def Event.rank (afterPipe : ℕ → ℕ) : Event → ℕ
  | .pipeline idx => 2 * idx
  | .task idx => 2 * afterPipe idx + 1

def Ordered (it : List (RuntimeTask × ℕ)) : Prop :=
  it.Pairwise fun a b => a.1.afterPipe ≤ b.1.afterPipe

theorem runTasks_spec {idx : ℕ} {it : List (RuntimeTask × ℕ)} (hordered : Ordered it)
    (hfrom : ∀ p ∈ it, idx ≤ p.1.afterPipe) :
    ∃ due rest, it = due ++ rest ∧ (∀ p ∈ due, p.1.afterPipe = idx) ∧
      (∀ p ∈ rest, idx + 1 ≤ p.1.afterPipe) ∧
      runTasks idx it = some (due.map fun p => .task p.2, rest) := by
  induction it with
  | nil => exact ⟨[], [], rfl, by simp, by simp, rfl⟩
  | cons p it ih =>
    obtain ⟨task, k⟩ := p
    rw [Ordered, List.pairwise_cons] at hordered
    have hle := hfrom _ List.mem_cons_self
    by_cases heq : task.afterPipe = idx
    · obtain ⟨due, rest, rfl, hdue, hrest, hrun⟩ := ih hordered.2
        fun q hq => hfrom q (List.mem_cons_of_mem _ hq)
      refine ⟨(task, k) :: due, rest, rfl, ?_, hrest, ?_⟩
      · exact List.forall_mem_cons.mpr ⟨heq, hdue⟩
      · simp only [runTasks, heq, le_refl, if_true, hrun]
        rfl
    · refine ⟨[], (task, k) :: it, rfl, by simp, ?_, ?_⟩
      · intro q hq
        rcases List.mem_cons.mp hq with rfl | hq
        · simp only at hle ⊢
          omega
        · have := hordered.1 q hq
          simp only at hle this
          omega
      · have hgt : ¬ task.afterPipe ≤ idx := by
          simp only at hle
          omega
        simp only [runTasks, hgt, if_false]
        rfl

/-- The run of the executors: the pipelines and all tasks, ordered by rank. -/
theorem runExecutors_spec {afterPipe : ℕ → ℕ} {left idx : ℕ} {it : List (RuntimeTask × ℕ)}
    (hordered : Ordered it) (hfrom : ∀ p ∈ it, idx ≤ p.1.afterPipe)
    (hto : ∀ p ∈ it, p.1.afterPipe < idx + left)
    (hafter : ∀ p ∈ it, afterPipe p.2 = p.1.afterPipe) :
    ∃ trace, runExecutors left idx it = some trace ∧
      trace.Perm ((List.range' idx left).map .pipeline ++ it.map fun p => .task p.2) ∧
      trace.Pairwise (fun a b => a.rank afterPipe ≤ b.rank afterPipe) := by
  induction left generalizing idx it with
  | zero =>
    have hnil : it = [] := by
      refine List.eq_nil_iff_forall_not_mem.mpr fun p hp => ?_
      have := hfrom p hp
      have := hto p hp
      omega
    subst hnil
    exact ⟨[], rfl, by simp, List.Pairwise.nil⟩
  | succ left ih =>
    obtain ⟨due, rest, rfl, hdue, hrest, hrun⟩ := runTasks_spec hordered hfrom
    obtain ⟨trace, htrace, hperm, hsorted⟩ := ih (List.pairwise_append.mp hordered).2.1 hrest
      (fun p hp => by have := hto p (List.mem_append_right _ hp); omega)
      (fun p hp => hafter p (List.mem_append_right _ hp))
    refine ⟨.pipeline idx :: (due.map (fun p => .task p.2) ++ trace), ?_, ?_, ?_⟩
    · simp only [runExecutors, hrun, Option.bind_eq_bind, Option.bind_some, htrace,
        List.cons_append]
    · rw [List.range'_succ, List.map_cons, List.map_append, List.cons_append]
      refine List.Perm.cons _ ((hperm.append_left _).trans ?_)
      rw [← List.append_assoc, ← List.append_assoc]
      exact List.perm_append_comm.append_right _
    · have hlater : ∀ e ∈ trace, 2 * idx + 2 ≤ e.rank afterPipe := by
        intro e he
        rcases List.mem_append.mp (hperm.mem_iff.mp he) with h | h
        · obtain ⟨i, hi, rfl⟩ := List.mem_map.mp h
          have := List.mem_range'_1.mp hi
          simp only [Event.rank]
          omega
        · obtain ⟨p, hp, rfl⟩ := List.mem_map.mp h
          have := hrest p hp
          simp only [Event.rank, hafter p (List.mem_append_right _ hp)]
          omega
      have hnow : ∀ e ∈ due.map (fun p => Event.task p.2), e.rank afterPipe = 2 * idx + 1 := by
        intro e he
        obtain ⟨p, hp, rfl⟩ := List.mem_map.mp he
        simp only [Event.rank, hafter p (List.mem_append_left _ hp), hdue p hp]
      refine List.pairwise_cons.mpr ⟨?_, List.pairwise_append.mpr ⟨?_, hsorted, ?_⟩⟩
      · intro e he
        change 2 * idx ≤ e.rank afterPipe
        rcases List.mem_append.mp he with h | h
        · rw [hnow e h]
          omega
        · have := hlater e h
          omega
      · exact List.pairwise_of_forall_mem_list fun a ha b hb => by rw [hnow a ha, hnow b hb]
      · intro a ha b hb
        have := hlater b hb
        rw [hnow a ha]
        omega

/-- A run over a DAG with ordered tasks: every pipeline and every task once, each task
directly behind the pipeline it waits for. -/
theorem runQuery_spec (d : PipelineDAG)
    (hordered : d.runtimeTasks.Pairwise fun a b => a.afterPipe ≤ b.afterPipe)
    (hlt : ∀ task ∈ d.runtimeTasks, task.afterPipe < d.pipelines.length) :
    ∃ trace, runQuery d = some trace ∧
      (∀ i, i < d.pipelines.length → trace.count (.pipeline i) = 1) ∧
      ∀ k task, d.runtimeTasks[k]? = some task → trace.count (.task k) = 1 ∧
        ∀ i, i < d.pipelines.length →
          ([.pipeline i, .task k].Sublist trace ↔ i ≤ task.afterPipe) ∧
          ([.task k, .pipeline i].Sublist trace ↔ task.afterPipe < i) := by
  let afterPipe : ℕ → ℕ := fun k => (d.runtimeTasks[k]?.map RuntimeTask.afterPipe).getD 0
  have hit : ∀ p ∈ d.runtimeTasks.zipIdx, d.runtimeTasks[p.2]? = some p.1 :=
    fun p hp => List.mem_zipIdx_iff_getElem?.mp hp
  have hmem : ∀ p ∈ d.runtimeTasks.zipIdx, p.1 ∈ d.runtimeTasks :=
    fun p hp => List.mem_of_getElem? (hit p hp)
  have hordered' : Ordered d.runtimeTasks.zipIdx := by
    have hmap : (d.runtimeTasks.zipIdx.map Prod.fst).Pairwise
        fun a b => a.afterPipe ≤ b.afterPipe := by
      rwa [List.zipIdx_map_fst]
    rw [List.pairwise_map] at hmap
    exact hmap
  have hto : ∀ p ∈ d.runtimeTasks.zipIdx, p.1.afterPipe < 0 + d.pipelines.length :=
    fun p hp => by rw [Nat.zero_add]; exact hlt _ (hmem p hp)
  have hafter : ∀ p ∈ d.runtimeTasks.zipIdx, afterPipe p.2 = p.1.afterPipe :=
    fun p hp => by simp [afterPipe, hit p hp]
  obtain ⟨trace, hrun, hperm, hsorted⟩ :=
    runExecutors_spec hordered' (fun _ _ => Nat.zero_le _) hto hafter
  have htasks : (d.runtimeTasks.zipIdx.map fun p => Event.task p.2) =
      (List.range' 0 d.runtimeTasks.length).map .task := by
    rw [← List.zipIdx_map_snd 0 d.runtimeTasks, List.map_map]
    rfl
  rw [htasks] at hperm
  have hnodup : trace.Nodup := by
    rw [hperm.nodup_iff]
    refine (List.Nodup.map (fun a b h => Event.pipeline.inj h) List.nodup_range').append
      (List.Nodup.map (fun a b h => Event.task.inj h) List.nodup_range') ?_
    intro e h h'
    obtain ⟨i, _, rfl⟩ := List.mem_map.mp h
    obtain ⟨k, _, hk⟩ := List.mem_map.mp h'
    exact absurd hk (by simp)
  have hpipe : ∀ i, i < d.pipelines.length → Event.pipeline i ∈ trace := by
    intro i hi
    refine hperm.mem_iff.mpr (List.mem_append_left _ (List.mem_map_of_mem ?_))
    exact List.mem_range'_1.mpr ⟨Nat.zero_le _, by omega⟩
  have htask : ∀ k task, d.runtimeTasks[k]? = some task → Event.task k ∈ trace := by
    intro k task hk
    obtain ⟨hlen, _⟩ := List.getElem?_eq_some_iff.mp hk
    refine hperm.mem_iff.mpr (List.mem_append_right _ (List.mem_map_of_mem ?_))
    exact List.mem_range'_1.mpr ⟨Nat.zero_le _, by omega⟩
  refine ⟨trace, hrun, fun i hi => List.count_eq_one_of_mem hnodup (hpipe i hi), ?_⟩
  intro k task hk
  refine ⟨List.count_eq_one_of_mem hnodup (htask k task hk), fun i hi => ?_⟩
  have hrank : afterPipe k = task.afterPipe := by simp [afterPipe, hk]
  constructor
  · constructor
    · intro h
      have hle := rank_le_of_pair_sublist hsorted h
      simp only [Event.rank, hrank] at hle
      omega
    · intro h
      refine pair_sublist_of_lt hsorted (hpipe i hi) (htask k task hk) ?_
      simp only [Event.rank, hrank]
      omega
  · constructor
    · intro h
      have hle := rank_le_of_pair_sublist hsorted h
      simp only [Event.rank, hrank] at hle
      omega
    · intro h
      refine pair_sublist_of_lt hsorted (htask k task hk) (hpipe i hi) ?_
      simp only [Event.rank, hrank]
      omega

end Trace

end InkFuse.Exec
