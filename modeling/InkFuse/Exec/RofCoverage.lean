import InkFuse.Exec.RofRunners

/-!
What relaxed operator fusion covers. The intervals and the interpreters of a morsel follow the
parts of the pipeline that the guards leave; each of these steps runs what it is for.
-/

namespace InkFuse.Exec.RelaxedFusion

open Algebra.SubopGraph

variable {IU : Type} [DecidableEq IU]

section Interpreters

variable {p : Pipeline IU} {isVoid : IU → Bool} {hasFragment : Suboperator IU → Bool}

def isFirstInterpreter (subops : List (Suboperator IU)) (k : ℕ) : Bool :=
  !(subops.take k).any isInterpreted

omit [DecidableEq IU] in
theorem isFirstInterpreter_append {ops rest : List (Suboperator IU)} {k : ℕ}
    (hk : k ≤ ops.length) : isFirstInterpreter (ops ++ rest) k = isFirstInterpreter ops k := by
  rw [isFirstInterpreter, isFirstInterpreter, List.take_append_of_le_length hk]

/-- What the interpreters know after a prefix of the pipeline. -/
structure InterpretersFor (p : Pipeline IU) (isVoid : IU → Bool)
    (hasFragment : Suboperator IU → Bool) (ops : List (Suboperator IU)) (i : Interpreters IU) :
    Prop where
  length : i.offsets.length = ops.length
  isEmpty : i.interpreters.isEmpty = !ops.any isInterpreted
  interpreted : ∀ (k : ℕ) (op : Suboperator IU), ops[k]? = some op → isInterpreted op = true →
    ∃ offset layout, interpretedLayout p isVoid hasFragment k op = some layout ∧
      i.offsets[k]? = some (some offset) ∧
      i.interpreters[offset]? = some ⟨k, layout, isFirstInterpreter ops k⟩
  skipped : ∀ (k : ℕ) (op : Suboperator IU), ops[k]? = some op → isInterpreted op = false →
    i.offsets[k]? = some none

theorem InterpretersFor.add {ops : List (Suboperator IU)} {i i' : Interpreters IU}
    {op : Suboperator IU} (h : InterpretersFor p isVoid hasFragment ops i)
    (hadd : i.add p isVoid hasFragment op = some i') :
    InterpretersFor p isVoid hasFragment (ops ++ [op]) i' := by
  have hlast : ∀ {k : ℕ} {op' : Suboperator IU}, (ops ++ [op])[k]? = some op' →
      k < ops.length ∧ ops[k]? = some op' ∨ k = ops.length ∧ op' = op := by
    intro k op' hk
    by_cases hlt : k < ops.length
    · rw [List.getElem?_append_left hlt] at hk
      exact .inl ⟨hlt, hk⟩
    · have hle := (List.getElem?_eq_some_iff.mp hk).1
      rw [List.length_append, List.length_singleton] at hle
      obtain rfl : k = ops.length := by omega
      rw [List.getElem?_concat_length, Option.some_inj] at hk
      exact .inr ⟨rfl, hk.symm⟩
  unfold Interpreters.add at hadd
  by_cases hinterpreted : isInterpreted op = true
  · rw [if_pos hinterpreted] at hadd
    obtain ⟨layout, hlayout, rfl⟩ := Option.map_eq_some_iff.mp hadd
    refine ⟨?_, ?_, fun k op' hk hop' => ?_, fun k op' hk hop' => ?_⟩
    · simp [h.length]
    · rw [List.any_append]
      simp [hinterpreted]
    · rcases hlast hk with ⟨hlt, hk⟩ | ⟨rfl, rfl⟩
      · obtain ⟨offset, layout', hlayout', hoffset, hinterpreter⟩ := h.interpreted k op' hk hop'
        have hoffsetLt := (List.getElem?_eq_some_iff.mp hinterpreter).1
        refine ⟨offset, layout', hlayout', ?_, ?_⟩
        · rw [List.getElem?_append_left (h.length ▸ hlt), hoffset]
        · rw [List.getElem?_append_left hoffsetLt, hinterpreter,
            isFirstInterpreter_append (Nat.le_of_lt hlt)]
      · refine ⟨i.interpreters.length, layout, h.length ▸ hlayout, ?_, ?_⟩
        · rw [← h.length, List.getElem?_concat_length]
        · rw [List.getElem?_concat_length, h.isEmpty, h.length,
            isFirstInterpreter_append (le_refl _), isFirstInterpreter, List.take_length]
    · rcases hlast hk with ⟨hlt, hk⟩ | ⟨rfl, rfl⟩
      · rw [List.getElem?_append_left (h.length ▸ hlt), h.skipped k op' hk hop']
      · rw [hinterpreted] at hop'
        cases hop'
  · rw [if_neg hinterpreted, Option.some_inj] at hadd
    subst hadd
    refine ⟨?_, ?_, fun k op' hk hop' => ?_, fun k op' hk hop' => ?_⟩
    · simp [h.length]
    · rw [List.any_append, h.isEmpty]
      simp [hinterpreted]
    · rcases hlast hk with ⟨hlt, hk⟩ | ⟨rfl, rfl⟩
      · obtain ⟨offset, layout', hlayout', hoffset, hinterpreter⟩ := h.interpreted k op' hk hop'
        refine ⟨offset, layout', hlayout', ?_, ?_⟩
        · rw [List.getElem?_append_left (h.length ▸ hlt), hoffset]
        · rw [hinterpreter, isFirstInterpreter_append (Nat.le_of_lt hlt)]
      · exact absurd hop' hinterpreted
    · rcases hlast hk with ⟨hlt, hk⟩ | ⟨rfl, rfl⟩
      · rw [List.getElem?_append_left (h.length ▸ hlt), h.skipped k op' hk hop']
      · rw [← h.length, List.getElem?_concat_length]

theorem setUpInterpreted_spec {ops : List (Suboperator IU)} {i : Interpreters IU}
    (h : ops.foldlM (Interpreters.add p isVoid hasFragment) ⟨[], []⟩ = some i) :
    InterpretersFor p isVoid hasFragment ops i := by
  induction ops using List.reverseRecOn generalizing i with
  | nil =>
    cases h
    exact ⟨rfl, rfl, by simp, by simp⟩
  | append_singleton ops op ih =>
    rw [List.foldlM_append, Option.bind_eq_bind, Option.bind_eq_some_iff] at h
    obtain ⟨before, hbefore, h⟩ := h
    rw [List.foldlM_cons, Option.bind_eq_bind, Option.bind_eq_some_iff] at h
    obtain ⟨after, hadd, h⟩ := h
    obtain rfl := Option.some.inj h
    exact (ih hbefore).add hadd

/-- The set-up succeeds when that of every interpreter does. -/
theorem exists_interpreters {ops : List (Suboperator IU)}
    (h : ∀ (k : ℕ) (op : Suboperator IU), ops[k]? = some op → isInterpreted op = true →
      ∃ layout, interpretedLayout p isVoid hasFragment k op = some layout) :
    ∃ i, ops.foldlM (Interpreters.add p isVoid hasFragment) ⟨[], []⟩ = some i := by
  induction ops using List.reverseRecOn with
  | nil => exact ⟨_, rfl⟩
  | append_singleton ops op ih =>
    obtain ⟨i, hi⟩ := ih fun k op' hk => h k op' (by
      rw [List.getElem?_append_left (List.getElem?_eq_some_iff.mp hk).1, hk])
    have hlength := (setUpInterpreted_spec hi).length
    obtain ⟨i', hadd⟩ : ∃ i', i.add p isVoid hasFragment op = some i' := by
      unfold Interpreters.add
      split
      · rename_i hinterpreted
        obtain ⟨layout, hlayout⟩ := h ops.length op List.getElem?_concat_length hinterpreted
        exact ⟨_, by rw [hlength, hlayout, Option.map_some]⟩
      · exact ⟨_, rfl⟩
    refine ⟨i', ?_⟩
    rw [List.foldlM_append, hi]
    simp [hadd]

end Interpreters

section Schedule

/-- What the loop of `runROFMorsel` does one after the other. -/
inductive Step (IU : Type)
  | interpret (k : ℕ)
  | compiled (state : CompileState IU)

def Step.range : Step IU → List ℕ
  | .interpret k => [k]
  | .compiled state => List.range' state.start (state.stop - state.start)

variable {p : Pipeline IU} {i : Interpreters IU} {guards : List (ℕ × ℕ)}
  {states : List (CompileState IU)}

def Step.run (p : Pipeline IU) (i : Interpreters IU) : Step IU → Option (List (Event IU))
  | .interpret k => i.interpret p k
  | .compiled state => state.run p

def runSteps (p : Pipeline IU) (i : Interpreters IU) : List (Step IU) → Option (List (Event IU))
  | [] => some []
  | step :: steps => do
    let events ← step.run p i
    let rest ← runSteps p i steps
    some (events ++ rest)

omit [DecidableEq IU] in
theorem runSteps_eq_some {steps : List (Step IU)} {events : List (Event IU)} :
    runSteps p i steps = some events ↔ (∀ step ∈ steps, ∃ es, step.run p i = some es) ∧
      events = steps.flatMap fun step => (step.run p i).getD [] := by
  induction steps generalizing events with
  | nil => simp [runSteps, eq_comm]
  | cons step steps ih =>
    rw [runSteps, List.forall_mem_cons, List.flatMap_cons]
    cases hstep : step.run p i with
    | none => simp
    | some es =>
      simp only [Option.bind_eq_bind, Option.bind_some, Option.getD_some]
      constructor
      · intro h
        obtain ⟨rest, hrest, heq⟩ := Option.bind_eq_some_iff.mp h
        obtain ⟨hall, rfl⟩ := ih.mp hrest
        exact ⟨⟨⟨es, rfl⟩, hall⟩, (Option.some.inj heq).symm⟩
      · rintro ⟨⟨_, hall⟩, rfl⟩
        rw [ih.mpr ⟨hall, rfl⟩, Option.bind_some]

def schedule : ℕ → List (ℕ × ℕ) → List (CompileState IU) → List (Step IU)
  | k, (inside, behind) :: guards, state :: states =>
    (List.range' k inside).map .interpret ++
      .compiled state :: schedule (k + inside + behind) guards states
  | _, _, _ => []

omit [DecidableEq IU] in
/-- Up to the next interval, everything is interpreted. -/
theorem replay_inside {state : CompileState IU} (m current : ℕ)
    (hstart : current + m = state.start) (hsize : state.start < p.suboperators.length)
    {rest : List (Step IU)} (hrest : replay p i states state.stop = runSteps p i rest) :
    replay p i (state :: states) current =
      runSteps p i ((List.range' current m).map .interpret ++ .compiled state :: rest) := by
  induction m generalizing current with
  | zero =>
    rw [replay, if_pos (by omega), if_pos (by omega), hrest]
    rfl
  | succ m ih =>
    rw [replay, if_pos (by omega), if_neg (by omega), ih (current + 1) (by omega),
      List.range'_succ]
    rfl

omit [DecidableEq IU] in
theorem replay_guards (k : ℕ) (hsize : k + total guards = p.suboperators.length)
    (hstates : states.map (fun state => (state.start, state.stop)) = behindGuards k guards)
    (hbehind : ∀ g ∈ guards, 0 < g.2) :
    replay p i states k = runSteps p i (schedule k guards states) := by
  induction guards generalizing k states with
  | nil =>
    obtain rfl := List.map_eq_nil_iff.mp hstates
    rw [replay, if_neg (by simp [total] at hsize; omega)]
    rfl
  | cons g guards ih =>
    obtain ⟨inside, behind⟩ := g
    have hpos : 0 < behind := hbehind _ List.mem_cons_self
    simp only [total, List.map_cons, List.sum_cons] at hsize
    obtain ⟨state, states', rfl, hstate, hrest⟩ := List.map_eq_cons_iff.mp hstates
    obtain ⟨hstart, hstop⟩ := Prod.mk.inj hstate
    apply replay_inside inside k hstart.symm (by omega)
    rw [hstop]
    exact ih _ (by simp only [total]; omega) hrest
      fun g hg => hbehind g (List.mem_cons_of_mem _ hg)

omit [DecidableEq IU] in
theorem runROFMorsel_eq {l : Layout} (hsize : l.lead + total l.guards = p.suboperators.length)
    {state : CompileState IU} (hstate : (state.start, state.stop) = (0, l.lead))
    (hstates : states.map (fun state => (state.start, state.stop)) =
      behindGuards l.lead l.guards) (hbehind : ∀ g ∈ l.guards, 0 < g.2) :
    runROFMorsel p i (state :: states) =
      runSteps p i (.compiled state :: schedule l.lead l.guards states) := by
  obtain ⟨hstart, hstop⟩ := Prod.mk.inj hstate
  rw [runROFMorsel, if_pos hstart, hstop, replay_guards l.lead hsize hstates hbehind]
  rfl

omit [DecidableEq IU] in
/-- The steps go over every index behind the first interval once. -/
theorem schedule_range (k : ℕ)
    (hstates : states.map (fun state => (state.start, state.stop)) = behindGuards k guards) :
    (schedule k guards states).flatMap Step.range = List.range' k (total guards) := by
  induction guards generalizing k states with
  | nil =>
    unfold schedule
    rfl
  | cons g guards ih =>
    obtain ⟨inside, behind⟩ := g
    obtain ⟨state, states', rfl, hstate, hrest⟩ := List.map_eq_cons_iff.mp hstates
    obtain ⟨hstart, hstop⟩ := Prod.mk.inj hstate
    have hinside : ((List.range' k inside).map .interpret : List (Step IU)).flatMap Step.range =
        List.range' k inside := by
      rw [List.flatMap_map]
      exact List.flatMap_singleton' _
    have hcompiled : Step.range (.compiled state) = List.range' (k + inside) behind := by
      rw [Step.range, hstart, hstop, Nat.add_sub_cancel_left]
    have htotal : total ((inside, behind) :: guards) = inside + (behind + total guards) := by
      simp only [total, List.map_cons, List.sum_cons]
      omega
    rw [schedule, List.flatMap_append, List.flatMap_cons, hinside, hcompiled, ih _ hrest, htotal,
      ← List.range'_append_1, ← List.range'_append_1]

omit [DecidableEq IU] in
theorem mem_schedule (k : ℕ)
    (hstates : states.map (fun state => (state.start, state.stop)) = behindGuards k guards)
    {step : Step IU} : step ∈ schedule k guards states ↔
      (∃ part ∈ insideGuards k guards, ∃ j, (part.1 ≤ j ∧ j < part.2) ∧ step = .interpret j) ∨
        ∃ state ∈ states, step = .compiled state := by
  induction guards generalizing k states with
  | nil =>
    obtain rfl := List.map_eq_nil_iff.mp hstates
    simp [schedule, insideGuards]
  | cons g guards ih =>
    obtain ⟨inside, behind⟩ := g
    obtain ⟨state, states', rfl, _, hrest⟩ := List.map_eq_cons_iff.mp hstates
    have hfirst : step ∈ (List.range' k inside).map Step.interpret ↔
        ∃ j, (k ≤ j ∧ j < k + inside) ∧ step = .interpret j := by
      simp only [List.mem_map, List.mem_range'_1, eq_comm]
    rw [schedule, List.mem_append, List.mem_cons, hfirst, ih _ hrest, insideGuards]
    simp only [List.mem_cons, exists_eq_or_imp]
    rw [or_or_or_comm, or_assoc]

end Schedule

section Parts

variable {guards : List (ℕ × ℕ)} {k : ℕ} {part other : ℕ × ℕ}

theorem behindGuards_within (h : part ∈ behindGuards k guards) :
    k ≤ part.1 ∧ part.2 ≤ k + total guards := by
  induction guards generalizing k with
  | nil => cases h
  | cons g guards ih =>
    obtain ⟨inside, behind⟩ := g
    simp only [total, List.map_cons, List.sum_cons]
    rcases List.mem_cons.mp h with rfl | h
    · exact ⟨by omega, by omega⟩
    · have hrest := ih h
      simp only [total] at hrest
      omega

theorem insideGuards_within (h : part ∈ insideGuards k guards) :
    k ≤ part.1 ∧ part.2 ≤ k + total guards := by
  induction guards generalizing k with
  | nil => cases h
  | cons g guards ih =>
    obtain ⟨inside, behind⟩ := g
    simp only [total, List.map_cons, List.sum_cons]
    rcases List.mem_cons.mp h with rfl | h
    · exact ⟨by omega, by omega⟩
    · have hrest := ih h
      simp only [total] at hrest
      omega

/-- Every index is in a part inside or in a part behind a guard. -/
theorem guards_cover {j : ℕ} (hk : k ≤ j) (hj : j < k + total guards) :
    (∃ part ∈ insideGuards k guards, part.1 ≤ j ∧ j < part.2) ∨
      ∃ part ∈ behindGuards k guards, part.1 ≤ j ∧ j < part.2 := by
  induction guards generalizing k with
  | nil =>
    simp [total] at hj
    omega
  | cons g guards ih =>
    obtain ⟨inside, behind⟩ := g
    simp only [total, List.map_cons, List.sum_cons] at hj
    by_cases hinside : j < k + inside
    · exact Or.inl ⟨(k, k + inside), List.mem_cons_self .., hk, hinside⟩
    · by_cases hbehind : j < k + inside + behind
      · exact Or.inr ⟨_, List.mem_cons_self .., Nat.not_lt.mp hinside, hbehind⟩
      · rcases ih (Nat.not_lt.mp hbehind) (by simp only [total]; omega) with
          ⟨part, hpart, hin⟩ | ⟨part, hpart, hin⟩
        · exact Or.inl ⟨part, List.mem_cons_of_mem _ hpart, hin⟩
        · exact Or.inr ⟨part, List.mem_cons_of_mem _ hpart, hin⟩

theorem inside_behind_disjoint {j : ℕ} (hin : part ∈ insideGuards k guards)
    (hout : other ∈ behindGuards k guards) (hj : part.1 ≤ j ∧ j < part.2) :
    ¬ (other.1 ≤ j ∧ j < other.2) := by
  induction guards generalizing k with
  | nil => cases hin
  | cons g guards ih =>
    obtain ⟨inside, behind⟩ := g
    rcases List.mem_cons.mp hin with rfl | hin <;> rcases List.mem_cons.mp hout with rfl | hout
    · omega
    · have hwithin := behindGuards_within hout
      omega
    · have hwithin := insideGuards_within hin
      omega
    · exact ih hin hout

theorem behind_disjoint {j : ℕ} (hpart : part ∈ behindGuards k guards)
    (hother : other ∈ behindGuards k guards) (hj : part.1 ≤ j ∧ j < part.2)
    (hj' : other.1 ≤ j ∧ j < other.2) : part = other := by
  induction guards generalizing k with
  | nil => cases hpart
  | cons g guards ih =>
    obtain ⟨inside, behind⟩ := g
    rcases List.mem_cons.mp hpart with rfl | hpart <;>
      rcases List.mem_cons.mp hother with rfl | hother
    · rfl
    · have hwithin := behindGuards_within hother
      omega
    · have hwithin := behindGuards_within hpart
      omega
    · exact ih hpart hother

end Parts

namespace Layout

variable {l : Layout} {part other : ℕ × ℕ} {j : ℕ}

theorem inside_outside_disjoint (hin : part ∈ l.inside) (hout : other ∈ l.outside)
    (hj : part.1 ≤ j ∧ j < part.2) : ¬ (other.1 ≤ j ∧ j < other.2) := by
  rcases List.mem_cons.mp hout with rfl | hout
  · have hwithin := insideGuards_within hin
    omega
  · exact inside_behind_disjoint hin hout hj

theorem outside_disjoint (hpart : part ∈ l.outside) (hother : other ∈ l.outside)
    (hj : part.1 ≤ j ∧ j < part.2) (hj' : other.1 ≤ j ∧ j < other.2) : part = other := by
  rcases List.mem_cons.mp hpart with rfl | hpart <;>
    rcases List.mem_cons.mp hother with rfl | hother
  · rfl
  · have hwithin := behindGuards_within hother
    omega
  · have hwithin := behindGuards_within hpart
    omega
  · exact behind_disjoint hpart hother hj hj'

theorem cover (hj : j < l.lead + total l.guards) :
    (∃ part ∈ l.inside, part.1 ≤ j ∧ j < part.2) ∨
      ∃ part ∈ l.outside, part.1 ≤ j ∧ j < part.2 := by
  by_cases hlead : j < l.lead
  · exact Or.inr ⟨(0, l.lead), List.mem_cons_self .., Nat.zero_le _, hlead⟩
  · rcases guards_cover (Nat.not_lt.mp hlead) hj with hinside | ⟨part, hpart, hin⟩
    · exact Or.inl hinside
    · exact Or.inr ⟨part, List.mem_cons_of_mem _ hpart, hin⟩

/-- The parts outside of guards are non-empty. -/
theorem outside_nonempty_iff :
    (∀ part ∈ l.outside, part.1 < part.2) ↔ 0 < l.lead ∧ ∀ g ∈ l.guards, 0 < g.2 := by
  have hbehind : ∀ (guards : List (ℕ × ℕ)) (k : ℕ),
      (∀ part ∈ behindGuards k guards, part.1 < part.2) ↔ ∀ g ∈ guards, 0 < g.2 := by
    intro guards
    induction guards with
    | nil => simp [behindGuards]
    | cons g guards ih =>
      intro k
      obtain ⟨inside, behind⟩ := g
      rw [behindGuards, List.forall_mem_cons, List.forall_mem_cons, ih]
      apply and_congr_left'
      show k + inside < k + inside + behind ↔ 0 < behind
      omega
  rw [outside, List.forall_mem_cons, hbehind]

end Layout

end InkFuse.Exec.RelaxedFusion
