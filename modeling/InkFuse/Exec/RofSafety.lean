import InkFuse.Exec.RofCoverage
import Mathlib.Tactic.IntervalCases

/-!
Which pipelines relaxed operator fusion covers. Every run goes over a range of the pipeline, and
what a morsel does is told by these ranges and by what they pick from.
-/

namespace InkFuse.Exec.RelaxedFusion

open Algebra.SubopGraph

variable {IU : Type} [DecidableEq IU] {subops : List (Suboperator IU)} {isVoid : IU → Bool}
  {hasFragment : Suboperator IU → Bool}

section Ranges

variable {p : Pipeline IU} {start stop : ℕ} {materialize : List IU}

def rangePick (p : Pipeline IU) (start stop : ℕ) : Option (Repiped IU) :=
  let head := (strongProducer p start).getD start
  if requiredAt p start stop = [] then
    if isLoopSourceAt p head then some (.shared head) else none
  else
    some .fuseChunkSourceDriver

def rangeLoops (p : Pipeline IU) (start stop : ℕ) : List (Repiped IU) :=
  (if requiredAt p start stop = [] then [] else [.fuseChunkSourceDriver]) ++
    ((keptAt p start stop).filter (isLoopSourceAt p)).map .shared

theorem pickMorsel_eq (hstart : start < stop) :
    pickMorsel (Pipeline.build subops)
        (rangeLayout isVoid (requiredAt (Pipeline.build subops) start stop)
          (keptAt (Pipeline.build subops) start stop) materialize) =
      (rangePick (Pipeline.build subops) start stop).map fun source => [.picked source] := by
  rw [pickMorsel_range hstart, rangePick]
  split_ifs <;> rfl

structure OnChunk (p : Pipeline IU) (start stop : ℕ) : Prop where
  required : requiredAt p start stop ≠ []
  sources : ∀ k ∈ keptAt p start stop, isLoopSourceAt p k = false

theorem OnChunk.pick (h : OnChunk p start stop) :
    rangePick p start stop = some .fuseChunkSourceDriver := by
  rw [rangePick, if_neg h.required]

theorem OnChunk.loops (h : OnChunk p start stop) :
    rangeLoops p start stop = [.fuseChunkSourceDriver] := by
  have hnone : (keptAt p start stop).filter (isLoopSourceAt p) = [] :=
    List.filter_eq_nil_iff.mpr fun k hk => by rw [h.sources k hk]; exact Bool.false_ne_true
  rw [rangeLoops, if_neg h.required, hnone]
  rfl

/-- One source of rows means that a range with inputs runs on a fuse chunk. -/
theorem onChunk_of_loops (hrequired : requiredAt p start stop ≠ [])
    (hloops : rangeLoops p start stop = [.fuseChunkSourceDriver] ∨
      rangeLoops p start stop = [.shared 0]) : OnChunk p start stop := by
  refine ⟨hrequired, fun k hk => ?_⟩
  rw [rangeLoops, if_neg hrequired] at hloops
  have hnone : (keptAt p start stop).filter (isLoopSourceAt p) = [] := by
    rcases hloops with hloops | hloops
    · simpa using hloops
    · cases hloops
  have hfilter := List.filter_eq_nil_iff.mp hnone k hk
  rwa [Bool.not_eq_true] at hfilter

/-- Without inputs, a run is over the first suboperator. -/
theorem source_of_required_nil (hrequired : requiredAt p start stop = [])
    (hloops : rangeLoops p start stop = [.fuseChunkSourceDriver] ∨
      rangeLoops p start stop = [.shared 0]) :
    0 ∈ keptAt p start stop ∧ isLoopSourceAt p 0 = true := by
  rw [rangeLoops, if_pos hrequired, List.nil_append] at hloops
  rcases hloops with hloops | hloops
  · have hmem := hloops ▸ List.mem_singleton_self Repiped.fuseChunkSourceDriver
    obtain ⟨_, _, heq⟩ := List.mem_map.mp hmem
    cases heq
  · have hmem := hloops ▸ List.mem_singleton_self (.shared 0 : Repiped IU)
    obtain ⟨k, hk, heq⟩ := List.mem_map.mp hmem
    cases heq
    exact List.mem_filter.mp hk

/-- The loop source of any run is the first suboperator. -/
theorem source_of_loops {k : ℕ} (hk : k ∈ keptAt p start stop)
    (hsource : isLoopSourceAt p k = true)
    (hloops : rangeLoops p start stop = [.fuseChunkSourceDriver] ∨
      rangeLoops p start stop = [.shared 0]) : k = 0 := by
  have hmem : Repiped.shared k ∈ rangeLoops p start stop :=
    List.mem_append_right _ (List.mem_map_of_mem (List.mem_filter.mpr ⟨hk, hsource⟩))
  rcases hloops with hloops | hloops
  · rw [hloops] at hmem
    simp at hmem
  · rw [hloops] at hmem
    simpa using hmem

end Ranges

section Steps

variable {i : Interpreters IU} {k : ℕ}

def stateOf (p : Pipeline IU) (isVoid : IU → Bool) (part : ℕ × ℕ) : CompileState IU :=
  ⟨part.1, part.2, partLayout p isVoid part.1 part.2⟩

omit [DecidableEq IU] in
theorem hasInterpreter_eq {p : Pipeline IU} {op : Suboperator IU}
    (hop : p.suboperators[k]? = some op) : hasInterpreter p k = isInterpreted op := by
  rw [hasInterpreter, hop, Option.any_some]

theorem isFirstInterpreter_eq_false : isFirstInterpreter subops k = false ↔
    ∃ j < k, hasInterpreter (Pipeline.build subops) j = true := by
  rw [isFirstInterpreter, Bool.not_eq_false', List.any_eq_true]
  constructor
  · rintro ⟨op, hop, hinterpreted⟩
    obtain ⟨j, hj⟩ := List.mem_iff_getElem?.mp hop
    rw [List.getElem?_take, Option.ite_none_right_eq_some] at hj
    refine ⟨j, hj.1, ?_⟩
    rwa [hasInterpreter_eq (by rw [build_suboperators, hj.2])]
  · rintro ⟨j, hjk, hj⟩
    rw [hasInterpreter, build_suboperators] at hj
    obtain ⟨op, hop, hinterpreted⟩ := (Option.any_eq_true _ _).mp hj
    exact ⟨op, List.mem_of_getElem? (by rw [List.getElem?_take_of_lt hjk, hop]), hinterpreted⟩

omit [DecidableEq IU] in
theorem outgoing_of_interpreted {op : Suboperator IU} (h : isInterpreted op = true) :
    op.outgoingStrongLinks = false := by
  rw [isInterpreted, Bool.and_eq_true] at h
  simpa using h.1

def Step.picks (p : Pipeline IU) : Step IU → Option (List (Repiped IU))
  | .compiled state => (rangePick p state.start state.stop).map fun source => [source]
  | .interpret k =>
    if hasInterpreter p k && !(isTableScanAt p k && !isFirstInterpreter p.suboperators k) then
      (rangePick p k (k + 1)).map fun source => [source]
    else
      some []

def Step.event (p : Pipeline IU) (isVoid : IU → Bool) : Step IU → Option (Event IU)
  | .compiled state => some (.compiled state.start state.stop state.layout)
  | .interpret k =>
    if hasInterpreter p k then some (.interpreted k (interpreterLayout p isVoid k)) else none

theorem compiled_run {part : ℕ × ℕ} (hpart : part.1 < part.2) :
    Step.run (Pipeline.build subops) i (.compiled (stateOf (Pipeline.build subops) isVoid part)) =
      (Step.picks (Pipeline.build subops)
          (.compiled (stateOf (Pipeline.build subops) isVoid part))).map fun picks =>
        picks.map .picked ++ (Step.event (Pipeline.build subops) isVoid
          (.compiled (stateOf (Pipeline.build subops) isVoid part))).toList := by
  rw [Step.run, CompileState.run, stateOf, partLayout, pickMorsel_eq hpart, Step.picks, Step.event]
  cases rangePick (Pipeline.build subops) part.1 part.2 <;> rfl

theorem interpret_run (h : Wired subops)
    (hi : setUpInterpreted (Pipeline.build subops) isVoid hasFragment = some i)
    (hk : k < subops.length) :
    Step.run (Pipeline.build subops) i (.interpret k) =
      (Step.picks (Pipeline.build subops) (.interpret k)).map fun picks =>
        picks.map .picked ++ (Step.event (Pipeline.build subops) isVoid (.interpret k)).toList := by
  obtain ⟨op, hop⟩ : ∃ op, subops[k]? = some op := ⟨_, List.getElem?_eq_getElem hk⟩
  have hspec := setUpInterpreted_spec
    (by rwa [setUpInterpreted, build_suboperators] at hi)
  have hhas := hasInterpreter_eq (p := Pipeline.build subops) (by rwa [build_suboperators])
  rw [Step.run, Interpreters.interpret, Step.picks, Step.event, build_suboperators, hhas]
  cases hinterpreted : isInterpreted op with
  | false =>
    rw [hspec.skipped k op hop hinterpreted]
    rfl
  | true =>
    obtain ⟨offset, layout, hlayout, hoffset, hinterpreter⟩ :=
      hspec.interpreted k op hop hinterpreted
    obtain ⟨rfl, _⟩ :=
      (interpretedLayout_iff h hop (outgoing_of_interpreted hinterpreted)).mp hlayout
    rw [hoffset, Option.join_some, Option.bind_some, hinterpreter]
    simp only [Bool.true_and, if_true]
    rw [Interpreter.run, interpreterLayout, pickMorsel_eq (Nat.lt_succ_self k)]
    cases isTableScanAt (Pipeline.build subops) k && !isFirstInterpreter subops k with
    | true => rfl
    | false => cases rangePick (Pipeline.build subops) k (k + 1) <;> rfl

end Steps

section Morsel

variable {l : Layout} {i : Interpreters IU} {events : List (Event IU)}

def mainSteps (p : Pipeline IU) (isVoid : IU → Bool) (l : Layout) : List (Step IU) :=
  .compiled (stateOf p isVoid (0, l.lead)) ::
    schedule l.lead l.guards ((behindGuards l.lead l.guards).map (stateOf p isVoid))

def eventsOf (p : Pipeline IU) (isVoid : IU → Bool) (steps : List (Step IU)) : List (Event IU) :=
  steps.flatMap fun step =>
    ((step.picks p).getD []).map .picked ++ (step.event p isVoid).toList

theorem map_stateOf (p : Pipeline IU) (isVoid : IU → Bool) (parts : List (ℕ × ℕ)) :
    (parts.map (stateOf p isVoid)).map (fun state => (state.start, state.stop)) = parts := by
  rw [List.map_map]
  exact List.map_id parts

theorem mem_mainSteps {p : Pipeline IU} {step : Step IU} :
    step ∈ mainSteps p isVoid l ↔
      (∃ part ∈ l.inside, ∃ k, (part.1 ≤ k ∧ k < part.2) ∧ step = .interpret k) ∨
        ∃ part ∈ l.outside, step = .compiled (stateOf p isVoid part) := by
  rw [mainSteps, List.mem_cons, mem_schedule _ (map_stateOf p isVoid _), Layout.outside,
    Layout.inside]
  simp only [List.mem_cons, exists_eq_or_imp, List.mem_map, exists_exists_and_eq_and]
  rw [or_left_comm]

theorem Layout.outside_within {part : ℕ × ℕ} (h : part ∈ l.outside) :
    part.2 ≤ l.lead + total l.guards := by
  rcases List.mem_cons.mp h with rfl | h
  · exact Nat.le_add_right ..
  · exact (behindGuards_within h).2

theorem step_run (isVoid : IU → Bool) (h : Wired subops)
    (hsize : subops.length = l.lead + total l.guards)
    (hi : setUpInterpreted (Pipeline.build subops) isVoid hasFragment = some i)
    (hparts : ∀ part ∈ l.outside, part.1 < part.2) :
    ∀ step ∈ mainSteps (Pipeline.build subops) isVoid l, step.run (Pipeline.build subops) i =
      (step.picks (Pipeline.build subops)).map fun picks =>
        picks.map .picked ++ (step.event (Pipeline.build subops) isVoid).toList := by
  intro step hstep
  rcases mem_mainSteps.mp hstep with ⟨part, hpart, k, hk, rfl⟩ | ⟨part, hpart, rfl⟩
  · have := (insideGuards_within hpart).2
    exact interpret_run h hi (by omega)
  · exact compiled_run (hparts part hpart)

/-- A morsel runs when every step can pick, and then all of its events are known. -/
theorem runROFMorsel_iff (h : Wired subops) (hsize : subops.length = l.lead + total l.guards)
    (hi : setUpInterpreted (Pipeline.build subops) isVoid hasFragment = some i)
    (hparts : ∀ part ∈ l.outside, part.1 < part.2) :
    runROFMorsel (Pipeline.build subops) i
        (l.outside.map (stateOf (Pipeline.build subops) isVoid)) = some events ↔
      (∀ step ∈ mainSteps (Pipeline.build subops) isVoid l,
        ∃ picks, step.picks (Pipeline.build subops) = some picks) ∧
      events = eventsOf (Pipeline.build subops) isVoid
        (mainSteps (Pipeline.build subops) isVoid l) := by
  have hrun := step_run isVoid h hsize hi hparts
  rw [Layout.outside, List.map_cons, runROFMorsel_eq (l := l) (by rw [build_suboperators, hsize])
    rfl (map_stateOf _ _ _) (Layout.outside_nonempty_iff.mp hparts).2, runSteps_eq_some]
  have hall : (∀ step ∈ mainSteps (Pipeline.build subops) isVoid l,
        ∃ es, step.run (Pipeline.build subops) i = some es) ↔
      ∀ step ∈ mainSteps (Pipeline.build subops) isVoid l,
        ∃ picks, step.picks (Pipeline.build subops) = some picks := by
    refine forall₂_congr fun step hstep => ?_
    rw [hrun step hstep]
    cases step.picks (Pipeline.build subops) <;> simp
  show (∀ step ∈ mainSteps (Pipeline.build subops) isVoid l, _) ∧
    events = List.flatMap _ (mainSteps (Pipeline.build subops) isVoid l) ↔ _
  rw [hall]
  refine and_congr_right fun hpicks => ?_
  rw [eventsOf, List.flatMap_congr fun step hstep => ?_]
  obtain ⟨picks, hpick⟩ := hpicks step hstep
  rw [hrun step hstep, hpick]
  rfl

def IsRun (p : Pipeline IU) (l : Layout) (range : ℕ × ℕ) : Prop :=
  range ∈ l.outside ∨ ∃ part ∈ l.inside, ∃ k, (part.1 ≤ k ∧ k < part.2) ∧
    hasInterpreter p k = true ∧ range = (k, k + 1)

/-- One source of rows: the fuse chunk, or the first suboperator. -/
def OneSource (p : Pipeline IU) (range : ℕ × ℕ) : Prop :=
  rangeLoops p range.1 range.2 = [.fuseChunkSourceDriver] ∨
    rangeLoops p range.1 range.2 = [.shared 0]

structure RunOf (p : Pipeline IU) (event : Event IU) (part : ℕ × ℕ) : Prop where
  range : event.range = part
  executed : event.executed = keptAt p part.1 part.2
  loops : event.loops p ↔ OneSource p part

theorem runOf_compiled (p : Pipeline IU) (isVoid : IU → Bool) (part : ℕ × ℕ) :
    RunOf p (.compiled part.1 part.2 (partLayout p isVoid part.1 part.2)) part := by
  refine ⟨rfl, sharedSubops_rangeLayout, ?_⟩
  rw [Event.loops, partLayout, loopSources_rangeLayout]
  rfl

theorem runOf_interpreted (p : Pipeline IU) (isVoid : IU → Bool) (k : ℕ) :
    RunOf p (.interpreted k (interpreterLayout p isVoid k)) (k, k + 1) := by
  refine ⟨rfl, sharedSubops_rangeLayout, ?_⟩
  rw [Event.loops, interpreterLayout, loopSources_rangeLayout]
  rfl

/-- What happens in a morsel, besides picking, are the runs of its ranges. -/
theorem run_of_mem {p : Pipeline IU} {event : Event IU}
    (hevent : event ∈ eventsOf p isVoid (mainSteps p isVoid l)) :
    (∃ source, event = .picked source) ∨ ∃ range, IsRun p l range ∧ RunOf p event range := by
  obtain ⟨step, hstep, hevent⟩ := List.mem_flatMap.mp hevent
  rcases List.mem_append.mp hevent with hpick | hrun
  · obtain ⟨source, _, rfl⟩ := List.mem_map.mp hpick
    exact .inl ⟨source, rfl⟩
  · right
    rw [Option.mem_toList] at hrun
    rcases mem_mainSteps.mp hstep with ⟨part, hpart, k, hk, rfl⟩ | ⟨part, hpart, rfl⟩
    · rw [Step.event] at hrun
      split at hrun
      · rename_i hinterpreter
        cases hrun
        exact ⟨_, .inr ⟨part, hpart, k, hk, hinterpreter, rfl⟩, runOf_interpreted p isVoid k⟩
      · cases hrun
    · cases hrun
      exact ⟨part, .inl hpart, runOf_compiled p isVoid part⟩

theorem mem_of_run (isVoid : IU → Bool) {p : Pipeline IU} {range : ℕ × ℕ}
    (hrange : IsRun p l range) :
    ∃ event ∈ eventsOf p isVoid (mainSteps p isVoid l), RunOf p event range := by
  have hmem : ∀ {step : Step IU} {event : Event IU}, step ∈ mainSteps p isVoid l →
      step.event p isVoid = some event → event ∈ eventsOf p isVoid (mainSteps p isVoid l) :=
    fun hstep hevent => List.mem_flatMap.mpr ⟨_, hstep, List.mem_append_right _
      (by rw [hevent]; exact List.mem_singleton_self _)⟩
  rcases hrange with hpart | ⟨part, hpart, k, hk, hinterpreter, rfl⟩
  · exact ⟨_, hmem (mem_mainSteps.mpr (.inr ⟨range, hpart, rfl⟩)) rfl,
      runOf_compiled p isVoid range⟩
  · exact ⟨_, hmem (mem_mainSteps.mpr (.inl ⟨part, hpart, k, hk, rfl⟩)) (if_pos hinterpreter),
      runOf_interpreted p isVoid k⟩

theorem executed_eventsOf (p : Pipeline IU) (isVoid : IU → Bool) (steps : List (Step IU)) :
    (eventsOf p isVoid steps).flatMap (·.executed) =
      steps.flatMap fun step => (step.event p isVoid).toList.flatMap (·.executed) := by
  rw [eventsOf, List.flatMap_assoc]
  refine List.flatMap_congr fun step _ => ?_
  have hpicks : ((((step.picks p).getD []).map Event.picked).flatMap (·.executed)) = [] := by
    rw [List.flatMap_map]
    exact List.flatMap_eq_nil_iff.mpr fun _ _ => rfl
  rw [List.flatMap_append, hpicks, List.nil_append]

def Step.sharedPicks (p : Pipeline IU) (step : Step IU) : List ℕ :=
  ((step.picks p).getD []).filterMap fun source => Event.sharedPick (.picked source)

theorem sharedPick_eventsOf (p : Pipeline IU) (isVoid : IU → Bool) (steps : List (Step IU)) :
    (eventsOf p isVoid steps).filterMap (·.sharedPick) = steps.flatMap (·.sharedPicks p) := by
  induction steps with
  | nil => rfl
  | cons step steps ih =>
    have hevent : (step.event p isVoid).toList.filterMap Event.sharedPick = [] := by
      cases step with
      | compiled state => rfl
      | interpret k =>
        rw [Step.event]
        split <;> rfl
    rw [eventsOf] at ih
    rw [eventsOf, List.flatMap_cons, List.filterMap_append, List.filterMap_append, hevent,
      List.append_nil, ih, List.filterMap_map]
    rfl

end Morsel

section Links

variable {l : Layout} {j k : ℕ}

/-- A consumer of a strong link has no outgoing strong links itself. -/
theorem strongConsumer (h : Wired subops)
    (hj : strongProducer (Pipeline.build subops) k = some j) :
    k < subops.length ∧ hasOutgoing (Pipeline.build subops) k = false := by
  obtain ⟨op, iu, hop, hincoming, _⟩ := strongProducer_reads h hj
  refine ⟨(List.getElem?_eq_some_iff.mp hop).1, ?_⟩
  rw [hasOutgoing_eq (by rwa [build_suboperators])]
  cases op <;> first | rfl | cases hincoming

/-- What is not strongly linked is only executed by the runs that it belongs to. -/
theorem range_of_executed (h : Wired subops) {start stop : ℕ}
    (hk : k ∈ keptAt (Pipeline.build subops) start stop)
    (hout : hasOutgoing (Pipeline.build subops) k = false) : start ≤ k ∧ k < stop := by
  rcases mem_keptAt.mp hk with hk | hk
  · rw [(strongProducer_lt h hk).2] at hout
    cases hout
  · exact hk

/-- The part in front of the guards begins with the source of the pipeline. -/
theorem required_lead (h : Attached isVoid subops)
    (hsource : ∃ first ∈ subops.head?, first.isSource = true) (stop : ℕ) :
    strongProducer (Pipeline.build subops) 0 = none ∧
      requiredAt (Pipeline.build subops) 0 stop = [] := by
  have hstrong : strongProducer (Pipeline.build subops) 0 = none := by
    rw [Option.eq_none_iff_forall_not_mem]
    intro j hj
    have := (strongProducer_lt h.wired hj).1
    omega
  obtain ⟨first, hfirst, hsource⟩ := hsource
  rw [Option.mem_def, List.head?_eq_getElem?] at hfirst
  refine ⟨hstrong, List.eq_nil_iff_forall_not_mem.mpr fun iu hiu => ?_⟩
  have hexternal : iu ∈ externalIUs subops (keptAt (Pipeline.build subops) 0 stop) := by
    rw [requiredAt_eq hfirst, Pipeline.hackfix] at hiu
    split at hiu
    · rename_i hmaterialize
      cases first with
      | materializeTuple input inputs ius => cases hsource
      | _ => cases hmaterialize
    · exact hiu
  obtain ⟨⟨k, hk, hread⟩, hnot⟩ := mem_externalIUs.mp hexternal
  have hk : 0 ≤ k ∧ k < stop := by
    rcases mem_keptAt.mp hk with hk | hk
    · rw [hstrong] at hk
      cases hk
    · exact hk
  obtain ⟨j, hjk, hj, _⟩ := h.provided k iu hread
  exact hnot (List.mem_flatMap.mpr ⟨j, mem_keptAt.mpr (.inr (by omega)), hj⟩)

end Links

section Safe

variable {l : Layout} {k : ℕ}

omit [DecidableEq IU] in
theorem isSource_of_isLoopSource {op : Suboperator IU} (h : isLoopSource op = true) :
    op.isSource = true := by
  cases op <;> first | rfl | cases h

/-- What is interpreted and strongly linked to the source is a table scan. -/
theorem scan_of_strong (h : Attached isVoid subops)
    (hloop : isLoopSourceAt (Pipeline.build subops) 0 = true)
    (hinterpreter : hasInterpreter (Pipeline.build subops) k = true)
    (hstrong : strongProducer (Pipeline.build subops) k = some 0) :
    isTableScanAt (Pipeline.build subops) k = true ∧
      requiredAt (Pipeline.build subops) k (k + 1) = [] := by
  obtain ⟨op, iu, hop, hincoming, hhead, hiu⟩ := strongProducer_reads h.wired hstrong
  obtain ⟨source, hsource, hisLoop⟩ : ∃ source, subops[0]? = some source ∧
      isLoopSource source = true := by
    rw [isLoopSourceAt, build_suboperators] at hloop
    exact (Option.any_eq_true _ _).mp hloop
  have hscan : ∃ driverIU producedIU, op = .tscanIUProvider driverIU producedIU := by
    cases op with
    | tscanIUProvider driverIU producedIU => exact ⟨_, _, rfl⟩
    | fuseChunkSourceIUProvider driverIU producedIU =>
      rw [hasInterpreter_eq (by rwa [build_suboperators])] at hinterpreter
      cases hinterpreter
    | columnFilterLogic pseudo incoming redefined =>
      -- the pseudo IU comes from a scope
      obtain ⟨s, _, filterIU, hscope, _⟩ := h.scopeOf hop
      obtain rfl := Option.some.inj hhead
      have hs : pseudo ∈ iusAt subops s :=
        mem_iusAt.mpr ⟨_, hscope, List.mem_singleton_self _⟩
      obtain rfl := h.wired.provider_eq hs hiu
      rw [hsource, Option.some_inj] at hscope
      subst hscope
      cases hisLoop
    | _ => cases hincoming
  obtain ⟨driverIU, producedIU, rfl⟩ := hscan
  obtain rfl := Option.some.inj hhead
  refine ⟨by rw [isTableScanAt, build_suboperators, hop], ?_⟩
  rw [requiredAt_eq hop]
  refine List.eq_nil_iff_forall_not_mem.mpr fun iu hmem => ?_
  obtain ⟨⟨j, hj, hread⟩, hnot⟩ := mem_externalIUs.mp hmem
  rcases mem_keptAt.mp hj with hj | hj
  · rw [hstrong, Option.some_inj] at hj
    subst hj
    rw [sourceIUsAt_eq hsource,
      List.isEmpty_iff.mp (isSource_of_isLoopSource hisLoop)] at hread
    cases hread
  · obtain rfl : j = k := by omega
    rw [sourceIUsAt_eq hop] at hread
    obtain rfl := List.mem_singleton.mp hread
    exact hnot (List.mem_flatMap.mpr ⟨0, mem_keptAt.mpr (.inl hstrong), hiu⟩)

/-- Each step executes what it is for. -/
theorem step_executes (isVoid : IU → Bool)
    (hinside : ∀ part ∈ l.inside, ∀ k, part.1 ≤ k → k < part.2 →
      hasOutgoing (Pipeline.build subops) k = true ∨
        hasInterpreter (Pipeline.build subops) k = true) (hwired : Wired subops) :
    ∀ step ∈ mainSteps (Pipeline.build subops) isVoid l,
      ((step.event (Pipeline.build subops) isVoid).toList.flatMap (·.executed)).filter
          (fun k => !hasOutgoing (Pipeline.build subops) k) =
        step.range.filter fun k => !hasOutgoing (Pipeline.build subops) k := by
  have hkept : ∀ start stop, (keptAt (Pipeline.build subops) start stop).filter
      (fun k => !hasOutgoing (Pipeline.build subops) k) =
        (List.range' start (stop - start)).filter
          fun k => !hasOutgoing (Pipeline.build subops) k := by
    intro start stop
    rw [keptAt, kept, List.filter_append]
    cases hstrong : strongProducer (Pipeline.build subops) start with
    | none => rfl
    | some j =>
      have hout := (strongProducer_lt hwired hstrong).2
      rw [Option.toList_some, List.filter_cons_of_neg (by rw [hout]; exact Bool.false_ne_true)]
      rfl
  intro step hstep
  rcases mem_mainSteps.mp hstep with ⟨part, hpart, k, hk, rfl⟩ | ⟨part, hpart, rfl⟩
  · by_cases hinterpreter : hasInterpreter (Pipeline.build subops) k = true
    · rw [Step.event, if_pos hinterpreter, Option.toList_some, List.flatMap_singleton,
        (runOf_interpreted _ isVoid k).executed, hkept, Nat.add_sub_cancel_left]
      rfl
    · have hout := (hinside part hpart k hk.1 hk.2).resolve_right hinterpreter
      rw [Step.event, if_neg hinterpreter, Step.range,
        List.filter_cons_of_neg (by rw [hout]; exact Bool.false_ne_true)]
      rfl
  · rw [Step.event, Option.toList_some, List.flatMap_singleton]
    show (Event.executed (.compiled part.1 part.2 (partLayout _ isVoid part.1 part.2))).filter _ = _
    rw [(runOf_compiled _ isVoid part).executed, hkept]
    rfl

variable (h : Attached isVoid subops) (hsize : subops.length = l.lead + total l.guards)
  (hsafe : RofSafe isVoid hasFragment (Pipeline.build subops) l)
include h hsize hsafe

omit h in
theorem safe_source : ∃ first ∈ subops.head?, first.isSource = true := by
  have hlead := hsafe.lead
  have hloop := (hsafe.source 0 (by rw [build_suboperators]; omega)).mpr rfl
  rw [isLoopSourceAt, build_suboperators] at hloop
  obtain ⟨source, hsource, hisLoop⟩ := (Option.any_eq_true _ _).mp hloop
  exact ⟨source, by rwa [Option.mem_def, List.head?_eq_getElem?],
    isSource_of_isLoopSource hisLoop⟩

omit hsize in
/-- A range behind the source that requires a column runs on a fuse chunk. -/
theorem safe_onChunk {start stop : ℕ} (hstart : 0 < start) (hlt : start < stop)
    (hstop : stop ≤ subops.length)
    (hstrong : strongProducer (Pipeline.build subops) start ≠ some 0)
    (hrequired : requiredAt (Pipeline.build subops) start stop ≠ []) :
    OnChunk (Pipeline.build subops) start stop := by
  refine ⟨hrequired, fun k hk => ?_⟩
  by_contra hloop
  rw [Bool.not_eq_false] at hloop
  have hlength := keptAt_lt h.wired hlt hstop hk
  obtain rfl := (hsafe.source k (by rwa [build_suboperators])).mp hloop
  rcases mem_keptAt.mp hk with hk | hk
  · exact hstrong hk
  · omega

/-- The first part picks from the source of the pipeline. -/
theorem safe_lead :
    rangePick (Pipeline.build subops) 0 l.lead = some (.shared 0) ∧
      rangeLoops (Pipeline.build subops) 0 l.lead = [.shared 0] := by
  obtain ⟨hstrong, hrequired⟩ := required_lead h (safe_source hsize hsafe) l.lead
  have hlead := hsafe.lead
  have hsource : ∀ k < l.lead, isLoopSourceAt (Pipeline.build subops) k = true ↔ k = 0 :=
    fun k hk => hsafe.source k (by rw [build_suboperators]; omega)
  have hfilter : (keptAt (Pipeline.build subops) 0 l.lead).filter
      (isLoopSourceAt (Pipeline.build subops)) = [0] := by
    obtain ⟨n, hn⟩ : ∃ n, l.lead = n + 1 := ⟨l.lead - 1, by omega⟩
    have hrest : (List.range' 1 n).filter (isLoopSourceAt (Pipeline.build subops)) = [] := by
      refine List.filter_eq_nil_iff.mpr fun k hk => ?_
      have hk := List.mem_range'_1.mp hk
      rw [hsource k (by omega)]
      omega
    rw [keptAt, hstrong, kept, hn, Nat.sub_zero, List.range'_succ]
    show (0 :: List.range' 1 n).filter _ = _
    rw [List.filter_cons_of_pos ((hsource 0 hlead).mpr rfl), hrest]
  refine ⟨?_, ?_⟩
  · rw [rangePick, if_pos hrequired, hstrong]
    exact if_pos ((hsource 0 hlead).mpr rfl)
  · rw [rangeLoops, if_pos hrequired, hfilter]
    rfl

theorem safe_behind {part : ℕ × ℕ} (hpart : part ∈ behindGuards l.lead l.guards) :
    OnChunk (Pipeline.build subops) part.1 part.2 := by
  have hlead := hsafe.lead
  have hmem : part ∈ l.outside := List.mem_cons_of_mem _ hpart
  have hwithin := behindGuards_within hpart
  have hlt := Layout.outside_nonempty_iff.mpr ⟨hlead, fun g hg => (hsafe.guards g hg).2⟩ part hmem
  obtain ⟨hstrong, hrequired⟩ := (hsafe.parts part hmem).input (by omega)
  exact safe_onChunk h hsafe (by omega) hlt (by omega) hstrong hrequired

/-- An interpreter runs on a fuse chunk, or scans the morsel of the first interpreter. -/
theorem safe_interpreter {part : ℕ × ℕ} (hpart : part ∈ l.inside) (hk : part.1 ≤ k ∧ k < part.2)
    (hinterpreter : hasInterpreter (Pipeline.build subops) k = true) :
    OnChunk (Pipeline.build subops) k (k + 1) ∨
      (isTableScanAt (Pipeline.build subops) k = true ∧
        isFirstInterpreter subops k = false) ∧
      rangeLoops (Pipeline.build subops) k (k + 1) = [.shared 0] := by
  have hlead := hsafe.lead
  have hwithin := insideGuards_within hpart
  have hpicks := (hsafe.inside part hpart k hk.1 hk.2).picks hinterpreter
  have hsource : ∀ k < subops.length, isLoopSourceAt (Pipeline.build subops) k = true ↔ k = 0 :=
    fun k hk => hsafe.source k (by rwa [build_suboperators])
  split at hpicks
  · rename_i hstrong
    right
    obtain ⟨j, hjk, hj⟩ := hpicks
    obtain ⟨hscan, hrequired⟩ := scan_of_strong h ((hsource 0 (by omega)).mpr rfl)
      hinterpreter hstrong
    refine ⟨⟨hscan, isFirstInterpreter_eq_false.mpr ⟨j, hjk, hj⟩⟩, ?_⟩
    · have hkept : keptAt (Pipeline.build subops) k (k + 1) = [0, k] := by
        rw [keptAt, hstrong, kept, Nat.add_sub_cancel_left]
        rfl
      have hnot : ¬ isLoopSourceAt (Pipeline.build subops) k = true := by
        rw [hsource k (by omega)]
        omega
      rw [rangeLoops, if_pos hrequired, hkept,
        List.filter_cons_of_pos ((hsource 0 (by omega)).mpr rfl), List.filter_cons_of_neg hnot]
      rfl
  · rename_i hstrong
    exact .inl (safe_onChunk h hsafe (by omega) (Nat.lt_succ_self k) (by omega) hstrong
      hpicks)

theorem safe_oneSource {range : ℕ × ℕ} (hrange : IsRun (Pipeline.build subops) l range) :
    OneSource (Pipeline.build subops) range := by
  rcases hrange with hpart | ⟨part, hpart, k, hk, hinterpreter, rfl⟩
  · rcases List.mem_cons.mp hpart with rfl | hpart
    · exact .inr (safe_lead h hsize hsafe).2
    · exact .inl (safe_behind h hsize hsafe hpart).loops
  · rcases safe_interpreter h hsize hsafe hpart hk hinterpreter with hchunk | ⟨_, hloops⟩
    · exact .inl hchunk.loops
    · exact .inr hloops

/-- Behind the first part, only fuse chunks are picked from. -/
theorem safe_schedule :
    ∀ step ∈ schedule l.lead l.guards ((behindGuards l.lead l.guards).map
        (stateOf (Pipeline.build subops) isVoid)),
      (∃ picks, step.picks (Pipeline.build subops) = some picks) ∧
        step.sharedPicks (Pipeline.build subops) = [] := by
  have hpick : ∀ {step : Step IU} (picks : List (Repiped IU)),
      step.picks (Pipeline.build subops) = some picks →
      (∀ source ∈ picks, source = .fuseChunkSourceDriver) →
      (∃ picks, step.picks (Pipeline.build subops) = some picks) ∧
        step.sharedPicks (Pipeline.build subops) = [] := by
    intro step picks hpicks hdriver
    refine ⟨⟨picks, hpicks⟩, ?_⟩
    rw [Step.sharedPicks, hpicks, Option.getD_some, List.filterMap_eq_nil_iff]
    intro source hsource
    rw [hdriver source hsource]
    rfl
  intro step hstep
  rcases (mem_schedule _ (map_stateOf _ _ _)).mp hstep with
    ⟨part, hpart, k, hk, rfl⟩ | ⟨state, hstate, rfl⟩
  · by_cases hpicks : (hasInterpreter (Pipeline.build subops) k &&
        !(isTableScanAt (Pipeline.build subops) k && !isFirstInterpreter subops k)) = true
    · rw [Bool.and_eq_true, Bool.not_eq_true'] at hpicks
      rcases safe_interpreter h hsize hsafe hpart hk hpicks.1 with hchunk | ⟨⟨hscan, hfirst⟩, _⟩
      · refine hpick [.fuseChunkSourceDriver] ?_ (by simp)
        rw [Step.picks, build_suboperators, hpicks.1, hpicks.2, hchunk.pick]
        rfl
      · rw [hscan, hfirst] at hpicks
        cases hpicks.2
    · refine hpick [] ?_ (by simp)
      rw [Step.picks, build_suboperators, if_neg hpicks]
  · obtain ⟨part, hpart, rfl⟩ := List.mem_map.mp hstate
    refine hpick [.fuseChunkSourceDriver] ?_ (by simp)
    rw [Step.picks, stateOf, (safe_behind h hsize hsafe hpart).pick]
    rfl

theorem safe_picks :
    (∀ step ∈ mainSteps (Pipeline.build subops) isVoid l,
      ∃ picks, step.picks (Pipeline.build subops) = some picks) ∧
    (mainSteps (Pipeline.build subops) isVoid l).flatMap
      (·.sharedPicks (Pipeline.build subops)) = [0] := by
  have hschedule := safe_schedule h hsize hsafe
  have hpick : (Step.compiled (stateOf (Pipeline.build subops) isVoid (0, l.lead))).picks
      (Pipeline.build subops) = some [.shared 0] := by
    rw [Step.picks, stateOf, (safe_lead h hsize hsafe).1]
    rfl
  rw [mainSteps, List.forall_mem_cons, List.flatMap_cons, Step.sharedPicks, hpick,
    List.flatMap_eq_nil_iff.mpr fun step hstep => (hschedule step hstep).2]
  exact ⟨⟨⟨_, rfl⟩, fun step hstep => (hschedule step hstep).1⟩, rfl⟩

/-- What has outgoing strong links is in a part that is compiled, or fused into its consumers. -/
theorem safe_strong (hk : k < subops.length)
    (hout : hasOutgoing (Pipeline.build subops) k = true) :
    (∃ event ∈ eventsOf (Pipeline.build subops) isVoid
        (mainSteps (Pipeline.build subops) isVoid l), event.range.1 ≤ k ∧ k < event.range.2) ∨
      FusedIntoConsumers (Pipeline.build subops) (eventsOf (Pipeline.build subops) isVoid
        (mainSteps (Pipeline.build subops) isVoid l)) k := by
  rw [hsize] at hk
  rcases Layout.cover hk with ⟨part, hpart, hin⟩ | ⟨part, hpart, hin⟩
  · obtain ⟨hconsumer, hconsumers⟩ := (hsafe.inside part hpart k hin.1 hin.2).fused hout
    refine .inr ⟨hconsumer, fun j hj => ?_⟩
    obtain ⟨hjlt, hjout⟩ := strongConsumer h.wired hj
    rw [hsize] at hjlt
    have hrun : ∃ range, IsRun (Pipeline.build subops) l range ∧
        j ∈ keptAt (Pipeline.build subops) range.1 range.2 ∧
        k ∈ keptAt (Pipeline.build subops) range.1 range.2 := by
      rcases Layout.cover hjlt with ⟨other, hother, hinj⟩ | ⟨other, hother, hinj⟩
      · have hinterpreter := (hsafe.inside other hother j hinj.1 hinj.2).interpreted.resolve_left
          (by rw [hjout]; exact Bool.false_ne_true)
        exact ⟨(j, j + 1), .inr ⟨other, hother, j, hinj, hinterpreter, rfl⟩,
          mem_keptAt.mpr (.inr ⟨le_refl j, Nat.lt_succ_self j⟩), mem_keptAt.mpr (.inl hj)⟩
      · exact ⟨other, .inl hother, mem_keptAt.mpr (.inr hinj),
          mem_keptAt.mpr (.inl (hconsumers j hj other hother hinj.1 hinj.2))⟩
    obtain ⟨range, hrange, hjkept, hkkept⟩ := hrun
    obtain ⟨event, hevent, hrunOf⟩ := mem_of_run isVoid hrange
    refine ⟨event, hevent, ?_⟩
    rw [hrunOf.executed]
    exact ⟨hjkept, hkkept⟩
  · obtain ⟨event, hevent, hrunOf⟩ := mem_of_run isVoid (.inl hpart)
    exact .inl ⟨event, hevent, by rwa [hrunOf.range]⟩

theorem covers_of_safe : CoversPipeline (Pipeline.build subops) l.outside
    (eventsOf (Pipeline.build subops) isVoid (mainSteps (Pipeline.build subops) isVoid l)) := by
  have hranges : (mainSteps (Pipeline.build subops) isVoid l).flatMap Step.range =
      List.range subops.length := by
    rw [mainSteps, List.flatMap_cons, schedule_range _ (map_stateOf _ _ _), hsize,
      List.range_eq_range', ← List.range'_append_1, Nat.zero_add]
    rfl
  have hexecutes := step_executes (l := l) isVoid
    (fun part hpart k hle hlt => (hsafe.inside part hpart k hle hlt).interpreted) h.wired
  refine ⟨Layout.outside_nonempty_iff.mpr ⟨hsafe.lead, fun g hg => (hsafe.guards g hg).2⟩,
    ⟨_, _, rfl⟩, ?_, ?_, ?_, ?_, ?_⟩
  · rw [executed_eventsOf, List.filter_flatMap, List.flatMap_congr hexecutes,
      ← List.filter_flatMap, hranges, build_suboperators]
  · intro event hevent k hk
    rcases run_of_mem hevent with ⟨source, rfl⟩ | ⟨range, _, hrun⟩
    · cases hk
    · rw [hrun.executed] at hk
      rw [hrun.range]
      rcases mem_keptAt.mp hk with hk | hk
      · exact .inr (strongProducer_lt h.wired hk).2
      · exact .inl hk
  · intro k hk hout
    rw [build_suboperators] at hk
    exact safe_strong h hsize hsafe hk hout
  · rw [sharedPick_eventsOf]
    exact (safe_picks h hsize hsafe).2
  · intro event hevent
    rcases run_of_mem hevent with ⟨source, rfl⟩ | ⟨range, hrange, hrun⟩
    · trivial
    · exact hrun.loops.mpr (safe_oneSource h hsize hsafe hrange)

end Safe

section Covered

variable {l : Layout} {i : Interpreters IU} {k : ℕ}

theorem required_of_pick {p : Pipeline IU} {start stop : ℕ} {source : Repiped IU}
    (hpick : rangePick p start stop = some source)
    (hshared : Event.sharedPick (.picked source) = none) : requiredAt p start stop ≠ [] := by
  intro hrequired
  rw [rangePick, if_pos hrequired] at hpick
  split at hpick
  · cases hpick
    cases hshared
  · cases hpick

variable (h : Attached isVoid subops) (hsize : subops.length = l.lead + total l.guards)
  (hsource : ∃ first ∈ subops.head?, first.isSource = true)
  (hpicks : ∀ step ∈ mainSteps (Pipeline.build subops) isVoid l,
    ∃ picks, step.picks (Pipeline.build subops) = some picks)
  (hcovers : CoversPipeline (Pipeline.build subops) l.outside
    (eventsOf (Pipeline.build subops) isVoid (mainSteps (Pipeline.build subops) isVoid l)))

include hcovers in
theorem covered_oneSource {range : ℕ × ℕ} (hrange : IsRun (Pipeline.build subops) l range) :
    OneSource (Pipeline.build subops) range := by
  obtain ⟨event, hevent, hrun⟩ := mem_of_run isVoid hrange
  exact hrun.loops.mp (hcovers.loops event hevent)

include h hsource hcovers in
/-- The first part runs over a morsel of the first suboperator. -/
theorem covered_lead : isLoopSourceAt (Pipeline.build subops) 0 = true ∧
    rangePick (Pipeline.build subops) 0 l.lead = some (.shared 0) := by
  obtain ⟨hstrong, hrequired⟩ := required_lead h hsource l.lead
  have hloops := covered_oneSource hcovers (.inl List.mem_cons_self)
  have hloop := (source_of_required_nil hrequired hloops).2
  refine ⟨hloop, ?_⟩
  rw [rangePick, if_pos hrequired, hstrong]
  exact if_pos hloop

include h hsource hcovers in
/-- No other morsel is picked. -/
theorem covered_schedule :
    ∀ step ∈ schedule l.lead l.guards ((behindGuards l.lead l.guards).map
        (stateOf (Pipeline.build subops) isVoid)),
      step.sharedPicks (Pipeline.build subops) = [] := by
  have hpicked := hcovers.picked
  have hfirst : (Step.compiled (stateOf (Pipeline.build subops) isVoid (0, l.lead))).sharedPicks
      (Pipeline.build subops) = [0] := by
    rw [Step.sharedPicks, Step.picks, stateOf, (covered_lead h hsource hcovers).2]
    rfl
  rw [sharedPick_eventsOf, mainSteps, List.flatMap_cons, hfirst] at hpicked
  exact List.flatMap_eq_nil_iff.mp (List.cons.inj hpicked).2

include h hsource hpicks hcovers in
theorem covered_behind {part : ℕ × ℕ} (hpart : part ∈ behindGuards l.lead l.guards) :
    OnChunk (Pipeline.build subops) part.1 part.2 := by
  have hmem : part ∈ l.outside := List.mem_cons_of_mem _ hpart
  obtain ⟨picks, hpick⟩ := hpicks _ (mem_mainSteps.mpr (.inr ⟨part, hmem, rfl⟩))
  have hshared := covered_schedule h hsource hcovers _
    ((mem_schedule _ (map_stateOf _ _ _)).mpr (.inr ⟨_, List.mem_map_of_mem hpart, rfl⟩))
  obtain ⟨source, hsourcePick, rfl⟩ := Option.map_eq_some_iff.mp hpick
  rw [Step.sharedPicks, hpick, Option.getD_some, List.filterMap_eq_nil_iff] at hshared
  exact onChunk_of_loops
    (required_of_pick hsourcePick (hshared source (List.mem_singleton_self _)))
    (covered_oneSource hcovers (.inl hmem))

include h hsource hpicks hcovers in
/-- An interpreter runs on a fuse chunk, or scans the morsel of the first interpreter. -/
theorem covered_interpreter {part : ℕ × ℕ} (hpart : part ∈ l.inside)
    (hk : part.1 ≤ k ∧ k < part.2)
    (hinterpreter : hasInterpreter (Pipeline.build subops) k = true) :
    OnChunk (Pipeline.build subops) k (k + 1) ∨ isFirstInterpreter subops k = false := by
  obtain ⟨picks, hpick⟩ := hpicks _ (mem_mainSteps.mpr (.inl ⟨part, hpart, k, hk, rfl⟩))
  have hshared := covered_schedule h hsource hcovers _
    ((mem_schedule _ (map_stateOf _ _ _)).mpr (.inl ⟨part, hpart, k, hk, rfl⟩))
  rw [Step.sharedPicks, hpick, Option.getD_some, List.filterMap_eq_nil_iff] at hshared
  rw [Step.picks, build_suboperators, hinterpreter, Bool.true_and] at hpick
  split at hpick
  · obtain ⟨source, hsourcePick, rfl⟩ := Option.map_eq_some_iff.mp hpick
    exact .inl (onChunk_of_loops
      (required_of_pick hsourcePick (hshared source (List.mem_singleton_self _)))
      (covered_oneSource hcovers (.inr ⟨part, hpart, k, hk, hinterpreter, rfl⟩)))
  · rename_i hscan
    right
    simp at hscan
    exact hscan.2

include hcovers in
/-- Everything is in the code of a run. -/
theorem covered_run (hk : k < subops.length) :
    ∃ range, IsRun (Pipeline.build subops) l range ∧
      k ∈ keptAt (Pipeline.build subops) range.1 range.2 := by
  have hexecuted : ∀ event ∈ eventsOf (Pipeline.build subops) isVoid
      (mainSteps (Pipeline.build subops) isVoid l), k ∈ event.executed →
      ∃ range, IsRun (Pipeline.build subops) l range ∧
        k ∈ keptAt (Pipeline.build subops) range.1 range.2 := by
    intro event hevent hmem
    rcases run_of_mem hevent with ⟨source, rfl⟩ | ⟨range, hrange, hrun⟩
    · cases hmem
    · rw [hrun.executed] at hmem
      exact ⟨range, hrange, hmem⟩
  have hlength : k < (Pipeline.build subops).suboperators.length := by rwa [build_suboperators]
  cases hout : hasOutgoing (Pipeline.build subops) k with
  | false =>
    have hmem : k ∈ (List.range (Pipeline.build subops).suboperators.length).filter
        fun k => !hasOutgoing (Pipeline.build subops) k :=
      List.mem_filter.mpr ⟨List.mem_range.mpr hlength, by rw [hout]; rfl⟩
    rw [← hcovers.once, List.mem_filter, List.mem_flatMap] at hmem
    obtain ⟨⟨event, hevent, hmem⟩, _⟩ := hmem
    exact hexecuted event hevent hmem
  | true =>
    rcases hcovers.strong k hlength hout with ⟨event, hevent, hwithin⟩ | ⟨⟨j, hj⟩, hfused⟩
    · rcases run_of_mem hevent with ⟨source, rfl⟩ | ⟨range, hrange, hrun⟩
      · exact absurd hwithin.2 (Nat.not_lt_zero k)
      · rw [hrun.range] at hwithin
        exact ⟨range, hrange, mem_keptAt.mpr (.inr hwithin)⟩
    · obtain ⟨event, hevent, _, hmem⟩ := hfused j hj
      exact hexecuted event hevent hmem

include h hsource hcovers in
theorem covered_source (hk : k < subops.length) :
    isLoopSourceAt (Pipeline.build subops) k = true ↔ k = 0 := by
  constructor
  · intro hloop
    obtain ⟨range, hrange, hmem⟩ := covered_run hcovers hk
    exact source_of_loops hmem hloop (covered_oneSource hcovers hrange)
  · rintro rfl
    exact (covered_lead h hsource hcovers).1

omit [DecidableEq IU] in
/-- Inside of a guard, the only run for a suboperator is its interpreter. -/
theorem run_of_inside {p : Pipeline IU} {part range : ℕ × ℕ} (hpart : part ∈ l.inside)
    (hk : part.1 ≤ k ∧ k < part.2) (hrange : IsRun p l range)
    (hwithin : range.1 ≤ k ∧ k < range.2) : hasInterpreter p k = true := by
  rcases hrange with hother | ⟨_, _, j, _, hinterpreter, rfl⟩
  · exact absurd hwithin (Layout.inside_outside_disjoint hpart hother hk)
  · obtain rfl : k = j := by simpa [Nat.lt_succ_iff, le_antisymm_iff, and_comm] using hwithin
    exact hinterpreter

include h hsize hsource hpicks hcovers in
theorem covered_inside {part : ℕ × ℕ} (hpart : part ∈ l.inside) (hk : part.1 ≤ k ∧ k < part.2) :
    InsideSafe (Pipeline.build subops) l k := by
  have hlead := (Layout.outside_nonempty_iff.mp hcovers.nonempty).1
  have hwithin := insideGuards_within hpart
  have hloop := (covered_lead h hsource hcovers).1
  have hrunsOf : ∀ {range : ℕ × ℕ}, IsRun (Pipeline.build subops) l range →
      range.1 ≤ k ∧ k < range.2 → hasInterpreter (Pipeline.build subops) k = true :=
    fun hrange hin => run_of_inside hpart hk hrange hin
  refine ⟨?_, fun hinterpreter => ?_, fun hout => ?_⟩
  · cases hout : hasOutgoing (Pipeline.build subops) k with
    | true => exact .inl rfl
    | false =>
      obtain ⟨range, hrange, hmem⟩ := covered_run hcovers (k := k) (by omega)
      exact .inr (hrunsOf hrange (range_of_executed h.wired hmem hout))
  · split
    · rename_i hstrong
      apply isFirstInterpreter_eq_false.mp
      refine (covered_interpreter h hsource hpicks hcovers hpart hk hinterpreter).resolve_left
        fun hchunk => ?_
      rw [hchunk.sources 0 (mem_keptAt.mpr (.inl hstrong))] at hloop
      cases hloop
    · rename_i hstrong
      intro hrequired
      have hkept := (source_of_required_nil hrequired (covered_oneSource hcovers
        (.inr ⟨part, hpart, k, hk, hinterpreter, rfl⟩))).1
      rcases mem_keptAt.mp hkept with hkept | hkept
      · exact hstrong hkept
      · omega
  · have hnone : ¬ hasInterpreter (Pipeline.build subops) k = true := by
      intro hinterpreter
      rw [hasInterpreter] at hinterpreter
      obtain ⟨op, hop, hinterpreted⟩ := (Option.any_eq_true _ _).mp hinterpreter
      rw [hasOutgoing_eq hop] at hout
      rw [isInterpreted, hout] at hinterpreted
      cases hinterpreted
    have hlength : k < (Pipeline.build subops).suboperators.length := by
      rw [build_suboperators]
      omega
    rcases hcovers.strong k hlength hout with ⟨event, hevent, hin⟩ | ⟨hconsumer, hfused⟩
    · rcases run_of_mem hevent with ⟨source, rfl⟩ | ⟨range, hrange, hrun⟩
      · exact absurd hin.2 (Nat.not_lt_zero k)
      · rw [hrun.range] at hin
        exact absurd (hrunsOf hrange hin) hnone
    · refine ⟨hconsumer, fun j hj other hother hle hlt => ?_⟩
      obtain ⟨event, hevent, hjmem, hkmem⟩ := hfused j hj
      rcases run_of_mem hevent with ⟨source, rfl⟩ | ⟨range, hrange, hrun⟩
      · cases hjmem
      · rw [hrun.executed] at hjmem hkmem
        have hjin := range_of_executed h.wired hjmem (strongConsumer h.wired hj).2
        have hsame : range = other := by
          rcases hrange with hrange | ⟨inside, hinside, j', hj', _, rfl⟩
          · exact Layout.outside_disjoint hrange hother hjin ⟨hle, hlt⟩
          · obtain rfl : j = j' := by simp at hjin; omega
            exact absurd ⟨hle, hlt⟩ (Layout.inside_outside_disjoint hinside hother hj')
        subst hsame
        rcases mem_keptAt.mp hkmem with hkmem | hkmem
        · exact hkmem
        · exact absurd (hrunsOf hrange hkmem) hnone

include h hsize hsource hpicks hcovers in
theorem safe_of_covers (hguards : ∀ g ∈ l.guards, 2 ≤ g.1)
    (hsink : ∀ last ∈ subops.getLast?, last.isSink = true)
    (hi : setUpInterpreted (Pipeline.build subops) isVoid hasFragment = some i)
    (hlast : ∀ part ∈ l.outside, hasOutgoing (Pipeline.build subops) (part.2 - 1) = false)
    (hattached : ∀ part ∈ l.outside, attachCompileState (Pipeline.build subops) isVoid part =
      some (stateOf (Pipeline.build subops) isVoid part)) :
    RofSafe isVoid hasFragment (Pipeline.build subops) l := by
  have hparts := hcovers.nonempty
  obtain ⟨hlead, hbehind⟩ := Layout.outside_nonempty_iff.mp hparts
  refine ⟨hlead, fun g hg => ⟨hguards g hg, hbehind g hg⟩, fun k hk => ?_, ?_,
    fun k op hop hinterpreter => ?_, fun part hpart => ?_,
    fun part hpart k hle hlt => covered_inside h hsize hsource hpicks hcovers hpart ⟨hle, hlt⟩⟩
  · rw [build_suboperators] at hk
    exact covered_source h hsource hcovers hk
  · rwa [build_suboperators]
  · rw [hasInterpreter_eq hop] at hinterpreter
    rw [build_suboperators] at hop
    rw [setUpInterpreted, build_suboperators] at hi
    obtain ⟨_, layout, hlayout, _⟩ :=
      (setUpInterpreted_spec hi).interpreted k op hop hinterpreter
    exact ((interpretedLayout_iff h.wired hop (outgoing_of_interpreted hinterpreter)).mp
      hlayout).2
  · obtain ⟨_, hreads, hlogics, houtput⟩ := (attach_iff h (hparts part hpart)
      (hsize ▸ Layout.outside_within hpart) (hlast part hpart)).mp (hattached part hpart)
    refine ⟨hlast part hpart, by rwa [build_suboperators], hlogics,
      by rwa [build_suboperators], fun hstart => ?_⟩
    have hchunk : OnChunk (Pipeline.build subops) part.1 part.2 := by
      rcases List.mem_cons.mp hpart with rfl | hpart
      · exact absurd hstart (Nat.lt_irrefl 0)
      · exact covered_behind h hsource hpicks hcovers hpart
    refine ⟨fun hstrong => ?_, hchunk.required⟩
    have hloop := (covered_lead h hsource hcovers).1
    rw [hchunk.sources 0 (mem_keptAt.mpr (.inl hstrong))] at hloop
    cases hloop

end Covered

section Main

variable {steps : List (BuildStep IU)}

def subopsOf (steps : List (BuildStep IU)) : List (Suboperator IU) :=
  steps.flatMap fun
    | .attach subop => [subop]
    | .guarded subops => subops

theorem pipe_foldl (p : RofPipeline IU) (subops : List (Suboperator IU)) :
    (subops.foldl RofPipeline.attachSuboperator p).pipe =
      subops.foldl Pipeline.attachSuboperator p.pipe := by
  induction subops generalizing p with
  | nil => rfl
  | cons op ops ih => exact ih (p.attachSuboperator op)

/-- Guards do not change what is attached. -/
theorem ofSteps_pipe (steps : List (BuildStep IU)) :
    (RofPipeline.ofSteps steps).pipe = Pipeline.build (subopsOf steps) := by
  have hfold : ∀ p : RofPipeline IU, (steps.foldl RofPipeline.applyStep p).pipe =
      (subopsOf steps).foldl Pipeline.attachSuboperator p.pipe := by
    induction steps with
    | nil => exact fun _ => rfl
    | cons step steps ih =>
      intro p
      rw [List.foldl_cons, ih]
      cases step with
      | attach op => rfl
      | guarded ops =>
        have hclose : (p.applyStep (.guarded ops)).pipe =
            ops.foldl Pipeline.attachSuboperator p.pipe := by
          rw [RofPipeline.applyStep, RofPipeline.closeGuard, ← pipe_foldl]
          split <;> rfl
        rw [hclose, ← List.foldl_append]
        rfl
  exact hfold _

section Attach

variable {l : Layout} {states : List (CompileState IU)}

theorem attach_interval {p : Pipeline IU} {interval : ℕ × ℕ} {state : CompileState IU}
    (h : attachCompileState p isVoid interval = some state) :
    (state.start, state.stop) = interval := by
  rw [attachCompileState, Option.bind_eq_bind, Option.bind_eq_some_iff] at h
  obtain ⟨layout, _, h⟩ := h
  split at h
  · cases h
    rfl
  · cases h

theorem attach_all {p : Pipeline IU} {parts : List (ℕ × ℕ)}
    (h : parts.mapM (attachCompileState p isVoid) = some states) :
    states.map (fun state => (state.start, state.stop)) = parts ∧
      ∀ part ∈ parts, ∃ state ∈ states, attachCompileState p isVoid part = some state := by
  induction parts generalizing states with
  | nil =>
    cases h
    exact ⟨rfl, by simp⟩
  | cons part parts ih =>
    rw [List.mapM_cons, Option.bind_eq_bind, Option.bind_eq_some_iff] at h
    obtain ⟨state, hstate, h⟩ := h
    rw [Option.bind_eq_bind, Option.bind_eq_some_iff] at h
    obtain ⟨rest, hrest, h⟩ := h
    cases h
    obtain ⟨hmap, hall⟩ := ih hrest
    refine ⟨by rw [List.map_cons, hmap, attach_interval hstate], ?_⟩
    rw [List.forall_mem_cons]
    refine ⟨⟨state, List.mem_cons_self, hstate⟩, fun part hpart => ?_⟩
    obtain ⟨other, hother, hattach⟩ := hall part hpart
    exact ⟨other, List.mem_cons_of_mem _ hother, hattach⟩

theorem attach_map {p : Pipeline IU} {parts : List (ℕ × ℕ)}
    (h : ∀ part ∈ parts, attachCompileState p isVoid part = some (stateOf p isVoid part)) :
    parts.mapM (attachCompileState p isVoid) = some (parts.map (stateOf p isVoid)) := by
  induction parts with
  | nil => rfl
  | cons part parts ih =>
    rw [List.mapM_cons, h part List.mem_cons_self,
      ih fun other hother => h other (List.mem_cons_of_mem _ hother)]
    rfl

/-- Parts are not cut behind outgoing strong links: the code would contain the consumer too. -/
theorem covered_last (h : Attached isVoid subops)
    (hsize : subops.length = l.lead + total l.guards) {i : Interpreters IU}
    {events : List (Event IU)} (hparts : ∀ part ∈ l.outside, part.1 < part.2)
    (hattach : l.outside.mapM (attachCompileState (Pipeline.build subops) isVoid) = some states)
    (hrun : runROFMorsel (Pipeline.build subops) i states = some events)
    (hown : ∀ event ∈ events, ∀ k ∈ event.executed,
      event.range.1 ≤ k ∧ k < event.range.2 ∨ hasOutgoing (Pipeline.build subops) k = true) :
    ∀ part ∈ l.outside, hasOutgoing (Pipeline.build subops) (part.2 - 1) = false := by
  obtain ⟨hmap, hall⟩ := attach_all hattach
  obtain ⟨first, rest, rfl, hfirst, hrest⟩ := List.map_eq_cons_iff.mp hmap
  rw [runROFMorsel_eq (by rw [build_suboperators, hsize]) hfirst hrest
    (Layout.outside_nonempty_iff.mp hparts).2, runSteps_eq_some] at hrun
  obtain ⟨hsteps, rfl⟩ := hrun
  intro part hpart
  by_contra hout
  rw [Bool.not_eq_false] at hout
  obtain ⟨state, hstate, hattached⟩ := hall part hpart
  obtain ⟨hstart, hstop, j, hj, hle, hjout⟩ := attach_outgoing h (hparts part hpart)
    (hsize ▸ Layout.outside_within hpart) hout hattached
  have hstep : Step.compiled state ∈
      Step.compiled first :: schedule l.lead l.guards rest := by
    rcases List.mem_cons.mp hstate with rfl | hstate
    · exact List.mem_cons_self
    · exact List.mem_cons_of_mem _ ((mem_schedule _ hrest).mpr (.inr ⟨state, hstate, rfl⟩))
  obtain ⟨es, hes⟩ := hsteps _ hstep
  have hevent : Event.compiled state.start state.stop state.layout ∈ es := by
    obtain ⟨picks, _, rfl⟩ := Option.map_eq_some_iff.mp hes
    exact List.mem_append_right _ (List.mem_singleton_self _)
  rcases hown (.compiled state.start state.stop state.layout)
    (List.mem_flatMap.mpr ⟨_, hstep, by rwa [hes]⟩) j hj with hin | hjtrue
  · have : j < state.stop := hin.2
    omega
  · rw [hjout] at hjtrue
    cases hjtrue

end Attach

/-- Relaxed operator fusion covers a pipeline exactly when its guards leave parts that can be
compiled, what they are around can be interpreted or is fused into all of its consumers, and only
the first part picks from the source. -/
theorem rof_covers_iff (isVoid : IU → Bool) (hasFragment : Suboperator IU → Bool)
    (steps : List (BuildStep IU)) (h : Attached isVoid (subopsOf steps)) :
    RofCovers isVoid hasFragment steps ↔
      RofSafe isVoid hasFragment (Pipeline.build (subopsOf steps)) (layoutOf steps) := by
  obtain ⟨_, hsize⟩ := ofSteps_layout steps
  rw [ofSteps_pipe, build_suboperators] at hsize
  have hwired := h.wired
  have hlength : ∀ part ∈ (layoutOf steps).outside, part.2 ≤ (subopsOf steps).length :=
    fun part hpart => hsize ▸ Layout.outside_within hpart
  unfold RofCovers RofPipeline.setUpFusedAsync
  simp only [ofSteps_pipe, jitIntervals_eq, build_suboperators]
  constructor
  · rintro ⟨hsource, hsink, states, i, events, hattach, hi, hrun, hcovers⟩
    obtain ⟨intervals, hintervals, hattach⟩ := Option.bind_eq_some_iff.mp hattach
    split at hintervals
    · rename_i hguards
      cases hintervals
      obtain ⟨hmap, hall⟩ := attach_all hattach
      rw [hmap] at hcovers
      have hparts := hcovers.nonempty
      have hlast := covered_last h hsize hparts hattach hrun hcovers.own
      have hattached : ∀ part ∈ (layoutOf steps).outside,
          attachCompileState (Pipeline.build (subopsOf steps)) isVoid part =
            some (stateOf (Pipeline.build (subopsOf steps)) isVoid part) := by
        intro part hpart
        obtain ⟨state, _, hstate⟩ := hall part hpart
        obtain ⟨rfl, _⟩ := (attach_iff h (hparts part hpart) (hlength part hpart)
          (hlast part hpart)).mp hstate
        exact hstate
      obtain rfl := Option.some.inj (hattach.symm.trans (attach_map hattached))
      obtain ⟨hpicks, rfl⟩ := (runROFMorsel_iff hwired hsize hi hparts).mp hrun
      refine safe_of_covers h hsize hsource hpicks hcovers hguards (fun last hmem => ?_) hi hlast
        hattached
      obtain ⟨last', hlast', hsink⟩ := hsink
      exact Option.mem_unique hlast' hmem ▸ hsink
    · cases hintervals
  · intro hsafe
    have hparts := Layout.outside_nonempty_iff.mpr
      ⟨hsafe.lead, fun g hg => (hsafe.guards g hg).2⟩
    have hattached : ∀ part ∈ (layoutOf steps).outside,
        attachCompileState (Pipeline.build (subopsOf steps)) isVoid part =
          some (stateOf (Pipeline.build (subopsOf steps)) isVoid part) := by
      intro part hpart
      obtain ⟨hlast, hreads, hlogics, houtput, _⟩ := hsafe.parts part hpart
      rw [build_suboperators] at hreads houtput
      exact (attach_iff h (hparts part hpart) (hlength part hpart) hlast).mpr
        ⟨rfl, hreads, hlogics, houtput⟩
    obtain ⟨i, hi⟩ : ∃ i, setUpInterpreted (Pipeline.build (subopsOf steps)) isVoid
        hasFragment = some i := by
      rw [setUpInterpreted, build_suboperators]
      refine exists_interpreters fun k op hop hinterpreted =>
        ⟨interpreterLayout (Pipeline.build (subopsOf steps)) isVoid k, ?_⟩
      have hget : (Pipeline.build (subopsOf steps)).suboperators[k]? = some op := by
        rwa [build_suboperators]
      exact (interpretedLayout_iff hwired hop (outgoing_of_interpreted hinterpreted)).mpr
        ⟨rfl, hsafe.interpreters k op hget (by rwa [hasInterpreter_eq hget])⟩
    have hlast : ∃ last ∈ (subopsOf steps).getLast?, last.isSink = true := by
      have hne : subopsOf steps ≠ [] := by
        intro hnil
        have hlead := hsafe.lead
        rw [hnil, List.length_nil] at hsize
        omega
      have hmem := List.getLast?_eq_some_getLast hne
      refine ⟨_, hmem, hsafe.sink _ ?_⟩
      rwa [build_suboperators]
    refine ⟨safe_source hsize hsafe, hlast, _, i, _, ?_, hi,
      (runROFMorsel_iff hwired hsize hi hparts).mpr ⟨(safe_picks h hsize hsafe).1, rfl⟩, ?_⟩
    · rw [if_pos fun g hg => (hsafe.guards g hg).1]
      exact attach_map hattached
    · rw [map_stateOf]
      exact covers_of_safe h hsize hsafe

/-- The probe of a join: a guard around the hash and the lookup, and a filter behind it. -/
def probeSteps : List (BuildStep ℕ) :=
  [.attach (.loopDriver 0), .attach (.tscanIUProvider 0 1), .attach (.scratchPadIUProvider 2),
    .attach (.other 1 [2] [10]), .guarded [.other 2 [10] [4], .other 4 [2] [5]],
    .attach (.columnFilterScope 5 11), .attach (.columnFilterLogic 11 5 7),
    .attach (.columnFilterLogic 11 2 8), .attach (.other 7 [8] [])]

/-- The IUs that no fuse chunk has a column for. -/
def pseudoIU (iu : ℕ) : Bool := decide (10 ≤ iu)

theorem probeSteps_attached : Attached pseudoIU (subopsOf probeSteps) := by
  have hlt : ∀ {k : ℕ} {op : Suboperator ℕ}, (subopsOf probeSteps)[k]? = some op → k < 10 :=
    fun h => (List.getElem?_eq_some_iff.mp h).1
  have hprovided : SourcesProvided (subopsOf probeSteps) := by
    have hall : ∀ k < 10, ∀ iu ∈ sourceIUsAt (subopsOf probeSteps) k, ∃ j < k,
        iu ∈ iusAt (subopsOf probeSteps) j ∧
          ∀ i < k, iu ∈ iusAt (subopsOf probeSteps) i → i = j := by decide
    intro k iu hiu
    obtain ⟨op, hop, _⟩ := mem_sourceIUsAt.mp hiu
    exact hall k (hlt hop) iu hiu
  refine ⟨⟨hprovided, ?_, ?_⟩, ?_, ?_, ?_⟩
  · intro k pseudo incoming redefined h
    have hk := hlt h
    interval_cases k <;> cases h
    · exact ⟨6, by decide, 5, rfl, 5, by decide, by decide⟩
    · exact ⟨6, by decide, 5, rfl, 2, by decide, by decide⟩
  · intro s filterIU pseudo h
    have hk := hlt h
    interval_cases s <;> cases h
    exact ⟨7, 5, 7, rfl, by decide⟩
  · show ((subopsOf probeSteps).flatMap (·.getIUs)).Nodup
    decide
  · intro k op h hincoming
    have hk := hlt h
    interval_cases k <;> cases h <;> cases hincoming
    · exact ⟨0, _, rfl, rfl, _, 0, rfl, rfl, rfl, by decide⟩
    · exact ⟨6, _, rfl, rfl, _, 11, rfl, rfl, rfl, by decide⟩
    · exact ⟨6, _, rfl, rfl, _, 11, rfl, rfl, rfl, by decide⟩
  · intro s filterIU pseudo h
    have hk := hlt h
    interval_cases s <;> cases h
    rfl

theorem probeSteps_safe : RofSafe pseudoIU (fun _ => true)
    (Pipeline.build (subopsOf probeSteps)) (layoutOf probeSteps) := by
  have hlogics : ∀ {k s : ℕ}, (Pipeline.build (subopsOf probeSteps)).scopeOf k = some s →
      k = 7 ∧ s = 6 ∨ k = 8 ∧ s = 6 := by
    intro k s h
    by_cases hk : k < 10
    · interval_cases k <;> cases h
      · exact .inl ⟨rfl, rfl⟩
      · exact .inr ⟨rfl, rfl⟩
    · have hnone : (subopsOf probeSteps)[k]? = none := List.getElem?_eq_none (Nat.not_lt.mp hk)
      rw [Pipeline.scopeOf, build_suboperators, hnone] at h
      cases h
  have hparts : (layoutOf probeSteps).outside = [(0, 4), (6, 10)] := rfl
  have hinside : (layoutOf probeSteps).inside = [(4, 6)] := rfl
  refine ⟨by decide, by decide, ?_, ?_, ?_, ?_, ?_⟩
  · rw [build_suboperators]
    show ∀ k < 10, _
    decide
  · rw [build_suboperators]
    decide
  · intro k op hop hinterpreter
    rw [build_suboperators] at hop
    have hall : ∀ k < 10, hasInterpreter (Pipeline.build (subopsOf probeSteps)) k = true →
        requiredAt (Pipeline.build (subopsOf probeSteps)) k (k + 1) = [] ∨
          ∃ iu ∈ requiredAt (Pipeline.build (subopsOf probeSteps)) k (k + 1),
            pseudoIU iu = false := by decide
    exact ⟨rfl, hall k (List.getElem?_eq_some_iff.mp hop).1 hinterpreter⟩
  · rw [hparts, List.forall_mem_cons, List.forall_mem_singleton]
    refine ⟨⟨by decide, ?_, fun k s h => ?_, by decide, by decide⟩,
      ⟨by decide, ?_, fun k s h => ?_, by decide, by decide⟩⟩
    · unfold ReadsInside
      decide
    · rcases hlogics h with ⟨rfl, rfl⟩ | ⟨rfl, rfl⟩ <;> decide
    · unfold ReadsInside
      decide
    · rcases hlogics h with ⟨rfl, rfl⟩ | ⟨rfl, rfl⟩ <;> decide
  · rw [hinside, List.forall_mem_singleton]
    intro k hle hlt
    interval_cases k
    · exact ⟨by decide, by decide, fun h => absurd h (by decide)⟩
    · exact ⟨by decide, by decide, fun h => absurd h (by decide)⟩

theorem rof_covers_probe : RofCovers pseudoIU (fun _ => true) probeSteps :=
  (rof_covers_iff _ _ probeSteps probeSteps_attached).mpr probeSteps_safe

/-- A guard right behind the loop driver of a scan. -/
def guardedScan : List (BuildStep ℕ) :=
  [.attach (.loopDriver 0), .guarded [.tscanIUProvider 0 1, .tscanIUProvider 0 2],
    .attach (.other 1 [2] [])]

/-- A guard between a filter scope and one of its logics. -/
def splitFilter : List (BuildStep ℕ) :=
  [.attach (.loopDriver 0), .attach (.tscanIUProvider 0 1), .attach (.tscanIUProvider 0 2),
    .attach (.columnFilterScope 1 11), .attach (.columnFilterLogic 11 1 7),
    .guarded [.other 7 [] [8], .other 8 [] [9]], .attach (.columnFilterLogic 11 2 5),
    .attach (.other 5 [9] [])]

/-- A guard around one suboperator trips an assert. Two guards next to each other, like a guard
around the first suboperators, give an empty interval. Behind the loop driver, the first interpreter
picks a second morsel, and the code for a scope cannot be generated without its logics. -/
theorem rof_misses_guards :
    ¬ RofCovers pseudoIU (fun _ => true)
      ([.attach (.hashTableSource 0 none), .guarded [.other 0 [] [1]],
        .attach (.other 1 [] [])] : List (BuildStep ℕ)) ∧
    ¬ RofCovers pseudoIU (fun _ => true)
      ([.attach (.hashTableSource 0 none), .guarded [.other 0 [] [1], .other 1 [] [2]],
        .guarded [.other 2 [] [3], .other 3 [] [4]], .attach (.other 4 [] [])] :
          List (BuildStep ℕ)) ∧
    ¬ RofCovers pseudoIU (fun _ => true)
      ([.guarded [.hashTableSource 0 none, .other 0 [] [1]], .attach (.other 1 [] [])] :
        List (BuildStep ℕ)) ∧
    ¬ RofCovers pseudoIU (fun _ => true) guardedScan ∧
    ¬ RofCovers pseudoIU (fun _ => true) splitFilter := by
  refine ⟨?_, ?_, ?_, ?_, ?_⟩
  · rintro ⟨_, _, states, _, _, hsetup, _⟩
    cases hsetup
  · rintro ⟨_, _, states, _, _, hsetup, _⟩
    cases hsetup
  · rintro ⟨_, _, states, _, _, hsetup, _⟩
    cases hsetup
  · rintro ⟨_, _, states, i, events, hsetup, hi, hrun, hcovers⟩
    have hstates : (RofPipeline.ofSteps guardedScan).setUpFusedAsync pseudoIU =
        some [⟨0, 1, [.shared 0, .shared 1, .fuseChunkSink 0]⟩,
          ⟨3, 4, [.fuseChunkSourceDriver, .fuseChunkSourceIUProvider 1,
            .fuseChunkSourceIUProvider 2, .shared 3]⟩] := by decide
    have hinterpreters : setUpInterpreted (RofPipeline.ofSteps guardedScan).pipe
        pseudoIU (fun _ => true) =
          some ⟨[⟨1, [.shared 0, .shared 1, .fuseChunkSink 1], true⟩,
            ⟨2, [.shared 0, .shared 2, .fuseChunkSink 2], false⟩,
            ⟨3, [.fuseChunkSourceDriver, .fuseChunkSourceIUProvider 1,
              .fuseChunkSourceIUProvider 2, .shared 3], false⟩],
            [none, some 0, some 1, some 2]⟩ := by decide
    obtain rfl := Option.some.inj (hsetup.symm.trans hstates)
    obtain rfl := Option.some.inj (hi.symm.trans hinterpreters)
    rw [runROFMorsel_eq (l := layoutOf guardedScan) rfl rfl rfl (by decide)] at hrun
    cases hrun
    exact absurd hcovers.picked (by decide)
  · rintro ⟨_, _, states, _, _, hsetup, _⟩
    cases hsetup

end Main

end InkFuse.Exec.RelaxedFusion
