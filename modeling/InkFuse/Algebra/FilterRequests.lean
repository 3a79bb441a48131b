import InkFuse.Algebra.CodegenProtocol

/-!
What filters request while code is generated. A filter scope requests the columns that its logics
redefine, in their name, before it requests the filter IU; a logic itself only requests the
pseudo IU of its scope. So a logic is served once by its scope and once by itself.
-/

namespace InkFuse.Algebra.SubopGraph

variable {IU : Type} [DecidableEq IU]

namespace Pipeline

variable (p : Pipeline IU)

/-- The loop of `requestIU` over the producers of the requestor. -/
def findProvider (op : ℕ) (iu : IU) : Option ℕ :=
  (p.incomingEdges op).find? fun provider => iu ∈ iusAt p.suboperators provider

def scopeOf (k : ℕ) : Option ℕ :=
  match p.suboperators[k]? with
  | some (.columnFilterLogic pseudo _ _) => p.findProvider k pseudo
  | _ => none

def filterLogic (scope k : ℕ) : Option (ℕ × IU) :=
  match p.suboperators[k]? with
  | some (.columnFilterLogic _ incoming _) =>
    if p.scopeOf k = some scope then some (k, incoming) else none
  | _ => none

/-- `filter_logic_dependencies`, as `Filter::decay` attaches them. -/
def filterLogics (scope : ℕ) : List (ℕ × IU) :=
  (List.range p.suboperators.length).filterMap (p.filterLogic scope)

def ownRequests (op : ℕ) : List (ℕ × IU) :=
  match p.suboperators[op]? with
  | some (.columnFilterLogic pseudo _ _) => [(op, pseudo)]
  | some subop => subop.getSourceIUs.map fun iu => (op, iu)
  | none => []

def asks (op : ℕ) : List (ℕ × IU) :=
  match p.suboperators[op]? with
  | some (.columnFilterScope _ _) => p.filterLogics op ++ p.ownRequests op
  | _ => p.ownRequests op

def isScopeAt (k : ℕ) : Bool :=
  match p.suboperators[k]? with
  | some (.columnFilterScope _ _) => true
  | _ => false

/-- `open` with those of the filters. A scope without logics throws. -/
def openWithFilters : ℕ → ℕ → CompilationContext IU → Option (CompilationContext IU)
  | 0, _, _ => none
  | fuel + 1, op, ctx =>
    if p.isScopeAt op && (p.filterLogics op).isEmpty then
      none
    else
      match p.asks op with
      | [] => p.notifyIUsReady fuel op (ctx.log (.opened op))
      | requests =>
        requests.foldlM (fun ctx ask =>
          p.requestIU (openWithFilters fuel) (p.notifyIUsReady fuel) ask.1 ctx ask.2)
          (ctx.log (.opened op))

def openSinks (fuel : ℕ) : Option (CompilationContext IU) :=
  p.sinks.foldlM (fun ctx sink => p.openWithFilters fuel sink ctx) .start

def compileWithFilters (fuel : ℕ) : Option (CompilationContext IU) := do
  let ctx ← p.openSinks fuel
  p.sinks.foldlM (fun ctx sink => p.closeOp fuel sink ctx) ctx

/-- The suboperator whose `open` first asks for an input of `k`: the scope for a logic. -/
def firstAsker (k : ℕ) : ℕ := (p.scopeOf k).getD k

def providerOf (ask : ℕ × IU) : ℕ := (p.findProvider ask.1 ask.2).getD 0

end Pipeline

/-- Every filter logic reads the pseudo IU of a scope, the columns that it redefines are attached
before the scope, and every scope has a logic. -/
structure FilterLinks (subops : List (Suboperator IU)) : Prop where
  provided : SourcesProvided subops
  scopes : ∀ k pseudo incoming redefined,
    subops[k]? = some (.columnFilterLogic pseudo incoming redefined) →
      ∃ s < k, ∃ filterIU, subops[s]? = some (.columnFilterScope filterIU pseudo) ∧
        ∃ j < s, incoming ∈ iusAt subops j
  used : ∀ s filterIU pseudo, subops[s]? = some (.columnFilterScope filterIU pseudo) →
    ∃ k incoming redefined, subops[k]? = some (.columnFilterLogic pseudo incoming redefined) ∧
      (Pipeline.build subops).scopeOf k = some s

/-- What the protocol relies on with filters. -/
structure FilterDag (p : Pipeline IU) : Prop extends Dag p where
  logic : ∀ k pseudo incoming redefined,
    p.suboperators[k]? = some (.columnFilterLogic pseudo incoming redefined) →
      ∃ s, p.scopeOf k = some s ∧ p.isScopeAt s = true ∧ p.providerOf (k, incoming) < s
  used : ∀ s, p.isScopeAt s = true → p.filterLogics s ≠ []

section Requests

variable {p : Pipeline IU}

theorem Dag.findProvider (hp : Dag p) {k : ℕ} {iu : IU} (hiu : iu ∈ sourceIUsAt p.suboperators k) :
    p.findProvider k iu = some (p.providerOf (k, iu)) ∧
      p.providerOf (k, iu) ∈ p.incomingEdges k := by
  obtain ⟨i, hi⟩ := List.mem_iff_getElem?.mp hiu
  obtain ⟨j, hj, hfind⟩ := hp.found k i iu hi
  have hprovider : p.findProvider k iu = some j := hfind
  have hof : p.providerOf (k, iu) = j := by
    rw [Pipeline.providerOf, hprovider, Option.getD_some]
  rw [hof]
  exact ⟨hprovider, List.mem_of_getElem? hj⟩

/-- The producers are those of the inputs, in their order. -/
theorem Dag.incomingEdges_eq (hp : Dag p) (k : ℕ) :
    p.incomingEdges k = (sourceIUsAt p.suboperators k).map fun iu => p.providerOf (k, iu) := by
  apply List.ext_getElem?
  intro i
  rw [List.getElem?_map]
  cases hi : (sourceIUsAt p.suboperators k)[i]? with
  | none =>
    rw [Option.map_none, List.getElem?_eq_none_iff, hp.length]
    exact List.getElem?_eq_none_iff.mp hi
  | some iu =>
    obtain ⟨j, hj, hfind⟩ := hp.found k i iu hi
    have hprovider : p.findProvider k iu = some j := hfind
    rw [hj, Option.map_some, Pipeline.providerOf, hprovider, Option.getD_some]

omit [DecidableEq IU] in
theorem isScopeAt_iff {k : ℕ} : p.isScopeAt k = true ↔
    ∃ filterIU pseudo, p.suboperators[k]? = some (.columnFilterScope filterIU pseudo) := by
  unfold Pipeline.isScopeAt
  split
  · next filterIU pseudo h => exact ⟨fun _ => ⟨filterIU, pseudo, h⟩, fun _ => rfl⟩
  · next h =>
    refine ⟨fun hfalse => absurd hfalse (by simp), fun ⟨filterIU, pseudo, heq⟩ => ?_⟩
    exact absurd heq (h filterIU pseudo)

theorem scopeOf_eq_some {k s : ℕ} (h : p.scopeOf k = some s) : ∃ pseudo incoming redefined,
    p.suboperators[k]? = some (.columnFilterLogic pseudo incoming redefined) ∧
      p.findProvider k pseudo = some s := by
  unfold Pipeline.scopeOf at h
  split at h
  · next pseudo incoming redefined heq => exact ⟨pseudo, incoming, redefined, heq, h⟩
  · cases h

theorem filterLogic_eq_some {s k : ℕ} {ask : ℕ × IU} : p.filterLogic s k = some ask ↔
    ∃ pseudo redefined, p.suboperators[k]? = some (.columnFilterLogic pseudo ask.2 redefined) ∧
      p.scopeOf k = some s ∧ ask.1 = k := by
  unfold Pipeline.filterLogic
  split
  · next pseudo incoming redefined heq =>
    rw [heq]
    by_cases hscope : p.scopeOf k = some s
    · rw [if_pos hscope, Option.some_inj]
      constructor
      · rintro rfl
        exact ⟨pseudo, redefined, rfl, hscope, rfl⟩
      · rintro ⟨_, _, hop, _, hk⟩
        cases hop
        rw [← hk]
    · simp [hscope]
  · next hop =>
    constructor
    · intro h
      cases h
    · rintro ⟨pseudo, redefined, heq, -⟩
      exact absurd heq (hop _ _ _)

theorem mem_filterLogics {s : ℕ} {ask : ℕ × IU} : ask ∈ p.filterLogics s ↔
    ∃ pseudo redefined, p.suboperators[ask.1]? = some (.columnFilterLogic pseudo ask.2 redefined) ∧
      p.scopeOf ask.1 = some s := by
  simp only [Pipeline.filterLogics, List.mem_filterMap, List.mem_range, filterLogic_eq_some]
  constructor
  · rintro ⟨k, _, pseudo, redefined, hop, hscope, rfl⟩
    exact ⟨pseudo, redefined, hop, hscope⟩
  · rintro ⟨pseudo, redefined, hop, hscope⟩
    exact ⟨ask.1, (List.getElem?_eq_some_iff.mp hop).1, pseudo, redefined, hop, hscope, rfl⟩

/-- A scope has each of its logics once. -/
theorem filterLogics_fst (s : ℕ) : (p.filterLogics s).map Prod.fst =
    (List.range p.suboperators.length).filter fun k => p.scopeOf k = some s := by
  unfold Pipeline.filterLogics
  induction List.range p.suboperators.length with
  | nil => rfl
  | cons k ks ih =>
    by_cases hscope : p.scopeOf k = some s
    · obtain ⟨pseudo, incoming, redefined, hop, -⟩ := scopeOf_eq_some hscope
      have hlogic : p.filterLogic s k = some (k, incoming) :=
        filterLogic_eq_some.mpr ⟨pseudo, redefined, hop, hscope, rfl⟩
      rw [List.filterMap_cons, hlogic, List.filter_cons_of_pos (by simpa using hscope), ← ih]
      rfl
    · have hnone : p.filterLogic s k = none := by
        rw [Option.eq_none_iff_forall_ne_some]
        intro ask hask
        obtain ⟨_, _, _, h, _⟩ := filterLogic_eq_some.mp hask
        exact hscope h
      rw [List.filterMap_cons, hnone, List.filter_cons_of_neg (by simpa using hscope), ← ih]

theorem FilterDag.isScopeAt (hp : FilterDag p) {k s : ℕ} (h : p.scopeOf k = some s) :
    p.isScopeAt s = true ∧ s < k := by
  obtain ⟨pseudo, incoming, redefined, hop, hfind⟩ := scopeOf_eq_some h
  obtain ⟨s', hs', hscope, -⟩ := hp.logic k pseudo incoming redefined hop
  rw [h, Option.some_inj] at hs'
  subst hs'
  exact ⟨hscope, (hp.before s k (List.mem_of_find?_eq_some hfind)).1⟩

theorem firstAsker_of_scopeOf {k s : ℕ} (h : p.scopeOf k = some s) : p.firstAsker k = s := by
  rw [Pipeline.firstAsker, h, Option.getD_some]

theorem firstAsker_self {k : ℕ}
    (h : ∀ pseudo incoming redefined,
      p.suboperators[k]? ≠ some (.columnFilterLogic pseudo incoming redefined)) :
    p.firstAsker k = k := by
  cases hscope : p.scopeOf k with
  | none => rw [Pipeline.firstAsker, hscope, Option.getD_none]
  | some s =>
    obtain ⟨pseudo, incoming, redefined, hop, -⟩ := scopeOf_eq_some hscope
    exact absurd hop (h pseudo incoming redefined)

theorem scopeOf_of_firstAsker {k s : ℕ} (h : p.firstAsker k = s) (hne : k ≠ s) :
    p.scopeOf k = some s := by
  unfold Pipeline.firstAsker at h
  cases hscope : p.scopeOf k with
  | none =>
    rw [hscope, Option.getD_none] at h
    exact absurd h hne
  | some s' =>
    rw [hscope, Option.getD_some] at h
    rw [h]

theorem FilterDag.firstAsker_le (hp : FilterDag p) (k : ℕ) : p.firstAsker k ≤ k := by
  by_cases hne : k = p.firstAsker k
  · exact Nat.le_of_eq hne.symm
  · exact Nat.le_of_lt (hp.isScopeAt (scopeOf_of_firstAsker rfl hne)).2

/-- The requests of a suboperator: the last one is its own, and completes its inputs; those before
are for what it asks first, and complete nothing. -/
structure AskedBy (p : Pipeline IU) (k : ℕ) (init : List (ℕ × IU)) (iu : IU) : Prop where
  asks : p.asks k = init ++ [(k, iu)]
  first : ∀ ask ∈ init, p.firstAsker ask.1 = k
  unfinished : ∀ pre ask post, init = pre ++ ask :: post →
    (pre.map Prod.fst).count ask.1 + 1 < (sourceIUsAt p.suboperators ask.1).length
  last : (if p.firstAsker k = k then (init.map Prod.fst).count k else 1) + 1 =
    (sourceIUsAt p.suboperators k).length
  logics : ∀ r ≠ k, p.firstAsker r = k → (init.map Prod.fst).count r = 1
  scope : p.firstAsker k ≠ k → p.providerOf (k, iu) = p.firstAsker k
  source : ∀ ask ∈ p.asks k, ask.2 ∈ sourceIUsAt p.suboperators ask.1 ∧ p.providerOf ask < k

omit [DecidableEq IU] in
theorem sourceIUsAt_eq {subops : List (Suboperator IU)} {k : ℕ} {op : Suboperator IU}
    (h : subops[k]? = some op) : sourceIUsAt subops k = op.getSourceIUs := by
  simp [sourceIUsAt, h]

theorem FilterDag.provider_lt (hp : FilterDag p) {k : ℕ} {iu : IU}
    (h : iu ∈ sourceIUsAt p.suboperators k) : p.providerOf (k, iu) < k :=
  (hp.before _ k (hp.findProvider h).2).1

theorem FilterDag.askedBy_scope (hp : FilterDag p) {k : ℕ} {filterIU pseudo : IU}
    (hop : p.suboperators[k]? = some (.columnFilterScope filterIU pseudo)) :
    AskedBy p k (p.filterLogics k) filterIU := by
  have hsources : sourceIUsAt p.suboperators k = [filterIU] := sourceIUsAt_eq hop
  have hasks : p.asks k = p.filterLogics k ++ [(k, filterIU)] := by
    simp [Pipeline.asks, Pipeline.ownRequests, hop, Suboperator.getSourceIUs]
  have hself : p.firstAsker k = k := firstAsker_self (by simp [hop])
  have hfst := filterLogics_fst (p := p) k
  have hnodup : ((p.filterLogics k).map Prod.fst).Nodup := by
    rw [hfst]
    exact List.nodup_range.filter _
  refine ⟨hasks, fun ask hask => ?_, fun pre ask post heq => ?_, ?_, fun r hne hr => ?_,
    absurd hself, fun ask hask => ?_⟩
  · obtain ⟨_, _, _, hscope⟩ := mem_filterLogics.mp hask
    exact firstAsker_of_scopeOf hscope
  · have hmem : ask ∈ p.filterLogics k := by
      rw [heq]
      exact List.mem_append_right _ (List.mem_cons_self ..)
    obtain ⟨pseudo', redefined, hlogic, _⟩ := mem_filterLogics.mp hmem
    rw [heq, List.map_append, List.map_cons] at hnodup
    have hnot : ask.1 ∉ pre.map Prod.fst := by
      intro hpre
      exact (List.disjoint_of_nodup_append hnodup) hpre (List.mem_cons_self ..)
    rw [List.count_eq_zero.mpr hnot, sourceIUsAt_eq hlogic]
    simp [Suboperator.getSourceIUs]
  · have hnot : k ∉ (p.filterLogics k).map Prod.fst := by
      intro hmem
      rw [hfst, List.mem_filter] at hmem
      have hscope := (hp.isScopeAt (of_decide_eq_true hmem.2)).2
      exact Nat.lt_irrefl k hscope
    rw [if_pos hself, List.count_eq_zero.mpr hnot, hsources]
    simp
  · have hscope := scopeOf_of_firstAsker hr hne
    obtain ⟨_, _, _, hlogic, _⟩ := scopeOf_eq_some hscope
    apply List.count_eq_one_of_mem hnodup
    rw [hfst, List.mem_filter, List.mem_range]
    exact ⟨(List.getElem?_eq_some_iff.mp hlogic).1, decide_eq_true hscope⟩
  · rw [hasks, List.mem_append, List.mem_singleton] at hask
    rcases hask with hask | rfl
    · obtain ⟨pseudo', redefined, hlogic, hscope⟩ := mem_filterLogics.mp hask
      obtain ⟨s, hs, -, hlt⟩ := hp.logic ask.1 pseudo' ask.2 redefined hlogic
      rw [hscope, Option.some_inj] at hs
      subst hs
      refine ⟨?_, hlt⟩
      rw [sourceIUsAt_eq hlogic]
      simp [Suboperator.getSourceIUs]
    · have hmem : filterIU ∈ sourceIUsAt p.suboperators k := by
        rw [hsources]
        exact List.mem_singleton_self _
      exact ⟨hmem, hp.provider_lt hmem⟩

theorem FilterDag.askedBy_logic (hp : FilterDag p) {k : ℕ} {pseudo incoming redefined : IU}
    (hop : p.suboperators[k]? = some (.columnFilterLogic pseudo incoming redefined)) :
    AskedBy p k [] pseudo := by
  have hsources : sourceIUsAt p.suboperators k = [pseudo, incoming] := sourceIUsAt_eq hop
  have hasks : p.asks k = [(k, pseudo)] := by
    simp [Pipeline.asks, Pipeline.ownRequests, hop]
  obtain ⟨s, hs, hscope, -⟩ := hp.logic k pseudo incoming redefined hop
  have hne : p.firstAsker k ≠ k := by
    rw [firstAsker_of_scopeOf hs]
    exact Nat.ne_of_lt (hp.isScopeAt hs).2
  refine ⟨hasks, by simp, by simp, ?_, fun r hr hfirst => ?_, fun _ => ?_, fun ask hask => ?_⟩
  · rw [if_neg hne, hsources]
    simp
  · obtain ⟨_, _, hscope'⟩ :=
      isScopeAt_iff.mp (hp.isScopeAt (scopeOf_of_firstAsker hfirst hr)).1
    rw [hop] at hscope'
    cases hscope'
  · obtain ⟨_, _, _, hop', hfind⟩ := scopeOf_eq_some hs
    rw [hop] at hop'
    cases hop'
    rw [Pipeline.providerOf, hfind, Option.getD_some, firstAsker_of_scopeOf hs]
  · rw [hasks, List.mem_singleton] at hask
    subst hask
    have hmem : pseudo ∈ sourceIUsAt p.suboperators k := by
      rw [hsources]
      exact List.mem_cons_self ..
    exact ⟨hmem, hp.provider_lt hmem⟩

theorem FilterDag.askedBy_other (hp : FilterDag p) {k : ℕ} {op : Suboperator IU}
    (hop : p.suboperators[k]? = some op)
    (hscope : ∀ filterIU pseudo, op ≠ .columnFilterScope filterIU pseudo)
    (hlogic : ∀ pseudo incoming redefined, op ≠ .columnFilterLogic pseudo incoming redefined)
    {init : List IU} {iu : IU} (hinit : op.getSourceIUs = init ++ [iu]) :
    AskedBy p k (init.map fun iu => (k, iu)) iu := by
  have hsources : sourceIUsAt p.suboperators k = init ++ [iu] := by
    rw [sourceIUsAt_eq hop, hinit]
  have hasks : p.asks k = (init.map fun iu => (k, iu)) ++ [(k, iu)] := by
    have hown : p.asks k = op.getSourceIUs.map fun iu => (k, iu) := by
      rw [Pipeline.asks, Pipeline.ownRequests, hop]
      split
      · next heq => exact absurd (Option.some_inj.mp heq) (hscope _ _)
      · split
        · next heq => exact absurd (Option.some_inj.mp heq) (hlogic _ _ _)
        · next heq => rw [Option.some_inj.mp heq]
        · next heq => cases heq
    rw [hown, hinit, List.map_append]
    rfl
  have hself : p.firstAsker k = k := by
    apply firstAsker_self
    intro pseudo incoming redefined heq
    rw [hop, Option.some_inj] at heq
    exact hlogic _ _ _ heq
  have hcount : ∀ ius : List IU,
      ((ius.map fun iu => ((k, iu) : ℕ × IU)).map Prod.fst).count k = ius.length := by
    intro ius
    rw [List.map_map, List.count_eq_length.mpr, List.length_map]
    intro r hr
    obtain ⟨_, _, rfl⟩ := List.mem_map.mp hr
    rfl
  refine ⟨hasks, fun ask hask => ?_, fun pre ask post heq => ?_, ?_, fun r hne hr => ?_,
    absurd hself, fun ask hask => ?_⟩
  · obtain ⟨_, _, rfl⟩ := List.mem_map.mp hask
    exact hself
  · obtain ⟨pre', rest, rfl, hpre, hrest⟩ := List.map_eq_append_iff.mp heq
    obtain ⟨iu', post', rfl, rfl, _⟩ := List.map_eq_cons_iff.mp hrest
    subst hpre
    rw [hcount, hsources]
    simp only [List.length_append, List.length_cons, List.length_nil]
    omega
  · rw [if_pos hself, hcount, hsources, List.length_append]
    rfl
  · obtain ⟨_, _, hscope'⟩ := isScopeAt_iff.mp (hp.isScopeAt (scopeOf_of_firstAsker hr hne)).1
    rw [hop, Option.some_inj] at hscope'
    exact absurd hscope' (hscope _ _)
  · have hmem : ∃ iu' ∈ sourceIUsAt p.suboperators k, ask = (k, iu') := by
      rw [hasks] at hask
      rw [hsources]
      simp only [List.mem_append, List.mem_map, List.mem_singleton] at hask ⊢
      rcases hask with ⟨iu', hiu', rfl⟩ | rfl
      · exact ⟨iu', Or.inl hiu', rfl⟩
      · exact ⟨iu, Or.inr rfl, rfl⟩
    obtain ⟨iu', hiu', rfl⟩ := hmem
    exact ⟨hiu', hp.provider_lt hiu'⟩

/-- Whoever has inputs requests them. -/
theorem FilterDag.askedBy (hp : FilterDag p) {k : ℕ} (h : sourceIUsAt p.suboperators k ≠ []) :
    ∃ init iu, AskedBy p k init iu := by
  cases hop : p.suboperators[k]? with
  | none => simp [sourceIUsAt, hop] at h
  | some op =>
    have hne : op.getSourceIUs ≠ [] := by
      rwa [sourceIUsAt_eq hop] at h
    cases op with
    | columnFilterScope filterIU pseudo => exact ⟨_, _, hp.askedBy_scope hop⟩
    | columnFilterLogic pseudo incoming redefined => exact ⟨_, _, hp.askedBy_logic hop⟩
    | _ =>
      obtain ⟨init, iu, hinit⟩ := (List.eq_nil_or_concat' _).resolve_left hne
      exact ⟨_, _, hp.askedBy_other hop (by simp) (by simp) hinit⟩

end Requests

end InkFuse.Algebra.SubopGraph
