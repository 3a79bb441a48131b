import InkFuse.Algebra.ClosedRequests
import InkFuse.Algebra.FilterProtocol

/-!
Code for a range of a pipeline. The compilation context opens the suboperators of the repiped
pipeline, which are those of the original one: a filter scope still requests the columns of all
of its logics, also of those that were left behind.
-/

namespace InkFuse.Algebra.SubopGraph

variable {IU : Type} [DecidableEq IU]

/-- The logics of a scope are in the same repiped pipeline. -/
def Pipeline.logicsInside (p : Pipeline IU) (layout : List (Repiped IU)) : Bool :=
  (List.range p.suboperators.length).all fun k =>
    (p.scopeOf k).all fun s => .shared s ∉ layout || .shared k ∈ layout

/-- `generateC` of a runner. A scope asks for the producers of its logics, and those of a logic
that is not in the pipeline are looked up in vain. -/
def Pipeline.generateC (p : Pipeline IU) (layout : List (Repiped IU)) :
    Option (CompilationContext (Option IU)) := do
  let subops ← layout.mapM (·.toSuboperator p.suboperators)
  if p.logicsInside layout then
    (Pipeline.build subops).compileWithFilters (2 * subops.length + 1)
  else
    none

/-- How a pipeline is attached: every input has a provider in front of it, and no other; strong
links lead to suboperators with outgoing strong links; filters have their logics behind them, and
a pseudo IU in between. -/
structure Attached (isVoid : IU → Bool) (subops : List (Suboperator IU)) : Prop
    extends FilterLinks subops where
  unique : UniqueProviders subops
  linked : ∀ k op, subops[k]? = some op → op.incomingStrongLinks = true →
    ∃ j a, subops[j]? = some a ∧ a.outgoingStrongLinks = true ∧ StronglyLinked subops j k
  pseudo : ∀ (s : ℕ) (filterIU pseudo : IU),
    subops[s]? = some (.columnFilterScope filterIU pseudo) → isVoid pseudo = true

/-- Whatever the suboperators `ks` read is provided by one of them, or in the fuse chunk. -/
def ReadsInside (subops : List (Suboperator IU)) (isVoid : IU → Bool) (required : List IU)
    (ks : List ℕ) : Prop :=
  ∀ k ∈ ks, ∀ iu ∈ sourceIUsAt subops k,
    iu ∈ ks.flatMap (iusAt subops) ∨ iu ∈ required ∧ isVoid iu = false

section Attached

variable {subops : List (Suboperator IU)} {isVoid : IU → Bool}

theorem Attached.wired (h : Attached isVoid subops) : Wired subops := by
  refine ⟨h.unique, fun j k iu hj hk => ?_, h.linked⟩
  obtain ⟨i, hik, hi, _⟩ := h.provided k iu hk
  obtain ⟨a, ha, hia⟩ := mem_iusAt.mp hi
  obtain ⟨b, hb, hib⟩ := mem_iusAt.mp hj
  rwa [h.unique.eq hb ha hib hia]

/-- The scope of a logic is the suboperator that provides its pseudo IU. -/
theorem scopeOf_eq (h : SourcesProvided subops) {k s : ℕ} {pseudo incoming redefined : IU}
    (hop : subops[k]? = some (.columnFilterLogic pseudo incoming redefined)) (hsk : s < k)
    (hs : pseudo ∈ iusAt subops s) : (Pipeline.build subops).scopeOf k = some s := by
  have hsource : pseudo ∈ sourceIUsAt subops k := by
    simp [sourceIUsAt_eq hop, Suboperator.getSourceIUs]
  have hfind := (@Dag.findProvider IU _ _ (dag_build h) k pseudo
    (by rwa [build_suboperators])).1
  rw [providerOf_eq h hsource hsk hs] at hfind
  simp only [Pipeline.scopeOf, build_suboperators, hop]
  exact hfind

theorem Attached.scopeOf (h : Attached isVoid subops) {k : ℕ} {pseudo incoming redefined : IU}
    (hop : subops[k]? = some (.columnFilterLogic pseudo incoming redefined)) :
    ∃ s < k, ∃ filterIU, subops[s]? = some (.columnFilterScope filterIU pseudo) ∧
      (Pipeline.build subops).scopeOf k = some s ∧ ∃ j < s, incoming ∈ iusAt subops j := by
  obtain ⟨s, hsk, filterIU, hscope, hincoming⟩ := h.scopes k _ _ _ hop
  refine ⟨s, hsk, filterIU, hscope, scopeOf_eq h.provided hop hsk ?_, hincoming⟩
  exact mem_iusAt.mpr ⟨_, hscope, List.mem_singleton_self _⟩

end Attached

section Positions

variable {subops : List (Suboperator IU)} {isVoid : IU → Bool} {required : List IU}
  {ks : List ℕ} {materialize : List IU} {ops : List (Suboperator (Option IU))}

omit [DecidableEq IU] in
/-- The suboperators of a repiped pipeline are those of its layout. -/
theorem forall₂_of_mapM {layout : List (Repiped IU)}
    (h : layout.mapM (·.toSuboperator subops) = some ops) :
    List.Forall₂ (fun x op => x.toSuboperator subops = some op) layout ops := by
  induction layout generalizing ops with
  | nil =>
    cases h
    exact .nil
  | cons x layout ih =>
    rw [List.mapM_cons, Option.bind_eq_bind, Option.bind_eq_some_iff] at h
    obtain ⟨op, hx, h⟩ := h
    rw [Option.bind_eq_bind, Option.bind_eq_some_iff] at h
    obtain ⟨rest, hrest, h⟩ := h
    cases h
    exact .cons hx (ih hrest)

omit [DecidableEq IU] in
theorem layout_getElem {layout : List (Repiped IU)}
    (h : layout.mapM (·.toSuboperator subops) = some ops) (i : ℕ) :
    ops[i]? = layout[i]?.bind (·.toSuboperator subops) := by
  have hall := forall₂_of_mapM h
  cases hx : layout[i]? with
  | none =>
    have hlen := hall.length_eq
    have hi := List.getElem?_eq_none_iff.mp hx
    exact List.getElem?_eq_none (by omega)
  | some x =>
    obtain ⟨hi, rfl⟩ := List.getElem?_eq_some_iff.mp hx
    have hi' : i < ops.length := hall.length_eq ▸ hi
    rw [List.getElem?_eq_getElem hi']
    exact (hall.get hi hi').symm

omit [DecidableEq IU] in
theorem exists_ops {layout : List (Repiped IU)}
    (h : ∀ k, .shared k ∈ layout → k < subops.length) :
    ∃ ops, layout.mapM (·.toSuboperator subops) = some ops := by
  induction layout with
  | nil => exact ⟨[], rfl⟩
  | cons x layout ih =>
    obtain ⟨ops, hops⟩ := ih fun k hk => h k (List.mem_cons_of_mem _ hk)
    obtain ⟨op, hop⟩ : ∃ op, x.toSuboperator subops = some op := by
      cases x with
      | shared k =>
        have hk := h k List.mem_cons_self
        exact ⟨_, by rw [Repiped.toSuboperator, List.getElem?_eq_getElem hk]; rfl⟩
      | _ => exact ⟨_, rfl⟩
    refine ⟨op :: ops, ?_⟩
    rw [List.mapM_cons, hop, hops]
    rfl

omit [DecidableEq IU] in
theorem mem_rangeLayout_shared {k : ℕ} :
    .shared k ∈ rangeLayout isVoid required ks materialize ↔ k ∈ ks := by
  unfold rangeLayout Pipeline.fuseChunkSource
  split <;> simp

omit [DecidableEq IU] in
theorem iusAt_ops {layout : List (Repiped IU)}
    (h : layout.mapM (·.toSuboperator subops) = some ops) {i : ℕ} {x : Repiped IU}
    (hx : layout[i]? = some x) :
    iusAt ops i = x.getIUs subops ∧ sourceIUsAt ops i = x.getSourceIUs subops := by
  obtain ⟨op, hop⟩ : ∃ op, x.toSuboperator subops = some op := by
    have hall := forall₂_of_mapM h
    obtain ⟨hi, rfl⟩ := List.getElem?_eq_some_iff.mp hx
    exact ⟨_, hall.get hi (hall.length_eq ▸ hi)⟩
  have hi : ops[i]? = some op := by
    rw [layout_getElem h, hx]
    exact hop
  obtain ⟨hius, hsources⟩ := Repiped.ius_of_toSuboperator hop
  simp [iusAt, sourceIUsAt, hi, hius, hsources]

omit [DecidableEq IU] in
/-- The position of a suboperator behind the fuse chunk source. -/
theorem rangeLayout_shared {i k : ℕ} (hk : ks[i]? = some k) :
    (rangeLayout isVoid required ks materialize)[
      (Pipeline.fuseChunkSource isVoid required).length + i]? = some (.shared k) := by
  have hi := (List.getElem?_eq_some_iff.mp hk).1
  rw [rangeLayout, List.append_assoc, List.getElem?_append_right (Nat.le_add_right ..),
    Nat.add_sub_cancel_left, List.getElem?_append_left (by rwa [List.length_map]),
    List.getElem?_map, hk]
  rfl

omit [DecidableEq IU] in
/-- The three parts of a repiped pipeline. -/
theorem rangeLayout_cases {i : ℕ} {x : Repiped IU}
    (hx : (rangeLayout isVoid required ks materialize)[i]? = some x) :
    (Pipeline.fuseChunkSource isVoid required)[i]? = some x ∨
      (∃ j k, i = (Pipeline.fuseChunkSource isVoid required).length + j ∧ ks[j]? = some k ∧
        x = .shared k) ∨
      ∃ iu ∈ materialize, x = .fuseChunkSink iu ∧
        (Pipeline.fuseChunkSource isVoid required).length + ks.length ≤ i := by
  set d := (Pipeline.fuseChunkSource isVoid required).length with hd
  rw [rangeLayout, List.append_assoc] at hx
  by_cases hsource : i < d
  · rw [List.getElem?_append_left hsource] at hx
    exact .inl hx
  · rw [List.getElem?_append_right (Nat.le_of_not_lt hsource), ← hd] at hx
    by_cases hshared : i - d < ks.length
    · rw [List.getElem?_append_left (by rwa [List.length_map]), List.getElem?_map] at hx
      obtain ⟨k, hk, rfl⟩ := Option.map_eq_some_iff.mp hx
      exact .inr (.inl ⟨i - d, k, by omega, hk, rfl⟩)
    · rw [List.getElem?_append_right (by rw [List.length_map]; omega)] at hx
      obtain ⟨iu, hiu, rfl⟩ := List.mem_map.mp (List.mem_of_getElem? hx)
      exact .inr (.inr ⟨iu, hiu, rfl, by omega⟩)

omit [DecidableEq IU] in
theorem position_lt (hsorted : ks.Pairwise (· < ·)) {j k j' k' : ℕ} (hj : ks[j]? = some k)
    (hj' : ks[j']? = some k') (hlt : k < k') : j < j' := by
  obtain ⟨hjl, rfl⟩ := List.getElem?_eq_some_iff.mp hj
  obtain ⟨hjl', rfl⟩ := List.getElem?_eq_some_iff.mp hj'
  rcases Nat.lt_trichotomy j j' with h | h | h
  · exact h
  · subst h
    omega
  · have := List.pairwise_iff_getElem.mp hsorted j' j hjl' hjl h
    omega

section Providers

variable (hops : (rangeLayout isVoid required ks materialize).mapM
  (·.toSuboperator subops) = some ops)
include hops

omit [DecidableEq IU] in
/-- What a suboperator of the range provides is provided at its position. -/
theorem provided_shared {iu : IU} (hiu : iu ∈ ks.flatMap (iusAt subops)) :
    ∃ j k, ks[j]? = some k ∧ iu ∈ iusAt subops k ∧
      some iu ∈ iusAt ops ((Pipeline.fuseChunkSource isVoid required).length + j) := by
  obtain ⟨k, hk, hiu⟩ := List.mem_flatMap.mp hiu
  obtain ⟨j, hj⟩ := List.mem_iff_getElem?.mp hk
  refine ⟨j, k, hj, hiu, ?_⟩
  rw [(iusAt_ops hops (rangeLayout_shared hj)).1]
  exact List.mem_map_of_mem hiu

omit [DecidableEq IU] in
/-- The fuse chunk source comes first. -/
theorem provided_source {x : Option IU}
    (hx : x ∈ (Pipeline.fuseChunkSource isVoid required).flatMap (·.getIUs subops)) :
    ∃ j < (Pipeline.fuseChunkSource isVoid required).length, x ∈ iusAt ops j := by
  obtain ⟨r, hr, hx⟩ := List.mem_flatMap.mp hx
  obtain ⟨j, hj⟩ := List.mem_iff_getElem?.mp hr
  have hlt := (List.getElem?_eq_some_iff.mp hj).1
  have hlayout : (rangeLayout isVoid required ks materialize)[j]? = some r := by
    rw [rangeLayout, List.append_assoc, List.getElem?_append_left hlt, hj]
  refine ⟨j, hlt, ?_⟩
  rwa [(iusAt_ops hops hlayout).1]

omit [DecidableEq IU] in
theorem ops_shared {j k : ℕ} {op : Suboperator IU} (hk : ks[j]? = some k)
    (hop : subops[k]? = some op) :
    ops[(Pipeline.fuseChunkSource isVoid required).length + j]? = some (op.rename some) := by
  rw [layout_getElem hops, rangeLayout_shared hk, Option.bind_some, Repiped.toSuboperator, hop]
  rfl

omit [DecidableEq IU] in
/-- What is neither a source nor a sink of a fuse chunk is shared. -/
theorem shared_of_ops {i : ℕ} {op : Suboperator (Option IU)} (hop : ops[i]? = some op)
    (hdriver : op ≠ .loopDriver none)
    (hprovider : ∀ iu, op ≠ .fuseChunkSourceIUProvider none (some iu))
    (hsink : ∀ iu, op ≠ .fuseChunkSink (some iu)) :
    ∃ j k op', i = (Pipeline.fuseChunkSource isVoid required).length + j ∧ ks[j]? = some k ∧
      subops[k]? = some op' ∧ op = op'.rename some := by
  rw [layout_getElem hops, Option.bind_eq_some_iff] at hop
  obtain ⟨x, hx, hop⟩ := hop
  rcases rangeLayout_cases hx with hsource | ⟨j, k, rfl, hk, rfl⟩ | ⟨iu, hiu, rfl, hle⟩
  · have hmem := List.mem_of_getElem? hsource
    unfold Pipeline.fuseChunkSource at hmem
    split at hmem
    · cases hmem
    · rcases List.mem_cons.mp hmem with rfl | hmem
      · exact absurd (Option.some.inj hop).symm hdriver
      · obtain ⟨iu, _, rfl⟩ := List.mem_map.mp hmem
        exact absurd (Option.some.inj hop).symm (hprovider iu)
  · obtain ⟨op', hop', rfl⟩ := Option.map_eq_some_iff.mp hop
    exact ⟨j, k, op', rfl, hk, hop', rfl⟩
  · exact absurd (Option.some.inj hop).symm (hsink iu)

omit [DecidableEq IU] in
theorem logic_of_ops {i : ℕ} {pseudo incoming redefined : Option IU}
    (hop : ops[i]? = some (.columnFilterLogic pseudo incoming redefined)) :
    ∃ j k pseudo' incoming' redefined',
      i = (Pipeline.fuseChunkSource isVoid required).length + j ∧ ks[j]? = some k ∧
      subops[k]? = some (.columnFilterLogic pseudo' incoming' redefined') ∧
      pseudo = some pseudo' ∧ incoming = some incoming' := by
  obtain ⟨j, k, op', hi, hk, hop', heq⟩ := shared_of_ops hops hop (by simp) (by simp) (by simp)
  cases op' with
  | columnFilterLogic pseudo' incoming' redefined' =>
    cases heq
    exact ⟨j, k, pseudo', incoming', redefined', hi, hk, hop', rfl, rfl⟩
  | _ => cases heq

omit [DecidableEq IU] in
theorem scope_of_ops {i : ℕ} {filterIU pseudo : Option IU}
    (hop : ops[i]? = some (.columnFilterScope filterIU pseudo)) :
    ∃ j k filterIU' pseudo',
      i = (Pipeline.fuseChunkSource isVoid required).length + j ∧ ks[j]? = some k ∧
      subops[k]? = some (.columnFilterScope filterIU' pseudo') ∧ pseudo = some pseudo' := by
  obtain ⟨j, k, op', hi, hk, hop', heq⟩ := shared_of_ops hops hop (by simp) (by simp) (by simp)
  cases op' with
  | columnFilterScope filterIU' pseudo' =>
    cases heq
    exact ⟨j, k, filterIU', pseudo', hi, hk, hop', rfl⟩
  | _ => cases heq

omit [DecidableEq IU] in
theorem ops_unique (hwired : Wired subops) (hks : ks.Nodup) (hrequired : required.Nodup)
    (houtside : ∀ iu ∈ required, iu ∉ ks.flatMap (iusAt subops)) : UniqueProviders ops := by
  have hius : ∀ {layout : List (Repiped IU)} {ops : List (Suboperator (Option IU))},
      List.Forall₂ (fun x op => x.toSuboperator subops = some op) layout ops →
      (ops.flatMap fun op => op.getIUs) = layout.flatMap fun op => op.getIUs subops := by
    intro layout ops hall
    induction hall with
    | nil => rfl
    | cons hx _ ih =>
      rw [List.flatMap_cons, List.flatMap_cons, ih, (Repiped.ius_of_toSuboperator hx).1]
  rw [UniqueProviders, hius (forall₂_of_mapM hops)]
  exact layout_ius_nodup hwired hks hrequired houtside materialize

omit [DecidableEq IU] in
/-- Every input comes from in front. -/
theorem inputs_before (hwired : Wired subops) (hsorted : ks.Pairwise (· < ·))
    (hreads : ReadsInside subops isVoid required ks)
    (hmaterialize : ∀ iu ∈ materialize, iu ∈ ks.flatMap (iusAt subops)) {i : ℕ} {x : Option IU}
    (hx : x ∈ sourceIUsAt ops i) : ∃ j < i, x ∈ iusAt ops j := by
  set d := (Pipeline.fuseChunkSource isVoid required).length with hd
  obtain ⟨op, hop, _⟩ := mem_sourceIUsAt.mp hx
  obtain ⟨r, hr⟩ : ∃ r, (rangeLayout isVoid required ks materialize)[i]? = some r := by
    have hi := (List.getElem?_eq_some_iff.mp hop).1
    rw [← (forall₂_of_mapM hops).length_eq] at hi
    exact ⟨_, List.getElem?_eq_getElem hi⟩
  rw [(iusAt_ops hops hr).2] at hx
  rcases rangeLayout_cases hr with hsource | ⟨j, k, rfl, hk, rfl⟩ | ⟨iu, hiu, rfl, hle⟩
  · -- a provider reads the IU of the driver in front of it
    unfold Pipeline.fuseChunkSource at hsource
    split at hsource
    · cases hsource
    · rename_i hrequired
      cases i with
      | zero =>
        cases hsource
        cases hx
      | succ i =>
        rw [List.getElem?_cons_succ, List.getElem?_map] at hsource
        obtain ⟨iu, _, rfl⟩ := Option.map_eq_some_iff.mp hsource
        obtain rfl := List.mem_singleton.mp hx
        have hdriver : (rangeLayout isVoid required ks materialize)[0]? =
            some .fuseChunkSourceDriver := by
          rw [rangeLayout, Pipeline.fuseChunkSource, if_neg hrequired]
          rfl
        refine ⟨0, Nat.succ_pos i, ?_⟩
        rw [(iusAt_ops hops hdriver).1]
        exact List.mem_singleton_self _
  · obtain ⟨iu, hsource, rfl⟩ := List.mem_map.mp hx
    rcases hreads k (List.mem_of_getElem? hk) iu hsource with hinside | ⟨hrequired, hvoid⟩
    · obtain ⟨j', k', hj', hiu, hprovided⟩ := provided_shared hops hinside
      have hlt := position_lt hsorted hj' hk (hwired.ordered k' k iu hiu hsource)
      exact ⟨d + j', by omega, hprovided⟩
    · obtain ⟨j', hj', hprovided⟩ := provided_source hops 
        (mem_fuseChunkSource_ius hrequired hvoid)
      exact ⟨j', by omega, hprovided⟩
  · obtain rfl := List.mem_singleton.mp hx
    obtain ⟨j, k, hk, _, hprovided⟩ := provided_shared hops (hmaterialize iu hiu)
    have hj := (List.getElem?_eq_some_iff.mp hk).1
    exact ⟨d + j, by omega, hprovided⟩

/-- The filters of a range with all of their logics. -/
theorem ops_links (h : Attached isVoid subops) (hsorted : ks.Pairwise (· < ·))
    (hrequired : required.Nodup) (houtside : ∀ iu ∈ required, iu ∉ ks.flatMap (iusAt subops))
    (hreads : ReadsInside subops isVoid required ks)
    (hmaterialize : ∀ iu ∈ materialize, iu ∈ ks.flatMap (iusAt subops))
    (hlogics : ∀ k s, (Pipeline.build subops).scopeOf k = some s → s ∈ ks → k ∈ ks) :
    FilterLinks ops := by
  set d := (Pipeline.fuseChunkSource isVoid required).length with hd
  have hks : ks.Nodup := hsorted.imp Nat.ne_of_lt
  have hunique := ops_unique hops h.wired hks hrequired houtside
  have hprovided : SourcesProvided ops := by
    intro i x hx
    obtain ⟨j, hji, hj⟩ := inputs_before hops h.wired hsorted hreads hmaterialize hx
    refine ⟨j, hji, hj, fun j' _ hj' => ?_⟩
    obtain ⟨a, ha, hia⟩ := mem_iusAt.mp hj
    obtain ⟨b, hb, hib⟩ := mem_iusAt.mp hj'
    exact hunique.eq hb ha hib hia
  refine ⟨hprovided, fun i pseudo incoming redefined hop => ?_, fun i filterIU pseudo hop => ?_⟩
  · obtain ⟨j, k, pseudo', incoming', redefined', rfl, hk, hlogic, rfl, rfl⟩ :=
      logic_of_ops hops hop
    obtain ⟨s, hsk, filterIU, hscope, _, q, hqs, hq⟩ := h.scopeOf hlogic
    have hsources : sourceIUsAt subops k = [pseudo', incoming'] := sourceIUsAt_eq hlogic
    have hpseudo : pseudo' ∈ iusAt subops s :=
      mem_iusAt.mpr ⟨_, hscope, List.mem_singleton_self _⟩
    -- the pseudo IU is void, so the scope is in the range
    have hs : s ∈ ks := by
      rcases hreads k (List.mem_of_getElem? hk) pseudo' (by simp [hsources]) with
        hinside | ⟨_, hvoid⟩
      · obtain ⟨s', hs', hmem⟩ := List.mem_flatMap.mp hinside
        rwa [h.wired.provider_eq hpseudo hmem]
      · rw [h.pseudo s filterIU pseudo' hscope] at hvoid
        cases hvoid
    obtain ⟨i, hi⟩ := List.mem_iff_getElem?.mp hs
    refine ⟨d + i, ?_, some filterIU, ops_shared hops hi hscope, ?_⟩
    · have := position_lt hsorted hi hk hsk
      omega
    · rcases hreads k (List.mem_of_getElem? hk) incoming' (by simp [hsources]) with
        hinside | ⟨hmem, hvoid⟩
      · obtain ⟨j', q', hj', hq', hprov⟩ := provided_shared hops hinside
        obtain rfl := h.wired.provider_eq hq hq'
        have := position_lt hsorted hj' hi hqs
        exact ⟨d + j', by omega, hprov⟩
      · obtain ⟨j', hj', hprov⟩ := provided_source hops 
          (mem_fuseChunkSource_ius hmem hvoid)
        exact ⟨j', by omega, hprov⟩
  · obtain ⟨j, s, filterIU', pseudo', rfl, hs, hscope, rfl⟩ := scope_of_ops hops hop
    obtain ⟨k, incoming, redefined, hlogic, hof⟩ := h.used s filterIU' pseudo' hscope
    obtain ⟨i, hi⟩ := List.mem_iff_getElem?.mp (hlogics k s hof (List.mem_of_getElem? hs))
    have hsk : s < k := by
      obtain ⟨s', hsk, _, _, hof', _⟩ := h.scopeOf hlogic
      rw [hof, Option.some_inj] at hof'
      rwa [hof']
    refine ⟨d + i, some incoming, some redefined, ops_shared hops hi hlogic, ?_⟩
    apply scopeOf_eq hprovided (ops_shared hops hi hlogic)
    · have := position_lt hsorted hs hi hsk
      omega
    · rw [(iusAt_ops hops (rangeLayout_shared hs)).1]
      have hpseudo : pseudo' ∈ iusAt subops s :=
        mem_iusAt.mpr ⟨_, hscope, List.mem_singleton_self _⟩
      exact List.mem_map_of_mem hpseudo

/-- A range for which code is generated reads nothing that is left out. -/
theorem reads_of_compiled (h : Attached isVoid subops) (hks : ks.Nodup)
    (hrequired : required.Nodup) (houtside : ∀ iu ∈ required, iu ∉ ks.flatMap (iusAt subops))
    {fuel : ℕ} (hcompile : ((Pipeline.build ops).compileWithFilters fuel).isSome) :
    ReadsInside subops isVoid required ks := by
  have hpseudos : PseudosFromScopes ops := by
    intro i j pseudo incoming redefined hop hprovided
    obtain ⟨_, k, pseudo', incoming', redefined', _, _, hlogic, rfl, _⟩ := logic_of_ops hops hop
    obtain ⟨s, _, filterIU, hscope, _⟩ := h.scopeOf hlogic
    have hpseudo : pseudo' ∈ iusAt subops s :=
      mem_iusAt.mpr ⟨_, hscope, List.mem_singleton_self _⟩
    obtain ⟨x, hx⟩ : ∃ x, (rangeLayout isVoid required ks materialize)[j]? = some x := by
      obtain ⟨op', hop', _⟩ := mem_iusAt.mp hprovided
      have hj := (List.getElem?_eq_some_iff.mp hop').1
      rw [← (forall₂_of_mapM hops).length_eq] at hj
      exact ⟨_, List.getElem?_eq_getElem hj⟩
    rw [(iusAt_ops hops hx).1] at hprovided
    rcases rangeLayout_cases hx with hsource | ⟨j', k', rfl, hk', rfl⟩ | ⟨iu, _, rfl, _⟩
    · -- a fuse chunk has no column for a void IU
      have hmem := List.mem_of_getElem? hsource
      unfold Pipeline.fuseChunkSource at hmem
      split at hmem
      · cases hmem
      · rcases List.mem_cons.mp hmem with rfl | hmem
        · simp [Repiped.getIUs] at hprovided
        · obtain ⟨iu, hiu, rfl⟩ := List.mem_map.mp hmem
          obtain rfl : pseudo' = iu := by simpa [Repiped.getIUs] using hprovided
          have hvoid := (List.mem_filter.mp hiu).2
          rw [h.pseudo s filterIU pseudo' hscope] at hvoid
          cases hvoid
    · obtain ⟨iu, hiu, heq⟩ := List.mem_map.mp hprovided
      cases heq
      obtain rfl := h.wired.provider_eq hpseudo hiu
      exact ⟨some filterIU, ops_shared hops hk' hscope⟩
    · cases hprovided
  intro k hk iu hiu
  obtain ⟨j, hj⟩ := List.mem_iff_getElem?.mp hk
  have hsource : some iu ∈ sourceIUsAt ops
      ((Pipeline.fuseChunkSource isVoid required).length + j) := by
    rw [(iusAt_ops hops (rangeLayout_shared hj)).2]
    exact List.mem_map_of_mem hiu
  obtain ⟨i, hi⟩ := compile_closed (ops_unique hops h.wired hks hrequired houtside) hpseudos
    hcompile hsource
  obtain ⟨x, hx⟩ : ∃ x, (rangeLayout isVoid required ks materialize)[i]? = some x := by
    obtain ⟨op', hop', _⟩ := mem_iusAt.mp hi
    have hlt := (List.getElem?_eq_some_iff.mp hop').1
    rw [← (forall₂_of_mapM hops).length_eq] at hlt
    exact ⟨_, List.getElem?_eq_getElem hlt⟩
  rw [(iusAt_ops hops hx).1] at hi
  rcases rangeLayout_cases hx with hsource | ⟨j', k', rfl, hk', rfl⟩ | ⟨iu', _, rfl, _⟩
  · have hmem := List.mem_of_getElem? hsource
    unfold Pipeline.fuseChunkSource at hmem
    split at hmem
    · cases hmem
    · rcases List.mem_cons.mp hmem with rfl | hmem
      · simp [Repiped.getIUs] at hi
      · obtain ⟨iu', hiu', rfl⟩ := List.mem_map.mp hmem
        obtain rfl : iu = iu' := by simpa [Repiped.getIUs] using hi
        obtain ⟨hin, hvoid⟩ := List.mem_filter.mp hiu'
        exact .inr ⟨hin, by simpa using hvoid⟩
  · obtain ⟨iu', hiu', heq⟩ := List.mem_map.mp hi
    cases heq
    exact .inl (List.mem_flatMap.mpr ⟨k', List.mem_of_getElem? hk', hiu'⟩)
  · cases hi

end Providers

theorem logicsInside_iff {layout : List (Repiped IU)} :
    (Pipeline.build subops).logicsInside layout = true ↔
      ∀ k s, (Pipeline.build subops).scopeOf k = some s → .shared s ∈ layout →
        .shared k ∈ layout := by
  simp only [Pipeline.logicsInside, build_suboperators, List.all_eq_true, List.mem_range]
  constructor
  · intro hall k s hof hs
    obtain ⟨_, _, _, hop, _⟩ := scopeOf_eq_some hof
    rw [build_suboperators] at hop
    have hk := hall k (List.getElem?_eq_some_iff.mp hop).1
    rw [hof, Option.all_some] at hk
    simpa [hs] using hk
  · intro hall k _
    cases hof : (Pipeline.build subops).scopeOf k with
    | none => rfl
    | some s =>
      rw [Option.all_some]
      by_cases hs : Repiped.shared s ∈ layout
      · simp [hall k s hof hs]
      · simp [hs]

theorem logics_of_generateC {layout : List (Repiped IU)}
    (h : ((Pipeline.build subops).generateC layout).isSome) :
    (Pipeline.build subops).logicsInside layout = true := by
  obtain ⟨ctx, hctx⟩ := Option.isSome_iff_exists.mp h
  rw [Pipeline.generateC, Option.bind_eq_bind, Option.bind_eq_some_iff] at hctx
  obtain ⟨_, _, hctx⟩ := hctx
  split at hctx
  · assumption
  · cases hctx

/-- Code is generated for a range exactly when it is closed and has the logics of its scopes. -/
theorem generateC_iff (h : Attached isVoid subops) (hsorted : ks.Pairwise (· < ·))
    (hlt : ∀ k ∈ ks, k < subops.length) (hrequired : required.Nodup)
    (houtside : ∀ iu ∈ required, iu ∉ ks.flatMap (iusAt subops))
    (hmaterialize : ∀ iu ∈ materialize, iu ∈ ks.flatMap (iusAt subops)) :
    ((Pipeline.build subops).generateC (rangeLayout isVoid required ks materialize)).isSome ↔
      ReadsInside subops isVoid required ks ∧
        ∀ k s, (Pipeline.build subops).scopeOf k = some s → s ∈ ks → k ∈ ks := by
  have hks : ks.Nodup := hsorted.imp Nat.ne_of_lt
  obtain ⟨ops, hops⟩ : ∃ ops, (rangeLayout isVoid required ks materialize).mapM
      (·.toSuboperator subops) = some ops :=
    exists_ops fun k hk => hlt k (mem_rangeLayout_shared.mp hk)
  have hinside : (Pipeline.build subops).logicsInside
      (rangeLayout isVoid required ks materialize) = true ↔
      ∀ k s, (Pipeline.build subops).scopeOf k = some s → s ∈ ks → k ∈ ks := by
    simp only [logicsInside_iff, mem_rangeLayout_shared]
  rw [Pipeline.generateC, build_suboperators, hops, Option.bind_eq_bind, Option.bind_some,
    ← hinside]
  by_cases hall : (Pipeline.build subops).logicsInside
      (rangeLayout isVoid required ks materialize) = true
  · rw [if_pos hall, and_iff_left hall]
    constructor
    · exact reads_of_compiled hops h hks hrequired houtside
    · intro hreads
      have hlinks := ops_links hops h hsorted hrequired houtside hreads hmaterialize
        (hinside.mp hall)
      obtain ⟨ctx, _, _, hcompile, _⟩ := compile_order hlinks (2 * ops.length + 1) (le_refl _)
      rw [hcompile]
      rfl
  · rw [if_neg hall]
    simp [hall]

end Positions

end InkFuse.Algebra.SubopGraph
