import InkFuse.Algebra.FilterRequests

/-!
A pipeline for which code is generated without an exception is closed: whatever a suboperator
reads, some suboperator of the pipeline provides. For every pipeline that nobody reads from, and
for what is read from it, some request would fail otherwise.
-/

namespace InkFuse.Algebra.SubopGraph

variable {IU : Type} [DecidableEq IU] {p : Pipeline IU} {ctx ctx' ctx'' : CompilationContext IU}

/-- Opened, or a filter logic whose scope is opened: the scope makes a request in its name. -/
def Touched (p : Pipeline IU) (ctx : CompilationContext IU) (k : ℕ) : Prop :=
  .opened k ∈ ctx.trace ∨
    ∃ s, p.scopeOf k = some s ∧ p.isScopeAt s = true ∧ .opened s ∈ ctx.trace

def Answered (p : Pipeline IU) (ctx : CompilationContext IU) (ask : ℕ × IU) : Prop :=
  ∃ j, p.findProvider ask.1 ask.2 = some j ∧ Touched p ctx j

/-- Only touched suboperators are announced and wait for inputs. -/
structure Traced (p : Pipeline IU) (ctx : CompilationContext IU) : Prop where
  computed : ∀ k, ctx.computed k = true → Touched p ctx k
  requested : ∀ k r iu, ctx.requests k = some (r, iu) → Touched p ctx r

/-- What was opened in between has answers to all of its requests. -/
structure Grows (p : Pipeline IU) (ctx ctx' : CompilationContext IU) : Prop where
  kept : ∀ k, .opened k ∈ ctx.trace → .opened k ∈ ctx'.trace
  answered : ∀ k, .opened k ∈ ctx'.trace →
    .opened k ∈ ctx.trace ∨ ∀ ask ∈ p.asks k, Answered p ctx' ask

section Relations

theorem Touched.mono {k : ℕ} (h : Touched p ctx k) (hkept : ∀ k, .opened k ∈ ctx.trace →
    .opened k ∈ ctx'.trace) : Touched p ctx' k := by
  rcases h with h | ⟨s, hs, hscope, h⟩
  · exact .inl (hkept _ h)
  · exact .inr ⟨s, hs, hscope, hkept _ h⟩

theorem Answered.mono {ask : ℕ × IU} (h : Answered p ctx ask)
    (hkept : ∀ k, .opened k ∈ ctx.trace → .opened k ∈ ctx'.trace) : Answered p ctx' ask := by
  obtain ⟨j, hfind, htouched⟩ := h
  exact ⟨j, hfind, htouched.mono hkept⟩

theorem Grows.trans (h : Grows p ctx ctx') (h' : Grows p ctx' ctx'') : Grows p ctx ctx'' := by
  refine ⟨fun k hk => h'.kept k (h.kept k hk), fun k hk => ?_⟩
  rcases h'.answered k hk with hk | hall
  · rcases h.answered k hk with hk | hall
    · exact .inl hk
    · exact .inr fun ask hask => (hall ask hask).mono h'.kept
  · exact .inr hall

/-- Nothing is opened. -/
theorem Grows.of_trace (h : ∀ k, .opened k ∈ ctx'.trace ↔ .opened k ∈ ctx.trace) :
    Grows p ctx ctx' :=
  ⟨fun k hk => (h k).mpr hk, fun k hk => .inl ((h k).mp hk)⟩

theorem Traced.of_trace (h : Traced p ctx)
    (htrace : ∀ k, .opened k ∈ ctx.trace → .opened k ∈ ctx'.trace)
    (hcomputed : ctx'.computed = ctx.computed) (hrequests : ctx'.requests = ctx.requests) :
    Traced p ctx' := by
  refine ⟨fun k hk => ?_, fun k r iu hk => ?_⟩
  · rw [hcomputed] at hk
    exact (h.computed k hk).mono htrace
  · rw [hrequests] at hk
    exact (h.requested k r iu hk).mono htrace

end Relations

section Notifying

omit [DecidableEq IU] in
theorem opened_log {event : ProtocolEvent} (hevent : ∀ k, event ≠ .opened k) (k : ℕ) :
    .opened k ∈ (ctx.log event).trace ↔ .opened k ∈ ctx.trace := by
  simp only [CompilationContext.log, List.mem_append, List.mem_singleton]
  exact or_iff_left (hevent k).symm

theorem Traced.log (h : Traced p ctx) {event : ProtocolEvent} (hevent : ∀ k, event ≠ .opened k) :
    Traced p (ctx.log event) :=
  h.of_trace (fun k hk => (opened_log hevent k).mpr hk) rfl rfl

theorem Traced.announce {op : ℕ} (h : Traced p ctx) (htouched : Touched p ctx op) :
    Traced p (ctx.announce op) := by
  have hlog : ∀ k, .opened k ∈ (ctx.announce op).trace ↔ .opened k ∈ ctx.trace :=
    opened_log (by simp)
  refine ⟨fun k hk => ?_, fun k r iu hk => (h.requested k r iu hk).mono fun k => (hlog k).mpr⟩
  by_cases heq : k = op
  · subst heq
    exact htouched.mono fun k => (hlog k).mpr
  · have hcomputed : ctx.computed k = true := by
      simpa [Function.update_of_ne heq] using hk
    exact (h.computed k hcomputed).mono fun k => (hlog k).mpr

/-- The calls that a notification leads to do not open anything. -/
theorem notify_grows {fuel op : ℕ} (h : p.notifyIUsReady fuel op ctx = some ctx')
    (htraced : Traced p ctx) (htouched : Touched p ctx op) :
    Traced p ctx' ∧ Grows p ctx ctx' := by
  induction fuel generalizing op ctx ctx' with
  | zero => cases h
  | succ fuel ih =>
    have hlog : ∀ k, .opened k ∈ (ctx.announce op).trace ↔ .opened k ∈ ctx.trace :=
      opened_log (by simp)
    rw [Pipeline.notifyIUsReady] at h
    split at h
    · cases h
      exact ⟨htraced.announce htouched, Grows.of_trace hlog⟩
    · split at h
      · cases h
      · rename_i requestor iu hrequest
        have hannounced := htraced.announce htouched
        set erased := (ctx.announce op).erase op with herased
        have htracedErased : Traced p erased := by
          refine ⟨hannounced.computed, fun k r iu' hk => ?_⟩
          by_cases heq : k = op
          · rw [herased, heq] at hk
            simp at hk
          · have hk' : ctx.requests k = some (r, iu') := by
              simpa [herased, Function.update_of_ne heq] using hk
            exact hannounced.requested k r iu' hk'
        have hrequestor : Touched p erased requestor :=
          (htraced.requested op requestor iu hrequest).mono fun k => (hlog k).mpr
        have hgrows : Grows p ctx erased := Grows.of_trace hlog
        -- what the requestor does in `consume` and, with all inputs, behind it
        have hcall : ∀ {c c' : CompilationContext IU} {event : ProtocolEvent} {b : Prop}
            [Decidable b], (∀ k, event ≠ .opened k) → Traced p c → Touched p c requestor →
            (if b then p.notifyIUsReady fuel requestor (c.log event)
              else some (c.log event)) = some c' → Traced p c' ∧ Grows p c c' := by
          intro c c' event b _ hevent hc hr hrun
          have hlogged : ∀ k, .opened k ∈ (c.log event).trace ↔ .opened k ∈ c.trace :=
            opened_log hevent
          have hgrowsLog : Grows p c (c.log event) := Grows.of_trace hlogged
          split at hrun
          · obtain ⟨htraced', hgrows'⟩ := ih hrun (hc.log hevent)
              (hr.mono fun k => (hlogged k).mpr)
            exact ⟨htraced', hgrowsLog.trans hgrows'⟩
          · cases hrun
            exact ⟨hc.log hevent, hgrowsLog⟩
        rw [Pipeline.serve, Option.bind_eq_bind, Option.bind_eq_some_iff] at h
        obtain ⟨c, hconsume, h⟩ := h
        obtain ⟨hc, hgrowsC⟩ := hcall (by simp) htracedErased hrequestor hconsume
        have hserviced : Traced p (c.service requestor) := hc.of_trace (fun k hk => hk) rfl rfl
        have hgrowsS : Grows p c (c.service requestor) := Grows.of_trace fun _ => Iff.rfl
        have hall := (hgrows.trans hgrowsC).trans hgrowsS
        dsimp only at h
        split at h
        · rw [Pipeline.consumeAllChildren, ← ite_not] at h
          obtain ⟨htraced', hgrows'⟩ := hcall (by simp) hserviced
            ((hrequestor.mono hgrowsC.kept).mono hgrowsS.kept) h
          exact ⟨htraced', hall.trans hgrows'⟩
        · cases h
          exact ⟨hserviced, hall⟩

end Notifying

section Opening

variable {fuel op : ℕ}

theorem Touched.of_asks {ask : ℕ × IU} (hask : ask ∈ p.asks op) (h : .opened op ∈ ctx.trace) :
    Touched p ctx ask.1 := by
  have hown : ask ∈ p.ownRequests op → ask.1 = op := by
    intro hmem
    unfold Pipeline.ownRequests at hmem
    split at hmem
    · rw [List.mem_singleton.mp hmem]
    · obtain ⟨iu, _, rfl⟩ := List.mem_map.mp hmem
      rfl
    · cases hmem
  unfold Pipeline.asks at hask
  split at hask
  · rename_i filterIU pseudo hscope
    rcases List.mem_append.mp hask with hlogic | hmem
    · obtain ⟨_, _, _, hof⟩ := mem_filterLogics.mp hlogic
      exact .inr ⟨op, hof, isScopeAt_iff.mpr ⟨filterIU, pseudo, hscope⟩, h⟩
    · rw [hown hmem]
      exact .inl h
  · rw [hown hask]
    exact .inl h

/-- `requestIU` for a suboperator that is touched. -/
theorem requestIU_grows {iu : IU} {openOp : ℕ → CompilationContext IU →
      Option (CompilationContext IU)}
    (hopen : ∀ {j : ℕ} {c c' : CompilationContext IU}, openOp j c = some c' → Traced p c →
      Traced p c' ∧ Grows p c c' ∧ .opened j ∈ c'.trace)
    (h : p.requestIU openOp (p.notifyIUsReady fuel) op ctx iu = some ctx')
    (htraced : Traced p ctx) (htouched : Touched p ctx op) :
    Traced p ctx' ∧ Grows p ctx ctx' ∧ Answered p ctx' (op, iu) := by
  rw [Pipeline.requestIU] at h
  split at h
  · cases h
  · rename_i provider hfind
    have hrequested : Traced p (ctx.request provider op iu) := by
      refine ⟨fun k hk => htraced.computed k hk, fun k r iu' hk => ?_⟩
      by_cases heq : k = provider
      · subst heq
        have hpair : (op, iu) = (r, iu') := by simpa using hk
        rw [← (Prod.mk.inj hpair).1]
        exact htouched
      · exact htraced.requested k r iu' (by simpa [Function.update_of_ne heq] using hk)
    have hgrows : Grows p ctx (ctx.request provider op iu) := Grows.of_trace fun _ => Iff.rfl
    split at h
    · rename_i hcomputed
      have hprovider : Touched p ctx provider := htraced.computed provider hcomputed
      obtain ⟨htraced', hgrows'⟩ := notify_grows h hrequested hprovider
      exact ⟨htraced', hgrows.trans hgrows',
        provider, hfind, (hprovider.mono hgrows.kept).mono hgrows'.kept⟩
    · obtain ⟨htraced', hgrows', hopened⟩ := hopen h hrequested
      exact ⟨htraced', hgrows.trans hgrows', provider, hfind, .inl hopened⟩

theorem open_grows (h : p.openWithFilters fuel op ctx = some ctx') (htraced : Traced p ctx) :
    Traced p ctx' ∧ Grows p ctx ctx' ∧ .opened op ∈ ctx'.trace := by
  induction fuel generalizing op ctx ctx' with
  | zero => cases h
  | succ fuel ih =>
    set opened := ctx.log (.opened op) with hopenedDef
    have hopened : .opened op ∈ opened.trace := by simp [hopenedDef]
    have hkept : ∀ k, .opened k ∈ ctx.trace → .opened k ∈ opened.trace := by
      intro k hk
      simp [hopenedDef, hk]
    have hback : ∀ k, .opened k ∈ opened.trace → k = op ∨ .opened k ∈ ctx.trace := by
      intro k hk
      simp only [hopenedDef, CompilationContext.log, List.mem_append, List.mem_singleton,
        ProtocolEvent.opened.injEq] at hk
      exact hk.symm
    have htracedOpened : Traced p opened := htraced.of_trace hkept rfl rfl
    -- the answers to the requests of `op` are those that make the step grow
    have hfinish : Traced p ctx' → Grows p opened ctx' →
        (∀ ask ∈ p.asks op, Answered p ctx' ask) →
        Traced p ctx' ∧ Grows p ctx ctx' ∧ .opened op ∈ ctx'.trace := by
      intro htraced' hgrows hall
      refine ⟨htraced', ⟨fun k hk => hgrows.kept k (hkept k hk), fun k hk => ?_⟩,
        hgrows.kept op hopened⟩
      rcases hgrows.answered k hk with hk | hanswered
      · rcases hback k hk with rfl | hk
        · exact .inr hall
        · exact .inl hk
      · exact .inr hanswered
    have hloop : ∀ (asks : List (ℕ × IU)) {c : CompilationContext IU},
        (∀ ask ∈ asks, ask ∈ p.asks op) → Traced p c → .opened op ∈ c.trace →
        asks.foldlM (fun ctx ask => p.requestIU (p.openWithFilters fuel)
          (p.notifyIUsReady fuel) ask.1 ctx ask.2) c = some ctx' →
        Traced p ctx' ∧ Grows p c ctx' ∧ ∀ ask ∈ asks, Answered p ctx' ask := by
      intro asks
      induction asks with
      | nil =>
        intro c _ hc _ hrun
        cases hrun
        exact ⟨hc, Grows.of_trace fun _ => Iff.rfl, by simp⟩
      | cons ask asks ihasks =>
        intro c hasks hc hopenedC hrun
        rw [List.foldlM_cons, Option.bind_eq_bind, Option.bind_eq_some_iff] at hrun
        obtain ⟨c', hrequest, hrun⟩ := hrun
        obtain ⟨hc', hgrows, hanswered⟩ := requestIU_grows (fun hrun hc => ih hrun hc) hrequest hc
          (Touched.of_asks (hasks ask List.mem_cons_self) hopenedC)
        obtain ⟨htraced', hgrows', hall⟩ := ihasks
          (fun ask hask => hasks ask (List.mem_cons_of_mem _ hask)) hc'
          (hgrows.kept op hopenedC) hrun
        exact ⟨htraced', hgrows.trans hgrows',
          List.forall_mem_cons.mpr ⟨hanswered.mono hgrows'.kept, hall⟩⟩
    rw [Pipeline.openWithFilters] at h
    split at h
    · cases h
    · split at h
      · rename_i hnone
        obtain ⟨htraced', hgrows⟩ := notify_grows h htracedOpened (.inl hopened)
        exact hfinish htraced' hgrows (by simp [hnone])
      · rename_i hasks
        obtain ⟨htraced', hgrows, hall⟩ := hloop (p.asks op) (fun _ hask => hask) htracedOpened
          hopened h
        exact hfinish htraced' hgrows hall

/-- Every sink is opened, and whatever is opened has answers to its requests. -/
theorem openSinks_answered (h : p.openSinks fuel = some ctx) :
    (∀ sink ∈ p.sinks, .opened sink ∈ ctx.trace) ∧
    ∀ k, .opened k ∈ ctx.trace → ∀ ask ∈ p.asks k, Answered p ctx ask := by
  have hloop : ∀ (sinks : List ℕ) {c : CompilationContext IU}, Traced p c →
      sinks.foldlM (fun ctx sink => p.openWithFilters fuel sink ctx) c = some ctx →
      Grows p c ctx ∧ ∀ sink ∈ sinks, .opened sink ∈ ctx.trace := by
    intro sinks
    induction sinks with
    | nil =>
      intro c _ hrun
      cases hrun
      exact ⟨Grows.of_trace fun _ => Iff.rfl, by simp⟩
    | cons sink sinks ih =>
      intro c hc hrun
      rw [List.foldlM_cons, Option.bind_eq_bind, Option.bind_eq_some_iff] at hrun
      obtain ⟨c', hopen, hrun⟩ := hrun
      obtain ⟨hc', hgrows, hopened⟩ := open_grows hopen hc
      obtain ⟨hgrows', hall⟩ := ih hc' hrun
      exact ⟨hgrows.trans hgrows', List.forall_mem_cons.mpr ⟨hgrows'.kept sink hopened, hall⟩⟩
  have hstart : Traced p CompilationContext.start := by
    refine ⟨fun k hk => ?_, fun k r iu hk => ?_⟩
    · cases hk
    · cases hk
  obtain ⟨hgrows, hall⟩ := hloop p.sinks hstart h
  refine ⟨hall, fun k hk => ?_⟩
  rcases hgrows.answered k hk with hk | hanswered
  · cases hk
  · exact hanswered

end Opening

section Closed

variable {subops : List (Suboperator IU)} {fuel : ℕ}

/-- A pseudo IU that a filter logic reads comes from a scope, when anything provides it. -/
def PseudosFromScopes (subops : List (Suboperator IU)) : Prop :=
  ∀ (k j : ℕ) (pseudo incoming redefined : IU),
    subops[k]? = some (.columnFilterLogic pseudo incoming redefined) → pseudo ∈ iusAt subops j →
      ∃ filterIU, subops[j]? = some (.columnFilterScope filterIU pseudo)

theorem findProvider_provides {k j : ℕ} {iu : IU}
    (h : (Pipeline.build subops).findProvider k iu = some j) : iu ∈ iusAt subops j := by
  have hfind := List.find?_some h
  rwa [decide_eq_true_iff, build_suboperators] at hfind

/-- An opened scope makes the requests of its logics. -/
theorem logic_answered {k s : ℕ} {pseudo incoming redefined : IU}
    (hop : subops[k]? = some (.columnFilterLogic pseudo incoming redefined))
    (hscope : (Pipeline.build subops).scopeOf k = some s)
    (hs : (Pipeline.build subops).isScopeAt s = true) (hopened : .opened s ∈ ctx.trace)
    (hall : ∀ k, .opened k ∈ ctx.trace → ∀ ask ∈ (Pipeline.build subops).asks k,
      Answered (Pipeline.build subops) ctx ask) :
    ∀ iu ∈ sourceIUsAt subops k, Answered (Pipeline.build subops) ctx (k, iu) := by
  obtain ⟨filterIU, pseudo', hscopeOp⟩ := isScopeAt_iff.mp hs
  obtain ⟨_, _, _, hop', hfind⟩ := scopeOf_eq_some hscope
  rw [build_suboperators, hop] at hop'
  cases hop'
  rw [sourceIUsAt_eq hop]
  intro iu hiu
  rcases List.mem_cons.mp hiu with rfl | hiu
  · exact ⟨s, hfind, .inl hopened⟩
  · rw [List.mem_singleton.mp hiu]
    apply hall s hopened
    have hlogic : (k, incoming) ∈ (Pipeline.build subops).filterLogics s :=
      mem_filterLogics.mpr ⟨pseudo, redefined, by rwa [build_suboperators], hscope⟩
    unfold Pipeline.asks
    rw [hscopeOp]
    exact List.mem_append_left _ hlogic

theorem answered_of_touched (hpseudos : PseudosFromScopes subops)
    (hall : ∀ k, .opened k ∈ ctx.trace → ∀ ask ∈ (Pipeline.build subops).asks k,
      Answered (Pipeline.build subops) ctx ask) {k : ℕ}
    (htouched : Touched (Pipeline.build subops) ctx k) :
    ∀ iu ∈ sourceIUsAt subops k, Answered (Pipeline.build subops) ctx (k, iu) := by
  rcases htouched with hopened | ⟨s, hscope, hs, hopened⟩
  · cases hop : subops[k]? with
    | none => simp [sourceIUsAt, hop]
    | some op =>
      have hown : ∀ ask ∈ (Pipeline.build subops).ownRequests k,
          ask ∈ (Pipeline.build subops).asks k := by
        intro ask hask
        unfold Pipeline.asks
        split
        · exact List.mem_append_right _ hask
        · exact hask
      by_cases hlogic : ∃ pseudo incoming redefined,
          op = .columnFilterLogic pseudo incoming redefined
      · obtain ⟨pseudo, incoming, redefined, rfl⟩ := hlogic
        -- the logic asks for the pseudo IU, so its scope is opened
        have hpseudo : Answered (Pipeline.build subops) ctx (k, pseudo) :=
          hall k hopened (k, pseudo) (hown _ (by
            simp [Pipeline.ownRequests, build_suboperators, hop]))
        obtain ⟨s, hfind, htouched⟩ := hpseudo
        obtain ⟨filterIU, hscopeOp⟩ := hpseudos k s pseudo incoming redefined hop
          (findProvider_provides hfind)
        have hs : (Pipeline.build subops).isScopeAt s = true :=
          isScopeAt_iff.mpr ⟨filterIU, pseudo, by rwa [build_suboperators]⟩
        have hscope : (Pipeline.build subops).scopeOf k = some s := by
          simp only [Pipeline.scopeOf, build_suboperators, hop]
          exact hfind
        have hopenedScope : .opened s ∈ ctx.trace := by
          rcases htouched with hopenedScope | ⟨_, hof, _, _⟩
          · exact hopenedScope
          · obtain ⟨_, _, _, hop', _⟩ := scopeOf_eq_some hof
            rw [build_suboperators, hscopeOp] at hop'
            cases hop'
        exact logic_answered hop hscope hs hopenedScope hall
      · intro iu hiu
        rw [sourceIUsAt_eq hop] at hiu
        apply hall k hopened (k, iu) (hown _ _)
        have hrequests : (Pipeline.build subops).ownRequests k =
            op.getSourceIUs.map fun iu => (k, iu) := by
          unfold Pipeline.ownRequests
          rw [build_suboperators, hop]
          split
          · rename_i pseudo incoming redefined heq
            exact absurd ⟨pseudo, incoming, redefined, Option.some.inj heq⟩ hlogic
          · rename_i heq
            rw [Option.some.inj heq]
          · rename_i heq
            cases heq
        rw [hrequests]
        exact List.mem_map_of_mem hiu
  · obtain ⟨pseudo, incoming, redefined, hop, _⟩ := scopeOf_eq_some hscope
    rw [build_suboperators] at hop
    exact logic_answered hop hscope hs hopened hall

/-- Every suboperator is a sink, or a later one requests it. -/
theorem all_touched (hunique : UniqueProviders subops) (hpseudos : PseudosFromScopes subops)
    (hsinks : ∀ sink ∈ (Pipeline.build subops).sinks, .opened sink ∈ ctx.trace)
    (hall : ∀ k, .opened k ∈ ctx.trace → ∀ ask ∈ (Pipeline.build subops).asks k,
      Answered (Pipeline.build subops) ctx ask) {k : ℕ} (hk : k < subops.length) :
    Touched (Pipeline.build subops) ctx k := by
  induction hd : subops.length - k using Nat.strong_induction_on generalizing k with
  | h d ih =>
    by_cases hsink : k ∈ (Pipeline.build subops).sinks
    · exact .inl (hsinks k hsink)
    · have hread : ((Pipeline.build subops).outgoingEdges k).isEmpty = false := by
        simp only [Pipeline.sinks, build_suboperators, List.mem_append, List.mem_filter,
          List.mem_range, hk, true_and, not_or, Pipeline.producesNoRequest] at hsink
        simpa [hsink.2] using hsink.1
      obtain ⟨c, hc⟩ := List.exists_mem_of_ne_nil _ (List.isEmpty_eq_false_iff.mp hread)
      rw [mem_outgoingEdges, incomingEdges_build] at hc
      cases hop : subops[c]? with
      | none => simp [hop] at hc
      | some op =>
        rw [hop, List.mem_filterMap] at hc
        obtain ⟨iu, hiu, hprovider⟩ := hc
        obtain ⟨a, ha, hia⟩ := exists_of_provider hprovider
        have hlt := (List.getElem?_eq_some_iff.mp ha).1
        rw [List.length_take] at hlt
        rw [List.getElem?_take_of_lt (by omega)] at ha
        have hcn := (List.getElem?_eq_some_iff.mp hop).1
        have htouched := ih (subops.length - c) (by omega) hcn rfl
        obtain ⟨j, hfind, hj⟩ := answered_of_touched hpseudos hall htouched iu
          (by rwa [sourceIUsAt_eq hop])
        obtain ⟨b, hb, hib⟩ := mem_iusAt.mp (findProvider_provides hfind)
        rwa [← hunique.eq hb ha hib hia]

/-- When code is generated, every input has a provider. -/
theorem compile_closed (hunique : UniqueProviders subops) (hpseudos : PseudosFromScopes subops)
    (h : ((Pipeline.build subops).compileWithFilters fuel).isSome) {k : ℕ} {iu : IU}
    (hiu : iu ∈ sourceIUsAt subops k) : ∃ j, iu ∈ iusAt subops j := by
  obtain ⟨_, hcompile⟩ := Option.isSome_iff_exists.mp h
  rw [Pipeline.compileWithFilters, Option.bind_eq_bind, Option.bind_eq_some_iff] at hcompile
  obtain ⟨ctx, hopen, _⟩ := hcompile
  obtain ⟨hsinks, hall⟩ := openSinks_answered hopen
  obtain ⟨op, hop, _⟩ := mem_sourceIUsAt.mp hiu
  have hk := (List.getElem?_eq_some_iff.mp hop).1
  obtain ⟨j, hfind, _⟩ := answered_of_touched hpseudos hall
    (all_touched hunique hpseudos hsinks hall hk) iu hiu
  exact ⟨j, findProvider_provides hfind⟩

end Closed

end InkFuse.Algebra.SubopGraph
