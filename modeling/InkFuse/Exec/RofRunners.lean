import InkFuse.Exec.RelaxedFusion

/-!
The runners of relaxed operator fusion: what the code of a compiled part and of an interpreter
consists of, and when a runner can be set up and pick a morsel.
-/

namespace InkFuse.Exec.RelaxedFusion

open Algebra.SubopGraph

variable {IU : Type} [DecidableEq IU] {subops : List (Suboperator IU)} {isVoid : IU → Bool}
  {start stop : ℕ}

section Layouts

variable {required materialize : List IU} {ks : List ℕ}

omit [DecidableEq IU] in
theorem sharedSubops_rangeLayout :
    sharedSubops (rangeLayout isVoid required ks materialize) = ks := by
  have hsource : sharedSubops (Pipeline.fuseChunkSource isVoid required) = [] := by
    unfold Pipeline.fuseChunkSource sharedSubops
    split
    · rfl
    · simp [List.filterMap_map]
  have hshared : sharedSubops (ks.map .shared : List (Repiped IU)) = ks := by
    simp [sharedSubops, List.filterMap_map]
  have hsinks : sharedSubops (materialize.map Repiped.fuseChunkSink) = [] := by
    simp [sharedSubops, List.filterMap_map]
  unfold sharedSubops at hsource hshared hsinks ⊢
  rw [rangeLayout, List.filterMap_append, List.filterMap_append, hsource, hshared, hsinks,
    List.append_nil, List.nil_append]

omit [DecidableEq IU] in
theorem loopSources_rangeLayout (p : Pipeline IU) :
    loopSources p (rangeLayout isVoid required ks materialize) =
      (if required = [] then [] else [.fuseChunkSourceDriver]) ++
        (ks.filter (isLoopSourceAt p)).map .shared := by
  have hsource : loopSources p (Pipeline.fuseChunkSource isVoid required) =
      if required = [] then [] else [.fuseChunkSourceDriver] := by
    unfold Pipeline.fuseChunkSource loopSources
    split
    · rfl
    · simp [List.filter_map, Function.comp_def]
  have hshared : loopSources p (ks.map Repiped.shared) =
      (ks.filter (isLoopSourceAt p)).map .shared := by
    simp [loopSources, List.filter_map, Function.comp_def]
  have hsinks : loopSources p (materialize.map Repiped.fuseChunkSink) = [] := by
    simp [loopSources, List.filter_map, Function.comp_def]
  unfold loopSources at hsource hshared hsinks ⊢
  rw [rangeLayout, List.filter_append, List.filter_append, hsource, hshared, hsinks,
    List.append_nil]

omit [DecidableEq IU] in
theorem head_rangeLayout_of_ne (hrequired : required ≠ []) :
    (rangeLayout isVoid required ks materialize).head? = some .fuseChunkSourceDriver := by
  rw [rangeLayout, Pipeline.fuseChunkSource, if_neg hrequired]
  rfl

omit [DecidableEq IU] in
theorem head_rangeLayout_nil {k : ℕ} (hk : ks.head? = some k) :
    (rangeLayout isVoid [] ks materialize).head? = some (.shared k) := by
  rw [rangeLayout, Pipeline.fuseChunkSource, if_pos rfl, List.nil_append, List.head?_append,
    List.head?_map, hk]
  rfl

omit [DecidableEq IU] in
theorem getLast_rangeLayout {k : ℕ} (hk : ks.getLast? = some k) :
    (rangeLayout isVoid required ks materialize).getLast? =
      match materialize.getLast? with
      | some iu => some (.fuseChunkSink iu)
      | none => some (.shared k) := by
  rw [rangeLayout, List.getLast?_append, List.getLast?_append, List.getLast?_map,
    List.getLast?_map, hk]
  cases materialize.getLast? <;> rfl

omit [DecidableEq IU] in
/-- The driver has a consumer when one of the columns can be in a fuse chunk. -/
theorem setsUp_rangeLayout :
    setsUp (rangeLayout isVoid required ks materialize) = true ↔
      (required = [] ∨ ∃ iu ∈ required, isVoid iu = false) := by
  unfold setsUp
  by_cases hrequired : required = []
  · simp [hrequired, rangeLayout, Pipeline.fuseChunkSource]
  · rw [or_iff_right hrequired]
    simp [rangeLayout, Pipeline.fuseChunkSource, hrequired, List.any_append, List.any_map,
      Function.comp_def, List.any_filter]

end Layouts

section Ranges

variable {first last : Suboperator IU}

omit [DecidableEq IU] in
theorem hasOutgoing_eq {p : Pipeline IU} {k : ℕ} {op : Suboperator IU}
    (hop : p.suboperators[k]? = some op) : hasOutgoing p k = op.outgoingStrongLinks := by
  rw [hasOutgoing, hop, Option.any_some]

/-- The strong producer of an index is the one suboperator that it is strongly linked to. -/
theorem incomingStrong_producer (h : Wired subops) (hfirst : subops[start]? = some first) :
    (Pipeline.build subops).incomingStrong start first =
        some (strongProducer (Pipeline.build subops) start) ∧
      (∀ j, strongProducer (Pipeline.build subops) start = some j ↔
        StronglyLinked subops j start) ∧
      ∀ j ∈ strongProducer (Pipeline.build subops) start, j < start ∧
        hasOutgoing (Pipeline.build subops) j = true := by
  obtain ⟨strong, hincoming, hlinked, hbefore⟩ := incomingStrong_eq h hfirst
  have hstrong : strongProducer (Pipeline.build subops) start = strong := by
    rw [strongProducer, build_suboperators, hfirst, Option.bind_some, hincoming, Option.join_some]
  rw [hstrong]
  refine ⟨hincoming, hlinked, fun j hj => ?_⟩
  obtain ⟨hlt, a, ha, hout⟩ := hbefore j hj
  refine ⟨hlt, ?_⟩
  rw [hasOutgoing_eq (by rwa [build_suboperators]), hout]

theorem strongProducer_lt (h : Wired subops) {j k : ℕ}
    (hj : strongProducer (Pipeline.build subops) k = some j) :
    j < k ∧ hasOutgoing (Pipeline.build subops) j = true := by
  cases hop : subops[k]? with
  | none =>
    rw [strongProducer, build_suboperators, hop] at hj
    cases hj
  | some op => exact (incomingStrong_producer h hop).2.2 j hj

/-- Who has a strong producer reads from it. -/
theorem strongProducer_reads (h : Wired subops) {j k : ℕ}
    (hj : strongProducer (Pipeline.build subops) k = some j) :
    ∃ op iu, subops[k]? = some op ∧ op.incomingStrongLinks = true ∧
      op.getSourceIUs.head? = some iu ∧ iu ∈ iusAt subops j := by
  cases hop : subops[k]? with
  | none =>
    rw [strongProducer, build_suboperators, hop] at hj
    cases hj
  | some op =>
    have hlink := ((incomingStrong_producer h hop).2.1 j).mp hj
    obtain ⟨op', iu, hop', hin, hhead, hiu⟩ := hlink
    rw [hop, Option.some_inj] at hop'
    subst hop'
    exact ⟨op, iu, rfl, hin, hhead, hiu⟩

theorem mem_keptAt {k : ℕ} : k ∈ keptAt (Pipeline.build subops) start stop ↔
    strongProducer (Pipeline.build subops) start = some k ∨ start ≤ k ∧ k < stop := by
  rw [keptAt, kept, List.mem_append, Option.mem_toList, List.mem_range'_1]
  apply or_congr_right
  omega

theorem keptAt_sorted (h : Wired subops) :
    (keptAt (Pipeline.build subops) start stop).Pairwise (· < ·) :=
  kept_sorted fun _ hj => (strongProducer_lt h hj).1

theorem keptAt_lt (h : Wired subops) (hstart : start < stop) (hstop : stop ≤ subops.length)
    {k : ℕ} (hk : k ∈ keptAt (Pipeline.build subops) start stop) : k < subops.length := by
  rcases mem_keptAt.mp hk with hk | hk
  · have := (strongProducer_lt h hk).1
    omega
  · omega

theorem requiredAt_eq (hfirst : subops[start]? = some first) :
    requiredAt (Pipeline.build subops) start stop = Pipeline.hackfix first
      (externalIUs subops (keptAt (Pipeline.build subops) start stop)) := by
  rw [requiredAt, build_suboperators, hfirst]

theorem mem_externalIUs {ks : List ℕ} {iu : IU} : iu ∈ externalIUs subops ks ↔
    (∃ k ∈ ks, iu ∈ sourceIUsAt subops k) ∧ iu ∉ ks.flatMap (iusAt subops) := by
  rw [externalIUs, List.mem_eraseDups, List.mem_filter, List.mem_flatMap, decide_eq_true_iff]

/-- What a range requires is read in it and provided outside. -/
theorem requiredAt_spec (h : Wired subops) (hfirst : subops[start]? = some first)
    (hstart : start < stop) :
    (requiredAt (Pipeline.build subops) start stop).Nodup ∧
      ∀ iu ∈ requiredAt (Pipeline.build subops) start stop,
        (∃ k ∈ keptAt (Pipeline.build subops) start stop, iu ∈ sourceIUsAt subops k) ∧
          iu ∉ (keptAt (Pipeline.build subops) start stop).flatMap (iusAt subops) := by
  rw [requiredAt_eq hfirst, Pipeline.hackfix]
  split
  · rename_i hmaterialize
    cases first with
    | materializeTuple input inputs ius =>
      refine ⟨List.nodup_singleton input, fun iu hiu => ?_⟩
      obtain rfl := List.mem_singleton.mp hiu
      have hsource : iu ∈ sourceIUsAt subops start := by
        rw [sourceIUsAt_eq hfirst]
        exact List.mem_cons_self
      refine ⟨⟨start, mem_keptAt.mpr (.inr ⟨le_refl _, hstart⟩), hsource⟩, fun hmem => ?_⟩
      obtain ⟨j, hj, hprovided⟩ := List.mem_flatMap.mp hmem
      have hlt := h.ordered j start iu hprovided hsource
      rcases mem_keptAt.mp hj with hstrong | hrange
      · obtain ⟨op, _, hop, hincoming, _⟩ := strongProducer_reads h hstrong
        rw [hfirst, Option.some_inj] at hop
        subst hop
        cases hincoming
      · omega
    | _ => cases hmaterialize
  · exact ⟨nodup_eraseDups _, fun iu hiu => mem_externalIUs.mp hiu⟩

/-- A range that requires nothing provides all that it reads. -/
theorem inside_of_requiredAt (hfirst : subops[start]? = some first)
    (hnone : requiredAt (Pipeline.build subops) start stop = []) {k : ℕ}
    (hk : k ∈ keptAt (Pipeline.build subops) start stop) {iu : IU}
    (hiu : iu ∈ sourceIUsAt subops k) :
    iu ∈ (keptAt (Pipeline.build subops) start stop).flatMap (iusAt subops) := by
  by_contra hnot
  have hexternal : iu ∈ externalIUs subops (keptAt (Pipeline.build subops) start stop) :=
    mem_externalIUs.mpr ⟨⟨k, hk, hiu⟩, hnot⟩
  rw [requiredAt_eq hfirst, Pipeline.hackfix] at hnone
  split at hnone
  · rename_i hmaterialize
    cases first with
    | materializeTuple input inputs ius =>
      simp [Suboperator.getSourceIUs] at hnone
    | _ => cases hmaterialize
  · rw [hnone] at hexternal
    cases hexternal

theorem repipe_range (isVoid : IU → Bool) (h : Wired subops) (materialize : List IU)
    (hstart : start < stop) (hstop : stop ≤ subops.length) (hfirst : subops[start]? = some first)
    (hlast : subops[stop - 1]? = some last) :
    (Pipeline.build subops).repipe isVoid start stop materialize =
      ((Pipeline.build subops).outgoingStrong (stop - 1) last).map fun outgoing =>
        rangeLayout isVoid (requiredAt (Pipeline.build subops) start stop)
          (keptAt (Pipeline.build subops) start stop ++ outgoing.toList) materialize := by
  obtain ⟨strong, hlinked, _, hrepipe⟩ :=
    repipe_shape h isVoid materialize hstart hstop hfirst hlast
  have hstrong : strongProducer (Pipeline.build subops) start = strong := by
    apply Option.ext
    intro j
    rw [(incomingStrong_producer h hfirst).2.1 j, hlinked j]
  rw [hrepipe, requiredAt_eq hfirst, keptAt, hstrong]

theorem keptAt_head (hstart : start < stop) :
    (keptAt (Pipeline.build subops) start stop).head? =
      some ((strongProducer (Pipeline.build subops) start).getD start) := by
  obtain ⟨n, hn⟩ : ∃ n, stop - start = n + 1 := ⟨stop - start - 1, by omega⟩
  rw [keptAt, kept, hn, List.range'_succ]
  cases strongProducer (Pipeline.build subops) start <;> rfl

theorem keptAt_getLast (hstart : start < stop) :
    (keptAt (Pipeline.build subops) start stop).getLast? = some (stop - 1) := by
  obtain ⟨n, hn⟩ : ∃ n, stop - start = n + 1 := ⟨stop - start - 1, by omega⟩
  rw [keptAt, kept, hn, List.range'_concat, ← List.append_assoc, List.getLast?_append]
  simp only [List.getLast?_singleton, Option.some_or, Nat.one_mul]
  congr 1
  omega

/-- A range that requires nothing begins with a source. -/
theorem source_of_requiredAt (h : Wired subops) (hfirst : subops[start]? = some first)
    (hnone : requiredAt (Pipeline.build subops) start stop = []) {k : ℕ}
    (hk : (keptAt (Pipeline.build subops) start stop).head? = some k) :
    sourceIUsAt subops k = [] := by
  apply List.eq_nil_iff_forall_not_mem.mpr
  intro iu hiu
  have hinside := inside_of_requiredAt hfirst hnone (List.mem_of_head? hk) hiu
  obtain ⟨j, hj, hprovided⟩ := List.mem_flatMap.mp hinside
  have hlt := h.ordered j k iu hprovided hiu
  obtain ⟨rest, hrest⟩ := List.head?_eq_some_iff.mp hk
  have hsorted : (keptAt (Pipeline.build subops) start stop).Pairwise (· < ·) := keptAt_sorted h
  rw [hrest] at hj hsorted
  rcases List.mem_cons.mp hj with rfl | hj
  · omega
  · have := List.rel_of_pairwise_cons hsorted hj
    omega

/-- A runner goes from a source to something that can be observed. -/
theorem constructs_range (isVoid : IU → Bool) (h : Wired subops) (materialize : List IU)
    (hstart : start < stop) (hfirst : subops[start]? = some first) :
    constructs (Pipeline.build subops) isVoid
        (rangeLayout isVoid (requiredAt (Pipeline.build subops) start stop)
          (keptAt (Pipeline.build subops) start stop) materialize) = true ↔
      materialize ≠ [] ∨ (iusAt subops (stop - 1)).head?.all isVoid = true := by
  have hhead : (rangeLayout isVoid (requiredAt (Pipeline.build subops) start stop)
      (keptAt (Pipeline.build subops) start stop) materialize).head?.any
        (fun first => (first.getSourceIUs subops).isEmpty) = true := by
    by_cases hrequired : requiredAt (Pipeline.build subops) start stop = []
    · have hsource := source_of_requiredAt h hfirst hrequired (keptAt_head hstart)
      rw [hrequired, head_rangeLayout_nil (keptAt_head hstart), Option.any_some,
        Repiped.getSourceIUs, hsource]
      rfl
    · rw [head_rangeLayout_of_ne hrequired]
      rfl
  rw [constructs, build_suboperators, hhead, Bool.true_and,
    getLast_rangeLayout (keptAt_getLast hstart)]
  cases hmaterialize : materialize.getLast? with
  | some iu =>
    have hne : materialize ≠ [] := by
      rintro rfl
      cases hmaterialize
    simp [hne, Repiped.getIUs]
  | none =>
    rw [List.getLast?_eq_none_iff] at hmaterialize
    subst hmaterialize
    rw [Option.any_some, Repiped.getIUs]
    cases iusAt subops (stop - 1) with
    | nil => simp
    | cons iu ius => simp

/-- Columns of a closed range can be in a fuse chunk. -/
theorem required_of_reads (h : Wired subops) (hstart : start < stop)
    (hfirst : subops[start]? = some first)
    (hreads : ReadsInside subops isVoid (requiredAt (Pipeline.build subops) start stop)
      (keptAt (Pipeline.build subops) start stop)) :
    requiredAt (Pipeline.build subops) start stop = [] ∨
      ∃ iu ∈ requiredAt (Pipeline.build subops) start stop, isVoid iu = false := by
  by_cases hrequired : requiredAt (Pipeline.build subops) start stop = []
  · exact .inl hrequired
  · obtain ⟨iu, hiu⟩ := List.exists_mem_of_ne_nil _ hrequired
    obtain ⟨⟨k, hk, hsource⟩, hnot⟩ := (requiredAt_spec h hfirst hstart).2 iu hiu
    rcases hreads k hk iu hsource with hinside | hvoid
    · exact absurd hinside hnot
    · exact .inr ⟨iu, hvoid⟩

end Ranges

section Compiled

variable {state : CompileState IU}

/-- The layout of a part that is cut where nothing is strongly linked. -/
def partLayout (p : Pipeline IU) (isVoid : IU → Bool) (start stop : ℕ) : List (Repiped IU) :=
  rangeLayout isVoid (requiredAt p start stop) (keptAt p start stop)
    (p.outRequired isVoid start stop)

theorem repipeRequired_part (h : Wired subops) (hstart : start < stop)
    (hstop : stop ≤ subops.length)
    (hlast : hasOutgoing (Pipeline.build subops) (stop - 1) = false) :
    (Pipeline.build subops).repipeRequired isVoid start stop =
      some (partLayout (Pipeline.build subops) isVoid start stop) := by
  have hlastOp := List.getElem?_eq_getElem (l := subops) (i := stop - 1) (by omega)
  have hout := hasOutgoing_eq (p := Pipeline.build subops) (by rwa [build_suboperators])
  rw [hlast] at hout
  rw [Pipeline.repipeRequired, repipe_range isVoid h _ hstart hstop
    (List.getElem?_eq_getElem (by omega)) hlastOp, Pipeline.outgoingStrong, ← hout]
  simp [partLayout]

/-- When a part can be compiled and its runner set up. -/
theorem attach_iff (h : Attached isVoid subops) (hstart : start < stop)
    (hstop : stop ≤ subops.length)
    (hlast : hasOutgoing (Pipeline.build subops) (stop - 1) = false) :
    attachCompileState (Pipeline.build subops) isVoid (start, stop) = some state ↔
      state = ⟨start, stop, partLayout (Pipeline.build subops) isVoid start stop⟩ ∧
      ReadsInside subops isVoid (requiredAt (Pipeline.build subops) start stop)
        (keptAt (Pipeline.build subops) start stop) ∧
      (∀ k s, (Pipeline.build subops).scopeOf k = some s →
        s ∈ keptAt (Pipeline.build subops) start stop →
          k ∈ keptAt (Pipeline.build subops) start stop) ∧
      ((Pipeline.build subops).outRequired isVoid start stop ≠ [] ∨
        (iusAt subops (stop - 1)).head?.all isVoid = true) := by
  have hwired := h.wired
  have hfirst := List.getElem?_eq_getElem (l := subops) (i := start) (by omega)
  obtain ⟨hrequired, houtside⟩ := requiredAt_spec hwired hfirst hstart
  have hmaterialize : ∀ iu ∈ (Pipeline.build subops).outRequired isVoid start stop,
      iu ∈ (keptAt (Pipeline.build subops) start stop).flatMap (iusAt subops) := by
    intro iu hiu
    obtain ⟨⟨_, k, hle, hlt, hprovided⟩, _⟩ := mem_outRequired.mp hiu
    exact List.mem_flatMap.mpr ⟨k, mem_keptAt.mpr (.inr ⟨hle, hlt⟩), hprovided⟩
  have hcode := generateC_iff h (keptAt_sorted hwired) (fun k hk =>
    keptAt_lt hwired hstart hstop hk) hrequired (fun iu hiu => (houtside iu hiu).2) hmaterialize
  have hconstructs := constructs_range isVoid hwired
    ((Pipeline.build subops).outRequired isVoid start stop) hstart hfirst
  rw [attachCompileState, repipeRequired_part hwired hstart hstop hlast, Option.bind_eq_bind,
    Option.bind_some]
  unfold partLayout
  constructor
  · intro hattach
    split at hattach
    · rename_i hall
      rw [Bool.and_eq_true, Bool.and_eq_true, hconstructs, hcode] at hall
      exact ⟨(Option.some.inj hattach).symm, hall.1.2.1, hall.1.2.2, hall.1.1⟩
    · cases hattach
  · rintro ⟨rfl, hreads, hlogics, houtput⟩
    rw [if_pos]
    rw [Bool.and_eq_true, Bool.and_eq_true, hconstructs, hcode]
    exact ⟨⟨houtput, hreads, hlogics⟩,
      setsUp_rangeLayout.mpr (required_of_reads hwired hstart hfirst hreads)⟩

theorem consumer_of_incoming {j k : ℕ} (h : j ∈ (Pipeline.build subops).incomingEdges k) :
    ∃ op, subops[k]? = some op ∧ op.getSourceIUs ≠ [] := by
  rw [incomingEdges_build] at h
  cases hop : subops[k]? with
  | none =>
    rw [hop] at h
    cases h
  | some op =>
    refine ⟨op, rfl, fun hnil => ?_⟩
    simp [hop, hnil] at h

omit [DecidableEq IU] in
/-- Of the suboperators with outgoing strong links, only scopes read. -/
theorem scope_of_outgoing {op : Suboperator IU} (hout : op.outgoingStrongLinks = true)
    (hsource : op.getSourceIUs ≠ []) :
    ∃ filterIU pseudo, op = .columnFilterScope filterIU pseudo := by
  cases op with
  | columnFilterScope filterIU pseudo => exact ⟨filterIU, pseudo, rfl⟩
  | loopDriver iu => exact absurd rfl hsource
  | scratchPadIUProvider iu => exact absurd rfl hsource
  | _ => cases hout

/-- A part that ends with outgoing strong links is compiled with the first consumer behind it. -/
theorem attach_outgoing (h : Attached isVoid subops) (hstart : start < stop)
    (hstop : stop ≤ subops.length)
    (hlast : hasOutgoing (Pipeline.build subops) (stop - 1) = true)
    (hattach : attachCompileState (Pipeline.build subops) isVoid (start, stop) = some state) :
    state.start = start ∧ state.stop = stop ∧
      ∃ j ∈ sharedSubops state.layout, stop ≤ j ∧
        hasOutgoing (Pipeline.build subops) j = false := by
  have hlastOp := List.getElem?_eq_getElem (l := subops) (i := stop - 1) (by omega)
  have hout := hasOutgoing_eq (p := Pipeline.build subops) (by rwa [build_suboperators])
  rw [hlast] at hout
  have hrepipe := repipe_range isVoid h.wired
    ((Pipeline.build subops).outRequired isVoid start stop) hstart hstop
    (List.getElem?_eq_getElem (by omega)) hlastOp
  rw [Pipeline.outgoingStrong, ← hout, if_pos rfl] at hrepipe
  rw [attachCompileState, Pipeline.repipeRequired, hrepipe] at hattach
  cases hedge : ((Pipeline.build subops).outgoingEdges (stop - 1)).head? with
  | none =>
    rw [hedge] at hattach
    cases hattach
  | some j =>
    rw [hedge, Option.map_some, Option.map_some, Option.bind_eq_bind, Option.bind_some] at hattach
    split at hattach
    · rename_i hall
      cases hattach
      rw [Bool.and_eq_true, Bool.and_eq_true] at hall
      have hincoming := (mem_outgoingEdges subops (stop - 1) j).mp (List.mem_of_head? hedge)
      have hlt := (lt_of_mem_incomingEdges h.provided hincoming).1
      refine ⟨rfl, rfl, j, ?_, by omega, ?_⟩
      · rw [sharedSubops_rangeLayout]
        simp
      · by_contra hj
        -- the consumer is a scope, and its logics are behind it
        obtain ⟨op, hop, hsource⟩ := consumer_of_incoming hincoming
        have hstrong := hasOutgoing_eq (p := Pipeline.build subops) (k := j)
          (by rwa [build_suboperators])
        rw [Bool.not_eq_false] at hj
        rw [hj] at hstrong
        obtain ⟨filterIU, pseudo, rfl⟩ := scope_of_outgoing hstrong.symm hsource
        obtain ⟨k, incoming, redefined, hlogic, hof⟩ := h.used j filterIU pseudo hop
        obtain ⟨s, hsk, _, _, hof', _⟩ := h.scopeOf hlogic
        rw [hof, Option.some_inj] at hof'
        subst hof'
        have hinside := logicsInside_iff.mp (logics_of_generateC hall.1.2) k j hof
          (mem_rangeLayout_shared.mpr (by simp))
        rcases List.mem_append.mp (mem_rangeLayout_shared.mp hinside) with hk | hk
        · rcases mem_keptAt.mp hk with hk | hk
          · have := (strongProducer_lt h.wired hk).1
            omega
          · omega
        · have hkj : k = j := by simpa using hk
          omega
    · cases hattach

end Compiled

section Interpreted

variable {hasFragment : Suboperator IU → Bool} {k : ℕ} {op : Suboperator IU}
  {layout : List (Repiped IU)}

def interpreterLayout (p : Pipeline IU) (isVoid : IU → Bool) (k : ℕ) : List (Repiped IU) :=
  rangeLayout isVoid (requiredAt p k (k + 1)) (keptAt p k (k + 1))
    ((iusAt p.suboperators k).filter fun iu => !isVoid iu).eraseDups

/-- When an interpreter can be set up. -/
theorem interpretedLayout_iff (h : Wired subops) (hop : subops[k]? = some op)
    (hout : op.outgoingStrongLinks = false) :
    interpretedLayout (Pipeline.build subops) isVoid hasFragment k op = some layout ↔
      layout = interpreterLayout (Pipeline.build subops) isVoid k ∧ hasFragment op = true ∧
        (requiredAt (Pipeline.build subops) k (k + 1) = [] ∨
          ∃ iu ∈ requiredAt (Pipeline.build subops) k (k + 1), isVoid iu = false) := by
  have hk := (List.getElem?_eq_some_iff.mp hop).1
  have hlast : subops[k + 1 - 1]? = some op := by rwa [Nat.add_sub_cancel]
  have hius : iusAt subops k = op.getIUs := by simp [iusAt, hop]
  have hrepipe : (Pipeline.build subops).repipeAll isVoid k (k + 1) =
      some (interpreterLayout (Pipeline.build subops) isVoid k) := by
    rw [Pipeline.repipeAll, repipe_range isVoid h _ (Nat.lt_succ_self k) hk hop hlast,
      Pipeline.outgoingStrong, hout]
    simp [interpreterLayout, hop, hout]
  have hconstructs : constructs (Pipeline.build subops) isVoid
      (interpreterLayout (Pipeline.build subops) isVoid k) = true := by
    unfold interpreterLayout
    rw [constructs_range isVoid h _ (Nat.lt_succ_self k) hop, Nat.succ_sub_one,
      build_suboperators, hius]
    cases op.getIUs with
    | nil => exact .inr rfl
    | cons iu ius =>
      cases hvoid : isVoid iu with
      | true =>
        right
        rw [List.head?_cons, Option.all_some, hvoid]
      | false =>
        left
        rw [List.filter_cons_of_pos (by simp [hvoid]), List.eraseDups_cons]
        exact List.cons_ne_nil _ _
  have hsetsUp : setsUp (interpreterLayout (Pipeline.build subops) isVoid k) = true ↔ _ :=
    setsUp_rangeLayout
  rw [interpretedLayout, hrepipe, Option.bind_eq_bind, Option.bind_some, hconstructs,
    Bool.true_and, ← hsetsUp]
  constructor
  · intro hsome
    split at hsome
    · rename_i hall
      rw [Bool.and_eq_true] at hall
      exact ⟨(Option.some.inj hsome).symm, hall⟩
    · cases hsome
  · rintro ⟨rfl, hall⟩
    rw [if_pos (by rwa [Bool.and_eq_true])]

end Interpreted

section Picks

variable {materialize : List IU}

/-- A fuse chunk can always be picked from; a range that requires nothing begins with what is
picked from. -/
theorem pickMorsel_range (hstart : start < stop) :
    pickMorsel (Pipeline.build subops)
        (rangeLayout isVoid (requiredAt (Pipeline.build subops) start stop)
          (keptAt (Pipeline.build subops) start stop) materialize) =
      if requiredAt (Pipeline.build subops) start stop = [] then
        if isLoopSourceAt (Pipeline.build subops)
            ((strongProducer (Pipeline.build subops) start).getD start) then
          some [.picked (.shared ((strongProducer (Pipeline.build subops) start).getD start))]
        else
          none
      else
        some [.picked .fuseChunkSourceDriver] := by
  unfold pickMorsel
  split_ifs with hrequired hloop
  · rw [hrequired, head_rangeLayout_nil (keptAt_head hstart)]
    simp [hloop]
  · rw [hrequired, head_rangeLayout_nil (keptAt_head hstart)]
    simp [hloop]
  · rw [head_rangeLayout_of_ne hrequired]

end Picks

end InkFuse.Exec.RelaxedFusion
