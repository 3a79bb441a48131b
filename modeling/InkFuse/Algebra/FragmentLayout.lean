import InkFuse.Algebra.Repipe
import InkFuse.Algebra.FusedCode

/-!
The interpreter runs code that was compiled for a fragment: a pipeline around one suboperator, with
IUs of its own. The code knows the states of its suboperators by their position, and gets those of
the repiped suboperator of the query. So both have to have the same suboperators in the same order.
-/

namespace InkFuse.Algebra.SubopGraph

variable {IU : Type}

namespace Suboperator

/-- The pipelines of `TScanFragmetizer`, `CopyFragmentizer`, `ColumnFilterFragmentizer` and
`ExpressionFragmentizer`; `filtersItself` is part of the id of a filter logic. -/
def fragment (filtersItself : Bool) : Suboperator IU → List (Suboperator ℕ)
  | tscanIUProvider _ _ => [.loopDriver 0, .tscanIUProvider 0 1]
  | copy _ _ => [.copy 0 1]
  | columnFilterLogic .. =>
    if filtersItself then [.columnFilterScope 0 1, .columnFilterLogic 1 0 2]
    else [.columnFilterScope 0 1, .columnFilterLogic 1 2 3]
  | other _ inputs _ => [.other 0 (List.range' 1 inputs.length) [inputs.length + 1]]
  | _ => []

def fragmentVoid : Suboperator IU → ℕ → Bool
  | columnFilterLogic .. => fun x => x = 1
  | _ => fun _ => false

/-- `FragmentGenerator::build` repipes the whole pipeline. -/
def fragmentLayout (filtersItself : Bool) (op : Suboperator IU) : Option (List (Repiped ℕ)) :=
  (Pipeline.build (op.fragment filtersItself)).repipeAll op.fragmentVoid 0
    (op.fragment filtersItself).length

/-- The suboperators with an interpreter whose fragment is modelled. -/
def isInterpreted : Suboperator IU → Bool
  | tscanIUProvider .. => true
  | copy .. => true
  | columnFilterLogic .. => true
  | other _ _ ius => ius.length = 1
  | _ => false

end Suboperator

/-- The states at this position belong to the same thing: both are the loop driver, or the provider
or the sink of the same IU, or the same suboperator. -/
def Repiped.Matches (fragment : List (Suboperator ℕ)) (subops : List (Suboperator IU))
    (f : ℕ → IU) : Repiped ℕ → Repiped IU → Prop
  | .fuseChunkSourceDriver, .fuseChunkSourceDriver => True
  | .fuseChunkSourceIUProvider x, .fuseChunkSourceIUProvider iu => f x = iu
  | .shared i, .shared k => ∃ op, fragment[i]? = some op ∧ subops[k]? = some (op.rename f)
  | .fuseChunkSink x, .fuseChunkSink iu => f x = iu
  | _, _ => False

def Agrees (fragment : List (Suboperator ℕ)) (subops : List (Suboperator IU))
    (layout : List (Repiped ℕ)) (layout' : List (Repiped IU)) : Prop :=
  ∃ f : ℕ → IU, List.Forall₂ (Repiped.Matches fragment subops f) layout layout'

/-- No IU is read twice, except by a filter logic that says so. -/
def ReadsApart (subops : List (Suboperator IU)) (filtersItself : Bool) : Suboperator IU → Prop
  | .other input inputs _ => (input :: inputs).Nodup
  | .columnFilterLogic pseudo incoming _ =>
    filtersItself = true ↔
      ∃ s : ℕ, subops[s]? = some (Suboperator.columnFilterScope incoming pseudo)
  | _ => True

/-- Table scans are driven by a loop, filter logics by a scope. The types of pseudo IUs, and only
these, are void. -/
structure Interpretable (subops : List (Suboperator IU)) (isVoid : IU → Bool) : Prop
    extends WellFormed subops where
  scans : ∀ (k : ℕ) (source iu : IU), subops[k]? = some (.tscanIUProvider source iu) →
    ∃ j : ℕ, subops[j]? = some (.loopDriver source)
  filters : ∀ (k : ℕ) (pseudo incoming redefined : IU),
    subops[k]? = some (.columnFilterLogic pseudo incoming redefined) →
      ∃ (s : ℕ) (filterIU : IU), subops[s]? = some (.columnFilterScope filterIU pseudo)
  pseudo : ∀ (s : ℕ) (filterIU pseudo : IU),
    subops[s]? = some (.columnFilterScope filterIU pseudo) → isVoid pseudo = true
  columns : ∀ op ∈ subops, ∀ iu, iu ∈ op.reads ∨ iu ∈ op.declares → isVoid iu = false

variable [DecidableEq IU] {subops : List (Suboperator IU)} {isVoid : IU → Bool} {k : ℕ}
variable {op : Suboperator IU}

section Layouts

/-- What `repipeAll` does around one suboperator. -/
theorem repipeAll_one (isVoid : IU → Bool) (h : WellFormed subops) (hop : subops[k]? = some op)
    (hinterpreted : op.isInterpreted = true) :
    ∃ strong, (∀ j, strong = some j ↔ StronglyLinked subops j k) ∧
      (Pipeline.build subops).repipeAll isVoid k (k + 1) =
        some (repipedLayout subops isVoid (strong.toList ++ [k])
          (op.getIUs.filter fun iu => !isVoid iu).eraseDups) := by
  have hlt := (List.getElem?_eq_some_iff.mp hop).1
  have hout : op.outgoingStrongLinks = false := by
    cases op with
    | columnFilterScope => cases hinterpreted
    | loopDriver => cases hinterpreted
    | scratchPadIUProvider => cases hinterpreted
    | _ => rfl
  have hplain : op.isMaterializeTuple = false := by
    cases op with
    | materializeTuple => cases hinterpreted
    | _ => rfl
  obtain ⟨strong, hlinked, -, hrepipe⟩ := repipe_eq h isVoid
    ((List.range' k (k + 1 - k)).flatMap fun k =>
      if (Pipeline.build subops).suboperators[k]?.any (·.outgoingStrongLinks) then []
      else (iusAt (Pipeline.build subops).suboperators k).filter fun iu => !isVoid iu).eraseDups
    (Nat.lt_succ_self k) hlt (by
      intro last hlast
      change last ∈ subops[k]? at hlast
      rw [hop] at hlast
      cases hlast
      exact hout) (by
      intro first hfirst
      rw [hop] at hfirst
      cases hfirst
      exact hplain)
  refine ⟨strong, hlinked, ?_⟩
  rw [Pipeline.repipeAll, hrepipe, kept, Nat.add_sub_cancel_left]
  simp [build_suboperators, hop, hout, iusAt]

/-- The loop driver comes with its table scan. -/
theorem Interpretable.layout_scan (h : Interpretable subops isVoid) {j : ℕ} {source iu : IU}
    (hop : subops[k]? = some (.tscanIUProvider source iu))
    (hj : subops[j]? = some (.loopDriver source)) :
    (Pipeline.build subops).repipeAll isVoid k (k + 1) =
      some [.shared j, .shared k, .fuseChunkSink iu] := by
  obtain ⟨strong, hlinked, hrepipe⟩ := repipeAll_one isVoid h.toWellFormed hop rfl
  have hlink : StronglyLinked subops j k :=
    ⟨_, source, hop, rfl, rfl, mem_iusAt.mpr ⟨_, hj, List.mem_singleton_self _⟩⟩
  obtain rfl := (hlinked j).mpr hlink
  have hiu : isVoid iu = false :=
    h.columns _ (List.mem_of_getElem? hop) iu (.inr (List.mem_singleton_self _))
  rw [hrepipe]
  simp [repipedLayout, externalIUs, sourceIUsAt, iusAt, hop, hj, Suboperator.getIUs,
    Suboperator.getSourceIUs, Pipeline.fuseChunkSource, hiu]
  rfl

/-- A suboperator without strong links reads all its IUs from the chunk. -/
theorem Interpretable.layout_plain (h : Interpretable subops isVoid) (hop : subops[k]? = some op)
    (hinterpreted : op.isInterpreted = true) (hincoming : op.incomingStrongLinks = false)
    {out : IU} (hout : op.getIUs = [out]) (hreads : op.reads = op.getSourceIUs) :
    (Pipeline.build subops).repipeAll isVoid k (k + 1) =
      some (.fuseChunkSourceDriver :: op.getSourceIUs.eraseDups.map .fuseChunkSourceIUProvider ++
        [.shared k, .fuseChunkSink out]) := by
  obtain ⟨strong, hlinked, hrepipe⟩ :=
    repipeAll_one isVoid h.toWellFormed hop hinterpreted
  have hnone : strong = none := by
    cases strong with
    | none => rfl
    | some j =>
      obtain ⟨op', _, hop', hlink, _⟩ := (hlinked j).mp rfl
      rw [hop, Option.some_inj] at hop'
      rw [← hop', hincoming] at hlink
      cases hlink
  subst hnone
  have hmem := List.mem_of_getElem? hop
  have hexternal : externalIUs subops [k] = op.getSourceIUs.eraseDups := by
    rw [externalIUs]
    congr 1
    simp only [List.flatMap_cons, List.flatMap_nil, List.append_nil]
    rw [sourceIUsAt_eq hop]
    apply List.filter_eq_self.mpr
    intro iu hiu
    rw [decide_eq_true_iff]
    intro hprovided
    have := h.ordered k k iu hprovided (by rwa [sourceIUsAt_eq hop])
    omega
  have hsources : op.getSourceIUs.eraseDups ≠ [] := by
    cases op with
    | copy source iu => simp [Suboperator.getSourceIUs, List.eraseDups_cons]
    | other input inputs ius => simp [Suboperator.getSourceIUs, List.eraseDups_cons]
    | tscanIUProvider => cases hincoming
    | columnFilterLogic => cases hincoming
    | _ => cases hinterpreted
  have hfilter : (op.getSourceIUs.eraseDups.filter fun iu => !isVoid iu) =
      op.getSourceIUs.eraseDups := by
    apply List.filter_eq_self.mpr
    intro iu hiu
    rw [List.mem_eraseDups] at hiu
    rw [h.columns op hmem iu (.inl (hreads ▸ hiu))]
    rfl
  have houtVoid : isVoid out = false := by
    apply h.columns op hmem out
    right
    rw [declares_eq, hout]
    · exact List.mem_singleton_self _
    · rintro filterIU pseudo rfl
      cases hinterpreted
  rw [hrepipe]
  simp only [Option.toList_none, List.nil_append, repipedLayout, hexternal,
    Pipeline.fuseChunkSource, if_neg hsources, hfilter, hout]
  simp [houtVoid]
  rfl

/-- The scope comes with its filter logic. An IU that filters itself is only read once. -/
theorem Interpretable.layout_filter (h : Interpretable subops isVoid) {s : ℕ}
    {filterIU pseudo incoming redefined : IU}
    (hop : subops[k]? = some (.columnFilterLogic pseudo incoming redefined))
    (hs : subops[s]? = some (.columnFilterScope filterIU pseudo)) :
    (Pipeline.build subops).repipeAll isVoid k (k + 1) =
      some (.fuseChunkSourceDriver :: .fuseChunkSourceIUProvider filterIU ::
        (if incoming = filterIU then [] else [.fuseChunkSourceIUProvider incoming]) ++
        [.shared s, .shared k, .fuseChunkSink redefined]) := by
  obtain ⟨strong, hlinked, hrepipe⟩ := repipeAll_one isVoid h.toWellFormed hop rfl
  have hlink : StronglyLinked subops s k :=
    ⟨_, pseudo, hop, rfl, rfl, mem_iusAt.mpr ⟨_, hs, List.mem_singleton_self _⟩⟩
  obtain rfl := (hlinked s).mpr hlink
  have hmem := List.mem_of_getElem? hop
  have hredefined : isVoid redefined = false :=
    h.columns _ hmem redefined (.inr (List.mem_singleton_self _))
  have hincoming : isVoid incoming = false :=
    h.columns _ hmem incoming (.inl (List.mem_singleton_self _))
  have hfilter : isVoid filterIU = false :=
    h.columns _ (List.mem_of_getElem? hs) filterIU (.inl (List.mem_singleton_self _))
  have hpseudo := h.pseudo s filterIU pseudo hs
  have hne : filterIU ≠ pseudo ∧ incoming ≠ pseudo := by
    constructor
    · rintro rfl
      rw [hpseudo] at hfilter
      cases hfilter
    · rintro rfl
      rw [hpseudo] at hincoming
      cases hincoming
  have hlater : filterIU ≠ redefined ∧ incoming ≠ redefined := by
    have hprovided : redefined ∈ iusAt subops k := mem_iusAt.mpr ⟨_, hop, List.mem_singleton_self _⟩
    have hsk := h.ordered s k pseudo (mem_iusAt.mpr ⟨_, hs, List.mem_singleton_self _⟩) (by
      rw [sourceIUsAt_eq hop]
      exact List.mem_cons_self ..)
    constructor
    · rintro rfl
      have := h.ordered k s filterIU hprovided (by
        rw [sourceIUsAt_eq hs]
        exact List.mem_singleton_self _)
      omega
    · rintro rfl
      have := h.ordered k k incoming hprovided (by
        rw [sourceIUsAt_eq hop]
        exact List.mem_cons_of_mem _ (List.mem_singleton_self _))
      omega
  rw [hrepipe]
  have hexternal : externalIUs subops [s, k] =
      if incoming = filterIU then [filterIU] else [filterIU, incoming] := by
    rw [externalIUs]
    simp only [List.flatMap_cons, List.flatMap_nil, List.append_nil, sourceIUsAt_eq hs,
      sourceIUsAt_eq hop, iusAt, hs, hop, Option.map_some, Option.getD_some,
      Suboperator.getSourceIUs, Suboperator.getIUs]
    by_cases heq : incoming = filterIU
    · subst heq
      simp [hne, hlater, List.eraseDups_cons]
    · simp [hne, hlater, heq, List.eraseDups_cons]
  simp only [Option.toList_some, List.singleton_append, repipedLayout, hexternal]
  by_cases heq : incoming = filterIU
  · simp [heq, Pipeline.fuseChunkSource, hfilter, hredefined, Suboperator.getIUs]
    rfl
  · simp [heq, Pipeline.fuseChunkSource, hfilter, hincoming, hredefined, Suboperator.getIUs]
    rfl

end Layouts

section Fragments

variable (filtersItself : Bool)

omit [DecidableEq IU] in
theorem fragmentLayout_scan (source iu : IU) :
    (Suboperator.tscanIUProvider source iu).fragmentLayout filtersItself =
      some [.shared 0, .shared 1, .fuseChunkSink 1] := by
  show (Pipeline.build [.loopDriver 0, .tscanIUProvider 0 1]).repipeAll (fun _ => false) 0 2 = _
  rfl

omit [DecidableEq IU] in
theorem fragmentLayout_copy (source iu : IU) :
    (Suboperator.copy source iu).fragmentLayout filtersItself =
      some [.fuseChunkSourceDriver, .fuseChunkSourceIUProvider 0, .shared 0, .fuseChunkSink 1] := by
  show (Pipeline.build [.copy 0 1]).repipeAll (fun _ => false) 0 1 = _
  rfl

omit [DecidableEq IU] in
theorem fragmentLayout_filter (pseudo incoming redefined : IU) :
    (Suboperator.columnFilterLogic pseudo incoming redefined).fragmentLayout filtersItself =
      some (if filtersItself then
        [.fuseChunkSourceDriver, .fuseChunkSourceIUProvider 0, .shared 0, .shared 1,
          .fuseChunkSink 2]
      else [.fuseChunkSourceDriver, .fuseChunkSourceIUProvider 0, .fuseChunkSourceIUProvider 2,
        .shared 0, .shared 1, .fuseChunkSink 3]) := by
  cases filtersItself with
  | false =>
    simp only [Suboperator.fragmentLayout, Suboperator.fragment, Bool.false_eq_true, if_false]
    rfl
  | true =>
    simp only [Suboperator.fragmentLayout, Suboperator.fragment, if_true]
    rfl

/-- A suboperator alone, with an IU of its own for each input. -/
theorem interpretable_other (n : ℕ) :
    Interpretable [Suboperator.other 0 (List.range' 1 n) [n + 1]] (fun _ => false) := by
  have hget : ∀ {k : ℕ} {op : Suboperator ℕ},
      [Suboperator.other 0 (List.range' 1 n) [n + 1]][k]? = some op →
        op = .other 0 (List.range' 1 n) [n + 1] := by
    intro k op hop
    simpa using List.mem_of_getElem? hop
  refine ⟨⟨?_, ?_, ?_, ?_⟩, ?_, ?_, ?_, ?_⟩
  · show ([Suboperator.other 0 (List.range' 1 n) [n + 1]].flatMap (·.getIUs)).Nodup
    simp [Suboperator.getIUs]
  · intro j k iu hj hk
    obtain ⟨op, hop, hiu⟩ := mem_iusAt.mp hj
    obtain ⟨op', hop', hiu'⟩ := mem_sourceIUsAt.mp hk
    rw [hget hop] at hiu
    rw [hget hop'] at hiu'
    obtain rfl := List.mem_singleton.mp hiu
    rcases List.mem_cons.mp hiu' with hzero | hrange
    · cases hzero
    · have := (List.mem_range'_1.mp hrange).2
      omega
  · intro k op hop hlink
    rw [hget hop] at hlink
    cases hlink
  · rintro i j k ⟨op, iu, hop, hlink, -⟩
    rw [hget hop] at hlink
    cases hlink
  · intro k source iu hop
    cases hget hop
  · intro k pseudo incoming redefined hop
    cases hget hop
  · intro s filterIU pseudo hop
    cases hget hop
  · intro _ _ _ _
    rfl

omit [DecidableEq IU] in
theorem fragmentLayout_other (input out : IU) (inputs : List IU) :
    (Suboperator.other input inputs [out]).fragmentLayout filtersItself =
      some (.fuseChunkSourceDriver ::
        (List.range (inputs.length + 1)).map .fuseChunkSourceIUProvider ++
          [.shared 0, .fuseChunkSink (inputs.length + 1)]) := by
  have hlayout := (interpretable_other inputs.length).layout_plain (k := 0) rfl rfl rfl rfl rfl
  have hsources : (0 :: List.range' 1 inputs.length).eraseDups =
      List.range (inputs.length + 1) := by
    rw [List.range_eq_range', List.range'_succ]
    apply eraseDups_of_nodup
    exact List.nodup_range' (s := 0) (n := inputs.length + 1)
  rw [← hsources]
  exact hlayout

end Fragments

section Agreement

variable {filtersItself : Bool} {fragment : List (Suboperator ℕ)}

omit [DecidableEq IU] in
theorem matches_providers (f : ℕ → IU) (xs : List ℕ) :
    List.Forall₂ (Repiped.Matches fragment subops f) (xs.map .fuseChunkSourceIUProvider)
      ((xs.map f).map .fuseChunkSourceIUProvider) := by
  induction xs with
  | nil => exact .nil
  | cons x xs ih => exact .cons rfl ih

omit [DecidableEq IU] in
/-- The operands of an expression and its result, numbered as in the fragment. -/
theorem rename_operands (input out : IU) (inputs : List IU) :
    ∃ f : ℕ → IU, (List.range (inputs.length + 1)).map f = input :: inputs ∧
      f (inputs.length + 1) = out := by
  refine ⟨fun x => (input :: inputs ++ [out]).getD x out, ?_, ?_⟩
  · apply List.ext_getElem
    · simp
    · intro j hj hj'
      rw [List.length_cons] at hj'
      rw [List.getElem_map, List.getElem_range, List.getD_eq_getElem?_getD,
        List.getElem?_append_left hj', List.getElem?_eq_getElem hj', Option.getD_some]
  · simp [List.getD_eq_getElem?_getD]

theorem nodup_of_length_eraseDups {l : List IU} (h : l.length = l.eraseDups.length) : l.Nodup := by
  have hsubset : l.eraseDups ⊆ l := fun _ hmem => List.mem_eraseDups.mp hmem
  have hperm := ((nodup_eraseDups l).subperm hsubset).perm_of_length_le (Nat.le_of_eq h)
  exact hperm.nodup_iff.mp (nodup_eraseDups l)

theorem agrees_other {input out : IU} {inputs : List IU}
    (hop : subops[k]? = some (.other input inputs [out])) :
    Agrees ((Suboperator.other input inputs [out]).fragment filtersItself) subops
      (.fuseChunkSourceDriver ::
        (List.range (inputs.length + 1)).map .fuseChunkSourceIUProvider ++
          [.shared 0, .fuseChunkSink (inputs.length + 1)])
      (.fuseChunkSourceDriver :: (input :: inputs).eraseDups.map .fuseChunkSourceIUProvider ++
        [.shared k, .fuseChunkSink out]) ↔ (input :: inputs).Nodup := by
  constructor
  · rintro ⟨f, hf⟩
    apply nodup_of_length_eraseDups
    have hlength := hf.length_eq
    simp only [List.length_append, List.length_cons, List.length_map, List.length_range,
      List.length_nil] at hlength ⊢
    omega
  · intro hnodup
    obtain ⟨f, hoperands, hout⟩ := rename_operands input out inputs
    rw [eraseDups_of_nodup hnodup, ← hoperands]
    refine ⟨f, ?_⟩
    apply List.rel_append
    · exact .cons trivial (matches_providers f _)
    · have hoperands' : f 0 :: (List.range' 1 inputs.length).map f = input :: inputs := by
        rw [← hoperands, List.range_eq_range', List.range'_succ, List.map_cons]
      refine .cons ⟨_, rfl, ?_⟩ (.cons hout .nil)
      obtain ⟨hinput, hinputs⟩ := List.cons.inj hoperands'
      rw [hop, Suboperator.rename, hinput, hinputs, List.map_cons, List.map_nil, hout]

omit [DecidableEq IU] in
theorem agrees_scan {j : ℕ} {source iu : IU} (hj : subops[j]? = some (.loopDriver source))
    (hop : subops[k]? = some (.tscanIUProvider source iu)) :
    Agrees ((Suboperator.tscanIUProvider source iu).fragment filtersItself) subops
      [.shared 0, .shared 1, .fuseChunkSink 1] [.shared j, .shared k, .fuseChunkSink iu] :=
  ⟨fun x => if x = 0 then source else iu,
    .cons ⟨_, rfl, hj⟩ (.cons ⟨_, rfl, hop⟩ (.cons rfl .nil))⟩

omit [DecidableEq IU] in
theorem agrees_copy {source iu : IU} (hop : subops[k]? = some (.copy source iu)) :
    Agrees ((Suboperator.copy source iu).fragment filtersItself) subops
      [.fuseChunkSourceDriver, .fuseChunkSourceIUProvider 0, .shared 0, .fuseChunkSink 1]
      [.fuseChunkSourceDriver, .fuseChunkSourceIUProvider source, .shared k, .fuseChunkSink iu] :=
  ⟨fun x => if x = 0 then source else iu,
    .cons trivial (.cons rfl (.cons ⟨_, rfl, hop⟩ (.cons rfl .nil)))⟩

/-- The fragment of a logic that filters itself has one provider, the other one two. -/
theorem agrees_filter {s : ℕ} {filterIU pseudo incoming redefined : IU}
    (hs : subops[s]? = some (.columnFilterScope filterIU pseudo))
    (hop : subops[k]? = some (.columnFilterLogic pseudo incoming redefined)) :
    Agrees ((Suboperator.columnFilterLogic pseudo incoming redefined).fragment filtersItself)
      subops
      (if filtersItself then
        [.fuseChunkSourceDriver, .fuseChunkSourceIUProvider 0, .shared 0, .shared 1,
          .fuseChunkSink 2]
      else [.fuseChunkSourceDriver, .fuseChunkSourceIUProvider 0, .fuseChunkSourceIUProvider 2,
        .shared 0, .shared 1, .fuseChunkSink 3])
      (.fuseChunkSourceDriver :: .fuseChunkSourceIUProvider filterIU ::
        (if incoming = filterIU then [] else [.fuseChunkSourceIUProvider incoming]) ++
        [.shared s, .shared k, .fuseChunkSink redefined]) ↔
      (filtersItself = true ↔ incoming = filterIU) := by
  constructor
  · rintro ⟨f, hf⟩
    have hlength := hf.length_eq
    by_cases heq : incoming = filterIU
    · cases filtersItself with
      | false => simp [heq] at hlength
      | true => simp [heq]
    · cases filtersItself with
      | false => simp [heq]
      | true => simp [heq] at hlength
  · intro hflag
    cases filtersItself with
    | false =>
      have hne : incoming ≠ filterIU := by simpa using hflag
      rw [if_neg hne]
      exact ⟨fun x => if x = 0 then filterIU else if x = 1 then pseudo else
        if x = 2 then incoming else redefined, .cons trivial (.cons rfl (.cons rfl
          (.cons ⟨_, rfl, hs⟩ (.cons ⟨_, rfl, hop⟩ (.cons rfl .nil)))))⟩
    | true =>
      obtain rfl : incoming = filterIU := by simpa using hflag
      rw [if_pos (rfl : incoming = incoming)]
      exact ⟨fun x => if x = 0 then incoming else if x = 1 then pseudo else redefined,
        .cons trivial (.cons rfl (.cons ⟨_, rfl, hs⟩ (.cons ⟨_, rfl, hop⟩ (.cons rfl .nil))))⟩

omit [DecidableEq IU] in
theorem Interpretable.readsApart_filter (h : Interpretable subops isVoid) {s : ℕ}
    {filterIU pseudo incoming redefined : IU}
    (hs : subops[s]? = some (.columnFilterScope filterIU pseudo)) :
    ReadsApart subops filtersItself (.columnFilterLogic pseudo incoming redefined) ↔
      (filtersItself = true ↔ incoming = filterIU) := by
  apply iff_congr Iff.rfl
  constructor
  · rintro ⟨t, ht⟩
    obtain rfl := h.unique.eq hs ht (List.mem_singleton_self pseudo) (List.mem_singleton_self _)
    rw [hs] at ht
    simpa using ht.symm
  · rintro rfl
    exact ⟨s, hs⟩

/-- The fragment that the interpreter runs agrees with the repiped suboperator exactly when it
reads no IU twice, or says that it filters itself. -/
theorem layout_agrees_iff (h : Interpretable subops isVoid) (hop : subops[k]? = some op)
    (hinterpreted : op.isInterpreted = true) (filtersItself : Bool) :
    ∃ layout layout', op.fragmentLayout filtersItself = some layout ∧
      (Pipeline.build subops).repipeAll isVoid k (k + 1) = some layout' ∧
      (Agrees (op.fragment filtersItself) subops layout layout' ↔
        ReadsApart subops filtersItself op) := by
  cases op with
  | tscanIUProvider source iu =>
    obtain ⟨j, hj⟩ := h.scans k source iu hop
    exact ⟨_, _, fragmentLayout_scan filtersItself source iu, h.layout_scan hop hj,
      iff_of_true (agrees_scan hj hop) trivial⟩
  | copy source iu =>
    have hlayout := h.layout_plain hop rfl rfl rfl rfl
    exact ⟨_, _, fragmentLayout_copy filtersItself source iu, hlayout,
      iff_of_true (agrees_copy hop) trivial⟩
  | columnFilterLogic pseudo incoming redefined =>
    obtain ⟨s, filterIU, hs⟩ := h.filters k pseudo incoming redefined hop
    exact ⟨_, _, fragmentLayout_filter filtersItself pseudo incoming redefined,
      h.layout_filter hop hs, (agrees_filter hs hop).trans (h.readsApart_filter hs).symm⟩
  | other input inputs ius =>
    obtain ⟨out, rfl⟩ : ∃ out, ius = [out] := by
      simpa [Suboperator.isInterpreted, List.length_eq_one_iff] using hinterpreted
    exact ⟨_, _, fragmentLayout_other filtersItself input out inputs,
      h.layout_plain hop rfl rfl rfl rfl, agrees_other hop⟩
  | _ => cases hinterpreted

end Agreement

end InkFuse.Algebra.SubopGraph
