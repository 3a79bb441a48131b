import Mathlib.Logic.Function.Basic
import Mathlib.Data.List.Induction
import Mathlib.Data.List.Nodup
import Mathlib.Tactic.Common

/-!
Pipelines as graphs. A suboperator is known by its index in the pipeline, the place where
`attachSuboperator` put it; the edges and the IU providers are the maps of `PipelineGraph`,
where an empty list of edges stands for a missing key.
-/

namespace InkFuse.Algebra.SubopGraph

/-- The suboperators by what the pipeline sees of their class. Sources provide an IU, and what is
no source reads one. -/
inductive Suboperator (IU : Type*)
  /-- `TScanDriver`, `FuseChunkSourceDriver` -/
  | loopDriver (loopDriverIU : IU)
  | hashTableSource (producedIU : IU) (nullMarkers : Option IU)
  | scratchPadIUProvider (providedIU : IU)
  | tscanIUProvider (driverIU producedIU : IU)
  | fuseChunkSourceIUProvider (driverIU producedIU : IU)
  | copy (copyIU produced : IU)
  | columnFilterScope (filterIU pseudo : IU)
  | columnFilterLogic (pseudo incoming redefined : IU)
  | fuseChunkSink (iuToWrite : IU)
  /-- The `RuntimeFunctionSubop` with the name `materialize_tuple`. -/
  | materializeTuple (input : IU) (inputs ius : List IU)
  /-- Expressions, other runtime functions, packers, aggregators, readers, `CountingSink`. -/
  | other (input : IU) (inputs ius : List IU)
  deriving DecidableEq, Repr

variable {IU : Type*}

namespace Suboperator

def getIUs : Suboperator IU → List IU
  | loopDriver loopDriverIU => [loopDriverIU]
  | hashTableSource producedIU nullMarkers => producedIU :: nullMarkers.toList
  | scratchPadIUProvider providedIU => [providedIU]
  | tscanIUProvider _ producedIU => [producedIU]
  | fuseChunkSourceIUProvider _ producedIU => [producedIU]
  | copy _ produced => [produced]
  | columnFilterScope _ pseudo => [pseudo]
  | columnFilterLogic _ _ redefined => [redefined]
  | fuseChunkSink _ => []
  | materializeTuple _ _ ius => ius
  | other _ _ ius => ius

def getSourceIUs : Suboperator IU → List IU
  | loopDriver _ => []
  | hashTableSource .. => []
  | scratchPadIUProvider _ => []
  | tscanIUProvider driverIU _ => [driverIU]
  | fuseChunkSourceIUProvider driverIU _ => [driverIU]
  | copy copyIU _ => [copyIU]
  | columnFilterScope filterIU _ => [filterIU]
  | columnFilterLogic pseudo incoming _ => [pseudo, incoming]
  | fuseChunkSink iuToWrite => [iuToWrite]
  | materializeTuple input inputs _ => input :: inputs
  | other input inputs _ => input :: inputs

def incomingStrongLinks : Suboperator IU → Bool
  | tscanIUProvider .. => true
  | fuseChunkSourceIUProvider .. => true
  | columnFilterLogic .. => true
  | _ => false

def outgoingStrongLinks : Suboperator IU → Bool
  | loopDriver _ => true
  | columnFilterScope .. => true
  | scratchPadIUProvider _ => true
  | _ => false

def isMaterializeTuple : Suboperator IU → Bool
  | materializeTuple .. => true
  | _ => false

/-- `isFuseChunkOp` of `setUpInterpreted` -/
def isFuseChunkOp : Suboperator IU → Bool
  | fuseChunkSink _ => true
  | fuseChunkSourceIUProvider .. => true
  | _ => false

def isSink (op : Suboperator IU) : Bool := op.getIUs.isEmpty

def isSource (op : Suboperator IU) : Bool := op.getSourceIUs.isEmpty

def rename {IU' : Type*} (f : IU → IU') : Suboperator IU → Suboperator IU'
  | loopDriver loopDriverIU => .loopDriver (f loopDriverIU)
  | hashTableSource producedIU nullMarkers =>
    .hashTableSource (f producedIU) (nullMarkers.map f)
  | scratchPadIUProvider providedIU => .scratchPadIUProvider (f providedIU)
  | tscanIUProvider driverIU producedIU => .tscanIUProvider (f driverIU) (f producedIU)
  | fuseChunkSourceIUProvider driverIU producedIU =>
    .fuseChunkSourceIUProvider (f driverIU) (f producedIU)
  | copy copyIU produced => .copy (f copyIU) (f produced)
  | columnFilterScope filterIU pseudo => .columnFilterScope (f filterIU) (f pseudo)
  | columnFilterLogic pseudo incoming redefined =>
    .columnFilterLogic (f pseudo) (f incoming) (f redefined)
  | fuseChunkSink iuToWrite => .fuseChunkSink (f iuToWrite)
  | materializeTuple input inputs ius => .materializeTuple (f input) (inputs.map f) (ius.map f)
  | other input inputs ius => .other (f input) (inputs.map f) (ius.map f)

@[simp] theorem getIUs_rename {IU' : Type*} (f : IU → IU') (op : Suboperator IU) :
    (op.rename f).getIUs = op.getIUs.map f := by
  cases op with
  | hashTableSource producedIU nullMarkers =>
    cases nullMarkers <;> rfl
  | _ => rfl

@[simp] theorem getSourceIUs_rename {IU' : Type*} (f : IU → IU') (op : Suboperator IU) :
    (op.rename f).getSourceIUs = op.getSourceIUs.map f := by
  cases op <;> rfl

/-- What others can be strongly linked to provides one IU and reads at most one. -/
theorem ius_of_outgoing {op : Suboperator IU} (h : op.outgoingStrongLinks = true) :
    ∃ iu, op.getIUs = [iu] := by
  cases op with
  | loopDriver loopDriverIU => exact ⟨loopDriverIU, rfl⟩
  | columnFilterScope filterIU pseudo => exact ⟨pseudo, rfl⟩
  | scratchPadIUProvider providedIU => exact ⟨providedIU, rfl⟩
  | _ => cases h

theorem sources_of_outgoing {op : Suboperator IU} (h : op.outgoingStrongLinks = true) :
    op.getSourceIUs.Nodup := by
  cases op with
  | loopDriver loopDriverIU => exact List.nodup_nil
  | columnFilterScope filterIU pseudo => exact List.nodup_singleton filterIU
  | scratchPadIUProvider providedIU => exact List.nodup_nil
  | _ => cases h

theorem ius_of_source {op : Suboperator IU} (h : op.isSource = true) : op.isSink = false := by
  cases op with
  | loopDriver loopDriverIU => rfl
  | hashTableSource producedIU nullMarkers => rfl
  | scratchPadIUProvider providedIU => rfl
  | _ => cases h

theorem sources_of_incoming {op : Suboperator IU} (h : op.incomingStrongLinks = true) :
    ∃ iu rest, op.getSourceIUs = iu :: rest := by
  cases op with
  | tscanIUProvider driverIU producedIU => exact ⟨driverIU, [], rfl⟩
  | fuseChunkSourceIUProvider driverIU producedIU => exact ⟨driverIU, [], rfl⟩
  | columnFilterLogic pseudo incoming redefined => exact ⟨pseudo, [incoming], rfl⟩
  | _ => cases h

end Suboperator

/-- `iuProviders` maps an IU to the suboperator that provides it. -/
structure Pipeline (IU : Type*) where
  suboperators : List (Suboperator IU)
  incomingEdges : ℕ → List ℕ
  outgoingEdges : ℕ → List ℕ
  iuProviders : IU → Option ℕ

namespace Pipeline

def empty : Pipeline IU := ⟨[], fun _ => [], fun _ => [], fun _ => none⟩

variable [DecidableEq IU]

def addEdges (k : ℕ) (p : Pipeline IU) (depends : IU) : Pipeline IU :=
  match p.iuProviders depends with
  | some provider =>
    { p with
      outgoingEdges := Function.update p.outgoingEdges provider (p.outgoingEdges provider ++ [k])
      incomingEdges := Function.update p.incomingEdges k (p.incomingEdges k ++ [provider]) }
  | none => p

def attachSuboperator (p : Pipeline IU) (subop : Suboperator IU) : Pipeline IU :=
  let k := p.suboperators.length
  let linked := subop.getSourceIUs.foldl (addEdges k) p
  { linked with
    suboperators := p.suboperators ++ [subop]
    iuProviders := subop.getIUs.foldl (fun m iu => Function.update m iu (some k)) p.iuProviders }

def build (subops : List (Suboperator IU)) : Pipeline IU := subops.foldl attachSuboperator empty

end Pipeline

section Edges

variable [DecidableEq IU] {subops : List (Suboperator IU)} {subop : Suboperator IU}

open Pipeline

theorem build_append (subops : List (Suboperator IU)) (subop : Suboperator IU) :
    build (subops ++ [subop]) = (build subops).attachSuboperator subop := by
  simp [build, List.foldl_append]

@[simp]
theorem build_suboperators (subops : List (Suboperator IU)) :
    (build subops).suboperators = subops := by
  induction subops using List.reverseRecOn with
  | nil => rfl
  | append_singleton subops subop ih => rw [build_append, attachSuboperator, ih]

omit [DecidableEq IU] in
theorem foldl_addEdges (k : ℕ) (p : Pipeline IU) (sources : List IU) :
    (sources.foldl (addEdges k) p).suboperators = p.suboperators ∧
    (sources.foldl (addEdges k) p).iuProviders = p.iuProviders ∧
    (∀ j, (sources.foldl (addEdges k) p).incomingEdges j =
      p.incomingEdges j ++ if j = k then sources.filterMap p.iuProviders else []) ∧
    ∀ j, (sources.foldl (addEdges k) p).outgoingEdges j = p.outgoingEdges j ++
      List.replicate ((sources.filterMap p.iuProviders).count j) k := by
  induction sources generalizing p with
  | nil => simp
  | cons iu sources ih =>
    obtain ⟨hsubops, hproviders, hin, hout⟩ := ih (addEdges k p iu)
    rw [List.foldl_cons]
    cases hprovider : p.iuProviders iu with
    | none =>
      have hsame : addEdges k p iu = p := by
        rw [addEdges, hprovider]
      rw [hsame] at hsubops hproviders hin hout ⊢
      simp only [hsubops, hproviders, hin, hout, List.filterMap_cons, hprovider]
      simp
    | some provider =>
      have hkept : (addEdges k p iu).iuProviders = p.iuProviders ∧
          (addEdges k p iu).suboperators = p.suboperators := by
        rw [addEdges, hprovider]
        exact ⟨rfl, rfl⟩
      refine ⟨hsubops.trans hkept.2, hproviders.trans hkept.1, fun j => ?_, fun j => ?_⟩
      · rw [hin j, hkept.1, List.filterMap_cons, hprovider, addEdges, hprovider]
        by_cases hj : j = k
        · subst hj
          simp
        · simp [hj]
      · rw [hout j, hkept.1, List.filterMap_cons, hprovider, addEdges, hprovider]
        by_cases hj : j = provider
        · subst hj
          simp [List.replicate_succ]
        · simp [hj, Ne.symm hj]

theorem incomingEdges_build (subops : List (Suboperator IU)) (k : ℕ) :
    (build subops).incomingEdges k = match subops[k]? with
      | some subop => subop.getSourceIUs.filterMap (build (subops.take k)).iuProviders
      | none => [] := by
  induction subops using List.reverseRecOn generalizing k with
  | nil => rfl
  | append_singleton subops subop ih =>
    obtain ⟨_, _, hin, _⟩ := foldl_addEdges subops.length (build subops) subop.getSourceIUs
    rw [build_append, attachSuboperator]
    simp only [build_suboperators, hin, ih]
    rcases Nat.lt_trichotomy k subops.length with hk | hk | hk
    · rw [List.getElem?_append_left hk, List.take_append_of_le_length (Nat.le_of_lt hk),
        if_neg (Nat.ne_of_lt hk),
        List.append_nil]
    · subst hk
      simp
    · rw [List.getElem?_eq_none (Nat.le_of_lt hk), if_neg (Nat.ne_of_gt hk),
        List.getElem?_eq_none (by rw [List.length_append]; exact hk)]
      rfl

/-- The edges are kept from both ends. -/
theorem mem_outgoingEdges (subops : List (Suboperator IU)) (j k : ℕ) :
    k ∈ (build subops).outgoingEdges j ↔ j ∈ (build subops).incomingEdges k := by
  induction subops using List.reverseRecOn with
  | nil => simp [build, empty]
  | append_singleton subops subop ih =>
    obtain ⟨_, _, hin, hout⟩ := foldl_addEdges subops.length (build subops) subop.getSourceIUs
    rw [build_append, attachSuboperator]
    simp only [build_suboperators, hin, hout, List.mem_append, ih, List.mem_replicate]
    apply or_congr_right
    by_cases hk : k = subops.length
    · rw [if_pos hk, ne_eq, List.count_eq_zero, not_not, and_iff_left hk]
    · simp [hk]

theorem foldl_update_providers (k : ℕ) (m : IU → Option ℕ) (ius : List IU) (iu : IU) :
    ius.foldl (fun m iu => Function.update m iu (some k)) m iu =
      if iu ∈ ius then some k else m iu := by
  induction ius generalizing m with
  | nil => simp
  | cons x ius ih =>
    rw [List.foldl_cons, ih]
    by_cases hmem : iu ∈ ius
    · simp [hmem]
    · by_cases hx : iu = x
      · simp [hx]
      · simp [hmem, hx]

theorem iuProviders_append (subops : List (Suboperator IU)) (subop : Suboperator IU) (iu : IU) :
    (build (subops ++ [subop])).iuProviders iu =
      if iu ∈ subop.getIUs then some subops.length else (build subops).iuProviders iu := by
  rw [build_append, attachSuboperator]
  simp only [build_suboperators, foldl_update_providers]

theorem exists_of_provider {iu : IU} {k : ℕ} (h : (build subops).iuProviders iu = some k) :
    ∃ subop, subops[k]? = some subop ∧ iu ∈ subop.getIUs := by
  induction subops using List.reverseRecOn with
  | nil => cases h
  | append_singleton subops subop ih =>
    rw [iuProviders_append] at h
    split at h
    · next hmem =>
      cases h
      exact ⟨subop, by simp, hmem⟩
    · obtain ⟨subop', hget, hmem⟩ := ih h
      have hlt := (List.getElem?_eq_some_iff.mp hget).1
      exact ⟨subop', by rw [List.getElem?_append_left hlt, hget], hmem⟩

theorem provider_isSome {iu : IU} (hmem : ∃ subop ∈ subops, iu ∈ subop.getIUs) :
    ((build subops).iuProviders iu).isSome := by
  induction subops using List.reverseRecOn with
  | nil =>
    obtain ⟨_, hnil, _⟩ := hmem
    cases hnil
  | append_singleton subops subop ih =>
    rw [iuProviders_append]
    split
    · rfl
    · next hlast =>
      obtain ⟨subop', hsubop, hiu⟩ := hmem
      rcases List.mem_append.mp hsubop with hsubop | hsubop
      · exact ih ⟨subop', hsubop, hiu⟩
      · rw [List.mem_singleton.mp hsubop] at hiu
        exact absurd hiu hlast

def UniqueProviders (subops : List (Suboperator IU)) : Prop := (subops.flatMap (·.getIUs)).Nodup

omit [DecidableEq IU] in
theorem UniqueProviders.eq (h : UniqueProviders subops) {j k : ℕ} {a b : Suboperator IU} {iu : IU}
    (ha : subops[j]? = some a) (hb : subops[k]? = some b) (hia : iu ∈ a.getIUs)
    (hib : iu ∈ b.getIUs) : j = k := by
  have hdisjoint := (List.nodup_flatMap.mp h).2
  rw [List.pairwise_iff_getElem] at hdisjoint
  obtain ⟨hj, rfl⟩ := List.getElem?_eq_some_iff.mp ha
  obtain ⟨hk, rfl⟩ := List.getElem?_eq_some_iff.mp hb
  rcases Nat.lt_trichotomy j k with hlt | heq | hlt
  · exact absurd hib (hdisjoint j k hj hk hlt hia)
  · exact heq
  · exact absurd hia (hdisjoint k j hk hj hlt hib)

omit [DecidableEq IU] in
theorem UniqueProviders.take (h : UniqueProviders subops) (k : ℕ) :
    UniqueProviders (subops.take k) := by
  rw [UniqueProviders, ← List.take_append_drop k subops, List.flatMap_append] at h
  exact h.of_append_left

/-- Before the suboperator `k`, an IU resolves to the one suboperator that provides it. -/
theorem UniqueProviders.provider (h : UniqueProviders subops) {j k : ℕ} {a : Suboperator IU}
    {iu : IU} (ha : subops[j]? = some a) (hiu : iu ∈ a.getIUs) (hjk : j < k) :
    (build (subops.take k)).iuProviders iu = some j := by
  have hget : (subops.take k)[j]? = some a := by
    rw [List.getElem?_take_of_lt hjk, ha]
  obtain ⟨i, hi⟩ := Option.isSome_iff_exists.mp
    (provider_isSome ⟨a, List.mem_of_getElem? hget, hiu⟩)
  obtain ⟨b, hb, hib⟩ := exists_of_provider hi
  rw [hi, (h.take k).eq hget hb hiu hib]

end Edges

end InkFuse.Algebra.SubopGraph
