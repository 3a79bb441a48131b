import InkFuse.Algebra.AggregationLayout
import Mathlib.Algebra.BigOperators.Group.Finset.Basic
import Mathlib.Algebra.BigOperators.Ring.List

/-!
The three computations of the offsets of a granule agree as long as the offsets fit the sixteen
bits of the runtime parameters: where the aggregator writes, where the merge adds, and where the
readers of the aggregate functions read. The updates are aligned under a condition on key and
states.
-/

namespace InkFuse.Algebra

open Bytes Codegen InkFuse.Runtime AggregateFunctions

variable {floatAdd : ℕ → ℕ → ℕ → ℕ} {groupBy : List IU} {description : List Description}
  {functions : List AggFunction} {agg : Aggregation} {compute : List PlannedAggCompute}

section Statement

/-- The granules with the offsets at which `mergeSingleTable` merges them. -/
def Aggregation.merged (agg : Aggregation) : List (Granule × ℕ) :=
  placed agg.granules (agg.keySize + agg.payloadOffset)

/-- What a reader takes its granules for. -/
def AggCompute.Expects (floatAdd : ℕ → ℕ → ℕ → ℕ) : AggCompute → List AggState → Prop
  | .unpack type, states => ∃ state, states = [state] ∧ state.getStateSize = type.numBytes
  | .avg type, states => states = [AggStateSum floatAdd type, AggStateCount]

/-- The reader of a function reads the granules of the function over its IU, each where it is
merged. -/
def ReadsGranules (floatAdd : ℕ → ℕ → ℕ → ℕ) (agg : Aggregation) (func : Description)
    (planned : PlannedAggCompute) : Prop :=
  ∃ entry, lookupEntry floatAdd func = .ok entry ∧ planned.compute = entry.aggReader ∧
    planned.compute.Expects floatAdd entry.granules ∧
    List.Forall₂ (fun state offset => (⟨func.aggIu, state⟩, offset) ∈ agg.merged)
      entry.granules (agg.readerOffsets planned)

/-- Every granule has one place behind the key, where it is written, merged and read. -/
structure ConsistentLayout (floatAdd : ℕ → ℕ → ℕ → ℕ) (description : List Description)
    (agg : Aggregation) (compute : List PlannedAggCompute) : Prop where
  nodup : (agg.granules.map Granule.describe).Nodup
  written : List.Forall₂ (fun p op => ∃ offset,
    op = AggSubop.aggregator p.1.aggState p.1.aggIu offset ∧ packingOffset offset = p.2)
    agg.merged agg.updateGranules
  read : List.Forall₂ (ReadsGranules floatAdd agg) description compute
  inside : ∀ p ∈ agg.merged,
    agg.keySize ≤ p.2 ∧ p.2 + p.1.stateSize ≤ agg.keySize + agg.payloadSize
  disjoint : agg.merged.Pairwise fun p q => p.2 + p.1.stateSize ≤ q.2

def distinctGranules (floatAdd : ℕ → ℕ → ℕ → ℕ) (description : List Description) :
    Finset GranuleDescription :=
  match lookupFunctions floatAdd description with
  | .ok functions => granuleSet functions
  | .error _ => ∅

def packedSize (groupBy : List IU) : ℕ := (groupBy.map fun key => key.type.numBytes).sum

/-- The last state, which is a smallest one, starts below `2 ^ 16`. -/
def LayoutFits (keySize : ℕ) (granules : Finset GranuleDescription) : Prop :=
  ∃ smallest, IsLeast (describedSize '' granules) smallest ∧ (keySize = 0 ∨ 0 < smallest) ∧
    roundUp keySize smallest + ∑ d ∈ granules, describedSize d < 2 ^ 16 + smallest

end Statement

section Sizes

theorem describedSize_mono {d e : GranuleDescription} (h : d ≤ e) :
    describedSize d ≤ describedSize e := by
  rcases Prod.Lex.le_iff.mp h with hlt | heq
  · exact hlt.le
  · exact heq.1.le

/-- The last granule of the set is one of the smallest. -/
theorem getLast_isLeast {granules : Finset GranuleDescription} {last : GranuleDescription}
    (h : (inOrder granules).getLast? = some last) :
    IsLeast (describedSize '' granules) (describedSize last) := by
  have hmem : last ∈ inOrder granules := List.mem_of_getLast? h
  refine ⟨⟨last, (Finset.mem_sort _).mp hmem, rfl⟩, fun size hsize => ?_⟩
  obtain ⟨d, hd, rfl⟩ := hsize
  have hd' : d ∈ inOrder granules := (Finset.mem_sort _).mpr hd
  obtain ⟨rest, hrest⟩ := List.getLast?_eq_some_iff.mp h
  have hsorted : (inOrder granules).Pairwise (· ≥ ·) := Finset.pairwise_sort _ _
  rw [hrest] at hsorted hd'
  rcases List.mem_append.mp hd' with hrest' | hlast
  · exact describedSize_mono ((List.pairwise_append.mp hsorted).2.2 d hrest' last (by simp))
  · rw [List.mem_singleton.mp hlast]

theorem sum_inOrder (granules : Finset GranuleDescription) :
    ((inOrder granules).map describedSize).sum = ∑ d ∈ granules, describedSize d := by
  rw [Finset.sum_eq_multiset_sum, ← Finset.sort_eq granules (· ≥ ·), Multiset.map_coe,
    Multiset.sum_coe]
  rfl

theorem PlanOf.sizes {start : ℕ} (h : PlanOf functions agg compute start) :
    agg.granules.map Granule.stateSize = (inOrder (granuleSet functions)).map describedSize := by
  rw [← h.describe_eq, List.map_map]
  rfl

theorem placed_append (granules : List Granule) (g : Granule) (start : ℕ) :
    placed (granules ++ [g]) start =
      placed granules start ++ [(g, start + (granules.map Granule.stateSize).sum)] := by
  induction granules generalizing start with
  | nil => rfl
  | cons h granules ih =>
    rw [List.cons_append, placed, ih, placed, List.cons_append, List.map_cons, List.sum_cons,
      Nat.add_assoc]

/-- The aggregators write where the granules are merged if the offsets fit sixteen bits. -/
theorem written_iff (granules : List Granule) (start : ℕ) :
    List.Forall₂ (fun p op => ∃ offset,
      op = AggSubop.aggregator p.1.aggState p.1.aggIu offset ∧ packingOffset offset = p.2)
      (placed granules start) (Aggregation.aggregators granules start) ↔
    ∀ p ∈ placed granules start, p.2 < 2 ^ 16 := by
  induction granules generalizing start with
  | nil => simp [placed, Aggregation.aggregators]
  | cons g granules ih =>
    rw [placed, Aggregation.aggregators, List.forall₂_cons, ih, List.forall_mem_cons]
    refine and_congr_left fun _ => ?_
    constructor
    · intro h
      obtain ⟨offset, _, hoffset⟩ := h
      rw [← hoffset, packingOffset]
      exact Nat.mod_lt _ (by decide)
    · intro h
      exact ⟨start, rfl, Nat.mod_eq_of_lt h⟩

end Sizes

section Readers

theorem lookupEntry_expects {func : Description} {entry : RegistryEntry}
    (h : lookupEntry floatAdd func = .ok entry) :
    entry.aggReader.Expects floatAdd entry.granules ∧
      entry.granules.length = entry.aggReader.requiredGranules := by
  obtain ⟨aggIu, code, distinct⟩ := func
  cases distinct with
  | true => cases h
  | false =>
    cases code with
    | count =>
      cases h
      exact ⟨⟨_, rfl, rfl⟩, rfl⟩
    | sum =>
      cases h
      exact ⟨⟨_, rfl, rfl⟩, rfl⟩
    | avg =>
      cases h
      exact ⟨rfl, rfl⟩
    | min => cases h
    | max => cases h
    | median => cases h

/-- A granule of a function is merged at the offset that is planned for its reader. -/
theorem PlanOf.mem_merged {start : ℕ} (h : PlanOf functions agg compute start)
    (hcoherent : Coherent (functions.flatMap AggFunction.granules)) {g : Granule}
    (hg : g ∈ functions.flatMap AggFunction.granules) :
    (g, start + (((inOrder (granuleSet functions)).take
      ((inOrder (granuleSet functions)).idxOf g.describe)).map describedSize).sum) ∈
      agg.merged := by
  have hmem : g.describe ∈ inOrder (granuleSet functions) := mem_inOrder.mpr ⟨g, hg, rfl⟩
  have hlt := List.idxOf_lt_length_of_mem hmem
  have hget := List.getElem_idxOf hlt
  have hlen : (inOrder (granuleSet functions)).length = agg.granules.length := by
    rw [← h.describe_eq, List.length_map]
  have hsome : agg.granules[(inOrder (granuleSet functions)).idxOf g.describe]? = some g := by
    rw [List.getElem?_eq_getElem (hlen ▸ hlt), Option.some.injEq]
    apply hcoherent _ (h.granules_mem _ (List.getElem_mem _)) g hg
    have hdescribe : (agg.granules.map Granule.describe)[(inOrder (granuleSet functions)).idxOf
        g.describe]? = some g.describe := by
      rw [h.describe_eq, List.getElem?_eq_getElem hlt, hget]
    rw [List.getElem?_map, List.getElem?_eq_getElem (hlen ▸ hlt)] at hdescribe
    exact Option.some.inj hdescribe
  have hplaced := placed_getElem? agg.granules start
    ((inOrder (granuleSet functions)).idxOf g.describe)
  rw [hsome, Option.map_some] at hplaced
  rw [Aggregation.merged, h.start_eq, List.map_take, ← h.sizes, ← List.map_take]
  exact List.mem_of_getElem? hplaced

theorem PlanOf.readsGranules {start : ℕ} (h : PlanOf functions agg compute start)
    (hcoherent : Coherent (functions.flatMap AggFunction.granules))
    (hbound : ∀ p ∈ agg.merged, p.2 < 2 ^ 16) {func : Description} {f : AggFunction}
    (hf : f ∈ functions) (hiu : f.aggIu = func.aggIu)
    (hentry : lookupEntry floatAdd func = .ok f.entry) :
    ReadsGranules floatAdd agg func
      (f.plan (inOrder (granuleSet functions)) agg.payloadOffset) := by
  obtain ⟨hexpects, hlength⟩ := lookupEntry_expects hentry
  refine ⟨f.entry, hentry, rfl, hexpects, ?_⟩
  have hall : (f.plan (inOrder (granuleSet functions)) agg.payloadOffset).granuleOffsets.length ≤
      f.entry.aggReader.requiredGranules := by
    simp [AggFunction.plan, AggFunction.granules, hlength]
  rw [Aggregation.readerOffsets]
  show List.Forall₂ _ _ (List.map _ (List.take f.entry.aggReader.requiredGranules _))
  rw [List.take_of_length_le hall, AggFunction.plan, AggFunction.granules, List.map_map,
    List.map_map, List.forall₂_map_right_iff, List.forall₂_same]
  intro state hstate
  have hg : (⟨f.aggIu, state⟩ : Granule) ∈ functions.flatMap AggFunction.granules :=
    List.mem_flatMap.mpr ⟨f, hf, List.mem_map.mpr ⟨state, hstate, rfl⟩⟩
  have hmerged := h.mem_merged hcoherent hg
  have hsmall := hbound _ hmerged
  rw [← h.start_eq] at hmerged hsmall
  show (_, packingOffset (agg.keySize + (agg.payloadOffset + _))) ∈ agg.merged
  rw [← hiu, packingOffset, ← Nat.add_assoc, Nat.mod_eq_of_lt hsmall]
  exact hmerged

theorem PlanOf.forall_readsGranules {start : ℕ} (h : PlanOf functions agg compute start)
    (hcoherent : Coherent (functions.flatMap AggFunction.granules))
    (hbound : ∀ p ∈ agg.merged, p.2 < 2 ^ 16)
    (hresolved : Resolved floatAdd description functions) :
    List.Forall₂ (ReadsGranules floatAdd agg) description compute := by
  rw [h.compute_eq, List.forall₂_map_right_iff]
  have hpart : ∀ part, part ⊆ functions → ∀ descriptions, Resolved floatAdd descriptions part →
      List.Forall₂ (fun func f => ReadsGranules floatAdd agg func
        (f.plan (inOrder (granuleSet functions)) agg.payloadOffset)) descriptions part := by
    intro part hsub descriptions hpart
    induction hpart with
    | nil => exact List.Forall₂.nil
    | cons hf _ ih =>
      refine List.Forall₂.cons ?_ (ih fun f hf' => hsub (List.mem_cons_of_mem _ hf'))
      exact h.readsGranules hcoherent hbound (hsub List.mem_cons_self) hf.1 hf.2
  exact hpart functions (fun _ hf => hf) description hresolved

end Readers

section Consistency

theorem PlanOf.merged_bounds {start : ℕ} (h : PlanOf functions agg compute start)
    {p : Granule × ℕ} (hp : p ∈ agg.merged) : start ≤ p.2 ∧
      p.2 + p.1.stateSize ≤ start + (agg.granules.map Granule.stateSize).sum := by
  rw [Aggregation.merged, h.start_eq] at hp
  exact mem_placed hp

/-- A plan whose offsets fit is consistent. -/
theorem PlanOf.consistent {start : ℕ} (h : PlanOf functions agg compute start)
    (hcoherent : Coherent (functions.flatMap AggFunction.granules))
    (hresolved : Resolved floatAdd description functions)
    (hbound : ∀ p ∈ agg.merged, p.2 < 2 ^ 16) :
    ConsistentLayout floatAdd description agg compute := by
  refine ⟨?_, ?_, h.forall_readsGranules hcoherent hbound hresolved, fun p hp => ?_,
    placed_pairwise _ _⟩
  · rw [h.describe_eq]
    exact inOrder_nodup _
  · exact (written_iff _ _).mpr hbound
  · have hbounds := h.merged_bounds hp
    have hstart := h.start_eq
    have hpayload := h.payloadSize_eq
    omega

/-- The last granule starts where the other states end. -/
theorem PlanOf.last_merged {start : ℕ} (h : PlanOf functions agg compute start)
    {last : GranuleDescription} (hlast : (inOrder (granuleSet functions)).getLast? = some last) :
    ∃ p ∈ agg.merged, p.2 + describedSize last =
      start + (agg.granules.map Granule.stateSize).sum := by
  rw [← h.describe_eq, List.getLast?_map, Option.map_eq_some_iff] at hlast
  obtain ⟨g, hg, rfl⟩ := hlast
  obtain ⟨rest, hrest⟩ := List.getLast?_eq_some_iff.mp hg
  refine ⟨(g, start + (rest.map Granule.stateSize).sum), ?_, ?_⟩
  · rw [Aggregation.merged, h.start_eq, hrest, placed_append]
    exact List.mem_append_right _ (List.mem_singleton.mpr rfl)
  · rw [hrest, List.map_append, List.sum_append, List.map_singleton, List.sum_singleton,
      ← Nat.add_assoc]
    rfl

theorem PlanOf.sum_eq {start : ℕ} (h : PlanOf functions agg compute start) :
    (agg.granules.map Granule.stateSize).sum =
      ∑ d ∈ granuleSet functions, describedSize d := by
  rw [h.sizes, sum_inOrder]

/-- The offsets fit if the last one does. -/
theorem PlanOf.bound_iff {last : GranuleDescription} {start : ℕ}
    (h : PlanOf functions agg compute start)
    (hlast : (inOrder (granuleSet functions)).getLast? = some last) :
    (∀ p ∈ agg.merged, p.2 < 2 ^ 16) ↔
      start + ∑ d ∈ granuleSet functions, describedSize d < 2 ^ 16 + describedSize last := by
  rw [← h.sum_eq]
  constructor
  · intro hbound
    obtain ⟨p, hp, hoffset⟩ := h.last_merged hlast
    have hsmall := hbound p hp
    omega
  · intro hfits p hp
    have hbounds := h.merged_bounds hp
    have hmem : p.1.describe ∈ granuleSet functions := by
      have hgranule : p.1 ∈ agg.granules := by
        rw [Aggregation.merged] at hp
        obtain ⟨i, hi⟩ := List.getElem?_of_mem hp
        rw [placed_getElem?, Option.map_eq_some_iff] at hi
        obtain ⟨g, hg, rfl⟩ := hi
        exact List.mem_of_getElem? hg
      rw [← Finset.mem_sort (· ≥ ·)]
      show p.1.describe ∈ inOrder (granuleSet functions)
      rw [← h.describe_eq]
      exact List.mem_map_of_mem hgranule
    have hleast : describedSize last ≤ p.1.stateSize :=
      (getLast_isLeast hlast).2 ⟨p.1.describe, hmem, rfl⟩
    omega

/-- There is a granule if there is an aggregate function. -/
theorem Resolved.exists_last (h : Resolved floatAdd description functions)
    (hne : description ≠ []) : ∃ last, (inOrder (granuleSet functions)).getLast? = some last := by
  cases h with
  | nil => exact absurd rfl hne
  | @cons func f rest functions hf _ =>
    obtain ⟨state, hstate⟩ := List.exists_mem_of_ne_nil _ (lookupEntry_granules hf.2).1
    have hmem : (⟨f.aggIu, state⟩ : Granule) ∈ (f :: functions).flatMap AggFunction.granules :=
      List.mem_flatMap.mpr ⟨f, List.mem_cons_self, List.mem_map.mpr ⟨state, hstate, rfl⟩⟩
    have horder := mem_inOrder.mpr ⟨_, hmem, rfl⟩
    exact ⟨_, List.getLast?_eq_getLast_of_ne_nil (List.ne_nil_of_mem horder)⟩

theorem consistent_iff_last (hfunctions : lookupFunctions floatAdd description = .ok functions)
    (hresolved : Resolved floatAdd description functions)
    (hcoherent : Coherent (functions.flatMap AggFunction.granules)) {last : GranuleDescription}
    (hlast : (inOrder (granuleSet functions)).getLast? = some last) :
    (∃ agg compute, Aggregation.planFunctions floatAdd groupBy description = .ok (agg, compute) ∧
      ConsistentLayout floatAdd description agg compute) ↔
      (packedSize groupBy = 0 ∨ 0 < describedSize last) ∧
        roundUp (packedSize groupBy) (describedSize last) +
          ∑ d ∈ granuleSet functions, describedSize d < 2 ^ 16 + describedSize last := by
  by_cases hpos : packedSize groupBy = 0 ∨ 0 < describedSize last
  · obtain ⟨agg, compute, hplan, _, hkey, h⟩ := planFunctions_eq hfunctions hcoherent hlast hpos
    have hbound := h.bound_iff hlast
    rw [hkey] at hbound
    constructor
    · intro hex
      obtain ⟨agg', compute', hplan', hconsistent⟩ := hex
      obtain ⟨rfl, rfl⟩ := Prod.mk.inj (Except.ok.inj (hplan.symm.trans hplan'))
      exact ⟨hpos, hbound.mp ((written_iff _ _).mp hconsistent.written)⟩
    · intro hfits
      exact ⟨agg, compute, hplan, h.consistent hcoherent hresolved (hbound.mpr hfits.2)⟩
  · have hnot := not_or.mp hpos
    have hdiverges := planFunctions_diverges hfunctions hlast (Nat.pos_of_ne_zero hnot.1)
      (Nat.eq_zero_of_not_pos hnot.2)
    constructor
    · intro hex
      obtain ⟨agg, compute, hplan, _⟩ := hex
      rw [hdiverges] at hplan
      cases hplan
    · intro hfits
      exact absurd hfits.1 hpos

/-- The layout of an aggregation is consistent exactly when its offsets fit the runtime
parameters. -/
theorem layout_consistent_iff (floatAdd : ℕ → ℕ → ℕ → ℕ) (groupBy : List IU)
    {description : List Description} (hne : description ≠ [])
    (hsupported : ∀ func ∈ description, ∃ entry, lookupEntry floatAdd func = .ok entry)
    (haddress : DistinctAddresses description) :
    (∃ agg compute, Aggregation.planFunctions floatAdd groupBy description = .ok (agg, compute) ∧
      ConsistentLayout floatAdd description agg compute) ↔
      LayoutFits (packedSize groupBy) (distinctGranules floatAdd description) := by
  obtain ⟨functions, hfunctions, hresolved⟩ := lookupFunctions_resolved hsupported
  obtain ⟨last, hlast⟩ := hresolved.exists_last hne
  have hgranules : distinctGranules floatAdd description = granuleSet functions := by
    rw [distinctGranules, hfunctions]
  have hleast := getLast_isLeast hlast
  rw [hgranules, consistent_iff_last hfunctions hresolved (hresolved.coherent haddress) hlast]
  constructor
  · intro hfits
    exact ⟨_, hleast, hfits⟩
  · intro hfits
    obtain ⟨smallest, hsmallest, hfits⟩ := hfits
    obtain rfl := hsmallest.unique hleast
    exact hfits

theorem layout_consistent_avg :
    ∃ agg compute, Aggregation.planFunctions (fun _ _ _ => 0) [⟨0, .signedInt 4⟩]
        [⟨⟨1, .signedInt 4⟩, .avg, false⟩, ⟨⟨1, .signedInt 4⟩, .sum, false⟩] =
          .ok (agg, compute) ∧
      ConsistentLayout (fun _ _ _ => 0)
        [⟨⟨1, .signedInt 4⟩, .avg, false⟩, ⟨⟨1, .signedInt 4⟩, .sum, false⟩] agg compute := by
  have hdistinct : distinctGranules (fun _ _ _ => 0)
      [⟨⟨1, .signedInt 4⟩, .avg, false⟩, ⟨⟨1, .signedInt 4⟩, .sum, false⟩] =
        {toLex (8, toLex (1, "agg_state_count")), toLex (4, toLex (1, "agg_state_sum_I4"))} := by
    decide +kernel
  apply (layout_consistent_iff (fun _ _ _ => 0) [⟨0, .signedInt 4⟩] (List.cons_ne_nil _ _)
    ?_ ?_).mpr
  · rw [hdistinct]
    refine ⟨4, ⟨⟨toLex (4, toLex (1, "agg_state_sum_I4")), by simp, rfl⟩, fun size hsize => ?_⟩,
      by decide, by decide +kernel⟩
    obtain ⟨d, hd, rfl⟩ := hsize
    simp only [Finset.coe_insert, Finset.coe_singleton, Set.mem_insert_iff,
      Set.mem_singleton_iff] at hd
    rcases hd with rfl | rfl <;> decide
  · intro func hfunc
    simp only [List.mem_cons, List.not_mem_nil, or_false] at hfunc
    rcases hfunc with rfl | rfl <;> exact ⟨_, rfl⟩
  · unfold DistinctAddresses
    decide

/-- A key of 65536 bytes: the aggregator writes the count to the start of the slot, where the key
is, and the merge adds behind the key. -/
theorem layout_wraps :
    ¬ ∃ agg compute, Aggregation.planFunctions (fun _ _ _ => 0)
        (List.replicate 8192 ⟨0, .string⟩) [⟨⟨1, .signedInt 4⟩, .count, false⟩] =
          .ok (agg, compute) ∧
      ConsistentLayout (fun _ _ _ => 0) [⟨⟨1, .signedInt 4⟩, .count, false⟩] agg compute := by
  have hresolved : Resolved (fun _ _ _ => 0) [⟨⟨1, .signedInt 4⟩, .count, false⟩]
      [⟨⟨1, .signedInt 4⟩, resolveCount⟩] := .cons ⟨rfl, rfl⟩ .nil
  have hcoherent : Coherent ([(⟨⟨1, .signedInt 4⟩, resolveCount⟩ : AggFunction)].flatMap
      AggFunction.granules) := by
    intro g hg k hk _
    exact (List.mem_singleton.mp hg).trans (List.mem_singleton.mp hk).symm
  have hset : granuleSet [⟨⟨1, .signedInt 4⟩, resolveCount⟩] =
      {toLex (8, toLex (1, "agg_state_count"))} := rfl
  have hlast : (inOrder (granuleSet [⟨⟨1, .signedInt 4⟩, resolveCount⟩])).getLast? =
      some (toLex (8, toLex (1, "agg_state_count"))) := by
    rw [hset, inOrder, Finset.sort_singleton]
    rfl
  have hsize : packedSize (List.replicate 8192 ⟨0, .string⟩) = 65536 := by
    rw [packedSize, List.map_replicate, List.sum_replicate]
    rfl
  rw [consistent_iff_last rfl hresolved hcoherent hlast, hsize, hset, Finset.sum_singleton]
  intro h
  exact absurd h.2 (by decide)

end Consistency

section Alignment

/-- The granules of all slots lie at multiples of their sizes. -/
def Aligned (agg : Aggregation) : Prop :=
  ∀ slot, ∀ p ∈ agg.merged, p.1.stateSize ∣ slot * (agg.keySize + agg.payloadSize) + p.2

/-- The largest state fits the key, rounded up in steps of the smallest state, and the sum of the
states. -/
def Aligns (keySize : ℕ) (granules : Finset GranuleDescription) : Prop :=
  ∃ smallest largest, IsLeast (describedSize '' granules) smallest ∧
    IsGreatest (describedSize '' granules) largest ∧ largest ∣ roundUp keySize smallest ∧
      largest ∣ ∑ d ∈ granules, describedSize d

/-- The first granule of the set is one of the largest. -/
theorem head_isGreatest {granules : Finset GranuleDescription} {first : GranuleDescription}
    {rest : List GranuleDescription} (h : inOrder granules = first :: rest) :
    IsGreatest (describedSize '' granules) (describedSize first) := by
  have hmem : first ∈ inOrder granules := by
    rw [h]
    exact List.mem_cons_self
  refine ⟨⟨first, (Finset.mem_sort _).mp hmem, rfl⟩, fun size hsize => ?_⟩
  obtain ⟨d, hd, rfl⟩ := hsize
  have hd' : d ∈ inOrder granules := (Finset.mem_sort _).mpr hd
  have hsorted : (inOrder granules).Pairwise (· ≥ ·) := Finset.pairwise_sort _ _
  rw [h] at hsorted hd'
  rcases List.mem_cons.mp hd' with rfl | hrest
  · exact le_rfl
  · exact describedSize_mono ((List.pairwise_cons.mp hsorted).1 d hrest)

theorem dvd_of_le {a b : ℕ} (ha : a ∈ [1, 2, 4, 8]) (hb : b ∈ [1, 2, 4, 8]) (h : a ≤ b) :
    a ∣ b := by
  simp only [List.mem_cons, List.not_mem_nil, or_false] at ha hb
  rcases ha with rfl | rfl | rfl | rfl <;> rcases hb with rfl | rfl | rfl | rfl <;> omega

theorem Resolved.granule_size (h : Resolved floatAdd description functions)
    (hsizes : ∀ func ∈ description,
      func.code = .count ∨ func.aggIu.type.numBytes ∈ [1, 2, 4, 8]) {g : Granule}
    (hg : g ∈ functions.flatMap AggFunction.granules) : g.stateSize ∈ [1, 2, 4, 8] := by
  obtain ⟨func, hfunc, hiu, hcount | ⟨hsum, hcode⟩⟩ := h.mem_granules hg
  · rw [Granule.stateSize, hcount]
    decide
  · rw [Granule.stateSize, hsum, hiu]
    exact (hsizes func hfunc).resolve_left hcode

/-- The states in front of a granule are not smaller, so their sizes are multiples of its size. -/
theorem stateSize_dvd_sizesBefore {granules : List Granule}
    (hsorted : (granules.map Granule.stateSize).Pairwise (· ≥ ·))
    (hsize : ∀ g ∈ granules, g.stateSize ∈ [1, 2, 4, 8]) {i : ℕ} {g : Granule}
    (hg : granules[i]? = some g) : g.stateSize ∣ sizesBefore granules i := by
  obtain ⟨hlt, hget⟩ := List.getElem?_eq_some_iff.mp hg
  have hsplit : granules.take i ++ g :: granules.drop (i + 1) = granules := by
    rw [← hget, ← List.drop_eq_getElem_cons hlt, List.take_append_drop]
  rw [← hsplit, List.map_append, List.map_cons] at hsorted
  apply List.dvd_sum
  intro size hmem
  obtain ⟨k, hk, rfl⟩ := List.mem_map.mp hmem
  have hle := (List.pairwise_append.mp hsorted).2.2 _ hmem g.stateSize List.mem_cons_self
  exact dvd_of_le (hsize g (List.mem_of_getElem? hg)) (hsize k (List.mem_of_mem_take hk)) hle

/-- States in descending order are aligned if the largest one is. -/
theorem PlanOf.aligned_iff {start : ℕ} {first : GranuleDescription}
    {rest : List GranuleDescription} (h : PlanOf functions agg compute start)
    (horder : inOrder (granuleSet functions) = first :: rest)
    (hsize : ∀ g ∈ agg.granules, g.stateSize ∈ [1, 2, 4, 8]) :
    Aligned agg ↔ describedSize first ∣ start ∧
      describedSize first ∣ ∑ d ∈ granuleSet functions, describedSize d := by
  have hdescribe := h.describe_eq
  have hpayload := h.payloadSize_eq
  have hstart := h.start_eq
  rw [horder] at hdescribe
  rw [← h.sum_eq]
  have hstride : agg.keySize + agg.payloadSize =
      start + (agg.granules.map Granule.stateSize).sum := by omega
  obtain ⟨g, granules, hgranules, rfl, _⟩ := List.map_eq_cons_iff.mp hdescribe
  unfold Aligned
  rw [hstride]
  constructor
  · intro haligned
    have hmem : (g, start) ∈ agg.merged := by
      rw [Aggregation.merged, hstart, hgranules]
      exact List.mem_cons_self
    have hzero : g.stateSize ∣ 0 * _ + start := haligned 0 _ hmem
    have hone : g.stateSize ∣ 1 * _ + start := haligned 1 _ hmem
    rw [Nat.zero_mul, Nat.zero_add] at hzero
    rw [Nat.one_mul, Nat.add_right_comm, ← two_mul] at hone
    exact ⟨hzero, (Nat.dvd_add_right (hzero.mul_left 2)).mp hone⟩
  · intro hfirst slot p hp
    have hsorted : (agg.granules.map Granule.stateSize).Pairwise (· ≥ ·) := by
      rw [h.sizes, List.pairwise_map]
      exact (Finset.pairwise_sort _ _).imp fun hge => describedSize_mono hge
    rw [Aggregation.merged, hstart] at hp
    obtain ⟨i, hi⟩ := List.getElem?_of_mem hp
    rw [placed_getElem?, Option.map_eq_some_iff] at hi
    obtain ⟨k, hk, rfl⟩ := hi
    have hmem := List.mem_of_getElem? hk
    have hle : k.stateSize ≤ g.stateSize := by
      rw [hgranules, List.map_cons, List.pairwise_cons] at hsorted
      rw [hgranules] at hmem
      rcases List.mem_cons.mp hmem with rfl | hmem
      · exact le_rfl
      · exact hsorted.1 _ (List.mem_map_of_mem hmem)
    have hdvd : k.stateSize ∣ g.stateSize := dvd_of_le (hsize k hmem)
      (hsize g (by rw [hgranules]; exact List.mem_cons_self)) hle
    have hstart' := hdvd.trans hfirst.1
    exact Nat.dvd_add ((Nat.dvd_add hstart' (hdvd.trans hfirst.2)).mul_left slot)
      (Nat.dvd_add hstart' (stateSize_dvd_sizesBefore hsorted hsize hk))

/-- All states of at least one byte are found. -/
theorem planned_aligned_iff (groupBy : List IU)
    (hfunctions : lookupFunctions floatAdd description = .ok functions)
    (hresolved : Resolved floatAdd description functions)
    (haddress : DistinctAddresses description) (hne : description ≠ [])
    (hsizes : ∀ func ∈ description,
      func.code = .count ∨ func.aggIu.type.numBytes ∈ [1, 2, 4, 8]) :
    ∃ agg compute, Aggregation.planFunctions floatAdd groupBy description = .ok (agg, compute) ∧
      (Aligned agg ↔ Aligns (packedSize groupBy) (granuleSet functions)) := by
  obtain ⟨last, hlast⟩ := hresolved.exists_last hne
  have hleast := getLast_isLeast hlast
  have hsize : ∀ g ∈ functions.flatMap AggFunction.granules, g.stateSize ∈ [1, 2, 4, 8] :=
    fun g hg => hresolved.granule_size hsizes hg
  have hpos : 0 < describedSize last := by
    obtain ⟨g, hg, rfl⟩ := mem_inOrder.mp (List.mem_of_getLast? hlast)
    have hmem : g.stateSize ∈ [1, 2, 4, 8] := hsize g hg
    simp only [List.mem_cons, List.not_mem_nil, or_false] at hmem
    show 0 < g.stateSize
    omega
  obtain ⟨agg, compute, hplan, _, hkey, h⟩ := planFunctions_eq hfunctions
    (hresolved.coherent haddress) hlast (Or.inr hpos)
  refine ⟨agg, compute, hplan, ?_⟩
  cases horder : inOrder (granuleSet functions) with
  | nil =>
    rw [horder] at hlast
    cases hlast
  | cons first rest =>
    have hgreatest := head_isGreatest horder
    rw [h.aligned_iff horder fun g hg => hsize g (h.granules_mem g hg), hkey]
    constructor
    · intro haligned
      exact ⟨_, _, hleast, hgreatest, haligned⟩
    · intro haligned
      obtain ⟨smallest, largest, hsmallest, hlargest, haligned⟩ := haligned
      obtain rfl := hsmallest.unique hleast
      obtain rfl := hlargest.unique hgreatest
      exact haligned

/-- The updates of aggregate states are aligned exactly when the largest state divides the start of
the states and the sum of their sizes. -/
theorem layout_aligned_iff (floatAdd : ℕ → ℕ → ℕ → ℕ) (groupBy : List IU)
    {description : List Description} (hne : description ≠ [])
    (hsupported : ∀ func ∈ description, ∃ entry, lookupEntry floatAdd func = .ok entry)
    (haddress : DistinctAddresses description)
    (hsizes : ∀ func ∈ description,
      func.code = .count ∨ func.aggIu.type.numBytes ∈ [1, 2, 4, 8]) :
    ∃ agg compute, Aggregation.planFunctions floatAdd groupBy description = .ok (agg, compute) ∧
      (Aligned agg ↔ Aligns (packedSize groupBy) (distinctGranules floatAdd description)) := by
  obtain ⟨functions, hfunctions, hresolved⟩ := lookupFunctions_resolved hsupported
  have hgranules : distinctGranules floatAdd description = granuleSet functions := by
    rw [distinctGranules, hfunctions]
  rw [hgranules]
  exact planned_aligned_iff groupBy hfunctions hresolved haddress hne hsizes

theorem layout_aligned_sum :
    ∃ agg compute, Aggregation.planFunctions (fun _ _ _ => 0) [⟨0, .string⟩]
        [⟨⟨1, .signedInt 4⟩, .sum, false⟩] = .ok (agg, compute) ∧
      (Aligned agg ↔ Aligns (packedSize [⟨0, .string⟩])
        (distinctGranules (fun _ _ _ => 0) [⟨⟨1, .signedInt 4⟩, .sum, false⟩])) := by
  apply layout_aligned_iff (fun _ _ _ => 0) [⟨0, .string⟩] (List.cons_ne_nil _ _)
  · intro func hfunc
    rw [List.mem_singleton.mp hfunc]
    exact ⟨_, rfl⟩
  · unfold DistinctAddresses
    decide
  · intro func hfunc
    rw [List.mem_singleton.mp hfunc]
    exact Or.inr (by decide)

/-- An average over four-byte integers behind a four-byte key: the search for the start goes in
steps of the smallest state, and the count lies at the fourth byte of the slot. -/
theorem average_misaligned :
    ∃ agg compute, Aggregation.planFunctions (fun _ _ _ => 0) [⟨0, .signedInt 4⟩]
        [⟨⟨1, .signedInt 4⟩, .avg, false⟩] = .ok (agg, compute) ∧ ¬ Aligned agg := by
  have hresolved : Resolved (fun _ _ _ => 0) [⟨⟨1, .signedInt 4⟩, .avg, false⟩]
      [⟨⟨1, .signedInt 4⟩, resolveAvg (fun _ _ _ => 0) (.signedInt 4)⟩] := .cons ⟨rfl, rfl⟩ .nil
  have haddress : DistinctAddresses [⟨⟨1, .signedInt 4⟩, .avg, false⟩] := by
    unfold DistinctAddresses
    decide
  obtain ⟨agg, compute, hplan, haligned⟩ := planned_aligned_iff [⟨0, .signedInt 4⟩] rfl
    hresolved haddress (List.cons_ne_nil _ _) fun func hfunc =>
      Or.inr (by rw [List.mem_singleton.mp hfunc]; decide)
  refine ⟨agg, compute, hplan, fun h => ?_⟩
  obtain ⟨smallest, largest, hsmallest, hlargest, hdvd, _⟩ := haligned.mp h
  have hset : granuleSet [⟨⟨1, .signedInt 4⟩, resolveAvg (fun _ _ _ => 0) (.signedInt 4)⟩] =
      {toLex (8, toLex (1, "agg_state_count")), toLex (4, toLex (1, "agg_state_sum_I4"))} := by
    decide +kernel
  have himage : describedSize '' (granuleSet [⟨⟨1, .signedInt 4⟩,
      resolveAvg (fun _ _ _ => 0) (.signedInt 4)⟩] : Set GranuleDescription) = {8, 4} := by
    rw [hset, Finset.coe_insert, Finset.coe_singleton, Set.image_pair]
    rfl
  rw [himage] at hsmallest hlargest
  obtain rfl : smallest = 4 := hsmallest.unique ⟨by simp, by simp⟩
  obtain rfl : largest = 8 := hlargest.unique ⟨by simp, by simp⟩
  exact absurd hdvd (by decide)

end Alignment

end InkFuse.Algebra
