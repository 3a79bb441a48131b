import InkFuse.Algebra.AggregateStates
import InkFuse.Algebra.Grouping
import Mathlib.Data.Finset.Sort
import Mathlib.Data.Prod.Lex
import Mathlib.Data.String.Basic

/-!
How `Aggregation::plan` lays out the state of an aggregation: the ordered set of granules, the
vector of granules that is filled by positions in the set, and the offsets at which the readers of
the aggregate functions find their granules.
-/

namespace InkFuse.Algebra

open Bytes Codegen InkFuse.Runtime AggregateFunctions

section Registry

inductive AggCompute
  | unpack (type : IRType)
  | avg (type : IRType)
  deriving DecidableEq, Repr

def AggCompute.requiredGranules : AggCompute → ℕ
  | unpack _ => 1
  | avg _ => 2

structure RegistryEntry where
  resultType : IRType
  granules : List AggState
  aggReader : AggCompute

variable (floatAdd : ℕ → ℕ → ℕ → ℕ)

def resolveCount : RegistryEntry where
  resultType := .signedInt 8
  granules := [AggStateCount]
  aggReader := .unpack (.signedInt 8)

def resolveSum (type : IRType) : RegistryEntry where
  resultType := type
  granules := [AggStateSum floatAdd type]
  aggReader := .unpack type

def resolveAvg (type : IRType) : RegistryEntry where
  resultType := .float 8
  granules := [AggStateSum floatAdd type, AggStateCount]
  aggReader := .avg type

/-- The registry with the reader of each aggregate function. -/
def lookupEntry (description : Description) : Except Fault RegistryEntry :=
  if description.distinct then
    .error .runtimeError
  else
    match description.code with
    | .count => .ok resolveCount
    | .sum => .ok (resolveSum floatAdd description.aggIu.type)
    | .avg => .ok (resolveAvg floatAdd description.aggIu.type)
    | .min | .max | .median => .error .runtimeError

theorem lookupSubops_eq (description : Description) :
    lookupSubops floatAdd description = (lookupEntry floatAdd description).map
      RegistryEntry.granules := by
  obtain ⟨aggIu, code, distinct⟩ := description
  cases distinct <;> cases code <;> rfl

end Registry

section Plan

/-- `std::tuple<size_t, const IU*, std::string>`, ordered as tuples are. -/
abbrev GranuleDescription := ℕ ×ₗ ℕ ×ₗ String

def Granule.describe (g : Granule) : GranuleDescription :=
  toLex (g.stateSize, toLex (g.aggIu.address, g.aggState.id))

def describedSize (d : GranuleDescription) : ℕ := (ofLex d).1

structure AggFunction where
  aggIu : IU
  entry : RegistryEntry

def AggFunction.granules (f : AggFunction) : List Granule :=
  f.entry.granules.map fun state => ⟨f.aggIu, state⟩

/-- `std::set<GranuleDescription, std::greater<>>` -/
def granuleSet (functions : List AggFunction) : Finset GranuleDescription :=
  ((functions.flatMap AggFunction.granules).map Granule.describe).toFinset

def inOrder (granules : Finset GranuleDescription) : List GranuleDescription :=
  granules.sort (· ≥ ·)

/-- `granules[idx] = {iu, std::move(granule)}`, where the last writer wins. -/
def fill (order : List GranuleDescription) (granules : List (Option Granule)) (g : Granule) :
    List (Option Granule) :=
  granules.set (order.idxOf g.describe) (some g)

structure PlannedAggCompute where
  compute : AggCompute
  granuleOffsets : List ℕ

/-- The plan of a function: each granule is behind all that come before it in the set. -/
def AggFunction.plan (order : List GranuleDescription) (payloadOffset : ℕ) (f : AggFunction) :
    PlannedAggCompute where
  compute := f.entry.aggReader
  granuleOffsets := f.granules.map fun g =>
    payloadOffset + ((order.take (order.idxOf g.describe)).map describedSize).sum

variable (floatAdd : ℕ → ℕ → ℕ → ℕ)

def lookupFunctions (description : List Description) : Except Fault (List AggFunction) :=
  description.mapM fun func => do
    let entry ← lookupEntry floatAdd func
    .ok ⟨func.aggIu, entry⟩

/-- A granule that is never written is a null pointer, which `decay` would follow. -/
def unwrapGranules (granules : List (Option Granule)) : Except Fault (List Granule) :=
  granules.mapM fun g => g.elim (.error .outOfBounds) .ok

namespace Aggregation

/-- `Aggregation::plan` with the plans of the aggregate functions. -/
def planFunctions (groupBy : List IU) (description : List Description) :
    Except Fault (Aggregation × List PlannedAggCompute) := do
  let keySize := (groupBy.map fun key => key.type.numBytes).sum
  let functions ← lookupFunctions floatAdd description
  let order := inOrder (granuleSet functions)
  match order.getLast? with
  | none => .error .outOfBounds
  | some last => do
    let start ← skipKey keySize (describedSize last) (keySize + 1) 0
    let payloadOffset := start - keySize
    let granules ← unwrapGranules
      ((functions.flatMap AggFunction.granules).foldl (fill order)
        (List.replicate order.length none))
    .ok ({
      groupBy := groupBy
      granules := granules
      keySize := keySize
      payloadOffset := payloadOffset
      payloadSize := payloadOffset + (order.map describedSize).sum
      requiresComplexHt := groupBy.map IU.type == [.string]
    }, functions.map (AggFunction.plan order payloadOffset))

/-- The runtime parameters of the reader of a function, which are sixteen bits wide. -/
def readerOffsets (agg : Aggregation) (planned : PlannedAggCompute) : List ℕ :=
  (planned.granuleOffsets.take planned.compute.requiredGranules).map fun offset =>
    packingOffset (agg.keySize + offset)

end Aggregation

end Plan

section Fill

variable {order : List GranuleDescription} {gs : List Granule}

def Coherent (gs : List Granule) : Prop :=
  ∀ g ∈ gs, ∀ h ∈ gs, g.describe = h.describe → g = h

theorem fill_map {f : GranuleDescription → Option Granule} (hnodup : order.Nodup) {g : Granule}
    (hmem : g.describe ∈ order) : fill order (order.map f) g =
      order.map (Function.update f g.describe (some g)) := by
  apply List.ext_getElem?
  intro i
  rw [fill, List.getElem?_set, List.getElem?_map, List.getElem?_map, List.length_map]
  have hlt := List.idxOf_lt_length_of_mem hmem
  by_cases hi : order.idxOf g.describe = i
  · subst hi
    rw [if_pos rfl, if_pos hlt, List.getElem?_eq_getElem hlt, List.getElem_idxOf hlt,
      Option.map_some, Function.update_self]
  · rw [if_neg hi]
    cases hget : order[i]? with
    | none => rfl
    | some d =>
      have hne : d ≠ g.describe := by
        rintro rfl
        obtain ⟨hlen, hd⟩ := List.getElem?_eq_some_iff.mp hget
        exact hi (by rw [← hd]; exact hnodup.idxOf_getElem i hlen)
      rw [Option.map_some, Option.map_some, Function.update_of_ne hne]

/-- Every position of the set holds the granule that is described there. -/
theorem foldl_fill (hnodup : order.Nodup) (hmem : ∀ g ∈ gs, g.describe ∈ order)
    (hcoherent : Coherent gs) : gs.foldl (fill order) (List.replicate order.length none) =
      order.map fun d => gs.find? fun g => g.describe == d := by
  induction gs using List.reverseRecOn with
  | nil => simp [List.map_const']
  | append_singleton gs g ih =>
    rw [List.foldl_append, ih (fun h hh => hmem h (List.mem_append_left _ hh))
      (fun h hh k hk => hcoherent h (List.mem_append_left _ hh) k (List.mem_append_left _ hk))]
    show fill order (order.map _) g = _
    rw [fill_map hnodup (hmem g (by simp))]
    congr 1
    funext d
    rw [List.find?_append]
    by_cases hd : d = g.describe
    · subst hd
      rw [Function.update_self]
      cases hfind : gs.find? fun h => h.describe == g.describe with
      | none => simp
      | some h =>
        have hsame : h.describe = g.describe := by simpa using List.find?_some hfind
        have hh := List.mem_of_find?_eq_some hfind
        rw [hcoherent h (List.mem_append_left _ hh) g (by simp) hsame]
        rfl
    · rw [Function.update_of_ne hd]
      have hnone : [g].find? (fun h => h.describe == d) = none := by
        simp [Ne.symm hd]
      rw [hnone, Option.or_none]

theorem unwrapGranules_some (granules : List Granule) :
    unwrapGranules (granules.map some) = .ok granules := by
  induction granules with
  | nil => rfl
  | cons g granules ih =>
    rw [List.map_cons, unwrapGranules, List.mapM_cons]
    show (unwrapGranules (granules.map some)).bind _ = _
    rw [ih]
    rfl

theorem exists_described {l : List GranuleDescription}
    (hall : ∀ d ∈ l, ∃ g ∈ gs, g.describe = d) :
    ∃ granules : List Granule,
      (l.map fun d => gs.find? fun g => g.describe == d) = granules.map some ∧
      granules.map Granule.describe = l ∧ ∀ g ∈ granules, g ∈ gs := by
  induction l with
  | nil => exact ⟨[], rfl, rfl, by simp⟩
  | cons d l ih =>
    obtain ⟨granules, hfind, hdescribe, hgranules⟩ :=
      ih fun e he => hall e (List.mem_cons_of_mem d he)
    obtain ⟨g, hg, hd⟩ := hall d List.mem_cons_self
    cases hfound : gs.find? fun h => h.describe == d with
    | none =>
      have hnone := List.find?_eq_none.mp hfound g hg
      exact absurd (beq_iff_eq.mpr hd) hnone
    | some h =>
      refine ⟨h :: granules, by rw [List.map_cons, hfound, hfind]; rfl, ?_, ?_⟩
      · have hsame : h.describe = d := by simpa using List.find?_some hfound
        rw [List.map_cons, hdescribe, hsame]
      · intro k hk
        rcases List.mem_cons.mp hk with rfl | hk
        · exact List.mem_of_find?_eq_some hfound
        · exact hgranules k hk

end Fill

section Offsets

/-- The first multiple of `step` that is not below `n`. -/
def roundUp (n step : ℕ) : ℕ := (n + step - 1) / step * step

theorem roundUp_eq {n step k : ℕ} (hle : n ≤ k * step) (hlt : k * step < n + step) :
    roundUp n step = k * step := by
  have hsucc : (k + 1) * step = k * step + step := Nat.succ_mul k step
  have hdiv : (n + step - 1) / step = k := Nat.div_eq_of_lt_le (by omega) (by omega)
  rw [roundUp, hdiv]

theorem skipKey_multiple {keySize step : ℕ} (fuel k : ℕ) (hlt : k * step < keySize + step)
    (hfuel : keySize + step ≤ (k + fuel) * step) :
    Aggregation.skipKey keySize step fuel (k * step) = .ok (roundUp keySize step) := by
  induction fuel generalizing k with
  | zero =>
    rw [Nat.add_zero] at hfuel
    omega
  | succ fuel ih =>
    unfold Aggregation.skipKey
    split
    · next hbelow =>
      have hsucc : (k + 1) * step = k * step + step := Nat.succ_mul k step
      rw [← hsucc]
      apply ih
      · omega
      · rwa [Nat.add_assoc, Nat.add_comm 1 fuel]
    · next habove =>
      rw [roundUp_eq (by omega) hlt]

theorem skipKey_roundUp {keySize step : ℕ} (hpos : keySize = 0 ∨ 0 < step) :
    Aggregation.skipKey keySize step (keySize + 1) 0 = .ok (roundUp keySize step) := by
  rcases Nat.eq_zero_or_pos step with rfl | hstep
  · obtain rfl := hpos.resolve_right (Nat.lt_irrefl 0)
    rfl
  · have hmul : keySize * 1 ≤ keySize * step := Nat.mul_le_mul_left keySize hstep
    have hsucc : (0 + (keySize + 1)) * step = keySize * step + step := by
      rw [Nat.zero_add, Nat.succ_mul]
    have hmultiple := skipKey_multiple (keySize + 1) 0 (by omega : 0 * step < keySize + step)
      (by omega)
    rwa [Nat.zero_mul] at hmultiple

theorem skipKey_stuck {keySize offset : ℕ} (h : offset < keySize) (fuel : ℕ) :
    Aggregation.skipKey keySize 0 fuel offset = .error .diverges := by
  induction fuel with
  | zero => rfl
  | succ fuel ih => rw [Aggregation.skipKey, if_pos h, Nat.add_zero, ih]

theorem le_roundUp {n step : ℕ} (hpos : n = 0 ∨ 0 < step) : n ≤ roundUp n step := by
  rcases Nat.eq_zero_or_pos step with rfl | hstep
  · obtain rfl := hpos.resolve_right (Nat.lt_irrefl 0)
    exact Nat.zero_le _
  · have hdiv := Nat.lt_div_mul_add (a := n + step - 1) hstep
    rw [roundUp]
    omega

def sizesBefore (granules : List Granule) (i : ℕ) : ℕ :=
  ((granules.take i).map Granule.stateSize).sum

theorem placed_getElem? (granules : List Granule) (offset i : ℕ) : (placed granules offset)[i]? =
    granules[i]?.map fun g => (g, offset + sizesBefore granules i) := by
  induction granules generalizing offset i with
  | nil => rfl
  | cons g granules ih =>
    cases i with
    | zero => rfl
    | succ i =>
      rw [placed, List.getElem?_cons_succ, ih, List.getElem?_cons_succ]
      simp [sizesBefore, Nat.add_assoc]

/-- The states lie behind the start, in front of the end. -/
theorem mem_placed {granules : List Granule} {start : ℕ} {p : Granule × ℕ}
    (h : p ∈ placed granules start) :
    start ≤ p.2 ∧ p.2 + p.1.stateSize ≤ start + (granules.map Granule.stateSize).sum := by
  induction granules generalizing start with
  | nil => cases h
  | cons g granules ih =>
    rw [List.map_cons, List.sum_cons]
    rcases List.mem_cons.mp h with rfl | hrest
    · exact ⟨le_rfl, by simp only; omega⟩
    · have hbounds := ih hrest
      omega

/-- No two states overlap. -/
theorem placed_pairwise (granules : List Granule) (start : ℕ) :
    (placed granules start).Pairwise fun p q => p.2 + p.1.stateSize ≤ q.2 := by
  induction granules generalizing start with
  | nil => exact List.Pairwise.nil
  | cons g granules ih => exact List.Pairwise.cons (fun q hq => (mem_placed hq).1) (ih _)

end Offsets

section Planned

variable {floatAdd : ℕ → ℕ → ℕ → ℕ} {groupBy : List IU} {description : List Description}
  {functions : List AggFunction} {agg : Aggregation} {compute : List PlannedAggCompute}

def Resolved (floatAdd : ℕ → ℕ → ℕ → ℕ) (description : List Description)
    (functions : List AggFunction) : Prop :=
  List.Forall₂ (fun func f => f.aggIu = func.aggIu ∧ lookupEntry floatAdd func = .ok f.entry)
    description functions

theorem lookupFunctions_resolved
    (hsupported : ∀ func ∈ description, ∃ entry, lookupEntry floatAdd func = .ok entry) :
    ∃ functions, lookupFunctions floatAdd description = .ok functions ∧
      Resolved floatAdd description functions := by
  induction description with
  | nil => exact ⟨[], rfl, List.Forall₂.nil⟩
  | cons func rest ih =>
    obtain ⟨functions, hrest, hresolved⟩ :=
      ih fun f hf => hsupported f (List.mem_cons_of_mem func hf)
    obtain ⟨entry, hentry⟩ := hsupported func List.mem_cons_self
    refine ⟨⟨func.aggIu, entry⟩ :: functions, ?_, List.Forall₂.cons ⟨rfl, hentry⟩ hresolved⟩
    rw [lookupFunctions, List.mapM_cons, hentry]
    show (lookupFunctions floatAdd rest).bind _ = _
    rw [hrest]
    rfl

/-- The granules of an aggregate function are a sum over its IU, or a count. -/
theorem lookupEntry_granules {func : Description} {entry : RegistryEntry}
    (h : lookupEntry floatAdd func = .ok entry) : entry.granules ≠ [] ∧
      ∀ state ∈ entry.granules, state = AggStateCount ∨
        state = AggStateSum floatAdd func.aggIu.type ∧ func.code ≠ .count := by
  obtain ⟨aggIu, code, distinct⟩ := func
  cases distinct with
  | true => cases h
  | false =>
    cases code with
    | count =>
      cases h
      exact ⟨List.cons_ne_nil _ _, fun state hmem => Or.inl (List.mem_singleton.mp hmem)⟩
    | sum =>
      cases h
      exact ⟨List.cons_ne_nil _ _, fun state hmem => Or.inr ⟨List.mem_singleton.mp hmem, nofun⟩⟩
    | avg =>
      cases h
      refine ⟨List.cons_ne_nil _ _, fun state hmem => ?_⟩
      simp only [resolveAvg, List.mem_cons, List.not_mem_nil, or_false] at hmem
      exact hmem.symm.imp_right fun hsum => ⟨hsum, nofun⟩
    | min => cases h
    | max => cases h
    | median => cases h

theorem Resolved.mem_granules (h : Resolved floatAdd description functions) {g : Granule}
    (hg : g ∈ functions.flatMap AggFunction.granules) :
    ∃ func ∈ description, g.aggIu = func.aggIu ∧ (g.aggState = AggStateCount ∨
      g.aggState = AggStateSum floatAdd g.aggIu.type ∧ func.code ≠ .count) := by
  induction h with
  | nil => cases hg
  | @cons func f description functions hf _ ih =>
    rw [List.flatMap_cons, List.mem_append] at hg
    rcases hg with hfirst | hrest
    · obtain ⟨state, hstate, rfl⟩ := List.mem_map.mp hfirst
      refine ⟨func, List.mem_cons_self, hf.1, ?_⟩
      show state = AggStateCount ∨ state = AggStateSum floatAdd f.aggIu.type ∧ func.code ≠ .count
      rw [hf.1]
      exact (lookupEntry_granules hf.2).2 state hstate
    · obtain ⟨func', hfunc', hgranule⟩ := ih hrest
      exact ⟨func', List.mem_cons_of_mem _ hfunc', hgranule⟩

def DistinctAddresses (description : List Description) : Prop :=
  ∀ func ∈ description, ∀ other ∈ description,
    func.aggIu.address = other.aggIu.address → func.aggIu = other.aggIu

theorem Resolved.coherent (h : Resolved floatAdd description functions)
    (haddress : DistinctAddresses description) :
    Coherent (functions.flatMap AggFunction.granules) := by
  intro g hg k hk hsame
  obtain ⟨func, hfunc, hiu, hstate⟩ := h.mem_granules hg
  obtain ⟨other, hother, hiu', hstate'⟩ := h.mem_granules hk
  obtain ⟨_, hrest⟩ := Prod.mk.inj (toLex.injective hsame)
  obtain ⟨haddr, hid⟩ := Prod.mk.inj (toLex.injective hrest)
  have hius : g.aggIu = k.aggIu := by
    rw [hiu, hiu'] at haddr ⊢
    exact haddress func hfunc other hother haddr
  obtain ⟨iu, state⟩ := g
  obtain ⟨iu', state'⟩ := k
  obtain rfl : iu = iu' := hius
  have hstates : state = state' := by
    rcases hstate with hs | ⟨hs, _⟩ <;> rcases hstate' with hs' | ⟨hs', _⟩
    · exact hs.trans hs'.symm
    · exact absurd ((congrArg AggState.id hs').symm.trans (hid.symm.trans (congrArg _ hs)))
        (sum_id_ne_count _)
    · exact absurd ((congrArg AggState.id hs).symm.trans (hid.trans (congrArg _ hs')))
        (sum_id_ne_count _)
    · exact hs.trans hs'.symm
  rw [hstates]

structure PlanOf (functions : List AggFunction) (agg : Aggregation)
    (compute : List PlannedAggCompute) (start : ℕ) : Prop where
  start_eq : agg.keySize + agg.payloadOffset = start
  payloadSize_eq : agg.payloadSize =
    agg.payloadOffset + (agg.granules.map Granule.stateSize).sum
  describe_eq : agg.granules.map Granule.describe = inOrder (granuleSet functions)
  granules_mem : ∀ g ∈ agg.granules, g ∈ functions.flatMap AggFunction.granules
  compute_eq : compute = functions.map
    (AggFunction.plan (inOrder (granuleSet functions)) agg.payloadOffset)

theorem mem_inOrder {d : GranuleDescription} : d ∈ inOrder (granuleSet functions) ↔
    ∃ g ∈ functions.flatMap AggFunction.granules, g.describe = d := by
  rw [inOrder, Finset.mem_sort, granuleSet, List.mem_toFinset, List.mem_map]

theorem inOrder_nodup (granules : Finset GranuleDescription) : (inOrder granules).Nodup :=
  Finset.sort_nodup granules _

/-- The plan succeeds if the search for the start of the state ends. -/
theorem planFunctions_eq {last : GranuleDescription}
    (hfunctions : lookupFunctions floatAdd description = .ok functions)
    (hcoherent : Coherent (functions.flatMap AggFunction.granules))
    (hlast : (inOrder (granuleSet functions)).getLast? = some last)
    (hpos : (groupBy.map fun key => key.type.numBytes).sum = 0 ∨ 0 < describedSize last) :
    ∃ agg compute, Aggregation.planFunctions floatAdd groupBy description = .ok (agg, compute) ∧
      agg.groupBy = groupBy ∧ agg.keySize = (groupBy.map fun key => key.type.numBytes).sum ∧
      PlanOf functions agg compute (roundUp agg.keySize (describedSize last)) := by
  have hmem : ∀ g ∈ functions.flatMap AggFunction.granules,
      g.describe ∈ inOrder (granuleSet functions) := fun g hg => mem_inOrder.mpr ⟨g, hg, rfl⟩
  have hall : ∀ d ∈ inOrder (granuleSet functions),
      ∃ g ∈ functions.flatMap AggFunction.granules, g.describe = d := fun d hd => mem_inOrder.mp hd
  obtain ⟨granules, hfind, hdescribe, hgranules⟩ := exists_described hall
  have hfill := (foldl_fill (inOrder_nodup _) hmem hcoherent).trans hfind
  have hstart := skipKey_roundUp hpos
  have hle := le_roundUp hpos
  let keySize := (groupBy.map fun key => key.type.numBytes).sum
  let offset := roundUp keySize (describedSize last) - keySize
  let agg : Aggregation := {
    groupBy := groupBy
    granules := granules
    keySize := keySize
    payloadOffset := offset
    payloadSize := offset + ((inOrder (granuleSet functions)).map describedSize).sum
    requiresComplexHt := groupBy.map IU.type == [.string]
  }
  refine ⟨agg, functions.map (AggFunction.plan (inOrder (granuleSet functions)) offset), ?_,
    rfl, rfl, ?_, ?_, hdescribe, hgranules, rfl⟩
  · simp only [Aggregation.planFunctions, hfunctions, hlast, hstart, hfill, unwrapGranules_some,
      bind, Except.bind]
    rfl
  · show keySize + (roundUp keySize (describedSize last) - keySize) = _
    exact Nat.add_sub_of_le hle
  · show offset + _ = offset + _
    rw [← hdescribe, List.map_map]
    rfl

/-- A state of no bytes behind a key is never reached. -/
theorem planFunctions_diverges {last : GranuleDescription}
    (hfunctions : lookupFunctions floatAdd description = .ok functions)
    (hlast : (inOrder (granuleSet functions)).getLast? = some last)
    (hkey : 0 < (groupBy.map fun key => key.type.numBytes).sum) (hzero : describedSize last = 0) :
    Aggregation.planFunctions floatAdd groupBy description = .error .diverges := by
  have hstuck := skipKey_stuck hkey ((groupBy.map fun key => key.type.numBytes).sum + 1)
  simp only [Aggregation.planFunctions, hfunctions, hlast, hzero, hstuck, bind, Except.bind]

end Planned

section Ordered

variable {floatAdd : ℕ → ℕ → ℕ → ℕ} {groupBy : List IU} {description : List Description}
  {functions : List AggFunction}

theorem precedes_iff (g h : Granule) : g.precedes h = true ↔ h.describe < g.describe := by
  simp only [Granule.precedes, Granule.describe, Granule.stateSize, Prod.Lex.lt_iff,
    Bool.or_eq_true, Bool.and_eq_true, decide_eq_true_eq, beq_iff_eq, ofLex_toLex]

/-- Insertion keeps the descriptions in descending order. -/
theorem insert_describe (g : Granule) {granules : List Granule}
    (h : (granules.map Granule.describe).Pairwise (· > ·)) :
    ((g.insert granules).map Granule.describe).Pairwise (· > ·) ∧
      ∀ d, d ∈ (g.insert granules).map Granule.describe ↔
        d = g.describe ∨ d ∈ granules.map Granule.describe := by
  induction granules with
  | nil => simp [Granule.insert]
  | cons k granules ih =>
    rw [List.map_cons, List.pairwise_cons] at h
    unfold Granule.insert
    split
    · next hfst =>
      have hgt := (precedes_iff g k).mp hfst
      refine ⟨?_, fun d => by simp⟩
      rw [List.map_cons, List.map_cons, List.pairwise_cons, List.pairwise_cons]
      refine ⟨fun d hd => ?_, h⟩
      rcases List.mem_cons.mp hd with rfl | hd
      · exact hgt
      · exact (h.1 d hd).trans hgt
    · next hfst =>
      split
      · next hsnd =>
        have hgt := (precedes_iff k g).mp hsnd
        obtain ⟨hsorted, hmem⟩ := ih h.2
        refine ⟨?_, fun d => ?_⟩
        · rw [List.map_cons, List.pairwise_cons]
          refine ⟨fun d hd => ?_, hsorted⟩
          rcases (hmem d).mp hd with rfl | hd
          · exact hgt
          · exact h.1 d hd
        · rw [List.map_cons, List.mem_cons, hmem, List.map_cons, List.mem_cons, or_left_comm]
      · next hsnd =>
        have hsame : g.describe = k.describe := by
          rw [precedes_iff, not_lt] at hfst hsnd
          exact le_antisymm hfst hsnd
        rw [List.map_cons, hsame, List.pairwise_cons]
        exact ⟨h, fun d => by simp⟩

theorem foldl_insert_describe (gs : List Granule) :
    (gs.foldl (fun granules g => g.insert granules) []).map Granule.describe =
        inOrder (gs.map Granule.describe).toFinset ∧
      ∀ g ∈ gs.foldl (fun granules g => g.insert granules) [], g ∈ gs := by
  have hsorted : ((gs.foldl (fun granules g => g.insert granules) []).map
      Granule.describe).Pairwise (· > ·) ∧
      (∀ d, d ∈ (gs.foldl (fun granules g => g.insert granules) []).map Granule.describe ↔
        d ∈ gs.map Granule.describe) ∧
      ∀ g ∈ gs.foldl (fun granules g => g.insert granules) [], g ∈ gs := by
    induction gs using List.reverseRecOn with
    | nil => simp
    | append_singleton gs g ih =>
      obtain ⟨hpairwise, hmem, hsub⟩ := ih
      obtain ⟨hpairwise', hmem'⟩ := insert_describe g hpairwise
      rw [List.foldl_append]
      refine ⟨hpairwise', fun d => ?_, fun k hk => ?_⟩
      · show d ∈ (g.insert _).map _ ↔ _
        rw [hmem', hmem, List.map_append, List.mem_append, List.map_singleton,
          List.mem_singleton, or_comm]
      · rcases mem_insert hk with rfl | hk
        · simp
        · exact List.mem_append_left _ (hsub k hk)
  obtain ⟨hpairwise, hmem, hsub⟩ := hsorted
  refine ⟨?_, hsub⟩
  have hset : (gs.map Granule.describe).toFinset =
      ((gs.foldl (fun granules g => g.insert granules) []).map Granule.describe).toFinset := by
    ext d
    rw [List.mem_toFinset, List.mem_toFinset, hmem]
  rw [hset, inOrder]
  refine ((List.toFinset_sort _ (hpairwise.imp fun h => ne_of_gt h)).mpr ?_).symm
  exact hpairwise.imp fun h => le_of_lt h

theorem toCompute_eq (h : Resolved floatAdd description functions) :
    Aggregation.toCompute floatAdd description = .ok ((functions.flatMap
      AggFunction.granules).foldl (fun granules g => g.insert granules) []) := by
  unfold Aggregation.toCompute
  generalize ([] : List Granule) = start
  induction h generalizing start with
  | nil => rfl
  | @cons func f description functions hf _ ih =>
    have hstates : lookupSubops floatAdd func = .ok f.entry.granules := by
      rw [lookupSubops_eq, hf.2]
      rfl
    rw [List.foldlM_cons, hstates]
    refine (ih _).trans ?_
    rw [List.flatMap_cons, List.foldl_append, AggFunction.granules, List.foldl_map, hf.1]

theorem eq_of_map_describe {gs l l' : List Granule} (hcoherent : Coherent gs)
    (hl : ∀ g ∈ l, g ∈ gs) (hl' : ∀ g ∈ l', g ∈ gs)
    (h : l.map Granule.describe = l'.map Granule.describe) : l = l' := by
  induction l generalizing l' with
  | nil => exact (List.map_eq_nil_iff.mp h.symm).symm
  | cons g l ih =>
    obtain ⟨k, rest, rfl, hk, hrest⟩ := List.map_eq_cons_iff.mp h.symm
    rw [hcoherent g (hl g List.mem_cons_self) k (hl' k List.mem_cons_self) hk.symm,
      ih (fun g hg => hl g (List.mem_cons_of_mem _ hg))
        (fun g hg => hl' g (List.mem_cons_of_mem _ hg)) hrest.symm]

/-- The plan with the aggregate functions is the plan that the execution of rows starts from. -/
theorem planFunctions_plan
    (hsupported : ∀ func ∈ description, ∃ entry, lookupEntry floatAdd func = .ok entry)
    (haddress : DistinctAddresses description) :
    (Aggregation.planFunctions floatAdd groupBy description).map Prod.fst =
      Aggregation.plan floatAdd groupBy description := by
  obtain ⟨functions, hfunctions, hresolved⟩ := lookupFunctions_resolved hsupported
  have hcoherent := hresolved.coherent haddress
  have hmem : ∀ g ∈ functions.flatMap AggFunction.granules,
      g.describe ∈ inOrder (granuleSet functions) := fun g hg => mem_inOrder.mpr ⟨g, hg, rfl⟩
  have hall : ∀ d ∈ inOrder (granuleSet functions),
      ∃ g ∈ functions.flatMap AggFunction.granules, g.describe = d := fun d hd => mem_inOrder.mp hd
  obtain ⟨granules, hfind, hdescribe, hgranules⟩ := exists_described hall
  have hfill := (foldl_fill (inOrder_nodup _) hmem hcoherent).trans hfind
  obtain ⟨hdescribe', hgranules'⟩ := foldl_insert_describe (functions.flatMap AggFunction.granules)
  have hcompute := toCompute_eq hresolved
  rw [eq_of_map_describe hcoherent hgranules' hgranules (hdescribe'.trans hdescribe.symm)]
    at hcompute
  have hlast : (inOrder (granuleSet functions)).getLast? =
      granules.getLast?.map Granule.describe := by rw [← hdescribe, List.getLast?_map]
  have hsizes : (inOrder (granuleSet functions)).map describedSize =
      granules.map Granule.stateSize := by
    rw [← hdescribe, List.map_map]
    rfl
  simp only [Aggregation.planFunctions, Aggregation.plan, hfunctions, hcompute, hlast, bind,
    Except.bind, hfill, unwrapGranules_some, hsizes]
  cases granules.getLast? with
  | none => rfl
  | some last =>
    have hsize : describedSize last.describe = last.stateSize := rfl
    simp only [Option.map_some, hsize]
    cases Aggregation.skipKey (groupBy.map fun key => key.type.numBytes).sum last.stateSize
      ((groupBy.map fun key => key.type.numBytes).sum + 1) 0 <;> rfl

end Ordered

end InkFuse.Algebra
