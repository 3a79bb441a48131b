import InkFuse.Algebra.MergeExact
import InkFuse.Runtime.TableIterators

/-!
Aggregation with several threads, from the rows of every thread to the merged tables. The hash
of a group decides which merged table holds it, and its state is that of the rows of all threads.
-/

namespace InkFuse.Algebra

open Bytes Codegen Probing InkFuse.Runtime SharedHashTableState

namespace Aggregation

variable (agg : Aggregation)

/-- What tells the groups apart: the characters of a single string, or the bytes of the columns. -/
def rowIdent (text : UInt64 → Bytes) (row : Row) : Bytes :=
  if agg.requiresComplexHt then text (readPointer (keyBytes agg.groupBy row))
  else keyBytes agg.groupBy row

def slotIdent (text : UInt64 → Bytes) (slot : Bytes) : Bytes :=
  if agg.requiresComplexHt then text (slotPointer slot) else readAt slot 0 agg.keySize

/-- The payload of a group: zeros up to the first granule, and one state for each granule. -/
def groupPayload (rows : List Row) : Bytes :=
  packFields (List.replicate agg.payloadSize 0) agg.payloadOffset
    (granuleStates agg.granules rows)

/-- The tables of all threads, merged. There is more than one thread; a single one does not merge
its table. -/
def runThreads (hash : Bytes → UInt64) (text : UInt64 → Bytes) (floatAdd : ℕ → ℕ → ℕ → ℕ)
    (shares : List (List Row)) (order : List ℕ) : Except Fault (ℕ → SharedHashTableState) := do
  let preMerge ← shares.mapM (agg.run hash text)
  if agg.requiresComplexHt then
    runMerge (complexKey hash text) slotPointer floatAdd agg preMerge
      (buildComplexMergeTable agg.payloadSize preMerge shares.length) shares.length order
  else
    runMerge (simpleKey hash agg.keySize) (fun slot => readAt slot 0 agg.keySize) floatAdd agg
      preMerge (buildSimpleMergeTable agg.keySize preMerge shares.length) shares.length order

def groupCount (text : UInt64 → Bytes) (rows : List Row) : ℕ :=
  (rows.map (agg.rowIdent text)).toFinset.card

def mergeSlots (text : UInt64 → Bytes) (shares : List (List Row)) : ℕ :=
  if agg.keySize = 0 then 4
  else slotsPerMergeTable (shares.map (agg.groupCount text)).sum shares.length

def threadRows (hash : Bytes → UInt64) (text : UInt64 → Bytes) (totalThreads threadId : ℕ)
    (rows : List Row) : List Row :=
  rows.filter fun row => (hash (agg.rowIdent text row)).toNat % totalThreads = threadId

/-- A loop over the merged table of a thread finds every group of this thread once, with the state
of all its rows, and nothing else. -/
structure HoldsThreadGroups (hash : Bytes → UInt64) (text : UInt64 → Bytes) (totalThreads : ℕ)
    (rows : List Row) (threadId : ℕ) (table : SharedHashTableState) : Prop where
  once : ((visited table).map (agg.slotIdent text)).Nodup
  groups : ∀ q, q ∈ (visited table).map (agg.slotIdent text) ↔
    (∃ row ∈ rows, agg.rowIdent text row = q) ∧ (hash q).toNat % totalThreads = threadId
  state : ∀ slot ∈ visited table, readAt slot agg.keySize agg.payloadSize =
    agg.groupPayload (rows.filter fun row => agg.rowIdent text row = agg.slotIdent text slot)

end Aggregation

section Sizing

theorem le_roundDouble {n : ℕ} (h : 2 ^ 53 ≤ n) : 2 ^ 53 ≤ roundDouble n := by
  have hsize : 53 < n.size := Nat.lt_size.mpr h
  have hlow : 2 ^ (n.size - 1) ≤ n := Nat.lt_size.mp (by omega)
  have hsplit : 2 ^ (n.size - 1) = 2 ^ 52 * 2 ^ (n.size - 53) := by
    rw [← pow_add]
    congr 1
    omega
  have hq : 2 ^ 52 ≤ n / 2 ^ (n.size - 53) := by
    rw [Nat.le_div_iff_mul_le (Nat.two_pow_pos _), ← hsplit]
    exact hlow
  have hulp : 2 ≤ 2 ^ (n.size - 53) := by
    calc 2 = 2 ^ 1 := rfl
      _ ≤ 2 ^ (n.size - 53) := Nat.pow_le_pow_right (by omega) (by omega)
  have hprod : 2 ^ 53 ≤ n / 2 ^ (n.size - 53) * 2 ^ (n.size - 53) := by
    calc 2 ^ 53 = 2 ^ 52 * 2 := rfl
      _ ≤ n / 2 ^ (n.size - 53) * 2 ^ (n.size - 53) := Nat.mul_le_mul hq hulp
  unfold roundDouble
  rw [if_neg (by omega)]
  simp only
  split
  · apply hprod.trans
    apply Nat.mul_le_mul_right
    omega
  · exact hprod

theorem four_le_perThread (totalKeys threadCount : ℕ) : 4 ≤ perThread totalKeys threadCount := by
  have hmax : 8 ≤ max 8 (totalKeys / threadCount) := le_max_left _ _
  have hkeys : 8 ≤ roundDouble (max 8 (totalKeys / threadCount)) := by
    by_cases hsmall : max 8 (totalKeys / threadCount) < 2 ^ 53
    · unfold roundDouble
      rwa [if_pos hsmall]
    · have hlarge := le_roundDouble (Nat.le_of_not_lt hsmall)
      omega
  have hproduct : 2 ^ 53 ≤
      5404319552844595 * roundDouble (max 8 (totalKeys / threadCount)) := by omega
  have hround := le_roundDouble hproduct
  unfold perThread
  omega

/-- Merge tables have room for two keys at least. -/
theorem slotsPerMergeTable_spec (totalKeys threadCount : ℕ) :
    (slotsPerMergeTable totalKeys threadCount).isPowerOfTwo ∧
      4 ≤ slotsPerMergeTable totalKeys threadCount := by
  have hfour := four_le_perThread totalKeys threadCount
  refine ⟨⟨_, rfl⟩, ?_⟩
  have hsize : 1 < (perThread totalKeys threadCount - 1).size := by
    apply Nat.lt_size.mpr
    omega
  calc 4 = 2 ^ 2 := rfl
    _ ≤ 2 ^ (perThread totalKeys threadCount - 1).size :=
      Nat.pow_le_pow_right (by omega) hsize

end Sizing

section Mergeable

variable {floatAdd : ℕ → ℕ → ℕ → ℕ}

/-- The states of a plan that are merged exactly: sums of integers with a primitive of their own,
and counts over integers. A count over four-byte integers has to fit four bytes. -/
def ExactlyMergeable (agg : Aggregation) (count : ℕ) : Prop :=
  ∀ g ∈ agg.granules, (∀ size, g.aggIu.type ≠ .float size) ∧
    if g.aggState.id = "agg_state_count" then
      g.aggIu.type ∈ [IRType.signedInt 4, .unsignedInt 4] → count < 2 ^ 32
    else HasPrimitive g.aggIu.type

theorem mem_insert_granules {iu : IU} {states : List AggState} {granules : List Granule}
    {g : Granule}
    (hmem : g ∈ states.foldl (fun granules state => Granule.insert ⟨iu, state⟩ granules) granules) :
    (g.aggIu = iu ∧ g.aggState ∈ states) ∨ g ∈ granules := by
  induction states generalizing granules with
  | nil => exact Or.inr hmem
  | cons state states ih =>
    rcases ih hmem with hrest | hfst
    · exact Or.inl ⟨hrest.1, List.mem_cons_of_mem _ hrest.2⟩
    · rcases mem_insert hfst with rfl | hold
      · exact Or.inl ⟨rfl, List.mem_cons_self⟩
      · exact Or.inr hold

theorem toCompute_registered {description : List AggregateFunctions.Description}
    {granules : List Granule} (h : Aggregation.toCompute floatAdd description = .ok granules) :
    ∀ g ∈ granules, Registered floatAdd g := by
  induction description using List.reverseRecOn generalizing granules with
  | nil =>
    obtain rfl := Except.ok.inj h
    intro g hg
    cases hg
  | append_singleton description func ih =>
    unfold Aggregation.toCompute at h
    rw [List.foldlM_append] at h
    cases hbefores : Aggregation.toCompute floatAdd description with
    | error e =>
      unfold Aggregation.toCompute at hbefores
      rw [hbefores] at h
      cases h
    | ok before =>
      have hbefore := ih hbefores
      unfold Aggregation.toCompute at hbefores
      rw [hbefores] at h
      cases hstates : AggregateFunctions.lookupSubops floatAdd func with
      | error e =>
        simp only [bind, Except.bind, List.foldlM_cons, hstates] at h
        cases h
      | ok states =>
        simp only [bind, Except.bind, List.foldlM_cons, hstates, List.foldlM_nil, pure,
          Except.pure, Except.ok.injEq] at h
        intro g hg
        rw [← h] at hg
        rcases mem_insert_granules hg with hnew | hold
        · obtain ⟨iu, code, distinct⟩ := func
          cases distinct with
          | true => cases hstates
          | false => exact ⟨code, states, by rw [hnew.1]; exact hstates, hnew.2⟩
        · exact hbefore g hold

theorem registered_of_plan {groupBy : List IU}
    {description : List AggregateFunctions.Description} {agg : Aggregation}
    (hplan : Aggregation.plan floatAdd groupBy description = .ok agg) :
    ∀ g ∈ agg.granules, Registered floatAdd g := by
  unfold Aggregation.plan at hplan
  cases hgranules : Aggregation.toCompute floatAdd description with
  | error e =>
    rw [hgranules] at hplan
    cases hplan
  | ok granules =>
    simp only [hgranules, bind, Except.bind] at hplan
    split at hplan
    · cases hplan
    · split at hplan
      · cases hplan
      · obtain rfl := Except.ok.inj hplan
        exact toCompute_registered hgranules

theorem mergeable_of_plan {groupBy : List IU}
    {description : List AggregateFunctions.Description} {agg : Aggregation}
    (hplan : Aggregation.plan floatAdd groupBy description = .ok agg)
    (hplanned : Planned groupBy agg) {count : ℕ} (hexact : ExactlyMergeable agg count) :
    MergeableGranules floatAdd agg count := by
  have hmerges : ∀ g ∈ agg.granules, ∀ xs ys : List Bytes, xs.length + ys.length ≤ count →
      Merges floatAdd g xs ys := by
    intro g hg xs ys hcount
    obtain ⟨hinteger, hstate⟩ := hexact g hg
    apply (merges_iff_agrees floatAdd g xs ys (registered_of_plan hplan g hg) hinteger).mpr
    unfold Agrees
    split at hstate
    · next hid =>
      rw [if_pos hid]
      intro hfour
      have hsmall := hstate hfour
      omega
    · next hid => rwa [if_neg hid]
  refine ⟨hplanned.granules_ne, fun g hg => ?_, hmerges⟩
  obtain ⟨primitive, hprimitive, _⟩ := hmerges g hg [] [] (Nat.zero_le _)
  exact ⟨primitive, hprimitive⟩

end Mergeable

section Threads

variable {κ : Type} {A : KeyAccess κ} {L : KeyLayout A} {readKey slotKey : Bytes → κ}
  {agg : Aggregation} {scratchSize : ℕ} {key : Row → κ} {Typed : Row → Prop}
  {floatAdd : ℕ → ℕ → ℕ → ℕ}

structure ThreadTable (L : KeyLayout A) (slotKey : Bytes → κ) (agg : Aggregation)
    (key : Row → κ) (rows : List Row) (src : SharedHashTableState) : Prop
    extends SourceTable L slotKey agg key rows src where
  slotSize_eq : src.totalSlotSize = L.keySize + agg.payloadSize
  size_eq : src.size = (groupKeys L key rows).card

theorem threadTable_of_run (hreads : ReadsKeys L slotKey (L.keySize + agg.payloadSize))
    (hkeyed : KeyedBy L readKey agg scratchSize key Typed)
    (hsize : agg.payloadSize = agg.payloadOffset + granulesSize agg.granules)
    (hfit : agg.keySize + agg.payloadSize < 2 ^ 16)
    (hscratch : ∃ scratch, agg.scratchPad = .ok scratch ∧ scratch.length = scratchSize)
    {rows : List Row} (hrows : ∀ row ∈ rows, Typed row) :
    ∃ t, agg.runWith A readKey (create (agg.keySize + agg.payloadSize) 8) rows = .ok t ∧
      ThreadTable L slotKey agg key rows t := by
  obtain ⟨scratch, hpad, hlen⟩ := hscratch
  have hfit' : L.keySize + agg.payloadSize < 2 ^ 16 := hkeyed.keySize_eq ▸ hfit
  obtain ⟨t, ht, hrep⟩ := represents_create hfit' (show Nat.isPowerOfTwo 8 from ⟨3, rfl⟩)
    (by decide)
  rw [hkeyed.keySize_eq] at ht
  have hempty : HoldsGroups L agg key [] t :=
    ⟨_, hrep, fun q => by simp [PayloadMap.empty], fun q => rfl⟩
  obtain ⟨g, hg, _, hgroups⟩ := execRows_spec hkeyed hfit hsize
    (show (AggFrame.mk t scratch 0).scratch.length = scratchSize from hlen) hempty rows hrows
  have hrun : agg.runWith A readKey (create (agg.keySize + agg.payloadSize) 8) rows =
      .ok g.table := by
    unfold Aggregation.runWith
    rw [ht, hpad]
    simp only [bind, Except.bind, hg]
  refine ⟨g.table, hrun, sourceTable_of_groups hreads hgroups, ?_, ?_⟩
  · obtain ⟨m, hm, _⟩ := hgroups
    exact hm.slotSize_eq
  · obtain ⟨m, hm, hkeys, _⟩ := hgroups
    have hcard : m.keys = groupKeys L key rows :=
      Finset.ext fun q => (hkeys q).trans mem_groupKeys.symm
    rw [← hcard]
    exact hm.card_eq.symm

/-- The tables of all threads. -/
theorem exists_preMerge {run : List Row → Except Fault SharedHashTableState}
    {shares : List (List Row)} (hrun : ∀ rows ∈ shares, ∃ t, run rows = .ok t ∧
      ThreadTable L slotKey agg key rows t) :
    ∃ preMerge, shares.mapM run = .ok preMerge ∧
      List.Forall₂ (ThreadTable L slotKey agg key) shares preMerge := by
  induction shares with
  | nil => exact ⟨[], rfl, .nil⟩
  | cons rows shares ih =>
    obtain ⟨t, ht, htable⟩ := hrun rows List.mem_cons_self
    obtain ⟨preMerge, hrest, htables⟩ := ih fun r hr => hrun r (List.mem_cons_of_mem _ hr)
    refine ⟨t :: preMerge, ?_, .cons htable htables⟩
    rw [List.mapM_cons, ht]
    simp only [bind, Except.bind, hrest]
    rfl

theorem sum_sizes {shares : List (List Row)} {preMerge : List SharedHashTableState}
    (h : List.Forall₂ (ThreadTable L slotKey agg key) shares preMerge) :
    (preMerge.map SharedHashTableState.size).sum =
      (shares.map fun rows => (groupKeys L key rows).card).sum := by
  induction h with
  | nil => rfl
  | cons htable _ ih =>
    rw [List.map_cons, List.map_cons, List.sum_cons, List.sum_cons, ih, htable.size_eq]

/-- How a variant of the table sees the rows and the slots of a plan. -/
structure Identifies (L : KeyLayout A) (slotKey : Bytes → κ) (agg : Aggregation)
    (hash : Bytes → UInt64) (text : UInt64 → Bytes) (key : Row → κ) (rows : List Row) :
    Prop where
  keySize_eq : L.keySize = agg.keySize
  hash_eq : L.hashOf = hash
  slot_eq : L.slotIdent = agg.slotIdent text
  row_eq : ∀ row ∈ rows, L.ident (key row) = agg.rowIdent text row
  reads : ReadsKeys L slotKey (L.keySize + agg.payloadSize)

variable {hash : Bytes → UInt64} {text : UInt64 → Bytes} {totalThreads threadId : ℕ}
  {rows : List Row}

theorem Identifies.keyRows_eq (h : Identifies L slotKey agg hash text key rows) (q : Bytes) :
    keyRows L key rows q = rows.filter fun row => agg.rowIdent text row = q := by
  apply List.filter_congr
  intro row hrow
  rw [h.row_eq row hrow]

theorem Identifies.share_eq (h : Identifies L slotKey agg hash text key rows) :
    share L key totalThreads threadId rows =
      agg.threadRows hash text totalThreads threadId rows := by
  apply List.filter_congr
  intro row hrow
  rw [h.row_eq row hrow, h.hash_eq]

theorem Identifies.card_groupKeys (h : Identifies L slotKey agg hash text key rows)
    {part : List Row} (hpart : ∀ row ∈ part, row ∈ rows) :
    (groupKeys L key part).card = agg.groupCount text part := by
  unfold groupKeys Aggregation.groupCount
  rw [List.map_congr_left fun row hrow => h.row_eq row (hpart row hrow)]

/-- A merged table as a loop over it finds it. -/
theorem Merged.holdsThreadGroups (hident : Identifies L slotKey agg hash text key rows)
    (hsize : agg.payloadSize = agg.payloadOffset + granulesSize agg.granules)
    {start table : SharedHashTableState}
    (h : Merged L agg key totalThreads threadId rows start table) :
    agg.HoldsThreadGroups hash text totalThreads rows threadId table := by
  have hsource := sourceTable_of_groups hident.reads h.groups
  have hkeys : ∀ q, q ∈ (visited table).map L.slotIdent ↔
      q ∈ groupKeys L key rows ∧ (L.hashOf q).toNat % totalThreads = threadId := by
    intro q
    rw [hsource.keys, ← mem_groupKeys, mem_groupKeys_share]
  refine ⟨hident.slot_eq ▸ hsource.nodup, fun q => ?_, fun slot hslot => ?_⟩
  · rw [← hident.slot_eq, hkeys, hident.hash_eq, mem_groupKeys]
    refine and_congr_left fun _ => exists_congr fun row => and_congr_right fun hrow => ?_
    rw [hident.row_eq row hrow]
  · have hmem := (hkeys (L.slotIdent slot)).mp (List.mem_map_of_mem hslot)
    rw [← hident.keySize_eq, hsource.payload slot hslot, groupState_eq hsize,
      keyRows_share rows hmem.2, hident.keyRows_eq, hident.slot_eq]
    rfl

/-- The merge of one variant of the table. -/
theorem merge_variant {shares : List (List Row)}
    (hident : Identifies L slotKey agg hash text key shares.flatten)
    (hsize : agg.payloadSize = agg.payloadOffset + granulesSize agg.granules)
    (hmergeable : MergeableGranules floatAdd agg shares.flatten.length)
    {preMerge : List SharedHashTableState}
    (htables : List.Forall₂ (ThreadTable L slotKey agg key) shares preMerge)
    {start : SharedHashTableState}
    (hstart : Represents L agg.payloadSize start (PayloadMap.empty agg.payloadSize))
    {order : List ℕ} (horder : order.Perm (List.range totalThreads)) :
    (∃ merged, runMerge A slotKey floatAdd agg preMerge (.ok start) totalThreads order =
        .ok merged ∧ ∀ t < totalThreads,
          agg.HoldsThreadGroups hash text totalThreads shares.flatten t (merged t)) ∨
    runMerge A slotKey floatAdd agg preMerge (.ok start) totalThreads order =
        .error .useAfterFree ∧ ∃ t < totalThreads, start.capacity / 2 ≤
          agg.groupCount text (agg.threadRows hash text totalThreads t shares.flatten) := by
  have hmem : ∀ t, t ∈ order ↔ t < totalThreads := by
    intro t
    rw [horder.mem_iff, List.mem_range]
  rcases runMerge_spec hident.keySize_eq hsize hmergeable hstart
    (htables.imp fun _ _ h => h.toSourceTable) le_rfl
    (horder.nodup_iff.mpr List.nodup_range) with hok | herror
  · obtain ⟨merged, hmerged, hall⟩ := hok
    refine Or.inl ⟨merged, hmerged, fun t ht => ?_⟩
    exact (hall t ((hmem t).mpr ht)).holdsThreadGroups hident hsize
  · obtain ⟨herror, t, ht, hmany⟩ := herror
    refine Or.inr ⟨herror, t, (hmem t).mp ht, ?_⟩
    rw [← hstart.inv.maxFill_eq, ← hident.share_eq, ← hident.card_groupKeys]
    · exact hmany
    · exact fun row hrow => (List.mem_filter.mp hrow).1

end Threads

section NoKey

variable {agg : Aggregation} {hash : Bytes → UInt64} {rows : List Row}

/-- Updates of the granules in a slot, wherever the slot is. -/
theorem exec_aggregators_at {κ : Type} (A : KeyAccess κ) (readKey : Bytes → κ) (row : Row)
    (granules : List Granule) {off : ℕ} {f : AggFrame}
    (hfit : off + granulesSize granules ≤ (f.table.data f.pointer).length)
    (hsmall : (f.table.data f.pointer).length < 2 ^ 16) :
    execSubops A readKey (Aggregation.aggregators granules off) f row =
      .ok ⟨f.table.setData f.pointer (updatePayload row granules off (f.table.data f.pointer)),
        f.scratch, f.pointer⟩ := by
  induction granules generalizing off f with
  | nil =>
    have hsame : f.table.setData f.pointer (f.table.data f.pointer) = f.table := by
      unfold setData
      rw [Function.update_eq_self]
    rw [updatePayload, hsame]
    rfl
  | cons g rest ih =>
    rw [granulesSize_cons] at hfit
    have hoff : packingOffset off = off := Nat.mod_eq_of_lt (by omega)
    set bits := encode g.stateSize (g.aggState.updateState
      (decode (readAt (f.table.data f.pointer) off g.stateSize)) (decode (row g.aggIu))) with hbits
    have hlen : bits.length = g.stateSize := encode_length _ _
    have hcopy : f.table.copyTo f.pointer off bits =
        .ok (f.table.setData f.pointer (writeAt (f.table.data f.pointer) off bits)) := by
      rw [copyTo, if_pos (by omega)]
    have hexec : (AggSubop.aggregator g.aggState g.aggIu off).exec A readKey row f =
        .ok ⟨f.table.setData f.pointer (writeAt (f.table.data f.pointer) off bits), f.scratch,
          f.pointer⟩ := by
      simp only [AggSubop.exec, hoff]
      show (f.table.copyTo f.pointer off bits).bind _ = _
      rw [hcopy]
      rfl
    have hwidth : (writeAt (f.table.data f.pointer) off bits).length =
        (f.table.data f.pointer).length := writeAt_length (by omega)
    rw [Aggregation.aggregators, execSubops_cons, hexec]
    show execSubops A readKey (Aggregation.aggregators rest (off + g.stateSize)) _ row = _
    rw [ih]
    · simp only [setData, Function.update_self, Function.update_idem, updatePayload]
      rfl
    · simp only [setData, Function.update_self]
      omega
    · simp only [setData, Function.update_self]
      omega

/-- The table of an aggregation without keys: the first slot holds the only group. -/
structure SingleGroup (agg : Aggregation) (rows : List Row) (t : SharedHashTableState) :
    Prop where
  mask : t.modMask = 3
  slotSize_eq : t.totalSlotSize = agg.payloadSize
  others : ∀ i, i ≠ 0 → t.tags i = 0
  first : t.tags 0 = if rows = [] then 0 else tagFillMask
  inserted : t.inserted = if rows = [] then 0 else 1
  state : t.data 0 = rows.foldl
    (fun payload row => updatePayload row agg.granules agg.payloadOffset payload)
    (List.replicate agg.payloadSize 0)

/-- The only group, whatever the hash. -/
theorem SingleGroup.groupState_eq {t : SharedHashTableState} (h : SingleGroup agg rows t)
    (hash : Bytes → UInt64) :
    groupState (simpleLayout hash 0) agg (keyBytes []) [] rows = t.data 0 := by
  have hall : rows.filter (fun row =>
      (simpleLayout hash 0).ident (keyBytes [] row) = []) = rows := by
    apply List.filter_eq_self.mpr
    intro row _
    rfl
  rw [h.state, groupState, hall]

theorem SingleGroup.length_state {t : SharedHashTableState} (h : SingleGroup agg rows t)
    (hsize : agg.payloadSize = agg.payloadOffset + granulesSize agg.granules) :
    (t.data 0).length = agg.payloadSize := by
  rw [← h.groupState_eq fun _ => 0, length_groupState hsize]

theorem SingleGroup.step (hash : Bytes → UInt64) (hgroupBy : agg.groupBy = [])
    (hkeySize : agg.keySize = 0)
    (hsize : agg.payloadSize = agg.payloadOffset + granulesSize agg.granules)
    (hfit : agg.payloadSize < 2 ^ 16) {f : AggFrame} (h : SingleGroup agg rows f.table)
    (row : Row) :
    ∃ g, execSubops (simpleKey hash agg.keySize) id agg.subops f row = .ok g ∧
      SingleGroup agg (rows ++ [row]) g.table := by
  have hlen := h.length_state hsize
  have hsubops : agg.subops = .htNoKeyLookup :: Aggregation.aggregators agg.granules
      agg.payloadOffset := by
    unfold Aggregation.subops Aggregation.packKey Aggregation.lookupKey
    rw [hgroupBy, if_pos hkeySize, Aggregation.updateGranules, hkeySize, Nat.zero_add]
    rfl
  obtain ⟨u, hu, hdata, htag, hins, hothers, hmask, hslot⟩ :
      ∃ u, f.table.lookupOrInsertSingleKey = (u, 0) ∧ u.data = f.table.data ∧
        u.tags 0 = tagFillMask ∧ u.inserted = 1 ∧ (∀ i, i ≠ 0 → u.tags i = 0) ∧
        u.modMask = 3 ∧ u.totalSlotSize = agg.payloadSize := by
    unfold lookupOrInsertSingleKey
    by_cases hrows : rows = []
    · have hfst := h.first
      have hinserted := h.inserted
      rw [if_pos hrows] at hfst hinserted
      rw [if_pos hfst]
      refine ⟨_, rfl, rfl, ?_, ?_, fun i hi => ?_, h.mask, h.slotSize_eq⟩
      · show Function.update f.table.tags 0 tagFillMask 0 = _
        rw [Function.update_self]
      · show f.table.inserted + 1 = 1
        rw [hinserted]
      · show Function.update f.table.tags 0 tagFillMask i = 0
        rw [Function.update_of_ne hi]
        exact h.others i hi
    · have hfst := h.first
      have hinserted := h.inserted
      rw [if_neg hrows] at hfst hinserted
      have hne : f.table.tags 0 ≠ 0 := by
        rw [hfst]
        decide
      rw [if_neg hne]
      exact ⟨_, rfl, rfl, hfst, hinserted, h.others, h.mask, h.slotSize_eq⟩
  have hroom : agg.payloadOffset + granulesSize agg.granules ≤ (u.data 0).length := by
    rw [hdata]
    omega
  have hsmall : (u.data 0).length < 2 ^ 16 := by
    rw [hdata]
    omega
  have hexec : execSubops (simpleKey hash agg.keySize) id
      (Aggregation.aggregators agg.granules agg.payloadOffset) ⟨u, f.scratch, 0⟩ row =
        .ok ⟨u.setData 0 (updatePayload row agg.granules agg.payloadOffset (u.data 0)),
          f.scratch, 0⟩ :=
    exec_aggregators_at (simpleKey hash agg.keySize) id row agg.granules hroom hsmall
  refine ⟨⟨u.setData 0 (updatePayload row agg.granules agg.payloadOffset (u.data 0)), f.scratch,
    0⟩, ?_, hmask, hslot, hothers, ?_, ?_, ?_⟩
  · rw [hsubops, execSubops_cons]
    simp only [AggSubop.exec, hu]
    exact hexec
  · rw [if_neg (by simp)]
    exact htag
  · rw [if_neg (by simp)]
    exact hins
  · show Function.update u.data 0 _ 0 = _
    rw [Function.update_self, hdata, h.state, List.foldl_append]
    rfl

/-- A run without group-by columns. -/
theorem run_noKey (hash : Bytes → UInt64) (text : UInt64 → Bytes) (hplanned : Planned [] agg)
    (hfit : agg.payloadSize < 2 ^ 16) (rows : List Row) :
    ∃ t, agg.run hash text rows = .ok t ∧ SingleGroup agg rows t := by
  have hkeySize : agg.keySize = 0 := hplanned.keySize_eq
  have hsimple : agg.requiresComplexHt = false := simple_of_many hplanned (by simp)
  have hpad : agg.scratchPad = .ok [] := by
    unfold Aggregation.scratchPad
    rw [hplanned.groupBy_eq, hkeySize]
    rfl
  obtain ⟨start, hstart⟩ : ∃ start, create agg.payloadSize 4 = .ok start := ⟨_, rfl⟩
  have hsingle : SingleGroup agg [] start := by
    obtain rfl := Except.ok.inj hstart
    refine ⟨rfl, Nat.mod_eq_of_lt hfit, fun _ _ => rfl, rfl, rfl, ?_⟩
    show List.replicate (agg.payloadSize % 2 ^ 16) 0 = _
    rw [Nat.mod_eq_of_lt hfit]
    rfl
  have hcreate : HashTableSimpleKey.create agg.keySize agg.payloadSize 8 = .ok start := by
    rw [← hstart, hkeySize]
    unfold HashTableSimpleKey.create
    rw [Nat.zero_add]
    rfl
  have hfold : ∃ g, rows.foldlM (execSubops (simpleKey hash agg.keySize) id agg.subops)
      ⟨start, [], 0⟩ = .ok g ∧ SingleGroup agg rows g.table := by
    induction rows using List.reverseRecOn with
    | nil => exact ⟨_, rfl, hsingle⟩
    | append_singleton rows row ih =>
      obtain ⟨g, hg, hgroup⟩ := ih
      obtain ⟨g', hg', hgroup'⟩ := hgroup.step hash hplanned.groupBy_eq hkeySize
        hplanned.payloadSize_eq hfit row
      refine ⟨g', ?_, hgroup'⟩
      rw [List.foldlM_append, hg]
      simp only [bind, Except.bind, List.foldlM_cons, List.foldlM_nil, hg']
      rfl
  obtain ⟨g, hg, hgroup⟩ := hfold
  refine ⟨g.table, ?_, hgroup⟩
  unfold Aggregation.run Aggregation.runWith
  rw [hsimple, if_neg Bool.false_ne_true, hcreate, hpad]
  simp only [bind, Except.bind, hg]

theorem SingleGroup.visited_eq {t : SharedHashTableState} (h : SingleGroup agg rows t) :
    visited t = if rows = [] then [] else [t.data 0] := by
  have hothers : ∀ i, i ≠ 0 → t.filled i = false := by
    intro i hi
    rw [filled_eq_false, h.others i hi]
    rfl
  have hrange : List.range (t.modMask + 1) = [0, 1, 2, 3] := by
    rw [h.mask]
    rfl
  rw [InkFuse.Algebra.visited_eq, hrange]
  have hfst := h.first
  simp only [List.filter_cons, hothers 1 (by omega), hothers 2 (by omega), hothers 3 (by omega),
    List.filter_nil]
  by_cases hrows : rows = []
  · rw [if_pos hrows] at hfst ⊢
    have hzero : t.filled 0 = false := by
      rw [filled_eq_false, hfst]
      rfl
    rw [hzero]
    rfl
  · rw [if_neg hrows] at hfst ⊢
    have hone : t.filled 0 = true := by
      unfold filled
      rw [hfst]
      decide
    rw [hone]
    rfl

theorem SingleGroup.threadTable {t : SharedHashTableState} (h : SingleGroup agg rows t)
    (hsize : agg.payloadSize = agg.payloadOffset + granulesSize agg.granules)
    (hash : Bytes → UInt64) : ThreadTable (simpleLayout hash 0) (fun slot => readAt slot 0 0) agg
      (keyBytes []) rows t := by
  have hvisited := h.visited_eq
  have hmem : ∀ d ∈ visited t, d = t.data 0 := by
    intro d hd
    rw [hvisited] at hd
    split at hd
    · cases hd
    · exact List.mem_singleton.mp hd
  have hkeys : ∀ q, q ∈ groupKeys (simpleLayout hash 0) (keyBytes []) rows ↔
      rows ≠ [] ∧ q = [] := by
    intro q
    rw [mem_groupKeys]
    constructor
    · intro hq
      obtain ⟨row, hrow, rfl⟩ := hq
      exact ⟨List.ne_nil_of_mem hrow, rfl⟩
    · intro hq
      obtain ⟨row, hrow⟩ := List.exists_mem_of_ne_nil rows hq.1
      exact ⟨row, hrow, hq.2.symm⟩
  refine ⟨⟨?_, fun q => ?_, fun d _ => rfl, fun d _ => rfl, fun d hd => ?_, fun d hd => ?_⟩, ?_, ?_⟩
  · rw [hvisited]
    split
    · exact List.nodup_nil
    · exact List.nodup_singleton _
  · rw [← mem_groupKeys, hkeys, hvisited]
    by_cases hrows : rows = []
    · rw [if_pos hrows]
      simp [hrows]
    · rw [if_neg hrows, List.map_singleton, List.mem_singleton]
      exact ⟨fun hq => ⟨hrows, hq⟩, fun hq => hq.2⟩
  · rw [hmem d hd, h.length_state hsize]
    exact (Nat.zero_add _).symm
  · rw [hmem d hd]
    show readAt (t.data 0) 0 agg.payloadSize = groupState _ agg _ [] rows
    rw [h.groupState_eq hash, ← h.length_state hsize, readAt_all]
  · exact h.slotSize_eq.trans (Nat.zero_add _).symm
  · show t.inserted = _
    rw [h.inserted]
    by_cases hrows : rows = []
    · rw [if_pos hrows, hrows]
      rfl
    · have hone : groupKeys (simpleLayout hash 0) (keyBytes []) rows = {[]} := by
        apply Finset.ext
        intro q
        rw [hkeys, Finset.mem_singleton]
        exact ⟨fun hq => hq.2, fun hq => ⟨hrows, hq⟩⟩
      rw [if_neg hrows, hone, Finset.card_singleton]

end NoKey

section Main

variable {κ : Type} {A : KeyAccess κ} {L : KeyLayout A} {slotKey : Bytes → κ} {key : Row → κ}
  {floatAdd : ℕ → ℕ → ℕ → ℕ} {groupBy : List IU} {agg : Aggregation} {hash : Bytes → UInt64}
  {text : UInt64 → Bytes} {shares : List (List Row)} {preMerge : List SharedHashTableState}

theorem create_capacity {slotSize startSlots : ℕ} {t : SharedHashTableState}
    (h : create slotSize startSlots = .ok t) : t.capacity = startSlots := by
  unfold create at h
  split at h
  · cases h
  · next hcheck =>
    obtain rfl := Except.ok.inj h
    show startSlots - 1 + 1 = startSlots
    omega

/-- The new merge table, whatever its number of slots. -/
theorem exists_mergeTable (hfit : L.keySize + agg.payloadSize < 2 ^ 16) {slots : ℕ}
    (hslots : slots.isPowerOfTwo ∧ 4 ≤ slots) :
    ∃ start, create (L.keySize + agg.payloadSize) slots = .ok start ∧ start.capacity = slots ∧
      Represents L agg.payloadSize start (PayloadMap.empty agg.payloadSize) := by
  obtain ⟨start, hcreate, hrep⟩ := represents_create hfit hslots.1 (by omega)
  exact ⟨start, hcreate, create_capacity hcreate, hrep⟩

theorem sum_groupCounts (hident : Identifies L slotKey agg hash text key shares.flatten)
    (htables : List.Forall₂ (ThreadTable L slotKey agg key) shares preMerge) :
    (preMerge.map SharedHashTableState.size).sum = (shares.map (agg.groupCount text)).sum := by
  rw [sum_sizes htables]
  congr 1
  apply List.map_congr_left
  intro rows hrows
  exact hident.card_groupKeys fun row hrow => List.mem_flatten_of_mem hrows hrow

theorem buildSimple_eq (hident : Identifies L slotKey agg hash text key shares.flatten)
    (htables : List.Forall₂ (ThreadTable L slotKey agg key) shares preMerge)
    (hne : shares ≠ []) (threadCount : ℕ) :
    buildSimpleMergeTable agg.keySize preMerge threadCount =
      HashTableSimpleKey.create agg.keySize agg.payloadSize
        (slotsPerMergeTable (shares.map (agg.groupCount text)).sum threadCount) := by
  have hsum := sum_groupCounts hident htables
  cases htables with
  | nil => exact absurd rfl hne
  | @cons rows original shares preMerge htable _ =>
    have hpayload : original.totalSlotSize - agg.keySize = agg.payloadSize := by
      rw [htable.slotSize_eq, hident.keySize_eq]
      omega
    rw [← hsum, ← hpayload]
    rfl

theorem buildComplex_eq (hident : Identifies L slotKey agg hash text key shares.flatten)
    (htables : List.Forall₂ (ThreadTable L slotKey agg key) shares preMerge)
    (hne : shares ≠ []) (threadCount : ℕ) :
    buildComplexMergeTable agg.payloadSize preMerge threadCount =
      create (8 + agg.payloadSize)
        (slotsPerMergeTable (shares.map (agg.groupCount text)).sum threadCount) := by
  have hsum := sum_groupCounts hident htables
  cases htables with
  | nil => exact absurd rfl hne
  | cons _ _ =>
    rw [← hsum, ← HashTableComplexKey.create_string]
    rfl

theorem mapM_bind {run : List Row → Except Fault SharedHashTableState}
    (hpre : shares.mapM run = .ok preMerge)
    {f : List SharedHashTableState → Except Fault (ℕ → SharedHashTableState)} :
    (shares.mapM run >>= f) = f preMerge := by
  rw [hpre]
  rfl

def AggregatesInThreads (agg : Aggregation) (hash : Bytes → UInt64) (text : UInt64 → Bytes)
    (shares : List (List Row)) (slots : ℕ)
    (result : Except Fault (ℕ → SharedHashTableState)) : Prop :=
  (∃ merged, result = .ok merged ∧ ∀ t < shares.length,
    agg.HoldsThreadGroups hash text shares.length shares.flatten t (merged t)) ∨
  result = .error .useAfterFree ∧ ∃ t < shares.length, slots / 2 ≤
    agg.groupCount text (agg.threadRows hash text shares.length t shares.flatten)

theorem identifies_bytes (hplanned : Planned groupBy agg)
    (hsimple : agg.requiresComplexHt = false) {rows : List Row}
    (hrows : ∀ row ∈ rows, RowTyped groupBy row) (hash : Bytes → UInt64) (text : UInt64 → Bytes) :
    Identifies (simpleLayout hash agg.keySize) (fun slot => readAt slot 0 agg.keySize) agg hash
      text (keyBytes groupBy) rows where
  keySize_eq := rfl
  hash_eq := rfl
  slot_eq := by
    funext slot
    unfold Aggregation.slotIdent
    rw [hsimple, if_neg Bool.false_ne_true]
    rfl
  row_eq := fun row hrow => by
    unfold Aggregation.rowIdent
    rw [hsimple, if_neg Bool.false_ne_true, hplanned.groupBy_eq]
    show readAt (keyBytes groupBy row) 0 agg.keySize = _
    rw [hplanned.keySize_eq, ← keyBytes_length (hrows row hrow), readAt_all]
  reads := fun d hlen _ => by
    have hread : (readAt d 0 agg.keySize).length = agg.keySize := by
      apply readAt_length
      have hkey : (simpleLayout hash agg.keySize).keySize = agg.keySize := rfl
      omega
    refine ⟨hread, ?_⟩
    show readAt (readAt d 0 agg.keySize) 0 agg.keySize = readAt d 0 agg.keySize
    rw [readAt_readAt d (by omega)]

theorem identifies_text {iu : IU} (hplanned : Planned [iu] agg) (htype : iu.type = .string)
    (rows : List Row) (hash : Bytes → UInt64) (text : UInt64 → Bytes) :
    Identifies (complexLayout hash text) slotPointer agg hash text
      (fun row => Aggregation.readPointer (keyBytes [iu] row)) rows where
  keySize_eq := by
    rw [hplanned.keySize_eq]
    simp [htype, complexLayout, IRType.numBytes]
  hash_eq := rfl
  slot_eq := by
    funext slot
    unfold Aggregation.slotIdent
    rw [if_pos (hplanned.complex_iff.mpr (by simp [htype]))]
    rfl
  row_eq := fun row _ => by
    unfold Aggregation.rowIdent
    rw [if_pos (hplanned.complex_iff.mpr (by simp [htype])), hplanned.groupBy_eq]
    rfl
  reads := fun _ _ hvalid => ⟨hvalid, rfl⟩

/-- The table of byte keys, with the tables that the threads have filled. -/
theorem runThreads_bytes (hplanned : Planned groupBy agg)
    (hsimple : agg.requiresComplexHt = false)
    (hident : Identifies (simpleLayout hash agg.keySize) (fun slot => readAt slot 0 agg.keySize)
      agg hash text (keyBytes groupBy) shares.flatten)
    (hmergeable : MergeableGranules floatAdd agg shares.flatten.length)
    (hfit : agg.keySize + agg.payloadSize < 2 ^ 16) (hne : shares ≠ [])
    (htables : ∀ rows ∈ shares, ∃ t, agg.run hash text rows = .ok t ∧
      ThreadTable (simpleLayout hash agg.keySize) (fun slot => readAt slot 0 agg.keySize) agg
        (keyBytes groupBy) rows t)
    {order : List ℕ} (horder : order.Perm (List.range shares.length)) :
    AggregatesInThreads agg hash text shares (agg.mergeSlots text shares)
      (agg.runThreads hash text floatAdd shares order) := by
  obtain ⟨preMerge, hpre, htables⟩ := exists_preMerge htables
  have hslots := slotsPerMergeTable_spec (shares.map (agg.groupCount text)).sum shares.length
  have hcreate : ∃ slots, slots.isPowerOfTwo ∧ 4 ≤ slots ∧ agg.mergeSlots text shares = slots ∧
      HashTableSimpleKey.create agg.keySize agg.payloadSize
          (slotsPerMergeTable (shares.map (agg.groupCount text)).sum shares.length) =
        create (agg.keySize + agg.payloadSize) slots := by
    unfold Aggregation.mergeSlots
    by_cases hzero : agg.keySize = 0
    · refine ⟨4, ⟨2, rfl⟩, le_rfl, if_pos hzero, ?_⟩
      obtain ⟨start, hstart, _⟩ :=
        exists_mergeTable (L := simpleLayout hash agg.keySize) hfit hslots
      have hstart' : create (agg.keySize + agg.payloadSize) (slotsPerMergeTable
          (shares.map (agg.groupCount text)).sum shares.length) = .ok start := hstart
      unfold HashTableSimpleKey.create
      rw [hstart']
      simp only [bind, Except.bind, if_pos hzero]
    · refine ⟨_, hslots.1, hslots.2, if_neg hzero, ?_⟩
      exact HashTableSimpleKey.create_of_pos (Nat.pos_of_ne_zero hzero) _ _
  obtain ⟨slots, hpow, hfour, hmerge, hcreate⟩ := hcreate
  obtain ⟨start, hstart, hcapacity, hrep⟩ :=
    exists_mergeTable (L := simpleLayout hash agg.keySize) hfit ⟨hpow, hfour⟩
  have hresult : agg.runThreads hash text floatAdd shares order =
      runMerge (simpleKey hash agg.keySize) (fun slot => readAt slot 0 agg.keySize) floatAdd agg
        preMerge (.ok start) shares.length order := by
    unfold Aggregation.runThreads
    rw [mapM_bind hpre, hsimple, if_neg Bool.false_ne_true, buildSimple_eq hident htables hne,
      hcreate]
    exact congrArg (fun created => runMerge _ _ floatAdd agg preMerge created _ order) hstart
  rw [hresult, hmerge, ← hcapacity]
  exact merge_variant hident hplanned.payloadSize_eq hmergeable htables hrep horder

theorem runThreads_text {iu : IU} (hplanned : Planned [iu] agg) (htype : iu.type = .string)
    (hmergeable : MergeableGranules floatAdd agg shares.flatten.length)
    (hfit : agg.keySize + agg.payloadSize < 2 ^ 16) (hne : shares ≠ [])
    (hrows : ∀ rows ∈ shares, ∀ row ∈ rows, RowTyped [iu] row) {order : List ℕ}
    (horder : order.Perm (List.range shares.length)) :
    AggregatesInThreads agg hash text shares (agg.mergeSlots text shares)
      (agg.runThreads hash text floatAdd shares order) := by
  have hident := identifies_text hplanned htype shares.flatten hash text
  have hcomplex : agg.requiresComplexHt = true := hplanned.complex_iff.mpr (by simp [htype])
  have hkeySize : agg.keySize = 8 := hident.keySize_eq.symm
  have hfit' : 8 + agg.payloadSize < 2 ^ 16 := hkeySize ▸ hfit
  obtain ⟨preMerge, hpre, htables⟩ : ∃ preMerge, shares.mapM (agg.run hash text) = .ok preMerge ∧
      List.Forall₂ (ThreadTable (complexLayout hash text) slotPointer agg
        fun row => Aggregation.readPointer (keyBytes [iu] row)) shares preMerge := by
    apply exists_preMerge
    intro rows hmem
    have hrun : agg.run hash text rows = agg.runWith (complexKey hash text)
        Aggregation.readPointer (create (agg.keySize + agg.payloadSize) 8) rows := by
      unfold Aggregation.run
      rw [if_pos hcomplex, HashTableComplexKey.create_string, hkeySize]
    rw [hrun]
    exact threadTable_of_run hident.reads (keyedBy_string hash text hplanned htype)
      hplanned.payloadSize_eq hfit (exists_scratch_single hplanned) (hrows rows hmem)
  have hslots := slotsPerMergeTable_spec (shares.map (agg.groupCount text)).sum shares.length
  obtain ⟨start, hstart, hcapacity, hrep⟩ :=
    exists_mergeTable (L := complexLayout hash text) hfit' hslots
  have hmerge : agg.mergeSlots text shares =
      slotsPerMergeTable (shares.map (agg.groupCount text)).sum shares.length := by
    unfold Aggregation.mergeSlots
    rw [if_neg (by omega)]
  have hresult : agg.runThreads hash text floatAdd shares order =
      runMerge (complexKey hash text) slotPointer floatAdd agg preMerge (.ok start)
        shares.length order := by
    unfold Aggregation.runThreads
    rw [mapM_bind hpre, if_pos hcomplex, buildComplex_eq hident htables hne]
    exact congrArg (fun created => runMerge _ _ floatAdd agg preMerge created _ order) hstart
  rw [hresult, hmerge, ← hcapacity]
  exact merge_variant hident hplanned.payloadSize_eq hmergeable htables hrep horder

theorem run_bytes (hsimple : agg.requiresComplexHt = false)
    (hpos : 0 < agg.keySize) (hash : Bytes → UInt64) (text : UInt64 → Bytes) (rows : List Row) :
    agg.run hash text rows = agg.runWith (simpleKey hash agg.keySize) id
      (create (agg.keySize + agg.payloadSize) 8) rows := by
  unfold Aggregation.run
  rw [hsimple, if_neg Bool.false_ne_true, HashTableSimpleKey.create_of_pos hpos]

/-- The tables of the threads, if the keys are bytes. -/
theorem threadTables_bytes (hplanned : Planned groupBy agg)
    (hsimple : agg.requiresComplexHt = false) (hkeys : ∀ iu ∈ groupBy, groupType iu.type)
    (hfit : agg.keySize + agg.payloadSize < 2 ^ 16)
    (hpad : groupBy.length = 1 ∨ agg.keySize < memoryRegionSize) {rows : List Row}
    (hrows : ∀ row ∈ rows, RowTyped groupBy row)
    (hident : Identifies (simpleLayout hash agg.keySize) (fun slot => readAt slot 0 agg.keySize)
      agg hash text (keyBytes groupBy) rows) :
    ∃ t, agg.run hash text rows = .ok t ∧ ThreadTable (simpleLayout hash agg.keySize)
      (fun slot => readAt slot 0 agg.keySize) agg (keyBytes groupBy) rows t := by
  match groupBy, hplanned, hkeys, hpad, hrows, hident with
  | [], hplanned, _, _, _, _ =>
    have hkeySize : agg.keySize = 0 := hplanned.keySize_eq
    obtain ⟨t, ht, hsingle⟩ := run_noKey hash text hplanned (by omega) rows
    refine ⟨t, ht, ?_⟩
    rw [hkeySize]
    exact hsingle.threadTable hplanned.payloadSize_eq hash
  | [iu], hplanned, hkeys, _, hrows, hident =>
    have hpos := keySize_pos hplanned (List.cons_ne_nil _ _) hkeys
    rw [run_bytes hsimple hpos]
    exact threadTable_of_run hident.reads (keyedBy_single hash hplanned hpos)
      hplanned.payloadSize_eq hfit (exists_scratch_single hplanned) hrows
  | iu :: iu' :: rest, hplanned, hkeys, hpad, hrows, hident =>
    have hpos := keySize_pos hplanned (List.cons_ne_nil _ _) hkeys
    have hmany : (iu :: iu' :: rest).length ≠ 1 := by simp
    have hsmall : agg.keySize < memoryRegionSize := hpad.resolve_left hmany
    have hscratch : ∃ scratch, agg.scratchPad = .ok scratch ∧ scratch.length = agg.keySize := by
      have hpad' := scratchPad_of_many (hplanned.groupBy_eq ▸ hmany : agg.groupBy.length ≠ 1)
      rw [if_pos hsmall] at hpad'
      exact ⟨_, hpad', List.length_replicate⟩
    rw [run_bytes hsimple hpos]
    exact threadTable_of_run hident.reads (keyedBy_packed hash hplanned hpos hmany (by omega))
      hplanned.payloadSize_eq hfit hscratch hrows

/-- An aggregation with several threads is exact, for any distribution of the rows, any hash
function and any order of the merge tasks, unless it uses freed storage. This takes a thread which
has to merge at least half as many groups as its table has slots. -/
theorem aggregates_in_threads {description : List AggregateFunctions.Description}
    (hash : Bytes → UInt64) (text : UInt64 → Bytes)
    (hplan : Aggregation.plan floatAdd groupBy description = .ok agg)
    (hkeys : ∀ iu ∈ groupBy, groupType iu.type)
    (haggs : ∀ func ∈ description, scalarType func.aggIu.type)
    (hrows : ∀ rows ∈ shares, ∀ row ∈ rows, RowTyped groupBy row) (hthreads : 2 ≤ shares.length)
    (hfit : agg.keySize + agg.payloadSize < 2 ^ 16)
    (hpad : groupBy.length = 1 ∨ agg.keySize < memoryRegionSize)
    (hexact : ExactlyMergeable agg shares.flatten.length) {order : List ℕ}
    (horder : order.Perm (List.range shares.length)) :
    AggregatesInThreads agg hash text shares (agg.mergeSlots text shares)
      (agg.runThreads hash text floatAdd shares order) := by
  have hplanned := planned_of_plan hplan haggs
  have hmergeable := mergeable_of_plan hplan hplanned hexact
  have hne : shares ≠ [] := by
    rintro rfl
    simp at hthreads
  by_cases hstring : groupBy.map IU.type = [.string]
  · obtain ⟨iu, rfl, htype⟩ := List.map_eq_singleton_iff.mp hstring
    exact runThreads_text hplanned htype hmergeable hfit hne hrows horder
  · have hsimple : agg.requiresComplexHt = false := by
      rw [← Bool.not_eq_true, hplanned.complex_iff]
      exact hstring
    have hall : ∀ row ∈ shares.flatten, RowTyped groupBy row := by
      intro row hrow
      obtain ⟨rows, hmem, hrow⟩ := List.mem_flatten.mp hrow
      exact hrows rows hmem row hrow
    apply runThreads_bytes hplanned hsimple (identifies_bytes hplanned hsimple hall hash text)
      hmergeable hfit hne _ horder
    intro rows hmem
    exact threadTables_bytes hplanned hsimple hkeys hfit hpad (hrows rows hmem)
      (identifies_bytes hplanned hsimple (hrows rows hmem) hash text)

/-- Two threads with one group. -/
theorem flags_in_threads :
    ∃ agg, Aggregation.plan (fun _ _ _ => 0) [flagColumn] [⟨flagColumn, .count, false⟩] =
        .ok agg ∧
      ∃ merged, agg.runThreads (fun _ => 0) (fun _ => []) (fun _ _ _ => 0)
          [[nameRow 16], [nameRow 32]] [1, 0] = .ok merged ∧
        ∀ t < 2, agg.HoldsThreadGroups (fun _ => 0) (fun _ => []) 2 [nameRow 16, nameRow 32] t
          (merged t) := by
  have hplan : Aggregation.plan (fun _ _ _ => 0) [flagColumn] [⟨flagColumn, .count, false⟩] =
      .ok ⟨[flagColumn], [⟨flagColumn, AggStateCount⟩], 1, 7, 15, false⟩ := rfl
  refine ⟨_, hplan, ?_⟩
  have hrows : ∀ rows ∈ [[nameRow 16], [nameRow 32]], ∀ row ∈ rows, RowTyped [flagColumn] row := by
    intro rows hrows row hrow
    have hpointer : row = nameRow 16 ∨ row = nameRow 32 := by
      have hmem : row ∈ [[nameRow 16], [nameRow 32]].flatten :=
        List.mem_flatten_of_mem hrows hrow
      simpa using hmem
    rcases hpointer with rfl | rfl
    · exact nameRow_typed (by simp) (by decide) (by decide)
    · exact nameRow_typed (by simp) (by decide) (by decide)
  have hexact :
      ExactlyMergeable ⟨[flagColumn], [⟨flagColumn, AggStateCount⟩], 1, 7, 15, false⟩ 2 := by
    intro g hg
    obtain rfl := List.mem_singleton.mp hg
    refine ⟨fun size htype => ?_, ?_⟩
    · cases htype
    · rw [if_pos count_id]
      intro _
      decide
  have h := aggregates_in_threads (fun _ => 0) (fun _ => []) hplan (by decide) (by decide) hrows
    (by decide) (by decide) (Or.inl rfl) hexact (List.Perm.swap 0 1 [])
  rcases h with hok | herror
  · exact hok
  · obtain ⟨_, t, ht, hmany⟩ := herror
    have hslots := (slotsPerMergeTable_spec 2 2).2
    have hmany : slotsPerMergeTable 2 2 / 2 ≤ _ := hmany
    have hfew : ∀ t < 2, Aggregation.groupCount
        ⟨[flagColumn], [⟨flagColumn, AggStateCount⟩], 1, 7, 15, false⟩ (fun _ => [])
        (Aggregation.threadRows ⟨[flagColumn], [⟨flagColumn, AggStateCount⟩], 1, 7, 15, false⟩
          (fun _ => 0) (fun _ => []) 2 t [nameRow 16, nameRow 32]) ≤ 1 := by decide
    have hone := hmany.trans (hfew t ht)
    omega

end Main

end InkFuse.Algebra
