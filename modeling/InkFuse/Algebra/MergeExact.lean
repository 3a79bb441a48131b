import InkFuse.Algebra.Grouping
import InkFuse.Algebra.MergeKeys

/-!
The multi-threaded aggregation. Every thread aggregates its rows into a table of its own, and the
tables are merged into one table for each thread, which holds the groups whose hash belongs to the
thread. A merge table that grows at the wrong time ends the merge with an access to freed storage;
in every other run the merge tables hold the groups of all rows.
-/

namespace InkFuse.Algebra

open Bytes Codegen Probing InkFuse.Runtime SharedHashTableState

section Share

variable {κ : Type} {A : KeyAccess κ}

def share (L : KeyLayout A) (key : Row → κ) (totalThreads threadId : ℕ) (rows : List Row) :
    List Row :=
  rows.filter fun row => (L.hashOf (L.ident (key row))).toNat % totalThreads = threadId

def groupKeys (L : KeyLayout A) (key : Row → κ) (rows : List Row) : Finset Bytes :=
  (rows.map fun row => L.ident (key row)).toFinset

variable {L : KeyLayout A} {key : Row → κ} {totalThreads threadId : ℕ}

theorem mem_groupKeys {rows : List Row} {q : Bytes} :
    q ∈ groupKeys L key rows ↔ ∃ row ∈ rows, L.ident (key row) = q := by
  rw [groupKeys, List.mem_toFinset, List.mem_map]

theorem mem_groupKeys_share {rows : List Row} {q : Bytes} :
    q ∈ groupKeys L key (share L key totalThreads threadId rows) ↔
      q ∈ groupKeys L key rows ∧ (L.hashOf q).toNat % totalThreads = threadId := by
  simp only [mem_groupKeys, share, List.mem_filter, decide_eq_true_eq]
  constructor
  · intro h
    obtain ⟨row, ⟨hrow, hthread⟩, rfl⟩ := h
    exact ⟨⟨row, hrow, rfl⟩, hthread⟩
  · intro h
    obtain ⟨⟨row, hrow, rfl⟩, hthread⟩ := h
    exact ⟨row, ⟨hrow, hthread⟩, rfl⟩

theorem share_append (rows more : List Row) : share L key totalThreads threadId (rows ++ more) =
    share L key totalThreads threadId rows ++ share L key totalThreads threadId more :=
  List.filter_append ..

theorem groupKeys_share_mono {rows more : List Row} (h : ∀ row ∈ rows, row ∈ more) :
    groupKeys L key (share L key totalThreads threadId rows) ⊆
      groupKeys L key (share L key totalThreads threadId more) := by
  intro q hq
  rw [mem_groupKeys_share, mem_groupKeys] at hq ⊢
  obtain ⟨⟨row, hrow, hident⟩, hthread⟩ := hq
  exact ⟨⟨row, h row hrow, hident⟩, hthread⟩

/-- The rows of a key all belong to the thread of the key. -/
theorem keyRows_share (rows : List Row) {q : Bytes}
    (hq : (L.hashOf q).toNat % totalThreads = threadId) :
    keyRows L key (share L key totalThreads threadId rows) q = keyRows L key rows q := by
  unfold keyRows share
  rw [List.filter_filter]
  apply List.filter_congr
  intro row _
  by_cases hrow : L.ident (key row) = q
  · simp [hrow, hq]
  · simp [hrow]

theorem keyRows_append (rows more : List Row) (q : Bytes) :
    keyRows L key (rows ++ more) q = keyRows L key rows q ++ keyRows L key more q :=
  List.filter_append ..

theorem keyRows_eq_nil {rows : List Row} {q : Bytes} (h : q ∉ groupKeys L key rows) :
    keyRows L key rows q = [] := by
  apply List.filter_eq_nil_iff.mpr
  intro row hrow hident
  exact h (mem_groupKeys.mpr ⟨row, hrow, of_decide_eq_true hident⟩)

theorem groupState_of_keyRows {agg : Aggregation} {rows more : List Row} {q : Bytes}
    (h : keyRows L key rows q = keyRows L key more q) :
    groupState L agg key q rows = groupState L agg key q more := by
  unfold groupState
  rw [← keyRows, h]
  rfl

end Share

section Table

variable {κ : Type} {A : KeyAccess κ} (L : KeyLayout A) (agg : Aggregation) (key : Row → κ)

/-- A merge table into which some rows were merged. It has its initial size as long as it has few
groups. -/
structure Merged (totalThreads threadId : ℕ) (rows : List Row)
    (start table : SharedHashTableState) : Prop where
  groups : HoldsGroups L agg key (share L key totalThreads threadId rows) table
  calm : (groupKeys L key (share L key totalThreads threadId rows)).card < start.maxFill →
    table.capacity = start.capacity

/-- The granules of a plan can be merged exactly, for so many values. -/
structure MergeableGranules (floatAdd : ℕ → ℕ → ℕ → ℕ) (agg : Aggregation) (bound : ℕ) :
    Prop where
  nonempty : agg.granules ≠ []
  primitive : ∀ g ∈ agg.granules, ∃ primitive, mergePrimitive floatAdd g = .ok primitive
  merges : ∀ g ∈ agg.granules, ∀ xs ys : List Bytes, xs.length + ys.length ≤ bound →
    Merges floatAdd g xs ys

variable {L agg key} {slotKey : Bytes → κ} {floatAdd : ℕ → ℕ → ℕ → ℕ} {bound : ℕ}
  {totalThreads threadId : ℕ}

theorem mem_responsible {ds : List Bytes} {d : Bytes} :
    d ∈ responsible A totalThreads threadId ds ↔
      d ∈ ds ∧ (L.hashOf (L.slotIdent d)).toNat % totalThreads = threadId := by
  rw [responsible, List.mem_filter, decide_eq_true_eq, L.slotHash_eq]

/-- A thread is responsible for the slots of its groups. -/
theorem SourceTable.mem_responsible_keys {rows : List Row} {src : SharedHashTableState}
    (hsrc : SourceTable L slotKey agg key rows src) (q : Bytes) :
    q ∈ (responsible A totalThreads threadId (visited src)).map L.slotIdent ↔
      q ∈ groupKeys L key (share L key totalThreads threadId rows) := by
  rw [mem_groupKeys_share, mem_groupKeys, ← hsrc.keys, List.mem_map, List.mem_map]
  constructor
  · intro h
    obtain ⟨d, hd, rfl⟩ := h
    obtain ⟨hmem, hthread⟩ := mem_responsible.mp hd
    exact ⟨⟨d, hmem, rfl⟩, hthread⟩
  · intro h
    obtain ⟨⟨d, hd, rfl⟩, hthread⟩ := h
    exact ⟨d, mem_responsible.mpr ⟨hd, hthread⟩, rfl⟩

theorem mem_groupKeys_share_append {done rows : List Row} {q : Bytes} :
    q ∈ groupKeys L key (share L key totalThreads threadId (done ++ rows)) ↔
      q ∈ groupKeys L key (share L key totalThreads threadId done) ∨
        q ∈ groupKeys L key (share L key totalThreads threadId rows) := by
  rw [share_append, mem_groupKeys, mem_groupKeys, mem_groupKeys]
  simp only [List.mem_append, or_and_right, exists_or]

/-- What the first half of a merge leaves to the second one: a pair for each group of the thread,
with the states of the group in its source, and payloads that are those of the rows merged so
far. -/
structure KeysMoved (L : KeyLayout A) (agg : Aggregation) (key : Row → κ)
    (totalThreads threadId : ℕ) (done rows : List Row) (st : MergeState) (m : PayloadMap) :
    Prop where
  nodup : (pairKeys L st.pairs).Nodup
  mem_pairKeys : ∀ q, q ∈ pairKeys L st.pairs ↔
    q ∈ groupKeys L key (share L key totalThreads threadId rows)
  mem_keys : ∀ q, q ∈ m.keys ↔
    q ∈ groupKeys L key (share L key totalThreads threadId (done ++ rows))
  length : ∀ pair ∈ st.pairs, pair.source.length = L.keySize + agg.payloadSize
  source : ∀ pair ∈ st.pairs, unpackFields pair.source (L.keySize + agg.payloadOffset)
    (agg.granules.map Granule.stateSize) =
      granuleStates agg.granules (keyRows L key rows (L.slotIdent pair.source))
  payload : ∀ q, m.payload q =
    groupState L agg key q (share L key totalThreads threadId done)

section Moved

variable {done rows : List Row} {src target : SharedHashTableState} {st : MergeState}
  {m₀ m : PayloadMap}

theorem SourceTable.keysMoved (hsrc : SourceTable L slotKey agg key rows src)
    (hsize : agg.payloadSize = agg.payloadOffset + granulesSize agg.granules)
    (hkeys : ∀ q, q ∈ m₀.keys ↔ q ∈ groupKeys L key (share L key totalThreads threadId done))
    (hpayload : ∀ q, m₀.payload q =
      groupState L agg key q (share L key totalThreads threadId done))
    (hst : KeysMerged L agg.payloadSize target m₀
      (responsible A totalThreads threadId (visited src)) st m) :
    KeysMoved L agg key totalThreads threadId done rows st m := by
  have hpairs : pairKeys L st.pairs =
      (responsible A totalThreads threadId (visited src)).map L.slotIdent := by
    rw [← hst.sources, List.map_map]
    rfl
  have hvisited : ∀ pair ∈ st.pairs, pair.source ∈ visited src := by
    intro pair hpair
    have hown : pair.source ∈ responsible A totalThreads threadId (visited src) := by
      rw [← hst.sources]
      exact List.mem_map_of_mem hpair
    exact (List.mem_filter.mp hown).1
  refine ⟨?_, fun q => ?_, fun q => ?_, fun pair hpair => hsrc.length _ (hvisited pair hpair),
    fun pair hpair => ?_, fun q => ?_⟩
  · rw [hpairs]
    exact hsrc.nodup.sublist (List.filter_sublist.map _)
  · rw [hpairs, hsrc.mem_responsible_keys]
  · rw [hst.mem_keys, hsrc.mem_responsible_keys, hkeys, mem_groupKeys_share_append]
  · have hwidths : (agg.granules.map Granule.stateSize).sum = granulesSize agg.granules := rfl
    rw [← unpackFields_readAt pair.source (n := agg.payloadSize) (by omega),
      hsrc.payload _ (hvisited pair hpair), unpackFields_groupState hsize]
  · rw [hst.payload_eq, hpayload]

/-- The payload of a moved key is that of all its rows that were merged so far. -/
theorem KeysMoved.payload_pair (h : KeysMoved L agg key totalThreads threadId done rows st m)
    {q : Bytes} (hq : q ∈ pairKeys L st.pairs) : m.payload q = groupState L agg key q done := by
  rw [h.mem_pairKeys, mem_groupKeys_share] at hq
  rw [h.payload]
  exact groupState_of_keyRows (keyRows_share done hq.2)

theorem MergeableGranules.merges_keyRows (h : MergeableGranules floatAdd agg bound)
    (hbound : done.length + rows.length ≤ bound) {g : Granule} (hg : g ∈ agg.granules)
    (q : Bytes) : Merges floatAdd g ((keyRows L key done q).map fun row => row g.aggIu)
      ((keyRows L key rows q).map fun row => row g.aggIu) := by
  apply h.merges g hg
  have hdone := List.length_filter_le (fun row => L.ident (key row) = q) done
  have hrows := List.length_filter_le (fun row => L.ident (key row) = q) rows
  rw [List.length_map, List.length_map]
  unfold keyRows
  omega

/-- A merge that has lost a slot fails. -/
theorem KeysMoved.stale (h : KeysMoved L agg key totalThreads threadId done rows st m)
    (hsize : agg.payloadSize = agg.payloadOffset + granulesSize agg.granules)
    (hmergeable : MergeableGranules floatAdd agg bound)
    (hbound : done.length + rows.length ≤ bound)
    (hrep : Represents L agg.payloadSize st.table m)
    (hcurrent : ∀ pair ∈ st.pairs, pair.generation = st.generation →
      m.live pair.slot = some (L.slotIdent pair.source))
    (hstale : ∃ pair ∈ st.pairs, pair.generation ≠ st.generation) :
    (placed agg.granules (L.keySize + agg.payloadOffset)).foldlM
      (mergeGranule floatAdd st.pairs st.generation) st.table = .error .useAfterFree := by
  have hsource := h.source
  have hunpack : ∀ q, unpackFields (groupState L agg key q done) agg.payloadOffset
      (agg.granules.map Granule.stateSize) = granuleStates agg.granules (keyRows L key done q) :=
    fun q => unpackFields_groupState hsize q done
  have hmerges : ∀ g ∈ agg.granules, ∀ q, Merges floatAdd g
      ((keyRows L key done q).map fun row => row g.aggIu)
      ((keyRows L key rows q).map fun row => row g.aggIu) :=
    fun g hg q => hmergeable.merges_keyRows hbound hg q
  obtain ⟨g, rest, hgranules⟩ := List.exists_cons_of_ne_nil hmergeable.nonempty
  rw [hgranules] at hsource hunpack hmerges hsize ⊢
  have hfst : agg.payloadOffset + g.stateSize ≤ agg.payloadSize := by
    rw [hsize, granulesSize_cons]
    omega
  apply mergeAll_stale hfst (fun q => (keyRows L key done q).map fun row => row g.aggIu)
    (fun q => (keyRows L key rows q).map fun row => row g.aggIu) hrep h.nodup
    (fun pair hpair hgeneration => ⟨hgeneration, hcurrent pair hpair hgeneration⟩) h.length
    (fun pair hpair => (List.cons.inj (hsource pair hpair)).1) (fun q hq => ?_)
    (fun q _ => hmerges g List.mem_cons_self q) hstale
  rw [h.payload_pair hq]
  exact (List.cons.inj (hunpack q)).1

/-- A merge that still has all slots leads to the groups of all rows. -/
theorem KeysMoved.current (h : KeysMoved L agg key totalThreads threadId done rows st m)
    (hsize : agg.payloadSize = agg.payloadOffset + granulesSize agg.granules)
    (hmergeable : MergeableGranules floatAdd agg bound)
    (hbound : done.length + rows.length ≤ bound)
    (hrep : Represents L agg.payloadSize st.table m)
    (hcurrent : ∀ pair ∈ st.pairs, pair.Current L m st.generation) :
    ∃ t, (placed agg.granules (L.keySize + agg.payloadOffset)).foldlM
        (mergeGranule floatAdd st.pairs st.generation) st.table = .ok t ∧
      t.capacity = st.table.capacity ∧
      HoldsGroups L agg key (share L key totalThreads threadId (done ++ rows)) t := by
  obtain ⟨t, ht, hcapacity, hrept⟩ := mergeAll_spec (keyRows L key done) (keyRows L key rows)
    (le_of_eq hsize.symm) hrep h.nodup hcurrent h.length
    (fun q hq => by rw [h.payload_pair hq, length_groupState hsize]) h.source
    (fun q hq => by rw [h.payload_pair hq, unpackFields_groupState hsize]) hmergeable.primitive
    (fun g hg q _ => hmergeable.merges_keyRows hbound hg q)
  refine ⟨t, ht, hcapacity, _, hrept, fun q => (h.mem_keys q).trans mem_groupKeys, fun q => ?_⟩
  show (if q ∈ pairKeys L st.pairs then _ else _) = _
  by_cases hq : q ∈ pairKeys L st.pairs
  · have hthread := (mem_groupKeys_share.mp ((h.mem_pairKeys q).mp hq)).2
    rw [if_pos hq, h.payload_pair hq, ← keyRows_append, packFields_groupState hsize]
    exact groupState_of_keyRows (keyRows_share _ hthread).symm
  · rw [if_neg hq, h.payload]
    apply groupState_of_keyRows
    have hnone : keyRows L key (share L key totalThreads threadId rows) q = [] := by
      apply keyRows_eq_nil
      rwa [← h.mem_pairKeys]
    rw [share_append, keyRows_append, hnone, List.append_nil]

end Moved

/-- The merge of the table of one thread: it is exact, or some slot is gone. -/
theorem mergeSingleTable_spec (hkeySize : L.keySize = agg.keySize)
    (hsize : agg.payloadSize = agg.payloadOffset + granulesSize agg.granules)
    (hmergeable : MergeableGranules floatAdd agg bound) {done rows : List Row}
    (hbound : done.length + rows.length ≤ bound) {src start target : SharedHashTableState}
    (hstart : start.maxFill = start.capacity / 2) (hsrc : SourceTable L slotKey agg key rows src)
    (htarget : Merged L agg key totalThreads threadId done start target) :
    (∃ t, mergeSingleTable A slotKey floatAdd agg totalThreads threadId target src = .ok t ∧
      Merged L agg key totalThreads threadId (done ++ rows) start t) ∨
    mergeSingleTable A slotKey floatAdd agg totalThreads threadId target src =
        .error .useAfterFree ∧ start.maxFill ≤
          (groupKeys L key (share L key totalThreads threadId (done ++ rows))).card := by
  obtain ⟨m₀, hrep, hkeys, hpayload⟩ := htarget.groups
  obtain ⟨st, m, hfold, hst⟩ := mergeSlots_spec hrep totalThreads threadId false hsrc.nodup
    hsrc.valid hsrc.ident
  have hmoved : KeysMoved L agg key totalThreads threadId done rows st m :=
    hsrc.keysMoved hsize (fun q => (hkeys q).trans mem_groupKeys.symm) hpayload hst
  have hrun : mergeSingleTable A slotKey floatAdd agg totalThreads threadId target src =
      (placed agg.granules (L.keySize + agg.payloadOffset)).foldlM
        (mergeGranule floatAdd st.pairs st.generation) st.table := by
    unfold mergeSingleTable
    rw [mergeKeys_eq, hfold, hkeySize]
    rfl
  -- With few groups the merge table does not grow.
  have hmono : (groupKeys L key (share L key totalThreads threadId done)).card ≤
      (groupKeys L key (share L key totalThreads threadId (done ++ rows))).card :=
    Finset.card_le_card (groupKeys_share_mono fun row hrow => List.mem_append_left _ hrow)
  have hcalm : (groupKeys L key (share L key totalThreads threadId (done ++ rows))).card <
      start.maxFill → target.capacity = start.capacity ∧ st.generation = 0 ∧
        st.table.capacity = target.capacity := by
    intro hfew
    have hcapacity := htarget.calm (lt_of_le_of_lt hmono hfew)
    refine ⟨hcapacity, hst.calm ?_⟩
    rw [show m.keys = _ from Finset.ext hmoved.mem_keys, hrep.inv.maxFill_eq, hcapacity, ← hstart]
    exact hfew
  rw [hrun]
  by_cases hstale : ∃ pair ∈ st.pairs, pair.generation ≠ st.generation
  · refine Or.inr ⟨hmoved.stale hsize hmergeable hbound hst.represents hst.current hstale, ?_⟩
    apply Nat.le_of_not_lt
    intro hfew
    obtain ⟨_, hgeneration, _⟩ := hcalm hfew
    obtain ⟨pair, hpair, hne⟩ := hstale
    have holder := hst.older pair hpair
    omega
  · have hall : ∀ pair ∈ st.pairs, pair.Current L m st.generation := by
      intro pair hpair
      have hgeneration : pair.generation = st.generation := by
        by_contra hne
        exact hstale ⟨pair, hpair, hne⟩
      exact ⟨hgeneration, hst.current pair hpair hgeneration⟩
    obtain ⟨t, ht, hcapacity, hgroups⟩ :=
      hmoved.current hsize hmergeable hbound hst.represents hall
    refine Or.inl ⟨t, ht, hgroups, fun hfew => ?_⟩
    obtain ⟨htarget, _, hst⟩ := hcalm hfew
    rw [hcapacity, hst, htarget]

/-- The tables of all threads, one after the other. -/
theorem mergeEachTable_spec (hkeySize : L.keySize = agg.keySize)
    (hsize : agg.payloadSize = agg.payloadOffset + granulesSize agg.granules)
    (hmergeable : MergeableGranules floatAdd agg bound) {start : SharedHashTableState}
    (hstart : start.maxFill = start.capacity / 2) {shares : List (List Row)}
    {preMerge : List SharedHashTableState}
    (hsrc : List.Forall₂ (SourceTable L slotKey agg key) shares preMerge) {done : List Row}
    (hbound : done.length + shares.flatten.length ≤ bound) {target : SharedHashTableState}
    (htarget : Merged L agg key totalThreads threadId done start target) :
    (∃ t, preMerge.foldlM (mergeSingleTable A slotKey floatAdd agg totalThreads threadId) target =
        .ok t ∧ Merged L agg key totalThreads threadId (done ++ shares.flatten) start t) ∨
    preMerge.foldlM (mergeSingleTable A slotKey floatAdd agg totalThreads threadId) target =
        .error .useAfterFree ∧ start.maxFill ≤
          (groupKeys L key (share L key totalThreads threadId (done ++ shares.flatten))).card := by
  induction hsrc generalizing done target with
  | nil =>
    rw [List.flatten_nil, List.append_nil]
    exact Or.inl ⟨target, rfl, htarget⟩
  | @cons rows src shares preMerge hsrc _ ih =>
    rw [List.flatten_cons, List.length_append] at hbound
    rw [List.flatten_cons, ← List.append_assoc, List.foldlM_cons]
    rcases mergeSingleTable_spec hkeySize hsize hmergeable (by omega) hstart hsrc htarget with
      hok | herror
    · obtain ⟨t, ht, hmerged⟩ := hok
      rw [ht]
      apply ih _ hmerged
      rw [List.length_append]
      omega
    · rw [herror.1]
      refine Or.inr ⟨rfl, herror.2.trans (Finset.card_le_card (groupKeys_share_mono ?_))⟩
      exact fun row hrow => List.mem_append_left _ hrow

theorem merged_nil {start : SharedHashTableState}
    (hstart : Represents L agg.payloadSize start (PayloadMap.empty agg.payloadSize)) :
    Merged L agg key totalThreads threadId [] start start := by
  refine ⟨⟨_, hstart, fun q => ?_, fun q => rfl⟩, fun _ => rfl⟩
  simp [PayloadMap.empty, share]

/-- The whole merge, whatever the order of the threads. -/
theorem runMerge_spec (hkeySize : L.keySize = agg.keySize)
    (hsize : agg.payloadSize = agg.payloadOffset + granulesSize agg.granules)
    (hmergeable : MergeableGranules floatAdd agg bound) {start : SharedHashTableState}
    (hstart : Represents L agg.payloadSize start (PayloadMap.empty agg.payloadSize))
    {shares : List (List Row)} {preMerge : List SharedHashTableState}
    (hsrc : List.Forall₂ (SourceTable L slotKey agg key) shares preMerge)
    (hbound : shares.flatten.length ≤ bound) {order : List ℕ} (horder : order.Nodup) :
    (∃ merged, runMerge A slotKey floatAdd agg preMerge (.ok start) totalThreads order =
        .ok merged ∧
      ∀ t ∈ order, Merged L agg key totalThreads t shares.flatten start (merged t)) ∨
    runMerge A slotKey floatAdd agg preMerge (.ok start) totalThreads order =
        .error .useAfterFree ∧ ∃ t ∈ order, start.maxFill ≤
          (groupKeys L key (share L key totalThreads t shares.flatten)).card := by
  have hrun : (∃ merged, runMerge A slotKey floatAdd agg preMerge (.ok start) totalThreads order =
        .ok merged ∧ (∀ t ∉ order, merged t = start) ∧
      ∀ t ∈ order, Merged L agg key totalThreads t shares.flatten start (merged t)) ∨
    runMerge A slotKey floatAdd agg preMerge (.ok start) totalThreads order =
        .error .useAfterFree ∧ ∃ t ∈ order, start.maxFill ≤
          (groupKeys L key (share L key totalThreads t shares.flatten)).card := by
    induction order using List.reverseRecOn with
    | nil => exact Or.inl ⟨_, rfl, fun _ _ => rfl, fun t ht => by cases ht⟩
    | append_singleton order threadId ih =>
      rw [List.nodup_append] at horder
      have hsplit : runMerge A slotKey floatAdd agg preMerge (.ok start) totalThreads
          (order ++ [threadId]) =
          (runMerge A slotKey floatAdd agg preMerge (.ok start) totalThreads order).bind
            fun merged => mergeTables A slotKey floatAdd agg preMerge totalThreads merged
              threadId := by
        unfold runMerge
        simp only [bind, Except.bind, List.foldlM_append, List.foldlM_cons, List.foldlM_nil]
        cases List.foldlM (mergeTables A slotKey floatAdd agg preMerge totalThreads)
            (fun _ => start) order with
        | error e => rfl
        | ok merged =>
          simp only
          cases mergeTables A slotKey floatAdd agg preMerge totalThreads merged threadId <;> rfl
      rw [hsplit]
      rcases ih horder.1 with hok | herror
      · obtain ⟨merged, hmerged, hothers, hdone⟩ := hok
        have hnot : threadId ∉ order := fun hmem =>
          horder.2.2 threadId hmem threadId (List.mem_singleton.mpr rfl) rfl
        have htarget : Merged L agg key totalThreads threadId [] start (merged threadId) := by
          rw [hothers threadId hnot]
          exact merged_nil hstart
        rw [hmerged]
        rcases mergeEachTable_spec hkeySize hsize hmergeable hstart.inv.maxFill_eq hsrc
          (by simpa using hbound) htarget with hok | herror
        · obtain ⟨t, ht, hmergedTable⟩ := hok
          rw [List.nil_append] at hmergedTable
          refine Or.inl ⟨Function.update merged threadId t, ?_, fun i hi => ?_, fun i hi => ?_⟩
          · simp only [Except.bind, mergeTables, bind, ht]
          · have hne : i ≠ threadId := by
              rintro rfl
              exact hi (List.mem_append_right _ (List.mem_singleton.mpr rfl))
            rw [Function.update_of_ne hne]
            exact hothers i fun hmem => hi (List.mem_append_left _ hmem)
          · by_cases hit : i = threadId
            · rw [hit, Function.update_self]
              exact hmergedTable
            · rw [Function.update_of_ne hit]
              rcases List.mem_append.mp hi with hmem | hlast
              · exact hdone i hmem
              · exact absurd (List.mem_singleton.mp hlast) hit
        · rw [List.nil_append] at herror
          refine Or.inr ⟨?_, threadId, List.mem_append_right _ (List.mem_singleton.mpr rfl),
            herror.2⟩
          simp only [Except.bind, mergeTables, bind, herror.1]
      · obtain ⟨herror, t, ht, hmany⟩ := herror
        rw [herror]
        exact Or.inr ⟨rfl, t, List.mem_append_left _ ht, hmany⟩
  rcases hrun with hok | herror
  · obtain ⟨merged, hmerged, _, hall⟩ := hok
    exact Or.inl ⟨merged, hmerged, hall⟩
  · exact Or.inr herror

end Table

end InkFuse.Algebra
