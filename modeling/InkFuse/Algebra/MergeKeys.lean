import InkFuse.Algebra.MergeGranules

/-!
The first half of a merge, and the merge of one table after the other. A thread moves the keys that
it is responsible for into its merge table and remembers where they are. A merge table that grows
while it does so takes the storage away from the slots that were remembered before.
-/

namespace InkFuse.Algebra

open Bytes Codegen Probing InkFuse.Runtime SharedHashTableState

section Source

variable {κ : Type} {A : KeyAccess κ}

def visited (s : SharedHashTableState) : List Bytes := s.iterate s.iteratorStart

theorem visited_eq (s : SharedHashTableState) :
    visited s = ((List.range (s.modMask + 1)).filter s.filled).map s.data := by
  unfold visited iterate iteratorStart
  rw [← scan_eq]
  rfl

/-- What a merge finds in the table of a thread that has aggregated some rows. -/
structure SourceTable (L : KeyLayout A) (slotKey : Bytes → κ) (agg : Aggregation)
    (key : Row → κ) (rows : List Row) (src : SharedHashTableState) : Prop where
  nodup : ((visited src).map L.slotIdent).Nodup
  keys : ∀ q, q ∈ (visited src).map L.slotIdent ↔ ∃ row ∈ rows, L.ident (key row) = q
  valid : ∀ d ∈ visited src, L.ValidKey (slotKey d)
  ident : ∀ d ∈ visited src, L.ident (slotKey d) = L.slotIdent d
  length : ∀ d ∈ visited src, d.length = L.keySize + agg.payloadSize
  payload : ∀ d ∈ visited src, readAt d L.keySize agg.payloadSize =
    groupState L agg key (L.slotIdent d) rows

/-- A tag of a filled slot has the fill bit. -/
theorem filled_of_inv {L : KeyLayout A} {s : SharedHashTableState} (hs : Inv L s) {i : ℕ}
    (hi : i < s.capacity) : s.filled i = true ↔ s.tags i ≠ 0 := by
  constructor
  · intro h hzero
    rw [filled, hzero] at h
    exact absurd h (by decide)
  · intro h
    have htag := hs.tag_eq i (s.data i) ⟨hi, slots_eq_some_iff.mpr ⟨h, rfl⟩⟩
    rw [filled, htag, bne_iff_ne]
    exact filledTag_and_fill_ne_zero _

theorem mem_visited {L : KeyLayout A} {s : SharedHashTableState} (hs : Inv L s) {d : Bytes} :
    d ∈ visited s ↔ s.Holds d := by
  rw [visited_eq, List.mem_map]
  constructor
  · intro h
    obtain ⟨i, hi, rfl⟩ := h
    obtain ⟨hlt, hfilled⟩ := List.mem_filter.mp hi
    have hlt := List.mem_range.mp hlt
    exact ⟨i, hlt, slots_eq_some_iff.mpr ⟨(filled_of_inv hs hlt).mp hfilled, rfl⟩⟩
  · intro h
    obtain ⟨i, hlt, hslot⟩ := h
    obtain ⟨htag, hdata⟩ := slots_eq_some_iff.mp hslot
    exact ⟨i, List.mem_filter.mpr ⟨List.mem_range.mpr hlt, (filled_of_inv hs hlt).mpr htag⟩, hdata⟩

/-- The keys that are read from the slots of a table are those that are stored in it. -/
def ReadsKeys (L : KeyLayout A) (slotKey : Bytes → κ) (slotSize : ℕ) : Prop :=
  ∀ d : Bytes, d.length = slotSize → L.ValidSlot d →
    L.ValidKey (slotKey d) ∧ L.ident (slotKey d) = L.slotIdent d

theorem sourceTable_of_groups {L : KeyLayout A} {slotKey : Bytes → κ} {agg : Aggregation}
    {key : Row → κ} {rows : List Row} {src : SharedHashTableState}
    (hreads : ReadsKeys L slotKey (L.keySize + agg.payloadSize))
    (h : HoldsGroups L agg key rows src) : SourceTable L slotKey agg key rows src := by
  obtain ⟨m, hrep, hkeys, hpayload⟩ := h
  have hmem : ∀ d, d ∈ visited src ↔ src.Holds d := fun d => mem_visited hrep.inv
  have hslot : ∀ d ∈ visited src, d.length = L.keySize + agg.payloadSize ∧ L.ValidSlot d := by
    intro d hd
    obtain ⟨i, hi⟩ := (hmem d).mp hd
    have hlen := hrep.inv.slot_length i hi.1
    rw [hi.data_eq, hrep.slotSize_eq] at hlen
    exact ⟨hlen, hrep.inv.valid i d hi⟩
  refine ⟨?_, fun q => ?_, fun d hd => (hreads d (hslot d hd).1 (hslot d hd).2).1,
    fun d hd => (hreads d (hslot d hd).1 (hslot d hd).2).2, fun d hd => (hslot d hd).1,
    fun d hd => ?_⟩
  · rw [visited_eq, List.map_map]
    apply List.Nodup.map_on
    · intro i hi j hj hij
      obtain ⟨hi, hifilled⟩ := List.mem_filter.mp hi
      obtain ⟨hj, hjfilled⟩ := List.mem_filter.mp hj
      have hilt := List.mem_range.mp hi
      have hjlt := List.mem_range.mp hj
      exact hrep.inv.unique i j _ _ hilt hjlt
        (slots_eq_some_iff.mpr ⟨(filled_of_inv hrep.inv hilt).mp hifilled, rfl⟩)
        (slots_eq_some_iff.mpr ⟨(filled_of_inv hrep.inv hjlt).mp hjfilled, rfl⟩) hij
    · exact List.nodup_range.filter _
  · rw [← hkeys, hrep.mem_keys, List.mem_map]
    apply exists_congr
    intro d
    rw [hmem]
  · rw [hrep.payload_eq d ((hmem d).mp hd), hpayload]

end Source

section Keys

variable {κ : Type} {A : KeyAccess κ}

def responsible (A : KeyAccess κ) (totalThreads threadId : ℕ) (ds : List Bytes) : List Bytes :=
  ds.filter fun d => (A.slotHash d).toNat % totalThreads = threadId

/-- The state of a merge that has seen some slots of the source table. -/
structure KeysMerged (L : KeyLayout A) (payloadSize : ℕ) (start : SharedHashTableState)
    (m₀ : PayloadMap) (own : List Bytes) (st : MergeState) (m : PayloadMap) : Prop where
  represents : Represents L payloadSize st.table m
  payload_eq : m.payload = m₀.payload
  mem_keys : ∀ q, q ∈ m.keys ↔ q ∈ m₀.keys ∨ q ∈ own.map L.slotIdent
  sources : st.pairs.map MergePair.source = own
  current : ∀ pair ∈ st.pairs, pair.generation = st.generation →
    m.live pair.slot = some (L.slotIdent pair.source)
  older : ∀ pair ∈ st.pairs, pair.generation ≤ st.generation
  /-- The table does not grow as long as it has few keys. -/
  calm : m.keys.card < start.maxFill →
    st.generation = 0 ∧ st.table.capacity = start.capacity

variable {L : KeyLayout A} {slotKey : Bytes → κ} {payloadSize : ℕ} {start : SharedHashTableState}
  {m₀ m : PayloadMap} {own : List Bytes} {st : MergeState}

/-- One key that the thread is responsible for. -/
theorem KeysMerged.move (hstart : Inv L start) (h : KeysMerged L payloadSize start m₀ own st m)
    {d : Bytes} (hvalid : L.ValidKey (slotKey d)) (hident : L.ident (slotKey d) = L.slotIdent d)
    (hnew : L.slotIdent d ∉ own.map L.slotIdent) {totalThreads threadId : ℕ}
    (hown : (A.slotHash d).toNat % totalThreads = threadId) :
    ∃ st' m', mergeSlot A slotKey totalThreads threadId st d = .ok st' ∧
      KeysMerged L payloadSize start m₀ (own ++ [d]) st' m' := by
  obtain ⟨r, hr, hspec⟩ := lookupOrInsert_spec h.represents.inv hvalid
  have hins := h.represents.inserted hvalid hspec
  rw [hident] at hins
  set q := L.slotIdent d with hq
  refine ⟨_, m.inserted q r.slot r.grown, by rw [mergeSlot, if_pos hown, hr]; rfl, hins,
    h.payload_eq, fun p => ?_, ?_, fun pair hpair hcurrent => ?_, fun pair hpair => ?_,
    fun hfew => ?_⟩
  · show p ∈ Insert.insert q m.keys ↔ _
    rw [Finset.mem_insert, h.mem_keys, List.map_append, List.mem_append, List.map_singleton,
      List.mem_singleton]
    tauto
  · rw [List.map_append, h.sources]
    rfl
  · rcases List.mem_append.mp hpair with hold | hlast
    · have holder := h.older pair hold
      cases hgrown : r.grown with
      | true =>
        rw [hgrown] at hcurrent
        simp only [if_true] at hcurrent
        omega
      | false =>
        rw [hgrown] at hcurrent
        have hlive := h.current pair hold hcurrent
        have hne : pair.slot ≠ r.slot := by
          intro heq
          obtain ⟨e, he, heident⟩ := h.represents.live_stored _ _ hlive
          obtain ⟨e', he', he'ident, _⟩ := hspec.stored
          have hkept := hspec.kept hgrown _ _ he
          rw [heq] at hkept
          have hsame : e = e' := hkept.data_eq.symm.trans he'.data_eq
          rw [hsame, he'ident, hident] at heident
          apply hnew
          rw [← h.sources, List.map_map]
          exact List.mem_map.mpr ⟨pair, hold, heident.symm⟩
        show Function.update m.live r.slot (some q) pair.slot = _
        rw [Function.update_of_ne hne, hlive]
    · obtain rfl := List.mem_singleton.mp hlast
      exact Function.update_self ..
  · rcases List.mem_append.mp hpair with hold | hlast
    · have holder := h.older pair hold
      show pair.generation ≤ if r.grown then st.generation + 1 else st.generation
      split <;> omega
    · obtain rfl := List.mem_singleton.mp hlast
      exact le_rfl
  · have hle : m.keys.card ≤ (Insert.insert q m.keys).card :=
      Finset.card_le_card (Finset.subset_insert q m.keys)
    have hfew' : m.keys.card < start.maxFill := lt_of_le_of_lt hle hfew
    obtain ⟨hgeneration, hcapacity⟩ := h.calm hfew'
    have hgrown : r.grown = false := by
      rw [← Bool.not_eq_true, hspec.grown_iff, ← h.represents.card_eq, h.represents.inv.maxFill_eq,
        hcapacity, ← hstart.maxFill_eq]
      omega
    have hcap := hspec.capacity_eq
    rw [hgrown] at hcap
    simp only [hgrown]
    exact ⟨hgeneration, hcap.trans hcapacity⟩

/-- The slots of a table, one after the other. -/
theorem mergeSlots_spec (hstart : Represents L payloadSize start m₀) (totalThreads threadId : ℕ)
    (flag : Bool) {ds : List Bytes} (hnodup : (ds.map L.slotIdent).Nodup)
    (hvalid : ∀ d ∈ ds, L.ValidKey (slotKey d))
    (hident : ∀ d ∈ ds, L.ident (slotKey d) = L.slotIdent d) :
    ∃ st m, ds.foldlM (mergeSlot A slotKey totalThreads threadId) ⟨start, 0, [], flag⟩ = .ok st ∧
      KeysMerged L payloadSize start m₀ (responsible A totalThreads threadId ds) st m := by
  induction ds using List.reverseRecOn with
  | nil =>
    refine ⟨_, m₀, rfl, hstart, rfl, fun q => ?_, rfl, ?_, ?_, fun _ => ⟨rfl, rfl⟩⟩
    · simp [responsible]
    · intro pair hpair
      cases hpair
    · intro pair hpair
      cases hpair
  | append_singleton ds d ih =>
    rw [List.map_append, List.nodup_append] at hnodup
    obtain ⟨st, m, hfold, hst⟩ := ih hnodup.1
      (fun e he => hvalid e (List.mem_append_left _ he))
      (fun e he => hident e (List.mem_append_left _ he))
    have hlast : d ∈ ds ++ [d] := List.mem_append_right _ (List.mem_singleton.mpr rfl)
    have hstep : (ds ++ [d]).foldlM (mergeSlot A slotKey totalThreads threadId)
        ⟨start, 0, [], flag⟩ = mergeSlot A slotKey totalThreads threadId st d := by
      rw [List.foldlM_append, hfold]
      simp only [bind, Except.bind, List.foldlM_cons, List.foldlM_nil]
      cases mergeSlot A slotKey totalThreads threadId st d <;> rfl
    rw [hstep]
    by_cases hown : (A.slotHash d).toNat % totalThreads = threadId
    · have hresponsible : responsible A totalThreads threadId (ds ++ [d]) =
          responsible A totalThreads threadId ds ++ [d] := by
        simp [responsible, hown]
      rw [hresponsible]
      apply hst.move hstart.inv (hvalid d hlast) (hident d hlast) _ hown
      intro hmem
      obtain ⟨e, he, heq⟩ := List.mem_map.mp hmem
      exact hnodup.2.2 _ (List.mem_map_of_mem (List.mem_filter.mp he).1) _
        (List.mem_singleton.mpr rfl) heq
    · have hresponsible : responsible A totalThreads threadId (ds ++ [d]) =
          responsible A totalThreads threadId ds := by
        simp [responsible, hown]
      rw [hresponsible]
      exact ⟨st, m, by rw [mergeSlot, if_neg hown], hst⟩

/-- The loop over a source table is one round. If the table has grown, a second round follows
that visits no slot. -/
theorem mergeKeys_eq (totalThreads threadId : ℕ) (src target : SharedHashTableState) :
    mergeKeys A slotKey totalThreads threadId src 2 src.iteratorStart ⟨target, 0, [], false⟩ =
      ((visited src).foldlM (mergeSlot A slotKey totalThreads threadId) ⟨target, 0, [], false⟩).map
        fun st => { st with restartFlag := false } := by
  have hagain : ∀ st : MergeState, mergeKeys A slotKey totalThreads threadId src 1 none st =
      .ok { st with restartFlag := false } := fun st => rfl
  rw [mergeKeys]
  show ((visited src).foldlM (mergeSlot A slotKey totalThreads threadId)
    ⟨target, 0, [], false⟩).bind _ = _
  cases hfold : (visited src).foldlM (mergeSlot A slotKey totalThreads threadId)
      ⟨target, 0, [], false⟩ with
  | error e => rfl
  | ok st =>
    show (if st.restartFlag then _ else _) = Except.ok { st with restartFlag := false }
    cases hflag : st.restartFlag with
    | true => exact hagain st
    | false =>
      rw [if_neg Bool.false_ne_true, ← hflag]

end Keys

end InkFuse.Algebra
