import InkFuse.Algebra.AggregateStates
import InkFuse.Algebra.AggregationRows

/-!
The second half of a merge. The state of a group is the states of its granules, one behind the
other. A granule is merged for all pairs before the next one, and a pair changes the group of its
key only, so that afterwards every group has the values of both tables.
-/

namespace InkFuse.Algebra

open Bytes Codegen InkFuse.Runtime SharedHashTableState

section Fields

theorem writeAt_append_prefix {b x y z : Bytes} {off : ℕ} (hoff : off ≤ b.length)
    (hlen : x.length = z.length) :
    writeAt (writeAt b off (x ++ y)) off z = writeAt b off (z ++ y) := by
  have htake : (b.take off).length = off := by
    rw [List.length_take, Nat.min_eq_left hoff]
  have hdrop : (b.take off ++ (x ++ y) ++ b.drop (off + (x ++ y).length)).drop (off + z.length) =
      y ++ b.drop (off + (x ++ y).length) := by
    rw [← List.append_assoc (b.take off) x y, List.append_assoc (_ ++ x),
      List.drop_left' (by rw [List.length_append, htake, hlen])]
  unfold writeAt
  rw [hdrop, List.append_assoc (b.take off), List.take_left' htake, List.length_append,
    List.length_append, hlen]
  simp only [List.append_assoc]

/-- A second write to the same place. -/
theorem writeAt_writeAt_same {b x z : Bytes} {off : ℕ} (hoff : off ≤ b.length)
    (hlen : x.length = z.length) : writeAt (writeAt b off x) off z = writeAt b off z := by
  have h : writeAt (writeAt b off (x ++ [])) off z = writeAt b off (z ++ []) :=
    writeAt_append_prefix hoff hlen
  rwa [List.append_nil, List.append_nil] at h

theorem unpackFields_writeAt {b bs : Bytes} {off i : ℕ} (ws : List ℕ) (hoff : off ≤ b.length)
    (h : off + bs.length ≤ i) : unpackFields (writeAt b off bs) i ws = unpackFields b i ws := by
  induction ws generalizing i with
  | nil => rfl
  | cons w ws ih =>
    rw [unpackFields, unpackFields, ih (by omega), readAt_writeAt_after hoff h]

theorem unpackFields_packFields {b : Bytes} {off : ℕ} {fs : List Bytes}
    (h : off + fs.flatten.length ≤ b.length) :
    unpackFields (packFields b off fs) off (fs.map List.length) = fs := by
  have htake : (b.take off).length = off := by
    rw [List.length_take, Nat.min_eq_left (by omega)]
  have hunpack := unpackFields_append (b.take off) fs (b.drop (off + fs.flatten.length))
  rwa [htake, ← writeAt, ← packFields_eq_writeAt h] at hunpack

/-- Fields of a range. -/
theorem unpackFields_readAt (b : Bytes) {off n i : ℕ} {ws : List ℕ} (h : i + ws.sum ≤ n) :
    unpackFields (readAt b off n) i ws = unpackFields b (off + i) ws := by
  induction ws generalizing i with
  | nil => rfl
  | cons w ws ih =>
    rw [List.sum_cons] at h
    rw [unpackFields, unpackFields, readAt_readAt b (by omega), ih (by omega), Nat.add_assoc]

end Fields

section States

theorem Granule.state_length (g : Granule) (values : List Bytes) :
    (g.state values).length = g.stateSize := by
  induction values using List.reverseRecOn with
  | nil => exact List.length_replicate
  | append_singleton values value ih =>
    rw [Granule.state_append]
    exact encode_length _ _

def granuleStates (granules : List Granule) (rows : List Row) : List Bytes :=
  granules.map fun g => g.state (rows.map fun row => row g.aggIu)

theorem length_granuleStates (granules : List Granule) (rows : List Row) :
    (granuleStates granules rows).map List.length = granules.map Granule.stateSize := by
  rw [granuleStates, List.map_map]
  exact List.map_congr_left fun g _ => g.state_length _

theorem length_flatten_granuleStates (granules : List Granule) (rows : List Row) :
    (granuleStates granules rows).flatten.length = granulesSize granules := by
  rw [List.length_flatten, length_granuleStates]
  rfl

/-- One more row updates every granule in its place. -/
theorem updatePayload_packFields (row : Row) (granules : List Granule) (rows : List Row)
    {b : Bytes} {off : ℕ} (hfit : off + granulesSize granules ≤ b.length) :
    updatePayload row granules off (packFields b off (granuleStates granules rows)) =
      packFields b off (granuleStates granules (rows ++ [row])) := by
  induction granules generalizing b off with
  | nil => rfl
  | cons g rest ih =>
    rw [granulesSize_cons] at hfit
    set old := g.state (rows.map fun row => row g.aggIu) with hold
    set new := g.state ((rows ++ [row]).map fun row => row g.aggIu) with hnew
    have holdlen : old.length = g.stateSize := g.state_length _
    have hnewlen : new.length = g.stateSize := g.state_length _
    have hflat := length_flatten_granuleStates rest rows
    have hstates : (granuleStates (g :: rest) rows).flatten.length = g.stateSize +
        granulesSize rest := by
      rw [length_flatten_granuleStates, granulesSize_cons]
    have hpacked : packFields b off (granuleStates (g :: rest) rows) =
        writeAt b off (old ++ (granuleStates rest rows).flatten) := by
      rw [packFields_eq_writeAt (by omega)]
      rfl
    have hread : readAt (packFields b off (granuleStates (g :: rest) rows)) off g.stateSize =
        old := by
      have hunpack : unpackFields (packFields b off (granuleStates (g :: rest) rows)) off
          ((granuleStates (g :: rest) rows).map List.length) = granuleStates (g :: rest) rows :=
        unpackFields_packFields (by omega)
      rw [length_granuleStates] at hunpack
      exact (List.cons.inj hunpack).1
    have hupdate : encode g.stateSize (g.aggState.updateState (decode old) (decode (row g.aggIu))) =
        new := by
      rw [hnew, List.map_append]
      exact (g.state_append _ _).symm
    rw [updatePayload, hread, hupdate, hpacked,
      writeAt_append_prefix (by omega) (holdlen.trans hnewlen.symm),
      ← writeAt_writeAt_append (by omega), hnewlen, ← packFields_eq_writeAt (by
        rw [writeAt_length (by omega)]
        omega), ih (by
        rw [writeAt_length (by omega)]
        omega)]
    show _ = packFields (writeAt b off new) (off + new.length) _
    rw [hnewlen]
    rfl

variable {κ : Type} {A : KeyAccess κ} {L : KeyLayout A} {agg : Aggregation} {key : Row → κ}

def keyRows (L : KeyLayout A) (key : Row → κ) (rows : List Row) (q : Bytes) : List Row :=
  rows.filter fun row => L.ident (key row) = q

/-- The state of a group consists of the states of the granules. -/
theorem groupState_eq (hsize : agg.payloadSize = agg.payloadOffset + granulesSize agg.granules)
    (q : Bytes) (rows : List Row) : groupState L agg key q rows =
      packFields (List.replicate agg.payloadSize 0) agg.payloadOffset
        (granuleStates agg.granules (keyRows L key rows q)) := by
  have hlen : agg.payloadOffset + granulesSize agg.granules ≤
      (List.replicate agg.payloadSize (0 : UInt8)).length := by
    rw [List.length_replicate, hsize]
  unfold groupState keyRows
  induction rows.filter (fun row => L.ident (key row) = q) using List.reverseRecOn with
  | nil =>
    have hzero : (granuleStates agg.granules []).flatten =
        List.replicate (granulesSize agg.granules) 0 := by
      rw [List.eq_replicate_iff]
      refine ⟨length_flatten_granuleStates _ _, fun b hb => ?_⟩
      obtain ⟨state, hstate, hmem⟩ := List.mem_flatten.mp hb
      obtain ⟨g, _, rfl⟩ := List.mem_map.mp hstate
      exact List.eq_of_mem_replicate hmem
    rw [packFields_eq_writeAt (by rw [length_flatten_granuleStates]; exact hlen), hzero]
    show List.replicate agg.payloadSize 0 = _
    rw [writeAt, List.take_replicate, List.drop_replicate, List.length_replicate,
      List.replicate_append_replicate, List.replicate_append_replicate]
    congr 1
    omega
  | append_singleton rows row ih =>
    rw [List.foldl_append, ih]
    exact updatePayload_packFields row agg.granules rows hlen

theorem length_groupState (hsize : agg.payloadSize = agg.payloadOffset + granulesSize agg.granules)
    (q : Bytes) (rows : List Row) : (groupState L agg key q rows).length = agg.payloadSize := by
  have hlen : agg.payloadOffset + granulesSize agg.granules ≤
      (List.replicate agg.payloadSize (0 : UInt8)).length := by
    rw [List.length_replicate, hsize]
  rw [groupState_eq hsize, packFields_eq_writeAt (by rw [length_flatten_granuleStates]; exact hlen),
    writeAt_length (by rw [length_flatten_granuleStates]; exact hlen), List.length_replicate]

theorem unpackFields_groupState
    (hsize : agg.payloadSize = agg.payloadOffset + granulesSize agg.granules) (q : Bytes)
    (rows : List Row) :
    unpackFields (groupState L agg key q rows) agg.payloadOffset
        (agg.granules.map Granule.stateSize) =
      granuleStates agg.granules (keyRows L key rows q) := by
  rw [groupState_eq hsize, ← length_granuleStates agg.granules (keyRows L key rows q)]
  apply unpackFields_packFields
  rw [length_flatten_granuleStates, List.length_replicate, hsize]

/-- The states of more rows in the place of those of some rows. -/
theorem packFields_groupState
    (hsize : agg.payloadSize = agg.payloadOffset + granulesSize agg.granules) (q : Bytes)
    (rows more : List Row) :
    packFields (groupState L agg key q rows) agg.payloadOffset
        (granuleStates agg.granules (keyRows L key (rows ++ more) q)) =
      groupState L agg key q (rows ++ more) := by
  have hflat := length_flatten_granuleStates agg.granules
  have hlen := List.length_replicate (n := agg.payloadSize) (a := (0 : UInt8))
  rw [packFields_eq_writeAt (by rw [length_groupState hsize, hflat, hsize]), groupState_eq hsize,
    packFields_eq_writeAt (by rw [hlen, hflat, hsize]),
    writeAt_writeAt_same (by omega) (by rw [hflat, hflat]), groupState_eq hsize,
    packFields_eq_writeAt (by rw [hlen, hflat, hsize])]

end States

section Pairs

variable {κ : Type} {A : KeyAccess κ} {L : KeyLayout A} {floatAdd : ℕ → ℕ → ℕ → ℕ}
  {payloadSize : ℕ}

/-- One granule of all pairs, in `mergeGranules`. -/
def mergeGranule (floatAdd : ℕ → ℕ → ℕ → ℕ) (pairs : List MergePair) (generation : ℕ)
    (table : SharedHashTableState) (granule : Granule × ℕ) : Except Fault SharedHashTableState := do
  let primitive ← mergePrimitive floatAdd granule.1
  pairs.foldlM (mergePair generation primitive.1 primitive.2 granule.2) table

theorem mergeGranule_eq {floatAdd : ℕ → ℕ → ℕ → ℕ} {g : Granule} {primitive : ℕ × (ℕ → ℕ → ℕ)}
    (h : mergePrimitive floatAdd g = .ok primitive) (pairs : List MergePair) (generation : ℕ)
    (table : SharedHashTableState) (off : ℕ) :
    mergeGranule floatAdd pairs generation table (g, off) =
      pairs.foldlM (mergePair generation primitive.1 primitive.2 off) table := by
  unfold mergeGranule
  rw [h]
  rfl

/-- The pair can be added to its slot in the merge table. -/
def MergePair.Current (L : KeyLayout A) (m : PayloadMap) (generation : ℕ) (pair : MergePair) :
    Prop :=
  pair.generation = generation ∧ m.live pair.slot = some (L.slotIdent pair.source)

def pairKeys (L : KeyLayout A) (pairs : List MergePair) : List Bytes :=
  pairs.map fun pair => L.slotIdent pair.source

/-- The map in which the payloads of some keys have changed. -/
def rewritten (m : PayloadMap) (keys : List Bytes) (f : Bytes → Bytes) : PayloadMap :=
  { m with payload := fun q => if q ∈ keys then f q else m.payload q }

/-- One granule of all pairs. -/
theorem mergePairs_spec {g : Granule} {primitive : ℕ × (ℕ → ℕ → ℕ)}
    (hprimitive : mergePrimitive floatAdd g = .ok primitive) (xs ys : Bytes → List Bytes)
    {off generation : ℕ} (hoff : off + g.stateSize ≤ payloadSize) {pairs : List MergePair}
    {table : SharedHashTableState} {m : PayloadMap} (hrep : Represents L payloadSize table m)
    (hnodup : (pairKeys L pairs).Nodup) (hcurrent : ∀ pair ∈ pairs, pair.Current L m generation)
    (hlength : ∀ pair ∈ pairs, pair.source.length = L.keySize + payloadSize)
    (hsource : ∀ pair ∈ pairs, readAt pair.source (L.keySize + off) g.stateSize =
      g.state (ys (L.slotIdent pair.source)))
    (hdest : ∀ q ∈ pairKeys L pairs, readAt (m.payload q) off g.stateSize = g.state (xs q))
    (hmerges : ∀ q ∈ pairKeys L pairs, Merges floatAdd g (xs q) (ys q)) :
    ∃ t, pairs.foldlM (mergePair generation primitive.1 primitive.2 (L.keySize + off)) table =
        .ok t ∧ t.capacity = table.capacity ∧
      Represents L payloadSize t (rewritten m (pairKeys L pairs) fun q =>
        writeAt (m.payload q) off (g.state (xs q ++ ys q))) := by
  induction pairs generalizing table m with
  | nil => exact ⟨table, rfl, rfl, by simpa [rewritten, pairKeys] using hrep⟩
  | cons pair rest ih =>
    set q := L.slotIdent pair.source with hq
    have hkeys : pairKeys L (pair :: rest) = q :: pairKeys L rest := rfl
    rw [hkeys, List.nodup_cons] at hnodup
    rw [hkeys] at hdest hmerges
    obtain ⟨hgeneration, hlive⟩ := hcurrent pair List.mem_cons_self
    obtain ⟨d, hd, hident⟩ := hrep.live_stored _ _ hlive
    have hdata : table.data pair.slot = d := hd.data_eq
    have hdlen : d.length = L.keySize + payloadSize := by
      rw [← hdata, hrep.inv.slot_length _ hd.1, hrep.slotSize_eq]
    have hpayload := hrep.payload_eq d ⟨_, hd⟩
    rw [hident] at hpayload
    have hstate : readAt (table.data pair.slot) (L.keySize + off) g.stateSize =
        g.state (xs q) := by
      rw [← hdest q List.mem_cons_self, ← hpayload, readAt_readAt _ hoff, hdata]
    have hlen := hlength pair List.mem_cons_self
    obtain ⟨primitive', hprimitive', hmerge⟩ := hmerges q List.mem_cons_self
    obtain rfl := Except.ok.inj (hprimitive.symm.trans hprimitive')
    have hstep := hmerge table generation (L.keySize + off) pair.slot pair.source
      (by rw [hdata, hdlen]; omega) (by omega) hstate (hsource pair List.mem_cons_self)
    have hpair : (⟨pair.source, generation, pair.slot⟩ : MergePair) = pair := by
      rw [← hgeneration]
    rw [hpair] at hstep
    have hfit : off + (g.state (xs q ++ ys q)).length ≤ payloadSize := by
      rwa [g.state_length]
    obtain ⟨u, hcopy, hrepu⟩ := hrep.write hlive hfit
    have hu : u = table.setData pair.slot
        (writeAt (table.data pair.slot) (L.keySize + off) (g.state (xs q ++ ys q))) := by
      rw [copyTo, if_pos (by rw [hdata, hdlen]; omega)] at hcopy
      exact (Except.ok.inj hcopy).symm
    have hsame : ∀ r ∈ pairKeys L rest, (m.write q off (g.state (xs q ++ ys q))).payload r =
        m.payload r := by
      intro r hr
      apply Function.update_of_ne
      rintro rfl
      exact hnodup.1 hr
    obtain ⟨t, hfold, hcapacity, ht⟩ := ih hrepu hnodup.2
      (fun p hp => hcurrent p (List.mem_cons_of_mem _ hp))
      (fun p hp => hlength p (List.mem_cons_of_mem _ hp))
      (fun p hp => hsource p (List.mem_cons_of_mem _ hp))
      (fun r hr => by rw [hsame r hr]; exact hdest r (List.mem_cons_of_mem _ hr))
      (fun r hr => hmerges r (List.mem_cons_of_mem _ hr))
    refine ⟨t, ?_, hcapacity.trans (by rw [hu]; rfl), ?_⟩
    · rw [List.foldlM_cons, hstep, ← hu]
      exact hfold
    · have hmap : rewritten (m.write q off (g.state (xs q ++ ys q))) (pairKeys L rest)
          (fun r => writeAt ((m.write q off (g.state (xs q ++ ys q))).payload r) off
            (g.state (xs r ++ ys r))) =
          rewritten m (pairKeys L (pair :: rest)) fun r =>
            writeAt (m.payload r) off (g.state (xs r ++ ys r)) := by
        unfold rewritten
        rw [hkeys]
        congr 1
        funext r
        by_cases hr : r ∈ pairKeys L rest
        · rw [if_pos hr, if_pos (List.mem_cons_of_mem _ hr)]
          exact congrArg (fun p => writeAt p off _) (hsame r hr)
        · rw [if_neg hr]
          by_cases hrq : r = q
          · rw [hrq, if_pos List.mem_cons_self]
            exact Function.update_self ..
          · rw [if_neg (by simp [hr, hrq])]
            exact Function.update_of_ne hrq ..
      rwa [hmap] at ht

/-- All granules of all pairs, if every pair can still be added to. -/
theorem mergeAll_spec (xs ys : Bytes → List Row) {generation off : ℕ} {granules : List Granule}
    (hoff : off + granulesSize granules ≤ payloadSize) {pairs : List MergePair}
    {table : SharedHashTableState} {m : PayloadMap} (hrep : Represents L payloadSize table m)
    (hnodup : (pairKeys L pairs).Nodup) (hcurrent : ∀ pair ∈ pairs, pair.Current L m generation)
    (hlength : ∀ pair ∈ pairs, pair.source.length = L.keySize + payloadSize)
    (hpayload : ∀ q ∈ pairKeys L pairs, (m.payload q).length = payloadSize)
    (hsource : ∀ pair ∈ pairs, unpackFields pair.source (L.keySize + off)
      (granules.map Granule.stateSize) = granuleStates granules (ys (L.slotIdent pair.source)))
    (hdest : ∀ q ∈ pairKeys L pairs, unpackFields (m.payload q) off
      (granules.map Granule.stateSize) = granuleStates granules (xs q))
    (hprimitive : ∀ g ∈ granules, ∃ primitive, mergePrimitive floatAdd g = .ok primitive)
    (hmerges : ∀ g ∈ granules, ∀ q ∈ pairKeys L pairs, Merges floatAdd g
      ((xs q).map fun row => row g.aggIu) ((ys q).map fun row => row g.aggIu)) :
    ∃ t, (placed granules (L.keySize + off)).foldlM (mergeGranule floatAdd pairs generation)
        table = .ok t ∧ t.capacity = table.capacity ∧
      Represents L payloadSize t (rewritten m (pairKeys L pairs) fun q =>
        packFields (m.payload q) off (granuleStates granules (xs q ++ ys q))) := by
  induction granules generalizing off table m with
  | nil =>
    refine ⟨table, rfl, rfl, ?_⟩
    have hmap : (rewritten m (pairKeys L pairs) fun q =>
        packFields (m.payload q) off (granuleStates [] (xs q ++ ys q))) = m := by
      unfold rewritten
      simp only [granuleStates, List.map_nil, packFields, ite_self]
    rwa [hmap]
  | cons g rest ih =>
    rw [granulesSize_cons] at hoff
    obtain ⟨primitive, hprim⟩ := hprimitive g List.mem_cons_self
    set values : (Bytes → List Row) → Bytes → List Bytes :=
      fun rows q => (rows q).map fun row => row g.aggIu with hvalues
    have hfst : off + g.stateSize ≤ payloadSize := by omega
    have hnext : off + g.stateSize + granulesSize rest ≤ payloadSize := by omega
    obtain ⟨u, hfold, hucapacity, hu⟩ := mergePairs_spec hprim (values xs) (values ys) hfst hrep
      hnodup hcurrent hlength
      (fun pair hp => (List.cons.inj (hsource pair hp)).1)
      (fun q hq => (List.cons.inj (hdest q hq)).1)
      (fun q hq => hmerges g List.mem_cons_self q hq)
    set m' := rewritten m (pairKeys L pairs) fun q =>
      writeAt (m.payload q) off (g.state (values xs q ++ values ys q)) with hm'
    have hm'q : ∀ q ∈ pairKeys L pairs, m'.payload q =
        writeAt (m.payload q) off (g.state (values xs q ++ values ys q)) :=
      fun q hq => if_pos hq
    have hfit : ∀ q ∈ pairKeys L pairs,
        off + (g.state (values xs q ++ values ys q)).length ≤ (m.payload q).length := by
      intro q hq
      rw [g.state_length, hpayload q hq]
      omega
    obtain ⟨t, hrest, hcapacity, ht⟩ := ih hnext hu hcurrent
      (fun q hq => by rw [hm'q q hq, writeAt_length (hfit q hq), hpayload q hq])
      (fun pair hp => by
        rw [← Nat.add_assoc]
        exact (List.cons.inj (hsource pair hp)).2)
      (fun q hq => by
        rw [hm'q q hq, unpackFields_writeAt _ (by have := hfit q hq; omega)
          (by rw [g.state_length])]
        exact (List.cons.inj (hdest q hq)).2)
      (fun h hh => hprimitive h (List.mem_cons_of_mem _ hh))
      (fun h hh => hmerges h (List.mem_cons_of_mem _ hh))
    refine ⟨t, ?_, hcapacity.trans hucapacity, ?_⟩
    · rw [placed, List.foldlM_cons, mergeGranule_eq hprim, hfold, Nat.add_assoc]
      exact hrest
    · have hmap : rewritten m' (pairKeys L pairs) (fun q =>
          packFields (m'.payload q) (off + g.stateSize) (granuleStates rest (xs q ++ ys q))) =
          rewritten m (pairKeys L pairs) fun q =>
            packFields (m.payload q) off (granuleStates (g :: rest) (xs q ++ ys q)) := by
        unfold rewritten
        congr 1
        funext q
        by_cases hq : q ∈ pairKeys L pairs
        · rw [if_pos hq, if_pos hq]
          have hvals : values xs q ++ values ys q = (xs q ++ ys q).map fun row => row g.aggIu :=
            List.map_append.symm
          have hstep : packFields (m.payload q) off (granuleStates (g :: rest) (xs q ++ ys q)) =
              packFields (writeAt (m.payload q) off (g.state (values xs q ++ values ys q)))
                (off + (g.state (values xs q ++ values ys q)).length)
                (granuleStates rest (xs q ++ ys q)) := by
            rw [hvals]
            rfl
          show packFields (m'.payload q) _ _ = packFields (m.payload q) _ _
          rw [hstep, g.state_length, hm'q q hq]
        · rw [if_neg hq, if_neg hq]
          exact if_neg hq
      rwa [hmap] at ht

/-- A pair that points to freed storage ends the merge. -/
theorem mergeAll_stale {generation off : ℕ} {g : Granule} {rest : List Granule}
    (hoff : off + g.stateSize ≤ payloadSize) (xs ys : Bytes → List Bytes) {pairs : List MergePair}
    {table : SharedHashTableState} {m : PayloadMap} (hrep : Represents L payloadSize table m)
    (hnodup : (pairKeys L pairs).Nodup)
    (hcurrent : ∀ pair ∈ pairs, pair.generation = generation → pair.Current L m generation)
    (hlength : ∀ pair ∈ pairs, pair.source.length = L.keySize + payloadSize)
    (hsource : ∀ pair ∈ pairs, readAt pair.source (L.keySize + off) g.stateSize =
      g.state (ys (L.slotIdent pair.source)))
    (hdest : ∀ q ∈ pairKeys L pairs, readAt (m.payload q) off g.stateSize = g.state (xs q))
    (hmerges : ∀ q ∈ pairKeys L pairs, Merges floatAdd g (xs q) (ys q))
    (hstale : ∃ pair ∈ pairs, pair.generation ≠ generation) :
    (placed (g :: rest) (L.keySize + off)).foldlM (mergeGranule floatAdd pairs generation)
      table = .error .useAfterFree := by
  have hsplit : ∃ now later stale, pairs = now ++ stale :: later ∧ stale.generation ≠ generation ∧
      ∀ pair ∈ now, pair.generation = generation := by
    clear hnodup hcurrent hlength hsource hdest hmerges
    induction pairs with
    | nil => obtain ⟨_, hmem, _⟩ := hstale; cases hmem
    | cons pair tail ih =>
      by_cases hpair : pair.generation = generation
      · have htail : ∃ p ∈ tail, p.generation ≠ generation := by
          obtain ⟨p, hp, hne⟩ := hstale
          rcases List.mem_cons.mp hp with rfl | hp
          · exact absurd hpair hne
          · exact ⟨p, hp, hne⟩
        obtain ⟨now, later, stale, rfl, hne, hnow⟩ := ih htail
        refine ⟨pair :: now, later, stale, rfl, hne, fun p hp => ?_⟩
        rcases List.mem_cons.mp hp with rfl | hp
        · exact hpair
        · exact hnow p hp
      · exact ⟨[], tail, pair, rfl, hpair, fun p hp => by cases hp⟩
  obtain ⟨now, later, stale, rfl, hne, hnow⟩ := hsplit
  obtain ⟨primitive, hprim, _⟩ := hmerges (L.slotIdent stale.source) (by simp [pairKeys])
  have hkeys : ∀ q ∈ pairKeys L now, q ∈ pairKeys L (now ++ stale :: later) := by
    intro q hq
    rw [pairKeys, List.map_append]
    exact List.mem_append_left _ hq
  have hmem : ∀ pair ∈ now, pair ∈ now ++ stale :: later :=
    fun pair hp => List.mem_append_left _ hp
  obtain ⟨t, hfold, _⟩ := mergePairs_spec hprim xs ys hoff hrep
    (by
      rw [pairKeys, List.map_append] at hnodup
      exact (List.nodup_append.mp hnodup).1)
    (fun pair hp => hcurrent pair (hmem pair hp) (hnow pair hp))
    (fun pair hp => hlength pair (hmem pair hp)) (fun pair hp => hsource pair (hmem pair hp))
    (fun q hq => hdest q (hkeys q hq)) (fun q hq => hmerges q (hkeys q hq))
  have hstop : mergePair generation primitive.1 primitive.2 (L.keySize + off) t stale =
      .error .useAfterFree := by
    rw [mergePair, if_neg hne]
  rw [placed, List.foldlM_cons, mergeGranule_eq hprim, List.foldlM_append, hfold]
  simp only [bind, Except.bind, List.foldlM_cons, hstop]

end Pairs

end InkFuse.Algebra
