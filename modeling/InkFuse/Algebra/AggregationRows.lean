import InkFuse.Algebra.Aggregation
import InkFuse.Bytes.Packing
import InkFuse.Runtime.TableVariants

/-!
What the aggregating pipeline does to its hash table. A row that reaches the slot of its
key updates the granules of this slot and of no other one, so that the table represents
the map from key identities to the states of their rows. A slot that is too short for its
granules ends the run at the first row.
-/

namespace InkFuse.Algebra

open Bytes Codegen Probing InkFuse.Runtime SharedHashTableState

section Granules

variable {κ : Type} {A : KeyAccess κ} {L : KeyLayout A} {readKey : Bytes → κ} {row : Row}

theorem execSubops_cons (op : AggSubop) (ops : List AggSubop) (f : AggFrame) :
    execSubops A readKey (op :: ops) f row =
      (op.exec A readKey row f).bind fun g => execSubops A readKey ops g row := by
  unfold execSubops
  rw [List.foldlM_cons]
  rfl

theorem execSubops_append (ops ops' : List AggSubop) (f : AggFrame) :
    execSubops A readKey (ops ++ ops') f row =
      (execSubops A readKey ops f row).bind fun g => execSubops A readKey ops' g row := by
  unfold execSubops
  rw [List.foldlM_append]
  rfl

/-- The state of a group after one more row; granules lie one behind the other. -/
def updatePayload (row : Row) : List Granule → ℕ → Bytes → Bytes
  | [], _, payload => payload
  | g :: rest, off, payload =>
    updatePayload row rest (off + g.stateSize)
      (writeAt payload off (encode g.stateSize
        (g.aggState.updateState (decode (readAt payload off g.stateSize))
          (decode (row g.aggIu)))))

def granulesSize (granules : List Granule) : ℕ := (granules.map Granule.stateSize).sum

@[simp] theorem granulesSize_cons (g : Granule) (rest : List Granule) :
    granulesSize (g :: rest) = g.stateSize + granulesSize rest := by
  simp [granulesSize]

def withPayload (m : PayloadMap) (q payload : Bytes) : PayloadMap :=
  { m with payload := Function.update m.payload q payload }

/-- Aggregators behind a lookup update the payload of the key that was looked up. -/
theorem exec_aggregators (readKey : Bytes → κ) (row : Row) {payloadSize : ℕ}
    (hfit : L.keySize + payloadSize < 2 ^ 16)
    (granules : List Granule) (off : ℕ) (hoff : off + granulesSize granules ≤ payloadSize)
    (f : AggFrame) {m : PayloadMap} {q : Bytes} (hrep : Represents L payloadSize f.table m)
    (hlive : m.live f.pointer = some q) :
    ∃ t, execSubops A readKey (Aggregation.aggregators granules (L.keySize + off)) f row =
        .ok { f with table := t } ∧
      Represents L payloadSize t
        (withPayload m q (updatePayload row granules off (m.payload q))) := by
  induction granules generalizing off f m with
  | nil =>
    refine ⟨f.table, rfl, ?_⟩
    unfold withPayload updatePayload
    rwa [Function.update_eq_self]
  | cons g rest ih =>
    rw [granulesSize_cons] at hoff
    have hpacked : packingOffset (L.keySize + off) = L.keySize + off :=
      Nat.mod_eq_of_lt (by omega)
    obtain ⟨d, hd, hident⟩ := hrep.live_stored _ _ hlive
    have hstate : readAt (f.table.data f.pointer) (L.keySize + off) g.stateSize =
        readAt (m.payload q) off g.stateSize := by
      have hpayload := hrep.payload_eq d ⟨_, hd⟩
      rw [hident] at hpayload
      rw [← hpayload, readAt_readAt _ (by omega), hd.data_eq]
    set bits := g.aggState.updateState (decode (readAt (m.payload q) off g.stateSize))
      (decode (row g.aggIu)) with hbits
    have hinside : off + (encode g.stateSize bits).length ≤ payloadSize := by
      rw [encode_length]
      omega
    obtain ⟨t, hcopy, ht⟩ := hrep.write hlive hinside
    have hexec : (AggSubop.aggregator g.aggState g.aggIu (L.keySize + off)).exec A readKey row f =
        .ok { f with table := t } := by
      have hread : readAt (f.table.data f.pointer) (L.keySize + off) g.aggState.getStateSize =
          readAt (m.payload q) off g.stateSize := hstate
      have hwrite : f.table.copyTo f.pointer (L.keySize + off)
          (encode g.aggState.getStateSize bits) = .ok t := hcopy
      simp only [AggSubop.exec, hpacked, hread, ← hbits, hwrite, bind, Except.bind]
    obtain ⟨u, hu, hrepu⟩ := ih (off + g.stateSize) (by omega) { f with table := t } ht hlive
    refine ⟨u, ?_, ?_⟩
    · rw [Aggregation.aggregators, execSubops_cons, hexec, Nat.add_assoc]
      exact hu
    · have hsame : (m.write q off (encode g.stateSize bits)).payload q =
          writeAt (m.payload q) off (encode g.stateSize bits) := Function.update_self ..
      rw [hsame] at hrepu
      have hmap : withPayload (m.write q off (encode g.stateSize bits)) q
          (updatePayload row rest (off + g.stateSize)
            (writeAt (m.payload q) off (encode g.stateSize bits))) =
          withPayload m q (updatePayload row (g :: rest) off (m.payload q)) := by
        unfold withPayload PayloadMap.write
        rw [Function.update_idem]
        rfl
      rwa [hmap] at hrepu

/-- Granules that do not fit their slot: one of the updates leaves it. -/
theorem exec_aggregators_overrun {granules : List Granule} (hne : granules ≠ []) {off : ℕ}
    {f : AggFrame} (hsmall : off < 2 ^ 16) (hslot : (f.table.data f.pointer).length < 2 ^ 16)
    (hlong : (f.table.data f.pointer).length < off + granulesSize granules) :
    execSubops A readKey (Aggregation.aggregators granules off) f row = .error .outOfBounds := by
  induction granules generalizing off f with
  | nil => exact absurd rfl hne
  | cons g rest ih =>
    rw [granulesSize_cons] at hlong
    have hpacked : packingOffset off = off := Nat.mod_eq_of_lt hsmall
    rw [Aggregation.aggregators, execSubops_cons]
    simp only [AggSubop.exec, hpacked, copyTo, encode_length]
    by_cases hroom : off + g.aggState.getStateSize ≤ (f.table.data f.pointer).length
    · rw [if_pos hroom]
      have hnext : off + g.stateSize ≤ (f.table.data f.pointer).length := hroom
      have hlen : ∀ bits, (writeAt (f.table.data f.pointer) off
          (encode g.aggState.getStateSize bits)).length = (f.table.data f.pointer).length := by
        intro bits
        apply writeAt_length
        rwa [encode_length]
      apply ih
      · rintro rfl
        simp [granulesSize] at hlong
        omega
      · omega
      · simpa [setData, hlen] using hslot
      · simp only [setData, Function.update_self, hlen]
        omega
    · rw [if_neg hroom]
      rfl

end Granules

/-- A plan, the keys of its rows, and the table variant that holds them. Packing and lookup
of a row are one call of `lookupOrInsert` with its key. -/
structure KeyedBy {κ : Type} {A : KeyAccess κ} (L : KeyLayout A) (readKey : Bytes → κ)
    (agg : Aggregation) (scratchSize : ℕ) (key : Row → κ) (Typed : Row → Prop) : Prop where
  keySize_eq : L.keySize = agg.keySize
  valid : ∀ row, Typed row → L.ValidKey (key row)
  lookup : ∀ f row, Typed row → f.scratch.length = scratchSize →
    ∃ scratch, scratch.length = scratchSize ∧
      execSubops A readKey (agg.packKey ++ [agg.lookupKey]) f row =
        (f.table.lookupOrInsert A (key row)).bind fun r => .ok ⟨r.table, scratch, r.slot⟩

section Rows

variable {κ : Type} {A : KeyAccess κ} {L : KeyLayout A} {readKey : Bytes → κ}
  {agg : Aggregation} {scratchSize : ℕ} {key : Row → κ} {Typed : Row → Prop}

theorem subops_eq : agg.subops = (agg.packKey ++ [agg.lookupKey]) ++ agg.updateGranules := by
  simp [Aggregation.subops]

def groupState (L : KeyLayout A) (agg : Aggregation) (key : Row → κ) (q : Bytes)
    (rows : List Row) : Bytes :=
  (rows.filter fun row => L.ident (key row) = q).foldl
    (fun payload row => updatePayload row agg.granules agg.payloadOffset payload)
    (List.replicate agg.payloadSize 0)

def HoldsGroups (L : KeyLayout A) (agg : Aggregation) (key : Row → κ) (rows : List Row)
    (t : SharedHashTableState) : Prop :=
  ∃ m, Represents L agg.payloadSize t m ∧
    (∀ q, q ∈ m.keys ↔ ∃ row ∈ rows, L.ident (key row) = q) ∧
    ∀ q, m.payload q = groupState L agg key q rows

theorem groupState_append (q : Bytes) (rows : List Row) (row : Row) :
    groupState L agg key q (rows ++ [row]) =
      if L.ident (key row) = q then
        updatePayload row agg.granules agg.payloadOffset (groupState L agg key q rows)
      else groupState L agg key q rows := by
  unfold groupState
  rw [List.filter_append, List.foldl_append]
  by_cases hq : L.ident (key row) = q
  · simp [hq]
  · simp [hq]

theorem execRow_spec (hkeyed : KeyedBy L readKey agg scratchSize key Typed)
    (hfit : agg.keySize + agg.payloadSize < 2 ^ 16)
    (hsize : agg.payloadSize = agg.payloadOffset + granulesSize agg.granules)
    {rows : List Row} {row : Row} (hrow : Typed row) {f : AggFrame}
    (hscratch : f.scratch.length = scratchSize) (hf : HoldsGroups L agg key rows f.table) :
    ∃ g, execSubops A readKey agg.subops f row = .ok g ∧ g.scratch.length = scratchSize ∧
      HoldsGroups L agg key (rows ++ [row]) g.table := by
  obtain ⟨m, hrep, hkeys, hpayload⟩ := hf
  obtain ⟨scratch, hlen, hlookup⟩ := hkeyed.lookup f row hrow hscratch
  have hvalid := hkeyed.valid row hrow
  obtain ⟨r, hr, hspec⟩ := lookupOrInsert_spec hrep.inv hvalid
  have hins := hrep.inserted hvalid hspec
  have hlive : (m.inserted (L.ident (key row)) r.slot r.grown).live r.slot =
      some (L.ident (key row)) := Function.update_self ..
  have hfit' : L.keySize + agg.payloadSize < 2 ^ 16 := by
    rw [hkeyed.keySize_eq]
    exact hfit
  obtain ⟨t, ht, hrept⟩ := exec_aggregators readKey row hfit' agg.granules agg.payloadOffset
    (le_of_eq hsize.symm) ⟨r.table, scratch, r.slot⟩ hins hlive
  refine ⟨⟨t, scratch, r.slot⟩, ?_, hlen, _, hrept, fun q => ?_, fun q => ?_⟩
  · rw [subops_eq, execSubops_append, hlookup, hr]
    rw [hkeyed.keySize_eq] at ht
    exact ht
  · show q ∈ Insert.insert _ m.keys ↔ _
    rw [Finset.mem_insert, hkeys]
    constructor
    · rintro (rfl | ⟨row', hmem, rfl⟩)
      · exact ⟨row, by simp, rfl⟩
      · exact ⟨row', by simp [hmem], rfl⟩
    · intro h
      obtain ⟨row', hmem, hq⟩ := h
      rcases List.mem_append.mp hmem with hold | hnew
      · exact Or.inr ⟨row', hold, hq⟩
      · exact Or.inl (by rw [← hq, List.mem_singleton.mp hnew])
  · show Function.update m.payload _ (updatePayload row _ _ (m.payload _)) q = _
    rw [groupState_append]
    by_cases hq : L.ident (key row) = q
    · rw [if_pos hq, ← hq, Function.update_self, hpayload]
    · rw [if_neg hq, Function.update_of_ne (Ne.symm hq), hpayload]

/-- The pipeline leaves a table that holds the groups of its rows. -/
theorem execRows_spec (hkeyed : KeyedBy L readKey agg scratchSize key Typed)
    (hfit : agg.keySize + agg.payloadSize < 2 ^ 16)
    (hsize : agg.payloadSize = agg.payloadOffset + granulesSize agg.granules)
    {f : AggFrame} (hscratch : f.scratch.length = scratchSize)
    (hf : HoldsGroups L agg key [] f.table) (rows : List Row) (hrows : ∀ row ∈ rows, Typed row) :
    ∃ g, rows.foldlM (execSubops A readKey agg.subops) f = .ok g ∧
      g.scratch.length = scratchSize ∧ HoldsGroups L agg key rows g.table := by
  induction rows using List.reverseRecOn with
  | nil => exact ⟨f, rfl, hscratch, hf⟩
  | append_singleton rows row ih =>
    obtain ⟨g, hg, hglen, hgroups⟩ := ih fun r hr => hrows r (List.mem_append_left _ hr)
    obtain ⟨h, hexec, hhlen, hholds⟩ := execRow_spec hkeyed hfit hsize
      (hrows row (by simp)) hglen hgroups
    refine ⟨h, ?_, hhlen, hholds⟩
    rw [List.foldlM_append, hg]
    simp only [bind, Except.bind, List.foldlM_cons, hexec, List.foldlM_nil]
    rfl

/-- A row of a new table whose slots are too short for key and granules fails. -/
theorem execRow_overrun (hkeyed : KeyedBy L readKey agg scratchSize key Typed)
    (hnarrow : 2 ^ 16 ≤ agg.keySize + agg.payloadSize)
    (hsize : agg.payloadSize = agg.payloadOffset + granulesSize agg.granules)
    (hstart : agg.keySize + agg.payloadOffset < 2 ^ 16) (hne : agg.granules ≠ [])
    {t : SharedHashTableState} (hcreate : create (agg.keySize + agg.payloadSize) 8 = .ok t)
    {row : Row} (hrow : Typed row) {scratch : Bytes} (hscratch : scratch.length = scratchSize) :
    execSubops A readKey agg.subops ⟨t, scratch, 0⟩ row = .error .outOfBounds := by
  obtain ⟨scratch', hlen, hlookup⟩ := hkeyed.lookup ⟨t, scratch, 0⟩ row hrow hscratch
  have hvalid := hkeyed.valid row hrow
  set slotSize := (agg.keySize + agg.payloadSize) % 2 ^ 16 with hslotSize
  have hlt : slotSize < 2 ^ 16 := Nat.mod_lt _ (by norm_num)
  rw [subops_eq, execSubops_append, hlookup]
  by_cases hkey : slotSize < agg.keySize
  · have hover : t.lookupOrInsert A (key row) = .error .outOfBounds := by
      unfold create at hcreate
      rw [if_neg (by decide)] at hcreate
      obtain rfl := Except.ok.inj hcreate
      apply lookupOrInsert_overrun
      · intro i
        rfl
      · norm_num
      · intro i
        rw [L.store_length _ hvalid, hkeyed.keySize_eq, List.length_replicate]
        exact hkey
    rw [hover]
    rfl
  · have hsame : create slotSize 8 = .ok t := by
      rw [← hcreate]
      simp only [create, hslotSize, Nat.mod_mod]
    obtain ⟨t', ht', hinv, _, htsize, _⟩ := create_wellFormed (L := L) hkeyed.keySize_eq
      (not_lt.mp hkey) hlt (show Nat.isPowerOfTwo 8 from ⟨3, rfl⟩) (by decide)
    obtain rfl := Except.ok.inj (hsame.symm.trans ht')
    obtain ⟨r, hr, hspec⟩ := lookupOrInsert_spec hinv hvalid
    obtain ⟨d, hd, _⟩ := hspec.stored
    have hdlen : (r.table.data r.slot).length = slotSize := by
      rw [hspec.inv.slot_length _ hd.1, hspec.slotSize_eq, htsize]
    rw [hr]
    apply exec_aggregators_overrun hne hstart
    · exact hdlen ▸ hlt
    · show (r.table.data r.slot).length < _
      rw [hdlen]
      omega

end Rows

end InkFuse.Algebra
