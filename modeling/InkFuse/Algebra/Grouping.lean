import InkFuse.Algebra.AggregationRows

/-!
Grouping by value. Two rows belong to one group when they agree on the value of every
group-by column, and a string is worth its characters. A single key is compared like this.
Several keys are packed, and a packed string is its pointer: rows with one value in two
places end up in two groups.
-/

namespace InkFuse.Algebra

open Bytes Codegen InkFuse.Runtime SharedHashTableState

section Values

def scalarType : IRType → Bool
  | .signedInt size | .unsignedInt size => size == 1 || size == 2 || size == 4 || size == 8
  | .float size => size == 4 || size == 8
  | .bool | .char | .string | .date => true
  | .void | .byteArray _ | .pointer _ => false

/-- The types to group by. Floating-point keys are left out: equal numbers can have
different representations. -/
def groupType : IRType → Bool
  | .float _ => false
  | type => scalarType type

inductive ColumnValue
  | number (bits : ℕ)
  | characters (text : Bytes)
  deriving DecidableEq

/-- `text` gives the characters that a string pointer leads to. -/
def columnValue (text : UInt64 → Bytes) (row : Row) (iu : IU) : ColumnValue :=
  if iu.type = .string then .characters (text (Aggregation.readPointer (row iu)))
  else .number (decode (row iu))

def groupValues (text : UInt64 → Bytes) (groupBy : List IU) (row : Row) : List ColumnValue :=
  groupBy.map (columnValue text row)

/-- The columns have the widths of their types, and strings are not null. -/
structure RowTyped (groupBy : List IU) (row : Row) : Prop where
  width : ∀ iu ∈ groupBy, (row iu).length = iu.type.numBytes
  string : ∀ iu ∈ groupBy, iu.type = .string → Aggregation.readPointer (row iu) ≠ 0

theorem numBytes_pos {type : IRType} (h : groupType type) : 0 < type.numBytes := by
  unfold groupType scalarType at h
  unfold IRType.numBytes
  split at h <;> grind

theorem numBytes_le {type : IRType} (h : scalarType type) : type.numBytes ≤ 8 := by
  unfold scalarType at h
  unfold IRType.numBytes
  split at h <;> grind

theorem scalar_of_groupType {type : IRType} (h : groupType type) : scalarType type := by
  unfold groupType at h
  split at h
  · exact absurd h (by decide)
  · exact h

end Values

section Plan

variable {floatAdd : ℕ → ℕ → ℕ → ℕ} {groupBy : List IU}
  {description : List AggregateFunctions.Description} {agg : Aggregation}

theorem mem_insert {g h : Granule} {granules : List Granule} (hmem : h ∈ g.insert granules) :
    h = g ∨ h ∈ granules := by
  induction granules with
  | nil => exact Or.inl (List.mem_singleton.mp hmem)
  | cons k rest ih =>
    unfold Granule.insert at hmem
    split at hmem
    · exact List.mem_cons.mp hmem
    · split at hmem
      · rcases List.mem_cons.mp hmem with hk | hrest
        · exact Or.inr (hk ▸ List.mem_cons_self)
        · exact (ih hrest).imp_right (List.mem_cons_of_mem k)
      · exact (List.mem_cons.mp hmem).imp_right (List.mem_cons_of_mem k)

theorem mem_insert_states {iu : IU} {states : List AggState} {granules : List Granule}
    {h : Granule}
    (hmem : h ∈ states.foldl (fun granules state => Granule.insert ⟨iu, state⟩ granules) granules) :
    h.aggState ∈ states ∨ h ∈ granules := by
  induction states generalizing granules with
  | nil => exact Or.inr hmem
  | cons state states ih =>
    rcases ih hmem with hrest | hfst
    · exact Or.inl (List.mem_cons_of_mem _ hrest)
    · rcases mem_insert hfst with hnew | hold
      · exact Or.inl (hnew ▸ List.mem_cons_self)
      · exact Or.inr hold

theorem lookupSubops_size {func : AggregateFunctions.Description} (h : scalarType func.aggIu.type)
    {states : List AggState} (hstates : AggregateFunctions.lookupSubops floatAdd func = .ok states)
    {state : AggState} (hmem : state ∈ states) : state.getStateSize ≤ 8 := by
  have hwidth := numBytes_le h
  unfold AggregateFunctions.lookupSubops at hstates
  split at hstates
  · exact absurd hstates (by simp)
  · split at hstates
    · obtain rfl := Except.ok.inj hstates
      rw [List.mem_singleton.mp hmem]
      exact le_refl 8
    · obtain rfl := Except.ok.inj hstates
      rw [List.mem_singleton.mp hmem]
      exact hwidth
    · obtain rfl := Except.ok.inj hstates
      rcases List.mem_pair.mp hmem with hsum | hcount
      · rw [hsum]
        exact hwidth
      · rw [hcount]
        exact le_refl 8
    all_goals exact absurd hstates (by simp)

theorem toCompute_size (hscalar : ∀ func ∈ description, scalarType func.aggIu.type)
    {granules : List Granule} (h : Aggregation.toCompute floatAdd description = .ok granules) :
    ∀ g ∈ granules, g.stateSize ≤ 8 := by
  induction description using List.reverseRecOn generalizing granules with
  | nil =>
    obtain rfl := Except.ok.inj h
    simp
  | append_singleton description func ih =>
    unfold Aggregation.toCompute at h
    rw [List.foldlM_append] at h
    cases hbefores : Aggregation.toCompute floatAdd description with
    | error e =>
      unfold Aggregation.toCompute at hbefores
      rw [hbefores] at h
      exact absurd h (by simp [bind, Except.bind])
    | ok before =>
      have hbefore := ih (fun f hf => hscalar f (List.mem_append_left _ hf)) hbefores
      unfold Aggregation.toCompute at hbefores
      rw [hbefores] at h
      cases hstates : AggregateFunctions.lookupSubops floatAdd func with
      | error e => exact absurd h (by simp [bind, Except.bind, hstates])
      | ok states =>
        simp only [bind, Except.bind, List.foldlM_cons, hstates, List.foldlM_nil, pure,
          Except.pure, Except.ok.injEq] at h
        intro g hg
        rw [← h] at hg
        rcases mem_insert_states hg with hnew | hold
        · exact lookupSubops_size (hscalar func (by simp)) hstates hnew
        · exact hbefore g hold

theorem skipKey_lt {keySize step fuel offset start : ℕ}
    (hoff : offset < keySize + step ∨ offset = 0)
    (h : Aggregation.skipKey keySize step fuel offset = .ok start) :
    start < keySize + step ∨ start = 0 := by
  induction fuel generalizing offset with
  | zero => exact absurd h (by simp [Aggregation.skipKey])
  | succ fuel ih =>
    unfold Aggregation.skipKey at h
    split at h
    · exact ih (by omega) h
    · obtain rfl := Except.ok.inj h
      exact hoff

structure Planned (groupBy : List IU) (agg : Aggregation) : Prop where
  groupBy_eq : agg.groupBy = groupBy
  keySize_eq : agg.keySize = (groupBy.map fun key => key.type.numBytes).sum
  granules_ne : agg.granules ≠ []
  payloadSize_eq : agg.payloadSize = agg.payloadOffset + granulesSize agg.granules
  payloadOffset_le : agg.payloadOffset ≤ 8
  complex_iff : agg.requiresComplexHt = true ↔ groupBy.map IU.type = [.string]

theorem planned_of_plan (hplan : Aggregation.plan floatAdd groupBy description = .ok agg)
    (hscalar : ∀ func ∈ description, scalarType func.aggIu.type) : Planned groupBy agg := by
  unfold Aggregation.plan at hplan
  cases hgranules : Aggregation.toCompute floatAdd description with
  | error e => exact absurd hplan (by simp [hgranules, bind, Except.bind])
  | ok granules =>
    simp only [hgranules, bind, Except.bind] at hplan
    split at hplan
    · exact absurd hplan (by simp)
    · rename_i last hlast
      have hmem : last ∈ granules := List.mem_of_getLast? hlast
      have hstep := toCompute_size hscalar hgranules last hmem
      split at hplan
      · exact absurd hplan (by simp)
      · rename_i start hstart
        obtain rfl := Except.ok.inj hplan
        have hlt := skipKey_lt (Or.inr rfl) hstart
        refine ⟨rfl, rfl, List.ne_nil_of_mem hmem, rfl, ?_, by simp⟩
        show start - _ ≤ 8
        omega

end Plan

section Keys

variable {hash : Bytes → UInt64} {text : UInt64 → Bytes} {groupBy : List IU} {agg : Aggregation}

def keyBytes (groupBy : List IU) (row : Row) : Bytes := (groupBy.map row).flatten

theorem keyBytes_length {row : Row} (hrow : RowTyped groupBy row) :
    (keyBytes groupBy row).length = (groupBy.map fun key => key.type.numBytes).sum := by
  unfold keyBytes
  rw [List.length_flatten, List.map_map]
  congr 1
  exact List.map_congr_left hrow.width

theorem keySize_pos (hplanned : Planned groupBy agg) (hne : groupBy ≠ [])
    (hkeys : ∀ iu ∈ groupBy, groupType iu.type) : 0 < agg.keySize := by
  obtain ⟨iu, rest, rfl⟩ := List.exists_cons_of_ne_nil hne
  have hpos := numBytes_pos (hkeys iu List.mem_cons_self)
  rw [hplanned.keySize_eq, List.map_cons, List.sum_cons]
  omega

/-- The packers of the group-by columns write them one behind the other. -/
theorem exec_packers {κ : Type} {A : KeyAccess κ} {readKey : Bytes → κ} {row : Row}
    {keys : List IU} {off : ℕ} {f : AggFrame}
    (hwidth : ∀ iu ∈ keys, (row iu).length = iu.type.numBytes)
    (hroom : off + (keys.map row).flatten.length ≤ f.scratch.length)
    (hsmall : f.scratch.length < 2 ^ 16) :
    execSubops A readKey (Aggregation.packers keys off) f row =
      .ok { f with scratch := packFields f.scratch off (keys.map row) } := by
  induction keys generalizing off f with
  | nil => rfl
  | cons iu rest ih =>
    rw [List.map_cons, List.flatten_cons, List.length_append] at hroom
    have hpacked : packingOffset off = off := Nat.mod_eq_of_lt (by omega)
    have hfits : off + (row iu).length ≤ f.scratch.length := by omega
    have hlen : (writeAt f.scratch off (row iu)).length = f.scratch.length := writeAt_length hfits
    rw [Aggregation.packers, execSubops_cons]
    simp only [AggSubop.exec, hpacked, if_pos hfits, Except.bind]
    rw [ih (fun i hi => hwidth i (List.mem_cons_of_mem _ hi)), List.map_cons, packFields,
      hwidth iu List.mem_cons_self]
    · rw [← hwidth iu List.mem_cons_self]
      show off + _ + _ ≤ (writeAt f.scratch off (row iu)).length
      omega
    · exact hlen ▸ hsmall

theorem exec_lookup {κ : Type} {A : KeyAccess κ} {readKey : Bytes → κ} {row : Row}
    {key : Option IU} {f : AggFrame} {bytes : Bytes}
    (hbytes : (match key with | some iu => row iu | none => f.scratch) = bytes) :
    execSubops A readKey [.htLookupOrInsert key] f row =
      (f.table.lookupOrInsert A (readKey bytes)).bind fun r =>
        .ok ⟨r.table, f.scratch, r.slot⟩ := by
  subst hbytes
  rw [execSubops_cons]
  simp only [AggSubop.exec, bind]
  cases f.table.lookupOrInsert A _ with
  | error e => rfl
  | ok r => rfl

/-- A single key is looked up where its variable stands. -/
theorem lookup_single {κ : Type} {A : KeyAccess κ} {readKey : Bytes → κ} {iu : IU}
    (hplanned : Planned [iu] agg) (hpos : 0 < agg.keySize) (f : AggFrame) (row : Row) :
    execSubops A readKey (agg.packKey ++ [agg.lookupKey]) f row =
      (f.table.lookupOrInsert A (readKey (keyBytes [iu] row))).bind fun r =>
        .ok ⟨r.table, f.scratch, r.slot⟩ := by
  have hsubops : agg.packKey ++ [agg.lookupKey] = [.htLookupOrInsert (some iu)] := by
    unfold Aggregation.packKey Aggregation.lookupKey
    rw [hplanned.groupBy_eq, if_neg (by omega)]
    rfl
  rw [hsubops]
  apply exec_lookup
  simp [keyBytes]

/-- Several keys are packed into the scratch pad before. -/
theorem lookup_packed {κ : Type} {A : KeyAccess κ} {readKey : Bytes → κ}
    (hplanned : Planned groupBy agg) (hpos : 0 < agg.keySize) (hmany : groupBy.length ≠ 1)
    (hsmall : agg.keySize < 2 ^ 16) {row : Row} (hrow : RowTyped groupBy row) {f : AggFrame}
    (hscratch : f.scratch.length = agg.keySize) :
    execSubops A readKey (agg.packKey ++ [agg.lookupKey]) f row =
      (f.table.lookupOrInsert A (readKey (keyBytes groupBy row))).bind fun r =>
        .ok ⟨r.table, keyBytes groupBy row, r.slot⟩ := by
  have hlen := keyBytes_length hrow
  have hsubops : agg.packKey ++ [agg.lookupKey] =
      Aggregation.packers groupBy 0 ++ [.htLookupOrInsert none] := by
    unfold Aggregation.packKey Aggregation.lookupKey
    rw [hplanned.groupBy_eq, if_neg (by omega)]
    match groupBy, hmany with
    | [], _ => rfl
    | _ :: _ :: _, _ => rfl
  have hfull : packFields f.scratch 0 (groupBy.map row) = keyBytes groupBy row := by
    apply packFields_full
    rw [hscratch, hplanned.keySize_eq, ← hlen]
    rfl
  rw [hsubops, execSubops_append, exec_packers hrow.width]
  · rw [hfull]
    exact exec_lookup rfl
  · rw [Nat.zero_add, hscratch, hplanned.keySize_eq, ← hlen]
    exact le_refl _
  · exact hscratch ▸ hsmall

end Keys

section Groups

def Aggregation.find (agg : Aggregation) (hash : Bytes → UInt64) (text : UInt64 → Bytes)
    (t : SharedHashTableState) (row : Row) : Except Fault (Option ℕ) :=
  let key := keyBytes agg.groupBy row
  if agg.requiresComplexHt then t.lookup (complexKey hash text) (Aggregation.readPointer key)
  else t.lookup (simpleKey hash agg.keySize) key

/-- Rows have one slot exactly when they agree on all values, and the state of a slot is
that of the rows which agree. -/
structure GroupsByValue (agg : Aggregation) (hash : Bytes → UInt64) (text : UInt64 → Bytes)
    (rows : List Row) (t : SharedHashTableState) : Prop where
  same_group : ∀ row ∈ rows, ∀ row' ∈ rows,
    (∃ slot, agg.find hash text t row = .ok (some slot) ∧
      agg.find hash text t row' = .ok (some slot)) ↔
    groupValues text agg.groupBy row = groupValues text agg.groupBy row'
  group_state : ∀ row ∈ rows, ∃ slot, agg.find hash text t row = .ok (some slot) ∧
    readAt (t.data slot) agg.keySize agg.payloadSize =
      (rows.filter fun row' =>
        groupValues text agg.groupBy row' = groupValues text agg.groupBy row).foldl
        (fun payload row' => updatePayload row' agg.granules agg.payloadOffset payload)
        (List.replicate agg.payloadSize 0)

/-- The run ends, and groups its rows by value. -/
def GroupingExact (agg : Aggregation) (hash : Bytes → UInt64) (text : UInt64 → Bytes)
    (rows : List Row) : Prop :=
  ∃ t, agg.run hash text rows = .ok t ∧ GroupsByValue agg hash text rows t

variable {κ : Type} {A : KeyAccess κ} {L : KeyLayout A} {readKey : Bytes → κ}
  {agg : Aggregation} {scratchSize : ℕ} {key : Row → κ} {Typed : Row → Prop}
  {hash : Bytes → UInt64} {text : UInt64 → Bytes} {rows : List Row} {t : SharedHashTableState}

/-- The identities of the keys tell the same rows apart as the values. -/
def IdentifiesValues (L : KeyLayout A) (agg : Aggregation) (text : UInt64 → Bytes)
    (key : Row → κ) (rows : List Row) : Prop :=
  ∀ row ∈ rows, ∀ row' ∈ rows, L.ident (key row) = L.ident (key row') ↔
    groupValues text agg.groupBy row = groupValues text agg.groupBy row'

theorem lookup_group (hkeyed : KeyedBy L readKey agg scratchSize key Typed)
    (hgroups : HoldsGroups L agg key rows t) {row : Row} (hrow : row ∈ rows) (htyped : Typed row) :
    ∃ slot, t.lookup A (key row) = .ok (some slot) ∧
      L.slotIdent (t.data slot) = L.ident (key row) ∧
      readAt (t.data slot) agg.keySize agg.payloadSize =
        groupState L agg key (L.ident (key row)) rows := by
  obtain ⟨m, hrep, hkeys, hpayload⟩ := hgroups
  obtain ⟨r, hr, hnone, hstores⟩ := hrep.refinesMap.lookup (key row) (hkeyed.valid row htyped)
  have hmem : L.ident (key row) ∈ m.keys := (hkeys _).mpr ⟨row, hrow, rfl⟩
  cases r with
  | none => exact absurd hmem (hnone.mp rfl)
  | some slot =>
    obtain ⟨_, _, hident, hpay, _⟩ := hstores slot rfl
    refine ⟨slot, hr, hident, ?_⟩
    rw [← hpayload, ← hpay, hkeyed.keySize_eq]

theorem groupsByValue_iff (hkeyed : KeyedBy L readKey agg scratchSize key Typed)
    (hgroups : HoldsGroups L agg key rows t) (hrows : ∀ row ∈ rows, Typed row)
    (hfind : ∀ row, agg.find hash text t row = t.lookup A (key row)) :
    GroupsByValue agg hash text rows t ↔ IdentifiesValues L agg text key rows := by
  have hsame : ∀ row ∈ rows, ∀ row' ∈ rows,
      (∃ slot, agg.find hash text t row = .ok (some slot) ∧
        agg.find hash text t row' = .ok (some slot)) ↔ L.ident (key row) = L.ident (key row') := by
    intro row hrow row' hrow'
    obtain ⟨slot, hslot, hident, _⟩ := lookup_group hkeyed hgroups hrow (hrows row hrow)
    obtain ⟨slot', hslot', hident', _⟩ := lookup_group hkeyed hgroups hrow' (hrows row' hrow')
    rw [hfind, hfind, hslot, hslot']
    constructor
    · intro h
      obtain ⟨i, hi, hi'⟩ := h
      have hi : slot = i := by simpa using hi
      have hi' : slot' = i := by simpa using hi'
      rw [← hident, ← hident', hi, hi']
    · intro heq
      have hlookup : t.lookup A (key row') = t.lookup A (key row) := by
        obtain ⟨m, hrep, _⟩ := hgroups
        rcases lookup_spec hrep.inv (key row) with ⟨i, d, hd, hid, hlook⟩ | ⟨habsent, hlook⟩
        · rcases lookup_spec hrep.inv (key row') with ⟨j, e, he, hie, hlook'⟩ | ⟨habsent, hlook'⟩
          · have hij : i = j := hrep.inv.unique i j d e hd.1 he.1 hd.2 he.2
              (by rw [hid, hie, heq])
            rw [hlook, hlook', hij]
          · exact absurd (hid.trans heq) (habsent d ⟨i, hd⟩)
        · rw [hlook] at hslot
          exact absurd hslot (by simp)
      rw [hslot, hslot'] at hlookup
      exact ⟨slot, rfl, hlookup⟩
  constructor
  · intro h row hrow row' hrow'
    rw [← hsame row hrow row' hrow']
    exact h.same_group row hrow row' hrow'
  · intro h
    refine ⟨fun row hrow row' hrow' => ?_, fun row hrow => ?_⟩
    · rw [hsame row hrow row' hrow']
      exact h row hrow row' hrow'
    · obtain ⟨slot, hslot, _, hstate⟩ := lookup_group hkeyed hgroups hrow (hrows row hrow)
      refine ⟨slot, (hfind row).trans hslot, hstate.trans ?_⟩
      unfold groupState
      congr 1
      apply List.filter_congr
      intro row' hrow'
      rw [decide_eq_decide]
      exact h row' hrow' row hrow

/-- A run groups by value exactly when its slots are wide enough, unless it has no rows,
and its keys tell the values apart. -/
theorem runWith_iff (hash : Bytes → UInt64) (text : UInt64 → Bytes)
    (hkeyed : KeyedBy L readKey agg scratchSize key Typed)
    (hplanned : Planned agg.groupBy agg) (hstart : agg.keySize + agg.payloadOffset < 2 ^ 16)
    (hscratch : ∃ scratch, agg.scratchPad = .ok scratch ∧ scratch.length = scratchSize)
    (hrows : ∀ row ∈ rows, Typed row)
    (hfind : ∀ t row, agg.find hash text t row = t.lookup A (key row)) :
    (∃ t, agg.runWith A readKey (create (agg.keySize + agg.payloadSize) 8) rows = .ok t ∧
      GroupsByValue agg hash text rows t) ↔
    (rows = [] ∨ agg.keySize + agg.payloadSize < 2 ^ 16) ∧
      IdentifiesValues L agg text key rows := by
  obtain ⟨scratch, hpad, hlen⟩ := hscratch
  obtain ⟨t, ht⟩ : ∃ t, create (agg.keySize + agg.payloadSize) 8 = .ok t := ⟨_, rfl⟩
  have hrun : agg.runWith A readKey (create (agg.keySize + agg.payloadSize) 8) rows =
      (rows.foldlM (execSubops A readKey agg.subops) ⟨t, scratch, 0⟩).bind
        fun frame => .ok frame.table := by
    unfold Aggregation.runWith
    rw [ht, hpad]
    rfl
  rw [hrun]
  by_cases hfit : agg.keySize + agg.payloadSize < 2 ^ 16
  · have hfit' : L.keySize + agg.payloadSize < 2 ^ 16 := hkeyed.keySize_eq ▸ hfit
    obtain ⟨t', ht', hrep⟩ := represents_create hfit'
      (show Nat.isPowerOfTwo 8 from ⟨3, rfl⟩) (by decide)
    rw [hkeyed.keySize_eq, ht] at ht'
    obtain rfl := Except.ok.inj ht'
    have hempty : HoldsGroups L agg key [] t :=
      ⟨_, hrep, fun q => by simp [PayloadMap.empty], fun q => rfl⟩
    obtain ⟨g, hg, _, hgroups⟩ := execRows_spec hkeyed hfit hplanned.payloadSize_eq
      (show (AggFrame.mk t scratch 0).scratch.length = scratchSize from hlen) hempty rows hrows
    have hiff := groupsByValue_iff hkeyed hgroups hrows (hfind g.table)
    rw [hg]
    constructor
    · intro h
      obtain ⟨u, hu, hexact⟩ := h
      obtain rfl := Except.ok.inj hu
      exact ⟨Or.inr hfit, hiff.mp hexact⟩
    · intro h
      exact ⟨g.table, rfl, hiff.mpr h.2⟩
  · cases rows with
    | nil =>
      constructor
      · intro _
        exact ⟨Or.inl rfl, fun row hrow => absurd hrow List.not_mem_nil⟩
      · intro _
        exact ⟨t, rfl, fun row hrow => absurd hrow List.not_mem_nil,
          fun row hrow => absurd hrow List.not_mem_nil⟩
    | cons row rows =>
      rw [List.foldlM_cons, execRow_overrun hkeyed (not_lt.mp hfit) hplanned.payloadSize_eq hstart
        hplanned.granules_ne ht (hrows row List.mem_cons_self) hlen]
      constructor
      · intro h
        obtain ⟨u, hu, _⟩ := h
        exact absurd hu (by simp [bind, Except.bind])
      · intro h
        exact absurd h.1 (not_or.mpr ⟨List.cons_ne_nil _ _, hfit⟩)

end Groups

section Variants

variable {hash : Bytes → UInt64} {text : UInt64 → Bytes} {groupBy : List IU} {agg : Aggregation}
  {rows : List Row}

theorem keyedBy_string (hash : Bytes → UInt64) (text : UInt64 → Bytes) {iu : IU}
    (hplanned : Planned [iu] agg) (htype : iu.type = .string) :
    KeyedBy (complexLayout hash text) Aggregation.readPointer agg 0
      (fun row => Aggregation.readPointer (keyBytes [iu] row)) (RowTyped [iu]) where
  keySize_eq := by
    rw [hplanned.keySize_eq]
    simp [htype, complexLayout, IRType.numBytes]
  valid := fun row hrow => by
    show Aggregation.readPointer (keyBytes [iu] row) ≠ 0
    simpa [keyBytes] using hrow.string iu List.mem_cons_self htype
  lookup := fun f row _ hscratch => by
    have hsize : agg.keySize = 8 := by
      rw [hplanned.keySize_eq]
      simp [htype, IRType.numBytes]
    exact ⟨f.scratch, hscratch, lookup_single hplanned (by omega) f row⟩

theorem keyedBy_single (hash : Bytes → UInt64) {iu : IU} (hplanned : Planned [iu] agg)
    (hpos : 0 < agg.keySize) :
    KeyedBy (simpleLayout hash agg.keySize) id agg 0 (keyBytes [iu]) (RowTyped [iu]) where
  keySize_eq := rfl
  valid := fun _ hrow => (keyBytes_length hrow).trans hplanned.keySize_eq.symm
  lookup := fun f row _ hscratch => ⟨f.scratch, hscratch, lookup_single hplanned hpos f row⟩

theorem keyedBy_packed (hash : Bytes → UInt64) (hplanned : Planned groupBy agg)
    (hpos : 0 < agg.keySize)
    (hmany : groupBy.length ≠ 1) (hsmall : agg.keySize < 2 ^ 16) :
    KeyedBy (simpleLayout hash agg.keySize) id agg agg.keySize (keyBytes groupBy)
      (RowTyped groupBy) where
  keySize_eq := rfl
  valid := fun _ hrow => (keyBytes_length hrow).trans hplanned.keySize_eq.symm
  lookup := fun _ row hrow hscratch =>
    ⟨keyBytes groupBy row, (keyBytes_length hrow).trans hplanned.keySize_eq.symm,
      lookup_packed hplanned hpos hmany hsmall hrow hscratch⟩

/-- Rows with the same values have the same string pointers. -/
def PointersAgree (text : UInt64 → Bytes) (groupBy : List IU) (rows : List Row) : Prop :=
  ∀ row ∈ rows, ∀ row' ∈ rows, groupValues text groupBy row = groupValues text groupBy row' →
    ∀ iu ∈ groupBy, iu.type = .string → row iu = row' iu

theorem columnValue_eq_iff {row row' : Row} {iu : IU}
    (hlen : (row iu).length = (row' iu).length) (htype : iu.type ≠ .string) :
    columnValue text row iu = columnValue text row' iu ↔ row iu = row' iu := by
  unfold columnValue
  rw [if_neg htype, if_neg htype, ColumnValue.number.injEq]
  exact ⟨decode_injective hlen, congrArg decode⟩

theorem columnValue_congr {row row' : Row} {iu : IU} (h : row iu = row' iu) :
    columnValue text row iu = columnValue text row' iu := by
  unfold columnValue
  rw [h]

/-- Packed keys are equal when the columns are equal as bytes. -/
theorem keyBytes_eq_iff {row row' : Row} (hrow : RowTyped groupBy row)
    (hrow' : RowTyped groupBy row') :
    keyBytes groupBy row = keyBytes groupBy row' ↔ ∀ iu ∈ groupBy, row iu = row' iu := by
  have hwidths : (groupBy.map row).map List.length = (groupBy.map row').map List.length := by
    rw [List.map_map, List.map_map]
    apply List.map_congr_left
    intro iu hiu
    exact (hrow.width iu hiu).trans (hrow'.width iu hiu).symm
  rw [← List.map_inj_left]
  exact ⟨flatten_injective hwidths, congrArg List.flatten⟩

theorem groupValues_eq_iff {row row' : Row} :
    groupValues text groupBy row = groupValues text groupBy row' ↔
      ∀ iu ∈ groupBy, columnValue text row iu = columnValue text row' iu := List.map_inj_left

/-- Bytes tell the values apart exactly when string pointers do. -/
theorem identifies_simple (hplanned : Planned groupBy agg)
    (hrows : ∀ row ∈ rows, RowTyped groupBy row) :
    IdentifiesValues (simpleLayout hash agg.keySize) agg text (keyBytes groupBy) rows ↔
      PointersAgree text groupBy rows := by
  have hident : ∀ row, RowTyped groupBy row →
      (simpleLayout hash agg.keySize).ident (keyBytes groupBy row) = keyBytes groupBy row := by
    intro row hrow
    show readAt (keyBytes groupBy row) 0 agg.keySize = _
    rw [hplanned.keySize_eq, ← keyBytes_length hrow, readAt_all]
  unfold IdentifiesValues PointersAgree
  rw [hplanned.groupBy_eq]
  constructor
  · intro h row hrow row' hrow' hvalues iu hiu _
    have heq := (h row hrow row' hrow').mpr hvalues
    rw [hident row (hrows row hrow), hident row' (hrows row' hrow')] at heq
    exact (keyBytes_eq_iff (hrows row hrow) (hrows row' hrow')).mp heq iu hiu
  · intro h row hrow row' hrow'
    have ht := hrows row hrow
    have ht' := hrows row' hrow'
    rw [hident row ht, hident row' ht', keyBytes_eq_iff ht ht', groupValues_eq_iff]
    constructor
    · intro heq iu hiu
      exact columnValue_congr (heq iu hiu)
    · intro hvalues iu hiu
      by_cases htype : iu.type = .string
      · exact h row hrow row' hrow' (groupValues_eq_iff.mpr hvalues) iu hiu htype
      · exact (columnValue_eq_iff ((ht.width iu hiu).trans (ht'.width iu hiu).symm) htype).mp
          (hvalues iu hiu)

/-- A string table tells strings apart by their characters. -/
theorem identifies_string {iu : IU} (hplanned : Planned [iu] agg) (htype : iu.type = .string) :
    IdentifiesValues (complexLayout hash text) agg text
      (fun row => Aggregation.readPointer (keyBytes [iu] row)) rows := by
  intro row _ row' _
  rw [hplanned.groupBy_eq, groupValues_eq_iff]
  simp [complexLayout, keyBytes, columnValue, htype]

end Variants

section Main

variable {hash : Bytes → UInt64} {text : UInt64 → Bytes} {groupBy : List IU} {agg : Aggregation}
  {rows : List Row}

theorem exists_scratch_single {iu : IU} (hplanned : Planned [iu] agg) :
    ∃ scratch, agg.scratchPad = .ok scratch ∧ scratch.length = 0 := by
  refine ⟨[], ?_, rfl⟩
  unfold Aggregation.scratchPad
  rw [hplanned.groupBy_eq]

theorem grouping_string {iu : IU} (hplanned : Planned [iu] agg) (htype : iu.type = .string)
    (hrows : ∀ row ∈ rows, RowTyped [iu] row) :
    GroupingExact agg hash text rows ↔
      (rows = [] ∨ agg.keySize + agg.payloadSize < 2 ^ 16) := by
  have hcomplex : agg.requiresComplexHt = true := hplanned.complex_iff.mpr (by simp [htype])
  have hsize : agg.keySize = 8 := by
    rw [hplanned.keySize_eq]
    simp [htype, IRType.numBytes]
  have hle := hplanned.payloadOffset_le
  have hiff := runWith_iff hash text (keyedBy_string hash text hplanned htype)
    (hplanned.groupBy_eq ▸ hplanned) (by omega) (exists_scratch_single hplanned) hrows
    (fun t row => by
      unfold Aggregation.find
      rw [if_pos hcomplex, hplanned.groupBy_eq])
  unfold GroupingExact Aggregation.run
  rw [hsize] at hiff ⊢
  rw [if_pos hcomplex, HashTableComplexKey.create_string, hiff]
  exact and_iff_left (identifies_string hplanned htype)

/-- A table of byte keys, for a single key or a packed one. -/
theorem grouping_simple {scratchSize : ℕ} (hplanned : Planned groupBy agg)
    (hsimple : agg.requiresComplexHt = false) (hpos : 0 < agg.keySize)
    (hsmall : agg.keySize < memoryRegionSize)
    (hscratch : ∃ scratch, agg.scratchPad = .ok scratch ∧ scratch.length = scratchSize)
    (hkeyed : KeyedBy (simpleLayout hash agg.keySize) id agg scratchSize (keyBytes groupBy)
      (RowTyped groupBy))
    (hrows : ∀ row ∈ rows, RowTyped groupBy row) :
    GroupingExact agg hash text rows ↔
      (rows = [] ∨ agg.keySize + agg.payloadSize < 2 ^ 16) ∧ PointersAgree text groupBy rows := by
  have hle := hplanned.payloadOffset_le
  unfold memoryRegionSize at hsmall
  have hiff := runWith_iff hash text hkeyed (hplanned.groupBy_eq ▸ hplanned) (by omega) hscratch
    hrows (fun t row => by
      unfold Aggregation.find
      rw [if_neg (by simp [hsimple]), hplanned.groupBy_eq])
  unfold GroupingExact Aggregation.run
  rw [if_neg (by simp [hsimple]), HashTableSimpleKey.create_of_pos hpos, hiff,
    identifies_simple hplanned hrows]

theorem pointersAgree_single {iu : IU} (htype : iu.type ≠ .string) :
    PointersAgree text [iu] rows := by
  intro row _ row' _ _ jd hjd hstring
  rw [List.mem_singleton.mp hjd] at hstring
  exact absurd hstring htype

theorem simple_of_many (hplanned : Planned groupBy agg) (hmany : groupBy.length ≠ 1) :
    agg.requiresComplexHt = false := by
  rw [← Bool.not_eq_true, hplanned.complex_iff]
  intro htypes
  exact hmany (by simpa using congrArg List.length htypes)

theorem scratchPad_of_many (hmany : agg.groupBy.length ≠ 1) :
    agg.scratchPad = if agg.keySize < memoryRegionSize then .ok (List.replicate agg.keySize 0)
      else .error .outOfBounds := by
  unfold Aggregation.scratchPad
  match agg.groupBy, hmany with
  | [], _ => rfl
  | _ :: _ :: _, _ => rfl

/-- Packed keys need a scratch pad that fits a memory region. -/
theorem grouping_packed (hplanned : Planned groupBy agg) (hpos : 0 < agg.keySize)
    (hmany : groupBy.length ≠ 1) (hrows : ∀ row ∈ rows, RowTyped groupBy row) :
    GroupingExact agg hash text rows ↔
      (rows = [] ∨ agg.keySize + agg.payloadSize < 2 ^ 16) ∧
        agg.keySize < memoryRegionSize ∧ PointersAgree text groupBy rows := by
  have hsimple := simple_of_many hplanned hmany
  have hpad := scratchPad_of_many (hplanned.groupBy_eq ▸ hmany : agg.groupBy.length ≠ 1)
  by_cases hsmall : agg.keySize < memoryRegionSize
  · have hwide : agg.keySize < 2 ^ 16 := lt_trans hsmall (by decide)
    rw [if_pos hsmall] at hpad
    rw [grouping_simple hplanned hsimple hpos hsmall ⟨_, hpad, List.length_replicate⟩
      (keyedBy_packed hash hplanned hpos hmany hwide) hrows, and_iff_right hsmall]
  · rw [if_neg hsmall] at hpad
    have hrun : agg.run hash text rows = .error .outOfBounds := by
      unfold Aggregation.run Aggregation.runWith
      rw [if_neg (by simp [hsimple]), HashTableSimpleKey.create_of_pos hpos, hpad]
      rfl
    unfold GroupingExact
    rw [hrun]
    constructor
    · intro h
      obtain ⟨t, ht, _⟩ := h
      exact absurd ht (by simp)
    · intro h
      exact absurd h.2.1 hsmall

/-- An aggregation groups by value exactly when its slots fit sixteen bits and, in case of
several keys, its scratch pad fits a memory region and no string stands in two places. -/
theorem grouping_by_value_iff {floatAdd : ℕ → ℕ → ℕ → ℕ}
    {description : List AggregateFunctions.Description}
    (hplan : Aggregation.plan floatAdd groupBy description = .ok agg) (hne : groupBy ≠ [])
    (hkeys : ∀ iu ∈ groupBy, groupType iu.type)
    (haggs : ∀ func ∈ description, scalarType func.aggIu.type)
    (hrows : ∀ row ∈ rows, RowTyped groupBy row) :
    GroupingExact agg hash text rows ↔
      (rows = [] ∨ agg.keySize + agg.payloadSize < 2 ^ 16) ∧
        (groupBy.length = 1 ∨
          agg.keySize < memoryRegionSize ∧ PointersAgree text groupBy rows) := by
  have hplanned := planned_of_plan hplan haggs
  have hpos := keySize_pos hplanned hne hkeys
  by_cases hsingle : groupBy.length = 1
  · obtain ⟨iu, rfl⟩ := List.length_eq_one_iff.mp hsingle
    rw [and_iff_left (Or.inl hsingle)]
    by_cases htype : iu.type = .string
    · exact grouping_string hplanned htype hrows
    · have hsimple : agg.requiresComplexHt = false := by
        rw [← Bool.not_eq_true, hplanned.complex_iff]
        simpa using htype
      have hsmall : agg.keySize < memoryRegionSize := by
        have hle := numBytes_le (scalar_of_groupType (hkeys iu List.mem_cons_self))
        rw [hplanned.keySize_eq, memoryRegionSize, List.map_singleton, List.sum_singleton]
        omega
      rw [grouping_simple hplanned hsimple hpos hsmall (exists_scratch_single hplanned)
        (keyedBy_single hash hplanned hpos) hrows]
      exact and_iff_left (pointersAgree_single htype)
  · rw [grouping_packed hplanned hpos hsingle hrows, or_iff_right hsingle]

def flagColumn : IU := ⟨0, .char⟩

def nameColumn : IU := ⟨1, .string⟩

/-- A row with the flag "a" whose name stands at a pointer. -/
def nameRow (pointer : ℕ) : Row := fun iu =>
  if iu.type = .char then [97] else encode 8 pointer

theorem nameRow_typed {groupBy : List IU} {pointer : ℕ}
    (hgroupBy : ∀ iu ∈ groupBy, iu = flagColumn ∨ iu = nameColumn) (hpos : 0 < pointer)
    (hlt : pointer < 2 ^ 64) : RowTyped groupBy (nameRow pointer) where
  width := by
    intro iu hiu
    rcases hgroupBy iu hiu with rfl | rfl
    · rfl
    · exact encode_length 8 pointer
  string := by
    intro iu hiu htype
    rcases hgroupBy iu hiu with rfl | rfl
    · exact absurd htype (by decide)
    · show UInt64.ofNat (decode (encode 8 pointer)) ≠ 0
      rw [decode_encode_of_lt (by simpa using hlt)]
      intro hzero
      have hnat := congrArg UInt64.toNat hzero
      rw [UInt64.toNat_ofNat_of_lt' hlt] at hnat
      exact absurd hnat (by simpa using hpos.ne')

/-- One name in two places, grouped by the name alone. -/
theorem grouping_by_value_names :
    ∃ agg, Aggregation.plan (fun _ _ _ => 0) [nameColumn] [⟨nameColumn, .count, false⟩] =
        .ok agg ∧
      GroupingExact agg (fun _ => 0) (fun _ => [120]) [nameRow 16, nameRow 32] := by
  have hplan : Aggregation.plan (fun _ _ _ => 0) [nameColumn] [⟨nameColumn, .count, false⟩] =
      .ok ⟨[nameColumn], [⟨nameColumn, AggStateCount⟩], 8, 0, 8, true⟩ := rfl
  refine ⟨_, hplan, ?_⟩
  apply (grouping_by_value_iff hplan (by decide) (by decide) (by decide) ?_).mpr
  · exact ⟨Or.inr (by decide), Or.inl rfl⟩
  intro row hrow
  rcases List.mem_pair.mp hrow with rfl | rfl
  · exact nameRow_typed (by simp [nameColumn]) (by decide) (by decide)
  · exact nameRow_typed (by simp [nameColumn]) (by decide) (by decide)

/-- One flag and one name in two places: the rows are put into two groups. -/
theorem flags_and_names_split :
    ∃ agg, Aggregation.plan (fun _ _ _ => 0) [flagColumn, nameColumn]
        [⟨flagColumn, .count, false⟩] = .ok agg ∧
      (∀ row ∈ [nameRow 16, nameRow 32], RowTyped [flagColumn, nameColumn] row) ∧
      groupValues (fun _ => [120]) [flagColumn, nameColumn] (nameRow 16) =
        groupValues (fun _ => [120]) [flagColumn, nameColumn] (nameRow 32) ∧
      ¬ GroupingExact agg (fun _ => 0) (fun _ => [120]) [nameRow 16, nameRow 32] := by
  have hrows : ∀ row ∈ [nameRow 16, nameRow 32], RowTyped [flagColumn, nameColumn] row := by
    intro row hrow
    rcases List.mem_pair.mp hrow with rfl | rfl
    · exact nameRow_typed (by simp) (by decide) (by decide)
    · exact nameRow_typed (by simp) (by decide) (by decide)
  have hvalues : groupValues (fun _ => [120]) [flagColumn, nameColumn] (nameRow 16) =
      groupValues (fun _ => [120]) [flagColumn, nameColumn] (nameRow 32) := rfl
  have hplanned : Planned [flagColumn, nameColumn]
      ⟨[flagColumn, nameColumn], [⟨flagColumn, AggStateCount⟩], 9, 7, 15, false⟩ :=
    ⟨rfl, rfl, by decide, rfl, by decide, by decide⟩
  refine ⟨_, rfl, hrows, hvalues, fun h => ?_⟩
  have hagree := ((grouping_packed hplanned (by decide) (by decide) hrows).mp h).2.2
  have hsame := hagree _ List.mem_cons_self (nameRow 32) (by simp) hvalues nameColumn (by simp) rfl
  exact absurd hsame (by decide)

end Main

end InkFuse.Algebra
