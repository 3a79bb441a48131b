import InkFuse.Algebra.JoinRows
import InkFuse.Runtime.AtomicLookup
import Mathlib.Algebra.BigOperators.Fin
import Mathlib.Data.List.OfFn

/-!
The build side of a join: the build pipeline of every thread materializes its rows, one
thread allocates the hash table, and all threads insert the materialized tuples. The
tuples are handed to the threads chunk by chunk, so any thread may insert any tuple.
-/

namespace InkFuse.Algebra

open Bytes Codegen
open InkFuse.Runtime

namespace Join

variable (j : Join)

def tupleSize : ℕ := j.keySizeLeft + j.payloadSizeLeft

/-- The comparator of the hash table; its key size has type `uint16_t`. -/
def comparator (hash : Bytes → UInt64) : Comparator :=
  simpleKeyComparator hash (j.keySizeLeft % 2 ^ 16)

/-- The tuple that the build pipeline leaves for a row. There is no hash table yet. -/
def buildTuple (row : SideRow) : Except Fault Bytes := do
  let (_, r) ← execRow (j.comparator fun _ => 0) j.tupleSize j.buildPipe
    ⟨fun _ => 0, fun _ => [], 0, 0, 0⟩ row.leftRow
  match r with
  | some r => .ok r.tuple
  | none => .error .runtimeError

def materializeRows (rows : List SideRow) : Except Fault TupleMaterializer := do
  let m ← TupleMaterializer.create j.tupleSize
  rows.foldlM (fun m row => do
    let tuple ← j.buildTuple row
    .ok (m.materialize tuple)) m

end Join

/-- At least twice as many slots as rows, and a power of two; `64 - clz(x)` is the bit
length of `x`. -/
def allocHashTable (slotSize : ℕ) (materializers : List TupleMaterializer) :
    Except Fault AtomicHashTable := do
  let counts ← materializers.mapM TupleMaterializer.getNumTuples
  let minCapacity := max 2 (2 * counts.sum)
  AtomicHashTable.create slotSize (2 ^ (Nat.log2 (minCapacity - 1) + 1))

variable {T : ℕ}

/-- `table` is the hash table after the build side: some distribution of the materialized
tuples to the threads and some schedule of their inserts lead to it. -/
def BuildsTable (j : Join) (hash : Bytes → UInt64) (left : Fin T → List SideRow)
    (table : AtomicHashTable) : Prop :=
  ∃ materializers : Fin T → TupleMaterializer,
    (∀ t, j.materializeRows (left t) = .ok (materializers t)) ∧
    ∃ fresh, allocHashTable j.tupleSize (List.ofFn materializers) = .ok fresh ∧
    ∃ (picked : Fin T → List Bytes) (schedule : List (Fin T)),
      (List.ofFn picked).flatten.Perm
        ((List.ofFn materializers).map TupleMaterializer.tuples).flatten ∧
      (buildRun (j.comparator hash) (startBuild fresh picked) schedule).Finished ∧
      table = (buildRun (j.comparator hash) (startBuild fresh picked) schedule).table

/-- The sizes for which the build side is set up: tuples have bytes, and they fit a chunk. -/
structure BuildSizes (j : Join) : Prop where
  tuple_pos : 0 < j.tupleSize
  tuple_le : j.tupleSize ≤ regionSize

section Materialize

variable {j : Join}

theorem hasColumns_leftRow {row : SideRow} (hrow : row.Typed j.keysLeft j.payloadLeft)
    {iu : JoinIU → Option Value}
    (hkeys : ∀ i, iu (.keyLeft i) = row.keys[i]?.map .bytes)
    (hpayload : ∀ i, iu (.payloadLeft i) = row.payload[i]?.map .bytes) :
    HasColumns iu j.fullRowLeft row.columns :=
  hasColumns_append (hasColumns_columns hrow.keys hkeys)
    (hasColumns_columns hrow.payload hpayload)

/-- The build pipeline packs the whole row. -/
theorem buildTuple_eq (hsizes : BuildSizes j) {row : SideRow}
    (hrow : row.Typed j.keysLeft j.payloadLeft) : j.buildTuple row = .ok row.packed := by
  have hlen : row.packed.length = j.tupleSize := hrow.packed_length
  have hle := hsizes.tuple_le
  rw [regionSize] at hle
  set r : JoinRow := { row.leftRow.set .lookupLeft (.pointer .tuple) with
    tuple := List.replicate j.tupleSize 0 } with hr
  have hcols : HasColumns r.iu j.fullRowLeft row.columns := by
    apply hasColumns_leftRow hrow
    · intro i
      rfl
    · intro i
      rfl
  have hfull : packFields (List.replicate j.tupleSize 0) 0 row.columns = row.packed :=
    packFields_full (by rw [List.length_replicate]; exact hlen)
  have hmem : (r.bytesAt ⟨fun _ => 0, fun _ => [], 0, 0, 0⟩ .tuple).length = j.tupleSize := by
    simp [JoinRow.bytesAt, hr]
  simp only [Join.buildTuple, Join.buildPipe, execRow, JoinSubop.exec, bind, Except.bind]
  rw [← List.append_nil (Join.packers _ _ _),
    execRow_packers [] hcols (l := .tuple) rfl (by rw [hmem, Nat.zero_add]; exact hlen.le)
      (by rw [hmem]; omega)]
  simp only [execRow, JoinRow.storeAt, JoinRow.bytesAt, hr, hfull]

theorem materializeRows_spec (hsizes : BuildSizes j) {rows : List SideRow}
    (hrows : ∀ row ∈ rows, row.Typed j.keysLeft j.payloadLeft) :
    ∃ m, j.materializeRows rows = .ok m ∧ m.tupleSize = j.tupleSize ∧
      m.tuples = rows.map SideRow.packed := by
  have hfold : ∀ (rows : List SideRow) (m : TupleMaterializer),
      (∀ row ∈ rows, row.Typed j.keysLeft j.payloadLeft) → m.tupleSize = j.tupleSize →
      ∃ m', rows.foldlM (fun m row => do
        let tuple ← j.buildTuple row
        .ok (m.materialize tuple)) m = (.ok m' : Except Fault TupleMaterializer) ∧
        m'.tupleSize = j.tupleSize ∧ m'.tuples = m.tuples ++ rows.map SideRow.packed := by
    intro rows
    induction rows with
    | nil =>
      intro m _ hsize
      exact ⟨m, rfl, hsize, by simp⟩
    | cons row rows ih =>
      intro m htyped hsize
      have hstep := m.materialize_tuples row.packed
      obtain ⟨m', hrun, hsize', htuples⟩ := ih (m.materialize row.packed)
        (fun r hr => htyped r (List.mem_cons_of_mem _ hr)) (hstep.1.trans hsize)
      refine ⟨m', ?_, hsize', ?_⟩
      · rw [List.foldlM_cons, buildTuple_eq hsizes (htyped row List.mem_cons_self)]
        exact hrun
      · rw [htuples, hstep.2, List.map_cons, List.append_assoc, List.singleton_append]
  have hcreate : TupleMaterializer.create j.tupleSize = .ok ⟨j.tupleSize, [], []⟩ := by
    rw [TupleMaterializer.create, if_neg (by have := hsizes.tuple_le; omega)]
  obtain ⟨m, hrun, hsize, htuples⟩ := hfold rows ⟨j.tupleSize, [], []⟩ hrows rfl
  refine ⟨m, ?_, hsize, by simpa [TupleMaterializer.tuples, TupleMaterializer.chunks] using htuples⟩
  simp only [Join.materializeRows, hcreate, bind, Except.bind]
  exact hrun

theorem mapM_getNumTuples {ms : List TupleMaterializer} (hpos : ∀ m ∈ ms, 0 < m.tupleSize) :
    ms.mapM TupleMaterializer.getNumTuples = .ok (ms.map fun m => m.tuples.length) := by
  induction ms with
  | nil => rfl
  | cons m ms ih =>
    rw [List.mapM_cons, m.getNumTuples_eq (hpos m List.mem_cons_self),
      ih fun m hm => hpos m (List.mem_cons_of_mem _ hm)]
    rfl

/-- The allocated table has more slots than there are tuples. -/
theorem allocHashTable_spec {slotSize : ℕ} (hsize : slotSize < 2 ^ 16)
    {ms : List TupleMaterializer} (hpos : ∀ m ∈ ms, 0 < m.tupleSize) :
    ∃ table numSlots, allocHashTable slotSize ms = .ok table ∧
      AtomicHashTable.create slotSize numSlots = .ok table ∧ table.totalSlotSize = slotSize ∧
      table.modMask + 1 = numSlots ∧
        (ms.map TupleMaterializer.tuples).flatten.length < numSlots := by
  have hcounts := mapM_getNumTuples hpos
  set total := (ms.map fun m => m.tuples.length).sum with htotal
  have hlen : (ms.map TupleMaterializer.tuples).flatten.length = total := by
    simp [List.length_flatten, htotal, Function.comp_def]
  set k := Nat.log2 (max 2 (2 * total) - 1) + 1 with hk
  have hlt : max 2 (2 * total) - 1 < 2 ^ k := Nat.lt_log2_self
  have htwo : 2 ≤ 2 ^ k := by omega
  have hand : 2 ^ k &&& (2 ^ k - 1) = 0 :=
    (Nat.and_sub_one_eq_zero_iff_isPowerOfTwo (by omega)).mpr ⟨k, rfl⟩
  have hcheck : ¬ (2 ^ k < 2 ∨ 2 ^ k &&& (2 ^ k - 1) ≠ 0) := by
    simp only [hand, ne_eq, not_true_eq_false, or_false]
    omega
  have hcreate : AtomicHashTable.create slotSize (2 ^ k) = .ok _ := if_neg hcheck
  refine ⟨_, 2 ^ k, ?_, hcreate, ?_, ?_, by omega⟩
  · simp only [allocHashTable, hcounts, bind, Except.bind, ← htotal, ← hk]
    exact hcreate
  · exact Nat.mod_eq_of_lt hsize
  · simp only
    omega

end Materialize

/-- The table holds the rows `rows` in dense row layout, each in its own slot. -/
def Loaded (C : Comparator) (table : AtomicHashTable) (rows : List SideRow) : Prop :=
  ∃ placed, AtomicHashTable.Filled C table placed ∧ AtomicHashTable.Tagged C table ∧
    (placed.map Prod.fst).Perm (rows.map SideRow.packed)

section Build

variable {j : Join} {hash : Bytes → UInt64} {left : Fin T → List SideRow}

theorem Join.comparator_hash_eq (a b : Bytes) (h : (j.comparator hash).eq a b = true) :
    (j.comparator hash).hash a = (j.comparator hash).hash b :=
  simpleKeyComparator_hash_eq a b h

/-- What the threads insert is what they and the others have materialized. -/
private theorem build_start (hsizes : BuildSizes j)
    (hleft : ∀ t, ∀ row ∈ left t, row.Typed j.keysLeft j.payloadLeft) :
    ∃ (ms : Fin T → TupleMaterializer) (fresh : AtomicHashTable) (numSlots : ℕ),
      (∀ t, j.materializeRows (left t) = .ok (ms t)) ∧
      allocHashTable j.tupleSize (List.ofFn ms) = .ok fresh ∧
      AtomicHashTable.create j.tupleSize numSlots = .ok fresh ∧
      fresh.totalSlotSize = j.tupleSize ∧ fresh.modMask + 1 = numSlots ∧
      ((List.ofFn ms).map TupleMaterializer.tuples).flatten =
        (List.ofFn left).flatten.map SideRow.packed ∧
      (List.ofFn left).flatten.length < numSlots := by
  choose ms hms hmsize htuples using fun t => materializeRows_spec hsizes (hleft t)
  have hall : ((List.ofFn ms).map TupleMaterializer.tuples).flatten =
      (List.ofFn left).flatten.map SideRow.packed := by
    rw [List.map_flatten, List.map_ofFn, List.map_ofFn]
    congr 2
    funext t
    exact htuples t
  have hpos : ∀ m ∈ List.ofFn ms, 0 < m.tupleSize := by
    intro m hm
    obtain ⟨t, rfl⟩ := (List.mem_ofFn' _ _).mp hm
    rw [hmsize t]
    exact hsizes.tuple_pos
  have hle := hsizes.tuple_le
  rw [regionSize] at hle
  obtain ⟨fresh, numSlots, halloc, hcreate, hslot, hmask, hroom⟩ :=
    allocHashTable_spec (by omega : j.tupleSize < 2 ^ 16) hpos
  refine ⟨ms, fresh, numSlots, hms, halloc, hcreate, hslot, hmask, hall, ?_⟩
  rwa [hall, List.length_map] at hroom

/-- Every table that the build side can lead to holds exactly the rows of the left input. -/
theorem BuildsTable.loaded (hsizes : BuildSizes j)
    (hleft : ∀ t, ∀ row ∈ left t, row.Typed j.keysLeft j.payloadLeft) {table : AtomicHashTable}
    (h : BuildsTable j hash left table) :
    Loaded (j.comparator hash) table (List.ofFn left).flatten := by
  obtain ⟨ms, hms, fresh, halloc, picked, schedule, hperm, hfin, rfl⟩ := h
  obtain ⟨ms', fresh', numSlots, hms', halloc', hcreate, hslot, hmask, hall, hroom⟩ :=
    build_start hsizes hleft
  obtain rfl : ms = ms' := funext fun t => Except.ok.inj ((hms t).symm.trans (hms' t))
  obtain rfl := Except.ok.inj (halloc.symm.trans halloc')
  rw [hall] at hperm
  have hsum : ∑ t, (picked t).length = (List.ofFn left).flatten.length := by
    rw [← List.sum_ofFn, ← List.length_map (f := SideRow.packed), ← hperm.length_eq,
      List.length_flatten, List.map_ofFn]
    rfl
  have hlen : ∀ t, ∀ row ∈ picked t, row.length = fresh.totalSlotSize := by
    intro t row hrow
    have hmem : row ∈ (List.ofFn picked).flatten :=
      List.mem_flatten.mpr ⟨picked t, (List.mem_ofFn' _ _).mpr ⟨t, rfl⟩, hrow⟩
    obtain ⟨r, hr, rfl⟩ := List.mem_map.mp (hperm.mem_iff.mp hmem)
    obtain ⟨rs, hrs, hr⟩ := List.mem_flatten.mp hr
    obtain ⟨u, rfl⟩ := (List.mem_ofFn' _ _).mp hrs
    rw [hslot, (hleft u r hr).packed_length]
    rfl
  have hstart := startBuild_inv (C := j.comparator hash) hcreate hlen
  have hroom' : ∑ t, (picked t).length < (startBuild fresh picked).table.modMask + 1 := by
    rw [hsum]
    exact hmask ▸ hroom
  obtain ⟨hbmask, occ, hinv⟩ := buildRun_inv hstart hroom' schedule
  obtain ⟨hfilled, htagged, hdone⟩ := hinv.filled (by rw [hbmask]; exact hroom') hfin
  refine ⟨_, hfilled, htagged, ?_⟩
  have hplaced : (Build.placed (buildRun (j.comparator hash) (startBuild fresh picked)
      schedule)).map Prod.fst = (List.ofFn picked).flatten := by
    rw [Build.placed, List.map_flatMap, List.flatMap, List.map_congr_left fun t _ => hdone t,
      List.ofFn_eq_map]
  rw [hplaced]
  exact hperm

/-- The build side always leads to a table. -/
theorem exists_buildsTable (hsizes : BuildSizes j)
    (hleft : ∀ t, ∀ row ∈ left t, row.Typed j.keysLeft j.payloadLeft) :
    ∃ table, BuildsTable j hash left table := by
  obtain ⟨ms, fresh, numSlots, hms, halloc, hcreate, hslot, hmask, hall, hroom⟩ :=
    build_start hsizes hleft
  have hlen : ∀ t, ∀ row ∈ (ms t).tuples, row.length = fresh.totalSlotSize := by
    intro t row hrow
    have hmem : row ∈ ((List.ofFn ms).map TupleMaterializer.tuples).flatten := by
      refine List.mem_flatten.mpr ⟨(ms t).tuples, List.mem_map.mpr ⟨ms t, ?_, rfl⟩, hrow⟩
      exact (List.mem_ofFn' _ _).mpr ⟨t, rfl⟩
    rw [hall] at hmem
    obtain ⟨r, hr, rfl⟩ := List.mem_map.mp hmem
    obtain ⟨rs, hrs, hr⟩ := List.mem_flatten.mp hr
    obtain ⟨u, rfl⟩ := (List.mem_ofFn' _ _).mp hrs
    rw [hslot, (hleft u r hr).packed_length]
    rfl
  have hstart : BuildInv (j.comparator hash) (fun t => (ms t).tuples)
      (startBuild fresh fun t => (ms t).tuples) _ := startBuild_inv hcreate hlen
  have hsum : ∑ t, (ms t).tuples.length = (List.ofFn left).flatten.length := by
    rw [← List.sum_ofFn, ← List.length_map (f := SideRow.packed), ← hall,
      List.length_flatten, List.map_map, List.map_ofFn]
    rfl
  obtain ⟨schedule, hfin⟩ := hstart.exists_finished (by
    rw [hsum]
    exact hmask ▸ hroom)
  refine ⟨_, ms, hms, fresh, halloc, fun t => (ms t).tuples, schedule, ?_, hfin, rfl⟩
  rw [List.map_ofFn]
  rfl

end Build

end InkFuse.Algebra
