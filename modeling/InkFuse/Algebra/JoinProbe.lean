import InkFuse.Algebra.JoinBuild

/-!
The probe pipeline of a join on one row. A row without a match is filtered out; a row
with a match leaves the pipeline with the columns that are unpacked from the slot and
from its own scratch pad.
-/

namespace InkFuse.Algebra

open Bytes Codegen
open InkFuse.Runtime

namespace Join

variable (j : Join)

def output (r : JoinRow) : Except Fault (List Bytes) :=
  j.outputIUs.mapM fun iu =>
    match r.iu iu with
    | some (.bytes b) => .ok b
    | _ => .error .runtimeError

def probeRow (C : Comparator) (table : AtomicHashTable) (row : SideRow) :
    Except Fault (AtomicHashTable × Option (List Bytes)) := do
  let (table, r) ← execRow C j.tupleSize j.probePipe table row.rightRow
  match r with
  | some r => do
    let out ← j.output r
    .ok (table, some out)
  | none => .ok (table, none)

/-- The rows of the right input in the order in which they are probed, with the output
rows they lead to. -/
def probeRows (C : Comparator) :
    AtomicHashTable → List SideRow → Except Fault (AtomicHashTable × List (List Bytes))
  | table, [] => .ok (table, [])
  | table, row :: rows => do
    let (table, out) ← j.probeRow C table row
    let (table, outs) ← probeRows C table rows
    .ok (table, out.toList ++ outs)

def lookupStep (C : Comparator) (table : AtomicHashTable) (key : Bytes) :
    Except Fault (AtomicHashTable × Option ℕ) :=
  if j.type == .leftSemi then table.lookupDisable C key (C.hash key)
  else do
    let found ← table.lookup C key (C.hash key)
    .ok (table, found)

end Join

/-- The sizes for which the whole plan is set up. -/
structure JoinSizes (j : Join) : Prop extends BuildSizes j where
  keys_eq : j.keysRight = j.keysLeft
  probe_lt : j.keySizeRight + j.payloadSizeRight < memoryRegionSize
  semi_payload : j.type = .leftSemi → j.payloadRight = []

section Columns

theorem columns_fst (iu : ℕ → JoinIU) (types : List IRType) :
    (Join.columns iu types).map Prod.fst = (List.range types.length).map iu := by
  have hsnd : (Join.columns iu types).map Prod.fst = (types.zipIdx.map Prod.snd).map iu := by
    rw [Join.columns, List.map_map, List.map_map]
    rfl
  rw [hsnd, List.zipIdx_map_snd, List.range_eq_range']

theorem columns_snd (iu : ℕ → JoinIU) (types : List IRType) :
    (Join.columns iu types).map Prod.snd = types := by
  simp [Join.columns, Function.comp_def]

/-- Two lists of columns with IUs of different kinds. -/
theorem nodup_columns {iu iu' : ℕ → JoinIU} (hinj : Function.Injective iu)
    (hinj' : Function.Injective iu') (hne : ∀ a b, iu a ≠ iu' b) (types types' : List IRType) :
    ((Join.columns iu types ++ Join.columns iu' types').map Prod.fst).Nodup := by
  rw [List.map_append, columns_fst, columns_fst]
  refine (List.nodup_range.map hinj).append (List.nodup_range.map hinj') ?_
  intro u hu hu'
  obtain ⟨a, _, rfl⟩ := List.mem_map.mp hu
  obtain ⟨b, _, hb⟩ := List.mem_map.mp hu'
  exact hne a b hb.symm

theorem notMem_columns {iu : ℕ → JoinIU} {u : JoinIU} (hne : ∀ a, iu a ≠ u)
    (types : List IRType) : u ∉ (Join.columns iu types).map Prod.fst := by
  rw [columns_fst]
  intro hu
  obtain ⟨a, _, ha⟩ := List.mem_map.mp hu
  exact hne a ha

variable {j : Join}

theorem rowLeftOut_nodup : (j.rowLeftOut.map Prod.fst).Nodup :=
  nodup_columns (fun _ _ h => JoinIU.keyLeftOut.inj h) (fun _ _ h => JoinIU.payloadLeftOut.inj h)
    (fun _ _ => by simp) _ _

theorem rowRightOut_nodup : (j.rowRightOut.map Prod.fst).Nodup := by
  unfold Join.rowRightOut
  split
  · simp
  · exact nodup_columns (fun _ _ h => JoinIU.keyRightOut.inj h)
      (fun _ _ h => JoinIU.payloadRightOut.inj h) (fun _ _ => by simp) _ _

theorem notMem_rowLeftOut {u : JoinIU} (hkey : ∀ a, .keyLeftOut a ≠ u)
    (hpayload : ∀ a, .payloadLeftOut a ≠ u) : u ∉ j.rowLeftOut.map Prod.fst := by
  rw [Join.rowLeftOut, List.map_append, List.mem_append, not_or]
  exact ⟨notMem_columns hkey _, notMem_columns hpayload _⟩

theorem notMem_rowRightOut {u : JoinIU} (hkey : ∀ a, .keyRightOut a ≠ u)
    (hpayload : ∀ a, .payloadRightOut a ≠ u) : u ∉ j.rowRightOut.map Prod.fst := by
  unfold Join.rowRightOut
  split
  · simp
  · rw [List.map_append, List.mem_append, not_or]
    exact ⟨notMem_columns hkey _, notMem_columns hpayload _⟩

theorem rowLeftOut_types : j.rowLeftOut.map Prod.snd = j.keysLeft ++ j.payloadLeft := by
  rw [Join.rowLeftOut, List.map_append, columns_snd, columns_snd]

/-- The IUs unpacked from the slot are not those unpacked from the scratch pad. -/
theorem rowLeftOut_disjoint {c : JoinIU × IRType} (hc : c ∈ j.rowLeftOut) :
    c.1 ∉ j.rowRightOut.map Prod.fst := by
  intro hmem
  have hfst := List.mem_map_of_mem (f := Prod.fst) hc
  rw [Join.rowLeftOut, List.map_append, columns_fst, columns_fst] at hfst
  unfold Join.rowRightOut at hmem
  split at hmem
  · simp at hmem
  · rw [List.map_append, columns_fst, columns_fst] at hmem
    rcases List.mem_append.mp hfst with h | h <;> rcases List.mem_append.mp hmem with h' | h' <;>
      obtain ⟨a, _, ha⟩ := List.mem_map.mp h <;> obtain ⟨b, _, hb⟩ := List.mem_map.mp h' <;>
      rw [← ha] at hb <;> exact absurd hb (by simp)

/-- Output values are read off the IUs. -/
theorem mapM_output {r : JoinRow} {ius : List JoinIU} {vals : List Bytes}
    (h : ius.map r.iu = vals.map fun b => some (.bytes b)) :
    ius.mapM (fun iu => match r.iu iu with
      | some (.bytes b) => .ok b
      | _ => .error .runtimeError) = (.ok vals : Except Fault (List Bytes)) := by
  induction ius generalizing vals with
  | nil =>
    simp only [List.map_nil, List.nil_eq, List.map_eq_nil_iff] at h
    subst h
    rfl
  | cons iu ius ih =>
    cases vals with
    | nil => exact absurd h (by simp)
    | cons v vals =>
      simp only [List.map_cons, List.cons.injEq] at h
      simp only [List.mapM_cons, h.1, ih h.2]
      rfl

end Columns

section Probe

variable {j : Join} {C : Comparator} {table table' : AtomicHashTable} {row : SideRow}

theorem sizeOf_append (ks ps : List IRType) :
    Join.sizeOf (ks ++ ps) = Join.sizeOf ks + Join.sizeOf ps := by
  simp [Join.sizeOf]

theorem hasColumns_rightRow (hrow : row.Typed j.keysRight j.payloadRight)
    {iu : JoinIU → Option Value}
    (hkeys : ∀ i, iu (.keyRight i) = row.keys[i]?.map .bytes)
    (hpayload : ∀ i, iu (.payloadRight i) = row.payload[i]?.map .bytes) :
    HasColumns iu j.fullRowRight row.columns :=
  hasColumns_append (hasColumns_columns hrow.keys hkeys)
    (hasColumns_columns hrow.payload hpayload)

def lookedUp (C : Comparator) (row : SideRow) (found : Option ℕ) : JoinRow :=
  ((({ row.rightRow.set .scratchPadRight (.pointer .scratch) with scratch := row.packed }).set
    .hashRight (.word (C.hash row.packed))).set .lookupRight
      (match found with
        | some i => .pointer (.slot i)
        | none => .null))

/-- Steps 2.1 and 2.2 of the plan. -/
theorem execRow_probeLookup (hsizes : JoinSizes j) (hrow : row.Typed j.keysRight j.payloadRight)
    (rest : List JoinSubop) {found : Option ℕ}
    (hlookup : j.lookupStep C table row.packed = .ok (table', found)) :
    execRow C j.tupleSize (j.probeLookup ++ rest) table row.rightRow =
      execRow C j.tupleSize rest table' (lookedUp C row found) := by
  have hlen : row.packed.length = j.keySizeRight + j.payloadSizeRight := hrow.packed_length
  have hlt := hsizes.probe_lt
  set r : JoinRow := { row.rightRow.set .scratchPadRight (.pointer .scratch) with
    scratch := List.replicate (j.keySizeRight + j.payloadSizeRight) 0 } with hr
  have hcols : HasColumns r.iu j.fullRowRight row.columns := by
    apply hasColumns_rightRow hrow
    · intro i
      rfl
    · intro i
      rfl
  have hmem : (r.bytesAt table .scratch).length = j.keySizeRight + j.payloadSizeRight := by
    simp [JoinRow.bytesAt, hr]
  have hfull : packFields (r.bytesAt table .scratch) 0 row.columns = row.packed :=
    packFields_full (by rw [hmem]; exact hlen)
  simp only [Join.probeLookup, List.cons_append, List.append_assoc, execRow, JoinSubop.exec,
    if_pos hlt, bind, Except.bind]
  rw [memoryRegionSize] at hlt
  rw [execRow_packers _ hcols (l := .scratch) rfl (by rw [hmem, Nat.zero_add]; exact hlen.le)
    (by rw [hmem]; omega), hfull]
  simp only [Join.lookupStep, bind, Except.bind] at hlookup
  have hkey : JoinRow.bytesAt (JoinRow.set { r with scratch := row.packed } .hashRight
      (.word (C.hash row.packed))) table .scratch = row.packed := rfl
  cases htype : j.type == .leftSemi with
  | true =>
    rw [htype, if_pos rfl] at hlookup
    simp only [JoinRow.storeAt, List.nil_append, execRow, JoinSubop.exec,
      bind, Except.bind, JoinRow.set, hr, JoinRow.bytesAt, ne_eq, reduceCtorEq,
      not_false_eq_true, Function.update_of_ne, Function.update_self, if_true, hlookup]
    cases found <;> rfl
  | false =>
    rw [htype, if_neg (by simp)] at hlookup
    split at hlookup
    · exact absurd hlookup (by simp)
    · rename_i found' hfound
      obtain ⟨rfl, rfl⟩ := Prod.mk.inj (Except.ok.inj hlookup)
      simp only [JoinRow.storeAt, List.nil_append, execRow, JoinSubop.exec,
        bind, Except.bind, JoinRow.set, hr, JoinRow.bytesAt, ne_eq, reduceCtorEq,
        not_false_eq_true, Function.update_of_ne, Function.update_self,
        Bool.false_eq_true, if_false, hfound]
      cases found' <;> rfl

/-- The scratch pad of a probe row has to be smaller than a memory region. -/
theorem probeRow_large (hlarge : ¬ j.keySizeRight + j.payloadSizeRight < memoryRegionSize) :
    j.probeRow C table row = .error .outOfBounds := by
  simp only [Join.probeRow, Join.probePipe, Join.probeLookup, List.cons_append, execRow,
    JoinSubop.exec, if_neg hlarge, bind, Except.bind]

/-- A row without a match does not leave the pipeline. -/
theorem probeRow_miss (hsizes : JoinSizes j) (hrow : row.Typed j.keysRight j.payloadRight)
    (hlookup : j.lookupStep C table row.packed = .ok (table', none)) :
    j.probeRow C table row = .ok (table', none) := by
  have hexec := execRow_probeLookup hsizes hrow (j.probeFilter ++ j.probeUnpack) hlookup
  have hnull : (lookedUp C row none).iu .lookupRight = some .null := by simp [lookedUp, JoinRow.set]
  simp only [Join.probeRow, Join.probePipe, List.append_assoc, hexec, bind, Except.bind]
  simp only [Join.probeFilter, List.cons_append, execRow, JoinSubop.exec, hnull, bind, Except.bind]

/-- The row after the filter, in which `filteredBuild` points to the slot and, unless the
join is a semi join, `filteredProbe` points to the scratch pad. -/
theorem execRow_probeFilter (j : Join) (C : Comparator) (table : AtomicHashTable) {r : JoinRow}
    {i : ℕ} (hslot : r.iu .lookupRight = some (.pointer (.slot i)))
    (hscratch : r.iu .scratchPadRight = some (.pointer .scratch)) (rest : List JoinSubop) :
    ∃ iu, execRow C j.tupleSize (j.probeFilter ++ rest) table r =
        execRow C j.tupleSize rest table { r with iu := iu } ∧
      iu .filteredBuild = some (.pointer (.slot i)) ∧
      (j.type ≠ .leftSemi → iu .filteredProbe = some (.pointer .scratch)) := by
  by_cases hsemi : j.type = .leftSemi
  · refine ⟨(r.set .filteredBuild (.pointer (.slot i))).iu, ?_, ?_, ?_⟩
    · simp only [Join.probeFilter, hsemi, if_true, List.append_nil, List.cons_append,
        List.nil_append, execRow, JoinSubop.exec, hslot, bind, Except.bind]
      rfl
    · simp [JoinRow.set]
    · exact fun h => absurd hsemi h
  · refine ⟨((r.set .filteredBuild (.pointer (.slot i))).set .filteredProbe
      (.pointer .scratch)).iu, ?_, ?_, ?_⟩
    · have hscratch' : (r.set .filteredBuild (.pointer (.slot i))).iu .scratchPadRight =
          some (.pointer .scratch) := by
        simpa [JoinRow.set] using hscratch
      simp only [Join.probeFilter, hsemi, if_false, List.cons_append, List.nil_append, execRow,
        JoinSubop.exec, hslot, hscratch', bind, Except.bind]
      rfl
    · simp [JoinRow.set]
    · simp [JoinRow.set]

/-- What the unpackers read from a scratch pad. -/
def Join.rightColumns (j : Join) (scratch : Bytes) : List Bytes :=
  if j.type = .leftSemi then []
  else unpackFields scratch 0 ((j.keysRight ++ j.payloadRight).map IRType.numBytes)

/-- The unpackers of the left columns, which come from the slot. -/
theorem execRow_unpackLeft (hsizes : JoinSizes j) {r : JoinRow} {i : ℕ}
    (hbuild : r.iu .filteredBuild = some (.pointer (.slot i)))
    {lrow : SideRow} (hlrow : lrow.Typed j.keysLeft j.payloadLeft)
    (hdata : table.data i = lrow.packed) (rest : List JoinSubop) :
    ∃ iu, execRow C j.tupleSize (Join.unpackers .filteredBuild j.rowLeftOut 0 ++ rest) table r =
        execRow C j.tupleSize rest table { r with iu := iu } ∧
      (∀ u, u ∉ j.rowLeftOut.map Prod.fst → iu u = r.iu u) ∧
      j.rowLeftOut.map (fun c => iu c.1) = lrow.columns.map fun b => some (.bytes b) := by
  have hle := hsizes.tuple_le
  rw [regionSize] at hle
  have hslot : (r.bytesAt table (.slot i)).length = j.tupleSize := by
    simp only [JoinRow.bytesAt, hdata]
    exact hlrow.packed_length
  have hroom : 0 + Join.sizeOf (j.rowLeftOut.map Prod.snd) ≤
      (r.bytesAt table (.slot i)).length := by
    rw [hslot, rowLeftOut_types, sizeOf_append, Nat.zero_add]
    exact le_rfl
  obtain ⟨iu, hunpack, hother, hvals⟩ := execRow_unpackers (C := C) j.tupleSize rest hbuild
    rowLeftOut_nodup (notMem_rowLeftOut (by simp) (by simp)) hroom (by omega)
  have hwidths : j.rowLeftOut.map (fun c => c.2.numBytes) = lrow.columns.map List.length := by
    rw [hlrow.widths, ← rowLeftOut_types, List.map_map]
    rfl
  refine ⟨iu, hunpack, hother, ?_⟩
  rw [hvals, hwidths]
  simp only [JoinRow.bytesAt, hdata]
  rw [SideRow.packed, unpackFields_flatten]

theorem rowRightOut_types (htype : j.type ≠ .leftSemi) :
    j.rowRightOut.map Prod.snd = j.keysRight ++ j.payloadRight := by
  rw [Join.rowRightOut, if_neg htype, List.map_append, columns_snd, columns_snd]

/-- The output of the unpackers: the columns of the row in the slot, and those of the scratch
pad. -/
theorem execRow_probeUnpack (hsizes : JoinSizes j) {r : JoinRow} {i : ℕ}
    (hbuild : r.iu .filteredBuild = some (.pointer (.slot i)))
    (hprobe : j.type ≠ .leftSemi → r.iu .filteredProbe = some (.pointer .scratch))
    {lrow : SideRow} (hlrow : lrow.Typed j.keysLeft j.payloadLeft)
    (hdata : table.data i = lrow.packed)
    (hscratch : j.keySizeRight + j.payloadSizeRight ≤ r.scratch.length)
    (hsmall : r.scratch.length < 2 ^ 16) :
    ∃ iu, execRow C j.tupleSize j.probeUnpack table r = .ok (table, some { r with iu := iu }) ∧
      j.output { r with iu := iu } = .ok (lrow.columns ++ j.rightColumns r.scratch) := by
  obtain ⟨iu₁, hunpack₁, hother₁, hleft⟩ := execRow_unpackLeft (C := C) hsizes hbuild hlrow hdata
    (Join.unpackers .filteredProbe j.rowRightOut 0 ++ [])
  -- The right columns come from the scratch pad.
  obtain ⟨iu₂, hunpack₂, hother₂, hright⟩ : ∃ iu₂,
      execRow C j.tupleSize (Join.unpackers .filteredProbe j.rowRightOut 0 ++ []) table
        { r with iu := iu₁ } = .ok (table, some { r with iu := iu₂ }) ∧
      (∀ u, u ∉ j.rowRightOut.map Prod.fst → iu₂ u = iu₁ u) ∧
      j.rowRightOut.map (fun c => iu₂ c.1) =
        (j.rightColumns r.scratch).map fun b => some (.bytes b) := by
    by_cases hsemi : j.type = .leftSemi
    · exact ⟨iu₁, by simp [Join.rowRightOut, hsemi, Join.unpackers, execRow],
        fun _ _ => rfl, by simp [Join.rowRightOut, Join.rightColumns, hsemi]⟩
    · have hptr : iu₁ .filteredProbe = some (.pointer .scratch) := by
        rw [hother₁ _ (notMem_rowLeftOut (by simp) (by simp))]
        exact hprobe hsemi
      have htypes := rowRightOut_types hsemi
      have hroom₂ : 0 + Join.sizeOf (j.rowRightOut.map Prod.snd) ≤
          (JoinRow.bytesAt { r with iu := iu₁ } table .scratch).length := by
        rw [htypes, sizeOf_append, Nat.zero_add]
        exact hscratch
      obtain ⟨iu₂, hunpack₂, hother₂, hvals₂⟩ := execRow_unpackers (C := C) j.tupleSize [] hptr
        rowRightOut_nodup (notMem_rowRightOut (by simp) (by simp)) hroom₂ hsmall
      refine ⟨iu₂, hunpack₂, hother₂, ?_⟩
      rw [hvals₂, Join.rightColumns, if_neg hsemi, ← htypes, List.map_map]
      rfl
  have hleft₂ : j.rowLeftOut.map (fun c => iu₂ c.1) = j.rowLeftOut.map (fun c => iu₁ c.1) :=
    List.map_congr_left fun c hc => hother₂ c.1 (rowLeftOut_disjoint hc)
  refine ⟨iu₂, ?_, ?_⟩
  · rw [Join.probeUnpack, ← List.append_nil (Join.unpackers .filteredProbe _ _), hunpack₁,
      hunpack₂]
  · apply mapM_output
    rw [Join.outputIUs, List.map_append, List.map_append, List.map_append, List.map_map,
      List.map_map, ← hright, ← hleft, ← hleft₂]
    rfl

/-- A row with a match leaves the pipeline with the columns of both rows; only the left ones
for a semi join. -/
theorem probeRow_hit (hsizes : JoinSizes j) (hrow : row.Typed j.keysRight j.payloadRight)
    {i : ℕ} (hlookup : j.lookupStep C table row.packed = .ok (table', some i)) {lrow : SideRow}
    (hlrow : lrow.Typed j.keysLeft j.payloadLeft) (hdata : table'.data i = lrow.packed) :
    j.probeRow C table row = .ok (table', some
      (lrow.columns ++ if j.type = .leftSemi then [] else row.columns)) := by
  have hexec := execRow_probeLookup hsizes hrow (j.probeFilter ++ j.probeUnpack) hlookup
  have hlen : row.packed.length = j.keySizeRight + j.payloadSizeRight := hrow.packed_length
  have hlt := hsizes.probe_lt
  rw [memoryRegionSize] at hlt
  obtain ⟨iu, hfilter, hbuild, hprobe⟩ := execRow_probeFilter j C table'
    (r := lookedUp C row (some i)) (i := i) (by simp [lookedUp, JoinRow.set])
    (by simp [lookedUp, JoinRow.set]) j.probeUnpack
  obtain ⟨iu', hunpack, houtput⟩ := execRow_probeUnpack (C := C)
    (r := { lookedUp C row (some i) with iu := iu }) hsizes hbuild hprobe hlrow hdata
    hlen.ge (by change row.packed.length < 2 ^ 16; omega)
  have hright : j.rightColumns row.packed = if j.type = .leftSemi then [] else row.columns := by
    rw [Join.rightColumns, ← hrow.widths, SideRow.packed, unpackFields_flatten]
  have hrun : execRow C j.tupleSize j.probePipe table row.rightRow =
      .ok (table', some { lookedUp C row (some i) with iu := iu' }) := by
    rw [Join.probePipe, List.append_assoc, hexec, hfilter, hunpack]
  simp only [Join.probeRow, hrun, bind, Except.bind, ← hright]
  rw [show j.output { lookedUp C row (some i) with iu := iu' } = _ from houtput]
  rfl

end Probe

end InkFuse.Algebra
