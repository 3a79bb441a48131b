import InkFuse.Algebra.Join
import InkFuse.Bytes.Packing

/-!
Packers and unpackers of the join plan on a row. The packers of a list of columns write
the columns one behind the other, and the unpackers of the same types read them back,
as long as the offsets fit their sixteen-bit runtime parameter.
-/

namespace InkFuse.Algebra

open Bytes Codegen InkFuse.Runtime

/-- A row of one side of the join: its key columns and its payload columns. -/
structure SideRow where
  keys : List Bytes
  payload : List Bytes
  deriving DecidableEq

namespace SideRow

def columns (row : SideRow) : List Bytes := row.keys ++ row.payload

def packed (row : SideRow) : Bytes := row.columns.flatten

structure Typed (row : SideRow) (keyTypes payloadTypes : List IRType) : Prop where
  keys : row.keys.map List.length = keyTypes.map IRType.numBytes
  payload : row.payload.map List.length = payloadTypes.map IRType.numBytes

theorem Typed.keys_length {row : SideRow} {ks ps : List IRType} (h : row.Typed ks ps) :
    row.keys.flatten.length = Join.sizeOf ks := by
  rw [List.length_flatten, h.keys, Join.sizeOf]

theorem Typed.packed_length {row : SideRow} {ks ps : List IRType} (h : row.Typed ks ps) :
    row.packed.length = Join.sizeOf ks + Join.sizeOf ps := by
  simp only [packed, columns, List.flatten_append, List.length_append, List.length_flatten,
    h.keys, h.payload, Join.sizeOf]

/-- The key bytes are the first bytes of the row layout. -/
theorem Typed.readAt_packed {row : SideRow} {ks ps : List IRType} (h : row.Typed ks ps) :
    readAt row.packed 0 (Join.sizeOf ks) = row.keys.flatten := by
  rw [readAt_zero, packed, columns, List.flatten_append, ← h.keys_length, List.take_left]

/-- Rows of the same types with the same key bytes agree in every key column. -/
theorem Typed.keys_eq_iff {a b : SideRow} {ks ps qs : List IRType} (ha : a.Typed ks ps)
    (hb : b.Typed ks qs) : a.keys.flatten = b.keys.flatten ↔ a.keys = b.keys :=
  ⟨flatten_injective (ha.keys.trans hb.keys.symm), congrArg List.flatten⟩

theorem Typed.widths {row : SideRow} {ks ps : List IRType} (h : row.Typed ks ps) :
    row.columns.map List.length = (ks ++ ps).map IRType.numBytes := by
  rw [columns, List.map_append, List.map_append, h.keys, h.payload]

def leftRow (row : SideRow) : JoinRow where
  iu
    | .keyLeft i => row.keys[i]?.map .bytes
    | .payloadLeft i => row.payload[i]?.map .bytes
    | _ => none
  tuple := []
  scratch := []

def rightRow (row : SideRow) : JoinRow where
  iu
    | .keyRight i => row.keys[i]?.map .bytes
    | .payloadRight i => row.payload[i]?.map .bytes
    | _ => none
  tuple := []
  scratch := []

end SideRow

def HasColumns (iu : JoinIU → Option Value) (cols : List (JoinIU × IRType))
    (vals : List Bytes) : Prop :=
  List.Forall₂ (fun c v => iu c.1 = some (.bytes v) ∧ v.length = c.2.numBytes) cols vals

theorem hasColumns_append {iu : JoinIU → Option Value} {cols cols' : List (JoinIU × IRType)}
    {vals vals' : List Bytes} (h : HasColumns iu cols vals) (h' : HasColumns iu cols' vals') :
    HasColumns iu (cols ++ cols') (vals ++ vals') := List.rel_append h h'

theorem HasColumns.congr {iu iu' : JoinIU → Option Value} {cols : List (JoinIU × IRType)}
    {vals : List Bytes} (h : HasColumns iu cols vals) (hiu : ∀ c ∈ cols, iu' c.1 = iu c.1) :
    HasColumns iu' cols vals := by
  induction h with
  | nil => exact .nil
  | cons hcv _ ih =>
    refine .cons ⟨?_, hcv.2⟩ (ih fun c hc => hiu c (List.mem_cons_of_mem _ hc))
    rw [hiu _ List.mem_cons_self, hcv.1]

private theorem hasColumns_zipIdx {env : JoinIU → Option Value} {iu : ℕ → JoinIU}
    {types : List IRType} {vals : List Bytes} (n : ℕ)
    (hlen : vals.map List.length = types.map IRType.numBytes)
    (hiu : ∀ i, env (iu (n + i)) = vals[i]?.map .bytes) :
    HasColumns env ((types.zipIdx n).map fun p => (iu p.2, p.1)) vals := by
  induction types generalizing n vals with
  | nil =>
    simp only [List.map_nil, List.map_eq_nil_iff] at hlen
    subst hlen
    exact .nil
  | cons type types ih =>
    cases vals with
    | nil => exact absurd hlen (by simp)
    | cons v vals =>
      simp only [List.map_cons, List.cons.injEq] at hlen
      refine .cons ⟨by simpa using hiu 0, hlen.1⟩ (ih (n + 1) hlen.2 fun i => ?_)
      have hi := hiu (i + 1)
      rw [List.getElem?_cons_succ] at hi
      rw [← hi]
      congr 2
      omega

theorem hasColumns_columns {env : JoinIU → Option Value} {iu : ℕ → JoinIU}
    {types : List IRType} {vals : List Bytes}
    (hlen : vals.map List.length = types.map IRType.numBytes)
    (hiu : ∀ i, env (iu i) = vals[i]?.map .bytes) :
    HasColumns env (Join.columns iu types) vals :=
  hasColumns_zipIdx 0 hlen (fun i => by simpa using hiu i)

section Exec

variable {C : Comparator} {tupleSize : ℕ} {table : AtomicHashTable} {r : JoinRow}
  {compoundKey : JoinIU} {cols : List (JoinIU × IRType)} {vals : List Bytes} {off : ℕ}

@[simp] theorem storeAt_iu (l : Location) (b : Bytes) :
    (JoinRow.storeAt table r l b).2.iu = r.iu := by
  cases l <;> rfl

@[simp] theorem bytesAt_storeAt (l : Location) (b : Bytes) :
    (JoinRow.storeAt table r l b).2.bytesAt (JoinRow.storeAt table r l b).1 l = b := by
  cases l with
  | slot i => simp [JoinRow.storeAt, JoinRow.bytesAt]
  | tuple => rfl
  | scratch => rfl

theorem storeAt_storeAt (l : Location) (a b : Bytes) :
    JoinRow.storeAt (JoinRow.storeAt table r l a).1 (JoinRow.storeAt table r l a).2 l b =
      JoinRow.storeAt table r l b := by
  cases l with
  | slot i => simp [JoinRow.storeAt, Function.update_idem]
  | tuple => rfl
  | scratch => rfl

theorem storeAt_self (l : Location) :
    JoinRow.storeAt table r l (r.bytesAt table l) = (table, r) := by
  cases l with
  | slot i => simp [JoinRow.storeAt, JoinRow.bytesAt]
  | tuple => rfl
  | scratch => rfl

/-- The packers of a list of columns write them one behind the other. -/
theorem execRow_packers (rest : List JoinSubop) {l : Location}
    (hcols : HasColumns r.iu cols vals) (hptr : r.iu compoundKey = some (.pointer l))
    (hroom : off + vals.flatten.length ≤ (r.bytesAt table l).length)
    (hsmall : (r.bytesAt table l).length < 2 ^ 16) :
    execRow C tupleSize (Join.packers compoundKey cols off ++ rest) table r =
      execRow C tupleSize rest
        (JoinRow.storeAt table r l (packFields (r.bytesAt table l) off vals)).1
        (JoinRow.storeAt table r l (packFields (r.bytesAt table l) off vals)).2 := by
  induction cols generalizing table r off vals with
  | nil =>
    cases hcols
    simp only [packFields, storeAt_self, Join.packers, List.nil_append]
  | cons c cols ih =>
    cases hcols with
    | @cons _ v _ vals hcv hrest =>
      obtain ⟨hval, hwidth⟩ := hcv
      simp only [List.flatten_cons, List.length_append] at hroom
      have hoff : packingOffset off = off := Nat.mod_eq_of_lt (by omega)
      have hfits : off + v.length ≤ (r.bytesAt table l).length := by omega
      have hlen : (writeAt (r.bytesAt table l) off v).length = (r.bytesAt table l).length :=
        writeAt_length hfits
      simp only [Join.packers, List.cons_append, execRow, JoinSubop.exec, hval, hptr, hoff, hfits,
        if_true, bind, Except.bind, packFields]
      rw [← hwidth, ih (by rw [storeAt_iu]; exact hrest) (by rw [storeAt_iu]; exact hptr)
        (by simp only [bytesAt_storeAt, hlen]; omega) (by simpa only [bytesAt_storeAt, hlen])]
      simp only [bytesAt_storeAt, storeAt_storeAt]

/-- The unpackers of a list of columns read them one behind the other. -/
theorem execRow_unpackers (tupleSize : ℕ) (rest : List JoinSubop) {l : Location}
    (hptr : r.iu compoundKey = some (.pointer l)) (hnodup : (cols.map Prod.fst).Nodup)
    (hcompound : compoundKey ∉ cols.map Prod.fst)
    (hroom : off + Join.sizeOf (cols.map Prod.snd) ≤ (r.bytesAt table l).length)
    (hsmall : (r.bytesAt table l).length < 2 ^ 16) :
    ∃ iu, execRow C tupleSize (Join.unpackers compoundKey cols off ++ rest) table r =
        execRow C tupleSize rest table { r with iu := iu } ∧
      (∀ u, u ∉ cols.map Prod.fst → iu u = r.iu u) ∧
      cols.map (fun c => iu c.1) =
        (unpackFields (r.bytesAt table l) off (cols.map fun c => c.2.numBytes)).map
          fun b => some (.bytes b) := by
  induction cols generalizing r off with
  | nil => exact ⟨r.iu, rfl, fun _ _ => rfl, rfl⟩
  | cons c cols ih =>
    rw [List.map_cons, List.nodup_cons] at hnodup
    simp only [List.map_cons, List.mem_cons, not_or] at hcompound
    simp only [Join.sizeOf, List.map_cons, List.sum_cons] at hroom ih
    have hoff : packingOffset off = off := Nat.mod_eq_of_lt (by omega)
    have hfits : off + c.2.numBytes ≤ (r.bytesAt table l).length := by omega
    set v := readAt (r.bytesAt table l) off c.2.numBytes with hv
    have hmem : (r.set c.1 (.bytes v)).bytesAt table l = r.bytesAt table l := by
      cases l <;> rfl
    have hrest : off + c.2.numBytes + ((cols.map Prod.snd).map IRType.numBytes).sum ≤
        ((r.set c.1 (.bytes v)).bytesAt table l).length := by
      rw [hmem]
      omega
    obtain ⟨iu, hexec, hother, hvals⟩ := ih (r := r.set c.1 (.bytes v))
      (by simpa [JoinRow.set, Function.update_of_ne hcompound.1] using hptr) hnodup.2 hcompound.2
      hrest (by rwa [hmem])
    refine ⟨iu, ?_, ?_, ?_⟩
    · simp only [Join.unpackers, List.cons_append, execRow, JoinSubop.exec, hptr, hoff, hfits,
        if_true, bind, Except.bind]
      exact hexec
    · intro u hu
      simp only [List.map_cons, List.mem_cons, not_or] at hu
      rw [hother u hu.2]
      simp [JoinRow.set, Function.update_of_ne hu.1]
    · have hself : iu c.1 = some (.bytes v) := by
        rw [hother c.1 hnodup.1]
        simp [JoinRow.set]
      rw [List.map_cons, hself, hvals, hmem]
      rfl

end Exec

end InkFuse.Algebra
