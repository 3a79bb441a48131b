import InkFuse.Storage.Relation
import Mathlib.Data.List.Forall2

/-!
When a row is loaded as a whole or not at all. A column that has failed before keeps the bytes it
has resized its storage by, and a line without a closing separator is left at its end.
-/

namespace InkFuse.Storage

open Bytes Codegen

section Specification

def LoadVal.value (float : FloatConversions) (field : Bytes) (loadVal : LoadVal) : Option Bytes :=
  if loadVal = loadChar then field.head?.map fun b => [b] else loadVal.run float (field ++ [0])

def Column.Appends (float : FloatConversions) (c : Column) (field : Bytes) (c' : Column) : Prop :=
  match c with
  | .pod c => ∃ bytes, c.loadVal.value float field = some bytes ∧
    c' = .pod { c with
      storage := c.storage ++ bytes
      storageOffset := c.storageOffset + c.type.numBytes }
  | .string offsets => c' = .string (offsets ++ [field])

def Appended (float : FloatConversions) (relation : List Column) (line : Bytes)
    (loaded : List Column) : Prop :=
  relation.length ≤ (line.splitOn separator).length ∧
    List.Forall₂ (fun p c' => p.1.Appends float p.2 c')
      (relation.zip (line.splitOn separator)) loaded

/-- Every column gets the value of its field, or an exception leaves all of them as they were. -/
def AllOrNothing (float : FloatConversions) (relation : List Column) (line : Bytes) : Prop :=
  match loadRow float relation line with
  | (.done, loaded) => Appended float relation line loaded
  | (.threw, left) => left = relation
  | (.undefined, _) => False

/-- The fields of a line, without the empty one behind a closing separator. -/
def presentFields (line : Bytes) : List Bytes :=
  if (line.splitOn separator).getLast? = some [] then (line.splitOn separator).dropLast
  else line.splitOn separator

/-- No bytes of a failed value are left. -/
def Column.Settled : Column → Prop
  | .pod c => c.storage.length = c.storageOffset
  | .string _ => True

def Column.Fits (float : FloatConversions) (field : Bytes) : Column → Prop
  | .pod c => (c.loadVal.value float field).isSome
  | .string _ => field.length + 1 < REGION_SIZE

/-- There is a field for every column, and every column can take its value. -/
def Loadable (float : FloatConversions) (relation : List Column) (line : Bytes) : Prop :=
  List.Forall₂ (fun c field => c.Settled ∧ c.Fits float field) relation
    ((presentFields line).take relation.length)

/-- The first column throws, and it has done so the last time, too. -/
def FailsAgain (float : FloatConversions) (relation : List Column) (line : Bytes) : Prop :=
  ∃ c rest field fields, relation = .pod c :: rest ∧ presentFields line = field :: fields ∧
    c.storage.length ≠ c.storageOffset ∧ c.loadVal.run float (field ++ [0]) = none

end Specification

section Fields

theorem presentFields_last {s : Bytes} (hs : s ≠ []) (hsep : separator ∉ s) :
    presentFields s = [s] := by
  unfold presentFields
  rw [List.splitOn_eq_singleton hsep, if_neg]
  simpa using hs

theorem presentFields_separator {f : Bytes} (hf : separator ∉ f) (t : Bytes) :
    presentFields (f ++ separator :: t) = f :: presentFields t := by
  have hne : t.splitOn separator ≠ [] := List.splitOn_ne_nil _ _
  have hlast : (f :: t.splitOn separator).getLast? = (t.splitOn separator).getLast? := by
    rw [List.getLast?_cons, List.getLast?_eq_getLast_of_ne_nil hne, Option.getD_some]
  unfold presentFields
  rw [List.splitOn_append_cons_self_of_not_mem hf, hlast, List.dropLast_cons_of_ne_nil hne]
  split <;> rfl

/-- What the rest of a line looks like to the loop. -/
theorem suffix_cases (s : Bytes) : s = [] ∨ s ≠ [] ∧ separator ∉ s ∨
    ∃ f t, separator ∉ f ∧ s = f ++ separator :: t := by
  by_cases hsep : separator ∈ s
  · obtain ⟨f, t, hs, hf⟩ := List.eq_append_cons_of_mem hsep
    exact .inr (.inr ⟨f, t, hf, hs⟩)
  · by_cases hs : s = []
    · exact .inl hs
    · exact .inr (.inl ⟨hs, hsep⟩)

end Fields

section Columns

variable {float : FloatConversions}

/-- The storage holds the loaded values, and behind them the bytes of at most one failed value. -/
def Column.WellFormed : Column → Prop
  | .pod c => c.storage.length = c.storageOffset ∨
    c.storage.length = c.storageOffset + c.type.numBytes
  | .string _ => True

theorem LoadVal.width_pos (loadVal : LoadVal) : 0 < loadVal.width := by
  cases loadVal with
  | loadInt size => cases size <;> decide
  | loadUint size => cases size <;> decide
  | _ => decide

theorem numBytes_of_resolve {type : IRType} {loadVal : LoadVal}
    (h : resolve type = some loadVal) : type.numBytes = loadVal.width := by
  unfold resolve at h
  split at h <;> cases h <;> rfl

theorem PODColumn.numBytes_pos (c : PODColumn) : 0 < c.type.numBytes := by
  rw [numBytes_of_resolve c.resolved]
  exact c.loadVal.width_pos

theorem LoadVal.run_length {memory bytes : Bytes} {loadVal : LoadVal}
    (h : loadVal.run float memory = some bytes) : bytes.length = loadVal.width := by
  cases loadVal with
  | loadDate =>
    cases h
    exact encode_length _ _
  | loadChar =>
    obtain ⟨b, _, rfl⟩ := Option.map_eq_some_iff.mp h
    rfl
  | _ =>
    obtain ⟨x, _, rfl⟩ := Option.map_eq_some_iff.mp h
    exact encode_length _ _

theorem LoadVal.value_length {field bytes : Bytes} {loadVal : LoadVal}
    (h : loadVal.value float field = some bytes) : bytes.length = loadVal.width := by
  unfold LoadVal.value at h
  split at h
  · next hchar =>
    obtain ⟨b, _, rfl⟩ := Option.map_eq_some_iff.mp h
    rw [hchar]
    rfl
  · exact run_length h

/-- A number or date ends at the separator. -/
theorem LoadVal.run_separator {loadVal : LoadVal} (h : loadVal ≠ loadChar) (field rest : Bytes) :
    loadVal.run float (field ++ separator :: rest) = loadVal.run float (field ++ [0]) := by
  cases loadVal with
  | loadDate =>
    show some _ = some _
    rw [cString_separator dateStrToInt_separator]
  | loadInt size =>
    show (stoll _).map _ = (stoll _).map _
    rw [cString_separator stoll_separator]
  | loadUint size =>
    show (stoull _).map _ = (stoull _).map _
    rw [cString_separator stoull_separator]
  | loadFloat =>
    show (float.stof (floatText _)).map _ = (float.stof (floatText _)).map _
    rw [cString_separator floatText_separator]
  | loadDouble =>
    show (float.stod (floatText _)).map _ = (float.stod (floatText _)).map _
    rw [cString_separator floatText_separator]
  | loadChar => exact absurd rfl h

/-- The memory behind a pointer to a field. -/
def Behind (field memory : Bytes) : Prop :=
  memory = field ++ [0] ∧ field ≠ [] ∨ ∃ rest, memory = field ++ separator :: rest

theorem LoadVal.run_behind {loadVal : LoadVal} {field memory : Bytes} (h : Behind field memory)
    (hfield : loadVal = loadChar → field ≠ []) :
    loadVal.run float memory = loadVal.value float field := by
  unfold LoadVal.value
  split
  · next hchar =>
    subst hchar
    obtain ⟨b, field', rfl⟩ := List.exists_cons_of_ne_nil (hfield rfl)
    obtain ⟨rfl, _⟩ | ⟨rest, rfl⟩ := h <;> rfl
  · next hchar =>
    obtain ⟨rfl, _⟩ | ⟨rest, rfl⟩ := h
    · rfl
    · exact run_separator hchar field rest

theorem LoadVal.run_eq_none {loadVal : LoadVal} {field memory : Bytes} (h : Behind field memory) :
    loadVal.run float memory = none ↔ loadVal.run float (field ++ [0]) = none := by
  obtain ⟨rfl, _⟩ | ⟨rest, rfl⟩ := h
  · exact Iff.rfl
  · by_cases hchar : loadVal = loadChar
    · subst hchar
      simp [LoadVal.run]
    · rw [run_separator hchar]

end Columns

section Values

variable {float : FloatConversions}

theorem PODColumn.loadValue_done {c c' : PODColumn} {memory : Bytes}
    (h : c.loadValue float (some memory) = (.done, c')) :
    ∃ bytes, c.loadVal.run float memory = some bytes ∧
      c' = { c with
        storage := writeAt c.resize.storage c.storageOffset bytes
        storageOffset := c.storageOffset + c.type.numBytes } := by
  unfold PODColumn.loadValue at h
  split at h
  · cases h
  · next memory' hmemory =>
    cases hmemory
    split at h
    · cases h
    · next bytes hbytes =>
      cases h
      exact ⟨bytes, hbytes, rfl⟩

theorem PODColumn.loadValue_threw {c c' : PODColumn} {memory : Bytes}
    (h : c.loadValue float (some memory) = (.threw, c')) :
    c.loadVal.run float memory = none ∧ c' = c.resize := by
  unfold PODColumn.loadValue at h
  split at h
  · cases h
  · next memory' hmemory =>
    cases hmemory
    split at h
    · next hnone =>
      cases h
      exact ⟨hnone, rfl⟩
    · cases h

theorem PODColumn.loadValue_defined {c c' : PODColumn} {memory : Bytes} :
    c.loadValue float (some memory) ≠ (.undefined, c') := by
  intro h
  unfold PODColumn.loadValue at h
  simp only at h
  split at h <;> cases h

theorem Column.loadValue_pod {c : PODColumn} {c' : Column} {memory : Option Bytes} {strLen : ℕ}
    {status : Status} (h : (Column.pod c).loadValue float memory strLen = (status, c')) :
    ∃ p, c' = .pod p ∧ c.loadValue float memory = (status, p) := by
  obtain ⟨hstatus, hcolumn⟩ := Prod.mk.inj h
  exact ⟨(c.loadValue float memory).2, hcolumn.symm, Prod.ext hstatus rfl⟩

theorem PODColumn.resize_settled {c : PODColumn} (h : c.storage.length = c.storageOffset) :
    c.resize.storage = c.storage ++ List.replicate c.type.numBytes 0 := by
  apply List.take_of_length_le
  simp [h]

theorem PODColumn.resize_failed {c : PODColumn}
    (h : c.storage.length = c.storageOffset + c.type.numBytes) : c.resize = c := by
  have hstorage : c.resize.storage = c.storage := by
    show (c.storage ++ _).take _ = _
    rw [List.take_append_of_le_length (by omega), List.take_of_length_le (by omega)]
  show PODColumn.mk c.type c.loadVal c.resolved c.resize.storage c.storageOffset = c
  rw [hstorage]

/-- The bytes of a value take the place that was made for them. -/
theorem PODColumn.writeAt_resize {c : PODColumn} (h : c.storage.length = c.storageOffset)
    {bytes : Bytes} (hbytes : bytes.length = c.type.numBytes) :
    writeAt c.resize.storage c.storageOffset bytes = c.storage ++ bytes := by
  unfold writeAt
  rw [resize_settled h, List.take_left' h, List.drop_eq_nil_of_le (by simp [h, hbytes]),
    List.append_nil]

/-- A column takes the value of its field if there is one and no failed value is in its place. -/
theorem Column.loadValue_fits {c : Column} {field memory : Bytes} (hmemory : Behind field memory)
    (hsettled : c.Settled) (hfits : c.Fits float field) :
    ∃ c', c.loadValue float (some memory) (field.length % 2 ^ 32) = (.done, c') ∧
      c.Appends float field c' := by
  cases c with
  | pod c =>
    obtain ⟨bytes, hbytes⟩ := Option.isSome_iff_exists.mp hfits
    have hrun : c.loadVal.run float memory = some bytes := by
      rw [LoadVal.run_behind hmemory, hbytes]
      rintro hchar rfl
      unfold LoadVal.value at hbytes
      rw [if_pos hchar] at hbytes
      cases hbytes
    have hlength : bytes.length = c.type.numBytes := by
      rw [LoadVal.run_length hrun, numBytes_of_resolve c.resolved]
    refine ⟨.pod { c with
      storage := c.storage ++ bytes
      storageOffset := c.storageOffset + c.type.numBytes }, ?_, bytes, hbytes, rfl⟩
    simp only [Column.loadValue, PODColumn.loadValue, hrun,
      PODColumn.writeAt_resize hsettled hlength]
  | string offsets =>
    have hsmall : field.length + 1 < 4096 := hfits
    have hlength : field.length % 2 ^ 32 = field.length := Nat.mod_eq_of_lt (by omega)
    have hsize : (field.length + 1) % 2 ^ 32 = field.length + 1 := Nat.mod_eq_of_lt (by omega)
    have htake : memory.take field.length = field := by
      obtain ⟨rfl, _⟩ | ⟨rest, rfl⟩ := hmemory <;> exact List.take_left
    refine ⟨.string (offsets ++ [field]), ?_, rfl⟩
    rw [hlength]
    show (if (field.length + 1) % 2 ^ 32 < 4096 ∧ field.length < (field.length + 1) % 2 ^ 32 then
      _ else _) = _
    rw [hsize, if_pos ⟨hsmall, Nat.lt_succ_self _⟩, htake]

/-- Where it does not, the column has no new value, or another one. -/
theorem Column.loadValue_misfit {c c' : Column} {field memory : Bytes} (hwf : c.WellFormed)
    (hload : c.loadValue float (some memory) (field.length % 2 ^ 32) = (.done, c'))
    (happends : c.Appends float field c') : c.Settled ∧ c.Fits float field := by
  cases c with
  | pod c =>
    obtain ⟨bytes, hbytes, hc'⟩ := happends
    refine ⟨?_, Option.isSome_iff_exists.mpr ⟨bytes, hbytes⟩⟩
    apply hwf.resolve_right
    intro hfailed
    obtain ⟨p, rfl, hp⟩ := Column.loadValue_pod hload
    obtain ⟨written, hwritten, rfl⟩ := PODColumn.loadValue_done hp
    have hstorage : writeAt c.resize.storage c.storageOffset written = c.storage ++ bytes :=
      congrArg PODColumn.storage (Column.pod.inj hc')
    rw [PODColumn.resize_failed hfailed] at hstorage
    have hlength := congrArg List.length hstorage
    rw [writeAt_length, List.length_append, LoadVal.value_length hbytes] at hlength
    · have hpos := c.loadVal.width_pos
      omega
    · rw [LoadVal.run_length hwritten, hfailed, numBytes_of_resolve c.resolved]
  | string offsets =>
    refine ⟨trivial, ?_⟩
    show field.length + 1 < 4096
    replace hload : (if (field.length % 2 ^ 32 + 1) % 2 ^ 32 < 4096 ∧
        field.length % 2 ^ 32 < (field.length % 2 ^ 32 + 1) % 2 ^ 32 then
        (Status.done, Column.string (offsets ++ [memory.take (field.length % 2 ^ 32)]))
        else (.undefined, .string offsets)) = (.done, c') := hload
    split at hload
    · next hsize =>
      have htake : memory.take (field.length % 2 ^ 32) = field := by
        have hc' := (Prod.mk.inj hload).2.trans happends
        exact List.singleton_inj.mp (List.append_cancel_left (Column.string.inj hc'))
      have hlength := congrArg List.length htake
      rw [List.length_take] at hlength
      omega
    · cases (Prod.mk.inj hload).1

/-- A value that was loaded has moved the column on. -/
theorem Column.loadValue_moves {c c' : Column} {memory : Bytes} {strLen : ℕ}
    (hload : c.loadValue float (some memory) strLen = (.done, c')) : c' ≠ c := by
  cases c with
  | pod c =>
    obtain ⟨p, rfl, hp⟩ := Column.loadValue_pod hload
    obtain ⟨written, _, rfl⟩ := PODColumn.loadValue_done hp
    intro hsame
    have hoffset : c.storageOffset + c.type.numBytes = c.storageOffset :=
      congrArg PODColumn.storageOffset (Column.pod.inj hsame)
    have hpos := c.numBytes_pos
    omega
  | string offsets =>
    rintro rfl
    unfold Column.loadValue at hload
    simp only at hload
    split at hload
    · have hoffsets := Column.string.inj (Prod.mk.inj hload).2
      simp at hoffsets
    · cases (Prod.mk.inj hload).1

/-- A column that throws has resized its storage, unless it still is after the last failure. -/
theorem Column.loadValue_threw {c c' : Column} {memory : Bytes} {strLen : ℕ}
    (hwf : c.WellFormed) (hload : c.loadValue float (some memory) strLen = (.threw, c')) :
    ∃ p : PODColumn, c = .pod p ∧ p.loadVal.run float memory = none ∧
      (c' = c ↔ p.storage.length ≠ p.storageOffset) := by
  cases c with
  | pod c =>
    obtain ⟨p, rfl, hp⟩ := Column.loadValue_pod hload
    obtain ⟨hrun, rfl⟩ := PODColumn.loadValue_threw hp
    refine ⟨c, rfl, hrun, ?_⟩
    rw [Column.pod.injEq]
    have hpos := c.numBytes_pos
    constructor
    · intro hsame hsettled
      have hlength := congrArg (fun d => d.storage.length) hsame
      simp only [PODColumn.resize_settled hsettled, List.length_append,
        List.length_replicate] at hlength
      omega
    · intro hfailed
      exact PODColumn.resize_failed (hwf.resolve_left hfailed)
  | string offsets =>
    unfold Column.loadValue at hload
    simp only at hload
    split at hload <;> cases (Prod.mk.inj hload).1

theorem PODColumn.resize_length {c : PODColumn} (hwf : (Column.pod c).WellFormed) :
    c.resize.storage.length = c.storageOffset + c.type.numBytes := by
  obtain hsettled | hfailed := hwf
  · rw [resize_settled hsettled, List.length_append, List.length_replicate, hsettled]
  · rw [resize_failed hfailed, hfailed]

theorem Column.loadValue_wellFormed (float : FloatConversions) {c : Column} (hwf : c.WellFormed)
    (memory : Option Bytes) (strLen : ℕ) : (c.loadValue float memory strLen).2.WellFormed := by
  cases c with
  | pod c =>
    have hresize : c.resize.storage.length = c.storageOffset + c.type.numBytes := by
      obtain hsettled | hfailed := hwf
      · rw [PODColumn.resize_settled hsettled, List.length_append, List.length_replicate, hsettled]
      · rw [PODColumn.resize_failed hfailed, hfailed]
    show Column.WellFormed (.pod (c.loadValue float memory).2)
    unfold PODColumn.loadValue
    split
    · exact .inr hresize
    · split
      · exact .inr hresize
      · next bytes hbytes =>
        refine .inl ?_
        show (writeAt _ _ _).length = c.storageOffset + c.type.numBytes
        rw [writeAt_length, hresize]
        rw [hresize, LoadVal.run_length hbytes, numBytes_of_resolve c.resolved]
  | string offsets =>
    unfold Column.loadValue
    simp only
    split
    · trivial
    · split <;> trivial

end Values

section Rows

variable {float : FloatConversions} {c c' : Column} {columns columns' : List Column}
  {f s t : Bytes}

theorem appended_separator (hf : separator ∉ f) :
    Appended float (c :: columns) (f ++ separator :: t) (c' :: columns') ↔
      c.Appends float f c' ∧ Appended float columns t columns' := by
  unfold Appended
  rw [List.splitOn_append_cons_self_of_not_mem hf, List.zip_cons_cons, List.forall₂_cons,
    List.length_cons, List.length_cons]
  constructor
  · rintro ⟨hlength, hc, hcolumns⟩
    exact ⟨hc, by omega, hcolumns⟩
  · rintro ⟨hc, hlength, hcolumns⟩
    exact ⟨by omega, hc, hcolumns⟩

theorem appended_last (hs : separator ∉ s) :
    Appended float [c] s [c'] ↔ c.Appends float s c' := by
  unfold Appended
  rw [List.splitOn_eq_singleton hs]
  simp

theorem loadable_separator (hf : separator ∉ f) :
    Loadable float (c :: columns) (f ++ separator :: t) ↔
      (c.Settled ∧ c.Fits float f) ∧ Loadable float columns t := by
  unfold Loadable
  rw [presentFields_separator hf, List.length_cons, List.take_succ_cons, List.forall₂_cons]

theorem loadable_last (hs : s ≠ []) (hsep : separator ∉ s) :
    Loadable float (c :: columns) s ↔ (c.Settled ∧ c.Fits float s) ∧ columns = [] := by
  unfold Loadable
  rw [presentFields_last hs hsep, List.length_cons, List.take_succ_cons, List.take_nil,
    List.forall₂_cons, List.forall₂_nil_right_iff]

theorem not_loadable_nil : ¬ Loadable float (c :: columns) [] := by
  intro h
  cases h

theorem loadable_no_columns : Loadable float [] s := .nil

theorem appended_no_columns : Appended float [] s [] := ⟨Nat.zero_le _, .nil⟩

end Rows

section Loop

variable {float : FloatConversions} {str : Bytes} {c c' : Column} {columns columns' : List Column}
  {pos : ℕ}

theorem loadColumns_end :
    loadColumns float str str.length (c :: columns) = (.threw, c :: columns) := by
  unfold loadColumns
  exact if_pos rfl

/-- Behind a line without a closing separator the pointer is out of the line. -/
theorem loadColumns_past :
    (loadColumns float str (str.length + 1) (c :: columns)).1 = .undefined := by
  have hpointer : pointer str (str.length + 1) = none := if_neg (by omega)
  unfold loadColumns
  rw [if_neg (by omega), hpointer]
  cases c <;> rfl

theorem loadColumns_cons {f rest : Bytes} (hpos : pos < str.length)
    (hdrop : str.drop pos = f ++ rest) (hend : findEnd str pos = pos + f.length) :
    loadColumns float str pos (c :: columns) =
      match c.loadValue float (some (f ++ rest ++ [0])) (f.length % 2 ^ 32) with
      | (.done, c') => ((loadColumns float str (pos + f.length + 1) columns).1,
          c' :: (loadColumns float str (pos + f.length + 1) columns).2)
      | (status, c') => (status, c' :: columns) := by
  have hpointer : pointer str pos = some (f ++ rest ++ [0]) := by
    rw [pointer, if_pos hpos.le, hdrop]
  have hlength : (pos + f.length + 2 ^ 64 - pos) % 2 ^ 64 % 2 ^ 32 = f.length % 2 ^ 32 := by
    omega
  have hvalue : c.loadValue float (pointer str pos)
      ((pos + f.length + 2 ^ 64 - pos) % 2 ^ 64 % 2 ^ 32) =
      c.loadValue float (some (f ++ rest ++ [0])) (f.length % 2 ^ 32) := by
    rw [hpointer, hlength]
  rewrite [loadColumns, if_neg hpos.ne, ← hvalue, ← hend]
  rfl

theorem findEnd_separator {f t : Bytes} (hpos : pos ≤ str.length) (hf : separator ∉ f)
    (hdrop : str.drop pos = f ++ separator :: t) : findEnd str pos = pos + f.length := by
  rw [findEnd, if_pos hpos, hdrop, List.idxOf_append_of_notMem hf, List.idxOf_cons_self,
    Nat.add_zero]

theorem findEnd_last (hpos : pos ≤ str.length) (hsep : separator ∉ str.drop pos) :
    findEnd str pos = pos + (str.drop pos).length := by
  rw [findEnd, if_pos hpos, List.idxOf_of_notMem hsep]

theorem drop_behind {f t : Bytes} (hdrop : str.drop pos = f ++ separator :: t) :
    str.drop (pos + f.length + 1) = t := by
  rw [Nat.add_assoc, ← List.drop_drop, hdrop, ← List.drop_drop, List.drop_left]
  rfl

/-- One column of the loop: it takes a value, and the loop goes on, or the loop ends with it. -/
theorem loadColumns_step (float : FloatConversions) (columns : List Column) {f rest : Bytes}
    (hwf : c.WellFormed) (hpos : pos < str.length)
    (hdrop : str.drop pos = f ++ rest) (hend : findEnd str pos = pos + f.length)
    (hmemory : Behind f (f ++ rest ++ [0])) :
    (∃ c', c' ≠ c ∧ (c.Appends float f c' ↔ c.Settled ∧ c.Fits float f) ∧
      (∀ p, c = .pod p → p.loadVal.run float (f ++ [0]) ≠ none) ∧
      loadColumns float str pos (c :: columns) =
        ((loadColumns float str (pos + f.length + 1) columns).1,
          c' :: (loadColumns float str (pos + f.length + 1) columns).2)) ∨
    ¬ (c.Settled ∧ c.Fits float f) ∧ (loadColumns float str pos (c :: columns)).1 ≠ .done ∧
      ((loadColumns float str pos (c :: columns)).1 = .undefined ∧ (∀ p, c ≠ .pod p) ∨
        ∃ p c', c = .pod p ∧ p.loadVal.run float (f ++ [0]) = none ∧
          (c' = c ↔ p.storage.length ≠ p.storageOffset) ∧
          loadColumns float str pos (c :: columns) = (.threw, c' :: columns)) := by
  rw [loadColumns_cons hpos hdrop hend]
  cases hload : c.loadValue float (some (f ++ rest ++ [0])) (f.length % 2 ^ 32) with
  | mk status c' =>
    have hdone : c.Settled ∧ c.Fits float f → status = .done ∧ c.Appends float f c' := by
      intro hfits
      obtain ⟨d, hd, happends⟩ := c.loadValue_fits hmemory hfits.1 hfits.2
      cases hload.symm.trans hd
      exact ⟨rfl, happends⟩
    cases status with
    | done =>
      refine .inl ⟨c', c.loadValue_moves hload,
        ⟨c.loadValue_misfit hwf hload, fun h => (hdone h).2⟩, ?_, rfl⟩
      rintro p rfl hnone
      obtain ⟨_, rfl, hp⟩ := Column.loadValue_pod hload
      obtain ⟨_, hsome, -⟩ := PODColumn.loadValue_done hp
      cases hsome.symm.trans ((LoadVal.run_eq_none hmemory).mpr hnone)
    | undefined =>
      refine .inr ⟨fun h => absurd (hdone h).1 (by decide), Status.noConfusion, .inl ⟨rfl, ?_⟩⟩
      rintro p rfl
      obtain ⟨_, rfl, hp⟩ := Column.loadValue_pod hload
      exact PODColumn.loadValue_defined hp
    | threw =>
      obtain ⟨p, hc, hrun, hsame⟩ := c.loadValue_threw hwf hload
      exact .inr ⟨fun h => absurd (hdone h).1 (by decide), Status.noConfusion,
        .inr ⟨p, c', hc, (LoadVal.run_eq_none hmemory).mp hrun, hsame, rfl⟩⟩

/-- The rest of a row is loaded if there is a fitting field for each of the columns. -/
theorem loadColumns_loads (float : FloatConversions) (hwf : ∀ c ∈ columns, c.WellFormed)
    (hpos : pos ≤ str.length) :
    (loadColumns float str pos columns).1 = .done ∧
        Appended float columns (str.drop pos) (loadColumns float str pos columns).2 ↔
      Loadable float columns (str.drop pos) := by
  induction columns generalizing pos with
  | nil => exact iff_of_true ⟨rfl, appended_no_columns⟩ loadable_no_columns
  | cons c columns ih =>
    have hc : c.WellFormed := hwf c (List.mem_cons_self ..)
    have hcolumns : ∀ c ∈ columns, c.WellFormed := fun d hd => hwf d (List.mem_cons_of_mem _ hd)
    obtain hnil | ⟨hne, hsep⟩ | ⟨f, t, hf, hdrop⟩ := suffix_cases (str.drop pos)
    · -- No field is left.
      have hend : pos = str.length := hpos.antisymm (List.drop_eq_nil_iff.mp hnil)
      subst hend
      rw [loadColumns_end, hnil]
      exact iff_of_false (fun h => by cases h.1) not_loadable_nil
    · -- The last field has no separator behind it.
      have hlength : pos + (str.drop pos).length = str.length := by
        rw [List.length_drop]
        omega
      have hlt : pos < str.length := by
        have := List.length_pos_of_ne_nil hne
        omega
      rw [loadable_last hne hsep]
      obtain ⟨c', -, hiff, -, hstep⟩ | ⟨hmisfit, hstopped, -⟩ := loadColumns_step float
        columns hc hlt (List.append_nil _).symm (findEnd_last hpos hsep)
        (.inl ⟨by rw [List.append_nil], hne⟩)
      · rw [hstep, hlength]
        cases columns with
        | nil =>
          show Status.done = .done ∧ Appended float [c] _ [c'] ↔ _
          rw [appended_last hsep, hiff]
          simp
        | cons d columns =>
          refine iff_of_false (fun h => ?_) (fun h => by cases h.2)
          cases loadColumns_past.symm.trans h.1
      · exact iff_of_false (fun h => hstopped h.1) (fun h => hmisfit h.1)
    · have hlength := congrArg List.length hdrop
      rw [List.length_drop, List.length_append, List.length_cons] at hlength
      rw [hdrop, loadable_separator hf]
      obtain ⟨c', -, hiff, -, hstep⟩ | ⟨hmisfit, hstopped, -⟩ := loadColumns_step float
        columns hc (by omega) hdrop (findEnd_separator hpos hf hdrop)
        (.inr ⟨t ++ [0], by simp⟩)
      · have htail := ih hcolumns (show pos + f.length + 1 ≤ str.length by omega)
        rw [drop_behind hdrop] at htail
        rw [hstep, appended_separator hf, hiff, ← htail]
        exact and_left_comm
      · exact iff_of_false (fun h => hstopped h.1) (fun h => hmisfit h.1)

theorem exists_first_field (hstr : str ≠ []) : ∃ f rest fields, str.drop 0 = f ++ rest ∧
    presentFields str = f :: fields ∧ findEnd str 0 = 0 + f.length ∧
    Behind f (f ++ rest ++ [0]) := by
  obtain hnil | ⟨-, hsep⟩ | ⟨f, t, hf, rfl⟩ := suffix_cases str
  · exact absurd hnil hstr
  · exact ⟨str, [], [], (List.append_nil _).symm, presentFields_last hstr hsep,
      findEnd_last (Nat.zero_le _) hsep, .inl ⟨by rw [List.append_nil], hstr⟩⟩
  · exact ⟨f, separator :: t, presentFields t, rfl, presentFields_separator hf t,
      findEnd_separator (Nat.zero_le _) hf rfl, .inr ⟨t ++ [0], by simp⟩⟩

/-- A row that throws leaves the relation alone only if the first column does. -/
theorem loadColumns_threw (hwf : ∀ c ∈ columns, c.WellFormed) :
    loadColumns float str 0 columns = (.threw, columns) ↔
      columns ≠ [] ∧ str = [] ∨ FailsAgain float columns str := by
  cases columns with
  | nil =>
    refine iff_of_false (fun h => by cases h) ?_
    rintro (⟨h, -⟩ | ⟨_, _, _, _, h, -⟩)
    · exact h rfl
    · cases h
  | cons c columns =>
    have hc : c.WellFormed := hwf c (List.mem_cons_self ..)
    by_cases hstr : str = []
    · subst hstr
      exact iff_of_true loadColumns_end (.inl ⟨List.cons_ne_nil _ _, rfl⟩)
    · obtain ⟨f, rest, fields, hdrop, hpresent, hend, hmemory⟩ := exists_first_field hstr
      have hfails : FailsAgain float (c :: columns) str ↔
          ∃ p, c = .pod p ∧ p.storage.length ≠ p.storageOffset ∧
            p.loadVal.run float (f ++ [0]) = none := by
        unfold FailsAgain
        constructor
        · rintro ⟨p, rest, field, fields', hcolumns, hfield, hfailed, hrun⟩
          cases hcolumns
          cases hpresent.symm.trans hfield
          exact ⟨p, rfl, hfailed, hrun⟩
        · rintro ⟨p, rfl, hfailed, hrun⟩
          exact ⟨p, columns, f, fields, rfl, hpresent, hfailed, hrun⟩
      rw [hfails, or_iff_right (fun h => hstr h.2)]
      obtain ⟨c', hne, -, hrun, hstep⟩ | ⟨-, -, ⟨hundefined, hstring⟩ | hthrew⟩ :=
        loadColumns_step float columns hc (List.length_pos_of_ne_nil hstr) hdrop hend hmemory
      · rw [hstep]
        refine iff_of_false (fun h => ?_) ?_
        · exact hne (List.cons.inj (Prod.mk.inj h).2).1
        · rintro ⟨p, hp, -, hnone⟩
          exact hrun p hp hnone
      · refine iff_of_false (fun h => ?_) ?_
        · cases hundefined.symm.trans (congrArg Prod.fst h)
        · rintro ⟨p, hp, -⟩
          exact hstring p hp
      · obtain ⟨p, c', rfl, hrun, hsame, hstep⟩ := hthrew
        rw [hstep]
        constructor
        · intro h
          exact ⟨p, rfl, hsame.mp (List.cons.inj (Prod.mk.inj h).2).1, hrun⟩
        · rintro ⟨q, hq, hfailed, -⟩
          cases hq
          rw [hsame.mpr hfailed]

end Loop

section Runs

variable {float : FloatConversions} {relation : List Column}

theorem loadColumns_wellFormed {str : Bytes} {pos : ℕ} {columns : List Column}
    (hwf : ∀ c ∈ columns, c.WellFormed) :
    ∀ c ∈ (loadColumns float str pos columns).2, c.WellFormed := by
  induction columns generalizing pos with
  | nil => exact hwf
  | cons c columns ih =>
    have hc : c.WellFormed := hwf c (List.mem_cons_self ..)
    have hcolumns : ∀ c ∈ columns, c.WellFormed := fun d hd => hwf d (List.mem_cons_of_mem _ hd)
    unfold loadColumns
    split
    · exact hwf
    · dsimp only
      have hc' := Column.loadValue_wellFormed float hc (pointer str pos)
        ((findEnd str pos + 2 ^ 64 - pos) % 2 ^ 64 % 2 ^ 32)
      split
      · next c' hload =>
        rw [hload] at hc'
        exact List.forall_mem_cons.mpr ⟨hc', ih hcolumns⟩
      · next c' _ hload =>
        rw [hload] at hc'
        exact List.forall_mem_cons.mpr ⟨hc', hcolumns⟩

theorem Reachable.wellFormed (h : Reachable float relation) : ∀ c ∈ relation, c.WellFormed := by
  induction h with
  | empty => exact fun c hc => absurd hc List.not_mem_nil
  | attach relation c _ hc ih =>
    intro d hd
    obtain hd | hd := List.mem_append.mp hd
    · exact ih d hd
    · rw [List.mem_singleton.mp hd]
      cases hc with
      | pod => exact .inl rfl
      | string => trivial
  | loadRow relation str _ _ ih => exact loadColumns_wellFormed ih

theorem allOrNothing_iff (line : Bytes) : AllOrNothing float relation line ↔
    ((loadColumns float line 0 relation).1 = .done ∧
      Appended float relation line (loadColumns float line 0 relation).2) ∨
    loadColumns float line 0 relation = (.threw, relation) := by
  unfold AllOrNothing loadRow
  cases loadColumns float line 0 relation with
  | mk status columns => cases status <;> simp

/-- Loading a row is all or nothing if the line is empty, if every column can take the value of its
field, or if the first column fails as it has done before. -/
theorem loadRow_all_or_nothing_iff (float : FloatConversions) (relation : List Column)
    (h : Reachable float relation) (line : Bytes) :
    AllOrNothing float relation line ↔
      line = [] ∨ Loadable float relation line ∨ FailsAgain float relation line := by
  have hloads := loadColumns_loads float h.wellFormed (Nat.zero_le line.length)
  rw [List.drop_zero] at hloads
  rw [allOrNothing_iff, hloads, loadColumns_threw h.wellFormed]
  constructor
  · rintro (hloadable | ⟨-, hnil⟩ | hfails)
    · exact .inr (.inl hloadable)
    · exact .inl hnil
    · exact .inr (.inr hfails)
  · rintro (hnil | hloadable | hfails)
    · cases relation with
      | nil => exact .inl loadable_no_columns
      | cons c relation => exact .inr (.inl ⟨List.cons_ne_nil _ _, hnil⟩)
    · exact .inl hloadable
    · exact .inr (.inr hfails)

def twoColumns : List Column :=
  [.pod ⟨.signedInt 4, .loadInt .four, rfl, [], 0⟩,
    .pod ⟨.signedInt 4, .loadInt .four, rfl, [], 0⟩]

def asLine (text : String) : Bytes := text.toList.map Char.toUInt8

def noFloats : FloatConversions := ⟨fun _ => none, fun _ => none⟩

theorem twoColumns_reachable : Reachable noFloats twoColumns := by
  have hattached : (Column.pod ⟨.signedInt 4, .loadInt .four, rfl, [], 0⟩).Attached :=
    .pod _ _ rfl
  exact .attach _ _ (.attach _ _ .empty hattached) hattached

theorem twoColumns_loaded : AllOrNothing noFloats twoColumns (asLine "17|-4|") := by
  apply (loadRow_all_or_nothing_iff noFloats twoColumns twoColumns_reachable _).mpr
  exact .inr (.inl (.cons ⟨rfl, rfl⟩ (.cons ⟨rfl, rfl⟩ .nil)))

/-- The second column throws behind the value of the first, and a line without a closing separator
is read behind its end. -/
theorem loadRow_partial : Reachable noFloats twoColumns ∧
    ¬ AllOrNothing noFloats twoColumns (asLine "17|") ∧
    ¬ AllOrNothing noFloats twoColumns (asLine "17|x|") ∧
    ¬ AllOrNothing noFloats twoColumns (asLine "17") := by
  have hlength : twoColumns.map Column.length = [0, 0] := by decide
  refine ⟨twoColumns_reachable, fun h => ?_, fun h => ?_, fun h => ?_⟩
  · have hleft : (loadRow noFloats twoColumns (asLine "17|")).2 = twoColumns := h
    have hloaded : (loadRow noFloats twoColumns (asLine "17|")).2.map Column.length = [1, 0] := by
      decide
    rw [hleft, hlength] at hloaded
    cases hloaded
  · have hleft : (loadRow noFloats twoColumns (asLine "17|x|")).2 = twoColumns := h
    have hloaded : (loadRow noFloats twoColumns (asLine "17|x|")).2.map Column.length = [1, 1] := by
      decide
    rw [hleft, hlength] at hloaded
    cases hloaded
  · exact h

end Runs

end InkFuse.Storage
