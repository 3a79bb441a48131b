import InkFuse.Algebra.JoinProbe
import Mathlib.Data.Multiset.Bind

/-!
The primary-key join computes the relational join. The right rows are probed one after
the other, in any order; a semi join disables the slot of a left row when it is found
for the first time.
-/

namespace InkFuse.Algebra

open Bytes Codegen
open InkFuse.Runtime

def innerJoin (left right : List SideRow) : Multiset (List Bytes) :=
  (left : Multiset SideRow).bind fun l => (right : Multiset SideRow).bind fun r =>
    if l.keys = r.keys then {l.columns ++ r.columns} else 0

def matchedBy (right : List SideRow) (l : SideRow) : Bool := right.any fun r => l.keys = r.keys

def leftSemiJoin (left right : List SideRow) : Multiset (List Bytes) :=
  (left.filter (matchedBy right)).map SideRow.columns

section Keys

variable {j : Join} {hash : Bytes → UInt64} {left : List SideRow}

/-- Two packed rows are equal for the comparator when they agree in all key columns. -/
theorem comparator_eq_iff (hsizes : JoinSizes j) {lrow row : SideRow}
    (hlrow : lrow.Typed j.keysLeft j.payloadLeft) (hrow : row.Typed j.keysRight j.payloadRight) :
    (j.comparator hash).eq row.packed lrow.packed = true ↔ lrow.keys = row.keys := by
  have hle := hsizes.tuple_le
  rw [regionSize, Join.tupleSize] at hle
  have hkey : j.keySizeLeft % 2 ^ 16 = j.keySizeLeft := Nat.mod_eq_of_lt (by omega)
  rw [hsizes.keys_eq] at hrow
  rw [Join.comparator, hkey, simpleKeyComparator, beq_iff_eq, Join.keySizeLeft,
    hrow.readAt_packed, hlrow.readAt_packed, eq_comm]
  exact hlrow.keys_eq_iff hrow

/-- Rows of one input with the same key are the same row. -/
theorem eq_of_keys_eq (hdistinct : (left.map SideRow.keys).Nodup) {a b : SideRow}
    (ha : a ∈ left) (hb : b ∈ left) (h : a.keys = b.keys) : a = b :=
  List.inj_on_of_nodup_map hdistinct ha hb h

/-- A right row without a partner contributes nothing. -/
theorem pairs_of_absent {r : SideRow} (h : ∀ l ∈ left, l.keys ≠ r.keys) :
    ((left : Multiset SideRow).bind fun l =>
      if l.keys = r.keys then ({l.columns ++ r.columns} : Multiset (List Bytes)) else 0) = 0 := by
  rw [Multiset.bind_congr fun l hl => if_neg (h l hl)]
  exact Multiset.bind_zero _

/-- A right row has one partner at most. -/
theorem pairs_of_mem (hdistinct : (left.map SideRow.keys).Nodup) {l r : SideRow} (hl : l ∈ left)
    (hkeys : l.keys = r.keys) :
    ((left : Multiset SideRow).bind fun l =>
      if l.keys = r.keys then ({l.columns ++ r.columns} : Multiset (List Bytes)) else 0) =
      {l.columns ++ r.columns} := by
  have hperm := List.perm_cons_erase hl
  have hrest : ∀ l' ∈ left.erase l, l'.keys ≠ r.keys := by
    intro l' hl' hk
    have hnodup := (hperm.map SideRow.keys).nodup_iff.mp hdistinct
    rw [List.map_cons, List.nodup_cons] at hnodup
    exact hnodup.1 (List.mem_map.mpr ⟨l', hl', hk.trans hkeys.symm⟩)
  rw [Multiset.coe_eq_coe.mpr hperm, ← Multiset.cons_coe, Multiset.cons_bind, if_pos hkeys,
    pairs_of_absent hrest, add_zero]

end Keys

section Slots

variable {C : Comparator} {table : AtomicHashTable} {left : List SideRow}
  {placed : List (Bytes × ℕ)}

/-- The rows in the slots are the left rows. -/
theorem exists_left (hperm : (placed.map Prod.fst).Perm (left.map SideRow.packed)) {row : Bytes}
    {i : ℕ} (h : (row, i) ∈ placed) : ∃ l ∈ left, l.packed = row := by
  have hmem : row ∈ placed.map Prod.fst := List.mem_map.mpr ⟨(row, i), h, rfl⟩
  exact List.mem_map.mp (hperm.mem_iff.mp hmem)

theorem exists_slot (hperm : (placed.map Prod.fst).Perm (left.map SideRow.packed)) {l : SideRow}
    (hl : l ∈ left) : ∃ i, (l.packed, i) ∈ placed := by
  have hmem := hperm.mem_iff.mpr (List.mem_map_of_mem (f := SideRow.packed) hl)
  obtain ⟨⟨row, i⟩, hi, rfl⟩ := List.mem_map.mp hmem
  exact ⟨i, hi⟩

/-- A left row sits in one slot only. -/
theorem slot_unique {j : Join}
    (hleft : ∀ l ∈ left, l.Typed j.keysLeft j.payloadLeft)
    (hdistinct : (left.map SideRow.keys).Nodup)
    (hperm : (placed.map Prod.fst).Perm (left.map SideRow.packed)) {row : Bytes} {i i' : ℕ}
    (h : (row, i) ∈ placed) (h' : (row, i') ∈ placed) : i = i' := by
  have hpacked : (left.map SideRow.packed).Nodup := by
    refine List.Nodup.map_on (fun a ha b hb hab => ?_) hdistinct.of_map
    have hread := congrArg (fun p => readAt p 0 (Join.sizeOf j.keysLeft)) hab
    simp only [(hleft a ha).readAt_packed, (hleft b hb).readAt_packed] at hread
    exact eq_of_keys_eq hdistinct ha hb (((hleft a ha).keys_eq_iff (hleft b hb)).mp hread)
  exact (Prod.mk.inj (List.inj_on_of_nodup_map (hperm.nodup_iff.mpr hpacked) h h' rfl)).2

end Slots

section Inner

variable {j : Join} {hash : Bytes → UInt64} {table : AtomicHashTable} {left : List SideRow}

theorem lookupStep_of_ne {C : Comparator} (htype : j.type ≠ .leftSemi) (key : Bytes) :
    j.lookupStep C table key = (do
      let found ← table.lookup C key (C.hash key)
      .ok (table, found)) := by
  have hfalse : (j.type == .leftSemi) = false := by simpa using htype
  rw [Join.lookupStep, hfalse]
  rfl

/-- The lookups of an inner or outer join leave the table as it is, and their output is
that of the relational join. -/
theorem probeRows_inner (hsizes : JoinSizes j) (htype : j.type ≠ .leftSemi)
    (hleft : ∀ l ∈ left, l.Typed j.keysLeft j.payloadLeft)
    (hdistinct : (left.map SideRow.keys).Nodup)
    (hloaded : Loaded (j.comparator hash) table left) {right : List SideRow}
    (hright : ∀ r ∈ right, r.Typed j.keysRight j.payloadRight) :
    ∃ out, j.probeRows (j.comparator hash) table right = .ok (table, out) ∧
      (out : Multiset (List Bytes)) = innerJoin left right := by
  obtain ⟨placed, hfilled, htagged, hperm⟩ := hloaded
  rw [innerJoin, Multiset.bind_bind]
  induction right with
  | nil => exact ⟨[], rfl, by simp⟩
  | cons r right ih =>
    obtain ⟨outs, hrun, houts⟩ := ih fun r hr => hright r (List.mem_cons_of_mem _ hr)
    have hr := hright r List.mem_cons_self
    rw [← Multiset.cons_coe, Multiset.cons_bind, ← houts]
    rcases AtomicHashTable.lookup_spec hfilled htagged Join.comparator_hash_eq r.packed with
      ⟨i, row, hrow, heq, hlook⟩ | ⟨habsent, hlook⟩
    · obtain ⟨l, hl, rfl⟩ := exists_left hperm hrow
      have hkeys := (comparator_eq_iff hsizes (hleft l hl) hr).mp heq
      have hstep := probeRow_hit hsizes hr
        (by rw [lookupStep_of_ne htype, hlook]; rfl) (hleft l hl)
        (hfilled.placed_slot _ _ hrow).2.2
      rw [if_neg htype] at hstep
      refine ⟨(l.columns ++ r.columns) :: outs, ?_, ?_⟩
      · simp only [Join.probeRows, hstep, hrun, bind, Except.bind]
        rfl
      · rw [pairs_of_mem hdistinct hl hkeys, ← Multiset.cons_coe, Multiset.singleton_add]
    · have hstep := probeRow_miss hsizes hr
        (by rw [lookupStep_of_ne htype, hlook]; rfl)
      have hnone : ∀ l ∈ left, l.keys ≠ r.keys := by
        intro l hl hkeys
        obtain ⟨i, hi⟩ := exists_slot hperm hl
        have heq : (j.comparator hash).eq r.packed l.packed = true :=
          (comparator_eq_iff hsizes (hleft l hl) hr).mpr hkeys
        rw [habsent _ _ hi] at heq
        exact absurd heq (by simp)
      refine ⟨outs, ?_, ?_⟩
      · simp only [Join.probeRows, hstep, hrun, bind, Except.bind]
        rfl
      · rw [pairs_of_absent hnone, zero_add]

end Inner

section Semi

variable {j : Join} {C : Comparator} {hash : Bytes → UInt64} {left : List SideRow}

/-- The slots of a semi join after the rows `seen` were probed: a row that one of them has
matched is disabled. -/
structure SemiInv (C : Comparator) (table : AtomicHashTable) (placed : List (Bytes × ℕ))
    (seen : List SideRow) : Prop where
  filled : AtomicHashTable.Filled C table placed
  tag_eq : ∀ row i, (row, i) ∈ placed → table.tags i =
    if seen.any fun r => C.eq r.packed row then filledTag (C.hash row) ^^^ fingerprintInversionMask
    else filledTag (C.hash row)

theorem lookupStep_semi (htype : j.type = .leftSemi) (table : AtomicHashTable) (key : Bytes) :
    j.lookupStep C table key = table.lookupDisable C key (C.hash key) := by
  rw [Join.lookupStep, htype]
  rfl

/-- One lookup of a semi join: it hits the left row with the same key unless an earlier row
has hit it. -/
theorem lookupDisable_spec (heq : ∀ a b, C.eq a b = true → C.hash a = C.hash b)
    {table : AtomicHashTable} {placed : List (Bytes × ℕ)} {seen : List SideRow}
    (h : SemiInv C table placed seen) (r : SideRow)
    (hone : ∀ row i row' i', (row, i) ∈ placed → (row', i') ∈ placed →
      C.eq r.packed row = true → C.eq r.packed row' = true → i = i') :
    (∃ table' row i, (row, i) ∈ placed ∧ C.eq r.packed row = true ∧
      (seen.any fun r => C.eq r.packed row) = false ∧ table'.data = table.data ∧
      table.lookupDisable C r.packed (C.hash r.packed) = .ok (table', some i) ∧
      SemiInv C table' placed (r :: seen)) ∨
    ((∀ row i, (row, i) ∈ placed → C.eq r.packed row = true →
      (seen.any fun r => C.eq r.packed row) = true) ∧
      table.lookupDisable C r.packed (C.hash r.packed) = .ok (table, none) ∧
      SemiInv C table placed (r :: seen)) := by
  have hinverted := filledTag_inverted (C.hash r.packed)
  rcases AtomicHashTable.findKey_spec h.filled heq r.packed with
    ⟨i, hi, hfind, hfill, htag, hkey⟩ | ⟨habsent, i, _, hfind, hfree⟩
  · obtain ⟨row, hrow⟩ := h.filled.only_placed i hi hfill
    have hdata := (h.filled.placed_slot row i hrow).2.2
    rw [hdata] at hkey
    have hhash := heq _ _ hkey
    have hseen : (seen.any fun r => C.eq r.packed row) = false := by
      have htag' := h.tag_eq row i hrow
      rw [htag, hhash] at htag'
      by_contra hany
      rw [if_pos (by simpa using hany)] at htag'
      exact (filledTag_inverted _).2 htag'.symm
    let disabled := table.setTag i (filledTag (C.hash r.packed) ^^^ fingerprintInversionMask)
    refine Or.inl ⟨disabled, row, i, hrow, hkey, hseen, rfl, ?_,
      h.filled.setTag hfill hinverted.1, ?_⟩
    · have hne : table.tags i &&& tagFillMask ≠ 0 := hfill
      simp [AtomicHashTable.lookupDisable, hfind, hne, bind, Except.bind, disabled]
    · intro row' i' hrow'
      by_cases hii : i' = i
      · subst hii
        have hdata' := (h.filled.placed_slot row' i' hrow').2.2
        rw [hdata] at hdata'
        subst hdata'
        simp [disabled, AtomicHashTable.setTag, hkey, hhash]
      · have hne : C.eq r.packed row' = false := by
          by_contra hkey'
          exact hii (hone _ _ _ _ hrow' hrow (by simpa using hkey') hkey)
        simpa [disabled, AtomicHashTable.setTag, Function.update_of_ne hii, hne] using
          h.tag_eq row' i' hrow'
  · have hseen : ∀ row i, (row, i) ∈ placed → C.eq r.packed row = true →
        (seen.any fun r => C.eq r.packed row) = true := by
      intro row k hrow hkey
      obtain ⟨hk, hfill, hdata⟩ := h.filled.placed_slot row k hrow
      by_contra hany
      have htag := h.tag_eq row k hrow
      rw [if_neg hany, ← heq _ _ hkey] at htag
      have hfalse := habsent k hk hfill htag
      rw [hdata, hkey] at hfalse
      exact absurd hfalse (by simp)
    refine Or.inr ⟨hseen, ?_, h.filled, fun row k hrow => ?_⟩
    · have hzero : table.tags i &&& tagFillMask = 0 := not_not.mp hfree
      simp [AtomicHashTable.lookupDisable, hfind, hzero, bind, Except.bind]
    · rw [h.tag_eq row k hrow, List.any_cons]
      cases hkey : C.eq r.packed row with
      | false => rfl
      | true => rw [hseen row k hrow hkey, Bool.true_or]

/-- The first row with the key of `l` adds `l` to the matched rows. -/
theorem filter_matchedBy_cons (hdistinct : (left.map SideRow.keys).Nodup) {l r : SideRow}
    {seen : List SideRow} (hl : l ∈ left) (hkeys : l.keys = r.keys)
    (hseen : matchedBy seen l = false) :
    l ::ₘ (left.filter (matchedBy seen) : Multiset SideRow) =
      left.filter (matchedBy (r :: seen)) := by
  have hperm := List.perm_cons_erase hl
  have hrest : ∀ l' ∈ left.erase l, l'.keys ≠ r.keys := by
    intro l' hl' hk
    have hnodup := (hperm.map SideRow.keys).nodup_iff.mp hdistinct
    rw [List.map_cons, List.nodup_cons] at hnodup
    exact hnodup.1 (List.mem_map.mpr ⟨l', hl', hk.trans hkeys.symm⟩)
  have hsame : (left.erase l).filter (matchedBy (r :: seen)) =
      (left.erase l).filter (matchedBy seen) := by
    refine List.filter_congr fun l' hl' => ?_
    simp [matchedBy, hrest l' hl']
  have hnew : matchedBy (r :: seen) l = true := by simp [matchedBy, hkeys]
  have hbefore := hperm.filter (matchedBy seen)
  have hafter := hperm.filter (matchedBy (r :: seen))
  rw [List.filter_cons_of_neg (by simp [hseen])] at hbefore
  rw [List.filter_cons_of_pos hnew, hsame] at hafter
  rw [Multiset.cons_coe, Multiset.coe_eq_coe]
  exact (hbefore.cons l).trans hafter.symm

/-- The lookups of a semi join on typed rows: the rows in the output are those that the
new right rows match and the rows seen before do not. -/
theorem probeRows_semi (hsizes : JoinSizes j) (htype : j.type = .leftSemi)
    (hleft : ∀ l ∈ left, l.Typed j.keysLeft j.payloadLeft)
    (hdistinct : (left.map SideRow.keys).Nodup) {table : AtomicHashTable}
    {placed : List (Bytes × ℕ)} (hperm : (placed.map Prod.fst).Perm (left.map SideRow.packed))
    {seen right : List SideRow} (hseen : ∀ r ∈ seen, r.Typed j.keysRight j.payloadRight)
    (hright : ∀ r ∈ right, r.Typed j.keysRight j.payloadRight)
    (hinv : SemiInv (j.comparator hash) table placed seen) :
    ∃ table' out, j.probeRows (j.comparator hash) table right = .ok (table', out) ∧
      (out : Multiset (List Bytes)) + ((left.filter (matchedBy seen)).map SideRow.columns :) =
        (left.filter (matchedBy (right ++ seen))).map SideRow.columns := by
  have hany : ∀ l ∈ left, ∀ rows : List SideRow,
      (∀ r ∈ rows, r.Typed j.keysRight j.payloadRight) →
      (rows.any fun r => (j.comparator hash).eq r.packed l.packed) = matchedBy rows l := by
    intro l hl rows hrows
    rw [Bool.eq_iff_iff, List.any_eq_true, matchedBy, List.any_eq_true]
    refine exists_congr fun r => and_congr_right fun hr => ?_
    rw [comparator_eq_iff hsizes (hleft l hl) (hrows r hr), decide_eq_true_iff]
  induction right generalizing table seen with
  | nil => exact ⟨table, [], rfl, by simp⟩
  | cons r right ih =>
    have hr := hright r List.mem_cons_self
    have hseen' : ∀ r' ∈ r :: seen, r'.Typed j.keysRight j.payloadRight :=
      List.forall_mem_cons.mpr ⟨hr, hseen⟩
    have hright' : ∀ r' ∈ right, r'.Typed j.keysRight j.payloadRight :=
      fun r' hr' => hright r' (List.mem_cons_of_mem _ hr')
    have hlast : matchedBy (right ++ r :: seen) = matchedBy (r :: right ++ seen) := by
      funext l
      simp only [matchedBy, List.cons_append, List.any_append, List.any_cons]
      exact Bool.or_left_comm _ _ _
    have hone : ∀ row i row' i', (row, i) ∈ placed → (row', i') ∈ placed →
        (j.comparator hash).eq r.packed row = true →
        (j.comparator hash).eq r.packed row' = true → i = i' := by
      intro row i row' i' hrow hrow' heq heq'
      obtain ⟨l, hl, rfl⟩ := exists_left hperm hrow
      obtain ⟨l', hl', rfl⟩ := exists_left hperm hrow'
      have hk := (comparator_eq_iff hsizes (hleft l hl) hr).mp heq
      have hk' := (comparator_eq_iff hsizes (hleft l' hl') hr).mp heq'
      obtain rfl := eq_of_keys_eq hdistinct hl hl' (hk.trans hk'.symm)
      exact slot_unique hleft hdistinct hperm hrow hrow'
    rcases lookupDisable_spec Join.comparator_hash_eq hinv r hone with
      ⟨table₁, row, i, hrow, heq, hfirst, hdata, hlook, hinv₁⟩ | ⟨hold, hlook, hinv₁⟩
    · obtain ⟨l, hl, rfl⟩ := exists_left hperm hrow
      have hkeys := (comparator_eq_iff hsizes (hleft l hl) hr).mp heq
      rw [hany l hl seen hseen] at hfirst
      obtain ⟨table', outs, hrun, houts⟩ := ih hseen' hright' hinv₁
      have hstep := probeRow_hit hsizes hr (by rw [lookupStep_semi htype]; exact hlook)
        (hleft l hl) (by rw [hdata]; exact (hinv.filled.placed_slot _ _ hrow).2.2)
      rw [if_pos htype, List.append_nil] at hstep
      refine ⟨table', l.columns :: outs, ?_, ?_⟩
      · simp only [Join.probeRows, hstep, hrun, bind, Except.bind]
        rfl
      · have hcons := congrArg (Multiset.map SideRow.columns)
          (filter_matchedBy_cons hdistinct hl hkeys hfirst)
        rw [Multiset.map_cons, Multiset.map_coe, Multiset.map_coe] at hcons
        rw [← hlast, ← houts, ← hcons, ← Multiset.cons_coe, Multiset.cons_add, Multiset.add_cons]
    · obtain ⟨table', outs, hrun, houts⟩ := ih hseen' hright' hinv₁
      have hstep := probeRow_miss hsizes hr (by rw [lookupStep_semi htype]; exact hlook)
      refine ⟨table', outs, ?_, ?_⟩
      · simp only [Join.probeRows, hstep, hrun, bind, Except.bind]
        rfl
      · have hsame : left.filter (matchedBy (r :: seen)) = left.filter (matchedBy seen) := by
          refine List.filter_congr fun l hl => ?_
          by_cases hk : l.keys = r.keys
          · obtain ⟨i, hi⟩ := exists_slot hperm hl
            have heq : (j.comparator hash).eq r.packed l.packed = true :=
              (comparator_eq_iff hsizes (hleft l hl) hr).mpr hk
            have hmatched := hold _ i hi heq
            rw [hany l hl seen hseen] at hmatched
            rw [hmatched]
            simp [matchedBy, hk]
          · simp [matchedBy, hk]
        rw [← hlast, ← houts, hsame]

end Semi

section Join

variable {T : ℕ} {hash : Bytes → UInt64}

theorem typed_flatten {ks ps : List IRType} {left : Fin T → List SideRow}
    (hleft : ∀ t, ∀ row ∈ left t, row.Typed ks ps) :
    ∀ l ∈ (List.ofFn left).flatten, l.Typed ks ps := by
  intro l hl
  obtain ⟨rows, hrows, hl⟩ := List.mem_flatten.mp hl
  obtain ⟨t, rfl⟩ := (List.mem_ofFn' _ _).mp hrows
  exact hleft t l hl

/-- A primary-key join: the build side leads to a hash table, and with every table that it
can lead to, the probes of the right rows output the inner join, or the left semi join. -/
theorem pk_join_exact (j : Join) (hsizes : JoinSizes j) (hash : Bytes → UInt64)
    (left : Fin T → List SideRow)
    (hleft : ∀ t, ∀ row ∈ left t, row.Typed j.keysLeft j.payloadLeft)
    (hdistinct : ((List.ofFn left).flatten.map SideRow.keys).Nodup) (right : List SideRow)
    (hright : ∀ r ∈ right, r.Typed j.keysRight j.payloadRight) :
    (∃ table, BuildsTable j hash left table) ∧
    ∀ table, BuildsTable j hash left table →
      ∃ table' out, j.probeRows (j.comparator hash) table right = .ok (table', out) ∧
        (j.type = .inner → (out : Multiset (List Bytes)) =
          innerJoin (List.ofFn left).flatten right) ∧
        (j.type = .leftSemi → (out : Multiset (List Bytes)) =
          leftSemiJoin (List.ofFn left).flatten right) := by
  refine ⟨exists_buildsTable hsizes.toBuildSizes hleft, fun table htable => ?_⟩
  have hloaded := htable.loaded hsizes.toBuildSizes hleft
  have hall : ∀ l ∈ (List.ofFn left).flatten, l.Typed j.keysLeft j.payloadLeft :=
    typed_flatten hleft
  by_cases htype : j.type = .leftSemi
  · obtain ⟨placed, hfilled, htagged, hperm⟩ := hloaded
    have hinv : SemiInv (j.comparator hash) table placed [] := by
      refine ⟨hfilled, fun row i hrow => ?_⟩
      obtain ⟨hi, hfill, hdata⟩ := hfilled.placed_slot row i hrow
      rw [htagged i hi hfill, hdata]
      rfl
    obtain ⟨table', out, hrun, hout⟩ := probeRows_semi hsizes htype hall hdistinct hperm
      (by simp) hright hinv
    refine ⟨table', out, hrun, fun h => absurd (h.symm.trans htype) (by simp), fun _ => ?_⟩
    rw [List.append_nil] at hout
    have hnone : (List.ofFn left).flatten.filter (matchedBy []) = [] :=
      List.filter_eq_nil_iff.mpr (by simp [matchedBy])
    rwa [hnone, List.map_nil, Multiset.coe_nil, add_zero] at hout
  · obtain ⟨out, hrun, hout⟩ := probeRows_inner hsizes htype hall hdistinct hloaded hright
    exact ⟨table, out, hrun, fun _ => hout, fun h => absurd h htype⟩

/-- Two rows on one side, three on the other, one pair of rows with the same key. -/
theorem pk_join_small :
    let j : Join := ⟨.inner, [.char], [.signedInt 2], [.char], [.char]⟩
    let left : Fin 1 → List SideRow := fun _ => [⟨[[1]], [[7, 0]]⟩, ⟨[[2]], [[8, 0]]⟩]
    let right : List SideRow := [⟨[[3]], [[4]]⟩, ⟨[[2]], [[5]]⟩, ⟨[[9]], [[5]]⟩]
    ∃ table table' out, BuildsTable j (fun _ => 0) left table ∧
      j.probeRows (j.comparator fun _ => 0) table right = .ok (table', out) ∧
      (out : Multiset (List Bytes)) = {[[2], [8, 0], [2], [5]]} := by
  intro j left right
  obtain ⟨hbuilds, hprobe⟩ := pk_join_exact j
    ⟨⟨by decide, by decide⟩, rfl, by decide, by decide⟩ (fun _ => 0) left
    (by intro t row hrow; fin_cases hrow <;> exact ⟨rfl, rfl⟩) (by decide) right
    (by simp only [right]; intro row hrow; fin_cases hrow <;> exact ⟨rfl, rfl⟩)
  obtain ⟨table, htable⟩ := hbuilds
  obtain ⟨table', out, hrun, hinner, _⟩ := hprobe table htable
  exact ⟨table, table', out, htable, hrun, (hinner rfl).trans (by decide)⟩

/-- Build rows of more than sixteen kilobytes are refused by the materializer, probe rows of
four kilobytes by the memory region, and rows without any bytes cannot be counted. -/
theorem pk_join_sizes_needed :
    (∀ (hash : Bytes → UInt64) (table : AtomicHashTable),
      ¬ BuildsTable ⟨.inner, [.signedInt 8], List.replicate 2048 (.signedInt 8),
          [.signedInt 8], []⟩ hash
        (fun _ : Fin 1 => [⟨[List.replicate 8 0],
          List.replicate 2048 (List.replicate 8 0)⟩]) table) ∧
    (∀ (hash : Bytes → UInt64) (table : AtomicHashTable),
      ¬ BuildsTable ⟨.inner, [], [], [], []⟩ hash (fun _ : Fin 1 => [⟨[], []⟩]) table) ∧
    (∀ (hash : Bytes → UInt64) (table : AtomicHashTable),
      let j : Join := ⟨.inner, [.signedInt 8], [], [.signedInt 8],
        List.replicate 511 (.signedInt 8)⟩
      j.probeRow (j.comparator hash) table ⟨[List.replicate 8 0],
          List.replicate 511 (List.replicate 8 0)⟩ = .error .outOfBounds) := by
  refine ⟨fun hash table h => ?_, fun hash table h => ?_, fun hash table => ?_⟩
  · obtain ⟨ms, hms, _⟩ := h
    have hm := hms 0
    rw [Join.materializeRows, TupleMaterializer.create, if_pos (by
      simp only [Join.tupleSize, Join.keySizeLeft, Join.payloadSizeLeft, Join.sizeOf,
        List.map_replicate, List.sum_replicate, IRType.numBytes, regionSize]
      decide)] at hm
    cases hm
  · obtain ⟨ms, hms, fresh, halloc, _⟩ := h
    have hm : ms 0 = ⟨0, [], [[]]⟩ := (Except.ok.inj (hms 0)).symm
    rw [List.ofFn_succ, List.ofFn_zero, hm] at halloc
    cases halloc
  · refine probeRow_large fun hlt => ?_
    simp only [Join.keySizeRight, Join.payloadSizeRight, Join.sizeOf, List.map_replicate,
      List.sum_replicate, IRType.numBytes] at hlt
    exact absurd hlt (by decide)

end Join

end InkFuse.Algebra
