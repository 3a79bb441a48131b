import InkFuse.Algebra.JoinBuild
import InkFuse.Runtime.FixedProbes

/-!
The size of the join hash table in the 64-bit arithmetic of the code. The slots are counted
without overflow and without an undefined shift, and there are at least twice as many as rows. A
slot thus stays free after all rows were inserted, and every probe loop ends.
-/

namespace InkFuse.Algebra

open Bytes Probing InkFuse.Runtime

namespace Word

/-- `__builtin_clzl`, which is undefined for zero. -/
def builtinClzl (x : UInt64) : Option ℕ := if x = 0 then none else some x.toBitVec.clz.toNat

/-- `1ull << count`, which is undefined from the width of the type on. -/
def shiftOne (count : ℕ) : Option UInt64 :=
  if count < 64 then some (UInt64.ofNat (2 ^ count)) else none

/-- `TupleMaterializer::getNumTuples`; a division by zero is undefined. -/
def getNumTuples (m : TupleMaterializer) : Option UInt64 :=
  if m.tupleSize = 0 then
    none
  else
    some (m.chunks.foldl (fun numFound chunk =>
      let occupied := UInt64.ofNat (m.tupleSize * chunk.length)
      numFound + occupied / UInt64.ofNat m.tupleSize) 0)

def totalRows (materializers : List TupleMaterializer) : Option UInt64 :=
  materializers.foldlM (fun total m => do
    let numTuples ← getNumTuples m
    some (total + numTuples)) 0

def totalSlots (totalRows : UInt64) : Option UInt64 := do
  let minCapacity := max 2 (2 * totalRows)
  let zeros ← builtinClzl (minCapacity - 1)
  shiftOne (64 - zeros)

/-- `allocHashTable`; there is no result if something undefined is computed. -/
def allocHashTable (slotSize : ℕ) (materializers : List TupleMaterializer) :
    Option (Except Fault AtomicHashTable) := do
  let rows ← totalRows materializers
  let slots ← totalSlots rows
  some (AtomicHashTable.create slotSize slots.toNat)

section Slots

/-- The bit length of a number that is not zero. -/
theorem builtinClzl_eq {x : UInt64} (hpos : 0 < x.toNat) :
    builtinClzl x = some (63 - Nat.log2 x.toNat) ∧ Nat.log2 x.toNat < 64 := by
  have hne : x ≠ 0 := by
    intro hzero
    rw [hzero] at hpos
    exact absurd hpos (Nat.lt_irrefl 0)
  have hbits : x.toBitVec ≠ 0#64 := by
    intro hzero
    apply hne
    apply UInt64.toBitVec_inj.mp
    exact hzero
  have hlow : 2 ^ (64 - 1 - x.toBitVec.clz.toNat) ≤ x.toNat :=
    BitVec.two_pow_sub_clz_le_toNat_of_ne_zero (by omega) hbits
  have hhigh : x.toNat < 2 ^ (64 - x.toBitVec.clz.toNat) := BitVec.toNat_lt_two_pow_sub_clz
  have hzeros : x.toBitVec.clz.toNat < 64 := by
    have hlt := BitVec.lt_def.mp (BitVec.clz_lt_iff_ne_zero.mpr hbits)
    simpa using hlt
  have hlog : Nat.log2 x.toNat = 63 - x.toBitVec.clz.toNat := by
    apply (Nat.log2_eq_iff (by omega)).mpr
    refine ⟨hlow, ?_⟩
    have hexp : 63 - x.toBitVec.clz.toNat + 1 = 64 - x.toBitVec.clz.toNat := by omega
    rw [hexp]
    exact hhigh
  refine ⟨?_, by omega⟩
  unfold builtinClzl
  rw [if_neg hne, hlog]
  congr 1
  omega

/-- The least power of two with at least `minCapacity` slots. -/
theorem totalSlots_eq {rows : UInt64} (hrows : rows.toNat < 2 ^ 61) :
    ∃ slots, totalSlots rows = some slots ∧
      slots.toNat = 2 ^ (Nat.log2 (max 2 (2 * rows.toNat) - 1) + 1) := by
  have hdouble : (2 * rows).toNat = 2 * rows.toNat := by
    rw [UInt64.toNat_mul]
    exact Nat.mod_eq_of_lt (show 2 * rows.toNat < 2 ^ 64 by omega)
  have hcapacity : (max 2 (2 * rows)).toNat = max 2 (2 * rows.toNat) := by
    rw [← hdouble]
    have htwo : UInt64.toNat 2 = 2 := rfl
    show (if 2 ≤ 2 * rows then 2 * rows else 2).toNat = _
    split
    · next hle =>
      have hnat := UInt64.le_iff_toNat_le.mp hle
      omega
    · next hle =>
      have hnat := mt UInt64.le_iff_toNat_le.mpr hle
      omega
  set x := max 2 (2 * rows) - 1 with hx
  have hxval : x.toNat = max 2 (2 * rows.toNat) - 1 := by
    rw [hx, UInt64.toNat_sub_of_le, hcapacity]
    · rfl
    · apply UInt64.le_iff_toNat_le.mpr
      rw [hcapacity]
      show 1 ≤ max 2 (2 * rows.toNat)
      omega
  obtain ⟨hclz, hlog⟩ := builtinClzl_eq (x := x) (by omega)
  have hlog62 : Nat.log2 x.toNat < 62 := by
    apply (Nat.log2_lt (by omega)).mpr
    omega
  have hcount : 64 - (63 - Nat.log2 x.toNat) = Nat.log2 x.toNat + 1 := by omega
  refine ⟨UInt64.ofNat (2 ^ (Nat.log2 x.toNat + 1)), ?_, ?_⟩
  · unfold totalSlots
    show (builtinClzl x >>= fun zeros => shiftOne (64 - zeros)) = _
    rw [hclz]
    show shiftOne (64 - (63 - Nat.log2 x.toNat)) = _
    unfold shiftOne
    rw [hcount, if_pos (by omega)]
  · rw [← hxval]
    have hlt : 2 ^ (Nat.log2 x.toNat + 1) < 2 ^ 64 :=
      Nat.pow_lt_pow_right (by omega) (by omega)
    exact UInt64.toNat_ofNat_of_lt' hlt

end Slots

section Rows

/-- No chunk holds more than `REGION_SIZE` bytes. -/
def ChunksFit (m : TupleMaterializer) : Prop :=
  ∀ chunk ∈ m.chunks, m.tupleSize * chunk.length ≤ regionSize

theorem ChunksFit.materialize {m : TupleMaterializer} (h : ChunksFit m)
    (hle : m.tupleSize ≤ regionSize) (tuple : Bytes) : ChunksFit (m.materialize tuple) := by
  intro chunk hchunk
  unfold TupleMaterializer.materialize at hchunk ⊢
  split at hchunk
  · next hfull =>
    rw [if_pos hfull]
    rcases List.mem_append.mp hchunk with hold | hnew
    · exact h chunk hold
    · rw [List.mem_singleton.mp hnew]
      simpa using hle
  · next hroom =>
    rw [if_neg hroom]
    rcases List.mem_append.mp hchunk with hold | hnew
    · exact h chunk (List.mem_append_left _ hold)
    · rw [List.mem_singleton.mp hnew]
      show m.tupleSize * (m.current ++ [tuple]).length ≤ regionSize
      rw [List.length_append, List.length_singleton, Nat.mul_succ]
      omega

theorem ChunksFit.getNumTuples_eq {m : TupleMaterializer} (h : ChunksFit m)
    (hpos : 0 < m.tupleSize) (hle : m.tupleSize ≤ regionSize) :
    getNumTuples m = some (UInt64.ofNat m.tuples.length) := by
  have hsum : ∀ (chunks : List (List Bytes)) (found : ℕ),
      (∀ chunk ∈ chunks, m.tupleSize * chunk.length ≤ regionSize) →
      chunks.foldl (fun numFound chunk =>
        let occupied := UInt64.ofNat (m.tupleSize * chunk.length)
        numFound + occupied / UInt64.ofNat m.tupleSize) (UInt64.ofNat found) =
      UInt64.ofNat (found + chunks.flatten.length) := by
    intro chunks
    induction chunks with
    | nil =>
      intro found _
      rfl
    | cons chunk chunks ih =>
      intro found hfit
      have hchunk := hfit chunk List.mem_cons_self
      have hdiv : UInt64.ofNat (m.tupleSize * chunk.length) / UInt64.ofNat m.tupleSize =
          UInt64.ofNat chunk.length := by
        apply UInt64.toNat_inj.mp
        have hlen : chunk.length ≤ m.tupleSize * chunk.length := Nat.le_mul_of_pos_left _ hpos
        have hfits : ∀ k, k ≤ regionSize → (UInt64.ofNat k).toNat = k := by
          intro k hk
          unfold regionSize at hk
          exact UInt64.toNat_ofNat_of_lt' (show k < 2 ^ 64 by omega)
        rw [UInt64.toNat_div, hfits _ hchunk, hfits _ hle, hfits _ (hlen.trans hchunk),
          Nat.mul_div_cancel_left _ hpos]
      rw [List.foldl_cons]
      show chunks.foldl _ (UInt64.ofNat found + UInt64.ofNat (m.tupleSize * chunk.length) /
        UInt64.ofNat m.tupleSize) = _
      rw [hdiv, ← UInt64.ofNat_add, ih (found + chunk.length) fun c hc =>
        hfit c (List.mem_cons_of_mem _ hc), List.flatten_cons, List.length_append, Nat.add_assoc]
  unfold getNumTuples
  rw [if_neg (by omega)]
  have hchunks := hsum m.chunks 0 h
  rw [Nat.zero_add] at hchunks
  exact congrArg some hchunks

/-- The rows of all materializers, modulo the width of the counter. -/
theorem totalRows_eq {ms : List TupleMaterializer}
    (h : ∀ m ∈ ms, ChunksFit m ∧ 0 < m.tupleSize ∧ m.tupleSize ≤ regionSize) :
    totalRows ms = some (UInt64.ofNat (ms.map TupleMaterializer.tuples).flatten.length) := by
  have hfold : ∀ (ms : List TupleMaterializer) (total : ℕ),
      (∀ m ∈ ms, ChunksFit m ∧ 0 < m.tupleSize ∧ m.tupleSize ≤ regionSize) →
      ms.foldlM (fun total m => do
        let numTuples ← getNumTuples m
        some (total + numTuples)) (UInt64.ofNat total) =
      some (UInt64.ofNat (total + (ms.map TupleMaterializer.tuples).flatten.length)) := by
    intro ms
    induction ms with
    | nil =>
      intro total _
      rfl
    | cons m ms ih =>
      intro total hall
      obtain ⟨hfit, hpos, hle⟩ := hall m List.mem_cons_self
      rw [List.foldlM_cons, hfit.getNumTuples_eq hpos hle]
      show ms.foldlM _ (UInt64.ofNat total + UInt64.ofNat m.tuples.length) = _
      rw [← UInt64.ofNat_add, ih (total + m.tuples.length) fun m hm =>
        hall m (List.mem_cons_of_mem _ hm), List.map_cons, List.flatten_cons, List.length_append,
        Nat.add_assoc]
  have htotal := hfold ms 0 h
  rw [Nat.zero_add] at htotal
  exact htotal

end Rows

/-- Below the limit the code computes what `allocHashTable` computes with natural numbers. -/
theorem allocHashTable_eq {slotSize : ℕ} {ms : List TupleMaterializer}
    (h : ∀ m ∈ ms, ChunksFit m ∧ 0 < m.tupleSize ∧ m.tupleSize ≤ regionSize)
    (hrows : (ms.map TupleMaterializer.tuples).flatten.length < 2 ^ 61) :
    allocHashTable slotSize ms = some (InkFuse.Algebra.allocHashTable slotSize ms) := by
  have htotal := totalRows_eq h
  have hval : (UInt64.ofNat (ms.map TupleMaterializer.tuples).flatten.length).toNat =
      (ms.map TupleMaterializer.tuples).flatten.length :=
    UInt64.toNat_ofNat_of_lt' (show _ < 2 ^ 64 by omega)
  obtain ⟨slots, hslots, hcount⟩ := totalSlots_eq (hval.symm ▸ hrows)
  have hsum : (ms.map fun m => m.tuples.length).sum =
      (ms.map TupleMaterializer.tuples).flatten.length := by
    rw [List.length_flatten, List.map_map]
    rfl
  have hnat : InkFuse.Algebra.allocHashTable slotSize ms =
      AtomicHashTable.create slotSize slots.toNat := by
    unfold InkFuse.Algebra.allocHashTable
    rw [mapM_getNumTuples fun m hm => (h m hm).2.1]
    show AtomicHashTable.create slotSize
      (2 ^ (Nat.log2 (max 2 (2 * (ms.map fun m => m.tuples.length).sum) - 1) + 1)) = _
    rw [hsum, hcount, hval]
  unfold allocHashTable
  rw [htotal]
  show (totalSlots _ >>= fun slots => some (AtomicHashTable.create slotSize slots.toNat)) = _
  rw [hslots, hnat]
  rfl

end Word

/-- What one thread leaves behind that materializes these tuples. -/
def materializeTuples (tupleSize : ℕ) (tuples : List Bytes) : Except Fault TupleMaterializer := do
  let m ← TupleMaterializer.create tupleSize
  .ok (tuples.foldl TupleMaterializer.materialize m)

theorem materializeTuples_spec {tupleSize : ℕ} (hle : tupleSize ≤ regionSize)
    (tuples : List Bytes) :
    ∃ m, materializeTuples tupleSize tuples = .ok m ∧ m.tupleSize = tupleSize ∧
      m.tuples = tuples ∧ Word.ChunksFit m := by
  have hfold : ∀ (tuples : List Bytes) (m : TupleMaterializer), m.tupleSize = tupleSize →
      Word.ChunksFit m → (tuples.foldl TupleMaterializer.materialize m).tupleSize = tupleSize ∧
        (tuples.foldl TupleMaterializer.materialize m).tuples = m.tuples ++ tuples ∧
        Word.ChunksFit (tuples.foldl TupleMaterializer.materialize m) := by
    intro tuples
    induction tuples with
    | nil =>
      intro m hsize hfit
      exact ⟨hsize, (List.append_nil _).symm, hfit⟩
    | cons tuple tuples ih =>
      intro m hsize hfit
      obtain ⟨hsize', htuples⟩ := m.materialize_tuples tuple
      obtain ⟨hlast, hall, hfit'⟩ := ih (m.materialize tuple) (hsize'.trans hsize)
        (hfit.materialize (hsize.symm ▸ hle) tuple)
      refine ⟨hlast, ?_, hfit'⟩
      rw [List.foldl_cons, hall, htuples, List.append_assoc, List.singleton_append]
  have hcreate : TupleMaterializer.create tupleSize = .ok ⟨tupleSize, [], []⟩ := by
    unfold TupleMaterializer.create
    rw [if_neg (by omega)]
  have hempty : Word.ChunksFit ⟨tupleSize, [], []⟩ := by
    intro chunk hchunk
    rw [List.mem_singleton.mp hchunk]
    exact Nat.zero_le _
  obtain ⟨hsize, htuples, hfit⟩ := hfold tuples ⟨tupleSize, [], []⟩ rfl hempty
  refine ⟨_, ?_, hsize, htuples, hfit⟩
  unfold materializeTuples
  rw [hcreate]
  rfl

/-- The rows that the threads insert are those that were materialized, in any distribution. The
build returns and leaves a slot free, whatever the lookups do afterwards. -/
theorem build_leaves_free {U slotSize numSlots total : ℕ} {C : Comparator}
    {fresh : AtomicHashTable} (hcreate : AtomicHashTable.create slotSize numSlots = .ok fresh)
    (hslot : slotSize < 2 ^ 16) (hroom : total < numSlots) {picked : Fin U → List Bytes}
    (hlen : ∀ t, ∀ row ∈ picked t, row.length = slotSize)
    (hsum : ∑ t, (picked t).length = total) :
    (∃ enough, ∀ schedule, (∀ t, enough ≤ schedule.count t) →
      (buildRun C (startBuild fresh picked) schedule).Finished) ∧
    ∀ schedule, (buildRun C (startBuild fresh picked) schedule).Finished →
      (buildRun C (startBuild fresh picked) schedule).table.HasFree := by
  have hfresh : fresh.totalSlotSize = slotSize ∧ fresh.modMask + 1 = numSlots := by
    unfold AtomicHashTable.create at hcreate
    split at hcreate
    · cases hcreate
    · cases hcreate
      refine ⟨Nat.mod_eq_of_lt hslot, ?_⟩
      show numSlots - 1 + 1 = numSlots
      omega
  have hstart : BuildInv C picked (startBuild fresh picked) fun _ => none := by
    apply startBuild_inv hcreate
    rw [hfresh.1]
    exact hlen
  have hroom' : ∑ t, (picked t).length < fresh.modMask + 1 := by
    rw [hsum, hfresh.2]
    exact hroom
  constructor
  · exact (build_progress hroom').enough ⟨rfl, _, hstart⟩
  · intro schedule hfin
    obtain ⟨hmask, occ, hinv⟩ := buildRun_inv hstart hroom' schedule
    have hlt : ∑ t, (picked t).length <
        (buildRun C (startBuild fresh picked) schedule).table.modMask + 1 := by
      rw [hmask]
      exact hroom'
    obtain ⟨hfilled, -, -⟩ := hinv.filled hlt hfin
    obtain ⟨i, hi, hfree⟩ := hfilled.room
    exact ⟨i, hi, not_not.mp hfree⟩

/-- For fewer than 2 ^ 61 rows, however they were materialized, the slots are counted as intended
and the table is accepted. For any comparator, any distribution of the rows to the inserting
threads and any schedule, all inserts return, and all loops over the slots end from then on. -/
theorem join_table_large_enough {T U : ℕ} (C : Comparator) {slotSize : ℕ} (hpos : 0 < slotSize)
    (hle : slotSize ≤ regionSize) (rows : Fin T → List Bytes)
    (hlen : ∀ t, ∀ row ∈ rows t, row.length = slotSize)
    (hrows : ∑ t, (rows t).length < 2 ^ 61) :
    ∃ (ms : Fin T → TupleMaterializer) (total slots : UInt64) (fresh : AtomicHashTable),
      (∀ t, materializeTuples slotSize (rows t) = .ok (ms t)) ∧
      Word.totalRows (List.ofFn ms) = some total ∧ total.toNat = ∑ t, (rows t).length ∧
      (2 * total).toNat = 2 * ∑ t, (rows t).length ∧
      Word.totalSlots total = some slots ∧ slots.toNat.isPowerOfTwo ∧ 2 ≤ slots.toNat ∧
      2 * ∑ t, (rows t).length ≤ slots.toNat ∧
      AtomicHashTable.create slotSize slots.toNat = .ok fresh ∧
      Word.allocHashTable slotSize (List.ofFn ms) = some (.ok fresh) ∧
      ∀ picked : Fin U → List Bytes, (List.ofFn picked).flatten.Perm (List.ofFn rows).flatten →
        (∃ enough, ∀ schedule, (∀ t, enough ≤ schedule.count t) →
          (buildRun C (startBuild fresh picked) schedule).Finished) ∧
        ∀ schedule, (buildRun C (startBuild fresh picked) schedule).Finished →
          ∀ s, AtomicHashTable.LookedUp C
            (buildRun C (startBuild fresh picked) schedule).table s →
          s.HasFree ∧ s.LoopsEnd C ∧ CallsReturn C s := by
  choose ms hms hsize htuples hfit using fun t => materializeTuples_spec hle (rows t)
  have hall : ((List.ofFn ms).map TupleMaterializer.tuples).flatten = (List.ofFn rows).flatten := by
    rw [List.map_ofFn]
    congr 2
    funext t
    exact htuples t
  have hflat : ∀ {V : ℕ} (rows : Fin V → List Bytes),
      (List.ofFn rows).flatten.length = ∑ t, (rows t).length := by
    intro V rows
    rw [List.length_flatten, List.map_ofFn, List.sum_ofFn]
    rfl
  have hmem : ∀ m ∈ List.ofFn ms,
      Word.ChunksFit m ∧ 0 < m.tupleSize ∧ m.tupleSize ≤ regionSize := by
    intro m hm
    obtain ⟨t, rfl⟩ := (List.mem_ofFn' _ _).mp hm
    rw [hsize t]
    exact ⟨hfit t, hpos, hle⟩
  have htotal := Word.totalRows_eq hmem
  rw [hall, hflat] at htotal
  have hval : (UInt64.ofNat (∑ t, (rows t).length)).toNat = ∑ t, (rows t).length :=
    UInt64.toNat_ofNat_of_lt' (show _ < 2 ^ 64 by omega)
  obtain ⟨slots, hslots, hcount⟩ := Word.totalSlots_eq (hval.symm ▸ hrows)
  rw [hval] at hcount
  have hpow : slots.toNat.isPowerOfTwo := ⟨_, hcount⟩
  have hlt : max 2 (2 * ∑ t, (rows t).length) - 1 < slots.toNat := by
    rw [hcount]
    exact Nat.lt_log2_self
  obtain ⟨fresh, hcreate⟩ : ∃ fresh, AtomicHashTable.create slotSize slots.toNat = .ok fresh := by
    have hand := (Nat.and_sub_one_eq_zero_iff_isPowerOfTwo (by omega)).mpr hpow
    unfold AtomicHashTable.create
    rw [hand, if_neg (by omega)]
    exact ⟨_, rfl⟩
  have halloc : Word.allocHashTable slotSize (List.ofFn ms) = some (.ok fresh) := by
    unfold Word.allocHashTable
    rw [htotal]
    show (Word.totalSlots _ >>= fun slots =>
      some (AtomicHashTable.create slotSize slots.toNat)) = _
    rw [hslots]
    show some (AtomicHashTable.create slotSize slots.toNat) = _
    rw [hcreate]
  refine ⟨ms, _, slots, fresh, hms, htotal, hval, ?_, hslots, hpow, by omega, by omega, hcreate,
    halloc, ?_⟩
  · rw [UInt64.toNat_mul, hval]
    exact Nat.mod_eq_of_lt (show 2 * ∑ t, (rows t).length < 2 ^ 64 by omega)
  · intro picked hperm
    have hplen : ∀ t, ∀ row ∈ picked t, row.length = slotSize := by
      intro t row hrow
      have hin : row ∈ (List.ofFn picked).flatten :=
        List.mem_flatten.mpr ⟨picked t, (List.mem_ofFn' _ _).mpr ⟨t, rfl⟩, hrow⟩
      obtain ⟨rs, hrs, hr⟩ := List.mem_flatten.mp (hperm.mem_iff.mp hin)
      obtain ⟨u, rfl⟩ := (List.mem_ofFn' _ _).mp hrs
      exact hlen u row hr
    have hsum : ∑ t, (picked t).length = ∑ t, (rows t).length := by
      rw [← hflat, ← hflat]
      exact hperm.length_eq
    have hslot : slotSize < 2 ^ 16 := by
      unfold regionSize at hle
      omega
    obtain ⟨hreturns, hfree⟩ := build_leaves_free (C := C) hcreate hslot (by omega) hplen hsum
    refine ⟨hreturns, ?_⟩
    intro schedule hfin s hs
    have hs' := hs.hasFree (hfree schedule hfin)
    exact ⟨hs', hs'.loopsEnd, hs'.callsReturn⟩

/-- Three rows from two threads that one thread inserts, all with the same hash. -/
theorem three_rows_fit :
    let C := simpleKeyComparator (fun _ => 0) 1
    let rows : Fin 2 → List Bytes := ![[[7]], [[8], [9]]]
    (∀ t, ∀ row ∈ rows t, row.length = 1) ∧ ∑ t, (rows t).length < 2 ^ 61 ∧
      ∃ (slots : UInt64) (fresh : AtomicHashTable), 2 * 3 ≤ slots.toNat ∧
        AtomicHashTable.create 1 slots.toNat = .ok fresh ∧
        ∃ schedule : List (Fin 1), (buildRun C (startBuild fresh fun _ => [[9], [7], [8]])
          schedule).Finished ∧
          (buildRun C (startBuild fresh fun _ => [[9], [7], [8]]) schedule).table.LoopsEnd C := by
  intro C rows
  have hlen : ∀ t, ∀ row ∈ rows t, row.length = 1 := by decide
  have hsum : ∑ t, (rows t).length = 3 := by decide
  have hrows : ∑ t, (rows t).length < 2 ^ 61 := by omega
  obtain ⟨ms, total, slots, fresh, -, -, -, -, -, -, -, hslots, hcreate, -, hbuild⟩ :=
    join_table_large_enough (U := 1) C (by omega) (by decide) rows hlen hrows
  have hperm : (List.ofFn fun _ : Fin 1 => [[9], [7], [8]]).flatten.Perm
      (List.ofFn rows).flatten := by decide
  obtain ⟨⟨enough, hreturn⟩, hloops⟩ := hbuild (fun _ => [[9], [7], [8]]) hperm
  have hfin := hreturn (List.replicate enough 0) fun t => by
    rw [Subsingleton.elim t 0, List.count_replicate_self]
  rw [hsum] at hslots
  exact ⟨hlen, hrows, slots, fresh, hslots, hcreate, _, hfin, (hloops _ hfin _ .start).2.1⟩

end InkFuse.Algebra
