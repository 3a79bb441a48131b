import InkFuse.Runtime.TableVariants
import InkFuse.Runtime.UsedTables

/-!
The direct-lookup table and the hashed table for keys of two bytes. Both stand for the same map
from keys to payloads: the hashed table by `Represents`, the direct-lookup table by having the slot
of a key at the index that the key is.
-/

namespace InkFuse.Runtime

open Bytes Probing SharedHashTableState HashTableDirectLookup

section Bytes

theorem encode_keyIndex {key : Bytes} (hkey : key.length = 2) : encode 2 (keyIndex key) = key := by
  unfold keyIndex
  rw [← hkey, readAt_all, encode_decode]

theorem keyIndex_encode {idx : ℕ} (hidx : idx < 2 ^ 16) : keyIndex (encode 2 idx) = idx := by
  have hread : readAt (encode 2 idx) 0 (encode 2 idx).length = encode 2 idx := readAt_all _
  rw [encode_length] at hread
  unfold keyIndex
  rw [hread]
  exact decode_encode_of_lt hidx

theorem writeAt_append_right (x y bs : Bytes) (off : ℕ) :
    writeAt (x ++ y) (x.length + off) bs = x ++ writeAt y off bs := by
  unfold writeAt
  rw [Nat.add_assoc, List.take_length_add_append, List.drop_length_add_append]
  simp only [List.append_assoc]

theorem writeAt_append_left {x y z : Bytes} (h : x.length = z.length) :
    writeAt (x ++ y) 0 z = z ++ y := by
  unfold writeAt
  rw [List.take_zero, List.nil_append, Nat.zero_add, ← h, List.drop_left]

end Bytes

namespace HashTableDirectLookup

def slot (t : HashTableDirectLookup) (idx : ℕ) : Bytes :=
  readAt t.data (t.slotSize * idx) t.slotSize

section Slots

variable {t u : HashTableDirectLookup} {idx j off : ℕ} {bs : Bytes}

theorem slot_inside (hlen : t.data.length = 2 ^ 16 * t.slotSize) (hidx : idx < 2 ^ 16) :
    t.slotSize * idx + t.slotSize ≤ t.data.length := by
  rw [hlen, ← Nat.mul_succ, Nat.mul_comm]
  exact Nat.mul_le_mul_right t.slotSize hidx

/-- A write inside of a slot succeeds, and no other slot changes. -/
theorem store_slot (hlen : t.data.length = 2 ^ 16 * t.slotSize) (hidx : idx < 2 ^ 16)
    (hbs : off + bs.length ≤ t.slotSize) :
    t.store (t.slotSize * idx + off) bs =
      .ok { t with data := writeAt t.data (t.slotSize * idx + off) bs } ∧
    ∀ j, j < 2 ^ 16 →
      slot { t with data := writeAt t.data (t.slotSize * idx + off) bs } j =
        if j = idx then writeAt (t.slot idx) off bs else t.slot j := by
  have hinside := slot_inside hlen hidx
  constructor
  · unfold store
    rw [if_pos (by omega)]
  · intro j hj
    show readAt (writeAt t.data (t.slotSize * idx + off) bs) (t.slotSize * j) t.slotSize = _
    by_cases hsame : j = idx
    · rw [if_pos hsame, hsame]
      exact readAt_writeAt_inside hbs hinside
    · rw [if_neg hsame]
      apply readAt_writeAt_disjoint (by omega)
      rcases Nat.lt_or_gt_of_ne hsame with hlt | hgt
      · have hle := Nat.mul_le_mul_left t.slotSize (Nat.succ_le_of_lt hlt)
        rw [Nat.mul_succ] at hle
        exact .inl (by omega)
      · have hle := Nat.mul_le_mul_left t.slotSize (Nat.succ_le_of_lt hgt)
        rw [Nat.mul_succ] at hle
        exact .inr (by omega)

/-- What an insertion does. The key is written to its slot, whether it has been there or not. -/
theorem lookupOrInsert_slots (hlen : t.data.length = 2 ^ 16 * t.slotSize) (hfit : 2 ≤ t.slotSize)
    {key : Bytes} (hkey : key.length = 2) :
    ∃ u, t.lookupOrInsert key = .ok (u, t.slotSize * keyIndex key) ∧ u.slotSize = t.slotSize ∧
      u.data.length = t.data.length ∧ u.tags = Function.update t.tags (keyIndex key) true ∧
      u.numInserted = (if t.tags (keyIndex key) then t.numInserted else t.numInserted + 1) ∧
      ∀ j, j < 2 ^ 16 →
        u.slot j = if j = keyIndex key then writeAt (t.slot j) 0 key else t.slot j := by
  have hidx := keyIndex_lt key
  have hinside := slot_inside hlen hidx
  have hroom : 0 + key.length ≤ t.slotSize := by omega
  obtain ⟨hstore, hslots⟩ := store_slot (t := { t with
    numInserted := if t.tags (keyIndex key) then t.numInserted else t.numInserted + 1
    tags := Function.update t.tags (keyIndex key) true }) hlen hidx hroom
  refine ⟨{ t with
    data := writeAt t.data (t.slotSize * keyIndex key + 0) key
    numInserted := if t.tags (keyIndex key) then t.numInserted else t.numInserted + 1
    tags := Function.update t.tags (keyIndex key) true }, ?_, rfl, ?_, rfl, rfl, fun j hj => ?_⟩
  · unfold HashTableDirectLookup.lookupOrInsert
    simp only [encode_keyIndex hkey]
    rw [show t.slotSize * keyIndex key = t.slotSize * keyIndex key + 0 from rfl, hstore]
    rfl
  · exact writeAt_length (by omega)
  · refine (hslots j hj).trans ?_
    by_cases hsame : j = keyIndex key
    · rw [if_pos hsame, if_pos hsame, hsame]
      rfl
    · rw [if_neg hsame, if_neg hsame]
      rfl

end Slots

end HashTableDirectLookup

structure DirectRepresents (payloadSize : ℕ) (t : HashTableDirectLookup) (m : PayloadMap) :
    Prop where
  length : t.data.length = 2 ^ 16 * t.slotSize
  slotSize_eq : t.slotSize = 2 + payloadSize
  mem_keys : ∀ q, q ∈ m.keys ↔ ∃ idx, idx < 2 ^ 16 ∧ t.tags idx = true ∧ q = encode 2 idx
  slot_eq : ∀ idx, idx < 2 ^ 16 → t.tags idx = true →
    t.slot idx = encode 2 idx ++ m.payload (encode 2 idx)
  free : ∀ idx, idx < 2 ^ 16 → t.tags idx = false → t.slot idx = List.replicate t.slotSize 0
  payload_zero : ∀ q, q ∉ m.keys → m.payload q = List.replicate payloadSize 0
  payload_length : ∀ q, (m.payload q).length = payloadSize
  size_eq : t.numInserted = m.keys.card

namespace DirectRepresents

variable {payloadSize : ℕ} {t : HashTableDirectLookup} {m : PayloadMap}

theorem mem_iff (h : DirectRepresents payloadSize t m) {key : Bytes} (hkey : key.length = 2) :
    key ∈ m.keys ↔ t.tags (keyIndex key) = true := by
  rw [h.mem_keys]
  constructor
  · intro hmem
    obtain ⟨idx, hidx, htag, rfl⟩ := hmem
    rw [keyIndex_encode hidx]
    exact htag
  · intro htag
    exact ⟨keyIndex key, keyIndex_lt key, htag, (encode_keyIndex hkey).symm⟩

/-- What a client remembers about slots does not matter. -/
theorem setLive (h : DirectRepresents payloadSize t m) (live : ℕ → Option Bytes) :
    DirectRepresents payloadSize t { m with live := live } :=
  ⟨h.length, h.slotSize_eq, h.mem_keys, h.slot_eq, h.free, h.payload_zero, h.payload_length,
    h.size_eq⟩

theorem create (h : 2 + payloadSize < 2 ^ 15) :
    ∃ t, HashTableDirectLookup.create payloadSize = .ok t ∧
      DirectRepresents payloadSize t (PayloadMap.empty payloadSize) := by
  have hmod : (2 + payloadSize) % 2 ^ 16 = 2 + payloadSize := Nat.mod_eq_of_lt (by omega)
  refine ⟨⟨List.replicate (2 ^ 16 * (2 + payloadSize)) 0, fun _ => false, 0, 2 + payloadSize⟩,
    ?_, ?_⟩
  · unfold HashTableDirectLookup.create
    simp only [hmod]
    rw [if_pos (by omega)]
  · refine ⟨List.length_replicate, rfl, ?_, ?_, ?_, fun _ _ => rfl, fun _ => List.length_replicate,
      rfl⟩
    · intro q
      simp [PayloadMap.empty]
    · intro idx _ htag
      cases htag
    · intro idx hidx _
      apply readAt_replicate
      show (2 + payloadSize) * idx + (2 + payloadSize) ≤ 2 ^ 16 * (2 + payloadSize)
      rw [← Nat.mul_succ, Nat.mul_comm]
      exact Nat.mul_le_mul_right _ hidx

/-- The slot of a key after its insertion. -/
theorem slot_insert (h : DirectRepresents payloadSize t m) {key : Bytes} (hkey : key.length = 2) :
    writeAt (t.slot (keyIndex key)) 0 key = key ++ m.payload key := by
  have hencode := encode_keyIndex hkey
  cases htag : t.tags (keyIndex key) with
  | true =>
    rw [h.slot_eq _ (keyIndex_lt key) htag, hencode]
    exact writeAt_append_left rfl
  | false =>
    have hnot : key ∉ m.keys := by
      rw [h.mem_iff hkey, htag]
      decide
    rw [h.free _ (keyIndex_lt key) htag, h.payload_zero key hnot, h.slotSize_eq,
      List.replicate_add]
    exact writeAt_append_left (by rw [List.length_replicate, hkey])

theorem mem_insert_iff (h : DirectRepresents payloadSize t m) {key q : Bytes}
    (hkey : key.length = 2) : q ∈ Insert.insert key m.keys ↔
      ∃ j, j < 2 ^ 16 ∧ (j = keyIndex key ∨ t.tags j = true) ∧ q = encode 2 j := by
  rw [Finset.mem_insert, h.mem_keys]
  constructor
  · intro hq
    rcases hq with rfl | ⟨j, hj, htag, rfl⟩
    · exact ⟨keyIndex q, keyIndex_lt q, .inl rfl, (encode_keyIndex hkey).symm⟩
    · exact ⟨j, hj, .inr htag, rfl⟩
  · intro hq
    obtain ⟨j, hj, rfl | htag, rfl⟩ := hq
    · exact .inl (encode_keyIndex hkey)
    · exact .inr ⟨j, hj, htag, rfl⟩

theorem size_insert (h : DirectRepresents payloadSize t m) {key : Bytes} (hkey : key.length = 2) :
    (if t.tags (keyIndex key) then t.numInserted else t.numInserted + 1) =
      (Insert.insert key m.keys).card := by
  by_cases htag : t.tags (keyIndex key) = true
  · rw [if_pos htag, Finset.insert_eq_of_mem ((h.mem_iff hkey).mpr htag), h.size_eq]
  · have hnot : key ∉ m.keys := by
      rwa [h.mem_iff hkey]
    rw [if_neg htag, Finset.card_insert_of_notMem hnot, h.size_eq]

/-- Inserting a key, present or not. -/
theorem lookupOrInsert (h : DirectRepresents payloadSize t m) {key : Bytes}
    (hkey : key.length = 2) (i : ℕ) (grown : Bool) :
    ∃ u, t.lookupOrInsert key = .ok (u, t.slotSize * keyIndex key) ∧
      u.slotSize = t.slotSize ∧ u.slot (keyIndex key) = key ++ m.payload key ∧
      DirectRepresents payloadSize u (m.inserted key i grown) := by
  have hidx := keyIndex_lt key
  have hfit : 2 ≤ t.slotSize := by
    rw [h.slotSize_eq]
    omega
  obtain ⟨u, hcall, hsize, hlength, htags, hcount, hslots⟩ :=
    lookupOrInsert_slots h.length hfit hkey
  have hself : u.slot (keyIndex key) = key ++ m.payload key := by
    rw [hslots _ hidx, if_pos rfl, h.slot_insert hkey]
  have htag : ∀ j, u.tags j = true ↔ j = keyIndex key ∨ t.tags j = true := by
    intro j
    rw [htags]
    by_cases hsame : j = keyIndex key
    · simp [hsame]
    · simp [hsame]
  refine ⟨u, hcall, hsize, hself, ?_, hsize.trans h.slotSize_eq, fun q => ?_, fun j hj hj' => ?_,
    fun j hj hj' => ?_, fun q hq => ?_, h.payload_length, ?_⟩
  · rw [hlength, hsize, h.length]
  · simp only [htag]
    exact h.mem_insert_iff hkey
  · by_cases hsame : j = keyIndex key
    · rw [hsame, hself, encode_keyIndex hkey]
      rfl
    · rw [hslots j hj, if_neg hsame]
      exact h.slot_eq j hj (((htag j).mp hj').resolve_left hsame)
  · have hneither : ¬ (j = keyIndex key ∨ t.tags j = true) := by
      rw [← htag, hj']
      exact Bool.false_ne_true
    rw [hslots j hj, if_neg fun hsame => hneither (.inl hsame), hsize]
    exact h.free j hj (Bool.eq_false_iff.mpr fun hold => hneither (.inr hold))
  · have hnot : q ∉ m.keys := fun hold => hq (Finset.mem_insert_of_mem hold)
    exact h.payload_zero q hnot
  · rw [hcount]
    exact h.size_insert hkey

/-- A write to the payload of a key. -/
theorem write (h : DirectRepresents payloadSize t m) {key bs : Bytes} {off : ℕ}
    (hkey : key ∈ m.keys) (hbs : off + bs.length ≤ payloadSize) :
    ∃ u, t.store (t.slotSize * keyIndex key + (2 + off)) bs = .ok u ∧
      DirectRepresents payloadSize u (m.write key off bs) := by
  obtain ⟨idx, hidx, htag, rfl⟩ := (h.mem_keys key).mp hkey
  rw [keyIndex_encode hidx]
  have hsize := h.slotSize_eq
  have hfit : 2 + off + bs.length ≤ t.slotSize := by omega
  obtain ⟨hstore, hslots⟩ := store_slot h.length hidx hfit
  have hinside := slot_inside h.length hidx
  have hpayload : (m.payload (encode 2 idx)).length = payloadSize := h.payload_length _
  refine ⟨_, hstore, ?_⟩
  refine ⟨?_, hsize, h.mem_keys, ?_, ?_, ?_, ?_, h.size_eq⟩
  · show (writeAt t.data _ bs).length = _
    rw [writeAt_length (by omega)]
    exact h.length
  · intro j hj hjtag
    rw [hslots j hj]
    show _ = encode 2 j ++ Function.update m.payload (encode 2 idx) _ (encode 2 j)
    by_cases hsame : j = idx
    · subst hsame
      have htwo : (encode 2 j).length + off = 2 + off := by rw [encode_length]
      rw [if_pos rfl, Function.update_self, h.slot_eq j hj htag, ← htwo, writeAt_append_right]
    · have hne : encode 2 j ≠ encode 2 idx := by
        intro heq
        apply hsame
        rw [← keyIndex_encode hj, heq, keyIndex_encode hidx]
      rw [if_neg hsame, Function.update_of_ne hne]
      exact h.slot_eq j hj hjtag
  · intro j hj hjtag
    have hne : j ≠ idx := by
      intro hsame
      rw [hsame, htag] at hjtag
      cases hjtag
    rw [hslots j hj, if_neg hne]
    exact h.free j hj hjtag
  · intro q hq
    have hne : q ≠ encode 2 idx := fun heq => hq (heq ▸ hkey)
    show Function.update m.payload (encode 2 idx) _ q = _
    rw [Function.update_of_ne hne]
    exact h.payload_zero q hq
  · intro q
    show (Function.update m.payload (encode 2 idx) _ q).length = _
    by_cases heq : q = encode 2 idx
    · rw [heq, Function.update_self, writeAt_length (by omega), hpayload]
    · rw [Function.update_of_ne heq]
      exact h.payload_length q

end DirectRepresents

section Enumeration

variable {slotSize n : ℕ} {occupied : ℕ → Bool}

/-- Visiting a table from its first entry until the pointer is null visits all entries. -/
theorem visit_entries {C : Cursor Fault TableIterator}
    (h : C.Enumerates (TableIterator.Stands slotSize occupied n)) {it : TableIterator}
    (hit : it.Stands slotSize occupied n (entriesFrom occupied n 0)) :
    C.visit .diverges (fun it => it.data.isNone) n it =
      .ok ((entriesFrom occupied n 0).map fun i => ⟨some (i * slotSize), i⟩) := by
  have hlength : (entriesFrom occupied n 0).length ≤ n := by
    rw [entriesFrom_zero]
    exact (List.length_filter_le _ _).trans_eq List.length_range
  rw [← List.append_nil (entriesFrom occupied n 0)] at hit
  obtain ⟨visited, hvisit, hvisited⟩ := h.visit Fault.diverges (fun it => it.data.isNone)
    (fun it hit => hit.atEnd.mpr rfl) (fun a _ it left hit => by simp [hit.1]) n hlength hit
  rw [hvisit, stands_visited hvisited]

/-- Start an iterator and advance it until it is null. -/
def SharedHashTableState.enumerate (s : SharedHashTableState) :
    Except Fault (List TableIterator) := do
  let it ← s.itStart
  (slotCursor s.modMask s.totalSlotSize s.filled).visit .diverges (fun it => it.data.isNone)
    (s.modMask + 1) it

def HashTableDirectLookup.cursor (t : HashTableDirectLookup) : Cursor Fault TableIterator where
  advance := t.itAdvance
  atEnd := fun it => it.data.isNone

def HashTableDirectLookup.enumerate (t : HashTableDirectLookup) :
    Except Fault (List TableIterator) := do
  let it ← t.itStart
  t.cursor.visit .diverges (fun it => it.data.isNone) t.capacity it

theorem SharedHashTableState.enumerate_eq (s : SharedHashTableState) :
    s.enumerate = .ok ((entriesFrom s.filled s.capacity 0).map
      fun i => ⟨some (i * s.totalSlotSize), i⟩) := by
  obtain ⟨it, hstart, hstands⟩ := slotStart_spec s.modMask s.totalSlotSize s.filled
  have hvisit := visit_entries (slotCursor_enumerates s.modMask s.totalSlotSize s.filled) hstands
  unfold SharedHashTableState.enumerate SharedHashTableState.itStart
  rw [hstart]
  exact hvisit

theorem HashTableDirectLookup.enumerate_eq (t : HashTableDirectLookup) :
    t.enumerate = .ok ((entriesFrom t.tags t.capacity 0).map
      fun i => ⟨some (i * t.slotSize), i⟩) := by
  obtain ⟨it, hstart, hstands⟩ := t.itStart_spec
  have henumerates : t.cursor.Enumerates
      (TableIterator.Stands t.slotSize t.tags t.capacity) := by
    refine ⟨TableIterator.Stands.atEnd, ?_⟩
    intro it i left hit
    obtain ⟨rfl, _, _, rfl⟩ := hit
    exact HashTableDirectLookup.itAdvance_spec i
  have hvisit := visit_entries henumerates hstands
  unfold HashTableDirectLookup.enumerate
  rw [hstart]
  exact hvisit

theorem mem_entries {i : ℕ} : i ∈ entriesFrom occupied n 0 ↔ i < n ∧ occupied i = true := by
  rw [entriesFrom_zero, List.mem_filter, List.mem_range]

theorem nodup_entries : (entriesFrom occupied n 0).Nodup := by
  rw [entriesFrom_zero]
  exact List.nodup_range.filter _

end Enumeration

section Agreement

variable (hash : Bytes → UInt64) (payloadSize : ℕ)

/-- The two tables that a sequence of operations on both leads to, with the map they stand for and
the keys of the slots of the hashed table that the client may still write to. -/
inductive JointRun (t₀ : HashTableDirectLookup) (s₀ : SharedHashTableState) :
    HashTableDirectLookup → SharedHashTableState → PayloadMap → Prop
  | start : JointRun t₀ s₀ t₀ s₀ (PayloadMap.empty payloadSize)
  | lookup {t s m key r} : JointRun t₀ s₀ t s m → key.length = 2 →
      s.lookup (simpleKey hash 2) key = .ok r →
      JointRun t₀ s₀ t s (m.returned r (readAt key 0 2))
  | lookupOrInsert {t s m key r u ptr} : JointRun t₀ s₀ t s m → key.length = 2 →
      s.lookupOrInsert (simpleKey hash 2) key = .ok r → t.lookupOrInsert key = .ok (u, ptr) →
      JointRun t₀ s₀ u r.table (m.inserted (readAt key 0 2) r.slot r.grown)
  | write {t s m i key ptr off bs t' s'} : JointRun t₀ s₀ t s m → m.live i = some key →
      t.lookup key = some ptr → off + bs.length ≤ payloadSize →
      s.copyTo i (2 + off) bs = .ok s' → t.store (ptr + (2 + off)) bs = .ok t' →
      JointRun t₀ s₀ t' s' (m.write key off bs)

/-- Every operation answers alike on the two tables, and none fails. -/
structure Agree (t : HashTableDirectLookup) (s : SharedHashTableState) (m : PayloadMap) :
    Prop where
  lookup : ∀ key, key.length = 2 → ∃ r, s.lookup (simpleKey hash 2) key = .ok r ∧
    (r = none ↔ t.lookup key = none) ∧
    ∀ i ptr, r = some i → t.lookup key = some ptr →
      s.data i = readAt t.data ptr t.slotSize ∧ readAt (s.data i) 0 2 = key
  lookupOrInsert : ∀ key, key.length = 2 → ∃ r u ptr,
    s.lookupOrInsert (simpleKey hash 2) key = .ok r ∧ t.lookupOrInsert key = .ok (u, ptr) ∧
      r.table.data r.slot = readAt u.data ptr u.slotSize ∧
      readAt (r.table.data r.slot) 0 2 = key
  write : ∀ i key off bs, m.live i = some key → off + bs.length ≤ payloadSize →
    ∃ ptr s' t', t.lookup key = some ptr ∧ s.copyTo i (2 + off) bs = .ok s' ∧
      t.store (ptr + (2 + off)) bs = .ok t'
  size_eq : s.size = t.size
  enumerate : ∃ its jts, s.enumerate = .ok its ∧ t.enumerate = .ok jts ∧
    (its.map fun it => s.data it.idx).Perm
      (jts.map fun it => readAt t.data (it.data.getD 0) t.slotSize)

variable {hash payloadSize} {t t₀ : HashTableDirectLookup} {s s₀ : SharedHashTableState}
  {m : PayloadMap}

theorem slot_of_reads {d q p : Bytes} (hlen : d.length = 2 + payloadSize)
    (hkey : readAt d 0 2 = q) (hpayload : readAt d 2 payloadSize = p) : d = q ++ p := by
  have hrest : (d.drop 2).length ≤ payloadSize := by
    rw [List.length_drop]
    omega
  rw [← hkey, ← hpayload]
  unfold readAt
  rw [List.drop_zero, List.take_of_length_le hrest, List.take_append_drop]

theorem Represents.slot_bytes (hs : Represents (simpleLayout hash 2) payloadSize s m) {q p : Bytes}
    {i : ℕ} (h : StoresAt (simpleLayout hash 2) payloadSize s q p i) : s.data i = q ++ p := by
  obtain ⟨hi, -, hident, hpayload, -⟩ := h
  have hlen : (s.data i).length = 2 + payloadSize := by
    rw [hs.inv.slot_length i hi]
    exact hs.slotSize_eq
  exact slot_of_reads hlen hident hpayload

/-- The entries of the hashed table. -/
theorem Represents.mem_slots (hs : Represents (simpleLayout hash 2) payloadSize s m) (d : Bytes) :
    d ∈ (entriesFrom s.filled s.capacity 0).map s.data ↔ ∃ q ∈ m.keys, d = q ++ m.payload q := by
  have hfilled : ∀ i, i < s.capacity → (s.filled i = true ↔ s.tags i ≠ 0) := by
    intro i hi
    rw [← Bool.not_eq_false, filled_eq_false, hs.inv.fill_bit hi]
  rw [List.mem_map]
  constructor
  · intro h
    obtain ⟨i, hmem, rfl⟩ := h
    obtain ⟨hi, hfill⟩ := mem_entries.mp hmem
    have hstored : s.Stored i (s.data i) :=
      ⟨hi, slots_eq_some_iff.mpr ⟨(hfilled i hi).mp hfill, rfl⟩⟩
    exact ⟨_, (hs.mem_keys _).mpr ⟨_, ⟨i, hstored⟩, rfl⟩, hs.slot_bytes (hs.storesAt hstored)⟩
  · intro h
    obtain ⟨q, hq, rfl⟩ := h
    obtain ⟨d, ⟨i, hi⟩, rfl⟩ := (hs.mem_keys q).mp hq
    exact ⟨i, mem_entries.mpr ⟨hi.1, (hfilled i hi.1).mpr hi.tag_ne_zero⟩,
      hs.slot_bytes (hs.storesAt hi)⟩

theorem Represents.nodup_slots (hs : Represents (simpleLayout hash 2) payloadSize s m) :
    ((entriesFrom s.filled s.capacity 0).map s.data).Nodup := by
  apply nodup_entries.map_on
  intro i hi j hj hdata
  have hstored : ∀ k ∈ entriesFrom s.filled s.capacity 0, s.Stored k (s.data k) := by
    intro k hk
    obtain ⟨hlt, hfill⟩ := mem_entries.mp hk
    refine ⟨hlt, slots_eq_some_iff.mpr ⟨?_, rfl⟩⟩
    intro htag
    have hfree := filled_eq_false.mpr ((hs.inv.fill_bit hlt).mpr htag)
    rw [hfree] at hfill
    cases hfill
  obtain ⟨hlt, hslot⟩ := hstored i hi
  obtain ⟨hlt', hslot'⟩ := hstored j hj
  exact hs.inv.unique i j _ _ hlt hlt' hslot hslot' (by rw [hdata])

theorem DirectRepresents.mem_slots (ht : DirectRepresents payloadSize t m) (d : Bytes) :
    d ∈ (entriesFrom t.tags t.capacity 0).map t.slot ↔ ∃ q ∈ m.keys, d = q ++ m.payload q := by
  rw [List.mem_map]
  constructor
  · intro h
    obtain ⟨idx, hmem, rfl⟩ := h
    obtain ⟨hidx, htag⟩ := mem_entries.mp hmem
    exact ⟨_, (ht.mem_keys _).mpr ⟨idx, hidx, htag, rfl⟩, ht.slot_eq idx hidx htag⟩
  · intro h
    obtain ⟨q, hq, rfl⟩ := h
    obtain ⟨idx, hidx, htag, rfl⟩ := (ht.mem_keys q).mp hq
    exact ⟨idx, mem_entries.mpr ⟨hidx, htag⟩, ht.slot_eq idx hidx htag⟩

theorem DirectRepresents.nodup_slots (ht : DirectRepresents payloadSize t m) :
    ((entriesFrom t.tags t.capacity 0).map t.slot).Nodup := by
  apply nodup_entries.map_on
  intro i hi j hj hslot
  obtain ⟨hlt, htag⟩ := mem_entries.mp hi
  obtain ⟨hlt', htag'⟩ := mem_entries.mp hj
  rw [ht.slot_eq i hlt htag, ht.slot_eq j hlt' htag'] at hslot
  have hkey := (List.append_inj hslot (by rw [encode_length, encode_length])).1
  rw [← keyIndex_encode hlt, hkey, keyIndex_encode hlt']

/-- Tables that stand for the same map agree. -/
theorem agree_of_represents (hs : Represents (simpleLayout hash 2) payloadSize s m)
    (ht : DirectRepresents payloadSize t m) : Agree hash payloadSize t s m := by
  have hrefines := hs.refinesMap
  have hread : ∀ key : Bytes, key.length = 2 → readAt key 0 2 = key := by
    intro key hkey
    rw [← hkey, readAt_all]
  have hfront : ∀ key p : Bytes, key.length = 2 → readAt (key ++ p) 0 2 = key := by
    intro key p hkey
    rw [readAt_zero, ← hkey, List.take_left]
  refine ⟨?_, ?_, ?_, ?_, ?_⟩
  · intro key hkey
    obtain ⟨r, hr, hnone, hfound⟩ := hrefines.lookup key hkey
    refine ⟨r, hr, ?_, ?_⟩
    · rw [hnone]
      show readAt key 0 2 ∉ m.keys ↔ _
      rw [hread key hkey, ht.mem_iff hkey]
      unfold HashTableDirectLookup.lookup
      split
      · next htag => simp [htag]
      · next htag => simp [htag]
    · intro i ptr hi hptr
      have hstores := hfound i hi
      have hbytes := hs.slot_bytes hstores
      change s.data i = readAt key 0 2 ++ m.payload (readAt key 0 2) at hbytes
      rw [hread key hkey] at hbytes
      unfold HashTableDirectLookup.lookup at hptr
      split at hptr
      · next htag =>
        cases hptr
        have hslot := ht.slot_eq _ (keyIndex_lt key) htag
        rw [encode_keyIndex hkey] at hslot
        rw [hbytes]
        exact ⟨hslot.symm, hfront key _ hkey⟩
      · cases hptr
  · intro key hkey
    obtain ⟨r, hr, -, hstores⟩ := hrefines.lookupOrInsert key hkey
    obtain ⟨r', hr', hspec⟩ := lookupOrInsert_spec hs.inv hkey
    obtain rfl := Except.ok.inj (hr.symm.trans hr')
    have hbytes := (hs.inserted hkey hspec).slot_bytes hstores
    change r.table.data r.slot = readAt key 0 2 ++ m.payload (readAt key 0 2) at hbytes
    rw [hread key hkey] at hbytes
    obtain ⟨u, hu, hsize, hslot, -⟩ := ht.lookupOrInsert hkey r.slot r.grown
    refine ⟨r, u, _, hr, hu, ?_, ?_⟩
    · rw [hbytes, ← hslot, ← hsize]
      rfl
    · rw [hbytes]
      exact hfront key _ hkey
  · intro i key off bs hlive hbs
    obtain ⟨s', hs'⟩ := hrefines.write i key off bs hlive hbs
    obtain ⟨d, hd, hident⟩ := hs.live_stored i key hlive
    have hmem : key ∈ m.keys := (hs.mem_keys key).mpr ⟨d, ⟨i, hd⟩, hident⟩
    obtain ⟨t', ht', -⟩ := ht.write hmem hbs
    obtain ⟨idx, hidx, htag, rfl⟩ := (ht.mem_keys key).mp hmem
    refine ⟨t.slotSize * keyIndex (encode 2 idx), s', t', ?_, hs', ht'⟩
    unfold HashTableDirectLookup.lookup
    rw [if_pos (by rw [keyIndex_encode hidx]; exact htag)]
  · show s.inserted = t.numInserted
    rw [← hs.card_eq, ht.size_eq]
  · refine ⟨_, _, s.enumerate_eq, t.enumerate_eq, ?_⟩
    have hslots : ((entriesFrom t.tags t.capacity 0).map
        fun i => (⟨some (i * t.slotSize), i⟩ : TableIterator)).map
          (fun it => readAt t.data (it.data.getD 0) t.slotSize) =
        (entriesFrom t.tags t.capacity 0).map t.slot := by
      rw [List.map_map]
      apply List.map_congr_left
      intro i _
      show readAt t.data (i * t.slotSize) t.slotSize = readAt t.data (t.slotSize * i) t.slotSize
      rw [Nat.mul_comm]
    have hdata : ((entriesFrom s.filled s.capacity 0).map
        fun i => (⟨some (i * s.totalSlotSize), i⟩ : TableIterator)).map (fun it => s.data it.idx) =
        (entriesFrom s.filled s.capacity 0).map s.data := by
      rw [List.map_map]
      rfl
    rw [hslots, hdata]
    apply (List.perm_ext_iff_of_nodup hs.nodup_slots ht.nodup_slots).mpr
    intro d
    rw [hs.mem_slots, ht.mem_slots]

/-- The relation between the two tables, through the map. -/
theorem JointRun.represents (hs₀ : Represents (simpleLayout hash 2) payloadSize s₀
      (PayloadMap.empty payloadSize))
    (ht₀ : DirectRepresents payloadSize t₀ (PayloadMap.empty payloadSize))
    (h : JointRun hash payloadSize t₀ s₀ t s m) :
    Represents (simpleLayout hash 2) payloadSize s m ∧ DirectRepresents payloadSize t m := by
  induction h with
  | start => exact ⟨hs₀, ht₀⟩
  | @lookup t s m key r _ _ hr ih =>
    refine ⟨ih.1.returned hr, ?_⟩
    cases r with
    | none => exact ih.2
    | some i => exact ih.2.setLive _
  | @lookupOrInsert t s m key r u ptr _ hkey hr hu ih =>
    obtain ⟨r', hr', hspec⟩ := lookupOrInsert_spec ih.1.inv hkey
    obtain rfl := Except.ok.inj (hr.symm.trans hr')
    refine ⟨ih.1.inserted hkey hspec, ?_⟩
    obtain ⟨u', hu', -, -, hrep⟩ := ih.2.lookupOrInsert hkey r.slot r.grown
    obtain ⟨rfl, -⟩ := Prod.mk.inj (Except.ok.inj (hu.symm.trans hu'))
    have hread : readAt key 0 2 = key := by rw [← hkey, readAt_all]
    rw [hread]
    exact hrep
  | @write t s m i key ptr off bs t' s' _ hlive hptr hbs hs' ht' ih =>
    obtain ⟨s'', hs'', hrep⟩ := ih.1.write hlive hbs
    obtain rfl := Except.ok.inj (hs'.symm.trans hs'')
    obtain ⟨d, hd, hident⟩ := ih.1.live_stored i key hlive
    have hmem : key ∈ m.keys := (ih.1.mem_keys key).mpr ⟨d, ⟨i, hd⟩, hident⟩
    obtain ⟨t'', ht'', hrep'⟩ := ih.2.write hmem hbs
    unfold HashTableDirectLookup.lookup at hptr
    split at hptr
    · cases hptr
      obtain rfl := Except.ok.inj (ht'.symm.trans ht'')
      exact ⟨hrep, hrep'⟩
    · cases hptr

/-- With any hash function and any start size, both tables are created, and they agree after every
sequence of operations. -/
theorem direct_lookup_agrees (hash : Bytes → UInt64) (payloadSize startSlots : ℕ)
    (hfit : 2 + payloadSize < 2 ^ 15) (hpow : startSlots.isPowerOfTwo) (htwo : 2 ≤ startSlots) :
    ∃ t₀ s₀, HashTableDirectLookup.create payloadSize = .ok t₀ ∧
      HashTableSimpleKey.create 2 payloadSize startSlots = .ok s₀ ∧
      ∀ t s m, JointRun hash payloadSize t₀ s₀ t s m → Agree hash payloadSize t s m := by
  obtain ⟨t₀, ht₀, hdirect⟩ := DirectRepresents.create hfit
  have hsmall : (simpleLayout hash 2).keySize + payloadSize < 2 ^ 16 := by
    show 2 + payloadSize < 2 ^ 16
    omega
  obtain ⟨s₀, hs₀, hrep⟩ := represents_create hsmall hpow htwo
  refine ⟨t₀, s₀, ht₀, ?_, ?_⟩
  · rw [HashTableSimpleKey.create_of_pos (by omega)]
    exact hs₀
  · intro t s m hrun
    obtain ⟨hs, ht⟩ := hrun.represents hrep hdirect
    exact agree_of_represents hs ht

theorem direct_lookup_agrees_small : 2 + 8 < 2 ^ 15 ∧ Nat.isPowerOfTwo 2 ∧ 2 ≤ 2 ∧
    ∃ t₀ s₀, HashTableDirectLookup.create 8 = .ok t₀ ∧
      HashTableSimpleKey.create 2 8 2 = .ok s₀ ∧
      ∀ t s m, JointRun (fun _ => 0) 8 t₀ s₀ t s m → Agree (fun _ => 0) 8 t s m :=
  ⟨by omega, ⟨1, rfl⟩, Nat.le_refl 2,
    direct_lookup_agrees (fun _ => 0) 8 2 (by omega) ⟨1, rfl⟩ (Nat.le_refl 2)⟩

end Agreement

end InkFuse.Runtime
