import InkFuse.Runtime.TableRefinement

/-!
The two growing tables as instances: byte keys and string keys. Each refines the finite
map as long as key and payload together fit the sixteen-bit slot size. Beyond that the
constructor keeps only the low bits of the sum, and the copy of the first key leaves its slot.
-/

namespace InkFuse.Runtime

open Bytes Probing SharedHashTableState

/-- Byte keys are identified by their bytes. -/
def simpleLayout (hash : Bytes → UInt64) (keySize : ℕ) : KeyLayout (simpleKey hash keySize) where
  keySize := keySize
  hashOf := hash
  ident := fun key => readAt key 0 keySize
  slotIdent := fun slot => readAt slot 0 keySize
  ValidKey := fun key => key.length = keySize
  ValidSlot := fun _ => True
  hash_eq := fun _ => rfl
  slotHash_eq := fun _ => rfl
  matches_iff := fun d k _ => by simp [simpleKey]
  store_length := fun k hk => readAt_length k (by omega)
  ident_store := fun d k hk hd => by
    have hall : readAt k 0 keySize = k := by rw [← hk, readAt_all]
    simp only [simpleKey, hall]
    rw [← hk]
    exact readAt_writeAt (Nat.zero_le _)
  valid_store := fun _ _ _ _ => trivial
  ident_writeAt := fun d off bs hkey hoff => readAt_writeAt_before hoff (by omega)
  valid_writeAt := fun _ _ _ _ _ _ => trivial

theorem slotPointer_writeAt_key (d : Bytes) (p : UInt64) :
    slotPointer (writeAt d 0 (encode 8 p.toNat)) = p := by
  have hread : readAt (writeAt d 0 (encode 8 p.toNat)) 0 (encode 8 p.toNat).length =
      encode 8 p.toNat := readAt_writeAt (Nat.zero_le _)
  rw [encode_length] at hread
  rw [slotPointer, hread, decode_encode_of_lt (by simpa using p.toNat_lt)]
  simp

theorem slotPointer_writeAt_behind {d bs : Bytes} {off : ℕ} (hkey : 8 ≤ off)
    (hoff : off ≤ d.length) : slotPointer (writeAt d off bs) = slotPointer d := by
  rw [slotPointer, slotPointer, readAt_writeAt_before hoff (by omega)]

/-- String keys are identified by their characters; the null pointer is no string. -/
def complexLayout (hash : Bytes → UInt64) (text : UInt64 → Bytes) :
    KeyLayout (complexKey hash text) where
  keySize := 8
  hashOf := hash
  ident := text
  slotIdent := fun slot => text (slotPointer slot)
  ValidKey := fun key => key ≠ 0
  ValidSlot := fun slot => slotPointer slot ≠ 0
  hash_eq := fun _ => rfl
  slotHash_eq := fun _ => rfl
  matches_iff := fun d k hd => by simp [complexKey, hd]
  store_length := fun k _ => by simp [complexKey]
  ident_store := fun d k _ _ => by
    rw [complexKey, slotPointer_writeAt_key]
  valid_store := fun d k hk _ => by
    rwa [complexKey, slotPointer_writeAt_key]
  ident_writeAt := fun d off bs hkey hoff => by
    rw [slotPointer_writeAt_behind hkey hoff]
  valid_writeAt := fun d off bs hkey hoff hd => by
    rwa [slotPointer_writeAt_behind hkey hoff]

/-- The constructor succeeds, and every run from the new table answers as a finite map does. -/
def RefinesFrom {κ : Type} {A : KeyAccess κ} (L : KeyLayout A) (payloadSize : ℕ)
    (created : Except Fault SharedHashTableState) : Prop :=
  ∃ start, created = .ok start ∧
    ∀ s m, Run L payloadSize start s m → RefinesMap L payloadSize s m

theorem refinesFrom_create {κ : Type} {A : KeyAccess κ} (L : KeyLayout A) {payloadSize : ℕ}
    (hfit : L.keySize + payloadSize < 2 ^ 16) {startSlots : ℕ} (hpow : startSlots.isPowerOfTwo)
    (htwo : 2 ≤ startSlots) :
    RefinesFrom L payloadSize (create (L.keySize + payloadSize) startSlots) := by
  obtain ⟨start, hcreate, hrep⟩ := represents_create hfit hpow htwo
  exact ⟨start, hcreate, fun s m hrun => (hrun.represents hrep).refinesMap⟩

/-- The first insert into a table whose slots are shorter than its keys leaves the slot. -/
theorem lookupOrInsert_overrun {κ : Type} {A : KeyAccess κ} {s : SharedHashTableState} {key : κ}
    (htags : ∀ i, s.tags i = 0) (hroom : s.inserted < s.maxFill)
    (hlong : ∀ i, (s.data i).length < (A.store key).length) :
    s.lookupOrInsert A key = .error .outOfBounds := by
  have hwalk : ∀ hash, s.findSlotOrEmpty A hash key = .ok (homeSlot s.modMask hash) := by
    intro hash
    simp [findSlotOrEmpty, walk, probe, htags]
  have hcopy : ∀ i tag, (s.setTag i tag).copyTo i 0 (A.store key) = .error .outOfBounds := by
    intro i tag
    have hi := hlong i
    rw [copyTo, if_neg]
    simp only [setTag]
    omega
  simp [lookupOrInsert, reserveSlot, hroom, hwalk, htags, initSlot, hcopy, bind, Except.bind]

/-- A slot size that lost its high bits breaks the refinement at the first insert. -/
theorem not_refinesFrom_narrowed {κ : Type} {A : KeyAccess κ} (L : KeyLayout A)
    {payloadSize slotSize startSlots : ℕ} (key : κ) (hkey : L.ValidKey key)
    (hnarrow : slotSize % 2 ^ 16 < L.keySize) (htwo : 2 ≤ startSlots) :
    ¬ RefinesFrom L payloadSize (create slotSize startSlots) := by
  rintro ⟨start, hcreate, hall⟩
  obtain ⟨r, hr, _⟩ := (hall start _ Run.start).lookupOrInsert key hkey
  unfold create at hcreate
  split at hcreate
  · exact absurd hcreate (by simp)
  · obtain rfl := Except.ok.inj hcreate
    have hstore := L.store_length key hkey
    rw [lookupOrInsert_overrun (fun _ => rfl) (by simp only; omega)
      (fun i => by simpa [hstore] using hnarrow)] at hr
    exact absurd hr (by simp)

theorem HashTableSimpleKey.create_of_pos {keySize : ℕ} (hpos : 0 < keySize)
    (payloadSize startSlots : ℕ) :
    HashTableSimpleKey.create keySize payloadSize startSlots =
      SharedHashTableState.create (keySize + payloadSize) startSlots := by
  unfold HashTableSimpleKey.create
  cases SharedHashTableState.create (keySize + payloadSize) startSlots with
  | error e => rfl
  | ok s => simp [bind, Except.bind, Nat.pos_iff_ne_zero.mp hpos]

theorem HashTableComplexKey.create_string (payloadSize startSlots : ℕ) :
    HashTableComplexKey.create 0 1 payloadSize startSlots =
      SharedHashTableState.create (8 + payloadSize) startSlots := by
  simp only [HashTableComplexKey.create, Nat.zero_add, Nat.mul_one]
  cases SharedHashTableState.create (8 + payloadSize) startSlots with
  | error e => rfl
  | ok s => rfl

/-- A growing table refines a finite map for every hash function exactly when the size of
key and payload fits its sixteen-bit slot size. -/
theorem growing_table_refines_map_iff {keySize payloadSize startSlots : ℕ} (hpos : 0 < keySize)
    (hkey : keySize < 2 ^ 16) (hpayload : payloadSize < 2 ^ 16)
    (hpow : startSlots.isPowerOfTwo) (htwo : 2 ≤ startSlots) :
    ((∀ hash, RefinesFrom (simpleLayout hash keySize) payloadSize
        (HashTableSimpleKey.create keySize payloadSize startSlots)) ↔
      keySize + payloadSize < 2 ^ 16) ∧
    ((∀ hash text, RefinesFrom (complexLayout hash text) payloadSize
        (HashTableComplexKey.create 0 1 payloadSize startSlots)) ↔
      8 + payloadSize < 2 ^ 16) := by
  constructor
  · rw [HashTableSimpleKey.create_of_pos hpos]
    constructor
    · intro hall
      by_contra hwide
      refine not_refinesFrom_narrowed (simpleLayout (fun _ => 0) keySize)
        (List.replicate keySize 0) (by simp [simpleLayout]) ?_ htwo (hall _)
      change (keySize + payloadSize) % 2 ^ 16 < keySize
      omega
    · intro hfit hash
      exact refinesFrom_create (simpleLayout hash keySize) hfit hpow htwo
  · rw [HashTableComplexKey.create_string]
    constructor
    · intro hall
      by_contra hwide
      refine not_refinesFrom_narrowed (complexLayout (fun _ => 0) (fun _ => []))
        1 (by simp [complexLayout]) ?_ htwo (hall _ _)
      change (8 + payloadSize) % 2 ^ 16 < 8
      omega
    · intro hfit hash text
      exact refinesFrom_create (complexLayout hash text) hfit hpow htwo

theorem growing_table_refines_map_small :
    RefinesFrom (simpleLayout (fun _ => 5) 4) 8 (HashTableSimpleKey.create 4 8 2) :=
  (growing_table_refines_map_iff (by decide) (by decide) (by decide) ⟨1, rfl⟩
    (by decide)).1.mpr (by decide) (fun _ => 5)

/-- An eight-byte key with a payload of 65535 bytes gets slots of seven bytes. -/
theorem wide_payload_not_refined :
    ¬ RefinesFrom (simpleLayout (fun _ => 1) 8) 65535 (HashTableSimpleKey.create 8 65535 2) := by
  rw [HashTableSimpleKey.create_of_pos (by decide)]
  exact not_refinesFrom_narrowed (simpleLayout (fun _ => 1) 8) (List.replicate 8 0)
    (by simp [simpleLayout]) (by decide) (by decide)

end InkFuse.Runtime
