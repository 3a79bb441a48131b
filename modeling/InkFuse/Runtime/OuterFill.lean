import InkFuse.Runtime.AtomicDisable

/-!
Filling the hash table of an outer join with `insertOuter`. Threads insert in parallel, with the
same atomic steps as in `AtomicBuild`. What they leave behind is the table of inserts that run one
after the other, in the order in which the slots were claimed.
-/

namespace InkFuse.Runtime

open Bytes Probing AtomicHashTable

/-- The key of a slot is what an insert has copied there. -/
structure Comparator.Copies {κ : Type*} (C : Comparator) (ident : Bytes → κ) : Prop
    extends C.Keyed ident where
  ident_copy : ∀ d key size, C.keySize ≤ size → size ≤ key.length → size ≤ d.length →
    ident (writeAt d 0 (readAt key 0 size)) = ident key

theorem readAt_copy {d key : Bytes} {keySize size : ℕ} (hkey : keySize ≤ size)
    (hlen : size ≤ key.length) :
    readAt (writeAt d 0 (readAt key 0 size)) 0 keySize = readAt key 0 keySize := by
  have hsize : (readAt key 0 size).length = size := readAt_length key (by omega)
  have hread : readAt (writeAt d 0 (readAt key 0 size)) 0 (readAt key 0 size).length =
      readAt key 0 size := readAt_writeAt (Nat.zero_le _)
  have hshort : ∀ b : Bytes, readAt (readAt b 0 size) 0 keySize = readAt b 0 keySize :=
    fun b => readAt_readAt b (by omega)
  rw [hsize] at hread
  rw [← hshort, hread, hshort]

theorem simpleKeyComparator_copies (hash : Bytes → UInt64) (keySize : ℕ) :
    (simpleKeyComparator hash keySize).Copies (fun k => readAt k 0 keySize) where
  toKeyed := simpleKeyComparator_keyed hash keySize
  ident_copy := fun _ _ _ hkey hlen _ => readAt_copy hkey hlen

theorem complexKeyComparator_copies (hash : Bytes → UInt64) (text : UInt64 → Bytes) :
    (complexKeyComparator hash text).Copies
      (fun k => text (UInt64.ofNat (decode (readAt k 0 8)))) where
  toKeyed := complexKeyComparator_keyed hash text
  ident_copy := fun d key size hkey hlen _ => by
    have hcopy : readAt (writeAt d 0 (readAt key 0 size)) 0 8 = readAt key 0 8 :=
      readAt_copy hkey hlen
    rw [hcopy]

namespace AtomicHashTable

def copySize (C : Comparator) (copyOnlyKey : Bool) (s : AtomicHashTable) : ℕ :=
  if copyOnlyKey then C.keySize else s.totalSlotSize

def copyKey (C : Comparator) (copyOnlyKey : Bool) (s : AtomicHashTable) (idx : ℕ) (key : Bytes) :
    AtomicHashTable :=
  let slot := writeAt (s.data idx) 0 (readAt key 0 (s.copySize C copyOnlyKey))
  { s with data := Function.update s.data idx slot }

/-- `insertOuter<copy_only_key>` without other threads -/
def insertOuter (C : Comparator) (copyOnlyKey : Bool) (s : AtomicHashTable) (key : Bytes)
    (hash : UInt64) : Except Fault (AtomicHashTable × ℕ) := do
  let slot ← s.walk hash (fun idx => s.tags idx &&& tagFillMask == 0)
  .ok ((s.setTag slot (outerTag hash)).copyKey C copyOnlyKey slot key, slot)

end AtomicHashTable

variable {T : ℕ}

/-- A step of `insertOuter<copy_only_key>` -/
def outerBuildStep (C : Comparator) (copyOnlyKey : Bool) (b : Build T) (t : Fin T) : Build T :=
  insertStep outerTag (copyKey C copyOnlyKey) C b t

def outerBuildRun (C : Comparator) (copyOnlyKey : Bool) (b : Build T) (schedule : List (Fin T)) :
    Build T :=
  schedule.foldl (outerBuildStep C copyOnlyKey) b

/-- Inserts that run one after the other, the last one first, with the slots they return. -/
inductive InsertedInOrder (C : Comparator) (copyOnlyKey : Bool) (start : AtomicHashTable) :
    List (Bytes × ℕ) → AtomicHashTable → Prop
  | start : InsertedInOrder C copyOnlyKey start [] start
  | insert {order s key t i} : InsertedInOrder C copyOnlyKey start order s →
      s.insertOuter C copyOnlyKey key (C.hash key) = .ok (t, i) →
      InsertedInOrder C copyOnlyKey start ((key, i) :: order) t

section Sequential

variable {κ : Type*} {ident : Bytes → κ} {C : Comparator} {copyOnlyKey : Bool}
  {s t : AtomicHashTable} {occ : ℕ → Option Bytes} {key : Bytes} {i : ℕ}

/-- The table of an outer join before any lookup; `occ` says which key is in a slot. -/
structure OuterFilled (C : Comparator) (ident : Bytes → κ) (s : AtomicHashTable)
    (occ : ℕ → Option Bytes) : Prop where
  slot_length : ∀ i, i < s.modMask + 1 → (s.data i).length = s.totalSlotSize
  tag_free : ∀ i, i < s.modMask + 1 → occ i = none → s.tags i = 0
  tag_eq : ∀ i key, i < s.modMask + 1 → occ i = some key → s.tags i = outerTag (C.hash key)
  data_eq : ∀ i key, i < s.modMask + 1 → occ i = some key → ident (s.data i) = ident key
  chained : Chained (s.modMask + 1) (fun key => homeSlot s.modMask (C.hash key)) occ

/-- What `insertOuter` can copy: a key that is there, to a slot that has room for it. -/
def Insertable (C : Comparator) (copyOnlyKey : Bool) (s : AtomicHashTable) (key : Bytes) : Prop :=
  C.keySize ≤ s.totalSlotSize ∧ s.copySize C copyOnlyKey ≤ key.length

theorem OuterFilled.free_iff (h : OuterFilled C ident s occ) (hi : i < s.modMask + 1) :
    s.tags i &&& tagFillMask = 0 ↔ occ i = none := by
  constructor
  · intro hfree
    by_contra hne
    obtain ⟨key, hkey⟩ := Option.ne_none_iff_exists'.mp hne
    rw [h.tag_eq i key hi hkey] at hfree
    exact (outerTag_bits (C.hash key)).1 hfree
  · intro hnone
    rw [h.tag_free i hi hnone]
    exact UInt8.zero_and

theorem Insertable.sizes (h : Insertable C copyOnlyKey s key) :
    C.keySize ≤ s.copySize C copyOnlyKey ∧ s.copySize C copyOnlyKey ≤ s.totalSlotSize := by
  obtain ⟨hfit, _⟩ := h
  unfold AtomicHashTable.copySize
  split
  · exact ⟨le_rfl, hfit⟩
  · exact ⟨hfit, le_rfl⟩

/-- Claiming a slot and copying the key to it. -/
theorem OuterFilled.put (h : OuterFilled C ident s occ) (hcopies : C.Copies ident)
    (hkey : Insertable C copyOnlyKey s key) (hi : i < s.modMask + 1) (hnone : occ i = none)
    (hreach : Reaches (s.modMask + 1) occ (homeSlot s.modMask (C.hash key)) i) :
    OuterFilled C ident ((s.setTag i (outerTag (C.hash key))).copyKey C copyOnlyKey i key)
      (Function.update occ i (some key)) := by
  obtain ⟨hsize, hroom⟩ := hkey.sizes
  have hcopy : (readAt key 0 (s.copySize C copyOnlyKey)).length = s.copySize C copyOnlyKey :=
    readAt_length key (by have := hkey.2; omega)
  have hslot := h.slot_length i hi
  refine ⟨?_, ?_, ?_, ?_, h.chained.fill hnone hreach⟩
  · intro j hj
    by_cases hji : j = i
    · subst hji
      simp only [AtomicHashTable.copyKey, AtomicHashTable.setTag, Function.update_self]
      rw [writeAt_length, hslot]
      show 0 + (readAt key 0 (s.copySize C copyOnlyKey)).length ≤ _
      omega
    · simpa [AtomicHashTable.copyKey, AtomicHashTable.setTag, Function.update_of_ne hji] using
        h.slot_length j hj
  · intro j hj hfree
    by_cases hji : j = i
    · subst hji
      simp at hfree
    · rw [Function.update_of_ne hji] at hfree
      simpa [AtomicHashTable.copyKey, AtomicHashTable.setTag, Function.update_of_ne hji] using
        h.tag_free j hj hfree
  · intro j k hj hk
    by_cases hji : j = i
    · subst hji
      rw [Function.update_self, Option.some.injEq] at hk
      simp [AtomicHashTable.copyKey, AtomicHashTable.setTag, hk]
    · rw [Function.update_of_ne hji] at hk
      simpa [AtomicHashTable.copyKey, AtomicHashTable.setTag, Function.update_of_ne hji] using
        h.tag_eq j k hj hk
  · intro j k hj hk
    by_cases hji : j = i
    · subst hji
      rw [Function.update_self, Option.some.injEq] at hk
      simp only [AtomicHashTable.copyKey, AtomicHashTable.setTag, Function.update_self]
      rw [← hk]
      exact hcopies.ident_copy _ _ _ hsize hkey.2 (by rw [hslot]; exact hroom)
    · rw [Function.update_of_ne hji] at hk
      simpa [AtomicHashTable.copyKey, AtomicHashTable.setTag, Function.update_of_ne hji] using
        h.data_eq j k hj hk

/-- The walk of an insert ends at the first free slot. -/
theorem OuterFilled.walk_eq (h : OuterFilled C ident s occ) {hash : UInt64} {probes : ℕ}
    (hoff : offset (s.modMask + 1) (homeSlot s.modMask hash) probes = i)
    (hpassed : ∀ e, e < probes →
      occ (offset (s.modMask + 1) (homeSlot s.modMask hash) e) ≠ none) (hnone : occ i = none) :
    s.walk hash (fun idx => s.tags idx &&& tagFillMask == 0) = .ok i ∧
      Reaches (s.modMask + 1) occ (homeSlot s.modMask hash) i := by
  have hlt : ∀ e, offset (s.modMask + 1) (homeSlot s.modMask hash) e < s.modMask + 1 :=
    fun e => offset_lt (Nat.succ_pos _) _ _
  have hprobes : probes < s.modMask + 1 := by
    by_contra hge
    obtain ⟨d, hd, hdi⟩ := exists_offset (homeSlot_lt s.modMask hash) (hoff ▸ hlt probes)
    exact hpassed d (by omega) (hdi ▸ hnone)
  refine ⟨?_, probes, hprobes, hoff, hpassed⟩
  have hprobe : probe (s.modMask + 1) (fun idx => s.tags idx &&& tagFillMask == 0) (s.modMask + 1)
      (homeSlot s.modMask hash) = some i := by
    apply (probe_eq_some_iff _ (homeSlot_lt s.modMask hash)).mpr
    refine ⟨probes, hprobes, hoff, ?_, fun e he => ?_⟩
    · rw [beq_iff_eq]
      exact (h.free_iff (hoff ▸ hlt probes)).mpr hnone
    · rw [beq_eq_false_iff_ne, ne_eq, h.free_iff (hlt e)]
      exact hpassed e he
  simp only [AtomicHashTable.walk, hprobe]

end Sequential

section Parallel

variable {κ : Type*} {ident : Bytes → κ} {C : Comparator} {copyOnlyKey : Bool}
  {start s : AtomicHashTable} {keys : Fin T → List Bytes} {b : Build T}
  {order : List (Bytes × ℕ)} {occ : ℕ → Option Bytes}

/-- A thread that looks for a slot has passed filled slots only. -/
def Inserter.Searches (C : Comparator) (modMask : ℕ) (occ : ℕ → Option Bytes) (th : Inserter) :
    Prop :=
  match th.pc with
  | .load key idx probes => Passed key idx probes
  | .exchange key idx currTag probes => Passed key idx probes ∧ currTag = 0
  | _ => True
where
  Passed (key : Bytes) (idx probes : ℕ) : Prop :=
    offset (modMask + 1) (homeSlot modMask (C.hash key)) probes = idx ∧
      ∀ e, e < probes → occ (offset (modMask + 1) (homeSlot modMask (C.hash key)) e) ≠ none

/-- The parallel inserts have led to the table of inserts in the order of the claims, up to the
slots whose threads have not copied the key yet. -/
structure Linearized (C : Comparator) (ident : Bytes → κ) (copyOnlyKey : Bool)
    (start : AtomicHashTable) (keys : Fin T → List Bytes) (b : Build T) (s : AtomicHashTable)
    (order : List (Bytes × ℕ)) (occ : ℕ → Option Bytes) : Prop where
  sequential : InsertedInOrder C copyOnlyKey start order s
  filled : OuterFilled C ident s occ
  order_iff : ∀ key i, (key, i) ∈ order ↔ i < s.modMask + 1 ∧ occ i = some key
  order_nodup : (order.map Prod.snd).Nodup
  frame : b.table = { s with data := b.table.data }
  data_eq : ∀ i, (∀ t key, (b.threads t).pc ≠ .copy key i) → b.table.data i = s.data i
  copying : ∀ t key i, (b.threads t).pc = .copy key i → occ i = some key ∧
    s.data i = writeAt (b.table.data i) 0 (readAt key 0 (s.copySize C copyOnlyKey))
  owner : ∀ t u key k i, (b.threads t).pc = .copy key i → (b.threads u).pc = .copy k i → t = u
  claims_eq : (order : Multiset (Bytes × ℕ)) =
    ∑ t, ((b.threads t).claims : Multiset (Bytes × ℕ))
  keys_eq : ∀ t, keys t = (b.threads t).claims.map Prod.fst ++ (b.threads t).pending
  searches : ∀ t, (b.threads t).Searches C s.modMask occ

theorem Inserter.Searches.mono {th : Inserter} {modMask : ℕ} {occ' : ℕ → Option Bytes}
    (h : th.Searches C modMask occ) (hmono : ∀ i, occ i ≠ none → occ' i ≠ none) :
    th.Searches C modMask occ' := by
  unfold Inserter.Searches at h ⊢
  split at h
  · exact ⟨h.1, fun e he => hmono _ (h.2 e he)⟩
  · exact ⟨⟨h.1.1, fun e he => hmono _ (h.1.2 e he)⟩, h.2⟩
  · trivial

theorem Inserter.Searches.Passed.advance {key : Bytes} {idx probes modMask : ℕ}
    (h : Inserter.Searches.Passed C modMask occ key idx probes) (hfilled : occ idx ≠ none) :
    Inserter.Searches.Passed C modMask occ key (next (modMask + 1) idx) (probes + 1) := by
  obtain ⟨hoff, hpassed⟩ := h
  refine ⟨by rw [← hoff, next_offset (Nat.succ_pos _)], fun e he => ?_⟩
  obtain he | rfl := Nat.lt_succ_iff_lt_or_eq.mp he
  · exact hpassed e he
  · rwa [hoff]

/-- A step in which a thread neither claims a slot nor copies a key. -/
theorem Linearized.setThread (h : Linearized C ident copyOnlyKey start keys b s order occ)
    {t : Fin T} {th : Inserter} (hclaims : th.claims = (b.threads t).claims)
    (hpending : th.pending = (b.threads t).pending)
    (hold : ∀ key i, (b.threads t).pc ≠ .copy key i) (hnew : ∀ key i, th.pc ≠ .copy key i)
    (hsearches : th.Searches C s.modMask occ) :
    Linearized C ident copyOnlyKey start keys (b.setThread t th) s order occ := by
  have hc : ∀ u, ((b.setThread t th).threads u).claims = (b.threads u).claims :=
    forall_setThread (fun u th => th.claims = (b.threads u).claims) hclaims fun _ _ => rfl
  have hp : ∀ u, ((b.setThread t th).threads u).pending = (b.threads u).pending :=
    forall_setThread (fun u th => th.pending = (b.threads u).pending) hpending fun _ _ => rfl
  have hpc : ∀ u, ∀ key i, ((b.setThread t th).threads u).pc = .copy key i ↔
      (b.threads u).pc = .copy key i :=
    forall_setThread (fun u th => ∀ key i, th.pc = .copy key i ↔ (b.threads u).pc = .copy key i)
      (fun key i => iff_of_false (hnew key i) (hold key i)) fun _ _ _ _ => Iff.rfl
  refine ⟨h.sequential, h.filled, h.order_iff, h.order_nodup, h.frame, ?_, ?_, ?_, ?_, ?_, ?_⟩
  · intro i hi
    exact h.data_eq i fun u key hu => hi u key ((hpc u key i).mpr hu)
  · intro u key i hu
    exact h.copying u key i ((hpc u key i).mp hu)
  · intro u v key k i hu hv
    exact h.owner u v key k i ((hpc u key i).mp hu) ((hpc v k i).mp hv)
  · rw [h.claims_eq]
    exact Finset.sum_congr rfl fun u _ => by rw [hc u]
  · intro u
    rw [hc u, hp u]
    exact h.keys_eq u
  · exact forall_setThread (fun _ th => th.Searches C s.modMask occ) hsearches
      fun u _ => h.searches u

theorem sum_claims_setThread {t : Fin T} {th : Inserter} {key : Bytes} {i : ℕ}
    (hclaims : th.claims = (b.threads t).claims ++ [(key, i)]) :
    ∑ u, (((b.setThread t th).threads u).claims : Multiset (Bytes × ℕ)) =
      (key, i) ::ₘ ∑ u, ((b.threads u).claims : Multiset (Bytes × ℕ)) := by
  have hone : ∀ u, (((b.setThread t th).threads u).claims : Multiset (Bytes × ℕ)) =
      ((b.threads u).claims : Multiset (Bytes × ℕ)) + if u = t then {(key, i)} else 0 := by
    refine forall_setThread (fun u th => ((th.claims : List (Bytes × ℕ)) : Multiset (Bytes × ℕ)) =
      ((b.threads u).claims : Multiset (Bytes × ℕ)) + if u = t then {(key, i)} else 0) ?_ ?_
    · rw [if_pos rfl, hclaims, ← Multiset.coe_add]
      rfl
    · intro u hut
      rw [if_neg hut, add_zero]
  rw [Finset.sum_congr rfl fun u _ => hone u, Finset.sum_add_distrib,
    Finset.sum_ite_eq' Finset.univ t, if_pos (Finset.mem_univ t), add_comm,
    Multiset.singleton_add]

/-- An insert that finds the tag unchanged has reached a free slot at the end of its chain. -/
theorem Linearized.exchange_spec (h : Linearized C ident copyOnlyKey start keys b s order occ)
    {t : Fin T} {key : Bytes} {idx probes : ℕ} {currTag : UInt8}
    (hpc : (b.threads t).pc = .exchange key idx currTag probes)
    (hfree : b.table.tags idx = currTag) :
    idx < s.modMask + 1 ∧ occ idx = none ∧
      s.walk (C.hash key) (fun idx => s.tags idx &&& tagFillMask == 0) = .ok idx ∧
      Reaches (s.modMask + 1) occ (homeSlot s.modMask (C.hash key)) idx := by
  have hsearches := h.searches t
  simp only [Inserter.Searches, hpc] at hsearches
  obtain ⟨⟨hoff, hpassed⟩, rfl⟩ := hsearches
  have hidx : idx < s.modMask + 1 := hoff ▸ offset_lt (Nat.succ_pos _) _ _
  have htags : b.table.tags = s.tags := by rw [h.frame]
  have hnone : occ idx = none := by
    rw [← h.filled.free_iff hidx, ← htags, hfree]
    exact UInt8.zero_and
  exact ⟨hidx, hnone, h.filled.walk_eq hoff hpassed hnone⟩

/-- Nobody copies to a slot that is free. -/
theorem Linearized.not_copying (h : Linearized C ident copyOnlyKey start keys b s order occ)
    {i : ℕ} (hnone : occ i = none) (t : Fin T) (key : Bytes) :
    (b.threads t).pc ≠ .copy key i := by
  intro hpc
  have hocc := (h.copying t key i hpc).1
  rw [hnone] at hocc
  cases hocc

/-- The order of the claims lists the contents of the slots, also after one more claim. -/
theorem order_iff_cons {n idx : ℕ} {key : Bytes}
    (horder : ∀ k i, (k, i) ∈ order ↔ i < n ∧ occ i = some k) (hidx : idx < n)
    (hnone : occ idx = none) (k : Bytes) (i : ℕ) :
    (k, i) ∈ (key, idx) :: order ↔ i < n ∧ Function.update occ idx (some key) i = some k := by
  rw [List.mem_cons, horder, Prod.mk.injEq]
  by_cases hi : i = idx
  · subst hi
    rw [Function.update_self, hnone, Option.some.injEq]
    constructor
    · rintro (⟨rfl, _⟩ | ⟨_, hk⟩)
      · exact ⟨hidx, rfl⟩
      · cases hk
    · rintro ⟨_, rfl⟩
      exact Or.inl ⟨rfl, rfl⟩
  · rw [Function.update_of_ne hi]
    exact or_iff_right fun hk => hi hk.2

theorem order_nodup_cons {n idx : ℕ} {key : Bytes} (hnodup : (order.map Prod.snd).Nodup)
    (horder : ∀ k i, (k, i) ∈ order ↔ i < n ∧ occ i = some k) (hnone : occ idx = none) :
    (((key, idx) :: order).map Prod.snd).Nodup := by
  rw [List.map_cons, List.nodup_cons]
  refine ⟨fun hin => ?_, hnodup⟩
  obtain ⟨⟨k, _⟩, hk, rfl⟩ := List.mem_map.mp hin
  have hocc := ((horder k _).mp hk).2
  rw [hnone] at hocc
  cases hocc

/-- Who copies after a claim: the thread that has claimed, and those that copied before. -/
theorem copying_of_claim {t : Fin T} {th : Inserter} {key : Bytes} {idx : ℕ}
    (hth : th.pc = .copy key idx) (u : Fin T) : ∀ k i,
    ((b.setThread t th).threads u).pc = .copy k i →
      u = t ∧ k = key ∧ i = idx ∨ (b.threads u).pc = .copy k i := by
  refine forall_setThread (fun u th => ∀ k i, th.pc = .copy k i →
    u = t ∧ k = key ∧ i = idx ∨ (b.threads u).pc = .copy k i) ?_ ?_ u
  · intro k i hki
    obtain ⟨rfl, rfl⟩ := Pc.copy.inj (hth.symm.trans hki)
    exact Or.inl ⟨rfl, rfl, rfl⟩
  · intro u _ k i hki
    exact Or.inr hki

/-- The content of the other slots is as before a claim. -/
theorem Linearized.data_eq_of_claim (h : Linearized C ident copyOnlyKey start keys b s order occ)
    {t : Fin T} {th : Inserter} {key : Bytes} {idx i : ℕ} (hth : th.pc = .copy key idx)
    (hold : ∀ k j, (b.threads t).pc ≠ .copy k j)
    (hi : ∀ u k, ((b.setThread t th).threads u).pc ≠ .copy k i) :
    i ≠ idx ∧ b.table.data i = s.data i := by
  have hne : i ≠ idx := by
    rintro rfl
    exact hi t key (by simp [Build.setThread, hth])
  refine ⟨hne, h.data_eq i fun u k hu => hi u k ?_⟩
  have hut : u ≠ t := by
    rintro rfl
    exact hold k i hu
  simpa [Build.setThread, Function.update_of_ne hut] using hu

/-- The claim of a free slot is where the insert takes effect. -/
theorem Linearized.claimSlot (h : Linearized C ident copyOnlyKey start keys b s order occ)
    (hcopies : C.Copies ident) {t : Fin T} {key : Bytes} {idx probes : ℕ} {currTag : UInt8}
    (hkey : Insertable C copyOnlyKey s key)
    (hpc : (b.threads t).pc = .exchange key idx currTag probes)
    (hfree : b.table.tags idx = currTag) :
    ∃ s' order' occ', Linearized C ident copyOnlyKey start keys
      { b.setThread t { b.threads t with pc := .copy key idx } with
        table := b.table.setTag idx (outerTag (C.hash key)) } s' order' occ' ∧
      s'.modMask = s.modMask ∧ s'.totalSlotSize = s.totalSlotSize := by
  obtain ⟨hidx, hnone, hwalk, hreach⟩ := h.exchange_spec hpc hfree
  have hnot := h.not_copying hnone
  set th : Inserter := { b.threads t with pc := .copy key idx } with hth
  have hclaims : th.claims = (b.threads t).claims ++ [(key, idx)] := by
    simp [Inserter.claims, hth, hpc]
  have hpcs : ∀ u, ∀ k i, ((b.setThread t th).threads u).pc = .copy k i →
      u = t ∧ k = key ∧ i = idx ∨ (b.threads u).pc = .copy k i :=
    copying_of_claim (by rw [hth])
  refine ⟨(s.setTag idx (outerTag (C.hash key))).copyKey C copyOnlyKey idx key, (key, idx) :: order,
    Function.update occ idx (some key),
    ⟨?_, h.filled.put hcopies hkey hidx hnone hreach, order_iff_cons h.order_iff hidx hnone,
      order_nodup_cons h.order_nodup h.order_iff hnone, ?_, ?_, ?_, ?_, ?_, ?_, ?_⟩, rfl, rfl⟩
  · apply InsertedInOrder.insert h.sequential
    simp only [insertOuter, hwalk, bind, Except.bind]
  · show b.table.setTag idx _ = _
    rw [h.frame]
    rfl
  · intro i hi
    obtain ⟨hne, hdata⟩ := h.data_eq_of_claim (by rw [hth]) (by simp [hpc]) hi
    simpa [AtomicHashTable.copyKey, AtomicHashTable.setTag, Function.update_of_ne hne] using hdata
  · intro u k i hki
    obtain ⟨_, rfl, rfl⟩ | hold := hpcs u k i hki
    · refine ⟨Function.update_self .., ?_⟩
      have hdata := h.data_eq i hnot
      simp [AtomicHashTable.copyKey, AtomicHashTable.setTag, hdata, AtomicHashTable.copySize]
    · obtain ⟨hocc, hdata⟩ := h.copying u k i hold
      have hi : i ≠ idx := by
        rintro rfl
        exact hnot u k hold
      refine ⟨by rw [Function.update_of_ne hi, hocc], ?_⟩
      simpa [AtomicHashTable.copyKey, AtomicHashTable.setTag, Function.update_of_ne hi,
        AtomicHashTable.copySize] using hdata
  · intro u v k k' i hu hv
    obtain ⟨hut, _, hi⟩ | hu := hpcs u k i hu <;> obtain ⟨hvt, _, hi'⟩ | hv := hpcs v k' i hv
    · exact hut.trans hvt.symm
    · exact absurd (hi ▸ hv) (hnot v k')
    · exact absurd (hi' ▸ hu) (hnot u k)
    · exact h.owner u v k k' i hu hv
  · show ((key, idx) :: order : Multiset (Bytes × ℕ)) = _
    rw [← Multiset.cons_coe, h.claims_eq]
    exact (sum_claims_setThread hclaims).symm
  · refine forall_setThread (fun u th => keys u = th.claims.map Prod.fst ++ th.pending) ?_
      fun u _ => h.keys_eq u
    have hkeys := h.keys_eq t
    simp only [Inserter.pending, hpc] at hkeys
    rw [hclaims, hkeys]
    simp [Inserter.pending, hth]
  · refine forall_setThread (fun _ th => th.Searches C s.modMask _)
      (by simp [Inserter.Searches, hth]) fun u _ => ?_
    exact (h.searches u).mono fun i => update_ne_none hnone

/-- Copying the key completes the slot. -/
theorem Linearized.copyKey (h : Linearized C ident copyOnlyKey start keys b s order occ)
    {t : Fin T} {key : Bytes} {idx : ℕ} (hpc : (b.threads t).pc = .copy key idx) :
    Linearized C ident copyOnlyKey start keys
      { b.setThread t ⟨(b.threads t).todo, .idle, (b.threads t).done ++ [(key, idx)]⟩ with
        table := b.table.copyKey C copyOnlyKey idx key } s order occ := by
  set th : Inserter := ⟨(b.threads t).todo, .idle, (b.threads t).done ++ [(key, idx)]⟩ with hth
  have hc : ∀ u, ((b.setThread t th).threads u).claims = (b.threads u).claims :=
    forall_setThread (fun u th => th.claims = (b.threads u).claims)
      (by simp [Inserter.claims, hth, hpc]) fun _ _ => rfl
  have hp : ∀ u, ((b.setThread t th).threads u).pending = (b.threads u).pending :=
    forall_setThread (fun u th => th.pending = (b.threads u).pending)
      (by simp [Inserter.pending, hth, hpc]) fun _ _ => rfl
  have hpcs : ∀ u, ∀ k i, ((b.setThread t th).threads u).pc = .copy k i ↔
      u ≠ t ∧ (b.threads u).pc = .copy k i := by
    refine forall_setThread (fun u th => ∀ k i, th.pc = .copy k i ↔
      u ≠ t ∧ (b.threads u).pc = .copy k i) ?_ ?_
    · intro k i
      simp [hth]
    · intro u hut k i
      simp [hut]
  have hsize : b.table.totalSlotSize = s.totalSlotSize := by rw [h.frame]
  have hcopySize : b.table.copySize C copyOnlyKey = s.copySize C copyOnlyKey := by
    rw [AtomicHashTable.copySize, AtomicHashTable.copySize, hsize]
  obtain ⟨_, hdata⟩ := h.copying t key idx hpc
  refine ⟨h.sequential, h.filled, h.order_iff, h.order_nodup, ?_, ?_, ?_, ?_, ?_, ?_, ?_⟩
  · show b.table.copyKey C copyOnlyKey idx key = _
    rw [h.frame]
    rfl
  · intro i hi
    by_cases hidx : i = idx
    · subst hidx
      show (b.table.copyKey C copyOnlyKey i key).data i = _
      simp only [AtomicHashTable.copyKey, Function.update_self, hcopySize, hdata]
    · show (b.table.copyKey C copyOnlyKey idx key).data i = _
      simp only [AtomicHashTable.copyKey, Function.update_of_ne hidx]
      apply h.data_eq
      intro u k hu
      have hut : u ≠ t := by
        rintro rfl
        rw [hpc] at hu
        exact hidx (Pc.copy.inj hu).2.symm
      exact hi u k ((hpcs u k i).mpr ⟨hut, hu⟩)
  · intro u k i hki
    obtain ⟨hut, hold⟩ := (hpcs u k i).mp hki
    have hi : i ≠ idx := by
      rintro rfl
      exact hut (h.owner u t k key i hold hpc)
    obtain ⟨hocc, hcopy⟩ := h.copying u k i hold
    refine ⟨hocc, ?_⟩
    show s.data i = writeAt ((b.table.copyKey C copyOnlyKey idx key).data i) 0 _
    simpa only [AtomicHashTable.copyKey, Function.update_of_ne hi] using hcopy
  · intro u v k k' i hu hv
    exact h.owner u v k k' i ((hpcs u k i).mp hu).2 ((hpcs v k' i).mp hv).2
  · rw [h.claims_eq]
    exact Finset.sum_congr rfl fun u _ => by rw [← hc u]
  · intro u
    show keys u = ((b.setThread t th).threads u).claims.map Prod.fst ++ _
    rw [hc u]
    exact (h.keys_eq u).trans (by rw [← hp u])
  · exact forall_setThread (fun _ th => th.Searches C s.modMask occ)
      (by simp [Inserter.Searches, hth]) fun u _ => h.searches u

/-- Every atomic step keeps the table linearized. -/
theorem outerBuildStep_linearized (h : Linearized C ident copyOnlyKey start keys b s order occ)
    (hcopies : C.Copies ident) (hkeys : ∀ t, ∀ key ∈ keys t, Insertable C copyOnlyKey s key)
    (t : Fin T) :
    ∃ s' order' occ', Linearized C ident copyOnlyKey start keys
      (outerBuildStep C copyOnlyKey b t) s' order' occ' ∧
      s'.modMask = s.modMask ∧ s'.totalSlotSize = s.totalSlotSize := by
  have hmask : b.table.modMask = s.modMask := by rw [h.frame]
  have htags : b.table.tags = s.tags := by rw [h.frame]
  have hsearches := h.searches t
  have hinside : ∀ {key idx probes}, Inserter.Searches.Passed C s.modMask occ key idx probes →
      idx < s.modMask + 1 := fun hpassed => hpassed.1 ▸ offset_lt (Nat.succ_pos _) _ _
  cases hpc : (b.threads t).pc with
  | idle =>
    cases htodo : (b.threads t).todo with
    | nil =>
      simp only [outerBuildStep, insertStep, hpc, htodo]
      exact ⟨s, order, occ, h, rfl, rfl⟩
    | cons key rest =>
      simp only [outerBuildStep, insertStep, hpc, htodo, hmask]
      refine ⟨s, order, occ, h.setThread ?_ ?_ (by simp [hpc]) (by simp) ?_, rfl, rfl⟩
      · simp [Inserter.claims, hpc]
      · simp [Inserter.pending, hpc, htodo]
      · exact ⟨offset_zero (homeSlot_lt _ _), by simp⟩
  | load key idx probes =>
    simp only [Inserter.Searches, hpc] at hsearches
    have hidx := hinside hsearches
    simp only [outerBuildStep, insertStep, hpc, htags]
    split
    · next hfree =>
      refine ⟨s, order, occ, h.setThread ?_ ?_ (by simp [hpc]) (by simp) ?_, rfl, rfl⟩
      · simp [Inserter.claims, hpc]
      · simp [Inserter.pending, hpc]
      · exact ⟨hsearches, h.filled.tag_free idx hidx ((h.filled.free_iff hidx).mp hfree)⟩
    · next hfilled =>
      rw [h.filled.free_iff hidx] at hfilled
      refine ⟨s, order, occ, h.setThread ?_ ?_ (by simp [hpc]) (by simp) ?_, rfl, rfl⟩
      · simp [Inserter.claims, hpc]
      · simp [Inserter.pending, hpc]
      · simp only [Inserter.Searches, AtomicHashTable.itAdvance, hmask]
        exact hsearches.advance hfilled
  | exchange key idx currTag probes =>
    simp only [Inserter.Searches, hpc] at hsearches
    obtain ⟨hpassed, hzero⟩ := hsearches
    have hidx := hinside hpassed
    have hmem : key ∈ keys t := by
      rw [h.keys_eq t]
      simp [Inserter.pending, hpc]
    simp only [outerBuildStep, insertStep, hpc]
    split
    · next hfree => exact h.claimSlot hcopies (hkeys t key hmem) hpc hfree
    · next hfilled =>
      have hocc : occ idx ≠ none := by
        intro hnone
        rw [htags, hzero] at hfilled
        exact hfilled (h.filled.tag_free idx hidx hnone)
      refine ⟨s, order, occ, h.setThread ?_ ?_ (by simp [hpc]) (by simp) ?_, rfl, rfl⟩
      · simp [Inserter.claims, hpc]
      · simp [Inserter.pending, hpc]
      · simp only [Inserter.Searches, AtomicHashTable.itAdvance, hmask]
        exact hpassed.advance hocc
  | copy key idx =>
    simp only [outerBuildStep, insertStep, hpc]
    exact ⟨s, order, occ, h.copyKey hpc, rfl, rfl⟩

theorem outerBuildRun_linearized (h : Linearized C ident copyOnlyKey start keys b s order occ)
    (hcopies : C.Copies ident) (hkeys : ∀ t, ∀ key ∈ keys t, Insertable C copyOnlyKey s key)
    (schedule : List (Fin T)) :
    ∃ s' order' occ', Linearized C ident copyOnlyKey start keys
      (outerBuildRun C copyOnlyKey b schedule) s' order' occ' ∧ s'.modMask = s.modMask := by
  induction schedule generalizing b s order occ with
  | nil => exact ⟨s, order, occ, h, rfl⟩
  | cons t rest ih =>
    obtain ⟨s₁, order₁, occ₁, h₁, hmask₁, hsize₁⟩ := outerBuildStep_linearized h hcopies hkeys t
    have hkeys₁ : ∀ t, ∀ key ∈ keys t, Insertable C copyOnlyKey s₁ key := by
      intro u key hkey
      have hold := hkeys u key hkey
      unfold Insertable AtomicHashTable.copySize at hold ⊢
      rwa [hsize₁]
    obtain ⟨s₂, order₂, occ₂, h₂, hmask₂⟩ := ih h₁ hkeys₁
    exact ⟨s₂, order₂, occ₂, h₂, hmask₂.trans hmask₁⟩

theorem startBuild_linearized {slotSize numSlots : ℕ}
    (hcreate : create slotSize numSlots = .ok start) :
    Linearized C ident copyOnlyKey start keys (startBuild start keys) start [] fun _ => none := by
  unfold create at hcreate
  split at hcreate
  · cases hcreate
  · cases hcreate
    refine ⟨.start, ⟨?_, fun _ _ _ => rfl, ?_, ?_, chained_empty _ _⟩, ?_, List.nodup_nil, rfl,
      fun _ _ => rfl, ?_, ?_, ?_, ?_, ?_⟩
    · intro i _
      simp
    · intro i key _ hkey
      cases hkey
    · intro i key _ hkey
      cases hkey
    · simp
    · intro t key i hpc
      cases hpc
    · intro t u key k i hpc
      cases hpc
    · simp [startBuild, Inserter.claims]
    · intro t
      simp [startBuild, Inserter.claims, Inserter.pending]
    · intro t
      simp [startBuild, Inserter.Searches]

/-- When all inserts have returned, the table is that of inserts one after the other. -/
theorem Linearized.finished (h : Linearized C ident copyOnlyKey start keys b s order occ)
    (hfin : b.Finished) :
    b.table = s ∧ (∀ key i, (key, i) ∈ b.placed ↔ (key, i) ∈ order) ∧
      ((order.map Prod.fst : List Bytes) : Multiset Bytes) = ∑ t, ((keys t : List Bytes) :
        Multiset Bytes) := by
  have hdata : b.table.data = s.data := by
    funext i
    apply h.data_eq
    intro t key hpc
    rw [(hfin t).1] at hpc
    cases hpc
  have hclaims : ∀ t, (b.threads t).claims = (b.threads t).done := fun t => hfin.claims_eq t
  refine ⟨?_, ?_, ?_⟩
  · rw [h.frame, hdata]
  · intro key i
    rw [mem_placed, ← Multiset.mem_coe, h.claims_eq, Multiset.mem_sum]
    simp [hclaims]
  · rw [← Multiset.map_coe, h.claims_eq, ← Multiset.mapAddMonoidHom_apply, map_sum]
    refine Finset.sum_congr rfl fun t _ => ?_
    rw [Multiset.mapAddMonoidHom_apply, Multiset.map_coe, h.keys_eq t]
    simp [Inserter.pending, (hfin t).1, (hfin t).2]

end Parallel

end InkFuse.Runtime
