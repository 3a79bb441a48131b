import InkFuse.Probing.Progress
import InkFuse.Runtime.OuterMarking

/-!
The probe loops of a join hash table end while one of its slots is not filled. The table never
grows, and no lookup fills a slot, so the slot stays free under any number of lookups, alone or
from several threads.
-/

namespace InkFuse.Runtime

open Bytes Probing AtomicHashTable

namespace AtomicHashTable

variable (C : Comparator)

/-- `insert<copy_only_key>` without other threads -/
def insert (copyOnlyKey : Bool) (s : AtomicHashTable) (key : Bytes) (hash : UInt64) :
    Except Fault (AtomicHashTable × ℕ) := do
  let slot ← s.walk hash (fun idx => s.tags idx &&& tagFillMask == 0)
  .ok ((s.setTag slot (filledTag hash)).copyKey C copyOnlyKey slot key, slot)

/-- `lookupOuter` without other threads: find the key and mark its slot. -/
def lookupOuter (s : AtomicHashTable) (key : Bytes) (hash : UInt64) :
    Except Fault (AtomicHashTable × Option ℕ) := do
  let targetTag := outerTagHashMask &&& topByte hash
  let slot ← s.walk hash (fun idx =>
    s.tags idx &&& tagFillMask == 0 ||
      (outerTagHashMask &&& s.tags idx == targetTag && C.eq key (s.data idx)))
  if s.tags slot &&& tagFillMask = 0 then
    .ok (s, none)
  else if s.tags slot ≠ markedTag hash then
    .ok (s.setTag slot (markedTag hash), some slot)
  else
    .ok (s, some slot)

def HasFree (s : AtomicHashTable) : Prop :=
  ∃ i, i < s.modMask + 1 ∧ s.tags i &&& tagFillMask = 0

/-- Every loop that walks the slots ends, for every key and every hash. -/
structure LoopsEnd (s : AtomicHashTable) : Prop where
  insert : ∀ copyOnlyKey key hash, ∃ t i, s.insert C copyOnlyKey key hash = .ok (t, i)
  insertOuter : ∀ copyOnlyKey key hash, ∃ t i, s.insertOuter C copyOnlyKey key hash = .ok (t, i)
  lookup : ∀ key hash, ∃ i, s.lookup C key hash = .ok i
  lookupDisable : ∀ key hash, ∃ t i, s.lookupDisable C key hash = .ok (t, i)
  lookupOuter : ∀ key hash, ∃ t i, s.lookupOuter C key hash = .ok (t, i)

inductive LookedUp (start : AtomicHashTable) : AtomicHashTable → Prop
  | start : LookedUp start start
  | lookupDisable {s key hash t i} : LookedUp start s → s.lookupDisable C key hash = .ok (t, i) →
      LookedUp start t
  | lookupOuter {s key hash t i} : LookedUp start s → s.lookupOuter C key hash = .ok (t, i) →
      LookedUp start t

variable {C} {s t start : AtomicHashTable} {key : Bytes} {hash : UInt64}

theorem HasFree.walk_ends (hs : s.HasFree) (hash : UInt64) {stop : ℕ → Bool}
    (hstop : ∀ i, s.tags i &&& tagFillMask = 0 → stop i = true) : ∃ i,
      s.walk hash stop = .ok i := by
  obtain ⟨i, hi, hfree⟩ := hs
  obtain ⟨j, hj⟩ := probe_isSome (homeSlot_lt s.modMask hash) ⟨i, hi, hstop i hfree⟩
  refine ⟨j, ?_⟩
  unfold walk
  rw [hj]

theorem HasFree.loopsEnd (hs : s.HasFree) : LoopsEnd C s := by
  have hfree : ∀ hash, ∃ i, s.walk hash (fun idx => s.tags idx &&& tagFillMask == 0) = .ok i := by
    intro hash
    apply hs.walk_ends
    intro i hi
    exact beq_iff_eq.mpr hi
  have hfind : ∀ hash (found : ℕ → Bool), ∃ i,
      s.walk hash (fun idx => s.tags idx &&& tagFillMask == 0 || found idx) = .ok i := by
    intro hash found
    apply hs.walk_ends
    intro i hi
    rw [beq_iff_eq.mpr hi]
    rfl
  refine ⟨?_, ?_, ?_, ?_, ?_⟩
  · intro copyOnlyKey key hash
    obtain ⟨i, hi⟩ := hfree hash
    unfold AtomicHashTable.insert
    rw [hi]
    exact ⟨_, _, rfl⟩
  · intro copyOnlyKey key hash
    obtain ⟨i, hi⟩ := hfree hash
    unfold AtomicHashTable.insertOuter
    rw [hi]
    exact ⟨_, _, rfl⟩
  · intro key hash
    obtain ⟨i, hi⟩ := hfind hash fun idx => s.tags idx == filledTag hash && C.eq key (s.data idx)
    unfold AtomicHashTable.lookup findKey
    rw [hi]
    exact ⟨_, rfl⟩
  · intro key hash
    obtain ⟨i, hi⟩ := hfind hash fun idx => s.tags idx == filledTag hash && C.eq key (s.data idx)
    unfold AtomicHashTable.lookupDisable findKey
    simp only [hi, bind, Except.bind]
    split
    · exact ⟨_, _, rfl⟩
    · exact ⟨_, _, rfl⟩
  · intro key hash
    obtain ⟨i, hi⟩ := hfind hash fun idx =>
      outerTagHashMask &&& s.tags idx == outerTagHashMask &&& topByte hash &&
        C.eq key (s.data idx)
    unfold AtomicHashTable.lookupOuter
    simp only [hi, bind, Except.bind]
    split
    · exact ⟨_, _, rfl⟩
    · split
      · exact ⟨_, _, rfl⟩
      · exact ⟨_, _, rfl⟩

/-- Tagging a filled slot leaves the free slots free. -/
theorem HasFree.setTag (hs : s.HasFree) {slot : ℕ} (hslot : s.tags slot &&& tagFillMask ≠ 0)
    (tag : UInt8) : (s.setTag slot tag).HasFree := by
  obtain ⟨i, hi, hfree⟩ := hs
  have hne : i ≠ slot := by
    intro heq
    exact hslot (heq ▸ hfree)
  refine ⟨i, hi, ?_⟩
  show Function.update s.tags slot tag i &&& tagFillMask = 0
  rw [Function.update_of_ne hne]
  exact hfree

theorem HasFree.lookupDisable (hs : s.HasFree) {i : Option ℕ}
    (h : s.lookupDisable C key hash = .ok (t, i)) : t.HasFree := by
  unfold AtomicHashTable.lookupDisable at h
  cases hfind : s.findKey C key hash with
  | error e =>
    rw [hfind] at h
    cases h
  | ok slot =>
    rw [hfind] at h
    replace h : (if _ then _ else _) = _ := h
    split at h
    · cases h
      exact hs
    · next hfilled =>
      cases h
      exact hs.setTag hfilled _

theorem HasFree.lookupOuter (hs : s.HasFree) {i : Option ℕ}
    (h : s.lookupOuter C key hash = .ok (t, i)) : t.HasFree := by
  unfold AtomicHashTable.lookupOuter at h
  simp only [bind, Except.bind] at h
  split at h
  · cases h
  · split at h
    · cases h
      exact hs
    · next hfilled =>
      split at h
      · cases h
        exact hs.setTag hfilled _
      · cases h
        exact hs

theorem LookedUp.hasFree (hstart : start.HasFree) (h : LookedUp C start s) : s.HasFree := by
  induction h with
  | start => exact hstart
  | lookupDisable _ ht ih => exact ih.lookupDisable ht
  | lookupOuter _ ht ih => exact ih.lookupOuter ht

end AtomicHashTable

variable {T : ℕ} {C : Comparator} {modMask free : ℕ}

section Inserts

variable {rows : Fin T → List Bytes} {b : Build T} {occ : ℕ → Option Bytes}

/-- Every insert of a parallel build returns. -/
theorem build_progress (hroom : ∑ t, (rows t).length < modMask + 1) :
    Progress (buildStep C)
      (fun b : Build T => b.table.modMask = modMask ∧ ∃ occ, BuildInv C rows b occ)
      (fun b t => (b.threads t).pc = .idle ∧ (b.threads t).todo = [])
      (fun b t => (b.threads t).stepsLeft (modMask + 1)) := by
  refine ⟨?_, ?_, ?_, ?_⟩
  · rintro b t ⟨hmask, occ, hinv⟩
    exact ⟨(buildStep_mask b t).trans hmask, buildStep_inv hinv (hmask ▸ hroom) t⟩
  · rintro b t ⟨hmask, occ, hinv⟩ hactive
    rw [← hmask]
    exact buildStep_stepsLeft hinv hactive
  · rintro b t ⟨hpc, htodo⟩
    constructor
    · simp only [buildStep, insertStep, hpc, htodo]
    · simp [Inserter.stepsLeft, hpc, htodo]
  · intro b t u _ hut
    rw [buildStep_other b hut]

end Inserts

section Disabling

variable {b : Disabling T}

/-- A call has not passed the free slot. -/
def Caller.Searches (C : Comparator) (modMask free : ℕ) (th : Caller) : Prop :=
  match th.pc with
  | .idle => True
  | .load call idx probes =>
    Ahead (modMask + 1) (homeSlot modMask (C.hash call.key)) free idx probes
  | .exchange key idx probes =>
    Ahead (modMask + 1) (homeSlot modMask (C.hash key)) free idx probes ∧ idx ≠ free

/-- No call has filled or passed the free slot. -/
structure Disabling.Free (C : Comparator) (modMask free : ℕ) (b : Disabling T) : Prop where
  modMask_eq : b.table.modMask = modMask
  free_tag : b.table.tags free &&& tagFillMask = 0
  searches : ∀ t, (b.threads t).Searches C modMask free

theorem Disabling.Free.setThread (h : b.Free C modMask free) {t : Fin T} {th : Caller}
    (hth : th.Searches C modMask free) : (b.setThread t th).Free C modMask free :=
  ⟨h.modMask_eq, h.free_tag, forall_setCaller (fun _ th => th.Searches C modMask free) hth
    fun u _ => h.searches u⟩

theorem Disabling.Free.step (h : b.Free C modMask free) (hfree : free < modMask + 1) (t : Fin T) :
    (disableStep C b t).Free C modMask free := by
  have hsearches := h.searches t
  cases hpc : (b.threads t).pc with
  | idle =>
    cases htodo : (b.threads t).todo with
    | nil =>
      simp only [disableStep, hpc, htodo]
      exact h
    | cons call rest =>
      simp only [disableStep, hpc, htodo, h.modMask_eq]
      exact h.setThread (Ahead.start (homeSlot_lt _ _) hfree)
  | load call idx probes =>
    simp only [Caller.Searches, hpc] at hsearches
    simp only [disableStep, hpc]
    split
    · exact h.setThread trivial
    · next hfilled =>
      have hne : idx ≠ free := by
        intro heq
        exact hfilled (heq ▸ h.free_tag)
      split
      · cases call with
        | lookup key => exact h.setThread trivial
        | lookupDisable key => exact h.setThread ⟨hsearches, hne⟩
      · apply h.setThread
        simp only [Caller.Searches, AtomicHashTable.itAdvance, h.modMask_eq]
        exact hsearches.next hne
  | exchange key idx probes =>
    simp only [Caller.Searches, hpc] at hsearches
    obtain ⟨hahead, hne⟩ := hsearches
    simp only [disableStep, hpc]
    split
    · have hret : (b.setThread t ((b.threads t).ret (.lookupDisable key) (some idx))).Free C modMask
          free := h.setThread trivial
      refine ⟨h.modMask_eq, ?_, hret.searches⟩
      show Function.update b.table.tags idx _ free &&& tagFillMask = 0
      rw [Function.update_of_ne (Ne.symm hne)]
      exact h.free_tag
    · apply h.setThread
      simp only [Caller.Searches, AtomicHashTable.itAdvance, h.modMask_eq]
      exact hahead.next hne

theorem Disabling.Free.inRound (h : b.Free C modMask free) (t : Fin T) :
    (b.threads t).InRound (modMask + 1) := by
  have hsearches := h.searches t
  unfold Caller.InRound
  cases hpc : (b.threads t).pc with
  | idle => trivial
  | load call idx probes =>
    simp only [Caller.Searches, hpc] at hsearches
    exact hsearches.lt
  | exchange key idx probes =>
    simp only [Caller.Searches, hpc] at hsearches
    exact hsearches.1.lt

theorem disableStep_other (b : Disabling T) {t u : Fin T} (hut : u ≠ t) :
    (disableStep C b t).threads u = b.threads u := by
  unfold disableStep
  dsimp only
  split
  · split
    · rfl
    · simp [Disabling.setThread, Function.update_of_ne hut]
  · split
    · simp [Disabling.setThread, Function.update_of_ne hut]
    · split
      · split <;> simp [Disabling.setThread, Function.update_of_ne hut]
      · simp [Disabling.setThread, Function.update_of_ne hut]
  · split <;> simp [Disabling.setThread, Function.update_of_ne hut]

/-- Every `lookup` and `lookupDisable` returns, whatever the other threads disable. -/
theorem disable_progress (hfree : free < modMask + 1) :
    Progress (disableStep C) (fun b : Disabling T => b.Free C modMask free)
      (fun b t => (b.threads t).pc = .idle ∧ (b.threads t).todo = [])
      (fun b t => (b.threads t).stepsLeft (modMask + 1)) := by
  refine ⟨fun b t h => h.step hfree t, ?_, ?_, ?_⟩
  · intro b t h hactive
    exact disableStep_stepsLeft (h.inRound t) hactive
  · rintro b t ⟨hpc, htodo⟩
    constructor
    · simp only [disableStep, hpc, htodo]
    · simp [Caller.stepsLeft, hpc, htodo]
  · intro b t u _ hut
    rw [disableStep_other b hut]

end Disabling

section Marking

variable {b : Marking T}

/-- A call has not passed the free slot, and does not mark it. -/
def OuterCaller.Searches (C : Comparator) (modMask free : ℕ) (th : OuterCaller) : Prop :=
  match th.pc with
  | .idle => True
  | .load key idx probes => Ahead (modMask + 1) (homeSlot modMask (C.hash key)) free idx probes
  | .store _ idx => idx ≠ free

/-- No call has filled or passed the free slot. -/
structure Marking.Free (C : Comparator) (modMask free : ℕ) (b : Marking T) : Prop where
  modMask_eq : b.table.modMask = modMask
  free_tag : b.table.tags free &&& tagFillMask = 0
  searches : ∀ t, (b.threads t).Searches C modMask free

theorem Marking.Free.setThread (h : b.Free C modMask free) {t : Fin T} {th : OuterCaller}
    (hth : th.Searches C modMask free) : (b.setThread t th).Free C modMask free :=
  ⟨h.modMask_eq, h.free_tag, forall_setOuter (fun _ th => th.Searches C modMask free) hth
    fun u _ => h.searches u⟩

theorem Marking.Free.step (h : b.Free C modMask free) (hfree : free < modMask + 1) (t : Fin T) :
    (markStep C b t).Free C modMask free := by
  have hsearches := h.searches t
  cases hpc : (b.threads t).pc with
  | idle =>
    cases htodo : (b.threads t).todo with
    | nil =>
      simp only [markStep, hpc, htodo]
      exact h
    | cons key rest =>
      simp only [markStep, hpc, htodo, h.modMask_eq]
      exact h.setThread (Ahead.start (homeSlot_lt _ _) hfree)
  | load key idx probes =>
    simp only [OuterCaller.Searches, hpc] at hsearches
    simp only [markStep, hpc]
    split
    · exact h.setThread trivial
    · next hfilled =>
      have hne : idx ≠ free := by
        intro heq
        exact hfilled (heq ▸ h.free_tag)
      split
      · split
        · exact h.setThread hne
        · exact h.setThread trivial
      · apply h.setThread
        simp only [OuterCaller.Searches, AtomicHashTable.itAdvance, h.modMask_eq]
        exact hsearches.next hne
  | store key idx =>
    simp only [OuterCaller.Searches, hpc] at hsearches
    simp only [markStep, hpc]
    have hret : (b.setThread t ((b.threads t).ret key (some idx))).Free C modMask free :=
      h.setThread trivial
    refine ⟨h.modMask_eq, ?_, hret.searches⟩
    show Function.update b.table.tags idx _ free &&& tagFillMask = 0
    rw [Function.update_of_ne (Ne.symm hsearches)]
    exact h.free_tag

theorem Marking.Free.inRound (h : b.Free C modMask free) (t : Fin T) :
    (b.threads t).InRound (modMask + 1) := by
  have hsearches := h.searches t
  unfold OuterCaller.InRound
  cases hpc : (b.threads t).pc with
  | idle => trivial
  | load key idx probes =>
    simp only [OuterCaller.Searches, hpc] at hsearches
    exact hsearches.lt
  | store key idx => trivial

theorem markStep_other (b : Marking T) {t u : Fin T} (hut : u ≠ t) :
    (markStep C b t).threads u = b.threads u := by
  unfold markStep
  dsimp only
  split
  · split
    · rfl
    · simp [Marking.setThread, Function.update_of_ne hut]
  · split
    · simp [Marking.setThread, Function.update_of_ne hut]
    · split
      · split <;> simp [Marking.setThread, Function.update_of_ne hut]
      · simp [Marking.setThread, Function.update_of_ne hut]
  · simp [Marking.setThread, Function.update_of_ne hut]

/-- Every `lookupOuter` returns, whatever the other threads mark. -/
theorem mark_progress (hfree : free < modMask + 1) :
    Progress (markStep C) (fun b : Marking T => b.Free C modMask free)
      (fun b t => (b.threads t).pc = .idle ∧ (b.threads t).todo = [])
      (fun b t => (b.threads t).stepsLeft (modMask + 1)) := by
  refine ⟨fun b t h => h.step hfree t, ?_, ?_, ?_⟩
  · intro b t h hactive
    exact markStep_stepsLeft (h.inRound t) hactive
  · rintro b t ⟨hpc, htodo⟩
    constructor
    · simp only [markStep, hpc, htodo]
    · simp [OuterCaller.stepsLeft, hpc, htodo]
  · intro b t u _ hut
    rw [markStep_other b hut]

end Marking

/-- The calls of several threads on one table return if every thread gets enough steps. -/
structure CallsReturn (C : Comparator) (table : AtomicHashTable) : Prop where
  disabling : ∀ {T : ℕ} (calls : Fin T → List Call), ∃ enough, ∀ schedule,
    (∀ t, enough ≤ schedule.count t) → (disableRun C (startDisabling table calls) schedule).Finished
  marking : ∀ {T : ℕ} (keys : Fin T → List Bytes), ∃ enough, ∀ schedule,
    (∀ t, enough ≤ schedule.count t) → (markRun C (startMarking table keys) schedule).Finished

theorem AtomicHashTable.HasFree.callsReturn {s : AtomicHashTable} (hs : s.HasFree) :
    CallsReturn C s := by
  obtain ⟨free, hlt, hfree⟩ := hs
  constructor
  · intro T calls
    have hstart : (startDisabling s calls).Free C s.modMask free := ⟨rfl, hfree, fun _ => trivial⟩
    exact (disable_progress hlt).enough hstart
  · intro T keys
    have hstart : (startMarking s keys).Free C s.modMask free := ⟨rfl, hfree, fun _ => trivial⟩
    exact (mark_progress hlt).enough hstart

end InkFuse.Runtime
