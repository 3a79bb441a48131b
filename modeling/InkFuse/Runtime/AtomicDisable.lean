import InkFuse.Runtime.AtomicLookup
import Mathlib.Algebra.BigOperators.Fin

/-!
Concurrent `lookup` and `lookupDisable` calls on a filled join hash table. Every thread
makes its calls one after the other. A call loads the tag of a slot and goes on along the
chain until it meets its key or a free slot; a `lookupDisable` that has met its key
exchanges the tag for the inverted one and goes on when another thread was faster.
-/

namespace InkFuse.Runtime

open Bytes Probing AtomicHashTable

/-- Keys of a comparator: equal keys are those with the same identity, and have one hash. -/
structure Comparator.Keyed {κ : Type*} (C : Comparator) (ident : Bytes → κ) : Prop where
  eq_iff : ∀ a b, C.eq a b = true ↔ ident a = ident b
  hash_eq : ∀ a b, ident a = ident b → C.hash a = C.hash b

theorem simpleKeyComparator_keyed (hash : Bytes → UInt64) (keySize : ℕ) :
    (simpleKeyComparator hash keySize).Keyed (fun k => readAt k 0 keySize) :=
  ⟨fun _ _ => beq_iff_eq, fun _ _ h => congrArg hash h⟩

theorem complexKeyComparator_keyed (hash : Bytes → UInt64) (text : UInt64 → Bytes) :
    (complexKeyComparator hash text).Keyed
      (fun k => text (UInt64.ofNat (decode (readAt k 0 8)))) :=
  ⟨fun _ _ => beq_iff_eq, fun _ _ h => congrArg hash h⟩

inductive Call
  | lookup (key : Bytes)
  | lookupDisable (key : Bytes)
  deriving DecidableEq

def Call.key : Call → Bytes
  | .lookup key => key
  | .lookupDisable key => key

/-- Where a thread is. `probes` counts the slots that the current call has left behind. -/
inductive CallPc
  | idle
  | load (call : Call) (idx probes : ℕ)
  | exchange (key : Bytes) (idx probes : ℕ)

/-- The calls still to make, and the returned ones with the slot they returned. -/
structure Caller where
  todo : List Call
  pc : CallPc
  done : List (Call × Option ℕ)

structure Disabling (T : ℕ) where
  table : AtomicHashTable
  threads : Fin T → Caller

variable {T : ℕ}

def Disabling.setThread (b : Disabling T) (t : Fin T) (th : Caller) : Disabling T :=
  { b with threads := Function.update b.threads t th }

def Caller.ret (th : Caller) (call : Call) (result : Option ℕ) : Caller :=
  ⟨th.todo, .idle, th.done ++ [(call, result)]⟩

def startDisabling (table : AtomicHashTable) (calls : Fin T → List Call) : Disabling T where
  table := table
  threads := fun t => ⟨calls t, .idle, []⟩

/-- The next atomic step of thread `t`. A thread without calls does nothing. The comparison
of the keys reads the row only, which no call writes. -/
def disableStep (C : Comparator) (b : Disabling T) (t : Fin T) : Disabling T :=
  let th := b.threads t
  match th.pc with
  | .idle =>
    match th.todo with
    | [] => b
    | call :: rest =>
      b.setThread t ⟨rest, .load call (homeSlot b.table.modMask (C.hash call.key)) 0, th.done⟩
  | .load call idx probes =>
    let currTag := b.table.tags idx
    if currTag &&& tagFillMask = 0 then
      b.setThread t (th.ret call none)
    else if currTag = filledTag (C.hash call.key) ∧ C.eq call.key (b.table.data idx) = true then
      match call with
      | .lookup _ => b.setThread t (th.ret call (some idx))
      | .lookupDisable key => b.setThread t { th with pc := .exchange key idx probes }
    else
      b.setThread t { th with pc := .load call (b.table.itAdvance idx) (probes + 1) }
  | .exchange key idx probes =>
    let targetTag := filledTag (C.hash key)
    if b.table.tags idx = targetTag then
      { b.setThread t (th.ret (.lookupDisable key) (some idx)) with
        table := b.table.setTag idx (targetTag ^^^ fingerprintInversionMask) }
    else
      b.setThread t
        { th with pc := .load (.lookupDisable key) (b.table.itAdvance idx) (probes + 1) }

def disableRun (C : Comparator) (b : Disabling T) (schedule : List (Fin T)) : Disabling T :=
  schedule.foldl (disableStep C) b

def Disabling.Finished (b : Disabling T) : Prop :=
  ∀ t, (b.threads t).pc = .idle ∧ (b.threads t).todo = []

namespace Caller

def pending (th : Caller) : List Call :=
  match th.pc with
  | .idle => th.todo
  | .load call _ _ => call :: th.todo
  | .exchange key _ _ => .lookupDisable key :: th.todo

def stepsLeft (n : ℕ) (th : Caller) : ℕ :=
  (2 * n + 2) * th.todo.length +
    match th.pc with
    | .idle => 0
    | .load _ _ probes => 2 * (n - probes) + 1
    | .exchange _ _ probes => 2 * (n - probes)

end Caller

section Keys

variable {κ : Type*} [DecidableEq κ] (ident : Bytes → κ)

/-- A call of `lookupDisable` for the key. -/
def Call.disables (key : κ) : Call → Bool
  | .lookup _ => false
  | .lookupDisable k => ident k == key

/-- The `lookupDisable` calls for the key that returned a slot. -/
def Disabling.handedOut (b : Disabling T) (key : κ) : ℕ :=
  ∑ t, (b.threads t).done.countP fun p => p.1.disables ident key && p.2.isSome

/-- A call that looks for its key has passed filled slots only, and not all slots. The rows
of its key that it has passed are disabled. -/
def Caller.OnChain (C : Comparator) (table : AtomicHashTable) (owner : ℕ → Option (Fin T × ℕ))
    (th : Caller) : Prop :=
  match th.pc with
  | .idle => True
  | .load call idx probes => Passed call.key idx probes
  | .exchange key idx probes =>
    Passed key idx probes ∧ table.filled idx ∧ ident (table.data idx) = ident key
where
  Passed (key : Bytes) (idx probes : ℕ) : Prop :=
    probes < table.modMask + 1 ∧
      offset (table.modMask + 1) (homeSlot table.modMask (C.hash key)) probes = idx ∧
      ∀ e i, e < probes →
        offset (table.modMask + 1) (homeSlot table.modMask (C.hash key)) e = i →
        table.filled i ∧ (ident (table.data i) = ident key → owner i ≠ none)

/-- The invariant over all schedules. `table` is the table before the first call, and `owner`
says for a disabled slot which call of which thread got it. -/
structure DisableInv (C : Comparator) (table : AtomicHashTable) (calls : Fin T → List Call)
    (b : Disabling T) (owner : ℕ → Option (Fin T × ℕ)) : Prop where
  numSlots : b.table.numSlots = table.numSlots
  modMask : b.table.modMask = table.modMask
  data : b.table.data = table.data
  tags : ∀ i, b.table.tags i =
    if owner i = none then table.tags i else table.tags i ^^^ fingerprintInversionMask
  owner_iff : ∀ i t j, owner i = some (t, j) ↔
    ∃ key, (b.threads t).done[j]? = some (.lookupDisable key, some i)
  owner_slot : ∀ i, owner i ≠ none → i < table.modMask + 1 ∧ table.filled i
  returned : ∀ t call i, (call, some i) ∈ (b.threads t).done →
    i < table.modMask + 1 ∧ table.filled i ∧ ident (table.data i) = ident call.key
  missed : ∀ t call, (call, none) ∈ (b.threads t).done →
    ∀ i, i < table.modMask + 1 → table.filled i → ident (table.data i) = ident call.key →
      owner i ≠ none
  looked : ∀ t key result, (.lookup key, result) ∈ (b.threads t).done →
    (∀ i, i < table.modMask + 1 → ident (table.data i) = ident key → owner i = none) →
      table.lookup C key (C.hash key) = .ok result
  calls_eq : ∀ t, calls t = (b.threads t).done.map Prod.fst ++ (b.threads t).pending
  handedOut_eq : ∀ key, b.handedOut ident key =
    (occupied (table.modMask + 1)
      fun i => if ident (table.data i) = key then owner i else none).card
  onChain : ∀ t, (b.threads t).OnChain ident C table owner

end Keys

section Steps

variable {κ : Type*} [DecidableEq κ] {ident : Bytes → κ} {C : Comparator}
  {table : AtomicHashTable} {calls : Fin T → List Call} {b : Disabling T}
  {owner : ℕ → Option (Fin T × ℕ)} {placed : List (Bytes × ℕ)}

theorem DisableInv.free_iff (h : DisableInv ident C table calls b owner) (i : ℕ) :
    b.table.tags i &&& tagFillMask = 0 ↔ ¬ table.filled i := by
  rw [AtomicHashTable.filled, not_not, h.tags i]
  split
  · rfl
  · rw [inverted_and_fill]

/-- A row that matches by its key also matches by its tag as long as it is not disabled. -/
theorem DisableInv.tag_eq_iff (h : DisableInv ident C table calls b owner)
    (hkeyed : C.Keyed ident) (htagged : Tagged C table) {i : ℕ} {key : Bytes}
    (hi : i < table.modMask + 1) (hfill : table.filled i)
    (hkey : ident (table.data i) = ident key) :
    b.table.tags i = filledTag (C.hash key) ↔ owner i = none := by
  rw [h.tags i, htagged i hi hfill, hkeyed.hash_eq _ _ hkey]
  constructor
  · intro htag
    by_contra hne
    rw [if_neg hne] at htag
    exact (filledTag_inverted (C.hash key)).2 htag
  · intro hnone
    rw [if_pos hnone]

/-- Threads other than `t` are as before, and `t` has become `th`. -/
theorem forall_setCaller (P : Fin T → Caller → Prop) {t : Fin T} {th : Caller}
    (hself : P t th) (hother : ∀ u, u ≠ t → P u (b.threads u)) (u : Fin T) :
    P u ((b.setThread t th).threads u) := by
  by_cases hut : u = t
  · subst hut
    simpa [Disabling.setThread] using hself
  · simpa [Disabling.setThread, Function.update_of_ne hut] using hother u hut

/-- A step that changes neither the table nor the returned calls. -/
theorem DisableInv.setThread (h : DisableInv ident C table calls b owner) {t : Fin T}
    {th : Caller} (hdone : th.done = (b.threads t).done)
    (hpending : th.pending = (b.threads t).pending)
    (honChain : th.OnChain ident C table owner) :
    DisableInv ident C table calls (b.setThread t th) owner := by
  have hd : ∀ u, ((b.setThread t th).threads u).done = (b.threads u).done :=
    forall_setCaller (fun u th => th.done = (b.threads u).done) hdone fun _ _ => rfl
  have hp : ∀ u, ((b.setThread t th).threads u).pending = (b.threads u).pending :=
    forall_setCaller (fun u th => th.pending = (b.threads u).pending) hpending fun _ _ => rfl
  refine ⟨h.numSlots, h.modMask, h.data, h.tags, ?_, h.owner_slot, ?_, ?_, ?_, ?_, ?_, ?_⟩
  · intro i u j
    rw [hd u]
    exact h.owner_iff i u j
  · intro u call i hmem
    exact h.returned u call i (hd u ▸ hmem)
  · intro u call hmem
    exact h.missed u call (hd u ▸ hmem)
  · intro u key result hmem
    exact h.looked u key result (hd u ▸ hmem)
  · intro u
    rw [hd u, hp u]
    exact h.calls_eq u
  · intro key
    have hsum : (b.setThread t th).handedOut ident key = b.handedOut ident key := by
      unfold Disabling.handedOut
      exact Finset.sum_congr rfl fun u _ => by rw [hd u]
    rw [hsum]
    exact h.handedOut_eq key
  · exact forall_setCaller (fun _ th => th.OnChain ident C table owner) honChain
      fun u _ => h.onChain u

/-- The returned calls of a thread after one more call has returned. -/
theorem done_setThread_ret (b : Disabling T) (t : Fin T) (call : Call) (result : Option ℕ)
    (u : Fin T) :
    ((b.setThread t ((b.threads t).ret call result)).threads u).done =
      (b.threads u).done ++ if u = t then [(call, result)] else [] := by
  by_cases hut : u = t
  · subst hut
    simp [Disabling.setThread, Caller.ret]
  · simp [Disabling.setThread, hut]

theorem mem_done_ret {t u : Fin T} {call c : Call} {result r : Option ℕ} :
    (c, r) ∈ ((b.setThread t ((b.threads t).ret call result)).threads u).done ↔
      (c, r) ∈ (b.threads u).done ∨ u = t ∧ c = call ∧ r = result := by
  rw [done_setThread_ret]
  by_cases hut : u = t
  · simp [hut]
  · simp [hut]

theorem getElem?_done_ret {t u : Fin T} {call c : Call} {result r : Option ℕ} {j : ℕ} :
    ((b.setThread t ((b.threads t).ret call result)).threads u).done[j]? = some (c, r) ↔
      (b.threads u).done[j]? = some (c, r) ∨
        u = t ∧ j = (b.threads u).done.length ∧ c = call ∧ r = result := by
  rw [done_setThread_ret]
  by_cases hut : u = t
  · subst hut
    rw [if_pos rfl, List.getElem?_append]
    split
    · rename_i hlt
      simp [hlt.ne]
    · rename_i hge
      rw [List.getElem?_singleton, List.getElem?_eq_none (Nat.not_lt.mp hge)]
      by_cases hj : j = (b.threads u).done.length
      · simp [hj, eq_comm]
      · have hne : j - (b.threads u).done.length ≠ 0 := by omega
        simp [hne, hj]
  · simp [hut]

theorem handedOut_ret (t : Fin T) (call : Call) (result : Option ℕ) (key : κ) :
    (b.setThread t ((b.threads t).ret call result)).handedOut ident key =
      b.handedOut ident key + if call.disables ident key && result.isSome then 1 else 0 := by
  unfold Disabling.handedOut
  have hcount : ∀ u, ((b.setThread t ((b.threads t).ret call result)).threads u).done.countP
      (fun p => p.1.disables ident key && p.2.isSome) =
      (b.threads u).done.countP (fun p => p.1.disables ident key && p.2.isSome) +
        if u = t then (if call.disables ident key && result.isSome then 1 else 0) else 0 := by
    intro u
    rw [done_setThread_ret, List.countP_append]
    by_cases hut : u = t
    · simp [hut]
    · simp [hut]
  rw [Finset.sum_congr rfl fun u _ => hcount u, Finset.sum_add_distrib]
  simp

theorem calls_eq_ret (hcalls : ∀ t, calls t = (b.threads t).done.map Prod.fst ++
      (b.threads t).pending) {t : Fin T} {call : Call} {result : Option ℕ}
    (hpending : (b.threads t).pending = call :: (b.threads t).todo) (u : Fin T) :
    calls u = (((b.setThread t ((b.threads t).ret call result)).threads u).done).map Prod.fst ++
      ((b.setThread t ((b.threads t).ret call result)).threads u).pending := by
  refine forall_setCaller (fun u th => calls u = th.done.map Prod.fst ++ th.pending) ?_
    (fun u _ => hcalls u) u
  rw [hcalls t, hpending]
  simp [Caller.ret, Caller.pending]

/-- A call returns and leaves the table as it is. -/
theorem DisableInv.ret (h : DisableInv ident C table calls b owner) {t : Fin T} {call : Call}
    {result : Option ℕ} (hpending : (b.threads t).pending = call :: (b.threads t).todo)
    (hread : ∀ key, call = .lookupDisable key → result = none)
    (hsome : ∀ i, result = some i →
      i < table.modMask + 1 ∧ table.filled i ∧ ident (table.data i) = ident call.key)
    (hnone : result = none → ∀ i, i < table.modMask + 1 → table.filled i →
      ident (table.data i) = ident call.key → owner i ≠ none)
    (hlook : ∀ key, call = .lookup key →
      (∀ i, i < table.modMask + 1 → ident (table.data i) = ident key → owner i = none) →
      table.lookup C key (C.hash key) = .ok result) :
    DisableInv ident C table calls (b.setThread t ((b.threads t).ret call result)) owner := by
  refine ⟨h.numSlots, h.modMask, h.data, h.tags, ?_, h.owner_slot, ?_, ?_, ?_,
    calls_eq_ret h.calls_eq hpending, ?_, ?_⟩
  · intro i u j
    rw [h.owner_iff i u j]
    refine exists_congr fun key => ?_
    rw [getElem?_done_ret]
    constructor
    · exact Or.inl
    · intro hmem
      rcases hmem with hold | ⟨_, _, hcall, hres⟩
      · exact hold
      · rw [hread key hcall.symm] at hres
        exact absurd hres (by simp)
  · intro u c i hmem
    rcases mem_done_ret.mp hmem with hold | ⟨_, rfl, hres⟩
    · exact h.returned u c i hold
    · exact hsome i hres.symm
  · intro u c hmem
    rcases mem_done_ret.mp hmem with hold | ⟨_, rfl, hres⟩
    · exact h.missed u c hold
    · exact hnone hres.symm
  · intro u key r hmem
    rcases mem_done_ret.mp hmem with hold | ⟨_, hcall, rfl⟩
    · exact h.looked u key r hold
    · exact hlook key hcall.symm
  · intro key
    rw [← h.handedOut_eq key, handedOut_ret, Nat.add_eq_left]
    apply if_neg
    intro hcount
    cases call with
    | lookup k => simp [Call.disables] at hcount
    | lookupDisable k => simp [hread k rfl] at hcount
  · exact forall_setCaller (fun _ th => th.OnChain ident C table owner) trivial
      fun u _ => h.onChain u

/-- The calls that get a slot, and the disabled slots with their key, grow together. -/
theorem card_occupied_owner {n idx : ℕ} {key : κ} {data : ℕ → Bytes} {o : Fin T × ℕ}
    (hidx : idx < n) (hfree : owner idx = none) :
    (occupied n fun i => if ident (data i) = key then
        Function.update owner idx (some o) i else none).card =
      (occupied n fun i => if ident (data i) = key then owner i else none).card +
        if ident (data idx) = key then 1 else 0 := by
  by_cases hkey : ident (data idx) = key
  · rw [if_pos hkey, ← card_occupied_fill (r := o) hidx (by simp [hkey, hfree])]
    congr 2
    funext i
    by_cases hi : i = idx
    · simp [hi, hkey]
    · simp [Function.update_of_ne hi]
  · rw [if_neg hkey, Nat.add_zero]
    congr 2
    funext i
    by_cases hi : i = idx
    · simp [hi, hkey]
    · simp [Function.update_of_ne hi]

omit [DecidableEq κ] in
theorem Caller.OnChain.mono {th : Caller} {owner' : ℕ → Option (Fin T × ℕ)}
    (h : th.OnChain ident C table owner) (hmono : ∀ i, owner i ≠ none → owner' i ≠ none) :
    th.OnChain ident C table owner' := by
  have hpassed : ∀ key idx probes, OnChain.Passed ident C table owner key idx probes →
      OnChain.Passed ident C table owner' key idx probes := by
    intro key idx probes hp
    obtain ⟨hlt, hoff, hbefore⟩ := hp
    refine ⟨hlt, hoff, fun e i he hi => ⟨(hbefore e i he hi).1, fun hkey => ?_⟩⟩
    exact hmono i ((hbefore e i he hi).2 hkey)
  unfold Caller.OnChain at h ⊢
  split at h
  · trivial
  · exact hpassed _ _ _ h
  · exact ⟨hpassed _ _ _ h.1, h.2⟩

/-- A `lookupDisable` that wins the exchange of the tag of its row. -/
theorem DisableInv.disable (h : DisableInv ident C table calls b owner)
    (hkeyed : C.Keyed ident) (htagged : Tagged C table) {t : Fin T} {key : Bytes}
    {idx probes : ℕ} (hpc : (b.threads t).pc = .exchange key idx probes)
    (htag : b.table.tags idx = filledTag (C.hash key)) :
    DisableInv ident C table calls
      { b.setThread t ((b.threads t).ret (.lookupDisable key) (some idx)) with
        table := b.table.setTag idx (filledTag (C.hash key) ^^^ fingerprintInversionMask) }
      (Function.update owner idx (some (t, (b.threads t).done.length))) := by
  have honChain := h.onChain t
  simp only [Caller.OnChain, hpc] at honChain
  obtain ⟨⟨_, hoff, _⟩, hfill, hkey⟩ := honChain
  have hidx : idx < table.modMask + 1 := hoff ▸ offset_lt (by omega) _ _
  have hfree : owner idx = none := (h.tag_eq_iff hkeyed htagged hidx hfill hkey).mp htag
  have hmono : ∀ i, owner i ≠ none →
      Function.update owner idx (some (t, (b.threads t).done.length)) i ≠ none :=
    fun i => update_ne_none hfree
  have hpending : (b.threads t).pending = .lookupDisable key :: (b.threads t).todo := by
    simp [Caller.pending, hpc]
  refine ⟨h.numSlots, h.modMask, h.data, ?_, ?_, ?_, ?_, ?_, ?_,
    calls_eq_ret h.calls_eq hpending, ?_, ?_⟩
  · intro i
    by_cases hi : i = idx
    · subst hi
      have hold := h.tags i
      rw [hfree, if_pos rfl, htag] at hold
      simp [AtomicHashTable.setTag, hold]
    · simpa [AtomicHashTable.setTag, Function.update_of_ne hi] using h.tags i
  · intro i u j
    have hdone : ∀ k, ((b.setThread t ((b.threads t).ret (.lookupDisable key)
        (some idx))).threads u).done[j]? = some (.lookupDisable k, some i) ↔
          (b.threads u).done[j]? = some (.lookupDisable k, some i) ∨ u = t ∧
            j = (b.threads u).done.length ∧ Call.lookupDisable k = .lookupDisable key ∧
            some i = some idx := fun _ => getElem?_done_ret
    rw [exists_congr hdone]
    by_cases hi : i = idx
    · subst hi
      rw [Function.update_self, Option.some.injEq, Prod.mk.injEq]
      constructor
      · intro heq
        exact ⟨key, Or.inr ⟨heq.1.symm, by rw [← heq.1, heq.2], rfl, rfl⟩⟩
      · intro hex
        obtain ⟨k, hold | ⟨rfl, hj, _⟩⟩ := hex
        · have howner := (h.owner_iff i u j).mpr ⟨k, hold⟩
          exact absurd (hfree.symm.trans howner) (by simp)
        · exact ⟨rfl, hj.symm⟩
    · rw [Function.update_of_ne hi, h.owner_iff i u j]
      refine exists_congr fun k => ?_
      constructor
      · exact Or.inl
      · intro hmem
        rcases hmem with hold | ⟨_, _, _, hres⟩
        · exact hold
        · exact absurd (Option.some.inj hres) hi
  · intro i hi
    by_cases hii : i = idx
    · rw [hii]
      exact ⟨hidx, hfill⟩
    · rw [Function.update_of_ne hii] at hi
      exact h.owner_slot i hi
  · intro u c i hmem
    rcases mem_done_ret.mp hmem with hold | ⟨_, rfl, hres⟩
    · exact h.returned u c i hold
    · obtain rfl := Option.some.inj hres
      exact ⟨hidx, hfill, hkey⟩
  · intro u c hmem i hi hf hk
    rcases mem_done_ret.mp hmem with hold | ⟨_, _, hres⟩
    · exact hmono i (h.missed u c hold i hi hf hk)
    · exact absurd hres (by simp)
  · intro u k r hmem hall
    rcases mem_done_ret.mp hmem with hold | ⟨_, hcall, _⟩
    · refine h.looked u k r hold fun i hi hk => ?_
      by_contra hne
      exact hmono i hne (hall i hi hk)
    · exact absurd hcall (by simp)
  · intro k
    rw [card_occupied_owner hidx hfree, ← h.handedOut_eq k]
    apply (handedOut_ret (b := b) t (.lookupDisable key) (some idx) k).trans
    simp [Call.disables, hkey]
  · exact forall_setCaller (fun _ th => th.OnChain ident C table _) trivial
      fun u _ => (h.onChain u).mono hmono

omit [DecidableEq κ] in
/-- A call that goes on past a filled slot still has slots to probe. -/
theorem Caller.OnChain.Passed.advance {key : Bytes} {idx probes : ℕ}
    (hpassed : OnChain.Passed ident C table owner key idx probes)
    (hroom : ∃ i, i < table.modMask + 1 ∧ ¬ table.filled i) (hfill : table.filled idx)
    (howner : ident (table.data idx) = ident key → owner idx ≠ none) :
    OnChain.Passed ident C table owner key (next (table.modMask + 1) idx) (probes + 1) := by
  obtain ⟨hlt, hoff, hbefore⟩ := hpassed
  have hall : ∀ e i, e < probes + 1 →
      offset (table.modMask + 1) (homeSlot table.modMask (C.hash key)) e = i →
      table.filled i ∧ (ident (table.data i) = ident key → owner i ≠ none) := by
    intro e i he hi
    rcases Nat.lt_succ_iff_lt_or_eq.mp he with he | rfl
    · exact hbefore e i he hi
    · rw [← hi, hoff]
      exact ⟨hfill, howner⟩
  refine ⟨?_, by rw [← hoff, next_offset (by omega)], hall⟩
  obtain ⟨i, hi, hfree⟩ := hroom
  obtain ⟨d, hd, hdi⟩ := exists_offset (homeSlot_lt table.modMask (C.hash key)) hi
  by_contra hge
  exact hfree (hall d i (by omega) hdi).1

omit [DecidableEq κ] in
/-- A call that meets a free slot has passed all rows of its key. -/
theorem Caller.OnChain.Passed.disabled {key : Bytes} {idx probes : ℕ}
    (hpassed : OnChain.Passed ident C table owner key idx probes)
    (hkeyed : C.Keyed ident) (hf : Filled C table placed) (hfree : ¬ table.filled idx) {i : ℕ}
    (hi : i < table.modMask + 1) (hfill : table.filled i)
    (hkey : ident (table.data i) = ident key) : owner i ≠ none := by
  obtain ⟨hlt, hoff, hbefore⟩ := hpassed
  obtain ⟨d, hd, hdi, hchain⟩ := hf.chained i _ hi (entries_eq_some.mpr ⟨hfill, rfl⟩)
  simp only [hkeyed.hash_eq _ _ hkey] at hdi hchain
  rcases Nat.lt_trichotomy d probes with hlt | heq | hgt
  · exact (hbefore d i hlt hdi).2 hkey
  · rw [← hdi, heq, hoff] at hfill
    exact absurd hfill hfree
  · have hne := hchain probes hgt
    rw [hoff] at hne
    exact absurd (entries_eq_none.mpr hfree) hne

omit [DecidableEq κ] in
/-- Where a call ends that has met no row of its key is where `lookup` ends that runs alone
before the first call. -/
theorem Caller.OnChain.Passed.lookup_eq {key : Bytes} {idx probes : ℕ}
    (hpassed : OnChain.Passed ident C table owner key idx probes) (hkeyed : C.Keyed ident)
    (hall : ∀ i, i < table.modMask + 1 → ident (table.data i) = ident key → owner i = none)
    (hstop : table.filled idx →
      table.tags idx = filledTag (C.hash key) ∧ ident (table.data idx) = ident key) :
    table.lookup C key (C.hash key) =
      .ok (if table.tags idx &&& tagFillMask = 0 then none else some idx) := by
  obtain ⟨hlt, hoff, hbefore⟩ := hpassed
  have hidx : idx < table.modMask + 1 := hoff ▸ offset_lt (by omega) _ _
  have hfind : table.findKey C key (C.hash key) = .ok idx := by
    have hprobe : probe (table.modMask + 1)
        (fun idx => table.tags idx &&& tagFillMask == 0 ||
          (table.tags idx == filledTag (C.hash key) && C.eq key (table.data idx)))
        (table.modMask + 1) (homeSlot table.modMask (C.hash key)) = some idx := by
      rw [probe_eq_some_iff _ (homeSlot_lt table.modMask (C.hash key))]
      refine ⟨probes, hlt, hoff, ?_, ?_⟩
      · by_cases hfill : table.filled idx
        · obtain ⟨htag, hkey⟩ := hstop hfill
          simp [htag, (hkeyed.eq_iff _ _).mpr hkey.symm]
        · simp [not_not.mp hfill]
      · intro e he
        obtain ⟨hfill, howner⟩ := hbefore e _ he rfl
        have hne : C.eq key (table.data (offset (table.modMask + 1)
            (homeSlot table.modMask (C.hash key)) e)) = false := by
          by_contra htrue
          have hkey := (hkeyed.eq_iff _ _).mp (Bool.not_eq_false _ ▸ htrue)
          exact howner hkey.symm (hall _ (offset_lt (by omega) _ _) hkey.symm)
        have hfill' : table.tags (offset (table.modMask + 1)
            (homeSlot table.modMask (C.hash key)) e) &&& tagFillMask ≠ 0 := hfill
        simp [hne, hfill']
    simp only [findKey, walk]
    rw [hprobe]
  simp [AtomicHashTable.lookup, hfind, bind, Except.bind]

/-- Every atomic step keeps the invariant. -/
theorem disableStep_inv (h : DisableInv ident C table calls b owner)
    (hkeyed : C.Keyed ident) (hf : Filled C table placed) (htagged : Tagged C table)
    (t : Fin T) :
    ∃ owner', DisableInv ident C table calls (disableStep C b t) owner' ∧
      ∀ i, owner i ≠ none → owner' i ≠ none := by
  have honChain := h.onChain t
  cases hpc : (b.threads t).pc with
  | idle =>
    refine ⟨owner, ?_, fun _ hne => hne⟩
    cases htodo : (b.threads t).todo with
    | nil =>
      simp only [disableStep, hpc, htodo]
      exact h
    | cons call rest =>
      simp only [disableStep, hpc, htodo]
      refine h.setThread rfl ?_ ?_
      · simp [Caller.pending, hpc, htodo]
      · rw [h.modMask]
        exact ⟨by omega, offset_zero (homeSlot_lt _ _), by omega⟩
  | load call idx probes =>
    simp only [Caller.OnChain, hpc] at honChain
    have hidx : idx < table.modMask + 1 := honChain.2.1 ▸ offset_lt (by omega) _ _
    have hpending : (b.threads t).pending = call :: (b.threads t).todo := by
      simp [Caller.pending, hpc]
    refine ⟨owner, ?_, fun _ hne => hne⟩
    simp only [disableStep, hpc]
    split
    · rename_i hfree
      rw [h.free_iff] at hfree
      refine h.ret hpending (fun _ _ => rfl) (by simp)
        (fun _ i hi hfill hkey => honChain.disabled hkeyed hf hfree hi hfill hkey) ?_
      intro key hcall hall
      subst hcall
      apply (honChain.lookup_eq hkeyed hall fun hfill => absurd hfill hfree).trans
      rw [if_pos (not_not.mp hfree)]
    · rename_i hfill
      rw [h.free_iff, not_not] at hfill
      split
      · rename_i hmatch
        obtain ⟨htag, hkey⟩ := hmatch
        rw [h.data] at hkey
        have hident := ((hkeyed.eq_iff _ _).mp hkey).symm
        cases call with
        | lookup key =>
          refine h.ret hpending (by simp) ?_ (by simp) ?_
          · intro i hi
            obtain rfl := Option.some.inj hi
            exact ⟨hidx, hfill, hident⟩
          · intro k hcall hall
            obtain rfl := Call.lookup.inj hcall
            have htag' : table.tags idx = filledTag (C.hash key) := by
              rw [htagged idx hidx hfill, hkeyed.hash_eq _ _ hident]
              rfl
            apply (honChain.lookup_eq hkeyed hall fun _ => ⟨htag', hident⟩).trans
            rw [if_neg hfill]
        | lookupDisable key =>
          refine h.setThread rfl ?_ ⟨honChain, hfill, hident⟩
          simp [Caller.pending, hpc]
      · rename_i hmatch
        rw [AtomicHashTable.itAdvance, h.modMask]
        refine h.setThread rfl ?_ (honChain.advance hf.room hfill ?_)
        · simp [Caller.pending, hpc]
        · intro hkey howner
          apply hmatch
          refine ⟨(h.tag_eq_iff hkeyed htagged hidx hfill hkey).mpr howner, ?_⟩
          rw [h.data]
          exact (hkeyed.eq_iff _ _).mpr hkey.symm
  | exchange key idx probes =>
    simp only [Caller.OnChain, hpc] at honChain
    obtain ⟨hpassed, hfill, hkey⟩ := honChain
    have hidx : idx < table.modMask + 1 := hpassed.2.1 ▸ offset_lt (by omega) _ _
    simp only [disableStep, hpc]
    split
    · rename_i htag
      have hfree := (h.tag_eq_iff hkeyed htagged hidx hfill hkey).mp htag
      exact ⟨_, h.disable hkeyed htagged hpc htag, fun i => update_ne_none hfree⟩
    · rename_i htag
      refine ⟨owner, ?_, fun _ hne => hne⟩
      rw [AtomicHashTable.itAdvance, h.modMask]
      refine h.setThread rfl ?_ (hpassed.advance hf.room hfill ?_)
      · simp [Caller.pending, hpc]
      · intro _ howner
        exact htag ((h.tag_eq_iff hkeyed htagged hidx hfill hkey).mpr howner)

/-- A step lets at most one call return, and a lookup returns a row that is not disabled. -/
theorem disableStep_done (h : DisableInv ident C table calls b owner)
    (hkeyed : C.Keyed ident) (htagged : Tagged C table) (t u : Fin T) :
    ((disableStep C b t).threads u).done = (b.threads u).done ∨
      ∃ call result, ((disableStep C b t).threads u).done =
          (b.threads u).done ++ [(call, result)] ∧
        ∀ key i, call = .lookup key → result = some i → i < table.modMask + 1 ∧
          table.filled i ∧ ident (table.data i) = ident key ∧ owner i = none := by
  have hsame : ∀ th : Caller, th.done = (b.threads t).done →
      ((b.setThread t th).threads u).done = (b.threads u).done := by
    intro th hdone
    exact forall_setCaller (fun u th => th.done = (b.threads u).done) hdone (fun _ _ => rfl) u
  have hret : ∀ call result, (∀ key i, call = .lookup key → result = some i →
      i < table.modMask + 1 ∧ table.filled i ∧ ident (table.data i) = ident key ∧
        owner i = none) →
      ((b.setThread t ((b.threads t).ret call result)).threads u).done = (b.threads u).done ∨
        ∃ c r, ((b.setThread t ((b.threads t).ret call result)).threads u).done =
          (b.threads u).done ++ [(c, r)] ∧
          ∀ key i, c = .lookup key → r = some i → i < table.modMask + 1 ∧
            table.filled i ∧ ident (table.data i) = ident key ∧ owner i = none := by
    intro call result hresult
    rw [done_setThread_ret]
    by_cases hut : u = t
    · rw [if_pos hut]
      exact Or.inr ⟨call, result, rfl, hresult⟩
    · rw [if_neg hut, List.append_nil]
      exact Or.inl rfl
  have honChain := h.onChain t
  cases hpc : (b.threads t).pc with
  | idle =>
    cases htodo : (b.threads t).todo with
    | nil =>
      left
      simp only [disableStep, hpc, htodo]
    | cons call rest =>
      simp only [disableStep, hpc, htodo]
      exact Or.inl (hsame _ rfl)
  | load call idx probes =>
    simp only [Caller.OnChain, hpc] at honChain
    have hidx : idx < table.modMask + 1 := honChain.2.1 ▸ offset_lt (by omega) _ _
    simp only [disableStep, hpc]
    split
    · exact hret call none (by simp)
    · rename_i hfill
      rw [h.free_iff, not_not] at hfill
      split
      · rename_i hmatch
        obtain ⟨htag, hkey⟩ := hmatch
        rw [h.data] at hkey
        have hident := ((hkeyed.eq_iff _ _).mp hkey).symm
        cases call with
        | lookup key =>
          refine hret (.lookup key) (some idx) ?_
          intro k i hcall hi
          obtain rfl := Call.lookup.inj hcall
          obtain rfl := Option.some.inj hi
          exact ⟨hidx, hfill, hident, (h.tag_eq_iff hkeyed htagged hidx hfill hident).mp htag⟩
        | lookupDisable key => exact Or.inl (hsame _ rfl)
      · exact Or.inl (hsame _ rfl)
  | exchange key idx probes =>
    simp only [disableStep, hpc]
    split
    · exact hret (.lookupDisable key) (some idx) (by simp)
    · exact Or.inl (hsame _ rfl)

/-- Lookups of a key that return after all its slots are disabled return null. -/
theorem disableRun_lookup_none (h : DisableInv ident C table calls b owner)
    (hkeyed : C.Keyed ident) (hf : Filled C table placed) (htagged : Tagged C table)
    {key : Bytes} (hall : ∀ i, i < table.modMask + 1 → table.filled i →
      ident (table.data i) = ident key → owner i ≠ none) (schedule : List (Fin T)) (t : Fin T) :
    ∃ returned, ((disableRun C b schedule).threads t).done =
        (b.threads t).done ++ returned ∧
      ∀ result, (.lookup key, result) ∈ returned → result = none := by
  induction schedule generalizing b owner with
  | nil => exact ⟨[], by simp [disableRun], by simp⟩
  | cons u rest ih =>
    obtain ⟨owner', hstep, hmono⟩ := disableStep_inv h hkeyed hf htagged u
    obtain ⟨returned, hrun, hnone⟩ := ih hstep fun i hi hfill hkey =>
      hmono i (hall i hi hfill hkey)
    replace hrun : ((disableRun C b (u :: rest)).threads t).done =
      ((disableStep C b u).threads t).done ++ returned := hrun
    rcases disableStep_done h hkeyed htagged u t with hsame | ⟨call, result, hret, hresult⟩
    · exact ⟨returned, by rw [hrun, hsame], hnone⟩
    · refine ⟨(call, result) :: returned, by rw [hrun, hret]; simp, ?_⟩
      intro r hmem
      rcases List.mem_cons.mp hmem with heq | hmem
      · obtain ⟨rfl, rfl⟩ := Prod.mk.inj heq
        cases r with
        | none => rfl
        | some i =>
          obtain ⟨hi, hfill, hkey, hfree⟩ := hresult key i rfl rfl
          exact absurd hfree (hall i hi hfill hkey)
      · exact hnone r hmem

theorem startDisabling_inv (table : AtomicHashTable) (calls : Fin T → List Call) :
    DisableInv ident C table calls (startDisabling table calls) (fun _ => none) := by
  refine ⟨rfl, rfl, rfl, ?_, ?_, ?_, ?_, ?_, ?_, ?_, ?_, fun _ => trivial⟩
  · intro i
    simp [startDisabling]
  · intro i t j
    simp [startDisabling]
  · intro i hi
    exact absurd rfl hi
  · intro t call i hmem
    simp [startDisabling] at hmem
  · intro t call hmem
    simp [startDisabling] at hmem
  · intro t key result hmem
    simp [startDisabling] at hmem
  · intro t
    simp [startDisabling, Caller.pending]
  · intro key
    simp [Disabling.handedOut, startDisabling, occupied]

/-- The invariant holds after every schedule, and disabled slots stay disabled. -/
theorem disableRun_inv (h : DisableInv ident C table calls b owner) (hkeyed : C.Keyed ident)
    (hf : Filled C table placed) (htagged : Tagged C table) (schedule : List (Fin T)) :
    ∃ owner', DisableInv ident C table calls (disableRun C b schedule) owner' ∧
      ∀ i, owner i ≠ none → owner' i ≠ none := by
  induction schedule generalizing b owner with
  | nil => exact ⟨owner, h, fun _ hne => hne⟩
  | cons t rest ih =>
    obtain ⟨owner₁, hstep, hmono⟩ := disableStep_inv h hkeyed hf htagged t
    obtain ⟨owner₂, hrest, hmono'⟩ := ih hstep
    exact ⟨owner₂, hrest, fun i hi => hmono' i (hmono i hi)⟩

def Caller.InRound (n : ℕ) (th : Caller) : Prop :=
  match th.pc with
  | .idle => True
  | .load _ _ probes => probes < n
  | .exchange _ _ probes => probes < n

theorem DisableInv.inRound (h : DisableInv ident C table calls b owner) (t : Fin T) :
    (b.threads t).InRound (table.modMask + 1) := by
  have honChain := h.onChain t
  unfold Caller.OnChain at honChain
  unfold Caller.InRound
  split at honChain
  · trivial
  · exact honChain.1
  · exact honChain.1.1

/-- A thread with calls left comes closer to its end with each of its steps. -/
theorem disableStep_stepsLeft {n : ℕ} {t : Fin T} (h : (b.threads t).InRound n)
    (hactive : ¬ ((b.threads t).pc = .idle ∧ (b.threads t).todo = [])) :
    ((disableStep C b t).threads t).stepsLeft n < (b.threads t).stepsLeft n := by
  cases hpc : (b.threads t).pc with
  | idle =>
    cases htodo : (b.threads t).todo with
    | nil => exact absurd ⟨hpc, htodo⟩ hactive
    | cons call rest =>
      simp only [disableStep, hpc, htodo, Disabling.setThread, Function.update_self,
        Caller.stepsLeft, List.length_cons, Nat.mul_add]
      omega
  | load call idx probes =>
    simp only [Caller.InRound, hpc] at h
    simp only [disableStep, hpc]
    split
    · simp only [Disabling.setThread, Caller.ret, Function.update_self, Caller.stepsLeft, hpc]
      omega
    · split
      · cases call with
        | lookup key =>
          simp only [Disabling.setThread, Caller.ret, Function.update_self, Caller.stepsLeft, hpc]
          omega
        | lookupDisable key =>
          simp only [Disabling.setThread, Function.update_self, Caller.stepsLeft, hpc]
          omega
      · simp only [Disabling.setThread, Function.update_self, Caller.stepsLeft, hpc]
        omega
  | exchange key idx probes =>
    simp only [Caller.InRound, hpc] at h
    simp only [disableStep, hpc]
    split
    · simp only [Disabling.setThread, Caller.ret, Function.update_self, Caller.stepsLeft, hpc]
      omega
    · simp only [Disabling.setThread, Function.update_self, Caller.stepsLeft, hpc]
      omega

def keyRows (placed : List (Bytes × ℕ)) (ident : Bytes → κ) (key : κ) : ℕ :=
  placed.countP fun p => ident p.1 == key

theorem card_keySlots (hf : Filled C table placed) (key : κ) :
    (((placed.filter fun p => ident p.1 == key).map Prod.snd).toFinset).card =
      keyRows placed ident key := by
  rw [List.toFinset_card_of_nodup, List.length_map, keyRows, List.countP_eq_length_filter]
  exact hf.nodup.sublist ((List.filter_sublist).map Prod.snd)

theorem DisableInv.owned_subset (h : DisableInv ident C table calls b owner)
    (hf : Filled C table placed) (key : κ) :
    (occupied (table.modMask + 1) fun i => if ident (table.data i) = key then owner i else none) ⊆
      ((placed.filter fun p => ident p.1 == key).map Prod.snd).toFinset := by
  intro i hi
  obtain ⟨hlt, hne⟩ := mem_occupied.mp hi
  by_cases hkey : ident (table.data i) = key
  · rw [if_pos hkey] at hne
    obtain ⟨row, hrow⟩ := hf.only_placed i hlt (h.owner_slot i hne).2
    rw [(hf.placed_slot row i hrow).2.2] at hkey
    rw [List.mem_toFinset, List.mem_map]
    exact ⟨(row, i), List.mem_filter.mpr ⟨hrow, by simpa using hkey⟩, rfl⟩
  · rw [if_neg hkey] at hne
    exact absurd rfl hne

theorem DisableInv.handedOut_le (h : DisableInv ident C table calls b owner)
    (hf : Filled C table placed) (key : κ) :
    b.handedOut ident key ≤ keyRows placed ident key := by
  rw [h.handedOut_eq key, ← card_keySlots hf key]
  exact Finset.card_le_card (h.owned_subset hf key)

/-- All rows of a key are handed out exactly when all its slots are disabled. -/
theorem DisableInv.handedOut_eq_iff (h : DisableInv ident C table calls b owner)
    (hf : Filled C table placed) (key : κ) :
    b.handedOut ident key = keyRows placed ident key ↔
      ∀ i, i < table.modMask + 1 → table.filled i → ident (table.data i) = key →
        owner i ≠ none := by
  rw [h.handedOut_eq key, ← card_keySlots hf key]
  constructor
  · intro hcard i hi hfill hkey
    have heq := Finset.eq_of_subset_of_card_le (h.owned_subset hf key) hcard.ge
    obtain ⟨row, hrow⟩ := hf.only_placed i hi hfill
    have hmem : i ∈ ((placed.filter fun p => ident p.1 == key).map Prod.snd).toFinset := by
      rw [List.mem_toFinset, List.mem_map]
      refine ⟨(row, i), List.mem_filter.mpr ⟨hrow, ?_⟩, rfl⟩
      simpa [← (hf.placed_slot row i hrow).2.2] using hkey
    rw [← heq, mem_occupied, if_pos hkey] at hmem
    exact hmem.2
  · intro hall
    congr 1
    apply (h.owned_subset hf key).antisymm
    intro i hi
    obtain ⟨⟨row, j⟩, hmem, rfl⟩ := List.mem_map.mp (List.mem_toFinset.mp hi)
    obtain ⟨hrow, hkey⟩ := List.mem_filter.mp hmem
    obtain ⟨hlt, hfill, hdata⟩ := hf.placed_slot row j hrow
    have hkey' : ident (table.data j) = key := by simpa [hdata] using hkey
    rw [mem_occupied, if_pos hkey']
    exact ⟨hlt, hall j hlt hfill hkey'⟩

theorem DisableInv.owner_eq_none (h : DisableInv ident C table calls b owner) {key : κ}
    (hzero : b.handedOut ident key = 0) {i : ℕ} (hi : i < table.modMask + 1)
    (hkey : ident (table.data i) = key) : owner i = none := by
  rw [h.handedOut_eq key, Finset.card_eq_zero] at hzero
  by_contra hne
  have hmem : i ∈ occupied (table.modMask + 1)
      (fun i => if ident (table.data i) = key then owner i else none) := by
    rw [mem_occupied, if_pos hkey]
    exact ⟨hi, hne⟩
  rw [hzero] at hmem
  exact absurd hmem (Finset.notMem_empty i)

/-- When all calls have returned, as many calls got a row of the key as there are rows, or
all of them did. -/
theorem DisableInv.handedOut_finished (h : DisableInv ident C table calls b owner)
    (hf : Filled C table placed) (hfin : b.Finished) (key : κ) :
    b.handedOut ident key =
      min (keyRows placed ident key) (∑ t, (calls t).countP (Call.disables ident key)) := by
  have hcalls : ∀ t, (calls t).countP (Call.disables ident key) =
      (b.threads t).done.countP fun p => p.1.disables ident key := by
    intro t
    rw [h.calls_eq t, Caller.pending, (hfin t).1]
    simp only [(hfin t).2, List.append_nil, List.countP_map]
    rfl
  rw [Finset.sum_congr rfl fun t _ => hcalls t]
  have hle := h.handedOut_le hf key
  have hle' : b.handedOut ident key ≤
      ∑ t, (b.threads t).done.countP fun p => p.1.disables ident key := by
    refine Finset.sum_le_sum fun t _ => List.countP_mono_left fun p _ hp => ?_
    exact (Bool.and_eq_true_iff.mp hp).1
  by_cases hmiss : ∃ t call, (call, none) ∈ (b.threads t).done ∧
      call.disables ident key = true
  · obtain ⟨t, call, hmem, hdis⟩ := hmiss
    have hkey : ident call.key = key := by
      cases call with
      | lookup k => simp [Call.disables] at hdis
      | lookupDisable k => simpa [Call.disables, Call.key] using hdis
    have hall := (h.handedOut_eq_iff hf key).mpr fun i hi hfill hk =>
      h.missed t call hmem i hi hfill (hk.trans hkey.symm)
    omega
  · have hsum : b.handedOut ident key =
        ∑ t, (b.threads t).done.countP fun p => p.1.disables ident key := by
      refine Finset.sum_congr rfl fun t _ => List.countP_congr fun p hp => ?_
      obtain ⟨call, result⟩ := p
      cases result with
      | none =>
        have hno : call.disables ident key ≠ true := fun hdis => hmiss ⟨t, call, hp, hdis⟩
        simp [hno]
      | some i => simp
    omega

end Steps

section Claim

variable {κ : Type*} [DecidableEq κ] {T U : ℕ}

theorem keyRows_placed {C : Comparator} {rows : Fin U → List Bytes} {build : Build U}
    {occ : ℕ → Option Bytes} (h : BuildInv C rows build occ)
    (hroom : ∑ u, (rows u).length < build.table.modMask + 1) (hfin : build.Finished)
    (ident : Bytes → κ) (key : κ) :
    keyRows build.placed ident key =
      ∑ u, (rows u).countP fun row => ident row == key := by
  obtain ⟨_, _, hrows⟩ := h.filled hroom hfin
  have hcount : ∀ u, (rows u).countP (fun row => ident row == key) =
      (build.threads u).done.countP fun p => ident p.1 == key := by
    intro u
    rw [← hrows u, List.countP_map]
    rfl
  rw [Finset.sum_congr rfl fun u _ => hcount u, keyRows, Build.placed, List.countP_flatMap,
    Fin.sum_univ_def]
  rfl

/-- Calls of `lookup` and `lookupDisable` by any threads under any schedule, on a table that
a parallel build has filled. Every slot is returned by one `lookupDisable` at most, and every
returned slot stores the key of its call. Of a key with `m` rows and `c` calls, `min m c`
calls get a row; a call that gets none leaves no row behind. After all rows of a key are
handed out its lookups return null, and the lookups of a key of which no row was handed out
return what they returned before the first call. No call probes all slots. -/
theorem lookupDisable_hands_out_once (C : Comparator) (ident : Bytes → κ)
    (hkeyed : C.Keyed ident) {slotSize numSlots : ℕ} {table : AtomicHashTable}
    (hcreate : create slotSize numSlots = .ok table) (rows : Fin U → List Bytes)
    (hlen : ∀ u, ∀ row ∈ rows u, row.length = table.totalSlotSize)
    (hroom : ∑ u, (rows u).length < numSlots) (inserts : List (Fin U))
    (hbuilt : (buildRun C (startBuild table rows) inserts).Finished)
    (calls : Fin T → List Call) (schedule : List (Fin T)) :
    let built := buildRun C (startBuild table rows) inserts
    let b := disableRun C (startDisabling built.table calls) schedule
    let stored := fun key => ∑ u, (rows u).countP fun row => ident row == key
    (∀ (i : ℕ) (t u : Fin T) (j l : ℕ) (k q : Bytes),
      (b.threads t).done[j]? = some (.lookupDisable k, some i) →
      (b.threads u).done[l]? = some (.lookupDisable q, some i) → t = u ∧ j = l) ∧
    (∀ t call i, (call, some i) ∈ (b.threads t).done →
      ∃ row, (row, i) ∈ built.placed ∧ C.eq call.key row = true) ∧
    (∀ t call, (call, none) ∈ (b.threads t).done →
      b.handedOut ident (ident call.key) = stored (ident call.key)) ∧
    (∀ key, b.handedOut ident key ≤ stored key) ∧
    (b.Finished → ∀ key, b.handedOut ident key =
      min (stored key) (∑ t, (calls t).countP (Call.disables ident key))) ∧
    (∀ later t j key result, b.handedOut ident (ident key) = stored (ident key) →
      (b.threads t).done.length ≤ j →
      ((disableRun C b later).threads t).done[j]? = some (.lookup key, result) →
      result = none) ∧
    (∀ t key result, (.lookup key, result) ∈ (b.threads t).done →
      b.handedOut ident (ident key) = 0 →
      built.table.lookup C key (C.hash key) = .ok result) ∧
    (∀ t, ¬ ((b.threads t).pc = .idle ∧ (b.threads t).todo = []) →
      ((disableStep C b t).threads t).stepsLeft numSlots < (b.threads t).stepsLeft numSlots) := by
  intro built b stored
  have hmask : table.modMask + 1 = numSlots := by
    unfold create at hcreate
    split at hcreate
    · exact absurd hcreate (by simp)
    · obtain rfl := Except.ok.inj hcreate
      simp only
      omega
  rw [← hmask] at hroom
  obtain ⟨hmask', occ, hinv⟩ := buildRun_inv (startBuild_inv (C := C) hcreate hlen) hroom inserts
  have hn : built.table.modMask + 1 = numSlots := by
    rw [← hmask, hmask']
    rfl
  replace hinv : BuildInv C rows built occ := hinv
  have hroom' : ∑ u, (rows u).length < built.table.modMask + 1 := by rwa [hn, ← hmask]
  obtain ⟨hf, htagged, _⟩ := hinv.filled hroom' hbuilt
  have hstored : ∀ key, keyRows built.placed ident key = stored key :=
    keyRows_placed hinv hroom' hbuilt ident
  have hstart : DisableInv ident C built.table calls (startDisabling built.table calls)
      (fun _ => none) := startDisabling_inv built.table calls
  obtain ⟨owner, h, _⟩ := disableRun_inv hstart hkeyed hf htagged schedule
  replace h : DisableInv ident C built.table calls b owner := h
  refine ⟨?_, ?_, ?_, ?_, ?_, ?_, ?_, ?_⟩
  · intro i t u j l k q ht hu
    have hown := (h.owner_iff i t j).mpr ⟨k, ht⟩
    rw [(h.owner_iff i u l).mpr ⟨q, hu⟩, Option.some.injEq, Prod.mk.injEq] at hown
    exact ⟨hown.1.symm, hown.2.symm⟩
  · intro t call i hmem
    obtain ⟨hi, hfill, hkey⟩ := h.returned t call i hmem
    obtain ⟨row, hrow⟩ := hf.only_placed i hi hfill
    refine ⟨row, hrow, (hkeyed.eq_iff _ _).mpr ?_⟩
    rw [← hkey, (hf.placed_slot row i hrow).2.2]
  · intro t call hmem
    rw [← hstored, h.handedOut_eq_iff hf]
    exact h.missed t call hmem
  · intro key
    rw [← hstored]
    exact h.handedOut_le hf key
  · intro hfin key
    rw [← hstored]
    exact h.handedOut_finished hf hfin key
  · intro later t j key result hall hj hret
    rw [← hstored, h.handedOut_eq_iff hf] at hall
    obtain ⟨returned, hdone, hnone⟩ :=
      disableRun_lookup_none h hkeyed hf htagged hall later t
    rw [hdone, List.getElem?_append_right hj] at hret
    exact hnone result (List.mem_of_getElem? hret)
  · intro t key result hmem hzero
    exact h.looked t key result hmem fun i hi hkey => h.owner_eq_none hzero hi hkey
  · intro t hactive
    rw [← hn]
    exact disableStep_stepsLeft (h.inRound t) hactive

/-- Two threads want the only row of a key; one of them gets it. -/
theorem lookupDisable_race :
    let C := simpleKeyComparator (fun _ => 3) 1
    let built := buildRun C (startBuild ⟨fun _ => 0, fun _ => [0], 4, 3, 1⟩ ![[[7], [8]]])
      [0, 0, 0, 0, 0, 0, 0, 0, 0]
    let b := disableRun C (startDisabling built.table ![[.lookupDisable [8]], [.lookupDisable [8]]])
      [0, 1, 0, 1, 0, 1, 0, 1, 1, 1]
    b.handedOut (fun k => readAt k 0 1) [8] = 1 := by
  have hspec := lookupDisable_hands_out_once (simpleKeyComparator (fun _ => 3) 1)
    (fun k => readAt k 0 1) (simpleKeyComparator_keyed _ _)
    (rfl : create 1 4 = .ok ⟨fun _ => 0, fun _ => [0], 4, 3, 1⟩)
    ![[[7], [8]]] (by decide) (by decide) [0, 0, 0, 0, 0, 0, 0, 0, 0]
    (by intro u; fin_cases u; exact ⟨rfl, rfl⟩)
    ![[.lookupDisable [8]], [.lookupDisable [8]]] [0, 1, 0, 1, 0, 1, 0, 1, 1, 1]
  have hfin := hspec.2.2.2.2.1 (by intro t; fin_cases t <;> exact ⟨rfl, rfl⟩) [8]
  apply hfin.trans
  decide

end Claim

end InkFuse.Runtime
