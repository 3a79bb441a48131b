import Mathlib.Algebra.Order.BigOperators.Group.Finset
import Mathlib.Data.Fintype.BigOperators
import Mathlib.Data.Fin.VecNotation
import Mathlib.Logic.Function.Basic
import Mathlib.Tactic.FinCases

/-!
The switch of the hybrid mode from interpreted to compiled morsels. The swimlanes run
interpreted morsels until they are out of morsels or see that the code is ready, meet at a
`OnceBarrier` whose last arrival sets up the compiled runner, and then mix both backends.
A background thread publishes the runner and a flag under one lock at any time, or never.
Measured times are free: a choice says how the throughputs of a thread compare.
-/

namespace InkFuse.Exec.HybridSwitch

/-- How the throughputs of compiled and interpreted morsels compare: by more than 1.66, by
more than 1.33, or closer. -/
inductive Throughput
  | compiledFar
  | compiledNear
  | compiledAhead
  | interpretedAhead
  | interpretedNear
  | interpretedFar
  deriving DecidableEq, Repr

/-- `compiled_throughput > interpreted_throughput` -/
def Throughput.compiledFaster : Throughput → Bool
  | .compiledFar | .compiledNear | .compiledAhead => true
  | _ => false

def computeTrials : Throughput → ℕ × ℕ
  | .compiledFar => (4, 1)
  | .compiledNear => (4, 2)
  | .interpretedFar => (1, 4)
  | .interpretedNear => (2, 4)
  | _ => (4, 4)

/-- The next morsel of the mixed loop is compiled. -/
def runsCompiled (itCounter : ℕ) (trials : ℕ × ℕ) (throughput : Throughput) : Bool :=
  if itCounter % 40 < trials.1 then true
  else if itCounter % 40 ≥ trials.1 ∧ itCounter % 40 < trials.1 + trials.2 then false
  else throughput.compiledFaster

/-- Where a swimlane is: in the interpreted loop up to `readLocked`, in `arriveAndWait` up to
`waiting`, and then in the mixed loop. The last arrival runs the once function. -/
inductive Pc
  | interpretLoop
  | interpreting
  | readState
  | readLocked
  | arrive
  | onceLock
  | onceCheck
  | settingUp
  | onceUnlock
  | leaving
  | waiting
  | mixedLoop
  | mixedInterpreting
  | mixedCompiling
  | finished
  deriving DecidableEq, Repr

/-- `arrivals` counts the calls of `arriveAndWait`. -/
structure Swimlane where
  pc : Pc
  fusedReady : Bool
  terminate : Bool
  itCounter : ℕ
  trials : ℕ × ℕ
  throughput : Throughput
  arrivals : ℕ
  deriving DecidableEq

/-- The background thread: it generates code, takes the lock, stores the runner, sets the flag
and releases the lock. -/
inductive Background
  | compiling
  | locked
  | pointerSet
  | flagSet
  | done
  deriving DecidableEq, Repr

/-- How far the once function is, and whether it has set up the runner. -/
inductive Once
  | notCalled
  | called
  | settingUp
  | ran (setUp : Bool)
  | returned (setUp : Bool)
  deriving DecidableEq, Repr

/-- Who holds the lock of the compile state. -/
inductive Holder (N : ℕ)
  | background
  | swimlane (t : Fin N)
  deriving DecidableEq, Repr

/-- The morsels that are left, the compile state, the barrier, and the background thread.
`once` and `setUps` record what has happened. -/
structure Shared (N : ℕ) where
  remaining : ℕ
  compiled : Bool
  fusedSetUp : Bool
  compiledLock : Option (Holder N)
  mutex : Option (Fin N)
  pendingArrivals : ℕ
  background : Background
  once : Once
  setUps : ℕ
  deriving DecidableEq

structure State (N : ℕ) where
  shared : Shared N
  threads : Fin N → Swimlane

variable {N : ℕ}

def start (N remaining : ℕ) : State N where
  shared := ⟨remaining, false, false, none, none, N, .compiling, .notCalled, 0⟩
  threads := fun _ => ⟨.interpretLoop, false, false, 0, (4, 4), .interpretedAhead, 0⟩

/-- What a step leaves open: a morsel is there for the thread, the printer closes the output
after it, and how the throughputs compare then. -/
structure Choice where
  pick : Bool
  closed : Bool
  throughput : Throughput
  deriving DecidableEq, Repr

/-- `runInterpretedMorsel` or `runFusedMorsel`: a morsel less, or none left for the thread.
The result says whether the thread terminates. -/
def runMorsel (σ : Shared N) (c : Choice) : Shared N × Bool :=
  if c.pick = true ∧ 0 < σ.remaining then
    ({ σ with remaining := σ.remaining - 1 }, c.closed)
  else
    (σ, true)

def endIteration (th : Swimlane) (c : Choice) (terminate : Bool) : Swimlane :=
  { th with
    pc := .mixedLoop
    terminate := terminate
    itCounter := th.itCounter + 1
    trials := computeTrials c.throughput
    throughput := c.throughput }

/-- The next step of a swimlane, unless it has to wait for a lock or for other threads. -/
def swimlaneStep (σ : Shared N) (t : Fin N) (th : Swimlane) (c : Choice) :
    Option (Shared N × Swimlane) :=
  match th.pc with
  | .interpretLoop =>
    if th.fusedReady || th.terminate then some (σ, { th with pc := .arrive })
    else some (σ, { th with pc := .interpreting })
  | .interpreting =>
    let (σ, terminate) := runMorsel σ c
    some (σ, { th with pc := .readState, terminate := terminate })
  | .readState =>
    if σ.compiledLock = none then
      some ({ σ with compiledLock := some (.swimlane t) }, { th with pc := .readLocked })
    else none
  | .readLocked =>
    some ({ σ with compiledLock := none },
      { th with pc := .interpretLoop, fusedReady := σ.fusedSetUp })
  | .arrive =>
    if σ.mutex = none then
      let remainingArrivals := σ.pendingArrivals - 1
      let th := { th with arrivals := th.arrivals + 1 }
      if remainingArrivals = 0 then
        some ({ σ with pendingArrivals := remainingArrivals, mutex := some t, once := .called },
          { th with pc := .onceLock })
      else
        some ({ σ with pendingArrivals := remainingArrivals }, { th with pc := .waiting })
    else none
  | .onceLock =>
    if σ.compiledLock = none then
      some ({ σ with compiledLock := some (.swimlane t) }, { th with pc := .onceCheck })
    else none
  | .onceCheck =>
    if σ.compiled then
      some ({ σ with once := .settingUp, setUps := σ.setUps + 1 }, { th with pc := .settingUp })
    else
      some ({ σ with once := .ran false }, { th with pc := .onceUnlock })
  | .settingUp => some ({ σ with once := .ran true }, { th with pc := .onceUnlock })
  | .onceUnlock =>
    let didSetUp := σ.once = .ran true
    some ({ σ with compiledLock := none, once := .returned didSetUp }, { th with pc := .leaving })
  | .leaving => some ({ σ with mutex := none }, { th with pc := .mixedLoop })
  | .waiting =>
    if σ.mutex = none ∧ σ.pendingArrivals = 0 then some (σ, { th with pc := .mixedLoop })
    else none
  | .mixedLoop =>
    if th.terminate then some (σ, { th with pc := .finished })
    else if runsCompiled th.itCounter th.trials th.throughput then
      some (σ, { th with pc := .mixedCompiling })
    else some (σ, { th with pc := .mixedInterpreting })
  | .mixedInterpreting =>
    let (σ, terminate) := runMorsel σ c
    some (σ, endIteration th c terminate)
  | .mixedCompiling =>
    let (σ, terminate) := runMorsel σ c
    some (σ, endIteration th c terminate)
  | .finished => none

def backgroundStep (σ : Shared N) : Option (Shared N) :=
  match σ.background with
  | .compiling =>
    if σ.compiledLock = none then
      some { σ with compiledLock := some .background, background := .locked }
    else none
  | .locked => some { σ with compiled := true, background := .pointerSet }
  | .pointerSet => some { σ with fusedSetUp := true, background := .flagSet }
  | .flagSet => some { σ with compiledLock := none, background := .done }
  | .done => none

inductive Action (N : ℕ)
  | background
  | swimlane (t : Fin N) (c : Choice)
  deriving DecidableEq, Repr

def step (s : State N) : Action N → Option (State N)
  | .background => do
    let σ ← backgroundStep s.shared
    some { s with shared := σ }
  | .swimlane t c => do
    let (σ, th) ← swimlaneStep s.shared t (s.threads t) c
    some ⟨σ, Function.update s.threads t th⟩

def run (s : State N) : List (Action N) → Option (State N)
  | [] => some s
  | a :: actions => do
    let s ← step s a
    run s actions

namespace Pc

def arrived : Pc → Bool
  | .interpretLoop | .interpreting | .readState | .readLocked | .arrive => false
  | _ => true

def passed : Pc → Bool
  | .mixedLoop | .mixedInterpreting | .mixedCompiling | .finished => true
  | _ => false

def inMorsel : Pc → Bool
  | .interpreting | .mixedInterpreting | .mixedCompiling => true
  | _ => false

def holdsLock : Pc → Bool
  | .readLocked | .onceCheck | .settingUp | .onceUnlock => true
  | _ => false

def holdsMutex : Pc → Bool
  | .onceLock | .onceCheck | .settingUp | .onceUnlock | .leaving => true
  | _ => false

/-- How far the once function is while a thread is at the place. -/
def OnceAt (once : Once) : Pc → Prop
  | .onceLock | .onceCheck => once = .called
  | .settingUp => once = .settingUp
  | .onceUnlock => ∃ b, once = .ran b
  | .leaving | .mixedLoop | .mixedInterpreting | .mixedCompiling | .finished =>
    ∃ b, once = .returned b
  | .waiting => True
  | _ => once = .notCalled

section Places

variable {pc : Pc} {once : Once}

theorem of_passed (h : pc.passed = true) :
    pc.arrived = true ∧ pc.holdsLock = false ∧ pc.holdsMutex = false := by
  cases pc with
  | mixedLoop | mixedInterpreting | mixedCompiling | finished => exact ⟨rfl, rfl, rfl⟩
  | _ => cases h

theorem onceAt_of_passed (h : pc.passed = true) : pc.OnceAt once ↔ ∃ b, once = .returned b := by
  cases pc with
  | mixedLoop | mixedInterpreting | mixedCompiling | finished => exact Iff.rfl
  | _ => cases h

theorem of_holdsMutex (h : pc.holdsMutex = true) : pc.arrived = true ∧ pc.inMorsel = false := by
  cases pc with
  | onceLock | onceCheck | settingUp | onceUnlock | leaving => exact ⟨rfl, rfl⟩
  | _ => cases h

theorem of_not_arrived (h : pc.arrived = false) :
    pc.holdsMutex = false ∧ (pc.OnceAt once ↔ once = .notCalled) := by
  cases pc with
  | interpretLoop | interpreting | readState | readLocked | arrive => exact ⟨rfl, Iff.rfl⟩
  | _ => cases h

/-- Until the once function has returned, who has arrived and does not run it waits. -/
theorem eq_waiting (harrived : pc.arrived = true) (hmutex : pc.holdsMutex = false)
    (honce : pc.OnceAt once) (hreturned : ∀ b, once ≠ .returned b) : pc = .waiting := by
  cases pc with
  | waiting => rfl
  | interpretLoop | interpreting | readState | readLocked | arrive => cases harrived
  | onceLock | onceCheck | settingUp | onceUnlock | leaving => cases hmutex
  | mixedLoop | mixedInterpreting | mixedCompiling | finished =>
    obtain ⟨b, hb⟩ := honce
    exact absurd hb (hreturned b)

end Places

end Pc

section Moves

variable {σ σ' : Shared N} {t : Fin N} {th th' : Swimlane} {c : Choice}

/-- What a step of a swimlane does. -/
inductive Move (σ : Shared N) (t : Fin N) (th : Swimlane) (c : Choice) : Shared N → Swimlane → Prop
  | loopDone : th.pc = .interpretLoop → th.fusedReady = true ∨ th.terminate = true →
      Move σ t th c σ { th with pc := .arrive }
  | loopOn : th.pc = .interpretLoop → th.terminate = false →
      Move σ t th c σ { th with pc := .interpreting }
  | interpreted : th.pc = .interpreting →
      Move σ t th c (runMorsel σ c).1
        { th with pc := .readState, terminate := (runMorsel σ c).2 }
  | locked {pc : Pc} : σ.compiledLock = none →
      th.pc = .readState ∧ pc = .readLocked ∨ th.pc = .onceLock ∧ pc = .onceCheck →
      Move σ t th c { σ with compiledLock := some (.swimlane t) } { th with pc := pc }
  | flagRead : th.pc = .readLocked →
      Move σ t th c { σ with compiledLock := none }
        { th with pc := .interpretLoop, fusedReady := σ.fusedSetUp }
  | arrived {last : Bool} : th.pc = .arrive → σ.mutex = none →
      (last = true ↔ σ.pendingArrivals - 1 = 0) →
      Move σ t th c
        { σ with
          pendingArrivals := σ.pendingArrivals - 1
          mutex := if last then some t else none
          once := if last then .called else σ.once }
        { th with
          arrivals := th.arrivals + 1
          pc := if last then .onceLock else .waiting }
  | foundRunner : th.pc = .onceCheck → σ.compiled = true →
      Move σ t th c { σ with once := .settingUp, setUps := σ.setUps + 1 }
        { th with pc := .settingUp }
  | missedRunner : th.pc = .onceCheck → ¬ σ.compiled = true →
      Move σ t th c { σ with once := .ran false } { th with pc := .onceUnlock }
  | setUpDone : th.pc = .settingUp →
      Move σ t th c { σ with once := .ran true } { th with pc := .onceUnlock }
  | onceReturned : th.pc = .onceUnlock →
      Move σ t th c { σ with compiledLock := none, once := .returned (σ.once = .ran true) }
        { th with pc := .leaving }
  | left : th.pc = .leaving → Move σ t th c { σ with mutex := none } { th with pc := .mixedLoop }
  | woken : th.pc = .waiting → σ.mutex = none → σ.pendingArrivals = 0 →
      Move σ t th c σ { th with pc := .mixedLoop }
  | mixedDone : th.pc = .mixedLoop → Move σ t th c σ { th with pc := .finished }
  | mixedOn {pc : Pc} : th.pc = .mixedLoop → th.terminate = false →
      pc = .mixedInterpreting ∨ pc = .mixedCompiling → Move σ t th c σ { th with pc := pc }
  | iterated : th.pc = .mixedInterpreting ∨ th.pc = .mixedCompiling →
      Move σ t th c (runMorsel σ c).1 (endIteration th c (runMorsel σ c).2)

theorem swimlaneStep_move (hstep : swimlaneStep σ t th c = some (σ', th')) :
    Move σ t th c σ' th' := by
  cases hpc : th.pc with
  | interpretLoop =>
    simp only [swimlaneStep, hpc] at hstep
    split at hstep
    · next hexit =>
      cases hstep
      exact .loopDone hpc (by simpa using hexit)
    · next hgoes =>
      cases hstep
      simp only [Bool.or_eq_true, not_or, Bool.not_eq_true] at hgoes
      exact .loopOn hpc hgoes.2
  | interpreting =>
    simp only [swimlaneStep, hpc] at hstep
    cases hstep
    exact .interpreted hpc
  | readState =>
    simp only [swimlaneStep, hpc] at hstep
    split at hstep
    · next hfree =>
      cases hstep
      exact .locked hfree (Or.inl ⟨hpc, rfl⟩)
    · cases hstep
  | readLocked =>
    simp only [swimlaneStep, hpc] at hstep
    cases hstep
    exact .flagRead hpc
  | arrive =>
    simp only [swimlaneStep, hpc] at hstep
    split at hstep
    · next hfree =>
      split at hstep
      · next hzero =>
        cases hstep
        exact .arrived hpc hfree (iff_of_true rfl hzero)
      · next hpos =>
        cases hstep
        rw [hfree]
        exact .arrived hpc hfree (iff_of_false Bool.false_ne_true hpos)
    · cases hstep
  | onceLock =>
    simp only [swimlaneStep, hpc] at hstep
    split at hstep
    · next hfree =>
      cases hstep
      exact .locked hfree (Or.inr ⟨hpc, rfl⟩)
    · cases hstep
  | onceCheck =>
    simp only [swimlaneStep, hpc] at hstep
    split at hstep
    · next hcompiled =>
      cases hstep
      exact .foundRunner hpc hcompiled
    · next hmissing =>
      cases hstep
      exact .missedRunner hpc hmissing
  | settingUp =>
    simp only [swimlaneStep, hpc] at hstep
    cases hstep
    exact .setUpDone hpc
  | onceUnlock =>
    simp only [swimlaneStep, hpc] at hstep
    cases hstep
    exact .onceReturned hpc
  | leaving =>
    simp only [swimlaneStep, hpc] at hstep
    cases hstep
    exact .left hpc
  | waiting =>
    simp only [swimlaneStep, hpc] at hstep
    split at hstep
    · next hwake =>
      cases hstep
      exact .woken hpc hwake.1 hwake.2
    · cases hstep
  | mixedLoop =>
    simp only [swimlaneStep, hpc] at hstep
    split at hstep
    · cases hstep
      exact .mixedDone hpc
    · next hgoes =>
      split at hstep
      · cases hstep
        exact .mixedOn hpc (by simpa using hgoes) (Or.inr rfl)
      · cases hstep
        exact .mixedOn hpc (by simpa using hgoes) (Or.inl rfl)
  | mixedInterpreting =>
    simp only [swimlaneStep, hpc] at hstep
    cases hstep
    exact .iterated (Or.inl hpc)
  | mixedCompiling =>
    simp only [swimlaneStep, hpc] at hstep
    cases hstep
    exact .iterated (Or.inr hpc)
  | finished =>
    simp only [swimlaneStep, hpc] at hstep
    cases hstep

end Moves

def Once.count : Once → ℕ
  | .notCalled | .called => 0
  | .settingUp => 1
  | .ran b | .returned b => b.toNat

def Once.running : Once → Bool
  | .called | .settingUp | .ran _ => true
  | _ => false

/-- The once function has read whether there is a runner, and has set it up if so. -/
def Once.SetUp : Once → Prop
  | .ran b | .returned b => b = true
  | _ => True

/-- What holds of one thread. A thread that has seen the flag has seen a runner that the once
function sets up. -/
structure ThreadOk (σ : Shared N) (t : Fin N) (th : Swimlane) : Prop where
  lock : σ.compiledLock = some (.swimlane t) ↔ th.pc.holdsLock = true
  mutex : σ.mutex = some t ↔ th.pc.holdsMutex = true
  arrivals : th.arrivals = if th.pc.arrived then 1 else 0
  once : th.pc.OnceAt σ.once
  published : th.fusedReady = true → σ.fusedSetUp = true
  setUp : th.fusedReady = true → σ.once.SetUp
  exit : th.pc.arrived = true ∨ th.pc = .arrive → th.fusedReady = true ∨ th.terminate = true
  running : th.pc.inMorsel = true → th.terminate = false

structure SharedOk (σ : Shared N) : Prop where
  published : σ.fusedSetUp = true → σ.compiled = true
  pointer : σ.compiled = true ↔
    σ.background = .pointerSet ∨ σ.background = .flagSet ∨ σ.background = .done
  lock : σ.compiledLock = some .background ↔
    σ.background = .locked ∨ σ.background = .pointerSet ∨ σ.background = .flagSet
  setUps : σ.setUps = σ.once.count
  arrived : σ.once ≠ .notCalled → σ.pendingArrivals = 0
  mutex : σ.once.running = true → σ.mutex ≠ none
  compiled : σ.once = .settingUp ∨ σ.once = .ran true ∨ σ.once = .returned true →
    σ.compiled = true

structure Inv (s : State N) : Prop where
  shared : SharedOk s.shared
  thread : ∀ t, ThreadOk s.shared t (s.threads t)
  pending : s.shared.pendingArrivals =
    (Finset.univ.filter fun t => (s.threads t).pc.arrived = false).card
  notCalled : s.shared.once = .notCalled → 0 < s.shared.pendingArrivals ∨ N = 0

section Steps

variable {s : State N} {σ σ' : Shared N} {t u : Fin N} {th th' : Swimlane}

/-- What a thread knows is still true when others change the shared state: the once function
only goes on while the thread waits. -/
theorem ThreadOk.frame (h : ThreadOk σ u th)
    (hlock : σ'.compiledLock = some (.swimlane u) ↔ σ.compiledLock = some (.swimlane u))
    (hmutex : σ'.mutex = some u ↔ σ.mutex = some u)
    (hpublished : σ.fusedSetUp = true → σ'.fusedSetUp = true)
    (honce : σ'.once = σ.once ∨ th.pc = .waiting ∧ (th.fusedReady = true → σ'.once.SetUp)) :
    ThreadOk σ' u th := by
  refine ⟨hlock.trans h.lock, hmutex.trans h.mutex, h.arrivals, ?_, fun hready => ?_, ?_,
    h.exit, h.running⟩
  · rcases honce with heq | ⟨hpc, _⟩
    · rw [heq]
      exact h.once
    · rw [hpc]
      trivial
  · exact hpublished (h.published hready)
  · rcases honce with heq | ⟨_, hsetUp⟩
    · rw [heq]
      exact h.setUp
    · exact hsetUp

theorem card_unarrived_update (threads : Fin N → Swimlane)
    (harrived : th.pc.arrived = (threads t).pc.arrived) :
    (Finset.univ.filter fun u => (Function.update threads t th u).pc.arrived = false) =
      Finset.univ.filter fun u => (threads u).pc.arrived = false := by
  apply Finset.filter_congr
  intro u _
  by_cases hut : u = t
  · subst hut
    rw [Function.update_self, harrived]
  · rw [Function.update_of_ne hut]

/-- A step of one thread that is no arrival. -/
theorem Inv.update (h : Inv s) (hshared : SharedOk σ') (hself : ThreadOk σ' t th)
    (hother : ∀ u, u ≠ t → ThreadOk σ' u (s.threads u))
    (harrived : th.pc.arrived = (s.threads t).pc.arrived)
    (hpending : σ'.pendingArrivals = s.shared.pendingArrivals)
    (hnotCalled : σ'.once = .notCalled → s.shared.once = .notCalled) :
    Inv ⟨σ', Function.update s.threads t th⟩ := by
  refine ⟨hshared, fun u => ?_, ?_, fun hcalled => ?_⟩
  · by_cases hut : u = t
    · subst hut
      simpa using hself
    · simpa [Function.update_of_ne hut] using hother u hut
  · rw [card_unarrived_update s.threads harrived]
    exact hpending.trans h.pending
  · rw [hpending]
    exact h.notCalled (hnotCalled hcalled)

/-- A step that leaves the shared state alone, up to the morsels. -/
theorem Inv.local (h : Inv s) {remaining : ℕ}
    (hself : ThreadOk { s.shared with remaining := remaining } t th)
    (harrived : th.pc.arrived = (s.threads t).pc.arrived) :
    Inv ⟨{ s.shared with remaining := remaining }, Function.update s.threads t th⟩ := by
  have hs := h.shared
  refine h.update ⟨hs.published, hs.pointer, hs.lock, hs.setUps, hs.arrived, hs.mutex,
    hs.compiled⟩ hself (fun u _ => ?_) harrived rfl id
  exact (h.thread u).frame Iff.rfl Iff.rfl id (Or.inl rfl)

theorem runMorsel_eq (σ : Shared N) (c : Choice) :
    ∃ remaining, (runMorsel σ c).1 = { σ with remaining := remaining } := by
  unfold runMorsel
  split
  · exact ⟨σ.remaining - 1, rfl⟩
  · exact ⟨σ.remaining, rfl⟩

/-- All threads have arrived once the once function is called. -/
theorem Inv.all_arrived (h : Inv s) (hpending : s.shared.pendingArrivals = 0) (u : Fin N) :
    (s.threads u).pc.arrived = true := by
  have hcard := h.pending
  rw [hpending, eq_comm, Finset.card_eq_zero, Finset.filter_eq_empty_iff] at hcard
  simpa using hcard (Finset.mem_univ u)

/-- While the once function runs, the threads that do not run it wait. -/
theorem Inv.others_wait (h : Inv s) (hrunning : s.shared.once.running = true)
    (hmutex : s.shared.mutex = some t) (hut : u ≠ t) : (s.threads u).pc = .waiting := by
  have hu := h.thread u
  have hpending : s.shared.pendingArrivals = 0 := by
    apply h.shared.arrived
    intro hnot
    rw [hnot] at hrunning
    exact absurd hrunning (by decide)
  have harrived := h.all_arrived hpending u
  have hnotMutex : (s.threads u).pc.holdsMutex = false := by
    rw [Bool.eq_false_iff, ne_eq, ← hu.mutex, hmutex]
    simpa using hut.symm
  refine Pc.eq_waiting harrived hnotMutex hu.once fun b hb => ?_
  rw [hb] at hrunning
  exact absurd hrunning (by simp [Once.running])

/-- A thread takes the lock of the compile state, in its loop or in the once function. -/
theorem Inv.takeLock (h : Inv s) {pc : Pc} (hfree : s.shared.compiledLock = none)
    (hpc : (s.threads t).pc = .readState ∧ pc = .readLocked ∨
      (s.threads t).pc = .onceLock ∧ pc = .onceCheck) :
    Inv ⟨{ s.shared with compiledLock := some (.swimlane t) },
      Function.update s.threads t { s.threads t with pc := pc }⟩ := by
  have hs := h.shared
  have ht := h.thread t
  have hbackground := hs.lock
  rw [hfree] at hbackground
  refine h.update ⟨hs.published, hs.pointer, ?_, hs.setUps, hs.arrived, hs.mutex, hs.compiled⟩
    ⟨?_, ?_, ?_, ?_, ht.published, ht.setUp, ?_, ?_⟩ (fun u hut => ?_) ?_ rfl id
  · simpa using hbackground
  · rcases hpc with ⟨_, rfl⟩ | ⟨_, rfl⟩ <;> simp [Pc.holdsLock]
  · rw [ht.mutex]
    rcases hpc with ⟨hold, rfl⟩ | ⟨hold, rfl⟩ <;> simp [hold, Pc.holdsMutex]
  · rw [ht.arrivals]
    rcases hpc with ⟨hold, rfl⟩ | ⟨hold, rfl⟩ <;> simp [hold, Pc.arrived]
  · have honce := ht.once
    rcases hpc with ⟨hold, rfl⟩ | ⟨hold, rfl⟩ <;> rw [hold] at honce <;> exact honce
  · have hexit := ht.exit
    rcases hpc with ⟨hold, rfl⟩ | ⟨hold, rfl⟩
    · simp [Pc.arrived]
    · intro _
      apply hexit
      simp [hold, Pc.arrived]
  · rcases hpc with ⟨_, rfl⟩ | ⟨_, rfl⟩ <;> simp [Pc.inMorsel]
  · refine (h.thread u).frame ?_ Iff.rfl id (Or.inl rfl)
    simp [hfree, hut.symm]
  · rcases hpc with ⟨hold, rfl⟩ | ⟨hold, rfl⟩ <;> simp [hold, Pc.arrived]

/-- A thread of the interpreted loop reads the flag and releases the lock. -/
theorem Inv.readFlag (h : Inv s) (hpc : (s.threads t).pc = .readLocked) :
    Inv ⟨{ s.shared with compiledLock := none },
      Function.update s.threads t
        { s.threads t with pc := .interpretLoop, fusedReady := s.shared.fusedSetUp }⟩ := by
  have hs := h.shared
  have ht := h.thread t
  have hheld : s.shared.compiledLock = some (.swimlane t) := by
    rw [ht.lock, hpc]
    rfl
  have honce : s.shared.once = .notCalled := by
    have honce := ht.once
    rwa [hpc] at honce
  have hbackground := hs.lock
  rw [hheld] at hbackground
  refine h.update ⟨hs.published, hs.pointer, ?_, hs.setUps, hs.arrived, hs.mutex, hs.compiled⟩
    ⟨?_, ?_, ?_, honce, id, ?_, ?_, ?_⟩ (fun u hut => ?_) ?_ rfl id
  · simpa using hbackground
  · simp [Pc.holdsLock]
  · rw [ht.mutex, hpc]
    rfl
  · rw [ht.arrivals, hpc]
    rfl
  · intro _
    rw [honce]
    trivial
  · simp [Pc.arrived]
  · simp [Pc.inMorsel]
  · refine (h.thread u).frame ?_ Iff.rfl id (Or.inl rfl)
    simp [hheld, hut.symm]
  · rw [hpc]
    rfl

theorem card_unarrived_arrive {threads : Fin N → Swimlane}
    (hbefore : (threads t).pc.arrived = false) (hafter : th.pc.arrived = true) :
    (Finset.univ.filter fun u => (Function.update threads t th u).pc.arrived = false).card =
      (Finset.univ.filter fun u => (threads u).pc.arrived = false).card - 1 := by
  have herase : (Finset.univ.filter fun u => (Function.update threads t th u).pc.arrived = false) =
      (Finset.univ.filter fun u => (threads u).pc.arrived = false).erase t := by
    ext u
    by_cases hut : u = t
    · subst hut
      simp [hafter]
    · simp [hut]
  rw [herase, Finset.card_erase_of_mem]
  simp [hbefore]

/-- A thread arrives at the barrier; the last one calls the once function. -/
theorem Inv.arrive (h : Inv s) (hpc : (s.threads t).pc = .arrive) (hfree : s.shared.mutex = none)
    {last : Bool} (hlast : last = true ↔ s.shared.pendingArrivals - 1 = 0) :
    Inv ⟨{ s.shared with
        pendingArrivals := s.shared.pendingArrivals - 1
        mutex := if last then some t else none
        once := if last then .called else s.shared.once },
      Function.update s.threads t { s.threads t with
        arrivals := (s.threads t).arrivals + 1
        pc := if last then .onceLock else .waiting }⟩ := by
  have hs := h.shared
  have ht := h.thread t
  have honce : s.shared.once = .notCalled := by
    have honce := ht.once
    rwa [hpc] at honce
  have hunlocked : s.shared.compiledLock ≠ some (.swimlane t) := by
    rw [ne_eq, ht.lock, hpc]
    decide
  have hexit := ht.exit (Or.inr hpc)
  have hready : (s.threads t).fusedReady = true →
      (if last then Once.called else s.shared.once).SetUp := by
    intro _
    rw [honce]
    cases last <;> trivial
  let th : Swimlane := { s.threads t with
    arrivals := (s.threads t).arrivals + 1
    pc := if last then .onceLock else .waiting }
  have hcard := card_unarrived_arrive (t := t) (by rw [hpc]; rfl)
    (show th.pc.arrived = true by cases last <;> rfl)
  rw [← h.pending] at hcard
  refine ⟨⟨hs.published, hs.pointer, hs.lock, ?_, ?_, ?_, ?_⟩, fun u => ?_, hcard.symm, ?_⟩
  · have hsetUps := hs.setUps
    rw [honce] at hsetUps
    dsimp only
    rw [hsetUps, honce]
    cases last <;> rfl
  · intro hcalled
    cases last with
    | true => exact hlast.mp rfl
    | false => exact absurd honce hcalled
  · intro hrunning
    cases last with
    | true => simp
    | false =>
      simp only [Bool.false_eq_true, if_false, honce] at hrunning
      exact absurd hrunning (by decide)
  · intro hsetUp
    cases last <;> simp [honce] at hsetUp
  · dsimp only
    by_cases hut : u = t
    · subst hut
      rw [Function.update_self]
      cases last with
      | true =>
        exact ⟨by simpa [Pc.holdsLock] using hunlocked, by simp [Pc.holdsMutex],
          by simp [Pc.arrived, ht.arrivals, hpc], rfl, ht.published, hready, fun _ => hexit,
          by simp [Pc.inMorsel]⟩
      | false =>
        exact ⟨by simpa [Pc.holdsLock] using hunlocked, by simp [Pc.holdsMutex],
          by simp [Pc.arrived, ht.arrivals, hpc], trivial, ht.published, hready, fun _ => hexit,
          by simp [Pc.inMorsel]⟩
    · rw [Function.update_of_ne hut]
      have hu := h.thread u
      cases last with
      | false => exact hu.frame Iff.rfl (by simp [hfree]) id (Or.inl rfl)
      | true =>
        have hwaiting : (s.threads u).pc = .waiting := by
          have hzero := hlast.mp rfl
          rw [hzero, Finset.card_eq_zero, Finset.filter_eq_empty_iff] at hcard
          have harrived : (s.threads u).pc.arrived = true := by
            simpa [Function.update_of_ne hut] using hcard (Finset.mem_univ u)
          have hmutex : (s.threads u).pc.holdsMutex = false := by
            rw [Bool.eq_false_iff, ne_eq, ← hu.mutex, hfree]
            simp
          exact Pc.eq_waiting harrived hmutex hu.once fun b => by simp [honce]
        refine hu.frame Iff.rfl ?_ id (Or.inr ⟨hwaiting, fun _ => trivial⟩)
        simp [hfree, Ne.symm hut]
  · intro hcalled
    cases last with
    | true => exact absurd hcalled (by simp)
    | false =>
      left
      show 0 < s.shared.pendingArrivals - 1
      have hne : ¬ s.shared.pendingArrivals - 1 = 0 := fun hz => Bool.false_ne_true (hlast.mpr hz)
      omega

/-- The thread in the once function goes on; the others wait. -/
theorem Inv.onceStep (h : Inv s) {once : Once} {setUps : ℕ} {lock : Option (Holder N)} {pc : Pc}
    (hheld : s.shared.compiledLock = some (.swimlane t))
    (hmutex : (s.threads t).pc.holdsMutex = true) (hrunning : s.shared.once.running = true)
    (hcalled : once ≠ .notCalled) (hsetUps : setUps = once.count)
    (hcompiled : once = .settingUp ∨ once = .ran true ∨ once = .returned true →
      s.shared.compiled = true)
    (hready : ∀ u, (s.threads u).fusedReady = true → once.SetUp)
    (hpcMutex : pc.holdsMutex = true) (hpcOnce : pc.OnceAt once)
    (hpcLock : lock = some (.swimlane t) ∧ pc.holdsLock = true ∨
      lock = none ∧ pc.holdsLock = false) :
    Inv ⟨{ s.shared with once := once, setUps := setUps, compiledLock := lock },
      Function.update s.threads t { s.threads t with pc := pc }⟩ := by
  have hs := h.shared
  have ht := h.thread t
  have hown : s.shared.mutex = some t := ht.mutex.mpr hmutex
  obtain ⟨harrived, _⟩ := Pc.of_holdsMutex hmutex
  obtain ⟨harrived', hmorsel'⟩ := Pc.of_holdsMutex hpcMutex
  have hcalled' : s.shared.once ≠ .notCalled := by
    intro hnot
    rw [hnot] at hrunning
    exact absurd hrunning (by decide)
  have hbackground := hs.lock
  rw [hheld] at hbackground
  refine h.update ⟨hs.published, hs.pointer, ?_, hsetUps, fun _ => hs.arrived hcalled', ?_,
    hcompiled⟩ ⟨?_, ?_, ?_, hpcOnce, ht.published, hready t, ?_, ?_⟩ (fun u hut => ?_) ?_ rfl
    (fun hnot => absurd hnot hcalled)
  · rcases hpcLock with ⟨rfl, _⟩ | ⟨rfl, _⟩
    · exact hbackground
    · simpa using hbackground
  · intro _
    simp [hown]
  · rcases hpcLock with ⟨rfl, hholds⟩ | ⟨rfl, hholds⟩ <;> simp [hholds]
  · simp [hown, hpcMutex]
  · rw [ht.arrivals, harrived, harrived']
  · intro _
    exact ht.exit (Or.inl harrived)
  · simp [hmorsel']
  · refine (h.thread u).frame ?_ Iff.rfl id (Or.inr ⟨h.others_wait hrunning hown hut, hready u⟩)
    rcases hpcLock with ⟨rfl, _⟩ | ⟨rfl, _⟩ <;> simp [hheld, Ne.symm hut]
  · exact harrived'.trans harrived.symm

/-- The last arrival leaves the barrier. -/
theorem Inv.leave (h : Inv s) (hpc : (s.threads t).pc = .leaving) :
    Inv ⟨{ s.shared with mutex := none },
      Function.update s.threads t { s.threads t with pc := .mixedLoop }⟩ := by
  have hs := h.shared
  have ht := h.thread t
  have hown : s.shared.mutex = some t := by
    rw [ht.mutex, hpc]
    rfl
  have honce := ht.once
  rw [hpc] at honce
  obtain ⟨b, hb⟩ := honce
  refine h.update ⟨hs.published, hs.pointer, hs.lock, hs.setUps, hs.arrived, ?_, hs.compiled⟩
    ⟨?_, ?_, ?_, ⟨b, hb⟩, ht.published, ht.setUp, ?_, ?_⟩ (fun u hut => ?_) ?_ rfl id
  · intro hrunning
    rw [hb] at hrunning
    exact absurd hrunning (by simp [Once.running])
  · rw [ht.lock, hpc]
    rfl
  · simp [Pc.holdsMutex]
  · rw [ht.arrivals, hpc]
    rfl
  · intro _
    apply ht.exit
    simp [hpc, Pc.arrived]
  · simp [Pc.inMorsel]
  · exact (h.thread u).frame Iff.rfl (by simp [hown, Ne.symm hut]) id (Or.inl rfl)
  · rw [hpc]
    rfl

theorem backgroundStep_inv (h : Inv s) (hstep : backgroundStep s.shared = some σ') :
    Inv { s with shared := σ' } := by
  have hs := h.shared
  have hlock := hs.lock
  have hpointer := hs.pointer
  unfold backgroundStep at hstep
  have hframe : ∀ {σ : Shared N}, (∀ u, σ.compiledLock = some (.swimlane u) ↔
      s.shared.compiledLock = some (.swimlane u)) → σ.mutex = s.shared.mutex →
      (s.shared.fusedSetUp = true → σ.fusedSetUp = true) → σ.once = s.shared.once →
      ∀ u, ThreadOk σ u (s.threads u) := by
    intro σ hheld hmutex hflag honce u
    exact (h.thread u).frame (hheld u) (by rw [hmutex]) hflag (Or.inl honce)
  split at hstep
  · rename_i hpc
    split at hstep
    · rename_i hfree
      obtain rfl := Option.some.inj hstep
      rw [hpc] at hpointer
      exact ⟨⟨hs.published, by simpa using hpointer, by simp, hs.setUps, hs.arrived, hs.mutex,
        hs.compiled⟩, hframe (by simp [hfree]) rfl id rfl, h.pending, h.notCalled⟩
    · exact absurd hstep (by simp)
  · rename_i hpc
    obtain rfl := Option.some.inj hstep
    rw [hpc] at hlock
    exact ⟨⟨fun _ => rfl, by simp, by simpa using hlock, hs.setUps, hs.arrived, hs.mutex,
      fun _ => rfl⟩, hframe (fun _ => Iff.rfl) rfl id rfl, h.pending, h.notCalled⟩
  · rename_i hpc
    obtain rfl := Option.some.inj hstep
    rw [hpc] at hlock hpointer
    have hcompiled : s.shared.compiled = true := by simpa using hpointer
    exact ⟨⟨fun _ => hcompiled, by simpa using hcompiled, by simpa using hlock, hs.setUps,
      hs.arrived, hs.mutex, hs.compiled⟩, hframe (fun _ => Iff.rfl) rfl (fun _ => rfl) rfl,
      h.pending, h.notCalled⟩
  · rename_i hpc
    obtain rfl := Option.some.inj hstep
    rw [hpc] at hlock hpointer
    have hcompiled : s.shared.compiled = true := by simpa using hpointer
    have hheld : s.shared.compiledLock = some .background := by simpa using hlock
    exact ⟨⟨hs.published, by simpa using hcompiled, by simp, hs.setUps, hs.arrived, hs.mutex,
      hs.compiled⟩, hframe (by simp [hheld]) rfl id rfl, h.pending, h.notCalled⟩
  · exact absurd hstep (by simp)

/-- A thread that has passed the barrier goes on in the mixed loop. -/
theorem Inv.mixed (h : Inv s) {remaining : ℕ} (hpassed : (s.threads t).pc.passed = true)
    (hth : th.pc.passed = true) (harrivals : th.arrivals = (s.threads t).arrivals)
    (hready : th.fusedReady = (s.threads t).fusedReady)
    (hexit : th.fusedReady = true ∨ th.terminate = true)
    (hrunning : th.pc.inMorsel = true → th.terminate = false) :
    Inv ⟨{ s.shared with remaining := remaining }, Function.update s.threads t th⟩ := by
  have ht := h.thread t
  obtain ⟨harrived, hlock, hmutex⟩ := Pc.of_passed hpassed
  obtain ⟨harrived', hlock', hmutex'⟩ := Pc.of_passed hth
  refine h.local ⟨?_, ?_, ?_, ?_, ?_, ?_, fun _ => hexit, hrunning⟩
    (harrived'.trans harrived.symm)
  · rw [hlock', ← hlock]
    exact ht.lock
  · rw [hmutex', ← hmutex]
    exact ht.mutex
  · rw [harrivals, ht.arrivals, harrived, harrived']
  · rw [Pc.onceAt_of_passed hth, ← Pc.onceAt_of_passed hpassed]
    exact ht.once
  · rw [hready]
    exact ht.published
  · rw [hready]
    exact ht.setUp

/-- A thread that has not arrived goes on in the interpreted loop. -/
theorem Inv.interpret (h : Inv s) {remaining : ℕ} (hbefore : (s.threads t).pc.arrived = false)
    (hunlocked : (s.threads t).pc.holdsLock = false) (hth : th.pc.arrived = false)
    (hth' : th.pc.holdsLock = false) (harrivals : th.arrivals = (s.threads t).arrivals)
    (hready : th.fusedReady = (s.threads t).fusedReady)
    (hexit : th.pc = .arrive → th.fusedReady = true ∨ th.terminate = true)
    (hrunning : th.pc.inMorsel = true → th.terminate = false) :
    Inv ⟨{ s.shared with remaining := remaining }, Function.update s.threads t th⟩ := by
  have ht := h.thread t
  obtain ⟨hmutex, honce⟩ := @Pc.of_not_arrived _ s.shared.once hbefore
  obtain ⟨hmutex', honce'⟩ := @Pc.of_not_arrived _ s.shared.once hth
  refine h.local ⟨?_, ?_, ?_, ?_, ?_, ?_, ?_, hrunning⟩ (hth.trans hbefore.symm)
  · rw [hth', ← hunlocked]
    exact ht.lock
  · rw [hmutex', ← hmutex]
    exact ht.mutex
  · rw [harrivals, ht.arrivals, hbefore, hth]
  · rw [honce', ← honce]
    exact ht.once
  · rw [hready]
    exact ht.published
  · rw [hready]
    exact ht.setUp
  · intro harrive
    rcases harrive with harrived | harrive
    · rw [hth] at harrived
      exact absurd harrived (by simp)
    · exact hexit harrive

/-- The flag of a thread at the mixed loop that has work left. -/
theorem Inv.ready_of_mixed (h : Inv s) (hpassed : (s.threads t).pc.passed = true)
    (hgoes : (s.threads t).terminate = false) : (s.threads t).fusedReady = true := by
  rcases (h.thread t).exit (Or.inl (Pc.of_passed hpassed).1) with hready | hterminate
  · exact hready
  · rw [hgoes] at hterminate
    exact absurd hterminate (by simp)

/-- A thread wakes up when the once function has returned. -/
theorem Inv.wake (h : Inv s) (hpc : (s.threads t).pc = .waiting)
    (hfree : s.shared.mutex = none) (hpending : s.shared.pendingArrivals = 0) :
    Inv ⟨s.shared, Function.update s.threads t { s.threads t with pc := .mixedLoop }⟩ := by
  have ht := h.thread t
  have honce : ∃ b, s.shared.once = .returned b := by
    have hnotCalled := h.notCalled
    have hmutex := h.shared.mutex
    rw [hpending] at hnotCalled
    rw [hfree] at hmutex
    cases hcase : s.shared.once with
    | notCalled =>
      rcases hnotCalled hcase with hlt | hzero
      · omega
      · subst hzero
        exact t.elim0
    | returned b => exact ⟨b, rfl⟩
    | called => exact absurd rfl (hmutex (by simp [hcase, Once.running]))
    | settingUp => exact absurd rfl (hmutex (by simp [hcase, Once.running]))
    | ran b => exact absurd rfl (hmutex (by simp [hcase, Once.running]))
  show Inv ⟨{ s.shared with remaining := s.shared.remaining },
    Function.update s.threads t { s.threads t with pc := .mixedLoop }⟩
  refine h.local ⟨?_, ?_, ?_, honce, ht.published, ht.setUp, ?_, ?_⟩ ?_
  · rw [ht.lock, hpc]
    rfl
  · rw [ht.mutex, hpc]
    rfl
  · rw [ht.arrivals, hpc]
    rfl
  · intro _
    apply ht.exit
    simp [hpc, Pc.arrived]
  · simp [Pc.inMorsel]
  · rw [hpc]
    rfl

theorem Inv.mixedIteration (h : Inv s) {c : Choice}
    (hpassed : (s.threads t).pc.passed = true) (hmorsel : (s.threads t).pc.inMorsel = true) :
    Inv ⟨(runMorsel s.shared c).1,
      Function.update s.threads t (endIteration (s.threads t) c (runMorsel s.shared c).2)⟩ := by
  obtain ⟨remaining, hremaining⟩ := runMorsel_eq s.shared c
  rw [hremaining]
  refine h.mixed hpassed rfl rfl rfl ?_ ?_
  · left
    exact h.ready_of_mixed hpassed ((h.thread t).running hmorsel)
  · simp [endIteration, Pc.inMorsel]

/-- The interpreted loop ends, or goes on with a morsel. -/
theorem Inv.interpretLoop (h : Inv s) (hpc : (s.threads t).pc = .interpretLoop) {pc : Pc}
    (hnext : pc = .arrive ∧ ((s.threads t).fusedReady = true ∨ (s.threads t).terminate = true) ∨
      pc = .interpreting ∧ (s.threads t).terminate = false) :
    Inv ⟨s.shared, Function.update s.threads t { s.threads t with pc := pc }⟩ := by
  have hbefore : (s.threads t).pc.arrived = false := by rw [hpc]; rfl
  have hunlocked : (s.threads t).pc.holdsLock = false := by rw [hpc]; rfl
  rcases hnext with ⟨rfl, hexit⟩ | ⟨rfl, hgoes⟩
  · exact h.interpret hbefore hunlocked rfl rfl rfl rfl (fun _ => hexit) (by simp [Pc.inMorsel])
  · exact h.interpret hbefore hunlocked rfl rfl rfl rfl (by simp) (fun _ => hgoes)

/-- The once function sets up the runner that it finds. -/
theorem Inv.foundRunner (h : Inv s) (hpc : (s.threads t).pc = .onceCheck)
    (hcompiled : s.shared.compiled = true) :
    Inv ⟨{ s.shared with once := .settingUp, setUps := s.shared.setUps + 1 },
      Function.update s.threads t { s.threads t with pc := .settingUp }⟩ := by
  have hlocked : s.shared.compiledLock = some (.swimlane t) :=
    (h.thread t).lock.mpr (by rw [hpc]; rfl)
  have honce := (h.thread t).once
  rw [hpc] at honce
  have hcount := h.shared.setUps
  rw [honce] at hcount
  exact h.onceStep hlocked (by rw [hpc]; rfl) (by rw [honce]; rfl) (by simp) (by rw [hcount]; rfl)
    (fun _ => hcompiled) (fun _ _ => trivial) rfl rfl (Or.inl ⟨hlocked, rfl⟩)

/-- Without a runner no thread has seen the flag, so that none expects a set-up. -/
theorem Inv.missedRunner (h : Inv s) (hpc : (s.threads t).pc = .onceCheck)
    (hmissing : ¬ s.shared.compiled = true) :
    Inv ⟨{ s.shared with once := .ran false },
      Function.update s.threads t { s.threads t with pc := .onceUnlock }⟩ := by
  have hlocked : s.shared.compiledLock = some (.swimlane t) :=
    (h.thread t).lock.mpr (by rw [hpc]; rfl)
  have honce := (h.thread t).once
  rw [hpc] at honce
  have hcount := h.shared.setUps
  rw [honce] at hcount
  have hunready : ∀ u, (s.threads u).fusedReady = true → (Once.ran false).SetUp := by
    intro u hready
    exact absurd (h.shared.published ((h.thread u).published hready)) hmissing
  exact h.onceStep hlocked (by rw [hpc]; rfl) (by rw [honce]; rfl) (by simp) hcount (by simp)
    hunready rfl ⟨false, rfl⟩ (Or.inl ⟨hlocked, rfl⟩)

theorem Inv.setUpDone (h : Inv s) (hpc : (s.threads t).pc = .settingUp) :
    Inv ⟨{ s.shared with once := .ran true },
      Function.update s.threads t { s.threads t with pc := .onceUnlock }⟩ := by
  have hlocked : s.shared.compiledLock = some (.swimlane t) :=
    (h.thread t).lock.mpr (by rw [hpc]; rfl)
  have honce := (h.thread t).once
  rw [hpc] at honce
  have hcount := h.shared.setUps
  rw [honce] at hcount
  exact h.onceStep hlocked (by rw [hpc]; rfl) (by rw [honce]; rfl) (by simp) hcount
    (fun _ => h.shared.compiled (Or.inl honce)) (fun _ _ => rfl) rfl ⟨true, rfl⟩
    (Or.inl ⟨hlocked, rfl⟩)

/-- The once function releases the lock and returns. -/
theorem Inv.onceReturn (h : Inv s) (hpc : (s.threads t).pc = .onceUnlock) :
    Inv ⟨{ s.shared with compiledLock := none, once := .returned (s.shared.once = .ran true) },
      Function.update s.threads t { s.threads t with pc := .leaving }⟩ := by
  have hlocked : s.shared.compiledLock = some (.swimlane t) :=
    (h.thread t).lock.mpr (by rw [hpc]; rfl)
  have honce := (h.thread t).once
  rw [hpc] at honce
  obtain ⟨b, hb⟩ := honce
  have hcount := h.shared.setUps
  rw [hb] at hcount
  have hdid : decide (s.shared.once = .ran true) = b := by
    rw [hb]
    cases b <;> rfl
  rw [hdid]
  refine h.onceStep hlocked (by rw [hpc]; rfl) (by rw [hb]; rfl) (by simp) hcount ?_ ?_ rfl
    ⟨b, rfl⟩ (Or.inr ⟨rfl, rfl⟩)
  · intro hsetUp
    apply h.shared.compiled
    rw [hb]
    simpa using hsetUp
  · intro u hready
    have hsetUp := (h.thread u).setUp hready
    rw [hb] at hsetUp
    exact hsetUp

/-- The mixed loop ends, or goes on with a morsel of either backend. -/
theorem Inv.mixedLoop (h : Inv s) (hpc : (s.threads t).pc = .mixedLoop) {pc : Pc}
    (hpassed : pc.passed = true)
    (hrunning : pc.inMorsel = true → (s.threads t).terminate = false) :
    Inv ⟨s.shared, Function.update s.threads t { s.threads t with pc := pc }⟩ :=
  h.mixed (by rw [hpc]; rfl) hpassed rfl rfl ((h.thread t).exit (Or.inl (by rw [hpc]; rfl)))
    hrunning

/-- Every step of a thread keeps the invariant. -/
theorem swimlaneStep_inv (h : Inv s) {c : Choice}
    (hstep : swimlaneStep s.shared t (s.threads t) c = some (σ', th')) :
    Inv ⟨σ', Function.update s.threads t th'⟩ := by
  cases swimlaneStep_move hstep with
  | loopDone hpc hexit => exact h.interpretLoop hpc (Or.inl ⟨rfl, hexit⟩)
  | loopOn hpc hgoes => exact h.interpretLoop hpc (Or.inr ⟨rfl, hgoes⟩)
  | interpreted hpc =>
    obtain ⟨remaining, hremaining⟩ := runMorsel_eq s.shared c
    rw [hremaining]
    exact h.interpret (by rw [hpc]; rfl) (by rw [hpc]; rfl) rfl rfl rfl rfl (by simp)
      (by simp [Pc.inMorsel])
  | locked hfree hpc => exact h.takeLock hfree hpc
  | flagRead hpc => exact h.readFlag hpc
  | arrived hpc hfree hlast => exact h.arrive hpc hfree hlast
  | foundRunner hpc hcompiled => exact h.foundRunner hpc hcompiled
  | missedRunner hpc hmissing => exact h.missedRunner hpc hmissing
  | setUpDone hpc => exact h.setUpDone hpc
  | onceReturned hpc => exact h.onceReturn hpc
  | left hpc => exact h.leave hpc
  | woken hpc hfree hpending => exact h.wake hpc hfree hpending
  | mixedDone hpc => exact h.mixedLoop hpc rfl (by simp [Pc.inMorsel])
  | mixedOn hpc hgoes hnext =>
    refine h.mixedLoop hpc ?_ fun _ => hgoes
    rcases hnext with rfl | rfl <;> rfl
  | iterated hpc =>
    apply h.mixedIteration
    · rcases hpc with hpc | hpc <;> rw [hpc] <;> rfl
    · rcases hpc with hpc | hpc <;> rw [hpc] <;> rfl

theorem start_inv (N remaining : ℕ) : Inv (start N remaining) := by
  refine ⟨⟨?_, ?_, ?_, rfl, ?_, ?_, ?_⟩, fun t => ⟨?_, ?_, rfl, rfl, ?_, ?_, ?_, ?_⟩, ?_, ?_⟩
  · simp [start]
  · simp [start]
  · simp [start]
  · simp [start]
  · simp [start, Once.running]
  · simp [start]
  · simp [start, Pc.holdsLock]
  · simp [start, Pc.holdsMutex]
  · simp [start]
  · simp [start]
  · simp [start, Pc.arrived]
  · simp [start, Pc.inMorsel]
  · simp [start, Pc.arrived]
  · intro _
    show 0 < N ∨ N = 0
    omega

theorem step_inv (h : Inv s) {a : Action N} {s' : State N} (hstep : step s a = some s') :
    Inv s' := by
  cases a with
  | background =>
    simp only [step, Option.bind_eq_bind, Option.bind_eq_some_iff] at hstep
    obtain ⟨σ, hσ, hs'⟩ := hstep
    obtain rfl := Option.some.inj hs'
    exact backgroundStep_inv h hσ
  | swimlane t c =>
    simp only [step, Option.bind_eq_bind, Option.bind_eq_some_iff] at hstep
    obtain ⟨⟨σ, th⟩, hσ, hs'⟩ := hstep
    obtain rfl := Option.some.inj hs'
    exact swimlaneStep_inv h hσ

/-- The invariant holds in every state of every run. -/
theorem run_inv (h : Inv s) {actions : List (Action N)} {s' : State N}
    (hrun : run s actions = some s') : Inv s' := by
  induction actions generalizing s with
  | nil =>
    obtain rfl := Option.some.inj hrun
    exact h
  | cons a rest ih =>
    simp only [run, Option.bind_eq_bind, Option.bind_eq_some_iff] at hrun
    obtain ⟨s₁, hstep, hrest⟩ := hrun
    exact ih (step_inv h hstep) hrest

end Steps

section Progress

variable {s s' : State N} {σ σ' : Shared N} {t : Fin N} {th th' : Swimlane}

/-- What is left to do before the next morsel. A morsel, or the end of the work, pays for the
way back to the head of a loop. -/
def Pc.rank : Pc → ℕ
  | .readState => 52
  | .readLocked => 51
  | .interpretLoop => 50
  | .interpreting => 49
  | .arrive => 48
  | .onceLock => 47
  | .onceCheck => 46
  | .settingUp => 45
  | .onceUnlock => 44
  | .leaving => 43
  | .waiting => 42
  | .mixedLoop => 20
  | .mixedInterpreting => 19
  | .mixedCompiling => 19
  | .finished => 0

def Background.rank : Background → ℕ
  | .compiling => 4
  | .locked => 3
  | .pointerSet => 2
  | .flagSet => 1
  | .done => 0

def Swimlane.rank (th : Swimlane) : ℕ := th.pc.rank + if th.terminate then 0 else 10

def Shared.rank (σ : Shared N) : ℕ := 10 * σ.remaining + σ.background.rank

def State.rank (s : State N) : ℕ := s.shared.rank + ∑ t, (s.threads t).rank

theorem runMorsel_rank (σ : Shared N) (c : Choice) :
    (runMorsel σ c).1.rank + (if (runMorsel σ c).2 then 0 else 10) ≤ σ.rank := by
  unfold runMorsel Shared.rank
  split
  · rename_i hpick
    have hpos := hpick.2
    split <;> dsimp only <;> omega
  · simp

/-- A step outside of the morsels comes closer to the next one. -/
theorem rank_of_quiet (hremaining : σ'.remaining = σ.remaining)
    (hbackground : σ'.background = σ.background) (hterminate : th'.terminate = th.terminate)
    {pc pc' : Pc} (hpc : th.pc = pc) (hpc' : th'.pc = pc') (hrank : pc'.rank < pc.rank) :
    σ'.rank + th'.rank < σ.rank + th.rank := by
  unfold Shared.rank Swimlane.rank
  rw [hremaining, hbackground, hterminate, hpc, hpc']
  omega

theorem rank_of_morsel {c : Choice} (hgoes : th.terminate = false)
    (hterminate : th'.terminate = (runMorsel σ c).2) {pc pc' : Pc} (hpc : th.pc = pc)
    (hpc' : th'.pc = pc') (hrank : pc'.rank ≤ pc.rank + 3) :
    (runMorsel σ c).1.rank + th'.rank < σ.rank + th.rank := by
  have hmorsel := runMorsel_rank σ c
  unfold Swimlane.rank
  rw [hterminate, hgoes, hpc, hpc']
  simp only [Bool.false_eq_true, if_false]
  omega

theorem swimlaneStep_rank (h : Inv s) {c : Choice}
    (hstep : swimlaneStep s.shared t (s.threads t) c = some (σ', th')) :
    σ'.rank + th'.rank < s.shared.rank + (s.threads t).rank := by
  have hrunning := (h.thread t).running
  cases swimlaneStep_move hstep with
  | loopDone hpc hexit => exact rank_of_quiet rfl rfl rfl hpc rfl (by simp [Pc.rank])
  | loopOn hpc hgoes => exact rank_of_quiet rfl rfl rfl hpc rfl (by simp [Pc.rank])
  | interpreted hpc =>
    exact rank_of_morsel (hrunning (by rw [hpc]; rfl)) rfl hpc rfl (by simp [Pc.rank])
  | locked hfree hpc =>
    rcases hpc with ⟨hpc, rfl⟩ | ⟨hpc, rfl⟩
    · exact rank_of_quiet rfl rfl rfl hpc rfl (by simp [Pc.rank])
    · exact rank_of_quiet rfl rfl rfl hpc rfl (by simp [Pc.rank])
  | flagRead hpc => exact rank_of_quiet rfl rfl rfl hpc rfl (by simp [Pc.rank])
  | @arrived last hpc hfree hlast =>
    cases last with
    | true => exact rank_of_quiet rfl rfl rfl hpc rfl (by simp [Pc.rank])
    | false => exact rank_of_quiet rfl rfl rfl hpc rfl (by simp [Pc.rank])
  | foundRunner hpc hcompiled => exact rank_of_quiet rfl rfl rfl hpc rfl (by simp [Pc.rank])
  | missedRunner hpc hmissing => exact rank_of_quiet rfl rfl rfl hpc rfl (by simp [Pc.rank])
  | setUpDone hpc => exact rank_of_quiet rfl rfl rfl hpc rfl (by simp [Pc.rank])
  | onceReturned hpc => exact rank_of_quiet rfl rfl rfl hpc rfl (by simp [Pc.rank])
  | left hpc => exact rank_of_quiet rfl rfl rfl hpc rfl (by simp [Pc.rank])
  | woken hpc hfree hpending => exact rank_of_quiet rfl rfl rfl hpc rfl (by simp [Pc.rank])
  | mixedDone hpc => exact rank_of_quiet rfl rfl rfl hpc rfl (by simp [Pc.rank])
  | mixedOn hpc hgoes hnext =>
    rcases hnext with rfl | rfl
    · exact rank_of_quiet rfl rfl rfl hpc rfl (by simp [Pc.rank])
    · exact rank_of_quiet rfl rfl rfl hpc rfl (by simp [Pc.rank])
  | iterated hpc =>
    rcases hpc with hpc | hpc
    · exact rank_of_morsel (hrunning (by rw [hpc]; rfl)) rfl hpc rfl
        (by simp [endIteration, Pc.rank])
    · exact rank_of_morsel (hrunning (by rw [hpc]; rfl)) rfl hpc rfl
        (by simp [endIteration, Pc.rank])

theorem backgroundStep_rank (hstep : backgroundStep σ = some σ') : σ'.rank < σ.rank := by
  unfold backgroundStep at hstep
  unfold Shared.rank
  split at hstep
  · rename_i hpc
    split at hstep
    · obtain rfl := Option.some.inj hstep
      simp [hpc, Background.rank]
    · exact absurd hstep (by simp)
  · rename_i hpc
    obtain rfl := Option.some.inj hstep
    simp [hpc, Background.rank]
  · rename_i hpc
    obtain rfl := Option.some.inj hstep
    simp [hpc, Background.rank]
  · rename_i hpc
    obtain rfl := Option.some.inj hstep
    simp [hpc, Background.rank]
  · exact absurd hstep (by simp)

/-- Every step comes closer to the end. -/
theorem step_rank (h : Inv s) {a : Action N} (hstep : step s a = some s') : s'.rank < s.rank := by
  cases a with
  | background =>
    simp only [step, Option.bind_eq_bind, Option.bind_eq_some_iff] at hstep
    obtain ⟨σ, hσ, hs'⟩ := hstep
    obtain rfl := Option.some.inj hs'
    have hlt := backgroundStep_rank hσ
    unfold State.rank
    dsimp only
    omega
  | swimlane t c =>
    simp only [step, Option.bind_eq_bind, Option.bind_eq_some_iff] at hstep
    obtain ⟨⟨σ, th⟩, hσ, hs'⟩ := hstep
    obtain rfl := Option.some.inj hs'
    have hlt := swimlaneStep_rank h hσ
    have hsum : ∀ f : Fin N → Swimlane, ∑ u, (f u).rank =
        (f t).rank + ∑ u ∈ Finset.univ.erase t, (f u).rank :=
      fun f => (Finset.add_sum_erase _ _ (Finset.mem_univ t)).symm
    have hrest : ∑ u ∈ Finset.univ.erase t, (Function.update s.threads t th u).rank =
        ∑ u ∈ Finset.univ.erase t, (s.threads u).rank := by
      refine Finset.sum_congr rfl fun u hu => ?_
      rw [Function.update_of_ne (Finset.ne_of_mem_erase hu)]
    unfold State.rank
    dsimp only
    rw [hsum, hsum s.threads, hrest, Function.update_self]
    omega

/-- A thread that needs no lock, and waits for nobody, can go on. -/
theorem swimlaneStep_isSome (c : Choice)
    (hlock : th.pc = .readState ∨ th.pc = .onceLock → σ.compiledLock = none)
    (hmutex : th.pc = .arrive ∨ th.pc = .waiting → σ.mutex = none)
    (hpending : th.pc = .waiting → σ.pendingArrivals = 0) (hfinished : th.pc ≠ .finished) :
    ∃ r, swimlaneStep σ t th c = some r := by
  rw [← Option.isSome_iff_exists]
  cases hpc : th.pc with
  | readState => simp [swimlaneStep, hpc, hlock (Or.inl hpc)]
  | onceLock => simp [swimlaneStep, hpc, hlock (Or.inr hpc)]
  | arrive =>
    simp only [swimlaneStep, hpc, hmutex (Or.inl hpc), if_true]
    split <;> rfl
  | waiting => simp [swimlaneStep, hpc, hmutex (Or.inr hpc), hpending hpc]
  | finished => exact absurd hpc hfinished
  | interpretLoop =>
    simp only [swimlaneStep, hpc]
    split <;> rfl
  | onceCheck =>
    simp only [swimlaneStep, hpc]
    split <;> rfl
  | mixedLoop =>
    simp only [swimlaneStep, hpc]
    split
    · rfl
    · split <;> rfl
  | interpreting => simp [swimlaneStep, hpc]
  | readLocked => simp [swimlaneStep, hpc]
  | settingUp => simp [swimlaneStep, hpc]
  | onceUnlock => simp [swimlaneStep, hpc]
  | leaving => simp [swimlaneStep, hpc]
  | mixedInterpreting => simp [swimlaneStep, hpc]
  | mixedCompiling => simp [swimlaneStep, hpc]

theorem step_of_swimlane {c : Choice} (h : ∃ r, swimlaneStep s.shared t (s.threads t) c = some r) :
    ∃ a s', step s a = some s' := by
  obtain ⟨⟨σ, th⟩, hσ⟩ := h
  exact ⟨.swimlane t c, ⟨σ, Function.update s.threads t th⟩, by simp [step, hσ]⟩

/-- Somebody can go on until all threads have finished: who holds a lock can, and without
locks only threads wait that others have not arrived with. -/
theorem Inv.progress (h : Inv s) (hunfinished : ∃ t, (s.threads t).pc ≠ .finished) :
    ∃ a s', step s a = some s' := by
  let c : Choice := ⟨false, false, .compiledFar⟩
  cases hlock : s.shared.compiledLock with
  | some holder =>
    cases holder with
    | background =>
      have hbackground := h.shared.lock.mp hlock
      have hgoes : ∃ σ, backgroundStep s.shared = some σ := by
        rcases hbackground with hpc | hpc | hpc <;> simp [backgroundStep, hpc]
      obtain ⟨σ, hσ⟩ := hgoes
      exact ⟨.background, { s with shared := σ }, by simp [step, hσ]⟩
    | swimlane t =>
      have hholds := (h.thread t).lock.mp hlock
      refine step_of_swimlane (t := t) (c := c) (swimlaneStep_isSome c ?_ ?_ ?_ ?_)
      · intro hpc
        rcases hpc with hpc | hpc <;> rw [hpc] at hholds <;> exact absurd hholds (by decide)
      · intro hpc
        rcases hpc with hpc | hpc <;> rw [hpc] at hholds <;> exact absurd hholds (by decide)
      · intro hpc
        rw [hpc] at hholds
        exact absurd hholds (by decide)
      · intro hpc
        rw [hpc] at hholds
        exact absurd hholds (by decide)
  | none =>
    cases hmutex : s.shared.mutex with
    | some t =>
      have hholds := (h.thread t).mutex.mp hmutex
      refine step_of_swimlane (t := t) (c := c) (swimlaneStep_isSome c (fun _ => hlock) ?_ ?_ ?_)
      · intro hpc
        rcases hpc with hpc | hpc <;> rw [hpc] at hholds <;> exact absurd hholds (by decide)
      · intro hpc
        rw [hpc] at hholds
        exact absurd hholds (by decide)
      · intro hpc
        rw [hpc] at hholds
        exact absurd hholds (by decide)
    | none =>
      by_cases hpending : s.shared.pendingArrivals = 0
      · obtain ⟨t, ht⟩ := hunfinished
        exact step_of_swimlane (t := t) (c := c)
          (swimlaneStep_isSome c (fun _ => hlock) (fun _ => hmutex) (fun _ => hpending) ht)
      · rw [h.pending] at hpending
        obtain ⟨t, ht⟩ := Finset.card_pos.mp (Nat.pos_of_ne_zero hpending)
        have hbefore := (Finset.mem_filter.mp ht).2
        refine step_of_swimlane (t := t) (c := c)
          (swimlaneStep_isSome c (fun _ => hlock) (fun _ => hmutex) ?_ ?_)
        · intro hpc
          rw [hpc] at hbefore
          exact absurd hbefore (by decide)
        · intro hpc
          rw [hpc] at hbefore
          exact absurd hbefore (by decide)

end Progress

/-- The hybrid switch in every state that any number of threads reach, for every number of
morsels, every assignment of them to threads, every moment of the publication and every
order of the steps: a thread arrives at the barrier at most once, and exactly once when it has
finished; the runner is set up at most once, after all threads arrived and while no thread runs
a morsel; a thread that passes the barrier finds the once function returned, and one that runs
a compiled morsel finds a published runner that was set up. Steps lead to the end of all
threads. -/
theorem hybrid_switch_safe {N remaining : ℕ} {actions : List (Action N)} {s : State N}
    (hrun : run (start N remaining) actions = some s) :
    (∀ t, (s.threads t).arrivals ≤ 1 ∧
      ((s.threads t).pc = .finished → (s.threads t).arrivals = 1)) ∧
    s.shared.setUps ≤ 1 ∧
    (0 < s.shared.setUps → ∀ t, (s.threads t).arrivals = 1) ∧
    (∀ t u, (s.threads t).pc = .settingUp → (s.threads u).pc.inMorsel = false) ∧
    (∀ t, (s.threads t).pc = .mixedCompiling →
      s.shared.compiled = true ∧ s.shared.setUps = 1 ∧ ∀ u, (s.threads u).pc ≠ .settingUp) ∧
    (∀ t, (s.threads t).pc.passed = true → ∃ b, s.shared.once = .returned b) ∧
    ((∃ t, (s.threads t).pc ≠ .finished) → ∃ a s', step s a = some s') ∧
    (∀ a s', step s a = some s' → s'.rank < s.rank) := by
  have h := run_inv (start_inv N remaining) hrun
  have hpassed : ∀ t, (s.threads t).pc.passed = true → ∃ b, s.shared.once = .returned b :=
    fun t ht => (Pc.onceAt_of_passed ht).mp (h.thread t).once
  refine ⟨fun t => ⟨?_, ?_⟩, ?_, ?_, ?_, ?_, hpassed, h.progress, fun a s' => step_rank h⟩
  · rw [(h.thread t).arrivals]
    split <;> omega
  · intro hpc
    rw [(h.thread t).arrivals, hpc]
    rfl
  · rw [h.shared.setUps]
    cases s.shared.once with
    | notCalled => exact Nat.zero_le 1
    | called => exact Nat.zero_le 1
    | settingUp => exact Nat.le_refl 1
    | ran b => exact Bool.toNat_le b
    | returned b => exact Bool.toNat_le b
  · intro hsetUp t
    have hcalled : s.shared.once ≠ .notCalled := by
      intro hnot
      rw [h.shared.setUps, hnot] at hsetUp
      exact absurd hsetUp (by decide)
    rw [(h.thread t).arrivals, h.all_arrived (h.shared.arrived hcalled) t]
    rfl
  · intro t u hpc
    have honce := (h.thread t).once
    rw [hpc] at honce
    have hmutex : s.shared.mutex = some t := by
      rw [(h.thread t).mutex, hpc]
      rfl
    have hrunning : s.shared.once.running = true := by
      rw [show s.shared.once = .settingUp from honce]
      rfl
    by_cases hut : u = t
    · rw [hut, hpc]
      rfl
    · rw [h.others_wait hrunning hmutex hut]
      rfl
  · intro t hpc
    have hpass : (s.threads t).pc.passed = true := by
      rw [hpc]
      rfl
    obtain ⟨b, hb⟩ := hpassed t hpass
    have hready := h.ready_of_mixed hpass ((h.thread t).running (by rw [hpc]; rfl))
    have hsetUp := (h.thread t).setUp hready
    rw [hb] at hsetUp
    have htrue : b = true := hsetUp
    subst htrue
    refine ⟨h.shared.compiled (Or.inr (Or.inr hb)), ?_, ?_⟩
    · rw [h.shared.setUps, hb]
      rfl
    · intro u hu
      have honce := (h.thread u).once
      rw [hu, hb] at honce
      exact absurd honce (by simp [Pc.OnceAt])

/-- Two threads meet at the barrier and one of them runs a compiled morsel after it. -/
theorem hybrid_switch_two_threads :
    let c : Choice := ⟨true, false, .compiledFar⟩
    ∃ s, run (start 2 3) (List.replicate 4 .background ++ List.replicate 6 (.swimlane 0 c) ++
        List.replicate 11 (.swimlane 1 c) ++ List.replicate 2 (.swimlane 0 c)) = some s ∧
      (s.threads 0).pc = .mixedCompiling ∧ s.shared.compiled = true ∧ s.shared.setUps = 1 := by
  intro c
  have hpc : (run (start 2 3) (List.replicate 4 .background ++ List.replicate 6 (.swimlane 0 c) ++
      List.replicate 11 (.swimlane 1 c) ++ List.replicate 2 (.swimlane 0 c))).map
        (fun s => (s.threads 0).pc) = some .mixedCompiling := by
    decide +kernel
  obtain ⟨s, hrun, hcompiling⟩ := Option.map_eq_some_iff.mp hpc
  obtain ⟨hcompiled, hsetUps, _⟩ := (hybrid_switch_safe hrun).2.2.2.2.1 0 hcompiling
  exact ⟨s, hrun, hcompiling, hcompiled, hsetUps⟩

end InkFuse.Exec.HybridSwitch
