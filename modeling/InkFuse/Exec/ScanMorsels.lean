import InkFuse.Exec.HybridScan
import Mathlib.Data.Finset.Card
import Mathlib.Data.Fintype.Card

/-!
The morsels of a table scan. Interpreted and compiled runners of all threads share one
`TScanDriver`, whose cursor is advanced atomically and which keeps a state for each thread.
In an interpreted morsel the first interpreter picks, and every `TScanIUProvider` binds its
column to the state that the pick left for its thread.
-/

namespace InkFuse.Exec

/-- A range of rows, which is also what a `LoopDriverState` holds. -/
structure Morsel where
  start : ℕ
  stop : ℕ
  deriving DecidableEq, Repr

/-- A pipeline over a table. `interpreters` says for the interpreter of a `TScanIUProvider`
which column it provides; the first interpreter is one, since its driver has none. -/
structure TScan (n : ℕ) where
  relSize : ℕ
  chunkSize : ℕ
  chunkSize_pos : 0 < chunkSize
  interpreters : List (Option (Fin n))
  first_provides : ∃ c rest, interpreters = some c :: rest

/-- What a thread does: it has fetched a cursor value for a runner, runs a morsel, or stopped,
because there were no more morsels or because the output was closed. -/
inductive ScanLane
  | idle
  | fetched (compiled : Bool) (morselStart : ℕ)
  | interpreting (ran : ℕ) (morsel : Morsel)
  | compiled (morsel : Morsel)
  | exhausted
  | closed
  deriving DecidableEq, Repr

/-- `picked` records the morsels of all threads. -/
structure TScanState (T n : ℕ) where
  startIdx : ℕ
  drivers : Fin T → Morsel
  columns : Fin T → Fin n → Column
  lanes : Fin T → ScanLane
  picked : List (Fin T × Morsel)

variable {T n : ℕ}

namespace TScanState

def morsels (s : TScanState T n) (t : Fin T) : List Morsel :=
  (s.picked.filter fun q => q.1 = t).map Prod.snd

def setLane (s : TScanState T n) (t : Fin T) (l : ScanLane) : TScanState T n :=
  { s with lanes := Function.update s.lanes t l }

/-- `InterpretedRunner::runZeroCopyScan` of the provider of column `c`. -/
def runZeroCopyScan (s : TScanState T n) (t : Fin T) (c : Fin n) : TScanState T n :=
  let driverState := s.drivers t
  let column := ⟨.base driverState.start, driverState.stop - driverState.start⟩
  { s with columns := Function.update s.columns t (Function.update (s.columns t) c column) }

/-- `ExecutionContext::clear` -/
def cleanUp (s : TScanState T n) (t : Fin T) : TScanState T n :=
  { s with columns := Function.update s.columns t fun c => { s.columns t c with size := 0 } }

end TScanState

/-- The steps of the threads. A thread that is idle goes on with either runner. -/
inductive ScanAction (T : ℕ)
  | fetch (t : Fin T) (compiled : Bool)
  | bind (t : Fin T)
  | runInterpreter (t : Fin T)
  | finish (t : Fin T) (closed : Bool)
  deriving DecidableEq, Repr

namespace TScan

variable (p : TScan n)

def start (T : ℕ) : TScanState T n where
  startIdx := 0
  drivers := fun _ => ⟨0, 0⟩
  columns := fun _ _ => ⟨.chunk, 0⟩
  lanes := fun _ => .idle
  picked := []

/-- The atomic part of `TScanDriver::pickMorsel`, `start_idx.fetch_add(DEFAULT_CHUNK_SIZE)`. -/
def fetch (s : TScanState T n) (t : Fin T) (compiled : Bool) : TScanState T n :=
  ({ s with startIdx := s.startIdx + p.chunkSize }).setLane t (.fetched compiled s.startIdx)

/-- The rest of `TScanDriver::pickMorsel`, which works on the state of its thread. -/
def bind (s : TScanState T n) (t : Fin T) (compiled : Bool) (morselStart : ℕ) : TScanState T n :=
  if p.relSize ≤ morselStart then
    s.setLane t .exhausted
  else
    let morsel := ⟨morselStart, min (morselStart + p.chunkSize) p.relSize⟩
    ({ s with
      drivers := Function.update s.drivers t morsel
      picked := s.picked ++ [(t, morsel)] }).setLane t
        (if compiled then .compiled morsel else .interpreting 0 morsel)

/-- The next interpreter of an interpreted morsel. `InterpretedRunner::pickMorsel` picks for the
first provider only; the interpreters of other suboperators leave the scan alone. -/
def runInterpreter (s : TScanState T n) (t : Fin T) (interpreter : Option (Fin n)) :
    TScanState T n :=
  match interpreter with
  | some c => s.runZeroCopyScan t c
  | none => s

def step (s : TScanState T n) : ScanAction T → Option (TScanState T n)
  | .fetch t compiled =>
    if s.lanes t = .idle then some (p.fetch s t compiled) else none
  | .bind t =>
    match s.lanes t with
    | .fetched compiled morselStart => some (p.bind s t compiled morselStart)
    | _ => none
  | .runInterpreter t =>
    match s.lanes t with
    | .interpreting ran morsel =>
      match p.interpreters[ran]? with
      | some interpreter =>
        some ((runInterpreter s t interpreter).setLane t (.interpreting (ran + 1) morsel))
      | none => none
    | _ => none
  | .finish t closed =>
    match s.lanes t with
    | .interpreting ran _ =>
      if ran = p.interpreters.length then
        some (if closed then s.setLane t .closed else (s.cleanUp t).setLane t .idle)
      else none
    | .compiled _ => some (if closed then s.setLane t .closed else (s.cleanUp t).setLane t .idle)
    | _ => none

def run (s : TScanState T n) : List (ScanAction T) → Option (TScanState T n)
  | [] => some s
  | a :: actions => do
    let s ← p.step s a
    run s actions

/-- The threads whose last fetch was behind the table. -/
def Behind : ScanLane → Prop
  | .fetched _ morselStart => p.relSize ≤ morselStart
  | .exhausted => True
  | _ => False

instance : DecidablePred p.Behind := fun l => by
  cases l <;> unfold Behind <;> infer_instance

/-- What a morsel in progress relies on: the driver state is the last morsel of the thread, and
the providers that have run expose it. -/
def LaneOk (s : TScanState T n) (t : Fin T) : ScanLane → Prop
  | .interpreting ran morsel =>
    s.drivers t = morsel ∧ (s.morsels t).getLast? = some morsel ∧
      ∀ j c, j < ran → p.interpreters[j]? = some (some c) →
        s.columns t c = ⟨.base morsel.start, morsel.stop - morsel.start⟩
  | .compiled morsel => s.drivers t = morsel ∧ (s.morsels t).getLast? = some morsel
  | _ => True

/-- The cursor is a multiple of the chunk size. Every multiple below it was handed to one
thread, which has made a morsel of it or is about to. -/
structure Inv (s : TScanState T n) : Prop where
  cursor : ∃ m, s.startIdx = m * p.chunkSize
  fetched : ∀ t compiled a, s.lanes t = .fetched compiled a →
    a < s.startIdx ∧ p.chunkSize ∣ a ∧ ∀ q ∈ s.picked, q.2.start ≠ a
  distinct : ∀ t u c d a, s.lanes t = .fetched c a → s.lanes u = .fetched d a → t = u
  picked : ∀ q ∈ s.picked, q.2.start < s.startIdx ∧ p.chunkSize ∣ q.2.start ∧
    q.2.start < p.relSize ∧ q.2.stop = min (q.2.start + p.chunkSize) p.relSize
  nodup : (s.picked.map fun q => q.2.start).Nodup
  handed : ∀ a, p.chunkSize ∣ a → a < s.startIdx → a < p.relSize →
    (∃ q ∈ s.picked, q.2.start = a) ∨ ∃ t compiled, s.lanes t = .fetched compiled a
  exhausted : ∀ t, s.lanes t = .exhausted → p.relSize ≤ s.startIdx
  lane : ∀ t, p.LaneOk s t (s.lanes t)
  bounded : s.startIdx ≤ p.relSize + p.chunkSize *
    (1 + (Finset.univ.filter fun t => p.Behind (s.lanes t)).card)

section Steps

variable {p} {s s' : TScanState T n} {t : Fin T} {l : ScanLane} {actions : List (ScanAction T)}

theorem start_inv (p : TScan n) (T : ℕ) : p.Inv (start T) := by
  refine ⟨⟨0, by simp [start]⟩, ?_, ?_, ?_, ?_, ?_, ?_, ?_, ?_⟩
  · simp [start]
  · simp [start]
  · simp [start]
  · simp [start]
  · simp [start]
  · simp [start]
  · intro t
    trivial
  · simp [start]

/-- A step inside of a morsel: the cursor and the picked morsels stay. -/
theorem Inv.quiet (h : p.Inv s) (hcursor : s'.startIdx = s.startIdx)
    (hpicked : s'.picked = s.picked) (hlanes : s'.lanes = Function.update s.lanes t l)
    (hold : ∀ c a, s.lanes t ≠ .fetched c a) (hnew : ∀ c a, l ≠ .fetched c a)
    (hexhausted : l ≠ .exhausted) (hbehind : p.Behind l ↔ p.Behind (s.lanes t))
    (hlane : p.LaneOk s' t l) (hother : ∀ u, u ≠ t → p.LaneOk s' u (s.lanes u)) : p.Inv s' := by
  have hsame : ∀ u c a, s'.lanes u = .fetched c a ↔ s.lanes u = .fetched c a := by
    intro u c a
    rw [hlanes]
    by_cases hut : u = t
    · subst hut
      rw [Function.update_self]
      exact iff_of_false (hnew c a) (hold c a)
    · rw [Function.update_of_ne hut]
  refine ⟨hcursor ▸ h.cursor, ?_, ?_, ?_, hpicked ▸ h.nodup, ?_, ?_, ?_, ?_⟩
  · intro u c a hu
    rw [hcursor, hpicked]
    exact h.fetched u c a ((hsame u c a).mp hu)
  · intro u v c d a hu hv
    exact h.distinct u v c d a ((hsame u c a).mp hu) ((hsame v d a).mp hv)
  · rw [hcursor, hpicked]
    exact h.picked
  · intro a hdvd ha hlt
    rw [hcursor] at ha
    rw [hpicked]
    rcases h.handed a hdvd ha hlt with hpick | ⟨u, c, hu⟩
    · exact Or.inl hpick
    · exact Or.inr ⟨u, c, (hsame u c a).mpr hu⟩
  · intro u hu
    rw [hcursor]
    rw [hlanes] at hu
    by_cases hut : u = t
    · subst hut
      rw [Function.update_self] at hu
      exact absurd hu hexhausted
    · rw [Function.update_of_ne hut] at hu
      exact h.exhausted u hu
  · intro u
    rw [hlanes]
    by_cases hut : u = t
    · subst hut
      simpa using hlane
    · simpa [Function.update_of_ne hut] using hother u hut
  · have hfilter : (Finset.univ.filter fun u => p.Behind (s'.lanes u)) =
        Finset.univ.filter fun u => p.Behind (s.lanes u) := by
      apply Finset.filter_congr
      intro u _
      rw [hlanes]
      by_cases hut : u = t
      · subst hut
        rw [Function.update_self, hbehind]
      · rw [Function.update_of_ne hut]
    rw [hcursor, hfilter]
    exact h.bounded

theorem LaneOk.mono (h : p.LaneOk s t l) (hdrivers : s'.drivers t = s.drivers t)
    (hcolumns : s'.columns t = s.columns t) (hmorsels : s'.morsels t = s.morsels t) :
    p.LaneOk s' t l := by
  cases l with
  | interpreting ran morsel =>
    obtain ⟨hdriver, hlast, hexposed⟩ := h
    refine ⟨hdrivers.trans hdriver, hmorsels ▸ hlast, ?_⟩
    rw [hcolumns]
    exact hexposed
  | compiled morsel =>
    obtain ⟨hdriver, hlast⟩ := h
    exact ⟨hdrivers.trans hdriver, hmorsels ▸ hlast⟩
  | idle => trivial
  | fetched compiled a => trivial
  | exhausted => trivial
  | closed => trivial

/-- Threads that have fetched behind the table after a fetch. -/
theorem card_behind_insert {lanes : Fin T → ScanLane} (hbefore : ¬ p.Behind (lanes t))
    (hafter : p.Behind l) :
    (Finset.univ.filter fun u => p.Behind (Function.update lanes t l u)).card =
      (Finset.univ.filter fun u => p.Behind (lanes u)).card + 1 := by
  have hinsert : (Finset.univ.filter fun u => p.Behind (Function.update lanes t l u)) =
      insert t (Finset.univ.filter fun u => p.Behind (lanes u)) := by
    ext u
    by_cases hut : u = t
    · subst hut
      simp [hafter]
    · simp [hut]
  rw [hinsert, Finset.card_insert_of_notMem]
  simp [hbefore]

theorem filter_behind_congr {lanes : Fin T → ScanLane} (hsame : p.Behind l ↔ p.Behind (lanes t)) :
    (Finset.univ.filter fun u => p.Behind (Function.update lanes t l u)) =
      Finset.univ.filter fun u => p.Behind (lanes u) := by
  apply Finset.filter_congr
  intro u _
  by_cases hut : u = t
  · subst hut
    rw [Function.update_self, hsame]
  · rw [Function.update_of_ne hut]

/-- The cursor hands out a new multiple of the chunk size. -/
theorem Inv.fetch (h : p.Inv s) (hidle : s.lanes t = .idle) (compiled : Bool) :
    p.Inv (p.fetch s t compiled) := by
  have hpos := p.chunkSize_pos
  obtain ⟨m, hm⟩ := h.cursor
  have hlanes : ∀ u c a, (p.fetch s t compiled).lanes u = .fetched c a ↔
      u = t ∧ c = compiled ∧ a = s.startIdx ∨ u ≠ t ∧ s.lanes u = .fetched c a := by
    intro u c a
    by_cases hut : u = t
    · subst hut
      simp [TScan.fetch, TScanState.setLane, eq_comm]
    · simp [TScan.fetch, TScanState.setLane, hut]
  refine ⟨⟨m + 1, ?_⟩, ?_, ?_, ?_, h.nodup, ?_, ?_, ?_, ?_⟩
  · show s.startIdx + p.chunkSize = _
    rw [hm, Nat.succ_mul]
  · intro u c a hu
    rcases (hlanes u c a).mp hu with ⟨_, _, rfl⟩ | ⟨_, hold⟩
    · refine ⟨Nat.lt_add_of_pos_right hpos, ⟨m, by rw [hm, Nat.mul_comm]⟩, fun q hq => ?_⟩
      exact ((h.picked q hq).1).ne
    · obtain ⟨hlt, hdvd, hne⟩ := h.fetched u c a hold
      exact ⟨Nat.lt_add_right _ hlt, hdvd, hne⟩
  · intro u v c d a hu hv
    rcases (hlanes u c a).mp hu with ⟨hut, _, ha⟩ | ⟨_, hold⟩ <;>
      rcases (hlanes v d a).mp hv with ⟨hvt, _, ha'⟩ | ⟨_, hold'⟩
    · exact hut.trans hvt.symm
    · exact absurd ha ((h.fetched v d a hold').1).ne
    · exact absurd ha' ((h.fetched u c a hold).1).ne
    · exact h.distinct u v c d a hold hold'
  · intro q hq
    obtain ⟨hlt, hrest⟩ := h.picked q hq
    exact ⟨Nat.lt_add_right _ hlt, hrest⟩
  · intro a hdvd ha hlt
    by_cases hold : a < s.startIdx
    · rcases h.handed a hdvd hold hlt with hpick | ⟨u, c, hu⟩
      · exact Or.inl hpick
      · refine Or.inr ⟨u, c, (hlanes u c a).mpr (Or.inr ⟨?_, hu⟩)⟩
        rintro rfl
        rw [hidle] at hu
        exact absurd hu (by simp)
    · have heq : a = s.startIdx := by
        obtain ⟨k, rfl⟩ := hdvd
        replace ha : p.chunkSize * k < s.startIdx + p.chunkSize := ha
        rw [hm] at ha hold ⊢
        rw [Nat.mul_comm p.chunkSize k] at ha hold ⊢
        rw [← Nat.succ_mul] at ha
        have hk := Nat.lt_of_mul_lt_mul_right ha
        have hk' := Nat.le_of_mul_le_mul_right (Nat.not_lt.mp hold) hpos
        rw [show k = m by omega]
      exact Or.inr ⟨t, compiled, (hlanes t compiled a).mpr (Or.inl ⟨rfl, rfl, heq⟩)⟩
  · intro u hu
    have hold : s.lanes u = .exhausted := by
      by_cases hut : u = t
      · subst hut
        simp [TScan.fetch, TScanState.setLane] at hu
      · simpa [TScan.fetch, TScanState.setLane, hut] using hu
    exact (h.exhausted u hold).trans (Nat.le_add_right _ _)
  · intro u
    by_cases hut : u = t
    · subst hut
      simp [TScan.fetch, TScanState.setLane, LaneOk]
    · have hlane : (p.fetch s t compiled).lanes u = s.lanes u := by
        simp [TScan.fetch, TScanState.setLane, hut]
      rw [hlane]
      exact (h.lane u).mono rfl rfl rfl
  · have hbounded := h.bounded
    show s.startIdx + p.chunkSize ≤ _
    by_cases hbehind : p.relSize ≤ s.startIdx
    · have hcard : (Finset.univ.filter fun u => p.Behind ((p.fetch s t compiled).lanes u)).card =
          (Finset.univ.filter fun u => p.Behind (s.lanes u)).card + 1 :=
        card_behind_insert (by rw [hidle]; exact id) hbehind
      rw [hcard, ← Nat.add_assoc, Nat.mul_add _ _ 1]
      omega
    · rw [Nat.mul_add]
      omega

/-- Who has a fetched cursor value when a thread goes on to a lane without one. -/
theorem fetched_of_update {lanes : Fin T → ScanLane} (hl : ∀ c b, l ≠ .fetched c b) {u : Fin T}
    {c : Bool} {b : ℕ} (hu : Function.update lanes t l u = .fetched c b) :
    u ≠ t ∧ lanes u = .fetched c b := by
  by_cases hut : u = t
  · rw [hut, Function.update_self] at hu
    exact absurd hu (hl c b)
  · rw [Function.update_of_ne hut] at hu
    exact ⟨hut, hu⟩

/-- A thread that has fetched a value behind the table stops. -/
theorem Inv.exhaust (h : p.Inv s) {compiled : Bool} {a : ℕ}
    (hfetched : s.lanes t = .fetched compiled a) (hend : p.relSize ≤ a) :
    p.Inv (s.setLane t .exhausted) := by
  have hlt := (h.fetched t compiled a hfetched).1
  have hlanes : ∀ u c b, (s.setLane t .exhausted).lanes u = .fetched c b →
      u ≠ t ∧ s.lanes u = .fetched c b := fun u c b hu => fetched_of_update (by simp) hu
  refine ⟨h.cursor, ?_, ?_, h.picked, h.nodup, ?_, ?_, ?_, ?_⟩
  · intro u c b hu
    exact h.fetched u c b (hlanes u c b hu).2
  · intro u v c d b hu hv
    exact h.distinct u v c d b (hlanes u c b hu).2 (hlanes v d b hv).2
  · intro b hdvd hb hltb
    rcases h.handed b hdvd hb hltb with hpick | ⟨u, c, hu⟩
    · exact Or.inl hpick
    · have hut : u ≠ t := by
        rintro rfl
        rw [hfetched, ScanLane.fetched.injEq] at hu
        omega
      exact Or.inr ⟨u, c, (Function.update_of_ne hut ..).trans hu⟩
  · intro u _
    exact hend.trans hlt.le
  · intro u
    by_cases hut : u = t
    · subst hut
      simp [TScanState.setLane, LaneOk]
    · have hlane : (s.setLane t .exhausted).lanes u = s.lanes u := Function.update_of_ne hut ..
      rw [hlane]
      exact (h.lane u).mono rfl rfl rfl
  · have hsame : p.Behind .exhausted ↔ p.Behind (s.lanes t) := by
      rw [hfetched]
      exact iff_of_true trivial hend
    show s.startIdx ≤ p.relSize + p.chunkSize *
      (1 + (Finset.univ.filter fun u => p.Behind (Function.update s.lanes t .exhausted u)).card)
    rw [filter_behind_congr hsame]
    exact h.bounded

/-- The morsel of a fetched value starts where no other morsel does. -/
theorem Inv.nodup_pick (h : p.Inv s) {compiled : Bool} {morsel : Morsel}
    (hfetched : s.lanes t = .fetched compiled morsel.start) :
    ((s.picked ++ [(t, morsel)]).map fun q => q.2.start).Nodup := by
  rw [List.map_append, List.nodup_append]
  refine ⟨h.nodup, by simp, ?_⟩
  intro b hb c hc
  obtain ⟨q, hq, rfl⟩ := List.mem_map.mp hb
  rw [List.map_singleton, List.mem_singleton] at hc
  rw [hc]
  exact (h.fetched t compiled _ hfetched).2.2 q hq

/-- A picked morsel takes the place of the fetched value. -/
theorem Inv.handed_pick (h : p.Inv s) {compiled : Bool} {morsel : Morsel}
    (hfetched : s.lanes t = .fetched compiled morsel.start) {b : ℕ} (hdvd : p.chunkSize ∣ b)
    (hb : b < s.startIdx) (hlt : b < p.relSize) :
    (∃ q ∈ s.picked ++ [(t, morsel)], q.2.start = b) ∨
      ∃ u c, Function.update s.lanes t l u = .fetched c b := by
  rcases h.handed b hdvd hb hlt with ⟨q, hq, hstart⟩ | ⟨u, c, hu⟩
  · exact Or.inl ⟨q, List.mem_append_left _ hq, hstart⟩
  · by_cases hut : u = t
    · subst hut
      rw [hfetched, ScanLane.fetched.injEq] at hu
      exact Or.inl ⟨_, List.mem_append_right _ (List.mem_singleton_self _), hu.2⟩
    · exact Or.inr ⟨u, c, (Function.update_of_ne hut ..).trans hu⟩

/-- A thread picks the morsel of its fetched value. -/
theorem Inv.pick (h : p.Inv s) {compiled : Bool} {morsel : Morsel}
    (hfetched : s.lanes t = .fetched compiled morsel.start) (hmore : morsel.start < p.relSize)
    (hstop : morsel.stop = min (morsel.start + p.chunkSize) p.relSize)
    (hl : l = .compiled morsel ∨ l = .interpreting 0 morsel) :
    p.Inv (({ s with
      drivers := Function.update s.drivers t morsel
      picked := s.picked ++ [(t, morsel)] }).setLane t l) := by
  obtain ⟨hlt, hdvd, _⟩ := h.fetched t compiled _ hfetched
  have hnofetch : ∀ c b, l ≠ .fetched c b := by
    intro c b
    rcases hl with rfl | rfl <;> simp
  set s' : TScanState T n := ({ s with
    drivers := Function.update s.drivers t morsel
    picked := s.picked ++ [(t, morsel)] }).setLane t l
  have hself : s'.lanes t = l := Function.update_self ..
  have hother : ∀ u, u ≠ t → s'.lanes u = s.lanes u := fun u hut => Function.update_of_ne hut ..
  have hlanes : ∀ u c b, s'.lanes u = .fetched c b → u ≠ t ∧ s.lanes u = .fetched c b :=
    fun u c b hu => fetched_of_update hnofetch hu
  refine ⟨h.cursor, ?_, ?_, ?_, ?_, ?_, ?_, ?_, ?_⟩
  · intro u c b hu
    obtain ⟨hut, hold⟩ := hlanes u c b hu
    obtain ⟨hltb, hdvdb, hne⟩ := h.fetched u c b hold
    refine ⟨hltb, hdvdb, fun q hq => ?_⟩
    rcases List.mem_append.mp hq with hq | hq
    · exact hne q hq
    · rw [List.mem_singleton.mp hq]
      rintro rfl
      exact hut (h.distinct u t c compiled _ hold hfetched)
  · intro u v c d b hu hv
    exact h.distinct u v c d b (hlanes u c b hu).2 (hlanes v d b hv).2
  · intro q hq
    rcases List.mem_append.mp hq with hq | hq
    · exact h.picked q hq
    · rw [List.mem_singleton.mp hq]
      exact ⟨hlt, hdvd, hmore, hstop⟩
  · exact h.nodup_pick hfetched
  · intro b hdvdb hb hltb
    exact h.handed_pick hfetched hdvdb hb hltb
  · intro u hu
    by_cases hut : u = t
    · rw [hut, hself] at hu
      rcases hl with rfl | rfl <;> cases hu
    · exact h.exhausted u (hother u hut ▸ hu)
  · intro u
    by_cases hut : u = t
    · subst hut
      have hdriver : s'.drivers u = morsel := Function.update_self ..
      have hlast : (s'.morsels u).getLast? = some morsel := by
        simp [s', TScanState.morsels, TScanState.setLane]
      rw [hself]
      rcases hl with rfl | rfl
      · exact ⟨hdriver, hlast⟩
      · exact ⟨hdriver, hlast, fun j c hj => absurd hj (Nat.not_lt_zero j)⟩
    · rw [hother u hut]
      refine (h.lane u).mono (Function.update_of_ne hut ..) rfl ?_
      simp [s', TScanState.morsels, TScanState.setLane, Ne.symm hut]
  · have hsame : p.Behind l ↔ p.Behind (s.lanes t) := by
      rw [hfetched]
      rcases hl with rfl | rfl <;> exact iff_of_false id (Nat.not_le.mpr hmore)
    show s.startIdx ≤ p.relSize + p.chunkSize *
      (1 + (Finset.univ.filter fun u => p.Behind (Function.update s.lanes t l u)).card)
    rw [filter_behind_congr hsame]
    exact h.bounded

/-- The state of a thread that picked a morsel. -/
theorem Inv.bind (h : p.Inv s) {compiled : Bool} {a : ℕ}
    (hfetched : s.lanes t = .fetched compiled a) : p.Inv (p.bind s t compiled a) := by
  unfold TScan.bind
  by_cases hend : p.relSize ≤ a
  · rw [if_pos hend]
    exact h.exhaust hfetched hend
  · rw [if_neg hend]
    apply h.pick hfetched (Nat.not_le.mp hend) rfl
    cases compiled with
    | true => exact Or.inl rfl
    | false => exact Or.inr rfl

/-- A provider exposes the range that its thread's driver state holds. -/
theorem Inv.runInterpreter (h : p.Inv s) {ran : ℕ} {morsel : Morsel}
    {interpreter : Option (Fin n)} (hlane : s.lanes t = .interpreting ran morsel)
    (hget : p.interpreters[ran]? = some interpreter) :
    p.Inv ((runInterpreter s t interpreter).setLane t (.interpreting (ran + 1) morsel)) := by
  set s' := (TScan.runInterpreter s t interpreter).setLane t (.interpreting (ran + 1) morsel)
  have hok : p.LaneOk s t (.interpreting ran morsel) := hlane ▸ h.lane t
  obtain ⟨hdriver, hlast, hexposed⟩ := hok
  have hstate : s'.startIdx = s.startIdx ∧ s'.picked = s.picked ∧ s'.drivers = s.drivers ∧
      s'.lanes = Function.update s.lanes t (.interpreting (ran + 1) morsel) := by
    cases interpreter <;> exact ⟨rfl, rfl, rfl, rfl⟩
  obtain ⟨hcursor, hpicked, hdrivers, hlanes⟩ := hstate
  have hmorsels : ∀ u, s'.morsels u = s.morsels u := fun u => by
    rw [TScanState.morsels, hpicked, TScanState.morsels]
  apply h.quiet hcursor hpicked hlanes
  · simp [hlane]
  · simp
  · simp
  · rw [hlane]
    exact Iff.rfl
  · refine ⟨hdrivers ▸ hdriver, hmorsels t ▸ hlast, ?_⟩
    intro j c hj hprovides
    cases interpreter with
    | none =>
      have hne : j ≠ ran := by
        rintro rfl
        simp [hget] at hprovides
      exact hexposed j c (by omega) hprovides
    | some d =>
      show Function.update s.columns t (Function.update (s.columns t) d
        ⟨.base (s.drivers t).start, (s.drivers t).stop - (s.drivers t).start⟩) t c = _
      rw [Function.update_self, hdriver]
      by_cases hcd : c = d
      · rw [hcd, Function.update_self]
      · rw [Function.update_of_ne hcd]
        have hne : j ≠ ran := by
          rintro rfl
          rw [hget] at hprovides
          exact hcd (Option.some.inj (Option.some.inj hprovides)).symm
        exact hexposed j c (by omega) hprovides
  · intro u hut
    refine (h.lane u).mono (congrFun hdrivers u) ?_ (hmorsels u)
    cases interpreter with
    | none => rfl
    | some d => exact Function.update_of_ne hut ..

/-- A morsel ends, with or without a closed output. -/
theorem Inv.finish (h : p.Inv s) (hlane : (∃ morsel, s.lanes t = .compiled morsel) ∨
      ∃ ran morsel, s.lanes t = .interpreting ran morsel) (closed : Bool) :
    p.Inv (if closed then s.setLane t .closed else (s.cleanUp t).setLane t .idle) := by
  have hold : ∀ c a, s.lanes t ≠ .fetched c a := by
    intro c a
    rcases hlane with ⟨m, hm⟩ | ⟨r, m, hm⟩ <;> simp [hm]
  have hbehind : ¬ p.Behind (s.lanes t) := by
    rcases hlane with ⟨m, hm⟩ | ⟨r, m, hm⟩ <;> rw [hm] <;> exact id
  cases closed with
  | true =>
    refine h.quiet rfl rfl rfl hold (by simp) (by simp) (iff_of_false id hbehind) trivial ?_
    intro u _
    exact (h.lane u).mono rfl rfl rfl
  | false =>
    refine h.quiet rfl rfl rfl hold (by simp) (by simp) (iff_of_false id hbehind) trivial ?_
    intro u hut
    exact (h.lane u).mono rfl (Function.update_of_ne hut ..) rfl

theorem step_inv {a : ScanAction T} (hstep : p.step s a = some s') (h : p.Inv s) : p.Inv s' := by
  cases a with
  | fetch t compiled =>
    simp only [step] at hstep
    split at hstep
    · next hidle =>
      cases hstep
      exact h.fetch hidle compiled
    · cases hstep
  | bind t =>
    simp only [step] at hstep
    split at hstep
    · next hfetched =>
      cases hstep
      exact h.bind hfetched
    · cases hstep
  | runInterpreter t =>
    simp only [step] at hstep
    split at hstep
    · next hlane =>
      split at hstep
      · next hget =>
        cases hstep
        exact h.runInterpreter hlane hget
      · cases hstep
    · cases hstep
  | finish t closed =>
    simp only [step] at hstep
    split at hstep
    · next hlane =>
      split at hstep
      · cases hstep
        exact h.finish (Or.inr ⟨_, _, hlane⟩) closed
      · cases hstep
    · next hlane =>
      cases hstep
      exact h.finish (Or.inl ⟨_, hlane⟩) closed
    · cases hstep

theorem run_inv (hrun : p.run s actions = some s')
    (h : p.Inv s) : p.Inv s' := by
  induction actions generalizing s with
  | nil =>
    cases hrun
    exact h
  | cons a actions ih =>
    obtain ⟨s₁, hstep, hrest⟩ := Option.bind_eq_some_iff.mp hrun
    exact ih hrest (step_inv hstep h)

/-- Different multiples of the chunk size start ranges that do not meet. -/
theorem Inv.pairwise_disjoint (h : p.Inv s) :
    s.picked.Pairwise fun q r => q.2.stop ≤ r.2.start ∨ r.2.stop ≤ q.2.start := by
  have hstarts := List.pairwise_map.mp h.nodup
  apply hstarts.imp_of_mem
  intro q r hq hr hne
  obtain ⟨_, ⟨i, hi⟩, _, hstopq⟩ := h.picked q hq
  obtain ⟨_, ⟨j, hj⟩, _, hstopr⟩ := h.picked r hr
  have hstep : ∀ {i j : ℕ}, i < j → p.chunkSize * i + p.chunkSize ≤ p.chunkSize * j := by
    intro i j hij
    rw [← Nat.mul_succ]
    exact Nat.mul_le_mul_left _ hij
  rcases Nat.lt_trichotomy i j with hij | hij | hij
  · have := hstep hij
    omega
  · rw [hi, hj, hij] at hne
    exact absurd rfl hne
  · have := hstep hij
    omega

/-- A row belongs to the multiple of the chunk size below it. -/
theorem Inv.covers (h : p.Inv s) (hend : p.relSize ≤ s.startIdx)
    (hbound : ∀ t c a, s.lanes t ≠ .fetched c a) {row : ℕ} (hrow : row < p.relSize) :
    ∃ q ∈ s.picked, q.2.start ≤ row ∧ row < q.2.stop := by
  have hpos := p.chunkSize_pos
  have hle := Nat.mul_div_le row p.chunkSize
  have hlt := Nat.lt_mul_div_succ row hpos
  rw [Nat.mul_succ] at hlt
  rcases h.handed (p.chunkSize * (row / p.chunkSize)) ⟨_, rfl⟩ (by omega) (by omega) with
    ⟨q, hq, hstart⟩ | ⟨t, c, hfetched⟩
  · obtain ⟨_, _, _, hstop⟩ := h.picked q hq
    exact ⟨q, hq, by omega, by omega⟩
  · exact absurd hfetched (hbound t c _)

/-- However many threads, runners and columns there are and in whichever order they take turns:
the picked ranges are disjoint and cover the table once every thread stopped with the table at
its end, and every provider exposes the range that its thread picked for the morsel. The cursor
stays within a chunk for each thread of the table's end, so it does not wrap around. -/
theorem scan_morsels_partition (hrun : p.run (start T) actions = some s) :
    (s.picked.Pairwise fun q r => q.2.stop ≤ r.2.start ∨ r.2.stop ≤ q.2.start) ∧
    (∀ q ∈ s.picked, q.2.start < q.2.stop ∧ q.2.stop ≤ p.relSize ∧
      q.2.stop - q.2.start ≤ p.chunkSize) ∧
    ((∃ t, s.lanes t = .exhausted) → (∀ t, s.lanes t = .exhausted ∨ s.lanes t = .closed) →
      ∀ row < p.relSize, ∃ q ∈ s.picked, q.2.start ≤ row ∧ row < q.2.stop) ∧
    (∀ t ran morsel, s.lanes t = .interpreting ran morsel →
      (s.morsels t).getLast? = some morsel ∧ s.drivers t = morsel ∧
      ∀ j c, j < ran → p.interpreters[j]? = some (some c) →
        s.columns t c = ⟨.base morsel.start, morsel.stop - morsel.start⟩) ∧
    (∀ t morsel, s.lanes t = .compiled morsel →
      (s.morsels t).getLast? = some morsel ∧ s.drivers t = morsel) ∧
    s.startIdx ≤ p.relSize + p.chunkSize * (1 + T) := by
  have h := run_inv hrun (start_inv p T)
  have hpos := p.chunkSize_pos
  refine ⟨h.pairwise_disjoint, ?_, ?_, ?_, ?_, ?_⟩
  · intro q hq
    obtain ⟨_, _, hstart, hstop⟩ := h.picked q hq
    omega
  · rintro ⟨t, ht⟩ hstopped row hrow
    apply h.covers (h.exhausted t ht) _ hrow
    intro u c a hu
    rcases hstopped u with hlane | hlane <;> rw [hlane] at hu <;> cases hu
  · intro t ran morsel hlane
    have hok : p.LaneOk s t (.interpreting ran morsel) := hlane ▸ h.lane t
    exact ⟨hok.2.1, hok.1, hok.2.2⟩
  · intro t morsel hlane
    have hok : p.LaneOk s t (.compiled morsel) := hlane ▸ h.lane t
    exact ⟨hok.2, hok.1⟩
  · have hcard := Finset.card_filter_le (Finset.univ : Finset (Fin T))
      fun t => p.Behind (s.lanes t)
    rw [Finset.card_univ, Fintype.card_fin] at hcard
    apply h.bounded.trans
    exact Nat.add_le_add_left (Nat.mul_le_mul_left _ (Nat.add_le_add_left hcard _)) _

/-- Two threads on a table of five rows with chunks of two: the first interprets a pipeline with
two columns and a suboperator in between, the second runs compiled code. -/
def twoThreadScan : TScan 2 where
  relSize := 5
  chunkSize := 2
  chunkSize_pos := by decide
  interpreters := [some 0, none, some 1]
  first_provides := ⟨0, [none, some 1], rfl⟩

def twoThreadActions : List (ScanAction 2) :=
  [.fetch 1 true, .fetch 0 false, .bind 0, .bind 1, .runInterpreter 0, .runInterpreter 0,
    .finish 1 false, .runInterpreter 0]

theorem twoThreadScan_partition :
    ∃ s, twoThreadScan.run (start 2) twoThreadActions = some s ∧
      s.lanes 0 = .interpreting 3 ⟨2, 4⟩ ∧ s.columns 0 1 = ⟨.base 2, 2⟩ := by
  obtain ⟨s, hrun, hlane⟩ := Option.map_eq_some_iff.mp (show
    (twoThreadScan.run (start 2) twoThreadActions).map (fun s => s.lanes 0) =
      some (.interpreting 3 ⟨2, 4⟩) by decide +kernel)
  obtain ⟨_, _, _, hinterpreted, _⟩ := scan_morsels_partition hrun
  exact ⟨s, hrun, hlane, (hinterpreted 0 3 ⟨2, 4⟩ hlane).2.2 2 1 (by decide) rfl⟩

end Steps

end TScan

end InkFuse.Exec
