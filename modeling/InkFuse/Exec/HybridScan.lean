import InkFuse.Bytes.Buffer
import Mathlib.Data.Fin.VecNotation
import Mathlib.Logic.Function.Basic
import Mathlib.Tactic.FinCases

/-!
The swimlanes of a hybrid pipeline whose `Print` sinks scanned columns. Interpreted morsels
re-point a column into the table, compiled morsels write through the pointer that their
sinks got at set-up. The threads interleave morsel by morsel in any order, and the backend
of a morsel is free wherever it depends on measured throughput.
-/

namespace InkFuse.Exec

open Bytes

/-- `DEFAULT_CHUNK_SIZE` -/
def defaultChunkSize : ℕ := 512

/-- The scanned columns of a table, with the values in their storage, and those that are
printed. The expressions of the pipeline have columns of their own and are left out. -/
structure ScanPipeline (n : ℕ) where
  relSize : ℕ
  table : Fin n → ℕ → Bytes
  sinks : List (Fin n)

/-- Where the `raw_data` of a column points to: its own buffer, or a row of the table. -/
inductive ColumnPtr
  | chunk
  | base (row : ℕ)
  deriving DecidableEq, Repr

structure Column where
  rawData : ColumnPtr
  size : ℕ

/-- The loop of a swimlane: before the barrier, waiting at it, or behind it. -/
inductive Lane
  | warmUp
  | arrived (terminate : Bool)
  | switching
  | done
  deriving DecidableEq, Repr

/-- What the printer reads for a morsel: each printed column with its values. -/
structure PrintedMorsel (n : ℕ) where
  start : ℕ
  stop : ℕ
  columns : List (Fin n × List Bytes)

/-- `sinkData` is the state of the sinks, once they are set up; `baseWrites` records the rows
of the table storage that were written. -/
structure Swimlanes (T n : ℕ) where
  startIdx : ℕ
  base : Fin n → ℕ → Bytes
  chunk : Fin T → Fin n → ℕ → Bytes
  columns : Fin T → Fin n → Column
  sinkData : Option (Fin T → Fin n → ColumnPtr)
  fusedSetUp : Bool
  lane : Fin T → Lane
  baseWrites : List (Fin n × ℕ)
  printed : List (PrintedMorsel n)

variable {T n : ℕ}

namespace Swimlanes

def readColumn (s : Swimlanes T n) (t : Fin T) (c : Fin n) : List Bytes :=
  (List.range (s.columns t c).size).map fun i =>
    match (s.columns t c).rawData with
    | .chunk => s.chunk t c i
    | .base row => s.base c (row + i)

def setLane (s : Swimlanes T n) (t : Fin T) (l : Lane) : Swimlanes T n :=
  { s with lane := Function.update s.lane t l }

def setSize (s : Swimlanes T n) (t : Fin T) (c : Fin n) (size : ℕ) : Swimlanes T n :=
  let row := Function.update (s.columns t) c { s.columns t c with size := size }
  { s with columns := Function.update s.columns t row }

/-- `InterpretedRunner::runZeroCopyScan` of all scanned columns -/
def runZeroCopyScan (s : Swimlanes T n) (t : Fin T) (start stop : ℕ) : Swimlanes T n :=
  { s with columns := Function.update s.columns t fun _ => ⟨.base start, stop - start⟩ }

def storeValue (s : Swimlanes T n) (t : Fin T) (c : Fin n) (v : Bytes) :
    ColumnPtr → Swimlanes T n
  | .chunk =>
    let column := Function.update (s.chunk t c) (s.columns t c).size v
    { s with chunk := Function.update s.chunk t (Function.update (s.chunk t) c column) }
  | .base row =>
    let column := Function.update (s.base c) (row + (s.columns t c).size) v
    { s with base := Function.update s.base c column
             baseWrites := s.baseWrites ++ [(c, row + (s.columns t c).size)] }

/-- The code of a `FuseChunkSink`: store the value, and count it in the size of the column. -/
def sinkValue (s : Swimlanes T n) (t : Fin T) (c : Fin n) (rawData : ColumnPtr) (v : Bytes) :
    Swimlanes T n :=
  (s.storeValue t c v rawData).setSize t c ((s.columns t c).size + 1)

/-- `ExecutionContext::clear` -/
def cleanUp (s : Swimlanes T n) (t : Fin T) : Swimlanes T n :=
  { s with columns := Function.update s.columns t fun c => { s.columns t c with size := 0 } }

end Swimlanes

namespace ScanPipeline

variable (p : ScanPipeline n)

/-- Before the first morsel. The buffers hold whatever their allocation left there. -/
def start (chunk : Fin T → Fin n → ℕ → Bytes) : Swimlanes T n where
  startIdx := 0
  base := p.table
  chunk := chunk
  columns := fun _ _ => ⟨.chunk, 0⟩
  sinkData := none
  fusedSetUp := false
  lane := fun _ => .warmUp
  baseWrites := []
  printed := []

/-- `TScanDriver::pickMorsel` -/
def pickMorsel (s : Swimlanes T n) : Swimlanes T n × Option (ℕ × ℕ) :=
  let picked := { s with startIdx := s.startIdx + defaultChunkSize }
  if p.relSize ≤ s.startIdx then (picked, none)
  else (picked, some (s.startIdx, min (s.startIdx + defaultChunkSize) p.relSize))

/-- One row of the compiled loop: the providers load the row, the sinks store it. -/
def runCompiledRow (t : Fin T) (sinkData : Fin T → Fin n → ColumnPtr) (s : Swimlanes T n)
    (row : ℕ) : Swimlanes T n :=
  let load := fun c => s.base c row
  p.sinks.foldl (fun s c => s.sinkValue t c (sinkData t c) (load c)) s

def runCompiled (s : Swimlanes T n) (t : Fin T) (sinkData : Fin T → Fin n → ColumnPtr)
    (start stop : ℕ) : Swimlanes T n :=
  (List.range' start (stop - start)).foldl (p.runCompiledRow t sinkData) s

/-- `PrettyPrinter::markMorselDone` -/
def markMorselDone (s : Swimlanes T n) (t : Fin T) (start stop : ℕ) : Swimlanes T n :=
  let columns := p.sinks.map fun c => (c, s.readColumn t c)
  { s with printed := s.printed ++ [⟨start, stop, columns⟩] }

/-- What follows a morsel of a thread. The output is closed when the printer has reached its
limit; the thread then terminates. -/
def finishMorsel (s : Swimlanes T n) (t : Fin T) (start stop : ℕ) (closed : Bool)
    (next terminated : Lane) : Swimlanes T n :=
  let s := p.markMorselDone s t start stop
  if closed then s.setLane t terminated else (s.cleanUp t).setLane t next

inductive Action (T : ℕ)
  | compilationDone
  | interpret (t : Fin T) (closed : Bool)
  | barrier
  | compile (t : Fin T) (closed : Bool)
  deriving DecidableEq, Repr

/-- The lane of a thread after an interpreted morsel in `l`, if it is allowed there. -/
def Lane.afterInterpreted (fusedReady : Bool) : Lane → Option (Lane × Lane)
  | .warmUp => some (if fusedReady then .arrived false else .warmUp, .arrived true)
  | .switching => some (.switching, .done)
  | _ => none

/-- One step; a step that is not possible in a state has no result. -/
def step (s : Swimlanes T n) : Action T → Option (Swimlanes T n)
  | .compilationDone => some { s with fusedSetUp := true }
  | .interpret t closed => do
    let (next, terminated) ← Lane.afterInterpreted s.fusedSetUp (s.lane t)
    match p.pickMorsel s with
    | (s, none) => some (s.setLane t terminated)
    | (s, some (start, stop)) =>
      some (p.finishMorsel (s.runZeroCopyScan t start stop) t start stop closed next terminated)
  | .barrier =>
    if ∀ t, s.lane t = .arrived false ∨ s.lane t = .arrived true then
      let sinkData := fun t c => (s.columns t c).rawData
      some { s with
        sinkData := if s.fusedSetUp then some sinkData else none
        lane := fun t => if s.lane t = .arrived true then .done else .switching }
    else
      none
  | .compile t closed => do
    let sinkData ← s.sinkData
    if s.lane t = .switching then
      match p.pickMorsel s with
      | (s, none) => some (s.setLane t .done)
      | (s, some (start, stop)) =>
        some (p.finishMorsel (p.runCompiled s t sinkData start stop) t start stop closed
          .switching .done)
    else
      none

def run (s : Swimlanes T n) : List (Action T) → Option (Swimlanes T n)
  | [] => some s
  | a :: acts => do
    let s ← p.step s a
    run s acts

/-- The table storage was never written, and every printed column held the values of the
table in the rows of its morsel. -/
def Faithful (s : Swimlanes T n) : Prop :=
  s.baseWrites = [] ∧
  ∀ m ∈ s.printed, ∀ column ∈ m.columns,
    column.2 = (List.range' m.start (m.stop - m.start)).map (p.table column.1)

def RunsCompiled (s : Swimlanes T n) : Action T → Prop
  | .compile _ _ => s.startIdx < p.relSize
  | _ => False

def NoneCompiled (s : Swimlanes T n) : List (Action T) → Prop
  | [] => True
  | a :: acts => ¬ p.RunsCompiled s a ∧ ∀ s', p.step s a = some s' → NoneCompiled s' acts

section Steps

variable {p} {s s' : Swimlanes T n}

def morselEnd (p : ScanPipeline n) (s : Swimlanes T n) : ℕ :=
  min (s.startIdx + defaultChunkSize) p.relSize

def advance (s : Swimlanes T n) : Swimlanes T n :=
  { s with startIdx := s.startIdx + defaultChunkSize }

/-- What a step can do. -/
theorem step_cases {a : Action T} (h : p.step s a = some s') :
    (a = .compilationDone ∧ s' = { s with fusedSetUp := true }) ∨
    (∃ t closed next terminated, a = .interpret t closed ∧
      Lane.afterInterpreted s.fusedSetUp (s.lane t) = some (next, terminated) ∧
      (p.relSize ≤ s.startIdx ∧ s' = (advance s).setLane t terminated ∨
        s.startIdx < p.relSize ∧
          s' = p.finishMorsel ((advance s).runZeroCopyScan t s.startIdx (p.morselEnd s)) t
            s.startIdx (p.morselEnd s) closed next terminated)) ∨
    (a = .barrier ∧ (∀ t, s.lane t = .arrived false ∨ s.lane t = .arrived true) ∧
      s' = { s with
        sinkData := if s.fusedSetUp then some fun t c => (s.columns t c).rawData else none
        lane := fun t => if s.lane t = .arrived true then .done else .switching }) ∨
    (∃ t closed sinkData, a = .compile t closed ∧ s.sinkData = some sinkData ∧
      s.lane t = .switching ∧
      (p.relSize ≤ s.startIdx ∧ s' = (advance s).setLane t .done ∨
        s.startIdx < p.relSize ∧
          s' = p.finishMorsel (p.runCompiled (advance s) t sinkData s.startIdx (p.morselEnd s)) t
            s.startIdx (p.morselEnd s) closed .switching .done)) := by
  cases a with
  | compilationDone => exact Or.inl ⟨rfl, (Option.some.inj h).symm⟩
  | interpret t closed =>
    simp only [step, Option.bind_eq_bind, Option.bind_eq_some_iff] at h
    obtain ⟨⟨next, terminated⟩, hlane, h⟩ := h
    refine Or.inr (Or.inl ⟨t, closed, next, terminated, rfl, hlane, ?_⟩)
    simp only [pickMorsel] at h
    by_cases hend : p.relSize ≤ s.startIdx
    · rw [if_pos hend] at h
      exact Or.inl ⟨hend, (Option.some.inj h).symm⟩
    · rw [if_neg hend] at h
      exact Or.inr ⟨by omega, (Option.some.inj h).symm⟩
  | barrier =>
    simp only [step] at h
    split at h
    · rename_i hall
      exact Or.inr (Or.inr (Or.inl ⟨rfl, hall, (Option.some.inj h).symm⟩))
    · exact absurd h (by simp)
  | compile t closed =>
    simp only [step, Option.bind_eq_bind, Option.bind_eq_some_iff] at h
    obtain ⟨sinkData, hdata, h⟩ := h
    split at h
    · rename_i hlane
      refine Or.inr (Or.inr (Or.inr ⟨t, closed, sinkData, rfl, hdata, hlane, ?_⟩))
      simp only [pickMorsel] at h
      by_cases hend : p.relSize ≤ s.startIdx
      · rw [if_pos hend] at h
        exact Or.inl ⟨hend, (Option.some.inj h).symm⟩
      · rw [if_neg hend] at h
        exact Or.inr ⟨by omega, (Option.some.inj h).symm⟩
    · exact absurd h (by simp)

end Steps

section Compiled

variable {p} {s s' : Swimlanes T n}

/-- What the compiled code leaves alone: it changes values and sizes, and adds writes. -/
structure Kept (s s' : Swimlanes T n) : Prop where
  startIdx : s'.startIdx = s.startIdx
  printed : s'.printed = s.printed
  lane : s'.lane = s.lane
  sinkData : s'.sinkData = s.sinkData
  rawData : ∀ t c, (s'.columns t c).rawData = (s.columns t c).rawData
  writes : s.baseWrites <+: s'.baseWrites

theorem Kept.refl (s : Swimlanes T n) : Kept s s :=
  ⟨rfl, rfl, rfl, rfl, fun _ _ => rfl, List.prefix_rfl⟩

theorem Kept.trans {s'' : Swimlanes T n} (h : Kept s s') (h' : Kept s' s'') : Kept s s'' :=
  ⟨h'.startIdx.trans h.startIdx, h'.printed.trans h.printed, h'.lane.trans h.lane,
    h'.sinkData.trans h.sinkData, fun t c => (h'.rawData t c).trans (h.rawData t c),
    h.writes.trans h'.writes⟩

theorem kept_setSize (s : Swimlanes T n) (t : Fin T) (c : Fin n) (size : ℕ) :
    Kept s (s.setSize t c size) := by
  refine ⟨rfl, rfl, rfl, rfl, fun u d => ?_, List.prefix_rfl⟩
  by_cases hu : u = t
  · subst hu
    by_cases hd : d = c
    · subst hd
      simp [Swimlanes.setSize]
    · simp [Swimlanes.setSize, Function.update_of_ne hd]
  · simp [Swimlanes.setSize, Function.update_of_ne hu]

theorem kept_sinkValue (s : Swimlanes T n) (t : Fin T) (c : Fin n) (rawData : ColumnPtr)
    (v : Bytes) : Kept s (s.sinkValue t c rawData v) := by
  have hstore : Kept s (s.storeValue t c v rawData) := by
    cases rawData with
    | chunk => exact ⟨rfl, rfl, rfl, rfl, fun _ _ => rfl, List.prefix_rfl⟩
    | base row => exact ⟨rfl, rfl, rfl, rfl, fun _ _ => rfl, List.prefix_append _ _⟩
  exact hstore.trans (kept_setSize _ t c _)

theorem kept_foldl {α : Type} {f : Swimlanes T n → α → Swimlanes T n}
    (hf : ∀ s a, Kept s (f s a)) (s : Swimlanes T n) (as : List α) : Kept s (as.foldl f s) := by
  induction as generalizing s with
  | nil => exact Kept.refl s
  | cons a as ih => exact (hf s a).trans (ih (f s a))

theorem kept_runCompiled (s : Swimlanes T n) (t : Fin T) (sinkData : Fin T → Fin n → ColumnPtr)
    (start stop : ℕ) : Kept s (p.runCompiled s t sinkData start stop) :=
  kept_foldl (fun s _ => kept_foldl (fun s c => kept_sinkValue s t c _ _) s _) s _

/-- A compiled morsel with rows writes to the table when its sinks point there. -/
theorem runCompiled_writes (hsinks : p.sinks ≠ []) {t : Fin T}
    {sinkData : Fin T → Fin n → ColumnPtr} (hdata : ∀ c, ∃ row, sinkData t c = .base row)
    {start stop : ℕ} (hlt : start < stop) :
    (p.runCompiled s t sinkData start stop).baseWrites ≠ [] := by
  obtain ⟨c, cs, hc⟩ := List.exists_cons_of_ne_nil hsinks
  obtain ⟨row, hrow⟩ := hdata c
  have hone : (s.sinkValue t c (sinkData t c) (s.base c start)).baseWrites ≠ [] := by
    rw [hrow]
    simp [Swimlanes.sinkValue, Swimlanes.storeValue, Swimlanes.setSize]
  have hfirst : (s.sinkValue t c (sinkData t c) (s.base c start)).baseWrites <+:
      (p.runCompiledRow t sinkData s start).baseWrites := by
    simp only [runCompiledRow, hc, List.foldl_cons]
    exact (kept_foldl (fun s c => kept_sinkValue s t c _ _) _ cs).writes
  have hrest : (p.runCompiledRow t sinkData s start).baseWrites <+:
      (p.runCompiled s t sinkData start stop).baseWrites := by
    rw [runCompiled, show stop - start = (stop - start - 1) + 1 by omega, List.range'_succ,
      List.foldl_cons]
    exact (kept_foldl (fun s _ => kept_foldl (fun s c => kept_sinkValue s t c _ _) s _) _ _).writes
  intro hnil
  rw [hnil, List.prefix_nil] at hrest
  rw [hrest, List.prefix_nil] at hfirst
  exact hone hfirst

end Compiled

section Runs

variable {p} {s s' : Swimlanes T n}

/-- The lanes that may run compiled code have run an interpreted morsel before: their columns
and, behind the barrier, their sinks point into the table. -/
structure LanesInv (s : Swimlanes T n) : Prop where
  columns : ∀ t, s.lane t = .arrived false ∨ s.lane t = .switching →
    ∀ c, ∃ row, (s.columns t c).rawData = .base row
  sinks : ∀ sinkData, s.sinkData = some sinkData → ∀ t, s.lane t = .switching →
    ∀ c, ∃ row, sinkData t c = .base row

theorem finishMorsel_lane (t : Fin T) (start stop : ℕ) (closed : Bool) (next terminated : Lane) :
    (p.finishMorsel s t start stop closed next terminated).lane =
      Function.update s.lane t (if closed then terminated else next) := by
  cases closed <;> rfl

theorem finishMorsel_sinkData (t : Fin T) (start stop : ℕ) (closed : Bool)
    (next terminated : Lane) :
    (p.finishMorsel s t start stop closed next terminated).sinkData = s.sinkData := by
  cases closed <;> rfl

theorem finishMorsel_baseWrites (t : Fin T) (start stop : ℕ) (closed : Bool)
    (next terminated : Lane) :
    (p.finishMorsel s t start stop closed next terminated).baseWrites = s.baseWrites := by
  cases closed <;> rfl

theorem finishMorsel_rawData (t : Fin T) (start stop : ℕ) (closed : Bool)
    (next terminated : Lane) (u : Fin T) (c : Fin n) :
    ((p.finishMorsel s t start stop closed next terminated).columns u c).rawData =
      (s.columns u c).rawData := by
  cases closed with
  | true => rfl
  | false =>
    by_cases hu : u = t
    · subst hu
      simp [finishMorsel, markMorselDone, Swimlanes.cleanUp, Swimlanes.setLane]
    · simp [finishMorsel, markMorselDone, Swimlanes.cleanUp, Swimlanes.setLane,
        Function.update_of_ne hu]

/-- A thread never gets to the compiled code without an interpreted morsel. -/
theorem afterInterpreted_terminated {ready : Bool} {l next terminated : Lane}
    (h : Lane.afterInterpreted ready l = some (next, terminated)) :
    (terminated ≠ .arrived false ∧ terminated ≠ .switching) ∧
      (next = .switching → l = .switching) := by
  cases l with
  | warmUp =>
    obtain ⟨rfl, rfl⟩ := Prod.mk.inj (Option.some.inj h)
    cases ready <;> simp
  | switching =>
    obtain ⟨rfl, rfl⟩ := Prod.mk.inj (Option.some.inj h)
    simp
  | arrived terminate => exact absurd h (by simp [Lane.afterInterpreted])
  | done => exact absurd h (by simp [Lane.afterInterpreted])

/-- The invariant survives when lanes enter the compiled phases with re-pointed columns only. -/
theorem LanesInv.carry (hinv : LanesInv s) (hsinks : s'.sinkData = s.sinkData)
    (hraw : ∀ u c row, (s.columns u c).rawData = .base row →
      ∃ row, (s'.columns u c).rawData = .base row)
    (hlane : ∀ u, s'.lane u = .arrived false ∨ s'.lane u = .switching →
      (s.lane u = .arrived false ∨ s.lane u = .switching) ∨
        ∀ c, ∃ row, (s'.columns u c).rawData = .base row)
    (hswitch : ∀ u, s'.lane u = .switching → s.lane u = .switching) : LanesInv s' := by
  refine ⟨fun u hu c => ?_, fun sinkData hdata u hu => ?_⟩
  · rcases hlane u hu with hold | hnew
    · obtain ⟨row, hrow⟩ := hinv.columns u hold c
      exact hraw u c row hrow
    · exact hnew c
  · rw [hsinks] at hdata
    exact hinv.sinks sinkData hdata u (hswitch u hu)

/-- A lane that terminates leaves the invariant alone. -/
theorem LanesInv.terminate (hinv : LanesInv s) {t : Fin T} {l : Lane}
    (hterm : l ≠ .arrived false ∧ l ≠ .switching) : LanesInv ((advance s).setLane t l) := by
  have hother : ∀ u l', l' = .arrived false ∨ l' = .switching →
      ((advance s).setLane t l).lane u = l' → s.lane u = l' := by
    intro u l' hl' hu
    by_cases hut : u = t
    · subst hut
      simp only [Swimlanes.setLane, Function.update_self] at hu
      subst hu
      exact absurd hl' (by simp [hterm])
    · simp only [Swimlanes.setLane, Function.update_of_ne hut] at hu
      exact hu
  refine hinv.carry rfl (fun u c row hrow => ⟨row, hrow⟩) (fun u hu => Or.inl ?_)
    fun u hu => hother u _ (Or.inr rfl) hu
  rcases hu with hu | hu
  · exact Or.inl (hother u _ (Or.inl rfl) hu)
  · exact Or.inr (hother u _ (Or.inr rfl) hu)

theorem step_lanesInv {a : Action T} (hinv : LanesInv s) (h : p.step s a = some s') :
    LanesInv s' := by
  rcases step_cases h with ⟨_, rfl⟩ | ⟨t, closed, next, terminated, _, hlane, hcase⟩ |
    ⟨_, hall, rfl⟩ | ⟨t, closed, sinkData, _, hdata, hlane, hcase⟩
  · exact ⟨hinv.columns, hinv.sinks⟩
  · obtain ⟨hterm, hnext⟩ := afterInterpreted_terminated hlane
    rcases hcase with ⟨_, rfl⟩ | ⟨_, rfl⟩
    · exact hinv.terminate hterm
    · have hself : ∀ c, (((advance s).runZeroCopyScan t s.startIdx (p.morselEnd s)).columns t
          c).rawData = .base s.startIdx := fun c => by simp [Swimlanes.runZeroCopyScan]
      have hother : ∀ u, u ≠ t → ∀ c, ((advance s).runZeroCopyScan t s.startIdx
          (p.morselEnd s)).columns u c = s.columns u c := fun u hu c => by
        simp [Swimlanes.runZeroCopyScan, Function.update_of_ne hu, advance]
      refine hinv.carry (finishMorsel_sinkData _ _ _ _ _ _) (fun u c row hrow => ?_)
        (fun u hu => ?_) (fun u hu => ?_)
      · rw [finishMorsel_rawData]
        by_cases hut : u = t
        · subst hut
          exact ⟨_, hself c⟩
        · rw [hother u hut c]
          exact ⟨row, hrow⟩
      · by_cases hut : u = t
        · subst hut
          exact Or.inr fun c => ⟨_, (finishMorsel_rawData _ _ _ _ _ _ _ _).trans (hself c)⟩
        · rw [finishMorsel_lane, Function.update_of_ne hut] at hu
          exact Or.inl hu
      · rw [finishMorsel_lane] at hu
        by_cases hut : u = t
        · subst hut
          rw [Function.update_self] at hu
          cases closed with
          | true => exact absurd hu hterm.2
          | false => exact hnext hu
        · rwa [Function.update_of_ne hut] at hu
  · -- All lanes wait, and those that go on have re-pointed columns for the sinks to capture.
    have hcolumns : ∀ u, (if s.lane u = .arrived true then Lane.done else .switching) ≠ .done →
        ∀ c, ∃ row, (s.columns u c).rawData = .base row := by
      intro u hu
      by_cases hend : s.lane u = .arrived true
      · simp [hend] at hu
      · exact hinv.columns u (Or.inl ((hall u).resolve_right hend))
    refine ⟨fun u hu c => hcolumns u ?_ c, fun sinkData hdata u hu c => ?_⟩
    · rcases hu with hu | hu <;> simp only at hu <;> simp [hu]
    · simp only at hdata hu
      split at hdata
      · obtain rfl := Option.some.inj hdata
        exact hcolumns u (by rw [hu]; simp) c
      · exact absurd hdata (by simp)
  · rcases hcase with ⟨_, rfl⟩ | ⟨_, rfl⟩
    · exact hinv.terminate (by simp)
    · have hkept := kept_runCompiled (p := p) (advance s) t sinkData s.startIdx (p.morselEnd s)
      have hswitch : ∀ u, u = t → s.lane u = .switching := fun u hu => hu ▸ hlane
      refine hinv.carry ((finishMorsel_sinkData _ _ _ _ _ _).trans hkept.sinkData)
        (fun u c row hrow => ?_) (fun u hu => Or.inl ?_) (fun u hu => ?_)
      · rw [finishMorsel_rawData, hkept.rawData]
        exact ⟨row, hrow⟩
      · by_cases hut : u = t
        · exact Or.inr (hswitch u hut)
        · rw [finishMorsel_lane, Function.update_of_ne hut, hkept.lane] at hu
          exact hu
      · by_cases hut : u = t
        · exact hswitch u hut
        · rw [finishMorsel_lane, Function.update_of_ne hut, hkept.lane] at hu
          exact hu

/-- Writes stay on record. -/
theorem step_baseWrites {a : Action T} (h : p.step s a = some s') :
    s.baseWrites <+: s'.baseWrites := by
  rcases step_cases h with ⟨_, rfl⟩ | ⟨t, closed, next, terminated, _, _, hcase⟩ |
    ⟨_, _, rfl⟩ | ⟨t, closed, sinkData, _, _, _, hcase⟩
  · exact List.prefix_rfl
  · rcases hcase with ⟨_, rfl⟩ | ⟨_, rfl⟩
    · exact List.prefix_rfl
    · rw [finishMorsel_baseWrites]
      exact List.prefix_rfl
  · exact List.prefix_rfl
  · rcases hcase with ⟨_, rfl⟩ | ⟨_, rfl⟩
    · exact List.prefix_rfl
    · rw [finishMorsel_baseWrites]
      exact (kept_runCompiled (p := p) (advance s) t sinkData _ _).writes

theorem run_baseWrites {acts : List (Action T)} (h : p.run s acts = some s') :
    s.baseWrites <+: s'.baseWrites := by
  induction acts generalizing s with
  | nil =>
    obtain rfl := Option.some.inj h
    exact List.prefix_rfl
  | cons a acts ih =>
    simp only [run, Option.bind_eq_bind, Option.bind_eq_some_iff] at h
    obtain ⟨s₁, hstep, hrun⟩ := h
    exact (step_baseWrites hstep).trans (ih hrun)

/-- A compiled morsel writes to the table. -/
theorem step_compiled_writes (hsinks : p.sinks ≠ []) {a : Action T} (hinv : LanesInv s)
    (ha : p.RunsCompiled s a) (h : p.step s a = some s') : s'.baseWrites ≠ [] := by
  rcases step_cases h with ⟨rfl, _⟩ | ⟨t, closed, next, terminated, rfl, _, _⟩ |
    ⟨rfl, _, _⟩ | ⟨t, closed, sinkData, rfl, hdata, hlane, hcase⟩
  · exact absurd ha (by simp [RunsCompiled])
  · exact absurd ha (by simp [RunsCompiled])
  · exact absurd ha (by simp [RunsCompiled])
  · have hmore : s.startIdx < p.relSize := ha
    rcases hcase with ⟨hend, _⟩ | ⟨_, rfl⟩
    · omega
    · rw [finishMorsel_baseWrites]
      refine runCompiled_writes hsinks (hinv.sinks sinkData hdata t hlane) ?_
      simp only [morselEnd, defaultChunkSize]
      omega

/-- The state of a run without compiled morsels: the table is as it was, and the output has
been right. -/
structure Clean (p : ScanPipeline n) (s : Swimlanes T n) : Prop where
  base : s.base = p.table
  faithful : p.Faithful s

/-- An interpreted morsel reads the rows of the table. -/
theorem Clean.finish (hclean : Clean p s) (t : Fin T) (start stop : ℕ) (closed : Bool)
    (next terminated : Lane) :
    Clean p (p.finishMorsel (s.runZeroCopyScan t start stop) t start stop closed next
      terminated) := by
  have hread : ∀ c, (s.runZeroCopyScan t start stop).readColumn t c =
      (List.range' start (stop - start)).map (p.table c) := by
    intro c
    rw [List.range'_eq_map_range, List.map_map]
    simp only [Swimlanes.readColumn, Swimlanes.runZeroCopyScan, Function.update_self, hclean.base]
    rfl
  have hprinted : p.Faithful (p.markMorselDone (s.runZeroCopyScan t start stop) t start stop) := by
    refine ⟨hclean.faithful.1, fun m hm column hcolumn => ?_⟩
    rcases List.mem_append.mp hm with hold | hnew
    · exact hclean.faithful.2 m hold column hcolumn
    · obtain rfl := List.mem_singleton.mp hnew
      obtain ⟨c, _, rfl⟩ := List.mem_map.mp hcolumn
      exact hread c
  cases closed with
  | true => exact ⟨hclean.base, hprinted⟩
  | false => exact ⟨hclean.base, hprinted⟩

theorem step_clean {a : Action T} (hclean : Clean p s) (ha : ¬ p.RunsCompiled s a)
    (h : p.step s a = some s') : Clean p s' := by
  rcases step_cases h with ⟨_, rfl⟩ | ⟨t, closed, next, terminated, _, _, hcase⟩ |
    ⟨_, _, rfl⟩ | ⟨t, closed, sinkData, rfl, _, _, hcase⟩
  · exact ⟨hclean.base, hclean.faithful⟩
  · rcases hcase with ⟨_, rfl⟩ | ⟨_, rfl⟩
    · exact ⟨hclean.base, hclean.faithful⟩
    · have hadvance : Clean p (advance s) := ⟨hclean.base, hclean.faithful⟩
      exact hadvance.finish t _ _ closed next terminated
  · exact ⟨hclean.base, hclean.faithful⟩
  · rcases hcase with ⟨_, rfl⟩ | ⟨hmore, _⟩
    · exact ⟨hclean.base, hclean.faithful⟩
    · exact absurd hmore ha

theorem run_clean {acts : List (Action T)} (hclean : Clean p s) (hacts : p.NoneCompiled s acts)
    (h : p.run s acts = some s') : Clean p s' := by
  induction acts generalizing s with
  | nil =>
    obtain rfl := Option.some.inj h
    exact hclean
  | cons a acts ih =>
    simp only [run, Option.bind_eq_bind, Option.bind_eq_some_iff] at h
    obtain ⟨s₁, hstep, hrun⟩ := h
    exact ih (step_clean hclean hacts.1 hstep) (hacts.2 s₁ hstep) hrun

theorem run_compiled_writes (hsinks : p.sinks ≠ []) {acts : List (Action T)} (hinv : LanesInv s)
    (hacts : ¬ p.NoneCompiled s acts) (h : p.run s acts = some s') : s'.baseWrites ≠ [] := by
  induction acts generalizing s with
  | nil => exact absurd trivial hacts
  | cons a acts ih =>
    simp only [run, Option.bind_eq_bind, Option.bind_eq_some_iff] at h
    obtain ⟨s₁, hstep, hrun⟩ := h
    by_cases ha : p.RunsCompiled s a
    · intro hnil
      have hprefix := run_baseWrites hrun
      rw [hnil, List.prefix_nil] at hprefix
      exact step_compiled_writes hsinks hinv ha hstep hprefix
    · refine ih (step_lanesInv hinv hstep) (fun hrest => hacts ⟨ha, fun s₂ hs₂ => ?_⟩) hrun
      obtain rfl := Option.some.inj (hstep.symm.trans hs₂)
      exact hrest

theorem lanesInv_start (p : ScanPipeline n) (chunk : Fin T → Fin n → ℕ → Bytes) :
    LanesInv (p.start chunk) :=
  ⟨fun t ht => absurd ht (by simp [start]), fun _ hdata => absurd hdata (by simp [start])⟩

/-- A hybrid run leaves the table alone and prints its values exactly as long as no morsel is
run by the compiled backend. -/
theorem hybrid_scan_faithful_iff (p : ScanPipeline n) (hsinks : p.sinks ≠ [])
    (chunk : Fin T → Fin n → ℕ → Bytes) (acts : List (Action T))
    (h : p.run (p.start chunk) acts = some s) :
    p.Faithful s ↔ p.NoneCompiled (p.start chunk) acts := by
  constructor
  · intro hfaithful
    by_contra hacts
    exact run_compiled_writes hsinks (lanesInv_start p chunk) hacts h hfaithful.1
  · intro hacts
    exact (run_clean ⟨rfl, rfl, by simp [start]⟩ hacts h).faithful

set_option maxRecDepth 4000 in
/-- Two threads with 1100 rows. Behind the barrier there are no more rows for the interpreter. -/
theorem hybrid_scan_interpreted :
    let p : ScanPipeline 1 := ⟨1100, fun _ row => [UInt8.ofNat row], [0]⟩
    ∃ s : Swimlanes 2 1, p.run (p.start fun _ _ _ => []) [.interpret 0 false, .interpret 1 false,
        .compilationDone, .interpret 0 false, .interpret 1 false, .barrier, .interpret 0 false] =
      some s ∧ s.printed.length = 3 ∧ p.Faithful s := by
  intro p
  obtain ⟨s, hrun, hprinted⟩ : ∃ s : Swimlanes 2 1, p.run (p.start fun _ _ _ => [])
      [.interpret 0 false, .interpret 1 false, .compilationDone, .interpret 0 false,
        .interpret 1 false, .barrier, .interpret 0 false] = some s ∧ s.printed.length = 3 :=
    ⟨_, rfl, rfl⟩
  refine ⟨s, hrun, hprinted, (hybrid_scan_faithful_iff p (by simp [p]) _ _ hrun).mpr ?_⟩
  exact ⟨id, fun _ _ => ⟨id, fun _ _ => ⟨id, fun _ _ => ⟨id, fun _ _ => ⟨id, fun _ _ =>
    ⟨id, fun _ _ => ⟨id, fun _ _ => trivial⟩⟩⟩⟩⟩⟩⟩

/-- The compiled morsel of row 512 overwrites row 0 of the table, where the interpreted morsel
before it has left the column. -/
theorem hybrid_scan_overwrites_table :
    let p : ScanPipeline 1 := ⟨513, fun _ row => [UInt8.ofNat row], [0]⟩
    ∃ s : Swimlanes 1 1, p.run (p.start fun _ _ _ => [])
        [.compilationDone, .interpret 0 false, .barrier, .compile 0 false] = some s ∧
      s.baseWrites = [(0, 0)] ∧ ¬ p.Faithful s :=
  ⟨_, rfl, rfl, fun h => absurd h.1 (List.cons_ne_nil _ _)⟩

end Runs

end ScanPipeline

end InkFuse.Exec
