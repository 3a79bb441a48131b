import Mathlib.Logic.Function.Basic
import Mathlib.Tactic.Common

/-!
Functions that are built block by block. A builder appends to its current block; an `if` or a
`while` is entered with a new block, and its statement is appended to the block around it when it
ends. So the statement comes after all that was appended to the outer block before.
-/

namespace InkFuse.Blocks

/-- `A` are the statements without control flow, `C` the conditions. Blocks are known by number. -/
inductive Stmt (A C : Type*)
  | atom (a : A)
  | ite (cond : C) (block : ℕ)
  | loop (cond : C) (block : ℕ)
  deriving DecidableEq, Repr

variable {A C S : Type*}

/-- The root block has the number 0. -/
structure FunctionBuilder (A C : Type*) where
  blocks : ℕ → List (Stmt A C)
  next : ℕ
  curr : ℕ

/-- What `If` and `While` keep until they end. -/
structure Handle (C : Type*) where
  original : ℕ
  cond : C
  body : ℕ
  deriving DecidableEq, Repr

namespace FunctionBuilder

def start : FunctionBuilder A C := ⟨fun _ => [], 1, 0⟩

def appendTo (b : FunctionBuilder A C) (block : ℕ) (stmts : List (Stmt A C)) :
    FunctionBuilder A C :=
  { b with blocks := Function.update b.blocks block (b.blocks block ++ stmts) }

/-- `appendStmt`, for statements one after the other. -/
def append (b : FunctionBuilder A C) (atoms : List A) : FunctionBuilder A C :=
  b.appendTo b.curr (atoms.map .atom)

/-- `getRootBlock().appendStmts` -/
def appendRoot (b : FunctionBuilder A C) (atoms : List A) : FunctionBuilder A C :=
  b.appendTo 0 (atoms.map .atom)

/-- The constructors of `If` and `While`. -/
def enter (b : FunctionBuilder A C) (cond : C) : FunctionBuilder A C × Handle C :=
  (⟨Function.update b.blocks b.next [], b.next + 1, b.next⟩, ⟨b.curr, cond, b.next⟩)

/-- `If::End` -/
def endIf (b : FunctionBuilder A C) (h : Handle C) : FunctionBuilder A C :=
  { b with curr := h.original }.appendTo h.original [.ite h.cond h.body]

/-- `While::End` -/
def endWhile (b : FunctionBuilder A C) (h : Handle C) : FunctionBuilder A C :=
  { b with curr := h.original }.appendTo h.original [.loop h.cond h.body]

end FunctionBuilder

/-- What statements without control flow do, and the value of a condition. Both may fail. -/
structure Semantics (A C S : Type*) where
  step : A → S → Option S
  test : C → S → Option Bool

variable (sem : Semantics A C S) (blocks : ℕ → List (Stmt A C))

def exec : ℕ → List (Stmt A C) → S → Option S
  | 0, _, _ => none
  | _ + 1, [], s => some s
  | fuel + 1, .atom a :: rest, s => (sem.step a s).bind (exec fuel rest)
  | fuel + 1, .ite cond block :: rest, s =>
    match sem.test cond s with
    | none => none
    | some true => (exec fuel (blocks block) s).bind (exec fuel rest)
    | some false => exec fuel rest s
  | fuel + 1, .loop cond block :: rest, s =>
    match sem.test cond s with
    | none => none
    | some true => (exec fuel (blocks block) s).bind (exec fuel (.loop cond block :: rest))
    | some false => exec fuel rest s

/-- The statements end in this state. -/
def Runs (stmts : List (Stmt A C)) (s s' : S) : Prop :=
  ∃ fuel, exec sem blocks fuel stmts s = some s'

variable {sem blocks}
variable {stmts rest : List (Stmt A C)} {s s' s'' : S} {fuel : ℕ} {cond : C} {block : ℕ}

theorem exec_succ (h : exec sem blocks fuel stmts s = some s') :
    exec sem blocks (fuel + 1) stmts s = some s' := by
  induction fuel generalizing stmts s s' with
  | zero => cases h
  | succ fuel ih =>
    cases stmts with
    | nil => exact h
    | cons stmt rest =>
      cases stmt with
      | atom a =>
        obtain ⟨s₁, hstep, hrest⟩ := Option.bind_eq_some_iff.mp h
        exact Option.bind_eq_some_iff.mpr ⟨s₁, hstep, ih hrest⟩
      | ite cond block =>
        unfold exec at h ⊢
        split at h
        · cases h
        · obtain ⟨s₁, hbody, hrest⟩ := Option.bind_eq_some_iff.mp h
          exact Option.bind_eq_some_iff.mpr ⟨s₁, ih hbody, ih hrest⟩
        · exact ih h
      | loop cond block =>
        unfold exec at h ⊢
        split at h
        · cases h
        · obtain ⟨s₁, hbody, hrest⟩ := Option.bind_eq_some_iff.mp h
          exact Option.bind_eq_some_iff.mpr ⟨s₁, ih hbody, ih hrest⟩
        · exact ih h

/-- More fuel does not change the result. -/
theorem exec_mono (h : exec sem blocks fuel stmts s = some s') {fuel' : ℕ} (hle : fuel ≤ fuel') :
    exec sem blocks fuel' stmts s = some s' := by
  induction hle with
  | refl => exact h
  | step _ ih => exact exec_succ ih

theorem Runs.nil : Runs sem blocks [] s s := ⟨1, rfl⟩

theorem Runs.atom {a : A} (hstep : sem.step a s = some s') (h : Runs sem blocks rest s' s'') :
    Runs sem blocks (.atom a :: rest) s s'' := by
  obtain ⟨fuel, hrest⟩ := h
  refine ⟨fuel + 1, ?_⟩
  rw [exec, hstep]
  exact hrest

theorem Runs.ite_true (htest : sem.test cond s = some true)
    (hbody : Runs sem blocks (blocks block) s s') (h : Runs sem blocks rest s' s'') :
    Runs sem blocks (.ite cond block :: rest) s s'' := by
  obtain ⟨fuel, hbody⟩ := hbody
  obtain ⟨fuel', hrest⟩ := h
  refine ⟨max fuel fuel' + 1, ?_⟩
  rw [exec, htest]
  exact Option.bind_eq_some_iff.mpr
    ⟨s', exec_mono hbody (Nat.le_max_left ..), exec_mono hrest (Nat.le_max_right ..)⟩

theorem Runs.ite_false (htest : sem.test cond s = some false) (h : Runs sem blocks rest s s') :
    Runs sem blocks (.ite cond block :: rest) s s' := by
  obtain ⟨fuel, hrest⟩ := h
  refine ⟨fuel + 1, ?_⟩
  rw [exec, htest]
  exact hrest

theorem Runs.loop_true (htest : sem.test cond s = some true)
    (hbody : Runs sem blocks (blocks block) s s')
    (h : Runs sem blocks (.loop cond block :: rest) s' s'') :
    Runs sem blocks (.loop cond block :: rest) s s'' := by
  obtain ⟨fuel, hbody⟩ := hbody
  obtain ⟨fuel', hrest⟩ := h
  refine ⟨max fuel fuel' + 1, ?_⟩
  rw [exec, htest]
  exact Option.bind_eq_some_iff.mpr
    ⟨s', exec_mono hbody (Nat.le_max_left ..), exec_mono hrest (Nat.le_max_right ..)⟩

theorem Runs.loop_false (htest : sem.test cond s = some false) (h : Runs sem blocks rest s s') :
    Runs sem blocks (.loop cond block :: rest) s s' := by
  obtain ⟨fuel, hrest⟩ := h
  refine ⟨fuel + 1, ?_⟩
  rw [exec, htest]
  exact hrest

/-- Statements without control flow, one after the other. -/
theorem Runs.atoms {atoms : List A} (hsteps : atoms.foldlM (fun s a => sem.step a s) s = some s')
    (h : Runs sem blocks rest s' s'') : Runs sem blocks (atoms.map .atom ++ rest) s s'' := by
  induction atoms generalizing s with
  | nil =>
    cases hsteps
    exact h
  | cons a atoms ih =>
    rw [List.foldlM_cons] at hsteps
    obtain ⟨s₁, hstep, hsteps⟩ := Option.bind_eq_some_iff.mp hsteps
    exact Runs.atom hstep (ih hsteps)

/-- A run, and then another one. -/
theorem Runs.append (h : Runs sem blocks stmts s s') (hrest : Runs sem blocks rest s' s'') :
    Runs sem blocks (stmts ++ rest) s s'' := by
  obtain ⟨fuel, hexec⟩ := h
  induction fuel generalizing stmts s with
  | zero => cases hexec
  | succ fuel ih =>
    cases stmts with
    | nil =>
      cases hexec
      exact hrest
    | cons stmt stmts =>
      cases stmt with
      | atom a =>
        obtain ⟨s₁, hstep, htail⟩ := Option.bind_eq_some_iff.mp hexec
        exact Runs.atom hstep (ih htail)
      | ite cond block =>
        unfold exec at hexec
        split at hexec
        · cases hexec
        · next htest =>
          obtain ⟨s₁, hbody, htail⟩ := Option.bind_eq_some_iff.mp hexec
          exact Runs.ite_true htest ⟨fuel, hbody⟩ (ih htail)
        · next htest => exact Runs.ite_false htest (ih hexec)
      | loop cond block =>
        unfold exec at hexec
        split at hexec
        · cases hexec
        · next htest =>
          obtain ⟨s₁, hbody, htail⟩ := Option.bind_eq_some_iff.mp hexec
          exact Runs.loop_true htest ⟨fuel, hbody⟩ (ih htail)
        · next htest => exact Runs.loop_false htest (ih hexec)

/-- Enough fuel gives the result. -/
theorem Runs.enough (h : Runs sem blocks stmts s s') :
    ∃ bound, ∀ fuel ≥ bound, exec sem blocks fuel stmts s = some s' := by
  obtain ⟨fuel, hexec⟩ := h
  exact ⟨fuel, fun _ hle => exec_mono hexec hle⟩

/-- A loop whose body leads from each of the states to the next one, until its condition fails after
`count` iterations. -/
theorem Runs.loop (state : ℕ → S → Prop) (count : ℕ)
    (hbody : ∀ i < count, ∀ s, state i s → sem.test cond s = some true ∧
      ∃ s', Runs sem blocks (blocks block) s s' ∧ state (i + 1) s')
    (hend : ∀ s, state count s → sem.test cond s = some false) (hs : state 0 s) :
    ∃ s', Runs sem blocks [.loop cond block] s s' ∧ state count s' := by
  have hrest : ∀ k i s, i + k = count → state i s →
      ∃ s', Runs sem blocks [.loop cond block] s s' ∧ state count s' := by
    intro k
    induction k with
    | zero =>
      intro i s hi hs
      obtain rfl : i = count := hi
      exact ⟨s, Runs.loop_false (hend s hs) Runs.nil, hs⟩
    | succ k ih =>
      intro i s hi hs
      obtain ⟨htest, s₁, hrun, hs₁⟩ := hbody i (by omega) s hs
      obtain ⟨s₂, hrest, hs₂⟩ := ih (i + 1) s₁ (by omega) hs₁
      exact ⟨s₂, Runs.loop_true htest hrun hrest, hs₂⟩
  exact hrest count 0 s (Nat.zero_add count) hs

end InkFuse.Blocks
