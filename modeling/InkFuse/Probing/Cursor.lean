import Mathlib.Data.List.Basic
import Mathlib.Data.List.Forall2
import Mathlib.Tactic.Common

/-!
Cursors over a sequence that is never stored: a client only knows the current state, whether it
is past the end, and how to advance it. The sequence appears in a relation between a state and
the positions that are left. Two loops over such a cursor are the counted advance, which
moves a number of positions ahead, and the bounded visit, which runs until it meets another state.
-/

namespace InkFuse.Probing

variable {ε σ α : Type}

structure Cursor (ε σ : Type) where
  advance : σ → Except ε σ
  atEnd : σ → Bool

namespace Cursor

variable (C : Cursor ε σ)

/-- Advance by `n` positions or to the end, and count the positions. -/
def skip : ℕ → σ → Except ε (σ × ℕ)
  | 0, it => .ok (it, 0)
  | n + 1, it =>
    if C.atEnd it then .ok (it, 0)
    else do
      let next ← C.advance it
      let (last, count) ← skip n next
      .ok (last, count + 1)

/-- Visit one state after the other until `stop` holds; `late` is the error for a visit of more
than the given number of states. -/
def visit (late : ε) (stop : σ → Bool) : ℕ → σ → Except ε (List σ)
  | fuel, it =>
    if stop it then .ok []
    else match fuel with
      | 0 => .error late
      | fuel + 1 => do
        let next ← C.advance it
        let visited ← visit late stop fuel next
        .ok (it :: visited)

/-- What a relation between a state and the positions left has to satisfy. -/
structure Enumerates (At : σ → List α → Prop) : Prop where
  atEnd : ∀ {it l}, At it l → (C.atEnd it = true ↔ l = [])
  advance : ∀ {it a l}, At it (a :: l) → ∃ next, C.advance it = .ok next ∧ At next l

variable {C} {At : σ → List α → Prop}

theorem Enumerates.skip (h : C.Enumerates At) (n : ℕ) {it : σ} {l : List α} (hit : At it l) :
    ∃ last, C.skip n it = .ok (last, min n l.length) ∧ At last (l.drop n) := by
  induction n generalizing it l with
  | zero => exact ⟨it, by simp [Cursor.skip], hit⟩
  | succ n ih =>
    cases l with
    | nil =>
      refine ⟨it, ?_, hit⟩
      have hend := (h.atEnd hit).mpr rfl
      simp [Cursor.skip, hend]
    | cons a l =>
      have hend : C.atEnd it = false := by
        rw [← Bool.not_eq_true, h.atEnd hit]
        exact List.cons_ne_nil a l
      obtain ⟨next, hadvance, hnext⟩ := h.advance hit
      obtain ⟨last, hskip, hlast⟩ := ih hnext
      refine ⟨last, ?_, hlast⟩
      simp only [Cursor.skip, hend, Bool.false_eq_true, if_false, hadvance, hskip, bind,
        Except.bind, List.length_cons, Nat.add_min_add_right]

/-- The visit of the positions in front of the state at which `stop` holds. -/
theorem Enumerates.visit (h : C.Enumerates At) (late : ε) (stop : σ → Bool) {l rest : List α}
    (hstop : ∀ it, At it rest → stop it = true)
    (hgo : ∀ a ∈ l, ∀ it left, At it (a :: left) → stop it = false)
    (fuel : ℕ) (hfuel : l.length ≤ fuel) {it : σ} (hit : At it (l ++ rest)) :
    ∃ visited, C.visit late stop fuel it = .ok visited ∧
      List.Forall₂ (fun it a => ∃ left, At it (a :: left)) visited l := by
  induction l generalizing fuel it with
  | nil =>
    refine ⟨[], ?_, List.Forall₂.nil⟩
    unfold Cursor.visit
    rw [if_pos (hstop it hit)]
  | cons a l ih =>
    obtain ⟨fuel, rfl⟩ : ∃ f, fuel = f + 1 :=
      Nat.exists_eq_succ_of_ne_zero (Nat.ne_of_gt (Nat.lt_of_lt_of_le (Nat.succ_pos _) hfuel))
    obtain ⟨next, hadvance, hnext⟩ := h.advance hit
    obtain ⟨visited, hvisit, hforall⟩ := ih (fun b hb => hgo b (List.mem_cons_of_mem a hb)) fuel
      (Nat.le_of_succ_le_succ hfuel) hnext
    refine ⟨it :: visited, ?_, List.Forall₂.cons ⟨_, hit⟩ hforall⟩
    have hgoes := hgo a List.mem_cons_self it _ hit
    unfold Cursor.visit
    simp only [hgoes, Bool.false_eq_true, if_false, hadvance, hvisit, bind, Except.bind]

end Cursor

end InkFuse.Probing
