import Mathlib.Data.List.Basic
import Mathlib.Tactic.Common

/-!
Scans over the slots `0 .. n-1` with an iterator that only knows its current slot. A
full scan visits exactly the slots with the wanted property, in ascending order.
-/

namespace InkFuse.Probing

variable (p : ℕ → Bool)

/-- The first of the `fuel` slots from `i` on with property `p`. -/
def seek : ℕ → ℕ → Option ℕ
  | 0, _ => none
  | fuel + 1, i => if p i then some i else seek fuel (i + 1)

def scanStart (n : ℕ) : Option ℕ := seek p n 0

def scanNext (n i : ℕ) : Option ℕ := seek p (n - (i + 1)) (i + 1)

def follow (n : ℕ) : ℕ → Option ℕ → List ℕ
  | 0, _ => []
  | _ + 1, none => []
  | fuel + 1, some i => i :: follow n fuel (scanNext p n i)

def scan (n : ℕ) : List ℕ := follow p n n (scanStart p n)

private theorem follow_seek (n : ℕ) (k i fuel : ℕ) (hk : i + k = n) (hfuel : k ≤ fuel) :
    follow p n fuel (seek p k i) = (List.range' i k).filter p := by
  induction k generalizing i fuel with
  | zero =>
    cases fuel <;> rfl
  | succ k ih =>
    rw [List.range'_succ, List.filter_cons]
    by_cases hp : p i = true
    · obtain ⟨fuel, rfl⟩ : ∃ f, fuel = f + 1 := ⟨fuel - 1, by omega⟩
      have hnext : scanNext p n i = seek p k (i + 1) := by
        unfold scanNext
        congr 1
        omega
      simp only [seek, hp, if_true, follow, hnext]
      rw [ih (i + 1) fuel (by omega) (by omega)]
    · simp only [seek, hp, if_false, Bool.false_eq_true]
      exact ih (i + 1) fuel (by omega) (by omega)

theorem scan_eq (n : ℕ) : scan p n = (List.range n).filter p := by
  rw [scan, scanStart, follow_seek p n n 0 n (by omega) (Nat.le_refl n), List.range_eq_range']

end InkFuse.Probing
