import Mathlib.Data.Nat.Find
import Mathlib.Data.Nat.ModEq
import Mathlib.Tactic.Common
import Mathlib.Data.Finset.Card
import Mathlib.Data.Finset.Range

/-!
Positions on a ring of `n` slots, and the linear probe over it. A probe starts at
a home slot and moves to the next slot until it meets one that stops it; at the
last slot it wraps around to slot zero. Nothing here knows what a slot holds.
-/

namespace InkFuse.Probing

def next (n i : ℕ) : ℕ := if i + 1 = n then 0 else i + 1

def offset (n i d : ℕ) : ℕ := (i + d) % n

theorem offset_lt {n : ℕ} (hn : 0 < n) (i d : ℕ) : offset n i d < n := Nat.mod_lt _ hn

theorem offset_zero {n i : ℕ} (hi : i < n) : offset n i 0 = i := by
  simp [offset, Nat.mod_eq_of_lt hi]

theorem next_offset {n : ℕ} (hn : 0 < n) (i d : ℕ) :
    next n (offset n i d) = offset n i (d + 1) := by
  have hlt := offset_lt hn i d
  have hsucc : offset n i (d + 1) = (offset n i d + 1) % n := by
    simp only [offset]
    rw [← Nat.add_assoc, Nat.add_mod (i + d) 1 n, Nat.add_mod ((i + d) % n) 1 n, Nat.mod_mod]
  rw [hsucc, next]
  split
  · rename_i hlast
    rw [hlast, Nat.mod_self]
  · rw [Nat.mod_eq_of_lt (by omega)]

theorem next_lt {n i : ℕ} (hi : i < n) : next n i < n := by
  unfold next
  split <;> omega

theorem next_eq_offset {n i : ℕ} (hi : i < n) : next n i = offset n i 1 := by
  have h := next_offset (by omega : 0 < n) i 0
  rwa [offset_zero hi] at h

theorem offset_next {n i : ℕ} (hi : i < n) (d : ℕ) :
    offset n (next n i) d = offset n i (d + 1) := by
  rw [next_eq_offset hi]
  simp only [offset]
  rw [Nat.mod_add_mod]
  congr 1
  omega

/-- Fewer than `n` advances never come back to a slot already seen. -/
theorem offset_injective {n i d e : ℕ} (hd : d < n) (he : e < n)
    (h : offset n i d = offset n i e) : d = e := by
  have hmod : d ≡ e [MOD n] := Nat.ModEq.add_left_cancel' i h
  exact hmod.eq_of_lt_of_lt hd he

/-- Every slot is reached from every other one by fewer than `n` advances. -/
theorem exists_offset {n i j : ℕ} (hi : i < n) (hj : j < n) :
    ∃ d, d < n ∧ offset n i d = j := by
  by_cases hij : i ≤ j
  · refine ⟨j - i, by omega, ?_⟩
    simp only [offset]
    rw [Nat.add_sub_cancel' hij, Nat.mod_eq_of_lt hj]
  · refine ⟨n - i + j, by omega, ?_⟩
    have hsum : i + (n - i + j) = n + j := by omega
    simp only [offset]
    rw [hsum, Nat.add_mod_left, Nat.mod_eq_of_lt hj]

/-- A chain of `d` distinct slots inside a set of slots is no longer than the set is large. -/
theorem chain_length_le {n i d : ℕ} {full : Finset ℕ} (hd : d ≤ n)
    (hfull : ∀ e, e < d → offset n i e ∈ full) : d ≤ full.card := by
  have hsub : (Finset.range d).image (offset n i) ⊆ full := by
    intro j hj
    obtain ⟨e, he, rfl⟩ := Finset.mem_image.mp hj
    exact hfull e (Finset.mem_range.mp he)
  have hcard : ((Finset.range d).image (offset n i)).card = d := by
    rw [Finset.card_image_of_injOn, Finset.card_range]
    intro a ha b hb hab
    simp only [Finset.coe_range, Set.mem_Iio] at ha hb
    exact offset_injective (by omega) (by omega) hab
  calc
    d = ((Finset.range d).image (offset n i)).card := hcard.symm
    _ ≤ full.card := Finset.card_le_card hsub

/-- Examine at most `fuel` slots from `i` on and return the first that stops the probe. -/
def probe (n : ℕ) (stop : ℕ → Bool) : ℕ → ℕ → Option ℕ
  | 0, _ => none
  | fuel + 1, i => if stop i then some i else probe n stop fuel (next n i)

theorem probe_eq_some_iff {n : ℕ} {stop : ℕ → Bool} (fuel : ℕ) {i j : ℕ} (hi : i < n) :
    probe n stop fuel i = some j ↔
      ∃ d, d < fuel ∧ offset n i d = j ∧ stop j = true ∧
        ∀ e, e < d → stop (offset n i e) = false := by
  induction fuel generalizing i with
  | zero => simp [probe]
  | succ fuel ih =>
    by_cases hstop : stop i = true
    · simp only [probe, hstop, if_true, Option.some.injEq]
      constructor
      · rintro rfl
        exact ⟨0, by omega, offset_zero hi, hstop, by simp⟩
      · rintro ⟨d, _, hoff, _, hbefore⟩
        cases d with
        | zero => rw [← hoff, offset_zero hi]
        | succ d =>
          have h0 := hbefore 0 (by omega)
          rw [offset_zero hi, hstop] at h0
          exact absurd h0 (by simp)
    · have hfalse : stop i = false := by simpa using hstop
      simp only [probe, hfalse, Bool.false_eq_true, if_false]
      rw [ih (next_lt hi)]
      constructor
      · rintro ⟨d, hd, hoff, hj, hbefore⟩
        refine ⟨d + 1, by omega, by rw [← offset_next hi, hoff], hj, ?_⟩
        intro e he
        cases e with
        | zero => rw [offset_zero hi, hfalse]
        | succ e => rw [← offset_next hi]; exact hbefore e (by omega)
      · rintro ⟨d, hd, hoff, hj, hbefore⟩
        cases d with
        | zero =>
          rw [offset_zero hi] at hoff
          rw [← hoff, hfalse] at hj
          exact absurd hj (by simp)
        | succ d =>
          refine ⟨d, by omega, by rw [offset_next hi, hoff], hj, ?_⟩
          intro e he
          rw [offset_next hi]
          exact hbefore (e + 1) (by omega)

/-- A ring with a stopping slot ends every probe within one round. -/
theorem probe_isSome {n : ℕ} {stop : ℕ → Bool} {i : ℕ} (hi : i < n)
    (hex : ∃ j, j < n ∧ stop j = true) : ∃ j, probe n stop n i = some j := by
  classical
  obtain ⟨j, hj, hstop⟩ := hex
  obtain ⟨d, hd, rfl⟩ := exists_offset hi hj
  have hsome : ∃ d, d < n ∧ stop (offset n i d) = true := ⟨d, hd, hstop⟩
  refine ⟨offset n i (Nat.find hsome), (probe_eq_some_iff n hi).mpr ?_⟩
  refine ⟨Nat.find hsome, (Nat.find_spec hsome).1, rfl, (Nat.find_spec hsome).2, ?_⟩
  intro e he
  have hmin := Nat.find_min hsome he
  have hen : e < n := lt_trans he (Nat.find_spec hsome).1
  simpa [hen] using hmin

end InkFuse.Probing
