import InkFuse.Probing.Ring
import Mathlib.Algebra.BigOperators.Fin
import Mathlib.Algebra.Order.BigOperators.Group.Finset

/-!
Progress of threads that probe a ring under any schedule. A thread whose own steps bring a measure
down returns if it gets enough steps, whatever the others do in between. A probe that has a free
slot ahead of it never leaves a whole round behind.
-/

namespace InkFuse.Probing

section Schedules

variable {σ ι : Type*} {step : σ → ι → σ} {Inv : σ → Prop} {returned : σ → ι → Prop}
  {left : σ → ι → ℕ} {s : σ}

/-- `left` bounds the steps that a thread takes until it has returned. -/
structure Progress (step : σ → ι → σ) (Inv : σ → Prop) (returned : σ → ι → Prop)
    (left : σ → ι → ℕ) : Prop where
  keeps : ∀ s t, Inv s → Inv (step s t)
  own : ∀ s t, Inv s → ¬ returned s t → left (step s t) t < left s t
  rests : ∀ s t, returned s t → step s t = s ∧ left s t = 0
  others : ∀ s t u, Inv s → u ≠ t → left (step s t) u ≤ left s u

theorem Progress.inv (h : Progress step Inv returned left) (hs : Inv s) (schedule : List ι) :
    Inv (schedule.foldl step s) := by
  induction schedule generalizing s with
  | nil => exact hs
  | cons t rest ih => exact ih (h.keeps s t hs)

/-- A schedule in which every thread has enough steps lets all of them return. -/
theorem Progress.returned_of_count [DecidableEq ι] (h : Progress step Inv returned left)
    (hs : Inv s) (schedule : List ι) (hcount : ∀ t, left s t ≤ schedule.count t) (t : ι) :
    returned (schedule.foldl step s) t := by
  induction schedule generalizing s with
  | nil =>
    by_contra hactive
    have hlt := h.own s t hs hactive
    have hzero := hcount t
    rw [List.count_nil] at hzero
    omega
  | cons u rest ih =>
    apply ih (h.keeps s u hs)
    intro v
    have hle := hcount v
    by_cases hvu : v = u
    · subst hvu
      rw [List.count_cons_self] at hle
      by_cases hreturned : returned s v
      · obtain ⟨hsame, hzero⟩ := h.rests s v hreturned
        rw [hsame, hzero]
        exact Nat.zero_le _
      · have hlt := h.own s v hs hreturned
        omega
    · have hother := h.others s u v hs hvu
      rw [List.count_cons_of_ne (Ne.symm hvu)] at hle
      omega

/-- So many steps of every thread are enough for all schedules. -/
theorem Progress.enough [Fintype ι] [DecidableEq ι] (h : Progress step Inv returned left)
    (hs : Inv s) :
    ∃ enough, ∀ schedule : List ι, (∀ t, enough ≤ schedule.count t) →
      ∀ t, returned (schedule.foldl step s) t := by
  refine ⟨∑ t, left s t, ?_⟩
  intro schedule hcount t
  apply h.returned_of_count hs schedule
  intro u
  have hle : left s u ≤ ∑ t, left s t :=
    Finset.single_le_sum (fun v _ => Nat.zero_le (left s v)) (Finset.mem_univ u)
  exact hle.trans (hcount u)

end Schedules

section Rounds

variable {n home free idx probes : ℕ}

/-- A probe that has left `probes` slots behind has not passed the slot `free`. -/
def Ahead (n home free idx probes : ℕ) : Prop :=
  ∃ d, d < n ∧ offset n home d = free ∧ probes ≤ d ∧ offset n home probes = idx

theorem Ahead.start (hhome : home < n) (hfree : free < n) : Ahead n home free home 0 := by
  obtain ⟨d, hd, hoff⟩ := exists_offset hhome hfree
  exact ⟨d, hd, hoff, Nat.zero_le d, offset_zero hhome⟩

theorem Ahead.lt (h : Ahead n home free idx probes) : probes < n := by
  obtain ⟨d, hd, -, hle, -⟩ := h
  omega

theorem Ahead.next (h : Ahead n home free idx probes) (hne : idx ≠ free) :
    Ahead n home free (next n idx) (probes + 1) := by
  obtain ⟨d, hd, hfree, hle, hidx⟩ := h
  have hbefore : probes ≠ d := by
    intro heq
    apply hne
    rw [← hidx, ← hfree, heq]
  refine ⟨d, hd, hfree, by omega, ?_⟩
  rw [← hidx, next_offset (by omega)]

end Rounds

end InkFuse.Probing
