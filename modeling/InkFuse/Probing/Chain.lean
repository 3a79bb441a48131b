import InkFuse.Probing.Ring

/-!
Linear probing chains. A table is seen as a partial map from slots to records;
every record has a home slot. The chain condition says that no free slot lies
between the home of a record and the slot that holds it. It is what makes a
search that stops at the first free slot complete.
-/

namespace InkFuse.Probing

variable {ρ ι : Type*}

def Reaches (n : ℕ) (occ : ℕ → Option ρ) (h i : ℕ) : Prop :=
  ∃ d, d < n ∧ offset n h d = i ∧ ∀ e, e < d → occ (offset n h e) ≠ none

/-- Every record is reached from its home slot. -/
def Chained (n : ℕ) (home : ρ → ℕ) (occ : ℕ → Option ρ) : Prop :=
  ∀ i r, i < n → occ i = some r → Reaches n occ (home r) i

/-- No two slots hold records with the same key. -/
def Unique (n : ℕ) (key : ρ → ι) (occ : ℕ → Option ρ) : Prop :=
  ∀ i j r q, i < n → j < n → occ i = some r → occ j = some q → key r = key q → i = j

def occupied (n : ℕ) (occ : ℕ → Option ρ) : Finset ℕ :=
  (Finset.range n).filter (fun i => (occ i).isSome)

theorem mem_occupied {n : ℕ} {occ : ℕ → Option ρ} {i : ℕ} :
    i ∈ occupied n occ ↔ i < n ∧ occ i ≠ none := by
  simp [occupied, Option.isSome_iff_ne_none]

theorem Reaches.mono {n : ℕ} {occ occ' : ℕ → Option ρ} {h i : ℕ}
    (hr : Reaches n occ h i) (hmono : ∀ j, occ j ≠ none → occ' j ≠ none) :
    Reaches n occ' h i := by
  obtain ⟨d, hd, hoff, hbefore⟩ := hr
  exact ⟨d, hd, hoff, fun e he => hmono _ (hbefore e he)⟩

theorem chained_empty (n : ℕ) (home : ρ → ℕ) : Chained n home (fun _ => none) := by
  intro i r _ hocc
  exact absurd hocc (by simp)

theorem unique_empty (n : ℕ) (key : ρ → ι) : Unique n key (fun _ => none) := by
  intro i j r q _ _ hocc
  exact absurd hocc (by simp)

theorem occupied_empty (n : ℕ) : occupied n (fun _ => (none : Option ρ)) = ∅ := by
  simp [occupied]

/-- A table with fewer records than slots has a free slot. -/
theorem exists_free {n : ℕ} {occ : ℕ → Option ρ} (hcard : (occupied n occ).card < n) :
    ∃ i, i < n ∧ occ i = none := by
  by_contra hfull
  push Not at hfull
  have hsub : Finset.range n ⊆ occupied n occ := by
    intro i hi
    have hlt := Finset.mem_range.mp hi
    exact mem_occupied.mpr ⟨hlt, hfull i hlt⟩
  have hle := Finset.card_le_card hsub
  rw [Finset.card_range] at hle
  omega

section Prefix

variable {n m : ℕ} {occ : ℕ → Option ρ}

/-- The occupied slots below `m + 1` when slot `m` is free. -/
theorem filter_occupied_succ_of_none (hnone : occ m = none) :
    (occupied n occ).filter (· < m + 1) = (occupied n occ).filter (· < m) := by
  apply Finset.filter_congr
  intro i hi
  have hne : i ≠ m := by
    rintro rfl
    exact (mem_occupied.mp hi).2 hnone
  omega

theorem card_filter_occupied_succ (hm : m < n) (hsome : occ m ≠ none) :
    ((occupied n occ).filter (· < m + 1)).card = ((occupied n occ).filter (· < m)).card + 1 := by
  have hinsert : (occupied n occ).filter (· < m + 1) =
      Insert.insert m ((occupied n occ).filter (· < m)) := by
    ext i
    simp only [Finset.mem_filter, Finset.mem_insert, Nat.lt_succ_iff_lt_or_eq]
    constructor
    · rintro ⟨hocc, hlt | rfl⟩
      · exact Or.inr ⟨hocc, hlt⟩
      · exact Or.inl rfl
    · rintro (rfl | ⟨hocc, hlt⟩)
      · exact ⟨mem_occupied.mpr ⟨hm, hsome⟩, Or.inr rfl⟩
      · exact ⟨hocc, Or.inl hlt⟩
  rw [hinsert, Finset.card_insert_of_notMem (by simp)]

end Prefix

section Search

variable {n h : ℕ} {home : ρ → ℕ} {occ : ℕ → Option ρ} {stop : ℕ → Bool} {m : ρ → Prop}

/-- A probe that ends at a free slot shows that the free slot extends the chain. -/
theorem reaches_of_probe {j : ℕ} (hh : h < n) (hp : probe n stop n h = some j)
    (hstop : ∀ i, i < n → stop i = false → occ i ≠ none) : Reaches n occ h j := by
  obtain ⟨d, hd, hoff, _, hbefore⟩ := (probe_eq_some_iff n hh).mp hp
  refine ⟨d, hd, hoff, fun e he => ?_⟩
  exact hstop _ (offset_lt (by omega) h e) (hbefore e he)

/-- The probe for a wanted record finds one when the table holds one: the search
cannot stop at a free slot before it, since the chain of the record is unbroken. -/
theorem probe_found (hh : h < n) (hchain : Chained n home occ)
    (hhome : ∀ r, m r → home r = h)
    (hstop : ∀ i, i < n → (stop i = true ↔ ∀ r, occ i = some r → m r))
    (hex : ∃ i r, i < n ∧ occ i = some r ∧ m r) :
    ∃ j r, j < n ∧ probe n stop n h = some j ∧ occ j = some r ∧ m r := by
  obtain ⟨i, r, hi, hocc, hm⟩ := hex
  have hstopi : stop i = true := by
    rw [hstop i hi]
    intro r' hr'
    rw [hocc, Option.some.injEq] at hr'
    exact hr' ▸ hm
  obtain ⟨j, hj⟩ := probe_isSome hh ⟨i, hi, hstopi⟩
  obtain ⟨d, hd, hoff, hstopj, hbefore⟩ := (probe_eq_some_iff n hh).mp hj
  have hjn : j < n := hoff ▸ offset_lt (by omega) h d
  obtain ⟨c, hc, hoffi, hocci⟩ := hchain i r hi hocc
  rw [hhome r hm] at hoffi hocci
  have hdc : d ≤ c := by
    by_contra hlt
    have hfalse := hbefore c (by omega)
    rw [hoffi, hstopi] at hfalse
    exact absurd hfalse (by simp)
  have hoccj : occ j ≠ none := by
    rcases Nat.lt_or_eq_of_le hdc with hlt | heq
    · exact hoff ▸ hocci d hlt
    · rw [← hoff, heq, hoffi, hocc]
      simp
  obtain ⟨r', hr'⟩ := Option.ne_none_iff_exists'.mp hoccj
  exact ⟨j, r', hjn, hj, hr', (hstop j hjn).mp hstopj r' hr'⟩

/-- The probe for a record the table does not hold ends at a free slot of its chain. -/
theorem probe_absent (hh : h < n)
    (hstop : ∀ i, i < n → (stop i = true ↔ ∀ r, occ i = some r → m r))
    (habsent : ∀ i r, i < n → occ i = some r → ¬ m r)
    (hfree : ∃ i, i < n ∧ occ i = none) :
    ∃ j, j < n ∧ probe n stop n h = some j ∧ occ j = none ∧ Reaches n occ h j := by
  obtain ⟨i, hi, hnone⟩ := hfree
  obtain ⟨j, hj⟩ := probe_isSome hh ⟨i, hi, (hstop i hi).mpr (by simp [hnone])⟩
  obtain ⟨d, hd, hoff, hstopj, _⟩ := (probe_eq_some_iff n hh).mp hj
  have hjn : j < n := hoff ▸ offset_lt (by omega) h d
  have hreach : Reaches n occ h j := by
    refine reaches_of_probe hh hj (fun i hi hfalse hnone => ?_)
    rw [(hstop i hi).mpr (by simp [hnone])] at hfalse
    exact absurd hfalse (by simp)
  refine ⟨j, hjn, hj, ?_, hreach⟩
  by_contra hocc
  obtain ⟨r, hr⟩ := Option.ne_none_iff_exists'.mp hocc
  exact habsent j r hjn hr ((hstop j hjn).mp hstopj r hr)

end Search

section Fill

variable {n j : ℕ} {home : ρ → ℕ} {occ : ℕ → Option ρ} {r : ρ}

theorem update_ne_none (hj : occ j = none) {i : ℕ} (hi : occ i ≠ none) :
    Function.update occ j (some r) i ≠ none := by
  by_cases hij : i = j
  · subst hij
    exact absurd hj hi
  · simpa [Function.update_of_ne hij] using hi

/-- Filling a free slot at the end of a record's chain keeps all chains unbroken. -/
theorem Chained.fill (hchain : Chained n home occ) (hfree : occ j = none)
    (hreach : Reaches n occ (home r) j) :
    Chained n home (Function.update occ j (some r)) := by
  intro i r' hi hocc
  by_cases hij : i = j
  · subst hij
    rw [Function.update_self, Option.some.injEq] at hocc
    subst hocc
    exact hreach.mono (fun _ => update_ne_none hfree)
  · rw [Function.update_of_ne hij] at hocc
    exact (hchain i r' hi hocc).mono (fun _ => update_ne_none hfree)

theorem Unique.fill {key : ρ → ι} (hunique : Unique n key occ)
    (habsent : ∀ i q, i < n → occ i = some q → key q ≠ key r) :
    Unique n key (Function.update occ j (some r)) := by
  intro a b p q ha hb hoa hob hkey
  by_cases haj : a = j <;> by_cases hbj : b = j
  · exact haj.trans hbj.symm
  · rw [haj, Function.update_self, Option.some.injEq] at hoa
    rw [Function.update_of_ne hbj] at hob
    exact absurd (hoa ▸ hkey.symm) (habsent b q hb hob)
  · rw [hbj, Function.update_self, Option.some.injEq] at hob
    rw [Function.update_of_ne haj] at hoa
    exact absurd (hob ▸ hkey) (habsent a p ha hoa)
  · rw [Function.update_of_ne haj] at hoa
    rw [Function.update_of_ne hbj] at hob
    exact hunique a b p q ha hb hoa hob hkey

theorem occupied_fill (hj : j < n) (r : ρ) :
    occupied n (Function.update occ j (some r)) = insert j (occupied n occ) := by
  ext i
  rw [Finset.mem_insert, mem_occupied, mem_occupied]
  by_cases hij : i = j
  · subst hij
    simp [hj]
  · simp [hij]

theorem card_occupied_fill (hj : j < n) (hfree : occ j = none) (r : ρ) :
    (occupied n (Function.update occ j (some r))).card = (occupied n occ).card + 1 := by
  rw [occupied_fill hj, Finset.card_insert_of_notMem]
  exact fun hmem => (mem_occupied.mp hmem).2 hfree

end Fill

section Replace

variable {n j : ℕ} {home : ρ → ℕ} {occ : ℕ → Option ρ} {r r' : ρ}

theorem replace_ne_none (hj : occ j = some r) (i : ℕ) :
    Function.update occ j (some r') i ≠ none ↔ occ i ≠ none := by
  by_cases hij : i = j
  · subst hij
    simp [hj]
  · simp [Function.update_of_ne hij]

/-- A record may change in its slot as long as its home stays the same. -/
theorem Chained.replace (hchain : Chained n home occ) (hj : occ j = some r)
    (hhome : home r' = home r) : Chained n home (Function.update occ j (some r')) := by
  intro i q hi hocc
  have hmono : ∀ i, occ i ≠ none → Function.update occ j (some r') i ≠ none :=
    fun i => (replace_ne_none hj i).mpr
  by_cases hij : i = j
  · subst hij
    rw [Function.update_self, Option.some.injEq] at hocc
    rw [← hocc, hhome]
    exact (hchain i r hi hj).mono hmono
  · rw [Function.update_of_ne hij] at hocc
    exact (hchain i q hi hocc).mono hmono

theorem Unique.replace {key : ρ → ι} (hunique : Unique n key occ) (hj : occ j = some r)
    (hkey : key r' = key r) : Unique n key (Function.update occ j (some r')) := by
  have hold : ∀ i q, Function.update occ j (some r') i = some q →
      ∃ q', occ i = some q' ∧ key q' = key q := by
    intro i q hq
    by_cases hij : i = j
    · subst hij
      rw [Function.update_self, Option.some.injEq] at hq
      exact ⟨r, hj, hq ▸ hkey.symm⟩
    · rw [Function.update_of_ne hij] at hq
      exact ⟨q, hq, rfl⟩
  intro a b p q ha hb hoa hob hpq
  obtain ⟨p', hp', hkp⟩ := hold a p hoa
  obtain ⟨q', hq', hkq⟩ := hold b q hob
  exact hunique a b p' q' ha hb hp' hq' (by rw [hkp, hkq, hpq])

theorem occupied_replace (hj : occ j = some r) :
    occupied n (Function.update occ j (some r')) = occupied n occ := by
  ext i
  rw [mem_occupied, mem_occupied, replace_ne_none hj]

end Replace

end InkFuse.Probing
