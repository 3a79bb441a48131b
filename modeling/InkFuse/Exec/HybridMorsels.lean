import InkFuse.Exec.ScanMorsels

/-!
The lanes of a hybrid pipeline are threads of a table scan. A morsel of a lane is a pick, the
interpreters of the scanned columns or the compiled code, and the end of the morsel. The lanes
therefore print disjoint ranges of the table.
-/

namespace InkFuse.Exec

variable {T n : ℕ}

namespace TScan

variable {p : TScan n} {q q' : TScanState T n} {t : Fin T}

theorem run_append {q₁ : TScanState T n} {actions rest : List (ScanAction T)}
    (h : p.run q actions = some q₁) (hrest : p.run q₁ rest = some q') :
    p.run q (actions ++ rest) = some q' := by
  induction actions generalizing q with
  | nil =>
    obtain rfl := Option.some.inj h
    exact hrest
  | cons a actions ih =>
    obtain ⟨q₂, hstep, hrun⟩ := Option.bind_eq_some_iff.mp h
    exact Option.bind_eq_some_iff.mpr ⟨q₂, hstep, ih hrun⟩

/-- A pick behind the end of the table. -/
theorem run_exhausted (hidle : q.lanes t = .idle) (hend : p.relSize ≤ q.startIdx)
    (compiled : Bool) :
    p.run q [.fetch t compiled, .bind t] = some
      { q with startIdx := q.startIdx + p.chunkSize
               lanes := Function.update q.lanes t .exhausted } := by
  simp [run, step, fetch, bind, TScanState.setLane, hidle, hend]

def afterPick (p : TScan n) (q : TScanState T n) (t : Fin T) (compiled : Bool) : TScanState T n :=
  let morsel : Morsel := ⟨q.startIdx, min (q.startIdx + p.chunkSize) p.relSize⟩
  { q with startIdx := q.startIdx + p.chunkSize
           drivers := Function.update q.drivers t morsel
           lanes := Function.update q.lanes t
             (if compiled then .compiled morsel else .interpreting 0 morsel)
           picked := q.picked ++ [(t, morsel)] }

theorem run_pick (hidle : q.lanes t = .idle) (hmore : q.startIdx < p.relSize) (compiled : Bool) :
    p.run q [.fetch t compiled, .bind t] = some (p.afterPick q t compiled) := by
  simp [run, step, fetch, bind, afterPick, TScanState.setLane, hidle, Nat.not_le.mpr hmore]

/-- The state after `ran` interpreters of a morsel, each of which has bound the column of its
own number. -/
structure Bound (q q' : TScanState T n) (t : Fin T) (morsel : Morsel) (ran : ℕ) : Prop where
  startIdx : q'.startIdx = q.startIdx
  drivers : q'.drivers = q.drivers
  picked : q'.picked = q.picked
  lanes : q'.lanes = Function.update q.lanes t (.interpreting ran morsel)
  other : ∀ u, u ≠ t → q'.columns u = q.columns u
  column : ∀ c : Fin n, c.val < ran →
    q'.columns t c = ⟨.base morsel.start, morsel.stop - morsel.start⟩

theorem run_interpreters (hp : p.interpreters = (List.finRange n).map some) {morsel : Morsel}
    (hlane : q.lanes t = .interpreting 0 morsel) (hdriver : q.drivers t = morsel) (ran : ℕ)
    (hran : ran ≤ n) :
    ∃ q', p.run q (List.replicate ran (.runInterpreter t)) = some q' ∧ Bound q q' t morsel ran := by
  induction ran with
  | zero =>
    refine ⟨q, rfl, rfl, rfl, rfl, ?_, fun _ _ => rfl, fun c hc => absurd hc (Nat.not_lt_zero _)⟩
    rw [← hlane, Function.update_eq_self]
  | succ ran ih =>
    obtain ⟨q₁, hrun, hbound⟩ := ih (by omega)
    have hlt : ran < n := hran
    have hlane₁ : q₁.lanes t = .interpreting ran morsel := by
      rw [hbound.lanes, Function.update_self]
    have hget : p.interpreters[ran]? = some (some ⟨ran, hlt⟩) := by
      simp [hp, hlt]
    refine ⟨(q₁.runZeroCopyScan t ⟨ran, hlt⟩).setLane t (.interpreting (ran + 1) morsel), ?_,
      hbound.startIdx, hbound.drivers, hbound.picked, ?_, fun u hu => ?_, fun c hc => ?_⟩
    · rw [List.replicate_succ']
      refine run_append hrun ?_
      simp only [run, step, hlane₁, hget, runInterpreter]
      rfl
    · simp [TScanState.setLane, TScanState.runZeroCopyScan, hbound.lanes]
    · rw [← hbound.other u hu]
      exact Function.update_of_ne hu ..
    · simp only [TScanState.setLane, TScanState.runZeroCopyScan, Function.update_self]
      by_cases hcr : c = ⟨ran, hlt⟩
      · rw [hcr, Function.update_self, hbound.drivers, hdriver]
      · have hne : c.val ≠ ran := fun h => hcr (Fin.ext h)
        rw [Function.update_of_ne hcr]
        exact hbound.column c (by omega)

end TScan

namespace ScanPipeline

def toTScan (p : ScanPipeline (n + 1)) : TScan (n + 1) where
  relSize := p.relSize
  chunkSize := defaultChunkSize
  chunkSize_pos := by decide
  interpreters := (List.finRange (n + 1)).map some
  first_provides := ⟨0, ((List.finRange n).map Fin.succ).map some, by rw [List.finRange_succ]; rfl⟩

/-- A lane that may run more morsels. -/
def Lane.GoesOn (l : Lane) : Prop := l = .warmUp ∨ l = .arrived false ∨ l = .switching

/-- A scan has handed out the morsels that the lanes have printed, and no other ones. -/
structure Scanned (s : Swimlanes T n) (q : TScanState T n) : Prop where
  startIdx : q.startIdx = s.startIdx
  lanes : ∀ t, Lane.GoesOn (s.lane t) → q.lanes t = .idle
  columns : ∀ t, Lane.GoesOn (s.lane t) → q.columns t = s.columns t
  printed : q.picked.map Prod.snd = s.printed.map fun m => ⟨m.start, m.stop⟩

section Steps

variable {p : ScanPipeline n} {s s' : Swimlanes T n} {q q' : TScanState T n} {t : Fin T}

theorem foldl_columns {α : Type} {f : Swimlanes T n → α → Swimlanes T n} {u : Fin T}
    (hf : ∀ s a, (f s a).columns u = s.columns u) (as : List α) (s : Swimlanes T n) :
    (as.foldl f s).columns u = s.columns u := by
  induction as generalizing s with
  | nil => rfl
  | cons a as ih => rw [List.foldl_cons, ih, hf]

theorem runCompiled_other {sinkData : Fin T → Fin n → ColumnPtr} {u : Fin T} (hut : u ≠ t)
    (start stop : ℕ) : (p.runCompiled s t sinkData start stop).columns u = s.columns u := by
  refine foldl_columns (fun s row => foldl_columns (fun s c => ?_) _ _) _ _
  unfold Swimlanes.sinkValue Swimlanes.storeValue
  split <;> exact Function.update_of_ne hut ..

/-- A lane that goes on after another one has terminated. -/
theorem goesOn_of_update {lane : Fin T → Lane} {terminated : Lane} {u : Fin T}
    (hterm : ¬ Lane.GoesOn terminated)
    (hu : Lane.GoesOn (Function.update lane t terminated u)) : u ≠ t ∧ Lane.GoesOn (lane u) := by
  by_cases hut : u = t
  · rw [hut, Function.update_self] at hu
    exact absurd hu hterm
  · rw [Function.update_of_ne hut] at hu
    exact ⟨hut, hu⟩

/-- The end of a morsel, in the printer and in the scan. -/
theorem scanned_finish {start stop : ℕ} {closed : Bool} {next terminated : Lane}
    (hstart : q.startIdx = s.startIdx)
    (hlanes : ∀ u, u ≠ t → Lane.GoesOn (s.lane u) → q.lanes u = .idle)
    (hcolumns : ∀ u, u ≠ t → Lane.GoesOn (s.lane u) → q.columns u = s.columns u)
    (hraw : ∀ c, (q.columns t c).rawData = (s.columns t c).rawData)
    (hprinted : q.picked.map Prod.snd =
      (s.printed.map fun m => (⟨m.start, m.stop⟩ : Morsel)) ++ [⟨start, stop⟩])
    (hterm : ¬ Lane.GoesOn terminated) :
    Scanned (p.finishMorsel s t start stop closed next terminated)
      (if closed then q.setLane t .closed else (q.cleanUp t).setLane t .idle) := by
  have hmarked : q.picked.map Prod.snd = ((p.markMorselDone s t start stop).printed.map
      fun m => (⟨m.start, m.stop⟩ : Morsel)) := by
    rw [hprinted, markMorselDone, List.map_append, List.map_singleton]
  cases closed with
  | true =>
    refine ⟨hstart, fun u hu => ?_, fun u hu => ?_, hmarked⟩
    · obtain ⟨hut, hold⟩ := goesOn_of_update hterm (finishMorsel_lane (p := p) .. ▸ hu)
      exact (Function.update_of_ne hut ..).trans (hlanes u hut hold)
    · obtain ⟨hut, hold⟩ := goesOn_of_update hterm (finishMorsel_lane (p := p) .. ▸ hu)
      exact hcolumns u hut hold
  | false =>
    refine ⟨hstart, fun u hu => ?_, fun u hu => ?_, hmarked⟩
    · by_cases hut : u = t
      · rw [hut]
        exact Function.update_self ..
      · rw [finishMorsel_lane, Function.update_of_ne hut] at hu
        exact (Function.update_of_ne hut ..).trans (hlanes u hut hu)
    · by_cases hut : u = t
      · subst hut
        funext c
        simp [finishMorsel, markMorselDone, Swimlanes.cleanUp, Swimlanes.setLane,
          TScanState.cleanUp, TScanState.setLane, hraw c]
      · rw [finishMorsel_lane, Function.update_of_ne hut] at hu
        simp [finishMorsel, markMorselDone, Swimlanes.cleanUp, Swimlanes.setLane,
          TScanState.cleanUp, TScanState.setLane, Function.update_of_ne hut, hcolumns u hut hu]

theorem run_finish {P : TScan n} {morsel : Morsel} (closed : Bool)
    (hlane : q.lanes t = .interpreting P.interpreters.length morsel ∨
      q.lanes t = .compiled morsel) :
    P.run q [.finish t closed] =
      some (if closed then q.setLane t .closed else (q.cleanUp t).setLane t .idle) := by
  rcases hlane with hlane | hlane <;> simp [TScan.run, TScan.step, hlane]

/-- A lane that finds no more rows. -/
theorem Scanned.exhausted {p : ScanPipeline (n + 1)} {s : Swimlanes T (n + 1)}
    {q : TScanState T (n + 1)} (hq : Scanned s q) (hlane : Lane.GoesOn (s.lane t))
    (hend : p.relSize ≤ s.startIdx) (compiled : Bool) {terminated : Lane}
    (hterm : ¬ Lane.GoesOn terminated) :
    ∃ q', p.toTScan.run q [.fetch t compiled, .bind t] = some q' ∧
      Scanned ((advance s).setLane t terminated) q' := by
  refine ⟨_, TScan.run_exhausted (hq.lanes t hlane) (by rw [hq.startIdx]; exact hend) compiled,
    ?_, fun u hu => ?_, fun u hu => ?_, hq.printed⟩
  · show q.startIdx + defaultChunkSize = s.startIdx + defaultChunkSize
    rw [hq.startIdx]
  · obtain ⟨hut, hold⟩ := goesOn_of_update hterm hu
    exact (Function.update_of_ne hut ..).trans (hq.lanes u hold)
  · exact hq.columns u (goesOn_of_update hterm hu).2

end Steps

section Runs

variable {p : ScanPipeline (n + 1)} {s s' : Swimlanes T (n + 1)} {q : TScanState T (n + 1)}
  {t : Fin T}

theorem afterInterpreted_goesOn {ready : Bool} {l next terminated : Lane}
    (h : Lane.afterInterpreted ready l = some (next, terminated)) :
    Lane.GoesOn l ∧ ¬ Lane.GoesOn terminated := by
  cases l with
  | warmUp =>
    obtain ⟨rfl, rfl⟩ := Prod.mk.inj (Option.some.inj h)
    simp [Lane.GoesOn]
  | switching =>
    obtain ⟨rfl, rfl⟩ := Prod.mk.inj (Option.some.inj h)
    simp [Lane.GoesOn]
  | arrived terminate => cases h
  | done => cases h

/-- An interpreted morsel is a pick and the interpreters of all columns. -/
theorem Scanned.interpret (hq : Scanned s q) (hlane : Lane.GoesOn (s.lane t))
    (hmore : s.startIdx < p.relSize) (closed : Bool) {next terminated : Lane}
    (hterm : ¬ Lane.GoesOn terminated) :
    ∃ actions q', p.toTScan.run q actions = some q' ∧
      Scanned (p.finishMorsel ((advance s).runZeroCopyScan t s.startIdx (p.morselEnd s)) t
        s.startIdx (p.morselEnd s) closed next terminated) q' := by
  have hmore' : q.startIdx < p.toTScan.relSize := hq.startIdx ▸ hmore
  have hpick := TScan.run_pick (hq.lanes t hlane) hmore' false
  have hproviders : p.toTScan.interpreters = (List.finRange (n + 1)).map some := rfl
  obtain ⟨q₂, hrun, hbound⟩ := TScan.run_interpreters (q := p.toTScan.afterPick q t false)
    hproviders (Function.update_self ..) (Function.update_self ..) (n + 1) le_rfl
  have hlane₂ : q₂.lanes t = .interpreting p.toTScan.interpreters.length
      ⟨q.startIdx, min (q.startIdx + defaultChunkSize) p.relSize⟩ := by
    rw [hbound.lanes, Function.update_self, toTScan, List.length_map, List.length_finRange]
  refine ⟨_, _, TScan.run_append hpick (TScan.run_append hrun (run_finish closed (Or.inl hlane₂))),
    scanned_finish ?_ (fun u hut hu => ?_) (fun u hut hu => ?_) (fun c => ?_) ?_ hterm⟩
  · rw [hbound.startIdx]
    show q.startIdx + defaultChunkSize = s.startIdx + defaultChunkSize
    rw [hq.startIdx]
  · rw [hbound.lanes, Function.update_of_ne hut]
    exact (Function.update_of_ne hut ..).trans (hq.lanes u hu)
  · rw [hbound.other u hut]
    exact (hq.columns u hu).trans (Function.update_of_ne hut ..).symm
  · rw [hbound.column c c.isLt]
    simp [Swimlanes.runZeroCopyScan, hq.startIdx]
  · rw [hbound.picked]
    show (q.picked ++ [_]).map Prod.snd = (s.printed.map _) ++ _
    rw [List.map_append, hq.printed, hq.startIdx]
    rfl

/-- A compiled morsel is a pick. -/
theorem Scanned.compile (hq : Scanned s q) (hlane : Lane.GoesOn (s.lane t))
    (hmore : s.startIdx < p.relSize) (sinkData : Fin T → Fin (n + 1) → ColumnPtr) (closed : Bool)
    {next terminated : Lane} (hterm : ¬ Lane.GoesOn terminated) :
    ∃ actions q', p.toTScan.run q actions = some q' ∧
      Scanned (p.finishMorsel (p.runCompiled (advance s) t sinkData s.startIdx (p.morselEnd s)) t
        s.startIdx (p.morselEnd s) closed next terminated) q' := by
  have hmore' : q.startIdx < p.toTScan.relSize := hq.startIdx ▸ hmore
  have hpick := TScan.run_pick (hq.lanes t hlane) hmore' true
  have hkept := kept_runCompiled (p := p) (advance s) t sinkData s.startIdx (p.morselEnd s)
  refine ⟨_, _, TScan.run_append hpick (run_finish closed (Or.inr (Function.update_self ..))),
    scanned_finish ?_ (fun u hut hu => ?_) (fun u hut hu => ?_) (fun c => ?_) ?_ hterm⟩
  · rw [hkept.startIdx]
    show q.startIdx + defaultChunkSize = s.startIdx + defaultChunkSize
    rw [hq.startIdx]
  · rw [hkept.lane] at hu
    exact (Function.update_of_ne hut ..).trans (hq.lanes u hu)
  · rw [hkept.lane] at hu
    rw [runCompiled_other hut]
    exact hq.columns u hu
  · rw [hkept.rawData]
    exact congrArg Column.rawData (congrFun (hq.columns t hlane) c)
  · rw [hkept.printed]
    show (q.picked ++ [_]).map Prod.snd = (s.printed.map _) ++ _
    rw [List.map_append, hq.printed, hq.startIdx]
    rfl

/-- A step of the lanes is a run of the scan. -/
theorem step_scanned {a : Action T} (h : p.step s a = some s') (hq : Scanned s q) :
    ∃ actions q', p.toTScan.run q actions = some q' ∧ Scanned s' q' := by
  rcases step_cases h with ⟨_, rfl⟩ | ⟨t, closed, next, terminated, _, hlane, hcase⟩ |
    ⟨_, hall, rfl⟩ | ⟨t, closed, sinkData, _, _, hlane, hcase⟩
  · exact ⟨[], q, rfl, hq.startIdx, hq.lanes, hq.columns, hq.printed⟩
  · obtain ⟨hgoes, hterm⟩ := afterInterpreted_goesOn hlane
    rcases hcase with ⟨hend, rfl⟩ | ⟨hmore, rfl⟩
    · exact ⟨_, hq.exhausted hgoes hend false hterm⟩
    · exact hq.interpret hgoes hmore closed hterm
  · -- The lanes that switch have arrived without an end of their work.
    have hgoes : ∀ t, Lane.GoesOn (if s.lane t = .arrived true then .done else .switching) →
        Lane.GoesOn (s.lane t) := by
      intro t ht
      by_cases hend : s.lane t = .arrived true
      · simp [hend, Lane.GoesOn] at ht
      · exact Or.inr (Or.inl ((hall t).resolve_right hend))
    exact ⟨[], q, rfl, hq.startIdx, fun t ht => hq.lanes t (hgoes t ht),
      fun t ht => hq.columns t (hgoes t ht), hq.printed⟩
  · have hgoes : Lane.GoesOn (s.lane t) := Or.inr (Or.inr hlane)
    have hterm : ¬ Lane.GoesOn .done := by simp [Lane.GoesOn]
    rcases hcase with ⟨hend, rfl⟩ | ⟨hmore, rfl⟩
    · exact ⟨_, hq.exhausted hgoes hend true hterm⟩
    · exact hq.compile hgoes hmore sinkData closed hterm

theorem run_scanned {acts : List (Action T)} (h : p.run s acts = some s') (hq : Scanned s q) :
    ∃ actions q', p.toTScan.run q actions = some q' ∧ Scanned s' q' := by
  induction acts generalizing s q with
  | nil =>
    obtain rfl := Option.some.inj h
    exact ⟨[], q, rfl, hq⟩
  | cons a acts ih =>
    obtain ⟨s₁, hstep, hrun⟩ := Option.bind_eq_some_iff.mp h
    obtain ⟨actions₁, q₁, hscan, hq₁⟩ := step_scanned hstep hq
    obtain ⟨actions₂, q₂, hscan₂, hq₂⟩ := ih hrun hq₁
    exact ⟨actions₁ ++ actions₂, q₂, TScan.run_append hscan hscan₂, hq₂⟩

/-- The lanes print ranges of the table that do not meet. -/
theorem printed_disjoint {chunk : Fin T → Fin (n + 1) → ℕ → Bytes} {acts : List (Action T)}
    (h : p.run (p.start chunk) acts = some s) :
    (∀ m ∈ s.printed, m.start < m.stop ∧ m.stop ≤ p.relSize) ∧
      s.printed.Pairwise fun m k => m.stop ≤ k.start ∨ k.stop ≤ m.start := by
  have hstart : Scanned (p.start chunk) (TScan.start T) :=
    ⟨rfl, fun _ _ => rfl, fun _ _ => rfl, rfl⟩
  obtain ⟨actions, q, hscan, hq⟩ := run_scanned h hstart
  have hinv := TScan.run_inv hscan (TScan.start_inv p.toTScan T)
  constructor
  · intro m hm
    have hmem : (⟨m.start, m.stop⟩ : Morsel) ∈ q.picked.map Prod.snd := by
      rw [hq.printed]
      exact List.mem_map_of_mem hm
    obtain ⟨r, hr, hrm⟩ := List.mem_map.mp hmem
    obtain ⟨_, _, hlt, hstop⟩ := hinv.picked r hr
    have hpos := p.toTScan.chunkSize_pos
    rw [hrm] at hlt hstop
    replace hlt : m.start < p.relSize := hlt
    replace hstop : m.stop = min (m.start + p.toTScan.chunkSize) p.relSize := hstop
    omega
  · have hpicked := (List.pairwise_map (f := Prod.snd)
      (R := fun m k : Morsel => m.stop ≤ k.start ∨ k.stop ≤ m.start)).mpr hinv.pairwise_disjoint
    rw [hq.printed] at hpicked
    exact List.pairwise_map.mp hpicked

end Runs

end ScanPipeline

end InkFuse.Exec
