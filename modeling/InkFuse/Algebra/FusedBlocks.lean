import InkFuse.Algebra.FusedCode

/-!
The blocks of a generated function. The suboperators of a pipeline lie in layers, one for each
filter around them; every filter reads the layer above it. So the scopes generate their code from
the outermost to the innermost, they end the other way around, and the `if` of each is the last
statement of the block that it was opened in.
-/

namespace InkFuse.Algebra.SubopGraph

open Blocks

variable {IU : Type} [DecidableEq IU]

def opensBlockAt (subops : List (Suboperator IU)) (k : ℕ) : Bool :=
  subops[k]?.any (·.opensBlock)

/-- One loop driver, its IU providers, expressions, copies, and filters one inside the other. Every
suboperator reads columns of its own layer, and a filter columns of the layer above; the sinks are
in the innermost layer. -/
structure FilterLayers (subops : List (Suboperator IU)) (layer : ℕ → ℕ)
    (innermost driver : ℕ) (driverIU : IU) : Prop where
  links : FilterLinks subops
  unique : UniqueProviders subops
  fusable : ∀ op ∈ subops, op.isFusable = true
  driverAt : subops[driver]? = some (.loopDriver driverIU)
  oneDriver : ∀ (k : ℕ) (iu : IU), subops[k]? = some (.loopDriver iu) → k = driver
  driverLayer : layer driver = 0
  indexed : ∀ (k : ℕ) (source iu : IU), subops[k]? = some (.tscanIUProvider source iu) ∨
    subops[k]? = some (.fuseChunkSourceIUProvider source iu) → source = driverIU
  scope : ∀ (k : ℕ) (filterIU pseudo : IU), subops[k]? = some (.columnFilterScope filterIU pseudo) →
    ∀ j ∈ (Pipeline.build subops).incomingEdges k, layer k = layer j + 1
  logic : ∀ (k s : ℕ) (pseudo incoming redefined : IU),
    subops[k]? = some (.columnFilterLogic pseudo incoming redefined) →
    (Pipeline.build subops).scopeOf k = some s →
      layer k = layer s ∧ layer ((Pipeline.build subops).providerOf (k, incoming)) + 1 = layer k
  same : ∀ (k : ℕ) (op : Suboperator IU), subops[k]? = some op →
    (∀ filterIU pseudo, op ≠ .columnFilterScope filterIU pseudo) →
    (∀ pseudo incoming redefined, op ≠ .columnFilterLogic pseudo incoming redefined) →
    ∀ j ∈ (Pipeline.build subops).incomingEdges k, layer j = layer k
  pseudo : ∀ (s : ℕ) (filterIU pseudo : IU),
    subops[s]? = some (.columnFilterScope filterIU pseudo) → ∀ op ∈ subops, pseudo ∉ op.reads
  oneScope : ∀ s t, opensBlockAt subops s = true → opensBlockAt subops t = true →
    layer s = layer t → s = t
  sinks : ∀ (k : ℕ) (iu : IU), subops[k]? = some (.fuseChunkSink iu) → layer k = innermost
  inside : ∀ k < subops.length, layer k ≤ innermost

section Order

variable {subops : List (Suboperator IU)} {layer : ℕ → ℕ} {innermost driver : ℕ} {driverIU : IU}
variable {order closings : List ℕ}

theorem FilterLayers.opens_driver (h : FilterLayers subops layer innermost driver driverIU) :
    opensBlockAt subops driver = true := by
  rw [opensBlockAt, h.driverAt]
  rfl

/-- Who has no inputs is the driver. -/
theorem FilterLayers.has_input (h : FilterLayers subops layer innermost driver driverIU) {k : ℕ}
    {op : Suboperator IU} (hop : subops[k]? = some op) (hne : k ≠ driver) :
    ∃ j, j ∈ (Pipeline.build subops).incomingEdges k := by
  have hfusable := h.fusable op (List.mem_of_getElem? hop)
  have hlength := length_incomingEdges h.links.provided k
  rw [sourceIUsAt_eq hop] at hlength
  apply List.exists_mem_of_length_pos
  rw [hlength]
  cases op with
  | loopDriver iu => exact absurd (h.oneDriver k iu hop) hne
  | hashTableSource => cases hfusable
  | scratchPadIUProvider => cases hfusable
  | _ => simp [Suboperator.getSourceIUs]

/-- Below any suboperator there is a scope for each layer, and the driver. -/
theorem FilterLayers.opens_below (h : FilterLayers subops layer innermost driver driverIU)
    {A : ℕ → Prop} (hclosed : ∀ k, A k → ∀ j ∈ (Pipeline.build subops).incomingEdges k, A j)
    {k l : ℕ} (hk : k < subops.length) (hA : A k) (hl : l ≤ layer k) :
    ∃ s, A s ∧ opensBlockAt subops s = true ∧ layer s = l := by
  induction k using Nat.strong_induction_on with
  | _ k ih =>
    have hbefore := fun j hj => lt_of_mem_incomingEdges h.links.provided (j := j) (k := k) hj
    have hdown : ∀ j ∈ (Pipeline.build subops).incomingEdges k, l ≤ layer j →
        ∃ s, A s ∧ opensBlockAt subops s = true ∧ layer s = l := by
      intro j hj hlj
      have hlt := (hbefore j hj).1
      exact ih j hlt (Nat.lt_trans hlt hk) (hclosed k hA j hj) hlj
    have hop := List.getElem?_eq_getElem hk
    by_cases hdriver : k = driver
    · refine ⟨k, hA, ?_, ?_⟩
      · rw [hdriver]
        exact h.opens_driver
      · rw [hdriver, h.driverLayer] at hl ⊢
        omega
    · obtain ⟨j, hj⟩ := h.has_input hop hdriver
      cases hcase : subops[k] with
      | columnFilterScope filterIU pseudo =>
        rw [hcase] at hop
        rcases Nat.lt_or_eq_of_le hl with hlt | rfl
        · apply hdown j hj
          have := h.scope k _ _ hop j hj
          omega
        · refine ⟨k, hA, ?_, rfl⟩
          rw [opensBlockAt, hop]
          rfl
      | columnFilterLogic pseudo incoming redefined =>
        rw [hcase] at hop
        have hop' : (Pipeline.build subops).suboperators[k]? =
            some (.columnFilterLogic pseudo incoming redefined) := by
          rwa [build_suboperators]
        obtain ⟨s, hscope, -, -⟩ := h.links.dag.logic k _ _ _ hop'
        obtain ⟨_, _, _, hop'', hfind⟩ := scopeOf_eq_some hscope
        apply hdown s (List.mem_of_find?_eq_some hfind)
        rw [← (h.logic k s _ _ _ hop hscope).1]
        exact hl
      | _ =>
        rw [hcase] at hop
        apply hdown j hj
        rw [h.same k _ hop (by simp) (by simp) j hj]
        exact hl

omit [DecidableEq IU] in
theorem opensBlockAt_lt {k : ℕ} (h : opensBlockAt subops k = true) : k < subops.length := by
  by_contra hge
  rw [opensBlockAt, List.getElem?_eq_none (Nat.le_of_not_lt hge)] at h
  cases h

/-- The code of the scopes comes layer by layer. -/
theorem FilterLayers.order_layers (h : FilterLayers subops layer innermost driver driverIU)
    (ho : CodeOrder subops order closings) :
    (order.filter (opensBlockAt subops)).Pairwise fun a b => layer a < layer b := by
  have hnodup : order.Nodup := ho.emitted.nodup_iff.mpr List.nodup_range
  rw [List.pairwise_filter, List.pairwise_iff_getElem]
  intro i j hi hj hij ha hb
  by_contra hge
  have hclosed : ∀ k, (∃ m ≤ i, order[m]? = some k) →
      ∀ x ∈ (Pipeline.build subops).incomingEdges k, ∃ m ≤ i, order[m]? = some x := by
    rintro k ⟨m, hm, hk⟩ x hx
    obtain ⟨hlt, rfl⟩ := List.getElem?_eq_some_iff.mp hk
    have hmem := ho.inputs (order.take m) order[m] (order.drop (m + 1)) (by simp) x hx
    obtain ⟨m', hm'⟩ := List.mem_iff_getElem?.mp hmem
    have hlt' := (List.getElem?_eq_some_iff.mp hm').1
    rw [List.length_take] at hlt'
    rw [List.getElem?_take_of_lt (by omega)] at hm'
    exact ⟨m', by omega, hm'⟩
  obtain ⟨s, ⟨m, hm, hs⟩, hopens, hlayer⟩ := h.opens_below hclosed (opensBlockAt_lt ha)
    ⟨i, Nat.le_refl i, List.getElem?_eq_getElem hi⟩ (Nat.le_of_not_lt hge)
  obtain rfl := h.oneScope s _ hopens hb hlayer
  rw [← List.getElem?_eq_getElem hj] at hs
  have := (List.getElem?_inj (by omega) hnodup).mp hs
  omega

/-- The scopes end in the opposite order. -/
theorem FilterLayers.closings_layers (h : FilterLayers subops layer innermost driver driverIU)
    (ho : CodeOrder subops order closings) :
    (closings.filter (opensBlockAt subops)).Pairwise fun a b => layer b < layer a := by
  have hnodup : closings.Nodup := ho.finished.nodup_iff.mpr List.nodup_range
  rw [List.pairwise_filter, List.pairwise_iff_getElem]
  intro i j hi hj hij ha hb
  by_contra hge
  have hclosed : ∀ k, (∃ m ≥ j, closings[m]? = some k) →
      ∀ x ∈ (Pipeline.build subops).incomingEdges k, ∃ m ≥ j, closings[m]? = some x := by
    rintro k ⟨m, hm, hk⟩ x hx
    have hlt := (lt_of_mem_incomingEdges h.links.provided hx).1
    have hkmem : k < subops.length := by
      rw [← List.mem_range, ← ho.finished.mem_iff]
      exact List.mem_of_getElem? hk
    have hxmem : x ∈ closings := by
      rw [ho.finished.mem_iff, List.mem_range]
      omega
    obtain ⟨m', hm'⟩ := List.mem_iff_getElem?.mp hxmem
    obtain ⟨hlt', rfl⟩ := List.getElem?_eq_some_iff.mp hm'
    have hpre := ho.readers (closings.take m') closings[m'] (closings.drop (m' + 1)) (by simp) k hx
    obtain ⟨m'', hm''⟩ := List.mem_iff_getElem?.mp hpre
    have hlt'' := (List.getElem?_eq_some_iff.mp hm'').1
    rw [List.length_take] at hlt''
    rw [List.getElem?_take_of_lt (by omega), ← hk] at hm''
    have := (List.getElem?_inj (by omega) hnodup).mp hm''
    exact ⟨m', by omega, hm'⟩
  obtain ⟨s, ⟨m, hm, hs⟩, hopens, hlayer⟩ := h.opens_below hclosed (opensBlockAt_lt hb)
    ⟨j, Nat.le_refl j, List.getElem?_eq_getElem hj⟩ (Nat.le_of_not_lt hge)
  obtain rfl := h.oneScope s _ hopens ha hlayer
  rw [← List.getElem?_eq_getElem hi] at hs
  have := (List.getElem?_inj hi hnodup).mp hs.symm
  omega

theorem FilterLayers.closings_reverse (h : FilterLayers subops layer innermost driver driverIU)
    (ho : CodeOrder subops order closings) :
    closings.filter (opensBlockAt subops) = (order.filter (opensBlockAt subops)).reverse := by
  apply @List.Perm.eq_of_pairwise ℕ (fun a b => layer b < layer a)
  · intro a b _ _ hab hba
    exact absurd hab (Nat.lt_asymm hba)
  · exact h.closings_layers ho
  · rw [List.pairwise_reverse]
    exact h.order_layers ho
  · apply ((ho.finished.trans ho.emitted.symm).filter _).trans
    exact (List.reverse_perm _).symm

/-- The driver comes first. -/
theorem FilterLayers.order_cons (h : FilterLayers subops layer innermost driver driverIU)
    (ho : CodeOrder subops order closings) : ∃ rest, order = driver :: rest := by
  have hmem : driver ∈ order := by
    rw [ho.emitted.mem_iff, List.mem_range]
    exact opensBlockAt_lt h.opens_driver
  cases hcases : order with
  | nil =>
    rw [hcases] at hmem
    cases hmem
  | cons k rest =>
    have hnone : ∀ j ∈ (Pipeline.build subops).incomingEdges k, False := by
      intro j hj
      exact List.not_mem_nil (ho.inputs [] k rest hcases j hj)
    have hk : k < subops.length := by
      rw [← List.mem_range, ← ho.emitted.mem_iff, hcases]
      exact List.mem_cons_self ..
    by_cases hkd : k = driver
    · exact ⟨rest, by rw [hkd]⟩
    · obtain ⟨j, hj⟩ := h.has_input (List.getElem?_eq_getElem hk) hkd
      exact absurd hj (hnone j)

end Order

section Layout

variable (widths : Widths IU) (subops : List (Suboperator IU))

/-- The statements are the code of these suboperators, from the block `c` on: a scope ends its
block with an `if` that holds the code of all that come after it. -/
inductive Code (blocks : ℕ → List (Stmt (Statement IU) (Condition IU))) :
    ℕ → List (Stmt (Statement IU) (Condition IU)) → List ℕ → Prop
  | nil (c : ℕ) : Code blocks c [] []
  | plain {c k : ℕ} {op : Suboperator IU} {stmts ks} (hop : subops[k]? = some op)
      (hplain : op.opensBlock = false) (rest : Code blocks c stmts ks) :
      Code blocks c ((op.code widths k).map .atom ++ stmts) (k :: ks)
  | scope {c s : ℕ} {filterIU pseudo : IU} {ks}
      (hop : subops[s]? = some (.columnFilterScope filterIU pseudo))
      (inside : Code blocks (c + 1) (blocks (c + 1)) ks) :
      Code blocks c [.ite (.holds filterIU) (c + 1)] (s :: ks)

/-- While code is generated, the block `c` is open and has these statements. The suboperators that
have generated their code are listed backwards. -/
inductive Entered (blocks : ℕ → List (Stmt (Statement IU) (Condition IU)))
    (handles : ℕ → Option (Handle (Condition IU))) :
    ℕ → List (Stmt (Statement IU) (Condition IU)) → List ℕ → Prop
  | driver : Entered blocks handles 1 [] []
  | plain {c k : ℕ} {op : Suboperator IU} {stmts ks} (hop : subops[k]? = some op)
      (hplain : op.opensBlock = false) (before : Entered blocks handles c stmts ks) :
      Entered blocks handles c (stmts ++ (op.code widths k).map .atom) (k :: ks)
  | scope {c s : ℕ} {filterIU pseudo : IU} {ks}
      (hop : subops[s]? = some (.columnFilterScope filterIU pseudo))
      (hhandle : handles s = some ⟨c, .holds filterIU, c + 1⟩)
      (before : Entered blocks handles c (blocks c) ks) :
      Entered blocks handles (c + 1) [] (s :: ks)

variable {widths subops}
variable {blocks blocks' : ℕ → List (Stmt (Statement IU) (Condition IU))}
variable {handles handles' : ℕ → Option (Handle (Condition IU))}
variable {stmts rest : List (Stmt (Statement IU) (Condition IU))} {ks ks' : List ℕ} {c : ℕ}

omit [DecidableEq IU] in
theorem Code.congr (h : Code widths subops blocks c stmts ks)
    (hsame : ∀ j > c, blocks' j = blocks j) : Code widths subops blocks' c stmts ks := by
  induction h with
  | nil => exact .nil _
  | plain hop hplain _ ih => exact .plain hop hplain (ih hsame)
  | scope hop _ ih =>
    apply Code.scope hop
    rw [hsame _ (Nat.lt_succ_self _)]
    exact ih fun j hj => hsame j (Nat.lt_trans (Nat.lt_succ_self _) hj)

omit [DecidableEq IU] in
theorem Entered.pos (h : Entered widths subops blocks handles c stmts ks) : 1 ≤ c := by
  induction h with
  | driver => exact Nat.le_refl 1
  | plain _ _ _ ih => exact ih
  | scope _ _ _ ih => exact Nat.le_succ_of_le ih

omit [DecidableEq IU] in
theorem Entered.congr (h : Entered widths subops blocks handles c stmts ks)
    (hsame : ∀ j, 1 ≤ j → j < c → blocks' j = blocks j)
    (hhandles : ∀ k ∈ ks, handles' k = handles k) :
    Entered widths subops blocks' handles' c stmts ks := by
  induction h with
  | driver => exact .driver
  | plain hop hplain _ ih =>
    exact .plain hop hplain (ih hsame fun k hk => hhandles k (List.mem_cons_of_mem _ hk))
  | scope hop hhandle before ih =>
    apply Entered.scope hop
    · rw [hhandles _ (List.mem_cons_self ..), hhandle]
    · rw [hsame _ before.pos (Nat.lt_succ_self _)]
      exact ih (fun j h1 hj => hsame j h1 (Nat.lt_succ_of_lt hj))
        fun k hk => hhandles k (List.mem_cons_of_mem _ hk)

/-- Ending the open blocks, from the inside, gives the code of all suboperators. -/
theorem Entered.close (h : Entered widths subops blocks handles c stmts ks) (hnodup : ks.Nodup)
    (b : CodeBuilder IU) (hcurr : b.builder.curr = c)
    (houter : ∀ j < c, b.builder.blocks j = blocks j) (hblock : b.builder.blocks c = stmts ++ rest)
    (hcode : Code widths subops b.builder.blocks c rest ks')
    (hhandles : ∀ k ∈ ks, b.handles k = handles k) :
    ∃ b' : CodeBuilder IU, ((ks.filter (opensBlockAt subops)).map CodeAction.finish).foldlM
        (generateAction widths subops) b = some b' ∧ b'.builder.curr = 1 ∧
      b'.builder.blocks 0 = blocks 0 ∧
      Code widths subops b'.builder.blocks 1 (b'.builder.blocks 1) (ks.reverse ++ ks') ∧
      ∀ k ∉ ks, b'.handles k = b.handles k := by
  induction h generalizing b rest ks' with
  | driver =>
    refine ⟨b, rfl, hcurr, houter 0 (Nat.zero_lt_one), ?_, fun _ _ => rfl⟩
    rw [hblock]
    exact hcode
  | @plain c k op stmts ks hop hplain before ih =>
    rw [List.append_assoc] at hblock
    obtain ⟨b', hresult, h1, h2, h3, h4⟩ := ih hnodup.of_cons b hcurr houter hblock
      (.plain hop hplain hcode) fun k hk => hhandles k (List.mem_cons_of_mem _ hk)
    refine ⟨b', ?_, h1, h2, ?_, fun j hj => h4 j fun hmem => hj (List.mem_cons_of_mem _ hmem)⟩
    · rw [List.filter_cons_of_neg]
      · exact hresult
      · simp [opensBlockAt, hop, hplain]
    · rw [List.reverse_cons, List.append_assoc]
      exact h3
  | @scope c s filterIU pseudo ks hop hhandle before ih =>
    obtain ⟨hnot, hnodup'⟩ := List.nodup_cons.mp hnodup
    rw [List.nil_append] at hblock
    set b₁ : CodeBuilder IU := { b with
      builder := b.builder.endIf ⟨c, .holds filterIU, c + 1⟩
      handles := Function.update b.handles s none } with hb₁
    have hblocks : ∀ j, b₁.builder.blocks j =
        if j = c then b.builder.blocks c ++ [.ite (.holds filterIU) (c + 1)]
        else b.builder.blocks j := by
      intro j
      simp only [hb₁, FunctionBuilder.endIf, FunctionBuilder.appendTo, Function.update_apply]
    have hstep : generateAction widths subops b (.finish s) = some b₁ := by
      simp [generateAction, hop, Suboperator.finish, hhandles s (List.mem_cons_self ..), hhandle,
        hb₁]
    have hinside : Code widths subops b₁.builder.blocks c [.ite (.holds filterIU) (c + 1)]
        (s :: ks') := by
      apply Code.scope hop
      rw [hblocks, if_neg (Nat.succ_ne_self c), hblock]
      apply hcode.congr
      intro j hj
      rw [hblocks, if_neg (by omega)]
    have houter₁ : ∀ j < c, b₁.builder.blocks j = blocks j := by
      intro j hj
      rw [hblocks, if_neg (Nat.ne_of_lt hj)]
      exact houter j (Nat.lt_succ_of_lt hj)
    have hblock₁ : b₁.builder.blocks c = blocks c ++ [.ite (.holds filterIU) (c + 1)] := by
      rw [hblocks, if_pos rfl, houter c (Nat.lt_succ_self c)]
    have hhandles₁ : ∀ k ∈ ks, b₁.handles k = handles k := by
      intro k hk
      have hne : k ≠ s := by
        rintro rfl
        exact hnot hk
      simp only [hb₁, Function.update_of_ne hne]
      exact hhandles k (List.mem_cons_of_mem _ hk)
    obtain ⟨b', hresult, h1, h2, h3, h4⟩ :=
      ih hnodup' b₁ rfl houter₁ hblock₁ hinside hhandles₁
    refine ⟨b', ?_, h1, h2, ?_, fun k hk => ?_⟩
    · rw [List.filter_cons_of_pos (by simp [opensBlockAt, hop, Suboperator.opensBlock]),
        List.map_cons, List.foldlM_cons, hstep]
      exact hresult
    · rw [List.reverse_cons, List.append_assoc]
      exact h3
    · have hne : k ≠ s := by
        rintro rfl
        exact hk (List.mem_cons_self ..)
      rw [h4 k fun hmem => hk (List.mem_cons_of_mem _ hmem), hb₁]
      exact Function.update_of_ne hne ..

end Layout

section Emission

variable {widths : Widths IU} {subops : List (Suboperator IU)} {layer : ℕ → ℕ}
variable {innermost driver : ℕ} {driverIU : IU} {order closings done : List ℕ}
variable {c : CodeBuilder IU}

def preambles (widths : Widths IU) (subops : List (Suboperator IU)) (ks : List ℕ) :
    List (Statement IU) :=
  ks.flatMap fun k => (subops[k]?.map (·.preamble widths k)).getD []

def declaresAt (subops : List (Suboperator IU)) (k : ℕ) : List IU :=
  (subops[k]?.map (·.declares)).getD []

/-- The driver and `done`, which is listed backwards, have generated their code. -/
structure Emitting (widths : Widths IU) (subops : List (Suboperator IU)) (driver : ℕ)
    (driverIU : IU) (c : CodeBuilder IU) (done : List ℕ) : Prop where
  next : c.builder.next = c.builder.curr + 1
  entered : Entered widths subops c.builder.blocks c.handles c.builder.curr
    (c.builder.blocks c.builder.curr) done
  root : c.builder.blocks 0 = (preambles widths subops (driver :: done.reverse)).map .atom
  handle : c.handles driver = some ⟨0, .beforeEnd driverIU driver, 1⟩
  declared : ∀ iu, c.declared iu = true ↔ ∃ k ∈ driver :: done, iu ∈ declaresAt subops k

omit [DecidableEq IU] in
theorem preambles_concat {k : ℕ} {op : Suboperator IU} (hop : subops[k]? = some op)
    (ks : List ℕ) : preambles widths subops (ks ++ [k]) =
      preambles widths subops ks ++ op.preamble widths k := by
  simp [preambles, hop]

omit [DecidableEq IU] in
theorem declaresAt_eq {k : ℕ} {op : Suboperator IU} (hop : subops[k]? = some op) :
    declaresAt subops k = op.declares := by
  simp [declaresAt, hop]

omit [DecidableEq IU] in
theorem mem_getSourceIUs_of_reads {op : Suboperator IU} {iu : IU} (h : iu ∈ op.reads) :
    iu ∈ op.getSourceIUs := by
  cases op with
  | columnFilterLogic pseudo incoming redefined =>
    simp only [Suboperator.reads, List.mem_singleton] at h
    simp [Suboperator.getSourceIUs, h]
  | _ => exact h

/-- The producer of an input that is no pseudo IU. -/
theorem FilterLayers.producer (h : FilterLayers subops layer innermost driver driverIU) {k : ℕ}
    {op : Suboperator IU} (hop : subops[k]? = some op) {iu : IU} (hiu : iu ∈ op.reads) :
    ∃ j < k, ∃ producer, subops[j]? = some producer ∧
      (∀ filterIU pseudo, producer ≠ .columnFilterScope filterIU pseudo) ∧
      iu ∈ producer.getIUs ∧ j ∈ (Pipeline.build subops).incomingEdges k ∧
      (Pipeline.build subops).providerOf (k, iu) = j := by
  have hsource : iu ∈ sourceIUsAt subops k := by
    rw [sourceIUsAt_eq hop]
    exact mem_getSourceIUs_of_reads hiu
  obtain ⟨j, hjk, hj, -⟩ := h.links.provided k iu hsource
  obtain ⟨producer, hproducer, hmem⟩ := mem_iusAt.mp hj
  have hof := providerOf_eq h.links.provided hsource hjk hj
  have hfind := (@Dag.findProvider IU _ _ (dag_build h.links.provided) k iu
    (by rwa [build_suboperators])).2
  rw [hof] at hfind
  refine ⟨j, hjk, producer, hproducer, ?_, hmem, hfind, hof⟩
  rintro filterIU pseudo rfl
  obtain rfl : iu = pseudo := by simpa [Suboperator.getIUs] using hmem
  exact h.pseudo j _ _ hproducer op (List.mem_of_getElem? hop) hiu

/-- What is read has a declaration. -/
theorem FilterLayers.declared (h : FilterLayers subops layer innermost driver driverIU)
    {ks : List ℕ} {k : ℕ} {op : Suboperator IU} (hop : subops[k]? = some op)
    (hinputs : ∀ j ∈ (Pipeline.build subops).incomingEdges k, j ∈ ks) {iu : IU}
    (hiu : iu ∈ op.reads) : ∃ j ∈ ks, iu ∈ declaresAt subops j := by
  obtain ⟨j, -, producer, hproducer, hscope, hmem, hedge, -⟩ := h.producer hop hiu
  refine ⟨j, hinputs j hedge, ?_⟩
  rwa [declaresAt_eq hproducer, declares_eq hscope]

/-- No IU is declared twice. -/
theorem FilterLayers.fresh (h : FilterLayers subops layer innermost driver driverIU) {k j : ℕ}
    {op : Suboperator IU} (hop : subops[k]? = some op) (hne : j ≠ k) {iu : IU}
    (hiu : iu ∈ op.declares) : iu ∉ declaresAt subops j := by
  intro hmem
  have hsub : ∀ (op : Suboperator IU), ∀ x ∈ op.declares, x ∈ op.getIUs := by
    intro op x hx
    cases op with
    | columnFilterScope => cases hx
    | _ => exact hx
  cases hop' : subops[j]? with
  | none => simp [declaresAt, hop'] at hmem
  | some op' =>
    rw [declaresAt_eq hop'] at hmem
    exact hne (h.unique.eq hop' hop (hsub op' iu hmem) (hsub op iu hiu))

theorem Emitting.plain (he : Emitting widths subops driver driverIU c done) {k : ℕ}
    {op : Suboperator IU} (hop : subops[k]? = some op) (hfusable : op.isFusable = true)
    (hplain : op.opensBlock = false) (hreads : ∀ iu ∈ op.reads, c.declared iu = true)
    (hfresh : ∀ iu ∈ op.declares, c.declared iu = false) :
    ∃ c', generateAction widths subops c (.emit k) = some c' ∧
      Emitting widths subops driver driverIU c' (k :: done) := by
  obtain ⟨declared, hemit, hdeclared⟩ := emit_plain (k := k) hfusable hplain hreads hfresh
  have hpos := he.entered.pos
  have hblocks : ∀ j, (c.emitted widths k op declared).builder.blocks j =
      if j = c.builder.curr then c.builder.blocks j ++ (op.code widths k).map .atom
      else if j = 0 then c.builder.blocks j ++ (op.preamble widths k).map .atom
      else c.builder.blocks j := by
    intro j
    have hne : c.builder.curr ≠ 0 := by omega
    simp only [CodeBuilder.emitted, FunctionBuilder.append, FunctionBuilder.appendRoot,
      FunctionBuilder.appendTo, Function.update_apply, if_neg hne]
    by_cases hj : j = c.builder.curr
    · simp [hj]
    · by_cases hj0 : j = 0
      · simp [hj0, hne.symm]
      · simp [hj, hj0]
  refine ⟨c.emitted widths k op declared, ?_, he.next, ?_, ?_, he.handle, fun iu => ?_⟩
  · rw [generateAction, hop]
    exact hemit
  · rw [hblocks]
    apply @Entered.congr IU widths subops c.builder.blocks _ c.handles
    · show Entered widths subops _ _ c.builder.curr (if c.builder.curr = _ then _ else _) _
      rw [if_pos rfl]
      exact .plain hop hplain he.entered
    · intro j h1 hj
      have hne : j ≠ c.builder.curr := Nat.ne_of_lt hj
      rw [hblocks, if_neg hne, if_neg (by omega)]
    · exact fun _ _ => rfl
  · rw [hblocks, if_neg (by omega), if_pos rfl, he.root, List.reverse_cons, ← List.cons_append,
      preambles_concat hop, List.map_append]
  · show declared iu = true ↔ _
    rw [hdeclared, he.declared]
    simp only [List.mem_cons, exists_eq_or_imp, declaresAt_eq hop]
    rw [or_assoc]
    exact or_congr_right or_comm

theorem Emitting.scope (he : Emitting widths subops driver driverIU c done) {s : ℕ}
    {filterIU pseudo : IU} (hop : subops[s]? = some (.columnFilterScope filterIU pseudo))
    (hread : c.declared filterIU = true) (hs : s ∉ driver :: done) :
    ∃ c', generateAction widths subops c (.emit s) = some c' ∧
      Emitting widths subops driver driverIU c' (s :: done) := by
  have hpos := he.entered.pos
  have hnext := he.next
  obtain ⟨hsd, hnot⟩ : s ≠ driver ∧ s ∉ done := by simpa using hs
  refine ⟨c.enter s (.holds filterIU), ?_, rfl, ?_, ?_, ?_, fun iu => ?_⟩
  · simp [generateAction, hop, Suboperator.emit, CodeBuilder.getIUDeclaration, hread]
  · show Entered widths subops _ _ c.builder.next
      (Function.update c.builder.blocks c.builder.next [] c.builder.next) _
    rw [Function.update_self, hnext]
    apply Entered.scope hop
    · show Function.update c.handles s _ s = _
      rw [Function.update_self]
      show some (⟨c.builder.curr, .holds filterIU, c.builder.next⟩ : Handle (Condition IU)) = _
      rw [hnext]
    · show Entered widths subops _ _ _ (Function.update c.builder.blocks c.builder.next [] _) _
      rw [Function.update_of_ne (by omega)]
      apply he.entered.congr
      · intro j _ hj
        exact Function.update_of_ne (by omega) ..
      · intro k hk
        have hne : k ≠ s := by
          rintro rfl
          exact hnot hk
        exact Function.update_of_ne hne ..
  · show Function.update c.builder.blocks c.builder.next [] 0 = _
    rw [Function.update_of_ne (by omega), he.root, List.reverse_cons, ← List.cons_append,
      preambles_concat hop]
    simp [Suboperator.preamble]
  · show Function.update c.handles s _ driver = _
    rw [Function.update_of_ne hsd.symm, he.handle]
  · show c.declared iu = true ↔ _
    rw [he.declared]
    simp only [List.mem_cons, exists_eq_or_imp, declaresAt_eq hop]
    simp [Suboperator.declares]

/-- All suboperators after the driver generate their code. -/
theorem FilterLayers.emitAll (h : FilterLayers subops layer innermost driver driverIU)
    (ho : CodeOrder subops order closings) (rest : List ℕ)
    (horder : order = driver :: done.reverse ++ rest)
    (he : Emitting widths subops driver driverIU c done) :
    ∃ c', (rest.map CodeAction.emit).foldlM (generateAction widths subops) c = some c' ∧
      Emitting widths subops driver driverIU c' (rest.reverse ++ done) := by
  induction rest generalizing c done with
  | nil => exact ⟨c, rfl, he⟩
  | cons k rest ih =>
    have hnodup : order.Nodup := ho.emitted.nodup_iff.mpr List.nodup_range
    have hk : k < subops.length := by
      rw [← List.mem_range, ← ho.emitted.mem_iff, horder]
      simp
    have hop := List.getElem?_eq_getElem hk
    have hnot : k ∉ driver :: done := by
      rw [horder, List.nodup_append] at hnodup
      intro hmem
      exact hnodup.2.2 k (by simpa using hmem) k (List.mem_cons_self ..) rfl
    have hinputs : ∀ j ∈ (Pipeline.build subops).incomingEdges k, j ∈ driver :: done := by
      intro j hj
      have hpre := ho.inputs _ k rest horder j hj
      simpa using hpre
    have hreads : ∀ iu ∈ subops[k].reads, c.declared iu = true :=
      fun iu hiu => (he.declared iu).mpr (h.declared hop hinputs hiu)
    have hstep : ∃ c', generateAction widths subops c (.emit k) = some c' ∧
        Emitting widths subops driver driverIU c' (k :: done) := by
      cases hplain : subops[k].opensBlock with
      | false =>
        apply he.plain hop (h.fusable _ (List.getElem_mem hk)) hplain hreads
        intro iu hiu
        by_contra htrue
        obtain ⟨j, hj, hmem⟩ := (he.declared iu).mp (Bool.not_eq_false _ ▸ htrue)
        exact h.fresh hop (fun heq => hnot (heq ▸ hj)) hiu hmem
      | true =>
        cases hcase : subops[k] with
        | loopDriver iu =>
          rw [hcase] at hop
          exact absurd (h.oneDriver k iu hop) fun heq => hnot (heq ▸ List.mem_cons_self ..)
        | columnFilterScope filterIU pseudo =>
          rw [hcase] at hop hreads
          exact he.scope hop (hreads filterIU (List.mem_singleton_self _)) hnot
        | _ =>
          rw [hcase] at hplain
          cases hplain
    obtain ⟨c', hresult, he'⟩ := hstep
    have horder' : order = driver :: (k :: done).reverse ++ rest := by
      rw [horder, List.reverse_cons]
      simp
    obtain ⟨c'', hresult', he''⟩ := ih horder' he'
    refine ⟨c'', ?_, ?_⟩
    · rw [List.map_cons, List.foldlM_cons, hresult]
      exact hresult'
    · rw [List.reverse_cons, List.append_assoc]
      exact he''

def CodeBuilder.inLoop (driver : ℕ) (driverIU : IU) : CodeBuilder IU where
  builder :=
    ⟨Function.update (Function.update (fun _ => []) 0 [.atom (.loadMorsel driverIU driver)]) 1 [],
      2, 1⟩
  handles := Function.update (fun _ => none) driver (some ⟨0, .beforeEnd driverIU driver, 1⟩)
  declared := Function.update (fun _ => false) driverIU true

theorem FilterLayers.emitDriver (h : FilterLayers subops layer innermost driver driverIU)
    (widths : Widths IU) :
    generateAction widths subops .start (.emit driver) = some (.inLoop driver driverIU) ∧
      Emitting widths subops driver driverIU (.inLoop driver driverIU) [] := by
  refine ⟨?_, rfl, .driver, ?_, by simp [CodeBuilder.inLoop], fun iu => ?_⟩
  · simp [generateAction, h.driverAt, Suboperator.emit, CodeBuilder.start, CodeBuilder.appendRoot,
      CodeBuilder.declareIU, CodeBuilder.enter, FunctionBuilder.start, FunctionBuilder.appendRoot,
      FunctionBuilder.appendTo, FunctionBuilder.enter, CodeBuilder.inLoop]
  · simp [CodeBuilder.inLoop, preambles, h.driverAt, Suboperator.preamble]
  · rw [CodeBuilder.inLoop]
    by_cases hiu : iu = driverIU
    · simp [hiu, declaresAt_eq h.driverAt, Suboperator.declares, Suboperator.getIUs]
    · simp [hiu, declaresAt_eq h.driverAt, Suboperator.declares, Suboperator.getIUs]

/-- Ending what opens no block generates nothing. -/
theorem finish_plain (widths : Widths IU) (c : CodeBuilder IU) (closings : List ℕ)
    (hclosings : ∀ k ∈ closings, k < subops.length) :
    (closings.map CodeAction.finish).foldlM (generateAction widths subops) c =
      ((closings.filter (opensBlockAt subops)).map CodeAction.finish).foldlM
        (generateAction widths subops) c := by
  induction closings generalizing c with
  | nil => rfl
  | cons k closings ih =>
    have ih' := fun c => ih (c := c) fun j hj => hclosings j (List.mem_cons_of_mem _ hj)
    have hop := List.getElem?_eq_getElem (hclosings k (List.mem_cons_self ..))
    cases hopens : opensBlockAt subops k with
    | true =>
      rw [List.filter_cons_of_pos hopens, List.map_cons, List.map_cons, List.foldlM_cons,
        List.foldlM_cons]
      simp only [ih']
    | false =>
      have hstep : generateAction widths subops c (.finish k) = some c := by
        rw [opensBlockAt, hop, Option.any_some] at hopens
        rw [generateAction, hop, Option.bind_some]
        unfold Suboperator.finish
        split
        · simp_all [Suboperator.opensBlock]
        · simp_all [Suboperator.opensBlock]
        · rfl
      rw [List.filter_cons_of_neg (by simp [hopens]), List.map_cons, List.foldlM_cons, hstep]
      exact ih' c

/-- The generated function: the preamble and the loop; in the loop the code of all suboperators,
and at its end the increment. -/
structure LoopFunction (widths : Widths IU) (subops : List (Suboperator IU)) (driver : ℕ)
    (driverIU : IU) (rest : List ℕ)
    (blocks : ℕ → List (Stmt (Statement IU) (Condition IU))) : Prop where
  root : blocks 0 = (preambles widths subops (driver :: rest)).map .atom ++
    [.loop (.beforeEnd driverIU driver) 1]
  body : ∃ stmts, blocks 1 = stmts ++ [.atom (.incrementIndex driverIU)] ∧
    Code widths subops blocks 1 stmts rest

/-- Whatever the pipeline, code generation succeeds, returns to the root block, and puts the code of
every suboperator into the loop, in an order that respects their inputs. -/
theorem generate_layout (h : FilterLayers subops layer innermost driver driverIU) (fuel : ℕ)
    (hfuel : 2 * subops.length + 1 ≤ fuel) :
    ∃ c rest closings, generate widths subops fuel = some c ∧ c.builder.curr = 0 ∧
      CodeOrder subops (driver :: rest) closings ∧
      LoopFunction widths subops driver driverIU rest c.builder.blocks := by
  obtain ⟨ctx, order, closings, hcompile, -, hactions, ho⟩ := compile_order h.links fuel hfuel
  obtain ⟨rest, rfl⟩ := h.order_cons ho
  obtain ⟨hdriver, hstart⟩ := h.emitDriver widths
  obtain ⟨c₁, hemit, he⟩ := h.emitAll ho rest rfl hstart
  rw [List.append_nil] at he
  have hnodup : (driver :: rest).Nodup := ho.emitted.nodup_iff.mpr List.nodup_range
  obtain ⟨hdriverRest, hnodup'⟩ := List.nodup_cons.mp hnodup
  obtain ⟨c₂, hclose, hcurr, hroot, hcode, hhandles⟩ := he.entered.close
    (List.nodup_reverse.mpr hnodup') c₁ rfl (fun _ _ => rfl) (List.append_nil _).symm (.nil _)
    (fun _ _ => rfl)
  rw [List.reverse_reverse, List.append_nil] at hcode
  have hhandle : c₂.handles driver = some ⟨0, .beforeEnd driverIU driver, 1⟩ := by
    rw [hhandles driver (by simpa using hdriverRest), he.handle]
  have hfinish := finish_plain widths c₁ closings fun k hk => by
    rwa [← List.mem_range, ← ho.finished.mem_iff]
  have hfilter : closings.filter (opensBlockAt subops) =
      rest.reverse.filter (opensBlockAt subops) ++ [driver] := by
    rw [h.closings_reverse ho, List.filter_cons_of_pos h.opens_driver, List.reverse_cons,
      List.filter_reverse]
  rw [hfilter, List.map_append, List.foldlM_append, hclose] at hfinish
  set b := (c₂.builder.append [.incrementIndex driverIU]).endWhile
    ⟨0, .beforeEnd driverIU driver, 1⟩ with hb
  have hblocks : b.blocks = Function.update
      (Function.update c₂.builder.blocks 1
        (c₂.builder.blocks 1 ++ [.atom (.incrementIndex driverIU)]))
      0 (c₂.builder.blocks 0 ++ [.loop (.beforeEnd driverIU driver) 1]) := by
    simp [hb, FunctionBuilder.endWhile, FunctionBuilder.append, FunctionBuilder.appendTo, hcurr]
  have hlast : ([driver].map CodeAction.finish).foldlM (generateAction widths subops) c₂ =
      some ⟨b, Function.update c₂.handles driver none, c₂.declared⟩ := by
    simp [generateAction, h.driverAt, Suboperator.finish, hhandle, CodeBuilder.append, hb]
  refine ⟨⟨b, Function.update c₂.handles driver none, c₂.declared⟩, rest, closings, ?_, rfl, ho,
    ?_, c₂.builder.blocks 1, ?_, ?_⟩
  · rw [generate, hcompile]
    show (ctx.actions (Pipeline.build subops)).foldlM (generateAction widths subops) .start = _
    rw [hactions, List.foldlM_append, List.map_cons, List.foldlM_cons, hdriver]
    show ((rest.map CodeAction.emit).foldlM (generateAction widths subops)
      (.inLoop driver driverIU)).bind _ = _
    rw [hemit]
    exact hfinish.trans hlast
  · show b.blocks 0 = _
    rw [hblocks, Function.update_self, hroot, he.root]
    simp
  · show b.blocks 1 = _
    rw [hblocks, Function.update_of_ne Nat.one_ne_zero, Function.update_self]
  · apply hcode.congr
    intro j hj
    show b.blocks j = _
    rw [hblocks, Function.update_of_ne (by omega), Function.update_of_ne (by omega)]

end Emission

end InkFuse.Algebra.SubopGraph
