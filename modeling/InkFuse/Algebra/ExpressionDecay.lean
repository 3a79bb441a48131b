import InkFuse.Algebra.ExpressionOp
import Mathlib.Data.Fin.VecNotation
import Mathlib.Data.Fintype.Card
import Mathlib.Data.List.Induction
import Mathlib.Tactic.FinCases

/-!
The decay of expressions is the walk of the post order over their graph: there is one suboperator
for each computation that an output needs, behind those of its operands. Run in this order, the
suboperators compute the expressions.
-/

namespace InkFuse.Algebra

open Codegen InkFuse.Graph

variable {ι IU V : Type}

namespace ExpressionOp

variable {op : ExpressionOp ι IU}

section Equations

theorem eval_iuRef {S : Semantics V} {provided : IU → Option V} {i : ι} {child : IU}
    (hnode : op.node i = .iuRef child) : op.eval S provided i = provided child := by
  rw [eval]
  split
  · next hnode' =>
    rw [hnode] at hnode'
    cases hnode'
    rfl
  · next hnode' =>
    rw [hnode] at hnode'
    cases hnode'

theorem eval_compute {S : Semantics V} {provided : IU → Option V} {i : ι} {c : ComputeNode ι IU}
    (hnode : op.node i = .compute c) :
    op.eval S provided i =
      (c.children.mapM (op.eval S provided)).bind (c.value S (op.typeOf c.out)) := by
  rw [eval]
  split
  · next hnode' =>
    rw [hnode] at hnode'
    cases hnode'
  · next c' hnode' =>
    rw [hnode] at hnode'
    cases hnode'
    have hattach : (c.children.attach.mapM fun child => op.eval S provided child.1) =
        c.children.mapM (op.eval S provided) := by
      conv_rhs => rw [← List.attach_map_subtype_val c.children, List.mapM_map]
      rfl
    rw [← hattach]
    rfl

theorem iuOf_iuRef {i : ι} {child : IU} (hnode : op.node i = .iuRef child) :
    op.iuOf i = child := by
  unfold iuOf
  rw [hnode]

theorem iuOf_compute {i : ι} {c : ComputeNode ι IU} (hnode : op.node i = .compute c) :
    op.iuOf i = c.out := by
  unfold iuOf
  rw [hnode]

variable [DecidableEq ι]

/-- One round of the loop over the children. -/
def decayChild (op : ExpressionOp ι IU) (r : Decay ι IU × List (Option IU)) (child : ι) :
    Decay ι IU × List (Option IU) :=
  (op.decayNode child r.1, r.2 ++ [(op.decayNode child r.1).built child])

theorem decayNode_built {i : ι} {s : Decay ι IU} (h : (s.built i).isSome) :
    op.decayNode i s = s := by
  rw [decayNode, if_pos h]

theorem decayNode_iuRef {i : ι} {child : IU} {s : Decay ι IU} (h : s.built i = none)
    (hnode : op.node i = .iuRef child) :
    op.decayNode i s = { s with built := Function.update s.built i (some child) } := by
  rw [decayNode, h]
  simp only [Option.isSome_none, Bool.false_eq_true, if_false]
  split
  · next hnode' =>
    rw [hnode] at hnode'
    cases hnode'
    rfl
  · next hnode' =>
    rw [hnode] at hnode'
    cases hnode'

theorem decayNode_compute {i : ι} {c : ComputeNode ι IU} {s : Decay ι IU} (h : s.built i = none)
    (hnode : op.node i = .compute c) :
    op.decayNode i s =
      let r := c.children.foldl op.decayChild
        ({ s with built := Function.update s.built i (some c.out) }, [])
      { r.1 with subops := r.1.subops ++ [c.subop r.2] } := by
  rw [decayNode, h]
  simp only [Option.isSome_none, Bool.false_eq_true, if_false]
  split
  · next hnode' =>
    rw [hnode] at hnode'
    cases hnode'
  · next c' hnode' =>
    rw [hnode] at hnode'
    cases hnode'
    have hattach : ∀ r, (c.children.attach.foldl (fun r child => op.decayChild r child.1) r) =
        c.children.foldl op.decayChild r := fun r => List.foldl_attach
    rw [← hattach]
    rfl

end Equations

section Order

def graph (op : ExpressionOp ι IU) : Dag ι := ⟨fun i => (op.node i).children, op.acyclic⟩

def Reachable (op : ExpressionOp ι IU) (i : ι) : Prop :=
  ∃ root ∈ op.out, op.graph.Reaches root i

def computation (op : ExpressionOp ι IU) (i : ι) : Option (ι × ComputeNode ι IU) :=
  match op.node i with
  | .iuRef _ => none
  | .compute c => some (i, c)

def subopAt (op : ExpressionOp ι IU) (p : ι × ComputeNode ι IU) : ExpressionSubop IU :=
  p.2.subop (p.2.children.map fun child => some (op.iuOf child))

theorem computation_iuRef {i : ι} {child : IU} (hnode : op.node i = .iuRef child) :
    op.computation i = none := by
  unfold computation
  rw [hnode]

theorem computation_eq_some {i : ι} {p : ι × ComputeNode ι IU} :
    op.computation i = some p ↔ p.1 = i ∧ op.node i = .compute p.2 := by
  obtain ⟨j, c⟩ := p
  unfold computation
  cases op.node i with
  | iuRef child => simp
  | compute d =>
    simp only [Option.some.injEq, Prod.mk.injEq, ExpressionNode.compute.injEq]
    constructor
    · intro h
      exact ⟨h.1.symm, h.2⟩
    · intro h
      exact ⟨h.1.symm, h.2⟩

variable [DecidableEq ι]

/-- The decay has recorded what the walk has seen, and attached what it has left. -/
structure Follows (op : ExpressionOp ι IU) (base : List (ExpressionSubop IU)) (s : Decay ι IU)
    (v : Visited ι) : Prop where
  built : ∀ i, s.built i = if i ∈ v.seen then some (op.iuOf i) else none
  subops : s.subops = base ++ (v.order.filterMap op.computation).map op.subopAt

variable {base : List (ExpressionSubop IU)} {s : Decay ι IU} {v : Visited ι} {i : ι}

theorem Follows.record (h : op.Follows base s v) :
    op.Follows base { s with built := Function.update s.built i (some (op.iuOf i)) }
      ⟨i :: v.seen, v.order⟩ := by
  refine ⟨?_, h.subops⟩
  intro j
  show Function.update s.built i (some (op.iuOf i)) j = if j ∈ i :: v.seen then _ else _
  by_cases hji : j = i
  · subst hji
    rw [Function.update_self, if_pos List.mem_cons_self]
  · rw [Function.update_of_ne hji, h.built j]
    simp [hji]

/-- The loop over the children collects their IUs. -/
theorem Follows.children {l : List ι} {r : Decay ι IU × List (Option IU)}
    (hstep : ∀ child ∈ l, ∀ s v, op.Follows base s v →
      op.Follows base (op.decayNode child s) (op.graph.visit child v))
    (h : op.Follows base r.1 v) :
    op.Follows base (l.foldl op.decayChild r).1 (op.graph.visitAll l v) ∧
      (l.foldl op.decayChild r).2 = r.2 ++ l.map fun child => some (op.iuOf child) := by
  induction l generalizing r v with
  | nil => exact ⟨h, (List.append_nil _).symm⟩
  | cons child l ih =>
    have hchild := hstep child List.mem_cons_self r.1 v h
    have hsource : (op.decayNode child r.1).built child = some (op.iuOf child) := by
      rw [hchild.built child, if_pos (Dag.visit_seen child v).2]
    obtain ⟨hrest, hsources⟩ := ih (r := op.decayChild r child)
      (fun c hc => hstep c (List.mem_cons_of_mem _ hc)) hchild
    refine ⟨hrest, ?_⟩
    rw [List.foldl_cons, hsources]
    show r.2 ++ [(op.decayNode child r.1).built child] ++ _ = _
    rw [hsource, List.append_assoc, List.singleton_append, List.map_cons]

theorem Follows.visit (h : op.Follows base s v) (i : ι) :
    op.Follows base (op.decayNode i s) (op.graph.visit i v) := by
  induction i using op.acyclic.induction generalizing s v with
  | _ i ih =>
    by_cases hseen : i ∈ v.seen
    · have hbuilt : (s.built i).isSome := by
        rw [h.built i, if_pos hseen]
        rfl
      rw [decayNode_built hbuilt, Dag.visit_eq, if_pos hseen]
      exact h
    · have hbuilt : s.built i = none := by
        rw [h.built i, if_neg hseen]
      rw [Dag.visit_eq, if_neg hseen]
      have hrecord := h.record (i := i)
      cases hnode : op.node i with
      | iuRef child =>
        have hchildren : op.graph.children i = [] := by
          show (op.node i).children = []
          rw [hnode]
          rfl
        have hnone : op.computation i = none := computation_iuRef hnode
        rw [decayNode_iuRef hbuilt hnode, hchildren, ← iuOf_iuRef hnode]
        refine ⟨hrecord.built, ?_⟩
        show s.subops = base ++ ((v.order ++ [i]).filterMap op.computation).map op.subopAt
        rw [List.filterMap_append, List.filterMap_cons_none hnone, List.filterMap_nil,
          List.append_nil]
        exact h.subops
      | compute c =>
        have hchildren : op.graph.children i = c.children := by
          show (op.node i).children = c.children
          rw [hnode]
          rfl
        have hmem : ∀ child ∈ c.children, child ∈ (op.node i).children := by
          intro child hchild
          rw [hnode]
          exact hchild
        have hsome : op.computation i = some (i, c) := computation_eq_some.mpr ⟨rfl, hnode⟩
        rw [decayNode_compute hbuilt hnode, hchildren, ← iuOf_compute hnode]
        obtain ⟨hbelow, hsources⟩ := Follows.children (l := c.children)
          (r := ({ s with built := Function.update s.built i (some (op.iuOf i)) }, []))
          (fun child hchild s v hs => ih child (hmem child hchild) hs) hrecord
        refine ⟨hbelow.built, ?_⟩
        show _ ++ [c.subop _] =
          base ++ ((_ ++ [i]).filterMap op.computation).map op.subopAt
        rw [hsources, hbelow.subops, List.filterMap_append, List.filterMap_cons_some hsome,
          List.filterMap_nil, List.map_append, List.append_assoc]
        rfl

/-- The suboperators are those of the post order of the nodes that the outputs need. -/
theorem decay_eq (op : ExpressionOp ι IU) (base : List (ExpressionSubop IU)) :
    op.decay base =
      base ++ ((op.graph.postOrder op.out).filterMap op.computation).map op.subopAt := by
  have hroots : ∀ (roots : List ι) (s : Decay ι IU) (v : Visited ι), op.Follows base s v →
      op.Follows base (roots.foldl (fun s root => op.decayNode root s) s)
        (op.graph.visitAll roots v) := by
    intro roots
    induction roots with
    | nil => exact fun _ _ h => h
    | cons root roots ih => exact fun s v h => ih _ _ (h.visit root)
  have hstart : op.Follows base ⟨fun _ => none, base⟩ ⟨[], []⟩ := by
    refine ⟨?_, (List.append_nil base).symm⟩
    intro i
    rw [if_neg List.not_mem_nil]
  exact (hroots op.out _ _ hstart).subops

end Order

section Evaluation

variable [DecidableEq IU] {S : Semantics V} {provided declared : IU → Option V}

def run (S : Semantics V) (typeOf : IU → IRType) (subops : List (ExpressionSubop IU))
    (declared : IU → Option V) : Option (IU → Option V) :=
  subops.foldlM (ExpressionSubop.consumeAllChildren S typeOf) declared

omit [DecidableEq IU] in
theorem codeMap_eq_some {code : ComputeType} (hconst : code ≠ .constant) (hcast : code ≠ .cast) :
    ∃ opcode, codeMap code = some opcode := by
  cases code <;> first | exact ⟨_, rfl⟩ | exact absurd rfl hconst | exact absurd rfl hcast

/-- A suboperator computes its node if its sources hold the values of the operands. -/
theorem consume_subopAt {i : ι} {c : ComputeNode ι IU} (hnode : op.node i = .compute c)
    (hchildren : ∀ child ∈ c.children, ∃ v,
      op.eval S provided child = some v ∧ declared (op.iuOf child) = some v) :
    ∃ v, op.eval S provided i = some v ∧
      (op.subopAt (i, c)).consumeAllChildren S op.typeOf declared =
        some (Function.update declared c.out (some v)) := by
  rw [eval_compute hnode]
  have hbuilt := op.built i c hnode
  cases hbuilt with
  | @regular code out left right hconst hcast =>
    obtain ⟨x, hx, hx'⟩ := hchildren left (by simp)
    obtain ⟨y, hy, hy'⟩ := hchildren right (by simp)
    obtain ⟨opcode, hcode⟩ := codeMap_eq_some hconst hcast
    refine ⟨S.assign (op.typeOf out) (S.arithmetic opcode x y), ?_, ?_⟩
    · simp [hx, hy, ComputeNode.value, hcode]
    · simp [subopAt, ComputeNode.subop, ExpressionSubop.consumeAllChildren, hx', hy', hcast, hcode]
  | @cast out child =>
    obtain ⟨x, hx, hx'⟩ := hchildren child (by simp)
    refine ⟨S.assign (op.typeOf out) (S.cast (op.typeOf out) x), ?_, ?_⟩
    · simp [hx, ComputeNode.value]
    · simp [subopAt, ComputeNode.subop, ExpressionSubop.consumeAllChildren, hx']
  | @runtimeParam code out arg1 arg2 hcast =>
    obtain ⟨y, hy, hy'⟩ := hchildren arg2 (by simp)
    by_cases hconst : code = .constant
    · refine ⟨S.assign (op.typeOf out) (S.constant arg1), ?_, ?_⟩
      · simp [hy, ComputeNode.value, hconst]
      · simp [subopAt, ComputeNode.subop, ExpressionSubop.consumeAllChildren, hconst]
    · obtain ⟨opcode, hcode⟩ := codeMap_eq_some hconst hcast
      refine ⟨S.assign (op.typeOf out) (S.arithmetic opcode (S.constant arg1) y), ?_, ?_⟩
      · simp [hy, ComputeNode.value, hconst, hcode]
      · simp [subopAt, ComputeNode.subop, ExpressionSubop.consumeAllChildren, hy', hconst, hcode]

/-- The IUs that the nodes refer to have values, and the output IUs have none yet. -/
structure Provides (op : ExpressionOp ι IU) (provided : IU → Option V) : Prop where
  refs : ∀ i child, op.Reachable i → op.node i = .iuRef child → ∃ v, provided child = some v
  fresh : ∀ i c, op.Reachable i → op.node i = .compute c → provided c.out = none

theorem run_order (S : Semantics V) (hp : op.Provides provided) {order : List ι}
    (hnodup : order.Nodup) (hreach : ∀ i ∈ order, op.Reachable i)
    (hsorted : op.graph.Sorted order) :
    ∃ declared, run S op.typeOf ((order.filterMap op.computation).map op.subopAt) provided =
        some declared ∧
      (∀ i ∈ order, ∃ v, op.eval S provided i = some v ∧ declared (op.iuOf i) = some v) ∧
      ∀ iu, (∀ i c, i ∈ order → op.node i = .compute c → c.out ≠ iu) →
        declared iu = provided iu := by
  induction order using List.reverseRecOn with
  | nil => exact ⟨provided, rfl, fun i hi => absurd hi List.not_mem_nil, fun _ _ => rfl⟩
  | append_singleton order i ih =>
    have hnodup' : order.Nodup := hnodup.of_append_left
    have hnew : i ∉ order := by
      intro hin
      have hdisjoint := List.disjoint_of_nodup_append hnodup
      exact hdisjoint hin (List.mem_singleton_self i)
    have hsorted' : op.graph.Sorted order := by
      intro before j after heq child hchild
      apply hsorted before j (after ++ [i]) _ child hchild
      rw [heq, List.append_assoc, List.cons_append]
    obtain ⟨declared, hrun, hvalues, hframe⟩ := ih hnodup'
      (fun j hj => hreach j (List.mem_append_left _ hj)) hsorted'
    have hi : op.Reachable i := hreach i (List.mem_append_right _ (List.mem_singleton_self i))
    rw [List.filterMap_append]
    cases hnode : op.node i with
    | iuRef child =>
      have hnone : op.computation i = none := computation_iuRef hnode
      rw [List.filterMap_cons_none hnone, List.filterMap_nil, List.append_nil]
      obtain ⟨v, hv⟩ := hp.refs i child hi hnode
      -- no computation writes an IU that was there before
      have hkept : declared child = provided child := by
        apply hframe
        intro j c hj hcompute heq
        have hfresh := hp.fresh j c (hreach j (List.mem_append_left _ hj)) hcompute
        rw [heq, hv] at hfresh
        cases hfresh
      refine ⟨declared, hrun, ?_, ?_⟩
      · intro j hj
        rcases List.mem_append.mp hj with hold | hlast
        · exact hvalues j hold
        · rw [List.mem_singleton.mp hlast, eval_iuRef hnode, iuOf_iuRef hnode, hkept]
          exact ⟨v, hv, hv⟩
      · intro iu hiu'
        apply hframe
        intro j c hj hcompute
        exact hiu' j c (List.mem_append_left _ hj) hcompute
    | compute c =>
      have hsome : op.computation i = some (i, c) := computation_eq_some.mpr ⟨rfl, hnode⟩
      have hchildren : ∀ child ∈ c.children, child ∈ order := by
        intro child hchild
        apply hsorted order i [] rfl
        show child ∈ (op.node i).children
        rw [hnode]
        exact hchild
      obtain ⟨v, heval, hconsume⟩ := consume_subopAt (S := S) hnode
        fun child hchild => hvalues child (hchildren child hchild)
      rw [List.filterMap_cons_some hsome, List.filterMap_nil, List.map_append]
      refine ⟨Function.update declared c.out (some v), ?_, ?_, ?_⟩
      · unfold run at hrun ⊢
        rw [List.foldlM_append, hrun]
        show (ExpressionSubop.consumeAllChildren S op.typeOf declared (op.subopAt (i, c)) >>=
          fun declared => pure declared) = _
        rw [hconsume]
        rfl
      · intro j hj
        rcases List.mem_append.mp hj with hold | hlast
        · obtain ⟨w, hw, hw'⟩ := hvalues j hold
          refine ⟨w, hw, ?_⟩
          have hne : op.iuOf j ≠ c.out := by
            intro heq
            have hfresh := hp.fresh i c hi hnode
            cases hnode' : op.node j with
            | iuRef child =>
              obtain ⟨u, hu⟩ := hp.refs j child (hreach j (List.mem_append_left _ hold)) hnode'
              rw [← heq, iuOf_iuRef hnode', hu] at hfresh
              cases hfresh
            | compute d =>
              rw [iuOf_compute hnode'] at heq
              have hsame := op.out_injective j i d c hnode' hnode heq
              exact hnew (hsame ▸ hold)
          rw [Function.update_of_ne hne]
          exact hw'
        · rw [List.mem_singleton.mp hlast, iuOf_compute hnode, Function.update_self]
          exact ⟨v, heval, rfl⟩
      · intro iu hiu'
        have hne : iu ≠ c.out := by
          intro heq
          exact hiu' i c (List.mem_append_right _ (List.mem_singleton_self i)) hnode heq.symm
        rw [Function.update_of_ne hne]
        apply hframe
        intro j d hj hcompute
        exact hiu' j d (List.mem_append_left _ hj) hcompute

end Evaluation

section Exact

/-- In the post order every computation comes behind those of its operands. -/
theorem computations_sorted {order : List ι} (hsorted : op.graph.Sorted order)
    {before after : List (ι × ComputeNode ι IU)} {i : ι} {c : ComputeNode ι IU}
    (heq : order.filterMap op.computation = before ++ (i, c) :: after) {child : ι}
    (hchild : child ∈ c.children) {d : ComputeNode ι IU} (hnode : op.node child = .compute d) :
    (child, d) ∈ before := by
  obtain ⟨l₁, l₂, hsplit, hbefore, hrest⟩ := List.filterMap_eq_append_iff.mp heq
  obtain ⟨m₁, j, m₂, hsplit', hnone, hj, -⟩ := List.filterMap_eq_cons_iff.mp hrest
  obtain ⟨hji, hcompute⟩ := computation_eq_some.mp hj
  rw [hsplit', ← List.append_assoc] at hsplit
  have hin : child ∈ l₁ ++ m₁ := by
    apply hsorted (l₁ ++ m₁) j m₂ hsplit
    show child ∈ (op.node j).children
    rw [hcompute]
    exact hchild
  have hsome : op.computation child = some (child, d) := computation_eq_some.mpr ⟨rfl, hnode⟩
  rcases List.mem_append.mp hin with hl | hm
  · rw [← hbefore]
    exact List.mem_filterMap.mpr ⟨child, hl, hsome⟩
  · rw [hnone child hm] at hsome
    cases hsome

variable [DecidableEq ι] [DecidableEq IU]

/-- The decay attaches one suboperator for every computation that an output needs and no other,
behind those of its operands and with the IUs of its children in their order. Run one after the
other, whatever the operations mean, the suboperators leave the value of every output in its IU. -/
theorem expression_decay_exact (op : ExpressionOp ι IU) (pipeline : List (ExpressionSubop IU)) :
    ∃ computed : List (ι × ComputeNode ι IU),
      op.decay pipeline = pipeline ++ computed.map op.subopAt ∧
      (computed.map Prod.fst).Nodup ∧
      (∀ i c, (i, c) ∈ computed ↔ op.node i = .compute c ∧ op.Reachable i) ∧
      (∀ before i c after, computed = before ++ (i, c) :: after →
        ∀ child ∈ c.children, ∀ d, op.node child = .compute d → (child, d) ∈ before) ∧
      ∀ (V : Type) (S : Semantics V) (provided : IU → Option V), op.Provides provided →
        ∃ declared, run S op.typeOf (computed.map op.subopAt) provided = some declared ∧
          ∀ root ∈ op.out, ∃ v,
            op.eval S provided root = some v ∧ declared (op.iuOf root) = some v := by
  have hmem : ∀ i, i ∈ op.graph.postOrder op.out ↔ op.Reachable i := op.graph.mem_postOrder op.out
  have hnodup := op.graph.postOrder_nodup op.out
  have hsorted := op.graph.postOrder_sorted op.out
  refine ⟨(op.graph.postOrder op.out).filterMap op.computation, op.decay_eq pipeline, ?_, ?_, ?_,
    ?_⟩
  · rw [List.map_filterMap]
    apply hnodup.filterMap
    intro i j k hi hj
    obtain ⟨p, hp, hpk⟩ := Option.map_eq_some_iff.mp hi
    obtain ⟨q, hq, hqk⟩ := Option.map_eq_some_iff.mp hj
    rw [← (computation_eq_some.mp hp).1, ← (computation_eq_some.mp hq).1, hpk, hqk]
  · intro i c
    rw [List.mem_filterMap]
    constructor
    · intro hin
      obtain ⟨j, hj, hcompute⟩ := hin
      obtain ⟨hji, hnode⟩ := computation_eq_some.mp hcompute
      replace hji : i = j := hji
      rw [hji]
      exact ⟨hnode, (hmem j).mp hj⟩
    · intro hin
      exact ⟨i, (hmem i).mpr hin.2, computation_eq_some.mpr ⟨rfl, hin.1⟩⟩
  · intro before i c after heq child hchild d hnode
    exact computations_sorted hsorted heq hchild hnode
  · intro V S provided hp
    obtain ⟨declared, hrun, hvalues, -⟩ :=
      run_order S hp hnodup (fun i hi => (hmem i).mp hi) hsorted
    refine ⟨declared, hrun, ?_⟩
    intro root hroot
    exact hvalues root ((hmem root).mpr ⟨root, hroot, .refl⟩)

/-- `a + b`, `(a + b) - b`, their product, and five added to the product -/
def sharedNodes : Fin 6 → ExpressionNode (Fin 6) (Fin 6) :=
  ![.iuRef 0, .iuRef 1, .compute ⟨.add, 2, [0, 1], none⟩,
    .compute ⟨.subtract, 3, [2, 1], none⟩, .compute ⟨.multiply, 4, [2, 3], none⟩,
    .compute ⟨.add, 5, [4], some (.UI .two 5)⟩]

def sharedExpression : ExpressionOp (Fin 6) (Fin 6) where
  node := sharedNodes
  out := [2, 4, 5]
  typeOf := fun _ => .unsignedInt 2
  acyclic := by
    apply Subrelation.wf (r := (· < ·)) _ wellFounded_lt
    intro child i
    revert child i
    decide
  built := by
    intro i c hnode
    fin_cases i <;> cases hnode
    · exact .regular (by decide) (by decide)
    · exact .regular (by decide) (by decide)
    · exact .regular (by decide) (by decide)
    · exact .runtimeParam (by decide)
  out_injective := by
    have hout : ∀ i c, sharedNodes i = .compute c → c.out = i := by
      intro i c hnode
      fin_cases i <;> cases hnode <;> rfl
    intro i j c d hi hj heq
    rw [← hout i c hi, ← hout j d hj, heq]

/-- The expression on two numbers of two bytes. -/
theorem shared_expression_computes :
    let S : Semantics ℕ := {
      constant := fun | .UI _ value => value.toNat | _ => 0
      arithmetic := fun | .add => (· + ·) | .subtract => (· - ·) | _ => (· * ·)
      cast := fun _ value => value
      assign := fun type value => value % 2 ^ (8 * type.numBytes) }
    let provided : Fin 6 → Option ℕ := ![some 3, some 2, none, none, none, none]
    sharedExpression.Provides provided ∧ ∃ declared,
      run S sharedExpression.typeOf (sharedExpression.decay []) provided = some declared ∧
        declared 5 = some 20 := by
  intro S provided
  have hp : sharedExpression.Provides provided := by
    constructor
    · intro i child _ hnode
      fin_cases i <;> cases hnode <;> exact ⟨_, rfl⟩
    · intro i c _ hnode
      fin_cases i <;> cases hnode <;> rfl
  refine ⟨hp, ?_⟩
  obtain ⟨computed, hdecay, -, -, -, hrun⟩ := expression_decay_exact sharedExpression []
  obtain ⟨declared, hdeclared, hvalues⟩ := hrun ℕ S provided hp
  obtain ⟨v, heval, hv⟩ := hvalues 5 (by decide)
  rw [hdecay]
  refine ⟨declared, hdeclared, ?_⟩
  have hroot : sharedExpression.eval S provided 5 = some 20 := by
    have h0 : sharedExpression.eval S provided 0 = some 3 := by
      rw [eval_iuRef rfl]
      rfl
    have h1 : sharedExpression.eval S provided 1 = some 2 := by
      rw [eval_iuRef rfl]
      rfl
    have h2 : sharedExpression.eval S provided 2 = some 5 := by
      rw [eval_compute rfl, List.mapM_cons, List.mapM_cons, h0, h1]
      rfl
    have h3 : sharedExpression.eval S provided 3 = some 3 := by
      rw [eval_compute rfl, List.mapM_cons, List.mapM_cons, h2, h1]
      rfl
    have h4 : sharedExpression.eval S provided 4 = some 15 := by
      rw [eval_compute rfl, List.mapM_cons, List.mapM_cons, h2, h3]
      rfl
    rw [eval_compute rfl, List.mapM_cons, h4]
    rfl
  rw [hroot] at heval
  rw [show sharedExpression.iuOf 5 = 5 from rfl, ← heval] at hv
  exact hv

end Exact

end ExpressionOp

end InkFuse.Algebra
