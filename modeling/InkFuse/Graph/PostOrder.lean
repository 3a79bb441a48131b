import Mathlib.Data.List.Basic
import Mathlib.Data.List.Nodup
import Mathlib.Logic.Relation
import Mathlib.Order.WellFounded
import Mathlib.Tactic.Common

/-!
The memoised depth-first walk over a graph without cycles. A node is marked as seen before its
children are visited and is appended to the order behind them. The order lists the nodes that the
roots reach, each once and behind its children.
-/

namespace InkFuse.Graph

structure Dag (ι : Type*) where
  children : ι → List ι
  acyclic : WellFounded fun child node => child ∈ children node

structure Visited (ι : Type*) where
  seen : List ι
  order : List ι

variable {ι : Type*} [DecidableEq ι] (G : Dag ι)

def Dag.visit (node : ι) (s : Visited ι) : Visited ι :=
  if node ∈ s.seen then
    s
  else
    let below := (G.children node).attach.foldl (fun s child => visit child.1 s)
      ⟨node :: s.seen, s.order⟩
    ⟨below.seen, below.order ++ [node]⟩
termination_by G.acyclic.wrap node
decreasing_by exact child.2

theorem Dag.visit_eq (node : ι) (s : Visited ι) :
    G.visit node s =
      if node ∈ s.seen then
        s
      else
        let below := (G.children node).foldl (fun s child => G.visit child s)
          ⟨node :: s.seen, s.order⟩
        ⟨below.seen, below.order ++ [node]⟩ := by
  rw [Dag.visit, List.foldl_attach (f := fun s child => G.visit child s)]

def Dag.visitAll (roots : List ι) (s : Visited ι) : Visited ι :=
  roots.foldl (fun s root => G.visit root s) s

def Dag.postOrder (roots : List ι) : List ι := (G.visitAll roots ⟨[], []⟩).order

omit [DecidableEq ι] in
def Dag.Reaches : ι → ι → Prop := Relation.ReflTransGen fun node child => child ∈ G.children node

def Dag.Sorted (order : List ι) : Prop :=
  ∀ before node after, order = before ++ node :: after → ∀ child ∈ G.children node, child ∈ before

variable {G} {opened : List ι} {s t : Visited ι} {node : ι}

section Paths

omit [DecidableEq ι]

theorem Dag.reaches_of_child {child i : ι} (hchild : child ∈ G.children node)
    (h : G.Reaches child i) : G.Reaches node i :=
  Relation.ReflTransGen.head hchild h

theorem Dag.not_reaches_parent {child : ι} (hchild : child ∈ G.children node) :
    ¬ G.Reaches child node := by
  intro hback
  have hcycle : Relation.TransGen (fun node child => child ∈ G.children node) node node :=
    Relation.TransGen.head' hchild hback
  have hswap := Relation.transGen_swap.mpr hcycle
  exact G.acyclic.transGen.irrefl.irrefl node hswap

theorem Dag.Sorted.concat {order : List ι} (h : G.Sorted order)
    (hnode : ∀ child ∈ G.children node, child ∈ order) : G.Sorted (order ++ [node]) := by
  intro before i after heq child hchild
  rcases List.eq_nil_or_concat after with hnil | ⟨after', last, hlast⟩
  · rw [hnil] at heq
    obtain ⟨hbefore, hi⟩ := List.append_inj' heq rfl
    obtain rfl := List.singleton_inj.mp hi
    rw [← hbefore]
    exact hnode child hchild
  · rw [hlast, List.concat_eq_append, ← List.cons_append, ← List.append_assoc] at heq
    obtain ⟨horder, -⟩ := List.append_inj' heq rfl
    exact h before i after' horder child hchild

end Paths

section Walk

theorem Dag.visitAll_seen {starts : List ι}
    (hvisit : ∀ start ∈ starts, ∀ s : Visited ι,
      s.seen ⊆ (G.visit start s).seen ∧ start ∈ (G.visit start s).seen) (s : Visited ι) :
    s.seen ⊆ (G.visitAll starts s).seen ∧ starts ⊆ (G.visitAll starts s).seen := by
  induction starts generalizing s with
  | nil => exact ⟨fun _ hi => hi, List.nil_subset _⟩
  | cons start starts ih =>
    obtain ⟨hkept, hstart⟩ := hvisit start List.mem_cons_self s
    obtain ⟨hkept', hstarts⟩ := ih (fun i hi => hvisit i (List.mem_cons_of_mem _ hi))
      (G.visit start s)
    exact ⟨fun _ hi => hkept' (hkept hi), List.cons_subset.mpr ⟨hkept' hstart, hstarts⟩⟩

/-- A walk forgets no node, and has seen its start. -/
theorem Dag.visit_seen (node : ι) (s : Visited ι) :
    s.seen ⊆ (G.visit node s).seen ∧ node ∈ (G.visit node s).seen := by
  induction node using G.acyclic.induction generalizing s with
  | _ node ih =>
    rw [Dag.visit_eq]
    by_cases hseen : node ∈ s.seen
    · rw [if_pos hseen]
      exact ⟨fun _ hi => hi, hseen⟩
    · rw [if_neg hseen]
      obtain ⟨hkept, -⟩ := Dag.visitAll_seen ih ⟨node :: s.seen, s.order⟩
      exact List.cons_subset.mp hkept |>.symm

theorem Dag.visitAll_kept (G : Dag ι) (starts : List ι) (s : Visited ι) :
    s.seen ⊆ (G.visitAll starts s).seen ∧ starts ⊆ (G.visitAll starts s).seen :=
  Dag.visitAll_seen (fun start _ => Dag.visit_seen start) s

/-- The seen nodes are in the order, except for those whose children are being visited. -/
structure Dag.Inv (G : Dag ι) (opened : List ι) (s : Visited ι) : Prop where
  nodup : s.order.Nodup
  mem_order : ∀ i, i ∈ s.order ↔ i ∈ s.seen ∧ i ∉ opened
  sorted : G.Sorted s.order

/-- A walk from the nodes `starts` keeps the invariant and sees what they reach only. -/
structure Dag.Walk (G : Dag ι) (opened starts : List ι) (s t : Visited ι) : Prop where
  inv : G.Inv opened t
  reached : ∀ i ∈ t.seen, i ∈ s.seen ∨ ∃ start ∈ starts, G.Reaches start i

/-- The walks from several nodes, one after the other. -/
theorem Dag.visitAll_walk {starts : List ι}
    (hvisit : ∀ start ∈ starts, ∀ s, G.Inv opened s → G.Walk opened [start] s (G.visit start s))
    (hs : G.Inv opened s) : G.Walk opened starts s (G.visitAll starts s) := by
  induction starts generalizing s with
  | nil => exact ⟨hs, fun _ hi => .inl hi⟩
  | cons start starts ih =>
    have hfirst := hvisit start List.mem_cons_self s hs
    have hrest := ih (fun i hi => hvisit i (List.mem_cons_of_mem _ hi)) hfirst.inv
    refine ⟨hrest.inv, ?_⟩
    intro i hi
    rcases hrest.reached i hi with hseen | ⟨j, hj, hji⟩
    · rcases hfirst.reached i hseen with hold | ⟨j, hj, hji⟩
      · exact .inl hold
      · rw [List.mem_singleton.mp hj] at hji
        exact .inr ⟨start, List.mem_cons_self, hji⟩
    · exact .inr ⟨j, List.mem_cons_of_mem _ hj, hji⟩

omit [DecidableEq ι] in
/-- Marking a node that was not seen yet opens it. -/
theorem Dag.Inv.mark (hs : G.Inv opened s) (hseen : node ∉ s.seen) :
    G.Inv (node :: opened) ⟨node :: s.seen, s.order⟩ := by
  refine ⟨hs.nodup, ?_, hs.sorted⟩
  intro i
  show i ∈ s.order ↔ i ∈ node :: s.seen ∧ i ∉ node :: opened
  rw [hs.mem_order, List.mem_cons, List.mem_cons, not_or]
  constructor
  · intro hi
    have hne : i ≠ node := fun heq => hseen (heq ▸ hi.1)
    exact ⟨.inr hi.1, hne, hi.2⟩
  · intro hi
    obtain ⟨hin, hne, hout⟩ := hi
    exact ⟨hin.resolve_left hne, hout⟩

/-- Appending a node behind its children closes it. -/
theorem Dag.Inv.close (ht : G.Inv (node :: opened) t) (hself : node ∈ t.seen)
    (hnode : node ∉ opened) (hchildren : ∀ child ∈ G.children node, child ∈ t.order) :
    G.Inv opened ⟨t.seen, t.order ++ [node]⟩ := by
  have hnew : node ∉ t.order := by
    intro hin
    exact ((ht.mem_order node).mp hin).2 List.mem_cons_self
  refine ⟨?_, ?_, ht.sorted.concat hchildren⟩
  · show (t.order ++ [node]).Nodup
    rw [← List.concat_eq_append]
    exact ht.nodup.concat hnew
  · intro i
    show i ∈ t.order ++ [node] ↔ i ∈ t.seen ∧ i ∉ opened
    rw [List.mem_append, List.mem_singleton, ht.mem_order, List.mem_cons, not_or]
    constructor
    · intro hi
      rcases hi with ⟨hin, -, hout⟩ | heq
      · exact ⟨hin, hout⟩
      · rw [heq]
        exact ⟨hself, hnode⟩
    · intro hi
      by_cases heq : i = node
      · exact .inr heq
      · exact .inl ⟨hi.1, heq, hi.2⟩

/-- The walk from a node that reaches none of the opened nodes. -/
theorem Dag.visit_walk (hs : G.Inv opened s) (hopen : ∀ o ∈ opened, ¬ G.Reaches node o) :
    G.Walk opened [node] s (G.visit node s) := by
  induction node using G.acyclic.induction generalizing opened s with
  | _ node ih =>
    rw [Dag.visit_eq]
    by_cases hseen : node ∈ s.seen
    · rw [if_pos hseen]
      exact ⟨hs, fun _ hi => .inl hi⟩
    · rw [if_neg hseen]
      -- a child reaches neither the node itself nor what the node does not reach
      have hopen' : ∀ child ∈ G.children node, ∀ o ∈ node :: opened, ¬ G.Reaches child o := by
        intro child hchild o ho hreach
        rcases List.mem_cons.mp ho with heq | hin
        · rw [heq] at hreach
          exact Dag.not_reaches_parent hchild hreach
        · exact hopen o hin (Dag.reaches_of_child hchild hreach)
      have hbelow : G.Walk (node :: opened) (G.children node) ⟨node :: s.seen, s.order⟩
          (G.visitAll (G.children node) ⟨node :: s.seen, s.order⟩) := by
        apply Dag.visitAll_walk _ (hs.mark hseen)
        intro child hchild s' hs'
        exact ih child hchild hs' (hopen' child hchild)
      obtain ⟨hkept, hstarts⟩ := G.visitAll_kept (G.children node) ⟨node :: s.seen, s.order⟩
      refine ⟨hbelow.inv.close (hkept List.mem_cons_self) (fun hin => hopen node hin .refl) ?_, ?_⟩
      · intro child hchild
        apply (hbelow.inv.mem_order child).mpr
        exact ⟨hstarts hchild, fun hin => hopen' child hchild child hin .refl⟩
      · intro i hi
        rcases hbelow.reached i hi with hold | ⟨child, hchild, hreach⟩
        · rcases List.mem_cons.mp hold with heq | hin
          · rw [heq]
            exact .inr ⟨node, List.mem_singleton_self node, .refl⟩
          · exact .inl hin
        · exact .inr ⟨node, List.mem_singleton_self node, Dag.reaches_of_child hchild hreach⟩

end Walk

section Order

variable (G) (roots : List ι)

theorem Dag.postOrder_inv : G.Walk [] roots ⟨[], []⟩ (G.visitAll roots ⟨[], []⟩) := by
  apply Dag.visitAll_walk
  · intro start _ s hs
    apply Dag.visit_walk hs
    intro o ho
    exact absurd ho List.not_mem_nil
  · refine ⟨List.nodup_nil, ?_, ?_⟩
    · intro i
      simp
    · intro before node after heq
      exact absurd heq (by simp)

theorem Dag.postOrder_nodup : (G.postOrder roots).Nodup := (G.postOrder_inv roots).inv.nodup

theorem Dag.postOrder_sorted : G.Sorted (G.postOrder roots) := (G.postOrder_inv roots).inv.sorted

theorem Dag.mem_postOrder (i : ι) :
    i ∈ G.postOrder roots ↔ ∃ root ∈ roots, G.Reaches root i := by
  have hwalk := G.postOrder_inv roots
  have hseen : ∀ i, i ∈ G.postOrder roots ↔ i ∈ (G.visitAll roots ⟨[], []⟩).seen := by
    intro i
    refine (hwalk.inv.mem_order i).trans ?_
    simp
  constructor
  · intro hi
    rcases hwalk.reached i ((hseen i).mp hi) with hnone | hroot
    · exact absurd hnone List.not_mem_nil
    · exact hroot
  · intro hi
    obtain ⟨root, hroot, hreach⟩ := hi
    induction hreach with
    | refl =>
      exact (hseen root).mpr ((G.visitAll_kept roots ⟨[], []⟩).2 hroot)
    | @tail i child _ hchild ih =>
      obtain ⟨before, after, heq⟩ := List.append_of_mem ih
      have hin := G.postOrder_sorted roots before i after heq child hchild
      rw [heq]
      exact List.mem_append_left _ hin

end Order

end InkFuse.Graph
