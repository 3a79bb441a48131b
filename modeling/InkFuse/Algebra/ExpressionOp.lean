import InkFuse.Codegen.Expression
import InkFuse.Graph.PostOrder
import Mathlib.Logic.Function.Basic

/-!
The operator that evaluates a set of expressions. Its nodes form a graph without cycles, in which
a node may have several parents. It decays into one suboperator for each computation. Node
pointers and IUs are arbitrary types.
-/

namespace InkFuse.Algebra

open Codegen

/-- `ComputeNode::Type` -/
inductive ComputeType
  | add
  | cast
  | subtract
  | multiply
  | divide
  | eq
  | neq
  | less
  | and
  | or
  | lessEqual
  | greater
  | greaterEqual
  | constant
  | strEquals
  | inList
  | notLikeTokens
  deriving DecidableEq, Repr

/-- `ExpressionHelpers::code_map` -/
def codeMap : ComputeType → Option Opcode
  | .add => some .add
  | .subtract => some .subtract
  | .multiply => some .multiply
  | .divide => some .divide
  | .greater => some .greater
  | .greaterEqual => some .greaterEqual
  | .less => some .less
  | .lessEqual => some .lessEqual
  | .eq => some .eq
  | .and => some .and
  | .or => some .or
  | .neq => some .neq
  | .strEquals => some .strEquals
  | .inList => some .strInList
  | .notLikeTokens => some .notLikeTokens
  | .cast => none
  | .constant => none

structure ComputeNode (ι IU : Type) where
  code : ComputeType
  out : IU
  children : List ι
  optRuntimeParam : Option Value

inductive ExpressionNode (ι IU : Type)
  | iuRef (child : IU)
  | compute (node : ComputeNode ι IU)

def ExpressionNode.children {ι IU : Type} : ExpressionNode ι IU → List ι
  | iuRef _ => []
  | compute c => c.children

/-- What the three constructors build. A regular computation has two operands, which is asserted
when its code is generated. -/
inductive ComputeNode.Built {ι IU : Type} : ComputeNode ι IU → Prop
  | regular {code out left right} : code ≠ .constant → code ≠ .cast →
      Built ⟨code, out, [left, right], none⟩
  | cast {out child} : Built ⟨.cast, out, [child], none⟩
  | runtimeParam {code out arg1 arg2} : code ≠ .cast → Built ⟨code, out, [arg2], some arg1⟩

/-- `ExpressionSubop` and `RuntimeExpressionSubop` with their runtime parameter. A source is null
when nothing was recorded for the child. -/
inductive ExpressionSubop (IU : Type)
  | regular (providedIUs : List IU) (sourceIUs : List (Option IU)) (type : ComputeType)
  | runtime (providedIUs : List IU) (sourceIUs : List (Option IU)) (type : ComputeType)
      (runtimeParamType : IRType) (data : Value)

/-- The nodes of an operator, and those that are output. Every computation has an output IU of
its own. -/
structure ExpressionOp (ι IU : Type) where
  node : ι → ExpressionNode ι IU
  out : List ι
  typeOf : IU → IRType
  acyclic : WellFounded fun child i => child ∈ (node i).children
  built : ∀ i c, node i = .compute c → c.Built
  out_injective : ∀ i j c d, node i = .compute c → node j = .compute d → c.out = d.out → i = j

/-- The IUs by node as recorded in `built`, and the suboperators of the current pipeline. -/
structure Decay (ι IU : Type) where
  built : ι → Option IU
  subops : List (ExpressionSubop IU)

variable {ι IU V : Type} [DecidableEq ι] [DecidableEq IU]

def ComputeNode.subop (c : ComputeNode ι IU) (sourceIUs : List (Option IU)) : ExpressionSubop IU :=
  match c.optRuntimeParam with
  | none => .regular [c.out] sourceIUs c.code
  | some param => .runtime [c.out] sourceIUs c.code param.getType param

namespace ExpressionOp

variable (op : ExpressionOp ι IU)

def decayNode (i : ι) (s : Decay ι IU) : Decay ι IU :=
  if (s.built i).isSome then
    s
  else
    match _hnode : op.node i with
    | .iuRef child => { s with built := Function.update s.built i (some child) }
    | .compute c =>
      let r := c.children.attach.foldl (fun r child =>
        let s := decayNode child.1 r.1
        (s, r.2 ++ [s.built child.1]))
        ({ s with built := Function.update s.built i (some c.out) }, [])
      { r.1 with subops := r.1.subops ++ [c.subop r.2] }
termination_by op.acyclic.wrap i
decreasing_by
  show child.1 ∈ (op.node i).children
  rw [_hnode]
  exact child.2

/-- The current pipeline after the decay. The operators below have decayed into it already. -/
def decay (pipeline : List (ExpressionSubop IU)) : List (ExpressionSubop IU) :=
  (op.out.foldl (fun s root => op.decayNode root s) ⟨fun _ => none, pipeline⟩).subops

end ExpressionOp

/-- How generated code computes: a runtime constant in a variable, the two kinds of expressions,
and an assignment to a variable of some type. -/
structure Semantics (V : Type) where
  constant : Value → V
  arithmetic : Opcode → V → V → V
  cast : IRType → V → V
  assign : IRType → V → V

namespace ExpressionSubop

variable (S : Semantics V) (typeOf : IU → IRType)

/-- The code of `consumeAllChildren`, run on the declared IUs. Without a result an assertion fails
or something missing is read. -/
def consumeAllChildren (declared : IU → Option V) : ExpressionSubop IU → Option (IU → Option V)
  | .regular (out :: _) sourceIUs type => do
    let children ← sourceIUs.mapM fun source => source.bind declared
    let value ←
      if type = .cast then
        match children with
        | [child] => some (S.cast (typeOf out) child)
        | _ => none
      else
        match children with
        | [left, right] => (codeMap type).map fun code => S.arithmetic code left right
        | _ => none
    some (Function.update declared out (some (S.assign (typeOf out) value)))
  | .runtime (out :: _) sourceIUs type runtimeParamType data => do
    let value ←
      if runtimeParamType ≠ data.getType then
        none
      else if type = .constant then
        some (S.constant data)
      else do
        let source ← sourceIUs.head?
        let child ← source.bind declared
        (codeMap type).map fun code => S.arithmetic code (S.constant data) child
    some (Function.update declared out (some (S.assign (typeOf out) value)))
  | _ => none

end ExpressionSubop

/-- The value of a computation with these operands. A runtime constant is the first operand. -/
def ComputeNode.value (S : Semantics V) (outType : IRType) (c : ComputeNode ι IU) :
    List V → Option V
  | [operand] =>
    match c.optRuntimeParam with
    | none => some (S.assign outType (S.cast outType operand))
    | some constant =>
      if c.code = .constant then
        some (S.assign outType (S.constant constant))
      else
        (codeMap c.code).map fun code =>
          S.assign outType (S.arithmetic code (S.constant constant) operand)
  | [left, right] =>
    (codeMap c.code).map fun code => S.assign outType (S.arithmetic code left right)
  | _ => none

namespace ExpressionOp

variable (op : ExpressionOp ι IU)

def eval (S : Semantics V) (provided : IU → Option V) (i : ι) : Option V :=
  match _hnode : op.node i with
  | .iuRef child => provided child
  | .compute c => do
    let operands ← c.children.attach.mapM fun child => eval S provided child.1
    c.value S (op.typeOf c.out) operands
termination_by op.acyclic.wrap i
decreasing_by
  show child.1 ∈ (op.node i).children
  rw [_hnode]
  exact child.2

def iuOf (i : ι) : IU :=
  match op.node i with
  | .iuRef child => child
  | .compute c => c.out

end ExpressionOp

end InkFuse.Algebra
