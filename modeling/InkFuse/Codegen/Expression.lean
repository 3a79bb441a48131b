import InkFuse.C.Grammar
import InkFuse.Codegen.Value

/-!
Expressions of the intermediate representation, the text that the C backend writes for them, and the
expressions of C that they stand for.
-/

namespace InkFuse.Codegen

open InkFuse.C

def typedefs : List (List Char) :=
  ["int8_t", "int16_t", "int32_t", "int64_t", "uint8_t", "uint16_t", "uint32_t", "uint64_t",
    "bool"].map String.toList

structure Name where
  text : List Char
  isWord : isWord text = true
  isIdentifier : isIdentifier typedefs text = true

inductive TargetType
  | signedInt (size : IntSize)
  | unsignedInt (size : IntSize)
  | float (size : ℕ)
  | char
  | string
  | date
  | bool
  | byteArray (size : ℕ)
  | void
  | struct (name : Name)
  | pointer (pointedTo : TargetType)

def IntSize.bits : IntSize → List Char
  | one => "8".toList
  | two => "16".toList
  | four => "32".toList
  | eight => "64".toList

def typeDescription : TargetType → List Char
  | .signedInt size => "int".toList ++ size.bits ++ "_t".toList
  | .unsignedInt size => "uint".toList ++ size.bits ++ "_t".toList
  | .float size => if size = 4 then "float".toList else "double".toList
  | .char => "char".toList
  | .string => "char*".toList
  | .date => "int32_t".toList
  | .bool => "bool".toList
  | .byteArray _ => "char*".toList
  | .void => "void".toList
  | .struct name => "struct ".toList ++ name.text
  | .pointer pointedTo => typeDescription pointedTo ++ "*".toList

inductive Opcode
  | add
  | subtract
  | multiply
  | divide
  | eq
  | neq
  | less
  | and
  | or
  | lessEqual
  | greater
  | greaterEqual
  | hashCombine
  | strEquals
  | strInList
  | notLikeTokens
  deriving DecidableEq, Repr

def Opcode.opcodeMap : Opcode → Option (List Char)
  | add => some "+".toList
  | subtract => some "-".toList
  | multiply => some "*".toList
  | divide => some "/".toList
  | less => some "<".toList
  | lessEqual => some "<=".toList
  | greater => some ">".toList
  | greaterEqual => some ">=".toList
  | and => some "&&".toList
  | or => some "||".toList
  | eq => some "==".toList
  | neq => some "!=".toList
  | _ => none

def Opcode.binary : Opcode → Option BinaryOp
  | add => some .add
  | subtract => some .sub
  | multiply => some .mul
  | divide => some .div
  | less => some .lt
  | lessEqual => some .le
  | greater => some .gt
  | greaterEqual => some .ge
  | and => some .and
  | or => some .or
  | eq => some .eq
  | neq => some .ne
  | _ => none

inductive Expr
  | varRef (name : Name)
  | const (value : Value)
  | invokeFct (fct : Name) (args : List Expr)
  | arithmetic (code : Opcode) (l r : Expr)
  | deref (child : Expr)
  | ref (child : Expr)
  | structAccess (child : Expr) (field : Name)
  | cast (child : Expr) (type : TargetType)
  | memcopy (dest src size : Expr)

/-- `function_call_map` and the comparison of strings: what stands before and behind the
operands. -/
def Opcode.call : Opcode → Option (List Char × List Char)
  | strEquals => some ("(strcmp(".toList, ") == 0)".toList)
  | strInList => some ("in_strlist(".toList, ")".toList)
  | notLikeTokens => some ("not_like_tokens(".toList, ")".toList)
  | _ => none

mutual

/-- The text of an expression. There is none for a hash combination. -/
def compileExpression : Expr → Option (List Char)
  | .varRef name => some name.text
  | .const value => value.str
  | .invokeFct fct [] => some (fct.text ++ "()".toList)
  | .invokeFct fct (a :: args) => do
    let first ← compileExpression a
    let rest ← compileRest args
    some (fct.text ++ "(".toList ++ first ++ rest)
  | .arithmetic code l r =>
    match code.call, code.opcodeMap with
    | some (before, behind), _ => do
      let left ← compileExpression l
      let right ← compileExpression r
      some (before ++ left ++ ", ".toList ++ right ++ behind)
    | none, some op => do
      let left ← compileExpression l
      let right ← compileExpression r
      some (left ++ " ".toList ++ op ++ " ".toList ++ right)
    | none, none => none
  | .deref child => do
    let text ← compileExpression child
    some ("(*(".toList ++ text ++ "))".toList)
  | .ref child => do
    let text ← compileExpression child
    some ("(&(".toList ++ text ++ "))".toList)
  | .structAccess child field => do
    let text ← compileExpression child
    some (text ++ ".".toList ++ field.text)
  | .cast child type => do
    let text ← compileExpression child
    some ("((".toList ++ typeDescription type ++ ") (".toList ++ text ++ "))".toList)
  | .memcopy dest src size => do
    let first ← compileExpression dest
    let second ← compileExpression src
    let third ← compileExpression size
    some ("(memcpy(".toList ++ first ++ ", ".toList ++ second ++ ", ".toList ++ third ++
      "))".toList)

/-- The arguments behind the first, with the end of the call. -/
def compileRest : List Expr → Option (List Char)
  | [] => some ")".toList
  | a :: args => do
    let first ← compileExpression a
    let rest ← compileRest args
    some (", ".toList ++ first ++ rest)

end

section Meaning

def TargetType.typeName : TargetType → TypeName
  | signedInt size => .named ("int".toList ++ size.bits ++ "_t".toList) 0
  | unsignedInt size => .named ("uint".toList ++ size.bits ++ "_t".toList) 0
  | float size => .named (if size = 4 then "float".toList else "double".toList) 0
  | char => .named "char".toList 0
  | string => .named "char".toList 1
  | date => .named "int32_t".toList 0
  | bool => .named "bool".toList 0
  | byteArray _ => .named "char".toList 1
  | void => .named "void".toList 0
  | struct name => .struct name.text 0
  | pointer pointedTo =>
    match pointedTo.typeName with
    | .named s pointers => .named s (pointers + 1)
    | .struct tag pointers => .struct tag (pointers + 1)

/-- C has no negative constants. -/
def integer : ℤ → CExpr
  | .ofNat n => .number (Nat.toDigits 10 n)
  | .negSucc n => .unary .negate (.number (Nat.toDigits 10 (n + 1)))

def Opcode.tree (l r : CExpr) : Opcode → Option CExpr
  | strEquals => some (.binary .eq (.call "strcmp".toList [l, r]) (.number ['0']))
  | strInList => some (.call "in_strlist".toList [l, r])
  | notLikeTokens => some (.call "not_like_tokens".toList [l, r])
  | code => code.binary.map fun op => .binary op l r

mutual

/-- The expression of C that an expression over integer constants stands for. -/
def toC : Expr → Option CExpr
  | .varRef name => some (.ident name.text)
  | .const (.UI _ value) => some (integer value.toNat)
  | .const (.SI _ value) => some (integer value.toInt)
  | .const _ => none
  | .invokeFct fct args => (allToC args).map fun args => .call fct.text args
  | .arithmetic code l r => do code.tree (← toC l) (← toC r)
  | .deref child => (toC child).map fun child => .unary .deref child
  | .ref child => (toC child).map fun child => .unary .address child
  | .structAccess child field => (toC child).map fun child => .member child field.text
  | .cast child type => (toC child).map fun child => .cast type.typeName child
  | .memcopy dest src size => do
    some (.call "memcpy".toList [← toC dest, ← toC src, ← toC size])

def allToC : List Expr → Option (List CExpr)
  | [] => some []
  | a :: args => do some ((← toC a) :: (← allToC args))

end

/-- What an operator binds that is written without parentheses. -/
def Expr.operator : Expr → Option BinaryOp
  | .arithmetic code _ _ => code.binary
  | _ => none

def Expr.isConst : Expr → Bool
  | .const _ => true
  | _ => false

mutual

/-- No operand needs parentheses: operators are nested by precedence and to the left, and fields are
not those of constants or operators. -/
def Expr.wellNested : Expr → Bool
  | .varRef _ => true
  | .const _ => true
  | .invokeFct _ args => allWellNested args
  | .arithmetic code l r => l.wellNested && r.wellNested &&
    code.binary.all fun op => (l.operator.all fun left => op.precedence ≤ left.precedence) &&
      r.operator.all fun right => op.precedence < right.precedence
  | .deref child => child.wellNested
  | .ref child => child.wellNested
  | .structAccess child _ => child.wellNested && child.operator.isNone && !child.isConst
  | .cast child _ => child.wellNested
  | .memcopy dest src size => dest.wellNested && src.wellNested && size.wellNested

def allWellNested : List Expr → Bool
  | [] => true
  | a :: args => a.wellNested && allWellNested args

end

end Meaning

end InkFuse.Codegen
