import InkFuse.C.Lexer

/-!
Expressions of C as its grammar reads them: precedence climbing over the levels of binary
operators, with casts and unary operators above them and postfix expressions above these.
Assignments, conditionals, indexing and increments are left out.
-/

namespace InkFuse.C

inductive UnaryOp
  | deref
  | address
  | negate
  | plus
  | not
  | complement
  deriving DecidableEq, Repr

namespace UnaryOp

def text : UnaryOp → List Char
  | deref => ['*']
  | address => ['&']
  | negate => ['-']
  | plus => ['+']
  | not => ['!']
  | complement => ['~']

def ofText (s : List Char) : Option UnaryOp :=
  [deref, address, negate, plus, not, complement].find? fun op => op.text = s

@[simp]
theorem ofText_text (op : UnaryOp) : ofText op.text = some op := by
  cases op <;> rfl

theorem text_of_ofText {s : List Char} {op : UnaryOp} (h : ofText s = some op) : op.text = s := by
  simpa using List.find?_some h

end UnaryOp

inductive BinaryOp
  | mul
  | div
  | mod
  | add
  | sub
  | shl
  | shr
  | lt
  | gt
  | le
  | ge
  | eq
  | ne
  | bitAnd
  | bitXor
  | bitOr
  | and
  | or
  deriving DecidableEq, Repr

namespace BinaryOp

def text : BinaryOp → List Char
  | mul => ['*']
  | div => ['/']
  | mod => ['%']
  | add => ['+']
  | sub => ['-']
  | shl => ['<', '<']
  | shr => ['>', '>']
  | lt => ['<']
  | gt => ['>']
  | le => ['<', '=']
  | ge => ['>', '=']
  | eq => ['=', '=']
  | ne => ['!', '=']
  | bitAnd => ['&']
  | bitXor => ['^']
  | bitOr => ['|']
  | and => ['&', '&']
  | or => ['|', '|']

/-- All of them associate to the left. -/
def precedence : BinaryOp → ℕ
  | mul => 10
  | div => 10
  | mod => 10
  | add => 9
  | sub => 9
  | shl => 8
  | shr => 8
  | lt => 7
  | gt => 7
  | le => 7
  | ge => 7
  | eq => 6
  | ne => 6
  | bitAnd => 5
  | bitXor => 4
  | bitOr => 3
  | and => 2
  | or => 1

def ofText (s : List Char) : Option BinaryOp :=
  [mul, div, mod, add, sub, shl, shr, lt, gt, le, ge, eq, ne, bitAnd, bitXor, bitOr, and, or].find?
    fun op => op.text = s

@[simp]
theorem ofText_text (op : BinaryOp) : ofText op.text = some op := by
  cases op <;> rfl

theorem text_of_ofText {s : List Char} {op : BinaryOp} (h : ofText s = some op) :
    op.text = s := by
  simpa using List.find?_some h

end BinaryOp

def castLevel : ℕ := 11

def postfixLevel : ℕ := 12

theorem BinaryOp.precedence_lt (op : BinaryOp) : op.precedence < castLevel := by
  cases op <;> decide

inductive TypeName
  | named (s : List Char) (pointers : ℕ)
  | struct (tag : List Char) (pointers : ℕ)
  deriving DecidableEq, Repr

def TypeName.tokens : TypeName → List Token
  | named s pointers => .word s :: List.replicate pointers (.punct ['*'])
  | struct tag pointers =>
    .word "struct".toList :: .word tag :: List.replicate pointers (.punct ['*'])

inductive CExpr
  | ident (name : List Char)
  | number (digits : List Char)
  | paren (e : CExpr)
  | unary (op : UnaryOp) (e : CExpr)
  | cast (type : TypeName) (e : CExpr)
  | call (name : List Char) (args : List CExpr)
  | member (e : CExpr) (field : List Char)
  | binary (op : BinaryOp) (l r : CExpr)
  deriving Repr

namespace CExpr

@[induction_eliminator]
theorem induct {P : CExpr → Prop} (ident : ∀ name, P (.ident name))
    (number : ∀ digits, P (.number digits)) (paren : ∀ e, P e → P (.paren e))
    (unary : ∀ op e, P e → P (.unary op e)) (cast : ∀ type e, P e → P (.cast type e))
    (call : ∀ name args, (∀ a ∈ args, P a) → P (.call name args))
    (member : ∀ e field, P e → P (.member e field))
    (binary : ∀ op l r, P l → P r → P (.binary op l r)) (e : CExpr) : P e :=
  @CExpr.rec P (fun args => ∀ a ∈ args, P a) ident number paren unary cast call member binary
    (fun _ ha => absurd ha List.not_mem_nil)
    (fun _ _ hhead htail _ ha => (List.mem_cons.mp ha).elim (fun h => h ▸ hhead) (htail _)) e

mutual

def tokens : CExpr → List Token
  | ident name => [.word name]
  | number digits => [.number digits]
  | paren e => .punct ['('] :: e.tokens ++ [.punct [')']]
  | unary op e => .punct op.text :: e.tokens
  | cast type e => .punct ['('] :: type.tokens ++ .punct [')'] :: e.tokens
  | call name [] => [.word name, .punct ['('], .punct [')']]
  | call name (a :: args) => .word name :: .punct ['('] :: a.tokens ++ restTokens args
  | member e field => e.tokens ++ [.punct ['.'], .word field]
  | binary op l r => l.tokens ++ .punct op.text :: r.tokens

def restTokens : List CExpr → List Token
  | [] => [.punct [')']]
  | a :: args => .punct [','] :: a.tokens ++ restTokens args

end

mutual

def strip : CExpr → CExpr
  | ident name => ident name
  | number digits => number digits
  | paren e => e.strip
  | unary op e => unary op e.strip
  | cast type e => cast type e.strip
  | call name args => call name (stripAll args)
  | member e field => member e.strip field
  | binary op l r => binary op l.strip r.strip

def stripAll : List CExpr → List CExpr
  | [] => []
  | a :: args => a.strip :: stripAll args

end

def level : CExpr → ℕ
  | unary .. => castLevel
  | cast .. => castLevel
  | binary op _ _ => op.precedence
  | _ => postfixLevel

end CExpr

def keywords : List (List Char) :=
  ["auto", "break", "case", "char", "const", "continue", "default", "do", "double", "else", "enum",
    "extern", "float", "for", "goto", "if", "inline", "int", "long", "register", "restrict",
    "return", "short", "signed", "sizeof", "static", "struct", "switch", "typedef", "union",
    "unsigned", "void", "volatile", "while", "_Bool"].map String.toList

/-- The keywords that are a type on their own. -/
def basicTypes : List (List Char) :=
  ["char", "double", "float", "int", "long", "short", "signed", "unsigned", "void",
    "_Bool"].map String.toList

/-- How words are read: `typedefs` are the names of types that are in scope. -/
def isTypeWord (typedefs : List (List Char)) (s : List Char) : Bool :=
  basicTypes.contains s || typedefs.contains s && !keywords.contains s

def isIdentifier (typedefs : List (List Char)) (s : List Char) : Bool :=
  !keywords.contains s && !typedefs.contains s

section Canonical

variable (typedefs : List (List Char))

def TypeName.Ok : TypeName → Prop
  | named s _ => isTypeWord typedefs s = true
  | struct tag _ => isIdentifier typedefs tag = true

mutual

/-- Every operand is of the level that the grammar has at its place. -/
def CExpr.Canonical : CExpr → Prop
  | .ident name => isIdentifier typedefs name = true
  | .number digits => isDecimal digits = true
  | .paren e => e.Canonical
  | .unary _ e => e.Canonical ∧ castLevel ≤ e.level
  | .cast type e => type.Ok typedefs ∧ e.Canonical ∧ castLevel ≤ e.level
  | .call name args => isIdentifier typedefs name = true ∧ AllCanonical args
  | .member e _ => e.Canonical ∧ postfixLevel ≤ e.level
  | .binary op l r =>
    l.Canonical ∧ r.Canonical ∧ op.precedence ≤ l.level ∧ op.precedence < r.level

def AllCanonical : List CExpr → Prop
  | [] => True
  | a :: args => a.Canonical ∧ AllCanonical args

end

end Canonical

section Parser

variable (typedefs : List (List Char))

def parsePointers : List Token → ℕ × List Token
  | .punct ['*'] :: rest => ((parsePointers rest).1 + 1, (parsePointers rest).2)
  | rest => (0, rest)

def parseTypeName : List Token → Option (TypeName × List Token)
  | .word s :: rest =>
    if isTypeWord typedefs s then
      some (.named s (parsePointers rest).1, (parsePointers rest).2)
    else if s = "struct".toList then
      match rest with
      | .word tag :: rest =>
        if isIdentifier typedefs tag then
          some (.struct tag (parsePointers rest).1, (parsePointers rest).2)
        else none
      | _ => none
    else none
  | _ => none

def parseMembers (e : CExpr) : List Token → Option (CExpr × List Token)
  | .punct ['.'] :: .word field :: rest => parseMembers (.member e field) rest
  | .punct ['.'] :: _ => none
  | rest => some (e, rest)

def headOp : List Token → Option BinaryOp
  | .punct s :: _ => BinaryOp.ofText s
  | _ => none

def expect (s : List Char) : List Token → Option (List Token)
  | .punct t :: rest => if t = s then some rest else none
  | _ => none

mutual

/-- An expression whose operators are at least of this level. -/
def parseBinary : ℕ → ℕ → List Token → Option (CExpr × List Token)
  | 0, _, _ => none
  | fuel + 1, level, toks => do
    let (l, rest) ← parseUnary fuel toks
    parseOperators fuel level l rest

def parseOperators : ℕ → ℕ → CExpr → List Token → Option (CExpr × List Token)
  | 0, _, _, _ => none
  | fuel + 1, level, l, toks =>
    match headOp toks with
    | none => some (l, toks)
    | some op =>
      if level ≤ op.precedence then do
        let (r, rest) ← parseBinary fuel (op.precedence + 1) toks.tail
        parseOperators fuel level (.binary op l r) rest
      else some (l, toks)

def parseUnary : ℕ → List Token → Option (CExpr × List Token)
  | 0, _ => none
  | fuel + 1, toks =>
    match toks with
    | .word name :: rest =>
      if isIdentifier typedefs name then
        match rest with
        | .punct ['('] :: rest => do
          let (args, rest) ← parseArguments fuel rest
          parseMembers (.call name args) rest
        | _ => parseMembers (.ident name) rest
      else none
    | .number digits :: rest =>
      if isDecimal digits then parseMembers (.number digits) rest else none
    | .punct ['('] :: rest =>
      match parseTypeName typedefs rest with
      | some (type, rest) => do
        let rest ← expect [')'] rest
        let (e, rest) ← parseUnary fuel rest
        some (.cast type e, rest)
      | none => do
        let (e, rest) ← parseBinary fuel 0 rest
        let rest ← expect [')'] rest
        parseMembers (.paren e) rest
    | .punct s :: rest =>
      match UnaryOp.ofText s with
      | some op => do
        let (e, rest) ← parseUnary fuel rest
        some (.unary op e, rest)
      | none => none
    | _ => none

def parseArguments : ℕ → List Token → Option (List CExpr × List Token)
  | 0, _ => none
  | fuel + 1, toks =>
    match expect [')'] toks with
    | some rest => some ([], rest)
    | none => do
      let (a, rest) ← parseBinary fuel 0 toks
      let (args, rest) ← parseRest fuel rest
      some (a :: args, rest)

def parseRest : ℕ → List Token → Option (List CExpr × List Token)
  | 0, _ => none
  | fuel + 1, toks =>
    match expect [')'] toks with
    | some rest => some ([], rest)
    | none => do
      let rest ← expect [','] toks
      let (a, rest) ← parseBinary fuel 0 rest
      let (args, rest) ← parseRest fuel rest
      some (a :: args, rest)

end

def parseExpression (fuel : ℕ) (text : List Char) : Option CExpr :=
  match lex text with
  | none => none
  | some toks =>
    match parseBinary typedefs fuel 0 toks with
    | some (e, []) => some e
    | _ => none

/-- The text has this tree, up to parentheses. -/
def Reads (text : List Char) (tree : CExpr) : Prop :=
  ∃ e : CExpr, e.strip = tree ∧ ∃ N, ∀ fuel ≥ N, parseExpression typedefs fuel text = some e

end Parser

end InkFuse.C
