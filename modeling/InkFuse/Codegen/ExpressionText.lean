import InkFuse.C.Parentheses
import InkFuse.C.Parsing
import InkFuse.Codegen.Expression

/-!
When C reads the text of an expression as that expression. The text is what a tree with parentheses
is written as, and C reads it as that tree if every operand stands where the grammar allows it.
-/

namespace InkFuse.Codegen

open InkFuse.C

@[induction_eliminator]
theorem Expr.induct {P : Expr → Prop} (varRef : ∀ name, P (.varRef name))
    (const : ∀ value, P (.const value))
    (invokeFct : ∀ fct args, (∀ a ∈ args, P a) → P (.invokeFct fct args))
    (arithmetic : ∀ code l r, P l → P r → P (.arithmetic code l r))
    (deref : ∀ child, P child → P (.deref child)) (ref : ∀ child, P child → P (.ref child))
    (structAccess : ∀ child field, P child → P (.structAccess child field))
    (cast : ∀ child type, P child → P (.cast child type))
    (memcopy : ∀ dest src size, P dest → P src → P size → P (.memcopy dest src size)) (e : Expr) :
    P e :=
  @Expr.rec P (fun args => ∀ a ∈ args, P a) varRef const invokeFct arithmetic deref ref structAccess
    cast memcopy (fun _ ha => absurd ha List.not_mem_nil)
    (fun _ _ hhead htail _ ha => (List.mem_cons.mp ha).elim (fun h => h ▸ hhead) (htail _)) e

section Written

def Opcode.written (l r : CExpr) : Opcode → Option CExpr
  | strEquals => (strEquals.tree l r).map .paren
  | code => code.tree l r

mutual

def written : Expr → Option CExpr
  | .varRef name => some (.ident name.text)
  | .const (.UI _ value) => some (integer value.toNat)
  | .const (.SI _ value) => some (integer value.toInt)
  | .const _ => none
  | .invokeFct fct args => (allWritten args).map fun args => .call fct.text args
  | .arithmetic code l r => do code.written (← written l) (← written r)
  | .deref child => (written child).map fun child => .paren (.unary .deref (.paren child))
  | .ref child => (written child).map fun child => .paren (.unary .address (.paren child))
  | .structAccess child field => (written child).map fun child => .member child field.text
  | .cast child type =>
    (written child).map fun child => .paren (.cast type.typeName (.paren child))
  | .memcopy dest src size => do
    some (.paren (.call "memcpy".toList [← written dest, ← written src, ← written size]))

def allWritten : List Expr → Option (List CExpr)
  | [] => some []
  | a :: args => do some ((← written a) :: (← allWritten args))

end

theorem strip_integer (n : ℤ) : (integer n).strip = integer n := by
  cases n <;> rfl

theorem strip_written (code : Opcode) (l r : CExpr) :
    (code.written l r).map CExpr.strip = code.tree l.strip r.strip := by
  cases code <;> rfl

theorem allToC_eq {args : List Expr} (h : ∀ a ∈ args, toC a = (written a).map CExpr.strip) :
    allToC args = (allWritten args).map CExpr.stripAll := by
  induction args with
  | nil => rfl
  | cons a args ih =>
    rw [allToC, allWritten, h a (List.mem_cons_self ..),
      ih fun b hb => h b (List.mem_cons_of_mem _ hb)]
    cases written a <;> cases allWritten args <;> rfl

/-- The parentheses that are written do not change the expression. -/
theorem toC_eq (e : Expr) : toC e = (written e).map CExpr.strip := by
  induction e with
  | varRef name => rfl
  | const value =>
    cases value with
    | UI size value => exact congrArg some (strip_integer _).symm
    | SI size value => exact congrArg some (strip_integer _).symm
    | _ => rfl
  | invokeFct fct args ih =>
    rw [toC, written, allToC_eq ih]
    cases allWritten args <;> rfl
  | arithmetic code l r ihl ihr =>
    rw [toC, written, ihl, ihr]
    cases written l with
    | none => rfl
    | some l =>
      cases written r with
      | none => rfl
      | some r => exact (strip_written code l r).symm
  | deref child ih =>
    rw [toC, written, ih]
    cases written child <;> rfl
  | ref child ih =>
    rw [toC, written, ih]
    cases written child <;> rfl
  | structAccess child field ih =>
    rw [toC, written, ih]
    cases written child <;> rfl
  | cast child type ih =>
    rw [toC, written, ih]
    cases written child <;> rfl
  | memcopy dest src size ihd ihs ihn =>
    rw [toC, written, ihd, ihs, ihn]
    cases written dest <;> cases written src <;> cases written size <;> rfl

end Written

section Text

def Expr.endsInNumber : Expr → Bool
  | .const _ => true
  | .arithmetic code _ r => code.binary.isSome && r.endsInNumber
  | _ => false

mutual

/-- No field stands behind the digits of a constant. -/
def Expr.dotsApart : Expr → Bool
  | .varRef _ => true
  | .const _ => true
  | .invokeFct _ args => allDotsApart args
  | .arithmetic _ l r => l.dotsApart && r.dotsApart
  | .deref child => child.dotsApart
  | .ref child => child.dotsApart
  | .structAccess child _ => child.dotsApart && !child.endsInNumber
  | .cast child _ => child.dotsApart
  | .memcopy dest src size => dest.dotsApart && src.dotsApart && size.dotsApart

def allDotsApart : List Expr → Bool
  | [] => true
  | a :: args => a.dotsApart && allDotsApart args

end

def Behind (number : Bool) (rest : List Char) : Prop :=
  ∀ c ∈ rest.head?, c = ' ' ∨ c = ')' ∨ c = ',' ∨ c = '.' ∧ number = false

theorem Behind.word {number : Bool} {rest : List Char} (h : Behind number rest) :
    ∀ c ∈ rest.head?, isWordPart c = false := by
  intro c hc
  rcases h c hc with rfl | rfl | rfl | ⟨rfl, _⟩ <;> decide

theorem lexesTo_name (name : Name) {number : Bool} {rest : List Char} (h : Behind number rest) :
    LexesTo name.text [.word name.text] rest :=
  lexesTo_word name.isWord h.word

theorem isDecimal_toDigits (n : ℕ) : isDecimal (Nat.toDigits 10 n) = true := by
  rw [isDecimal, Bool.and_eq_true, List.all_eq_true]
  refine ⟨?_, fun c hc => Nat.isDigit_of_mem_toDigits (by decide) (by decide) hc⟩
  rw [Bool.not_eq_true', List.isEmpty_eq_false_iff]
  exact Nat.toDigits_ne_nil

theorem lexesTo_digits (n : ℕ) {rest : List Char} (h : Behind true rest) :
    LexesTo (Nat.toDigits 10 n) [.number (Nat.toDigits 10 n)] rest := by
  apply lexesTo_number (isDecimal_toDigits n)
  intro c hc
  rcases h c hc with rfl | rfl | rfl | ⟨rfl, hnumber⟩
  · simp [continuesNumber, isWordPart]
  · simp [continuesNumber, isWordPart]
  · simp [continuesNumber, isWordPart]
  · cases hnumber

theorem lexesTo_minus {s rest : List Char} (hs : isDecimal s = true) :
    LexesTo ['-'] [.punct ['-']] (s ++ rest) := by
  apply lexesTo_punct (by decide)
  intro d hd
  cases s with
  | nil => cases hs
  | cons c s =>
    cases hd
    simp only [isDecimal, List.all_cons, List.isEmpty_cons, Bool.not_false, Bool.true_and,
      Bool.and_eq_true] at hs
    refine ⟨by simp, by simp, ?_⟩
    simp only [punctuators, List.singleton_append, List.mem_cons, List.cons.injEq, true_and]
    rintro h
    have hdigit := hs.1
    revert hdigit
    simp at h
    rcases h with rfl | rfl | rfl <;> decide

theorem lexesTo_integer (n : ℤ) {rest : List Char} (h : Behind true rest) :
    LexesTo (stdToString n) (integer n).tokens rest := by
  cases n with
  | ofNat n => exact lexesTo_digits n h
  | negSucc n =>
    exact (lexesTo_minus (isDecimal_toDigits (n + 1))).append (lexesTo_digits (n + 1) h)

theorem isWord_int (size : IntSize) : isWord ("int".toList ++ size.bits ++ "_t".toList) = true ∧
    isWord ("uint".toList ++ size.bits ++ "_t".toList) = true := by
  cases size <;> decide

theorem lexesTo_star {rest : List Char} (hrest : ∀ c ∈ rest.head?, c = ')' ∨ c = '*') :
    LexesTo ['*'] [.punct ['*']] rest := by
  apply lexesTo_punct (by decide)
  intro d hd
  rcases hrest d hd with rfl | rfl <;> simp [EndsPunct, punctuators]

theorem lexesTo_typeWord {s rest : List Char} (hs : isWord s = true)
    (hrest : ∀ c ∈ rest.head?, c = ')' ∨ c = '*') :
    LexesTo s (TypeName.named s 0).tokens rest := by
  apply lexesTo_word hs
  intro c hc
  rcases hrest c hc with rfl | rfl <;> decide

theorem lexesTo_charStar {rest : List Char} (hrest : ∀ c ∈ rest.head?, c = ')' ∨ c = '*') :
    LexesTo "char*".toList (TypeName.named "char".toList 1).tokens rest := by
  have hword : LexesTo "char".toList (TypeName.named "char".toList 0).tokens (['*'] ++ rest) :=
    lexesTo_typeWord (by decide) (by simp)
  exact hword.append (lexesTo_star hrest)

theorem tokens_pointer (type : TargetType) : (TargetType.pointer type).typeName.tokens =
    type.typeName.tokens ++ [.punct ['*']] := by
  rw [TargetType.typeName]
  cases type.typeName with
  | named s n => simp [TypeName.tokens, List.replicate_succ']
  | struct tag n => simp [TypeName.tokens, List.replicate_succ']

theorem lexesTo_type (type : TargetType) {rest : List Char}
    (hrest : ∀ c ∈ rest.head?, c = ')' ∨ c = '*') :
    LexesTo (typeDescription type) type.typeName.tokens rest := by
  induction type generalizing rest with
  | signedInt size =>
    show LexesTo ("int".toList ++ size.bits ++ "_t".toList)
      (TypeName.named ("int".toList ++ size.bits ++ "_t".toList) 0).tokens rest
    exact lexesTo_typeWord (isWord_int size).1 hrest
  | unsignedInt size =>
    show LexesTo ("uint".toList ++ size.bits ++ "_t".toList)
      (TypeName.named ("uint".toList ++ size.bits ++ "_t".toList) 0).tokens rest
    exact lexesTo_typeWord (isWord_int size).2 hrest
  | float size =>
    show LexesTo (if size = 4 then "float".toList else "double".toList)
      (TypeName.named (if size = 4 then "float".toList else "double".toList) 0).tokens rest
    apply lexesTo_typeWord _ hrest
    split <;> decide
  | char =>
    show LexesTo "char".toList (TypeName.named "char".toList 0).tokens rest
    exact lexesTo_typeWord (by decide) hrest
  | string => exact lexesTo_charStar hrest
  | date =>
    show LexesTo "int32_t".toList (TypeName.named "int32_t".toList 0).tokens rest
    exact lexesTo_typeWord (by decide) hrest
  | bool =>
    show LexesTo "bool".toList (TypeName.named "bool".toList 0).tokens rest
    exact lexesTo_typeWord (by decide) hrest
  | byteArray size => exact lexesTo_charStar hrest
  | void =>
    show LexesTo "void".toList (TypeName.named "void".toList 0).tokens rest
    exact lexesTo_typeWord (by decide) hrest
  | struct name =>
    have hstruct : LexesTo "struct ".toList [.word "struct".toList] (name.text ++ rest) :=
      lexesTo_of_run_space (by decide) _
    apply hstruct.append
    apply lexesTo_word name.isWord
    intro c hc
    rcases hrest c hc with rfl | rfl <;> decide
  | pointer pointedTo ih =>
    have hinner : LexesTo (typeDescription pointedTo) pointedTo.typeName.tokens (['*'] ++ rest) :=
      ih (by simp)
    rw [tokens_pointer]
    exact hinner.append (lexesTo_star hrest)

theorem behind_cons {c : Char} (hc : c = ' ' ∨ c = ')' ∨ c = ',') (number : Bool)
    (rest : List Char) : Behind number (c :: rest) := by
  intro d hd
  cases hd
  rcases hc with hc | hc | hc
  · exact .inl hc
  · exact .inr (.inl hc)
  · exact .inr (.inr (.inl hc))

/-- Text that is read as these tokens before a space, a parenthesis or a comma. -/
def Delimited (text : List Char) (toks : List Token) : Prop :=
  ∀ d more, d = ' ' ∨ d = ')' ∨ d = ',' → LexesTo text toks (d :: more)

theorem Delimited.comma {text text' : List Char} {toks toks' : List Token}
    (h : Delimited text toks) (h' : Delimited text' toks') :
    Delimited (text ++ ", ".toList ++ text') (toks ++ [.punct [',']] ++ toks') := by
  intro d more hd
  have hcomma : LexesTo ", ".toList [.punct [',']] (text' ++ d :: more) :=
    lexesTo_of_run_space (by decide) _
  have hfirst : LexesTo text toks (", ".toList ++ (text' ++ d :: more)) := h ',' _ (by decide)
  exact (hfirst.append hcomma).append (h' d more hd)

/-- In fixed text that ends in parentheses. -/
theorem Delimited.enclosed {text : List Char} {inner : List Token} (h : Delimited text inner)
    (before behind : List Char) (toks toks' : List Token) {d : Char} {behind' : List Char}
    (hbefore : Reading.between.run before = some (toks, .punct ['(']))
    (hbehind : Reading.between.run behind = some (toks', .punct [')']))
    (hcons : behind = d :: behind') (hd : d = ' ' ∨ d = ')' ∨ d = ',') (rest : List Char) :
    LexesTo (before ++ text ++ behind)
      (toks ++ [.punct ['(']] ++ inner ++ (toks' ++ [.punct [')']])) rest := by
  have hlast := lexesTo_of_run hbehind (.inr (.inl rfl)) rest
  have hfirst := lexesTo_of_run hbefore (.inl rfl) (text ++ (behind ++ rest))
  have hinner : LexesTo text inner (behind ++ rest) := by
    rw [hcons]
    exact h d (behind' ++ rest) hd
  exact (hfirst.append hinner).append hlast

/-- An expression whose text is read as what is written, whatever stands behind it. -/
def Lexes (e : Expr) : Prop :=
  ∀ text c rest, compileExpression e = some text → written e = some c → e.dotsApart = true →
    Behind e.endsInNumber rest → LexesTo text c.tokens rest

theorem Lexes.delimited {e : Expr} (h : Lexes e) {text : List Char} {c : CExpr}
    (htext : compileExpression e = some text) (hc : written e = some c)
    (hdots : e.dotsApart = true) : Delimited text c.tokens :=
  fun d more hd => h text c (d :: more) htext hc hdots (behind_cons hd _ _)

theorem head_compileRest {args : List Expr} {text : List Char} (h : compileRest args = some text) :
    ∃ d more, (d = ' ' ∨ d = ')' ∨ d = ',') ∧ text = d :: more := by
  cases args with
  | nil =>
    cases h
    exact ⟨')', [], by decide, rfl⟩
  | cons a args =>
    simp only [compileRest, Option.bind_eq_bind, Option.bind_eq_some_iff, Option.some.injEq] at h
    obtain ⟨first, _, more, _, rfl⟩ := h
    exact ⟨',', ' ' :: (first ++ more), by decide, rfl⟩

theorem lexesTo_first {a : Expr} (h : Lexes a) {args : List Expr} {first more : List Char}
    {c : CExpr} (hfirst : compileExpression a = some first) (hc : written a = some c)
    (hdots : a.dotsApart = true) (hmore : compileRest args = some more) (rest : List Char) :
    LexesTo first c.tokens (more ++ rest) := by
  obtain ⟨d, more', hd, rfl⟩ := head_compileRest hmore
  exact h.delimited hfirst hc hdots d (more' ++ rest) hd

theorem lexesTo_rest {args : List Expr} (h : ∀ a ∈ args, Lexes a) {text : List Char}
    {cs : List CExpr} (htext : compileRest args = some text) (hcs : allWritten args = some cs)
    (hdots : allDotsApart args = true) (rest : List Char) :
    LexesTo text (CExpr.restTokens cs) rest := by
  induction args generalizing text cs with
  | nil =>
    cases htext
    cases hcs
    exact lexesTo_single (.inr (.inl rfl)) rest
  | cons a args ih =>
    simp only [compileRest, allWritten, Option.bind_eq_bind, Option.bind_eq_some_iff,
      Option.some.injEq] at htext hcs
    obtain ⟨first, hfirst, more, hmore, rfl⟩ := htext
    obtain ⟨c, hc, cs', hcs', rfl⟩ := hcs
    rw [allDotsApart, Bool.and_eq_true] at hdots
    have hargs := ih (fun b hb => h b (List.mem_cons_of_mem _ hb)) hmore hcs' hdots.2
    have ha := lexesTo_first (h a (List.mem_cons_self ..)) hfirst hc hdots.1 hmore rest
    have hcomma : LexesTo ", ".toList [.punct [',']] (first ++ (more ++ rest)) :=
      lexesTo_of_run_space (by decide) _
    exact (hcomma.append ha).append hargs

theorem opcodeMap_eq (code : Opcode) : code.opcodeMap = code.binary.map BinaryOp.text := by
  cases code <;> rfl

theorem written_operator {code : Opcode} {op : BinaryOp} (h : code.binary = some op)
    (l r : CExpr) : code.call = none ∧ code.written l r = some (.binary op l r) := by
  cases code <;> cases h <;> exact ⟨rfl, rfl⟩

theorem lexesTo_operator (op : BinaryOp) (rest : List Char) :
    LexesTo (" ".toList ++ op.text ++ " ".toList) [.punct op.text] rest := by
  apply lexesTo_of_run_space
  cases op <;> decide

/-- The left operand with the operator. -/
theorem lexesTo_left {l : Expr} (h : Lexes l) {left : List Char} {c : CExpr}
    (hleft : compileExpression l = some left) (hc : written l = some c)
    (hdots : l.dotsApart = true) (op : BinaryOp) (rest : List Char) :
    LexesTo (left ++ (" ".toList ++ op.text ++ " ".toList))
      (c.tokens ++ [.punct op.text]) rest := by
  have hfirst := h.delimited hleft hc hdots ' ' (op.text ++ " ".toList ++ rest) (by decide)
  exact LexesTo.append hfirst (lexesTo_operator op rest)

theorem lexes_operator {code : Opcode} {op : BinaryOp} (hop : code.binary = some op) {l r : Expr}
    (hl : Lexes l) (hr : Lexes r) : Lexes (.arithmetic code l r) := by
  intro text c rest htext hc hdots hrest
  rw [Expr.dotsApart, Bool.and_eq_true] at hdots
  simp only [written, Option.bind_eq_bind, Option.bind_eq_some_iff] at hc
  obtain ⟨l', hl', r', hr', htree⟩ := hc
  obtain ⟨hcall, hwritten⟩ := written_operator hop l' r'
  obtain rfl : CExpr.binary op l' r' = c := Option.some.inj (hwritten.symm.trans htree)
  simp only [compileExpression, hcall, opcodeMap_eq, hop, Option.map_some, Option.bind_eq_bind,
    Option.bind_eq_some_iff, Option.some.injEq] at htext
  obtain ⟨left, hleft, right, hright, rfl⟩ := htext
  have hbehind : Behind r.endsInNumber rest := by
    rw [Expr.endsInNumber, hop] at hrest
    exact hrest
  have hlast := hr right r' rest hright hr' hdots.2 hbehind
  have hall := (lexesTo_left hl hleft hl' hdots.1 op (right ++ rest)).append hlast
  simpa only [CExpr.tokens, List.append_assoc, List.singleton_append] using hall

theorem lexes_arithmetic {code : Opcode} {l r : Expr} (hl : Lexes l) (hr : Lexes r) :
    Lexes (.arithmetic code l r) := by
  cases hop : code.binary with
  | some op => exact lexes_operator hop hl hr
  | none =>
    intro text c rest htext hc hdots _
    rw [Expr.dotsApart, Bool.and_eq_true] at hdots
    simp only [written, Option.bind_eq_bind, Option.bind_eq_some_iff] at hc
    obtain ⟨l', hl', r', hr', htree⟩ := hc
    have hargs : ∀ left right, compileExpression l = some left → compileExpression r = some right →
        Delimited (left ++ ", ".toList ++ right) (l'.tokens ++ [.punct [',']] ++ r'.tokens) :=
      fun left right hleft hright =>
        (hl.delimited hleft hl' hdots.1).comma (hr.delimited hright hr' hdots.2)
    cases code with
    | strEquals =>
      simp only [compileExpression, Opcode.call, Option.bind_eq_bind, Option.bind_eq_some_iff,
        Option.some.injEq] at htext
      obtain ⟨left, hleft, right, hright, rfl⟩ := htext
      cases htree
      have h := (hargs left right hleft hright).enclosed "(strcmp(".toList ") == 0)".toList
        [.punct ['('], .word "strcmp".toList]
        [.punct [')'], .punct ['=', '='], .number ['0']] (by decide) (by decide) rfl (by decide)
        rest
      simpa [CExpr.tokens, CExpr.restTokens, BinaryOp.text] using h
    | strInList =>
      simp only [compileExpression, Opcode.call, Option.bind_eq_bind, Option.bind_eq_some_iff,
        Option.some.injEq] at htext
      obtain ⟨left, hleft, right, hright, rfl⟩ := htext
      cases htree
      have h := (hargs left right hleft hright).enclosed "in_strlist(".toList ")".toList
        [.word "in_strlist".toList] [] (by decide) (by decide) rfl (by decide) rest
      simpa [CExpr.tokens, CExpr.restTokens] using h
    | notLikeTokens =>
      simp only [compileExpression, Opcode.call, Option.bind_eq_bind, Option.bind_eq_some_iff,
        Option.some.injEq] at htext
      obtain ⟨left, hleft, right, hright, rfl⟩ := htext
      cases htree
      have h := (hargs left right hleft hright).enclosed "not_like_tokens(".toList ")".toList
        [.word "not_like_tokens".toList] [] (by decide) (by decide) rfl (by decide) rest
      simpa [CExpr.tokens, CExpr.restTokens] using h
    | hashCombine => cases htext
    | _ => cases hop

theorem lexesTo_dot (field : Name) (rest : List Char) :
    LexesTo ['.'] [.punct ['.']] (field.text ++ rest) := by
  apply lexesTo_punct (by decide)
  intro d hd
  have hword := field.isWord
  cases htext : field.text with
  | nil =>
    rw [htext] at hword
    cases hword
  | cons c s =>
    rw [htext] at hword hd
    cases hd
    rw [C.isWord, Bool.and_eq_true] at hword
    refine ⟨by simp, fun hdigit => ?_, by simp [punctuators]⟩
    have hstart := (start_word hword.1).symm.trans (start_digit hdigit.2)
    cases hstart

theorem lexes (e : Expr) : Lexes e := by
  induction e with
  | varRef name =>
    intro text c rest htext hc _ hrest
    cases htext
    cases hc
    exact lexesTo_name name hrest
  | const value =>
    intro text c rest htext hc _ hrest
    cases value with
    | UI size value =>
      cases htext
      cases hc
      exact lexesTo_integer _ hrest
    | SI size value =>
      cases htext
      cases hc
      exact lexesTo_integer _ hrest
    | _ => cases hc
  | invokeFct fct args ih =>
    intro text c rest htext hc hdots _
    obtain ⟨cs, hcs, rfl⟩ := Option.map_eq_some_iff.mp hc
    have hname : ∀ tail, LexesTo fct.text [.word fct.text] ('(' :: tail) := by
      intro tail
      apply lexesTo_word fct.isWord
      intro c hc
      cases hc
      decide
    cases args with
    | nil =>
      cases htext
      cases hcs
      have hrun : Reading.between.run "()".toList = some ([.punct ['(']], .punct [')']) := by
        decide
      exact (hname (')' :: rest)).append (lexesTo_of_run hrun (.inr (.inl rfl)) rest)
    | cons a args =>
      simp only [compileExpression, allWritten, Option.bind_eq_bind, Option.bind_eq_some_iff,
        Option.some.injEq] at htext hcs
      obtain ⟨first, hfirst, more, hmore, rfl⟩ := htext
      obtain ⟨c, hfirst', cs', hcs', rfl⟩ := hcs
      rw [Expr.dotsApart, allDotsApart, Bool.and_eq_true] at hdots
      have hargs := lexesTo_rest (fun b hb => ih b (List.mem_cons_of_mem _ hb)) hmore hcs' hdots.2
        rest
      have ha := lexesTo_first (ih a (List.mem_cons_self ..)) hfirst hfirst' hdots.1 hmore rest
      have hopen : LexesTo "(".toList [.punct ['(']] (first ++ (more ++ rest)) :=
        lexesTo_single (.inl rfl) _
      have hcall := (((hname (first ++ (more ++ rest))).append hopen).append ha).append hargs
      simpa [CExpr.tokens] using hcall
  | arithmetic code l r ihl ihr => exact lexes_arithmetic ihl ihr
  | deref child ih =>
    intro text c rest htext hc hdots _
    simp only [compileExpression, Option.bind_eq_bind, Option.bind_eq_some_iff,
      Option.some.injEq] at htext
    obtain ⟨inner, hinner, rfl⟩ := htext
    obtain ⟨c', hc', rfl⟩ := Option.map_eq_some_iff.mp hc
    have h := (ih.delimited hinner hc' hdots).enclosed "(*(".toList "))".toList
      [.punct ['('], .punct ['*']] [.punct [')']] (by decide) (by decide) rfl (by decide) rest
    simpa [CExpr.tokens, UnaryOp.text] using h
  | ref child ih =>
    intro text c rest htext hc hdots _
    simp only [compileExpression, Option.bind_eq_bind, Option.bind_eq_some_iff,
      Option.some.injEq] at htext
    obtain ⟨inner, hinner, rfl⟩ := htext
    obtain ⟨c', hc', rfl⟩ := Option.map_eq_some_iff.mp hc
    have h := (ih.delimited hinner hc' hdots).enclosed "(&(".toList "))".toList
      [.punct ['('], .punct ['&']] [.punct [')']] (by decide) (by decide) rfl (by decide) rest
    simpa [CExpr.tokens, UnaryOp.text] using h
  | structAccess child field ih =>
    intro text c rest htext hc hdots hrest
    simp only [compileExpression, Option.bind_eq_bind, Option.bind_eq_some_iff,
      Option.some.injEq] at htext
    obtain ⟨inner, hinner, rfl⟩ := htext
    obtain ⟨c', hc', rfl⟩ := Option.map_eq_some_iff.mp hc
    rw [Expr.dotsApart, Bool.and_eq_true, Bool.not_eq_true'] at hdots
    have hfield := lexesTo_name field hrest
    have hdot : LexesTo ".".toList [.punct ['.']] (field.text ++ rest) := lexesTo_dot field rest
    have hbehind : Behind child.endsInNumber ('.' :: (field.text ++ rest)) := by
      intro d hd
      cases hd
      exact .inr (.inr (.inr ⟨rfl, hdots.2⟩))
    have hchild := ih inner c' _ hinner hc' hdots.1 hbehind
    have hall := (hchild.append hdot).append hfield
    simpa [CExpr.tokens] using hall
  | cast child type ih =>
    intro text c rest htext hc hdots _
    simp only [compileExpression, Option.bind_eq_bind, Option.bind_eq_some_iff,
      Option.some.injEq] at htext
    obtain ⟨inner, hinner, rfl⟩ := htext
    obtain ⟨c', hc', rfl⟩ := Option.map_eq_some_iff.mp hc
    have hclose : Reading.between.run "))".toList = some ([.punct [')']], .punct [')']) := by decide
    have hopen : Reading.between.run "((".toList = some ([.punct ['(']], .punct ['(']) := by decide
    have hturn : Reading.between.run ") (".toList = some ([.punct [')']], .punct ['(']) := by
      decide
    have hlast := lexesTo_of_run hclose (.inr (.inl rfl)) rest
    have hchild : LexesTo inner c'.tokens ("))".toList ++ rest) :=
      ih.delimited hinner hc' hdots ')' _ (by decide)
    have hmiddle := lexesTo_of_run hturn (.inl rfl) (inner ++ ("))".toList ++ rest))
    have htype : LexesTo (typeDescription type) type.typeName.tokens
        (") (".toList ++ (inner ++ ("))".toList ++ rest))) :=
      lexesTo_type type (by simp)
    have hfirst := lexesTo_of_run hopen (.inl rfl)
      (typeDescription type ++ (") (".toList ++ (inner ++ ("))".toList ++ rest))))
    have hall := (((hfirst.append htype).append hmiddle).append hchild).append hlast
    simpa [CExpr.tokens] using hall
  | memcopy dest src size ihd ihs ihn =>
    intro text c rest htext hc hdots _
    simp only [compileExpression, Option.bind_eq_bind, Option.bind_eq_some_iff,
      Option.some.injEq] at htext
    simp only [written, Option.bind_eq_bind, Option.bind_eq_some_iff, Option.some.injEq] at hc
    obtain ⟨first, hfirst, second, hsecond, third, hthird, rfl⟩ := htext
    obtain ⟨d, hd, s, hs, n, hn, rfl⟩ := hc
    simp only [Expr.dotsApart, Bool.and_eq_true] at hdots
    have hargs := ((ihd.delimited hfirst hd hdots.1.1).comma
      (ihs.delimited hsecond hs hdots.1.2)).comma (ihn.delimited hthird hn hdots.2)
    have h := hargs.enclosed "(memcpy(".toList "))".toList
      [.punct ['('], .word "memcpy".toList] [.punct [')']] (by decide) (by decide) rfl (by decide)
      rest
    simpa [CExpr.tokens, CExpr.restTokens] using h

end Text

end InkFuse.Codegen
