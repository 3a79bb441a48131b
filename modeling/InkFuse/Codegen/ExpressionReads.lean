import InkFuse.Codegen.ExpressionText

/-!
When the text of an expression is read back: there are no parentheses around operators, so the
expression has to be nested as C would nest it.
-/

namespace InkFuse.Codegen

open InkFuse.C

section Dotted

def Dotted (text : List Char) : Prop := ∀ rest, HasDottedNumber (text ++ rest)

theorem Dotted.append {text : List Char} (h : Dotted text) (more : List Char) :
    Dotted (text ++ more) := by
  intro rest
  rw [List.append_assoc]
  exact h (more ++ rest)

theorem Dotted.behind {before text : List Char} {toks : List Token}
    (hbefore : ∀ rest, LexesTo before toks (text ++ rest)) (h : Dotted text) :
    Dotted (before ++ text) := by
  intro rest
  rw [List.append_assoc]
  exact (hbefore rest).hasDottedNumber (h rest)

theorem Dotted.enclosed {text : List Char} (h : Dotted text) (before behind : List Char)
    (toks : List Token) (hbefore : Reading.between.run before = some (toks, .punct ['('])) :
    Dotted (before ++ text ++ behind) :=
  (h.behind fun _ => lexesTo_of_run hbefore (.inl rfl) _).append behind

theorem Dotted.comma {text text' : List Char} {toks : List Token}
    (h : Dotted text ∨ Delimited text toks ∧ Dotted text') :
    Dotted (text ++ ", ".toList ++ text') := by
  rcases h with h | ⟨h, h'⟩
  · exact (h.append _).append _
  · apply h'.behind
    intro rest
    have hcomma : LexesTo ", ".toList [.punct [',']] (text' ++ rest) :=
      lexesTo_of_run_space (by decide) _
    have hfirst : LexesTo text toks (", ".toList ++ (text' ++ rest)) := h ',' _ (by decide)
    exact hfirst.append hcomma

def EndsDigits (text : List Char) : Prop :=
  ∃ before toks digits, text = before ++ digits ∧ isDecimal digits = true ∧
    ∀ rest, LexesTo before toks (digits ++ rest)

theorem EndsDigits.dotted {text : List Char} (h : EndsDigits text) (more : List Char) :
    Dotted (text ++ '.' :: more) := by
  intro rest
  obtain ⟨before, toks, digits, rfl, hdigits, hbefore⟩ := h
  rw [List.append_assoc, List.append_assoc]
  exact (hbefore _).hasDottedNumber (hasDottedNumber hdigits (more ++ rest))

theorem EndsDigits.behind {before text : List Char} {toks : List Token}
    (hbefore : ∀ rest, LexesTo before toks (text ++ rest)) (h : EndsDigits text) :
    EndsDigits (before ++ text) := by
  obtain ⟨before', toks', digits, rfl, hdigits, hbefore'⟩ := h
  refine ⟨before ++ before', toks ++ toks', digits, (List.append_assoc ..).symm, hdigits, ?_⟩
  intro rest
  have hfirst := hbefore rest
  rw [List.append_assoc] at hfirst
  exact hfirst.append (hbefore' rest)

theorem endsDigits_integer (n : ℤ) : EndsDigits (stdToString n) := by
  cases n with
  | ofNat n =>
    refine ⟨[], [], Nat.toDigits 10 n, rfl, isDecimal_toDigits n, fun rest => ?_⟩
    have hrun : Reading.between.run [] = some ([], .between) := rfl
    exact lexesTo_of_run_space hrun _
  | negSucc n =>
    exact ⟨['-'], _, Nat.toDigits 10 (n + 1), rfl, isDecimal_toDigits (n + 1),
      fun rest => lexesTo_minus (isDecimal_toDigits (n + 1))⟩

theorem endsDigits {e : Expr} {text : List Char} {c : CExpr}
    (htext : compileExpression e = some text) (hc : written e = some c)
    (hdots : e.dotsApart = true) (hends : e.endsInNumber = true) : EndsDigits text := by
  induction e generalizing text c with
  | const value =>
    cases value with
    | UI size value =>
      cases htext
      exact endsDigits_integer _
    | SI size value =>
      cases htext
      exact endsDigits_integer _
    | _ => cases hc
  | arithmetic code l r _ ih =>
    rw [Expr.endsInNumber, Bool.and_eq_true, Option.isSome_iff_exists] at hends
    obtain ⟨⟨op, hop⟩, hends⟩ := hends
    rw [Expr.dotsApart, Bool.and_eq_true] at hdots
    simp only [written, Option.bind_eq_bind, Option.bind_eq_some_iff] at hc
    obtain ⟨l', hl', r', hr', _⟩ := hc
    obtain ⟨hcall, _⟩ := written_operator hop l' r'
    simp only [compileExpression, hcall, opcodeMap_eq, hop, Option.map_some, Option.bind_eq_bind,
      Option.bind_eq_some_iff, Option.some.injEq] at htext
    obtain ⟨left, hleft, right, hright, rfl⟩ := htext
    have hall := (ih hright hr' hdots.2 hends).behind fun rest =>
      lexesTo_left (lexes l) hleft hl' hdots.1 op (right ++ rest)
    simpa only [List.append_assoc] using hall
  | _ => cases hends

theorem dotted_operator {code : Opcode} {op : BinaryOp} (hop : code.binary = some op) {l r : Expr}
    {text : List Char} {l' : CExpr} (htext : compileExpression (.arithmetic code l r) = some text)
    (hl' : written l = some l')
    (hl : ∀ left, compileExpression l = some left → l.dotsApart = false → Dotted left)
    (hr : ∀ right, compileExpression r = some right → r.dotsApart = false → Dotted right)
    (hdots : (l.dotsApart && r.dotsApart) = false) : Dotted text := by
  obtain ⟨hcall, _⟩ := written_operator hop l' l'
  simp only [compileExpression, hcall, opcodeMap_eq, hop, Option.map_some, Option.bind_eq_bind,
    Option.bind_eq_some_iff, Option.some.injEq] at htext
  obtain ⟨left, hleft, right, hright, rfl⟩ := htext
  cases hapart : l.dotsApart with
  | false =>
    simp only [List.append_assoc]
    exact (hl left hleft hapart).append _
  | true =>
    rw [hapart, Bool.true_and] at hdots
    have hall := (hr right hright hdots).behind fun rest =>
      lexesTo_left (lexes l) hleft hl' hapart op (right ++ rest)
    simpa only [List.append_assoc] using hall

theorem dotted_comma {l r : Expr} {left right : List Char} {c : CExpr}
    (hleft : compileExpression l = some left) (hc : written l = some c)
    (hl : l.dotsApart = false → Dotted left) (hr : r.dotsApart = false → Dotted right)
    (hdots : (l.dotsApart && r.dotsApart) = false) : Dotted (left ++ ", ".toList ++ right) := by
  have hcases : Dotted left ∨ Delimited left c.tokens ∧ Dotted right := by
    cases hapart : l.dotsApart with
    | false => exact .inl (hl hapart)
    | true =>
      rw [hapart, Bool.true_and] at hdots
      exact .inr ⟨(lexes l).delimited hleft hc hapart, hr hdots⟩
  exact Dotted.comma hcases

theorem dotted_arithmetic {code : Opcode} {l r : Expr} {text : List Char} {c : CExpr}
    (htext : compileExpression (.arithmetic code l r) = some text)
    (hc : written (.arithmetic code l r) = some c)
    (hl : ∀ left, compileExpression l = some left → l.dotsApart = false → Dotted left)
    (hr : ∀ right, compileExpression r = some right → r.dotsApart = false → Dotted right)
    (hdots : (l.dotsApart && r.dotsApart) = false) : Dotted text := by
  simp only [written, Option.bind_eq_bind, Option.bind_eq_some_iff] at hc
  obtain ⟨l', hl', r', hr', htree⟩ := hc
  cases hop : code.binary with
  | some op => exact dotted_operator hop htext hl' hl hr hdots
  | none =>
    have hargs : ∀ left right, compileExpression l = some left →
        compileExpression r = some right → Dotted (left ++ ", ".toList ++ right) :=
      fun left right hleft hright =>
        dotted_comma hleft hl' (hl left hleft) (hr right hright) hdots
    cases code with
    | strEquals =>
      simp only [compileExpression, Opcode.call, Option.bind_eq_bind, Option.bind_eq_some_iff,
        Option.some.injEq] at htext
      obtain ⟨left, hleft, right, hright, rfl⟩ := htext
      have h := (hargs left right hleft hright).enclosed "(strcmp(".toList ") == 0)".toList
        [.punct ['('], .word "strcmp".toList] (by decide)
      simpa only [List.append_assoc] using h
    | strInList =>
      simp only [compileExpression, Opcode.call, Option.bind_eq_bind, Option.bind_eq_some_iff,
        Option.some.injEq] at htext
      obtain ⟨left, hleft, right, hright, rfl⟩ := htext
      have h := (hargs left right hleft hright).enclosed "in_strlist(".toList ")".toList
        [.word "in_strlist".toList] (by decide)
      simpa only [List.append_assoc] using h
    | notLikeTokens =>
      simp only [compileExpression, Opcode.call, Option.bind_eq_bind, Option.bind_eq_some_iff,
        Option.some.injEq] at htext
      obtain ⟨left, hleft, right, hright, rfl⟩ := htext
      have h := (hargs left right hleft hright).enclosed "not_like_tokens(".toList ")".toList
        [.word "not_like_tokens".toList] (by decide)
      simpa only [List.append_assoc] using h
    | hashCombine => cases htext
    | _ => cases hop

theorem dotted_rest {args : List Expr} (h : ∀ a ∈ args, ∀ text c, compileExpression a = some text →
      written a = some c → a.dotsApart = false → Dotted text)
    {text : List Char} {cs : List CExpr} (htext : compileRest args = some text)
    (hcs : allWritten args = some cs) (hdots : allDotsApart args = false) : Dotted text := by
  induction args generalizing text cs with
  | nil => cases hdots
  | cons a args ih =>
    simp only [compileRest, allWritten, Option.bind_eq_bind, Option.bind_eq_some_iff,
      Option.some.injEq] at htext hcs
    obtain ⟨first, hfirst, more, hmore, rfl⟩ := htext
    obtain ⟨c, hc, cs', hcs', rfl⟩ := hcs
    have hcomma : ∀ rest, LexesTo ", ".toList [.punct [',']] (first ++ rest) :=
      fun rest => lexesTo_of_run_space (by decide) _
    cases hapart : a.dotsApart with
    | false =>
      have ha := h a (List.mem_cons_self ..) first c hfirst hc hapart
      exact (ha.behind hcomma).append more
    | true =>
      rw [allDotsApart, hapart, Bool.true_and] at hdots
      apply (ih (fun b hb => h b (List.mem_cons_of_mem _ hb)) hmore hcs' hdots).behind
      intro rest
      exact (hcomma (more ++ rest)).append (lexesTo_first (lexes a) hfirst hc hapart hmore rest)

/-- C reads the dot of a field behind a constant as part of the number. -/
theorem dotted {e : Expr} {text : List Char} {c : CExpr} (htext : compileExpression e = some text)
    (hc : written e = some c) (hdots : e.dotsApart = false) : Dotted text := by
  induction e generalizing text c with
  | varRef name => cases hdots
  | const value => cases hdots
  | invokeFct fct args ih =>
    obtain ⟨cs, hcs, rfl⟩ := Option.map_eq_some_iff.mp hc
    rw [Expr.dotsApart] at hdots
    cases args with
    | nil => cases hdots
    | cons a args =>
      simp only [compileExpression, allWritten, Option.bind_eq_bind, Option.bind_eq_some_iff,
        Option.some.injEq] at htext hcs
      obtain ⟨first, hfirst, more, hmore, rfl⟩ := htext
      obtain ⟨c, hfirst', cs', hcs', rfl⟩ := hcs
      have hopen : ∀ rest, LexesTo (fct.text ++ "(".toList) [.word fct.text, .punct ['(']]
          (first ++ rest) := by
        intro rest
        have hname : LexesTo fct.text [.word fct.text] ("(".toList ++ (first ++ rest)) := by
          apply lexesTo_word fct.isWord
          intro c hc
          cases hc
          decide
        exact hname.append (lexesTo_single (.inl rfl) _)
      cases hapart : a.dotsApart with
      | false =>
        have ha := ih a (List.mem_cons_self ..) hfirst hfirst' hapart
        exact (ha.behind hopen).append more
      | true =>
        rw [allDotsApart, hapart, Bool.true_and] at hdots
        have hargs := dotted_rest (fun b hb text c htext hc hdots =>
          ih b (List.mem_cons_of_mem _ hb) htext hc hdots) hmore hcs' hdots
        apply hargs.behind
        intro rest
        exact (hopen (more ++ rest)).append
          (lexesTo_first (lexes a) hfirst hfirst' hapart hmore rest)
  | arithmetic code l r ihl ihr =>
    have hwritten := hc
    simp only [written, Option.bind_eq_bind, Option.bind_eq_some_iff] at hwritten
    obtain ⟨l', hl', r', hr', _⟩ := hwritten
    exact dotted_arithmetic htext hc (fun left hleft => ihl hleft hl')
      (fun right hright => ihr hright hr') hdots
  | deref child ih =>
    simp only [compileExpression, Option.bind_eq_bind, Option.bind_eq_some_iff,
      Option.some.injEq] at htext
    obtain ⟨inner, hinner, rfl⟩ := htext
    obtain ⟨c', hc', _⟩ := Option.map_eq_some_iff.mp hc
    exact (ih hinner hc' hdots).enclosed "(*(".toList _ [.punct ['('], .punct ['*']] (by decide)
  | ref child ih =>
    simp only [compileExpression, Option.bind_eq_bind, Option.bind_eq_some_iff,
      Option.some.injEq] at htext
    obtain ⟨inner, hinner, rfl⟩ := htext
    obtain ⟨c', hc', _⟩ := Option.map_eq_some_iff.mp hc
    exact (ih hinner hc' hdots).enclosed "(&(".toList _ [.punct ['('], .punct ['&']] (by decide)
  | structAccess child field ih =>
    simp only [compileExpression, Option.bind_eq_bind, Option.bind_eq_some_iff,
      Option.some.injEq] at htext
    obtain ⟨inner, hinner, rfl⟩ := htext
    obtain ⟨c', hc', _⟩ := Option.map_eq_some_iff.mp hc
    rw [List.append_assoc]
    cases hapart : child.dotsApart with
    | false => exact (ih hinner hc' hapart).append _
    | true =>
      rw [Expr.dotsApart, hapart, Bool.true_and, Bool.not_eq_false'] at hdots
      exact (endsDigits hinner hc' hapart hdots).dotted field.text
  | cast child type ih =>
    simp only [compileExpression, Option.bind_eq_bind, Option.bind_eq_some_iff,
      Option.some.injEq] at htext
    obtain ⟨inner, hinner, rfl⟩ := htext
    obtain ⟨c', hc', _⟩ := Option.map_eq_some_iff.mp hc
    apply Dotted.append
    apply (ih hinner hc' hdots).behind
    intro rest
    have hopen : Reading.between.run "((".toList = some ([.punct ['(']], .punct ['(']) := by decide
    have hturn : Reading.between.run ") (".toList = some ([.punct [')']], .punct ['(']) := by
      decide
    have hmiddle := lexesTo_of_run hturn (.inl rfl) (inner ++ rest)
    have htype : LexesTo (typeDescription type) type.typeName.tokens
        (") (".toList ++ (inner ++ rest)) :=
      lexesTo_type type (by simp)
    have hfirst := lexesTo_of_run hopen (.inl rfl)
      (typeDescription type ++ (") (".toList ++ (inner ++ rest)))
    exact (hfirst.append htype).append hmiddle
  | memcopy dest src size ihd ihs ihn =>
    simp only [compileExpression, Option.bind_eq_bind, Option.bind_eq_some_iff,
      Option.some.injEq] at htext
    simp only [written, Option.bind_eq_bind, Option.bind_eq_some_iff, Option.some.injEq] at hc
    obtain ⟨first, hfirst, second, hsecond, third, hthird, rfl⟩ := htext
    obtain ⟨d, hd, s, hs, n, hn, rfl⟩ := hc
    have hpair := dotted_comma hfirst hd (ihd hfirst hd) (ihs hsecond hs)
    have hcases : Dotted (first ++ ", ".toList ++ second) ∨
        Delimited (first ++ ", ".toList ++ second) (d.tokens ++ [.punct [',']] ++ s.tokens) ∧
          Dotted third := by
      rw [Expr.dotsApart] at hdots
      cases hapart : dest.dotsApart && src.dotsApart with
      | false => exact .inl (hpair hapart)
      | true =>
        rw [hapart, Bool.true_and] at hdots
        rw [Bool.and_eq_true] at hapart
        exact .inr ⟨((lexes dest).delimited hfirst hd hapart.1).comma
          ((lexes src).delimited hsecond hs hapart.2), ihn hthird hn hdots⟩
    have hargs := Dotted.comma hcases
    have h := hargs.enclosed "(memcpy(".toList "))".toList [.punct ['('], .word "memcpy".toList]
      (by decide)
    simpa only [List.append_assoc] using h

end Dotted

section Nested

theorem typeName_ok (type : TargetType) : type.typeName.Ok typedefs := by
  induction type with
  | signedInt size =>
    show isTypeWord typedefs ("int".toList ++ size.bits ++ "_t".toList) = true
    cases size <;> decide
  | unsignedInt size =>
    show isTypeWord typedefs ("uint".toList ++ size.bits ++ "_t".toList) = true
    cases size <;> decide
  | float size =>
    show isTypeWord typedefs (if size = 4 then _ else _) = true
    split <;> decide
  | struct name => exact name.isIdentifier
  | pointer type ih =>
    rw [TargetType.typeName]
    cases htype : type.typeName with
    | named s n =>
      rw [htype] at ih
      exact ih
    | struct tag n =>
      rw [htype] at ih
      exact ih
  | _ =>
    show isTypeWord typedefs _ = true
    decide

theorem level_of_operator {e : Expr} {op : BinaryOp} {c : CExpr} (hop : e.operator = some op)
    (hc : written e = some c) : c.level = op.precedence := by
  cases e with
  | arithmetic code l r =>
    simp only [written, Option.bind_eq_bind, Option.bind_eq_some_iff] at hc
    obtain ⟨l', _, r', _, htree⟩ := hc
    obtain ⟨_, hwritten⟩ := written_operator hop l' r'
    cases hwritten.symm.trans htree
    rfl
  | _ => cases hop

theorem level_of_none {e : Expr} {c : CExpr} (hop : e.operator = none) (hc : written e = some c) :
    castLevel ≤ c.level ∧ (e.isConst = false → postfixLevel ≤ c.level) := by
  have hposition : castLevel ≤ postfixLevel := by decide
  cases e with
  | varRef name =>
    cases hc
    exact ⟨hposition, fun _ => Nat.le_refl _⟩
  | const value =>
    constructor
    · cases value with
      | UI size value =>
        cases hc
        exact hposition
      | SI size value =>
        obtain rfl : integer value.toInt = c := Option.some.inj hc
        cases value.toInt with
        | ofNat n => exact hposition
        | negSucc n => exact Nat.le_refl _
      | _ => cases hc
    · intro hconst
      cases hconst
  | arithmetic code l r =>
    simp only [written, Option.bind_eq_bind, Option.bind_eq_some_iff] at hc
    obtain ⟨l', _, r', _, htree⟩ := hc
    cases code with
    | strEquals =>
      cases htree
      exact ⟨hposition, fun _ => Nat.le_refl _⟩
    | strInList =>
      cases htree
      exact ⟨hposition, fun _ => Nat.le_refl _⟩
    | notLikeTokens =>
      cases htree
      exact ⟨hposition, fun _ => Nat.le_refl _⟩
    | hashCombine => cases htree
    | _ => cases hop
  | memcopy dest src size =>
    simp only [written, Option.bind_eq_bind, Option.bind_eq_some_iff, Option.some.injEq] at hc
    obtain ⟨_, _, _, _, _, _, rfl⟩ := hc
    exact ⟨hposition, fun _ => Nat.le_refl _⟩
  | _ =>
    obtain ⟨_, _, rfl⟩ := Option.map_eq_some_iff.mp hc
    exact ⟨hposition, fun _ => Nat.le_refl _⟩

/-- A field may stand behind what is written if that is no operator and no constant. -/
theorem postfixLevel_iff {e : Expr} {c : CExpr} (hc : written e = some c) :
    (postfixLevel ≤ c.level ∧ e.endsInNumber = false) ↔
      e.operator = none ∧ e.isConst = false := by
  cases hop : e.operator with
  | some op =>
    rw [level_of_operator hop hc]
    have hlt := op.precedence_lt
    have hlevel : castLevel < postfixLevel := by decide
    constructor
    · intro h
      exact absurd h.1 (by omega)
    · intro h
      cases h.1
  | none =>
    constructor
    · intro h
      refine ⟨rfl, ?_⟩
      cases e with
      | const value => exact h.2
      | _ => rfl
    · intro h
      refine ⟨(level_of_none hop hc).2 h.2, ?_⟩
      cases e with
      | const value => exact h.2
      | arithmetic code l r =>
        have hcode : code.binary = none := hop
        rw [Expr.endsInNumber, hcode]
        rfl
      | _ => rfl

/-- The operand stands at its place without parentheses. -/
theorem le_level_iff {e : Expr} {c : CExpr} (hc : written e = some c) {level : ℕ}
    (hlevel : level ≤ castLevel) :
    level ≤ c.level ↔ (e.operator.all fun op => level ≤ op.precedence) = true := by
  cases hop : e.operator with
  | some op =>
    rw [level_of_operator hop hc]
    simp
  | none =>
    have hle := Nat.le_trans hlevel (level_of_none hop hc).1
    simp [hle]

theorem canonical_integer (n : ℤ) : (integer n).Canonical typedefs := by
  cases n with
  | ofNat n => exact isDecimal_toDigits n
  | negSucc n => exact ⟨isDecimal_toDigits (n + 1), Nat.le_succ castLevel⟩

/-- Well nested expressions are those that are written as the grammar has them. -/
def NestedIff (e : Expr) : Prop :=
  ∀ c, written e = some c →
    (e.wellNested = true ↔ c.Canonical typedefs ∧ e.dotsApart = true)

theorem nestedIff_arithmetic {code : Opcode} {l r : Expr} (hl : NestedIff l) (hr : NestedIff r) :
    NestedIff (.arithmetic code l r) := by
  intro c hc
  simp only [written, Option.bind_eq_bind, Option.bind_eq_some_iff] at hc
  obtain ⟨l', hl', r', hr', htree⟩ := hc
  have hleft := hl l' hl'
  have hright := hr r' hr'
  cases hop : code.binary with
  | some op =>
    have hlt := op.precedence_lt
    obtain ⟨_, hwritten⟩ := written_operator hop l' r'
    obtain rfl : CExpr.binary op l' r' = c := Option.some.inj (hwritten.symm.trans htree)
    have hlevel := le_level_iff hl' (Nat.le_of_lt hlt)
    have hlevel' : op.precedence < r'.level ↔
        (r.operator.all fun right => op.precedence < right.precedence) = true :=
      le_level_iff hr' hlt
    have hnested : (Expr.arithmetic code l r).wellNested = (l.wellNested && r.wellNested &&
        ((l.operator.all fun left => op.precedence ≤ left.precedence) &&
          r.operator.all fun right => op.precedence < right.precedence)) := by
      rw [Expr.wellNested, hop]
      rfl
    simp only [hnested, Expr.dotsApart, CExpr.Canonical, Bool.and_eq_true, hleft, hright, ← hlevel,
      ← hlevel']
    tauto
  | none =>
    have hcall : ∀ name, isIdentifier typedefs name = true →
        ((CExpr.call name [l', r']).Canonical typedefs ↔
          l'.Canonical typedefs ∧ r'.Canonical typedefs) := by
      intro name hname
      simp [CExpr.Canonical, AllCanonical, hname]
    have hnested : (Expr.arithmetic code l r).wellNested = (l.wellNested && r.wellNested) := by
      rw [Expr.wellNested, hop]
      exact Bool.and_true _
    rw [hnested, Expr.dotsApart, Bool.and_eq_true, Bool.and_eq_true, hleft, hright]
    cases code with
    | strEquals =>
      cases htree
      have hcompare : (CExpr.paren (.binary .eq (.call "strcmp".toList [l', r'])
          (.number ['0']))).Canonical typedefs ↔
            (CExpr.call "strcmp".toList [l', r']).Canonical typedefs := by
        have hzero : (CExpr.number ['0']).Canonical typedefs := (by decide : isDecimal ['0'] = true)
        have hprec : BinaryOp.eq.precedence < postfixLevel := by decide
        exact ⟨fun h => h.1, fun h => ⟨h, hzero, Nat.le_of_lt hprec, hprec⟩⟩
      rw [hcompare, hcall _ (by decide)]
      tauto
    | strInList =>
      cases htree
      rw [hcall _ (by decide)]
      tauto
    | notLikeTokens =>
      cases htree
      rw [hcall _ (by decide)]
      tauto
    | hashCombine => cases htree
    | _ => cases hop

theorem nestedIff_all {args : List Expr} (h : ∀ a ∈ args, NestedIff a) {cs : List CExpr}
    (hcs : allWritten args = some cs) :
    allWellNested args = true ↔ AllCanonical typedefs cs ∧ allDotsApart args = true := by
  induction args generalizing cs with
  | nil =>
    cases hcs
    simp [allWellNested, AllCanonical, allDotsApart]
  | cons a args ih =>
    simp only [allWritten, Option.bind_eq_bind, Option.bind_eq_some_iff, Option.some.injEq] at hcs
    obtain ⟨c, hc, cs', hcs', rfl⟩ := hcs
    have ha := h a (List.mem_cons_self ..) c hc
    have hargs := ih (fun b hb => h b (List.mem_cons_of_mem _ hb)) hcs'
    rw [allWellNested, allDotsApart, Bool.and_eq_true, Bool.and_eq_true, ha, hargs, AllCanonical]
    tauto

theorem nestedIff (e : Expr) : NestedIff e := by
  induction e with
  | varRef name =>
    intro c hc
    cases hc
    have hname : (CExpr.ident name.text).Canonical typedefs := name.isIdentifier
    simp [Expr.wellNested, Expr.dotsApart, hname]
  | const value =>
    intro c hc
    have hcanonical : c.Canonical typedefs := by
      cases value with
      | UI size value =>
        cases hc
        exact canonical_integer _
      | SI size value =>
        cases hc
        exact canonical_integer _
      | _ => cases hc
    simp [Expr.wellNested, Expr.dotsApart, hcanonical]
  | invokeFct fct args ih =>
    intro c hc
    obtain ⟨cs, hcs, rfl⟩ := Option.map_eq_some_iff.mp hc
    rw [Expr.wellNested, Expr.dotsApart, nestedIff_all ih hcs, CExpr.Canonical]
    simp [fct.isIdentifier]
  | arithmetic code l r ihl ihr => exact nestedIff_arithmetic ihl ihr
  | deref child ih =>
    intro c hc
    obtain ⟨c', hc', rfl⟩ := Option.map_eq_some_iff.mp hc
    rw [Expr.wellNested, Expr.dotsApart, ih c' hc']
    have hlevel : castLevel ≤ (CExpr.paren c').level := Nat.le_succ castLevel
    simp [CExpr.Canonical, hlevel]
  | ref child ih =>
    intro c hc
    obtain ⟨c', hc', rfl⟩ := Option.map_eq_some_iff.mp hc
    rw [Expr.wellNested, Expr.dotsApart, ih c' hc']
    have hlevel : castLevel ≤ (CExpr.paren c').level := Nat.le_succ castLevel
    simp [CExpr.Canonical, hlevel]
  | structAccess child field ih =>
    intro c hc
    obtain ⟨c', hc', rfl⟩ := Option.map_eq_some_iff.mp hc
    have hposition := postfixLevel_iff hc'
    simp only [Expr.wellNested, Expr.dotsApart, Bool.and_eq_true, ih c' hc', CExpr.Canonical,
      Option.isNone_iff_eq_none, Bool.not_eq_true']
    tauto
  | cast child type ih =>
    intro c hc
    obtain ⟨c', hc', rfl⟩ := Option.map_eq_some_iff.mp hc
    rw [Expr.wellNested, Expr.dotsApart, ih c' hc']
    have hlevel : castLevel ≤ (CExpr.paren c').level := Nat.le_succ castLevel
    simp [CExpr.Canonical, hlevel, typeName_ok type]
  | memcopy dest src size ihd ihs ihn =>
    intro c hc
    simp only [written, Option.bind_eq_bind, Option.bind_eq_some_iff, Option.some.injEq] at hc
    obtain ⟨d, hd, s, hs, n, hn, rfl⟩ := hc
    have hname : isIdentifier typedefs "memcpy".toList = true := by decide
    simp only [Expr.wellNested, Expr.dotsApart, Bool.and_eq_true, ihd d hd, ihs s hs, ihn n hn,
      CExpr.Canonical, AllCanonical, hname]
    tauto

end Nested

section Reads

theorem compileRest_isSome {args : List Expr}
    (h : ∀ a ∈ args, ∀ c, written a = some c → ∃ text, compileExpression a = some text)
    {cs : List CExpr} (hcs : allWritten args = some cs) : ∃ text, compileRest args = some text := by
  induction args generalizing cs with
  | nil => exact ⟨_, rfl⟩
  | cons a args ih =>
    simp only [allWritten, Option.bind_eq_bind, Option.bind_eq_some_iff] at hcs
    obtain ⟨c, hc, cs', hcs', _⟩ := hcs
    obtain ⟨first, hfirst⟩ := h a (List.mem_cons_self ..) c hc
    obtain ⟨more, hmore⟩ := ih (fun b hb => h b (List.mem_cons_of_mem _ hb)) hcs'
    simp [compileRest, hfirst, hmore]

theorem compileExpression_isSome {e : Expr} {c : CExpr} (hc : written e = some c) :
    ∃ text, compileExpression e = some text := by
  induction e generalizing c with
  | varRef name => exact ⟨_, rfl⟩
  | const value =>
    cases value with
    | UI size value => exact ⟨_, rfl⟩
    | SI size value => exact ⟨_, rfl⟩
    | _ => cases hc
  | invokeFct fct args ih =>
    obtain ⟨cs, hcs, _⟩ := Option.map_eq_some_iff.mp hc
    cases args with
    | nil => exact ⟨_, rfl⟩
    | cons a args =>
      simp only [allWritten, Option.bind_eq_bind, Option.bind_eq_some_iff] at hcs
      obtain ⟨c, hc, cs', hcs', _⟩ := hcs
      obtain ⟨first, hfirst⟩ := ih a (List.mem_cons_self ..) hc
      obtain ⟨more, hmore⟩ := compileRest_isSome
        (fun b hb c hc => ih b (List.mem_cons_of_mem _ hb) hc) hcs'
      simp [compileExpression, hfirst, hmore]
  | arithmetic code l r ihl ihr =>
    simp only [written, Option.bind_eq_bind, Option.bind_eq_some_iff] at hc
    obtain ⟨l', hl', r', hr', htree⟩ := hc
    obtain ⟨left, hleft⟩ := ihl hl'
    obtain ⟨right, hright⟩ := ihr hr'
    cases code with
    | hashCombine => cases htree
    | _ => simp [compileExpression, Opcode.call, Opcode.opcodeMap, hleft, hright]
  | memcopy dest src size ihd ihs ihn =>
    simp only [written, Option.bind_eq_bind, Option.bind_eq_some_iff] at hc
    obtain ⟨d, hd, s, hs, n, hn, _⟩ := hc
    obtain ⟨first, hfirst⟩ := ihd hd
    obtain ⟨second, hsecond⟩ := ihs hs
    obtain ⟨third, hthird⟩ := ihn hn
    simp [compileExpression, hfirst, hsecond, hthird]
  | deref child ih | ref child ih | structAccess child field ih | cast child type ih =>
    obtain ⟨c', hc', _⟩ := Option.map_eq_some_iff.mp hc
    obtain ⟨inner, hinner⟩ := ih hc'
    simp [compileExpression, hinner]

theorem lex_text {e : Expr} {text : List Char} {c : CExpr} (htext : compileExpression e = some text)
    (hc : written e = some c) (hdots : e.dotsApart = true) : lex text = some c.tokens := by
  apply LexesTo.lex_eq
  apply lexes e text c [] htext hc hdots
  intro d hd
  cases hd

theorem reads_of_wellNested {e : Expr} {tree : CExpr} (htree : toC e = some tree)
    (hnested : e.wellNested = true) :
    ∃ text, compileExpression e = some text ∧ Reads typedefs text tree := by
  rw [toC_eq, Option.map_eq_some_iff] at htree
  obtain ⟨c, hc, hstrip⟩ := htree
  obtain ⟨text, htext⟩ := compileExpression_isSome hc
  obtain ⟨hcanonical, hdots⟩ := (nestedIff e c hc).mp hnested
  exact ⟨text, htext, c, hstrip, parseExpression_complete hcanonical (lex_text htext hc hdots)⟩

theorem wellNested_of_reads {e : Expr} {tree : CExpr} {text : List Char} (htree : toC e = some tree)
    (htext : compileExpression e = some text) (hreads : Reads typedefs text tree) :
    e.wellNested = true := by
  rw [toC_eq, Option.map_eq_some_iff] at htree
  obtain ⟨c, hc, hstrip⟩ := htree
  have hdots : e.dotsApart = true := by
    by_contra hdots
    have hdotted := dotted htext hc (Bool.eq_false_of_not_eq_true hdots) []
    rw [List.append_nil] at hdotted
    exact not_reads_of_dotted hdotted tree hreads
  obtain ⟨t, ht, N, hparse⟩ := hreads
  obtain ⟨hlex, hcanonical⟩ := parseExpression_sound (hparse N (Nat.le_refl N))
  -- what is read has the tokens that were written, so it is the tree that was written
  have htokens : t.tokens = c.tokens :=
    Option.some.inj (hlex.symm.trans (lex_text htext hc hdots))
  obtain rfl := CExpr.eq_of_tokens (ht.trans hstrip.symm) htokens
  exact (nestedIff e t hc).mpr ⟨hcanonical, hdots⟩

/-- The text of an expression is read as the expression exactly if no operand needs parentheses. -/
theorem text_reads_iff (e : Expr) (tree : CExpr) (htree : toC e = some tree) :
    (∃ text, compileExpression e = some text ∧ Reads typedefs text tree) ↔
      e.wellNested = true := by
  constructor
  · intro h
    obtain ⟨text, htext, hreads⟩ := h
    exact wellNested_of_reads htree htext hreads
  · intro hnested
    exact reads_of_wellNested htree hnested

theorem product_plus_reads :
    let a : Name := ⟨['a'], by decide, by decide⟩
    let b : Name := ⟨['b'], by decide, by decide⟩
    ∃ text, compileExpression (.arithmetic .add (.arithmetic .multiply (.varRef a) (.varRef b))
        (.cast (.arithmetic .add (.varRef a) (.varRef b)) (.signedInt .eight))) = some text ∧
      Reads typedefs text (.binary .add (.binary .mul (.ident ['a']) (.ident ['b']))
        (.cast (.named "int64_t".toList 0) (.binary .add (.ident ['a']) (.ident ['b'])))) := by
  intro a b
  exact (text_reads_iff (.arithmetic .add (.arithmetic .multiply (.varRef a) (.varRef b))
    (.cast (.arithmetic .add (.varRef a) (.varRef b)) (.signedInt .eight))) _ rfl).mpr rfl

/-- A product of a sum is written as the sum with a product in it. -/
theorem sum_times_misread :
    let a : Name := ⟨['a'], by decide, by decide⟩
    let b : Name := ⟨['b'], by decide, by decide⟩
    let c : Name := ⟨['c'], by decide, by decide⟩
    let e : Expr := .arithmetic .multiply (.arithmetic .add (.varRef a) (.varRef b)) (.varRef c)
    let tree : CExpr := .binary .mul (.binary .add (.ident ['a']) (.ident ['b'])) (.ident ['c'])
    let misread : CExpr :=
      .binary .add (.ident ['a']) (.binary .mul (.ident ['b']) (.ident ['c']))
    toC e = some tree ∧ compileExpression e = some "a + b * c".toList ∧
      ¬ Reads typedefs "a + b * c".toList tree ∧
      Reads typedefs "a + b * c".toList misread := by
  intro a b c e tree misread
  have htext : compileExpression e = some "a + b * c".toList := rfl
  refine ⟨rfl, htext, fun hreads => ?_, ?_⟩
  · have hnested := wellNested_of_reads (e := e) rfl htext hreads
    cases hnested
  · have hcanonical : misread.Canonical typedefs :=
      ⟨a.isIdentifier, ⟨b.isIdentifier, c.isIdentifier, by decide, by decide⟩, by decide,
        by decide⟩
    exact ⟨misread, rfl, parseExpression_complete hcanonical (by decide)⟩

end Reads

end InkFuse.Codegen
