import InkFuse.C.Grammar

/-!
The parser returns a tree of the grammar that is written as the tokens it took, and finds each such
tree.
-/

namespace InkFuse.C

variable {typedefs : List (List Char)}

section Soundness

theorem parsePointers_sound (toks : List Token) :
    List.replicate (parsePointers toks).1 (.punct ['*']) ++ (parsePointers toks).2 = toks := by
  fun_induction parsePointers toks with
  | case1 rest ih => simp [List.replicate_succ, ih]
  | case2 rest _ => rfl

theorem parseTypeName_sound {toks rest : List Token} {type : TypeName}
    (h : parseTypeName typedefs toks = some (type, rest)) :
    type.Ok typedefs ∧ type.tokens ++ rest = toks := by
  unfold parseTypeName at h
  split at h
  · next s tail =>
    split at h
    · next hword =>
      cases h
      exact ⟨hword, congrArg (Token.word s :: ·) (parsePointers_sound tail)⟩
    · split at h
      · next hstruct =>
        split at h
        · next tag tail =>
          split at h
          · next hident =>
            cases h
            refine ⟨hident, ?_⟩
            rw [hstruct]
            exact congrArg (fun l => _ :: _ :: l) (parsePointers_sound tail)
          · cases h
        · cases h
      · cases h
  · cases h

theorem parseMembers_sound {e t : CExpr} {toks rest : List Token} (he : e.Canonical typedefs)
    (hlevel : postfixLevel ≤ e.level) (h : parseMembers e toks = some (t, rest)) :
    e.tokens ++ toks = t.tokens ++ rest ∧ t.Canonical typedefs ∧ postfixLevel ≤ t.level := by
  fun_induction parseMembers e toks with
  | case1 e field tail ih =>
    obtain ⟨htokens, hcanonical, hlevel'⟩ := ih ⟨he, hlevel⟩ (Nat.le_refl _) h
    refine ⟨?_, hcanonical, hlevel'⟩
    rw [← htokens, CExpr.tokens, List.append_assoc]
    rfl
  | case2 => cases h
  | case3 e tail =>
    cases h
    exact ⟨rfl, he, hlevel⟩

theorem expect_sound {s : List Char} {toks rest : List Token} (h : expect s toks = some rest) :
    toks = .punct s :: rest := by
  unfold expect at h
  split at h
  · split at h
    · next heq =>
      cases h
      rw [heq]
    · cases h
  · cases h

theorem headOp_sound {toks : List Token} {op : BinaryOp} (h : headOp toks = some op) :
    toks = .punct op.text :: toks.tail := by
  unfold headOp at h
  split at h
  · rw [BinaryOp.text_of_ofText h]
    rfl
  · cases h

structure ParserSound (typedefs : List (List Char)) (fuel : ℕ) : Prop where
  binary : ∀ {level toks t rest}, parseBinary typedefs fuel level toks = some (t, rest) →
    level ≤ castLevel → toks = t.tokens ++ rest ∧ t.Canonical typedefs ∧ level ≤ t.level ∧
      ∀ op, headOp rest = some op → op.precedence < level
  operators : ∀ {level l toks t rest},
    parseOperators typedefs fuel level l toks = some (t, rest) → level ≤ l.level →
    l.Canonical typedefs → (∀ op, headOp toks = some op → op.precedence ≤ l.level) →
    l.tokens ++ toks = t.tokens ++ rest ∧ t.Canonical typedefs ∧ level ≤ t.level ∧
      ∀ op, headOp rest = some op → op.precedence < level
  unary : ∀ {toks t rest}, parseUnary typedefs fuel toks = some (t, rest) →
    toks = t.tokens ++ rest ∧ t.Canonical typedefs ∧ castLevel ≤ t.level
  arguments : ∀ {toks args rest}, parseArguments typedefs fuel toks = some (args, rest) →
    (∀ name, .word name :: .punct ['('] :: toks = (CExpr.call name args).tokens ++ rest) ∧
      AllCanonical typedefs args
  rest : ∀ {toks args rest}, parseRest typedefs fuel toks = some (args, rest) →
    toks = CExpr.restTokens args ++ rest ∧ AllCanonical typedefs args

theorem ParserSound.binary_succ {fuel : ℕ} (ih : ParserSound typedefs fuel) {level : ℕ}
    {toks rest : List Token} {t : CExpr}
    (h : parseBinary typedefs (fuel + 1) level toks = some (t, rest)) (hlevel : level ≤ castLevel) :
    toks = t.tokens ++ rest ∧ t.Canonical typedefs ∧ level ≤ t.level ∧
      ∀ op, headOp rest = some op → op.precedence < level := by
  rw [parseBinary, Option.bind_eq_bind, Option.bind_eq_some_iff] at h
  obtain ⟨⟨l, rest'⟩, hunary, hops⟩ := h
  obtain ⟨rfl, hl, hllevel⟩ := ih.unary hunary
  exact ih.operators hops (Nat.le_trans hlevel hllevel) hl
    fun op _ => Nat.le_trans (Nat.le_of_lt op.precedence_lt) hllevel

theorem ParserSound.operators_succ {fuel : ℕ} (ih : ParserSound typedefs fuel) {level : ℕ}
    {toks rest : List Token} {l t : CExpr}
    (h : parseOperators typedefs (fuel + 1) level l toks = some (t, rest))
    (hlevel : level ≤ l.level)
    (hl : l.Canonical typedefs) (hfits : ∀ op, headOp toks = some op → op.precedence ≤ l.level) :
    l.tokens ++ toks = t.tokens ++ rest ∧ t.Canonical typedefs ∧ level ≤ t.level ∧
      ∀ op, headOp rest = some op → op.precedence < level := by
  rw [parseOperators] at h
  split at h
  · next hnone =>
    cases h
    refine ⟨rfl, hl, hlevel, fun op hop => ?_⟩
    rw [hnone] at hop
    cases hop
  · next op hop =>
    split at h
    · next hle =>
      rw [Option.bind_eq_bind, Option.bind_eq_some_iff] at h
      obtain ⟨⟨r, rest'⟩, hbinary, hops⟩ := h
      obtain ⟨htail, hr, hrlevel, hstop⟩ := ih.binary hbinary op.precedence_lt
      obtain ⟨htokens, ht, htlevel, hstop'⟩ := ih.operators hops hle
        ⟨hl, hr, hfits op hop, hrlevel⟩ fun op' hop' => Nat.le_of_lt_succ (hstop op' hop')
      refine ⟨?_, ht, htlevel, hstop'⟩
      rw [← htokens, headOp_sound hop, htail, CExpr.tokens, List.append_assoc, List.cons_append]
    · next hlt =>
      cases h
      refine ⟨rfl, hl, hlevel, fun op' hop' => ?_⟩
      rw [hop] at hop'
      cases hop'
      exact Nat.lt_of_not_le hlt

theorem ParserSound.unary_succ {fuel : ℕ} (ih : ParserSound typedefs fuel) {toks rest : List Token}
    {t : CExpr} (h : parseUnary typedefs (fuel + 1) toks = some (t, rest)) :
    toks = t.tokens ++ rest ∧ t.Canonical typedefs ∧ castLevel ≤ t.level := by
  unfold parseUnary at h
  split at h
  · next name tail =>
    split at h
    · next hident =>
      split at h
      · next tail =>
        rw [Option.bind_eq_bind, Option.bind_eq_some_iff] at h
        obtain ⟨⟨args, rest'⟩, hargs, hmembers⟩ := h
        obtain ⟨htokens, hall⟩ := ih.arguments hargs
        obtain ⟨htokens', ht, hlevel⟩ :=
          parseMembers_sound (e := .call name args) ⟨hident, hall⟩ (Nat.le_refl _) hmembers
        exact ⟨(htokens name).trans htokens', ht, Nat.le_trans (by decide) hlevel⟩
      · obtain ⟨htokens, ht, hlevel⟩ :=
          parseMembers_sound (e := .ident name) hident (Nat.le_refl _) h
        exact ⟨htokens, ht, Nat.le_trans (by decide) hlevel⟩
    · cases h
  · next digits tail =>
    split at h
    · next hdecimal =>
      obtain ⟨htokens, ht, hlevel⟩ :=
        parseMembers_sound (e := .number digits) hdecimal (Nat.le_refl _) h
      exact ⟨htokens, ht, Nat.le_trans (by decide) hlevel⟩
    · cases h
  · next tail =>
    split at h
    · next type tail' htype =>
      obtain ⟨hok, htokens⟩ := parseTypeName_sound htype
      simp only [Option.bind_eq_bind, Option.bind_eq_some_iff] at h
      obtain ⟨after, hexpect, ⟨e, rest'⟩, hunary, hresult⟩ := h
      cases hresult
      obtain ⟨rfl, he, hlevel⟩ := ih.unary hunary
      refine ⟨?_, ⟨hok, he, hlevel⟩, Nat.le_refl _⟩
      rw [← htokens, expect_sound hexpect, CExpr.tokens]
      simp
    · simp only [Option.bind_eq_bind, Option.bind_eq_some_iff] at h
      obtain ⟨⟨e, after⟩, hbinary, rest', hexpect, hmembers⟩ := h
      obtain ⟨rfl, he, _⟩ := ih.binary hbinary (Nat.zero_le _)
      obtain ⟨htokens, ht, hlevel⟩ :=
        parseMembers_sound (e := .paren e) he (Nat.le_refl _) hmembers
      refine ⟨?_, ht, Nat.le_trans (by decide) hlevel⟩
      have hafter : after = .punct [')'] :: rest' := expect_sound hexpect
      rw [← htokens, hafter, CExpr.tokens]
      simp
  · next s tail _ =>
    split at h
    · next op hop =>
      simp only [Option.bind_eq_bind, Option.bind_eq_some_iff] at h
      obtain ⟨⟨e, rest'⟩, hunary, hresult⟩ := h
      cases hresult
      obtain ⟨rfl, he, hlevel⟩ := ih.unary hunary
      refine ⟨?_, ⟨he, hlevel⟩, Nat.le_refl _⟩
      rw [← UnaryOp.text_of_ofText hop]
      rfl
    · cases h
  · cases h

theorem ParserSound.arguments_succ {fuel : ℕ} (ih : ParserSound typedefs fuel)
    {toks rest : List Token} {args : List CExpr}
    (h : parseArguments typedefs (fuel + 1) toks = some (args, rest)) :
    (∀ name, .word name :: .punct ['('] :: toks = (CExpr.call name args).tokens ++ rest) ∧
      AllCanonical typedefs args := by
  rw [parseArguments] at h
  split at h
  · next after hexpect =>
    cases h
    exact ⟨fun name => by rw [expect_sound hexpect]; rfl, trivial⟩
  · simp only [Option.bind_eq_bind, Option.bind_eq_some_iff] at h
    obtain ⟨⟨a, after⟩, hbinary, ⟨args', rest'⟩, hrest, hresult⟩ := h
    cases hresult
    obtain ⟨rfl, ha, _⟩ := ih.binary hbinary (Nat.zero_le _)
    obtain ⟨rfl, hargs⟩ := ih.rest hrest
    exact ⟨fun name => by simp [CExpr.tokens], ha, hargs⟩

theorem ParserSound.rest_succ {fuel : ℕ} (ih : ParserSound typedefs fuel)
    {toks rest : List Token} {args : List CExpr}
    (h : parseRest typedefs (fuel + 1) toks = some (args, rest)) :
    toks = CExpr.restTokens args ++ rest ∧ AllCanonical typedefs args := by
  rw [parseRest] at h
  split at h
  · next after hexpect =>
    cases h
    exact ⟨expect_sound hexpect, trivial⟩
  · simp only [Option.bind_eq_bind, Option.bind_eq_some_iff] at h
    obtain ⟨after, hexpect, ⟨a, after'⟩, hbinary, ⟨args', rest'⟩, hrest, hresult⟩ := h
    cases hresult
    obtain ⟨rfl, ha, _⟩ := ih.binary hbinary (Nat.zero_le _)
    obtain ⟨rfl, hargs⟩ := ih.rest hrest
    rw [expect_sound hexpect]
    exact ⟨by simp [CExpr.restTokens], ha, hargs⟩

theorem parser_sound (fuel : ℕ) : ParserSound typedefs fuel := by
  induction fuel with
  | zero =>
    constructor <;> intros <;>
      simp_all [parseBinary, parseOperators, parseUnary, parseArguments, parseRest]
  | succ fuel ih =>
    exact ⟨ih.binary_succ, ih.operators_succ, ih.unary_succ, ih.arguments_succ, ih.rest_succ⟩

/-- What is read is written as the text, with every operand of the level that it needs. -/
theorem parseExpression_sound {fuel : ℕ} {text : List Char} {e : CExpr}
    (h : parseExpression typedefs fuel text = some e) :
    lex text = some e.tokens ∧ e.Canonical typedefs := by
  unfold parseExpression at h
  split at h
  · cases h
  · next toks hlex =>
    split at h
    · next e' hbinary =>
      cases h
      obtain ⟨rfl, he, _⟩ := (parser_sound fuel).binary hbinary (Nat.zero_le _)
      rw [List.append_nil] at hlex
      exact ⟨hlex, he⟩
    · cases h

theorem isDecimal_of_rest {args : List CExpr} {s : List Char}
    (h : ∀ a ∈ args, .number s ∈ a.tokens → isDecimal s = true)
    (hs : .number s ∈ CExpr.restTokens args) : isDecimal s = true := by
  induction args with
  | nil => simp [CExpr.restTokens] at hs
  | cons a args ih =>
    simp only [CExpr.restTokens, List.cons_append, List.mem_cons, List.mem_append, reduceCtorEq,
      false_or] at hs
    rcases hs with hs | hs
    · exact h a (List.mem_cons_self ..) hs
    · exact ih (fun b hb => h b (List.mem_cons_of_mem _ hb)) hs

theorem allCanonical_iff {args : List CExpr} :
    AllCanonical typedefs args ↔ ∀ a ∈ args, a.Canonical typedefs := by
  induction args with
  | nil => simp [AllCanonical]
  | cons a args ih => simp [AllCanonical, ih]

theorem isDecimal_of_canonical {e : CExpr} (he : e.Canonical typedefs) {s : List Char}
    (hs : .number s ∈ e.tokens) : isDecimal s = true := by
  induction e with
  | ident name => simp [CExpr.tokens] at hs
  | number digits =>
    simp only [CExpr.tokens, List.mem_singleton, Token.number.injEq] at hs
    rw [hs]
    exact he
  | paren e ih =>
    simp only [CExpr.tokens, List.cons_append, List.mem_cons, List.mem_append, reduceCtorEq,
      false_or, or_false, List.not_mem_nil] at hs
    exact ih he hs
  | unary op e ih =>
    simp only [CExpr.tokens, List.mem_cons, reduceCtorEq, false_or] at hs
    exact ih he.1 hs
  | cast type e ih =>
    have htype : Token.number s ∉ type.tokens := by
      cases type <;> simp [TypeName.tokens]
    simp only [CExpr.tokens, List.cons_append, List.mem_cons, List.mem_append, reduceCtorEq,
      false_or, htype] at hs
    exact ih he.2.1 hs
  | call name args ih =>
    have hargs := allCanonical_iff.mp he.2
    cases args with
    | nil => simp [CExpr.tokens] at hs
    | cons a args =>
      simp only [CExpr.tokens, List.cons_append, List.mem_cons, List.mem_append, reduceCtorEq,
        false_or] at hs
      rcases hs with hs | hs
      · exact ih a (List.mem_cons_self ..) (hargs a (List.mem_cons_self ..)) hs
      · exact isDecimal_of_rest (fun b hb hs => ih b (List.mem_cons_of_mem _ hb)
          (hargs b (List.mem_cons_of_mem _ hb)) hs) hs
  | member e field ih =>
    simp only [CExpr.tokens, List.mem_append, List.mem_cons, reduceCtorEq, List.not_mem_nil,
      or_false] at hs
    exact ih he.1 hs
  | binary op l r ihl ihr =>
    simp only [CExpr.tokens, List.mem_append, List.mem_cons, reduceCtorEq, false_or] at hs
    rcases hs with hs | hs
    · exact ihl he.1 hs
    · exact ihr he.2.1 hs

/-- There are only decimal constants in what is read. -/
theorem not_reads_of_dotted {text : List Char} (h : HasDottedNumber text) (tree : CExpr) :
    ¬ Reads typedefs text tree := by
  intro hreads
  obtain ⟨e, _, N, hparse⟩ := hreads
  obtain ⟨hlex, he⟩ := parseExpression_sound (hparse N (Nat.le_refl N))
  obtain ⟨s, hs, hdot⟩ := h e.tokens hlex
  have hdecimal := isDecimal_of_canonical he hs
  rw [isDecimal, Bool.and_eq_true, List.all_eq_true] at hdecimal
  exact absurd (hdecimal.2 '.' hdot) (by decide)

end Soundness

section Completeness

def Eventually (P : ℕ → Prop) : Prop := ∃ N, ∀ fuel ≥ N, P fuel

theorem Eventually.succ {P Q : ℕ → Prop} (h : Eventually P) (hstep : ∀ n, P n → Q (n + 1)) :
    Eventually Q := by
  obtain ⟨N, hN⟩ := h
  refine ⟨N + 1, fun fuel hfuel => ?_⟩
  obtain ⟨n, rfl⟩ : ∃ n, fuel = n + 1 := ⟨fuel - 1, by omega⟩
  exact hstep n (hN n (by omega))

theorem Eventually.and {P Q : ℕ → Prop} (hP : Eventually P) (hQ : Eventually Q) :
    Eventually fun n => P n ∧ Q n := by
  obtain ⟨N, hN⟩ := hP
  obtain ⟨M, hM⟩ := hQ
  exact ⟨max N M, fun fuel hfuel => ⟨hN fuel (by omega), hM fuel (by omega)⟩⟩

theorem eventually_succ {Q : ℕ → Prop} (h : ∀ n, Q (n + 1)) : Eventually Q :=
  Eventually.succ (P := fun _ => True) ⟨0, fun _ _ => trivial⟩ fun n _ => h n

/-- A postfix expression ends before these tokens. -/
def EndsPostfix (rest : List Token) : Prop :=
  rest.head? ≠ some (.punct ['(']) ∧ rest.head? ≠ some (.punct ['.'])

theorem parseMembers_end (e : CExpr) {rest : List Token} (h : EndsPostfix rest) :
    parseMembers e rest = some (e, rest) := by
  unfold parseMembers
  split
  · exact absurd rfl h.2
  · exact absurd rfl h.2
  · rfl

theorem isIdentifier_not_type {s : List Char} (h : isIdentifier typedefs s = true) :
    isTypeWord typedefs s = false ∧ s ≠ "struct".toList := by
  simp only [isIdentifier, Bool.and_eq_true, Bool.not_eq_true', List.contains_eq_mem,
    decide_eq_false_iff_not] at h
  refine ⟨?_, ?_⟩
  · have hsub : ∀ w ∈ basicTypes, w ∈ keywords := by decide
    have hbasic : s ∉ basicTypes := fun hbasic => h.1 (hsub s hbasic)
    simp [isTypeWord, hbasic, h.2]
  · rintro rfl
    exact h.1 (by decide)

theorem parsePointers_complete (n : ℕ) {rest : List Token} (h : rest.head? ≠ some (.punct ['*'])) :
    parsePointers (List.replicate n (.punct ['*']) ++ rest) = (n, rest) := by
  induction n with
  | zero =>
    rw [List.replicate_zero, List.nil_append]
    unfold parsePointers
    split
    · exact absurd rfl h
    · rfl
  | succ n ih =>
    rw [List.replicate_succ, List.cons_append, parsePointers, ih]

theorem parseTypeName_complete {type : TypeName} (htype : type.Ok typedefs) {rest : List Token}
    (h : rest.head? ≠ some (.punct ['*'])) :
    parseTypeName typedefs (type.tokens ++ rest) = some (type, rest) := by
  cases type with
  | named s pointers =>
    have hword : isTypeWord typedefs s = true := htype
    unfold parseTypeName
    simp only [TypeName.tokens, List.cons_append, hword, if_true, parsePointers_complete pointers h]
  | struct tag pointers =>
    have hident : isIdentifier typedefs tag = true := htype
    have hword : isTypeWord typedefs "struct".toList = false := by
      have hkeyword : keywords.contains "struct".toList = true := by decide
      have hbasic : basicTypes.contains "struct".toList = false := by decide
      rw [isTypeWord, hbasic, hkeyword, Bool.not_true, Bool.and_false, Bool.or_false]
    unfold parseTypeName
    simp only [TypeName.tokens, List.cons_append, hword, Bool.false_eq_true, if_false, if_true,
      hident, parsePointers_complete pointers h]

/-- How the tokens of an expression begin. -/
theorem head_tokens {t : CExpr} (ht : t.Canonical typedefs) (rest : List Token) :
    parseTypeName typedefs (t.tokens ++ rest) = none ∧ expect [')'] (t.tokens ++ rest) = none := by
  induction t generalizing rest with
  | ident name =>
    obtain ⟨htype, hstruct⟩ := isIdentifier_not_type ht
    refine ⟨?_, rfl⟩
    show (if isTypeWord typedefs name then _ else _) = _
    rw [if_neg (Bool.not_eq_true _ ▸ htype), if_neg hstruct]
  | number digits => exact ⟨rfl, rfl⟩
  | paren e ih => exact ⟨rfl, rfl⟩
  | unary op e ih => cases op <;> exact ⟨rfl, rfl⟩
  | cast type e ih => exact ⟨rfl, rfl⟩
  | call name args ih =>
    obtain ⟨htype, hstruct⟩ := isIdentifier_not_type ht.1
    have hnone : ∀ toks, parseTypeName typedefs (.word name :: toks) = none := by
      intro toks
      show (if isTypeWord typedefs name then _ else _) = _
      rw [if_neg (Bool.not_eq_true _ ▸ htype), if_neg hstruct]
    cases args with
    | nil => exact ⟨hnone _, rfl⟩
    | cons a args => exact ⟨hnone _, rfl⟩
  | member e field ih =>
    rw [CExpr.tokens, List.append_assoc]
    exact ih ht.1 _
  | binary op l r ihl ihr =>
    rw [CExpr.tokens, List.append_assoc]
    exact ihl ht.1 _

/-- The tree is found where its tokens stand in a context that its level allows. -/
structure Complete (typedefs : List (List Char)) (t : CExpr) : Prop where
  primary : postfixLevel ≤ t.level → ∀ rest x, rest.head? ≠ some (.punct ['(']) →
    parseMembers t rest = some x →
    Eventually fun n => parseUnary typedefs n (t.tokens ++ rest) = some x
  unary : castLevel ≤ t.level → ∀ rest, EndsPostfix rest →
    Eventually fun n => parseUnary typedefs n (t.tokens ++ rest) = some (t, rest)
  binary : ∀ k ≤ t.level, ∀ rest x, EndsPostfix rest →
    (∀ op, headOp rest = some op → op.precedence ≤ t.level) →
    (Eventually fun n => parseOperators typedefs n k t rest = some x) →
    Eventually fun n => parseBinary typedefs n k (t.tokens ++ rest) = some x

theorem Complete.ofUnary {t : CExpr} (hlevel : castLevel = t.level)
    (h : ∀ rest, EndsPostfix rest →
      Eventually fun n => parseUnary typedefs n (t.tokens ++ rest) = some (t, rest)) :
    Complete typedefs t := by
  refine ⟨fun hprimary => ?_, fun _ => h, fun k _ rest x hends _ hops => ?_⟩
  · rw [← hlevel] at hprimary
    exact absurd hprimary (by decide)
  · apply ((h rest hends).and hops).succ
    rintro n ⟨hunary, hops⟩
    rw [parseBinary, hunary]
    exact hops

theorem Complete.ofPrimary {t : CExpr}
    (h : ∀ rest x, rest.head? ≠ some (.punct ['(']) → parseMembers t rest = some x →
      Eventually fun n => parseUnary typedefs n (t.tokens ++ rest) = some x) :
    Complete typedefs t := by
  have hunary : ∀ rest, EndsPostfix rest →
      Eventually fun n => parseUnary typedefs n (t.tokens ++ rest) = some (t, rest) :=
    fun rest hends => h rest _ hends.1 (parseMembers_end t hends)
  refine ⟨fun _ => h, fun _ => hunary, fun k _ rest x hends _ hops => ?_⟩
  apply ((hunary rest hends).and hops).succ
  rintro n ⟨hunary, hops⟩
  rw [parseBinary, hunary]
  exact hops

/-- Inside of parentheses, or as an argument. -/
theorem Complete.whole {t : CExpr} (h : Complete typedefs t) {rest : List Token}
    (hends : EndsPostfix rest) (hop : headOp rest = none) :
    Eventually fun n => parseBinary typedefs n 0 (t.tokens ++ rest) = some (t, rest) := by
  apply h.binary 0 (Nat.zero_le _) rest _ hends
  · intro op hop'
    rw [hop] at hop'
    cases hop'
  · apply eventually_succ
    intro n
    rw [parseOperators, hop]

theorem endsPostfix_punct {s : List Char} (h : s ≠ ['('] ∧ s ≠ ['.']) (rest : List Token) :
    EndsPostfix (.punct s :: rest) := by
  simpa [EndsPostfix] using h

theorem parseRest_complete {args : List CExpr} (h : ∀ a ∈ args, Complete typedefs a)
    (rest : List Token) :
    Eventually fun n => parseRest typedefs n (CExpr.restTokens args ++ rest) =
      some (args, rest) := by
  induction args with
  | nil =>
    apply eventually_succ
    intro n
    rfl
  | cons a args ih =>
    have hends : EndsPostfix (CExpr.restTokens args ++ rest) ∧
        headOp (CExpr.restTokens args ++ rest) = none := by
      cases args with
      | nil => exact ⟨endsPostfix_punct (by decide) _, rfl⟩
      | cons b args => exact ⟨endsPostfix_punct (by decide) _, rfl⟩
    have ha := (h a (List.mem_cons_self ..)).whole hends.1 hends.2
    apply (ha.and (ih fun b hb => h b (List.mem_cons_of_mem _ hb))).succ
    rintro n ⟨hbinary, hrest⟩
    rw [CExpr.restTokens, List.append_assoc, List.cons_append, parseRest]
    simp only [expect, Option.bind_eq_bind, Option.bind_some, if_true, hbinary, hrest]
    rfl

theorem parseArguments_complete {args : List CExpr} (h : ∀ a ∈ args, Complete typedefs a)
    (hcanonical : AllCanonical typedefs args) (name : List Char) (rest : List Token) :
    Eventually fun n => parseArguments typedefs n
      (((CExpr.call name args).tokens ++ rest).drop 2) = some (args, rest) := by
  cases args with
  | nil =>
    apply eventually_succ
    intro n
    rfl
  | cons a args =>
    have hends : EndsPostfix (CExpr.restTokens args ++ rest) ∧
        headOp (CExpr.restTokens args ++ rest) = none := by
      cases args with
      | nil => exact ⟨endsPostfix_punct (by decide) _, rfl⟩
      | cons b args => exact ⟨endsPostfix_punct (by decide) _, rfl⟩
    have ha := (h a (List.mem_cons_self ..)).whole hends.1 hends.2
    apply (ha.and (parseRest_complete (fun b hb => h b (List.mem_cons_of_mem _ hb)) rest)).succ
    rintro n ⟨hbinary, hrest⟩
    have htokens : ((CExpr.call name (a :: args)).tokens ++ rest).drop 2 =
        a.tokens ++ (CExpr.restTokens args ++ rest) := by
      simp [CExpr.tokens]
    rw [htokens, parseArguments, (head_tokens hcanonical.1 _).2]
    simp only [Option.bind_eq_bind, Option.bind_some, hbinary, hrest]

theorem complete_binary {op : BinaryOp} {l r : CExpr} (hl : Complete typedefs l)
    (hr : Complete typedefs r) (hlevel : op.precedence ≤ l.level)
    (hlevel' : op.precedence < r.level) : Complete typedefs (.binary op l r) := by
  refine ⟨fun h => ?_, fun h => ?_, fun k hk rest x hends hfits hops => ?_⟩
  · have hlt := op.precedence_lt
    exact absurd (Nat.lt_of_lt_of_le hlt (by decide : castLevel ≤ postfixLevel)) (Nat.not_lt.mpr h)
  · exact absurd op.precedence_lt (Nat.not_lt.mpr h)
  · have hright : Eventually fun n => parseBinary typedefs n (op.precedence + 1)
        (r.tokens ++ rest) = some (r, rest) := by
      apply hr.binary _ hlevel' rest _ hends
        (fun op' hop' => Nat.le_trans (hfits op' hop') (Nat.le_of_lt hlevel'))
      apply eventually_succ
      intro n
      rw [parseOperators]
      split
      · rfl
      · next op' hop' =>
        rw [if_neg]
        have hle : op'.precedence ≤ op.precedence := hfits op' hop'
        omega
    have hhead : headOp (.punct op.text :: (r.tokens ++ rest)) = some op := op.ofText_text
    rw [CExpr.tokens, List.append_assoc, List.cons_append]
    apply hl.binary k (Nat.le_trans hk hlevel)
    · apply endsPostfix_punct
      cases op <;> decide
    · intro op' hop'
      rw [hhead] at hop'
      cases hop'
      exact hlevel
    · apply (hright.and hops).succ
      rintro n ⟨hright, hops⟩
      rw [parseOperators, hhead]
      simp only [Option.bind_eq_bind, List.tail_cons, hright, Option.bind_some]
      rw [if_pos (show k ≤ op.precedence from hk)]
      exact hops

theorem parseUnary_open (n : ℕ) (rest : List Token) :
    parseUnary typedefs (n + 1) (.punct ['('] :: rest) =
      match parseTypeName typedefs rest with
      | some (type, rest) => (expect [')'] rest).bind fun rest =>
          (parseUnary typedefs n rest).bind fun found => some (.cast type found.1, found.2)
      | none => (parseBinary typedefs n 0 rest).bind fun found =>
          (expect [')'] found.2).bind fun rest => parseMembers (.paren found.1) rest := rfl

/-- Every tree of the grammar is found. -/
theorem complete {t : CExpr} (ht : t.Canonical typedefs) : Complete typedefs t := by
  induction t with
  | ident name =>
    have hident : isIdentifier typedefs name = true := ht
    apply Complete.ofPrimary
    intro rest x hcall hmembers
    apply eventually_succ
    intro n
    show (if isIdentifier typedefs name then _ else none) = _
    rw [if_pos hident]
    split
    · next heq => exact absurd (congrArg List.head? heq) hcall
    · exact hmembers
  | number digits =>
    apply Complete.ofPrimary
    intro rest x _ hmembers
    apply eventually_succ
    intro n
    show (if isDecimal digits then _ else none) = _
    rw [if_pos (show isDecimal digits = true from ht)]
    exact hmembers
  | paren e ih =>
    apply Complete.ofPrimary
    intro rest x _ hmembers
    apply ((ih ht).whole (endsPostfix_punct (s := [')']) (by decide) rest) rfl).succ
    intro n hbinary
    have htokens : (CExpr.paren e).tokens ++ rest =
        .punct ['('] :: (e.tokens ++ .punct [')'] :: rest) := by
      simp [CExpr.tokens]
    rw [htokens, parseUnary_open, (head_tokens (t := e) ht _).1]
    simp only [hbinary, Option.bind_some, expect, if_true]
    exact hmembers
  | unary op e ih =>
    apply Complete.ofUnary rfl
    intro rest hends
    apply ((ih ht.1).unary ht.2 rest hends).succ
    intro n hunary
    have hparse : parseUnary typedefs (n + 1) (.punct op.text :: (e.tokens ++ rest)) =
        (parseUnary typedefs n (e.tokens ++ rest)).bind fun found =>
          some (.unary op found.1, found.2) := by
      cases op <;> rfl
    rw [CExpr.tokens, List.cons_append, hparse, hunary]
    rfl
  | cast type e ih =>
    obtain ⟨htype, he, hlevel⟩ := ht
    apply Complete.ofUnary rfl
    intro rest hends
    apply ((ih he).unary hlevel rest hends).succ
    intro n hunary
    have htokens : (CExpr.cast type e).tokens ++ rest =
        .punct ['('] :: (type.tokens ++ .punct [')'] :: (e.tokens ++ rest)) := by
      simp [CExpr.tokens]
    rw [htokens, parseUnary_open, parseTypeName_complete htype (by simp)]
    simp only [expect, if_true, Option.bind_some, hunary]
  | call name args ih =>
    obtain ⟨hident, hargs⟩ := ht
    have hall := allCanonical_iff.mp hargs
    apply Complete.ofPrimary
    intro rest x _ hmembers
    apply (parseArguments_complete (fun a ha => ih a ha (hall a ha)) hargs name rest).succ
    intro n harguments
    have htokens : (CExpr.call name args).tokens ++ rest =
        .word name :: .punct ['('] :: ((CExpr.call name args).tokens ++ rest).drop 2 := by
      cases args <;> rfl
    rw [htokens]
    show (if isIdentifier typedefs name then _ else none) = _
    rw [if_pos hident]
    simp only [Option.bind_eq_bind, harguments, Option.bind_some]
    exact hmembers
  | member e field ih =>
    obtain ⟨he, hlevel⟩ := ht
    apply Complete.ofPrimary
    intro rest x _ hmembers
    rw [CExpr.tokens, List.append_assoc]
    exact (ih he).primary hlevel _ x (by simp) hmembers
  | binary op l r ihl ihr =>
    obtain ⟨hl, hr, hlevel, hlevel'⟩ := ht
    exact complete_binary (ihl hl) (ihr hr) hlevel hlevel'

/-- What a tree of the grammar is written as is read as that tree. -/
theorem parseExpression_complete {text : List Char} {t : CExpr} (ht : t.Canonical typedefs)
    (hlex : lex text = some t.tokens) :
    ∃ N, ∀ fuel ≥ N, parseExpression typedefs fuel text = some t := by
  have hends : EndsPostfix [] := by
    simp [EndsPostfix]
  obtain ⟨N, hN⟩ := (complete ht).whole hends rfl
  refine ⟨N, fun fuel hfuel => ?_⟩
  have hbinary := hN fuel hfuel
  rw [List.append_nil] at hbinary
  rw [parseExpression, hlex]
  simp only [hbinary]

end Completeness

end InkFuse.C
