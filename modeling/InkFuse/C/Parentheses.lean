import InkFuse.C.Grammar

/-!
The tokens of an expression and its tree without parentheses determine where the parentheses are:
every node has a token of its own, and its depth says how many parentheses are around the node.
-/

namespace InkFuse.C

/-- The tokens other than parentheses, with their depth. -/
def marks : ℕ → List Token → List (Token × ℕ)
  | _, [] => []
  | depth, .punct ['('] :: toks => marks (depth + 1) toks
  | depth, .punct [')'] :: toks => marks (depth - 1) toks
  | depth, token :: toks => (token, depth) :: marks depth toks

theorem marks_punct {s : List Char} (h : s ≠ ['('] ∧ s ≠ [')']) (depth : ℕ) (toks : List Token) :
    marks depth (.punct s :: toks) = (.punct s, depth) :: marks depth toks := by
  rw [marks]
  · exact fun heq => h.1 (Token.punct.inj heq)
  · exact fun heq => h.2 (Token.punct.inj heq)

namespace CExpr

mutual

def treeMarks (depth : ℕ) : CExpr → List (Token × ℕ)
  | ident name => [(.word name, depth)]
  | number digits => [(.number digits, depth)]
  | paren e => treeMarks (depth + 1) e
  | unary op e => (.punct op.text, depth) :: treeMarks depth e
  | cast type e => type.tokens.map (·, depth + 1) ++ treeMarks depth e
  | call name [] => [(.word name, depth)]
  | call name (a :: args) =>
    (.word name, depth) :: treeMarks (depth + 1) a ++ restMarks (depth + 1) args
  | member e field => treeMarks depth e ++ [(.punct ['.'], depth), (.word field, depth)]
  | binary op l r => treeMarks depth l ++ (.punct op.text, depth) :: treeMarks depth r

def restMarks (depth : ℕ) : List CExpr → List (Token × ℕ)
  | [] => []
  | a :: args => (.punct [','], depth) :: treeMarks depth a ++ restMarks depth args

end

theorem marks_type (type : TypeName) (depth : ℕ) (toks : List Token) :
    marks depth (type.tokens ++ toks) = type.tokens.map (·, depth) ++ marks depth toks := by
  have hpointers : ∀ n, marks depth (List.replicate n (.punct ['*']) ++ toks) =
      (List.replicate n (.punct ['*'])).map (·, depth) ++ marks depth toks := by
    intro n
    induction n with
    | zero => rfl
    | succ n ih =>
      rw [List.replicate_succ, List.cons_append, marks_punct (by decide), ih]
      rfl
  cases type with
  | named s n => exact congrArg ((Token.word s, depth) :: ·) (hpointers n)
  | struct tag n =>
    exact congrArg (fun l => (Token.word _, depth) :: (Token.word tag, depth) :: l) (hpointers n)

theorem marks_rest {args : List CExpr} (h : ∀ a ∈ args, ∀ depth toks,
      marks depth (a.tokens ++ toks) = treeMarks depth a ++ marks depth toks)
    (depth : ℕ) (toks : List Token) :
    marks (depth + 1) (restTokens args ++ toks) =
      restMarks (depth + 1) args ++ marks depth toks := by
  induction args with
  | nil => rfl
  | cons a args ih =>
    rw [restTokens, List.append_assoc, List.cons_append, marks_punct (by decide),
      h a (List.mem_cons_self ..), ih fun b hb => h b (List.mem_cons_of_mem _ hb), restMarks]
    simp

theorem marks_tokens (t : CExpr) (depth : ℕ) (toks : List Token) :
    marks depth (t.tokens ++ toks) = treeMarks depth t ++ marks depth toks := by
  induction t generalizing depth toks with
  | ident name => rfl
  | number digits => rfl
  | paren e ih =>
    have htokens : (paren e).tokens ++ toks =
        .punct ['('] :: (e.tokens ++ .punct [')'] :: toks) := by
      simp [tokens]
    rw [htokens, marks, ih]
    rfl
  | unary op e ih =>
    rw [tokens, List.cons_append, marks_punct (by cases op <;> decide), ih]
    rfl
  | cast type e ih =>
    have htokens : (cast type e).tokens ++ toks =
        .punct ['('] :: (type.tokens ++ .punct [')'] :: (e.tokens ++ toks)) := by
      simp [tokens]
    rw [htokens, marks, marks_type, marks, Nat.add_sub_cancel, ih, treeMarks, List.append_assoc]
  | call name args ih =>
    cases args with
    | nil => rfl
    | cons a args =>
      have htokens : (call name (a :: args)).tokens ++ toks =
          .word name :: .punct ['('] :: (a.tokens ++ (restTokens args ++ toks)) := by
        simp [tokens]
      have hrest := marks_rest (fun b hb => ih b (List.mem_cons_of_mem _ hb)) depth toks
      rw [htokens, marks, marks, ih a (List.mem_cons_self ..), hrest, treeMarks]
      · simp
      · simp
      · simp
  | member e field ih =>
    rw [tokens, List.append_assoc, ih, List.cons_append, marks_punct (by decide), treeMarks,
      List.append_assoc]
    rfl
  | binary op l r ihl ihr =>
    rw [tokens, List.append_assoc, ihl, List.cons_append, marks_punct (by cases op <;> decide), ihr,
      treeMarks, List.append_assoc]
    rfl

def outer : CExpr → ℕ
  | paren e => e.outer + 1
  | _ => 0

def core : CExpr → CExpr
  | paren e => e.core
  | e => e

theorem strip_core (t : CExpr) : t.core.strip = t.strip := by
  induction t with
  | paren e ih => exact ih
  | _ => rfl

theorem treeMarks_core (t : CExpr) (depth : ℕ) :
    treeMarks (depth + t.outer) t.core = treeMarks depth t := by
  induction t generalizing depth with
  | paren e ih =>
    rw [outer, core, treeMarks, ← ih, Nat.add_assoc, Nat.add_comm 1]
  | _ => rfl

theorem eq_core_of_outer {t : CExpr} (h : t.outer = 0) : t.core = t := by
  cases t with
  | paren e => cases h
  | _ => rfl

theorem outer_core (t : CExpr) : t.core.outer = 0 := by
  induction t with
  | paren e ih => exact ih
  | _ => rfl

theorem eq_of_core {s t : CExpr} (hcore : s.core = t.core) (houter : s.outer = t.outer) :
    s = t := by
  induction s generalizing t with
  | paren e ih =>
    cases t with
    | paren e' => rw [ih (t := e') hcore (Nat.succ.inj houter)]
    | _ => cases houter
  | _ => exact hcore.trans (eq_core_of_outer houter.symm)

theorem length_restMarks {args : List CExpr}
    (h : ∀ a ∈ args, ∀ depth depth',
      (treeMarks depth a).length = (treeMarks depth' a.strip).length)
    (depth depth' : ℕ) :
    (restMarks depth args).length = (restMarks depth' (stripAll args)).length := by
  induction args with
  | nil => rfl
  | cons a args ih =>
    have ha := h a (List.mem_cons_self ..) depth depth'
    have hargs := ih fun b hb => h b (List.mem_cons_of_mem _ hb)
    simp [restMarks, stripAll, ha, hargs]

/-- There are as many marks as the tree needs, wherever its parentheses are. -/
theorem length_treeMarks (t : CExpr) (depth depth' : ℕ) :
    (treeMarks depth t).length = (treeMarks depth' t.strip).length := by
  induction t generalizing depth depth' with
  | ident name => rfl
  | number digits => rfl
  | paren e ih => exact ih (depth + 1) depth'
  | unary op e ih => simp [treeMarks, strip, ih depth depth']
  | cast type e ih => simp [treeMarks, strip, ih depth depth']
  | call name args ih =>
    cases args with
    | nil => rfl
    | cons a args =>
      have ha := ih a (List.mem_cons_self ..) (depth + 1) (depth' + 1)
      have hargs := length_restMarks (fun b hb => ih b (List.mem_cons_of_mem _ hb)) (depth + 1)
        (depth' + 1)
      simp [treeMarks, strip, stripAll, ha, hargs]
  | member e field ih => simp [treeMarks, strip, ih depth depth']
  | binary op l r ihl ihr => simp [treeMarks, strip, ihl depth depth', ihr depth depth']

theorem length_eq_of_strip {s t : CExpr} (h : s.strip = t.strip) (depth depth' : ℕ) :
    (treeMarks depth s).length = (treeMarks depth' t).length := by
  rw [length_treeMarks s depth 0, length_treeMarks t depth' 0, h]

/-- The trees agree below the parentheses around them, and these make up for the depth. -/
def Agree (s t : CExpr) (depth depth' : ℕ) : Prop :=
  s.core = t.core ∧ depth + s.outer = depth' + t.outer

theorem Agree.eq {s t : CExpr} {depth : ℕ} (h : Agree s t depth depth) : s = t :=
  eq_of_core h.1 (Nat.add_left_cancel h.2)

/-- It is enough to compare with a tree that is not in parentheses. -/
theorem agree_of_core {s t : CExpr} {depth depth' : ℕ} (hs : s.outer = 0)
    (hstrip : s.strip = t.strip) (hmarks : treeMarks depth s = treeMarks depth' t)
    (h : ∀ c : CExpr, ∀ d, c.outer = 0 → s.strip = c.strip → treeMarks depth s = treeMarks d c →
      s = c ∧ depth = d) : Agree s t depth depth' := by
  obtain ⟨hcore, hdepth⟩ := h t.core (depth' + t.outer) t.outer_core
    (hstrip.trans t.strip_core.symm) (hmarks.trans (treeMarks_core t depth').symm)
  refine ⟨?_, ?_⟩
  · rw [eq_core_of_outer hs]
    exact hcore
  · rw [hs]
    exact hdepth

theorem agree_rest {args args' : List CExpr} {depth : ℕ}
    (h : ∀ a ∈ args, ∀ t depth, a.strip = t.strip → treeMarks depth a = treeMarks depth t → a = t)
    (hstrip : stripAll args = stripAll args')
    (hmarks : restMarks depth args = restMarks depth args') :
    args = args' := by
  induction args generalizing args' with
  | nil =>
    cases args' with
    | nil => rfl
    | cons => cases hstrip
  | cons a args ih =>
    cases args' with
    | nil => cases hstrip
    | cons a' args' =>
      obtain ⟨ha, hargs⟩ := List.cons.inj hstrip
      obtain ⟨hmarks, hmarks'⟩ := List.append_inj (List.cons.inj hmarks).2
        (length_eq_of_strip ha depth depth)
      rw [h a (List.mem_cons_self ..) a' depth ha hmarks,
        ih (fun b hb => h b (List.mem_cons_of_mem _ hb)) hargs hmarks']

theorem agree {s t : CExpr} {depth depth' : ℕ} (hstrip : s.strip = t.strip)
    (hmarks : treeMarks depth s = treeMarks depth' t) : Agree s t depth depth' := by
  induction s generalizing t depth depth' with
  | ident name =>
    apply agree_of_core rfl hstrip hmarks
    intro c d hc hstrip hmarks
    cases c with
    | ident name' => simpa [treeMarks] using hmarks
    | paren e => cases hc
    | _ => cases hstrip
  | number digits =>
    apply agree_of_core rfl hstrip hmarks
    intro c d hc hstrip hmarks
    cases c with
    | number digits' => simpa [treeMarks] using hmarks
    | paren e => cases hc
    | _ => cases hstrip
  | paren e ih =>
    obtain ⟨hcore, hdepth⟩ := ih hstrip hmarks
    refine ⟨hcore, ?_⟩
    rw [outer, ← hdepth, Nat.add_assoc, Nat.add_comm 1]
  | unary op e ih =>
    apply agree_of_core rfl hstrip hmarks
    intro c d hc hstrip hmarks
    cases c with
    | unary op' e' =>
      obtain ⟨rfl, he⟩ := CExpr.unary.inj hstrip
      obtain ⟨hhead, htail⟩ := List.cons.inj hmarks
      obtain rfl := (Prod.mk.inj hhead).2
      rw [(ih he htail).eq]
      exact ⟨rfl, rfl⟩
    | paren e => cases hc
    | _ => cases hstrip
  | cast type e ih =>
    apply agree_of_core rfl hstrip hmarks
    intro c d hc hstrip hmarks
    cases c with
    | cast type' e' =>
      obtain ⟨rfl, he⟩ := CExpr.cast.inj hstrip
      obtain ⟨htype, hrest⟩ := List.append_inj hmarks (by simp)
      have hdepth : depth = d := by
        cases type with
        | named s n => simpa [TypeName.tokens] using (List.cons.inj htype).1
        | struct tag n => simpa [TypeName.tokens] using (List.cons.inj htype).1
      subst hdepth
      rw [(ih he hrest).eq]
      exact ⟨rfl, rfl⟩
    | paren e => cases hc
    | _ => cases hstrip
  | call name args ih =>
    apply agree_of_core rfl hstrip hmarks
    intro c d hc hstrip hmarks
    cases c with
    | call name' args' =>
      obtain ⟨rfl, hargs⟩ := CExpr.call.inj hstrip
      cases args with
      | nil =>
        cases args' with
        | nil => simpa [treeMarks] using hmarks
        | cons => cases hargs
      | cons a args =>
        cases args' with
        | nil => cases hargs
        | cons a' args' =>
          obtain ⟨ha, hargs⟩ := List.cons.inj hargs
          obtain ⟨hhead, hrest⟩ := List.cons.inj hmarks
          obtain rfl := (Prod.mk.inj hhead).2
          obtain ⟨hfirst, hrest⟩ := List.append_inj hrest (length_eq_of_strip ha _ _)
          have heq := agree_rest (fun b hb t depth hstrip hmarks =>
            (ih b (List.mem_cons_of_mem _ hb) hstrip hmarks).eq) hargs hrest
          rw [(ih a (List.mem_cons_self ..) ha hfirst).eq, heq]
          exact ⟨rfl, rfl⟩
    | paren e => cases hc
    | _ => cases hstrip
  | member e field ih =>
    apply agree_of_core rfl hstrip hmarks
    intro c d hc hstrip hmarks
    cases c with
    | member e' field' =>
      obtain ⟨he, rfl⟩ := CExpr.member.inj hstrip
      obtain ⟨htree, hrest⟩ := List.append_inj hmarks (length_eq_of_strip he depth d)
      obtain rfl := (Prod.mk.inj (List.cons.inj hrest).1).2
      rw [(ih he htree).eq]
      exact ⟨rfl, rfl⟩
    | paren e => cases hc
    | _ => cases hstrip
  | binary op l r ihl ihr =>
    apply agree_of_core rfl hstrip hmarks
    intro c d hc hstrip hmarks
    cases c with
    | binary op' l' r' =>
      obtain ⟨rfl, hl, hr⟩ := CExpr.binary.inj hstrip
      obtain ⟨hleft, hright⟩ := List.append_inj hmarks (length_eq_of_strip hl depth d)
      obtain rfl := (Prod.mk.inj (List.cons.inj hright).1).2
      rw [(ihl hl hleft).eq, (ihr hr (List.cons.inj hright).2).eq]
      exact ⟨rfl, rfl⟩
    | paren e => cases hc
    | _ => cases hstrip

/-- Two expressions with the same tokens and the same tree are in the same parentheses. -/
theorem eq_of_tokens {s t : CExpr} (hstrip : s.strip = t.strip) (htokens : s.tokens = t.tokens) :
    s = t := by
  have hmarks : treeMarks 0 s = treeMarks 0 t := by
    have hs := marks_tokens s 0 []
    have ht := marks_tokens t 0 []
    simp only [List.append_nil, marks] at hs ht
    rw [← hs, ← ht, htokens]
  exact (agree hstrip hmarks).eq

end CExpr

end InkFuse.C
