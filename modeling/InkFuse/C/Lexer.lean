import Mathlib.Data.Nat.Notation
import Mathlib.Tactic.Common

/-!
The tokens of C source text, read one character after the other. Text with comments, character
constants or universal character names is not read.
-/

namespace InkFuse.C

/-- A string literal is known by the characters that it denotes. -/
inductive Token
  | word (s : List Char)
  | number (s : List Char)
  | string (s : List Char)
  | punct (s : List Char)
  deriving DecidableEq, Repr

def punctuators : List (List Char) :=
  [['['], [']'], ['('], [')'], ['{'], ['}'], ['.'], ['-', '>'], ['+', '+'], ['-', '-'], ['&'],
    ['*'], ['+'], ['-'], ['~'], ['!'], ['/'], ['%'], ['<', '<'], ['>', '>'], ['<'], ['>'],
    ['<', '='],
    ['>', '='], ['=', '='], ['!', '='], ['^'], ['|'], ['&', '&'], ['|', '|'], ['?'], [':'], [';'],
    ['='], ['*', '='], ['/', '='], ['%', '='], ['+', '='], ['-', '='], ['<', '<', '='],
    ['>', '>', '='], ['&', '='], ['^', '='], ['|', '='], [','], ['#'], ['#', '#']]

def isLineEnd (c : Char) : Bool := c == '\n' || c == '\r'

def isSpace (c : Char) : Bool :=
  c == ' ' || c == '\t' || isLineEnd c || c == Char.ofNat 11 || c == Char.ofNat 12

def isWordStart (c : Char) : Bool := c.isAlpha || c == '_'

def isWordPart (c : Char) : Bool := c.isAlphanum || c == '_'

/-- Preprocessing numbers go on with letters, dots, and signs behind an exponent. -/
def continuesNumber (s : List Char) (c : Char) : Bool :=
  isWordPart c || c == '.' ||
    (c == '+' || c == '-') && (s.getLast?.any fun last => ['e', 'E', 'p', 'P'].contains last)

def simpleEscape (c : Char) : Option Char :=
  match c with
  | '\\' => some '\\'
  | '"' => some '"'
  | '\'' => some '\''
  | '?' => some '?'
  | 'n' => some '\n'
  | 't' => some '\t'
  | 'r' => some '\r'
  | 'a' => some (Char.ofNat 7)
  | 'b' => some (Char.ofNat 8)
  | 'v' => some (Char.ofNat 11)
  | 'f' => some (Char.ofNat 12)
  | _ => none

def octalDigit (c : Char) : Option ℕ :=
  if '0' ≤ c ∧ c ≤ '7' then some (c.toNat - '0'.toNat) else none

def hexDigit (c : Char) : Option ℕ :=
  if '0' ≤ c ∧ c ≤ '9' then some (c.toNat - '0'.toNat)
  else if 'a' ≤ c ∧ c ≤ 'f' then some (c.toNat - 'a'.toNat + 10)
  else if 'A' ≤ c ∧ c ≤ 'F' then some (c.toNat - 'A'.toNat + 10)
  else none

/-- What is being read. Octal escapes have up to three digits. -/
inductive Reading
  | between
  | word (s : List Char)
  | number (s : List Char)
  | punct (s : List Char)
  | string (s : List Char)
  | escape (s : List Char)
  | octal (s : List Char) (value digits : ℕ)
  | hex (s : List Char) (value digits : ℕ)
  deriving DecidableEq, Repr

namespace Reading

def start (c : Char) : Option Reading :=
  if isSpace c then some between
  else if isWordStart c then some (word [c])
  else if c.isDigit then some (number [c])
  else if c = '"' then some (string [])
  else if [c] ∈ punctuators then some (punct [c])
  else none

/-- The next character of a string literal whose contents so far are known. -/
def stringStep (s : List Char) (c : Char) : Option (List Token × Reading) :=
  if c = '"' then some ([.string s], between)
  else if c = '\\' then some ([], escape s)
  else if isLineEnd c then none
  else some ([], string (s ++ [c]))

/-- A backslash at the end of a line joins it with the next. -/
def escapeStep (s : List Char) (c : Char) : Option (List Token × Reading) :=
  if isLineEnd c then some ([], string s)
  else if c = 'x' then some ([], hex s 0 0)
  else match octalDigit c, simpleEscape c with
    | some digit, _ => some ([], octal s digit 1)
    | none, some c => some ([], string (s ++ [c]))
    | none, none => none

/-- The longest token is taken. -/
def step (reading : Reading) (c : Char) : Option (List Token × Reading) :=
  match reading with
  | between => (start c).map ([], ·)
  | word s =>
    if isWordPart c then some ([], word (s ++ [c])) else (start c).map ([.word s], ·)
  | number s =>
    if continuesNumber s c then some ([], number (s ++ [c])) else (start c).map ([.number s], ·)
  | punct s =>
    if s = ['/'] ∧ (c = '/' ∨ c = '*') then none
    else if s = ['.'] ∧ c.isDigit then some ([], number (s ++ [c]))
    else if s ++ [c] ∈ punctuators then some ([], punct (s ++ [c]))
    else (start c).map ([.punct s], ·)
  | string s => stringStep s c
  | escape s => escapeStep s c
  | octal s value digits =>
    match octalDigit c with
    | some digit =>
      if digits < 3 then some ([], octal s (8 * value + digit) (digits + 1))
      else stringStep (s ++ [Char.ofNat value]) c
    | none => stringStep (s ++ [Char.ofNat value]) c
  | hex s value digits =>
    match hexDigit c with
    | some digit => some ([], hex s (16 * value + digit) (digits + 1))
    | none => if digits = 0 then none else stringStep (s ++ [Char.ofNat value]) c

def finish : Reading → Option (List Token)
  | between => some []
  | word s => some [.word s]
  | number s => some [.number s]
  | punct s => some [.punct s]
  | _ => none

def tokens : Reading → List Char → Option (List Token)
  | reading, [] => reading.finish
  | reading, c :: text =>
    match reading.step c with
    | some (done, reading) => (reading.tokens text).map (done ++ ·)
    | none => none

def run : Reading → List Char → Option (List Token × Reading)
  | reading, [] => some ([], reading)
  | reading, c :: text =>
    match reading.step c with
    | some (done, reading) => (reading.run text).map fun last => (done ++ last.1, last.2)
    | none => none

end Reading

def lex (text : List Char) : Option (List Token) := Reading.between.tokens text

def isWord : List Char → Bool
  | [] => false
  | c :: s => isWordStart c && s.all isWordPart

def isDecimal (s : List Char) : Bool := !s.isEmpty && s.all (·.isDigit)

section LexesTo

def LexesTo (text : List Char) (toks : List Token) (rest : List Char) : Prop :=
  lex (text ++ rest) = (lex rest).map (toks ++ ·)

theorem LexesTo.append {text text' rest : List Char} {toks toks' : List Token}
    (h : LexesTo text toks (text' ++ rest)) (h' : LexesTo text' toks' rest) :
    LexesTo (text ++ text') (toks ++ toks') rest := by
  unfold LexesTo at h h' ⊢
  rw [List.append_assoc, h, h', Option.map_map]
  congr 1
  funext l
  rw [Function.comp_apply, List.append_assoc]

theorem LexesTo.lex_eq {text : List Char} {toks : List Token} (h : LexesTo text toks []) :
    lex text = some toks := by
  unfold LexesTo at h
  rw [List.append_nil] at h
  rw [h]
  exact congrArg some (List.append_nil toks)

/-- A token ends where the next character starts another. -/
theorem tokens_flush {reading : Reading} {toks : List Token} {rest : List Char}
    (hfinish : reading.finish = some toks)
    (hstep : ∀ c ∈ rest.head?, reading.step c = (Reading.start c).map (toks, ·)) :
    reading.tokens rest = (lex rest).map (toks ++ ·) := by
  cases rest with
  | nil =>
    rw [Reading.tokens, hfinish]
    exact congrArg some (List.append_nil toks).symm
  | cons c rest =>
    rw [lex, Reading.tokens, hstep c rfl, Reading.tokens, Reading.step]
    cases Reading.start c with
    | none => rfl
    | some reading' =>
      simp only [Option.map_some, List.nil_append, Option.map_map]
      rfl

theorem tokens_word {s acc rest : List Char} (hs : s.all isWordPart = true) :
    (Reading.word acc).tokens (s ++ rest) = (Reading.word (acc ++ s)).tokens rest := by
  induction s generalizing acc with
  | nil => rw [List.append_nil, List.nil_append]
  | cons c s ih =>
    rw [List.all_cons, Bool.and_eq_true] at hs
    rw [List.cons_append, Reading.tokens, Reading.step, if_pos hs.1]
    simp only [List.nil_append, Option.map_id', ih hs.2, List.append_assoc, List.singleton_append]

theorem tokens_number {s acc rest : List Char} (hs : ∀ c ∈ s, c.isDigit = true ∨ c = '.') :
    (Reading.number acc).tokens (s ++ rest) = (Reading.number (acc ++ s)).tokens rest := by
  induction s generalizing acc with
  | nil => rw [List.append_nil, List.nil_append]
  | cons c s ih =>
    have hcontinues : continuesNumber acc c = true := by
      rcases hs c (List.mem_cons_self ..) with h | h
      · simp [continuesNumber, isWordPart, Char.isAlphanum, h]
      · simp [continuesNumber, h]
    rw [List.cons_append, Reading.tokens, Reading.step, if_pos hcontinues]
    simp only [List.nil_append, Option.map_id', ih fun d hd => hs d (List.mem_cons_of_mem _ hd),
      List.append_assoc, List.singleton_append]

theorem isSpace_eq_false {c : Char} (h : isWordPart c = true ∨ c = '"') : isSpace c = false := by
  rw [← Bool.not_eq_true]
  intro hspace
  simp only [isSpace, isLineEnd, Bool.or_eq_true, beq_iff_eq] at hspace
  rcases hspace with (((rfl | rfl) | (rfl | rfl)) | rfl) | rfl <;> revert h <;> decide

theorem start_word {c : Char} (h : isWordStart c = true) : Reading.start c = some (.word [c]) := by
  have hpart : isWordPart c = true := by
    simp only [isWordStart, isWordPart, Char.isAlphanum, Bool.or_eq_true] at h ⊢
    tauto
  rw [Reading.start, isSpace_eq_false (.inl hpart), if_neg Bool.false_ne_true, if_pos h]

theorem start_digit {c : Char} (h : c.isDigit = true) : Reading.start c = some (.number [c]) := by
  have hpart : isWordPart c = true := by
    simp [isWordPart, Char.isAlphanum, h]
  have hword : isWordStart c = false := by
    rw [← Bool.not_eq_true]
    intro hword
    simp only [isWordStart, Bool.or_eq_true, beq_iff_eq] at hword
    rcases hword with halpha | rfl
    · have hletter : (decide ('A'.val ≤ c.val ∧ c.val ≤ 'Z'.val) ||
          (decide ('a'.val ≤ c.val) && decide (c.val ≤ 'z'.val))) = true := halpha
      have hdigit : (decide ('0'.val ≤ c.val) && decide (c.val ≤ '9'.val)) = true := h
      simp only [Bool.or_eq_true, Bool.and_eq_true, decide_eq_true_eq, UInt32.le_iff_toNat_le]
        at hletter hdigit
      have hnine : '9'.val.toNat = 57 := rfl
      have hA : 'A'.val.toNat = 65 := rfl
      have ha : 'a'.val.toNat = 97 := rfl
      omega
    · exact absurd h (by decide)
  rw [Reading.start, isSpace_eq_false (.inl hpart), if_neg Bool.false_ne_true, hword,
    if_neg Bool.false_ne_true, if_pos h]

theorem lexesTo_word {s rest : List Char} (hs : isWord s = true)
    (hrest : ∀ c ∈ rest.head?, isWordPart c = false) : LexesTo s [.word s] rest := by
  cases s with
  | nil => cases hs
  | cons c s =>
    rw [isWord, Bool.and_eq_true] at hs
    have hread : lex (c :: s ++ rest) = (Reading.word (c :: s)).tokens rest := by
      rw [List.cons_append, lex, Reading.tokens, Reading.step, start_word hs.1]
      simp only [Option.map_some, List.nil_append, Option.map_id', tokens_word hs.2]
      rfl
    rw [LexesTo, hread]
    apply tokens_flush rfl
    intro d hd
    rw [Reading.step, hrest d hd]
    rfl

theorem lexesTo_decimal {c : Char} {s rest : List Char} (hc : c.isDigit = true)
    (hs : ∀ d ∈ s, d.isDigit = true ∨ d = '.')
    (hrest : ∀ d ∈ rest.head?, continuesNumber (c :: s) d = false) :
    LexesTo (c :: s) [.number (c :: s)] rest := by
  have hread : lex (c :: s ++ rest) = (Reading.number (c :: s)).tokens rest := by
    rw [List.cons_append, lex, Reading.tokens, Reading.step, start_digit hc]
    simp only [Option.map_some, List.nil_append, Option.map_id', tokens_number hs]
    rfl
  rw [LexesTo, hread]
  apply tokens_flush rfl
  intro d hd
  rw [Reading.step, hrest d hd]
  rfl

theorem isDecimal_cons {c : Char} {s : List Char} (h : isDecimal (c :: s) = true) :
    c.isDigit = true ∧ ∀ d ∈ s, d.isDigit = true := by
  rwa [isDecimal, List.all_cons, List.isEmpty_cons, Bool.not_false, Bool.true_and,
    Bool.and_eq_true, List.all_eq_true] at h

theorem lexesTo_number {s rest : List Char} (hs : isDecimal s = true)
    (hrest : ∀ c ∈ rest.head?, continuesNumber s c = false) : LexesTo s [.number s] rest := by
  cases s with
  | nil => cases hs
  | cons c s =>
    obtain ⟨hc, hs⟩ := isDecimal_cons hs
    exact lexesTo_decimal hc (fun d hd => .inl (hs d hd)) hrest

/-- The character does not go on with the punctuator. -/
def EndsPunct (s : List Char) (c : Char) : Prop :=
  (¬ (s = ['/'] ∧ (c = '/' ∨ c = '*'))) ∧ (¬ (s = ['.'] ∧ c.isDigit = true)) ∧
    s ++ [c] ∉ punctuators

theorem tokens_punct {s rest : List Char} (hrest : ∀ c ∈ rest.head?, EndsPunct s c) :
    (Reading.punct s).tokens rest = (lex rest).map ([.punct s] ++ ·) := by
  apply tokens_flush rfl
  intro d hd
  obtain ⟨hcomment, hnumber, hlonger⟩ := hrest d hd
  rw [Reading.step, if_neg hcomment, if_neg hnumber, if_neg hlonger]

theorem lexesTo_punct {c : Char} {rest : List Char} (hc : Reading.start c = some (.punct [c]))
    (hrest : ∀ d ∈ rest.head?, EndsPunct [c] d) : LexesTo [c] [.punct [c]] rest := by
  rw [LexesTo, ← tokens_punct hrest, List.singleton_append, lex, Reading.tokens, Reading.step, hc]
  simp only [Option.map_some, List.nil_append, Option.map_id']

/-- Parentheses and commas are no part of a longer token. -/
theorem lexesTo_single {c : Char} (hc : c = '(' ∨ c = ')' ∨ c = ',') (rest : List Char) :
    LexesTo [c] [.punct [c]] rest := by
  apply lexesTo_punct
  · rcases hc with rfl | rfl | rfl <;> decide
  · intro d _
    rcases hc with rfl | rfl | rfl <;> simp [EndsPunct, punctuators]

theorem Reading.tokens_run {reading reading' : Reading} {text : List Char} {toks : List Token}
    (h : reading.run text = some (toks, reading')) (rest : List Char) :
    reading.tokens (text ++ rest) = (reading'.tokens rest).map (toks ++ ·) := by
  induction text generalizing reading toks with
  | nil =>
    cases h
    exact Option.map_id'.symm
  | cons c text ih =>
    rw [run] at h
    split at h
    · next done reading'' hstep =>
      obtain ⟨⟨more, last⟩, hrun, hresult⟩ := Option.map_eq_some_iff.mp h
      cases hresult
      rw [List.cons_append, tokens, hstep]
      simp only [ih hrun, Option.map_map]
      congr 1
      funext l
      rw [Function.comp_apply, List.append_assoc]
    · cases h

/-- Text that ends with a parenthesis or a comma, by running the lexer on it. -/
theorem lexesTo_of_run {text : List Char} {toks : List Token} {c : Char}
    (h : Reading.between.run text = some (toks, .punct [c])) (hc : c = '(' ∨ c = ')' ∨ c = ',')
    (rest : List Char) : LexesTo text (toks ++ [.punct [c]]) rest := by
  rw [LexesTo, lex, Reading.tokens_run h, tokens_punct, Option.map_map]
  · congr 1
    funext l
    rw [Function.comp_apply, List.append_assoc]
  · intro d _
    rcases hc with rfl | rfl | rfl <;> simp [EndsPunct, punctuators]

/-- Text that ends with a space. -/
theorem lexesTo_of_run_space {text : List Char} {toks : List Token}
    (h : Reading.between.run text = some (toks, .between)) (rest : List Char) :
    LexesTo text toks rest :=
  Reading.tokens_run h rest

/-- A number takes up the dot behind it. -/
theorem tokens_number_grows {acc rest : List Char} {toks : List Token}
    (h : (Reading.number acc).tokens rest = some toks) :
    ∃ s toks', toks = .number (acc ++ s) :: toks' := by
  induction rest generalizing acc toks with
  | nil =>
    cases h
    exact ⟨[], [], by rw [List.append_nil]⟩
  | cons c rest ih =>
    rw [Reading.tokens, Reading.step] at h
    split at h
    · next done reading hstep =>
      split at hstep
      · cases hstep
        obtain ⟨toks', htoks, rfl⟩ := Option.map_eq_some_iff.mp h
        obtain ⟨s, toks'', rfl⟩ := ih htoks
        exact ⟨c :: s, toks'', by rw [List.append_assoc]; rfl⟩
      · obtain ⟨reading', _, hresult⟩ := Option.map_eq_some_iff.mp hstep
        cases hresult
        obtain ⟨toks', _, rfl⟩ := Option.map_eq_some_iff.mp h
        exact ⟨[], toks', by rw [List.append_nil]; rfl⟩
    · cases h

def HasDottedNumber (text : List Char) : Prop :=
  ∀ toks, lex text = some toks → ∃ s, .number s ∈ toks ∧ '.' ∈ s

theorem LexesTo.hasDottedNumber {text rest : List Char} {toks : List Token}
    (h : LexesTo text toks rest) (hrest : HasDottedNumber rest) :
    HasDottedNumber (text ++ rest) := by
  intro all hall
  rw [h] at hall
  obtain ⟨more, hmore, rfl⟩ := Option.map_eq_some_iff.mp hall
  obtain ⟨s, hs, hdot⟩ := hrest more hmore
  exact ⟨s, List.mem_append_right _ hs, hdot⟩

theorem hasDottedNumber {s : List Char} (hs : isDecimal s = true) (rest : List Char) :
    HasDottedNumber (s ++ '.' :: rest) := by
  intro toks htoks
  cases s with
  | nil => cases hs
  | cons c s =>
    obtain ⟨hc, hs⟩ := isDecimal_cons hs
    rw [List.cons_append, lex, Reading.tokens, Reading.step, start_digit hc] at htoks
    simp only [Option.map_some, List.nil_append, Option.map_id',
      tokens_number fun d hd => .inl (hs d hd)] at htoks
    rw [Reading.tokens, Reading.step, if_pos (by simp [continuesNumber])] at htoks
    simp only [List.nil_append, Option.map_id'] at htoks
    obtain ⟨more, toks', rfl⟩ := tokens_number_grows htoks
    exact ⟨_, List.mem_cons_self .., by simp⟩

end LexesTo

end InkFuse.C
