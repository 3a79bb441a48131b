import InkFuse.C.Lexer
import InkFuse.Float.Rounding
import Mathlib.Data.List.TakeWhile

/-!
What constants of C denote: decimal integers, decimals with a point, both with a sign before them,
and string literals. Octal and hexadecimal constants, exponents and suffixes are left out.
-/

namespace InkFuse.C

open InkFuse.Float

inductive Constant
  | integer (value : ℤ)
  | floating (value : ℚ)
  | string (s : List Char)
  deriving DecidableEq

def decimalValue (whole fraction : List Char) : ℚ :=
  Nat.ofDigitChars 10 (whole ++ fraction) 0 / 10 ^ fraction.length

def integerConstant (digits : List Char) : Option Constant :=
  if (digits = ['0'] ∨ digits.head? ≠ some '0') ∧ Nat.ofDigitChars 10 digits 0 < 2 ^ 64 then
    some (.integer (Nat.ofDigitChars 10 digits 0))
  else none

def floatingConstant (whole fraction : List Char) : Option Constant :=
  if fraction.all (·.isDigit) ∧ (whole ≠ [] ∨ fraction ≠ []) then
    (roundToBinary64 (decimalValue whole fraction)).map .floating
  else none

def numberConstant (s : List Char) : Option Constant :=
  match s.dropWhile (·.isDigit) with
  | [] => integerConstant s
  | '.' :: fraction => floatingConstant (s.takeWhile (·.isDigit)) fraction
  | _ => none

/-- The negation is done in the type of the constant: what no signed type holds is unsigned. -/
def Constant.negate : Constant → Option Constant
  | integer n => some (.integer (if n < 2 ^ 63 then -n else 2 ^ 64 - n))
  | floating q => some (.floating (-q))
  | string _ => none

/-- String literals next to each other are one literal. -/
def concatStrings : List Token → Option (List Char)
  | [.string s] => some s
  | .string s :: toks => (concatStrings toks).map (s ++ ·)
  | _ => none

def readConstant (text : List Char) : Option Constant :=
  match lex text with
  | some [.number s] => numberConstant s
  | some [.punct ['-'], .number s] => (numberConstant s).bind Constant.negate
  | some toks => (concatStrings toks).map .string
  | none => none

section Numbers

theorem head_toDigits {n : ℕ} (hn : n ≠ 0) : (Nat.toDigits 10 n).head? ≠ some '0' := by
  induction n using Nat.strong_induction_on with
  | _ n ih =>
    rcases Nat.lt_or_ge n 10 with hlt | hge
    · have hdigit : ∀ d < 10, d ≠ 0 → [Nat.digitChar d].head? ≠ some '0' := by decide
      rw [Nat.toDigits_of_lt_base hlt]
      exact hdigit n hlt hn
    · have hhead := ih (n / 10) (by omega) (by omega)
      rw [Nat.toDigits_of_base_le (by decide) hge,
        List.head?_append_of_ne_nil _ Nat.toDigits_ne_nil]
      exact hhead

theorem numberConstant_toDigits {n : ℕ} (hn : n < 2 ^ 64) :
    numberConstant (Nat.toDigits 10 n) = some (.integer n) := by
  have hdigits : ∀ c ∈ Nat.toDigits 10 n, c.isDigit = true :=
    fun c hc => Nat.isDigit_of_mem_toDigits (by decide) (by decide) hc
  have hzero : Nat.toDigits 10 n = ['0'] ∨ (Nat.toDigits 10 n).head? ≠ some '0' := by
    rcases Nat.eq_zero_or_pos n with rfl | hpos
    · exact .inl rfl
    · exact .inr (head_toDigits (by omega))
  have hdrop : (Nat.toDigits 10 n).dropWhile (·.isDigit) = [] :=
    List.dropWhile_eq_nil_iff.mpr hdigits
  simp only [numberConstant, hdrop, integerConstant, Nat.ofDigitChars_ten_toDigits, hzero, hn,
    and_self, if_true]

theorem numberConstant_decimal {whole fraction : List Char} (hwhole : isDecimal whole = true)
    (hfraction : fraction.all (·.isDigit) = true) :
    numberConstant (whole ++ '.' :: fraction) =
      (roundToBinary64 (decimalValue whole fraction)).map .floating := by
  rw [isDecimal, Bool.and_eq_true, List.all_eq_true, Bool.not_eq_true',
    List.isEmpty_eq_false_iff] at hwhole
  have hdrop : (whole ++ '.' :: fraction).dropWhile (·.isDigit) = '.' :: fraction := by
    rw [List.dropWhile_append_of_pos hwhole.2]
    rfl
  have htake : (whole ++ '.' :: fraction).takeWhile (·.isDigit) = whole := by
    rw [List.takeWhile_append_of_pos hwhole.2]
    exact List.append_nil whole
  simp only [numberConstant, hdrop, htake, floatingConstant, hfraction, hwhole.1, ne_eq,
    not_false_eq_true, true_or, and_self, if_true]

theorem lexesTo_point {whole fraction : List Char} (hwhole : isDecimal whole = true)
    (hfraction : fraction.all (·.isDigit) = true) :
    LexesTo (whole ++ '.' :: fraction) [.number (whole ++ '.' :: fraction)] [] := by
  cases whole with
  | nil => cases hwhole
  | cons c whole =>
    obtain ⟨hc, hdigits⟩ := isDecimal_cons hwhole
    rw [List.all_eq_true] at hfraction
    apply lexesTo_decimal hc
    · intro d hd
      rcases List.mem_append.mp hd with hd | hd
      · exact .inl (hdigits d hd)
      · rcases List.mem_cons.mp hd with hd | hd
        · exact .inr hd
        · exact .inl (hfraction d hd)
    · intro d hd
      cases hd

end Numbers

section Strings

/-- A string literal denotes these characters as they stand in it. -/
def isPlain (c : Char) : Bool := !(c == '"' || c == '\\' || isLineEnd c)

theorem stringStep_plain {s : List Char} {c : Char} (hc : isPlain c = true) :
    Reading.stringStep s c = some ([], .string (s ++ [c])) := by
  simp only [isPlain, Bool.not_eq_true', Bool.or_eq_false_iff, beq_eq_false_iff_ne] at hc
  rw [Reading.stringStep, if_neg hc.1.1, if_neg hc.1.2, hc.2]
  rfl

theorem tokens_string {acc s rest : List Char} (hs : ∀ c ∈ s, isPlain c = true) :
    (Reading.string acc).tokens (s ++ rest) = (Reading.string (acc ++ s)).tokens rest := by
  induction s generalizing acc with
  | nil => rw [List.append_nil, List.nil_append]
  | cons c s ih =>
    rw [List.cons_append, Reading.tokens, Reading.step,
      stringStep_plain (hs c (List.mem_cons_self ..))]
    simp only [List.nil_append, Option.map_id', ih fun d hd => hs d (List.mem_cons_of_mem _ hd),
      List.append_assoc, List.singleton_append]

theorem lex_string {s : List Char} (hs : ∀ c ∈ s, isPlain c = true) :
    lex ('"' :: s ++ ['"']) = some [.string s] := by
  have hopen : lex ('"' :: s ++ ['"']) = (Reading.string []).tokens (s ++ ['"']) := by
    rw [List.cons_append, lex, Reading.tokens]
    exact Option.map_id'
  rw [hopen, tokens_string hs]
  rfl

def contents : List Token → ℕ
  | [] => 0
  | .string s :: toks => s.length + contents toks
  | _ :: toks => contents toks

theorem contents_append (toks toks' : List Token) :
    contents (toks ++ toks') = contents toks + contents toks' := by
  induction toks with
  | nil => simp [contents]
  | cons tok toks ih => cases tok <;> simp [contents, ih, Nat.add_assoc]

def Reading.held : Reading → ℕ
  | string s => s.length
  | escape s => s.length
  | octal s _ _ => s.length + 1
  | hex s _ _ => s.length + 1
  | _ => 0

theorem held_start {c : Char} {reading : Reading} (h : Reading.start c = some reading) :
    reading.held = 0 := by
  unfold Reading.start at h
  split_ifs at h <;> cases h <;> rfl

theorem held_stringStep {s : List Char} {c : Char} {done : List Token} {reading : Reading}
    (h : Reading.stringStep s c = some (done, reading)) :
    contents done + reading.held ≤ s.length + 1 := by
  unfold Reading.stringStep at h
  split_ifs at h <;> cases h <;> simp [contents, Reading.held]

/-- A character adds at most one to what the literals denote. -/
theorem held_step {reading reading' : Reading} {c : Char} {done : List Token}
    (h : reading.step c = some (done, reading')) :
    contents done + reading'.held ≤ reading.held + 1 := by
  have hstart : ∀ toks, contents toks = 0 →
      (Reading.start c).map (toks, ·) = some (done, reading') →
        contents done + reading'.held ≤ reading.held + 1 := by
    intro toks htoks hmap
    obtain ⟨next, hnext, heq⟩ := Option.map_eq_some_iff.mp hmap
    cases heq
    rw [htoks, held_start hnext]
    omega
  cases reading with
  | between => exact hstart [] rfl h
  | word s =>
    rw [Reading.step] at h
    split at h
    · cases h
      simp [contents, Reading.held]
    · exact hstart [.word s] rfl h
  | number s =>
    rw [Reading.step] at h
    split at h
    · cases h
      simp [contents, Reading.held]
    · exact hstart [.number s] rfl h
  | punct s =>
    rw [Reading.step] at h
    split_ifs at h
    · cases h
      simp [contents, Reading.held]
    · cases h
      simp [contents, Reading.held]
    · exact hstart [.punct s] rfl h
  | string s => exact held_stringStep h
  | escape s =>
    rw [Reading.step, Reading.escapeStep] at h
    split_ifs at h
    · cases h
      simp [contents, Reading.held]
    · cases h
      simp [contents, Reading.held]
    · split at h <;> cases h <;> simp [contents, Reading.held]
  | octal s value digits =>
    rw [Reading.step] at h
    have hflush : Reading.stringStep (s ++ [Char.ofNat value]) c = some (done, reading') →
        contents done + reading'.held ≤ s.length + 1 + 1 := by
      intro h
      simpa using held_stringStep h
    split at h
    · split_ifs at h
      · cases h
        simp [contents, Reading.held]
      · exact hflush h
    · exact hflush h
  | hex s value digits =>
    rw [Reading.step] at h
    split at h
    · cases h
      simp [contents, Reading.held]
    · split_ifs at h
      have hflush := held_stringStep h
      simpa [Reading.held] using hflush

theorem contents_quote {reading : Reading} {toks : List Token}
    (h : reading.tokens ['"'] = some toks) : contents toks ≤ reading.held := by
  -- a literal that starts with the quote is not ended
  have hstart : ∀ done, reading.step '"' = (Reading.start '"').map (done, ·) →
      contents toks ≤ reading.held := by
    intro done hstep
    rw [Reading.tokens, hstep] at h
    cases h
  have hclose : ∀ s, reading.step '"' = some ([.string s], .between) → s.length ≤ reading.held →
      contents toks ≤ reading.held := by
    intro s hstep hheld
    rw [Reading.tokens, hstep] at h
    cases h
    simpa [contents] using hheld
  cases reading with
  | between => exact hstart [] rfl
  | word s => exact hstart [.word s] rfl
  | number s => exact hstart [.number s] rfl
  | punct s =>
    apply hstart [.punct s]
    have hpunct : s ++ ['"'] ∉ punctuators := by
      intro hmem
      have hquote : ∀ p ∈ punctuators, '"' ∉ p := by decide
      exact hquote _ hmem (by simp)
    rw [Reading.step, if_neg (by simp), if_neg (by simp), if_neg hpunct]
  | string s => exact hclose s rfl (Nat.le_refl _)
  | escape s => cases h
  | octal s value digits => exact hclose (s ++ [Char.ofNat value]) rfl (by simp [Reading.held])
  | hex s value digits =>
    rcases Nat.eq_zero_or_pos digits with rfl | hpos
    · cases h
    · apply hclose (s ++ [Char.ofNat value]) _ (by simp [Reading.held])
      show (if digits = 0 then none else _) = _
      rw [if_neg (by omega)]
      rfl

/-- A quote at the end adds nothing. -/
theorem contents_quoted {reading : Reading} {text : List Char} {toks : List Token}
    (h : reading.tokens (text ++ ['"']) = some toks) :
    contents toks ≤ reading.held + text.length := by
  induction text generalizing reading toks with
  | nil => exact contents_quote h
  | cons c text ih =>
    rw [List.cons_append, Reading.tokens] at h
    split at h
    · next done reading' hstep =>
      obtain ⟨toks', htoks', rfl⟩ := Option.map_eq_some_iff.mp h
      have hone := held_step hstep
      have hrest := ih htoks'
      rw [contents_append, List.length_cons]
      omega
    · cases h

/-- Quotes and backslashes take more characters than they denote. -/
theorem contents_special {acc s : List Char} {toks : List Token}
    (hs : ¬ ∀ c ∈ s, isPlain c = true)
    (h : (Reading.string acc).tokens (s ++ ['"']) = some toks) :
    contents toks < acc.length + s.length := by
  induction s generalizing acc with
  | nil => exact absurd (by simp) hs
  | cons c s ih =>
    rw [List.cons_append, Reading.tokens, Reading.step] at h
    by_cases hc : isPlain c = true
    · rw [stringStep_plain hc] at h
      simp only [List.nil_append, Option.map_id'] at h
      have hrest := ih (fun hall => hs (List.forall_mem_cons.mpr ⟨hc, hall⟩)) h
      rw [List.length_append, List.length_singleton] at hrest
      rw [List.length_cons]
      omega
    · rw [Reading.stringStep] at h
      split_ifs at h with hquote hbackslash hline
      · obtain ⟨toks', htoks', rfl⟩ := Option.map_eq_some_iff.mp h
        have hrest := contents_quoted htoks'
        simp only [contents_append, contents, Reading.held, List.length_cons] at hrest ⊢
        omega
      · obtain ⟨toks', htoks', rfl⟩ := Option.map_eq_some_iff.mp h
        have hrest := contents_quoted htoks'
        simp only [List.nil_append, Reading.held, List.length_cons] at hrest ⊢
        omega
      · simp [isPlain, hquote, hbackslash, hline] at hc

theorem contents_concat {toks : List Token} {s : List Char} (h : concatStrings toks = some s) :
    contents toks = s.length := by
  fun_induction concatStrings toks generalizing s with
  | case1 s' =>
    cases h
    simp [contents]
  | case2 s' toks _ ih =>
    obtain ⟨s'', hs'', rfl⟩ := Option.map_eq_some_iff.mp h
    rw [contents, ih hs'', List.length_append]
  | case3 => cases h

theorem numberConstant_ne_string {s s' : List Char} :
    numberConstant s ≠ some (.string s') := by
  intro h
  unfold numberConstant at h
  split at h
  · unfold integerConstant at h
    split at h <;> cases h
  · unfold floatingConstant at h
    split at h
    · obtain ⟨q, _, hq⟩ := Option.map_eq_some_iff.mp h
      cases hq
    · cases h
  · cases h

theorem readConstant_string {text s : List Char} (h : readConstant text = some (.string s)) :
    ∃ toks, lex text = some toks ∧ concatStrings toks = some s := by
  unfold readConstant at h
  split at h
  · exact absurd h numberConstant_ne_string
  · obtain ⟨c, _, hc⟩ := Option.bind_eq_some_iff.mp h
    cases c <;> cases hc
  · next toks _ _ hlex =>
    obtain ⟨s', hs', heq⟩ := Option.map_eq_some_iff.mp h
    cases heq
    exact ⟨toks, hlex, hs'⟩
  · cases h

/-- The literal around these characters denotes at least as many only if all are plain. -/
theorem plain_of_readConstant {s s' : List Char}
    (h : readConstant ('"' :: s ++ ['"']) = some (.string s')) (hle : s.length ≤ s'.length) :
    ∀ c ∈ s, isPlain c = true := by
  obtain ⟨toks, hlex, hconcat⟩ := readConstant_string h
  by_contra hspecial
  have hopen : (Reading.string []).tokens (s ++ ['"']) = some toks := by
    rw [← hlex, List.cons_append, lex, Reading.tokens]
    exact Option.map_id'.symm
  have hlt := contents_special hspecial hopen
  rw [contents_concat hconcat, List.length_nil] at hlt
  omega

end Strings

end InkFuse.C
