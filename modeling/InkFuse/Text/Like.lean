import Mathlib.Data.List.Basic
import Mathlib.Tactic.Common

/-!
Patterns with wildcards, and the leftmost occurrence of a word. A pattern of words with a
wildcard around each of them is matched by a search that takes the leftmost occurrence of every
word: what is behind a later occurrence is also behind an earlier one.
-/

namespace InkFuse.Text

variable {α : Type*}

/-- An item of a pattern: any word, or one letter. -/
inductive Item (α : Type*)
  | any
  | one (a : α)

inductive Matches : List (Item α) → List α → Prop
  | nil : Matches [] []
  | any {p s} (gap : List α) : Matches p s → Matches (.any :: p) (gap ++ s)
  | one {p s} (a : α) : Matches p s → Matches (.one a :: p) (a :: s)

/-- A wildcard before, between and behind the words. -/
def wordsPattern : List (List α) → List (Item α)
  | [] => [.any]
  | word :: words => .any :: (word.map .one ++ wordsPattern words)

/-- The gaps with the words between them. -/
def weave : List (List α) → List (List α) → List α
  | gap :: gaps, word :: words => gap ++ word ++ weave gaps words
  | gap :: _, [] => gap
  | [], _ => []

/-- The leftmost occurrence of a word: what follows from its first letter on. -/
def findWord [DecidableEq α] (word : List α) : List α → Option (List α)
  | [] => if word = [] then some [] else none
  | a :: s => if word <+: a :: s then some (a :: s) else findWord word s

section Pattern

variable {word : List α} {words : List (List α)} {p : List (Item α)} {s : List α}

theorem matches_word_append :
    Matches (word.map .one ++ p) s ↔ ∃ rest, s = word ++ rest ∧ Matches p rest := by
  induction word generalizing s with
  | nil => simp
  | cons a word ih =>
    constructor
    · intro h
      rw [List.map_cons, List.cons_append] at h
      cases h with
      | one _ h =>
        obtain ⟨rest, rfl, hrest⟩ := ih.mp h
        exact ⟨rest, rfl, hrest⟩
    · intro h
      obtain ⟨rest, rfl, hrest⟩ := h
      exact .one a (ih.mpr ⟨rest, rfl, hrest⟩)

theorem matches_any_iff :
    Matches (.any :: p) s ↔ ∃ gap rest, s = gap ++ rest ∧ Matches p rest := by
  constructor
  · intro h
    cases h with
    | any gap h => exact ⟨gap, _, rfl, h⟩
  · intro h
    obtain ⟨gap, rest, rfl, hrest⟩ := h
    exact .any gap hrest

/-- Without words everything matches. -/
theorem matches_wordsPattern_nil : Matches (wordsPattern ([] : List (List α))) s :=
  matches_any_iff.mpr ⟨s, [], (List.append_nil s).symm, .nil⟩

theorem matches_wordsPattern_cons :
    Matches (wordsPattern (word :: words)) s ↔
      ∃ gap rest, s = gap ++ word ++ rest ∧ Matches (wordsPattern words) rest := by
  show Matches (.any :: (word.map .one ++ wordsPattern words)) s ↔ _
  rw [matches_any_iff]
  constructor
  · intro h
    obtain ⟨gap, tail, rfl, htail⟩ := h
    obtain ⟨rest, rfl, hrest⟩ := matches_word_append.mp htail
    exact ⟨gap, rest, by rw [List.append_assoc], hrest⟩
  · intro h
    obtain ⟨gap, rest, rfl, hrest⟩ := h
    refine ⟨gap, word ++ rest, by rw [List.append_assoc], ?_⟩
    exact matches_word_append.mpr ⟨rest, rfl, hrest⟩

/-- The first wildcard also takes what is put before a match. -/
theorem matches_wordsPattern_append (gap : List α) (h : Matches (wordsPattern words) s) :
    Matches (wordsPattern words) (gap ++ s) := by
  cases words with
  | nil => exact matches_wordsPattern_nil
  | cons word words =>
    obtain ⟨first, rest, rfl, hrest⟩ := matches_wordsPattern_cons.mp h
    apply matches_wordsPattern_cons.mpr
    exact ⟨gap ++ first, rest, by simp only [List.append_assoc], hrest⟩

/-- The words that match are those in which the words of the pattern alternate with gaps. -/
theorem matches_wordsPattern_iff :
    Matches (wordsPattern words) s ↔
      ∃ gaps : List (List α), gaps.length = words.length + 1 ∧ s = weave gaps words := by
  induction words generalizing s with
  | nil =>
    constructor
    · intro _
      exact ⟨[s], rfl, rfl⟩
    · intro _
      exact matches_wordsPattern_nil
  | cons word words ih =>
    rw [matches_wordsPattern_cons]
    constructor
    · intro h
      obtain ⟨gap, rest, rfl, hrest⟩ := h
      obtain ⟨gaps, hlen, rfl⟩ := ih.mp hrest
      exact ⟨gap :: gaps, by rw [List.length_cons, hlen, List.length_cons], rfl⟩
    · intro h
      obtain ⟨gaps, hlen, rfl⟩ := h
      cases gaps with
      | nil => simp at hlen
      | cons gap gaps =>
        refine ⟨gap, weave gaps words, rfl, ih.mpr ⟨gaps, ?_, rfl⟩⟩
        simpa using hlen

end Pattern

section Search

variable [DecidableEq α] {word : List α} {words : List (List α)} {s r : List α}

/-- The search finds an occurrence. -/
theorem findWord_occurs (h : findWord word s = some r) : r <:+ s ∧ word <+: r := by
  induction s with
  | nil =>
    unfold findWord at h
    split at h
    · next hword =>
      cases h
      exact ⟨List.suffix_refl _, hword ▸ List.nil_prefix⟩
    · cases h
  | cons a s ih =>
    unfold findWord at h
    split at h
    · next hword =>
      cases h
      exact ⟨List.suffix_refl _, hword⟩
    · obtain ⟨hsuffix, hstart⟩ := ih h
      exact ⟨hsuffix.trans (List.suffix_cons a s), hstart⟩

/-- Wherever the word occurs, the search has found something, and no later than there. -/
theorem findWord_leftmost (word gap rest : List α) :
    ∃ r, findWord word (gap ++ word ++ rest) = some r ∧ word ++ rest <:+ r := by
  induction gap with
  | nil =>
    refine ⟨word ++ rest, ?_, List.suffix_refl _⟩
    rw [List.nil_append]
    cases hs : word ++ rest with
    | nil =>
      obtain ⟨rfl, _⟩ := List.append_eq_nil_iff.mp hs
      rfl
    | cons a s =>
      rw [findWord, if_pos (hs ▸ List.prefix_append word rest)]
  | cons a gap ih =>
    obtain ⟨r, hfind, hsuffix⟩ := ih
    rw [List.cons_append, List.cons_append, findWord]
    split
    · refine ⟨_, rfl, ?_⟩
      rw [List.append_assoc]
      exact (List.suffix_append gap _).trans (List.suffix_cons a _)
    · exact ⟨r, hfind, hsuffix⟩

theorem findWord_none (words : List (List α)) (h : findWord word s = none) :
    ¬ Matches (wordsPattern (word :: words)) s := by
  intro hmatch
  obtain ⟨gap, rest, rfl, _⟩ := matches_wordsPattern_cons.mp hmatch
  obtain ⟨r, hfind, _⟩ := findWord_leftmost word gap rest
  rw [h] at hfind
  cases hfind

/-- Taking the leftmost occurrence of the first word loses no match. -/
theorem findWord_some (h : findWord word s = some r) :
    Matches (wordsPattern (word :: words)) s ↔
      Matches (wordsPattern words) (r.drop word.length) := by
  obtain ⟨⟨before, rfl⟩, ⟨behind, rfl⟩⟩ := findWord_occurs h
  rw [List.drop_left, matches_wordsPattern_cons]
  constructor
  · intro hmatch
    obtain ⟨gap, rest, heq, hrest⟩ := hmatch
    obtain ⟨r', hfind, hsuffix⟩ := findWord_leftmost word gap rest
    rw [← heq, h] at hfind
    obtain rfl := Option.some.inj hfind
    -- A later occurrence leaves a suffix of what the leftmost one leaves.
    have hle : rest <:+ behind := by
      apply List.suffix_of_suffix_length_le ((List.suffix_append word rest).trans hsuffix)
        (List.suffix_append word behind)
      have hlen := hsuffix.length_le
      simp only [List.length_append] at hlen
      omega
    obtain ⟨gap', rfl⟩ := hle
    exact matches_wordsPattern_append gap' hrest
  · intro hmatch
    exact ⟨before, behind, by rw [List.append_assoc], hmatch⟩

end Search

end InkFuse.Text
