import InkFuse.Codegen.Value
import InkFuse.Text.Like
import Mathlib.Data.List.TakeWhile

/-!
Lists of strings in generated code. A list of strings is not written into the code: the code gets
a pointer to a view on the characters, and the runtime functions go over that view. A `char*` is
modelled by the characters that it points to, up to the terminating zero.
-/

namespace InkFuse.Codegen

open InkFuse.Text

def terminator : Char := Char.ofNat 0

/-- The characters that are read through `std::string::c_str()`. -/
def cStr (string : List Char) : List Char :=
  string.takeWhile (· ≠ terminator)

structure CString where
  chars : List Char
  no_terminator : terminator ∉ chars

@[simp]
theorem cStr_chars (s : CString) : cStr s.chars = s.chars := by
  unfold cStr
  apply List.takeWhile_eq_self_iff.mpr
  intro c hc
  have hne : c ≠ terminator := ne_of_mem_of_not_mem hc s.no_terminator
  exact decide_eq_true hne

/-- The same layout as the runtime's `InLiteralList`. -/
structure StringListView where
  start : List (List Char)
  size : ℕ

/-- What `StringList` lets the generated code see of its strings. `assert(raw_view.size < 1000)` in
`rawData` is left out. -/
def rawView (strings : List (List Char)) : StringListView where
  start := strings.map cStr
  size := strings.length

theorem rawView_start (strings : List CString) :
    (rawView (strings.map CString.chars)).start = [] ++ strings.map CString.chars := by
  show (strings.map CString.chars).map cStr = _
  rw [List.map_map, List.nil_append]
  exact List.map_congr_left fun s _ => cStr_chars s

/-- `in_strlist`. Nothing is returned where the list is left. -/
def inStrlist (list : StringListView) (arg : List Char) : Option Bool :=
  loop list.size 0 false
where
  loop : ℕ → ℕ → Bool → Option Bool
    | 0, _, res => some res
    | steps + 1, k, res => do
      let literal ← list.start[k]?
      loop steps (k + 1) (res || decide (literal = arg))

/-- `not_like_tokens`: `strstr` finds the leftmost occurrence, and the search goes on behind it.
Nothing is returned where the list is left. -/
def notLikeTokens (list : StringListView) (arg : List Char) : Option Bool :=
  loop list.size 0 arg
where
  loop : ℕ → ℕ → List Char → Option Bool
    | 0, _, _ => some false
    | steps + 1, i, arg => do
      let token ← list.start[i]?
      match findWord token arg with
      | none => some true
      | some tokenInArg => loop steps (i + 1) (tokenInArg.drop token.length)

section Loops

variable {list : StringListView} {before rest : List (List Char)}

theorem start_getElem? {word : List Char} (hlist : list.start = before ++ word :: rest) :
    list.start[before.length]? = some word := by
  rw [hlist, List.getElem?_append_right (Nat.le_refl _), Nat.sub_self, List.getElem?_cons_zero]

theorem inStrlist_loop (arg : List Char) (hlist : list.start = before ++ rest) (res : Bool) :
    inStrlist.loop list arg rest.length before.length res =
      some (res || decide (arg ∈ rest)) := by
  induction rest generalizing before res with
  | nil => simp [inStrlist.loop]
  | cons word rest ih =>
    have hnext : list.start = (before ++ [word]) ++ rest := by
      rw [hlist, List.append_assoc, List.singleton_append]
    have hrest := ih hnext (res || decide (word = arg))
    rw [List.length_append, List.length_singleton] at hrest
    rw [List.length_cons, inStrlist.loop, start_getElem? hlist]
    show inStrlist.loop list arg rest.length (before.length + 1) _ = _
    rw [hrest, Bool.or_assoc]
    simp only [List.mem_cons, Bool.decide_or, eq_comm]

/-- What is left of the tokens is searched behind what the earlier ones were found in. -/
theorem notLikeTokens_loop (arg : List Char) (hlist : list.start = before ++ rest) :
    ∃ res, notLikeTokens.loop list rest.length before.length arg = some res ∧
      (res = false ↔ Matches (wordsPattern rest) arg) := by
  induction rest generalizing before arg with
  | nil =>
    refine ⟨false, rfl, ?_⟩
    exact ⟨fun _ => matches_wordsPattern_nil, fun _ => rfl⟩
  | cons token rest ih =>
    have hnext : list.start = (before ++ [token]) ++ rest := by
      rw [hlist, List.append_assoc, List.singleton_append]
    rw [List.length_cons, notLikeTokens.loop, start_getElem? hlist]
    show ∃ res, (match findWord token arg with
      | none => some true
      | some tokenInArg => notLikeTokens.loop list rest.length (before.length + 1)
          (tokenInArg.drop token.length)) = some res ∧ _
    cases hfind : findWord token arg with
    | none =>
      refine ⟨true, rfl, ?_⟩
      have hno := findWord_none rest hfind
      constructor
      · intro h
        cases h
      · intro h
        exact absurd h hno
    | some tokenInArg =>
      obtain ⟨res, hrun, hres⟩ := ih (tokenInArg.drop token.length) hnext
      rw [List.length_append, List.length_singleton] at hrun
      exact ⟨res, hrun, hres.trans (findWord_some hfind).symm⟩

end Loops

/-- The list is never left, and the result says whether the argument is among the strings. -/
theorem inStrlist_rawView (strings : List CString) (arg : CString) :
    inStrlist (rawView (strings.map CString.chars)) arg.chars =
      some (decide (arg.chars ∈ strings.map CString.chars)) := by
  have hlist := rawView_start strings
  have hrun := inStrlist_loop arg.chars hlist false
  rw [Bool.false_or] at hrun
  exact hrun

/-- The filter rejects a string exactly where the tokens stand in it one behind the other, with
any gaps between them: where it matches the pattern `%t1%t2%...%tn%`. -/
theorem notLikeTokens_exact (tokens : List CString) (arg : CString) :
    ∃ res, notLikeTokens (rawView (tokens.map CString.chars)) arg.chars = some res ∧
      (res = false ↔ Matches (wordsPattern (tokens.map CString.chars)) arg.chars) ∧
      (res = false ↔ ∃ gaps : List (List Char), gaps.length = tokens.length + 1 ∧
        arg.chars = weave gaps (tokens.map CString.chars)) := by
  have hlist := rawView_start tokens
  obtain ⟨res, hrun, hres⟩ := notLikeTokens_loop arg.chars hlist
  refine ⟨res, hrun, hres, hres.trans ?_⟩
  rw [matches_wordsPattern_iff, List.length_map]

end InkFuse.Codegen
