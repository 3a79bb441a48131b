import InkFuse.Bytes.LittleEndian
import Mathlib.Data.List.TakeWhile

/-!
Numbers and dates from text. The functions get the rest of the line behind a pointer, up to the
zero byte behind it; what they return depends on the text in front of the next separator only.
-/

namespace InkFuse.Storage

open Bytes

def separator : UInt8 := '|'.toUInt8

/-- The characters that a pointer to `memory` stands for as a C string. -/
def cString (memory : Bytes) : Bytes := memory.takeWhile (· ≠ 0)

def isSpace (b : UInt8) : Bool := b = 32 || 9 ≤ b && b ≤ 13

def isDigit (b : UInt8) : Bool := 48 ≤ b && b ≤ 57

def isSign (b : UInt8) : Bool := b = '-'.toUInt8 || b = '+'.toUInt8

def number (digits : Bytes) : ℕ := digits.foldl (fun x b => 10 * x + (b.toNat - 48)) 0

def signed (negative : Bool) (x : ℕ) : ℤ := if negative then -x else x

def readSign (s : Bytes) : Bool × Bytes :=
  match s with
  | b :: rest => if isSign b then (b = '-'.toUInt8, rest) else (false, s)
  | [] => (false, [])

def strtol (s : Bytes) : Option ℤ :=
  let (negative, s) := readSign (s.dropWhile isSpace)
  let digits := s.takeWhile isDigit
  if digits = [] then none else some (signed negative (number digits))

/-- `none` stands for the exceptions `invalid_argument` and `out_of_range`. -/
def stoll (s : Bytes) : Option ℤ := (strtol s).filter fun x => -2 ^ 63 ≤ x ∧ x < 2 ^ 63

/-- A number with a minus is negated modulo `2 ^ 64`. -/
def stoull (s : Bytes) : Option ℤ := (strtol s).filter fun x => -2 ^ 64 < x ∧ x < 2 ^ 64

/-- What `strtof` and `strtod` look at: no other character can be part of a number. -/
def floatText (s : Bytes) : Bytes :=
  (s.dropWhile isSpace).takeWhile fun b =>
    isDigit b || isSign b || 65 ≤ b && b ≤ 90 || 97 ≤ b && b ≤ 122 ||
      b = '.'.toUInt8 || b = '('.toUInt8 || b = ')'.toUInt8 || b = '_'.toUInt8

/-- The conversions of the standard library to the bits of a number; `none` if they throw. -/
structure FloatConversions where
  stof : Bytes → Option UInt32
  stod : Bytes → Option UInt64

section Dates

/-- `read_unsigned` with at least one and at most `M` digits. -/
def readUnsigned (M : ℕ) (s : Bytes) : Option (ℕ × Bytes) :=
  let digits := (s.take M).takeWhile isDigit
  if digits = [] then none else some (number digits, s.drop digits.length)

def readSigned (M : ℕ) (s : Bytes) : Option (ℤ × Bytes) :=
  let (negative, s) := readSign s
  (readUnsigned M s).map fun (x, rest) => (signed negative x, rest)

def readChar (c : UInt8) : Bytes → Option Bytes
  | b :: rest => if b = c then some rest else none
  | [] => none

/-- `from_stream` with the format `%Y-%m-%d`. -/
def fromStream (s : Bytes) : Option (ℤ × ℤ × ℤ) := do
  let (y, s) ← readSigned 4 s
  let s ← readChar '-'.toUInt8 s
  let (m, s) ← readSigned 2 s
  let s ← readChar '-'.toUInt8 s
  let (d, _) ← readSigned 2 s
  some (y, m, d)

def isLeap (y : ℤ) : Bool := y % 4 = 0 && (y % 100 ≠ 0 || y % 400 = 0)

def lastDay (y : ℤ) (m : ℕ) : ℕ :=
  if m = 2 then (if isLeap y then 29 else 28)
  else if m = 4 ∨ m = 6 ∨ m = 9 ∨ m = 11 then 30 else 31

def toDays (y : ℤ) (m d : ℕ) : ℤ :=
  let y := y - if m ≤ 2 then 1 else 0
  let era := y / 400
  let yoe := y - era * 400
  let doy : ℤ := ((153 * (if 2 < m then m - 3 else m + 9) + 2) / 5 + d - 1 : ℕ)
  let doe := yoe * 365 + yoe / 4 - yoe / 100 + doy
  era * 146097 + doe - 719468

/-- The days since the epoch. A text that is no date leaves the time at its default value. -/
def dateStrToInt (s : Bytes) : ℤ :=
  match fromStream s with
  | none => 0
  | some (y, m, d) =>
    -- Months and days are kept in a byte.
    let m := (m % 256).toNat
    let d := (d % 256).toNat
    if 1 ≤ m ∧ m ≤ 12 ∧ 1 ≤ d ∧ d ≤ lastDay y m then toDays y m d else 0

example : dateStrToInt ("1971-1-1".toList.map Char.toUInt8) = 365 := by decide
example : dateStrToInt ("1969-12-30".toList.map Char.toUInt8) = -2 := by decide
example : dateStrToInt ("1970-2-2".toList.map Char.toUInt8) = 32 := by decide

end Dates

section Separator

theorem takeWhile_separator {p : UInt8 → Bool} (hp : p separator = false) (s rest : Bytes) :
    (s ++ separator :: rest).takeWhile p = s.takeWhile p := by
  rw [List.takeWhile_append]
  split
  · next hall =>
    rw [List.takeWhile_cons_of_neg (by simp [hp]), List.append_nil]
    exact ((List.takeWhile_prefix p).eq_of_length hall).symm
  · rfl

theorem dropWhile_separator {p : UInt8 → Bool} (hp : p separator = false) (s rest : Bytes) :
    (s ++ separator :: rest).dropWhile p = s.dropWhile p ++ separator :: rest := by
  rw [List.dropWhile_append]
  split
  · next hempty =>
    rw [List.isEmpty_iff.mp hempty, List.dropWhile_cons_of_neg (by simp [hp]), List.nil_append]
  · rfl

theorem readSign_separator (s rest : Bytes) :
    readSign (s ++ separator :: rest) = ((readSign s).1, (readSign s).2 ++ separator :: rest) := by
  cases s with
  | nil => rfl
  | cons b s =>
    simp only [List.cons_append, readSign]
    split <;> rfl

theorem strtol_separator (s rest : Bytes) : strtol (s ++ separator :: rest) = strtol s := by
  simp only [strtol, dropWhile_separator (p := isSpace) (by decide), readSign_separator,
    takeWhile_separator (p := isDigit) (by decide)]

theorem stoll_separator (s rest : Bytes) : stoll (s ++ separator :: rest) = stoll s := by
  rw [stoll, strtol_separator, ← stoll]

theorem stoull_separator (s rest : Bytes) : stoull (s ++ separator :: rest) = stoull s := by
  rw [stoull, strtol_separator, ← stoull]

theorem floatText_separator (s rest : Bytes) :
    floatText (s ++ separator :: rest) = floatText s := by
  unfold floatText
  rw [dropWhile_separator (by decide), takeWhile_separator (by decide)]

theorem readUnsigned_separator (M : ℕ) (s rest : Bytes) :
    readUnsigned M (s ++ separator :: rest) =
      (readUnsigned M s).map fun p => (p.1, p.2 ++ separator :: rest) := by
  have hdigits : ((s ++ separator :: rest).take M).takeWhile isDigit =
      (s.take M).takeWhile isDigit := by
    rw [List.take_append]
    cases hM : M - s.length with
    | zero => rw [List.take_zero, List.append_nil]
    | succ k => rw [List.take_succ_cons, takeWhile_separator (by decide)]
  have hlength : ((s.take M).takeWhile isDigit).length ≤ s.length :=
    (List.takeWhile_prefix _).length_le.trans (List.length_take_le' M s)
  simp only [readUnsigned, hdigits]
  split
  · rfl
  · rw [List.drop_append_of_le_length hlength, Option.map_some]

theorem readSigned_separator (M : ℕ) (s rest : Bytes) :
    readSigned M (s ++ separator :: rest) =
      (readSigned M s).map fun p => (p.1, p.2 ++ separator :: rest) := by
  simp only [readSigned, readSign_separator, readUnsigned_separator, Option.map_map]
  rfl

theorem readChar_separator {c : UInt8} (hc : separator ≠ c) (s rest : Bytes) :
    readChar c (s ++ separator :: rest) = (readChar c s).map (· ++ separator :: rest) := by
  cases s with
  | nil => exact if_neg hc
  | cons b s =>
    simp only [List.cons_append, readChar]
    split <;> rfl

theorem fromStream_separator (s rest : Bytes) :
    fromStream (s ++ separator :: rest) = fromStream s := by
  have hminus : separator ≠ '-'.toUInt8 := by decide
  simp only [fromStream, Option.bind_eq_bind, readSigned_separator, readChar_separator hminus,
    Option.bind_map, Function.comp_def]

theorem dateStrToInt_separator (s rest : Bytes) :
    dateStrToInt (s ++ separator :: rest) = dateStrToInt s := by
  rw [dateStrToInt, fromStream_separator, ← dateStrToInt]

/-- A conversion of a C string that ends at a separator sees the field in front of it only. -/
theorem cString_separator {β : Type*} {f : Bytes → β}
    (hf : ∀ s rest, f (s ++ separator :: rest) = f s) (s rest : Bytes) :
    f (cString (s ++ separator :: rest)) = f (cString (s ++ [0])) := by
  have hcString : ∀ t : Bytes, cString (s ++ t) =
      if (0 : UInt8) ∈ s then cString s else s ++ cString t := by
    intro t
    unfold cString
    rw [List.takeWhile_append]
    by_cases hzero : (0 : UInt8) ∈ s
    · rw [if_pos hzero, if_neg]
      intro hall
      have hs := (List.takeWhile_prefix _).eq_of_length hall
      have hne := List.mem_takeWhile_imp (hs ▸ hzero)
      simp at hne
    · have hall : s.takeWhile (· ≠ 0) = s := by
        rw [List.takeWhile_eq_self_iff]
        intro b hb
        simp only [decide_eq_true_eq]
        exact fun h => hzero (h ▸ hb)
      rw [if_neg hzero, hall, if_pos rfl]
  rw [hcString, hcString]
  split
  · rfl
  · rw [show cString (separator :: rest) = separator :: cString rest from rfl, hf,
      show cString [0] = [] from rfl, List.append_nil]

end Separator

end InkFuse.Storage
