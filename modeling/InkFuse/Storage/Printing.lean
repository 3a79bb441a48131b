import InkFuse.Storage.LoadRow

/-!
The text that a type prints for a value, and the value that a column loads from it.
-/

namespace InkFuse.Storage

open Bytes Codegen

def ascii (text : List Char) : Bytes := text.map Char.toUInt8

def signedValue (bytes : Bytes) : ℤ :=
  if 2 * decode bytes < 256 ^ bytes.length then decode bytes
  else (decode bytes : ℤ) - 256 ^ bytes.length

section DateText

/-- `year_month_day::from_days`. The year is kept in sixteen bits. -/
def fromDays (dp : ℤ) : ℤ × ℕ × ℕ :=
  let z := dp + 719468
  let era := z / 146097
  let doe := (z - era * 146097).toNat
  let yoe := (doe - doe / 1460 + doe / 36524 - doe / 146096) / 365
  let y := (yoe : ℤ) + era * 400
  let doy := doe - (365 * yoe + yoe / 4 - yoe / 100)
  let mp := (5 * doy + 2) / 153
  let d := doy - (153 * mp + 2) / 5 + 1
  let m := if mp < 10 then mp + 3 else mp - 9
  let year := y + if m ≤ 2 then 1 else 0
  ((year + 2 ^ 15) % 2 ^ 16 - 2 ^ 15, m, d)

/-- Zeros are put between the sign and the digits. -/
def yearText (y : ℤ) : List Char :=
  (if y < 0 then ['-'] else []) ++ (Nat.toDigits 10 y.natAbs).leftpad 4 '0'

/-- `to_stream` with the format `%Y-%m-%d`. The smallest year sets the stream's fail bit. -/
def dateIntToStr (date : ℤ) : List Char :=
  let (y, m, d) := fromDays date
  if y = -2 ^ 15 then []
  else yearText y ++ '-' :: (Nat.toDigits 10 m).leftpad 2 '0' ++
    '-' :: (Nat.toDigits 10 d).leftpad 2 '0'

example : dateIntToStr 365 = "1971-01-01".toList := by decide
example : dateIntToStr (-2) = "1969-12-30".toList := by decide

end DateText

/-- `UnsignedInt::print`. A byte is turned into a number first. -/
def printUnsignedInt (size : ℕ) (data : Bytes) : Bytes :=
  if size = 1 then ascii (stdToString (decode (data.take 1)))
  else if size = 2 then ascii (stdToString (decode (data.take 2)))
  else if size = 4 then ascii (stdToString (decode (data.take 4)))
  else ascii (stdToString (decode (data.take 8)))

/-- `SignedInt::print`. A stream takes an `int8_t` for a character. -/
def printSignedInt (size : ℕ) (data : Bytes) : Bytes :=
  if size = 1 then data.take 1
  else if size = 2 then ascii (stdToString (signedValue (data.take 2)))
  else if size = 4 then ascii (stdToString (signedValue (data.take 4)))
  else ascii (stdToString (signedValue (data.take 8)))

def printBool (data : Bytes) : Bytes :=
  ascii (if data.head? = some 0 then "false".toList else "true".toList)

def printChar (data : Bytes) : Bytes := data.take 1

def printDate (data : Bytes) : Bytes := ascii (dateIntToStr (signedValue (data.take 4)))

/-- What is printed for the value at `data`. Floats and strings are left out; the other types
without a text throw. -/
def print (data : Bytes) : IRType → Option Bytes
  | .unsignedInt size => some (printUnsignedInt size data)
  | .signedInt size => some (printSignedInt size data)
  | .bool => some (printBool data)
  | .char => some (printChar data)
  | .date => some (printDate data)
  | _ => none

/-- A date whose text the library reads as the date again. -/
def Representable (date : ℤ) : Prop := dateStrToInt (ascii (dateIntToStr date)) = date

/-- The text of a value, in front of a separator, gives every column of the type the value again. -/
def RoundTrips (float : FloatConversions) (type : IRType) (v : Bytes) : Prop :=
  ∀ (c : PODColumn) (rest : Bytes), c.type = type → (Column.pod c).WellFormed →
    ∃ text c', print v type = some text ∧
      c.loadValue float (some (text ++ separator :: rest)) = (.done, c') ∧
      c'.storage = c.storage.take c.storageOffset ++ v ∧
      c'.storageOffset = c.storageOffset + v.length

section Digits

theorem ascii_digitChar {c : Char} (hc : c.isDigit = true) :
    isDigit c.toUInt8 = true ∧ c.toUInt8.toNat = c.toNat := by
  obtain ⟨hlow, hhigh⟩ : 48 ≤ c.toNat ∧ c.toNat ≤ 57 := by
    have h := (Bool.and_eq_true _ _).mp hc
    constructor
    · exact (decide_eq_true_eq.mp h.1 : (48 : UInt32) ≤ c.val)
    · exact (decide_eq_true_eq.mp h.2 : c.val ≤ (57 : UInt32))
  have hnat : c.toUInt8.toNat = c.toNat := by
    show c.val.toNat % 2 ^ 8 = c.val.toNat
    exact Nat.mod_eq_of_lt (by show c.toNat < 256; omega)
  refine ⟨?_, hnat⟩
  unfold isDigit
  rw [Bool.and_eq_true, decide_eq_true_eq, decide_eq_true_eq, UInt8.le_iff_toNat_le,
    UInt8.le_iff_toNat_le, hnat]
  exact ⟨hlow, hhigh⟩

/-- Reading digits as text is reading them as characters. -/
theorem number_ascii {text : List Char} (htext : ∀ c ∈ text, c.isDigit = true) :
    number (ascii text) = Nat.ofDigitChars 10 text 0 := by
  unfold number ascii Nat.ofDigitChars
  rw [List.foldl_map]
  apply List.foldl_ext
  intro x c hc
  rw [(ascii_digitChar (htext c hc)).2]
  rfl

theorem digits_of_ascii {text : List Char} (htext : ∀ c ∈ text, c.isDigit = true) :
    ∀ b ∈ ascii text, isDigit b = true := by
  intro b hb
  obtain ⟨c, hc, rfl⟩ := List.mem_map.mp hb
  exact (ascii_digitChar (htext c hc)).1

theorem toDigits_isDigit {n : ℕ} : ∀ c ∈ Nat.toDigits 10 n, c.isDigit = true := by
  intro c hc
  exact Nat.isDigit_of_mem_toDigits (by decide) (by decide) hc

theorem number_toDigits (n : ℕ) : number (ascii (Nat.toDigits 10 n)) = n := by
  rw [number_ascii toDigits_isDigit, Nat.ofDigitChars_ten_toDigits]

theorem ascii_toDigits_ne_nil (n : ℕ) : ascii (Nat.toDigits 10 n) ≠ [] := by
  intro h
  exact Nat.toDigits_ne_nil (List.map_eq_nil_iff.mp h)

end Digits

section Numbers

theorem toNat_of_isDigit {b : UInt8} (hb : isDigit b = true) : 48 ≤ b.toNat := by
  unfold isDigit at hb
  rw [Bool.and_eq_true, decide_eq_true_eq, UInt8.le_iff_toNat_le] at hb
  exact hb.1

theorem isSpace_of_isDigit {b : UInt8} (hb : isDigit b = true) : isSpace b = false := by
  have hlow := toNat_of_isDigit hb
  simp only [isSpace, Bool.or_eq_false_iff, Bool.and_eq_false_iff, decide_eq_false_iff_not,
    UInt8.le_iff_toNat_le, ← UInt8.toNat_inj, UInt8.toNat_ofNat]
  omega

theorem isSign_of_isDigit {b : UInt8} (hb : isDigit b = true) : isSign b = false := by
  have hlow := toNat_of_isDigit hb
  have hminus : '-'.toUInt8.toNat = 45 := by decide
  have hplus : '+'.toUInt8.toNat = 43 := by decide
  simp only [isSign, Bool.or_eq_false_iff, decide_eq_false_iff_not, ← UInt8.toNat_inj]
  omega

theorem strtol_digits {s : Bytes} (hne : s ≠ []) (hs : ∀ b ∈ s, isDigit b = true) :
    strtol s = some (number s) := by
  obtain ⟨b, rest, rfl⟩ := List.exists_cons_of_ne_nil hne
  have hb := hs b (List.mem_cons_self ..)
  have hspace := isSpace_of_isDigit hb
  have hsign := isSign_of_isDigit hb
  have htake : (b :: rest).takeWhile isDigit = b :: rest := List.takeWhile_eq_self_iff.mpr hs
  unfold strtol
  rw [List.dropWhile_cons_of_neg (by rw [hspace]; decide)]
  simp only [readSign, hsign, Bool.false_eq_true, if_false, htake, List.cons_ne_nil]
  rfl

theorem strtol_minus {s : Bytes} (hne : s ≠ []) (hs : ∀ b ∈ s, isDigit b = true) :
    strtol ('-'.toUInt8 :: s) = some (-(number s : ℤ)) := by
  have htake : s.takeWhile isDigit = s := List.takeWhile_eq_self_iff.mpr hs
  unfold strtol
  rw [List.dropWhile_cons_of_neg (by decide)]
  simp only [readSign, show isSign '-'.toUInt8 = true from by decide, if_true, htake, hne, if_false]
  rfl

/-- A printed number is read again. -/
theorem strtol_stdToString (x : ℤ) : strtol (ascii (stdToString x)) = some x := by
  cases x with
  | ofNat n =>
    show strtol (ascii (Nat.toDigits 10 n)) = _
    rw [strtol_digits (ascii_toDigits_ne_nil n) (digits_of_ascii toDigits_isDigit),
      number_toDigits]
    rfl
  | negSucc n =>
    show strtol ('-'.toUInt8 :: ascii (Nat.toDigits 10 (n + 1))) = _
    rw [strtol_minus (ascii_toDigits_ne_nil _) (digits_of_ascii toDigits_isDigit),
      number_toDigits]
    rfl

theorem stdToString_no_zero (x : ℤ) : (0 : UInt8) ∉ ascii (stdToString x) := by
  have hdigits : ∀ n, (0 : UInt8) ∉ ascii (Nat.toDigits 10 n) := by
    intro n h
    have hzero := digits_of_ascii toDigits_isDigit 0 h
    revert hzero
    decide
  cases x with
  | ofNat n => exact hdigits n
  | negSucc n =>
    show (0 : UInt8) ∉ '-'.toUInt8 :: ascii (Nat.toDigits 10 (n + 1))
    rw [List.mem_cons, not_or]
    exact ⟨by decide, hdigits (n + 1)⟩

theorem cString_text {text : Bytes} (h : (0 : UInt8) ∉ text) : cString (text ++ [0]) = text := by
  unfold cString
  have hall : text.takeWhile (· ≠ 0) = text := by
    rw [List.takeWhile_eq_self_iff]
    intro b hb
    exact decide_eq_true (ne_of_mem_of_not_mem hb h)
  rw [List.takeWhile_append, hall, if_pos rfl]
  exact List.append_nil text

theorem stoll_stdToString {x : ℤ} (hlow : -2 ^ 63 ≤ x) (hhigh : x < 2 ^ 63) :
    stoll (ascii (stdToString x)) = some x := by
  unfold stoll
  rw [strtol_stdToString, Option.filter_some, if_pos (decide_eq_true ⟨hlow, hhigh⟩)]

theorem stoull_stdToString {x : ℤ} (hlow : -2 ^ 64 < x) (hhigh : x < 2 ^ 64) :
    stoull (ascii (stdToString x)) = some x := by
  unfold stoull
  rw [strtol_stdToString, Option.filter_some, if_pos (decide_eq_true ⟨hlow, hhigh⟩)]

end Numbers

section Widths

variable {v : Bytes}

theorem signedValue_bounds (v : Bytes) :
    -(256 ^ v.length : ℤ) ≤ 2 * signedValue v ∧ 2 * signedValue v < 256 ^ v.length := by
  have hlt := decode_lt v
  have hcast : ((256 ^ v.length : ℕ) : ℤ) = (256 : ℤ) ^ v.length := by push_cast; rfl
  unfold signedValue
  split <;> omega

/-- Two's complement gives back the bytes of a signed number. -/
theorem twosComplement_signedValue (v : Bytes) :
    LoadVal.twosComplement v.length (signedValue v) = v := by
  have hlt := decode_lt v
  have hcast : ((256 ^ v.length : ℕ) : ℤ) = (256 : ℤ) ^ v.length := by push_cast; rfl
  have hmod : signedValue v % 256 ^ v.length = decode v := by
    unfold signedValue
    split
    · exact Int.emod_eq_of_lt (by omega) (by omega)
    · rw [Int.sub_emod_right]
      exact Int.emod_eq_of_lt (by omega) (by omega)
  unfold LoadVal.twosComplement
  rw [hmod, Int.toNat_natCast, encode_decode]

theorem twosComplement_decode (v : Bytes) : LoadVal.twosComplement v.length (decode v) = v := by
  have hlt := decode_lt v
  have hcast : ((256 ^ v.length : ℕ) : ℤ) = (256 : ℤ) ^ v.length := by push_cast; rfl
  unfold LoadVal.twosComplement
  rw [Int.emod_eq_of_lt (by omega) (by omega), Int.toNat_natCast, encode_decode]

end Widths

section Loading

variable {float : FloatConversions} {v : Bytes}

theorem run_loadInt {size : IntSize} (hv : v.length = size.bytes) (rest : Bytes) :
    (LoadVal.loadInt size).run float (ascii (stdToString (signedValue v)) ++ separator :: rest) =
      some v := by
  obtain ⟨hlow, hhigh⟩ := signedValue_bounds v
  have hsize : (256 : ℤ) ^ v.length ≤ 2 ^ 64 := by
    rw [hv]
    cases size <;> norm_num [IntSize.bytes]
  rw [LoadVal.run_separator (by intro h; cases h)]
  show (stoll (cString _)).map _ = _
  rw [cString_text (stdToString_no_zero _), stoll_stdToString (by omega) (by omega),
    Option.map_some, ← hv, twosComplement_signedValue]

theorem run_loadUint {size : IntSize} (hv : v.length = size.bytes) (rest : Bytes) :
    (LoadVal.loadUint size).run float
      (ascii (stdToString (decode v)) ++ separator :: rest) = some v := by
  have hlt := decode_lt v
  have hsize : 256 ^ v.length ≤ 2 ^ 64 := by
    rw [hv]
    cases size <;> norm_num [IntSize.bytes]
  rw [LoadVal.run_separator (by intro h; cases h)]
  show (stoull (cString _)).map _ = _
  rw [cString_text (stdToString_no_zero _), stoull_stdToString (by omega) (by omega),
    Option.map_some, ← hv, twosComplement_decode]

theorem dateIntToStr_no_zero (date : ℤ) : (0 : UInt8) ∉ ascii (dateIntToStr date) := by
  have hpadded : ∀ n k, ∀ c ∈ (Nat.toDigits 10 n).leftpad k '0', c.isDigit = true := by
    intro n k c hc
    rcases List.mem_append.mp hc with hzero | hdigit
    · rw [List.eq_of_mem_replicate hzero]
      decide
    · exact toDigits_isDigit c hdigit
  have hchars : ∀ c ∈ dateIntToStr date, c.isDigit = true ∨ c = '-' := by
    intro c hc
    unfold dateIntToStr at hc
    dsimp only at hc
    split at hc
    · cases hc
    · simp only [yearText, List.mem_append, List.mem_cons] at hc
      rcases hc with ((hsign | hyear) | hminus | hmonth) | hminus | hday
      · split at hsign
        · exact .inr (List.mem_singleton.mp hsign)
        · cases hsign
      · exact .inl (hpadded _ _ c hyear)
      · exact .inr hminus
      · exact .inl (hpadded _ _ c hmonth)
      · exact .inr hminus
      · exact .inl (hpadded _ _ c hday)
  intro hzero
  obtain ⟨c, hc, hcode⟩ := List.mem_map.mp hzero
  rcases hchars c hc with hdigit | rfl
  · have hdigit' := (ascii_digitChar hdigit).1
    rw [hcode] at hdigit'
    revert hdigit'
    decide
  · revert hcode
    decide

theorem run_loadDate (hv : v.length = 4) (hdate : Representable (signedValue v)) (rest : Bytes) :
    LoadVal.loadDate.run float (ascii (dateIntToStr (signedValue v)) ++ separator :: rest) =
      some v := by
  rw [LoadVal.run_separator (by intro h; cases h)]
  show some _ = _
  rw [cString_text (dateIntToStr_no_zero _), hdate, ← hv, twosComplement_signedValue]

theorem strtol_no_digit {s : Bytes} (hs : ∀ b ∈ s, isDigit b = false) : strtol s = none := by
  have hkept : ∀ b ∈ (readSign (s.dropWhile isSpace)).2, isDigit b = false := by
    have hdrop : ∀ b ∈ s.dropWhile isSpace, isDigit b = false := fun b hb =>
      hs b (List.dropWhile_suffix _ |>.mem hb)
    cases hcase : s.dropWhile isSpace with
    | nil =>
      intro b hb
      cases hb
    | cons a rest =>
      intro b hb
      rw [hcase] at hdrop
      unfold readSign at hb
      simp only at hb
      split at hb
      · exact hdrop b (List.mem_cons_of_mem a hb)
      · exact hdrop b hb
  have htake : (readSign (s.dropWhile isSpace)).2.takeWhile isDigit = [] := by
    cases hcase : (readSign (s.dropWhile isSpace)).2 with
    | nil => rfl
    | cons a rest =>
      rw [hcase] at hkept
      exact List.takeWhile_cons_of_neg (by rw [hkept a (List.mem_cons_self ..)]; decide)
  unfold strtol
  simp only [htake, if_true]

/-- A byte as a character is no text for its number: a digit stands for a smaller number, and any
other character for none. -/
theorem run_byte (b : UInt8) (rest : Bytes) :
    (LoadVal.loadInt .one).run float ([b] ++ separator :: rest) ≠ some [b] := by
  rw [LoadVal.run_separator (by intro h; cases h)]
  show (stoll (cString [b, 0])).map (LoadVal.twosComplement 1) ≠ some [b]
  intro h
  obtain ⟨x, hx, hbytes⟩ := Option.map_eq_some_iff.mp h
  have hread := (Option.filter_eq_some_iff.mp hx).1
  by_cases hdigit : isDigit b = true
  · have hne : b ≠ 0 := by
      intro hzero
      rw [hzero] at hdigit
      revert hdigit
      decide
    have hstring : cString [b, 0] = [b] :=
      cString_text (List.mem_singleton.not.mpr (Ne.symm hne))
    have hall : ∀ a ∈ [b], isDigit a = true := by
      intro a ha
      rw [List.mem_singleton.mp ha]
      exact hdigit
    rw [hstring, strtol_digits (List.cons_ne_nil _ _) hall] at hread
    have hx' : x = ((b.toNat - 48 : ℕ) : ℤ) := by
      rw [← Option.some.inj hread]
      show ((10 * 0 + (b.toNat - 48) : ℕ) : ℤ) = _
      rw [Nat.mul_zero, Nat.zero_add]
    have hlt := b.toNat_lt
    have hvalue := congrArg decode hbytes
    unfold LoadVal.twosComplement at hvalue
    rw [decode_encode, hx'] at hvalue
    have hdecode : decode [b] = b.toNat := by
      show b.toNat + 256 * 0 = b.toNat
      omega
    rw [hdecode] at hvalue
    have hlow := toNat_of_isDigit hdigit
    omega
  · have hnone : strtol (cString [b, 0]) = none := by
      apply strtol_no_digit
      intro a ha
      have hmem := (List.takeWhile_prefix _).mem ha
      rcases List.mem_cons.mp hmem with rfl | hzero
      · exact Bool.eq_false_iff.mpr hdigit
      · rw [List.mem_singleton.mp hzero]
        decide
    rw [hnone] at hread
    cases hread

end Loading

section RoundTrip

variable {float : FloatConversions} {type : IRType} {loadVal : LoadVal} {v : Bytes}

/-- What the loading function returns takes its place behind the values of the column. -/
theorem PODColumn.loadValue_stores {c : PODColumn} {memory : Bytes}
    (hc : (Column.pod c).WellFormed) (hrun : c.loadVal.run float memory = some v) :
    ∃ c', c.loadValue float (some memory) = (.done, c') ∧
      c'.storage = c.storage.take c.storageOffset ++ v ∧
      c'.storageOffset = c.storageOffset + v.length := by
  have hv : v.length = c.type.numBytes := by
    rw [LoadVal.run_length hrun, numBytes_of_resolve c.resolved]
  have hlength := c.resize_length hc
  have hoffset : c.storageOffset ≤ c.storage.length := by
    rcases hc with hsettled | hfailed <;> omega
  refine ⟨{ c with
    storage := writeAt c.resize.storage c.storageOffset v
    storageOffset := c.storageOffset + c.type.numBytes }, ?_, ?_, ?_⟩
  · unfold PODColumn.loadValue
    simp only [hrun]
  · show writeAt c.resize.storage c.storageOffset v = _
    unfold writeAt
    rw [List.drop_eq_nil_of_le (by omega), List.append_nil]
    congr 1
    unfold PODColumn.resize
    rw [List.take_take, Nat.min_eq_left (by omega), List.take_append_of_le_length hoffset]
  · show c.storageOffset + c.type.numBytes = _
    rw [hv]

/-- The text of a value is loaded as the value, one type after the other. -/
theorem run_print (htype : resolve type = some loadVal) (hfloat : ∀ size, type ≠ .float size)
    (hbyte : type ≠ .signedInt 1) (hv : v.length = type.numBytes)
    (hdate : type = .date → Representable (signedValue v)) (rest : Bytes) :
    ∃ text, print v type = some text ∧
      loadVal.run float (text ++ separator :: rest) = some v := by
  have htake : v.take type.numBytes = v := List.take_of_length_le (by omega)
  unfold resolve at htype
  split at htype <;> cases htype
  · refine ⟨_, rfl, ?_⟩
    unfold printDate
    rw [show v.take 4 = v from htake]
    exact run_loadDate hv (hdate rfl) rest
  · exact absurd rfl hbyte
  · refine ⟨_, rfl, ?_⟩
    show (LoadVal.loadInt .two).run float (ascii (stdToString (signedValue (v.take 2))) ++ _) = _
    rw [show v.take 2 = v from htake]
    exact run_loadInt hv rest
  · refine ⟨_, rfl, ?_⟩
    show (LoadVal.loadInt .four).run float (ascii (stdToString (signedValue (v.take 4))) ++ _) = _
    rw [show v.take 4 = v from htake]
    exact run_loadInt hv rest
  · refine ⟨_, rfl, ?_⟩
    show (LoadVal.loadInt .eight).run float (ascii (stdToString (signedValue (v.take 8))) ++ _) = _
    rw [show v.take 8 = v from htake]
    exact run_loadInt hv rest
  · refine ⟨_, rfl, ?_⟩
    show (LoadVal.loadUint .one).run float (ascii (stdToString (decode (v.take 1))) ++ _) = _
    rw [show v.take 1 = v from htake]
    exact run_loadUint hv rest
  · refine ⟨_, rfl, ?_⟩
    show (LoadVal.loadUint .two).run float (ascii (stdToString (decode (v.take 2))) ++ _) = _
    rw [show v.take 2 = v from htake]
    exact run_loadUint hv rest
  · refine ⟨_, rfl, ?_⟩
    show (LoadVal.loadUint .four).run float (ascii (stdToString (decode (v.take 4))) ++ _) = _
    rw [show v.take 4 = v from htake]
    exact run_loadUint hv rest
  · refine ⟨_, rfl, ?_⟩
    show (LoadVal.loadUint .eight).run float (ascii (stdToString (decode (v.take 8))) ++ _) = _
    rw [show v.take 8 = v from htake]
    exact run_loadUint hv rest
  · exact absurd rfl (hfloat 4)
  · exact absurd rfl (hfloat 8)
  · refine ⟨_, rfl, ?_⟩
    obtain ⟨b, rfl⟩ := List.length_eq_one_iff.mp hv
    rfl

/-- Printing and loading are inverse for every type but the signed byte, for no value of which they
are. -/
theorem roundTrips_iff (float : FloatConversions) (type : IRType) (v : Bytes)
    (htype : (resolve type).isSome = true) (hfloat : ∀ size, type ≠ .float size)
    (hv : v.length = type.numBytes) (hdate : type = .date → Representable (signedValue v)) :
    RoundTrips float type v ↔ type ≠ .signedInt 1 := by
  constructor
  · intro h hbyte
    subst hbyte
    obtain ⟨b, rfl⟩ := List.length_eq_one_iff.mp hv
    obtain ⟨text, c', hprint, hload, hstorage, -⟩ :=
      h ⟨.signedInt 1, .loadInt .one, rfl, [], 0⟩ [] rfl (.inl rfl)
    have htext : text = [b] := (Option.some.inj hprint).symm
    subst htext
    obtain ⟨bytes, hrun, rfl⟩ := PODColumn.loadValue_done hload
    obtain ⟨c'', hload', hstorage', -⟩ := PODColumn.loadValue_stores (.inl rfl) hrun
    rw [hload] at hload'
    have hsame : bytes = [b] := by
      rw [← (Prod.mk.inj hload').2, hstorage] at hstorage'
      exact hstorage'.symm
    rw [hsame] at hrun
    exact run_byte b [] hrun
  · intro hbyte c rest hc hwf
    have hresolved := c.resolved
    rw [hc] at hresolved
    obtain ⟨text, hprint, hrun⟩ := run_print hresolved hfloat hbyte hv hdate rest
    obtain ⟨c', hload⟩ := PODColumn.loadValue_stores hwf hrun
    exact ⟨text, c', hprint, hload⟩

theorem roundTrips_dates : (resolve .date).isSome = true ∧
    Representable (signedValue (encode 4 365)) ∧
    (RoundTrips noFloats .date (encode 4 365) ↔ IRType.date ≠ .signedInt 1) := by
  have hdate : Representable (signedValue (encode 4 365)) := by
    unfold Representable
    decide
  refine ⟨rfl, hdate, ?_⟩
  apply roundTrips_iff noFloats .date (encode 4 365) rfl _ rfl
  · intro _
    exact hdate
  · intro size h
    cases h

/-- The number five is printed as the control character of that code, which is no number. -/
theorem signed_byte_lost : ¬ RoundTrips noFloats (.signedInt 1) (encode 1 5) := by
  intro h
  obtain ⟨text, c', hprint, hload, -⟩ :=
    h ⟨.signedInt 1, .loadInt .one, rfl, [], 0⟩ [] rfl (.inl rfl)
  have htext : text = [5] := (Option.some.inj hprint).symm
  subst htext
  have hthrows : (PODColumn.loadValue noFloats ⟨.signedInt 1, .loadInt .one, rfl, [], 0⟩
      (some ([5] ++ separator :: []))).1 = .threw := by decide
  rw [hload] at hthrows
  cases hthrows

end RoundTrip

end InkFuse.Storage
