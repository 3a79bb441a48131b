import InkFuse.Bytes.LittleEndian
import InkFuse.C.Constants
import InkFuse.Codegen.ExpressionText
import Mathlib.Data.Int.ModEq

/-!
A runtime parameter reaches the primitives of the interpreter as a pointer to its value, and
compiled code as a literal.
-/

namespace InkFuse.Codegen

open InkFuse.Bytes InkFuse.C InkFuse.Float

/-- What a variable holds. A string is known by its characters. -/
inductive Datum
  | integer (value : ℤ)
  | floating (value : ℚ)
  | chars (s : List Char)
  deriving DecidableEq

/-- What is at the address that `rawData` returns. For strings it is the address of characters. -/
inductive RawData
  | bytes (b : Bytes)
  | double (value : ℚ)
  | chars (s : List Char)

def nul : Char := Char.ofNat 0

/-- The view of a list of strings is left out. -/
def Value.rawData : Value → Option RawData
  | UI _ value => some (.bytes (encode 8 value.toNat))
  | SI _ value => some (.bytes (encode 8 value.toUInt64.toNat))
  | F8 value => some (.double value.value)
  | DateVal value => some (.bytes (encode 4 value.toUInt32.toNat))
  | StringVal value => some (.chars (value ++ [nul]))
  | StringList _ => none

/-- What a primitive reads that knows the type. -/
def load : IRType → RawData → Option Datum
  | .unsignedInt size, .bytes b => some (.integer (decode (b.take size)))
  | .signedInt size, .bytes b => some (.integer (Int.bmod (decode (b.take size)) (2 ^ (8 * size))))
  | .date, .bytes b => some (.integer (Int.bmod (decode (b.take 4)) (2 ^ 32)))
  | .float 8, .double value => some (.floating value)
  | .string, .chars s => some (.chars (s.takeWhile (· ≠ nul)))
  | _, _ => none

/-- What a variable of the type holds after it was assigned the constant. -/
def convert : IRType → Constant → Option Datum
  | .unsignedInt size, .integer n => some (.integer (n % 2 ^ (8 * size)))
  | .signedInt size, .integer n => some (.integer (n.bmod (2 ^ (8 * size))))
  | .date, .integer n => some (.integer (n.bmod (2 ^ 32)))
  | .float 8, .floating value => some (.floating value)
  | .string, .string s => some (.chars (s.takeWhile (· ≠ nul)))
  | _, _ => none

/-- Compiled code has the constant that the interpreter reads. -/
def Value.Agrees (value : Value) : Prop :=
  ∃ text data d, value.str = some text ∧ value.rawData = some data ∧
    (readConstant text).bind (convert value.getType) = some d ∧ load value.getType data = some d

section Integers

theorem readConstant_integer {n : ℤ} (hlow : -2 ^ 63 ≤ n) (hhigh : n < 2 ^ 64) :
    ∃ m : ℤ, readConstant (stdToString n) = some (.integer m) ∧ m ≡ n [ZMOD 2 ^ 64] := by
  have hlex : lex (stdToString n) = some (integer n).tokens := by
    apply LexesTo.lex_eq
    apply lexesTo_integer
    intro c hc
    cases hc
  cases n with
  | ofNat n =>
    have hn : n < 2 ^ 64 := by
      have hcast : (n : ℤ) < 2 ^ 64 := hhigh
      exact_mod_cast hcast
    refine ⟨n, ?_, Int.ModEq.refl _⟩
    rw [readConstant, hlex]
    exact numberConstant_toDigits hn
  | negSucc n =>
    have hn : n + 1 ≤ 2 ^ 63 := by omega
    refine ⟨if ((n + 1 : ℕ) : ℤ) < 2 ^ 63 then -((n + 1 : ℕ) : ℤ) else 2 ^ 64 - ((n + 1 : ℕ) : ℤ),
      ?_, ?_⟩
    · rw [readConstant, hlex]
      show (numberConstant (Nat.toDigits 10 (n + 1))).bind Constant.negate = _
      rw [numberConstant_toDigits (by omega)]
      rfl
    · split
      · exact Int.ModEq.refl _
      · rw [Int.modEq_iff_dvd]
        exact ⟨-1, by omega⟩

theorem decode_take {w size : ℕ} (h : size ≤ w) (n : ℕ) :
    decode ((encode w n).take size) = n % 2 ^ (8 * size) := by
  obtain ⟨k, rfl⟩ := Nat.exists_eq_add_of_le h
  have hpow : 2 ^ (8 * size) = 256 ^ size := pow_mul 2 8 size
  rw [encode_append, List.take_left' (encode_length size n), decode_encode, hpow]

theorem bmod_congr {a b : ℤ} {m : ℕ} (h : a ≡ b [ZMOD m]) : a.bmod m = b.bmod m := by
  rw [← Int.emod_bmod a, ← Int.emod_bmod b, h.eq]

theorem bytes_le (size : IntSize) : size.bytes ≤ 8 := by
  cases size <;> decide

/-- Constants are known up to the width of the largest type. -/
theorem modEq_size {a b : ℤ} (h : a ≡ b [ZMOD 2 ^ 64]) (size : IntSize) :
    a ≡ b [ZMOD 2 ^ (8 * size.bytes)] := by
  apply h.of_dvd
  apply pow_dvd_pow
  have hle := bytes_le size
  omega

theorem agrees_UI (size : IntSize) (value : UInt64) : (Value.UI size value).Agrees := by
  have hlt : (value.toNat : ℤ) < 2 ^ 64 := by exact_mod_cast value.toNat_lt
  obtain ⟨m, hread, hm⟩ := readConstant_integer (by omega) hlt
  refine ⟨_, _, _, rfl, rfl, ?_, rfl⟩
  rw [hread]
  show some (Datum.integer (m % 2 ^ (8 * size.bytes))) = _
  rw [(modEq_size hm size).eq, decode_take (bytes_le size)]
  push_cast
  rfl

theorem toUInt64_modEq (value : Int64) :
    (value.toUInt64.toNat : ℤ) ≡ value.toInt [ZMOD 2 ^ 64] := by
  have hint : value.toInt = Int.bmod value.toUInt64.toNat (2 ^ 64) :=
    BitVec.toInt_eq_toNat_bmod value.toBitVec
  rw [Int.modEq_iff_dvd, hint]
  exact Int.dvd_bmod_sub_self

theorem agrees_SI (size : IntSize) (value : Int64) : (Value.SI size value).Agrees := by
  have hlow := value.le_toInt
  have hhigh := value.toInt_lt
  obtain ⟨m, hread, hm⟩ := readConstant_integer hlow (by omega)
  refine ⟨_, _, _, rfl, rfl, ?_, rfl⟩
  rw [hread]
  show some (Datum.integer (m.bmod (2 ^ (8 * size.bytes)))) = _
  rw [decode_take (bytes_le size)]
  congr 2
  apply bmod_congr
  push_cast
  exact (modEq_size (hm.trans (toUInt64_modEq value).symm) size).trans (Int.mod_modEq _ _).symm

theorem agrees_DateVal (value : Int32) : (Value.DateVal value).Agrees := by
  have hlow := value.le_toInt
  have hhigh := value.toInt_lt
  obtain ⟨m, hread, hm⟩ := readConstant_integer (n := value.toInt) (by omega) (by omega)
  refine ⟨_, _, _, rfl, rfl, ?_, rfl⟩
  rw [hread]
  show some (Datum.integer (m.bmod (2 ^ 32))) = _
  have hint : value.toInt = Int.bmod value.toUInt32.toNat (2 ^ 32) :=
    BitVec.toInt_eq_toNat_bmod value.toBitVec
  have hdvd : (2 ^ 32 : ℤ) ∣ 2 ^ 64 := by decide
  have hbytes : decode ((encode 4 value.toUInt32.toNat).take 4) = value.toUInt32.toNat := by
    rw [decode_take (Nat.le_refl 4), Nat.mod_eq_of_lt value.toUInt32.toNat_lt]
  rw [hbytes, bmod_congr (hm.of_dvd hdvd), hint, Int.bmod_bmod]

end Integers

section Doubles

def fixedDigits (value : ℚ) : List Char :=
  let scaled := (roundHalfEven (|value| * 10 ^ 6)).toNat
  Nat.toDigits 10 (scaled / 10 ^ 6) ++ '.' :: (Nat.toDigits 10 (scaled % 10 ^ 6)).leftpad 6 '0'

theorem stdToFixed_eq (value : ℚ) :
    stdToFixed value = (if value < 0 then ['-'] else []) ++ fixedDigits value := by
  rw [stdToFixed, fixedDigits]
  exact List.append_assoc ..

theorem leftpad_isDigit (n : ℕ) : ∀ c ∈ (Nat.toDigits 10 n).leftpad 6 '0', c.isDigit = true := by
  intro c hc
  rw [List.leftpad, List.mem_append] at hc
  rcases hc with hc | hc
  · rw [List.eq_of_mem_replicate hc]
    rfl
  · exact Nat.isDigit_of_mem_toDigits (by decide) (by decide) hc

theorem leftpad_value {n : ℕ} (hn : n < 10 ^ 6) :
    ((Nat.toDigits 10 n).leftpad 6 '0').length = 6 ∧
      Nat.ofDigitChars 10 ((Nat.toDigits 10 n).leftpad 6 '0') 0 = n := by
  have hle := (Nat.length_toDigits_le_iff (by decide) (by decide)).mpr hn
  rw [List.length_leftpad, List.leftpad, Nat.ofDigitChars_append, Nat.ofDigitChars_replicate_zero,
    Nat.mul_zero, Nat.ofDigitChars_ten_toDigits]
  exact ⟨by omega, rfl⟩

theorem numberConstant_fixed (value : ℚ) : numberConstant (fixedDigits value) =
    (roundToBinary64 (toMillionths |value|)).map .floating := by
  obtain ⟨scaled, hscaled⟩ : ∃ n, n = (roundHalfEven (|value| * 10 ^ 6)).toNat := ⟨_, rfl⟩
  have hnonneg := roundHalfEven_nonneg (by positivity : 0 ≤ |value| * 10 ^ 6)
  have hmillionths : toMillionths |value| = scaled / 10 ^ 6 := by
    rw [toMillionths, hscaled]
    congr 1
    exact_mod_cast (Int.toNat_of_nonneg hnonneg).symm
  obtain ⟨hlength, hvalue⟩ := leftpad_value (Nat.mod_lt scaled (by decide : 0 < 10 ^ 6))
  have hdecimal : decimalValue (Nat.toDigits 10 (scaled / 10 ^ 6))
      ((Nat.toDigits 10 (scaled % 10 ^ 6)).leftpad 6 '0') = scaled / 10 ^ 6 := by
    rw [decimalValue, hlength, Nat.ofDigitChars_append, Nat.ofDigitChars_eq_ofDigitChars_zero,
      hlength, hvalue, Nat.ofDigitChars_ten_toDigits, Nat.div_add_mod]
  rw [fixedDigits, ← hscaled, hmillionths, ← hdecimal]
  apply numberConstant_decimal (isDecimal_toDigits _)
  rw [List.all_eq_true]
  exact leftpad_isDigit _

theorem readConstant_fixed (value : ℚ) : readConstant (stdToFixed value) =
    (roundToBinary64 (toMillionths |value|)).map fun q =>
      .floating (if value < 0 then -q else q) := by
  have hfraction : ((Nat.toDigits 10 ((roundHalfEven (|value| * 10 ^ 6)).toNat % 10 ^ 6)).leftpad 6
      '0').all (·.isDigit) = true := List.all_eq_true.mpr (leftpad_isDigit _)
  have hpoint : LexesTo (fixedDigits value) [.number (fixedDigits value)] [] :=
    lexesTo_point (isDecimal_toDigits _) hfraction
  rw [stdToFixed_eq, readConstant]
  by_cases hneg : value < 0
  · have hminus : LexesTo ['-'] [.punct ['-']] (fixedDigits value ++ []) := by
      rw [List.append_nil]
      exact lexesTo_minus (isDecimal_toDigits _)
    have hlex : lex (['-'] ++ fixedDigits value) =
        some [.punct ['-'], .number (fixedDigits value)] := (hminus.append hpoint).lex_eq
    rw [if_pos hneg, hlex]
    simp only [numberConstant_fixed, if_pos hneg]
    cases roundToBinary64 (toMillionths |value|) <;> rfl
  · have hlex : lex ([] ++ fixedDigits value) = some [.number (fixedDigits value)] :=
      hpoint.lex_eq
    rw [if_neg hneg, hlex]
    simp only [numberConstant_fixed, if_neg hneg]

theorem agrees_F8_iff (value : Binary64) : (Value.F8 value).Agrees ↔
    ∃ k : ℕ, roundToBinary64 (k / 10 ^ 6) = some |value.value| := by
  rw [← round_toMillionths_iff value.finite.abs (abs_nonneg _)]
  constructor
  · intro h
    obtain ⟨_, _, _, htext, hdata, hread, hload⟩ := h
    cases htext
    cases hdata
    cases hload
    rw [readConstant_fixed, Option.bind_eq_some_iff] at hread
    obtain ⟨c, hc, hconvert⟩ := hread
    obtain ⟨q, hq, rfl⟩ := Option.map_eq_some_iff.mp hc
    obtain hsign : (if value.value < 0 then -q else q) = value.value :=
      Datum.floating.inj (Option.some.inj hconvert)
    rw [hq, Option.some.injEq]
    split at hsign
    · next hneg => rw [abs_of_neg hneg, ← hsign, neg_neg]
    · next hneg => rw [abs_of_nonneg (not_lt.mp hneg), hsign]
  · intro hround
    refine ⟨_, _, _, rfl, rfl, ?_, rfl⟩
    rw [readConstant_fixed, hround]
    show some (Datum.floating (if value.value < 0 then -|value.value| else |value.value|)) = _
    split
    · next hneg => rw [abs_of_neg hneg, neg_neg]
    · next hneg => rw [abs_of_nonneg (not_lt.mp hneg)]

end Doubles

section Strings

theorem agrees_StringVal_iff {s : List Char} (hnul : nul ∉ s) :
    (Value.StringVal s).Agrees ↔ ∀ c ∈ s, isPlain c = true := by
  have hkeep : ∀ c ∈ s, decide (c ≠ nul) = true :=
    fun c hc => decide_eq_true fun heq => hnul (heq ▸ hc)
  have hload : (s ++ [nul]).takeWhile (· ≠ nul) = s := by
    rw [List.takeWhile_append_of_pos hkeep]
    exact List.append_nil s
  constructor
  · intro h
    obtain ⟨_, _, d, htext, hdata, hread, hd⟩ := h
    cases htext
    cases hdata
    obtain ⟨c, hc, hconvert⟩ := Option.bind_eq_some_iff.mp hread
    cases c with
    | string s' =>
      have hsame : s'.takeWhile (· ≠ nul) = s := by
        have heq := Option.some.inj (hconvert.trans hd.symm)
        rw [Datum.chars.injEq, hload] at heq
        exact heq
      apply plain_of_readConstant hc
      rw [← hsame]
      exact (List.takeWhile_prefix _).length_le
    | integer n => cases hconvert
    | floating q => cases hconvert
  · intro hplain
    refine ⟨_, _, _, rfl, rfl, ?_, rfl⟩
    rw [readConstant, lex_string hplain]
    show some (Datum.chars (s.takeWhile (· ≠ nul))) = some (Datum.chars _)
    rw [hload, List.takeWhile_eq_self_iff.mpr hkeep]

end Strings

/-- The literal is read as the value that was written. -/
def Value.writtenExactly : Value → Prop
  | F8 value => ∃ k : ℕ, roundToBinary64 (k / 10 ^ 6) = some |value.value|
  | StringVal s => ∀ c ∈ s, isPlain c = true
  | _ => True

/-- Doubles agree if they are next to a decimal with six digits behind the point, and strings if
they have no quotes, backslashes and line ends. -/
theorem constant_agrees_iff (value : Value) (hinline : value.supportsInlining = true)
    (hnul : ∀ s, value = .StringVal s → nul ∉ s) : value.Agrees ↔ value.writtenExactly := by
  cases value with
  | UI size value => exact iff_of_true (agrees_UI size value) trivial
  | SI size value => exact iff_of_true (agrees_SI size value) trivial
  | F8 value => exact agrees_F8_iff value
  | DateVal value => exact iff_of_true (agrees_DateVal value) trivial
  | StringVal s => exact agrees_StringVal_iff (hnul s rfl)
  | StringList strings => cases hinline

theorem one_half_agrees : ∃ half : Binary64, half.value = 1 / 2 ∧ (Value.F8 half).Agrees := by
  have hfinite : IsBinary64 (1 / 2) := ⟨1, -1, by decide, by decide, by decide, by norm_num⟩
  refine ⟨⟨1 / 2, hfinite⟩, rfl, ?_⟩
  apply (constant_agrees_iff (.F8 ⟨1 / 2, hfinite⟩) rfl fun s h => by cases h).mpr
  refine ⟨500000, ?_⟩
  have hhalf : ((500000 : ℕ) : ℚ) / 10 ^ 6 = 1 / 2 := by norm_num
  rw [hhalf, abs_of_pos (by norm_num : (0 : ℚ) < 1 / 2)]
  exact round_self hfinite (by norm_num)

/-- A backslash before a letter is a line end to the compiled code, and a small number is zero. -/
theorem baked_constants_differ :
    (Value.StringVal ['\\', 'n']).str = some ['"', '\\', 'n', '"'] ∧
      readConstant ['"', '\\', 'n', '"'] = some (.string ['\n']) ∧
      ¬ (Value.StringVal ['\\', 'n']).Agrees ∧
      ∃ small : Binary64, small.value = 1 / 2 ^ 24 ∧
        (Value.F8 small).str = some "0.000000".toList ∧ ¬ (Value.F8 small).Agrees := by
  have hfinite : IsBinary64 (1 / 2 ^ 24) := ⟨1, -24, by decide, by decide, by decide, by norm_num⟩
  have habs : |(1 / 2 ^ 24 : ℚ)| = 1 / 2 ^ 24 := abs_of_pos (by norm_num)
  have hscaled : roundHalfEven (1 / 2 ^ 24 * 10 ^ 6) = 0 := by
    apply roundHalfEven_eq
    rw [Int.cast_zero, sub_zero, abs_of_pos (by norm_num)]
    norm_num
  refine ⟨rfl, rfl, ?_, ⟨1 / 2 ^ 24, hfinite⟩, rfl, ?_, ?_⟩
  · rw [agrees_StringVal_iff (by decide)]
    intro h
    cases h '\\' List.mem_cons_self
  · have hsign : ¬ (1 / 2 ^ 24 : ℚ) < 0 := by norm_num
    show some (stdToFixed (1 / 2 ^ 24)) = _
    rw [stdToFixed_eq, fixedDigits, habs, hscaled, if_neg hsign]
    rfl
  · rw [agrees_F8_iff]
    show ¬ ∃ k : ℕ, roundToBinary64 (k / 10 ^ 6) = some |1 / 2 ^ 24|
    rw [← round_toMillionths_iff hfinite.abs (abs_nonneg _), habs, toMillionths, hscaled]
    intro h
    have hzero := round_cases h
    have hround : roundHalfEven ((0 : ℚ) / 2 ^ ulpExponent 0) = 0 := by
      apply roundHalfEven_eq
      norm_num
    rw [Int.cast_zero, zero_div, hround, Int.cast_zero, zero_mul] at hzero
    norm_num at hzero

end InkFuse.Codegen
