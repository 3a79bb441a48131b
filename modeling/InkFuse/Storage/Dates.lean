import InkFuse.Storage.Printing
import Mathlib.Tactic.IntervalCases

/-!
The text of a date with a year of four digits is read as that date again.
-/

namespace InkFuse.Storage

open Bytes

section Calendar

/-- The days of an era of 400 years in centuries, four years each, and years. Days are counted from
March on: a year has a day of number 365 only if the next February is in a leap year. -/
theorem split_days {doe : ℕ} (h : doe ≤ 146096) :
    ∃ a b c doy, a ≤ 3 ∧ b ≤ 24 ∧ c ≤ 3 ∧ doy ≤ 365 ∧ (doy = 365 → c = 3 ∧ (b = 24 → a = 3)) ∧
      doe = 36524 * a + 1461 * b + 365 * c + doy := by
  obtain ⟨a, ha⟩ : ∃ a, a = min (doe / 36524) 3 := ⟨_, rfl⟩
  obtain ⟨r, hr⟩ : ∃ r, r = doe - 36524 * a := ⟨_, rfl⟩
  obtain ⟨b, hb⟩ : ∃ b, b = r / 1461 := ⟨_, rfl⟩
  obtain ⟨q, hq⟩ : ∃ q, q = r - 1461 * b := ⟨_, rfl⟩
  obtain ⟨c, hc⟩ : ∃ c, c = min (q / 365) 3 := ⟨_, rfl⟩
  refine ⟨a, b, c, q - 365 * c, ?_⟩
  omega

variable {a b c doy doe : ℕ}

theorem yearOfEra (ha : a ≤ 3) (hb : b ≤ 24) (hc : c ≤ 3) (hdoy : doy ≤ 365)
    (hleap : doy = 365 → c = 3 ∧ (b = 24 → a = 3))
    (hdoe : doe = 36524 * a + 1461 * b + 365 * c + doy) :
    (doe - doe / 1460 + doe / 36524 - doe / 146096) / 365 = 100 * a + 4 * b + c := by
  have hfours : doe / 1460 = 25 * a + b + (24 * a + b + 365 * c + doy) / 1460 := by omega
  have hcenturies : doe / 36524 = a + (1461 * b + 365 * c + doy) / 36524 := by omega
  have hera : doe / 146096 = (1461 * b + 365 * c + doy) / 36524 := by omega
  rw [hfours, hcenturies, hera]
  omega

/-- The first day of a year of the era. -/
theorem startOfYear (hb : b ≤ 24) (hc : c ≤ 3) :
    365 * (100 * a + 4 * b + c) + (100 * a + 4 * b + c) / 4 - (100 * a + 4 * b + c) / 100 =
      36524 * a + 1461 * b + 365 * c := by
  have hfours : (100 * a + 4 * b + c) / 4 = 25 * a + b := by omega
  have hcenturies : (100 * a + 4 * b + c) / 100 = a := by omega
  rw [hfours, hcenturies]
  omega

theorem isLeap_next (era : ℤ) (hb : b ≤ 24) (h : c = 3 ∧ (b = 24 → a = 3)) :
    isLeap (((100 * a + 4 * b + c : ℕ) : ℤ) + era * 400 + 1) = true := by
  unfold isLeap
  rw [Bool.and_eq_true, Bool.or_eq_true, decide_eq_true_eq, decide_eq_true_eq, decide_eq_true_eq]
  omega

variable {yoe m d mp : ℕ} {era y : ℤ}

theorem toDays_eq (hyoe : yoe ≤ 399) (hmp : (if 2 < m then m - 3 else m + 9) = mp)
    (hd : (153 * mp + 2) / 5 + d - 1 = doy)
    (hdoe : 365 * yoe + yoe / 4 - yoe / 100 + doy = doe) :
    toDays ((yoe : ℤ) + era * 400 + if m ≤ 2 then 1 else 0) m d = era * 146097 + doe - 719468 := by
  have hy : (yoe : ℤ) + era * 400 + (if m ≤ 2 then 1 else 0) - (if m ≤ 2 then 1 else 0) =
      yoe + era * 400 := by
    omega
  have hera : ((yoe : ℤ) + era * 400) / 400 = era := by omega
  unfold toDays
  simp only [hy, hera, hmp, hd]
  omega

theorem month_of_mp (hle : mp ≤ 11) (hm : m = if mp < 10 then mp + 3 else mp - 9) :
    1 ≤ m ∧ m ≤ 12 ∧ (if 2 < m then m - 3 else m + 9) = mp ∧ (mp = 11 → m = 2) := by
  rw [hm]
  interval_cases mp <;> decide

/-- The months but February, in the order from March on. -/
theorem lastDay_eq (hle : mp ≤ 10) (hm : m = if mp < 10 then mp + 3 else mp - 9) :
    lastDay y m = (153 * (mp + 1) + 2) / 5 - (153 * mp + 2) / 5 := by
  rw [hm]
  interval_cases mp <;> rfl

theorem day_le_lastDay (hdoy : doy ≤ 365) (hmp : mp = (5 * doy + 2) / 153)
    (hm : m = if mp < 10 then mp + 3 else mp - 9)
    (hleap : doy = 365 → isLeap y = true) :
    doy - (153 * mp + 2) / 5 + 1 ≤ lastDay y m := by
  have hle : mp ≤ 11 := by omega
  by_cases hfebruary : mp = 11
  · rw [(month_of_mp hle hm).2.2.2 hfebruary]
    subst hfebruary
    show doy - 337 + 1 ≤ if isLeap y = true then 29 else 28
    split
    · omega
    · next hcommon =>
      have hne : doy ≠ 365 := fun h => hcommon (hleap h)
      omega
  · rw [lastDay_eq (by omega) hm]
    clear hm
    omega

/-- The date that `fromDays` finds, before its year is cut to sixteen bits. -/
theorem exists_date (dp : ℤ) :
    ∃ (y : ℤ) (m d : ℕ), fromDays dp = ((y + 2 ^ 15) % 2 ^ 16 - 2 ^ 15, m, d) ∧
      1 ≤ m ∧ m ≤ 12 ∧ 1 ≤ d ∧ d ≤ lastDay y m ∧ toDays y m d = dp := by
  obtain ⟨era, hera⟩ : ∃ era, era = (dp + 719468) / 146097 := ⟨_, rfl⟩
  obtain ⟨doe, hdoe⟩ : ∃ doe, doe = (dp + 719468 - era * 146097).toNat := ⟨_, rfl⟩
  have hdp : era * 146097 + doe - 719468 = dp := by omega
  have hdoe_le : doe ≤ 146096 := by omega
  obtain ⟨a, b, c, doy, ha, hb, hc, hdoy, hleap, hsplit⟩ := split_days hdoe_le
  obtain ⟨yoe, hyoe⟩ : ∃ yoe, yoe = 100 * a + 4 * b + c := ⟨_, rfl⟩
  obtain ⟨mp, hmp⟩ : ∃ mp, mp = (5 * doy + 2) / 153 := ⟨_, rfl⟩
  obtain ⟨m, hm⟩ : ∃ m, m = if mp < 10 then mp + 3 else mp - 9 := ⟨_, rfl⟩
  have hyear : (doe - doe / 1460 + doe / 36524 - doe / 146096) / 365 = yoe :=
    hyoe ▸ yearOfEra ha hb hc hdoy hleap hsplit
  have hstart : 365 * yoe + yoe / 4 - yoe / 100 + doy = doe := by
    rw [hyoe, startOfYear hb hc, hsplit]
  have hday : doe - (365 * yoe + yoe / 4 - yoe / 100) = doy := by
    rw [← hstart, Nat.add_sub_cancel_left]
  have hmonth := month_of_mp (by omega) hm
  refine ⟨(yoe : ℤ) + era * 400 + if m ≤ 2 then 1 else 0, m, doy - (153 * mp + 2) / 5 + 1, ?_,
    hmonth.1, hmonth.2.1, Nat.le_add_left _ _, ?_, ?_⟩
  · unfold fromDays
    simp only [← hera, ← hdoe, hyear, hday, ← hmp, ← hm]
  · apply day_le_lastDay hdoy hmp hm
    intro hlast
    have hnext := isLeap_next era hb (hleap hlast)
    rw [← hyoe] at hnext
    have hfebruary : m = 2 := hmonth.2.2.2 (by omega)
    rw [if_pos (Nat.le_of_eq hfebruary)]
    exact hnext
  · have hdoy_eq : (153 * mp + 2) / 5 + (doy - (153 * mp + 2) / 5 + 1) - 1 = doy := by
      omega
    have hyoe_le : yoe ≤ 399 := by omega
    rw [toDays_eq hyoe_le hmonth.2.2.1 hdoy_eq hstart, hdp]

end Calendar

section Reading

variable {n k : ℕ} {rest : Bytes}

def padded (k n : ℕ) : List Char := (Nat.toDigits 10 n).leftpad k '0'

theorem padded_isDigit (k n : ℕ) : ∀ c ∈ padded k n, c.isDigit = true := by
  intro c hc
  rcases List.mem_append.mp hc with hzero | hdigit
  · rw [List.eq_of_mem_replicate hzero]
    decide
  · exact toDigits_isDigit c hdigit

theorem padded_length (hk : 0 < k) (hn : n < 10 ^ k) : (padded k n).length = k := by
  have hle := (Nat.length_toDigits_le_iff (by decide) hk).mpr hn
  unfold padded
  rw [List.length_leftpad]
  exact Nat.max_eq_left hle

theorem number_padded (k n : ℕ) : number (ascii (padded k n)) = n := by
  rw [number_ascii (padded_isDigit k n)]
  show Nat.ofDigitChars 10 (List.replicate _ '0' ++ Nat.toDigits 10 n) 0 = n
  rw [Nat.ofDigitChars_append, Nat.ofDigitChars_replicate_zero, Nat.mul_zero,
    Nat.ofDigitChars_ten_toDigits]

theorem readUnsigned_padded (hk : 0 < k) (hn : n < 10 ^ k) :
    readUnsigned k (ascii (padded k n) ++ rest) = some (n, rest) := by
  have hlen : (ascii (padded k n)).length = k := by
    unfold ascii
    rw [List.length_map, padded_length hk hn]
  have htake : ((ascii (padded k n) ++ rest).take k).takeWhile isDigit = ascii (padded k n) := by
    rw [List.take_left' hlen]
    exact List.takeWhile_eq_self_iff.mpr (digits_of_ascii (padded_isDigit k n))
  have hne : ascii (padded k n) ≠ [] := by
    intro h
    rw [h] at hlen
    exact hk.ne hlen
  unfold readUnsigned
  simp only [htake, hne, if_false, number_padded, List.drop_left]

/-- Digits are no sign. -/
theorem readSign_padded (hk : 0 < k) (hn : n < 10 ^ k) :
    readSign (ascii (padded k n) ++ rest) = (false, ascii (padded k n) ++ rest) := by
  cases hdigits : padded k n with
  | nil =>
    have hlen := padded_length hk hn
    rw [hdigits] at hlen
    exact absurd hlen hk.ne
  | cons c text =>
    have hc := padded_isDigit k n c (hdigits ▸ List.mem_cons_self ..)
    have hsign := isSign_of_isDigit (ascii_digitChar hc).1
    show (if isSign c.toUInt8 = true then _ else _) = _
    rw [hsign, if_neg Bool.false_ne_true]

theorem readSigned_padded (hk : 0 < k) (hn : n < 10 ^ k) :
    readSigned k (ascii (padded k n) ++ rest) = some ((n : ℤ), rest) := by
  unfold readSigned
  rw [readSign_padded hk hn]
  simp only [readUnsigned_padded hk hn, Option.map_some]
  rfl

theorem readSigned_yearText {y : ℤ} (hy : y.natAbs < 10 ^ 4) :
    readSigned 4 (ascii (yearText y) ++ rest) = some (y, rest) := by
  unfold yearText
  by_cases hneg : y < 0
  · rw [if_pos hneg]
    have hsign : readSign (ascii (['-'] ++ padded 4 y.natAbs) ++ rest) =
        (true, ascii (padded 4 y.natAbs) ++ rest) := rfl
    change readSigned 4 (ascii (['-'] ++ padded 4 y.natAbs) ++ rest) = _
    unfold readSigned
    rw [hsign]
    simp only [readUnsigned_padded (by decide) hy, Option.map_some]
    have hvalue : signed true y.natAbs = y := by
      show -(y.natAbs : ℤ) = y
      omega
    rw [hvalue]
  · rw [if_neg hneg, List.nil_append]
    have hread : readSigned 4 (ascii (padded 4 y.natAbs) ++ rest) = some ((y.natAbs : ℤ), rest) :=
      readSigned_padded (by decide) hy
    have hvalue : (y.natAbs : ℤ) = y := by omega
    rw [hvalue] at hread
    exact hread

theorem fromStream_text {y : ℤ} {m d : ℕ} (hy : y.natAbs < 10 ^ 4) (hm : m < 10 ^ 2)
    (hd : d < 10 ^ 2) :
    fromStream (ascii (yearText y ++ '-' :: padded 2 m ++ '-' :: padded 2 d)) =
      some (y, (m : ℤ), (d : ℤ)) := by
  have htext : ascii (yearText y ++ '-' :: padded 2 m ++ '-' :: padded 2 d) =
      ascii (yearText y) ++ '-'.toUInt8 :: (ascii (padded 2 m) ++ '-'.toUInt8 ::
        (ascii (padded 2 d) ++ [])) := by
    simp [ascii]
  rw [htext]
  unfold fromStream
  simp only [Option.bind_eq_bind, readSigned_yearText hy, Option.bind_some, readChar, if_true,
    readSigned_padded (by decide : 0 < 2) hm, readSigned_padded (by decide : 0 < 2) hd]

/-- The dates from -9999-01-01 to 9999-12-31 have years of at most four digits. -/
theorem year_bounds {y : ℤ} {m d : ℕ} (hm : 1 ≤ m) (hm' : m ≤ 12) (hd : 1 ≤ d) (hd' : d ≤ 31)
    (hlow : -4371587 ≤ toDays y m d) (hhigh : toDays y m d ≤ 2932896) : y.natAbs < 10 ^ 4 := by
  unfold toDays at hlow hhigh
  -- The days before a month, counted from March on.
  by_cases hjanuary : m ≤ 2
  · have hbefore : (153 * (if 2 < m then m - 3 else m + 9) + 2) / 5 ≤ 337 ∧
        306 ≤ (153 * (if 2 < m then m - 3 else m + 9) + 2) / 5 := by
      rw [if_neg (by omega)]
      omega
    simp only [if_pos hjanuary] at hlow hhigh
    generalize (153 * (if 2 < m then m - 3 else m + 9) + 2) / 5 = before at *
    omega
  · have hbefore : (153 * (if 2 < m then m - 3 else m + 9) + 2) / 5 ≤ 275 := by
      rw [if_pos (by omega)]
      omega
    simp only [if_neg hjanuary] at hlow hhigh
    generalize (153 * (if 2 < m then m - 3 else m + 9) + 2) / 5 = before at *
    omega

/-- The library reads the text of a date again if its year has at most four digits. -/
theorem representable_of_year {date : ℤ} (hlow : -4371587 ≤ date) (hhigh : date ≤ 2932896) :
    Representable date := by
  obtain ⟨y, m, d, hdate, hm, hm', hd, hlast, hdays⟩ := exists_date date
  have hle : lastDay y m ≤ 31 := by
    unfold lastDay
    split
    · split <;> decide
    · split <;> decide
  have hy : y.natAbs < 10 ^ 4 :=
    year_bounds hm hm' hd (hlast.trans hle) (hdays ▸ hlow) (hdays ▸ hhigh)
  have hwrap : (y + 2 ^ 15) % 2 ^ 16 - 2 ^ 15 = y := by omega
  have htext : dateIntToStr date = yearText y ++ '-' :: padded 2 m ++ '-' :: padded 2 d := by
    unfold dateIntToStr
    rw [hdate, hwrap]
    exact if_neg (by omega)
  unfold Representable dateStrToInt
  rw [htext, fromStream_text hy (by omega) (by omega)]
  have hmonth : ((m : ℤ) % 256).toNat = m := by omega
  have hday : ((d : ℤ) % 256).toNat = d := by omega
  simp only [hmonth, hday]
  rw [if_pos ⟨hm, hm', hd, hlast⟩, hdays]

end Reading

end InkFuse.Storage
