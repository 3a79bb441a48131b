import InkFuse.Float.Binary64
import Mathlib.Data.Int.Log

/-!
Rounding to the nearest number of binary64, and decimals with six digits behind the point.
-/

namespace InkFuse.Float

/-- The numbers of the format around `q` are multiples of two to this power. -/
def ulpExponent (q : ℚ) : ℤ := max (Int.log 2 |q| - 52) (-1074)

def rounded (q : ℚ) : ℚ := roundHalfEven (q / 2 ^ ulpExponent q) * 2 ^ ulpExponent q

/-- The nearest number of the format, the one with an even significand of two. There is none for
what is rounded to infinity. -/
def roundToBinary64 (q : ℚ) : Option ℚ :=
  if |rounded q| < 2 ^ 1024 then some (rounded q) else none

section Integers

theorem abs_sub_roundHalfEven (x : ℚ) : |x - roundHalfEven x| ≤ 1 / 2 := by
  have hnonneg := Int.fract_nonneg x
  have hlt := Int.fract_lt_one x
  have hfract : Int.fract x = x - ⌊x⌋ := rfl
  unfold roundHalfEven
  rw [abs_le]
  split_ifs <;> push_cast <;> constructor <;> linarith

theorem roundHalfEven_eq {x : ℚ} {m : ℤ} (h : |x - m| < 1 / 2) : roundHalfEven x = m := by
  have hround := abs_sub_roundHalfEven x
  rw [abs_le] at hround
  rw [abs_lt] at h
  have hlow : (m : ℚ) - 1 < roundHalfEven x := by linarith
  have hhigh : (roundHalfEven x : ℚ) < m + 1 := by linarith
  have hlow' : m - 1 < roundHalfEven x := by exact_mod_cast hlow
  have hhigh' : roundHalfEven x < m + 1 := by exact_mod_cast hhigh
  omega

theorem roundHalfEven_nonneg {x : ℚ} (h : 0 ≤ x) : 0 ≤ roundHalfEven x := by
  have hround := abs_sub_roundHalfEven x
  rw [abs_le] at hround
  have hlow : (-1 : ℚ) < roundHalfEven x := by linarith
  have hlow' : -1 < roundHalfEven x := by exact_mod_cast hlow
  omega

end Integers

section Round

theorem two_zpow_pos (e : ℤ) : (0 : ℚ) < 2 ^ e := zpow_pos (by norm_num) e

theorem round_cases {q r : ℚ} (h : roundToBinary64 q = some r) :
    r = roundHalfEven (q / 2 ^ ulpExponent q) * 2 ^ ulpExponent q := by
  unfold roundToBinary64 at h
  split at h
  · exact (Option.some.inj h).symm
  · cases h

theorem abs_sub_round {q r : ℚ} (h : roundToBinary64 q = some r) :
    |q - r| ≤ 2 ^ ulpExponent q / 2 := by
  have hpos := two_zpow_pos (ulpExponent q)
  have hround := abs_sub_roundHalfEven (q / 2 ^ ulpExponent q)
  have hq : q - r = (q / 2 ^ ulpExponent q - roundHalfEven (q / 2 ^ ulpExponent q)) *
      2 ^ ulpExponent q := by
    rw [round_cases h, sub_mul, div_mul_cancel₀ _ hpos.ne']
  rw [hq, abs_mul, abs_of_pos hpos]
  calc _ ≤ 1 / 2 * (2 : ℚ) ^ ulpExponent q := by gcongr
    _ = 2 ^ ulpExponent q / 2 := by ring

/-- A number of the format that is near enough is the one that is found. -/
theorem round_eq {q r : ℚ} {m : ℤ} (hr : r = m * 2 ^ ulpExponent q)
    (hnear : |q - r| < 2 ^ ulpExponent q / 2) (hfinite : |r| < 2 ^ 1024) :
    roundToBinary64 q = some r := by
  have hpos := two_zpow_pos (ulpExponent q)
  have hround : roundHalfEven (q / 2 ^ ulpExponent q) = m := by
    apply roundHalfEven_eq
    have hq : q / 2 ^ ulpExponent q - m = (q - r) / 2 ^ ulpExponent q := by
      rw [hr, sub_div, mul_div_cancel_right₀ _ hpos.ne']
    rw [hq, abs_div, abs_of_pos hpos, div_lt_iff₀ hpos]
    linarith
  rw [roundToBinary64, rounded, hround, ← hr, if_pos hfinite]

theorem ulpExponent_eq {q : ℚ} {e : ℤ} (he : -1074 ≤ e) (hlow : 2 ^ (e + 52) ≤ q)
    (hhigh : q < 2 ^ (e + 53)) : ulpExponent q = e := by
  have hpos : 0 < q := lt_of_lt_of_le (two_zpow_pos _) hlow
  have hle : e + 52 ≤ Int.log 2 q := (Int.zpow_le_iff_le_log (by norm_num) hpos).mp
    (by exact_mod_cast hlow)
  have hlt : Int.log 2 q < e + 53 := (Int.lt_zpow_iff_log_lt (by norm_num) hpos).mp
    (by exact_mod_cast hhigh)
  rw [ulpExponent, abs_of_pos hpos]
  omega

/-- What is rounded to a smaller number is smaller itself. -/
theorem lt_of_round {q r : ℚ} {n : ℤ} (hn : -1022 ≤ n)
    (h : roundToBinary64 q = some r) (hr : r < 2 ^ n) : q < 2 ^ n := by
  by_contra hge
  have hle : (2 : ℚ) ^ n ≤ q := not_lt.mp hge
  have hpos : 0 < q := lt_of_lt_of_le (two_zpow_pos n) hle
  have hlog : n ≤ Int.log 2 q := (Int.zpow_le_iff_le_log (by norm_num) hpos).mp
    (by exact_mod_cast hle)
  have hexp : ulpExponent q = Int.log 2 q - 52 := by
    rw [ulpExponent, abs_of_pos hpos]
    omega
  have hulp := two_zpow_pos (ulpExponent q)
  have hself : (2 : ℚ) ^ Int.log 2 q ≤ q := by
    exact_mod_cast Int.zpow_log_le_self (by norm_num : 1 < 2) hpos
  have hsplit : (2 : ℚ) ^ Int.log 2 q = 2 ^ 52 * 2 ^ ulpExponent q := by
    rw [hexp, ← zpow_natCast, ← zpow_add₀ (by norm_num)]
    congr 1
    omega
  have hscaled : (2 : ℚ) ^ 52 ≤ q / 2 ^ ulpExponent q := by
    rw [le_div_iff₀ hulp, ← hsplit]
    exact hself
  have hround := abs_sub_roundHalfEven (q / 2 ^ ulpExponent q)
  rw [abs_le] at hround
  have hint : ((2 ^ 52 - 1 : ℤ) : ℚ) < roundHalfEven (q / 2 ^ ulpExponent q) := by
    push_cast
    linarith
  have hint' : (2 : ℤ) ^ 52 ≤ roundHalfEven (q / 2 ^ ulpExponent q) := by
    have hlt : 2 ^ 52 - 1 < roundHalfEven (q / 2 ^ ulpExponent q) := by exact_mod_cast hint
    omega
  have hfinal : (2 : ℚ) ^ n ≤ r := by
    calc (2 : ℚ) ^ n ≤ 2 ^ Int.log 2 q := zpow_le_zpow_right₀ (by norm_num) hlog
      _ = 2 ^ 52 * 2 ^ ulpExponent q := hsplit
      _ ≤ roundHalfEven (q / 2 ^ ulpExponent q) * 2 ^ ulpExponent q := by
        gcongr
        exact_mod_cast hint'
      _ = r := (round_cases h).symm
  exact absurd hr (not_lt.mpr hfinal)

theorem two_zpow_add (e : ℤ) (n : ℕ) : (2 : ℚ) ^ (e + n) = 2 ^ n * 2 ^ e := by
  rw [zpow_add₀ (by norm_num), zpow_natCast, mul_comm]

theorem IsBinary64.lt_two_pow {q : ℚ} (h : IsBinary64 q) : |q| < 2 ^ 1024 := by
  obtain ⟨m, e, hm, _, he, rfl⟩ := h
  have hpos := two_zpow_pos e
  have hm' : |(m : ℚ)| < 2 ^ 53 := by exact_mod_cast hm
  rw [abs_mul, abs_of_pos hpos]
  calc |(m : ℚ)| * 2 ^ e < 2 ^ 53 * 2 ^ e := by gcongr
    _ ≤ 2 ^ 53 * 2 ^ (971 : ℤ) := by
      gcongr
      · norm_num
    _ = 2 ^ (53 + 971) := (pow_add 2 53 971).symm

theorem IsBinary64.abs {q : ℚ} (h : IsBinary64 q) : IsBinary64 |q| := by
  obtain ⟨m, e, hm, hlow, hhigh, rfl⟩ := h
  refine ⟨|m|, e, by rwa [abs_abs], hlow, hhigh, ?_⟩
  rw [abs_mul, abs_of_pos (two_zpow_pos e), Int.cast_abs]

/-- The numbers of the format are multiples of their last place. -/
theorem IsBinary64.eq_ulps {q : ℚ} (h : IsBinary64 q) (hq : 0 < q) :
    ∃ m : ℤ, q = m * 2 ^ ulpExponent q := by
  obtain ⟨m, e, hm, hlow, _, heq⟩ := h
  have hpos := two_zpow_pos e
  have hm' : (m : ℚ) < 2 ^ 53 := by exact_mod_cast (abs_lt.mp hm).2
  have hlt : q < 2 ^ (e + 53) := by
    calc q = m * 2 ^ e := heq
      _ < 2 ^ 53 * 2 ^ e := by gcongr
      _ = 2 ^ (e + 53) := by
        rw [zpow_add₀ (by norm_num), mul_comm]
        norm_num
  have hlog : Int.log 2 q < e + 53 := (Int.lt_zpow_iff_log_lt (by norm_num) hq).mp
    (by exact_mod_cast hlt)
  have hle : ulpExponent q ≤ e := by
    rw [ulpExponent, abs_of_pos hq]
    omega
  obtain ⟨k, hk⟩ : ∃ k : ℕ, e = ulpExponent q + k := ⟨(e - ulpExponent q).toNat, by omega⟩
  have hpow : (2 : ℚ) ^ e = 2 ^ ulpExponent q * 2 ^ k := by
    rw [hk, zpow_add₀ (by norm_num), zpow_natCast]
  refine ⟨m * 2 ^ k, ?_⟩
  calc q = m * 2 ^ e := heq
    _ = (m * 2 ^ k : ℤ) * 2 ^ ulpExponent q := by
      rw [hpow]
      push_cast
      ring

/-- Nothing is lost of a number of the format. -/
theorem round_self {q : ℚ} (h : IsBinary64 q) (hq : 0 < q) : roundToBinary64 q = some q := by
  obtain ⟨m, hm⟩ := h.eq_ulps hq
  apply round_eq hm _ h.lt_two_pow
  rw [sub_self, abs_zero]
  exact half_pos (two_zpow_pos _)

/-- Numbers with all 53 digits. -/
theorem IsBinary64.normal {q : ℚ} (h : IsBinary64 q) {n : ℤ} (hn : -1022 ≤ n) (hq : 2 ^ n ≤ q) :
    ∃ m e : ℤ, q = m * 2 ^ e ∧ n - 52 ≤ e ∧ 2 ^ 52 ≤ m ∧ m < 2 ^ 53 := by
  have hpos : 0 < q := lt_of_lt_of_le (two_zpow_pos n) hq
  obtain ⟨m, hm⟩ := h.eq_ulps hpos
  have hlog : n ≤ Int.log 2 q := (Int.zpow_le_iff_le_log (by norm_num) hpos).mp
    (by exact_mod_cast hq)
  obtain ⟨e, he⟩ : ∃ e, e = ulpExponent q := ⟨_, rfl⟩
  have hexp : Int.log 2 q = e + 52 := by
    rw [he, ulpExponent, abs_of_pos hpos]
    omega
  rw [← he] at hm
  have hulp := two_zpow_pos e
  have hlow : (2 : ℚ) ^ (e + (52 : ℕ)) ≤ q := by
    have hle : (2 : ℚ) ^ Int.log 2 q ≤ q := by
      exact_mod_cast Int.zpow_log_le_self (by norm_num : 1 < 2) hpos
    rwa [hexp] at hle
  have hhigh : q < 2 ^ (e + (53 : ℕ)) := by
    have hlt : q < 2 ^ (Int.log 2 q + 1) := by
      exact_mod_cast Int.lt_zpow_succ_log_self (by norm_num : 1 < 2) q
    rwa [hexp, add_assoc] at hlt
  rw [two_zpow_add, hm] at hlow hhigh
  refine ⟨m, e, hm, by omega, ?_, ?_⟩
  · exact_mod_cast le_of_mul_le_mul_right hlow hulp
  · exact_mod_cast lt_of_mul_lt_mul_right hhigh hulp.le

end Round

section Decimals

def toMillionths (q : ℚ) : ℚ := roundHalfEven (q * 10 ^ 6) / 10 ^ 6

theorem abs_sub_toMillionths (q : ℚ) : |q - toMillionths q| ≤ 1 / 2 / 10 ^ 6 := by
  have hround := abs_sub_roundHalfEven (q * 10 ^ 6)
  have hq : q - toMillionths q = (q * 10 ^ 6 - roundHalfEven (q * 10 ^ 6)) / 10 ^ 6 := by
    unfold toMillionths
    ring
  rw [hq, abs_div, abs_of_pos (by norm_num : (0 : ℚ) < 10 ^ 6)]
  gcongr

theorem toMillionths_of_int (n : ℤ) : toMillionths n = n := by
  have hround : roundHalfEven ((n : ℚ) * 10 ^ 6) = n * 10 ^ 6 := by
    apply roundHalfEven_eq
    push_cast
    norm_num
  rw [toMillionths, hround]
  push_cast
  ring

/-- Large numbers of the format are far apart. -/
theorem round_toMillionths_large {q : ℚ} (h : IsBinary64 q) (hq : 2 ^ (33 : ℤ) ≤ q) :
    roundToBinary64 (toMillionths q) = some q := by
  obtain ⟨m, e, hm, he, hlow, hhigh⟩ := h.normal (by norm_num) hq
  have hulp : 1 / 524288 ≤ (2 : ℚ) ^ e := by
    calc (1 / 524288 : ℚ) = 2 ^ (-19 : ℤ) := by norm_num
      _ ≤ 2 ^ e := zpow_le_zpow_right₀ (by norm_num) (by omega)
  have hsplit : (2 : ℚ) ^ (e + 52) = 2 ^ 52 * 2 ^ e := two_zpow_add e 52
  have hnear := abs_sub_toMillionths q
  rw [abs_le] at hnear
  by_cases hbelow : toMillionths q < 2 ^ (e + 52)
  · -- then the number is a power of two, which is its own decimal
    rw [hsplit] at hbelow
    have hlt : (m : ℚ) < 2 ^ 52 + 1 := by
      by_contra hge
      have hmul : (2 ^ 52 + 1 : ℚ) * 2 ^ e ≤ m * 2 ^ e := by
        gcongr
        exact not_lt.mp hge
      linarith
    have hlt' : m < 2 ^ 52 + 1 := by exact_mod_cast hlt
    obtain rfl : m = 2 ^ 52 := by omega
    obtain ⟨k, hk⟩ : ∃ k : ℕ, e + 52 = k := ⟨(e + 52).toNat, by omega⟩
    have hint : q = ((2 ^ k : ℤ) : ℚ) := by
      rw [hk, zpow_natCast] at hsplit
      rw [hm]
      push_cast
      exact hsplit.symm
    have hself : toMillionths q = q := by
      rw [hint]
      exact toMillionths_of_int _
    rw [hself, hm] at hbelow
    push_cast at hbelow
    exact absurd hbelow (lt_irrefl _)
  · have hle : (m : ℚ) ≤ 2 ^ 53 - 1 := by
      have hle' : m ≤ 2 ^ 53 - 1 := by omega
      exact_mod_cast hle'
    have hmul : (m : ℚ) * 2 ^ e ≤ (2 ^ 53 - 1) * 2 ^ e := by gcongr
    have hexp : ulpExponent (toMillionths q) = e := by
      apply ulpExponent_eq (by omega) (not_lt.mp hbelow)
      have hsplit' : (2 : ℚ) ^ (e + 53) = 2 ^ 53 * 2 ^ e := two_zpow_add e 53
      linarith
    apply round_eq (m := m)
    · rw [hexp]
      exact hm
    · rw [hexp, abs_sub_comm, abs_lt]
      constructor <;> linarith
    · exact h.lt_two_pow

/-- Small numbers of the format that a decimal is rounded to are near it. -/
theorem toMillionths_eq {q : ℚ} (hq : q < 2 ^ (33 : ℤ)) {k : ℕ}
    (h : roundToBinary64 (k / 10 ^ 6) = some q) : toMillionths q = k / 10 ^ 6 := by
  have hlt : (k / 10 ^ 6 : ℚ) < 2 ^ (33 : ℤ) := lt_of_round (by norm_num) h hq
  have hnear := abs_sub_round h
  have hexp : ulpExponent (k / 10 ^ 6) ≤ -20 := by
    have hnonneg : (0 : ℚ) ≤ k / 10 ^ 6 := by positivity
    rw [ulpExponent, abs_of_nonneg hnonneg]
    rcases hnonneg.eq_or_lt with hzero | hpos
    · rw [← hzero, Int.log_zero_right]
      norm_num
    · have hlog : Int.log 2 (k / 10 ^ 6 : ℚ) < 33 :=
        (Int.lt_zpow_iff_log_lt (by norm_num) hpos).mp (by exact_mod_cast hlt)
      omega
  have hbound : (2 : ℚ) ^ ulpExponent (k / 10 ^ 6) ≤ 2 ^ (-20 : ℤ) :=
    zpow_le_zpow_right₀ (by norm_num) hexp
  have hround : roundHalfEven (q * 10 ^ 6) = k := by
    apply roundHalfEven_eq
    have hulp : (2 : ℚ) ^ (-20 : ℤ) = 1 / 1048576 := by norm_num
    have hk : (k / 10 ^ 6 : ℚ) * 10 ^ 6 = k := by field_simp
    rw [abs_le] at hnear
    rw [abs_lt]
    push_cast
    constructor <;> linarith
  rw [toMillionths, hround]
  rfl

theorem round_toMillionths_iff {q : ℚ} (h : IsBinary64 q) (hq : 0 ≤ q) :
    roundToBinary64 (toMillionths q) = some q ↔
      ∃ k : ℕ, roundToBinary64 (k / 10 ^ 6) = some q := by
  constructor
  · intro hround
    have hnonneg := roundHalfEven_nonneg (by positivity : 0 ≤ q * 10 ^ 6)
    refine ⟨(roundHalfEven (q * 10 ^ 6)).toNat, ?_⟩
    rw [← hround, toMillionths]
    congr 2
    exact_mod_cast Int.toNat_of_nonneg hnonneg
  · intro hsome
    obtain ⟨k, hk⟩ := hsome
    rcases lt_or_ge q (2 ^ (33 : ℤ)) with hsmall | hlarge
    · rw [toMillionths_eq hsmall hk]
      exact hk
    · exact round_toMillionths_large h hlarge

end Decimals

end InkFuse.Float
