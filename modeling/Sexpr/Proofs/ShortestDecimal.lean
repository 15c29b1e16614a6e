/-
The decimal of a floating point number reads back as the number.

The code of a decimal depends on its value only, and seventeen digits bring a decimal
so near to a number that it reads as that number: the search for the shortest decimal
that does so always ends with one.

* `Binary64.Decimal.code_congr` — equal decimals read as one code;
* `Binary64.Decimal.code_eq` — a decimal near a number reads as it;
* `Binary64.exists_digitsFrom` — the search finds a decimal if one of its steps has one;
* `Binary64.code_digits` — the shortest decimal of a number reads back as the number.
-/
import Mathlib.Tactic.Zify
import Sexpr.Number.Shortest
import Sexpr.Proofs.Rounding

namespace Sexpr.Binary64

/-! ### Decimals as quotients -/

theorem ten_zpow_pos (k : Int) : (0 : ℚ) < 10 ^ k := zpow_pos (by norm_num) k

/-- The value of a decimal. -/
def Decimal.value (d : Decimal) : ℚ := d.digits * 10 ^ d.exponent

theorem Decimal.ratio_den_pos (d : Decimal) : 0 < d.ratio.2 := by
  unfold Decimal.ratio
  split
  · exact Nat.one_pos
  · exact Nat.pow_pos (by decide)

theorem Decimal.ratio_eq_value (d : Decimal) : (d.ratio.1 : ℚ) / d.ratio.2 = d.value := by
  unfold Decimal.ratio Decimal.value
  split
  case isTrue h =>
    obtain ⟨k, hk⟩ : ∃ k : Nat, d.exponent = k := ⟨d.exponent.toNat, by omega⟩
    simp [hk]
  case isFalse h =>
    obtain ⟨k, hk⟩ : ∃ k : Nat, d.exponent = -k := ⟨(-d.exponent).toNat, by omega⟩
    simp [hk, div_eq_mul_inv]

theorem lt_pow_decimalLength (n : Nat) : n < 10 ^ decimalLength n :=
  (Nat.length_toDigits_le_iff (by decide) Nat.length_toDigits_pos).1 le_rfl

theorem pow_le_of_decimalLength {n k : Nat} (hn : 0 < n) (h : decimalLength n = k + 1) :
    10 ^ k ≤ n := by
  rcases Nat.eq_zero_or_pos k with rfl | hk
  · exact hn
  · by_contra hlt
    have : decimalLength n ≤ k := (Nat.length_toDigits_le_iff (by decide) hk).2 (not_le.1 hlt)
    omega

theorem exists_decimalLength (n : Nat) : ∃ k, decimalLength n = k + 1 :=
  Nat.exists_eq_succ_of_ne_zero Nat.length_toDigits_pos.ne'

/-- The place after the first digit of a decimal is given by its decimal logarithm. -/
theorem Decimal.log_value {d : Decimal} (h : 0 < d.digits) :
    (decimalLength d.digits : Int) + d.exponent = Int.log 10 d.value + 1 := by
  obtain ⟨k, hk⟩ := exists_decimalLength d.digits
  have hlow : ((10 : Nat) : ℚ) ^ ((k : Int) + d.exponent) ≤ d.value := by
    have : (10 : ℚ) ^ k ≤ d.digits := by exact_mod_cast pow_le_of_decimalLength h hk
    rw [zpow_add₀ (by norm_num), zpow_natCast]
    exact mul_le_mul_of_nonneg_right (by exact_mod_cast this) (ten_zpow_pos _).le
  have hhigh : d.value < ((10 : Nat) : ℚ) ^ ((k : Int) + d.exponent + 1) := by
    have hlt := lt_pow_decimalLength d.digits
    rw [hk] at hlt
    have : (d.digits : ℚ) < 10 ^ (k + 1) := by exact_mod_cast hlt
    rw [show (k : Int) + d.exponent + 1 = ((k + 1 : Nat) : Int) + d.exponent by push_cast; ring,
      zpow_add₀ (by norm_num), zpow_natCast]
    exact mul_lt_mul_of_pos_right (by exact_mod_cast this) (ten_zpow_pos _)
  rw [← eq_log_of_zpow (by decide) hlow hhigh, hk]
  push_cast
  ring

/-! ### The code of a decimal -/

theorem Decimal.value_eq_zero {d : Decimal} : d.value = 0 ↔ d.digits = 0 := by
  rw [Decimal.value, mul_eq_zero, Nat.cast_eq_zero, or_iff_left (ten_zpow_pos _).ne']

/-- The code of a decimal depends on its value only. -/
theorem Decimal.code_congr {d d' : Decimal} (h : d.value = d'.value) : d.code = d'.code := by
  have hcode : codeOfRatio d.ratio.1 d.ratio.2 = codeOfRatio d'.ratio.1 d'.ratio.2 := by
    apply codeOfRatio_congr d.ratio_den_pos d'.ratio_den_pos
    rw [d.ratio_eq_value, d'.ratio_eq_value, h]
  have hzero : d.digits = 0 ↔ d'.digits = 0 := by
    rw [← Decimal.value_eq_zero, h, Decimal.value_eq_zero]
  by_cases hd : d.digits = 0
  · rw [Decimal.code, if_pos hd, Decimal.code, if_pos (hzero.1 hd)]
  · have hd' : ¬ d'.digits = 0 := fun h0 => hd (hzero.2 h0)
    rw [Decimal.code, if_neg hd, Decimal.code, if_neg hd',
      Decimal.log_value (Nat.pos_of_ne_zero hd), Decimal.log_value (Nat.pos_of_ne_zero hd'), h,
      hcode]

theorem exponent_lt {code : Nat} (h : code < infinityCode) : exponent code < 972 := by
  have hcode := code_eq code
  have hmin := minExponent_le_exponent code
  by_contra he
  have hm := le_mantissa (show minExponent < exponent code by unfold minExponent; omega)
  have hinf : infinityCode = 2047 * 2 ^ 52 := by decide
  rw [Nat.shiftLeft_eq] at hcode
  have hk : 2046 ≤ (exponent code - minExponent).toNat := by
    unfold minExponent
    omega
  have := Nat.mul_le_mul_right (2 ^ 52) hk
  omega

/-- Numbers stay below the decimals that are infinite at any digits. -/
theorem magnitude_lt {code : Nat} (h : code < infinityCode) :
    2 * magnitude code < 10 ^ (309 : Int) := by
  have hm : (mantissa code : ℚ) < 2 ^ (53 : Int) := by exact_mod_cast mantissa_lt code
  have hpow : (2 : ℚ) ^ (1024 : Int) ≤ 10 ^ (309 : Int) / 2 := by
    have : 2 ^ 1024 * 2 ≤ 10 ^ 309 := by decide +kernel
    rw [le_div_iff₀ (by norm_num), zpow_ofNat, zpow_ofNat]
    exact_mod_cast this
  have hlt : magnitude code < 10 ^ (309 : Int) / 2 := by
    calc magnitude code < 2 ^ (53 : Int) * 2 ^ exponent code :=
          mul_lt_mul_of_pos_right hm (two_zpow_pos _)
      _ = 2 ^ (53 + exponent code) := (zpow_add₀ (by norm_num) _ _).symm
      _ ≤ 2 ^ (1024 : Int) :=
          zpow_le_zpow_right₀ (by norm_num) (by linarith [exponent_lt h])
      _ ≤ 10 ^ (309 : Int) / 2 := hpow
  linarith

/-- Numbers stay above the decimals that are zero at any digits. -/
theorem le_magnitude {code : Nat} (h : 0 < code) : 10 ^ (-330 : Int) ≤ magnitude code / 2 := by
  have hm : (1 : ℚ) ≤ mantissa code := by exact_mod_cast mantissa_pos h
  have hpow : (10 : ℚ) ^ (-330 : Int) ≤ 2 ^ minExponent / 2 := by
    have : 2 ^ 1074 * 2 ≤ 10 ^ 330 := by decide +kernel
    rw [minExponent, zpow_neg, zpow_neg, zpow_ofNat, zpow_ofNat, div_eq_mul_inv, ← mul_inv]
    apply inv_anti₀ (by norm_num)
    exact_mod_cast this
  calc (10 : ℚ) ^ (-330 : Int) ≤ 2 ^ minExponent / 2 := hpow
    _ ≤ 2 ^ exponent code / 2 := by
        have := zpow_le_zpow_right₀ (show (1 : ℚ) ≤ 2 by norm_num) (minExponent_le_exponent code)
        linarith
    _ ≤ magnitude code / 2 := by
        have := le_mul_of_one_le_left (two_zpow_pos (exponent code)).le hm
        rw [magnitude]
        linarith

/-- A decimal that is within the last bit but one of a number reads as that number. -/
theorem Decimal.code_eq {code : Nat} {d : Decimal} (hpos : 0 < code) (hfinite : code < infinityCode)
    (hnear : |d.value - magnitude code| < magnitude code / 2 ^ 54) : d.code = code := by
  have hv := magnitude_pos hpos
  obtain ⟨hlow, hhigh⟩ := abs_lt.1 hnear
  have hhalf : magnitude code / 2 ^ 54 ≤ magnitude code / 2 := by
    gcongr
    norm_num
  have hvalue : 0 < d.value := by linarith
  have hdigits : d.digits ≠ 0 := fun h => hvalue.ne' (Decimal.value_eq_zero.2 h)
  -- neither of the shortcuts for huge and for tiny decimals is taken
  have hupper : Int.log 10 d.value < 309 := by
    rw [← Int.lt_zpow_iff_log_lt (by decide) hvalue, Nat.cast_ofNat]
    have : d.value ≤ 2 * magnitude code := by linarith
    exact this.trans_lt (magnitude_lt hfinite)
  have hlower : -330 ≤ Int.log 10 d.value := by
    rw [← Int.zpow_le_iff_le_log (by decide) hvalue, Nat.cast_ofNat]
    have : magnitude code / 2 ≤ d.value := by linarith
    exact (le_magnitude hpos).trans this
  rw [Decimal.code, if_neg hdigits, Decimal.log_value (Nat.pos_of_ne_zero hdigits),
    if_neg (by omega), if_neg (by omega)]
  apply codeOfRatio_eq hpos hfinite d.ratio_den_pos
  rwa [d.ratio_eq_value]

/-! ### The search for digits -/

theorem abs_sub_le_of_mod {n d k : Nat} (hd : 0 < d)
    (h : k = n / d ∧ 2 * (n % d) ≤ d ∨ k = n / d + 1 ∧ d ≤ 2 * (n % d)) :
    |(k : ℚ) - n / d| ≤ 1 / 2 := by
  have hd' : (0 : ℚ) < d := by exact_mod_cast hd
  have hn : (n : ℚ) = d * (n / d : Nat) + (n % d : Nat) := by
    exact_mod_cast (Nat.div_add_mod n d).symm
  have hr : ((n % d : Nat) : ℚ) < d := by exact_mod_cast Nat.mod_lt n hd
  have hquot : (n : ℚ) / d = (n / d : Nat) + (n % d : Nat) / d := by
    rw [div_eq_iff hd'.ne', add_mul, div_mul_cancel₀ _ hd'.ne', mul_comm]
    exact hn
  have hfrac : (0 : ℚ) ≤ (n % d : Nat) / d := by positivity
  have hfrac' : ((n % d : Nat) : ℚ) / d < 1 := (div_lt_one hd').2 hr
  rcases h with ⟨rfl, h⟩ | ⟨rfl, h⟩
  · have : ((n % d : Nat) : ℚ) / d ≤ 1 / 2 := by
      rw [div_le_div_iff₀ hd' (by norm_num)]
      exact_mod_cast (by omega : n % d * 2 ≤ 1 * d)
    rw [hquot, abs_le]
    constructor <;> linarith
  · have : (1 : ℚ) / 2 ≤ (n % d : Nat) / d := by
      rw [div_le_div_iff₀ (by norm_num) hd']
      exact_mod_cast (by omega : 1 * d ≤ n % d * 2)
    rw [hquot, abs_le]
    push_cast
    constructor <;> linarith

/-- The first of the two decimals around a quotient is within half a unit of its last digit. -/
theorem exists_neighbour (num : Nat) {den : Nat} (hden : 0 < den) (e : Int) :
    ∃ d ∈ neighbours num den e, |d.value - num / den| ≤ 10 ^ e / 2 := by
  obtain ⟨n, d, hpair, hd, hvalue⟩ : ∃ n d : Nat,
      (if 0 ≤ e then (num, den * Nat.pow 10 e.toNat) else (num * Nat.pow 10 (-e).toNat, den))
        = (n, d) ∧ 0 < d ∧ (n : ℚ) / d * 10 ^ e = num / den := by
    split
    case isTrue h =>
      refine ⟨_, _, rfl, Nat.mul_pos hden (Nat.pow_pos (by decide)), ?_⟩
      obtain ⟨k, rfl⟩ : ∃ k : Nat, e = k := ⟨e.toNat, by omega⟩
      simp
      field_simp
    case isFalse h =>
      refine ⟨_, _, rfl, hden, ?_⟩
      obtain ⟨k, rfl⟩ : ∃ k : Nat, e = -k := ⟨(-e).toNat, by omega⟩
      simp
      field_simp
  have hnear : ∀ k : Nat, |(k : ℚ) - n / d| ≤ 1 / 2 →
      |Decimal.value ⟨k, e⟩ - num / den| ≤ 10 ^ e / 2 := by
    intro k hk
    rw [← hvalue, Decimal.value, ← sub_mul, abs_mul, abs_of_pos (ten_zpow_pos e)]
    have := mul_le_mul_of_nonneg_right hk (ten_zpow_pos e).le
    linarith
  unfold neighbours
  rw [hpair]
  dsimp only
  by_cases hlow : if 2 * (n % d) = d then n / d % 2 = 0 else 2 * (n % d) < d
  · rw [if_pos hlow]
    refine ⟨_, List.mem_cons_self, hnear _ (abs_sub_le_of_mod hd (.inl ⟨rfl, ?_⟩))⟩
    split at hlow <;> omega
  · rw [if_neg hlow]
    refine ⟨_, List.mem_cons_self, hnear _ (abs_sub_le_of_mod hd (.inr ⟨rfl, ?_⟩))⟩
    split at hlow <;> omega

theorem log10Below_le (num den fuel : Nat) (k : Int) : log10Below num den fuel k ≤ k := by
  induction fuel generalizing k with
  | zero => exact le_rfl
  | succ fuel ih =>
    rw [log10Below]
    by_cases hbelow :
      if 0 ≤ k then num < den * Nat.pow 10 k.toNat else num * Nat.pow 10 (-k).toNat < den
    · rw [if_pos hbelow]
      exact (ih (k - 1)).trans (by omega)
    · rw [if_neg hbelow]

/-- The first place tried is at most one above that of the first digit. -/
theorem zpow_log10Ratio_le {num den : Nat} (hnum : 0 < num) (hden : 0 < den) :
    (10 : ℚ) ^ (log10Ratio num den - 1) ≤ num / den := by
  obtain ⟨k, hk⟩ := exists_decimalLength num
  have hnumlow : (10 : ℚ) ^ k ≤ num := by exact_mod_cast pow_le_of_decimalLength hnum hk
  have hdenhigh : (den : ℚ) < 10 ^ decimalLength den := by exact_mod_cast lt_pow_decimalLength den
  have hlog : log10Ratio num den ≤ decimalLength num - decimalLength den :=
    log10Below_le num den 3 _
  have hden' : (0 : ℚ) < den := by exact_mod_cast hden
  rw [le_div_iff₀ hden']
  calc (10 : ℚ) ^ (log10Ratio num den - 1) * den
      ≤ 10 ^ ((k : Int) - decimalLength den) * 10 ^ (decimalLength den : Int) := by
        apply mul_le_mul _ _ hden'.le (ten_zpow_pos _).le
        · exact zpow_le_zpow_right₀ (by norm_num) (by omega)
        · exact_mod_cast hdenhigh.le
    _ = 10 ^ (k : Int) := by
        rw [← zpow_add₀ (by norm_num)]
        congr 1
        ring
    _ ≤ num := by exact_mod_cast hnumlow

/-- The search ends with a decimal that reads as the code if one of its steps comes by one. -/
theorem exists_digitsFrom {code num den fuel : Nat} {e : Int}
    (h : ∃ j < fuel, ∃ d ∈ neighbours num den (e - j), d.code = code) :
    ∃ d, digitsFrom code num den fuel e = some d ∧ d.code = code := by
  induction fuel generalizing e with
  | zero =>
    obtain ⟨j, hj, -⟩ := h
    exact absurd hj (Nat.not_lt_zero j)
  | succ fuel ih =>
    rw [digitsFrom]
    cases hfind : (neighbours num den e).find? (·.code = code) with
    | some d => exact ⟨d, rfl, by simpa using List.find?_some hfind⟩
    | none =>
      -- the step is not this one, so it is one of those that are left
      obtain ⟨j, hj, d, hd, hcode⟩ := h
      rw [List.find?_eq_none] at hfind
      cases j with
      | zero =>
        refine absurd ?_ (hfind d (by simpa using hd))
        simpa using hcode
      | succ j =>
        refine ih ⟨j, by omega, d, ?_, hcode⟩
        rwa [show e - 1 - (j : Int) = e - ((j + 1 : Nat) : Int) by push_cast; ring]

/-- Seventeen digits are enough for a decimal to read as a given number. -/
theorem exists_neighbour_code {code num den : Nat} (hpos : 0 < code) (hfinite : code < infinityCode)
    (hden : 0 < den) (hvalue : (num : ℚ) / den = magnitude code) :
    ∃ d ∈ neighbours num den (log10Ratio num den - (17 : Nat)), d.code = code := by
  have hv := magnitude_pos hpos
  have hnum : 0 < num := by
    refine Nat.pos_of_ne_zero fun h => hv.ne' ?_
    rw [← hvalue, h]
    simp
  obtain ⟨d, hd, hnear⟩ := exists_neighbour num hden (log10Ratio num den - (17 : Nat))
  have hplace := zpow_log10Ratio_le hnum hden
  rw [hvalue] at hnear hplace
  refine ⟨d, hd, Decimal.code_eq hpos hfinite ?_⟩
  -- the last digit counts for less than the last bit but one
  calc |d.value - magnitude code|
      ≤ 10 ^ (log10Ratio num den - (17 : Nat)) / 2 := hnear
    _ = 10 ^ (log10Ratio num den - 1) / (2 * 10 ^ 16) := by
        rw [show log10Ratio num den - ((17 : Nat) : Int) = log10Ratio num den - 1 - 16 by
          push_cast; ring, zpow_sub₀ (by norm_num)]
        norm_num
        ring
    _ ≤ magnitude code / (2 * 10 ^ 16) := by gcongr
    _ < magnitude code / 2 ^ 54 := by
        gcongr
        norm_num

/-- The shortest decimal of a finite number reads back as the number. -/
theorem code_digits {code : Nat} (hpos : 0 < code) (hfinite : code < infinityCode) :
    (digits code).code = code := by
  obtain ⟨d, hfound, hcode⟩ := exists_digitsFrom ⟨17, show 17 < 18 by decide,
    exists_neighbour_code hpos hfinite (ratio_den_pos code) (ratio_eq_magnitude code)⟩
  have hdigits : digits code = (digitsFrom code (ratio code).1 (ratio code).2 18
    (log10Ratio (ratio code).1 (ratio code).2)).getD ⟨0, 0⟩ := rfl
  rw [hdigits, hfound, Option.getD_some, hcode]

theorem digits_digits_pos {code : Nat} (hpos : 0 < code) (hfinite : code < infinityCode) :
    0 < (digits code).digits := by
  refine Nat.pos_of_ne_zero fun h => hpos.ne' ?_
  rw [← code_digits hpos hfinite, Decimal.code, if_pos h]

end Sexpr.Binary64
