/-
Rounding to the nearest floating point number.

The code of a quotient depends on its value only, and a quotient that is nearer to a
number than to the numbers on both sides of it has the code of that number.

* `Binary64.roundDiv_eq` — a quotient near a natural number is rounded to it;
* `Binary64.log2Ratio_eq` — the exponent of a quotient is its binary logarithm;
* `Binary64.codeOfRatio_congr` — equal quotients have one code;
* `Binary64.codeOfRatio_eq` — quotients near a number have its code.
-/
import Mathlib.Algebra.Order.Floor.Ring
import Mathlib.Data.Int.Log
import Mathlib.Data.Rat.Floor
import Mathlib.Tactic.FieldSimp
import Mathlib.Tactic.Linarith
import Mathlib.Tactic.NormNum
import Mathlib.Tactic.Positivity
import Mathlib.Tactic.Ring
import Sexpr.Number.Binary64

namespace Sexpr.Binary64

/-! ### Rounding to a natural number -/

theorem roundDiv_mul_right (n d : Nat) {c : Nat} (hc : 0 < c) :
    roundDiv (n * c) (d * c) = roundDiv n d := by
  have hlt : ∀ a b : Nat, a * c < b * c ↔ a < b := fun a b => Nat.mul_lt_mul_right hc
  simp only [roundDiv, Nat.mul_div_mul_right n d hc, Nat.mul_mod_mul_right, ← Nat.mul_assoc, hlt]

/-- Equal quotients are rounded alike. -/
theorem roundDiv_congr {n d n' d' : Nat} (hd : 0 < d) (hd' : 0 < d')
    (h : (n : ℚ) / d = n' / d') : roundDiv n d = roundDiv n' d' := by
  have hcross : n * d' = n' * d := by
    rw [div_eq_div_iff (by positivity) (by positivity)] at h
    exact_mod_cast h
  calc roundDiv n d = roundDiv (n * d') (d * d') := (roundDiv_mul_right n d hd').symm
    _ = roundDiv (n' * d) (d' * d) := by rw [hcross, Nat.mul_comm d d']
    _ = roundDiv n' d' := roundDiv_mul_right n' d' hd

/-- A quotient that is nearer to `m` than a half is rounded to `m`. -/
theorem roundDiv_eq {n d m : Nat} (hd : 0 < d) (h : |(n : ℚ) / d - m| < 1 / 2) :
    roundDiv n d = m := by
  have hd' : (0 : ℚ) < d := by exact_mod_cast hd
  obtain ⟨hlow, hhigh⟩ := abs_lt.1 h
  have hupper : 2 * n < 2 * (d * m) + d := by
    have : (n : ℚ) / d < m + 1 / 2 := by linarith
    rw [div_lt_iff₀ hd'] at this
    have : (2 * n : ℚ) < 2 * (d * m) + d := by linarith
    exact_mod_cast this
  have hlower : 2 * (d * m) < 2 * n + d := by
    have : (m : ℚ) - 1 / 2 < n / d := by linarith
    rw [lt_div_iff₀ hd'] at this
    have : (2 * (d * m) : ℚ) < 2 * n + d := by linarith
    exact_mod_cast this
  have hn := Nat.div_add_mod n d
  have hr := Nat.mod_lt n hd
  unfold roundDiv
  dsimp only
  generalize n / d = q at *
  generalize n % d = r at *
  -- neighbours of `m` are a whole `d` away
  have hle : q ≤ m := by
    by_contra hlt
    have := Nat.mul_le_mul_left d (Nat.not_le.1 hlt)
    rw [Nat.succ_eq_add_one, Nat.mul_add, Nat.mul_one] at this
    omega
  have hge : m ≤ q + 1 := by
    by_contra hlt
    have := Nat.mul_le_mul_left d (Nat.not_le.1 hlt)
    rw [Nat.succ_eq_add_one, Nat.mul_add, Nat.mul_add, Nat.mul_one] at this
    omega
  obtain rfl | rfl : m = q ∨ m = q + 1 := by omega
  · split_ifs <;> omega
  · rw [Nat.mul_add, Nat.mul_one] at hupper hlower
    split_ifs <;> omega

/-! ### Binary exponents -/

theorem two_zpow_pos (s : Int) : (0 : ℚ) < 2 ^ s := zpow_pos (by norm_num) s

/-- A shift of either sign multiplies by a power of two. -/
theorem exists_roundShifted (num : Nat) {den : Nat} (hden : 0 < den) (s : Int) :
    ∃ n d : Nat, 0 < d ∧ roundShifted num den s = roundDiv n d ∧
      (n : ℚ) / d = num / den * 2 ^ s := by
  unfold roundShifted
  split_ifs with hs
  · obtain ⟨k, rfl⟩ := Int.eq_ofNat_of_zero_le hs
    refine ⟨num <<< k, den, hden, rfl, ?_⟩
    rw [Nat.shiftLeft_eq, zpow_natCast]
    push_cast
    ring
  · obtain ⟨k, rfl⟩ : ∃ k : Nat, s = -(k : Int) := ⟨(-s).toNat, by omega⟩
    refine ⟨num, den <<< k, ?_, ?_, ?_⟩
    · rw [Nat.shiftLeft_eq]
      positivity
    · simp
    · rw [Nat.shiftLeft_eq, zpow_neg, zpow_natCast]
      push_cast
      field_simp

/-- The comparison of a quotient with a power of two. -/
theorem lt_two_zpow_iff (num : Nat) {den : Nat} (hden : 0 < den) (l : Int) :
    (if 0 ≤ l then num < den <<< l.toNat else num <<< (-l).toNat < den) ↔
      (num : ℚ) / den < 2 ^ l := by
  have hden' : (0 : ℚ) < den := by exact_mod_cast hden
  rw [div_lt_iff₀ hden']
  split_ifs with hl
  · obtain ⟨k, rfl⟩ := Int.eq_ofNat_of_zero_le hl
    rw [Int.toNat_natCast, Nat.shiftLeft_eq, zpow_natCast, mul_comm]
    exact_mod_cast Iff.rfl
  · obtain ⟨k, rfl⟩ : ∃ k : Nat, l = -(k : Int) := ⟨(-l).toNat, by omega⟩
    have hk : (0 : ℚ) < 2 ^ k := by positivity
    rw [neg_neg, Int.toNat_natCast, Nat.shiftLeft_eq, zpow_neg, zpow_natCast,
      inv_mul_eq_div, lt_div_iff₀ hk]
    exact_mod_cast Iff.rfl

theorem eq_log_of_zpow {b : Nat} (hb : 1 < b) {x : ℚ} {k : Int} (hlow : (b : ℚ) ^ k ≤ x)
    (hhigh : x < (b : ℚ) ^ (k + 1)) : k = Int.log b x := by
  have hx : 0 < x := (zpow_pos (by positivity) k).trans_le hlow
  have hle := (Int.zpow_le_iff_le_log hb hx).1 hlow
  have hlt := (Int.lt_zpow_iff_log_lt hb hx).1 hhigh
  omega

/-- The exponent of a quotient is its binary logarithm. -/
theorem log2Ratio_eq {num den : Nat} (hnum : 0 < num) (hden : 0 < den) :
    log2Ratio num den = Int.log 2 ((num : ℚ) / den) := by
  have hden' : (0 : ℚ) < den := by exact_mod_cast hden
  have hnumlow : (2 : ℚ) ^ (num.log2 : Int) ≤ num := by
    exact_mod_cast Nat.log2_self_le hnum.ne'
  have hnumhigh : (num : ℚ) < 2 ^ ((num.log2 : Int) + 1) := by
    exact_mod_cast Nat.lt_log2_self
  have hdenlow : (2 : ℚ) ^ (den.log2 : Int) ≤ den := by
    exact_mod_cast Nat.log2_self_le hden.ne'
  have hdenhigh : (den : ℚ) < 2 ^ ((den.log2 : Int) + 1) := by
    exact_mod_cast Nat.lt_log2_self
  -- the difference of the lengths is the exponent or one more
  have hlow : (2 : ℚ) ^ ((num.log2 : Int) - den.log2 - 1) ≤ num / den := by
    rw [le_div_iff₀ hden']
    calc (2 : ℚ) ^ ((num.log2 : Int) - den.log2 - 1) * den
        ≤ 2 ^ ((num.log2 : Int) - den.log2 - 1) * 2 ^ ((den.log2 : Int) + 1) := by
          have := two_zpow_pos ((num.log2 : Int) - den.log2 - 1)
          gcongr
      _ = 2 ^ (num.log2 : Int) := by
          rw [← zpow_add₀ (by norm_num)]
          congr 1
          ring
      _ ≤ num := hnumlow
  have hhigh : (num : ℚ) / den < 2 ^ ((num.log2 : Int) - den.log2 + 1) := by
    rw [div_lt_iff₀ hden']
    calc (num : ℚ) < 2 ^ ((num.log2 : Int) + 1) := hnumhigh
      _ = 2 ^ ((num.log2 : Int) - den.log2 + 1) * 2 ^ (den.log2 : Int) := by
          rw [← zpow_add₀ (by norm_num)]
          congr 1
          ring
      _ ≤ 2 ^ ((num.log2 : Int) - den.log2 + 1) * den := by
          have := two_zpow_pos ((num.log2 : Int) - den.log2 + 1)
          gcongr
  unfold log2Ratio
  dsimp only
  generalize (num.log2 : Int) - den.log2 = l at *
  by_cases hbelow : (num : ℚ) / den < 2 ^ l
  · rw [if_pos ((lt_two_zpow_iff num hden l).2 hbelow)]
    exact eq_log_of_zpow (by decide) (by exact_mod_cast hlow) (by simpa using hbelow)
  · rw [if_neg fun h => hbelow ((lt_two_zpow_iff num hden l).1 h)]
    exact eq_log_of_zpow (by decide) (by exact_mod_cast not_lt.1 hbelow) (by exact_mod_cast hhigh)

/-! ### Codes -/

/-- The exponent at which a quotient is rounded. -/
def roundingExponent (x : ℚ) : Int := max (Int.log 2 x - 52) minExponent

/-- The code of a quotient is read off its rounding at the exponent of its value. -/
theorem exists_codeOfRatio {num den : Nat} (hnum : 0 < num) (hden : 0 < den) :
    ∃ n d : Nat, 0 < d ∧ (n : ℚ) / d = num / den * 2 ^ (-roundingExponent (num / den)) ∧
      codeOfRatio num den =
        min (((roundingExponent (num / den) - minExponent).toNat <<< 52) + roundDiv n d)
          infinityCode := by
  obtain ⟨n, d, hd, hround, hvalue⟩ :=
    exists_roundShifted num hden (-roundingExponent ((num : ℚ) / den))
  refine ⟨n, d, hd, hvalue, ?_⟩
  rw [codeOfRatio, if_neg hnum.ne', ← hround, roundingExponent, log2Ratio_eq hnum hden]

/-- The code of a quotient depends on its value only. -/
theorem codeOfRatio_congr {num den num' den' : Nat} (hden : 0 < den) (hden' : 0 < den')
    (h : (num : ℚ) / den = num' / den') : codeOfRatio num den = codeOfRatio num' den' := by
  have hzero : num = 0 ↔ num' = 0 := by
    rw [div_eq_div_iff (by positivity) (by positivity)] at h
    have hcross : num * den' = num' * den := by exact_mod_cast h
    constructor
    · intro hnum
      rw [hnum, Nat.zero_mul] at hcross
      exact (Nat.mul_eq_zero.1 hcross.symm).resolve_right hden.ne'
    · intro hnum
      rw [hnum, Nat.zero_mul] at hcross
      exact (Nat.mul_eq_zero.1 hcross).resolve_right hden'.ne'
  rcases Nat.eq_zero_or_pos num with hnum | hnum
  · simp [codeOfRatio, hnum, hzero.1 hnum]
  · have hnum' : 0 < num' := Nat.pos_of_ne_zero fun h => hnum.ne' (hzero.2 h)
    obtain ⟨n, d, hd, hvalue, hcode⟩ := exists_codeOfRatio hnum hden
    obtain ⟨n', d', hd', hvalue', hcode'⟩ := exists_codeOfRatio hnum' hden'
    have hround : roundDiv n d = roundDiv n' d' := by
      apply roundDiv_congr hd hd'
      rw [hvalue, hvalue', h]
    rw [hcode, hcode', hround, h]

/-! ### The magnitude of a code -/

/-- The magnitude that a code below infinity's stands for. -/
def magnitude (code : Nat) : ℚ := mantissa code * 2 ^ exponent code

theorem hiddenBit_eq : hiddenBit = 2 ^ 52 := by decide

theorem minExponent_le_exponent (code : Nat) : minExponent ≤ exponent code := by
  unfold exponent
  split
  case isTrue => exact le_rfl
  case isFalse h =>
    have : 0 < code / hiddenBit := Nat.div_pos (not_lt.1 h) (by decide)
    omega

theorem mantissa_lt (code : Nat) : mantissa code < 2 ^ 53 := by
  have := Nat.mod_lt code (show 0 < hiddenBit by decide)
  unfold mantissa
  rw [hiddenBit_eq] at *
  split <;> omega

theorem mantissa_pos {code : Nat} (h : 0 < code) : 0 < mantissa code := by
  unfold mantissa
  rw [hiddenBit_eq]
  split <;> omega

theorem le_mantissa {code : Nat} (h : minExponent < exponent code) : 2 ^ 52 ≤ mantissa code := by
  unfold exponent at h
  unfold mantissa
  rw [hiddenBit_eq] at *
  split <;> split at h <;> omega

/-- A code is its exponent and its mantissa put together. -/
theorem code_eq (code : Nat) :
    ((exponent code - minExponent).toNat <<< 52) + mantissa code = code := by
  unfold exponent mantissa
  rw [hiddenBit_eq, Nat.shiftLeft_eq]
  split
  case isTrue => simp
  case isFalse h =>
    have : 0 < code / 2 ^ 52 := Nat.div_pos (not_lt.1 h) (by decide)
    omega

theorem ratio_den_pos (code : Nat) : 0 < (ratio code).2 := by
  unfold ratio
  dsimp only
  split
  · exact Nat.one_pos
  · simp [Nat.shiftLeft_eq]

theorem ratio_eq_magnitude (code : Nat) :
    ((ratio code).1 : ℚ) / (ratio code).2 = magnitude code := by
  unfold ratio magnitude
  dsimp only
  split
  case isTrue h =>
    obtain ⟨k, hk⟩ : ∃ k : Nat, exponent code = k := ⟨(exponent code).toNat, by omega⟩
    simp [Nat.shiftLeft_eq, hk]
  case isFalse h =>
    obtain ⟨k, hk⟩ : ∃ k : Nat, exponent code = -k := ⟨(-exponent code).toNat, by omega⟩
    simp [Nat.shiftLeft_eq, hk, div_eq_mul_inv]

theorem magnitude_pos {code : Nat} (h : 0 < code) : 0 < magnitude code := by
  have hm : (0 : ℚ) < mantissa code := by exact_mod_cast mantissa_pos h
  exact mul_pos hm (two_zpow_pos _)

/-! ### Quotients near a number -/

theorem roundingExponent_eq {x : ℚ} {e : Int} (hx : 0 < x) (he : minExponent ≤ e)
    (hlow : e = minExponent ∨ 2 ^ 52 ≤ x * 2 ^ (-e)) (hhigh : x * 2 ^ (-e) < 2 ^ 53) :
    roundingExponent x = e := by
  have hscale : ∀ k : Int, (2 : ℚ) ^ (e + k) * 2 ^ (-e) = 2 ^ k := by
    intro k
    rw [← zpow_add₀ (by norm_num)]
    congr 1
    ring
  have hlt : Int.log 2 x < e + 53 := by
    rw [← Int.lt_zpow_iff_log_lt (by decide) hx]
    apply lt_of_mul_lt_mul_right _ (two_zpow_pos (-e)).le
    push_cast
    rw [hscale]
    exact_mod_cast hhigh
  unfold roundingExponent
  rcases hlow with hmin | hlow
  · omega
  · have hle : e + 52 ≤ Int.log 2 x := by
      rw [← Int.zpow_le_iff_le_log (by decide) hx]
      apply le_of_mul_le_mul_right _ (two_zpow_pos (-e))
      push_cast
      rw [hscale]
      exact_mod_cast hlow
    omega

/-- A mantissa rounded up to one bit more is the least one of the next exponent. -/
theorem shiftLeft_add_carry {e : Int} (h : minExponent < e) :
    ((e - 1 - minExponent).toNat <<< 52) + 2 ^ 53 = ((e - minExponent).toNat <<< 52) + 2 ^ 52 := by
  rw [show (e - minExponent).toNat = (e - 1 - minExponent).toNat + 1 by omega, Nat.shiftLeft_eq,
    Nat.shiftLeft_eq]
  ring

/-- A quotient that is within its last bit but one of a number has the code of that number. -/
theorem codeOfRatio_eq {code num den : Nat} (hpos : 0 < code) (hfinite : code < infinityCode)
    (hden : 0 < den) (hnear : |(num : ℚ) / den - magnitude code| < magnitude code / 2 ^ 54) :
    codeOfRatio num den = code := by
  have hv := magnitude_pos hpos
  obtain ⟨hlow, hhigh⟩ := abs_lt.1 hnear
  have hx : (0 : ℚ) < num / den := by
    have : magnitude code / 2 ^ 54 < magnitude code := div_lt_self hv (by norm_num)
    linarith
  have hnum : 0 < num := by
    refine Nat.pos_of_ne_zero fun h => hx.ne' ?_
    simp [h]
  obtain ⟨n, d, hd, hvalue, hcode⟩ := exists_codeOfRatio hnum hden
  generalize (num : ℚ) / den = x at *
  -- in units of the last bit, the quotient is near the mantissa
  have hunit : magnitude code * 2 ^ (-exponent code) = mantissa code := by
    rw [magnitude, mul_assoc, ← zpow_add₀ (by norm_num)]
    simp
  have hscale := two_zpow_pos (-exponent code)
  have hylow : (mantissa code : ℚ) - mantissa code / 2 ^ 54 < x * 2 ^ (-exponent code) := by
    rw [← hunit]
    nlinarith
  have hyhigh : x * 2 ^ (-exponent code) < (mantissa code : ℚ) + mantissa code / 2 ^ 54 := by
    rw [← hunit]
    nlinarith
  have hmlt : (mantissa code : ℚ) ≤ 2 ^ 53 - 1 := by
    have := mantissa_lt code
    have : mantissa code + 1 ≤ 2 ^ 53 := this
    have : ((mantissa code + 1 : Nat) : ℚ) ≤ 2 ^ 53 := by exact_mod_cast this
    push_cast at this
    linarith
  have hmin := minExponent_le_exponent code
  by_cases hbinade : exponent code = minExponent ∨ 2 ^ 52 ≤ x * 2 ^ (-exponent code)
  · have he : roundingExponent x = exponent code :=
      roundingExponent_eq hx hmin hbinade (by linarith)
    have hround : roundDiv n d = mantissa code := by
      apply roundDiv_eq hd
      rw [hvalue, he, abs_lt]
      constructor <;> linarith
    rw [hcode, hround, he, code_eq]
    omega
  · -- below the least number of its exponent, a quotient is rounded with one more bit
    obtain ⟨hmin', hy⟩ := not_or.1 hbinade
    rw [not_le] at hy
    have hm : mantissa code = 2 ^ 52 := by
      refine le_antisymm ?_ (le_mantissa (by omega))
      by_contra hgt
      have : ((2 ^ 52 + 1 : Nat) : ℚ) ≤ mantissa code := by
        exact_mod_cast Nat.succ_le_of_lt (not_le.1 hgt)
      push_cast at this
      linarith
    have hdouble : x * 2 ^ (-(exponent code - 1)) = x * 2 ^ (-exponent code) * 2 := by
      rw [mul_assoc, ← zpow_add_one₀ (by norm_num)]
      congr 2
      ring
    rw [hm] at hylow hyhigh
    push_cast at hylow hyhigh
    have he : roundingExponent x = exponent code - 1 := by
      apply roundingExponent_eq hx (by omega)
      · right
        rw [hdouble]
        linarith
      · rw [hdouble]
        linarith
    have hround : roundDiv n d = 2 ^ 53 := by
      apply roundDiv_eq hd
      rw [hvalue, he, hdouble, abs_lt]
      push_cast
      constructor <;> linarith
    rw [hcode, hround, he, shiftLeft_add_carry (show minExponent < exponent code by omega), ← hm,
      code_eq, min_eq_left hfinite.le]

end Sexpr.Binary64
