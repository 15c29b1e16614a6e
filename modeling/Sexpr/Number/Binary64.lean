/-
Binary floating point numbers of 64 bits.

A number is its sign and the code of its magnitude: exponent and fraction bits read
as one natural number. Codes are in the order of magnitudes, the code after a
number's is that of its neighbour, and the last code is infinity, so rounding a
quotient is one addition (`codeOfRatio`), carries and overflow included.

* `Binary64.ofRatio` — the number nearest to a quotient of naturals;
* `Binary64.ofInt?`, `Binary64.ofQuotient?` — the same, refusing an overflow;
* `Binary64.add`, `Binary64.sqrt?`, `Binary64.divNat` — the operations on numbers.
-/
import Sexpr.Mark

namespace Sexpr

/-- The code of infinity: all exponent bits set, no fraction bit set. -/
def infinityCode : Nat := 2047 <<< 52

/-- A floating point number: not a number, or a sign and the code of a magnitude. What is
not a number equals no number, so it has a mark. -/
inductive Binary64 where
  | nan (mark : Mark)
  | number (neg : Bool) (code : Fin (infinityCode + 1))
deriving DecidableEq

namespace Binary64

/-- The quotient `num / den` rounded to the nearest natural number, a half to the even one. -/
def roundDiv (num den : Nat) : Nat :=
  let q := num / den
  let r := num % den
  if 2 * r < den then q else if den < 2 * r then q + 1 else q + q % 2

/-- `num * 2 ^ s / den` rounded, for a shift `s` of either sign. -/
def roundShifted (num den : Nat) (s : Int) : Nat :=
  if 0 ≤ s then roundDiv (num <<< s.toNat) den else roundDiv num (den <<< (-s).toNat)

/-- The largest exponent `l` with `2 ^ l ≤ num / den`, for positive `num` and `den`. -/
def log2Ratio (num den : Nat) : Int :=
  let l : Int := (num.log2 : Int) - den.log2
  let below := if 0 ≤ l then num < den <<< l.toNat else num <<< (-l).toNat < den
  if below then l - 1 else l

/-- The least exponent of a number: that of the numbers nearest to zero. -/
def minExponent : Int := -1074

/-- The code of the magnitude nearest to `num / den`, infinity's if that is too large.
At the exponent `e` the mantissa `m` has 53 bits or `e` is the least one; in both
cases the code is `(e - minExponent) * 2 ^ 52 + m`, also when `m` was rounded up to 54 bits. -/
def codeOfRatio (num den : Nat) : Nat :=
  if num = 0 then 0
  else
    let e := max (log2Ratio num den - 52) minExponent
    min (((e - minExponent).toNat <<< 52) + roundShifted num den (-e)) infinityCode

theorem codeOfRatio_le (num den : Nat) : codeOfRatio num den ≤ infinityCode := by
  unfold codeOfRatio
  split
  · exact Nat.zero_le _
  · exact Nat.min_le_right _ _

/-- The number nearest to `num / den`, with the given sign. -/
def ofRatio (neg : Bool) (num den : Nat) : Binary64 :=
  number neg ⟨codeOfRatio num den, Nat.lt_succ_of_le (codeOfRatio_le num den)⟩

/-- Zero with the given sign. -/
def zero (neg : Bool) : Binary64 := number neg ⟨0, Nat.zero_lt_succ _⟩

/-- Infinity with the given sign. -/
def infinity (neg : Bool) : Binary64 := number neg ⟨infinityCode, Nat.lt_succ_self _⟩

/-- Whether a number is infinite. -/
def isInfinite : Binary64 → Bool
  | nan _ => false
  | number _ code => code.val = infinityCode

/-- The leading bit of the mantissas that have 53 bits; it is not written in a code. -/
def hiddenBit : Nat := 1 <<< 52

/-- The mantissa of a finite magnitude. -/
def mantissa (code : Nat) : Nat :=
  if code < hiddenBit then code else hiddenBit + code % hiddenBit

/-- The exponent of a finite magnitude, so that the magnitude is `mantissa * 2 ^ exponent`. -/
def exponent (code : Nat) : Int :=
  if code < hiddenBit then minExponent else (code / hiddenBit : Nat) - 1 + minExponent

/-- A finite magnitude as a quotient of naturals. -/
def ratio (code : Nat) : Nat × Nat :=
  let e := exponent code
  if 0 ≤ e then (mantissa code <<< e.toNat, 1) else (mantissa code, 1 <<< (-e).toNat)

/-- A finite number as a quotient of an integer and a natural number. -/
def toRatio? : Binary64 → Option (Int × Nat)
  | nan _ => none
  | number neg code =>
    if code.val = infinityCode then none
    else
      let (n, d) := ratio code
      some (if neg then -(n : Int) else n, d)

/-- The number nearest to an integer, unless it is too large. -/
def ofInt? (n : Int) : Option Binary64 :=
  let r := ofRatio (n < 0) n.natAbs 1
  if r.isInfinite then none else some r

/-- The number nearest to a quotient of integers, unless it is too large. The
denominator is not zero; over a negative one, zero gets a negative sign. -/
def ofQuotient? (num den : Int) : Option Binary64 :=
  let r := ofRatio ((num < 0) != (den < 0)) num.natAbs den.natAbs
  if r.isInfinite then none else some r

/-- The number nearest to an exact value; the sign is used for a zero. -/
def ofIntRatio (zeroSign : Bool) (num : Int) (den : Nat) : Binary64 :=
  if num = 0 then zero zeroSign else ofRatio (num < 0) num.natAbs den

/-- The sum of two numbers. -/
def add : Binary64 → Binary64 → Binary64
  | nan _, _ => nan none
  | _, nan _ => nan none
  | number s a, number t b =>
    match toRatio? (number s a), toRatio? (number t b) with
    | none, none => if s = t then number s a else nan none
    | none, some _ => number s a
    | some _, none => number t b
    | some (n, d), some (m, e) => ofIntRatio (s && t) (n * e + m * d) (d * e)

/-- A number divided by a positive natural number. -/
def divNat : Binary64 → Nat → Binary64
  | nan _, _ => nan none
  | number s a, k =>
    if a.val = infinityCode then number s a
    else
      let (n, d) := ratio a
      ofRatio s n (d * k)

/-- The integer square root, by bisection between `lo` and `hi` with the given number of steps. -/
def sqrtBetween (n : Nat) : Nat → Nat → Nat → Nat
  | 0, lo, _ => lo
  | steps + 1, lo, hi =>
    let mid := (lo + hi) / 2
    if mid * mid ≤ n then sqrtBetween n steps mid hi else sqrtBetween n steps lo mid

/-- The largest natural number whose square is at most `n`. -/
def natSqrt (n : Nat) : Nat := sqrtBetween n (n.log2 + 2) 0 (n + 1)

/-- The square root of a number that is not negative. The magnitude is scaled to an
integer of more than 120 bits by an even power of two; its root, with a last bit for
what is left over, rounds as the exact root does. -/
def sqrt? : Binary64 → Option Binary64
  | nan _ => some (nan none)
  | number s a =>
    if a.val = 0 then some (number s a)
    else if s then none
    else if a.val = infinityCode then some (number s a)
    else
      let m := mantissa a
      let e := exponent a
      let shift : Nat := 120 + (e % 2).toNat
      let scaled := m <<< shift
      let root := natSqrt scaled
      let sticky := 2 * root + (if root * root = scaled then 0 else 1)
      let e' : Int := (e - shift) / 2 - 1
      some (if 0 ≤ e' then ofRatio false (sticky <<< e'.toNat) 1
        else ofRatio false sticky (1 <<< (-e').toNat))

end Binary64
end Sexpr
