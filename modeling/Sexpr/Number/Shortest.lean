/-
The shortest decimal text of a floating point number.

* `Binary64.digits` — the fewest decimal digits that read back as the number, and
  among those the nearest to it;
* `Binary64.text` — the digits laid out positionally or with an exponent.
-/
import Sexpr.Number.Binary64

namespace Sexpr.Binary64

/-- A positive decimal `digits * 10 ^ exponent`. -/
structure Decimal where
  digits : Nat
  exponent : Int

/-- A decimal as a quotient of naturals. -/
def Decimal.ratio (d : Decimal) : Nat × Nat :=
  if 0 ≤ d.exponent then (d.digits * Nat.pow 10 d.exponent.toNat, 1)
  else (d.digits, Nat.pow 10 (-d.exponent).toNat)

/-- The number of decimal digits of `n`, which is one for zero. -/
def decimalLength (n : Nat) : Nat := (Nat.toDigits 10 n).length

/-- The code that a decimal reads as. A magnitude that is infinite or zero at any
digits is found without raising ten to the exponent. -/
def Decimal.code (d : Decimal) : Nat :=
  if d.digits = 0 then 0
  else
    let magnitude : Int := decimalLength d.digits + d.exponent
    if 310 < magnitude then infinityCode
    else if magnitude < -330 then 0
    else codeOfRatio d.ratio.1 d.ratio.2

theorem Decimal.code_le (d : Decimal) : d.code ≤ infinityCode := by
  simp only [Decimal.code]
  split
  · exact Nat.zero_le _
  · split
    · exact Nat.le_refl _
    · split
      · exact Nat.zero_le _
      · exact codeOfRatio_le _ _

/-- The largest exponent `k` with `10 ^ k ≤ num / den`, found from `k₀` downwards. -/
def log10Below (num den : Nat) : Nat → Int → Int
  | 0, k => k
  | fuel + 1, k =>
    let below := if 0 ≤ k then num < den * Nat.pow 10 k.toNat else num * Nat.pow 10 (-k).toNat < den
    if below then log10Below num den fuel (k - 1) else k

/-- The largest exponent `k` with `10 ^ k ≤ num / den`. -/
def log10Ratio (num den : Nat) : Int :=
  log10Below num den 3 (decimalLength num - decimalLength den)

/-- The two decimals with the given exponent around `num / den`, the nearer one first;
of two that are equally near the one with the even last digit comes first. -/
def neighbours (num den : Nat) (e : Int) : List Decimal :=
  let (n, d) := if 0 ≤ e then (num, den * Nat.pow 10 e.toNat) else (num * Nat.pow 10 (-e).toNat, den)
  let q := n / d
  let r := n % d
  let lowFirst := if 2 * r = d then q % 2 = 0 else 2 * r < d
  if lowFirst then [⟨q, e⟩, ⟨q + 1, e⟩] else [⟨q + 1, e⟩, ⟨q, e⟩]

/-- The first decimal that reads back as `code` when the digits are tried with one
digit more in each step, `fuel` steps at most. -/
def digitsFrom (code num den : Nat) : Nat → Int → Option Decimal
  | 0, _ => none
  | fuel + 1, e =>
    match (neighbours num den e).find? (·.code = code) with
    | some d => some d
    | none => digitsFrom code num den fuel (e - 1)

/-- The decimal with the fewest digits that reads back as the finite magnitude with the
given code. -/
def digits (code : Nat) : Decimal :=
  let (num, den) := ratio code
  (digitsFrom code num den 18 (log10Ratio num den)).getD ⟨0, 0⟩

/-- How decimals are laid out: positionally when the place of the first digit lies
between two bounds, else with an exponent of at least so many digits. -/
structure DecimalLayout where
  leastPlace : Int
  greatestPlace : Int
  exponentWidth : Nat

/-- Positional from `0.0001` to below `10 ^ 16`; exponents have a sign and two digits or more. -/
def standardLayout : DecimalLayout := ⟨-4, 15, 2⟩

/-- Zeros at the end of a digit string, dropped but for the first digit. -/
def trimZeros (ds : List Char) : List Char :=
  match (ds.reverse.dropWhile (· = '0')).reverse with
  | [] => ['0']
  | ds => ds

/-- A digit string whose first digit stands at the place `p` (that is, for `10 ^ p`). -/
def layOut (l : DecimalLayout) (ds : List Char) (p : Int) : String :=
  if l.leastPlace ≤ p && p ≤ l.greatestPlace then
    if p < 0 then
      "0." ++ String.ofList (List.replicate (-p - 1).toNat '0' ++ ds)
    else
      let whole := ds.take (p.toNat + 1)
      let part := ds.drop (p.toNat + 1)
      String.ofList (whole ++ List.replicate (p.toNat + 1 - whole.length) '0') ++ "." ++
        (if part.isEmpty then "0" else String.ofList part)
  else
    let mantissa := match ds with
      | [] => ""
      | [d] => String.singleton d
      | d :: rest => String.ofList (d :: '.' :: rest)
    let e := Nat.toDigits 10 p.natAbs
    mantissa ++ "e" ++ (if p < 0 then "-" else "+") ++
      String.ofList (List.replicate (l.exponentWidth - e.length) '0' ++ e)

/-- The text of a number: `nan`, `inf`, or its shortest decimal. -/
def text : Binary64 → String
  | nan _ => "nan"
  | number neg code =>
    let magnitude :=
      if code.val = infinityCode then "inf"
      else if code.val = 0 then "0.0"
      else
        let d := digits code
        let ds := Nat.toDigits 10 d.digits
        layOut standardLayout (trimZeros ds) (ds.length - 1 + d.exponent)
    (if neg then "-" else "") ++ magnitude

end Sexpr.Binary64
