/-
Number tokens and number texts.

A token of a source is a numeral when it has one of four forms: an integer, a
rational `n/d`, a percentage, or a real with a point or an exponent. Digits may be
grouped by underscores between the first and the last one.

* `Numeral.ofToken?` — the form that a token has, if any;
* `Numeral.realOfDigits` — the floating point number nearest to digits with an exponent;
* `readInt`, `readReal?` — numbers out of free text, with digits of any script.
-/
import Sexpr.Number.Shortest
import Sexpr.Text.Digit
import Sexpr.Text.Space

namespace Sexpr

/-! ### The forms of number tokens -/

/-- A number token by its form, with signs taken off and underscores left out. -/
inductive Numeral where
  | integer (neg : Bool) (digits : List Char)
  | rational (neg : Bool) (num den : List Char)
  | percent (neg : Bool) (whole part : List Char)
  | real (neg : Bool) (whole part : List Char) (exponentNeg : Bool) (exponent : List Char)

namespace Numeral

/-- Digits with underscores between them: the first and the last character are digits. -/
def isGrouped (cs : List Char) : Bool :=
  cs.all (fun c => c.isDigit || c == '_') &&
    (cs.head?.any Char.isDigit && cs.getLast?.any Char.isDigit)

/-- Digits, at least one. -/
def isPlain (cs : List Char) : Bool := !cs.isEmpty && cs.all Char.isDigit

/-- The digits of a group. -/
def ungroup (cs : List Char) : List Char := cs.filter (· ≠ '_')

/-- An optional sign and what follows it. -/
def splitSign : List Char → Bool × List Char
  | '-' :: cs => (true, cs)
  | '+' :: cs => (false, cs)
  | cs => (false, cs)

/-- `±digits`. -/
def integer? (token : List Char) : Option Numeral :=
  let (neg, body) := splitSign token
  if isGrouped body then some (.integer neg (ungroup body)) else none

/-- `±digits/digits`. -/
def rational? (token : List Char) : Option Numeral :=
  let (neg, body) := splitSign token
  match body.span (· ≠ '/') with
  | (num, '/' :: den) =>
    if isGrouped num && isGrouped den then some (.rational neg (ungroup num) (ungroup den)) else none
  | _ => none

/-- `±digits%` or `±digits.digits%`. -/
def percent? (token : List Char) : Option Numeral :=
  let (neg, body) := splitSign token
  match body.span (· ≠ '%') with
  | (number, ['%']) =>
    match number.span (· ≠ '.') with
    | (whole, []) => if isGrouped whole then some (.percent neg (ungroup whole) []) else none
    | (whole, _ :: part) =>
      if isGrouped whole && isGrouped part then some (.percent neg (ungroup whole) (ungroup part))
      else none
  | _ => none

/-- The digits of a mantissa `digits`, `digits.` or `digits.digits`, and whether it has a point. -/
def mantissa? (cs : List Char) : Option (List Char × List Char × Bool) :=
  match cs.span (· ≠ '.') with
  | (whole, []) => if isGrouped whole then some (ungroup whole, [], false) else none
  | (whole, _ :: part) =>
    if isGrouped whole && (part.isEmpty || isGrouped part) then
      some (ungroup whole, ungroup part, true)
    else none

/-- A mantissa with a point, an exponent `e±digits`, or both. -/
def real? (token : List Char) : Option Numeral :=
  let (neg, body) := splitSign token
  match body.span (fun c => c ≠ 'e' && c ≠ 'E') with
  | (number, []) =>
    match mantissa? number with
    | some (whole, part, true) => some (.real neg whole part false [])
    | _ => none
  | (number, _ :: tail) =>
    let (exponentNeg, exponent) := splitSign tail
    match mantissa? number with
    | some (whole, part, _) =>
      if isPlain exponent then some (.real neg whole part exponentNeg exponent) else none
    | none => none

/-- The form of a token; a token that is not a number has none. -/
def ofToken? (token : List Char) : Option Numeral :=
  rational? token <|> percent? token <|> real? token <|> integer? token

/-- The value of a string of ASCII digits. -/
def natOfDigits (cs : List Char) : Nat :=
  cs.foldl (fun n c => 10 * n + (c.toNat - '0'.toNat)) 0

/-- The longest digit string that is read as an integer. -/
def maxDigits : Nat := 4300

/-- The value of a digit string, unless it is too long. -/
def boundedNat? (digits : List Char) : Option Nat :=
  if maxDigits < digits.length then none else some (natOfDigits digits)

/-- A natural number with a sign. -/
def withSign (neg : Bool) (n : Nat) : Int := if neg then -(n : Int) else n

/-- The number nearest to `whole.part` times ten to the exponent. -/
def realOfDigits (neg : Bool) (whole part : List Char) (exponent : Int) : Binary64 :=
  let d : Binary64.Decimal := ⟨natOfDigits (whole ++ part), exponent - part.length⟩
  .number neg ⟨d.code, Nat.lt_succ_of_le d.code_le⟩

end Numeral

/-! ### Reading numbers out of free text -/

/-- Why a text is not an integer. -/
inductive IntegerFault where
  | tooManyDigits (count : Nat)
  | notAnInteger
deriving DecidableEq

/-- Free text with every digit and every blank written as its ASCII counterpart.
Other characters beyond ASCII stand for no part of a number. A text that is ASCII
already is left alone. -/
def toAsciiNumber (s : String) : List Char :=
  s.toList.map fun c =>
    if c.toNat < 127 then c
    else if Text.isSpace c then ' '
    else match Text.digitValue? c with
      | some d => Char.ofNat ('0'.toNat + d)
      | none => '?'

/-- Blanks that may stand around a number. -/
def isAsciiBlank (c : Char) : Bool := c = ' ' || ('\t' ≤ c && c ≤ '\r')

/-- A text without the blanks at both ends. -/
def trimBlanks (cs : List Char) : List Char :=
  ((cs.dropWhile isAsciiBlank).reverse.dropWhile isAsciiBlank).reverse

/-- Whether underscores stand between digits only, where `prev` stands before the text. -/
def underscoresBetweenDigits (prev : Char) : List Char → Bool
  | [] => prev ≠ '_'
  | c :: cs =>
    (if c = '_' then prev.isDigit else prev ≠ '_' || c.isDigit) && underscoresBetweenDigits c cs

/-- The integer that a text denotes. -/
def readInt (s : String) : Except IntegerFault Int := do
  let (neg, body) := Numeral.splitSign ((toAsciiNumber s).dropWhile isAsciiBlank)
  let (digits, rest) := body.span fun c => c.isDigit || c = '_'
  if !Numeral.isPlain (Numeral.ungroup digits) || !underscoresBetweenDigits ' ' digits then
    throw .notAnInteger
  match Numeral.boundedNat? (Numeral.ungroup digits) with
  | none => throw (.tooManyDigits (Numeral.ungroup digits).length)
  | some n => if rest.all isAsciiBlank then return Numeral.withSign neg n else throw .notAnInteger

/-- The number that a text without sign and underscores denotes: a word for infinity or
not-a-number, or digits with an optional point and an optional exponent. -/
def readMagnitude? (neg : Bool) (body : List Char) : Option Binary64 :=
  let word := String.ofList (body.map Char.toLower)
  if word = "inf" || word = "infinity" then some (.infinity neg)
  else if word = "nan" then some (.nan none)
  else
    let (number, tail) := body.span fun c => c ≠ 'e' && c ≠ 'E'
    let (whole, point) := number.span (· ≠ '.')
    let part := point.drop 1
    if !(Numeral.isPlain (whole ++ part)) then none
    else match tail with
      | [] => some (Numeral.realOfDigits neg whole part 0)
      | _ :: exponent =>
        let (exponentNeg, ds) := Numeral.splitSign exponent
        if Numeral.isPlain ds then
          some (Numeral.realOfDigits neg whole part
            (Numeral.withSign exponentNeg (Numeral.natOfDigits ds)))
        else none

/-- The floating point number that a text denotes. -/
def readReal? (s : String) : Option Binary64 :=
  let cs := trimBlanks (toAsciiNumber s)
  if underscoresBetweenDigits ' ' cs then
    let (neg, body) := Numeral.splitSign (Numeral.ungroup cs)
    readMagnitude? neg body
  else none

end Sexpr
