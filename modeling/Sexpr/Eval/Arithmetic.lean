/-
Arithmetic on values.
-/
import Sexpr.Value

namespace Sexpr.Value

/-- A number as a floating point number. -/
def toReal : Value → Except Failure Binary64
  | .real r => .ok r
  | .int i => ((Binary64.ofInt? i).map Except.ok).getD (.error (.number .integerTooLarge))
  | .bool b => .ok (.ofRatio false (if b then 1 else 0) 1)
  | .fraction n d =>
    ((Binary64.ofQuotient? n d).map Except.ok).getD (.error (.number .quotientTooLarge))
  | v => .error (.eval (.notARealNumber v.kindName))

/-- A whole number, truth values included. -/
def toInt? : Value → Option Int
  | .int i => some i
  | .bool b => some (if b then 1 else 0)
  | _ => none

/-- An exact number, as a quotient. -/
def rational? : Value → Option (Int × Nat)
  | .fraction n d => some (n, d)
  | v => v.toInt?.map fun i => (i, 1)

/-- Whether a value is a number. -/
def isNumber : Value → Bool
  | .real _ => true
  | v => v.rational?.isSome

/-- The sum of two values: exact for exact numbers, floating point if one of them is. -/
def add (a b : Value) : Except Failure Value :=
  match a.toInt?, b.toInt?, a.rational?, b.rational? with
  | some i, some j, _, _ => .ok (.int (i + j))
  | _, _, some (n, d), some (m, e) => ofFraction (n * e + m * d) (d * e)
  | _, _, _, _ =>
    if a.isNumber && b.isNumber then do return .real ((← a.toReal).add (← b.toReal))
    else .error (.eval (.unsupportedSum a.kindName b.kindName))

/-- The square root of a number. -/
def sqrt (v : Value) : Except Failure Value := do
  match (← v.toReal).sqrt? with
  | some r => return .real r
  | none => throw (.number .negativeRoot)

end Sexpr.Value
