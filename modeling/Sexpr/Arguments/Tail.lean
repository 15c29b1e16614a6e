/-
The arguments of a group.

In a group, an atom that starts with a colon is the name of an argument; everything
else after the first item is a value.
-/
import Sexpr.Expr.Equality
import Sexpr.Failure

namespace Sexpr

/-- The name that an expression gives to an argument. -/
def Expr.keyword? : Expr → Option String
  | .leaf (.atom name) _ =>
    match name.toList with
    | ':' :: cs => some (String.ofList cs)
    | _ => none
  | _ => none

/-- An expression of a group as an argument. -/
def Expr.toArgument (e : Expr) : Argument Expr :=
  match e.keyword? with
  | some name => .named name
  | none => .value e

/-- Matches the expressions after the first one of a group with parameters. -/
def matchTail (params : List Parameter) (tail : List Expr) : Except Failure (Assignment Expr) :=
  match matchArguments params (tail.map Expr.toArgument) with
  | .ok r => .ok r
  | .error (.arguments f) => .error (.arguments f)
  | .error (.duplicateParameters names) => .error (.schema (.duplicateParameters names))
  | .error (.search f) => .error (.schema (.search f))

end Sexpr
