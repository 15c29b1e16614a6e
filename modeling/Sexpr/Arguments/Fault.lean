/-
Why arguments do not fit the parameters they are given to.

The names and values in a fault may be of any type; `ArgumentFault.message` is told
how to write them.
-/
import Sexpr.Arguments.Arity

namespace Sexpr

/-- Why arguments do not fit the parameters. -/
inductive ArgumentFault (ν α : Type) where
  /-- There are values that no parameter takes. -/
  | tooMany (values : List α)
  /-- Parameters lack values. -/
  | missing (names : List ν)
  /-- A parameter of one value is given a second one. -/
  | duplicate (name : ν)
  /-- A positional value follows a named argument that is out of order. -/
  | positionalAfterNamed (value : α) (index namedIndex : Int)
  /-- Names that no parameter has. -/
  | unknown (names : List ν)
  /-- Names without a value after them. -/
  | requiresValue (names : List ν)
  /-- The positional values can be assigned in more than one way. -/
  | ambiguous (argument : Option ν) (candidates : Option (List ν)) (details : String)
  /-- A name stands where the value of another name has to stand. -/
  | valueExpected (name found : ν)
deriving DecidableEq

namespace ArgumentFault

/-- The usual details of an ambiguity. -/
def ambiguousDetails : String := "Ambiguous assignment for positional arguments."

/-- A list of shown names. -/
def nameList {ν : Type} (inspect : ν → String) (names : List ν) : String :=
  "[" ++ ", ".intercalate (names.map inspect) ++ "]"

/-- The text of a fault. Names are written by `name` on their own and by `inspect`
inside a list, values by `value`. -/
def message {ν α : Type} (name inspect : ν → String) (value : α → String) :
    ArgumentFault ν α → String
  | tooMany vs => "Too many arguments provided. Extra: " ++ ", ".intercalate (vs.map value)
  | missing ns => "Missing required argument: '" ++ nameList inspect ns ++ "'"
  | duplicate n => "Duplicate argument provided for: '" ++ name n ++ "'"
  | positionalAfterNamed v i j =>
    "Positional argument '" ++ value v ++ s!"' (at index {i}) cannot follow an out-of-order named " ++
      s!"argument (last one at index {j})."
  | unknown ns => "Unknown named argument: " ++ nameList inspect ns
  | requiresValue ns => "Named argument " ++ nameList inspect ns ++ " requires at least one value."
  | ambiguous argument candidates details =>
    details ++
      (match argument with
        | some n => " Argument: '" ++ name n ++ "'."
        | none => "") ++
      (match candidates with
        | some ns => " Could belong to: " ++ ", ".intercalate (ns.map name) ++ "."
        | none => "")
  | valueExpected n m =>
    "Named argument ':" ++ name n ++ "' expected a value, but got named argument ':" ++ name m ++ "'."

end ArgumentFault
end Sexpr
