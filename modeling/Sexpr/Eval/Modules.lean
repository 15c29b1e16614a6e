/-
Modules that atoms can refer to.
-/
import Sexpr.Value

namespace Sexpr

/-- Modules by their names, each with the values of its attributes. -/
abbrev Modules := List (String × List (String × Value))

/-- The ratio of the circumference of a circle to its diameter. -/
def pi : Binary64 := .ofRatio false 3141592653589793 1000000000000000

/-- The square root. -/
def sqrtFunction : Function := ⟨"sqrt", [⟨"x", .positionalOnly, none, none⟩], none, .sqrt⟩

/-- The modules that are always there. -/
def coreModules : Modules :=
  [("math", [("pi", .real pi), ("sqrt", .function false sqrtFunction)])]

/-- The attributes of a module. -/
def Modules.find? (ms : Modules) (name : String) : Option (List (String × Value)) :=
  List.lookup name (ms ++ coreModules)

/-- A name before and after the last of a character in it. -/
def splitLast (sep : Char) (name : List Char) : Option (List Char × List Char) :=
  let after := name.reverse.takeWhile (· ≠ sep)
  match name.reverse.drop after.length with
  | [] => none
  | _ :: before => some (before.reverse, after.reverse)

/-- The fault of a module that is not there: of a dotted name the part before the last
dot is looked for first. The first number bounds the number of dots. -/
def Modules.missing (ms : Modules) : Nat → List Char → EvalFault
  | 0, name => .noModule (String.ofList name)
  | n + 1, name =>
    match splitLast '.' name with
    | none | some ([], _) => .noModule (String.ofList name)
    | some (parent, _) =>
      if (ms.find? (String.ofList parent)).isSome then
        .notAPackage (String.ofList name) (String.ofList parent)
      else ms.missing n parent

/-- The attributes of a module, or why there is no such module. -/
def Modules.load (ms : Modules) (name : List Char) : Except EvalFault (List (String × Value)) :=
  match name with
  | '.' :: _ => .error (.relativeModule (String.ofList name))
  | [] => .error .emptyModuleName
  | name =>
    match ms.find? (String.ofList name) with
    | some attributes => .ok attributes
    | none => .error (ms.missing name.length name)

/-- The value of an attribute, both given in one path: the module, a slash, and the
attribute. -/
def Modules.get (ms : Modules) (path : List Char) : Except EvalFault Value := do
  match splitLast '/' path with
  | none => throw .noAttributePath
  | some (name, member) =>
    let attributes ← ms.load name
    match attributes.lookup (String.ofList member) with
    | some v => return v
    | none => throw (.noModuleAttribute (String.ofList name) (String.ofList member))

end Sexpr
