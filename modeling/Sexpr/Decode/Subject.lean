/-
What is decoded: an expression, or a field of a map that a decoder of its own passes on.

* `Subject.describe`, `Subject.origin?` — how a failure speaks of a subject and where
  it points to;
* `mismatch` — the failure of a subject that is not what was expected;
* `ExprClass.admits` — which expressions are of a class.
-/
import Sexpr.Expr.Depth
import Sexpr.Value

namespace Sexpr

/-- What is decoded. -/
inductive Subject where
  | expr (expr : Expr)
  | field (field : Field)

/-- A leaf in a failure. -/
def Leaf.describe : Leaf → String
  | int i => s!"int({i})"
  | real r => "real(" ++ r.text ++ ")"
  | rational n d => s!"rational({n}/{d})"
  | atom name => "atom(" ++ Text.inspect name ++ ")"
  | string value => "string(" ++ Text.inspect value ++ ")"

/-- Where a failure points to that is about a token. -/
def TokenSpans.origin (t : TokenSpans) : Origin :=
  match t.token with
  | some span => .span span
  | none => .token t

namespace Subject

/-- A subject in a failure. -/
def describe : Subject → String
  | .expr (.leaf l _) => l.describe
  | .expr (.items .group _ _) => "group(...)"
  | .expr (.items .sequence _ _) => "seq[...]"
  | .expr (.map _ _) => "map\x7b...\x7d"
  | .expr (.bare _) => "Expr"
  | .field _ => "MappingField"

/-- Where a failure about a subject points to. -/
def origin? : Subject → Option Origin
  | .expr (.leaf _ span) => span.map TokenSpans.origin
  | .expr (.items _ _ spans) => spans.opening.map TokenSpans.origin
  | .expr (.map _ spans) => spans.opening.map TokenSpans.origin
  | .expr (.bare _) => none
  | .field _ => none

/-- The name of the kind of a subject. -/
def kindName : Subject → String
  | .expr e => e.kindName
  | .field _ => "MappingField"

/-- The text of a subject. -/
def text : Subject → String
  | .expr e => e.text
  | .field f => (Value.field f).text

/-- The parts of a bracketed subject. -/
def parts? : Subject → Option (List Subject)
  | .expr (.items _ values _) => some (values.map .expr)
  | .expr (.map fields _) => some (fields.map .field)
  | _ => none

/-- The number of levels of a subject. -/
def depth : Subject → Nat
  | .expr e => e.depth
  | .field f => max f.key.depth f.value.depth

end Subject

/-- The failure of a subject that is not what was expected. -/
def mismatch (path expected : String) (s : Subject) (cause : Option Failure) : Failure :=
  .decode path expected s.describe s.origin? cause none

/-- Whether an expression is of a class. -/
def ExprClass.admits : ExprClass → Expr → Bool
  | .expr, _ => true
  | .atom, .leaf (.atom _) _ => true
  | .string, .leaf (.string _) _ => true
  | .int, .leaf (.int _) _ => true
  | .real, .leaf (.real _) _ => true
  | .rational, .leaf (.rational _ _) _ => true
  | .group, .items .group _ _ => true
  | .sequence, .items .sequence _ _ => true
  | .map, .map _ _ => true
  | _, _ => false

/-- The expression of a subject if it is of a class. -/
def Subject.ofClass? (kind : ExprClass) : Subject → Option Expr
  | .expr e => if kind.admits e then some e else none
  | .field _ => none

end Sexpr
