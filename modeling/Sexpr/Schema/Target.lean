/-
The types that expressions are decoded into.

* `ClassName`, `Target` — classes and the types built from them;
* `Note` — what an annotated type carries besides its base;
* `Target.union`, `Target.annotate` — unions and annotations in normal form: nested ones
  are flattened and repeated members dropped;
* `Target.same` — equality of types, where the order of a union's members does not matter;
* `Target.text`, `Target.name`, `Target.signatureText` — the texts of a type.
-/
import Sexpr.Text.Inspect

namespace Sexpr

/-- The kinds of expressions as classes. -/
inductive ExprClass where
  | expr
  | atom
  | string
  | int
  | real
  | rational
  | group
  | sequence
  | map
deriving DecidableEq

/-- The name of a class of expressions. -/
def ExprClass.name : ExprClass → String
  | expr => "Expr"
  | atom => "AtomExpr"
  | string => "StringExpr"
  | int => "SInt"
  | real => "SReal"
  | rational => "SRational"
  | group => "GroupExpr"
  | sequence => "SequenceExpr"
  | map => "MappingExpr"

/-- A class: a basic one, one of the notation's own, or a declared record. -/
inductive ClassName where
  | str
  | int
  | float
  | bool
  | none
  | list
  | dict
  | tuple
  | bytes
  | object
  | expr (kind : ExprClass)
  | quoted
  | pos
  | span
  | tokenSpans
  | field
  | document
  | record (name : String)
deriving DecidableEq

namespace ClassName

/-- The name of a class. -/
def name : ClassName → String
  | str => "str"
  | int => "int"
  | float => "float"
  | bool => "bool"
  | none => "NoneType"
  | list => "list"
  | dict => "dict"
  | tuple => "tuple"
  | bytes => "bytes"
  | object => "object"
  | expr kind => kind.name
  | quoted => "Quoted"
  | pos => "Pos"
  | span => "Span"
  | tokenSpans => "TokenSpans"
  | field => "MappingField"
  | document => "Document"
  | record name => name

/-- The name of a class with the module it belongs to. -/
def qualifiedName (c : ClassName) : String :=
  match c with
  | expr _ | tokenSpans | field | document => "mu.types." ++ c.name
  | pos | span => "mu.input." ++ c.name
  | quoted => "mu.quoted." ++ c.name
  | record name => "cfg." ++ name
  | _ => c.name

/-- The text of a class. -/
def text (c : ClassName) : String := "<class '" ++ c.qualifiedName ++ "'>"

end ClassName

/-- A constant that a literal type admits. -/
inductive Constant where
  | none
  | bool (value : Bool)
  | int (value : Int)
  | str (value : String)
deriving DecidableEq

/-- A constant as it is shown. -/
def Constant.inspect : Constant → String
  | none => "None"
  | bool b => if b then "True" else "False"
  | int i => toString i
  | str s => Text.inspect s

/-- A constant as it is written. -/
def Constant.text : Constant → String
  | str s => s
  | c => c.inspect

/-- How many values a field takes, as an annotation says it. -/
inductive Marker where
  | optionalArg
  | zeroOrMore
  | oneOrMore
deriving DecidableEq

/-- The name of a marker. -/
def Marker.name : Marker → String
  | optionalArg => "OptionalArg"
  | zeroOrMore => "ZeroOrMore"
  | oneOrMore => "OneOrMore"

/-- What an annotated type carries: a marker (the marker class or an instance of it), a
field's name in the notation, a decoder of its own (by its key), or something else. -/
inductive Note where
  | marker (marker : Marker) (isInstance : Bool)
  | fieldName (name : String)
  | decodeWith (key : Nat)
  | other (text : String)
deriving DecidableEq

/-- A note as it is shown. -/
def Note.inspect : Note → String
  | marker m isInstance =>
    if isInstance then "<mu.typed." ++ m.name ++ " object>" else "<class 'mu.typed." ++ m.name ++ "'>"
  | fieldName name => "FieldName(name=" ++ Text.inspect name ++ ")"
  | decodeWith _ => "DecodeWith(fn=<function>)"
  | other text => Text.inspect text

/-- Whether two notes are the same. Two instances of a marker never are. -/
def Note.same : Note → Note → Bool
  | marker m false, marker n false => m == n
  | fieldName a, fieldName b => a == b
  | decodeWith a, decodeWith b => a == b
  | other a, other b => a == b
  | _, _ => false

/-- A type that expressions are decoded into. A union is `closed` when it is written with
its name and brackets rather than with bars. -/
inductive Target where
  | any
  | cls (name : ClassName)
  | bareList
  | bareDict
  | list (item : Target)
  | dict (key value : Target)
  | tuple (items : List Target)
  | quoted (inner : Target)
  | literal (values : List Constant)
  | unionOf (closed : Bool) (members : List Target)
  | annotated (base : Target) (notes : List Note)

namespace Target

/-- The type of nothing. -/
def noneType : Target := .cls .none

/-! ### Equality -/

mutual

/-- Whether two types are the same. -/
def same : Target → Target → Bool
  | .any, .any => true
  | .cls a, .cls b => a == b
  | .bareList, .bareList => true
  | .bareDict, .bareDict => true
  | .list a, .list b => same a b
  | .dict a b, .dict c d => same a c && same b d
  | .tuple as, .tuple bs => sameAll as bs
  | .quoted a, .quoted b => same a b
  | .literal as, .literal bs => as.all bs.contains && bs.all as.contains
  | .unionOf _ as, .unionOf _ bs => allAmong as bs && bs.all fun b => anySame as b
  | .annotated a ns, .annotated b ms =>
    same a b && ns.length == ms.length && (ns.zip ms).all fun p => p.1.same p.2
  | _, _ => false

/-- Whether two lists of types are the same. -/
def sameAll : List Target → List Target → Bool
  | [], [] => true
  | a :: as, b :: bs => same a b && sameAll as bs
  | _, _ => false

/-- Whether each of some types is among others. -/
def allAmong : List Target → List Target → Bool
  | [], _ => true
  | a :: as, bs => bs.any (fun b => same a b) && allAmong as bs

/-- Whether a type is among others. -/
def anySame : List Target → Target → Bool
  | [], _ => false
  | a :: as, b => same a b || anySame as b

end

/-! ### Unions and annotations -/

/-- The members of a union, or the type itself. -/
def members : Target → List Target
  | .unionOf _ ms => ms
  | t => [t]

/-- Each type once, where it occurs first. -/
def distinct (ts : List Target) : List Target :=
  (ts.foldl (fun seen t => if seen.any (fun s => s.same t) then seen else t :: seen) []).reverse

/-- Whether a type is one of those that only a closed union can have as a member. -/
def isClosed : Target → Bool
  | .bareList | .bareDict | .quoted _ | .literal _ | .annotated _ _ => true
  | .unionOf closed _ => closed
  | _ => false

/-- The union of some types. -/
def union (closed : Bool) (ts : List Target) : Target :=
  match distinct (ts.flatMap members) with
  | [t] => t
  | ms => .unionOf (closed || ts.any isClosed) ms

/-- The type of some constants, each of them once. -/
def literalOf (values : List Constant) : Target := .literal values.eraseDups

/-- A type with notes; the notes of a type that has some already come first. -/
def annotate : Target → List Note → Target
  | .annotated base notes, more => .annotated base (notes ++ more)
  | t, notes => .annotated t notes

/-- A type without its notes, and the notes. -/
def unwrap : Target → Target × List Note
  | .annotated base notes => (base, notes)
  | t => (t, [])

/-! ### Texts -/

/-- Texts in brackets after a name. -/
def applied (name : String) (args : List String) : String :=
  name ++ "[" ++ ", ".intercalate args ++ "]"

/-- The member of a union of two whose other member is the type of nothing. -/
def optionalOf? : List Target → Option Nat
  | [.cls .none, _] => some 1
  | [_, .cls .none] => some 0
  | _ => none

mutual

/-- The text of a type inside another one. -/
def innerText : Target → String
  | .any => "typing.Any"
  | .cls c => c.qualifiedName
  | .bareList => "typing.List"
  | .bareDict => "typing.Dict"
  | .list a => applied "list" [innerText a]
  | .dict a b => applied "dict" [innerText a, innerText b]
  | .tuple [] => "tuple[()]"
  | .tuple as => applied "tuple" (innerTexts as)
  | .quoted a => applied "mu.quoted.Quoted" [innerText a]
  | .literal vs => applied "typing.Literal" (vs.map Constant.inspect)
  | .unionOf false ms => " | ".intercalate (barTexts ms)
  | .unionOf true ms =>
    match optionalOf? ms with
    | some i => applied "typing.Optional" (((innerTexts ms).drop i).take 1)
    | none => applied "typing.Union" (innerTexts ms)
  | .annotated a ns => applied "typing.Annotated" (innerText a :: ns.map Note.inspect)

/-- The texts of types inside another one. -/
def innerTexts : List Target → List String
  | [] => []
  | a :: as => innerText a :: innerTexts as

/-- The texts of the members of a union that is written with bars. -/
def barTexts : List Target → List String
  | [] => []
  | .cls .none :: as => "None" :: barTexts as
  | a :: as => innerText a :: barTexts as

end

/-- The text of a type. -/
def text : Target → String
  | .cls c => c.text
  | t => t.innerText

/-- The name of a class, or the text of another type. -/
def name : Target → String
  | .any => "Any"
  | .cls c => c.name
  | t => t.innerText

mutual

/-- The same type without notes. -/
def bare : Target → Target
  | .list a => .list (bare a)
  | .dict a b => .dict (bare a) (bare b)
  | .tuple as => .tuple (bareAll as)
  | .quoted a => .quoted (bare a)
  | .unionOf closed ms => union closed (bareAll ms)
  | .annotated a _ => bare a
  | t => t

/-- The same types without notes. -/
def bareAll : List Target → List Target
  | [] => []
  | a :: as => bare a :: bareAll as

end

mutual

/-- The text of a type in a signature. -/
def signatureText : Target → String
  | .any => "Any"
  | .cls c => c.name
  | .bareList => "list"
  | .bareDict => "dict"
  | .list a => applied "list" [signatureText a]
  | .dict a b => applied "dict" [signatureText a, signatureText b]
  | .tuple [] => "tuple"
  | .tuple as => applied "tuple" (signatureTexts as)
  | .quoted a => applied "Quoted" [signatureText a]
  | .literal vs => applied "Literal" (vs.map Constant.text)
  | .unionOf _ ms => " | ".intercalate (signatureTexts ms)
  | .annotated a _ => signatureText a

/-- The texts of types in a signature. -/
def signatureTexts : List Target → List String
  | [] => []
  | a :: as => signatureText a :: signatureTexts as

end

end Target
end Sexpr
