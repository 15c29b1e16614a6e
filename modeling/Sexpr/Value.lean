/-
The values that expressions stand for.

* `Value` — plain data, expressions themselves, records, and functions;
* `Value.inspect`, `Value.text` — how a value is shown inside others and on its own;
* `Value.hashFault?`, `Value.sameKey` — which values can be keys, and which keys are one;
* `Entries.put` — entries of a dictionary in the order of their first occurrence.
-/
import Sexpr.Failure
import Sexpr.Schema.Target

namespace Sexpr

/-- How a parameter of a function is given its value. -/
inductive ParamKind where
  | normal
  | positionalOnly
  | keywordOnly
  | rest
  | keywords
deriving DecidableEq

/-- A parameter of a function, with values of type `β` as defaults. -/
structure ParamOf (β : Type) where
  name : String
  kind : ParamKind
  type : Option Target
  default : Option β

/-- What a function does with its arguments. -/
inductive BodyOf (β : Type) where
  /-- Gives its name and arguments back. -/
  | pack
  /-- Always the same value. -/
  | const (value : β)
  /-- Always fails. Where failures are kept, one of any kind is; there is no kind that goes
  past a call that keeps its failure, as a signal to stop the whole program would. -/
  | fail (kind text : String)
  /-- The sum of its arguments. -/
  | sum
  /-- The texts of its arguments, joined. -/
  | concat
  /-- Binds a quoted name to a value. -/
  | define
  /-- Evaluates a quoted expression. -/
  | evaluate
  /-- The text of a quoted expression. -/
  | source
  /-- The square root. -/
  | sqrt
  /-- Makes a record. -/
  | construct (record : String)

/-- A function. -/
structure FunctionOf (β : Type) where
  name : String
  params : List (ParamOf β)
  result : Option Target
  body : BodyOf β

/-- A value. -/
inductive Value where
  | nothing
  | bool (value : Bool)
  | int (value : Int)
  | real (value : Binary64)
  | fraction (num : Int) (den : Nat)
  | str (value : String)
  | list (items : List Value)
  | tuple (items : List Value)
  | dict (ordered : Bool) (entries : List (Value × Value))
  | expr (expr : Expr)
  | field (field : Field)
  | document (document : Document)
  /-- A value that stands for itself; it equals no other one, so it has a mark. -/
  | quoted (mark : Mark) (value : Value)
  | record (cls : ClassName) (fields : List (String × Value))
  | recordType (name : String)
  /-- A function; a registered one takes its arguments as its signature says. -/
  | function (registered : Bool) (function : FunctionOf Value)
  /-- A form that takes its arguments unevaluated. -/
  | form
  /-- A callable that does not tell its parameters. -/
  | callable
  | failure (failure : Failure)

abbrev Param := ParamOf Value
abbrev Body := BodyOf Value
abbrev Function := FunctionOf Value

namespace Value

/-- The name of the kind of a value. -/
def kindName : Value → String
  | .nothing => "NoneType"
  | .bool _ => "bool"
  | .int _ => "int"
  | .real _ => "float"
  | .fraction _ _ => "Fraction"
  | .str _ => "str"
  | .list _ => "list"
  | .tuple _ => "tuple"
  | .dict false _ => "dict"
  | .dict true _ => "collections.OrderedDict"
  | .expr e => e.kindName
  | .field _ => "MappingField"
  | .document _ => "Document"
  | .quoted _ _ => "Quoted"
  | .record c _ => c.name
  | .recordType _ => "type"
  | .function true _ => "NativeFunction"
  | .function false _ => "function"
  | .form => "Macro"
  | .callable => "Opaque"
  | .failure _ => "Exception"

/-- The text of the class of a value. -/
def classText : Value → String
  | .fraction _ _ => "<class 'fractions.Fraction'>"
  | .expr e => "<class 'mu.types." ++ e.kindName ++ "'>"
  | .field _ => ClassName.field.text
  | .document _ => ClassName.document.text
  | .quoted _ _ => ClassName.quoted.text
  | .record c _ => c.text
  | .function true _ => "<class 'mu.exec.NativeFunction'>"
  | v => "<class '" ++ v.kindName ++ "'>"

/-- A position as a record. -/
def ofPos (p : Pos) : Value :=
  .record .pos [("line", .int p.line), ("col", .int p.col), ("index", .int p.index)]

/-- A span as a record. -/
def ofSpan (s : Span) : Value :=
  .record .span [("start", ofPos s.start), ("end", ofPos s.stop), ("raw", .str s.raw)]

/-- An optional part as a value. -/
def ofOption {α : Type} (f : α → Value) : Option α → Value
  | some a => f a
  | none => .nothing

/-- The spans of a token as a record. -/
def ofTokenSpans (t : TokenSpans) : Value :=
  .record .tokenSpans [("token", ofOption ofSpan t.token), ("space", ofOption ofSpan t.space)]

/-! ### Texts -/

mutual

/-- A value as it is shown inside others. -/
def inspect : Value → String
  | .nothing => "None"
  | .bool b => if b then "True" else "False"
  | .int i => toString i
  | .real r => r.text
  | .fraction n d => s!"Fraction({n}, {d})"
  | .str s => Text.inspect s
  | .list items => inspectList (inspectAll items)
  | .tuple [a] => "(" ++ inspect a ++ ",)"
  | .tuple items => "(" ++ ", ".intercalate (inspectAll items) ++ ")"
  | .dict false entries => "\x7b" ++ ", ".intercalate (inspectEntries entries) ++ "\x7d"
  | .dict true [] => "OrderedDict()"
  | .dict true entries => "OrderedDict(" ++ inspectList (inspectPairs entries) ++ ")"
  | .expr e => e.inspect
  | .field f => f.inspect
  | .document d => d.inspect
  | .quoted _ v => "Quoted(" ++ inspect v ++ ")"
  | .record c fields => c.name ++ "(" ++ ", ".intercalate (inspectFields fields) ++ ")"
  | .recordType name => (ClassName.record name).text
  | .function _ f => "<function " ++ f.name ++ ">"
  | .form => "<Macro>"
  | .callable => "<Opaque>"
  | .failure f => f.message

/-- Values as they are shown inside others. -/
def inspectAll : List Value → List String
  | [] => []
  | v :: vs => inspect v :: inspectAll vs

/-- Entries as they are shown in a dictionary. -/
def inspectEntries : List (Value × Value) → List String
  | [] => []
  | (k, v) :: es => (inspect k ++ ": " ++ inspect v) :: inspectEntries es

/-- Entries as they are shown in an ordered dictionary. -/
def inspectPairs : List (Value × Value) → List String
  | [] => []
  | (k, v) :: es => ("(" ++ inspect k ++ ", " ++ inspect v ++ ")") :: inspectPairs es

/-- Fields as they are shown in a record. -/
def inspectFields : List (String × Value) → List String
  | [] => []
  | (name, v) :: fs => (name ++ "=" ++ inspect v) :: inspectFields fs

end

/-- A value as it is written on its own. -/
def text : Value → String
  | .str s => s
  | .fraction n d => if d = 1 then toString n else s!"{n}/{d}"
  | .expr e => e.text
  | .field f => String.join (Field.texts [f])
  | .document d => d.text
  | v => v.inspect

/-! ### Keys -/

mutual

/-- The kind that keeps a value from being a key: what can change, and what compares by
its parts, cannot be one. -/
def hashFault? : Value → Option String
  | .list _ => some "list"
  | .dict ordered _ => some (if ordered then "collections.OrderedDict" else "dict")
  | .tuple items => hashFaults? items
  | .expr (.bare _) => none
  | .expr e => some e.kindName
  | .field _ => some "MappingField"
  | .document _ => some "Document"
  | .record c _ => some c.name
  | .function true _ => some "NativeFunction"
  | _ => none

/-- The first kind that keeps values from being a key. -/
def hashFaults? : List Value → Option String
  | [] => none
  | v :: vs =>
    match hashFault? v with
    | some kind => some kind
    | none => hashFaults? vs

end

/-- Whether values of the kind can change. -/
def isMutable : Value → Bool
  | .tuple _ => false
  | v => v.hashFault?.isSome

/-- The exact value of a number. -/
def ratio? : Value → Option (Int × Nat)
  | .bool b => some (if b then 1 else 0, 1)
  | .int i => some (i, 1)
  | .fraction n d => some (n, d)
  | .real r => r.toRatio?
  | _ => none

mutual

/-- Whether two values are one key. Numbers are one key when they are equal, whatever
their kinds, and what has a mark when it is the same thing. -/
def sameKey : Value → Value → Bool
  | .nothing, .nothing => true
  | .str a, .str b => a == b
  | .tuple as, .tuple bs => sameKeys as bs
  | .recordType a, .recordType b => a == b
  | .quoted a _, .quoted b _ => Mark.same a b
  | .expr (.bare a), .expr (.bare b) => Mark.same a b
  | .real (.nan a), .real (.nan b) => Mark.same a b
  | .real a, .real b =>
    match a.toRatio?, b.toRatio? with
    | some (n, d), some (m, e) => n * e == m * d
    | _, _ => a.isInfinite && a == b
  | a, b =>
    match a.ratio?, b.ratio? with
    | some (n, d), some (m, e) => n * e == m * d
    | _, _ => false

/-- Whether two lists of values are one key. -/
def sameKeys : List Value → List Value → Bool
  | [], [] => true
  | a :: as, b :: bs => sameKey a b && sameKeys as bs
  | _, _ => false

end

end Value

/-- The entries of a dictionary. -/
abbrev Entries := List (Value × Value)

namespace Entries

/-- Sets the value of a key that can be one: the first key stays in its place. -/
def set (es : Entries) (key value : Value) : Entries :=
  if es.any (fun e => e.1.sameKey key) then
    es.map fun e => if e.1.sameKey key then (e.1, value) else e
  else es ++ [(key, value)]

/-- Sets the value of a key. -/
def put (es : Entries) (key value : Value) : Except Failure Entries :=
  match key.hashFault? with
  | some kind => .error (.unhashable kind)
  | none => .ok (es.set key value)

end Entries

/-- A fraction in lowest terms, with a positive denominator. -/
def Value.ofFraction (num den : Int) : Except Failure Value :=
  if den = 0 then .error (.number (.zeroDenominator num))
  else
    let g := num.natAbs.gcd den.natAbs
    .ok (.fraction ((if den < 0 then -num else num) / g) (den.natAbs / g))

end Sexpr
