/-
Declared records.

* `FieldDecl`, `RecordDecl` — the declaration of a record and its fields;
* `RecordDecl.extend` — a record that extends another one, unless its fields make no sense;
* `Records` — all declared records, together with those of the notation itself;
* `FieldDecl.label`, `FieldDecl.plan` — how a field is written and read;
* `RecordDecl.construct` — a record made of values for its fields.
-/
import Sexpr.Schema.Tag
import Sexpr.Value

namespace Sexpr

/-- The value of a field that is not given: one for all records, or a fresh one for each. -/
inductive Default where
  | shared (value : Value)
  | fresh (value : Value)

/-- The value itself. -/
def Default.value : Default → Value
  | shared v => v
  | fresh v => v

/-- The declaration of a field. Its type need not be declared. A field that is not
`given` cannot be given a value when its record is made. -/
structure FieldDecl where
  name : String
  declared : Option Target
  default : Option Default
  given : Bool

/-- The type of a field; any value is of a type that is not declared. -/
def FieldDecl.type (f : FieldDecl) : Target := f.declared.getD .any

/-- The declaration of a record. Its check may refuse the values of its fields. -/
structure RecordDecl where
  cls : ClassName
  fields : List FieldDecl
  ownTag : Option String
  check : Option (List (String × Value) → Except Failure Unit)

/-- The tag of a record. -/
def RecordDecl.tag (d : RecordDecl) : String := recordTag d.ownTag d.cls.name

/-! ### Extension -/

/-- A field declared anew takes nothing over but the type, if it declares none. -/
def FieldDecl.renew (old new : FieldDecl) : FieldDecl :=
  { new with declared := new.declared.or old.declared }

/-- Fields with one more declared; one declared anew keeps its place. -/
def FieldDecl.insert (fields : List FieldDecl) (new : FieldDecl) : List FieldDecl :=
  if fields.any (·.name = new.name) then
    fields.map fun old => if old.name = new.name then old.renew new else old
  else fields ++ [new]

/-- A value that all records share must not be one that can change. -/
def FieldDecl.checkDefault (f : FieldDecl) : Except SchemaFault Unit :=
  match f.default with
  | some (.shared v) =>
    if v.isMutable then .error (.mutableDefault f.name v.classText) else .ok ()
  | _ => .ok ()

/-- Of the fields that can be given, those without a default come first; `seen` says
that one with a default has come. -/
def FieldDecl.checkOrder (seen : Bool) : List FieldDecl → Except SchemaFault Unit
  | [] => .ok ()
  | f :: fs =>
    if !f.given then checkOrder seen fs
    else if f.default.isSome then checkOrder true fs
    else if seen then .error (.requiredAfterDefault f.name)
    else checkOrder seen fs

/-- A record that extends another one: the fields of the other one come first, and its
tag and its check hold unless the record has its own. -/
def RecordDecl.extend (base d : RecordDecl) : Except SchemaFault RecordDecl := do
  d.fields.forM FieldDecl.checkDefault
  let fields := d.fields.foldl FieldDecl.insert base.fields
  FieldDecl.checkOrder false fields
  return { d with
    fields := fields
    ownTag := d.ownTag.or base.ownTag
    check := d.check.or base.check }

/-! ### The records of the notation -/

/-- A field without a default. -/
def FieldDecl.required (name : String) (type : Target) : FieldDecl := ⟨name, some type, none, true⟩

/-- A field of an optional type that is nothing by default. -/
def FieldDecl.optional (name : String) (type : Target) : FieldDecl :=
  ⟨name, some (.union false [type, .noneType]), some (.shared .nothing), true⟩

/-- A record without a tag of its own and without a check. -/
def RecordDecl.plain (cls : ClassName) (fields : List FieldDecl) : RecordDecl :=
  ⟨cls, fields, none, none⟩

/-- A leaf as a record. -/
def RecordDecl.ofLeaf (kind : ExprClass) (type : Target) : RecordDecl :=
  .plain (.expr kind) [.required "value" type, .optional "span" (.cls .tokenSpans)]

/-- A bracketed expression as a record. -/
def RecordDecl.ofBrackets (kind : ExprClass) (item : ClassName) : RecordDecl :=
  .plain (.expr kind) [.required "values" (.list (.cls item)),
    .optional "open_bracket" (.cls .tokenSpans),
    .optional "separators" (.list (.cls .tokenSpans)),
    .optional "close_bracket" (.cls .tokenSpans)]

/-- A position. -/
def Value.toPos? : Value → Option Pos
  | .record .pos [(_, .int line), (_, .int col), (_, .int index)] => some ⟨line, col, index⟩
  | _ => none

/-- The fields of a span fit together. -/
def checkSpan : List (String × Value) → Except Failure Unit
  | [(_, start), (_, stop), (_, .str raw)] =>
    match start.toPos?, stop.toPos? with
    | some a, some b => ((Span.make a b raw).mapError Failure.span).map fun _ => ()
    | _, _ => .ok ()
  | _ => .ok ()

/-- The records of the notation itself. -/
def coreRecords : List RecordDecl :=
  [.plain .pos [.required "line" (.cls .int), .required "col" (.cls .int),
      .required "index" (.cls .int)],
    { RecordDecl.plain .span [.required "start" (.cls .pos), .required "end" (.cls .pos),
        .required "raw" (.cls .str)] with check := some checkSpan },
    .plain .tokenSpans [.optional "token" (.cls .span), .optional "space" (.cls .span)],
    .ofLeaf .atom (.cls .str),
    .ofLeaf .string (.cls .str),
    .ofLeaf .real (.cls .float),
    .ofLeaf .int (.cls .int),
    .ofLeaf .rational (.tuple [.cls .int, .cls .int]),
    .ofBrackets .group (.expr .expr),
    .ofBrackets .sequence (.expr .expr),
    .plain .field [.required "key" (.cls (.expr .expr)), .required "value" (.cls (.expr .expr)),
      .optional "separator" (.cls .tokenSpans)],
    .ofBrackets .map .field,
    .plain .document [.required "exprs" (.list (.cls (.expr .expr))),
      .optional "leading_space" (.cls .span)]]

/-- Declared records. -/
abbrev Records := List RecordDecl

/-- The record of a class, declared or of the notation itself. -/
def Records.find? (rs : Records) (c : ClassName) : Option RecordDecl :=
  List.find? (fun d => d.cls == c) (rs ++ coreRecords)

/-! ### How a field is written and read -/

/-- The name that the notes of a field give it in the notation. -/
def nameNote : List Note → Except SchemaFault (Option String)
  | notes =>
    match notes.filterMap fun
      | .fieldName name => some name
      | _ => none with
    | [] => .ok none
    | [name] => .ok (some name)
    | _ => .error (.repeatedNote "FieldName")

/-- The decoder that the notes of a type give it. -/
def decoderNote : List Note → Except SchemaFault (Option Nat)
  | notes =>
    match notes.filterMap fun
      | .decodeWith key => some key
      | _ => none with
    | [] => .ok none
    | [key] => .ok (some key)
    | _ => .error (.repeatedNote "DecodeWith")

/-- The only marker among notes. -/
def markerNote (notes : List Note) : Except SchemaFault (Option Marker) :=
  let has (m : Marker) : Bool := notes.any fun
    | .marker n _ => n == m
    | _ => false
  match [Marker.optionalArg, .zeroOrMore, .oneOrMore].filter has with
  | [] => .ok none
  | [m] => .ok (some m)
  | ms => .error (.severalMarkers (ms.map Marker.name))

/-- The name of a field in the notation, and its marker. -/
structure Label where
  name : String
  marker : Option Marker

/-- How a field is written. -/
def FieldDecl.label (f : FieldDecl) : Except SchemaFault Label := do
  let notes := f.type.unwrap.2
  let name ← nameNote notes
  return ⟨name.getD (hyphenated f.name), ← markerNote notes⟩

/-- How a field is read: its name in the notation and the number of its values. -/
structure FieldPlan where
  field : FieldDecl
  name : String
  arity : Arity

/-- The type of the items of a list type. -/
def Target.item? : Target → Option Target
  | .list item => some item
  | .bareList => some .any
  | _ => none

/-- The number of values that a field takes. -/
def FieldDecl.arity (f : FieldDecl) : Option Marker → Arity
  | some .optionalArg => .optional
  | some .zeroOrMore => .zeroOrMore
  | some .oneOrMore => .oneOrMore
  | none => if f.default.isSome then .optional else .required

/-- How a field is read. A field that takes any number of values has to be a list. -/
def FieldDecl.plan (f : FieldDecl) : Except SchemaFault FieldPlan := do
  let label ← f.label
  let arity := f.arity label.marker
  let base := f.type.unwrap.1
  if arity.isVariadic && base.item?.isNone then
    throw (.variadicNotList f.name base.text)
  return ⟨f, label.name, arity⟩

/-! ### Making records -/

/-- A span. -/
def Value.toSpan? : Value → Option Span
  | .record .span [(_, start), (_, stop), (_, .str raw)] => do
    return ⟨← start.toPos?, ← stop.toPos?, raw⟩
  | _ => none

/-- Nothing, or what a reader makes of a value. -/
def Value.optionally {α : Type} (read : Value → Option α) : Value → Option (Option α)
  | .nothing => some none
  | v => (read v).map some

/-- The spans of a token. -/
def Value.toTokenSpans? : Value → Option TokenSpans
  | .record .tokenSpans [(_, token), (_, space)] => do
    return ⟨← token.optionally toSpan?, ← space.optionally toSpan?⟩
  | _ => none

/-- The elements of a list, each read. -/
def Value.toListOf? {α : Type} (read : Value → Option α) : Value → Option (List α)
  | .list items => items.mapM read
  | _ => none

/-- An expression. -/
def Value.toExpr? : Value → Option Expr
  | .expr e => some e
  | _ => none

/-- A field of a map. -/
def Value.toField? : Value → Option Field
  | .field f => some f
  | _ => none

/-- The spans of brackets, from the fields of a record. -/
def bracketSpans? (opening separators closing : Value) : Option BracketSpans := do
  return ⟨← opening.optionally Value.toTokenSpans?,
    ← separators.optionally (Value.toListOf? Value.toTokenSpans?),
    ← closing.optionally Value.toTokenSpans?⟩

/-- The expression, field or document that a record of the notation stands for. -/
def coreValue? : ClassName → List Value → Option Value
  | .expr .atom, [.str s, span] => do
    return .expr (.leaf (.atom s) (← span.optionally Value.toTokenSpans?))
  | .expr .string, [.str s, span] => do
    return .expr (.leaf (.string s) (← span.optionally Value.toTokenSpans?))
  | .expr .int, [.int i, span] => do
    return .expr (.leaf (.int i) (← span.optionally Value.toTokenSpans?))
  | .expr .real, [.real r, span] => do
    return .expr (.leaf (.real r) (← span.optionally Value.toTokenSpans?))
  | .expr .rational, [.tuple [.int n, .int d], span] => do
    return .expr (.leaf (.rational n d) (← span.optionally Value.toTokenSpans?))
  | .expr .group, [values, a, b, c] => do
    return .expr (.items .group (← values.toListOf? Value.toExpr?) (← bracketSpans? a b c))
  | .expr .sequence, [values, a, b, c] => do
    return .expr (.items .sequence (← values.toListOf? Value.toExpr?) (← bracketSpans? a b c))
  | .expr .map, [values, a, b, c] => do
    return .expr (.map (← values.toListOf? Value.toField?) (← bracketSpans? a b c))
  | .field, [.expr k, .expr v, sep] => do
    return .field ⟨k, v, ← sep.optionally Value.toTokenSpans?⟩
  | .document, [exprs, leading] => do
    return .document ⟨← exprs.toListOf? Value.toExpr?, ← leading.optionally Value.toSpan?⟩
  | _, _ => none

/-- A record with the given values of its fields, the others by default. -/
def RecordDecl.construct (d : RecordDecl) (given : List (String × Value)) : Except Failure Value := do
  match given.find? fun g => !d.fields.any fun f => f.name == g.1 && f.given with
  | some g => throw (.call (.unexpectedKeyword (d.cls.name ++ ".__init__") g.1))
  | none => pure ()
  let required := d.fields.filterMap fun f =>
    if f.given && f.default.isNone && (given.lookup f.name).isNone then some f.name else none
  unless required.isEmpty do
    throw (.call (.missingPositional (d.cls.name ++ ".__init__") required))
  let values := d.fields.filterMap fun f =>
    ((given.lookup f.name).or (f.default.map Default.value)).map fun v => (f.name, v)
  match d.check with
  | some check => check values
  | none => pure ()
  return (coreValue? d.cls (values.map Prod.snd)).getD (.record d.cls values)

/-! ### Looking into records -/

/-- A value as a record: its class and its fields. -/
def Value.asRecord? : Value → Option (ClassName × List (String × Value))
  | .record c fields => some (c, fields)
  | .field f =>
    some (.field, [("key", .expr f.key), ("value", .expr f.value),
      ("separator", Value.ofOption Value.ofTokenSpans f.separator)])
  | .document d =>
    some (.document, [("exprs", .list (d.exprs.map Value.expr)),
      ("leading_space", Value.ofOption Value.ofSpan d.leading)])
  | _ => none

end Sexpr
