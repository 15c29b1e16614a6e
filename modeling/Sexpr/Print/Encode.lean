/-
Values as expressions.

Plain data becomes leaves, sequences and maps; a record becomes a group of its tag and
its fields, each after its name. One field may go without its name: the only one, or the
first one if its name is among given ones.

* `recordGroup` — the group of a record;
* `Value.encode` — the expression of a value;
* `Value.toDocument` — the document of a value.
-/
import Sexpr.Schema.Record
import Sexpr.Text.Space

namespace Sexpr

/-- How values become expressions: whether a record's only field goes without its name,
the names of fields that may go first without their names, and whether expressions
keep their spans. -/
structure EncodeOptions where
  singlePositional : Bool
  firstPositional : List String
  keepSpans : Bool

/-- A name as an expression. -/
def Expr.ofName (name : String) : Expr := .leaf (.atom name) none

/-- Items as a sequence without spans. -/
def Expr.ofItems (values : List Expr) : Expr := .items .sequence values .none

/-- Whether a text can be written as an atom. -/
def isAtomText (s : String) : Bool :=
  !s.isEmpty && s.toList.all fun c => !(Text.isSpace c || "()[]\x7b\x7d\",;".toList.contains c)

/-- A text as an expression: a string in a field, else an atom where it can be one. -/
def encodeText (inField : Bool) (s : String) : Expr :=
  if !inField && isAtomText s then .ofName s else .leaf (.string s) none

/-! ### Records -/

/-- A field that is written: its own name, its name in the notation, and its values. -/
structure WrittenField where
  field : String
  label : String
  values : List Expr

/-- The name of a written field and its values. -/
def WrittenField.named (f : WrittenField) : List Expr := .ofName (":" ++ f.label) :: f.values

/-- Whether the first of the written fields goes without its name. -/
def EncodeOptions.leadsPositional (o : EncodeOptions) (first : WrittenField)
    (rest : List WrittenField) : Bool :=
  (o.singlePositional && rest.isEmpty) ||
    o.firstPositional.contains first.field || o.firstPositional.contains first.label

/-- The group of a record. -/
def recordGroup (o : EncodeOptions) (tag : String) (fields : List WrittenField) : Expr :=
  let args := match fields with
    | [] => []
    | first :: rest =>
      (if o.leadsPositional first rest then first.values else first.named) ++
        rest.flatMap WrittenField.named
  .items .group (.ofName tag :: args) .none

/-- A field with one value under its own name. -/
def WrittenField.one (name : String) (value : Expr) : WrittenField :=
  ⟨name, hyphenated name, [value]⟩

/-- The group of a record of the notation itself. -/
def coreGroup (o : EncodeOptions) (cls : ClassName) (fields : List (String × Expr)) : Expr :=
  recordGroup o (recordTag none cls.name) (fields.map fun f => .one f.1 f.2)

/-- What stands for nothing. -/
def noneExpr : Expr := .ofName "none"

/-- An integer as an expression. -/
def Expr.ofInt (i : Int) : Expr := .leaf (.int i) none

/-- A position as a record. -/
def Pos.encode (o : EncodeOptions) (p : Pos) : Expr :=
  coreGroup o .pos [("line", .ofInt p.line), ("col", .ofInt p.col), ("index", .ofInt p.index)]

/-- A span as a record. -/
def Span.encode (o : EncodeOptions) (s : Span) : Expr :=
  coreGroup o .span [("start", s.start.encode o), ("end", s.stop.encode o),
    ("raw", encodeText true s.raw)]

/-- The spans of a token as a record. -/
def TokenSpans.encode (o : EncodeOptions) (t : TokenSpans) : Expr :=
  coreGroup o .tokenSpans [("token", (t.token.map (Span.encode o)).getD noneExpr),
    ("space", (t.space.map (Span.encode o)).getD noneExpr)]

/-- An expression, with or without its spans. -/
def Expr.encode (o : EncodeOptions) (e : Expr) : Except Failure Expr :=
  if o.keepSpans then .ok e else e.plain.mapError fun _ => .print .bareExpr

/-- A field of a map as a record. -/
def Field.encode (o : EncodeOptions) (f : Field) : Except Failure Expr := do
  return coreGroup o .field [("key", ← f.key.encode o), ("value", ← f.value.encode o),
    ("separator", (f.separator.map (TokenSpans.encode o)).getD noneExpr)]

/-- A document as a record. -/
def Document.encode (o : EncodeOptions) (d : Document) : Except Failure Expr := do
  return coreGroup o .document [("exprs", .ofItems (← d.exprs.mapM (Expr.encode o))),
    ("leading_space", (d.leading.map (Span.encode o)).getD noneExpr)]

/-! ### Values -/

/-- What is written of a field: nothing at all, or some values. -/
abbrev FieldText := Except Failure (Option (List Expr))

/-- The written fields of a record, in the order of their declaration. -/
def writtenFields (cls : ClassName) (texts : List (String × FieldText)) :
    List (FieldDecl × Label) → Except Failure (List WrittenField)
  | [] => .ok []
  | (f, label) :: rest =>
    match texts.lookup f.name with
    | none => .error (.noAttribute cls.name f.name)
    | some text => do
      let values ← text
      let others ← writtenFields cls texts rest
      return match values with
        | some values => ⟨f.name, label.name, values⟩ :: others
        | none => others

/-- The labels of the fields of a record. -/
def RecordDecl.labels (d : RecordDecl) : Except Failure (List (FieldDecl × Label)) :=
  d.fields.mapM fun f => do return (f, ← f.label.mapError Failure.schema)

/-- The declaration that the fields of a record give, for a class without one. -/
def RecordDecl.ofFields (cls : ClassName) (fields : List (String × Value)) : RecordDecl :=
  .plain cls (fields.map fun f => .required f.1 .any)

/-- The marker of a field, if it is declared. -/
def markerOf (labels : List (FieldDecl × Label)) (name : String) : Option Marker :=
  (labels.find? fun l => l.1.name == name).bind fun l => l.2.marker

mutual

/-- The expression of a value. -/
def Value.encode (rs : Records) (o : EncodeOptions) (inField : Bool) :
    Value → Except Failure Expr
  | .expr e => e.encode o
  | .quoted _ v => v.encode rs o inField
  | .record c fields => do
    let decl := (rs.find? c).getD (.ofFields c fields)
    let labels ← decl.labels
    let texts := Value.encodeFields rs o labels fields
    return recordGroup o decl.tag (← writtenFields c texts labels)
  | .field f => f.encode o
  | .document d => d.encode o
  | .recordType _ => .error (.print .classValue)
  | .nothing => .ok noneExpr
  | .bool b => .ok (.ofName (if b then "true" else "false"))
  | .int i => .ok (.ofInt i)
  | .real r => .ok (.leaf (.real r) none)
  | .str s => .ok (encodeText inField s)
  | .list items => do return .ofItems (← Value.encodeAll rs o false items)
  | .tuple items => do return .ofItems (← Value.encodeAll rs o false items)
  | .dict _ entries => do return .map (← Value.encodeEntries rs o entries) .none
  | v => .ok (.ofName v.text)

/-- The expressions of values. -/
def Value.encodeAll (rs : Records) (o : EncodeOptions) (inField : Bool) :
    List Value → Except Failure (List Expr)
  | [] => .ok []
  | v :: vs => do
    let e ← v.encode rs o inField
    return e :: (← Value.encodeAll rs o inField vs)

/-- The fields of a map for the entries of a dictionary. -/
def Value.encodeEntries (rs : Records) (o : EncodeOptions) :
    List (Value × Value) → Except Failure (List (FieldOf Expr))
  | [] => .ok []
  | (k, v) :: es => do
    let key ← k.encode rs o false
    let value ← v.encode rs o false
    return ⟨key, value, none⟩ :: (← Value.encodeEntries rs o es)

/-- What is written of each field of a record. An optional field without a value and an
empty list of values are left out. -/
def Value.encodeFields (rs : Records) (o : EncodeOptions) (labels : List (FieldDecl × Label)) :
    List (String × Value) → List (String × FieldText)
  | [] => []
  | (name, v) :: fs =>
    let text : FieldText :=
      match markerOf labels name, v with
      | some .optionalArg, .nothing => .ok none
      | some .zeroOrMore, .list items | some .zeroOrMore, .tuple items =>
        if items.isEmpty then .ok none else do
          return some (← Value.encodeAll rs o true items)
      | some .oneOrMore, .list items | some .oneOrMore, .tuple items =>
        if items.isEmpty then .error (.print (.emptyVariadic name)) else do
          return some (← Value.encodeAll rs o true items)
      | some .zeroOrMore, _ | some .oneOrMore, _ => .error (.print (.variadicValue name))
      | _, v => do return some [← v.encode rs o true]
    (name, text) :: Value.encodeFields rs o labels fs

end

/-! ### Documents -/

/-- Whether a value is written as an expression of its own. -/
def Value.isTopLevel : Value → Bool
  | .expr _ | .record _ _ | .recordType _ | .field _ | .document _ => true
  | _ => false

/-- The document of a value. A list of expressions and records becomes one expression
for each of them. -/
def Value.toDocument (rs : Records) (o : EncodeOptions) (v : Value) : Except Failure Document :=
  let one : Except Failure Document := do return ⟨[← v.encode rs o true], none⟩
  let each (items : List Value) : Except Failure Document :=
    if !items.isEmpty && items.all Value.isTopLevel then do
      return ⟨← Value.encodeAll rs o true items, none⟩
    else one
  match v with
  | .document d => if o.keepSpans then .ok d else d.plain.mapError fun _ => .print .bareExpr
  | .list items => each items
  | .tuple items => each items
  | _ => one

end Sexpr
