/-
Expressions as traces and messages show them: every part by name.
-/
import Sexpr.Expr
import Sexpr.Text.Inspect

namespace Sexpr

/-- A shown list. -/
def inspectList (shown : List String) : String := "[" ++ ", ".intercalate shown ++ "]"

/-- A shown optional part. -/
def inspectOption {α : Type} (inspect : α → String) : Option α → String
  | some a => inspect a
  | none => "None"

/-- A position as it is shown. -/
def Pos.inspect (p : Pos) : String := s!"Pos(line={p.line}, col={p.col}, index={p.index})"

/-- A span as it is shown. -/
def Span.inspect (s : Span) : String :=
  "Span(start=" ++ s.start.inspect ++ ", end=" ++ s.stop.inspect ++ ", raw=" ++
    Text.inspect s.raw ++ ")"

/-- The spans of a token as they are shown. -/
def TokenSpans.inspect (t : TokenSpans) : String :=
  "TokenSpans(token=" ++ inspectOption Span.inspect t.token ++ ", space=" ++
    inspectOption Span.inspect t.space ++ ")"

/-- The spans of brackets as they are shown after the values between them. -/
def BracketSpans.inspect (b : BracketSpans) : String :=
  ", open_bracket=" ++ inspectOption TokenSpans.inspect b.opening ++ ", separators=" ++
    inspectOption (fun ts => inspectList (ts.map TokenSpans.inspect)) b.separators ++
    ", close_bracket=" ++ inspectOption TokenSpans.inspect b.closing ++ ")"

/-- The name of the kind of a leaf. -/
def Leaf.kindName : Leaf → String
  | atom _ => "AtomExpr"
  | string _ => "StringExpr"
  | int _ => "SInt"
  | real _ => "SReal"
  | rational _ _ => "SRational"

/-- The value of a leaf as it is shown. -/
def Leaf.inspectValue : Leaf → String
  | atom name => Text.inspect name
  | string value => Text.inspect value
  | int value => toString value
  | real value => value.text
  | rational num den => s!"({num}, {den})"

/-- The name of the kind of an enclosure. -/
def Enclosure.kindName : Enclosure → String
  | group => "GroupExpr"
  | sequence => "SequenceExpr"

/-- The name of the kind of an expression. -/
def Expr.kindName : Expr → String
  | .leaf l _ => l.kindName
  | .items e _ _ => e.kindName
  | .map _ _ => "MappingExpr"
  | .bare _ => "Expr"

mutual

/-- An expression as it is shown. -/
def Expr.inspect : Expr → String
  | .leaf l span =>
    l.kindName ++ "(value=" ++ l.inspectValue ++ ", span=" ++
      inspectOption TokenSpans.inspect span ++ ")"
  | .items e values spans =>
    e.kindName ++ "(values=" ++ inspectList (Expr.inspectAll values) ++ spans.inspect
  | .map fields spans =>
    "MappingExpr(values=" ++ inspectList (Field.inspectAll fields) ++ spans.inspect
  | .bare _ => "<Expr>"

/-- Expressions as they are shown. -/
def Expr.inspectAll : List Expr → List String
  | [] => []
  | e :: es => e.inspect :: Expr.inspectAll es

/-- Fields as they are shown. -/
def Field.inspectAll : List (FieldOf Expr) → List String
  | [] => []
  | ⟨k, v, sep⟩ :: fs =>
    ("MappingField(key=" ++ k.inspect ++ ", value=" ++ v.inspect ++ ", separator=" ++
      inspectOption TokenSpans.inspect sep ++ ")") :: Field.inspectAll fs

end

/-- A field as it is shown. -/
def Field.inspect (f : Field) : String := String.join (Field.inspectAll [f])

/-- A document as it is shown. -/
def Document.inspect (d : Document) : String :=
  "Document(exprs=" ++ inspectList (Expr.inspectAll d.exprs) ++ ", leading_space=" ++
    inspectOption Span.inspect d.leading ++ ")"

end Sexpr
