/-
Writing documents as they stand in their source.

Parts with spans are written as in the source; parts without, such as those put in
later, are laid out anew, with a separator where the source gives none.

* `Expr.render`, `Document.render` — an expression and a document.
-/
import Sexpr.Print.Layout

namespace Sexpr

/-- The source text of a token, if both the token and the white space after it are known. -/
def TokenSpans.sourceText? (t : TokenSpans) : Option String :=
  if t.token.isSome && t.space.isSome then some t.text else none

/-- The source text of an optional token. -/
def sourceText? (t : Option TokenSpans) : Option String := t.bind TokenSpans.sourceText?

/-- What stands after an item: its separator, or a blank where none is known, or where an
empty one follows an item without spans. Nothing needs to stand after the last one. -/
def itemGap (separator : Option TokenSpans) (isLast hasSpans : Bool) : String :=
  match sourceText? separator with
  | some t => if t.isEmpty && !isLast && !hasSpans then " " else t
  | none => if isLast then "" else " "

/-- What stands between a key and its value. -/
def keyGap (separator : Option TokenSpans) (hasSpans : Bool) : String :=
  match sourceText? separator with
  | some t => if t.isEmpty && !hasSpans then ": " else t
  | none => ": "

/-- What stands after a field. -/
def fieldGap (separator : Option TokenSpans) (isLast : Bool) : String :=
  match sourceText? separator with
  | some t => if t.isEmpty && !isLast then ", " else t
  | none => if isLast then "" else ", "

/-- Brackets around a body. -/
def sourceBrackets (spans : BracketSpans) (brackets : String × String) (body : String) : String :=
  (sourceText? spans.opening).getD brackets.1 ++ body ++ (sourceText? spans.closing).getD brackets.2

mutual

/-- An expression at a level. -/
def Expr.render (l : Layout) (level : Nat) : Expr → Except PrintFault String
  | .leaf leaf span => .ok ((sourceText? span).getD leaf.text)
  | .items e values spans =>
    if spans.isSome then do
      let body ← Expr.renderAll l (level + 1) (spans.separators.getD []) values
      return sourceBrackets spans e.brackets body
    else (Expr.items e values spans).layOut l level
  | .map fields spans =>
    if spans.isSome then do
      let body ← Field.renderAll l (level + 1) (spans.separators.getD []) fields
      return sourceBrackets spans ("\x7b", "\x7d") body
    else (Expr.map fields spans).layOut l level
  | .bare _ => .error .bareExpr

/-- Items with their separators. -/
def Expr.renderAll (l : Layout) (level : Nat) (separators : List TokenSpans) :
    List Expr → Except PrintFault String
  | [] => .ok ""
  | e :: es => do
    let text ← e.render l level
    let rest ← Expr.renderAll l level separators.tail es
    return text ++ itemGap separators.head? es.isEmpty e.hasSpans ++ rest

/-- Fields with their separators. -/
def Field.renderAll (l : Layout) (level : Nat) (separators : List TokenSpans) :
    List (FieldOf Expr) → Except PrintFault String
  | [] => .ok ""
  | ⟨k, v, separator⟩ :: fs => do
    let key ← k.render l level
    let value ← v.render l level
    let rest ← Field.renderAll l level separators.tail fs
    return key ++ keyGap separator k.hasSpans ++ value ++ fieldGap separators.head? fs.isEmpty ++ rest

end

/-- Whether a text ends with a blank. -/
def endsBlank (text : String) : Bool :=
  match text.toList.getLast? with
  | some c => c = ' ' || c = '\n' || c = '\t' || c = '\r'
  | none => false

/-- Expressions after a text, with a gap where the text before one does not end with a
blank. -/
def renderAfter (l : Layout) (text : String) : List Expr → Except PrintFault String
  | [] => .ok text
  | e :: es => do
    let text := text ++ (← e.render l 0)
    renderAfter l (if es.isEmpty || endsBlank text then text else text ++ l.gap) es

/-- A document. -/
def Document.render (l : Layout) (d : Document) : Except PrintFault String :=
  renderAfter l ((d.leading.map Span.raw).getD "") d.exprs

end Sexpr
