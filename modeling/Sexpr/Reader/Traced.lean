/-
Reading with a trace.

The productions of the grammar once more, with a trace of the calls they make. Tracing
changes nothing about what is read; the lines show each production with its cursor, and
what it read or why it failed.
-/
import Sexpr.Expr.Inspect
import Sexpr.Reader.Grammar
import Sexpr.Trace

namespace Sexpr

/-- The header of the call that reads a text. -/
def Document.parseHeader (src : String) (spans : Bool) : String :=
  "parse(" ++ Text.inspect src ++ ", \x7b'preserve_spans': " ++
    (if spans then "True" else "False") ++ "\x7d)"

namespace Scan

/-- A traced production. -/
abbrev TracedScan := Traced ReadFault Cursor

/-- A production that is not traced itself. -/
def untraced {α : Type} (p : Scan α) : TracedScan α := fun t =>
  match p t.state with
  | .ok a c => .ok a { t with state := c }
  | .error e c => .error e { t with state := c }

/-- Traces a production under a name. -/
def tracedAs {α : Type} (name : String) (inspect : α → String) (p : TracedScan α)
    (options : String) : TracedScan α :=
  traced (fun c => name ++ "(" ++ c.inspect ++ ", \x7b" ++ options ++ "\x7d)") inspect
    ReadFault.message p

namespace WithTrace

/-- Goes over white space and comments. -/
def layout : TracedScan Span := tracedAs "_skip_whitespace" Span.inspect (untraced Scan.layout) ""

/-- The spans of the token that ends at the cursor and of the white space after it. -/
def tokenSpans : TracedScan TokenSpans := do
  let token ← untraced capture
  let space ← layout
  return ⟨some token, some space⟩

/-- A leaf whose token is read by a scanner. -/
def leafOf (scan : List Char → Scanned Leaf) : TracedScan Expr := do
  let l ← untraced (lexeme scan)
  return .leaf l (some (← tokenSpans))

/-- A string between the quotes `q`. -/
def string (q : Char) : TracedScan Expr :=
  tracedAs "_parse_string" Expr.inspect (leafOf (stringToken q))
    ("'quote': " ++ Text.inspect (String.singleton q))

/-- A raw string. -/
def raw : TracedScan Expr := tracedAs "_parse_raw_string" Expr.inspect (leafOf rawToken) ""

/-- A name or a number. -/
def name : TracedScan Expr :=
  tracedAs "_parse_symbol_or_number" Expr.inspect (do
    let token ← untraced nameToken
    let spans ← tokenSpans
    match nameLeaf token with
    | .ok l => return .leaf l (some spans)
    | .error e => throw e) ""

/-- Items up to the closing bracket. -/
def itemsUntil {α : Type} (closing : Char) (item : TracedScan α) :
    Nat → TracedScan (List (α × TokenSpans))
  | 0 => throw .exhausted
  | fuel + 1 => do
    let c ← untraced peek
    if c = closing then return []
    else if c = endMark then throw .endOfInput
    else
      let x ← item
      if (← untraced peek) = ',' then untraced next
      let separator ← tokenSpans
      return (x, separator) :: (← itemsUntil closing item fuel)

/-- Items between brackets. -/
def between {α : Type} (opening closing : Char) (item : TracedScan α) :
    TracedScan (List α × BracketSpans) := do
  let c ← untraced peek
  if c ≠ opening then throw (.noOpening opening c)
  untraced next
  let openingSpans ← tokenSpans
  let xs ← itemsUntil closing item ((← untraced remaining) + 1)
  untraced next
  let closingSpans ← tokenSpans
  return (xs.map Prod.fst, ⟨some openingSpans, some (xs.map Prod.snd), some closingSpans⟩)

/-- The key of a field and the colon after it. -/
def keyOf (expr : TracedScan Expr) : TracedScan (Expr × TokenSpans) := do
  let key ← expr
  match colonKey? key with
  | some (name, spans, token) => untraced (cutKey name spans token)
  | none =>
    let c ← untraced peek
    if c ≠ ':' then throw (.noColon c)
    untraced next
    return (key, ← tokenSpans)

/-- A field of a map. -/
def fieldOf (expr : TracedScan Expr) : TracedScan Field := do
  let (key, colon) ← keyOf expr
  let value ← expr
  return ⟨key, value, some colon⟩

/-- A group or a sequence of what `expr` reads. -/
def itemsOf (name : String) (enclosure : Enclosure) (opening closing : Char)
    (expr : TracedScan Expr) : TracedScan Expr :=
  tracedAs name Expr.inspect (do
    let (values, spans) ← between opening closing expr
    return .items enclosure values spans) ""

/-- A map of what `expr` reads. -/
def mapOf (expr : TracedScan Expr) : TracedScan Expr :=
  tracedAs "_parse_map" Expr.inspect (do
    let (fields, spans) ← between '{' '}' (fieldOf expr)
    return .map fields spans) ""

/-- An expression whose brackets nest less deeply than the bound. -/
def exprWithin : Nat → TracedScan Expr
  | 0 => throw .exhausted
  | depth + 1 =>
    tracedAs "_parse_one_sexpr" Expr.inspect (do
      let _ ← layout
      let c ← untraced peek
      if c = endMark then throw .endOfInput
      else if c = '(' then itemsOf "_parse_group" .group '(' ')' (exprWithin depth)
      else if c = '[' then itemsOf "_parse_list" .sequence '[' ']' (exprWithin depth)
      else if c = '"' || c = '\'' then string c
      else if c = '#' then raw
      else if c = '{' then mapOf (exprWithin depth)
      else if isNameChar c then name
      else throw (.noExpression c)) ""

/-- Expressions up to the end of the text. -/
def exprsUntilEnd : Nat → TracedScan (List Expr)
  | 0 => throw .exhausted
  | fuel + 1 => do
    if (← untraced peek) = endMark then return []
    let e ← exprWithin ((← untraced remaining) + 1)
    return e :: (← exprsUntilEnd fuel)

/-- A whole text, with or without spans. -/
def document (src : String) (spans : Bool) : TracedScan Document :=
  traced (fun _ => Document.parseHeader src spans) Document.inspect ReadFault.message (do
    let leading ← layout
    let es ← exprsUntilEnd ((← untraced remaining) + 1)
    let d : Document := ⟨es, some leading⟩
    return if spans then d else d.dropSpans)

end WithTrace
end Scan

/-- The document of a text, and the trace of its reading. -/
def Document.parseTraced (src : String) (spans : Bool) :
    Except ReadFault Document × List String :=
  match Scan.WithTrace.document src spans (Tracing.start (Cursor.ofText src.toList)) with
  | .ok d t => (.ok d, t.lines.reverse)
  | .error e t => (.error e, t.lines.reverse)

end Sexpr
