/-
The grammar of the notation.

Every production reads one construct at a cursor and leaves the cursor after the
construct and the white space that follows it. A production that fails leaves the
cursor where it stopped, so that reading can go on from there.

* `Scan` — productions;
* `Scan.exprWithin` — an expression, with a bound on how deeply brackets nest;
* `Scan.expr`, `Scan.group`, `Scan.sequence`, `Scan.map` — the constructs, where the
  length of the remaining text is the bound;
* `Document.read` — a whole text with all its spans, `Document.readPlain` without.
-/
import Sexpr.Reader.Lexeme

namespace Sexpr

/-- A production: it moves a cursor and gives a result or a fault. -/
abbrev Scan := EStateM ReadFault Cursor

namespace Scan

/-- The character at the cursor. -/
def peek : Scan Char := fun c => .ok c.current c

/-- Goes over one character. -/
def next : Scan Unit := fun c => .ok () c.next

/-- The text since the mark. -/
def capture : Scan Span := fun c => .ok c.capture.1 c.capture.2

/-- How many characters are left. -/
def remaining : Scan Nat := fun c => .ok c.rest.length c

/-- Reads a token off the text at the cursor. -/
def lexeme {α : Type} (scan : List Char → Scanned α) : Scan α := fun c =>
  let s := scan c.rest
  match s.outcome with
  | .ok a => .ok a (c.advance s.length)
  | .error e => .error e (c.advance s.length)

/-- Goes over white space and comments. -/
def layout : Scan Span := do
  lexeme fun cs => .found (layoutLength false cs) ()
  capture

/-- The spans of the token that ends at the cursor and of the white space after it. -/
def tokenSpans : Scan TokenSpans := do
  let token ← capture
  let space ← layout
  return ⟨some token, some space⟩

/-- The character code point of an escape, read after `\u`. -/
def codePoint : Scan Char := lexeme Sexpr.codePoint

/-- A leaf whose token is read by a scanner. -/
def leafOf (scan : List Char → Scanned Leaf) : Scan Expr := do
  let l ← lexeme scan
  return .leaf l (some (← tokenSpans))

/-- A string between the quotes `q`. -/
def string (q : Char) : Scan Expr := leafOf (stringToken q)

/-- A raw string. -/
def raw : Scan Expr := leafOf rawToken

/-- The characters of a name or a number. -/
def nameToken : Scan (List Char) := lexeme fun cs =>
  let token := cs.takeWhile isNameChar
  if token.isEmpty then .fail 0 (.noName (cs.headD endMark)) else .found token.length token

/-- A name or a number. -/
def name : Scan Expr := do
  let token ← nameToken
  let spans ← tokenSpans
  match nameLeaf token with
  | .ok l => return .leaf l (some spans)
  | .error e => throw e

/-! ### Brackets -/

/-- Items up to the closing bracket, each followed by at most one comma, with the spans
of what separates them; at most `fuel` items. -/
def itemsUntil {α : Type} (closing : Char) (item : Scan α) : Nat → Scan (List (α × TokenSpans))
  | 0 => throw .exhausted
  | fuel + 1 => do
    let c ← peek
    if c = closing then return []
    else if c = endMark then throw .endOfInput
    else
      let x ← item
      if (← peek) = ',' then next
      let separator ← tokenSpans
      return (x, separator) :: (← itemsUntil closing item fuel)

/-- Items between brackets. -/
def between {α : Type} (opening closing : Char) (item : Scan α) : Scan (List α × BracketSpans) := do
  let c ← peek
  if c ≠ opening then throw (.noOpening opening c)
  next
  let openingSpans ← tokenSpans
  let xs ← itemsUntil closing item ((← remaining) + 1)
  next
  let closingSpans ← tokenSpans
  return (xs.map Prod.fst, ⟨some openingSpans, some (xs.map Prod.snd), some closingSpans⟩)

/-- A fault of spans as a fault of reading. -/
def liftSpan {α : Type} : Except SpanFault α → Scan α
  | .ok a => return a
  | .error e => throw (.span e)

/-- An atom whose token ends in a colon, cut into the key before the colon and the
spans of the colon. -/
def cutKey (name : List Char) (spans : TokenSpans) (token : Span) : Scan (Expr × TokenSpans) := do
  let key ← liftSpan (token.slice none (some (-1)))
  let gap ← liftSpan (token.slice (some (-1)) (some (-1)))
  let colon ← liftSpan (token.slice (some (-1)) none)
  return (.leaf (.atom (String.ofList name.dropLast)) (some ⟨some key, some gap⟩),
    ⟨some colon, spans.space⟩)

/-- The name and spans of an atom that ends in a colon. -/
def colonKey? : Expr → Option (List Char × TokenSpans × Span)
  | .leaf (.atom name) (some ⟨some token, space⟩) =>
    if name.toList.getLast? = some ':' then some (name.toList, ⟨some token, space⟩, token) else none
  | _ => none

/-- The key of a field and the colon after it; a key may end in its colon. -/
def keyOf (expr : Scan Expr) : Scan (Expr × TokenSpans) := do
  let key ← expr
  match colonKey? key with
  | some (name, spans, token) => cutKey name spans token
  | none =>
    let c ← peek
    if c ≠ ':' then throw (.noColon c)
    next
    return (key, ← tokenSpans)

/-- A field of a map. -/
def fieldOf (expr : Scan Expr) : Scan Field := do
  let (key, colon) ← keyOf expr
  let value ← expr
  return ⟨key, value, some colon⟩

/-- A group or a sequence of what `expr` reads. -/
def itemsOf (enclosure : Enclosure) (opening closing : Char) (expr : Scan Expr) : Scan Expr := do
  let (values, spans) ← between opening closing expr
  return .items enclosure values spans

/-- A map of what `expr` reads. -/
def mapOf (expr : Scan Expr) : Scan Expr := do
  let (fields, spans) ← between '{' '}' (fieldOf expr)
  return .map fields spans

/-- An expression whose brackets nest less deeply than the bound. -/
def exprWithin : Nat → Scan Expr
  | 0 => throw .exhausted
  | depth + 1 => do
    let _ ← layout
    let c ← peek
    if c = endMark then throw .endOfInput
    else if c = '(' then itemsOf .group '(' ')' (exprWithin depth)
    else if c = '[' then itemsOf .sequence '[' ']' (exprWithin depth)
    else if c = '"' || c = '\'' then string c
    else if c = '#' then raw
    else if c = '{' then mapOf (exprWithin depth)
    else if isNameChar c then name
    else throw (.noExpression c)

/-- A production over expressions that nest no deeper than the text is long. -/
def bounded {α : Type} (p : Scan Expr → Scan α) : Scan α := do
  let n ← remaining
  p (exprWithin (n + 1))

/-- An expression. -/
def expr : Scan Expr := bounded id

/-- A group. -/
def group : Scan Expr := bounded (itemsOf .group '(' ')')

/-- A sequence. -/
def sequence : Scan Expr := bounded (itemsOf .sequence '[' ']')

/-- A map. -/
def map : Scan Expr := bounded mapOf

/-! ### Documents -/

/-- Expressions up to the end of the text, at most `fuel` of them. -/
def exprsUntilEnd : Nat → Scan (List Expr)
  | 0 => throw .exhausted
  | fuel + 1 => do
    if (← peek) = endMark then return []
    let e ← expr
    return e :: (← exprsUntilEnd fuel)

/-- A whole text. -/
def document : Scan Document := do
  let leading ← layout
  let es ← exprsUntilEnd ((← remaining) + 1)
  return ⟨es, some leading⟩

end Scan

/-- The document of a text, with all its spans. -/
def Document.read (src : String) : Except ReadFault Document :=
  match Scan.document (Cursor.ofText src.toList) with
  | .ok d _ => .ok d
  | .error e _ => .error e

/-- The document of a text, without spans. -/
def Document.readPlain (src : String) : Except ReadFault Document :=
  (Document.read src).map Document.dropSpans

/-- The document of a text, with or without spans. -/
def Document.parse (src : String) (spans : Bool) : Except ReadFault Document :=
  if spans then Document.read src else Document.readPlain src

end Sexpr
