/-
Expressions of the notation.

An expression is a leaf (a name, a text or a number), a group `(…)` or a sequence
`[…]` of expressions, or a map `{…}` of fields. Each part may carry the spans of the
source it was read from; an expression that was built by hand carries none.

* `Leaf.text` — the text of a leaf without spans;
* `Expr.text` — the text of an expression: its source where it has spans, else its
  canonical form;
* `Expr.dropSpans` — the same expression without spans.
-/
import Sexpr.Number.Shortest
import Sexpr.Source.Span

namespace Sexpr

/-- The source of one token: the token itself and the white space after it. -/
structure TokenSpans where
  token : Option Span
  space : Option Span
deriving DecidableEq

/-- The source of the brackets and separators of a bracketed expression. -/
structure BracketSpans where
  opening : Option TokenSpans
  separators : Option (List TokenSpans)
  closing : Option TokenSpans
deriving DecidableEq

/-- An expression without parts. -/
inductive Leaf where
  | atom (name : String)
  | string (value : String)
  | int (value : Int)
  | real (value : Binary64)
  | rational (num den : Int)
deriving DecidableEq

/-- The two kinds of brackets around plain items. -/
inductive Enclosure where
  | group
  | sequence
deriving DecidableEq

/-- A key with its value, and the source of what stands between them. -/
structure FieldOf (α : Type) where
  key : α
  value : α
  separator : Option TokenSpans

/-- An expression of the notation. A `bare` one is of no kind at all, so that only its
mark tells it from others; it is never read from a source. -/
inductive Expr where
  | leaf (leaf : Leaf) (span : Option TokenSpans)
  | items (enclosure : Enclosure) (values : List Expr) (spans : BracketSpans)
  | map (fields : List (FieldOf Expr)) (spans : BracketSpans)
  | bare (mark : Mark)

/-- A field of a map. -/
abbrev Field := FieldOf Expr

/-- A whole text: its expressions, and the white space before the first one. -/
structure Document where
  exprs : List Expr
  leading : Option Span

/-! ### Spans -/

/-- No source is known. -/
def BracketSpans.none : BracketSpans := ⟨.none, .none, .none⟩

/-- Whether any source is known. -/
def BracketSpans.isSome (b : BracketSpans) : Bool :=
  b.opening.isSome || b.separators.isSome || b.closing.isSome

/-- The source text of a token and the white space after it. -/
def TokenSpans.text (t : TokenSpans) : String :=
  (t.token.map Span.raw).getD "" ++ (t.space.map Span.raw).getD ""

mutual

/-- Whether any part of an expression carries spans. -/
def Expr.hasSpans : Expr → Bool
  | .leaf _ span => span.isSome
  | .items _ values spans => spans.isSome || Expr.anyHasSpans values
  | .map fields spans => spans.isSome || Field.anyHasSpans fields
  | .bare _ => false

/-- Whether any of the expressions carries spans. -/
def Expr.anyHasSpans : List Expr → Bool
  | [] => false
  | e :: es => e.hasSpans || Expr.anyHasSpans es

/-- Whether any of the fields carries spans. -/
def Field.anyHasSpans : List (FieldOf Expr) → Bool
  | [] => false
  | ⟨k, v, sep⟩ :: fs => (sep.isSome || k.hasSpans || v.hasSpans) || Field.anyHasSpans fs

end

mutual

/-- The same expression without spans. -/
def Expr.dropSpans : Expr → Expr
  | .leaf l _ => .leaf l none
  | .items e values _ => .items e (Expr.dropSpansAll values) .none
  | .map fields _ => .map (Field.dropSpansAll fields) .none
  | .bare mark => .bare mark

/-- The same expressions without spans. -/
def Expr.dropSpansAll : List Expr → List Expr
  | [] => []
  | e :: es => e.dropSpans :: Expr.dropSpansAll es

/-- The same fields without spans. -/
def Field.dropSpansAll : List (FieldOf Expr) → List (FieldOf Expr)
  | [] => []
  | ⟨k, v, _⟩ :: fs => ⟨k.dropSpans, v.dropSpans, none⟩ :: Field.dropSpansAll fs

end

mutual

/-- Whether an expression of no kind is part of an expression. -/
def Expr.hasBare : Expr → Bool
  | .leaf _ _ => false
  | .items _ values _ => Expr.anyHasBare values
  | .map fields _ => Field.anyHasBare fields
  | .bare _ => true

/-- Whether an expression of no kind is part of any of the expressions. -/
def Expr.anyHasBare : List Expr → Bool
  | [] => false
  | e :: es => e.hasBare || Expr.anyHasBare es

/-- Whether an expression of no kind is part of any of the fields. -/
def Field.anyHasBare : List (FieldOf Expr) → Bool
  | [] => false
  | ⟨k, v, _⟩ :: fs => (k.hasBare || v.hasBare) || Field.anyHasBare fs

end

/-- The same document without spans. -/
def Document.dropSpans (d : Document) : Document := ⟨Expr.dropSpansAll d.exprs, none⟩

/-- An expression of no kind has no form without spans. -/
inductive BareFault where
  | unsupported
deriving DecidableEq

/-- The text of the fault. -/
def BareFault.message : BareFault → String
  | unsupported => "Unsupported expression type: Expr"

/-- The same expression without spans, if every part of it is of some kind. -/
def Expr.plain (e : Expr) : Except BareFault Expr :=
  if e.hasBare then .error .unsupported else .ok e.dropSpans

/-- The same document without spans, if every part of it is of some kind. -/
def Document.plain (d : Document) : Except BareFault Document :=
  if Expr.anyHasBare d.exprs then .error .unsupported else .ok d.dropSpans

/-! ### Text -/

/-- A character of a string between double quotes. -/
def escapeChar (c : Char) : List Char :=
  if c = '\\' then ['\\', '\\']
  else if c = '\n' then ['\\', 'n']
  else if c = '\t' then ['\\', 't']
  else if c = '\r' then ['\\', 'r']
  else if c = '\x00' then ['\\', '0']
  else if c = '"' then ['\\', '"']
  else [c]

/-- A string as it is written: between double quotes, with escapes. -/
def quoteString (s : String) : String :=
  String.ofList ('"' :: s.toList.flatMap escapeChar ++ ['"'])

/-- The text of a leaf without spans. Numbers are written out however many digits they have:
`Numeral.maxDigits` bounds what is read, and a writer with the same bound would refuse them. -/
def Leaf.text : Leaf → String
  | atom name => name
  | string value => quoteString value
  | int value => toString value
  | real value => value.text
  | rational num den => toString num ++ "/" ++ toString den

/-- The brackets of a kind. -/
def Enclosure.brackets : Enclosure → String × String
  | group => ("(", ")")
  | sequence => ("[", "]")

/-- Texts one after the other, each followed by its separator if one is given, and by
`gap` if there is none and it is not the last. -/
def interleave (gap : String) : List String → List TokenSpans → String
  | [], _ => ""
  | t :: ts, s :: seps => t ++ s.text ++ interleave gap ts seps
  | [t], [] => t
  | t :: ts, [] => t ++ gap ++ interleave gap ts []

/-- Brackets around texts: as in the source where the spans are known, else with `gap`
between the texts. -/
def bracketed (brackets : String × String) (gap : String) (texts : List String)
    (spans : BracketSpans) : String :=
  (spans.opening.map TokenSpans.text).getD brackets.1 ++
    interleave gap texts (spans.separators.getD []) ++
    (spans.closing.map TokenSpans.text).getD brackets.2

mutual

/-- The text of an expression. -/
def Expr.text : Expr → String
  | .leaf l none => l.text
  | .leaf _ (some span) => span.text
  | .items e values spans => bracketed e.brackets " " (Expr.texts values) spans
  | .map fields spans => bracketed ("\x7b", "\x7d") ", " (Field.texts fields) spans
  | .bare _ => "<Expr>"

/-- The texts of expressions. -/
def Expr.texts : List Expr → List String
  | [] => []
  | e :: es => e.text :: Expr.texts es

/-- The texts of fields. -/
def Field.texts : List (FieldOf Expr) → List String
  | [] => []
  | ⟨k, v, sep⟩ :: fs =>
    (k.text ++ (sep.map TokenSpans.text).getD ": " ++ v.text) :: Field.texts fs

end

/-- The text of a document: its source if any part of it carries spans, else one line
per expression. -/
def Document.text (d : Document) : String :=
  if d.leading.isNone && !Expr.anyHasSpans d.exprs then "\n".intercalate (Expr.texts d.exprs)
  else (d.leading.map Span.raw).getD "" ++ String.join (Expr.texts d.exprs)

end Sexpr
