/-
Positions and spans of source text.

A position counts lines and columns from one and characters from zero. A span is a
piece of text with the positions of its two ends.

* `Pos.forward`, `Pos.backward` — one step over a character; a newline cannot be
  gone over backwards, since the length of the line before it is not known;
* `Span.slice` — a part of a span, by bounds that may be absent or count from the end;
* `Span.append` — two spans that touch as one.
-/
namespace Sexpr

/-- A place in a source text. -/
structure Pos where
  line : Int
  col : Int
  index : Int
deriving DecidableEq

/-- Why positions or spans do not fit together. -/
inductive SpanFault where
  /-- A newline would have to be gone over backwards. -/
  | newlineBackwards
  /-- A span's text is not as long as its positions are apart. -/
  | lengthMismatch
  /-- A step goes over exactly one character. -/
  | notOneCharacter
  /-- A span is cut by bounds, not by a single place. -/
  | notBounds
  /-- The second span does not start where the first one ends. -/
  | notContiguous (stop start : Int)
deriving DecidableEq

/-- The text of a fault. -/
def SpanFault.message : SpanFault → String
  | newlineBackwards => "Cannot move backwards over a newline"
  | lengthMismatch | notOneCharacter | notBounds => ""
  | notContiguous stop start =>
    "Cannot add spans that are not contiguous: " ++
      s!"self.end.index={stop}, other.start.index={start}"

namespace Pos

/-- The first place of a text. -/
def origin : Pos := ⟨1, 1, 0⟩

/-- The place after a character. -/
def forward (p : Pos) (c : Char) : Pos :=
  if c = '\n' then ⟨p.line + 1, 1, p.index + 1⟩ else ⟨p.line, p.col + 1, p.index + 1⟩

/-- The place before a character that is not a newline. -/
def backward (p : Pos) (c : Char) : Except SpanFault Pos :=
  if c = '\n' then .error .newlineBackwards else .ok ⟨p.line, p.col - 1, p.index - 1⟩

/-- The place after a text. -/
def forwardOver (p : Pos) (cs : List Char) : Pos := cs.foldl forward p

/-- The place before a text without newlines, whose characters are given last one first. -/
def backwardOver (p : Pos) : List Char → Except SpanFault Pos
  | [] => .ok p
  | c :: cs => do (← p.backward c).backwardOver cs

/-- The only character of a text. -/
def onlyChar (text : String) : Except SpanFault Char :=
  match text.toList with
  | [c] => .ok c
  | _ => .error .notOneCharacter

/-- The place after a text of one character. -/
def forwardText (p : Pos) (text : String) : Except SpanFault Pos := do
  return p.forward (← onlyChar text)

/-- The place before a text of one character. -/
def backwardText (p : Pos) (text : String) : Except SpanFault Pos := do
  p.backward (← onlyChar text)

@[simp]
theorem forwardOver_nil (p : Pos) : p.forwardOver [] = p := rfl

@[simp]
theorem forwardOver_cons (p : Pos) (c : Char) (cs : List Char) :
    p.forwardOver (c :: cs) = (p.forward c).forwardOver cs := rfl

theorem forwardOver_append (p : Pos) (as bs : List Char) :
    p.forwardOver (as ++ bs) = (p.forwardOver as).forwardOver bs := by
  simp [forwardOver, List.foldl_append]

end Pos

/-- A piece of source text and the places of its two ends. -/
structure Span where
  start : Pos
  stop : Pos
  raw : String
deriving DecidableEq

namespace Span

/-- A span whose text is as long as its ends are apart. -/
def make (start stop : Pos) (raw : String) : Except SpanFault Span :=
  if (raw.toList.length : Int) = stop.index - start.index then .ok ⟨start, stop, raw⟩
  else .error .lengthMismatch

/-- The span of a text that starts at the first place, as if it were one line. -/
def ofText (raw : String) : Span :=
  let n : Int := raw.toList.length
  ⟨Pos.origin, ⟨1, 1 + n, n⟩, raw⟩

/-- A bound of a cut as an offset: a negative one counts from the end, and one outside
the text is moved to its nearer end. -/
def offset (length : Nat) (bound : Int) : Nat :=
  let b := if bound < 0 then length + bound else bound
  min b.toNat length

/-- The part of a span between two bounds. The start goes forward from the span's start
and the stop goes back from its stop. -/
def slice (s : Span) (a b : Option Int) : Except SpanFault Span := do
  let cs := s.raw.toList
  let i := offset cs.length (a.getD 0)
  let j := offset cs.length (b.getD cs.length)
  let start := s.start.forwardOver (cs.take i)
  let stop ← s.stop.backwardOver (cs.drop j).reverse
  make start stop (String.ofList ((cs.take j).drop i))

/-- Two spans as one; the second has to start where the first one ends. -/
def append (s t : Span) : Except SpanFault Span :=
  if s.stop.index = t.start.index then make s.start t.stop (s.raw ++ t.raw)
  else .error (.notContiguous s.stop.index t.start.index)

end Span
end Sexpr
