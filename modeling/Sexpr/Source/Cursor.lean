/-
A cursor in a source text.

The cursor keeps the text in three pieces: what lies before the mark, what lies
between the mark and the cursor, and the rest. Capturing gives the middle piece as a
span and moves the mark up to the cursor. The character U+0000 stands for the end of
the text, so a text that holds one ends there for every reader.

* `Cursor.next`, `Cursor.advance` — move over one or several characters;
* `Cursor.capture` — the text since the mark;
* `Cursor.text_advance`, `Cursor.text_capture` — moving never changes the text.
-/
import Sexpr.Source.Span
import Sexpr.Text.Inspect

namespace Sexpr

/-- The character that stands for the end of a text. -/
def endMark : Char := '\x00'

/-- A place in a text, with a mark at or before it. The two pieces that have been gone
over are kept last character first. -/
structure Cursor where
  before : List Char
  token : List Char
  rest : List Char
  mark : Pos
  pos : Pos

namespace Cursor

/-- The cursor at the start of a text. -/
def ofText (cs : List Char) : Cursor := ⟨[], [], cs, Pos.origin, Pos.origin⟩

/-- The whole text that the cursor moves in. -/
def text (c : Cursor) : List Char := c.before.reverse ++ c.token.reverse ++ c.rest

/-- The character at the cursor, U+0000 at the end. -/
def current (c : Cursor) : Char := c.rest.headD endMark

/-- The cursor after one more character; at the end it stays. -/
def next (c : Cursor) : Cursor :=
  match c.rest with
  | [] => c
  | x :: xs => { c with token := x :: c.token, rest := xs, pos := c.pos.forward x }

/-- The cursor after `n` more characters. -/
def advance : Nat → Cursor → Cursor
  | 0, c => c
  | n + 1, c => advance n c.next

/-- The text since the mark; the mark moves up to the cursor. -/
def capture (c : Cursor) : Span × Cursor :=
  (⟨c.mark, c.pos, String.ofList c.token.reverse⟩,
    { c with before := c.token ++ c.before, token := [], mark := c.pos })

@[simp]
theorem text_next (c : Cursor) : c.next.text = c.text := by
  unfold next
  split <;> simp_all [text]

@[simp]
theorem text_advance (n : Nat) (c : Cursor) : (advance n c).text = c.text := by
  induction n generalizing c with
  | zero => rfl
  | succ n ih => simp [advance, ih]

@[simp]
theorem text_capture (c : Cursor) : c.capture.2.text = c.text := by
  simp [capture, text]

/-- A character of a snippet: a blank is a dot, and what cannot be shown is shown by its code. -/
def snippetChar (c : Char) : String :=
  if c = ' ' then "·"
  else if c = '\n' then "\\n"
  else if c = '\t' then "\\t"
  else if Text.isPrintable c then String.singleton c
  else "\\x" ++ Text.hex 2 c.toNat

/-- The cursor as traces show it: its line and column, and up to eight characters on
either side, the one at the cursor in brackets. -/
def inspect (c : Cursor) : String :=
  let left := ((c.token ++ c.before).take 8).reverse.map snippetChar
  let right := match (c.rest.take 8).map snippetChar with
    | [] => []
    | x :: xs => ("[" ++ x ++ "]") :: xs
  s!"Input(line={c.pos.line}, column={c.pos.col}, " ++ " ".intercalate (left ++ right) ++ ")"

end Cursor
end Sexpr
