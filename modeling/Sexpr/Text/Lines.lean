/-
The lines of a text.
-/
namespace Sexpr.Text

/-- Whether a character ends a line. -/
def isLineEnd (c : Char) : Bool :=
  ['\n', '\r', '\x0b', '\x0c', '\x1c', '\x1d', '\x1e', '\u0085', '\u2028', '\u2029'].contains c

/-- A character in front of the first line. -/
def consLine (c : Char) : List (List Char) → List (List Char)
  | [] => [[c]]
  | l :: ls => (c :: l) :: ls

/-- The lines of characters without their ends. A carriage return and the line feed after
it are one end, and nothing after the last end is no line. -/
def splitLines : List Char → List (List Char)
  | [] => []
  | '\r' :: '\n' :: cs => [] :: splitLines cs
  | c :: cs => if isLineEnd c then [] :: splitLines cs else consLine c (splitLines cs)

/-- The lines of a text. -/
def lines (s : String) : List String := (splitLines s.toList).map String.ofList

end Sexpr.Text
