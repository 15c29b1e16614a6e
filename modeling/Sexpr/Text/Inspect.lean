/-
How a text is shown inside messages and traces.

A shown text stands in quotes on one line: the quotes are single ones unless the
text holds a single quote and no double one, and what cannot be shown as it is
appears by its code.
-/
import Sexpr.Text.Printable

namespace Sexpr.Text

/-- The hexadecimal digits of `n`, padded with zeros to at least `width` digits. -/
def hex (width n : Nat) : String :=
  let ds := Nat.toDigits 16 n
  String.ofList (List.replicate (width - ds.length) '0' ++ ds)

/-- One character of a shown text that stands between the quotes `q`. -/
def inspectChar (q c : Char) : String :=
  if c = q || c = '\\' then String.ofList ['\\', c]
  else if c = '\n' then "\\n"
  else if c = '\r' then "\\r"
  else if c = '\t' then "\\t"
  else if isPrintable c then String.singleton c
  else if c.toNat < 0x100 then "\\x" ++ hex 2 c.toNat
  else if c.toNat < 0x10000 then "\\u" ++ hex 4 c.toNat
  else "\\U" ++ hex 8 c.toNat

/-- The quote that a shown text stands in. -/
def inspectQuote (s : String) : Char :=
  if s.toList.contains '\'' && !s.toList.contains '"' then '"' else '\''

/-- A text as it is shown inside messages: in quotes and on one line. -/
def inspect (s : String) : String :=
  let q := inspectQuote s
  String.singleton q ++ String.join (s.toList.map (inspectChar q)) ++ String.singleton q

end Sexpr.Text
