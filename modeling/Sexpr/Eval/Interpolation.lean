/-
Texts with expressions in them.

In a text, a dollar sign and an expression in braces stand for the value of the
expression, and two dollar signs stand for one.

* `interpolation` — the characters and the expressions of a text.
-/
namespace Sexpr

/-- A part of a text: a character, or the source of an expression. -/
inductive TextPart where
  | char (c : Char)
  | code (source : List Char)
deriving DecidableEq

/-- Whether something in front of a closing brace stands here. -/
def startsCode : List Char → Bool
  | [] => false
  | c :: cs => c ≠ '\x7d' && cs.contains '\x7d'

/-- The parts of a text; `code` is what stands so far between braces, last one first. -/
def textParts (code : Option (List Char)) : List Char → List TextPart
  | [] => []
  | c :: cs =>
    match code with
    | some source =>
      if c = '\x7d' then .code source.reverse :: textParts none cs
      else textParts (some (c :: source)) cs
    | none =>
      match c, cs with
      | '$', '\x7b' :: cs =>
        if startsCode cs then textParts (some []) cs
        else .char '$' :: .char '\x7b' :: textParts none cs
      | '$', '$' :: cs => .char '$' :: textParts none cs
      | c, cs => .char c :: textParts none cs

/-- The characters and the expressions of a text. -/
def interpolation (s : String) : List TextPart := textParts none s.toList

end Sexpr
