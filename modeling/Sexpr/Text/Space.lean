/-
White space: the characters that may stand between tokens.
-/
import Sexpr.Text.Runs

namespace Sexpr.Text

/-- Boundaries of the white-space characters: the bidirectional classes WS, B and S
and the space separators. -/
def spaceRuns : List Nat :=
  [0x9, 0xe, 0x1c, 0x21, 0x85, 0x86, 0xa0, 0xa1, 0x1680, 0x1681, 0x2000, 0x200b, 0x2028, 0x202a,
   0x202f, 0x2030, 0x205f, 0x2060, 0x3000, 0x3001]

/-- White space: blanks, tabs, line and paragraph ends, and the information separators. -/
def isSpace (c : Char) : Bool := inRuns spaceRuns c.toNat

end Sexpr.Text
