/-
The tags of records.

A record is written as a group that starts with its tag. A record without a tag of its
own gets one from its name: a name in capitals, `HttpServer`, is cut before each
capital, brought to small letters and joined with hyphens, `http-server`.
-/
import Sexpr.Text.LowerCase

namespace Sexpr

/-- Whether a capital followed by a small letter starts here. -/
def startsWord : List Char → Bool
  | u :: l :: _ => u.isUpper && l.isLower
  | _ => false

/-- Puts an underscore before each capital that is followed by a small letter, unless it
comes first or right after a line's end; `inWord` says that such a capital and its
small letters are being copied. -/
def separateWords (inWord : Bool) : List Char → List Char
  | [] => []
  | c :: cs =>
    if inWord then c :: separateWords ((cs.head?.map Char.isLower).getD false) cs
    else if c ≠ '\n' && startsWord cs then c :: '_' :: separateWords true cs
    else c :: separateWords false cs

/-- Puts an underscore between a small letter or a digit and the capital after it. -/
def separateCapitals : List Char → List Char
  | [] => []
  | c :: cs =>
    if (c.isLower || c.isDigit) && (cs.head?.map Char.isUpper).getD false then
      c :: '_' :: separateCapitals cs
    else c :: separateCapitals cs

/-- A name in small letters with underscores between its words. -/
def snakeCase (name : String) : String :=
  Text.lower (String.ofList (separateCapitals (separateWords false name.toList)))

/-- A name with hyphens for underscores. -/
def hyphenated (name : String) : String :=
  name.map fun c => if c = '_' then '-' else c

/-- The tag of a record: its own one, or the one its name gives. -/
def recordTag (own : Option String) (name : String) : String :=
  own.getD (hyphenated (snakeCase name))

end Sexpr
