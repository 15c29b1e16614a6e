/-
Why a source text cannot be read, and the texts of these faults.
-/
import Sexpr.Source.Cursor

namespace Sexpr

/-- Why a source text cannot be read. -/
inductive ReadFault where
  /-- The text ends inside a bracket or a string, or where an expression has to start. -/
  | endOfInput
  /-- The text ends after a backslash. -/
  | endInEscape
  /-- The text ends inside the braces of a code point. -/
  | endInCodePoint
  /-- No expression starts with the character. -/
  | noExpression (found : Char)
  /-- No name starts with the character. -/
  | noName (found : Char)
  /-- Another character stands where a bracket or a raw string has to start. -/
  | noOpening (opening found : Char)
  /-- Another character stands where a string has to start. -/
  | noQuote (quote found : Char)
  /-- Strings do not stand between such characters. -/
  | badQuote (quote : Char)
  /-- The tag of a raw string is not followed by a quote. -/
  | noRawQuote
  /-- The key of a field is not followed by a colon. -/
  | noColon (found : Char)
  /-- A rational with denominator zero. -/
  | zeroDenominator
  /-- An integer with more digits than are read. -/
  | tooManyDigits (count : Nat)
  /-- A code point without its opening brace. -/
  | codePointBrace
  /-- Another character among the digits of a code point. -/
  | codePointDigit
  /-- A code point without digits. -/
  | codePointEmpty
  /-- A digit of a code point has no place value. -/
  | codePointValue (digits : String)
  /-- There is no such code point. -/
  | codePointRange
  /-- A code point far out of range. -/
  | codePointHuge
  /-- A span cannot be cut. -/
  | span (fault : SpanFault)
  /-- More steps than the text has characters. -/
  | exhausted
deriving DecidableEq

namespace ReadFault

/-- A character in a message. -/
def shown (c : Char) : String := Text.inspect (String.singleton c)

/-- The text of a digit string that is too long to be an integer. -/
def tooManyDigitsMessage (count : Nat) : String :=
  s!"Exceeds the limit (4300 digits) for integer string conversion: value has {count} digits; " ++
    "use sys.set_int_max_str_digits() to increase the limit"

/-- The text of a digit string that is not an integer; a long one is cut off. -/
def notAnIntegerMessage (base : Nat) (text : String) : String :=
  s!"invalid literal for int() with base {base}: " ++
    String.ofList ((Text.inspect text).toList.take 200)

/-- The text of a fault. -/
def message : ReadFault → String
  | endOfInput => "Unexpected end of input"
  | endInEscape => "Unexpected end of input in escape sequence"
  | endInCodePoint => "Unexpected end of input in unicode escape"
  | noExpression c => "Expected expression, found " ++ shown c
  | noName c => "Unexpected character: " ++ shown c
  | noOpening o c => "Expected " ++ shown o ++ " but got " ++ shown c
  | noQuote q c => "Expected " ++ shown q ++ " but got " ++ shown c
  | badQuote q => "Invalid string quote delimiter " ++ shown q
  | noRawQuote => "Expected '\"' after raw string tag"
  | noColon c => "Expected ':' but got '" ++ String.singleton c ++ "'"
  | zeroDenominator => "Rational denominator cannot be zero"
  | tooManyDigits n => tooManyDigitsMessage n
  | codePointBrace => "Expected '\x7b' after '\\u' in string escape"
  | codePointDigit => "Expected hex digit in unicode escape"
  | codePointEmpty => "Unicode escape must contain at least one hex digit"
  | codePointValue ds => notAnIntegerMessage 16 ds
  | codePointRange => "Invalid unicode code point in escape"
  | codePointHuge => "Python int too large to convert to C int"
  | span f => f.message
  | exhausted => "Unexpected end of input"

end ReadFault
end Sexpr
