/-
The tokens of the notation, read off the front of a text.

Each scanner says how many characters it goes over and what they mean, or where and
why it stops. None of them goes over U+0000, which ends the text.

* `layoutLength` — white space and comments;
* `isNameChar` — the characters of names and numbers;
* `codePoint`, `escape`, `stringBody` — strings in quotes;
* `rawBody` — raw strings, which end at a quote followed by their tag;
* `nameLeaf` — the number that a name token stands for, or the atom if it is none.
-/
import Sexpr.Expr
import Sexpr.Number.Numeral
import Sexpr.Reader.Fault
import Sexpr.Text.Alphanumeric

namespace Sexpr

/-- What a scanner found at the front of a text: how many characters it went over, and
what they mean. -/
structure Scanned (α : Type) where
  length : Nat
  outcome : Except ReadFault α

namespace Scanned

/-- The scanner stopped after `n` characters. -/
def fail {α : Type} (n : Nat) (e : ReadFault) : Scanned α := ⟨n, .error e⟩

/-- The scanner found `a` in `n` characters. -/
def found {α : Type} (n : Nat) (a : α) : Scanned α := ⟨n, .ok a⟩

/-- What was found after `n` characters more, changed by `f`. -/
def after {α β : Type} (n : Nat) (f : α → β) (s : Scanned α) : Scanned β :=
  ⟨n + s.length, s.outcome.map f⟩

end Scanned

/-! ### White space, comments and names -/

/-- How many characters of white space and comments stand at the front of a text, where
`comment` says whether it starts inside a comment. A comment goes on up to the end of
its line. -/
def layoutLength (comment : Bool) : List Char → Nat
  | [] => 0
  | c :: cs =>
    if c = endMark then 0
    else if comment then 1 + layoutLength (c ≠ '\n') cs
    else if Text.isSpace c then 1 + layoutLength false cs
    else if c = ';' then 1 + layoutLength true cs
    else 0

/-- The characters besides letters and digits that names are made of. -/
def nameSigns : List Char := "_.@/+-$%=!?*#&~^|<>:'".toList

/-- The characters of names and numbers. -/
def isNameChar (c : Char) : Bool :=
  c ≠ endMark && (Text.isAlphanumeric c || nameSigns.contains c)

/-! ### Strings -/

/-- A character that may stand among the digits of a code point. -/
def isCodePointDigit (c : Char) : Bool :=
  Text.isDigit c || ('a' ≤ c && c ≤ 'f') || ('A' ≤ c && c ≤ 'F')

/-- The value of a hexadecimal digit, whose decimal digits may be of any script. -/
def hexValue? (c : Char) : Option Nat :=
  if 'a' ≤ c && c ≤ 'f' then some (c.toNat - 'a'.toNat + 10)
  else if 'A' ≤ c && c ≤ 'F' then some (c.toNat - 'A'.toNat + 10)
  else Text.digitValue? c

/-- The value of a string of hexadecimal digits. -/
def hexOfDigits? (ds : List Char) : Option Nat :=
  ds.foldlM (fun n c => (hexValue? c).map (16 * n + ·)) 0

/-- The character with the code given by hexadecimal digits. No character here is a
surrogate, so the codes from `d800` to `dfff` are out of range like those above `10ffff`;
where texts can hold surrogates these codes are read. -/
def charOfDigits (ds : List Char) : Except ReadFault Char :=
  match hexOfDigits? ds with
  | none => .error (.codePointValue (String.ofList ds))
  | some n =>
    if 0x7fffffff < n then .error .codePointHuge
    else if n.isValidChar then .ok (Char.ofNat n)
    else .error .codePointRange

/-- The digits of a code point between braces. -/
def codePoint (cs : List Char) : Scanned Char :=
  match cs with
  | '{' :: rest =>
    let ds := rest.takeWhile isCodePointDigit
    let stop := (rest.drop ds.length).headD endMark
    if stop = '}' then
      if ds.isEmpty then .fail 1 .codePointEmpty else ⟨ds.length + 2, charOfDigits ds⟩
    else if stop = endMark then .fail (ds.length + 1) .endInCodePoint
    else .fail (ds.length + 1) .codePointDigit
  | _ => .fail 0 .codePointBrace

/-- The characters that an escape stands for, read after its backslash. An unknown
escape stands for itself, backslash included. -/
def escape (cs : List Char) : Scanned (List Char) :=
  let c := cs.headD endMark
  if c = endMark then .fail 0 .endInEscape
  else if c = 'n' then .found 1 ['\n']
  else if c = 't' then .found 1 ['\t']
  else if c = 'r' then .found 1 ['\r']
  else if c = '0' then .found 1 ['\x00']
  else if c = '\\' || c = '\'' || c = '"' then .found 1 [c]
  else if c = 'u' then (codePoint (cs.drop 1)).after 1 (fun x => [x])
  else .found 1 ['\\', c]

/-- The rest of a string between the quotes `q`, closing quote included. The first
`pending` characters belong to an escape that has been read already. -/
def stringBody (q : Char) (pending : Nat) : List Char → Scanned (List Char)
  | [] => .fail 0 .endOfInput
  | c :: cs =>
    match pending with
    | k + 1 => (stringBody q k cs).after 1 id
    | 0 =>
      if c = q then .found 1 []
      else if c = endMark then .fail 0 .endOfInput
      else if c = '\\' then
        match escape cs with
        | ⟨n, .ok xs⟩ => (stringBody q n cs).after 1 (xs ++ ·)
        | ⟨n, .error e⟩ => .fail (n + 1) e
      else (stringBody q 0 cs).after 1 (c :: ·)

/-- A string between the quotes `q`, both quotes included. -/
def stringToken (q : Char) (cs : List Char) : Scanned Leaf :=
  if q ≠ '"' && q ≠ '\'' then .fail 0 (.badQuote q)
  else if cs.headD endMark ≠ q then .fail 0 (.noQuote q (cs.headD endMark))
  else (stringBody q 0 (cs.drop 1)).after 1 (fun xs => .string (String.ofList xs))

/-! ### Raw strings -/

/-- The rest of a raw string, terminator included. After a quote, `missing` holds the
characters of the tag that have not been met yet; when another character comes, the
quote and the met characters turn out to belong to the string. -/
def rawBody (tag missing : List Char) : List Char → Scanned (List Char)
  | [] => .fail 0 .endOfInput
  | c :: cs =>
    if missing.head? = some c then
      if missing.tail.isEmpty then .found 1 [] else (rawBody tag missing.tail cs).after 1 id
    else
      let held := if missing.isEmpty then [] else '"' :: tag.take (tag.length - missing.length)
      if c = endMark then .fail 0 .endOfInput
      else if c = '"' then
        if tag.isEmpty then .found 1 [] else (rawBody tag tag cs).after 1 (held ++ ·)
      else (rawBody tag [] cs).after 1 (held ++ c :: ·)

/-- A raw string: `#`, its tag, and the text between a quote and a quote with the tag. -/
def rawToken (cs : List Char) : Scanned Leaf :=
  if cs.headD endMark ≠ '#' then .fail 0 (.noOpening '#' (cs.headD endMark))
  else
    let tag := (cs.drop 1).takeWhile Text.isAlphanumeric
    let rest := cs.drop (1 + tag.length)
    if rest.headD endMark ≠ '"' then .fail (1 + tag.length) .noRawQuote
    else (rawBody tag [] (rest.drop 1)).after (tag.length + 2) (fun xs => .string (String.ofList xs))

/-! ### Names and numbers -/

/-- The value of a digit string, unless it is too long. -/
def digitsValue (ds : List Char) : Except ReadFault Nat :=
  match Numeral.boundedNat? ds with
  | some n => .ok n
  | none => .error (.tooManyDigits ds.length)

/-- The leaf of a number. Rationals are reduced; a percentage is divided by a hundred. -/
def Numeral.toLeaf : Numeral → Except ReadFault Leaf
  | integer neg ds => do return .int (withSign neg (← digitsValue ds))
  | rational neg num den => do
    let n ← digitsValue num
    let d ← digitsValue den
    if d = 0 then throw .zeroDenominator
    let g := n.gcd d
    return .rational (withSign neg (n / g)) (d / g : Nat)
  | percent neg whole part => .ok (.real ((realOfDigits neg whole part 0).divNat 100))
  | real neg whole part eneg e =>
    .ok (.real (realOfDigits neg whole part (withSign eneg (natOfDigits e))))

/-- The leaf of a name token: a number if it has the form of one, else an atom. -/
def nameLeaf (token : List Char) : Except ReadFault Leaf :=
  match Numeral.ofToken? token with
  | some n => n.toLeaf
  | none => .ok (.atom (String.ofList token))

end Sexpr
