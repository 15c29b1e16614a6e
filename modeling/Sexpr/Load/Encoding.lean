/-
Texts as bytes.

* `Encoding` — the encodings that files are read in;
* `utf8`, `utf16` — one walk over the bytes each, with what a character still owes as
  its state;
* `Encoding.decode` — the text of bytes, or where and why they are none;
* `unifyNewlines` — every way to end a line as one.
-/
import Sexpr.Failure

namespace Sexpr

/-- An encoding. The marked ones are told from a byte order mark at the start. -/
inductive Encoding where
  | utf8
  | utf8Marked
  | ascii
  | latin1
  | utf16Marked
  | utf16 (bigEndian : Bool)
deriving DecidableEq

/-- The encoding of a name. -/
def Encoding.ofName? (name : String) : Option Encoding :=
  match name with
  | "utf-8" => some .utf8
  | "utf-8-sig" => some .utf8Marked
  | "ascii" => some .ascii
  | "latin-1" => some .latin1
  | "utf-16" => some .utf16Marked
  | "utf-16-le" => some (.utf16 false)
  | "utf-16-be" => some (.utf16 true)
  | _ => none

/-! ### UTF-8 -/

/-- A character that has begun: where, with which byte, how many bytes it still owes, the
least and the greatest value of the next one, and its bits so far. -/
structure Begun where
  start : Nat
  first : UInt8
  owed : Nat
  least : Nat
  most : Nat
  bits : Nat

/-- A character that begins with a byte and has more than one. -/
def Begun.ofByte? (start : Nat) (b : UInt8) : Option Begun :=
  let n := b.toNat
  if 0xC2 ≤ n && n ≤ 0xDF then some ⟨start, b, 1, 0x80, 0xBF, n % 32⟩
  else if 0xE0 ≤ n && n ≤ 0xEF then
    some ⟨start, b, 2, if n = 0xE0 then 0xA0 else 0x80, if n = 0xED then 0x9F else 0xBF, n % 16⟩
  else if 0xF0 ≤ n && n ≤ 0xF4 then
    some ⟨start, b, 3, if n = 0xF0 then 0x90 else 0x80, if n = 0xF4 then 0x8F else 0xBF, n % 8⟩
  else none

/-- A character that has begun and goes on with a byte. -/
def Begun.next (p : Begun) (b : UInt8) : Begun :=
  { p with owed := p.owed - 1, least := 0x80, most := 0xBF, bits := p.bits * 64 + b.toNat % 64 }

/-- The characters of bytes from a position on. -/
def utf8 (pos : Nat) (begun : Option Begun) : List UInt8 → Except LoadFault (List Char)
  | [] =>
    match begun with
    | none => .ok []
    | some p => .error (.undecodable "utf-8" p.first p.start pos "unexpected end of data")
  | b :: bs =>
    match begun with
    | some p =>
      if p.least ≤ b.toNat && b.toNat ≤ p.most then
        let q := p.next b
        if q.owed = 0 then do return Char.ofNat q.bits :: (← utf8 (pos + 1) none bs)
        else utf8 (pos + 1) (some q) bs
      else .error (.undecodable "utf-8" p.first p.start pos "invalid continuation byte")
    | none =>
      if b.toNat < 0x80 then do return Char.ofNat b.toNat :: (← utf8 (pos + 1) none bs)
      else match Begun.ofByte? pos b with
        | some p => utf8 (pos + 1) (some p) bs
        | none => .error (.undecodable "utf-8" b pos (pos + 1) "invalid start byte")

/-- The bytes of the mark at the start of a text. -/
def utf8Mark : List UInt8 := [0xEF, 0xBB, 0xBF]

/-! ### UTF-16 -/

/-- The name of the encoding in a fault. -/
def utf16Name (bigEndian : Bool) : String := if bigEndian then "utf-16-be" else "utf-16-le"

/-- Two bytes as one unit. -/
def unit16 (bigEndian : Bool) (a b : UInt8) : Nat :=
  if bigEndian then a.toNat * 256 + b.toNat else b.toNat * 256 + a.toNat

/-- The characters of bytes from a position on; `high` is the first unit of a character of
two, with its first byte. -/
def utf16 (bigEndian : Bool) (pos : Nat) (high : Option (Nat × UInt8)) :
    List UInt8 → Except LoadFault (List Char)
  | a :: b :: bs =>
    let u := unit16 bigEndian a b
    match high with
    | some (h, first) =>
      if 0xDC00 ≤ u && u ≤ 0xDFFF then do
        let c := Char.ofNat (0x10000 + (h - 0xD800) * 1024 + (u - 0xDC00))
        return c :: (← utf16 bigEndian (pos + 2) none bs)
      else .error (.undecodable (utf16Name bigEndian) first (pos - 2) pos "illegal UTF-16 surrogate")
    | none =>
      if 0xD800 ≤ u && u ≤ 0xDBFF then utf16 bigEndian (pos + 2) (some (u, a)) bs
      else if 0xDC00 ≤ u && u ≤ 0xDFFF then
        .error (.undecodable (utf16Name bigEndian) a pos (pos + 2) "illegal encoding")
      else do return Char.ofNat u :: (← utf16 bigEndian (pos + 2) none bs)
  | rest =>
    match high, rest with
    | some (_, first), _ =>
      .error (.undecodable (utf16Name bigEndian) first (pos - 2) (pos + rest.length)
        "unexpected end of data")
    | none, a :: _ =>
      .error (.undecodable (utf16Name bigEndian) a pos (pos + 1) "truncated data")
    | none, [] => .ok []

/-- The characters of bytes that start with a byte order mark. -/
def utf16Marked : List UInt8 → Except LoadFault (List Char)
  | 0xFF :: 0xFE :: bs => utf16 false 2 none bs
  | 0xFE :: 0xFF :: bs => utf16 true 2 none bs
  | bs => do
    let cs ← utf16 false 0 none bs
    if cs.isEmpty then return [] else throw .noByteOrderMark

/-! ### All encodings -/

/-- The characters of bytes that are one character each, the first at a position. -/
def ascii (pos : Nat) : List UInt8 → Except LoadFault (List Char)
  | [] => .ok []
  | b :: bs =>
    if b.toNat < 128 then do return Char.ofNat b.toNat :: (← ascii (pos + 1) bs)
    else .error (.undecodable "ascii" b pos (pos + 1) "ordinal not in range(128)")

/-- The characters of bytes. A mark that is cut off stands for no text. -/
def Encoding.decode : Encoding → List UInt8 → Except LoadFault (List Char)
  | utf8, bs => Sexpr.utf8 0 none bs
  | utf8Marked, bs =>
    if bs.take 3 = utf8Mark then Sexpr.utf8 0 none (bs.drop 3)
    else if bs.isPrefixOf utf8Mark then .ok []
    else Sexpr.utf8 0 none bs
  | ascii, bs => Sexpr.ascii 0 bs
  | latin1, bs => .ok (bs.map fun b => Char.ofNat b.toNat)
  | utf16Marked, bs => Sexpr.utf16Marked bs
  | utf16 bigEndian, bs => Sexpr.utf16 bigEndian 0 none bs

/-- A carriage return, and one with a line feed after it, as a line feed. -/
def unifyNewlines : List Char → List Char
  | '\r' :: '\n' :: cs => '\n' :: unifyNewlines cs
  | '\r' :: cs => '\n' :: unifyNewlines cs
  | c :: cs => c :: unifyNewlines cs
  | [] => []

end Sexpr
