/-
Everything that can go wrong beyond reading a text, and the texts of these failures.

* `NumberFault`, `SchemaFault`, `PrintFault`, `CallFault`, `EvalFault` — the faults of
  each part;
* `Failure` — any of them, or a failure to decode with its path and its cause.
-/
import Sexpr.Arguments.Match
import Sexpr.Expr.Inspect
import Sexpr.Reader.Fault
import Sexpr.Number.Numeral

namespace Sexpr

/-- Why a number cannot be had. -/
inductive NumberFault where
  /-- A text that is not an integer. -/
  | integerText (text : String) (fault : IntegerFault)
  /-- A text that is not a number. -/
  | realText (text : String)
  | divisionByZero
  /-- A fraction with denominator zero. -/
  | zeroDenominator (num : Int)
  /-- An integer beyond all floating point numbers. -/
  | integerTooLarge
  /-- A quotient beyond all floating point numbers. -/
  | quotientTooLarge
  /-- The root of a negative number. -/
  | negativeRoot
deriving DecidableEq

/-- The text of a fault. -/
def NumberFault.message : NumberFault → String
  | integerText text .notAnInteger => ReadFault.notAnIntegerMessage 10 text
  | integerText _ (.tooManyDigits n) => ReadFault.tooManyDigitsMessage n
  | realText text => "could not convert string to float: " ++ Text.inspect text
  | divisionByZero => "division by zero"
  | zeroDenominator num => s!"Fraction({num}, 0)"
  | integerTooLarge => "int too large to convert to float"
  | quotientTooLarge => "integer division result too large for a float"
  | negativeRoot => "math domain error"

/-- Why a declared type makes no sense. -/
inductive SchemaFault where
  /-- A note that may occur once occurs again. -/
  | repeatedNote (kind : String)
  /-- More than one marker. -/
  | severalMarkers (names : List String)
  /-- A field that takes any number of values is not declared as a list. -/
  | variadicNotList (field type : String)
  /-- A default that all records share can change. -/
  | mutableDefault (field type : String)
  /-- A field without a default comes after one with a default. -/
  | requiredAfterDefault (field : String)
  /-- Two fields have the same name in the notation. -/
  | duplicateParameters (names : List String)
  /-- The search for an assignment broke off. -/
  | search (fault : SearchFault)
deriving DecidableEq

/-- The text of a fault. -/
def SchemaFault.message : SchemaFault → String
  | repeatedNote kind => "Multiple " ++ kind ++ " annotations are not allowed"
  | severalMarkers names =>
    "At most one arity marker is allowed, found: " ++ ", ".intercalate names
  | variadicNotList field type =>
    "Field '" ++ field ++ "' uses vararg marker but type is not list[T]: " ++ type
  | mutableDefault field type =>
    "mutable default " ++ type ++ " for field " ++ field ++ " is not allowed: use default_factory"
  | requiredAfterDefault field =>
    "non-default argument " ++ Text.inspect field ++ " follows default argument"
  | duplicateParameters names =>
    "Duplicate parameter names found: " ++ inspectList (names.map Text.inspect)
  | search fault => fault.message

/-- Why a value cannot be written. -/
inductive PrintFault where
  | lineTooShort
  | indentNotPositive
  /-- An expression of no kind. -/
  | bareExpr
  /-- A text without lines where one is needed. -/
  | noLines
  /-- A field that takes any number of values holds something else. -/
  | variadicValue (field : String)
  /-- A field that takes at least one value holds none. -/
  | emptyVariadic (field : String)
  /-- A class where a value is needed. -/
  | classValue
deriving DecidableEq

/-- The text of a fault. -/
def PrintFault.message : PrintFault → String
  | lineTooShort => "max_line_length must be >= 20"
  | indentNotPositive => "indent must be > 0 when provided"
  | bareExpr => BareFault.unsupported.message
  | noLines => "list index out of range"
  | variadicValue field => "Field '" ++ field ++ "' uses a vararg marker but value is not a sequence"
  | emptyVariadic field => "Field '" ++ field ++ "' uses OneOrMore but value is empty"
  | classValue => "must be called with a dataclass type or instance"

/-- Why the arguments of a call do not fit the called function. -/
inductive CallFault where
  | multipleValues (function argument : String)
  | unexpectedKeyword (function argument : String)
  | positionalOnly (function : String) (arguments : List String)
  | tooManyPositional (function : String) (least most given keywordOnly : Nat)
  | missingPositional (function : String) (names : List String)
  | missingKeywordOnly (function : String) (names : List String)
deriving DecidableEq

namespace CallFault

/-- The ending of a plural. -/
def plural (n : Nat) : String := if n = 1 then "" else "s"

/-- Names in quotes, as a list in prose. -/
def proseList (names : List String) : String :=
  match names.map fun n => "'" ++ n ++ "'" with
  | [] => ""
  | [a] => a
  | [a, b] => a ++ " and " ++ b
  | shown => ", ".intercalate shown.dropLast ++ ", and " ++ shown.getLastD ""

/-- The text of a fault. -/
def message : CallFault → String
  | multipleValues f a => f ++ "() got multiple values for argument '" ++ a ++ "'"
  | unexpectedKeyword f a => f ++ "() got an unexpected keyword argument '" ++ a ++ "'"
  | positionalOnly f as =>
    f ++ "() got some positional-only arguments passed as keyword arguments: '" ++
      ", ".intercalate as ++ "'"
  | tooManyPositional f least most given keywordOnly =>
    let range := if least < most then s!"from {least} to {most}" else toString most
    let isPlural := least < most || most ≠ 1
    let keywords := if keywordOnly = 0 then "" else
      s!" positional argument{plural given} (and {keywordOnly} keyword-only " ++
        s!"argument{plural keywordOnly})"
    f ++ "() takes " ++ range ++ " positional argument" ++ (if isPlural then "s" else "") ++
      s!" but {given}" ++ keywords ++
      (if given = 1 && keywordOnly = 0 then " was" else " were") ++ " given"
  | missingPositional f names =>
    f ++ s!"() missing {names.length} required positional argument{plural names.length}: " ++
      proseList names
  | missingKeywordOnly f names =>
    f ++ s!"() missing {names.length} required keyword-only argument{plural names.length}: " ++
      proseList names

end CallFault

/-- Why an expression cannot be evaluated. -/
inductive EvalFault where
  | undefined (name : String)
  | emptyGroup
  | cannotCall (text : String)
  | missingKeywordValue (key : String)
  | duplicateKeyword (key : String)
  /-- The arguments of a call do not match the parameters. -/
  | mismatch (text : String)
  /-- A list has no such element. -/
  | noElement
  /-- A module path without an attribute. -/
  | noAttributePath
  | emptyModuleName
  | relativeModule (name : String)
  | noModule (name : String)
  /-- A part of a module that has no parts. -/
  | notAPackage (name parent : String)
  | noModuleAttribute (module name : String)
  /-- A parameter wants the expression itself, but of a type that is not one of expressions. -/
  | notExprClass (type : String)
  | notAClass
  /-- A value that cannot be evaluated, by the text of its class. -/
  | notExpr (found : String)
  | wrongExprClass (type found : String)
  | unsupportedSum (left right : String)
  | notARealNumber (type : String)
  /-- Evaluations nest too deeply. -/
  | tooDeep
deriving DecidableEq

/-- The text of a fault. -/
def EvalFault.message : EvalFault → String
  | undefined name => "Name '" ++ name ++ "' is not defined"
  | emptyGroup => "Empty group"
  | cannotCall text => "Cannot call " ++ text
  | missingKeywordValue key => "Missing value for keyword argument " ++ key
  | duplicateKeyword key => "Duplicate keyword argument " ++ key
  | mismatch text => text
  | noElement => "list index out of range"
  | noAttributePath => "not enough values to unpack (expected 2, got 1)"
  | emptyModuleName => "Empty module name"
  | relativeModule name =>
    "the 'package' argument is required to perform a relative import for " ++ Text.inspect name
  | noModule name => "No module named " ++ Text.inspect name
  | notAPackage name parent =>
    "No module named " ++ Text.inspect name ++ "; " ++ Text.inspect parent ++ " is not a package"
  | noModuleAttribute module name => "module '" ++ module ++ "' has no attribute '" ++ name ++ "'"
  | notExprClass type => "Expected Expr subtype, got " ++ type
  | notAClass => "issubclass() arg 1 must be a class"
  | notExpr found => "Expected Expr, got " ++ found
  | wrongExprClass type found => "Expected " ++ type ++ ", got " ++ found
  | unsupportedSum left right =>
    "unsupported operand type(s) for +: '" ++ left ++ "' and '" ++ right ++ "'"
  | notARealNumber type => "must be real number, not " ++ type
  | tooDeep => "maximum recursion depth exceeded"

/-- Why a text cannot be had out of a file. -/
inductive LoadFault where
  /-- The source does not give text. -/
  | notText
  /-- There is no such file. -/
  | noFile
  | unknownEncoding (name : String)
  /-- Bytes from `start` to `stop` that are no text in the encoding, the first one given. -/
  | undecodable (encoding : String) (byte : UInt8) (start stop : Nat) (reason : String)
  /-- A text that has to start with a byte order mark does not. -/
  | noByteOrderMark
deriving DecidableEq

/-- The text of a fault. -/
def LoadFault.message : LoadFault → String
  | notText => "load() source.read() must return str text"
  | noFile => ""
  | unknownEncoding name => "unknown encoding: " ++ name
  | undecodable encoding byte start stop reason =>
    "'" ++ encoding ++ "' codec can't decode byte" ++
      (if stop = start + 1 then " 0x" ++ Text.hex 2 byte.toNat ++ s!" in position {start}"
      else s!"s in position {start}-{stop - 1}") ++ ": " ++ reason
  | noByteOrderMark => "UTF-16 stream does not start with BOM"

/-- The source that a failure points to: a span, or the spans of a token that has none. -/
inductive Origin where
  | span (span : Span)
  | token (spans : TokenSpans)
deriving DecidableEq

/-- Anything that can go wrong. -/
inductive Failure where
  | read (fault : ReadFault)
  | number (fault : NumberFault)
  | arity (fault : ArityFault)
  | arguments (fault : ArgumentFault String Expr)
  | schema (fault : SchemaFault)
  | print (fault : PrintFault)
  | call (fault : CallFault)
  | eval (fault : EvalFault)
  | load (fault : LoadFault)
  | span (fault : SpanFault)
  /-- A value of a kind that cannot be a key. -/
  | unhashable (kind : String)
  /-- A value without the wanted part. -/
  | noAttribute (kind name : String)
  /-- A failure of a given kind, raised by a function from outside. -/
  | raised (kind text : String)
  /-- An expression that does not fit the wanted type. -/
  | decode (path expected got : String) (origin : Option Origin) (cause : Option Failure)
      (text : Option String)

/-- The text of a failure. -/
def Failure.message : Failure → String
  | read f => f.message
  | number f => f.message
  | arity f => f.message
  | arguments f => f.message id Text.inspect Expr.text
  | schema f => f.message
  | print f => f.message
  | call f => f.message
  | eval f => f.message
  | load f => f.message
  | span f => f.message
  | unhashable kind => "unhashable type: '" ++ kind ++ "'"
  | noAttribute kind name => "'" ++ kind ++ "' object has no attribute '" ++ name ++ "'"
  | raised _ text => text
  | decode path expected got _ cause text =>
    match text, cause with
    | some t, _ => t
    | none, none => path ++ ": expected " ++ expected ++ ", got " ++ got
    | none, some c => path ++ ": expected " ++ expected ++ ", got " ++ got ++ " (" ++ c.message ++ ")"

end Sexpr
