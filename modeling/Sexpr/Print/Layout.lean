/-
Laying out expressions without regard to their spans.

An expression that fits in its line is written in it; a longer one is broken up, with
its parts indented below. In the pretty style some expressions are broken up even if
they fit.

* `Layout` — the style, the indentation and the length of lines;
* `Expr.inline` — an expression in one line;
* `Expr.format` — an expression in a style at a level of indentation;
* `Document.layOut` — a whole document.
-/
import Sexpr.Arguments.Tail
import Sexpr.Text.Lines

namespace Sexpr

/-- How expressions are laid out: in the pretty style or not, with how many blanks a
level is indented, and how long lines may be. -/
structure Layout where
  pretty : Bool
  indent : Nat
  width : Nat

namespace Layout

/-- Whether a text fits in a line at a level. -/
def fits (l : Layout) (level : Nat) (text : String) : Bool :=
  decide (text.length + l.indent * level ≤ l.width)

/-- The blanks in front of a line at the next level. -/
def margin (l : Layout) : String := String.ofList (List.replicate l.indent ' ')

/-- Lines at the next level. -/
def indented (l : Layout) (lines : List String) : List String := lines.map (l.margin ++ ·)

end Layout

/-! ### One line -/

mutual

/-- An expression in one line. -/
def Expr.inline : Expr → String
  | .leaf l _ => l.text
  | .items e values _ =>
    e.brackets.1 ++ " ".intercalate (Expr.inlineAll values) ++ e.brackets.2
  | .map fields _ => "\x7b" ++ ", ".intercalate (Field.inlineAll fields) ++ "\x7d"
  | .bare _ => "<Expr>"

/-- Expressions, each in one line. -/
def Expr.inlineAll : List Expr → List String
  | [] => []
  | e :: es => e.inline :: Expr.inlineAll es

/-- Fields, each in one line. -/
def Field.inlineAll : List (FieldOf Expr) → List String
  | [] => []
  | ⟨k, v, _⟩ :: fs => (k.inline ++ ": " ++ v.inline) :: Field.inlineAll fs

end

theorem Expr.inlineAll_eq_map (es : List Expr) : Expr.inlineAll es = es.map Expr.inline := by
  induction es with
  | nil => rfl
  | cons e es ih => rw [Expr.inlineAll, List.map_cons, ih]

theorem Field.inlineAll_eq_map (fs : List Field) :
    Field.inlineAll fs = fs.map fun f => f.key.inline ++ ": " ++ f.value.inline := by
  induction fs with
  | nil => rfl
  | cons f fs ih => rw [Field.inlineAll, List.map_cons, ih]

theorem Expr.inline_items (e : Enclosure) (values : List Expr) (spans : BracketSpans) :
    (Expr.items e values spans).inline =
      e.brackets.1 ++ " ".intercalate (values.map Expr.inline) ++ e.brackets.2 := by
  rw [Expr.inline, Expr.inlineAll_eq_map]

theorem Expr.inline_map (fields : List Field) (spans : BracketSpans) :
    (Expr.map fields spans).inline =
      "\x7b" ++ ", ".intercalate (fields.map fun f => f.key.inline ++ ": " ++ f.value.inline) ++
        "\x7d" := by
  rw [Expr.inline, Field.inlineAll_eq_map]

/-- Whether two leaves are of one kind. -/
def Leaf.sameKind : Leaf → Leaf → Bool
  | .atom _, .atom _ => true
  | .string _, .string _ => true
  | .int _, .int _ => true
  | .real _, .real _ => true
  | .rational _ _, .rational _ _ => true
  | _, _ => false

/-- Whether an expression is a leaf of the same kind as a given one. -/
def Expr.isLeafLike (l : Leaf) : Expr → Bool
  | .leaf m _ => l.sameKind m
  | _ => false

/-- Whether items may stand in one line in the pretty style: at most eight leaves of one
kind. -/
def areUniform : List Expr → Bool
  | [] => true
  | .leaf l _ :: es => decide (es.length < 8) && es.all (Expr.isLeafLike l)
  | _ :: _ => false

/-! ### Several lines -/

/-- A part of a group after its head: the name of an argument, or the text of a value. -/
inductive Piece where
  | name (name : String)
  | text (text : String)

/-- The values before the first name, and each name with the values after it. -/
def gather : List Piece → List String × List (String × List String)
  | [] => ([], [])
  | .text t :: ps => (t :: (gather ps).1, (gather ps).2)
  | .name n :: ps => ([], (n, (gather ps).1) :: (gather ps).2)

namespace Layout

/-- The lines of a named argument at a level. -/
def argument (l : Layout) (level : Nat) (name : String) (texts : List String) :
    Except PrintFault (List String) :=
  if texts.isEmpty then .ok [":" ++ name]
  else
    let line := ":" ++ name ++ " " ++ " ".intercalate texts
    if texts.all (fun t => !t.toList.contains '\n') && l.fits level line then .ok [line]
    else match texts with
      | [t] =>
        match Text.lines t with
        | [] => .error .noLines
        | first :: rest => .ok ((":" ++ name ++ " " ++ first) :: rest)
      | texts => .ok ((":" ++ name) :: texts.flatMap fun t => l.indented (Text.lines t))

/-- The lines of the named arguments of a group, all one level deeper. -/
def arguments (l : Layout) (level : Nat) :
    List (String × List String) → Except PrintFault (List String)
  | [] => .ok []
  | (name, texts) :: named => do
    let lines ← l.argument level name texts
    return l.indented lines ++ (← l.arguments level named)

/-- A group over several lines: the head and the values before the first name in one
line, then the named arguments. -/
def group (l : Layout) (level : Nat) (head : String) (pieces : List Piece) :
    Except PrintFault String := do
  let (positional, named) := gather pieces
  let lines ← l.arguments (level + 1) named
  return "\n".intercalate (("(" ++ " ".intercalate (head :: positional)) :: lines ++ [")"])

/-- A sequence over several lines. -/
def sequence (l : Layout) (texts : List String) : String :=
  "\n".intercalate ("[" :: (texts.flatMap fun t => l.indented (Text.lines t)) ++ ["]"])

/-- A text after the last line. -/
def appendLast (suffix : String) : List String → List String
  | [] => []
  | [line] => [line ++ suffix]
  | line :: lines => line :: appendLast suffix lines

/-- The lines of the fields of a map, keys and values given as texts. -/
def fields (l : Layout) : List (String × String) → Except PrintFault (List String)
  | [] => .ok []
  | (key, value) :: rest => do
    let suffix := if rest.isEmpty then "" else ","
    match Text.lines value with
    | [] => throw .noLines
    | first :: more =>
      let lines := appendLast suffix ((key ++ ": " ++ first) :: more)
      return l.indented lines ++ (← l.fields rest)

/-- A map over several lines. -/
def map (l : Layout) (entries : List (String × String)) : Except PrintFault String := do
  return "\n".intercalate ("\x7b" :: (← l.fields entries) ++ ["\x7d"])

end Layout

mutual

/-- An expression of known kind, in the pretty style or not, at a level. -/
def Expr.format (l : Layout) (pretty : Bool) (level : Nat) : Expr → Except PrintFault String
  | .leaf leaf _ => .ok leaf.text
  | .items .group values spans =>
    let line := (Expr.items .group values spans).inline
    if l.fits level line then .ok line
    else match values with
      | [] => .ok line
      | head :: args => do l.group level head.inline (← Expr.formatArgs l level false args)
  | .items .sequence values spans =>
    let line := (Expr.items .sequence values spans).inline
    if l.fits level line && (!pretty || areUniform values) then .ok line
    else match values with
      | [] => .ok line
      | values => do return l.sequence (← Expr.formatAll l (level + 1) values)
  | .map fields spans =>
    let line := (Expr.map fields spans).inline
    if l.fits level line && (!pretty || decide (fields.length ≤ 1)) then .ok line
    else match fields with
      | [] => .ok line
      | fields => do l.map (← Field.formatAll l (level + 1) fields)
  | .bare _ => .error .bareExpr

/-- Expressions in the style of the layout. -/
def Expr.formatAll (l : Layout) (level : Nat) : List Expr → Except PrintFault (List String)
  | [] => .ok []
  | e :: es => do
    let text ← e.format l l.pretty level
    return text :: (← Expr.formatAll l level es)

/-- The arguments of a group at a level: in one line if they fit before the first name,
after it one level deeper in the style of the layout. -/
def Expr.formatArgs (l : Layout) (level : Nat) (named : Bool) :
    List Expr → Except PrintFault (List Piece)
  | [] => .ok []
  | e :: es =>
    match e.keyword? with
    | some name => do return .name name :: (← Expr.formatArgs l level true es)
    | none => do
      let text ← if named then e.format l l.pretty (level + 1) else e.format l false level
      return .text text :: (← Expr.formatArgs l level named es)

/-- The fields of a map: keys in one line if they fit, values in the style of the layout. -/
def Field.formatAll (l : Layout) (level : Nat) :
    List (FieldOf Expr) → Except PrintFault (List (String × String))
  | [] => .ok []
  | ⟨k, v, _⟩ :: fs => do
    let key ← k.format l false level
    let value ← v.format l l.pretty level
    return (key, value) :: (← Field.formatAll l level fs)

end

/-- An expression at a level, if every part of it is of some kind. -/
def Expr.layOut (l : Layout) (level : Nat) (e : Expr) : Except PrintFault String :=
  if e.hasBare then .error .bareExpr else e.format l l.pretty level

/-- Expressions at the outermost level. -/
def Expr.layOutAll (l : Layout) : List Expr → Except PrintFault (List String)
  | [] => .ok []
  | e :: es => do
    let text ← e.layOut l 0
    return text :: (← Expr.layOutAll l es)

/-- What stands between two expressions of a document. -/
def Layout.gap (l : Layout) : String := if l.pretty then "\n\n" else "\n"

/-- A document. -/
def Document.layOut (l : Layout) (d : Document) : Except PrintFault String := do
  return l.gap.intercalate (← Expr.layOutAll l d.exprs)

end Sexpr
