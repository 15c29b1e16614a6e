/-
Decoding expressions into values of given types.

An expression is decoded by the decoder that is registered for the type, or by the
rules for the type: basic types, lists, dictionaries, unions, and records, which are
groups that start with a tag and go on with the arguments for the fields.

* `Decoder`, `Decoders` — decoders from outside, and all that decoding depends on;
* `Decoders.decodeRecord`, `Decoders.decodeBase` — the rules for records and for all types;
* `Decoders.decode` — decodes an expression;
* `Decoders.readOne`, `Decoders.readMany`, `Decoders.read` — decode a source text.
-/
import Sexpr.Arguments.Tail
import Sexpr.Decode.Subject
import Sexpr.Decode.Untyped
import Sexpr.Expr.Equality
import Sexpr.Reader.Grammar
import Sexpr.Schema.Record

namespace Sexpr

/-- Decodes a subject into a value of a type; the path says where the subject stands. -/
abbrev DecodeFn := Target → Subject → String → Except Failure Value

/-- What a decoder from outside is told besides the subject. -/
structure DecodeContext where
  path : String
  target : Target

/-- A decoder from outside; it can decode other subjects in turn. -/
abbrev Decoder := DecodeFn → Subject → DecodeContext → Except Failure Value

/-- All that decoding depends on: the declared records, the decoders registered for
types, first one first, and those that types carry as notes, by their keys. -/
structure Decoders where
  records : Records
  registry : List (Target × Decoder)
  attached : List Decoder

namespace Decoders

/-- The decoder registered last for a type without notes. -/
def registered? (d : Decoders) : Target → Option Decoder
  | .annotated _ _ => none
  | t => (d.registry.reverse.find? fun e => e.1.same t).map Prod.snd

/-- Runs a decoder from outside. A failure that is not one to decode becomes the cause
of one. -/
def runDecoder (f : Decoder) (down : DecodeFn) (t : Target) (s : Subject) (path : String) :
    Except Failure Value :=
  match f down s ⟨path, t⟩ with
  | .ok v => .ok v
  | .error (.decode p e g o c m) => .error (.decode p e g o c m)
  | .error cause => .error (mismatch path ("custom deserializer for " ++ t.name) s (some cause))

/-! ### Basic types -/

/-- Whether a word is written, in capitals or not. -/
def isWord (words : List String) (s : Subject) : Bool :=
  match s with
  | .expr (.leaf (.atom name) _) => words.contains (Text.lower name)
  | _ => false

/-- Decodes a text. -/
def decodeStr (s : Subject) (path : String) : Except Failure Value :=
  match s with
  | .expr (.leaf (.string value) _) => .ok (.str value)
  | .expr (.leaf (.atom name) _) => .ok (.str name)
  | s => .error (mismatch path "str" s none)

/-- Decodes a truth value. -/
def decodeBool (s : Subject) (path : String) : Except Failure Value :=
  if isWord ["true"] s then .ok (.bool true)
  else if isWord ["false"] s then .ok (.bool false)
  else .error (mismatch path "bool (atom true/false)" s none)

/-- Decodes an integer. -/
def decodeInt (s : Subject) (path : String) : Except Failure Value :=
  match s with
  | .expr (.leaf (.int value) _) => .ok (.int value)
  | .expr (.leaf (.atom name) _) =>
    match readInt name with
    | .ok i => .ok (.int i)
    | .error f => .error (mismatch path "int atom" s (some (.number (.integerText name f))))
  | s => .error (mismatch path "int atom" s none)

/-- An integer as a floating point number. -/
def realOfInt (i : Int) : Except Failure Value :=
  match Binary64.ofInt? i with
  | some r => .ok (.real r)
  | none => .error (.number .integerTooLarge)

/-- A quotient as a floating point number. -/
def realOfQuotient (num den : Int) : Except Failure Value :=
  if den = 0 then .error (.number .divisionByZero)
  else match Binary64.ofQuotient? num den with
    | some r => .ok (.real r)
    | none => .error (.number .quotientTooLarge)

/-- Decodes a floating point number. -/
def decodeReal (s : Subject) (path : String) : Except Failure Value :=
  match s with
  | .expr (.leaf (.real value) _) => .ok (.real value)
  | .expr (.leaf (.int value) _) => realOfInt value
  | .expr (.leaf (.rational num den) _) => realOfQuotient num den
  | .expr (.leaf (.atom name) _) =>
    match readReal? name with
    | some r => .ok (.real r)
    | none => .error (mismatch path "float atom" s (some (.number (.realText name))))
  | s => .error (mismatch path "float atom" s none)

/-- Keeps an expression or a text as it stands. -/
def decodeQuoted (inner : Target) (s : Subject) (path : String) : Except Failure Value :=
  match inner with
  | .cls .str =>
    match decodeStr s path with
    | .ok v => .ok (.quoted none v)
    | .error _ => .error (mismatch path "Quoted[str]" s none)
  | .cls (.expr kind) =>
    match s.ofClass? kind with
    | some e => .ok (.quoted none (.expr e))
    | none => .error (mismatch path ("Quoted[" ++ kind.name ++ "]") s none)
  | _ => .error (mismatch path "Quoted[str] or Quoted[Expr subtype]" s none)

/-! ### Lists, dictionaries and records -/

section

variable (down : DecodeFn)

/-- Decodes the items of a list, the first of them at an index. -/
def decodeItems (item : Target) (path : String) : Nat → List Expr → Except Failure (List Value)
  | _, [] => .ok []
  | i, e :: es => do
    let v ← down item (.expr e) s!"{path}[{i}]"
    return v :: (← decodeItems item path (i + 1) es)

/-- Decodes a list. -/
def decodeList (item : Target) (s : Subject) (path : String) : Except Failure Value :=
  match s with
  | .expr (.items .sequence values _) => do return .list (← decodeItems down item path 0 values)
  | s => .error (mismatch path "sequence []" s none)

/-- Decodes the fields of a map, the first of them at an index, after the entries so far. -/
def decodeEntries (key value : Target) (whole : Subject) (path : String) :
    Nat → List (FieldOf Expr) → Entries → Except Failure Entries
  | _, [], es => .ok es
  | i, f :: fs, es => do
    let k ← down key (.expr f.key) s!"{path}.keys[{i}]"
    let v ← down value (.expr f.value) s!"{path}.values[{i}]"
    match es.put k v with
    | .ok es => decodeEntries key value whole path (i + 1) fs es
    | .error cause => .error (mismatch path "hashable map key" whole (some cause))

/-- Decodes a dictionary. -/
def decodeDict (key value : Target) (s : Subject) (path : String) : Except Failure Value :=
  match s with
  | .expr (.map fields _) => do
    return .dict false (← decodeEntries down key value s path 0 fields [])
  | s => .error (mismatch path "map \x7b\x7d" s none)

/-- Decodes what was assigned to a field: a single value, nothing for an optional field
without values (unless a default takes its place), or a list. -/
def decodeField (plan : FieldPlan) (whole : Subject) (path : String) (values : List Expr) :
    Except Failure (Option Value) :=
  let fieldPath := path ++ "." ++ plan.field.name
  let one (e : Expr) : Except Failure (Option Value) := do
    return some (← down plan.field.type (.expr e) fieldPath)
  if plan.arity = .required then
    match values with
    | [e] => one e
    | _ => .error (mismatch path ("single value for '" ++ plan.name ++ "'") whole none)
  else if plan.arity = .optional then
    match values with
    | e :: _ => one e
    | [] => .ok (if plan.field.default.isSome then none else some .nothing)
  else do
    let item := (plan.field.type.unwrap.1.item?).getD .any
    return some (.list (← decodeItems down item fieldPath 0 values))

/-- Decodes what was assigned to the fields of a record. -/
def decodeFields (whole : Subject) (path : String) (assigned : Assignment Expr) :
    List FieldPlan → Except Failure (List (String × Value))
  | [] => .ok []
  | plan :: plans => do
    let v ← decodeField down plan whole path (assigned.getD plan.name)
    let rest ← decodeFields whole path assigned plans
    return match v with
      | some v => (plan.field.name, v) :: rest
      | none => rest

/-- Decodes a record: a group of its tag and the arguments for its fields. -/
def decodeRecord (decl : RecordDecl) (s : Subject) (path : String) : Except Failure Value :=
  match s with
  | .expr (.items .group (head :: args) _) =>
    match head with
    | .leaf (.atom tag) _ =>
      if tag = decl.tag then do
        let plans ← (decl.fields.mapM FieldDecl.plan).mapError Failure.schema
        let params := plans.map fun p => Parameter.mk p.arity p.name
        match matchTail params args with
        | .error (.arguments f) =>
          .error (mismatch path ("arguments for " ++ decl.cls.name) s (some (.arguments f)))
        | .error f => .error f
        | .ok assigned =>
          match decl.construct (← decodeFields down s path assigned plans) with
          | .ok v => .ok v
          | .error cause => .error (mismatch path ("construct " ++ decl.cls.name) s (some cause))
      else .error (mismatch path ("tag '" ++ decl.tag ++ "'") (.expr head) none)
    | head => .error (mismatch path ("tag atom for " ++ decl.cls.name) (.expr head) none)
  | s => .error (mismatch path ("tagged group for " ++ decl.cls.name) s none)

/-- A tag that two different records share: the first that comes up again. -/
def sharedTag? : List RecordDecl → List RecordDecl → Option String
  | _, [] => none
  | seen, d :: ds =>
    if seen.any fun e => e.tag == d.tag && e.cls != d.cls then some d.tag
    else sharedTag? (d :: seen) ds

/-- Decodes one of several records, which the tag tells apart. -/
def decodeRecordUnion (decls : List RecordDecl) (s : Subject) (path : String) :
    Except Failure Value :=
  match s with
  | .expr (.items .group (head :: _) _) =>
    match head with
    | .leaf (.atom tag) _ =>
      match sharedTag? [] decls with
      | some shared =>
        .error (.decode path "unique dataclass union tags" ("duplicate tag '" ++ shared ++ "'")
          none none none)
      | none =>
        match decls.find? (·.tag = tag) with
        | some decl => decodeRecord down decl s path
        | none =>
          let tags := (decls.map RecordDecl.tag).eraseDups.mergeSort (fun a b => decide (a ≤ b))
          .error (mismatch path ("one of dataclass tags: " ++ ", ".intercalate tags)
            (.expr head) none)
    | head => .error (mismatch path "tag atom" (.expr head) none)
  | s => .error (mismatch path "tagged group for dataclass union" s none)

end

/-! ### All types -/

/-- Decodes into a value of a class. -/
def decodeClass (d : Decoders) (down : DecodeFn) (c : ClassName) (s : Subject) (path : String) :
    Except Failure Value :=
  match c with
  | .expr kind =>
    match s.ofClass? kind with
    | some e => .ok (.expr e)
    | none => .error (mismatch path kind.name s none)
  | .str => decodeStr s path
  | .bool => decodeBool s path
  | .int => decodeInt s path
  | .float => decodeReal s path
  | c =>
    match d.records.find? c with
    | some decl => decodeRecord down decl s path
    | none => .error (mismatch path c.name s none)

/-- The records among the members of a union, if all members but nothing are records. -/
def recordMembers? (d : Decoders) (members : List Target) : Option (List RecordDecl) :=
  let others := (members.map (·.unwrap.1)).filter fun t => !t.same .noneType
  let records := others.filterMap fun
    | .cls c => d.records.find? c
    | _ => none
  if records.isEmpty || records.length ≠ others.length then none else some records

mutual

/-- Decodes into a value of a type without notes. -/
def decodeBase (d : Decoders) (down : DecodeFn) (t : Target) (s : Subject) (path : String) :
    Except Failure Value :=
  match d.registered? t with
  | some f => runDecoder f down t s path
  | none =>
    match t with
    | .any =>
      match s with
      | .expr e => e.value
      | .field f => .ok (.field f)
    | .cls c => d.decodeClass down c s path
    | .unionOf _ members =>
      match d.recordMembers? members with
      | some decls => decodeRecordUnion down decls s path
      | none =>
        if members.any (·.unwrap.1.same .noneType) && isWord ["none", "null"] s then .ok .nothing
        else do
          match ← d.decodeMembers down members none s path with
          | .inr v => return v
          | .inl (some cause) =>
            let names := members.map fun m => m.unwrap.1.name
            throw (mismatch path (" | ".intercalate names) s (some cause))
          | .inl none => throw (mismatch path "non-empty union" s none)
    | .quoted inner => decodeQuoted inner s path
    | .list item => decodeList down item s path
    | .bareList => decodeList down .any s path
    | .dict key value => decodeDict down key value s path
    | .bareDict => decodeDict down .any .any s path
    | .annotated base _ => d.decodeBase down base s path
    | t => .error (mismatch path t.text s none)

/-- Decodes into a value of the first member of a union that fits, else gives the first
failure. Only failures to decode let the next member have its turn. -/
def decodeMembers (d : Decoders) (down : DecodeFn) (members : List Target)
    (first : Option Failure) (s : Subject) (path : String) :
    Except Failure (Option Failure ⊕ Value) :=
  match members with
  | [] => .ok (.inl first)
  | m :: ms =>
    if m.unwrap.1.same .noneType then d.decodeMembers down ms first s path
    else
      match d.decodeBase down m s path with
      | .ok v => .ok (.inr v)
      | .error (.decode p e g o c t) =>
        d.decodeMembers down ms (first.or (some (.decode p e g o c t))) s path
      | .error f => .error f

end

/-- Decodes into a value of a type. A decoder in its notes comes before everything else. -/
def decodeBy (d : Decoders) (down : DecodeFn) : DecodeFn
  | .annotated base notes, s, path =>
    match decoderNote notes with
    | .error f => .error (.schema f)
    | .ok none => d.decodeBase down base s path
    | .ok (some key) =>
      match d.attached[key]? with
      | some f => runDecoder f down base s path
      | none => d.decodeBase down base s path
  | t, s, path => d.decodeBase down t s path

/-- Decodes at most so many levels deep, where each level of the subject and each decoder
from outside counts. -/
def decodeWithin (d : Decoders) : Nat → DecodeFn
  | 0 => fun _ _ _ => .error (.eval .tooDeep)
  | n + 1 => d.decodeBy (d.decodeWithin n)

/-- Enough levels for an expression: without decoders from outside its own levels, else
as many for each of them. -/
def levels (d : Decoders) (e : Expr) : Nat :=
  (e.depth + 1) * (d.registry.length + d.attached.length + 1)

/-- Decodes an expression into a value of a type. -/
def decode (d : Decoders) (t : Target) (e : Expr) (path : String) : Except Failure Value :=
  d.decodeWithin (d.levels e) t (.expr e) path

/-! ### Source texts -/

/-- The path of a whole text. -/
def rootPath : String := "$"

/-- The only expression of a document. -/
def onlyExpr (doc : Document) : Except Failure Expr :=
  match doc.exprs with
  | [e] => .ok e
  | es =>
    .error (.decode rootPath "exactly one top-level expression" s!"{es.length} expressions"
      none none none)

/-- Decodes the only expression of a source text. -/
def readOne (d : Decoders) (t : Target) (src : String) : Except Failure Value := do
  let doc ← (Document.parse src true).mapError Failure.read
  d.decode t (← onlyExpr doc) rootPath

/-- Decodes expressions of a text, the first of them at an index. -/
def decodeAll (d : Decoders) (t : Target) : Nat → List Expr → Except Failure (List Value)
  | _, [] => .ok []
  | i, e :: es => do
    let v ← d.decode t e s!"{rootPath}[{i}]"
    return v :: (← d.decodeAll t (i + 1) es)

/-- Decodes all expressions of a source text. -/
def readMany (d : Decoders) (t : Target) (src : String) : Except Failure Value := do
  let doc ← (Document.parse src true).mapError Failure.read
  return .list (← d.decodeAll t 0 doc.exprs)

/-- Reads a source text as a document, or decodes its only expression. -/
def read (d : Decoders) (t : Option Target) (src : String) (spans : Bool) :
    Except Failure Value := do
  let doc ← (Document.parse src spans).mapError Failure.read
  match t with
  | none => return .document doc
  | some t => d.decode t (← onlyExpr doc) rootPath

end Decoders
end Sexpr
