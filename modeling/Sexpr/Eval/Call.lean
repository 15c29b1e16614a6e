/-
Calling functions.

* `FunctionOf.signatureText` — the text of a function's parameters and result;
* `FunctionOf.bind` — which parameter gets which value, given values by position and by
  name;
* `bindTail` — which expressions of a group are given by position and which by name.
-/
import Sexpr.Arguments.Tail
import Sexpr.Schema.Record

namespace Sexpr

/-- The type of a parameter, without notes. -/
def ParamOf.target (p : Param) : Target := (p.type.map Target.bare).getD .any

namespace FunctionOf

/-- The text of a function's parameters and result. -/
def signatureText (f : Function) : String :=
  let params := f.params.map fun p => p.name ++ ": " ++ p.target.signatureText
  "(" ++ ", ".intercalate params ++ ") -> " ++
    ((f.result.map Target.bare).getD .any).signatureText

/-- The parameters that take a value by position. -/
def positional (f : Function) : List Param :=
  f.params.filter fun p => p.kind = .normal || p.kind = .positionalOnly

/-- Whether some parameter is of a kind. -/
def hasKind (f : Function) (kind : ParamKind) : Bool := f.params.any fun p => p.kind = kind

/-- Whether a parameter takes a value by its name. -/
def takesName (f : Function) (name : String) : Bool :=
  f.params.any fun p => p.name == name && (p.kind = .normal || p.kind = .keywordOnly)

/-- The values given to parameters, and those given by other names. -/
structure Given where
  values : List (String × Value)
  others : List (String × Value)

/-- Gives a value by a name. -/
def giveNamed (f : Function) (g : Given) (name : String) (v : Value) : Except CallFault Given :=
  if f.takesName name then
    if (g.values.lookup name).isSome then .error (.multipleValues f.name name)
    else .ok { g with values := g.values ++ [(name, v)] }
  else if f.hasKind .keywords then .ok { g with others := g.others ++ [(name, v)] }
  else if f.params.any fun p => p.name == name && p.kind = .positionalOnly then
    .error (.positionalOnly f.name [name])
  else .error (.unexpectedKeyword f.name name)

/-- Gives values by names. -/
def giveAll (f : Function) : Given → List (String × Value) → Except CallFault Given
  | g, [] => .ok g
  | g, (name, v) :: rest => do f.giveAll (← f.giveNamed g name v) rest

/-- The names of the parameters among some that have neither a value nor a default. -/
def lacking (g : Given) (ps : List Param) : List String :=
  ps.filterMap fun p =>
    if p.default.isNone && (g.values.lookup p.name).isNone then some p.name else none

/-- The value of a parameter: the rest of the values by position, the values by other
names, or its own value or default. -/
def valueOf (g : Given) (rest : List Value) (p : Param) : Value :=
  match p.kind with
  | .rest => .tuple rest
  | .keywords => .dict false (g.others.map fun e => (.str e.1, e.2))
  | _ => ((g.values.lookup p.name).or p.default).getD .nothing

/-- The value of each parameter, given values by position and by name. -/
def bind (f : Function) (args : List Value) (named : List (String × Value)) :
    Except CallFault (List (String × Value)) := do
  let taken := (f.positional.zip args).map fun e => (e.1.name, e.2)
  let rest := args.drop f.positional.length
  let g ← f.giveAll ⟨taken, []⟩ named
  let keywordOnly := f.params.filter fun p => p.kind = .keywordOnly
  if !rest.isEmpty && !f.hasKind .rest then
    let least := (f.positional.filter fun p => p.default.isNone).length
    let given := keywordOnly.filter fun p => (g.values.lookup p.name).isSome
    throw (.tooManyPositional f.name least f.positional.length args.length given.length)
  unless (lacking g f.positional).isEmpty do
    throw (.missingPositional f.name (lacking g f.positional))
  unless (lacking g keywordOnly).isEmpty do
    throw (.missingKeywordOnly f.name (lacking g keywordOnly))
  return f.params.map fun p => (p.name, valueOf g rest p)

end FunctionOf

/-! ### The expressions of a call -/

/-- The expressions that a call gives by position and by name. -/
structure CallArgs where
  positional : List Expr
  named : List (String × Expr)

/-- Every name gives the expression right after it; all others are given by position. -/
def bindSimple : List Expr → CallArgs → Except Failure CallArgs
  | [], c => .ok c
  | e :: es, c =>
    match e.keyword? with
    | none => bindSimple es { c with positional := c.positional ++ [e] }
    | some key =>
      match es with
      | [] => .error (.eval (.missingKeywordValue key))
      | v :: es =>
        if (c.named.lookup key).isSome then .error (.eval (.duplicateKeyword key))
        else bindSimple es { c with named := c.named ++ [(key, v)] }

/-- The number of values that a parameter takes. -/
def ParamOf.arity (p : Param) : Arity :=
  if p.kind = .rest then .zeroOrMore
  else if p.default.isNone then .required
  else .optional

/-- Gives each parameter what was assigned to it, by position where it takes no name. -/
def giveAssigned (assigned : Assignment Expr) : List Param → CallArgs
  | [] => ⟨[], []⟩
  | p :: ps =>
    let values := assigned.getD p.name
    let c := giveAssigned assigned ps
    match p.kind, values with
    | .rest, values => { c with positional := values ++ c.positional }
    | _, [] => c
    | .positionalOnly, v :: _ => { c with positional := v :: c.positional }
    | _, v :: _ => { c with named := (p.name, v) :: c.named }

/-- Assigns the expressions of a group to the parameters of a function. A function that
takes any names gets each name with the expression after it. -/
def bindTail (f : Function) (tail : List Expr) : Except Failure CallArgs :=
  if f.hasKind .keywords then bindSimple tail ⟨[], []⟩
  else
    match matchTail (f.params.map fun p => ⟨p.arity, p.name⟩) tail with
    | .ok assigned => .ok (giveAssigned assigned f.params)
    | .error (.arguments fault) => .error (.eval (.mismatch (Failure.arguments fault).message))
    | .error fault => .error fault

/-- The function that makes records. -/
def RecordDecl.constructor (d : RecordDecl) : Function :=
  let params := (d.fields.filter (·.given)).map fun f =>
    (⟨f.name, .normal, some f.type, f.default.map Default.value⟩ : Param)
  ⟨d.cls.name, params, none, .construct d.cls.name⟩

end Sexpr
