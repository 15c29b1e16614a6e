/-
Evaluating expressions.

Atoms are names of values, groups are calls, sequences and maps are lists and
dictionaries of values, and texts may have expressions in them. A function decides by
the types of its parameters which arguments are evaluated and which are passed on as
expressions.

* `Evaluator`, `Env`, `Eval` — what evaluation depends on and what it changes;
* `Evaluator.step` — one level of evaluation, given how to evaluate the levels below;
* `Evaluator.eval`, `Evaluator.run` — evaluate an expression and a whole program;
* `attempt` — keeps a failure as a value.
-/
import Sexpr.Decode.Subject
import Sexpr.Decode.Untyped
import Sexpr.Eval.Arithmetic
import Sexpr.Eval.Call
import Sexpr.Eval.Interpolation
import Sexpr.Eval.Modules
import Sexpr.Reader.Grammar

namespace Sexpr

/-- What evaluation depends on: the declared records and the modules. -/
structure Evaluator where
  records : Records
  modules : Modules

/-- The values of names, and the number of the next mark. -/
structure Env where
  bindings : List (String × Value)
  nextMark : Nat

/-- The value of a name. -/
def Env.get? (env : Env) (name : String) : Option Value := env.bindings.lookup name

/-- Sets the value of a name. -/
def Env.set (env : Env) (name : String) (v : Value) : Env :=
  { env with bindings := (name, v) :: env.bindings.filter fun e => e.1 ≠ name }

/-- All names in order. -/
def Env.names (env : Env) : List String :=
  (env.bindings.map Prod.fst).mergeSort fun a b => decide (a ≤ b)

/-- The text of the signature of a name's function. -/
def Env.signatureText (env : Env) (name : String) : String :=
  match env.get? name with
  | some (.function true f) => f.signatureText
  | some .form => "(form: Any) -> list[Any]"
  | _ => "Function '" ++ name ++ "' not found"

/-- Binds a function to a name, or to its own name if that is empty. -/
def Env.register (env : Env) (name : String) (f : Function) : Env :=
  env.set (if name.isEmpty then f.name else name) (.function true f)

/-- What can be evaluated: an expression, or all expressions of a list or a document. -/
inductive Program where
  | expr (expr : Expr)
  | exprs (exprs : List Expr)
  | document (document : Document)

/-- An evaluation; what it has set stays so when it fails. -/
abbrev Eval := EStateM Failure Env

namespace Eval

/-- The value of a result. -/
def ofExcept {α : Type} : Except Failure α → Eval α
  | .ok a => pure a
  | .error f => throw f

/-- Fails with a fault of evaluation. -/
def fault {α : Type} (f : EvalFault) : Eval α := throw (.eval f)

/-- A mark that nothing has yet. -/
def newMark : Eval Mark := fun env =>
  .ok (some env.nextMark) { env with nextMark := env.nextMark + 1 }

/-- The result of a computation; what is not a number is a new thing. -/
def computed (r : Except Failure Value) : Eval Value := do
  match ← ofExcept r with
  | .real (.nan _) => return .real (.nan (← newMark))
  | v => return v

section

variable {α : Type} {env env' : Env} {a : α}

theorem ofExcept_eq_ok {r : Except Failure α} :
    ofExcept r env = .ok a env' ↔ r = .ok a ∧ env = env' := by
  cases r with
  | ok b => simp [ofExcept, pure, EStateM.pure]
  | error fault => exact ⟨nofun, fun h => nomatch h.1⟩

end

end Eval

/-- Keeps a failure as a value. -/
def attempt (p : Eval Value) : Eval Value := fun env =>
  match p env with
  | .ok v env => .ok v env
  | .error f env => .ok (.failure f) env

namespace Evaluator

section

variable (w : Evaluator) (eval : Expr → Eval Value)

/-- Evaluates expressions in order. -/
def evalAll : List Expr → Eval (List Value)
  | [] => return []
  | e :: es => do
    let v ← eval e
    return v :: (← evalAll es)

/-! ### Names and texts -/

/-- A value of a module: what can be called becomes a function that takes its arguments
as its signature says. -/
def imported (v : Value) : Value :=
  match v with
  | .function _ f => .function true f
  | .recordType name =>
    match w.records.find? (.record name) with
    | some d => .function true d.constructor
    | none => v
  | v => v

/-- The value of a name. -/
def evalName (name : String) : Eval Value := fun env =>
  match name.toList with
  | 'p' :: 'y' :: '.' :: path =>
    match w.modules.get path with
    | .ok v => .ok (w.imported v) env
    | .error f => .error (.eval f) env
  | _ =>
    match env.get? name with
    | some v => .ok v env
    | none => .error (.eval (.undefined name)) env

/-- The text of the last value of a source text. -/
def evalSource (source : List Char) : Eval String := do
  let doc ← Eval.ofExcept ((Document.parse (String.ofList source) false).mapError Failure.read)
  match (← evalAll eval doc.exprs).getLast? with
  | some v => return v.text
  | none => Eval.fault .noElement

/-- The characters of the parts of a text, expressions evaluated in order. -/
def evalParts : List TextPart → Eval (List Char)
  | [] => return []
  | .char c :: ps => do return c :: (← evalParts ps)
  | .code source :: ps => do
    let text ← evalSource eval source
    return text.toList ++ (← evalParts ps)

/-- The entries so far and those of the fields; a value is evaluated before its key. -/
def evalFields : List (FieldOf Expr) → Entries → Eval Entries
  | [], es => return es
  | f :: fs, es => do
    let value ← eval f.value
    let key ← eval f.key
    evalFields fs (← Eval.ofExcept (es.put key value))

/-! ### Arguments -/

/-- An argument for a parameter of a type: the expression itself if the type asks for it,
else its value. -/
def evalArg (t : Target) (e : Expr) : Eval Value :=
  match t with
  | .quoted (.cls (.expr kind)) =>
    if kind.admits e then do return .quoted (← Eval.newMark) (.expr e)
    else Eval.fault (.wrongExprClass (ClassName.expr kind).text e.text)
  | .quoted (.cls c) => Eval.fault (.notExprClass c.text)
  | .quoted .any => Eval.fault (.notExprClass Target.any.text)
  | .quoted _ => Eval.fault .notAClass
  | _ => eval e

/-- Arguments by position, for the parameters in order. -/
def evalPositional : List Param → List Expr → Eval (List Value)
  | _, [] => return []
  | [], _ :: _ => Eval.fault .noElement
  | p :: ps, e :: es => do
    let v ← evalArg eval p.target e
    return v :: (← evalPositional ps es)

/-- Arguments by name. -/
def evalNamed (params : List Param) : List (String × Expr) → Eval (List (String × Value))
  | [] => return []
  | (name, e) :: rest => do
    let t := ((params.find? fun p => p.name == name).map ParamOf.target).getD .any
    let v ← evalArg eval t e
    return (name, v) :: (← evalNamed params rest)

/-! ### What functions do -/

/-- The values of the parameters in order, the rest of the values by position one by one. -/
def spread (f : Function) (bound : List (String × Value)) : List Value :=
  (f.params.zip bound).flatMap fun
    | (p, _, .tuple items) => if p.kind = .rest then items else [.tuple items]
    | (_, _, v) => [v]

/-- The value that a quoted value holds. -/
def unquote (v : Value) : Except Failure Value :=
  match v with
  | .quoted _ inner => .ok inner
  | .expr (.leaf l _) => .ok l.value
  | .field f => .ok (.expr f.value)
  | v => .error (.noAttribute v.kindName "value")

mutual

/-- Evaluates what a quoted value holds: an expression, a document, or a list of such. -/
def evalHeld : Value → Eval Value
  | .expr e => eval e
  | .document d => do return .list (← evalAll eval d.exprs)
  | .list items => do return .list (← evalHeldAll items)
  | v => Eval.fault (.notExpr v.classText)

/-- Evaluates what a list of quoted values holds. -/
def evalHeldAll : List Value → Eval (List Value)
  | [] => return []
  | v :: vs => do
    let r ← evalHeld v
    return r :: (← evalHeldAll vs)

end

/-- Runs the body of a function with the values of its parameters. -/
def runBody (f : Function) (bound : List (String × Value)) : Eval Value :=
  match f.body, spread f bound with
  | .pack, _ =>
    return .list [.str f.name, .list (bound.map fun e => .list [.str e.1, e.2])]
  | .const v, _ => return v
  | .fail kind text, _ => throw (.raised kind text)
  | .sum, values => Eval.computed (values.foldlM Value.add (.int 0))
  | .concat, values => return .str (String.join (values.map Value.text))
  | .sqrt, v :: _ => Eval.computed v.sqrt
  | .construct name, _ =>
    match w.records.find? (.record name) with
    | some d => Eval.ofExcept (d.construct bound)
    | none => Eval.fault (.undefined name)
  | .source, v :: _ => do return .str (← Eval.ofExcept (unquote v)).text
  | .evaluate, v :: _ => do evalHeld eval (← Eval.ofExcept (unquote v))
  | .define, k :: v :: _ => do
    match ← Eval.ofExcept (unquote k) with
    | .expr (.leaf (.atom name) _) | .expr (.leaf (.string name) _) =>
      modify fun env => env.set name v
      return v
    | k => throw (.noAttribute k.kindName "value")
  | _, _ => Eval.fault .noElement

/-- Calls a function with values by position and by name. -/
def apply (f : Function) (args : List Value) (named : List (String × Value)) : Eval Value := do
  w.runBody eval f (← Eval.ofExcept ((f.bind args named).mapError Failure.call))

/-! ### Calls -/

/-- The names that a callable uses itself cannot be given. -/
def refuseOwnNames (callable : String) (c : CallArgs) : Eval Unit :=
  match c.named.find? fun e => e.1 == "self" || e.1 == "ctx" with
  | some e => throw (.call (.multipleValues (callable ++ ".__call__") e.1))
  | none => return ()

/-- Pairs of names and values as a list. -/
def pairs (named : List (String × Value)) : Value :=
  .list (named.map fun e => .list [.str e.1, e.2])

/-- Calls a value with the expressions of a group after the first one. -/
def call (fn : Value) (tail : List Expr) : Eval Value :=
  match fn with
  | .function true f => do
    let c ← Eval.ofExcept (bindTail f tail)
    refuseOwnNames "NativeFunction" c
    let args ← evalPositional eval f.params c.positional
    let named ← evalNamed eval f.params c.named
    w.apply eval f args named
  | .function false f => do
    let c ← Eval.ofExcept (bindTail f tail)
    let args ← evalAll eval c.positional
    let named ← evalNamed eval [] c.named
    w.apply eval f args named
  | .form => do
    let c ← Eval.ofExcept (bindSimple tail ⟨[], []⟩)
    refuseOwnNames "Macro" c
    let args := c.positional.map fun e => Value.quoted none (.expr e)
    let named := c.named.map fun e => (e.1, Value.quoted none (.expr e.2))
    return .list [.str "macro", .list args, pairs named]
  | .callable => do
    let c ← Eval.ofExcept (bindSimple tail ⟨[], []⟩)
    let args ← evalAll eval c.positional
    let named ← evalNamed eval [] c.named
    return .list [.str "opaque", .list args, pairs named]
  | fn =>
    match w.imported fn with
    | .function _ f => do
      let c ← Eval.ofExcept (bindTail f tail)
      let args ← evalAll eval c.positional
      let named ← evalNamed eval [] c.named
      w.apply eval f args named
    | fn => do
      let _ ← Eval.ofExcept (bindSimple tail ⟨[], []⟩)
      Eval.fault (.cannotCall fn.text)

/-- Evaluates an expression, given how to evaluate others. If failures are kept, that of
a call becomes its value. -/
def step (keep : Bool) (e : Expr) : Eval Value :=
  match e with
  | .leaf (.atom name) _ => w.evalName name
  | .leaf (.string s) _ => do return .str (String.ofList (← evalParts eval (interpolation s)))
  | .leaf (.int i) _ => return .int i
  | .leaf (.real r) _ => return .real r
  | .leaf (.rational n d) _ => Eval.ofExcept (Value.ofFraction n d)
  | .items .sequence values _ => do return .list (← evalAll eval values)
  | .map fields _ => do return .dict true (← evalFields eval fields [])
  | .items .group [] _ => Eval.fault .emptyGroup
  | .items .group (head :: tail) _ =>
    let run : Eval Value := do w.call eval (← eval head) tail
    if keep then attempt run else run
  | .bare _ => return .nothing

end

/-- Evaluates an expression, at most so many levels deep. -/
def evalWithin (w : Evaluator) : Nat → Expr → Eval Value
  | 0 => fun _ => Eval.fault .tooDeep
  | n + 1 => w.step (w.evalWithin n) false

/-- The number of levels that evaluation may go down. -/
def maxLevels : Nat := 1000000

/-- Evaluates an expression. If failures are kept, that of a call becomes its value. -/
def eval (w : Evaluator) (keep : Bool) (e : Expr) : Eval Value :=
  w.step (w.evalWithin maxLevels) keep e

/-- Evaluates a program. Failures are kept only for a single expression: in a document
and in a list the first failure ends the evaluation. -/
def run (w : Evaluator) (keep : Bool) : Program → Eval Value
  | .expr e => w.eval keep e
  | .exprs es => do return .list (← evalAll (w.eval false) es)
  | .document d => do return .list (← evalAll (w.eval false) d.exprs)

end Evaluator
end Sexpr
