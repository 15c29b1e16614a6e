/-
Traces of nested calls.

A traced call prints a line when it starts, a line with its result or its fault when
it ends, and a closing line; what it calls in between is printed one level deeper.

* `Tracing` — a state together with the depth of the running call and the lines so far;
* `traced` — wraps one call;
* `Routine` — a finite tree of calls; `Routine.run` runs it traced, `Routine.outcome`
  says what it amounts to without tracing.
-/
namespace Sexpr

/-- A state and the trace of the calls that work on it. The lines are kept last one
first; `balanced` says whether every call so far ended at the depth where it started. -/
structure Tracing (σ : Type) where
  state : σ
  depth : Int
  lines : List String
  balanced : Bool

namespace Tracing

variable {σ : Type}

/-- No call has started. -/
def start (s : σ) : Tracing σ := ⟨s, 0, [], true⟩

/-- The indentation at a depth. -/
def indent (depth : Int) : String := String.ofList (List.replicate (2 * depth.toNat) ' ')

/-- One more line. -/
def print (t : Tracing σ) (line : String) : Tracing σ := { t with lines := line :: t.lines }

/-- The end of a call that started at the given depth. -/
def close (t : Tracing σ) (depth : Int) : Tracing σ :=
  { t with
    depth := t.depth - 1
    balanced := t.balanced && t.depth - 1 == depth
    lines := (indent depth ++ "\x7d") :: t.lines }

end Tracing

/-- A computation that is traced. -/
abbrev Traced (ε σ : Type) := EStateM ε (Tracing σ)

section

variable {ε σ α : Type}

/-- Traces one call. -/
def traced (header : σ → String) (result : α → String) (fault : ε → String)
    (body : Traced ε σ α) : Traced ε σ α := fun t =>
  let inside := { t.print (Tracing.indent t.depth ++ header t.state ++ " \x7b") with
    depth := t.depth + 1 }
  match body inside with
  | .ok a t' => .ok a ((t'.print (Tracing.indent t'.depth ++ "return " ++ result a)).close t.depth)
  | .error e t' =>
    .error e ((t'.print (Tracing.indent t.depth ++ "\x7draise " ++ fault e)).close t.depth)

end

/-! ### Trees of calls -/

/-- A call by its header, the calls it makes in order, each with whether its fault is
caught, and how it ends when they are done. -/
inductive Routine (ε α : Type) where
  | call (header : String) (calls : List (Bool × Routine ε α)) (finish : Except ε α)

namespace Routine

variable {ε α : Type}

mutual

/-- What a call amounts to, without tracing. -/
def outcome : Routine ε α → Except ε α
  | .call _ calls finish => (outcomes calls).bind fun _ => finish

/-- What calls in order amount to: the first fault that is not caught ends them. -/
def outcomes : List (Bool × Routine ε α) → Except ε Unit
  | [] => .ok ()
  | (caught, r) :: rest =>
    match outcome r with
    | .ok _ => outcomes rest
    | .error e => if caught then outcomes rest else .error e

end

mutual

/-- Runs a call with tracing. -/
def run (result : α → String) (fault : ε → String) : Routine ε α → Traced ε Unit α
  | .call header calls finish =>
    traced (fun _ => header) result fault do
      runAll result fault calls
      match finish with
      | .ok a => return a
      | .error e => throw e

/-- Runs calls in order with tracing. -/
def runAll (result : α → String) (fault : ε → String) :
    List (Bool × Routine ε α) → Traced ε Unit Unit
  | [] => return ()
  | (caught, r) :: rest => fun t =>
    match run result fault r t with
    | .ok _ t' => runAll result fault rest t'
    | .error e t' => if caught then runAll result fault rest t' else .error e t'

end

end Routine
end Sexpr
