/-
Decoders to register for types.

* `Decoder.const`, `Decoder.fail` — always the same value, always the same failure;
* `Decoder.text`, `Decoder.context` — the text of a subject, and where it stands;
* `Decoder.delegate`, `Decoder.each` — decode the subject, or each of its parts, into
  values of another type.
-/
import Sexpr.Decode

namespace Sexpr.Decoder

/-- Always the same value. -/
def const (v : Value) : Decoder := fun _ _ _ => .ok v

/-- Always the same failure. -/
def fail (f : Failure) : Decoder := fun _ _ _ => .error f

/-- The text of the subject. -/
def text : Decoder := fun _ s _ => .ok (.str s.text)

/-- The path of the subject and the name of the wanted type. -/
def context : Decoder := fun _ _ c => .ok (.list [.str c.path, .str c.target.name])

/-- The subject as a value of another type, possibly at another path. -/
def delegate (t : Target) (path : Option String) : Decoder := fun decode s c =>
  decode t s (path.getD c.path)

/-- The list of the parts of the subject as values of another type. -/
def each (t : Target) : Decoder := fun decode s c =>
  match s.parts? with
  | none => .error (.noAttribute s.kindName "values")
  | some parts => do
    return .list (← parts.zipIdx.mapM fun p => decode t p.1 s!"{c.path}<{p.2}>")

end Sexpr.Decoder
