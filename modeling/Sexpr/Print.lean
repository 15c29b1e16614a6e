/-
Writing values as source text.

* `PrintOptions` — everything that can be chosen;
* `Value.print` — the text of a value.
-/
import Sexpr.Print.Encode
import Sexpr.Print.Source

namespace Sexpr

/-- How values are written. Without an indentation the concise style is used, in which
only what does not fit in its line is broken up. -/
structure PrintOptions where
  indent : Option Int
  width : Int
  encode : EncodeOptions

/-- The concise style with its usual line length. -/
def PrintOptions.concise : PrintOptions := ⟨none, 88, ⟨true, [], true⟩⟩

/-- The pretty style with its usual indentation. -/
def PrintOptions.pretty : PrintOptions := { PrintOptions.concise with indent := some 2 }

/-- The indentation of the concise style, where lines are broken up. -/
def conciseIndent : Int := 2

/-- The layout for some options. -/
def PrintOptions.layout (o : PrintOptions) : Except PrintFault Layout :=
  let indent := o.indent.getD conciseIndent
  if o.width < 20 then .error .lineTooShort
  else if indent ≤ 0 then .error .indentNotPositive
  else .ok ⟨o.indent.isSome, indent.toNat, o.width.toNat⟩

/-- The text of a document, from its source where that is to be kept. -/
def Document.print (l : Layout) (keepSpans : Bool) (d : Document) : Except PrintFault String :=
  if keepSpans then d.render l else d.layOut l

/-- The text of a value. -/
def Value.print (rs : Records) (o : PrintOptions) (v : Value) : Except Failure String := do
  let l ← o.layout.mapError Failure.print
  let d ← v.toDocument rs o.encode
  (d.print l o.encode.keepSpans).mapError Failure.print

end Sexpr
