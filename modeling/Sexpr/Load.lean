/-
Reading documents and values from files.
-/
import Sexpr.Decode
import Sexpr.Load.Encoding

namespace Sexpr

/-- Where a text comes from: an open file that gives text, one that gives bytes, or the
bytes of a file by its path, if there is one. -/
inductive Source where
  | textFile (text : String)
  | binaryFile
  | path (contents : Option (List UInt8))

/-- The text of a source; the encoding says how the bytes of a file by its path are read. -/
def Source.read (encoding : String) : Source → Except LoadFault String
  | textFile text => .ok text
  | binaryFile => .error .notText
  | path none => .error .noFile
  | path (some bytes) =>
    match Encoding.ofName? encoding with
    | none => .error (.unknownEncoding encoding)
    | some e => do return String.ofList (unifyNewlines (← e.decode bytes))

/-- Reads a source as a document, or decodes its only expression. -/
def Decoders.load (d : Decoders) (t : Option Target) (source : Source) (encoding : String)
    (spans : Bool) : Except Failure Value := do
  d.read t (← (source.read encoding).mapError Failure.load) spans

end Sexpr
