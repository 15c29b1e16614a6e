/-
Putting an expression in the place of another one.
-/
import Sexpr.Expr

namespace Sexpr

/-- A step down into an expression: to an item of a bracket or a field of a map, and in
a field to its key or its value. -/
inductive PathStep where
  | item (index : Nat)
  | key
  | value
deriving DecidableEq

/-- The expression with `new` in the place that a path leads to, if it leads anywhere. -/
def Expr.replace? (new : Expr) : List PathStep → Expr → Option Expr
  | [], _ => some new
  | .item i :: .key :: path, .map fields spans => do
    let f ← fields[i]?
    let k ← Expr.replace? new path f.key
    some (.map (fields.set i { f with key := k }) spans)
  | .item i :: .value :: path, .map fields spans => do
    let f ← fields[i]?
    let v ← Expr.replace? new path f.value
    some (.map (fields.set i { f with value := v }) spans)
  | .item i :: path, .items e values spans => do
    let old ← values[i]?
    let v ← Expr.replace? new path old
    some (.items e (values.set i v) spans)
  | _, _ => none

/-- The document with `new` in the place that a path leads to, if it leads anywhere. -/
def Document.replace? (new : Expr) : List PathStep → Document → Option Document
  | .item i :: path, d => do
    let old ← d.exprs[i]?
    let e ← Expr.replace? new path old
    some { d with exprs := d.exprs.set i e }
  | _, _ => none

end Sexpr
