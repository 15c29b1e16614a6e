/-
Expressions as plain values, whatever they are.
-/
import Sexpr.Value

namespace Sexpr

/-- The value of a leaf. -/
def Leaf.value : Leaf → Value
  | atom name => .str name
  | string value => .str value
  | int value => .int value
  | real value => .real value
  | rational num den => .tuple [.int num, .int den]

mutual

/-- The plain value of an expression: groups and sequences are lists, maps are
dictionaries. -/
def Expr.value : Expr → Except Failure Value
  | .leaf l _ => .ok l.value
  | .items _ values _ => do return .list (← Expr.values values)
  | .map fields _ => do return .dict false (← Field.entries fields [])
  | .bare mark => .ok (.expr (.bare mark))

/-- The plain values of expressions. -/
def Expr.values : List Expr → Except Failure (List Value)
  | [] => .ok []
  | e :: es => do
    let v ← e.value
    return v :: (← Expr.values es)

/-- The entries so far and those of the fields. -/
def Field.entries : List (FieldOf Expr) → Entries → Except Failure Entries
  | [], es => .ok es
  | ⟨k, v, _⟩ :: fs, es => do
    let key ← k.value
    let value ← v.value
    Field.entries fs (← es.put key value)

end

end Sexpr
