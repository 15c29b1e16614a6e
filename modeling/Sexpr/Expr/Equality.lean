/-
Equality of expressions, spans included.
-/
import Sexpr.Expr

namespace Sexpr

mutual

/-- Whether two expressions are the same, their spans included. -/
def Expr.same : Expr → Expr → Bool
  | .leaf a s, .leaf b t => a == b && s == t
  | .items e as s, .items f bs t => e == f && Expr.sameAll as bs && s == t
  | .map as s, .map bs t => Field.sameAll as bs && s == t
  | .bare a, .bare b => a == b
  | _, _ => false

/-- Whether two lists of expressions are the same. -/
def Expr.sameAll : List Expr → List Expr → Bool
  | [], [] => true
  | a :: as, b :: bs => a.same b && Expr.sameAll as bs
  | _, _ => false

/-- Whether two lists of fields are the same. -/
def Field.sameAll : List (FieldOf Expr) → List (FieldOf Expr) → Bool
  | [], [] => true
  | ⟨k, v, s⟩ :: as, ⟨l, w, t⟩ :: bs => k.same l && v.same w && s == t && Field.sameAll as bs
  | _, _ => false

end

instance : BEq Expr := ⟨Expr.same⟩

end Sexpr
