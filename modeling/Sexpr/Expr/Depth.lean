/-
How deeply the parts of an expression are nested.
-/
import Sexpr.Expr

namespace Sexpr

mutual

/-- The number of levels of an expression. -/
def Expr.depth : Expr → Nat
  | .leaf _ _ => 1
  | .items _ values _ => Expr.maxDepth values + 1
  | .map fields _ => Field.maxDepth fields + 1
  | .bare _ => 1

/-- The number of levels of the deepest of some expressions. -/
def Expr.maxDepth : List Expr → Nat
  | [] => 0
  | e :: es => max e.depth (Expr.maxDepth es)

/-- The number of levels of the deepest of some fields. -/
def Field.maxDepth : List (FieldOf Expr) → Nat
  | [] => 0
  | ⟨k, v, _⟩ :: fs => max (max k.depth v.depth) (Field.maxDepth fs)

end

theorem Expr.depth_le_maxDepth {e : Expr} {es : List Expr} (h : e ∈ es) :
    e.depth ≤ Expr.maxDepth es := by
  induction es with
  | nil => cases h
  | cons a as ih =>
    rw [Expr.maxDepth]
    rcases List.mem_cons.1 h with rfl | h
    · omega
    · have := ih h
      omega

theorem Field.depth_le_maxDepth {f : Field} {fs : List (FieldOf Expr)} (h : f ∈ fs) :
    f.key.depth ≤ Field.maxDepth fs ∧ f.value.depth ≤ Field.maxDepth fs := by
  induction fs with
  | nil => cases h
  | cons a as ih =>
    obtain ⟨k, v, s⟩ := a
    rw [Field.maxDepth]
    rcases List.mem_cons.1 h with rfl | h
    · constructor <;> simp only <;> omega
    · have := ih h
      omega

end Sexpr
