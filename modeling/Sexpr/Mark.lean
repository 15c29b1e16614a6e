/-
Marks, by which things are told apart that are equal to nothing but themselves.

A number that is no number, an expression of no kind and a quoted value cannot be
compared by what they hold. Each of them gets a mark when it is made and keeps it
wherever it is passed on, so two of them are one exactly if their marks are the same.

* `Mark.same` — whether two marks belong to one thing.
-/
namespace Sexpr

/-- The number of a thing among all that are marked. A thing that is never passed on
needs no number. -/
abbrev Mark := Option Nat

/-- Whether two marks belong to one thing. A thing without a number is met only once. -/
def Mark.same (a b : Mark) : Bool := a.isSome && a == b

theorem Mark.same_iff {a b : Mark} : Mark.same a b = true ↔ a.isSome = true ∧ a = b := by
  simp [Mark.same]

end Sexpr
