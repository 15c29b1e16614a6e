/-
Sets of characters as runs of code points.

A set is given by its boundaries in increasing order: the code points at which
one goes in or out of the set, counted up from zero and starting outside.

* `inRuns` — membership in such a set.
-/
namespace Sexpr.Text

/-- Whether the code point `n` lies in the set with the given boundaries: each
boundary that is not above `n` has been crossed, and each crossing goes in or out. -/
def inRuns : List Nat → Nat → Bool
  | [], _ => false
  | b :: bs, n => if n < b then false else !inRuns bs n

@[simp]
theorem inRuns_nil (n : Nat) : inRuns [] n = false := rfl

theorem inRuns_cons_of_lt {b n : Nat} (bs : List Nat) (h : n < b) :
    inRuns (b :: bs) n = false := by
  simp [inRuns, h]

theorem inRuns_cons_of_le {b n : Nat} (bs : List Nat) (h : b ≤ n) :
    inRuns (b :: bs) n = !inRuns bs n := by
  simp [inRuns, Nat.not_lt.mpr h]

end Sexpr.Text
