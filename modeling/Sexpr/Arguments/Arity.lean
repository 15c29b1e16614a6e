/-
How many values a parameter takes.

* `Arity` — a least number of values and possibly a greatest one, in order;
* `Arity.consume` — what is left to take after some values;
* `Arity.suffix` — the sign of an arity in a usage text.
-/
namespace Sexpr

/-- How many values a parameter takes. Without a greatest number it takes any number. -/
structure Arity where
  least : Nat
  most : Option Nat
  least_le : ∀ m, most = some m → least ≤ m

/-- Why there is no such arity. -/
inductive ArityFault where
  | negativeLeast
  | mostBelowLeast
  | negativeCount (count : Int)
  | countAboveMost (count most : Int)
deriving DecidableEq

/-- The text of a fault. -/
def ArityFault.message : ArityFault → String
  | negativeLeast => "min_required must be non-negative"
  | mostBelowLeast => "max_required must be >= min_required"
  | negativeCount n => s!"consumed must be non-negative: {n}"
  | countAboveMost n m => s!"consumed must be <= max_required: {n} > {m}"

namespace Arity

/-- Exactly one value. -/
def required : Arity := ⟨1, some 1, by intro m h; cases h; omega⟩

/-- At most one value. -/
def optional : Arity := ⟨0, some 1, by intro m h; omega⟩

/-- Any number of values. -/
def zeroOrMore : Arity := ⟨0, none, by intro m h; omega⟩

/-- Any number of values but none. -/
def oneOrMore : Arity := ⟨1, none, by intro m h; cases h⟩

/-- Arities are equal when their bounds are. -/
instance : DecidableEq Arity := fun a b =>
  if h : a.least = b.least ∧ a.most = b.most then
    .isTrue (by cases a; cases b; obtain ⟨h₁, h₂⟩ := h; cases h₁; cases h₂; rfl)
  else .isFalse (by intro e; cases e; exact h ⟨rfl, rfl⟩)

/-- The arity with the given bounds. -/
def make (least : Int) (most : Option Int) : Except ArityFault Arity :=
  if least < 0 then .error .negativeLeast
  else match most with
    | none => .ok ⟨least.toNat, none, by intro m h; cases h⟩
    | some m =>
      if h : m < least then .error .mostBelowLeast
      else .ok ⟨least.toNat, some m.toNat, by intro k hk; cases hk; omega⟩

/-- Whether there is no greatest number of values. -/
def isVariadic (a : Arity) : Bool := a.most.isNone

/-- Whether no value is needed. -/
def isNullable (a : Arity) : Bool := a.least == 0

/-- Whether no value can be taken. -/
def isFull (a : Arity) : Bool := a.most == some 0

/-- What is left of an arity after `count` values. -/
def consume (a : Arity) (count : Int) : Except ArityFault Arity :=
  if count < 0 then .error (.negativeCount count)
  else if count = 0 then .ok a
  else match h : a.most with
    | none => .ok ⟨a.least - count.toNat, none, by intro m h; cases h⟩
    | some m =>
      if (m : Int) < count then .error (.countAboveMost count m)
      else .ok ⟨a.least - count.toNat, some (m - count.toNat), by
        intro k hk
        cases hk
        have := a.least_le m h
        omega⟩

/-- The sign of an arity: none for one value, `?`, `+`, `*`, or the bounds in braces. -/
def suffix (a : Arity) : String :=
  match a.least, a.most with
  | 1, some 1 => ""
  | 0, some 1 => "?"
  | 1, none => "+"
  | 0, none => "*"
  | n, none => "\x7b" ++ toString n ++ ",\x7d"
  | n, some m => "\x7b" ++ toString n ++ ".." ++ toString m ++ "\x7d"

end Arity
end Sexpr
