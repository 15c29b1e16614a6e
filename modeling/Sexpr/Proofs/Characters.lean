/-
The classes of characters that the reader tells apart.

White space, the characters of names and the signs with a meaning of their own do not
overlap, so that a name ends where a gap, a comma or a bracket starts.

* `mem_codesOfRuns` — a set with finitely many runs as a list of code points;
* `isNameChar_of_isSpace`, `isNameChar_of_mem_signs` — no white space and none of the signs
  stands in a name;
* `Delimits` — the characters that end a name.
-/
import Sexpr.Reader.Lexeme

namespace Sexpr

namespace Text

/-- The code points of a set, run after run. -/
def codesOfRuns : List Nat → List Nat
  | a :: b :: bs => List.range' a (b - a) ++ codesOfRuns bs
  | _ => []

theorem mem_codesOfRuns {bs : List Nat} {n : Nat} (h : inRuns bs n = true)
    (heven : bs.length % 2 = 0) : n ∈ codesOfRuns bs := by
  fun_induction codesOfRuns bs with
  | case1 a b bs ih =>
    rw [List.mem_append, List.mem_range'_1]
    by_cases ha : n < a
    · rw [inRuns_cons_of_lt _ ha] at h
      exact absurd h (by simp)
    · rw [inRuns_cons_of_le _ (by omega)] at h
      by_cases hb : n < b
      · exact .inl ⟨by omega, by omega⟩
      · rw [inRuns_cons_of_le _ (by omega), Bool.not_not] at h
        exact .inr (ih h (by simp only [List.length_cons] at heven; omega))
  | case2 bs hbs =>
    match bs, hbs with
    | [], _ => simp at h
    | [b], _ => simp at heven
    | a :: b :: bs, hbs => exact absurd rfl (hbs a b bs)

/-- What holds of every code point of white space holds of every white-space character. -/
theorem forall_isSpace {P : Char → Prop}
    (h : ∀ n ∈ codesOfRuns spaceRuns, P (Char.ofNat n)) {c : Char} (hc : isSpace c = true) :
    P c := by
  have hmem := h c.toNat (mem_codesOfRuns hc (by decide))
  rwa [Char.ofNat_toNat] at hmem

end Text

theorem isNameChar_of_isSpace {c : Char} (h : Text.isSpace c = true) : isNameChar c = false :=
  Text.forall_isSpace (P := fun c => isNameChar c = false) (by decide +kernel) h

theorem ne_endMark_of_isSpace {c : Char} (h : Text.isSpace c = true) : c ≠ endMark :=
  Text.forall_isSpace (P := fun c => c ≠ endMark) (by decide) h

theorem ne_endMark_of_isNameChar {c : Char} (h : isNameChar c = true) : c ≠ endMark := by
  rintro rfl
  exact absurd h (by decide)

theorem isSpace_blank : Text.isSpace ' ' = true := by decide

theorem isSpace_newline : Text.isSpace '\n' = true := by decide

/-- The signs with a meaning of their own: brackets, the double quote, comma and semicolon. -/
def signs : List Char := ['(', ')', '[', ']', '{', '}', '"', ',', ';']

theorem isNameChar_of_mem_signs {c : Char} (h : c ∈ signs) : isNameChar c = false := by
  have hall : signs.all (fun c => !isNameChar c) = true := by decide
  simpa using List.all_eq_true.1 hall c h

theorem isSpace_of_mem_signs {c : Char} (h : c ∈ signs) : Text.isSpace c = false := by
  have hall : signs.all (fun c => !Text.isSpace c) = true := by decide
  simpa using List.all_eq_true.1 hall c h

/-- Whether no name goes on over the text: it is at its end or starts with a character
that no name holds. -/
def Delimits (cs : List Char) : Prop := isNameChar (cs.headD endMark) = false

theorem Delimits.takeWhile_append {s r : List Char} (h : Delimits r)
    (hs : ∀ c ∈ s, isNameChar c = true) : (s ++ r).takeWhile isNameChar = s := by
  have hnil : r.takeWhile isNameChar = [] := by
    cases r with
    | nil => rfl
    | cons c r => exact List.takeWhile_cons_of_neg (by simpa [Delimits] using h)
  rw [List.takeWhile_append_of_pos hs, hnil, List.append_nil]

end Sexpr
