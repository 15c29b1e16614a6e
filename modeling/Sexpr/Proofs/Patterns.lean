/-
Patterns of the characters of numbers.

Patterns are regular expressions over characters. Two of them have no word in common if the
one asks for a character that the other does not have, which their shapes show.

* `Pattern.letters`, `Pattern.needs` — the characters that the words of a pattern are made
  of, and those that none of its words does without;
* `Pattern.not_mem_of_needs` — two patterns without a common word;
* `Pattern.mem_grouped`, `Pattern.mem_exponent` — the words of the patterns for digits with
  underscores and for exponents;
* `Pattern.StartsWithDigit.mem_sign_mul` — a pattern after an optional sign.
-/
import Mathlib.Computability.RegularExpressions
import Mathlib.Tactic.IntervalCases
import Sexpr.Proofs.Numerals

namespace Sexpr

/-! ### Words of regular expressions -/

namespace Pattern

open RegularExpression

/-- The characters in a pattern. -/
def letters : RegularExpression Char → List Char
  | .zero | .epsilon => []
  | .char c => [c]
  | .plus p q | .comp p q => letters p ++ letters q
  | .star p => letters p

/-- Whether every word of a pattern has one of the given characters in it, as far as the
shape of the pattern shows it. -/
def needs (cs : List Char) : RegularExpression Char → Bool
  | .zero => true
  | .epsilon | .star _ => false
  | .char c => cs.contains c
  | .plus p q => needs cs p && needs cs q
  | .comp p q => needs cs p || needs cs q

variable {p q : RegularExpression Char} {t : List Char}

theorem mem_letters (h : t ∈ p.matches') : ∀ c ∈ t, c ∈ letters p := by
  induction p generalizing t with
  | zero => exact absurd h (Language.notMem_zero t)
  | epsilon =>
    obtain rfl := (Language.mem_one t).1 h
    simp
  | char c =>
    obtain rfl : t = [c] := h
    simp [letters]
  | plus p q ihp ihq =>
    intro c hc
    rcases (Language.mem_add p.matches' q.matches' t).1 h with h | h
    · exact List.mem_append_left _ (ihp h c hc)
    · exact List.mem_append_right _ (ihq h c hc)
  | comp p q ihp ihq =>
    obtain ⟨u, hu, v, hv, rfl⟩ := Language.mem_mul.1 h
    intro c hc
    rcases List.mem_append.1 hc with hc | hc
    · exact List.mem_append_left _ (ihp hu c hc)
    · exact List.mem_append_right _ (ihq hv c hc)
  | star p ih =>
    obtain ⟨words, rfl, hwords⟩ := Language.mem_kstar.1 h
    intro c hc
    obtain ⟨word, hword, hc⟩ := List.mem_flatten.1 hc
    exact ih (hwords word hword) c hc

theorem exists_mem_of_needs {cs : List Char} (hneeds : needs cs p = true) (h : t ∈ p.matches') :
    ∃ c ∈ t, c ∈ cs := by
  induction p generalizing t with
  | zero => exact absurd h (Language.notMem_zero t)
  | epsilon => exact absurd hneeds (by simp [needs])
  | char c =>
    obtain rfl : t = [c] := h
    exact ⟨c, by simp, by simpa [needs] using hneeds⟩
  | plus p q ihp ihq =>
    simp only [needs, Bool.and_eq_true] at hneeds
    rcases (Language.mem_add p.matches' q.matches' t).1 h with h | h
    · exact ihp hneeds.1 h
    · exact ihq hneeds.2 h
  | comp p q ihp ihq =>
    obtain ⟨u, hu, v, hv, rfl⟩ := Language.mem_mul.1 h
    simp only [needs, Bool.or_eq_true] at hneeds
    rcases hneeds with hneeds | hneeds
    · obtain ⟨c, hc, hcs⟩ := ihp hneeds hu
      exact ⟨c, List.mem_append_left _ hc, hcs⟩
    · obtain ⟨c, hc, hcs⟩ := ihq hneeds hv
      exact ⟨c, List.mem_append_right _ hc, hcs⟩
  | star p ih => exact absurd hneeds (by simp [needs])

/-- Two patterns have no word in common if one needs a character that the other has not. -/
theorem not_mem_of_needs {cs : List Char} (hneeds : needs cs p = true)
    (hletters : ∀ c ∈ cs, c ∉ letters q) (h : t ∈ p.matches') : t ∉ q.matches' := by
  intro hq
  obtain ⟨c, hc, hcs⟩ := exists_mem_of_needs hneeds h
  exact hletters c hcs (mem_letters hq c hc)

/-- One of some characters. -/
def oneOf (cs : List Char) : RegularExpression Char := cs.foldr (fun c p => char c + p) 0

/-- A pattern, or nothing. -/
def optional (p : RegularExpression Char) : RegularExpression Char := 1 + p

theorem mem_oneOf {cs : List Char} : t ∈ (oneOf cs).matches' ↔ ∃ c ∈ cs, t = [c] := by
  induction cs with
  | nil => simp [oneOf]
  | cons c cs ih =>
    rw [oneOf, List.foldr_cons, matches'_add, Language.mem_add, ← oneOf, ih]
    show (t = [c] ∨ _) ↔ _
    simp

theorem mem_optional : t ∈ (optional p).matches' ↔ t = [] ∨ t ∈ p.matches' := by
  rw [optional, matches'_add, Language.mem_add, matches'_epsilon, Language.mem_one]

theorem mem_star_oneOf {cs : List Char} : t ∈ (oneOf cs).star.matches' ↔ ∀ c ∈ t, c ∈ cs := by
  rw [matches'_star, Language.mem_kstar]
  constructor
  · rintro ⟨words, rfl, hwords⟩ c hc
    obtain ⟨word, hword, hc⟩ := List.mem_flatten.1 hc
    obtain ⟨d, hd, rfl⟩ := mem_oneOf.1 (hwords word hword)
    rwa [List.mem_singleton.1 hc]
  · intro h
    refine ⟨t.map fun c => [c], ?_, ?_⟩
    · rw [← List.flatMap_def, List.flatMap_singleton']
    intro word hword
    obtain ⟨c, hc, rfl⟩ := List.mem_map.1 hword
    exact mem_oneOf.2 ⟨c, h c hc, rfl⟩

theorem mem_char_mul {c : Char} : t ∈ (char c * p).matches' ↔ ∃ u ∈ p.matches', t = c :: u := by
  rw [matches'_mul, Language.mem_mul]
  constructor
  · rintro ⟨_, rfl, u, hu, rfl⟩
    exact ⟨u, hu, rfl⟩
  · rintro ⟨u, hu, rfl⟩
    exact ⟨[c], rfl, u, hu, rfl⟩

/-! ### Patterns of numbers -/

/-- The decimal digits. -/
def digits : List Char := ['0', '1', '2', '3', '4', '5', '6', '7', '8', '9']

/-- A digit. -/
def digit : RegularExpression Char := oneOf digits

/-- An optional sign. -/
def sign : RegularExpression Char := optional (oneOf ['+', '-'])

/-- Digits, with underscores between the first and the last one. -/
def grouped : RegularExpression Char :=
  digit * optional ((oneOf ('_' :: digits)).star * digit)

/-- A point and digits after it. -/
def fraction : RegularExpression Char := char '.' * grouped

/-- The mark of an exponent, an optional sign, and digits. -/
def exponent : RegularExpression Char := oneOf ['e', 'E'] * (sign * (digit * digit.star))

theorem mem_digits {c : Char} : c ∈ digits ↔ c.isDigit = true := by
  constructor
  · intro h
    simp only [digits, List.mem_cons, List.not_mem_nil, or_false] at h
    rcases h with rfl | rfl | rfl | rfl | rfl | rfl | rfl | rfl | rfl | rfl <;> rfl
  · intro h
    have hbounds : 48 ≤ c.toNat ∧ c.toNat ≤ 57 := Char.isDigit_iff_toNat.1 h
    obtain ⟨n, hn⟩ : ∃ n, c.toNat = n := ⟨_, rfl⟩
    rw [hn] at hbounds
    obtain ⟨hlo, hhi⟩ := hbounds
    rw [← Char.ofNat_toNat c, hn]
    interval_cases n <;> decide

theorem mem_digit_mul : t ∈ (digit * p).matches' ↔
    ∃ c u, c.isDigit = true ∧ u ∈ p.matches' ∧ t = c :: u := by
  rw [matches'_mul, Language.mem_mul]
  constructor
  · rintro ⟨_, hdigit, u, hu, rfl⟩
    obtain ⟨c, hc, rfl⟩ := mem_oneOf.1 hdigit
    exact ⟨c, u, mem_digits.1 hc, hu, rfl⟩
  · rintro ⟨c, u, hc, hu, rfl⟩
    exact ⟨[c], mem_oneOf.2 ⟨c, mem_digits.2 hc, rfl⟩, u, hu, rfl⟩

theorem mem_mul_digit : t ∈ (p * digit).matches' ↔
    ∃ u c, u ∈ p.matches' ∧ c.isDigit = true ∧ t = u ++ [c] := by
  rw [matches'_mul, Language.mem_mul]
  constructor
  · rintro ⟨u, hu, _, hdigit, rfl⟩
    obtain ⟨c, hc, rfl⟩ := mem_oneOf.1 hdigit
    exact ⟨u, c, hu, mem_digits.1 hc, rfl⟩
  · rintro ⟨u, c, hu, hc, rfl⟩
    exact ⟨u, hu, [c], mem_oneOf.2 ⟨c, mem_digits.2 hc, rfl⟩, rfl⟩

theorem mem_grouped : t ∈ grouped.matches' ↔ Numeral.isGrouped t = true := by
  have hstar : ∀ u : List Char, u ∈ (oneOf ('_' :: digits)).star.matches' ↔
      ∀ c ∈ u, (c.isDigit || c == '_') = true := by
    intro u
    rw [mem_star_oneOf]
    simp [mem_digits, or_comm]
  rw [grouped, mem_digit_mul]
  constructor
  · rintro ⟨c, u, hc, hu, rfl⟩
    rcases mem_optional.1 hu with rfl | hu
    · simp [Numeral.isGrouped, hc]
    · obtain ⟨v, d, hv, hd, rfl⟩ := mem_mul_digit.1 hu
      have hall : v.all (fun c => c.isDigit || c == '_') = true :=
        List.all_eq_true.2 ((hstar v).1 hv)
      simp only [Numeral.isGrouped, List.all_cons, List.all_append, hall, List.all_nil,
        List.head?_cons, List.getLast?_cons, List.getLast?_append, hc, hd]
      simp [hc, hd]
  · intro h
    rw [Numeral.isGrouped, Bool.and_eq_true, Bool.and_eq_true, List.all_eq_true] at h
    obtain ⟨hall, hhead, hlast⟩ := h
    cases t with
    | nil => exact absurd hhead (by simp)
    | cons c u =>
      refine ⟨c, u, by simpa using hhead, mem_optional.2 ?_, rfl⟩
      rcases u.eq_nil_or_concat' with rfl | ⟨v, d, rfl⟩
      · exact .inl rfl
      · refine .inr (mem_mul_digit.2 ⟨v, d, (hstar v).2 fun x hx => hall x ?_, ?_, rfl⟩)
        · simp [hx]
        · rw [← List.cons_append, List.getLast?_concat] at hlast
          exact hlast

theorem mem_plain : t ∈ (digit * digit.star).matches' ↔ Numeral.isPlain t = true := by
  rw [mem_digit_mul]
  constructor
  · rintro ⟨c, u, hc, hu, rfl⟩
    have hall : ∀ x ∈ u, x.isDigit = true := fun x hx => mem_digits.1 (mem_star_oneOf.1 hu x hx)
    simpa [Numeral.isPlain, hc] using hall
  · intro h
    cases t with
    | nil => exact absurd h (by simp [Numeral.isPlain])
    | cons c u =>
      simp only [Numeral.isPlain, List.all_cons, Bool.and_eq_true, List.all_eq_true] at h
      exact ⟨c, u, h.2.1, mem_star_oneOf.2 fun x hx => mem_digits.2 (h.2.2 x hx), rfl⟩

/-- All words of a pattern start with a digit. -/
def StartsWithDigit (p : RegularExpression Char) : Prop :=
  ∀ u ∈ p.matches', ∃ c v, c.isDigit = true ∧ u = c :: v

theorem startsWithDigit_digit_mul : StartsWithDigit (digit * p) := by
  intro u hu
  obtain ⟨c, v, hc, -, rfl⟩ := mem_digit_mul.1 hu
  exact ⟨c, v, hc, rfl⟩

theorem StartsWithDigit.mul (h : StartsWithDigit p) : StartsWithDigit (p * q) := by
  intro t ht
  obtain ⟨u, hu, v, -, rfl⟩ := Language.mem_mul.1 ht
  obtain ⟨c, u, hc, rfl⟩ := h u hu
  exact ⟨c, u ++ v, hc, rfl⟩

theorem startsWithDigit_grouped : StartsWithDigit grouped := startsWithDigit_digit_mul

/-- What follows an optional sign is what is left when the sign is taken off. -/
theorem StartsWithDigit.mem_sign_mul (h : StartsWithDigit p) :
    t ∈ (sign * p).matches' ↔ (Numeral.splitSign t).2 ∈ p.matches' := by
  rw [matches'_mul, Language.mem_mul]
  constructor
  · rintro ⟨s, hs, u, hu, rfl⟩
    rcases mem_optional.1 hs with rfl | hs
    · obtain ⟨c, v, hc, rfl⟩ := h u hu
      have hsplit : Numeral.splitSign (c :: v) = (false, c :: v) :=
        Numeral.splitSign_signed false (by simpa using hc)
      rwa [List.nil_append, hsplit]
    · obtain ⟨c, hc, rfl⟩ := mem_oneOf.1 hs
      simp only [List.mem_cons, List.not_mem_nil, or_false] at hc
      rcases hc with rfl | rfl
      · exact hu
      · exact hu
  · intro ht
    unfold Numeral.splitSign at ht
    split at ht
    · next u => exact ⟨['-'], mem_optional.2 (.inr (mem_oneOf.2 ⟨'-', by simp, rfl⟩)), u, ht, rfl⟩
    · next u => exact ⟨['+'], mem_optional.2 (.inr (mem_oneOf.2 ⟨'+', by simp, rfl⟩)), u, ht, rfl⟩
    · exact ⟨[], mem_optional.2 (.inl rfl), t, ht, rfl⟩

theorem mem_fraction : t ∈ fraction.matches' ↔
    ∃ part, Numeral.isGrouped part = true ∧ t = '.' :: part := by
  simp only [fraction, mem_char_mul, mem_grouped]

theorem mem_exponent : t ∈ exponent.matches' ↔
    ∃ c u, (c = 'e' ∨ c = 'E') ∧ Numeral.isPlain (Numeral.splitSign u).2 = true ∧ t = c :: u := by
  rw [exponent, matches'_mul, Language.mem_mul]
  constructor
  · rintro ⟨_, hmark, u, hu, rfl⟩
    obtain ⟨c, hc, rfl⟩ := mem_oneOf.1 hmark
    rw [startsWithDigit_digit_mul.mem_sign_mul, mem_plain] at hu
    exact ⟨c, u, by simpa using hc, hu, rfl⟩
  · rintro ⟨c, u, hc, hu, rfl⟩
    refine ⟨[c], mem_oneOf.2 ⟨c, by simpa using hc, rfl⟩, u, ?_, rfl⟩
    rwa [startsWithDigit_digit_mul.mem_sign_mul, mem_plain]

end Pattern

end Sexpr
