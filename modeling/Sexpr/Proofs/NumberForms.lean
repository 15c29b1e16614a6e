/-
The forms of number tokens.

A token is a number if it matches the pattern for rationals, percentages, reals or integers.
The patterns look alike, but each of the first three asks for a character that no pattern
after it has: a slash, a percent sign, and a point or the mark of an exponent. So a token
matches one pattern at most, and it does not matter in which order they are tried.

* `NumberForm.pattern` — the four patterns;
* `NumberForm.eq_of_matches` — a token matches one of them at most;
* `NumberForm.isSome_read?_iff` — a form is read off exactly the tokens that match it;
* `NumberForm.findSome?_of_perm` — trying the forms in any order gives the same.
-/
import Sexpr.Proofs.Patterns

namespace Sexpr

/-! ### Mantissas -/

namespace Numeral

/-- A mantissa, with a point or without one. -/
inductive GroupedMantissa : Bool → List Char → Prop
  | whole {whole : List Char} (h : isGrouped whole = true) : GroupedMantissa false whole
  | point {whole : List Char} (h : isGrouped whole = true) : GroupedMantissa true (whole ++ ['.'])
  | part {whole part : List Char} (h : isGrouped whole = true) (hpart : isGrouped part = true) :
      GroupedMantissa true (whole ++ '.' :: part)

theorem not_mem_of_isGrouped {cs : List Char} {c : Char} (h : isGrouped cs = true)
    (hdigit : c.isDigit = false) (hunderscore : c ≠ '_') : c ∉ cs := by
  intro hc
  rw [isGrouped, Bool.and_eq_true, List.all_eq_true] at h
  have := h.1 c hc
  simp [hdigit, hunderscore] at this

theorem span_ne_append {cs : List Char} {c : Char} (h : c ∉ cs) (rest : List Char) :
    (cs ++ c :: rest).span (· ≠ c) = (cs, c :: rest) :=
  span_append_cons (fun _ hx => decide_eq_true (ne_of_mem_of_not_mem hx h)) (by simp)

theorem span_ne_self {cs : List Char} {c : Char} (h : c ∉ cs) : cs.span (· ≠ c) = (cs, []) :=
  span_of_forall fun _ hx => decide_eq_true (ne_of_mem_of_not_mem hx h)

theorem exists_mantissa?_iff {cs : List Char} {point : Bool} :
    (∃ whole part, mantissa? cs = some (whole, part, point)) ↔ GroupedMantissa point cs := by
  constructor
  · rintro ⟨whole, part, h⟩
    unfold mantissa? at h
    split at h
    · next whole hspan =>
      split_ifs at h with hgrouped
      cases h
      rw [append_of_span hspan, List.append_nil]
      exact .whole hgrouped
    · next whole x part hspan =>
      split_ifs at h with hgrouped
      cases h
      obtain rfl : x = '.' := by simpa using not_head_of_span hspan
      rw [Bool.and_eq_true, Bool.or_eq_true, List.isEmpty_iff] at hgrouped
      rw [append_of_span hspan]
      obtain ⟨hwhole, rfl | hpart⟩ := hgrouped
      · exact .point hwhole
      · exact .part hwhole hpart
  · intro h
    cases h with
    | @whole whole h =>
      have hpoint : '.' ∉ cs := not_mem_of_isGrouped h (by decide) (by decide)
      refine ⟨ungroup cs, [], ?_⟩
      simp only [mantissa?, span_ne_self hpoint, h, if_true]
    | @point whole h =>
      have hpoint : '.' ∉ whole := not_mem_of_isGrouped h (by decide) (by decide)
      refine ⟨ungroup whole, [], ?_⟩
      simp only [mantissa?, span_ne_append hpoint, h]
      rfl
    | @part whole part h hpart =>
      have hpoint : '.' ∉ whole := not_mem_of_isGrouped h (by decide) (by decide)
      refine ⟨ungroup whole, ungroup part, ?_⟩
      simp only [mantissa?, span_ne_append hpoint, h, hpart, Bool.or_true, Bool.and_self, if_true]

/-- No character of a mantissa marks an exponent. -/
theorem GroupedMantissa.not_mark {cs : List Char} {point : Bool} (h : GroupedMantissa point cs) :
    ∀ c ∈ cs, (c ≠ 'e' && c ≠ 'E') = true := by
  have hgrouped : ∀ {cs}, isGrouped cs = true → ∀ c ∈ cs, (c ≠ 'e' && c ≠ 'E') = true := by
    intro cs h c hc
    have he := ne_of_mem_of_not_mem hc (not_mem_of_isGrouped (c := 'e') h (by decide) (by decide))
    have hE := ne_of_mem_of_not_mem hc (not_mem_of_isGrouped (c := 'E') h (by decide) (by decide))
    simp [he, hE]
  cases h with
  | whole h => exact hgrouped h
  | point h =>
    exact List.forall_mem_append.2 ⟨hgrouped h, List.forall_mem_singleton.2 (by decide)⟩
  | part h hpart =>
    exact List.forall_mem_append.2
      ⟨hgrouped h, List.forall_mem_cons.2 ⟨by decide, hgrouped hpart⟩⟩

end Numeral

/-! ### Forms -/

/-- The forms of number tokens. -/
inductive NumberForm where
  | rational
  | percent
  | real
  | integer
deriving DecidableEq

namespace NumberForm

open RegularExpression Pattern Numeral

/-- The pattern of a form. A real has a point, an exponent or both. -/
def pattern : NumberForm → RegularExpression Char
  | rational => sign * (grouped * (char '/' * grouped))
  | percent => sign * (grouped * (optional fraction * char '%'))
  | real =>
    sign * (grouped * (fraction * optional exponent)) +
      sign * (grouped * (char '.' * optional exponent)) +
      sign * (grouped * (optional fraction * exponent))
  | integer => sign * grouped

/-- A token has a form. -/
def Matches (f : NumberForm) (t : List Char) : Prop := t ∈ f.pattern.matches'

instance (f : NumberForm) (t : List Char) : Decidable (f.Matches t) :=
  decidable_of_iff (f.pattern.rmatch t = true) (rmatch_iff_matches' _ _)

/-- What is read off a token in a form. -/
def read? : NumberForm → List Char → Option Numeral
  | rational => rational?
  | percent => percent?
  | real => real?
  | integer => integer?

/-- The characters of which a token of a form has at least one. -/
def marks : NumberForm → List Char
  | rational => ['/']
  | percent => ['%']
  | real => ['.', 'e', 'E']
  | integer => []

/-- The place of a form in the order in which they are tried. -/
def place : NumberForm → Nat
  | rational => 0
  | percent => 1
  | real => 2
  | integer => 3

/-! ### No token has two forms -/

variable {f g : NumberForm} {t : List Char}

theorem eq_of_place (h : f.place = g.place) : f = g := by
  cases f <;> cases g <;> first | rfl | exact absurd h (by decide)

theorem needs_marks (h : f.place < g.place) : needs f.marks f.pattern = true := by
  cases f with
  | integer => cases g <;> exact absurd h (by decide)
  | _ => decide

theorem marks_not_mem_letters (h : f.place < g.place) :
    ∀ c ∈ f.marks, c ∉ letters g.pattern := by
  have hall : (f.marks.all fun c => !(letters g.pattern).contains c) = true := by
    revert h
    cases f <;> cases g <;> decide
  simpa using hall

/-- A form asks for a character that no form after it has. -/
theorem Matches.not_matches (hf : f.Matches t) (h : f.place < g.place) : ¬g.Matches t :=
  not_mem_of_needs (needs_marks h) (marks_not_mem_letters h) hf

/-- A token has one form at most. -/
theorem eq_of_matches (hf : f.Matches t) (hg : g.Matches t) : f = g := by
  rcases Nat.lt_trichotomy f.place g.place with h | h | h
  · exact absurd hg (hf.not_matches h)
  · exact eq_of_place h
  · exact absurd hf (hg.not_matches h)

/-! ### Reading a form off a token -/

theorem mem_sign_mul_grouped {p : RegularExpression Char} :
    t ∈ (sign * (grouped * p)).matches' ↔
      ∃ whole u, isGrouped whole = true ∧ u ∈ p.matches' ∧ (splitSign t).2 = whole ++ u := by
  rw [startsWithDigit_grouped.mul.mem_sign_mul, matches'_mul, Language.mem_mul]
  constructor
  · rintro ⟨whole, hwhole, u, hu, h⟩
    exact ⟨whole, u, mem_grouped.1 hwhole, hu, h.symm⟩
  · rintro ⟨whole, u, hwhole, hu, h⟩
    exact ⟨whole, mem_grouped.2 hwhole, u, hu, h.symm⟩

theorem matches_integer_iff : integer.Matches t ↔ isGrouped (splitSign t).2 = true :=
  startsWithDigit_grouped.mem_sign_mul.trans mem_grouped

theorem matches_rational_iff : rational.Matches t ↔
    ∃ num den, isGrouped num = true ∧ isGrouped den = true ∧
      (splitSign t).2 = num ++ '/' :: den := by
  refine mem_sign_mul_grouped.trans ?_
  simp only [mem_char_mul, mem_grouped]
  constructor
  · rintro ⟨num, _, hnum, ⟨den, hden, rfl⟩, h⟩
    exact ⟨num, den, hnum, hden, h⟩
  · rintro ⟨num, den, hnum, hden, h⟩
    exact ⟨num, _, hnum, ⟨den, hden, rfl⟩, h⟩

theorem matches_percent_iff : percent.Matches t ↔
    ∃ number, (isGrouped number = true ∨ ∃ whole part, isGrouped whole = true ∧
      isGrouped part = true ∧ number = whole ++ '.' :: part) ∧
        (splitSign t).2 = number ++ ['%'] := by
  refine mem_sign_mul_grouped.trans ?_
  constructor
  · rintro ⟨whole, u, hwhole, hu, h⟩
    obtain ⟨tail, htail, _, rfl, rfl⟩ := Language.mem_mul.1 hu
    rcases mem_optional.1 htail with rfl | htail
    · exact ⟨whole, .inl hwhole, h⟩
    · obtain ⟨part, hpart, rfl⟩ := mem_fraction.1 htail
      exact ⟨_, .inr ⟨whole, part, hwhole, hpart, rfl⟩, by simpa using h⟩
  · rintro ⟨number, hwhole | ⟨whole, part, hwhole, hpart, rfl⟩, h⟩
    · exact ⟨number, ['%'], hwhole,
        Language.mem_mul.2 ⟨[], mem_optional.2 (.inl rfl), ['%'], rfl, rfl⟩, h⟩
    · refine ⟨whole, '.' :: part ++ ['%'], hwhole,
        Language.mem_mul.2 ⟨'.' :: part, ?_, _, rfl, rfl⟩, by simpa using h⟩
      exact mem_optional.2 (.inr (mem_fraction.2 ⟨part, hpart, rfl⟩))

/-- The three patterns that reals have between them, with the sign taken off. -/
theorem matches_real_iff_patterns : real.Matches t ↔
    (∃ whole u, isGrouped whole = true ∧ u ∈ (fraction * optional exponent).matches' ∧
        (splitSign t).2 = whole ++ u) ∨
      (∃ whole u, isGrouped whole = true ∧ u ∈ (char '.' * optional exponent).matches' ∧
        (splitSign t).2 = whole ++ u) ∨
      ∃ whole u, isGrouped whole = true ∧ u ∈ (optional fraction * exponent).matches' ∧
        (splitSign t).2 = whole ++ u := by
  rw [← mem_sign_mul_grouped, ← mem_sign_mul_grouped, ← mem_sign_mul_grouped, ← or_assoc]
  exact Iff.rfl

/-- A real is a mantissa with a point, or a mantissa with an exponent. -/
theorem matches_real_iff : real.Matches t ↔
    GroupedMantissa true (splitSign t).2 ∨ ∃ number tail point, GroupedMantissa point number ∧
      tail ∈ exponent.matches' ∧ (splitSign t).2 = number ++ tail := by
  rw [matches_real_iff_patterns]
  generalize (splitSign t).2 = body
  constructor
  · rintro (⟨whole, u, hwhole, hu, rfl⟩ | ⟨whole, u, hwhole, hu, rfl⟩ |
      ⟨whole, u, hwhole, hu, rfl⟩)
    · -- a point with digits after it, and perhaps an exponent
      obtain ⟨_, hfraction, tail, htail, rfl⟩ := Language.mem_mul.1 hu
      obtain ⟨part, hpart, rfl⟩ := mem_fraction.1 hfraction
      rw [← List.append_assoc]
      rcases mem_optional.1 htail with rfl | htail
      · rw [List.append_nil]
        exact .inl (.part hwhole hpart)
      · exact .inr ⟨_, tail, true, .part hwhole hpart, htail, rfl⟩
    · -- a point alone, and perhaps an exponent
      obtain ⟨tail, htail, rfl⟩ := mem_char_mul.1 hu
      rcases mem_optional.1 htail with rfl | htail
      · exact .inl (.point hwhole)
      · exact .inr ⟨_, tail, true, .point hwhole, htail, by simp⟩
    · -- an exponent, and perhaps a point with digits before it
      obtain ⟨_, hfraction, tail, htail, rfl⟩ := Language.mem_mul.1 hu
      rcases mem_optional.1 hfraction with rfl | hfraction
      · exact .inr ⟨whole, tail, false, .whole hwhole, htail, rfl⟩
      · obtain ⟨part, hpart, rfl⟩ := mem_fraction.1 hfraction
        exact .inr ⟨_, tail, true, .part hwhole hpart, htail, by simp⟩
  · rintro (h | ⟨number, tail, point, hnumber, htail, rfl⟩)
    · cases h with
      | @point whole hwhole =>
        exact .inr (.inl ⟨whole, ['.'], hwhole,
          mem_char_mul.2 ⟨[], mem_optional.2 (.inl rfl), rfl⟩, rfl⟩)
      | @part whole part hwhole hpart =>
        refine .inl ⟨whole, '.' :: part, hwhole, Language.mem_mul.2 ?_, rfl⟩
        exact ⟨_, mem_fraction.2 ⟨part, hpart, rfl⟩, [], mem_optional.2 (.inl rfl), by simp⟩
    · cases hnumber with
      | whole hwhole =>
        refine .inr (.inr ⟨number, tail, hwhole, Language.mem_mul.2 ?_, rfl⟩)
        exact ⟨[], mem_optional.2 (.inl rfl), tail, htail, rfl⟩
      | @point whole hwhole =>
        refine .inr (.inl ⟨whole, '.' :: tail, hwhole, mem_char_mul.2 ?_, by simp⟩)
        exact ⟨tail, mem_optional.2 (.inr htail), rfl⟩
      | @part whole part hwhole hpart =>
        refine .inl ⟨whole, '.' :: part ++ tail, hwhole, Language.mem_mul.2 ?_, by simp⟩
        exact ⟨_, mem_fraction.2 ⟨part, hpart, rfl⟩, tail, mem_optional.2 (.inr htail), rfl⟩

theorem isSome_rational?_iff : (rational? t).isSome = true ↔ rational.Matches t := by
  rw [matches_rational_iff]
  constructor
  · intro h
    obtain ⟨n, hn⟩ := Option.isSome_iff_exists.1 h
    obtain ⟨num, den, hbody, hnum, hden, -⟩ := rational?_eq_some hn
    exact ⟨num, den, hnum, hden, hbody⟩
  · rintro ⟨num, den, hnum, hden, hbody⟩
    have hslash : '/' ∉ num := not_mem_of_isGrouped hnum (by decide) (by decide)
    simp only [rational?, hbody, span_ne_append hslash, hnum, hden, Bool.and_self, if_true,
      Option.isSome_some]

theorem isSome_percent?_iff : (percent? t).isSome = true ↔ percent.Matches t := by
  rw [matches_percent_iff]
  constructor
  · intro h
    unfold percent? at h
    dsimp only at h
    split at h
    · next number hspan =>
      refine ⟨number, ?_, append_of_span hspan⟩
      split at h
      · next whole hwhole =>
        split_ifs at h with hgrouped
        · rw [append_of_span hwhole, List.append_nil]
          exact .inl hgrouped
        · exact absurd h (by simp)
      · next whole x part hwhole =>
        split_ifs at h with hgrouped
        · rw [Bool.and_eq_true] at hgrouped
          obtain rfl : x = '.' := by simpa using not_head_of_span hwhole
          exact .inr ⟨whole, part, hgrouped.1, hgrouped.2, append_of_span hwhole⟩
        · exact absurd h (by simp)
    · exact absurd h (by simp)
  · rintro ⟨number, hwhole | ⟨whole, part, hwhole, hpart, rfl⟩, hbody⟩
    · have hpercent : '%' ∉ number := not_mem_of_isGrouped hwhole (by decide) (by decide)
      have hpoint : '.' ∉ number := not_mem_of_isGrouped hwhole (by decide) (by decide)
      simp only [percent?, hbody, span_ne_append hpercent, span_ne_self hpoint, hwhole, if_true,
        Option.isSome_some]
    · have hpercent : '%' ∉ whole ++ '.' :: part := by
        rw [List.mem_append, List.mem_cons, not_or, not_or]
        exact ⟨not_mem_of_isGrouped hwhole (by decide) (by decide), by decide,
          not_mem_of_isGrouped hpart (by decide) (by decide)⟩
      have hpoint : '.' ∉ whole := not_mem_of_isGrouped hwhole (by decide) (by decide)
      simp only [percent?, hbody, span_ne_append hpercent, span_ne_append hpoint, hwhole, hpart,
        Bool.and_self, if_true, Option.isSome_some]

theorem isSome_real?_iff : (real? t).isSome = true ↔ real.Matches t := by
  rw [matches_real_iff]
  constructor
  · intro h
    unfold real? at h
    dsimp only at h
    split at h
    · next number hspan =>
      split at h
      · next whole part hmantissa =>
        rw [append_of_span hspan, List.append_nil]
        exact .inl (exists_mantissa?_iff.1 ⟨whole, part, hmantissa⟩)
      · exact absurd h (by simp)
    · next number x tail hspan =>
      have hmark : x = 'e' ∨ x = 'E' := by
        have := not_head_of_span hspan
        grind
      split at h
      · next whole part point hmantissa =>
        split_ifs at h with hplain
        · exact .inr ⟨number, x :: tail, point, exists_mantissa?_iff.1 ⟨whole, part, hmantissa⟩,
            mem_exponent.2 ⟨x, tail, hmark, hplain, rfl⟩, append_of_span hspan⟩
        · exact absurd h (by simp)
      · exact absurd h (by simp)
  · rintro (h | ⟨number, tail, point, hnumber, htail, hbody⟩)
    · obtain ⟨whole, part, hmantissa⟩ := exists_mantissa?_iff.2 h
      simp only [real?, span_of_forall h.not_mark, hmantissa, Option.isSome_some]
    · obtain ⟨x, u, hmark, hplain, rfl⟩ := mem_exponent.1 htail
      obtain ⟨whole, part, hmantissa⟩ := exists_mantissa?_iff.2 hnumber
      have hx : (x ≠ 'e' && x ≠ 'E') = false := by
        rcases hmark with rfl | rfl
        · decide
        · decide
      simp only [real?, hbody, span_append_cons hnumber.not_mark hx, hmantissa, hplain, if_true,
        Option.isSome_some]

theorem isSome_integer?_iff : (integer? t).isSome = true ↔ integer.Matches t := by
  rw [matches_integer_iff, Option.isSome_iff_exists]
  constructor
  · rintro ⟨n, hn⟩
    exact (integer?_eq_some.1 hn).1
  · intro h
    exact ⟨_, integer?_eq_some.2 ⟨h, rfl⟩⟩

/-- A form is read off exactly the tokens that have it. -/
theorem isSome_read?_iff : (f.read? t).isSome = true ↔ f.Matches t := by
  cases f with
  | rational => exact isSome_rational?_iff
  | percent => exact isSome_percent?_iff
  | real => exact isSome_real?_iff
  | integer => exact isSome_integer?_iff

theorem read?_eq_none (hf : f.Matches t) (hne : g ≠ f) : g.read? t = none := by
  rw [← Option.not_isSome_iff_eq_none, isSome_read?_iff]
  intro hg
  exact hne (eq_of_matches hg hf)

/-! ### The order of the forms -/

/-- The forms in the order in which they are tried. -/
def all : List NumberForm := [rational, percent, real, integer]

theorem mem_all (f : NumberForm) : f ∈ all := by
  cases f <;> decide

theorem findSome?_all (t : List Char) : all.findSome? (fun f => f.read? t) = ofToken? t := by
  simp only [all, List.findSome?_cons, List.findSome?_nil, read?, ofToken?]
  cases rational? t with
  | some n => rfl
  | none =>
    cases percent? t with
    | some n => rfl
    | none =>
      cases real? t with
      | some n => rfl
      | none => cases integer? t <;> rfl

/-- Forms in any order give what the form of the token gives, if it is among them. -/
theorem Matches.findSome?_eq {order : List NumberForm} (hf : f.Matches t) (h : f ∈ order) :
    order.findSome? (fun f => f.read? t) = f.read? t := by
  induction order with
  | nil => exact absurd h List.not_mem_nil
  | cons g order ih =>
    by_cases hg : g = f
    · subst hg
      obtain ⟨n, hn⟩ := Option.isSome_iff_exists.1 (isSome_read?_iff.2 hf)
      rw [List.findSome?_cons, hn]
    · have hmem : f ∈ order := (List.mem_cons.1 h).resolve_left fun h => hg h.symm
      rw [List.findSome?_cons, read?_eq_none hf hg]
      exact ih hmem

theorem Matches.ofToken?_eq (hf : f.Matches t) : ofToken? t = f.read? t := by
  rw [← findSome?_all, hf.findSome?_eq (mem_all f)]

/-- Whatever the order in which the forms are tried, the same is read. -/
theorem findSome?_of_perm {order : List NumberForm} (h : order.Perm all) (t : List Char) :
    order.findSome? (fun f => f.read? t) = ofToken? t := by
  rw [← findSome?_all]
  by_cases hmatch : ∃ f : NumberForm, f.Matches t
  · obtain ⟨f, hf⟩ := hmatch
    rw [hf.findSome?_eq (h.mem_iff.2 (mem_all f)), hf.findSome?_eq (mem_all f)]
  · have hnone : ∀ f : NumberForm, f.read? t = none := by
      intro f
      rw [← Option.not_isSome_iff_eq_none, isSome_read?_iff]
      exact fun hf => hmatch ⟨f, hf⟩
    rw [List.findSome?_eq_none_iff.2 fun f _ => hnone f,
      List.findSome?_eq_none_iff.2 fun f _ => hnone f]

end NumberForm
end Sexpr
