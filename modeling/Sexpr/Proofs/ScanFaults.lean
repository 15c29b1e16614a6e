/-
Where the scanners stop.

Most faults of the reader say that the text does not follow the grammar. Three come from
the conversion of digits instead, and then the digits stand in the text. No scanner has a
fault of spans, and none runs out of steps.

* `ReadFault.isSyntax` — the faults of the grammar;
* `ReadFault.ShownIn` — the text holds what the fault is about;
* `shownIn_stringToken`, `shownIn_rawToken`, `shownIn_nameLeaf` — the faults of the tokens.
-/
import Sexpr.Proofs.Numerals
import Sexpr.Proofs.Scanners

namespace Sexpr

/-! ### Faults -/

/-- The text does not follow the grammar. The other faults come from the conversion of
digits, from the cutting of spans, and from a bound on the steps. -/
def ReadFault.isSyntax : ReadFault → Bool
  | tooManyDigits _ | codePointValue _ | codePointHuge | span _ | exhausted => false
  | endOfInput | endInEscape | endInCodePoint | noExpression _ | noName _ | noOpening _ _
  | noQuote _ _ | badQuote _ | noRawQuote | noColon _ | zeroDenominator | codePointBrace
  | codePointDigit | codePointEmpty | codePointRange => true

/-- The digit strings of a number that are converted to integers. -/
def Numeral.digitRuns : Numeral → List (List Char)
  | integer _ ds => [ds]
  | rational _ num den => [num, den]
  | percent _ _ _ | real _ _ _ _ _ => []

/-- The escape of a code point with the given digits. -/
def codePointEscape (ds : List Char) : List Char := '\\' :: 'u' :: '{' :: (ds ++ ['}'])

/-- The text holds what the fault is about: a number with too many digits, or the escape of
a code point whose digits have no value or too large a one. -/
def ReadFault.ShownIn (cs : List Char) : ReadFault → Prop
  | tooManyDigits n => ∃ token num, token <:+: cs ∧ Numeral.ofToken? token = some num ∧
      ∃ ds ∈ num.digitRuns, ds.length = n ∧ Numeral.maxDigits < n
  | codePointValue ds => codePointEscape ds.toList <:+: cs ∧ hexOfDigits? ds.toList = none
  | codePointHuge => ∃ ds n, codePointEscape ds <:+: cs ∧ hexOfDigits? ds = some n ∧ 0x7fffffff < n
  | e => e.isSyntax = true

theorem ReadFault.shownIn_of_isSyntax {e : ReadFault} (h : e.isSyntax = true) (cs : List Char) :
    e.ShownIn cs := by
  cases e with
  | tooManyDigits | codePointValue | codePointHuge => exact absurd h (by simp [isSyntax])
  | _ => exact h

/-- What is shown in a part of a text is shown in the text. -/
theorem ReadFault.ShownIn.mono {e : ReadFault} {cs cs' : List Char} (h : e.ShownIn cs)
    (hcs : cs <:+: cs') : e.ShownIn cs' := by
  cases e with
  | tooManyDigits n =>
    obtain ⟨token, num, htoken, hnum, hds⟩ := h
    exact ⟨token, num, htoken.trans hcs, hnum, hds⟩
  | codePointValue ds => exact ⟨h.1.trans hcs, h.2⟩
  | codePointHuge =>
    obtain ⟨ds, n, hds, hn⟩ := h
    exact ⟨ds, n, hds.trans hcs, hn⟩
  | _ => exact h

/-! ### Strings -/

theorem shownIn_charOfDigits {ds : List Char} {e : ReadFault} (h : charOfDigits ds = .error e) :
    e.ShownIn (codePointEscape ds) := by
  unfold charOfDigits at h
  split at h
  · next hnone =>
    cases h
    rw [ReadFault.ShownIn, String.toList_ofList]
    exact ⟨List.infix_rfl, hnone⟩
  · next n hn =>
    split_ifs at h with hhuge
    · cases h
      exact ⟨ds, n, List.infix_rfl, hn, hhuge⟩
    · cases h
      rfl

/-- The digits of a code point stand between its braces. -/
theorem shownIn_codePoint {cs : List Char} {e : ReadFault} (h : (codePoint cs).outcome = .error e) :
    e.ShownIn ('\\' :: 'u' :: cs) := by
  unfold codePoint at h
  split at h
  · next rest =>
    obtain ⟨r, hr⟩ : rest.takeWhile isCodePointDigit <+: rest := List.takeWhile_prefix _
    generalize rest.takeWhile isCodePointDigit = ds at h hr
    subst hr
    simp only [List.drop_left] at h
    split_ifs at h with hstop
    · cases h
      rfl
    · obtain ⟨r, rfl⟩ := exists_cons_of_headD hstop (by decide)
      exact (shownIn_charOfDigits h).mono ⟨[], r, by simp [codePointEscape]⟩
    · cases h
      rfl
    · cases h
      rfl
  · cases h
    rfl

theorem outcome_found_ne {α : Type} {n : Nat} {x : α} {e : ReadFault} :
    (Scanned.found n x).outcome ≠ .error e := by
  simp [Scanned.found]

theorem outcome_after_eq_error {α β : Type} {s : Scanned α} {n : Nat} {f : α → β} {e : ReadFault}
    (h : (s.after n f).outcome = .error e) : s.outcome = .error e := by
  obtain ⟨k, e' | x⟩ := s
  · simpa [Scanned.after, Except.map] using h
  · exact absurd h (by simp [Scanned.after, Except.map])

theorem shownIn_escape {cs : List Char} {e : ReadFault} (h : (escape cs).outcome = .error e) :
    e.ShownIn ('\\' :: cs) := by
  rw [escape] at h
  generalize hhead : cs.headD endMark = c at h
  by_cases hend : c = endMark
  · rw [if_pos hend] at h
    cases h
    rfl
  · rw [if_neg hend] at h
    obtain ⟨cs, rfl⟩ := exists_cons_of_headD hhead hend
    by_cases hu : c = 'u'
    · subst hu
      exact shownIn_codePoint (outcome_after_eq_error h)
    · rw [if_neg hu] at h
      split_ifs at h
      all_goals exact absurd h outcome_found_ne

theorem shownIn_stringBody {q : Char} {pending : Nat} {cs : List Char} {e : ReadFault}
    (h : (stringBody q pending cs).outcome = .error e) : e.ShownIn cs := by
  induction cs generalizing pending with
  | nil =>
    cases h
    rfl
  | cons c cs ih =>
    have hafter : ∀ {p} {f : List Char → List Char},
        ((stringBody q p cs).after 1 f).outcome = .error e → e.ShownIn (c :: cs) := fun h =>
      (ih (outcome_after_eq_error h)).mono (List.suffix_cons c cs).isInfix
    cases pending with
    | succ k => exact hafter h
    | zero =>
      rw [stringBody] at h
      split_ifs at h with hquote hend hslash
      · exact absurd h outcome_found_ne
      · cases h
        rfl
      · subst hslash
        split at h
        · exact hafter h
        · next n e' hesc =>
          cases h
          exact shownIn_escape (by rw [hesc])
      · exact hafter h

theorem shownIn_stringToken {q : Char} {cs : List Char} {e : ReadFault}
    (h : (stringToken q cs).outcome = .error e) : e.ShownIn cs := by
  unfold stringToken at h
  split_ifs at h
  · cases h
    rfl
  · cases h
    rfl
  · exact (shownIn_stringBody (outcome_after_eq_error h)).mono (List.drop_suffix 1 cs).isInfix

/-! ### Raw strings -/

theorem eq_endOfInput_of_rawBody {tag missing cs : List Char} {e : ReadFault}
    (h : (rawBody tag missing cs).outcome = .error e) : e = .endOfInput := by
  induction cs generalizing missing with
  | nil =>
    cases h
    rfl
  | cons c cs ih =>
    rw [rawBody] at h
    generalize (if missing.isEmpty then [] else '"' :: tag.take (tag.length - missing.length)) =
      held at h
    dsimp only at h
    split_ifs at h
    · exact absurd h outcome_found_ne
    · exact ih (outcome_after_eq_error h)
    · cases h
      rfl
    · exact absurd h outcome_found_ne
    · exact ih (outcome_after_eq_error h)
    · exact ih (outcome_after_eq_error h)

theorem shownIn_rawToken {cs : List Char} {e : ReadFault} (h : (rawToken cs).outcome = .error e) :
    e.ShownIn cs := by
  unfold rawToken at h
  dsimp only at h
  split_ifs at h
  · cases h
    rfl
  · cases h
    rfl
  · obtain rfl := eq_endOfInput_of_rawBody (outcome_after_eq_error h)
    rfl

/-! ### Numbers -/

theorem digitsValue_eq_error {ds : List Char} {e : ReadFault} (h : digitsValue ds = .error e) :
    e = .tooManyDigits ds.length ∧ Numeral.maxDigits < ds.length := by
  unfold digitsValue Numeral.boundedNat? at h
  split_ifs at h with hlong
  · cases h
    exact ⟨rfl, hlong⟩

theorem Numeral.shownIn_toLeaf {token : List Char} {num : Numeral} {e : ReadFault}
    (hnum : ofToken? token = some num) (h : num.toLeaf = .error e) : e.ShownIn token := by
  have hdigits : ∀ ds ∈ num.digitRuns, ∀ e, digitsValue ds = .error e → e.ShownIn token := by
    intro ds hds e he
    obtain ⟨rfl, hlong⟩ := digitsValue_eq_error he
    exact ⟨token, num, List.infix_rfl, hnum, ds, hds, rfl, hlong⟩
  cases num with
  | integer neg ds =>
    cases hds : digitsValue ds with
    | ok n =>
      simp only [toLeaf, hds] at h
      cases h
    | error e' =>
      simp only [toLeaf, hds] at h
      cases h
      exact hdigits ds (by simp [digitRuns]) _ hds
  | rational neg num den =>
    cases hnum' : digitsValue num with
    | error e' =>
      simp only [toLeaf, hnum'] at h
      cases h
      exact hdigits num (by simp [digitRuns]) _ hnum'
    | ok n =>
      cases hden : digitsValue den with
      | error e' =>
        simp only [toLeaf, hnum', hden] at h
        cases h
        exact hdigits den (by simp [digitRuns]) _ hden
      | ok d =>
        simp only [toLeaf, hnum', hden] at h
        change (if d = 0 then .error _ else .ok _ : Except ReadFault Leaf) = _ at h
        split_ifs at h
        cases h
        rfl
  | percent neg whole part => cases h
  | real neg whole part eneg e => cases h

theorem shownIn_nameLeaf {token : List Char} {e : ReadFault} (h : nameLeaf token = .error e) :
    e.ShownIn token := by
  unfold nameLeaf at h
  split at h
  · next num hnum => exact Numeral.shownIn_toLeaf hnum h
  · cases h

end Sexpr
