/-
The values of number tokens.

Integers and rationals are read without rounding. The value of an integer token is the
decimal value of its digits, underscores left out, with the sign in front of them. That of
a rational token is the reduced fraction that equals its numerator over its denominator, so
tokens that denote the same number are read alike.

* `Numeral.decimal`, `Numeral.ratio` — what a text of digits and a rational token denote;
* `Numeral.nameLeaf_of_integer` — the leaf of an integer token;
* `Numeral.nameLeaf_of_rational` — the leaf of a rational token;
* `NumberForm.reads_exactly` — what there is to say of a number token.
-/
import Mathlib.Data.Nat.Digits.Defs
import Mathlib.Data.Rat.Lemmas
import Sexpr.Proofs.NumberForms

namespace Sexpr

namespace Numeral

/-! ### Decimal values -/

/-- The digits of a text. -/
def digitsOf (cs : List Char) : List Char := cs.filter Char.isDigit

/-- The decimal value of the digits of a text, negative after a minus sign. -/
def decimal (cs : List Char) : Int :=
  (if cs.head? = some '-' then -1 else 1) *
    (Nat.ofDigits 10 ((digitsOf cs).reverse.map fun c => c.toNat - '0'.toNat) : Nat)

/-- The numerator of a rational token. -/
def numerator (t : List Char) : List Char := t.takeWhile (· ≠ '/')

/-- The denominator of a rational token. -/
def denominator (t : List Char) : List Char := (t.dropWhile (· ≠ '/')).tail

/-- The number that a rational token denotes. -/
def ratio (t : List Char) : ℚ := decimal (numerator t) / decimal (denominator t)

theorem natOfDigits_eq_ofDigits (ds : List Char) :
    natOfDigits ds = Nat.ofDigits 10 (ds.reverse.map fun c => c.toNat - '0'.toNat) := by
  -- the digits are folded from the left, and the last one is worth the least
  induction ds using List.reverseRecOn with
  | nil => rfl
  | append_singleton ds c ih =>
    rw [List.reverse_append, List.reverse_singleton, List.singleton_append, List.map_cons,
      Nat.ofDigits_cons, ← ih, natOfDigits, List.foldl_append, Nat.add_comm]
    rfl

theorem digitsOf_eq_ungroup {cs : List Char} (h : isGrouped cs = true) :
    digitsOf cs = ungroup cs := by
  rw [isGrouped, Bool.and_eq_true, List.all_eq_true] at h
  refine List.filter_congr fun c hc => ?_
  have hchar := h.1 c hc
  rw [Bool.or_eq_true, beq_iff_eq] at hchar
  rcases hchar with hdigit | rfl
  · have hne : c ≠ '_' := by
      rintro rfl
      exact absurd hdigit (by decide)
    simp [hdigit, hne]
  · decide

theorem withSign_eq_mul (neg : Bool) (n : Nat) :
    withSign neg n = (if neg = true then -1 else 1) * (n : Int) := by
  cases neg with
  | true => simp [withSign]
  | false => simp [withSign]

theorem splitSign_cases (cs : List Char) :
    (∃ rest, cs = '-' :: rest ∧ splitSign cs = (true, rest)) ∨
      (∃ rest, cs = '+' :: rest ∧ splitSign cs = (false, rest)) ∨
      cs.head? ≠ some '-' ∧ splitSign cs = (false, cs) := by
  unfold splitSign
  split
  · exact .inl ⟨_, rfl, rfl⟩
  · exact .inr (.inl ⟨_, rfl, rfl⟩)
  · next hminus hplus =>
    refine .inr (.inr ⟨fun hhead => ?_, rfl⟩)
    obtain ⟨rest, rfl⟩ := List.head?_eq_some_iff.1 hhead
    exact hminus rest rfl

theorem digitsOf_splitSign (cs : List Char) : digitsOf (splitSign cs).2 = digitsOf cs := by
  rcases splitSign_cases cs with ⟨rest, rfl, h⟩ | ⟨rest, rfl, h⟩ | ⟨-, h⟩
  · rfl
  · rfl
  · rw [h]

/-- The value of a text with an optional sign in front. -/
theorem decimal_eq_withSign (cs : List Char) :
    decimal cs = withSign (splitSign cs).1 (natOfDigits (digitsOf cs)) := by
  rw [decimal, withSign_eq_mul, natOfDigits_eq_ofDigits]
  rcases splitSign_cases cs with ⟨rest, rfl, h⟩ | ⟨rest, rfl, h⟩ | ⟨hhead, h⟩
  · rw [h, List.head?_cons, if_pos rfl, if_pos rfl]
  · rw [h, List.head?_cons, if_neg (by decide), if_neg Bool.false_ne_true]
  · rw [h, if_neg hhead, if_neg Bool.false_ne_true]

theorem digitsValue_of_length_le {ds : List Char} (h : ds.length ≤ maxDigits) :
    digitsValue ds = .ok (natOfDigits ds) := by
  rw [digitsValue, boundedNat?, if_neg (Nat.not_lt.2 h)]

theorem splitSign_of_isGrouped {cs : List Char} (h : isGrouped cs = true) :
    splitSign cs = (false, cs) := by
  refine splitSign_signed false fun c hc => ?_
  rw [isGrouped, Bool.and_eq_true, Bool.and_eq_true, Option.mem_def.1 hc] at h
  exact h.2.1

variable {t : List Char}

/-! ### Integers -/

/-- An integer token is read as its decimal value. -/
theorem nameLeaf_of_integer (h : NumberForm.integer.Matches t)
    (hlength : (digitsOf t).length ≤ maxDigits) : nameLeaf t = .ok (.int (decimal t)) := by
  have hgrouped := NumberForm.matches_integer_iff.1 h
  have hdigits : ungroup (splitSign t).2 = digitsOf t := by
    rw [← digitsOf_eq_ungroup hgrouped, digitsOf_splitSign]
  have htoken : ofToken? t = some (.integer (splitSign t).1 (digitsOf t)) := by
    rw [h.ofToken?_eq]
    exact integer?_eq_some.2 ⟨hgrouped, by rw [hdigits]⟩
  rw [nameLeaf, htoken, decimal_eq_withSign]
  show toLeaf _ = _
  rw [toLeaf, digitsValue_of_length_le hlength]
  rfl

/-! ### Rationals -/

theorem numerator_cons {c : Char} (h : c ≠ '/') : numerator (c :: t) = c :: numerator t := by
  rw [numerator, List.takeWhile_cons_of_pos (by simpa using h), ← numerator]

theorem denominator_cons {c : Char} (h : c ≠ '/') : denominator (c :: t) = denominator t := by
  rw [denominator, List.dropWhile_cons_of_pos (by simpa using h), ← denominator]

theorem numerator_append {num : List Char} (h : '/' ∉ num) (den : List Char) :
    numerator (num ++ '/' :: den) = num ∧ denominator (num ++ '/' :: den) = den := by
  have hspan := span_ne_append h den
  rw [List.span_eq_takeWhile_dropWhile, Prod.mk.injEq] at hspan
  rw [numerator, denominator, hspan.1, hspan.2]
  exact ⟨rfl, rfl⟩

/-- The sign of a rational token is that of its numerator. -/
theorem splitSign_numerator {num den : List Char} (hnum : isGrouped num = true)
    (h : (splitSign t).2 = num ++ '/' :: den) :
    splitSign (numerator t) = ((splitSign t).1, num) ∧ denominator t = den := by
  have hslash : '/' ∉ num := not_mem_of_isGrouped hnum (by decide) (by decide)
  obtain ⟨hnumer, hdenom⟩ := numerator_append hslash den
  rcases splitSign_cases t with ⟨rest, rfl, hsplit⟩ | ⟨rest, rfl, hsplit⟩ | ⟨-, hsplit⟩
  · rw [hsplit] at h ⊢
    obtain rfl : rest = num ++ '/' :: den := h
    rw [numerator_cons (by decide), denominator_cons (by decide), hnumer, hdenom]
    exact ⟨rfl, rfl⟩
  · rw [hsplit] at h ⊢
    obtain rfl : rest = num ++ '/' :: den := h
    rw [numerator_cons (by decide), denominator_cons (by decide), hnumer, hdenom]
    exact ⟨rfl, rfl⟩
  · rw [hsplit] at h ⊢
    obtain rfl : t = num ++ '/' :: den := h
    rw [hnumer, hdenom]
    exact ⟨splitSign_of_isGrouped hnum, rfl⟩

/-- What is read off a rational token, and the value of its denominator. -/
theorem ofToken?_of_rational (h : NumberForm.rational.Matches t) :
    ofToken? t = some (.rational (splitSign (numerator t)).1 (digitsOf (numerator t))
      (digitsOf (denominator t))) ∧
      decimal (denominator t) = natOfDigits (digitsOf (denominator t)) := by
  obtain ⟨n, hn⟩ := Option.isSome_iff_exists.1 (NumberForm.isSome_rational?_iff.2 h)
  obtain ⟨num, den, hbody, hnum, hden, rfl⟩ := rational?_eq_some hn
  obtain ⟨hsplit, rfl⟩ := splitSign_numerator hnum hbody
  have hdigits : digitsOf (numerator t) = ungroup num := by
    rw [← digitsOf_splitSign, hsplit, digitsOf_eq_ungroup hnum]
  constructor
  · rw [h.ofToken?_eq, hsplit, hdigits, digitsOf_eq_ungroup hden]
    exact hn
  · rw [decimal_eq_withSign, splitSign_of_isGrouped hden]
    rfl

/-- A fraction of natural numbers, with a sign, divided by their greatest common divisor. -/
theorem withSign_div_gcd (neg : Bool) (n : Nat) {d : Nat} (hd : d ≠ 0) :
    1 ≤ ((d / n.gcd d : Nat) : Int) ∧
      (withSign neg (n / n.gcd d)).gcd (d / n.gcd d : Nat) = 1 ∧
      withSign neg (n / n.gcd d) * d = withSign neg n * (d / n.gcd d : Nat) := by
  have hpos : 0 < n.gcd d := Nat.gcd_pos_of_pos_right n (Nat.pos_of_ne_zero hd)
  have hquot : 0 < d / n.gcd d := Nat.div_pos (Nat.gcd_le_right n (Nat.pos_of_ne_zero hd)) hpos
  refine ⟨by exact_mod_cast hquot, ?_, ?_⟩
  · have habs : (withSign neg (n / n.gcd d)).natAbs = n / n.gcd d := by
      cases neg with
      | true => exact Int.natAbs_neg _
      | false => rfl
    rw [Int.gcd, habs, Int.natAbs_natCast]
    exact Nat.gcd_div_gcd_div_gcd_of_pos_right (Nat.pos_of_ne_zero hd)
  · have hcross : n / n.gcd d * d = n * (d / n.gcd d) := by
      rw [Nat.div_mul_right_comm (Nat.gcd_dvd_left n d),
        Nat.mul_div_assoc _ (Nat.gcd_dvd_right n d)]
    have hcast : ((n / n.gcd d : Nat) : Int) * d = n * (d / n.gcd d : Nat) := by
      exact_mod_cast hcross
    rw [withSign_eq_mul, withSign_eq_mul, Int.mul_assoc, hcast, Int.mul_assoc]

/-- The numerator and the denominator of a token have no more digits than are read. -/
structure RatioInLimit (t : List Char) : Prop where
  numerator : (digitsOf (numerator t)).length ≤ maxDigits
  denominator : (digitsOf (denominator t)).length ≤ maxDigits

section Ratio

variable (h : NumberForm.rational.Matches t) (hlimit : RatioInLimit t)

include h hlimit

/-- The leaf of a rational token, in terms of the digits of its two parts. -/
theorem nameLeaf_eq_of_rational :
    nameLeaf t =
      let n := natOfDigits (digitsOf (numerator t))
      let d := natOfDigits (digitsOf (denominator t))
      if d = 0 then .error .zeroDenominator
      else .ok (.rational (withSign (splitSign (numerator t)).1 (n / n.gcd d))
        (d / n.gcd d : Nat)) := by
  rw [nameLeaf, (ofToken?_of_rational h).1]
  show toLeaf _ = _
  rw [toLeaf, digitsValue_of_length_le hlimit.numerator,
    digitsValue_of_length_le hlimit.denominator]
  simp only [bind, Except.bind]
  split_ifs
  · rfl
  · rfl

theorem nameLeaf_of_zero_denominator (hzero : decimal (denominator t) = 0) :
    nameLeaf t = .error .zeroDenominator := by
  rw [(ofToken?_of_rational h).2] at hzero
  rw [nameLeaf_eq_of_rational h hlimit]
  exact if_pos (by exact_mod_cast hzero)

/-- A rational token is read as the reduced fraction that it equals. -/
theorem exists_nameLeaf_of_rational (hzero : decimal (denominator t) ≠ 0) :
    ∃ n d : Int, nameLeaf t = .ok (.rational n d) ∧ 1 ≤ d ∧ n.gcd d = 1 ∧
      n * decimal (denominator t) = decimal (numerator t) * d := by
  have hden := (ofToken?_of_rational h).2
  rw [hden] at hzero ⊢
  have hd : natOfDigits (digitsOf (denominator t)) ≠ 0 := by exact_mod_cast hzero
  obtain ⟨hpos, hgcd, hcross⟩ :=
    withSign_div_gcd (splitSign (numerator t)).1 (natOfDigits (digitsOf (numerator t))) hd
  refine ⟨_, _, ?_, hpos, hgcd, ?_⟩
  · rw [nameLeaf_eq_of_rational h hlimit]
    exact if_neg hd
  · rw [hcross, decimal_eq_withSign]

/-- That fraction is the number that the token denotes, in lowest terms. -/
theorem nameLeaf_of_rational (hzero : decimal (denominator t) ≠ 0) :
    nameLeaf t = .ok (.rational (ratio t).num (ratio t).den) := by
  obtain ⟨n, d, hleaf, hd, hgcd, hcross⟩ := exists_nameLeaf_of_rational h hlimit hzero
  have hratio : ratio t = n / d := by
    have hd0 : (d : ℚ) ≠ 0 := by
      have : d ≠ 0 := by omega
      exact_mod_cast this
    rw [ratio, div_eq_div_iff (by exact_mod_cast hzero) hd0]
    exact_mod_cast hcross.symm
  rw [hleaf, hratio, Rat.num_div_eq_of_coprime (by omega) hgcd,
    Rat.den_div_eq_of_coprime (by omega) hgcd]

end Ratio

end Numeral

open Numeral

/-- Number tokens are read exactly. A token has one of the four forms at most, so they can be
tried in any order; an integer has the value of its digits; a rational is read as its value in
lowest terms unless its denominator is zero, so that two of them give the same leaf exactly if
they denote the same number. -/
theorem NumberForm.reads_exactly (t : List Char) :
    (∀ f : NumberForm, (f.read? t).isSome = true ↔ f.Matches t) ∧
      (∀ f g : NumberForm, f.Matches t → g.Matches t → f = g) ∧
      (∀ order : List NumberForm, order.Perm NumberForm.all →
        order.findSome? (fun f => f.read? t) = ofToken? t) ∧
      (NumberForm.integer.Matches t → (digitsOf t).length ≤ maxDigits →
        nameLeaf t = .ok (.int (decimal t))) ∧
      (NumberForm.rational.Matches t → RatioInLimit t →
        ((∃ fault, nameLeaf t = .error fault) ↔ decimal (denominator t) = 0) ∧
        (decimal (denominator t) = 0 → nameLeaf t = .error .zeroDenominator) ∧
        (decimal (denominator t) ≠ 0 → ∃ n d : Int, nameLeaf t = .ok (.rational n d) ∧
          1 ≤ d ∧ n.gcd d = 1 ∧ n * decimal (denominator t) = decimal (numerator t) * d) ∧
        ∀ t', NumberForm.rational.Matches t' → RatioInLimit t' →
          decimal (denominator t) ≠ 0 → decimal (denominator t') ≠ 0 →
          (nameLeaf t = nameLeaf t' ↔ ratio t = ratio t')) := by
  refine ⟨fun f => isSome_read?_iff, fun f g => eq_of_matches,
    fun order h => findSome?_of_perm h t, nameLeaf_of_integer, fun h hlimit => ?_⟩
  refine ⟨⟨?_, fun hzero => ⟨_, nameLeaf_of_zero_denominator h hlimit hzero⟩⟩,
    nameLeaf_of_zero_denominator h hlimit, exists_nameLeaf_of_rational h hlimit, ?_⟩
  · rintro ⟨fault, hfault⟩
    by_contra hzero
    obtain ⟨n, d, hleaf, -⟩ := exists_nameLeaf_of_rational h hlimit hzero
    rw [hleaf] at hfault
    cases hfault
  · intro t' h' hlimit' hzero hzero'
    rw [nameLeaf_of_rational h hlimit hzero, nameLeaf_of_rational h' hlimit' hzero']
    constructor
    · intro heq
      rw [Except.ok.injEq, Leaf.rational.injEq, Int.natCast_inj] at heq
      exact Rat.ext heq.1 heq.2
    · intro heq
      rw [heq]

/-- Two ways to write minus two thirds. -/
theorem NumberForm.reads_exactly_thirds :
    NumberForm.rational.Matches ['-', '1', '_', '2', '/', '1', '8'] ∧
      nameLeaf ['-', '1', '_', '2', '/', '1', '8'] = nameLeaf ['-', '4', '/', '0', '6'] := by
  have hleft : NumberForm.rational.Matches ['-', '1', '_', '2', '/', '1', '8'] := by decide
  have hright : NumberForm.rational.Matches ['-', '4', '/', '0', '6'] := by decide
  obtain ⟨-, -, -, hsame⟩ := (NumberForm.reads_exactly _).2.2.2.2 hleft ⟨by decide, by decide⟩
  refine ⟨hleft, (hsame _ hright ⟨by decide, by decide⟩ (by decide) (by decide)).2 ?_⟩
  have hvalues : decimal (numerator ['-', '1', '_', '2', '/', '1', '8']) = -12 ∧
      decimal (denominator ['-', '1', '_', '2', '/', '1', '8']) = 18 ∧
      decimal (numerator ['-', '4', '/', '0', '6']) = -4 ∧
      decimal (denominator ['-', '4', '/', '0', '6']) = 6 := by decide
  rw [ratio, ratio, hvalues.1, hvalues.2.1, hvalues.2.2.1, hvalues.2.2.2]
  norm_num

end Sexpr
