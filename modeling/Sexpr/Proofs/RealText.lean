/-
The text of a finite floating point number is read as the number.

Digits are laid out positionally or with an exponent. Each layout has the form of a real
token, whose decimal has the value of the digits at their place; so the token is read as
the number that the digits were found for.

* `Numeral.IsMantissa.ofToken?`, `Numeral.IsMantissa.ofToken?_exponent` — the forms of a
  laid out number;
* `Binary64.nameLeaf_layOut` — digits are read with the value they have at their place;
* `Binary64.nameLeaf_text` — the text of a finite number is read as the number.
-/
import Sexpr.Proofs.Numerals
import Sexpr.Proofs.ShortestDecimal

namespace Sexpr

namespace Numeral

/-! ### Tokens of reals -/

variable {whole part : List Char}

theorem mantissa?_digits (hne : whole ≠ []) (h : ∀ c ∈ whole, c.isDigit = true) :
    mantissa? whole = some (whole, [], false) := by
  have hspan : whole.span (· ≠ '.') = (whole, []) := by
    refine span_of_forall fun c hc => ?_
    rw [decide_eq_true_eq]
    rintro rfl
    exact absurd (h _ hc) (by decide)
  simp only [mantissa?, hspan, isGrouped_of_isDigit hne h, ungroup_of_isDigit h, if_true]

theorem mantissa?_point (hne : whole ≠ []) (h : ∀ c ∈ whole, c.isDigit = true)
    (hpne : part ≠ []) (hp : ∀ c ∈ part, c.isDigit = true) :
    mantissa? (whole ++ '.' :: part) = some (whole, part, true) := by
  have hspan : (whole ++ '.' :: part).span (· ≠ '.') = (whole, '.' :: part) := by
    refine span_append_cons (fun c hc => ?_) (by decide)
    rw [decide_eq_true_eq]
    rintro rfl
    exact absurd (h _ hc) (by decide)
  simp only [mantissa?, hspan, isGrouped_of_isDigit hne h, isGrouped_of_isDigit hpne hp,
    ungroup_of_isDigit h, ungroup_of_isDigit hp, Bool.or_true, Bool.and_self, if_true]

/-- A mantissa as it is laid out: it reads as its digits before and after the point, starts
with a digit and holds nothing but digits and the point. -/
structure IsMantissa (number whole part : List Char) (pointed : Bool) : Prop where
  reads : mantissa? number = some (whole, part, pointed)
  head : ∃ d rest, number = d :: rest ∧ d.isDigit = true
  chars : ∀ c ∈ number, c.isDigit = true ∨ c = '.'

theorem isMantissa_digits (hne : whole ≠ []) (h : ∀ c ∈ whole, c.isDigit = true) :
    IsMantissa whole whole [] false where
  reads := mantissa?_digits hne h
  head := by
    obtain ⟨d, rest, rfl⟩ := List.exists_cons_of_ne_nil hne
    exact ⟨d, rest, rfl, h d List.mem_cons_self⟩
  chars c hc := .inl (h c hc)

theorem isMantissa_point (hne : whole ≠ []) (h : ∀ c ∈ whole, c.isDigit = true)
    (hpne : part ≠ []) (hp : ∀ c ∈ part, c.isDigit = true) :
    IsMantissa (whole ++ '.' :: part) whole part true where
  reads := mantissa?_point hne h hpne hp
  head := by
    obtain ⟨d, rest, rfl⟩ := List.exists_cons_of_ne_nil hne
    exact ⟨d, rest ++ '.' :: part, rfl, h d List.mem_cons_self⟩
  chars c hc := by
    rw [List.mem_append, List.mem_cons] at hc
    rcases hc with hc | hc | hc
    · exact .inl (h c hc)
    · exact .inr hc
    · exact .inl (hp c hc)

section

variable {number exponent : List Char} {pointed : Bool}

theorem IsMantissa.not_mem (h : IsMantissa number whole part pointed) {c : Char}
    (hc : c.isDigit = false) (hpoint : c ≠ '.') : c ∉ number := by
  intro hmem
  rcases h.chars c hmem with hdigit | heq
  · simp [hdigit] at hc
  · exact hpoint heq

theorem IsMantissa.splitSign (h : IsMantissa number whole part pointed) (neg : Bool)
    (rest : List Char) : splitSign (signed neg (number ++ rest)) = (neg, number ++ rest) := by
  obtain ⟨d, number, rfl, hd⟩ := h.head
  refine splitSign_signed neg fun c hc => ?_
  rw [List.cons_append, List.head?_cons, Option.mem_some] at hc
  exact hc ▸ hd

theorem IsMantissa.forall_ne (h : IsMantissa number whole part pointed) :
    ∀ c ∈ number, (c ≠ 'e' && c ≠ 'E') = true := by
  intro c hc
  rw [Bool.and_eq_true, decide_eq_true_eq, decide_eq_true_eq]
  constructor
  · rintro rfl
    exact h.not_mem (by decide) (by decide) hc
  · rintro rfl
    exact h.not_mem (by decide) (by decide) hc

theorem ofToken?_of_real? {token : List Char} {n : Numeral} (h : real? token = some n)
    (hslash : '/' ∉ token) (hpercent : '%' ∉ token) : ofToken? token = some n :=
  ofToken?_eq_some.2
    (.inr ⟨rational?_eq_none hslash, .inr ⟨percent?_eq_none hpercent, .inl h⟩⟩)

/-- A mantissa with a point is a real. -/
theorem IsMantissa.ofToken? (h : IsMantissa number whole part true) (neg : Bool) :
    ofToken? (signed neg number) = some (.real neg whole part false []) := by
  have hsign := h.splitSign neg []
  rw [List.append_nil] at hsign
  refine ofToken?_of_real? ?_ (not_mem_signed (by decide) neg (h.not_mem (by decide) (by decide)))
    (not_mem_signed (by decide) neg (h.not_mem (by decide) (by decide)))
  simp only [real?, hsign, span_of_forall h.forall_ne, h.reads]

/-- A mantissa with an exponent is a real. -/
theorem IsMantissa.ofToken?_exponent (h : IsMantissa number whole part pointed) (neg eneg : Bool)
    (hne : exponent ≠ []) (hdigits : ∀ c ∈ exponent, c.isDigit = true) :
    Numeral.ofToken? (signed neg (number ++ 'e' :: (if eneg then '-' else '+') :: exponent)) =
      some (.real neg whole part eneg exponent) := by
  have hnot : ∀ {c : Char}, c ∉ ['.', 'e', '+', '-'] → c.isDigit = false →
      c ∉ signed neg (number ++ 'e' :: (if eneg then '-' else '+') :: exponent) := by
    intro c hc hdigit
    have hnumber := h.not_mem hdigit (by rintro rfl; simp at hc)
    have hexponent := not_mem_of_isDigit hdigits hdigit
    refine not_mem_signed (by rintro rfl; simp at hc) neg ?_
    cases eneg
    · simp_all
    · simp_all
  have htail : Numeral.splitSign ((if eneg then '-' else '+') :: exponent) = (eneg, exponent) := by
    cases eneg
    · rfl
    · rfl
  have hplain : isPlain exponent = true := by
    rw [isPlain, Bool.and_eq_true, List.all_eq_true]
    exact ⟨by simpa using hne, hdigits⟩
  refine ofToken?_of_real? ?_ (hnot (by decide) (by decide)) (hnot (by decide) (by decide))
  simp only [real?, h.splitSign, span_append_cons h.forall_ne (x := 'e') (by decide), htail,
    h.reads, hplain, if_true]

end

/-! ### The value of digits at a place -/

theorem natOfDigits_append (ds es : List Char) :
    natOfDigits (ds ++ es) = natOfDigits ds * 10 ^ es.length + natOfDigits es := by
  show Nat.ofDigitChars 10 (ds ++ es) 0 = _
  rw [Nat.ofDigitChars_append, Nat.ofDigitChars_eq_ofDigitChars_zero, Nat.mul_comm]
  rfl

theorem natOfDigits_zeros (k : Nat) : natOfDigits (List.replicate k '0') = 0 := by
  induction k with
  | zero => rfl
  | succ k ih =>
    rw [List.replicate_succ, ← List.singleton_append, natOfDigits_append, ih,
      show natOfDigits ['0'] = 0 from rfl, Nat.zero_mul]

theorem natOfDigits_append_zeros (ds : List Char) (k : Nat) :
    natOfDigits (ds ++ List.replicate k '0') = natOfDigits ds * 10 ^ k := by
  rw [natOfDigits_append, natOfDigits_zeros, List.length_replicate, Nat.add_zero]

theorem natOfDigits_zeros_append (ds : List Char) (k : Nat) :
    natOfDigits (List.replicate k '0' ++ ds) = natOfDigits ds := by
  rw [natOfDigits_append, natOfDigits_zeros, Nat.zero_mul, Nat.zero_add]

end Numeral

namespace Binary64

open Numeral

/-- The number that a decimal reads as, with a sign. -/
def Decimal.nearest (neg : Bool) (d : Decimal) : Binary64 :=
  .number neg ⟨d.code, Nat.lt_succ_of_le d.code_le⟩

theorem Decimal.nearest_congr (neg : Bool) {d d' : Decimal} (h : d.value = d'.value) :
    d.nearest neg = d'.nearest neg := by
  simp only [Decimal.nearest, Decimal.code_congr h]

theorem Decimal.value_mul_pow (n k : Nat) (e : Int) :
    Decimal.value ⟨n * 10 ^ k, e⟩ = Decimal.value ⟨n, e + k⟩ := by
  simp only [Decimal.value]
  rw [zpow_add₀ (by norm_num), zpow_natCast]
  push_cast
  ring

theorem nameLeaf_of_isMantissa {number whole part : List Char} {d : Decimal} (neg : Bool)
    (h : IsMantissa number whole part true)
    (hvalue : Decimal.value ⟨natOfDigits (whole ++ part), -part.length⟩ = d.value) :
    nameLeaf (signed neg number) = .ok (.real (d.nearest neg)) := by
  rw [nameLeaf, h.ofToken?, ← Decimal.nearest_congr neg hvalue, ← Int.zero_sub]
  rfl

theorem nameLeaf_of_exponent {number whole part exponent : List Char} {pointed : Bool}
    {d : Decimal} (neg eneg : Bool) (h : IsMantissa number whole part pointed) (hne : exponent ≠ [])
    (hdigits : ∀ c ∈ exponent, c.isDigit = true)
    (hvalue : Decimal.value
      ⟨natOfDigits (whole ++ part), withSign eneg (natOfDigits exponent) - part.length⟩ = d.value) :
    nameLeaf (signed neg (number ++ 'e' :: (if eneg then '-' else '+') :: exponent)) =
      .ok (.real (d.nearest neg)) := by
  rw [nameLeaf, h.ofToken?_exponent neg eneg hne hdigits, ← Decimal.nearest_congr neg hvalue]
  rfl

theorem isDigit_zero : ∀ c ∈ ['0'], c.isDigit = true := List.forall_mem_singleton.2 (by decide)

theorem isDigit_zeros {k : Nat} : ∀ c ∈ List.replicate k '0', c.isDigit = true := by
  intro c hc
  rw [List.eq_of_mem_replicate hc]
  decide

theorem forall_isDigit_append {ds es : List Char} (hds : ∀ c ∈ ds, c.isDigit = true)
    (hes : ∀ c ∈ es, c.isDigit = true) : ∀ c ∈ ds ++ es, c.isDigit = true := by
  intro c hc
  rcases List.mem_append.1 hc with hc | hc
  · exact hds c hc
  · exact hes c hc

theorem value_congr {n m : Nat} {e f : Int} (hn : n = m) (he : e = f) :
    Decimal.value ⟨n, e⟩ = Decimal.value ⟨m, f⟩ := by rw [hn, he]

/-- Digits with zeros between them and the point. -/
theorem nameLeaf_fraction (neg : Bool) {ds : List Char} (hne : ds ≠ [])
    (hdigits : ∀ c ∈ ds, c.isDigit = true) {p : Int} (hp : p < 0) :
    nameLeaf (signed neg ('0' :: '.' :: (List.replicate (-p - 1).toNat '0' ++ ds))) =
      .ok (.real (Decimal.nearest neg ⟨natOfDigits ds, p + 1 - ds.length⟩)) := by
  have hm := isMantissa_point (List.cons_ne_nil '0' []) isDigit_zero
    (List.append_ne_nil_of_right_ne_nil (List.replicate (-p - 1).toNat '0') hne)
    (forall_isDigit_append isDigit_zeros hdigits)
  refine nameLeaf_of_isMantissa neg hm (value_congr ?_ ?_)
  · rw [natOfDigits_append, natOfDigits_zeros_append, show natOfDigits ['0'] = 0 from rfl,
      Nat.zero_mul, Nat.zero_add]
  · rw [List.length_append, List.length_replicate]
    omega

/-- Digits that end before the point, with zeros up to it. -/
theorem nameLeaf_whole (neg : Bool) {ds : List Char} (hne : ds ≠ [])
    (hdigits : ∀ c ∈ ds, c.isDigit = true) {p : Nat} (hlen : ds.length ≤ p + 1) :
    nameLeaf (signed neg (ds ++ List.replicate (p + 1 - ds.length) '0' ++ ['.', '0'])) =
      .ok (.real (Decimal.nearest neg ⟨natOfDigits ds, p + 1 - ds.length⟩)) := by
  have hm := isMantissa_point (List.append_ne_nil_of_left_ne_nil hne
    (List.replicate (p + 1 - ds.length) '0')) (forall_isDigit_append hdigits isDigit_zeros)
    (List.cons_ne_nil '0' []) isDigit_zero
  refine nameLeaf_of_isMantissa neg hm ?_
  -- the zero after the point is one more zero at the end
  rw [List.append_assoc, ← List.replicate_succ', natOfDigits_append_zeros, Decimal.value_mul_pow]
  apply value_congr rfl
  rw [List.length_singleton]
  omega

/-- Digits with the point among them. -/
theorem nameLeaf_split (neg : Bool) {ds : List Char} (hdigits : ∀ c ∈ ds, c.isDigit = true)
    {p : Nat} (hlen : p + 1 < ds.length) :
    nameLeaf (signed neg (ds.take (p + 1) ++ '.' :: ds.drop (p + 1))) =
      .ok (.real (Decimal.nearest neg ⟨natOfDigits ds, p + 1 - ds.length⟩)) := by
  have htake : ds.take (p + 1) ≠ [] := by
    rw [← List.length_pos_iff, List.length_take]
    omega
  have hdrop : ds.drop (p + 1) ≠ [] := by
    rw [Ne, List.drop_eq_nil_iff]
    omega
  have hm := isMantissa_point htake (fun c hc => hdigits c (List.mem_of_mem_take hc)) hdrop
    (fun c hc => hdigits c (List.mem_of_mem_drop hc))
  refine nameLeaf_of_isMantissa neg hm ?_
  rw [List.take_append_drop, List.length_drop]
  apply value_congr rfl
  omega

/-- Digits with the point after the first one, if there are more, and an exponent. -/
theorem nameLeaf_scientific (neg : Bool) {d : Char} {rest : List Char} {number : List Char}
    (hnumber : number = if rest = [] then [d] else d :: '.' :: rest)
    (hdigits : ∀ c ∈ d :: rest, c.isDigit = true) (p : Int) (width : Nat) :
    nameLeaf (signed neg (number ++ 'e' :: (if p < 0 then '-' else '+') ::
        (List.replicate width '0' ++ Nat.toDigits 10 p.natAbs))) =
      .ok (.real (Decimal.nearest neg ⟨natOfDigits (d :: rest), p - rest.length⟩)) := by
  have hm : IsMantissa number [d] rest (decide (rest ≠ [])) := by
    have hd : ∀ c ∈ [d], c.isDigit = true := fun c hc => hdigits c (by simp_all)
    subst hnumber
    split
    case isTrue h =>
      subst h
      exact isMantissa_digits (List.cons_ne_nil d []) hd
    case isFalse h =>
      rw [decide_eq_true h]
      exact isMantissa_point (List.cons_ne_nil d []) hd h fun c hc => hdigits c (by simp [hc])
  have hexponent := nameLeaf_of_exponent neg (decide (p < 0)) hm
    (List.append_ne_nil_of_right_ne_nil (List.replicate width '0')
      (Nat.toDigits_ne_nil (b := 10) (n := p.natAbs)))
    (forall_isDigit_append isDigit_zeros isDigit_of_mem_toDigits) (value_congr rfl rfl)
  rw [natOfDigits_zeros_append, natOfDigits_toDigits, withSign_natAbs] at hexponent
  simpa using hexponent

/-- Laid out digits are read with the value that they have at their place. -/
theorem nameLeaf_layOut (l : DecimalLayout) (neg : Bool) {ds : List Char} (hne : ds ≠ [])
    (hdigits : ∀ c ∈ ds, c.isDigit = true) (p : Int) :
    nameLeaf (signed neg (layOut l ds p).toList) =
      .ok (.real (Decimal.nearest neg ⟨natOfDigits ds, p + 1 - ds.length⟩)) := by
  unfold layOut
  split
  · split
    case isTrue hp =>
      rw [← nameLeaf_fraction neg hne hdigits hp]
      simp
    case isFalse hp =>
      obtain ⟨p, rfl⟩ : ∃ k : Nat, p = k := ⟨p.toNat, by omega⟩
      dsimp only
      rw [Int.toNat_natCast]
      by_cases hlen : ds.length ≤ p + 1
      · rw [← nameLeaf_whole neg hne hdigits hlen, List.take_of_length_le hlen,
          List.drop_eq_nil_of_le hlen]
        simp
      · have hdrop : ds.drop (p + 1) ≠ [] := by
          rw [Ne, List.drop_eq_nil_iff]
          exact hlen
        rw [← nameLeaf_split neg hdigits (not_le.1 hlen), List.length_take_of_le (by omega)]
        simp [hdrop]
  · obtain ⟨d, rest, rfl⟩ := List.exists_cons_of_ne_nil hne
    have hscientific := nameLeaf_scientific neg rfl hdigits p
      (l.exponentWidth - (Nat.toDigits 10 p.natAbs).length)
    rw [List.length_cons, show p + 1 - ((rest.length + 1 : Nat) : Int) = p - rest.length by
      push_cast; ring, ← hscientific]
    cases rest with
    | nil => by_cases hp : p < 0 <;> simp [hp]
    | cons d' rest => by_cases hp : p < 0 <;> simp [hp]

/-! ### The text of a number -/

/-- Zeros at the end of a digit string are the only ones that are dropped. -/
theorem exists_trimZeros {ds : List Char} (h : natOfDigits ds ≠ 0) :
    ∃ k, ds = trimZeros ds ++ List.replicate k '0' ∧ trimZeros ds ≠ [] := by
  have hzeros : ∀ c ∈ ds.reverse.takeWhile (· = '0'), c = '0' := by
    intro c hc
    simpa using List.mem_takeWhile_imp hc
  have hsplit : ds = (ds.reverse.dropWhile (· = '0')).reverse ++
      List.replicate (ds.reverse.takeWhile (· = '0')).length '0' := by
    calc ds = ds.reverse.reverse := (List.reverse_reverse ds).symm
      _ = (ds.reverse.takeWhile (· = '0') ++ ds.reverse.dropWhile (· = '0')).reverse := by
        rw [List.takeWhile_append_dropWhile]
      _ = (ds.reverse.dropWhile (· = '0')).reverse ++
          (List.replicate (ds.reverse.takeWhile (· = '0')).length '0').reverse := by
        rw [List.reverse_append, ← List.eq_replicate_of_mem hzeros]
      _ = _ := by rw [List.reverse_replicate]
  unfold trimZeros
  split
  · next hnil =>
    refine absurd ?_ h
    rw [hsplit, hnil, List.nil_append, natOfDigits_zeros]
  · next hne => exact ⟨_, hsplit, by simpa using hne⟩

/-- Dropping zeros at the end keeps the value of digits at their place. -/
theorem value_trimZeros {ds : List Char} (h : natOfDigits ds ≠ 0) (e : Int) :
    Decimal.value ⟨natOfDigits (trimZeros ds), ds.length - 1 + e + 1 - (trimZeros ds).length⟩ =
      Decimal.value ⟨natOfDigits ds, e⟩ := by
  obtain ⟨k, hds, -⟩ := exists_trimZeros h
  generalize trimZeros ds = ts at *
  subst hds
  rw [natOfDigits_append_zeros, Decimal.value_mul_pow, List.length_append, List.length_replicate]
  apply value_congr rfl
  push_cast
  ring

theorem Decimal.nearest_eq (neg : Bool) {d : Decimal} {code : Fin (infinityCode + 1)}
    (h : d.code = code) : d.nearest neg = .number neg code := by
  simp only [Decimal.nearest, h]

/-- The text of a finite number is read as the number. -/
theorem nameLeaf_text (neg : Bool) {code : Fin (infinityCode + 1)} (h : code.val ≠ infinityCode) :
    nameLeaf (Binary64.number neg code).text.toList = .ok (.real (.number neg code)) := by
  have hsign : ∀ s : String,
      ((if neg then "-" else "") ++ s).toList = signed neg s.toList := by
    intro s
    cases neg
    · simp [signed]
    · simp [signed]
  rw [text]
  dsimp only
  rw [if_neg h, hsign]
  split
  case isTrue hzero =>
    have hcode : Decimal.code ⟨0, -1⟩ = code := hzero.symm
    rw [← Decimal.nearest_eq neg hcode]
    exact nameLeaf_of_isMantissa neg (isMantissa_point (List.cons_ne_nil '0' []) isDigit_zero
      (List.cons_ne_nil '0' []) isDigit_zero) rfl
  case isFalse hzero =>
    have hpos : 0 < code.val := Nat.pos_of_ne_zero hzero
    have hfinite : code.val < infinityCode := by omega
    have hnat := natOfDigits_toDigits (digits code).digits
    have hne : natOfDigits (Nat.toDigits 10 (digits code).digits) ≠ 0 := by
      rw [hnat]
      exact (digits_digits_pos hpos hfinite).ne'
    obtain ⟨k, hds, htrim⟩ := exists_trimZeros hne
    have hdigit : ∀ c ∈ trimZeros (Nat.toDigits 10 (digits code).digits), c.isDigit = true := by
      intro c hc
      apply isDigit_of_mem_toDigits c
      rw [hds]
      exact List.mem_append_left _ hc
    have hvalue := value_trimZeros hne (digits code).exponent
    rw [hnat] at hvalue
    rw [nameLeaf_layOut standardLayout neg htrim hdigit, Decimal.nearest_congr neg hvalue,
      Decimal.nearest_eq neg (code_digits hpos hfinite)]

end Binary64

end Sexpr
