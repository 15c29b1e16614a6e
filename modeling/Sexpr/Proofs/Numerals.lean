/-
Number tokens.

* `Numeral.isNumeralChar_of_ofToken?` — the characters that number tokens are made of;
* `nameLeaf_int` — the text of an integer is read back as the integer;
* `nameLeaf_rational` — the text of a reduced rational is read back as the rational.
-/
import Mathlib.Algebra.Group.Nat.Defs
import Mathlib.Data.List.TakeDrop
import Mathlib.Data.List.TakeWhile
import Mathlib.Tactic.SplitIfs
import Sexpr.Reader.Lexeme

namespace Sexpr

/-! ### Pieces of tokens -/

section Span

variable {α : Type} {p : α → Bool}

theorem span_of_forall {l : List α} (h : ∀ x ∈ l, p x = true) : l.span p = (l, []) := by
  rw [List.span_eq_takeWhile_dropWhile, List.takeWhile_eq_self_iff.2 h,
    List.dropWhile_eq_nil_iff.2 h]

theorem span_append_cons {l r : List α} {x : α} (h : ∀ y ∈ l, p y = true) (hx : p x = false) :
    (l ++ x :: r).span p = (l, x :: r) := by
  rw [List.span_eq_takeWhile_dropWhile, List.takeWhile_append_of_pos h,
    List.dropWhile_append_of_pos h, List.takeWhile_cons_of_neg (by simp [hx]),
    List.dropWhile_cons_of_neg (by simp [hx]), List.append_nil]

theorem append_of_span {l a b : List α} (h : l.span p = (a, b)) : l = a ++ b := by
  rw [List.span_eq_takeWhile_dropWhile, Prod.mk.injEq] at h
  rw [← h.1, ← h.2, List.takeWhile_append_dropWhile]

theorem not_head_of_span {l a b : List α} {x : α} (h : l.span p = (a, x :: b)) : p x = false := by
  rw [List.span_eq_takeWhile_dropWhile, Prod.mk.injEq] at h
  have := List.head?_dropWhile_not p l
  rw [h.2, List.head?_cons] at this
  simpa using this

end Span

namespace Numeral

/-- The characters that number tokens are made of. -/
def isNumeralChar (c : Char) : Bool := c.isDigit || "_+-/%.eE".toList.contains c

theorem append_of_splitSign (token : List Char) :
    ∃ sign, token = sign ++ (splitSign token).2 ∧ ∀ c ∈ sign, isNumeralChar c = true := by
  unfold splitSign
  split
  · exact ⟨['-'], rfl, List.forall_mem_singleton.2 (by decide)⟩
  · exact ⟨['+'], rfl, List.forall_mem_singleton.2 (by decide)⟩
  · exact ⟨[], rfl, by simp⟩

theorem isNumeralChar_of_isGrouped {cs : List Char} (h : isGrouped cs = true) :
    ∀ c ∈ cs, isNumeralChar c = true := by
  intro c hc
  rw [isGrouped, Bool.and_eq_true, List.all_eq_true] at h
  have := h.1 c hc
  rw [Bool.or_eq_true, beq_iff_eq] at this
  rcases this with hd | rfl
  · simp [isNumeralChar, hd]
  · decide

theorem isDigit_of_mem_ungroup {cs : List Char} (h : isGrouped cs = true) :
    ∀ c ∈ ungroup cs, c.isDigit = true := by
  intro c hc
  rw [ungroup, List.mem_filter] at hc
  rw [isGrouped, Bool.and_eq_true, List.all_eq_true] at h
  have := h.1 c hc.1
  rw [Bool.or_eq_true, beq_iff_eq] at this
  rcases this with hd | rfl
  · exact hd
  · exact absurd hc.2 (by decide)

theorem isGrouped_of_isDigit {cs : List Char} (hne : cs ≠ []) (h : ∀ c ∈ cs, c.isDigit = true) :
    isGrouped cs = true := by
  rw [isGrouped, Bool.and_eq_true, Bool.and_eq_true, List.all_eq_true]
  refine ⟨fun c hc => by simp [h c hc], ?_, ?_⟩
  · rw [List.head?_eq_some_head hne]
    exact h _ (List.head_mem hne)
  · rw [List.getLast?_eq_some_getLast hne]
    exact h _ (List.getLast_mem hne)

theorem ungroup_of_isDigit {cs : List Char} (h : ∀ c ∈ cs, c.isDigit = true) :
    ungroup cs = cs := by
  rw [ungroup, List.filter_eq_self]
  intro c hc
  rw [decide_eq_true_eq]
  rintro rfl
  exact absurd (h _ hc) (by decide)

/-! ### The four forms -/

variable {token : List Char} {n : Numeral}

theorem integer?_eq_some :
    integer? token = some n ↔ isGrouped (splitSign token).2 = true ∧
      n = .integer (splitSign token).1 (ungroup (splitSign token).2) := by
  unfold integer?
  dsimp only
  split_ifs with h
  · simp [h, eq_comm]
  · simp [h]

theorem rational?_eq_some (h : rational? token = some n) :
    ∃ num den, (splitSign token).2 = num ++ '/' :: den ∧ isGrouped num = true ∧
      isGrouped den = true ∧ n = .rational (splitSign token).1 (ungroup num) (ungroup den) := by
  unfold rational? at h
  dsimp only at h
  split at h
  · next num den hspan =>
    split_ifs at h with hgrouped
    · rw [Bool.and_eq_true] at hgrouped
      cases h
      exact ⟨num, den, append_of_span hspan, hgrouped.1, hgrouped.2, rfl⟩
  · exact absurd h (by simp)

/-- A mantissa is digits with at most one point. -/
theorem isNumeralChar_of_split {cs whole part : List Char} {x : Char}
    (hspan : cs.span (· ≠ '.') = (whole, x :: part)) (hwhole : isGrouped whole = true)
    (hpart : part = [] ∨ isGrouped part = true) : ∀ c ∈ cs, isNumeralChar c = true := by
  have hx : x = '.' := by simpa using not_head_of_span hspan
  intro c hc
  rw [append_of_span hspan, List.mem_append, List.mem_cons] at hc
  rcases hc with hc | rfl | hc
  · exact isNumeralChar_of_isGrouped hwhole c hc
  · rw [hx]
    decide
  · rcases hpart with rfl | hpart
    · simp at hc
    · exact isNumeralChar_of_isGrouped hpart c hc

theorem percent?_eq_some (h : percent? token = some n) :
    (∃ number, (splitSign token).2 = number ++ ['%'] ∧ ∀ c ∈ number, isNumeralChar c = true) ∧
      ∃ neg whole part, n = .percent neg whole part := by
  unfold percent? at h
  dsimp only at h
  split at h
  · next number hspan =>
    split at h
    · next whole hwhole =>
      split_ifs at h with hgrouped
      · cases h
        refine ⟨⟨number, append_of_span hspan, ?_⟩, _, _, _, rfl⟩
        rw [append_of_span hwhole, List.append_nil]
        exact isNumeralChar_of_isGrouped hgrouped
    · next whole x part hwhole =>
      split_ifs at h with hgrouped
      · cases h
        rw [Bool.and_eq_true] at hgrouped
        exact ⟨⟨number, append_of_span hspan,
          isNumeralChar_of_split hwhole hgrouped.1 (.inr hgrouped.2)⟩, _, _, _, rfl⟩
  · exact absurd h (by simp)

theorem mantissa?_eq_some {cs : List Char} {m : List Char × List Char × Bool}
    (h : mantissa? cs = some m) :
    (∀ c ∈ cs, isNumeralChar c = true) ∧ (m.2.2 = true → '.' ∈ cs) := by
  unfold mantissa? at h
  split at h
  · next whole hspan =>
    split_ifs at h with hgrouped
    · cases h
      rw [append_of_span hspan, List.append_nil]
      exact ⟨isNumeralChar_of_isGrouped hgrouped, by simp⟩
  · next whole x part hspan =>
    split_ifs at h with hgrouped
    · rw [Bool.and_eq_true, Bool.or_eq_true, List.isEmpty_iff] at hgrouped
      refine ⟨isNumeralChar_of_split hspan hgrouped.1 hgrouped.2, fun _ => ?_⟩
      have hx : x = '.' := by simpa using not_head_of_span hspan
      rw [append_of_span hspan, hx]
      simp

/-- A real has a point or an exponent. -/
theorem real?_eq_some (h : real? token = some n) :
    ((∀ c ∈ (splitSign token).2, isNumeralChar c = true) ∧
      ∃ c ∈ (splitSign token).2, c = '.' ∨ c = 'e' ∨ c = 'E') ∧
      ∃ neg whole part eneg e, n = .real neg whole part eneg e := by
  unfold real? at h
  dsimp only at h
  split at h
  · next number hspan =>
    split at h
    · next whole part hm =>
      cases h
      obtain ⟨hall, hpoint⟩ := mantissa?_eq_some hm
      rw [append_of_span hspan, List.append_nil]
      exact ⟨⟨hall, '.', hpoint rfl, .inl rfl⟩, _, _, _, _, _, rfl⟩
    · exact absurd h (by simp)
  · next number x tail hspan =>
    have hx : x = 'e' ∨ x = 'E' := by
      have := not_head_of_span hspan
      grind
    split at h
    · next whole part point hm =>
      split_ifs at h with hplain
      · cases h
        obtain ⟨hall, -⟩ := mantissa?_eq_some hm
        obtain ⟨sign, htail, hsign⟩ := append_of_splitSign tail
        rw [isPlain, Bool.and_eq_true, List.all_eq_true] at hplain
        rw [append_of_span hspan]
        refine ⟨⟨fun c hc => ?_, x, by simp, .inr hx⟩, _, _, _, _, _, rfl⟩
        rw [htail, List.mem_append, List.mem_cons, List.mem_append] at hc
        rcases hc with hc | rfl | hc | hc
        · exact hall c hc
        · rcases hx with rfl | rfl
          · decide
          · decide
        · exact hsign c hc
        · simp [isNumeralChar, hplain.2 c hc]
    · exact absurd h (by simp)

theorem ofToken?_eq_some : ofToken? token = some n ↔
    rational? token = some n ∨ rational? token = none ∧ (percent? token = some n ∨
      percent? token = none ∧ (real? token = some n ∨
        real? token = none ∧ integer? token = some n)) := by
  simp only [ofToken?, Option.orElse_eq_orElse, Option.orElse_eq_or, Option.or_eq_some_iff]

/-- A number token is made of digits, signs, points, slashes and the like. -/
theorem isNumeralChar_of_ofToken? (h : ofToken? token = some n) :
    ∀ c ∈ token, isNumeralChar c = true := by
  obtain ⟨sign, htoken, hsign⟩ := append_of_splitSign token
  have hbody : ∀ c ∈ (splitSign token).2, isNumeralChar c = true := by
    rcases ofToken?_eq_some.1 h with h | ⟨-, h | ⟨-, h | ⟨-, h⟩⟩⟩
    · obtain ⟨num, den, hbody, hnum, hden, -⟩ := rational?_eq_some h
      intro c hc
      rw [hbody, List.mem_append, List.mem_cons] at hc
      rcases hc with hc | rfl | hc
      · exact isNumeralChar_of_isGrouped hnum c hc
      · decide
      · exact isNumeralChar_of_isGrouped hden c hc
    · obtain ⟨⟨number, hbody, hnumber⟩, -⟩ := percent?_eq_some h
      intro c hc
      rw [hbody, List.mem_append, List.mem_singleton] at hc
      rcases hc with hc | rfl
      · exact hnumber c hc
      · decide
    · exact (real?_eq_some h).1.1
    · exact isNumeralChar_of_isGrouped (integer?_eq_some.1 h).1
  intro c hc
  rw [htoken, List.mem_append] at hc
  rcases hc with hc | hc
  · exact hsign c hc
  · exact hbody c hc

theorem mem_of_mem_splitSign {c : Char} (h : c ∈ (splitSign token).2) : c ∈ token := by
  obtain ⟨sign, htoken, -⟩ := append_of_splitSign token
  rw [htoken]
  exact List.mem_append_right _ h

theorem rational?_eq_none (h : '/' ∉ token) : rational? token = none := by
  rw [Option.eq_none_iff_forall_ne_some]
  intro n hn
  obtain ⟨num, den, hbody, -⟩ := rational?_eq_some hn
  exact h (mem_of_mem_splitSign (by rw [hbody]; simp))

theorem percent?_eq_none (h : '%' ∉ token) : percent? token = none := by
  rw [Option.eq_none_iff_forall_ne_some]
  intro n hn
  obtain ⟨⟨number, hbody, -⟩, -⟩ := percent?_eq_some hn
  exact h (mem_of_mem_splitSign (by rw [hbody]; simp))

theorem real?_eq_none (hpoint : '.' ∉ token) (he : 'e' ∉ token) (hE : 'E' ∉ token) :
    real? token = none := by
  rw [Option.eq_none_iff_forall_ne_some]
  intro n hn
  obtain ⟨⟨-, c, hc, rfl | rfl | rfl⟩, -⟩ := real?_eq_some hn
  · exact hpoint (mem_of_mem_splitSign hc)
  · exact he (mem_of_mem_splitSign hc)
  · exact hE (mem_of_mem_splitSign hc)

/-! ### Canonical texts -/

/-- Digits after an optional minus sign. -/
def signed (neg : Bool) (ds : List Char) : List Char := if neg then '-' :: ds else ds

theorem splitSign_signed (neg : Bool) {ds : List Char} (h : ∀ c ∈ ds.head?, c.isDigit = true) :
    splitSign (signed neg ds) = (neg, ds) := by
  cases neg with
  | true => rfl
  | false =>
    show splitSign ds = _
    unfold splitSign
    split
    · exact absurd (h '-' (by simp)) (by decide)
    · exact absurd (h '+' (by simp)) (by decide)
    · rfl

theorem not_mem_signed {c : Char} (hminus : c ≠ '-') (neg : Bool) {ds : List Char} (h : c ∉ ds) :
    c ∉ signed neg ds := by
  cases neg with
  | true =>
    show c ∉ '-' :: ds
    rw [List.mem_cons, not_or]
    exact ⟨hminus, h⟩
  | false => exact h

theorem not_mem_of_isDigit {ds : List Char} {c : Char} (h : ∀ c ∈ ds, c.isDigit = true)
    (hc : c.isDigit = false) : c ∉ ds := fun hmem => by simp [h c hmem] at hc

theorem isDigit_of_mem_head? {ds : List Char} (h : ∀ c ∈ ds, c.isDigit = true) :
    ∀ c ∈ ds.head?, c.isDigit = true := fun c hc => h c (List.mem_of_mem_head? hc)

theorem ofToken?_signed (neg : Bool) {ds : List Char} (hne : ds ≠ [])
    (h : ∀ c ∈ ds, c.isDigit = true) : ofToken? (signed neg ds) = some (.integer neg ds) := by
  have hnot : ∀ {c : Char}, c ≠ '-' → c.isDigit = false → c ∉ signed neg ds :=
    fun hminus hc => not_mem_signed hminus neg (not_mem_of_isDigit h hc)
  refine ofToken?_eq_some.2 (.inr ⟨rational?_eq_none (hnot (by decide) (by decide)),
    .inr ⟨percent?_eq_none (hnot (by decide) (by decide)),
      .inr ⟨real?_eq_none (hnot (by decide) (by decide)) (hnot (by decide) (by decide))
        (hnot (by decide) (by decide)), ?_⟩⟩⟩)
  rw [integer?_eq_some, splitSign_signed neg (isDigit_of_mem_head? h)]
  exact ⟨isGrouped_of_isDigit hne h, by rw [ungroup_of_isDigit h]⟩

theorem ofToken?_ratio (neg : Bool) {num den : List Char} (hnum : num ≠ [])
    (hnumd : ∀ c ∈ num, c.isDigit = true) (hden : den ≠ []) (hdend : ∀ c ∈ den, c.isDigit = true) :
    ofToken? (signed neg (num ++ '/' :: den)) = some (.rational neg num den) := by
  refine ofToken?_eq_some.2 (.inl ?_)
  have hhead : ∀ c ∈ (num ++ '/' :: den).head?, c.isDigit = true := by
    intro c hc
    rw [List.head?_append, List.head?_eq_some_head hnum, Option.some_or] at hc
    exact hnumd c (by rw [← Option.some_inj.1 hc]; exact List.head_mem hnum)
  have hspan : (num ++ '/' :: den).span (· ≠ '/') = (num, '/' :: den) := by
    refine span_append_cons (fun c hc => ?_) (by decide)
    rw [decide_eq_true_eq]
    rintro rfl
    exact absurd (hnumd _ hc) (by decide)
  simp only [rational?, splitSign_signed neg hhead, hspan, isGrouped_of_isDigit hnum hnumd,
    isGrouped_of_isDigit hden hdend, ungroup_of_isDigit hnumd, ungroup_of_isDigit hdend,
    Bool.and_self, if_true]

theorem natOfDigits_toDigits (n : Nat) : natOfDigits (Nat.toDigits 10 n) = n :=
  Nat.ofDigitChars_ten_toDigits

theorem natOfDigits_lt {ds : List Char} (h : ∀ c ∈ ds, c.isDigit = true) :
    natOfDigits ds < 10 ^ ds.length := by
  induction ds with
  | nil => decide
  | cons c ds ih =>
    have hc : c.toNat - '0'.toNat < 10 := by
      have hdigit := Char.isDigit_iff_toNat.1 (h c (by simp))
      have hnine : '9'.toNat = '0'.toNat + 9 := rfl
      omega
    have hds := ih fun c hc => h c (by simp [hc])
    show Nat.ofDigitChars 10 (c :: ds) 0 < _
    rw [Nat.ofDigitChars_cons, Nat.ofDigitChars_eq_ofDigitChars_zero, List.length_cons,
      Nat.pow_succ]
    calc 10 ^ ds.length * (10 * 0 + (c.toNat - '0'.toNat)) + natOfDigits ds
        < 10 ^ ds.length * (10 * 0 + (c.toNat - '0'.toNat)) + 10 ^ ds.length := by omega
      _ = 10 ^ ds.length * ((c.toNat - '0'.toNat) + 1) := by
        rw [Nat.mul_zero, Nat.zero_add, Nat.mul_add, Nat.mul_one]
      _ ≤ 10 ^ ds.length * 10 := Nat.mul_le_mul_left _ hc

end Numeral

/-! ### Integers and rationals -/

open Numeral

theorem isDigit_of_mem_toDigits {n : Nat} : ∀ c ∈ Nat.toDigits 10 n, c.isDigit = true :=
  fun _ hc => Nat.isDigit_of_mem_toDigits (by decide) (by decide) hc

theorem toList_toString_int (n : Int) :
    (toString n).toList = signed (n < 0) (Nat.toDigits 10 n.natAbs) := by
  rw [Int.toString_eq_repr, Int.repr_eq_if]
  split_ifs with h
  · rw [Nat.toList_repr, signed, if_neg (by simpa using h), show n.toNat = n.natAbs by omega]
  · rw [String.toList_append, Nat.toList_repr, signed, if_pos (by simpa using h),
      show (-n).toNat = n.natAbs by omega]
    rfl

theorem withSign_natAbs (n : Int) : withSign (n < 0) n.natAbs = n := by
  unfold withSign
  split_ifs with h
  · rw [decide_eq_true_eq] at h
    omega
  · rw [decide_eq_true_eq] at h
    omega

theorem digitsValue_toDigits {n : Nat} (h : n < 10 ^ maxDigits) :
    digitsValue (Nat.toDigits 10 n) = .ok n := by
  have hlen : ¬maxDigits < (Nat.toDigits 10 n).length := by
    have := (Nat.length_toDigits_le_iff (b := 10) (by decide) (show 0 < maxDigits by decide)).2 h
    omega
  rw [digitsValue, boundedNat?, if_neg hlen, natOfDigits_toDigits]

/-- The text of an integer is read as the integer, if it is not too long to be read. -/
theorem nameLeaf_int {n : Int} (h : n.natAbs < 10 ^ maxDigits) :
    nameLeaf (Leaf.int n).text.toList = .ok (.int n) := by
  rw [Leaf.text, toList_toString_int, nameLeaf,
    ofToken?_signed _ Nat.toDigits_ne_nil isDigit_of_mem_toDigits]
  show Numeral.toLeaf _ = _
  rw [Numeral.toLeaf, digitsValue_toDigits h]
  show Except.ok (Leaf.int _) = _
  rw [withSign_natAbs]

/-- The text of a reduced rational is read as the rational. -/
theorem nameLeaf_rational {n : Int} {d : Nat} (hd : 0 < d) (hgcd : n.natAbs.gcd d = 1)
    (hn : n.natAbs < 10 ^ maxDigits) (hdb : d < 10 ^ maxDigits) :
    nameLeaf (Leaf.rational n d).text.toList = .ok (.rational n d) := by
  have htext : (Leaf.rational n d).text.toList =
      signed (n < 0) (Nat.toDigits 10 n.natAbs ++ '/' :: Nat.toDigits 10 d) := by
    rw [Leaf.text, String.toList_append, String.toList_append, toList_toString_int,
      toList_toString_int, Int.natAbs_natCast, signed, signed, signed]
    have hneg : ¬(decide ((d : Int) < 0) = true) := by simp
    rw [if_neg hneg]
    split_ifs
    · simp
    · simp
  rw [htext, nameLeaf, ofToken?_ratio _ Nat.toDigits_ne_nil isDigit_of_mem_toDigits
    Nat.toDigits_ne_nil isDigit_of_mem_toDigits]
  show Numeral.toLeaf _ = _
  rw [Numeral.toLeaf, digitsValue_toDigits hn, digitsValue_toDigits hdb]
  show (if d = 0 then _ else _ : Except ReadFault Leaf) = _
  rw [if_neg (by omega)]
  show Except.ok (Leaf.rational _ _) = _
  rw [hgcd, Nat.div_one, Nat.div_one, withSign_natAbs]

end Sexpr
