/-
The faults of a text.

Every text is read, or it has a fault of the grammar, or a conversion of digits in it fails.
Spans can always be cut, and the bounds on the steps are never reached. The three
conversions do fail: on a number with too many digits, and on the escape of a code point
whose digits have no value or too large a one.

* `Document.shownIn_of_parse` — the text shows its fault;
* `Document.parse_of_fault` — a token that cannot be read is the fault of its text;
* `Document.parse_ok_or_fault` — all outcomes of reading.
-/
import Sexpr.Proofs.Concatenation

namespace Sexpr

/-- A conversion of digits fails. -/
def ReadFault.isConversion : ReadFault → Bool
  | tooManyDigits _ | codePointValue _ | codePointHuge => true
  | _ => false

theorem ReadFault.ShownIn.isSyntax_or {e : ReadFault} {cs : List Char} (h : e.ShownIn cs) :
    e.isSyntax = true ∨ e.isConversion = true := by
  cases e with
  | tooManyDigits | codePointValue | codePointHuge => exact .inr rfl
  | _ => exact .inl h

/-- With or without spans, a text has the same fault. -/
theorem Document.parse_eq_error {src : String} {spans : Bool} {e : ReadFault} :
    Document.parse src spans = .error e ↔ Document.read src = .error e := by
  cases spans with
  | true => rfl
  | false =>
    show (Document.read src).map _ = _ ↔ _
    cases Document.read src with
    | ok d => simp [Except.map]
    | error e' => simp [Except.map]

/-- The text shows its fault. -/
theorem Document.shownIn_of_parse {src : String} {spans : Bool} {e : ReadFault}
    (h : Document.parse src spans = .error e) : e.ShownIn src.toList := by
  rw [Document.parse_eq_error] at h
  obtain ⟨g, r, hsplit, hg, -, hr⟩ := exists_layout false src.toList
  rw [← String.ofList_toList (s := src), hsplit, Document.read_append (hsplit ▸ hg)] at h
  have hread := Scan.continues_exprsUntilEnd hr (Nat.lt_succ_self _) (Nat.lt_succ_self _)
    g.reverse g.reverse (Pos.origin.forwardOver g) (Pos.origin.forwardOver g)
  split at h
  · cases h
  · next e' c hes =>
    cases h
    rw [hes] at hread
    cases hread with
    | error he _ =>
      rw [hsplit]
      exact he.mono (List.suffix_append g r).isInfix

/-! ### Tokens that cannot be read -/

/-- A text whose first expression cannot be read. -/
theorem Document.parse_of_fault {cs : List Char} {e : ReadFault} (spans : Bool)
    (hstart : isStart (cs.headD endMark) = true)
    (h : ∀ depth b p, ∃ c, Scan.exprOf (Scan.exprWithin depth) (cs.headD endMark)
      (Cursor.settled b cs p) = .error e c) :
    Document.parse (String.ofList cs) spans = .error e := by
  have hlayout := layoutLength_of_isStart hstart
  obtain ⟨c, hc⟩ := h cs.length [] Pos.origin
  rw [← Scan.exprWithin_eq_exprOf cs.length hlayout] at hc
  have hread := Document.read_append (g := []) hlayout
  rw [List.nil_append, List.reverse_nil, Pos.forwardOver_nil,
    Scan.exprsUntilEnd_of_ne _ (ne_of_isStart hstart isStart_endMark),
    EStateM.bind_of_error hc] at hread
  exact Document.parse_eq_error.2 hread

theorem stringToken_codePoint {ds r : List Char} {e : ReadFault} (hne : ds ≠ [])
    (hds : ∀ d ∈ ds, isCodePointDigit d = true) (h : charOfDigits ds = .error e) :
    (stringToken '"' ('"' :: (codePointEscape ds ++ r))).outcome = .error e := by
  have hescape : escape ('u' :: '{' :: (ds ++ '}' :: r)) = .fail (1 + (ds.length + 2)) e := by
    show (codePoint ('{' :: (ds ++ '}' :: r))).after 1 _ = _
    rw [codePoint_braces hne hds, h]
    rfl
  have hbody : stringBody '"' 0 (codePointEscape ds ++ r) =
      .fail (1 + (ds.length + 2) + 1) e := by
    rw [codePointEscape, List.cons_append, stringBody, if_neg (by decide), if_neg (by decide),
      if_pos rfl]
    simp only [List.cons_append, List.append_assoc, List.nil_append, hescape]
    rfl
  show ((stringBody '"' 0 (codePointEscape ds ++ r)).after 1 _).outcome = _
  rw [hbody]
  rfl

/-- A string with the escape of a code point that cannot be converted. -/
theorem Document.parse_codePoint {ds : List Char} {e : ReadFault} (spans : Bool) (hne : ds ≠ [])
    (hds : ∀ d ∈ ds, isCodePointDigit d = true) (h : charOfDigits ds = .error e) :
    Document.parse (String.ofList ('"' :: (codePointEscape ds ++ ['"']))) spans = .error e := by
  refine Document.parse_of_fault spans (isStart_of_mem (c := '"') (by decide)) fun depth b p => ?_
  exact ⟨_, EStateM.bind_of_error (Scan.lexeme_of_error (stringToken_codePoint hne hds h))⟩

/-- A number that cannot be converted. -/
theorem Document.parse_number {token : List Char} {num : Numeral} {e : ReadFault} (spans : Bool)
    (hnum : Numeral.ofToken? token = some num) (h : num.toLeaf = .error e) :
    Document.parse (String.ofList token) spans = .error e := by
  have htoken := isNameToken_of_ofToken? hnum
  have hleaf : nameLeaf token = .error e := by
    rw [nameLeaf, hnum]
    exact h
  refine Document.parse_of_fault spans htoken.isStart fun depth b p => ?_
  have hread : Scan.nameToken (Cursor.settled b token p) =
      .ok token ⟨b, token.reverse, [], p, p.forwardOver token⟩ := by
    have hadvance := Cursor.advance_append b [] token [] p p
    rw [List.append_nil, List.append_nil] at hadvance
    exact Scan.nameToken_eq_ok.2
      ⟨List.takeWhile_eq_self_iff.2 htoken.isNameChar, htoken.ne_nil, hadvance⟩
  have hspans := Scan.tokenSpans_append (g := []) (r := []) rfl b token.reverse p
    (p.forwardOver token)
  rw [List.append_nil] at hspans
  obtain ⟨x, t, rfl⟩ := List.exists_cons_of_ne_nil htoken.ne_nil
  rw [List.headD_cons, Scan.exprOf_name (htoken.isNameChar x (by simp)) (htoken.head_ne x rfl),
    Scan.name, EStateM.bind_of_ok hread, EStateM.bind_of_ok hspans, hleaf]
  exact ⟨_, rfl⟩

theorem digitsValue_of_long {ds : List Char} (h : Numeral.maxDigits < ds.length) :
    digitsValue ds = .error (.tooManyDigits ds.length) := by
  rw [digitsValue, Numeral.boundedNat?, if_pos h]

theorem Numeral.toLeaf_of_long {num : Numeral} {ds : List Char} (hds : ds ∈ num.digitRuns)
    (h : maxDigits < ds.length) : ∃ n, num.toLeaf = .error (.tooManyDigits n) := by
  cases num with
  | integer neg digits =>
    rw [digitRuns, List.mem_singleton] at hds
    subst hds
    exact ⟨_, by rw [toLeaf, digitsValue_of_long h]; rfl⟩
  | rational neg num den =>
    rw [digitRuns, List.mem_cons, List.mem_singleton] at hds
    by_cases hnum : maxDigits < num.length
    · exact ⟨_, by rw [toLeaf, digitsValue_of_long hnum]; rfl⟩
    · obtain rfl : ds = den := hds.resolve_left fun heq => hnum (heq ▸ h)
      have hvalue : digitsValue num = .ok (natOfDigits num) := by
        rw [digitsValue, boundedNat?, if_neg hnum]
      exact ⟨_, by rw [toLeaf, hvalue, digitsValue_of_long h]; rfl⟩
  | percent | real => exact absurd hds (by simp [digitRuns])

/-! ### All outcomes -/

/-- A text is read, or it has a fault of the grammar, or it shows a conversion of digits
that fails. Every number with too many digits and every code point whose digits have no
value, or too large a one, is such a fault of the text that holds nothing else. -/
theorem Document.parse_ok_or_fault (src : String) (spans : Bool) :
    ((∃ d, Document.parse src spans = .ok d) ∨
      ∃ e, Document.parse src spans = .error e ∧
        (e.isSyntax = true ∨ e.isConversion = true ∧ e.ShownIn src.toList)) ∧
    (∀ token num ds, Numeral.ofToken? token = some num → ds ∈ num.digitRuns →
      Numeral.maxDigits < ds.length →
      ∃ n, Document.parse (String.ofList token) spans = .error (.tooManyDigits n)) ∧
    ∀ ds, ds ≠ [] → (∀ d ∈ ds, isCodePointDigit d = true) →
      (hexOfDigits? ds = none →
        Document.parse (String.ofList ('"' :: (codePointEscape ds ++ ['"']))) spans =
          .error (.codePointValue (String.ofList ds))) ∧
      ∀ n, hexOfDigits? ds = some n → 0x7fffffff < n →
        Document.parse (String.ofList ('"' :: (codePointEscape ds ++ ['"']))) spans =
          .error .codePointHuge := by
  refine ⟨?_, fun token num ds hnum hds hlong => ?_, fun ds hne hds => ⟨fun hnone => ?_,
    fun n hn hhuge => ?_⟩⟩
  · cases hparse : Document.parse src spans with
    | ok d => exact .inl ⟨d, rfl⟩
    | error e =>
      have hshown := Document.shownIn_of_parse hparse
      exact .inr ⟨e, rfl, hshown.isSyntax_or.imp_right fun h => ⟨h, hshown⟩⟩
  · obtain ⟨n, hn⟩ := Numeral.toLeaf_of_long hds hlong
    exact ⟨n, Document.parse_number spans hnum hn⟩
  · exact Document.parse_codePoint spans hne hds (by rw [charOfDigits, hnone])
  · refine Document.parse_codePoint spans hne hds ?_
    rw [charOfDigits, hn]
    exact if_pos hhuge

/-- A superscript is a digit without a place value. -/
theorem Document.parse_ok_or_fault_superscript :
    isCodePointDigit '²' = true ∧ hexOfDigits? ['²'] = none ∧
      Document.parse (String.ofList ('"' :: (codePointEscape ['²'] ++ ['"']))) false =
        .error (.codePointValue "²") := by
  have hdigit : isCodePointDigit '²' = true := by decide
  have hnone : hexOfDigits? ['²'] = none := by decide
  exact ⟨hdigit, hnone, ((Document.parse_ok_or_fault "" false).2.2 ['²'] (by simp)
    (List.forall_mem_singleton.2 hdigit)).1 hnone⟩

/-- Not every fault is one of the grammar. -/
theorem Document.parse_superscript_not_syntax :
    Document.parse "\"\\u\x7b²\x7d\"" false = .error (.codePointValue "²") ∧
      (ReadFault.codePointValue "²").isSyntax = false := by
  decide +kernel

end Sexpr
