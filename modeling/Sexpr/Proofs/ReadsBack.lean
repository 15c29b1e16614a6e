/-
Expressions that read back.

The canonical text of a leaf need not be read as the leaf again: the text of a number
is read as part of a key when it is one, and a real number depends on its digits. Where
neither is in the way, all that was read can be read again.

* `Leaf.ReadsBack` — leaves that their text is read as;
* `Expr.ReadsBack` — expressions whose leaves and keys do;
* `Expr.Readable.readsBack` — which of the expressions that were read are such.
-/
import Sexpr.Proofs.Readable

namespace Sexpr

/-! ### Leaves -/

/-- A leaf that its text is read as. -/
def Leaf.ReadsBack (l : Leaf) : Prop :=
  (∃ s, l = .string s) ∨ IsNameToken l.text.toList ∧ nameLeaf l.text.toList = .ok l

theorem isNameChar_of_isNumeralChar {c : Char} (h : Numeral.isNumeralChar c = true) :
    isNameChar c = true ∧ c ≠ '\'' ∧ c ≠ '#' := by
  have hmem : c.toNat ∈ List.range 128 := by
    rw [Numeral.isNumeralChar, Bool.or_eq_true, List.contains_iff_mem] at h
    rcases h with hdigit | hsign
    · have : c.toNat ≤ 57 := (Char.isDigit_iff_toNat.1 hdigit).2
      rw [List.mem_range]
      omega
    · have hall : "_+-/%.eE".toList.all (·.toNat < 128) = true := by decide
      rw [List.mem_range]
      simpa using List.all_eq_true.1 hall c hsign
  -- the characters of numbers are ASCII, so a check of the first 128 code points is enough
  have hall : ∀ n ∈ List.range 128, Numeral.isNumeralChar (Char.ofNat n) = true →
      isNameChar (Char.ofNat n) = true ∧ Char.ofNat n ≠ '\'' ∧ Char.ofNat n ≠ '#' := by
    decide +kernel
  have hc := hall c.toNat hmem
  rw [Char.ofNat_toNat] at hc
  exact hc h

/-- A number is read off a name token. -/
theorem isNameToken_of_ofToken? {token : List Char} {n : Numeral}
    (h : Numeral.ofToken? token = some n) : IsNameToken token := by
  have hall : ∀ c ∈ token, isNameChar c = true ∧ c ≠ '\'' ∧ c ≠ '#' := fun c hc =>
    isNameChar_of_isNumeralChar (Numeral.isNumeralChar_of_ofToken? h c hc)
  refine ⟨?_, fun c hc => (hall c hc).1, fun c hc => (hall c (List.mem_of_mem_head? hc)).2⟩
  rintro rfl
  rw [show Numeral.ofToken? [] = none by decide] at h
  exact absurd h (by simp)

/-- A number that its text is read as. -/
theorem Leaf.readsBack_of_nameLeaf {l : Leaf} (hl : l.isNumber = true)
    (h : nameLeaf l.text.toList = .ok l) : l.ReadsBack := by
  refine .inr ⟨?_, h⟩
  unfold nameLeaf at h
  split at h
  · next n hn => exact isNameToken_of_ofToken? hn
  · rw [← Except.ok.inj h] at hl
    exact absurd hl (by simp [Leaf.isNumber])

theorem Leaf.Readable.readsBack {l : Leaf} (h : l.Readable)
    (hreal : ∀ r, l = .real r → nameLeaf l.text.toList = .ok l) : l.ReadsBack := by
  cases l with
  | atom name =>
    refine .inr ⟨h.1, ?_⟩
    rw [Leaf.text, nameLeaf, h.2]
    simp
  | string s => exact .inl ⟨s, rfl⟩
  | int n => exact readsBack_of_nameLeaf rfl (nameLeaf_int h)
  | real r => exact readsBack_of_nameLeaf rfl (hreal r rfl)
  | rational num den =>
    obtain ⟨d, rfl, hpos, hgcd, hnum, hden⟩ := h
    exact readsBack_of_nameLeaf rfl (nameLeaf_rational hpos hgcd hnum hden)

/-! ### Expressions -/

/-- Whether an expression is a name or a number. -/
def Expr.isName : Expr → Bool
  | .leaf (.string _) _ => false
  | .leaf _ _ => true
  | _ => false

theorem Expr.isName_of_isNameToken {l : Leaf} (h : IsNameToken l.text.toList)
    (span : Option TokenSpans) : (Expr.leaf l span).isName = true := by
  cases l with
  | string s =>
    have hquote := h.isNameChar '"' (by simp [Leaf.text, quoteString])
    exact absurd hquote (by simp [isNameChar_of_mem_signs (c := '"') (by decide)])
  | _ => rfl

/-- An expression that each of its texts is read as. A key that is a name or a number is
read together with its colon, so it has to be an atom. -/
inductive Expr.ReadsBack : Expr → Prop
  | leaf {l : Leaf} {span : Option TokenSpans} (h : l.ReadsBack) : ReadsBack (.leaf l span)
  | items {enclosure : Enclosure} {values : List Expr} {spans : BracketSpans}
      (h : ∀ v ∈ values, ReadsBack v) : ReadsBack (.items enclosure values spans)
  | map {fields : List Field} {spans : BracketSpans}
      (hnames : ∀ f ∈ fields, f.key.IsKeyAtom ∨ f.key.isName = false)
      (hkeys : ∀ f ∈ fields, f.key.isName = false → ReadsBack f.key)
      (hvalues : ∀ f ∈ fields, ReadsBack f.value) : ReadsBack (.map fields spans)

/-- What reads back could have been read. -/
theorem Expr.ReadsBack.readable {e : Expr} (h : e.ReadsBack) : e.Readable := by
  induction e using Expr.induction with
  | leaf l span =>
    cases h with
    | leaf h =>
      rcases h with ⟨s, rfl⟩ | ⟨htoken, hl⟩
      · exact .leaf trivial
      · exact .leaf (readable_of_nameLeaf htoken hl)
  | items enclosure values spans ih =>
    cases h with
    | items h => exact .items fun v hv => ih v hv (h v hv)
  | map fields spans ih =>
    cases h with
    | map hnames hkeys hvalues =>
      refine .map (fun f hf hatom => ?_) fun f hf => (ih f hf).2 (hvalues f hf)
      exact (ih f hf).1 (hkeys f hf ((hnames f hf).resolve_left hatom))
  | bare mark => cases h

theorem Expr.Readable.hasBare {e : Expr} (h : e.Readable) : e.hasBare = false := by
  induction e using Expr.induction with
  | leaf l span => rfl
  | items enclosure values spans ih =>
    cases h with
    | items h =>
      rw [Expr.hasBare, Expr.anyHasBare_eq_any, List.any_eq_false]
      intro v hv
      simp [ih v hv (h v hv)]
  | map fields spans ih =>
    cases h with
    | map hkeys hvalues =>
      rw [Expr.hasBare, Field.anyHasBare_eq_any, List.any_eq_false]
      intro f hf
      have hkey : f.key.hasBare = false := by
        by_cases hatom : f.key.IsKeyAtom
        · obtain ⟨name, span, hleaf, -⟩ := hatom
          rw [hleaf, Expr.hasBare]
        · exact (ih f hf).1 (hkeys f hf hatom)
      simp [hkey, (ih f hf).2 (hvalues f hf)]
  | bare mark => cases h

theorem Expr.ReadsBack.hasBare {e : Expr} (h : e.ReadsBack) : e.hasBare = false :=
  h.readable.hasBare

/-- A leaf of such an expression is a string, or its text is one of names and numbers. -/
theorem Expr.ReadsBack.leaf_of_mem {e : Expr} (h : e.ReadsBack) :
    ∀ l ∈ e.leaves, (∃ s, l = .string s) ∨ ∀ c ∈ l.text.toList, isNameChar c = true := by
  induction e using Expr.induction with
  | leaf l span =>
    cases h with
    | leaf h =>
      rw [Expr.leaves, List.forall_mem_singleton]
      exact h.imp_right fun h => h.1.isNameChar
  | items enclosure values spans ih =>
    cases h with
    | items h =>
      intro l hl
      obtain ⟨v, hv, hl⟩ := Expr.mem_leavesAll.1 hl
      exact ih v hv (h v hv) l hl
  | map fields spans ih =>
    cases h with
    | map hnames hkeys hvalues =>
      intro l hl
      obtain ⟨f, hf, hl | hl⟩ := Field.mem_leavesAll.1 hl
      · rcases hnames f hf with ⟨name, span, hatom, htoken⟩ | hname
        · rw [hatom, Expr.leaves, List.mem_singleton] at hl
          subst hl
          exact .inr fun c hc => htoken.isNameChar c (List.mem_append_left _ hc)
        · exact (ih f hf).1 (hkeys f hf hname) l hl
      · exact (ih f hf).2 (hvalues f hf) l hl
  | bare mark => cases h

/-- A key that can be read is an atom, a number, or no name at all. -/
theorem Expr.Readable.isKeyAtom_or {k : Expr} (h : ¬k.IsKeyAtom → k.Readable)
    (hnumber : k.isNumber = false) : k.IsKeyAtom ∨ k.isName = false := by
  by_cases hatom : k.IsKeyAtom
  · exact .inl hatom
  · refine .inr ?_
    cases h hatom with
    | @leaf l span hl =>
      cases l with
      | atom name => exact absurd ⟨name, span, rfl, hl.1.append_colon⟩ hatom
      | string s => rfl
      | int n => exact absurd hnumber (by simp [Expr.isNumber, Leaf.isNumber])
      | real r => exact absurd hnumber (by simp [Expr.isNumber, Leaf.isNumber])
      | rational num den => exact absurd hnumber (by simp [Expr.isNumber, Leaf.isNumber])
    | items h => rfl
    | map hkeys hvalues => rfl

/-- What the reader gives reads back, if no key is a number and all real numbers do. -/
theorem Expr.Readable.readsBack {e : Expr} (h : e.Readable)
    (hkeys : ∀ k ∈ e.keys, k.isNumber = false)
    (hreals : ∀ r, .real r ∈ e.leaves → nameLeaf (Leaf.real r).text.toList = .ok (.real r)) :
    e.ReadsBack := by
  induction e using Expr.induction with
  | leaf l span =>
    cases h with
    | leaf h =>
      refine .leaf (h.readsBack ?_)
      rintro r rfl
      exact hreals r (by simp [Expr.leaves])
  | items enclosure values spans ih =>
    cases h with
    | items h =>
      refine .items fun v hv => ih v hv (h v hv) (fun k hk => hkeys k ?_) (fun r hr => hreals r ?_)
      · exact Expr.mem_keysAll.2 ⟨v, hv, hk⟩
      · exact Expr.mem_leavesAll.2 ⟨v, hv, hr⟩
  | map fields spans ih =>
    cases h with
    | map hkey hvalue =>
      have hnames : ∀ f ∈ fields, f.key.IsKeyAtom ∨ f.key.isName = false := fun f hf =>
        Expr.Readable.isKeyAtom_or (hkey f hf) (hkeys _ (Field.mem_keysAll.2 ⟨f, hf, .inl rfl⟩))
      refine .map hnames (fun f hf hname => ?_) (fun f hf => ?_)
      -- a key that is no name cannot be an atom, so it was read as an expression
      · have hread : f.key.Readable := by
          refine hkey f hf ?_
          rintro ⟨name, span, hatom, -⟩
          exact absurd hname (by simp [hatom, Expr.isName])
        refine (ih f hf).1 hread (fun k hk => hkeys k ?_) (fun r hr => hreals r ?_)
        · exact Field.mem_keysAll.2 ⟨f, hf, .inr (.inl hk)⟩
        · exact Field.mem_leavesAll.2 ⟨f, hf, .inl hr⟩
      · refine (ih f hf).2 (hvalue f hf) (fun k hk => hkeys k ?_) (fun r hr => hreals r ?_)
        · exact Field.mem_keysAll.2 ⟨f, hf, .inr (.inr hk)⟩
        · exact Field.mem_leavesAll.2 ⟨f, hf, .inr hr⟩
  | bare mark => cases h

/-- A document that was read without spans reads back, if no key is a number and all real
numbers do. -/
theorem Document.readsBack_of_parse {src : String} {d : Document}
    (h : Document.parse src false = .ok d) (hkeys : ∀ k ∈ d.keys, k.isNumber = false)
    (hreals : ∀ r, .real r ∈ d.leaves → nameLeaf r.text.toList = .ok (.real r)) :
    d.dropSpans = d ∧ ∀ e ∈ d.exprs, e.ReadsBack := by
  obtain ⟨hdrop, hread⟩ := Document.readable_of_readPlain h
  refine ⟨hdrop, fun e he => (hread e he).readsBack (fun k hk => ?_) (fun r hr => ?_)⟩
  · exact hkeys k (Expr.mem_keysAll.2 ⟨e, he, hk⟩)
  · exact hreals r (Expr.mem_leavesAll.2 ⟨e, he, hr⟩)

end Sexpr
