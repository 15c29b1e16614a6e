/-
The strings of a printed document.

A printed document can be read whatever its strings hold, and has as many strings as before
in the same order. A string comes back as it was, but for the ends of lines that are not
escaped: if the string is part of a broken expression, such an end is read as a newline and
the blanks of the indentation.

* `Refolded` — what may become of the characters of a string;
* `Folded.exists_refolded` — a string in a layout is read as such characters;
* `Expr.FoldedAs.exists_spelledAs` — a layout is read as an expression with such strings;
* `Document.strings_of_parse_print` — so is a printed document.
-/
import Sexpr.Proofs.Reformatting

namespace Sexpr

/-! ### Strings in order -/

/-- The value of a leaf that is a string. -/
def Leaf.string? : Leaf → Option String
  | .string s => some s
  | _ => none

/-- The strings of an expression, in their order. -/
def Expr.strings (e : Expr) : List String := e.leaves.filterMap Leaf.string?

/-- The strings of a document, in their order. -/
def Document.strings (d : Document) : List String := d.leaves.filterMap Leaf.string?

theorem Expr.leavesAll_eq_flatMap (es : List Expr) :
    Expr.leavesAll es = es.flatMap Expr.leaves := by
  induction es with
  | nil => rfl
  | cons e es ih => rw [Expr.leavesAll, List.flatMap_cons, ih]

theorem Field.leavesAll_eq_flatMap (fs : List Field) :
    Field.leavesAll fs = fs.flatMap fun f => f.key.leaves ++ f.value.leaves := by
  induction fs with
  | nil => rfl
  | cons f fs ih =>
    obtain ⟨k, v, separator⟩ := f
    rw [Field.leavesAll, List.flatMap_cons, ih]

theorem Expr.strings_items (enclosure : Enclosure) (values : List Expr) (spans : BracketSpans) :
    (Expr.items enclosure values spans).strings = values.flatMap Expr.strings := by
  rw [Expr.strings, Expr.leaves, Expr.leavesAll_eq_flatMap, List.filterMap_flatMap]
  rfl

theorem Expr.strings_map (fields : List Field) (spans : BracketSpans) :
    (Expr.map fields spans).strings = fields.flatMap fun f => f.key.strings ++ f.value.strings := by
  rw [Expr.strings, Expr.leaves, Field.leavesAll_eq_flatMap, List.filterMap_flatMap]
  simp only [List.filterMap_append]
  rfl

theorem Document.strings_eq_flatMap (d : Document) : d.strings = d.exprs.flatMap Expr.strings := by
  rw [Document.strings, Document.leaves, Expr.leavesAll_eq_flatMap, List.filterMap_flatMap]
  rfl

theorem Expr.strings_dropSpans (e : Expr) : e.dropSpans.strings = e.strings := by
  induction e using Expr.induction with
  | leaf leaf span => rfl
  | items enclosure values spans ih =>
    rw [Expr.dropSpans, Expr.dropSpansAll_eq_map, Expr.strings_items, Expr.strings_items,
      List.flatMap_map]
    exact List.flatMap_congr ih
  | map fields spans ih =>
    rw [Expr.dropSpans, Field.dropSpansAll_eq_map, Expr.strings_map, Expr.strings_map,
      List.flatMap_map]
    refine List.flatMap_congr fun f hf => ?_
    rw [Field.dropSpans, (ih f hf).1, (ih f hf).2]
  | bare mark => rfl

/-! ### Characters -/

/-- What may become of the characters of a string: all stay, but the end of a line that is
kept may be replaced by a newline and blanks. -/
inductive Refolded : List Char → List Char → Prop
  | nil : Refolded [] []
  | keep (c : Char) {s t : List Char} (h : Refolded s t) : Refolded (c :: s) (c :: t)
  | cut {c : Char} (hc : c ∈ keptLineEnds) (n : Nat) {s t : List Char} (h : Refolded s t) :
      Refolded (c :: s) ('\n' :: (List.replicate n ' ' ++ t))

theorem Refolded.eq_of_not_mem {s t : List Char} (h : Refolded s t)
    (hs : ∀ c ∈ s, c ∉ keptLineEnds) : t = s := by
  induction h with
  | nil => rfl
  | keep c h ih => rw [ih (List.forall_mem_cons.1 hs).2]
  | cut hc n h ih => exact absurd hc (List.forall_mem_cons.1 hs).1

/-- Characters that mean themselves inside a string. -/
theorem stringBody_append {p : List Char} (hp : ∀ c ∈ p, c ≠ '"' ∧ c ≠ endMark ∧ c ≠ '\\')
    (cs : List Char) :
    stringBody '"' 0 (p ++ cs) = (stringBody '"' 0 cs).after p.length (p ++ ·) := by
  induction p with
  | nil =>
    rw [List.nil_append]
    generalize stringBody '"' 0 cs = scanned
    obtain ⟨n, e | xs⟩ := scanned
    · simp [Scanned.after, Except.map]
    · simp [Scanned.after, Except.map]
  | cons c p ih =>
    obtain ⟨⟨hquote, hend, hslash⟩, hp⟩ := List.forall_mem_cons.1 hp
    rw [List.cons_append, stringBody, if_neg hquote, if_neg hend, if_neg hslash, ih hp]
    generalize stringBody '"' 0 cs = scanned
    obtain ⟨n, e | xs⟩ := scanned
    · simp [Scanned.after, Except.map]
      omega
    · simp [Scanned.after, Except.map]
      omega

/-- A string in a layout is read with its ends of lines replaced. -/
theorem Folded.exists_refolded {s t : List Char} (h : Folded s t) :
    ∃ s', Refolded s s' ∧ ∀ r, stringBody '"' 0 (t ++ '"' :: r) = .found (t.length + 1) s' := by
  induction h with
  | nil => exact ⟨[], .nil, fun r => rfl⟩
  | keep c h ih =>
    obtain ⟨s', hs', hbody⟩ := ih
    refine ⟨c :: s', .keep c hs', fun r => ?_⟩
    rw [List.append_assoc, stringBody_escapeChar, hbody, List.length_append]
    simp [Scanned.after, Scanned.found, Except.map, Nat.add_assoc]
  | @cut c hc n s t h ih =>
    obtain ⟨s', hs', hbody⟩ := ih
    refine ⟨_, .cut hc n hs', fun r => ?_⟩
    have hblanks : ∀ x ∈ '\n' :: List.replicate n ' ', x ≠ '"' ∧ x ≠ endMark ∧ x ≠ '\\' := by
      intro x hx
      rcases List.mem_cons.1 hx with rfl | hx
      · decide
      · rw [(List.mem_replicate.1 hx).2]
        decide
    rw [← List.cons_append, List.append_assoc, stringBody_append hblanks, hbody,
      List.length_append]
    simp [Scanned.after, Scanned.found, Except.map, Nat.add_assoc]

/-! ### Expressions -/

/-- An expression that a layout may be read as: the same strings, with ends of lines
replaced. -/
structure Expr.RefoldedTo (e e' : Expr) : Prop where
  isName : e'.isName = e.isName
  strings : List.Forall₂ (fun s s' => Refolded s.toList s'.toList) e.strings e'.strings

/-- Parts that are spelled by the texts of other parts. -/
theorem Separated.exists_forall₂ {α β : Type} {gap : Bool → List Char → Prop}
    {W : α → List Char → Prop} {W' : β → List Char → Prop} {R : α → β → Prop} {xs : List α}
    {t : List Char} (h : Separated gap W xs t)
    (hW : ∀ x ∈ xs, ∀ s, W x s → ∃ y, W' y s ∧ R x y) :
    ∃ ys, Separated gap W' ys t ∧ List.Forall₂ R xs ys := by
  induction h with
  | nil => exact ⟨[], .nil, .nil⟩
  | @cons x xs s g t hx hg hxs ih =>
    obtain ⟨hhead, htail⟩ := List.forall_mem_cons.1 hW
    obtain ⟨y, hy, hR⟩ := hhead s hx
    obtain ⟨ys, hys, hall⟩ := ih htail
    have hempty : xs.isEmpty = ys.isEmpty := by
      cases hall with
      | nil => rfl
      | cons => rfl
    exact ⟨y :: ys, .cons hy (hempty ▸ hg) hys, .cons hR hall⟩

theorem Expr.strings_of_isName {e : Expr} (h : e.isName = true) : e.strings = [] := by
  cases e with
  | leaf l span =>
    cases l with
    | string s => exact absurd h (by simp [Expr.isName])
    | _ => rfl
  | _ => exact absurd h (by simp [Expr.isName])

/-- Names and numbers hold no strings. -/
theorem Expr.refoldedTo_of_isName {e e' : Expr} (h : e.isName = true) (h' : e'.isName = true) :
    e.RefoldedTo e' := by
  refine ⟨h'.trans h.symm, ?_⟩
  rw [Expr.strings_of_isName h, Expr.strings_of_isName h']
  exact .nil

theorem Leaf.FoldedAs.exists_spelledAs {l : Leaf} {span : Option TokenSpans} {s : List Char}
    (h : l.FoldedAs s) (hread : l.Readable) :
    ∃ l' : Leaf, l'.SpelledAs s ∧ (Expr.leaf l span).RefoldedTo (.leaf l' none) := by
  cases h with
  | name h =>
    rcases hread.readsBack_reread with ⟨s, hs⟩ | ⟨htoken, hleaf⟩
    · -- the text of a string starts with a quote, which is in no name
      have hquote : '"' ∈ l.text.toList := by
        rw [← Leaf.text_reread, hs]
        simp [Leaf.text, quoteString]
      exact absurd (h '"' hquote) (by decide)
    · have hname := Expr.isName_of_isNameToken htoken none
      rw [Leaf.text_reread] at htoken hleaf
      exact ⟨l.reread, .name htoken hleaf,
        Expr.refoldedTo_of_isName (Expr.isName_of_isNameToken htoken span) hname⟩
  | @string s t h =>
    obtain ⟨s', hs', hbody⟩ := h.exists_refolded
    refine ⟨.string (String.ofList s'), .quoted (q := '"') fun r => ?_, rfl, ?_⟩
    · rw [stringToken, if_neg (by decide), List.cons_append, List.cons_append, if_neg (by simp),
        List.drop_one, List.tail_cons, List.append_assoc, List.singleton_append, hbody]
      simp [Scanned.after, Scanned.found, Except.map, Nat.add_comm]
    · exact .cons (by rwa [String.toList_ofList]) .nil

/-- The key of a field, in front of its colon, is spelled by a key with such strings. -/
theorem Expr.FoldedAs.exists_keySpelledAs {k : Expr} {s : List Char} (h : k.FoldedAs s)
    (hread : ¬k.IsKeyAtom → k.Readable)
    (hkey : k.Readable → ∃ k', k'.SpelledAs s ∧ k.RefoldedTo k') (t : List Char) :
    ∃ k', KeySpelledAs Expr.SpelledAs k' (s ++ ':' :: [' ']) t ∧ k.RefoldedTo k' := by
  have hfused : ∀ {name : String}, IsNameToken (name.toList ++ [':']) →
      KeySpelledAs Expr.SpelledAs (.leaf (.atom name) none) (name.toList ++ ':' :: [' ']) t :=
    fun htoken => .fused htoken blank_blank (blank_blank.delimits (by simp) t)
  by_cases hatom : k.IsKeyAtom
  · obtain ⟨name, span, rfl, htoken⟩ := hatom
    cases h with
    | leaf h =>
      cases h with
      | name => exact ⟨_, hfused htoken, Expr.refoldedTo_of_isName rfl rfl⟩
  · by_cases hname : k.isName = true
    · -- the key is a number, which becomes a name together with its colon
      cases hread hatom with
      | @leaf l span hl =>
        rcases hl.isNameToken_or with ⟨x, rfl⟩ | htoken
        · exact absurd hname (by simp [Expr.isName])
        · cases h with
          | leaf h =>
            cases h with
            | name =>
              exact ⟨_, hfused htoken.append_colon, Expr.refoldedTo_of_isName hname rfl⟩
            | string => exact absurd hname (by simp [Expr.isName])
      | _ => exact absurd hname (by simp [Expr.isName])
    · rw [Bool.not_eq_true] at hname
      obtain ⟨k', hk', hto⟩ := hkey (hread hatom)
      exact ⟨k', .of_isName (hto.isName.trans hname) hk' blank_blank, hto⟩

/-- A layout of an expression that can be read is read as an expression with such strings. -/
theorem Expr.FoldedAs.exists_spelledAs {e : Expr} {s : List Char} (h : e.FoldedAs s)
    (hread : e.Readable) : ∃ e' : Expr, e'.SpelledAs s ∧ e.RefoldedTo e' := by
  induction e using Expr.induction generalizing s with
  | leaf leaf span =>
    cases h with
    | leaf h =>
      cases hread with
      | leaf hread =>
        obtain ⟨l', hspelled, hto⟩ := h.exists_spelledAs hread
        exact ⟨_, .leaf hspelled, hto⟩
  | items enclosure values spans ih =>
    cases h with
    | items hg h =>
      cases hread with
      | items hread =>
        obtain ⟨values', hsep, hall⟩ := h.exists_forall₂ fun v hv u hu => ih v hv hu (hread v hv)
        have hseries : Series (fun g _ => Gap g) Expr.isName Expr.SpelledAs values' _ :=
          (hsep.imp LayoutGap.itemGap fun _ _ _ hu => hu).series _ fun _ _ _ hu => hu
        refine ⟨.items enclosure values' .none, .items hg.blank hseries, rfl, ?_⟩
        rw [Expr.strings_items, Expr.strings_items]
        exact List.rel_flatMap hall fun _ _ he => he.strings
  | map fields spans ih =>
    cases h with
    | map hg h =>
      cases hread with
      | map hkeys hvalues =>
        have hfields : ∀ f ∈ fields, ∀ u, FieldFoldedAs Expr.FoldedAs f u →
            ∃ f' : Field, FieldSpelledAs Expr.SpelledAs f' u ∧
              f.key.RefoldedTo f'.key ∧ f.value.RefoldedTo f'.value := by
          rintro f hf _ ⟨hk, hv⟩
          obtain ⟨v', hv', hvalue⟩ := (ih _ hf).2 hv (hvalues _ hf)
          obtain ⟨k', hk', hkey⟩ := hk.exists_keySpelledAs (hkeys _ hf) ((ih _ hf).1 hk) _
          exact ⟨⟨k', v', none⟩, .mk hk' hv', hkey, hvalue⟩
        obtain ⟨fields', hsep, hall⟩ := h.exists_forall₂ hfields
        have hseries : Series (fun g _ => Gap g) (fun f : Field => f.value.isName)
            (FieldSpelledAs Expr.SpelledAs) fields' _ :=
          (hsep.imp LayoutGap.itemGap fun _ _ _ hu => hu).series _ fun _ _ _ hu => hu
        refine ⟨.map fields' .none, .map hg.blank hseries, rfl, ?_⟩
        rw [Expr.strings_map, Expr.strings_map]
        exact List.rel_flatMap hall fun f f' hf => List.rel_append hf.1.strings hf.2.strings
  | bare mark => cases h

/-! ### Documents -/

theorem Document.strings_dropSpans (d : Document) : d.dropSpans.strings = d.strings := by
  rw [Document.strings_eq_flatMap, Document.strings_eq_flatMap, Document.dropSpans,
    Expr.dropSpansAll_eq_map, List.flatMap_map]
  exact List.flatMap_congr fun e _ => e.strings_dropSpans

theorem eq_of_forall₂_refolded {ss ss' : List String}
    (h : List.Forall₂ (fun s s' => Refolded s.toList s'.toList) ss ss')
    (hkept : ∀ s ∈ ss, ∀ c ∈ s.toList, c ∉ keptLineEnds) : ss' = ss := by
  induction h with
  | nil => rfl
  | cons hs hss ih =>
    obtain ⟨hkept, hkepts⟩ := List.forall_mem_cons.1 hkept
    rw [String.toList_inj.1 (hs.eq_of_not_mem hkept), ih hkepts]

/-- A document that was read is printed and read again, whatever its strings hold, and its
strings come back in their order. In each of them all characters stay, except that the end of
a line that is kept may be replaced by a newline and blanks. -/
theorem Document.strings_of_parse_print {src : String} {d : Document}
    (h : Document.parse src false = .ok d) (rs : Records) {o : PrintOptions}
    (hindent : ∀ n ∈ o.indent, 0 < n) (hwidth : 20 ≤ o.width)
    (hspans : o.encode.keepSpans = false) :
    ∃ text d', Value.print rs o (.document d) = .ok text ∧ Document.parse text false = .ok d' ∧
      List.Forall₂ (fun s s' => Refolded s.toList s'.toList) d.strings d'.strings ∧
      ((∀ s ∈ d.strings, ∀ c ∈ s.toList, c ∉ keptLineEnds) → d'.strings = d.strings) := by
  obtain ⟨hdrop, hread⟩ := Document.readable_of_readPlain h
  obtain ⟨l, hl⟩ := o.exists_layout hindent hwidth
  obtain ⟨texts, htexts, hall⟩ := exists_layOutAll l hread
  have htext : d.layOut l = .ok (l.gap.intercalate texts) := by
    rw [Document.layOut, htexts]
    rfl
  have hfolded : Separated TextGap Expr.FoldedAs d.exprs (l.gap.intercalate texts).toList :=
    separated_intercalate l.textGap_gap textGap_nil (hall.imp fun e t he => he.folded)
  obtain ⟨es, hspelled, hes⟩ := hfolded.exists_forall₂ fun e he u hu =>
    hu.exists_spelledAs (hread e he)
  have hparse : Document.parse (l.gap.intercalate texts) false =
      .ok (Document.dropSpans ⟨es, none⟩) :=
    Document.readPlain_of_spelledAs (Document.spelledAs_of_separated .nil hspelled)
  have hstrings : List.Forall₂ (fun s s' => Refolded s.toList s'.toList) d.strings
      (Document.dropSpans ⟨es, none⟩).strings := by
    rw [Document.strings_dropSpans, Document.strings_eq_flatMap, Document.strings_eq_flatMap]
    exact List.rel_flatMap hes fun _ _ he => he.strings
  refine ⟨_, _, Value.print_document rs hl hspans ?_ htext, hparse, hstrings, fun hkept => ?_⟩
  · exact Document.plain_of_dropSpans hdrop fun e he => (hread e he).hasBare
  · exact eq_of_forall₂_refolded hstrings hkept

/-- A line separator in a string of a sequence that does not fit in its line is read as a
newline and the indentation. -/
theorem Document.strings_ne_of_parse_print :
    ∃ d d', Document.parse "[\"x\u2028y\" \"a long string to break\"]" false = .ok d ∧
      Value.print [] ⟨none, 20, ⟨true, [], false⟩⟩ (.document d) =
        .ok "[\n  \"x\n  y\"\n  \"a long string to break\"\n]" ∧
      Document.parse "[\n  \"x\n  y\"\n  \"a long string to break\"\n]" false = .ok d' ∧
      d.strings = ["x\u2028y", "a long string to break"] ∧
      d'.strings = ["x\n  y", "a long string to break"] := by
  refine ⟨⟨[.items .sequence [.leaf (.string "x\u2028y") none,
      .leaf (.string "a long string to break") none] .none], none⟩,
    ⟨[.items .sequence [.leaf (.string "x\n  y") none,
      .leaf (.string "a long string to break") none] .none], none⟩, ?_, ?_, ?_, rfl, rfl⟩
  · decide +kernel
  · exact Value.print_document [] (l := ⟨false, 2, 20⟩) rfl rfl (by decide +kernel)
      (by decide +kernel)
  · decide +kernel

/-- A map with a key that is a number, an infinite number, and a string over two lines. -/
theorem Document.strings_of_parse_print_number :
    ∃ d text d',
      Document.parse "\x7b1 : [\"x\u2028y\" 1e999], k: \"a long text\"\x7d" false = .ok d ∧
      Value.print [] ⟨some 4, 20, ⟨true, [], false⟩⟩ (.document d) = .ok text ∧
      Document.parse text false = .ok d' ∧
      List.Forall₂ (fun s s' => Refolded s.toList s'.toList) ["x\u2028y", "a long text"]
        d'.strings := by
  have hstrings :
      (Document.parse "\x7b1 : [\"x\u2028y\" 1e999], k: \"a long text\"\x7d" false).map
        Document.strings = .ok ["x\u2028y", "a long text"] := by
    decide +kernel
  cases hd : Document.parse "\x7b1 : [\"x\u2028y\" 1e999], k: \"a long text\"\x7d" false with
  | error e =>
    rw [hd] at hstrings
    cases hstrings
  | ok d =>
    obtain ⟨text, d', hprint, hparse, hrefolded, -⟩ := Document.strings_of_parse_print hd []
      (o := ⟨some 4, 20, ⟨true, [], false⟩⟩) (by decide) (by decide) rfl
    rw [hd] at hstrings
    rw [Except.ok.inj hstrings] at hrefolded
    exact ⟨d, text, d', rfl, hprint, hparse, hrefolded⟩

end Sexpr
