/-
Sources that are printed as they are.

A document that was read with its spans is printed as its source, with a comma and a blank
put in after each field that has no comma and is not the last one of its map, and a gap
after each expression of the text that no blank follows.

* `Expr.missingCommas` — how often a comma is put in;
* `Expr.Sourced.copied` — how long the text of an expression gets, and that it stays the
  same if nothing is put in;
* `Document.print_eq_source_iff` — when a source is printed as it is.
-/
import Sexpr.Proofs.Rendering

namespace Sexpr

/-! ### Missing commas -/

/-- Whether no separator is known. -/
def lacksSeparator (separator : Option TokenSpans) : Bool :=
  (sourceText? separator).all String.isEmpty

mutual

/-- How many fields of the maps in an expression have no comma before the next one. -/
def Expr.missingCommas : Expr → Nat
  | .leaf _ _ => 0
  | .items _ values _ => Expr.missingCommasAll values
  | .map fields spans => Field.missingCommasAll (spans.separators.getD []) fields
  | .bare _ => 0

/-- The same for expressions. -/
def Expr.missingCommasAll : List Expr → Nat
  | [] => 0
  | e :: es => e.missingCommas + Expr.missingCommasAll es

/-- The same for fields with their separators. -/
def Field.missingCommasAll (separators : List TokenSpans) : List (FieldOf Expr) → Nat
  | [] => 0
  | ⟨k, v, _⟩ :: fs =>
    k.missingCommas + v.missingCommas +
      (if lacksSeparator separators.head? && !fs.isEmpty then 1 else 0) +
      Field.missingCommasAll separators.tail fs

end

/-- Whether a comma stands between any two fields of a map, and a blank after every
expression of the text but the last one. -/
def Document.isSeparated (d : Document) : Bool :=
  d.exprs.all (fun e => e.missingCommas = 0) && d.exprs.dropLast.all fun e => endsBlank e.text

/-! ### Expressions -/

/-- A text that was written in place of another one: `n` separators were put in. -/
structure Copied (n : Nat) (source text : String) : Prop where
  length : text.length = source.length + 2 * n
  eq : n = 0 → text = source

theorem Copied.refl (text : String) : Copied 0 text text := ⟨rfl, fun _ => rfl⟩

theorem Copied.append {m n : Nat} {source source' text text' : String} (h : Copied m source text)
    (h' : Copied n source' text') : Copied (m + n) (source ++ source') (text ++ text') := by
  refine ⟨?_, fun hzero => ?_⟩
  · rw [String.length_append, String.length_append, h.length, h'.length]
    omega
  · rw [h.eq (by omega), h'.eq (by omega)]

/-- An expression is written with a comma for each one that is missing. -/
def Expr.IsCopied (l : Layout) (level : Nat) (e : Expr) : Prop :=
  ∃ text, e.render l level = .ok text ∧ Copied e.missingCommas e.text text

theorem Expr.Sourced.hasSpans {e : Expr} (h : e.Sourced fun _ => False) : e.hasSpans = true := by
  cases h with
  | new h => exact h.elim
  | leaf => rfl
  | items => rfl
  | map => rfl

theorem Expr.StartsLike.text_ne {e : Expr} {t : List Char} (h : e.StartsLike t) : e.text ≠ "" := by
  have hstart := h.isStart
  rw [h.head] at hstart
  exact fun hempty => ne_nil_of_isStart hstart (String.toList_eq_nil_iff.2 hempty)

theorem Expr.Sourced.text_ne {e : Expr} (h : e.Sourced fun _ => False) : e.text ≠ "" := by
  cases h with
  | new h => exact h.elim
  | leaf hs ht =>
    rw [Expr.text, ht.text, Ne, ← String.toList_eq_nil_iff]
    simp [ne_nil_of_isStart hs.isStart]
  | items ho => exact (startsLike_items ho _ _ []).text_ne
  | map ho => exact (startsLike_map ho _ _ []).text_ne

theorem itemGap_of_isSeparator {s : TokenSpans} (hs : s.IsSeparator) (isLast : Bool) :
    itemGap (some s) isLast true = s.text := by
  rw [itemGap, hs.sourceText?]
  simp

theorem fieldGap_copied {s : TokenSpans} (hs : s.IsSeparator) (isLast : Bool) :
    Copied (if lacksSeparator (some s) && !isLast then 1 else 0) s.text
      (fieldGap (some s) isLast) := by
  rw [fieldGap, lacksSeparator, hs.sourceText?]
  dsimp only [Option.all_some]
  split_ifs with hmissing
  · rw [Bool.and_eq_true] at hmissing
    rw [String.isEmpty_iff.1 hmissing.1]
    exact ⟨rfl, by simp⟩
  · exact .refl _

theorem exists_renderAll_copied {l : Layout} {level : Nat} {values : List Expr}
    {separators : List TokenSpans} (hvalues : ∀ v ∈ values, v.IsCopied l level)
    (hspans : ∀ v ∈ values, v.hasSpans = true) (hseps : ∀ s ∈ separators, s.IsSeparator)
    (hlen : separators.length = values.length) (gap : String) :
    ∃ text, Expr.renderAll l level separators values = .ok text ∧
      Copied (Expr.missingCommasAll values) (interleave gap (Expr.texts values) separators)
        text := by
  induction values generalizing separators with
  | nil => exact ⟨"", rfl, by rw [Expr.texts, interleave]; exact .refl _⟩
  | cons v vs ih =>
    obtain ⟨⟨a, ha, hcopied⟩, hvs⟩ := List.forall_mem_cons.1 hvalues
    obtain ⟨hv, hspans⟩ := List.forall_mem_cons.1 hspans
    cases separators with
    | nil => exact absurd hlen (by simp)
    | cons s ss =>
      obtain ⟨hs, hss⟩ := List.forall_mem_cons.1 hseps
      obtain ⟨t, ht, hrest⟩ := ih hvs hspans hss (by simpa using hlen)
      refine ⟨a ++ s.text ++ t, ?_, ?_⟩
      · rw [Expr.renderAll, ha, List.tail_cons, ht, List.head?_cons, hv,
          itemGap_of_isSeparator hs]
        rfl
      · rw [Expr.texts, interleave, Expr.missingCommasAll]
        exact (hcopied.append (.refl s.text)).append hrest

theorem exists_renderFields_copied {l : Layout} {level : Nat} {fields : List Field}
    {separators : List TokenSpans}
    (hfields : ∀ f ∈ fields, FieldSourced (Expr.Sourced fun _ => False) f)
    (hkeys : ∀ f ∈ fields, f.key.IsCopied l level)
    (hvalues : ∀ f ∈ fields, f.value.IsCopied l level) (hseps : ∀ s ∈ separators, s.IsSeparator)
    (hlen : separators.length = fields.length) (gap : String) :
    ∃ text, Field.renderAll l level separators fields = .ok text ∧
      Copied (Field.missingCommasAll separators fields)
        (interleave gap (Field.texts fields) separators) text := by
  induction fields generalizing separators with
  | nil => exact ⟨"", rfl, by rw [Field.texts, interleave]; exact .refl _⟩
  | cons f fs ih =>
    obtain ⟨hf, hfs⟩ := List.forall_mem_cons.1 hfields
    obtain ⟨⟨a, ha, hkey⟩, hks⟩ := List.forall_mem_cons.1 hkeys
    obtain ⟨⟨b, hb, hvalue⟩, hvs⟩ := List.forall_mem_cons.1 hvalues
    cases separators with
    | nil => exact absurd hlen (by simp)
    | cons s ss =>
      obtain ⟨hs, hss⟩ := List.forall_mem_cons.1 hseps
      obtain ⟨t, ht, hrest⟩ := ih hfs hks hvs hss (by simpa using hlen)
      obtain ⟨k, v, separator⟩ := f
      -- the colon is known, whether it was cut off the key or not
      obtain ⟨colon, g, rfl, hcolon, -⟩ := hf.exists_colon
      refine ⟨a ++ colon.text ++ b ++ fieldGap (some s) fs.isEmpty ++ t, ?_, ?_⟩
      · rw [Field.renderAll, ha, hb, List.tail_cons, ht, List.head?_cons, hcolon.keyGap,
          hcolon.text]
        rfl
      · rw [Field.texts, interleave, Field.missingCommasAll, List.head?_cons, List.tail_cons,
          Option.map_some, Option.getD_some]
        exact (((hkey.append (.refl colon.text)).append hvalue).append
          (fieldGap_copied hs fs.isEmpty)).append hrest

theorem Copied.brackets {n : Nat} {source text : String} (h : Copied n source text)
    {o c : TokenSpans} {co cc g g' : List Char} (ho : o.Holds co g) (hc : c.Holds cc g')
    (separators : Option (List TokenSpans)) (brackets : String × String) :
    Copied n (((some o).map TokenSpans.text).getD brackets.1 ++ source ++
        ((some c).map TokenSpans.text).getD brackets.2)
      (sourceBrackets ⟨some o, separators, some c⟩ brackets text) := by
  rw [sourceBrackets, ho.sourceText?, hc.sourceText?]
  simpa using ((Copied.refl o.text).append h).append (.refl c.text)

/-- An expression with its spans is written as in its source, but for missing commas. -/
theorem Expr.Sourced.copied {e : Expr} (h : e.Sourced fun _ => False) (l : Layout) (level : Nat) :
    e.IsCopied l level := by
  induction e using Expr.induction generalizing level with
  | leaf leaf span =>
    cases h with
    | new h => exact h.elim
    | @leaf _ t s g hs ht =>
      exact ⟨t.text, by rw [Expr.render, ht.sourceText?, Option.getD_some], .refl _⟩
  | items enclosure values spans ih =>
    cases h with
    | new h => exact h.elim
    | items ho hg hvalues hblank hseps hlen hc =>
      obtain ⟨text, htext, hcopied⟩ := exists_renderAll_copied
        (fun v hv => ih v hv (hvalues v hv) (level + 1)) (fun v hv => (hvalues v hv).hasSpans)
        hseps hlen " "
      exact ⟨_, render_items enclosure htext, hcopied.brackets ho hc _ _⟩
  | map fields spans ih =>
    cases h with
    | new h => exact h.elim
    | map ho hg hfields hblank hseps hlen hc =>
      have hparts : ∀ f ∈ fields, f.key.IsCopied l (level + 1) ∧
          f.value.IsCopied l (level + 1) := by
        intro f hf
        cases hfields f hf with
        | @fused name span v colon g hname hspan hcolon hg hv =>
          obtain ⟨hkey, htext, -⟩ := render_fused hspan l (level + 1)
          refine ⟨⟨name, hkey, ?_⟩, (ih _ hf).2 hv (level + 1)⟩
          rw [htext]
          exact .refl name
        | apart hk _ _ _ _ _ hv =>
          exact ⟨(ih _ hf).1 hk (level + 1), (ih _ hf).2 hv (level + 1)⟩
      obtain ⟨text, htext, hcopied⟩ := exists_renderFields_copied hfields
        (fun f hf => (hparts f hf).1) (fun f hf => (hparts f hf).2) hseps hlen ", "
      exact ⟨_, render_map htext, hcopied.brackets ho hc _ _⟩
  | bare mark =>
    cases h with
    | new h => exact h.elim

/-! ### Documents -/

theorem endsBlank_append (s : String) {t : String} (ht : t ≠ "") :
    endsBlank (s ++ t) = endsBlank t := by
  have hne : t.toList ≠ [] := fun h => ht (String.toList_eq_nil_iff.1 h)
  rw [endsBlank, endsBlank, String.toList_append, List.getLast?_append_of_ne_nil _ hne]

theorem forall_mem_dropLast_cons {α : Type} {P : α → Prop} {x : α} {xs : List α} :
    (∀ y ∈ (x :: xs).dropLast, P y) ↔ (xs ≠ [] → P x) ∧ ∀ y ∈ xs.dropLast, P y := by
  cases xs with
  | nil => simp
  | cons y ys => simp

theorem Layout.gap_length_pos (l : Layout) : 0 < l.gap.length := by
  unfold gap
  split_ifs
  · decide
  · decide

/-- The expressions of a document get no shorter, and stay the same just if nothing is put
in. -/
theorem exists_renderAfter_copied {l : Layout} {es : List Expr}
    (h : ∀ e ∈ es, e.Sourced fun _ => False) (acc : String) :
    ∃ text, renderAfter l acc es = .ok text ∧
      (acc ++ String.join (Expr.texts es)).length ≤ text.length ∧
      (text = acc ++ String.join (Expr.texts es) ↔
        (∀ e ∈ es, e.missingCommas = 0) ∧ ∀ e ∈ es.dropLast, endsBlank e.text = true) := by
  induction es generalizing acc with
  | nil => exact ⟨acc, rfl, by simp [Expr.texts], by simp [Expr.texts]⟩
  | cons e es ih =>
    obtain ⟨he, hes⟩ := List.forall_mem_cons.1 h
    obtain ⟨t, ht, hcopied⟩ := he.copied l 0
    have hlen := hcopied.length
    rw [Expr.texts, String.join_cons, renderAfter, ht, forall_mem_dropLast_cons,
      List.forall_mem_cons]
    show ∃ text, renderAfter l (if es.isEmpty || endsBlank (acc ++ t) then acc ++ t
      else acc ++ t ++ l.gap) es = _ ∧ _
    by_cases hgap : es = [] ∨ endsBlank (acc ++ t) = true
    · -- no gap is put in, so that commas decide
      rw [if_pos (by simpa using hgap)]
      obtain ⟨text, htext, hle, hiff⟩ := ih hes (acc ++ t)
      simp only [String.length_append] at hle ⊢
      refine ⟨text, htext, by omega, fun heq => ?_, ?_⟩
      · have hzero : e.missingCommas = 0 := by
          have := congrArg String.length heq
          simp only [String.length_append] at this
          omega
        have heqt := hcopied.eq hzero
        rw [← String.append_assoc, ← heqt] at heq
        obtain ⟨hzeros, hblanks⟩ := hiff.1 heq
        refine ⟨⟨hzero, hzeros⟩, fun hne => ?_, hblanks⟩
        rw [← endsBlank_append acc he.text_ne, ← heqt]
        exact hgap.resolve_left hne
      · rintro ⟨⟨hzero, hzeros⟩, -, hblanks⟩
        rw [hiff.2 ⟨hzeros, hblanks⟩, hcopied.eq hzero, String.append_assoc]
    · -- the gap makes the text longer, and a blank at the end would have made it needless
      rw [if_neg (by simpa using hgap)]
      obtain ⟨text, htext, hle, -⟩ := ih hes (acc ++ t ++ l.gap)
      have hpos := l.gap_length_pos
      simp only [String.length_append] at hle ⊢
      rw [not_or] at hgap
      refine ⟨text, htext, by omega, fun heq => ?_, ?_⟩
      · have := congrArg String.length heq
        simp only [String.length_append] at this
        omega
      · rintro ⟨⟨hzero, -⟩, hblank, -⟩
        refine absurd ?_ hgap.2
        rw [hcopied.eq hzero, endsBlank_append acc he.text_ne]
        exact hblank hgap.1

/-- A source is printed as it is just if a comma stands between any two fields of its maps
and a blank after every expression but the last one. -/
theorem Document.print_eq_source_iff {src : String} {d : Document}
    (h : Document.parse src true = .ok d) (hsrc : endMark ∉ src.toList) (rs : Records)
    {o : PrintOptions} (hindent : ∀ n ∈ o.indent, 0 < n) (hwidth : 20 ≤ o.width)
    (hspans : o.encode.keepSpans = true) :
    ∃ text, Value.print rs o (.document d) = .ok text ∧ (text = src ↔ d.isSeparated = true) := by
  obtain ⟨l, hl⟩ := o.exists_layout hindent hwidth
  have hread : Document.read src = .ok d := h
  obtain ⟨⟨span, hspan, hes⟩, -, r, htext, hend⟩ := Document.sourced_of_read hread
  -- the text of the document is all of the source
  obtain rfl : r = [] := by
    cases r with
    | nil => rfl
    | cons c r =>
      rw [List.headD_cons] at hend
      exact absurd (by rw [htext, hend]; simp) hsrc
  obtain ⟨text, hrender, -, hiff⟩ := exists_renderAfter_copied (l := l) hes.sourced_of_mem span.raw
  have hsource : src = span.raw ++ String.join (Expr.texts d.exprs) := by
    rw [← String.toList_inj, htext, List.append_nil, Document.text, hspan]
    simp
  refine ⟨text, Value.print_of_render rs hl hspans ?_, ?_⟩
  · rw [Document.render, hspan]
    exact hrender
  · rw [hsource, hiff, Document.isSeparated]
    simp

/-- Fields without a comma between them are printed with one. -/
theorem Document.print_ne_source :
    ∃ d, Document.parse "\x7ba: 1 b: 2\x7d" true = .ok d ∧
      Value.print [] PrintOptions.concise (.document d) = .ok "\x7ba: 1 , b: 2\x7d" := by
  obtain ⟨d, hd⟩ := Document.exists_of_isOk
    (show (Document.parse "\x7ba: 1 b: 2\x7d" true).isOk = true by decide +kernel)
  have hrender : (Document.parse "\x7ba: 1 b: 2\x7d" true).map (Document.render ⟨false, 2, 88⟩) =
      .ok (.ok "\x7ba: 1 , b: 2\x7d") := by
    decide +kernel
  rw [hd] at hrender
  exact ⟨d, hd, Value.print_of_render [] rfl rfl (Except.ok.inj hrender)⟩

/-- Commas and blanks where they are needed, and nothing needed at the end. -/
theorem Document.print_eq_source_iff_commas :
    ∃ d, Document.parse " \x7ba: 1,b :[2 \"c\"]\x7d;d\n(e)" true = .ok d ∧
      Value.print [] PrintOptions.pretty (.document d) =
        .ok " \x7ba: 1,b :[2 \"c\"]\x7d;d\n(e)" := by
  obtain ⟨d, hd⟩ := Document.exists_of_isOk (show (Document.parse
    " \x7ba: 1,b :[2 \"c\"]\x7d;d\n(e)" true).isOk = true by decide +kernel)
  have hseparated : (Document.parse " \x7ba: 1,b :[2 \"c\"]\x7d;d\n(e)" true).map
      Document.isSeparated = .ok true := by
    decide +kernel
  rw [hd] at hseparated
  obtain ⟨text, htext, hiff⟩ := Document.print_eq_source_iff hd (by decide) []
    (o := PrintOptions.pretty) (by decide) (by decide) rfl
  exact ⟨d, hd, by rw [htext, hiff.2 (Except.ok.inj hseparated)]⟩

end Sexpr
