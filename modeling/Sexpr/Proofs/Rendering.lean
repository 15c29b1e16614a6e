/-
Documents written as they stand in their source.

What is written of a document with spans is a spelling of it, unless a name runs on into
the token after it: the separators that are put in where the source has none change
nothing.

* `Expr.Renders` — an expression is written as one of its spellings;
* `Expr.Sourced.renders` — expressions with spans are;
* `Document.exists_render` — a whole document;
* `Document.parse_print_of_parse` — printing keeps the meaning of a source.
-/
import Sexpr.Print
import Sexpr.Proofs.Acceptance
import Sexpr.Proofs.Formatting
import Sexpr.Proofs.Sourced

namespace Sexpr

/-! ### Gaps -/

theorem gap_itemGap {s : TokenSpans} {g : List Char} (hs : s.IsSeparator) (hg : Blank g)
    (isLast hasSpans : Bool) : Gap (g ++ (itemGap (some s) isLast hasSpans).toList) := by
  rw [itemGap, hs.sourceText?]
  dsimp only
  split_ifs
  · exact .blank (hg.append blank_blank)
  · rcases hs with h | ⟨g', hg', h⟩
    · rw [h.text]
      simpa using Gap.blank hg
    · rw [h.text, String.toList_ofList]
      exact .comma hg hg'

theorem gap_fieldGap {s : TokenSpans} {g : List Char} (hs : s.IsSeparator) (hg : Blank g)
    (isLast : Bool) : Gap (g ++ (fieldGap (some s) isLast).toList) := by
  rw [fieldGap, hs.sourceText?]
  dsimp only
  split_ifs
  · exact .comma hg blank_blank
  · rcases hs with h | ⟨g', hg', h⟩
    · rw [h.text]
      simpa using Gap.blank hg
    · rw [h.text, String.toList_ofList]
      exact .comma hg hg'

/-- A field that is not the last one is separated. -/
theorem fieldGap_ne {s : TokenSpans} (hs : s.IsSeparator) : fieldGap (some s) false ≠ "" := by
  rw [fieldGap, hs.sourceText?]
  dsimp only
  split_ifs with hempty
  · decide
  · simpa using hempty

/-! ### Items and fields -/

/-- A text starts with the character that the text of an expression starts with. -/
structure Expr.StartsLike (e : Expr) (t : List Char) : Prop where
  isStart : isStart (t.headD endMark) = true
  head : t.headD endMark = e.text.toList.headD endMark

theorem Expr.StartsLike.append {e : Expr} {t : List Char} (h : e.StartsLike t) (u : List Char) :
    e.StartsLike (t ++ u) := by
  have hne := ne_nil_of_isStart h.isStart
  refine ⟨?_, ?_⟩
  · rw [headD_append hne]
    exact h.isStart
  · rw [headD_append hne]
    exact h.head

theorem Expr.StartsLike.delimits {e : Expr} {t : List Char} (h : e.StartsLike t)
    (hstart : e.startsInName = false) : Delimits t := by
  rw [Delimits, h.head]
  exact hstart

/-- An expression is written as one of its spellings and the layout after it. -/
def Expr.Renders (l : Layout) (level : Nat) (e : Expr) : Prop :=
  ∃ s, e.render l level = .ok (String.ofList (s ++ e.trailing)) ∧ e.SpelledAs s ∧ e.StartsLike s

theorem Expr.isApart_of_mem {separators : List TokenSpans} {values : List Expr}
    (h : Expr.areApart separators values = true) : ∀ v ∈ values, v.isApart = true := by
  induction values generalizing separators with
  | nil => simp
  | cons v vs ih =>
    simp only [Expr.areApart, Bool.and_eq_true] at h
    exact List.forall_mem_cons.2 ⟨h.1.1, ih h.2⟩

theorem Field.isApart_of_mem {fields : List Field} (h : Field.areApart fields = true) :
    ∀ f ∈ fields, f.key.isApart = true ∧ f.value.isApart = true := by
  induction fields with
  | nil => simp
  | cons f fs ih =>
    simp only [Field.areApart, Bool.and_eq_true] at h
    exact List.forall_mem_cons.2 ⟨h.1.1, ih h.2⟩

theorem renderAll_cons {l : Layout} {level : Nat} {v : Expr} {vs : List Expr} {s : TokenSpans}
    {ss : List TokenSpans} {a t : List Char}
    (hv : v.render l level = .ok (String.ofList (a ++ v.trailing)))
    (hvs : Expr.renderAll l level ss vs = .ok (String.ofList t)) :
    Expr.renderAll l level (s :: ss) (v :: vs) = .ok (String.ofList
      (a ++ (v.trailing ++ (itemGap (some s) vs.isEmpty v.hasSpans).toList) ++ t)) := by
  rw [Expr.renderAll, hv, List.tail_cons, List.head?_cons, hvs]
  simp [bind, Except.bind, pure, Except.pure, ← String.toList_inj]

/-- A name that does not run on ends before the items after it. -/
theorem delimits_of_runsOn {v : Expr} {vs : List Expr} {s : TokenSpans} {t : List Char}
    (hs : s.IsSeparator) (hv : Blank v.trailing) (hruns : v.runsOn (some s) vs = false)
    (hname : v.isName = true) (hnil : vs = [] → t = [])
    (hhead : ∀ w ∈ vs.head?, w.StartsLike t) :
    Delimits (v.trailing ++ (itemGap (some s) vs.isEmpty v.hasSpans).toList ++ t) := by
  by_cases hempty : v.trailing ++ (itemGap (some s) vs.isEmpty v.hasSpans).toList = []
  · obtain ⟨htrail, hgap⟩ := List.append_eq_nil_iff.1 hempty
    rw [hempty, List.nil_append]
    cases vs with
    | nil =>
      rw [hnil rfl]
      exact delimits_nil
    | cons w ws =>
      have hitem : itemGap (some s) false v.hasSpans = "" := String.toList_eq_nil_iff.1 hgap
      have hstart : w.startsInName = false := by
        simpa [Expr.runsOn, Expr.isOpenName, hname, htrail, hitem] using hruns
      exact (hhead w rfl).delimits hstart
  · exact (gap_itemGap hs hv _ _).delimits hempty t

/-- Items with their separators. -/
theorem exists_renderAll {l : Layout} {level : Nat} {values : List Expr}
    {separators : List TokenSpans} (hvalues : ∀ v ∈ values, v.Renders l level)
    (hblank : ∀ v ∈ values, Blank v.trailing) (hseps : ∀ s ∈ separators, s.IsSeparator)
    (hlen : separators.length = values.length)
    (hapart : Expr.areApart separators values = true) :
    ∃ t, Expr.renderAll l level separators values = .ok (String.ofList t) ∧
      Series (fun g _ => Gap g) Expr.isName Expr.SpelledAs values t ∧
      ∀ v ∈ values.head?, v.StartsLike t := by
  induction values generalizing separators with
  | nil => exact ⟨[], rfl, .nil, by simp⟩
  | cons v vs ih =>
    obtain ⟨⟨a, ha, hspelled, hhead⟩, hvs⟩ := List.forall_mem_cons.1 hvalues
    obtain ⟨hv, hblanks⟩ := List.forall_mem_cons.1 hblank
    cases separators with
    | nil => exact absurd hlen (by simp)
    | cons s ss =>
      obtain ⟨hs, hss⟩ := List.forall_mem_cons.1 hseps
      simp only [Expr.areApart, List.head?_cons, List.tail_cons, Bool.and_eq_true,
        Bool.not_eq_true'] at hapart
      obtain ⟨⟨-, hruns⟩, hrest⟩ := hapart
      obtain ⟨t, ht, hseries, hthead⟩ := ih hvs hblanks hss (by simpa using hlen) hrest
      have hnil : vs = [] → t = [] := by
        rintro rfl
        cases hseries
        rfl
      refine ⟨_, renderAll_cons ha ht, .cons hspelled (gap_itemGap hs hv _ _)
        (fun hname => delimits_of_runsOn hs hv hruns hname hnil hthead) hseries, fun w hw => ?_⟩
      exact Option.some_inj.1 hw ▸ (hhead.append _).append _

/-- A key that is the rest of a token is written as its name. -/
theorem render_fused {name : String} {span : Option TokenSpans}
    (h : ∀ t ∈ span, t.Holds name.toList []) (l : Layout) (level : Nat) :
    (Expr.leaf (.atom name) span).render l level = .ok name ∧
      (Expr.leaf (.atom name) span).text = name ∧
      (Expr.leaf (.atom name) span).isOpenName = true := by
  cases span with
  | none => exact ⟨rfl, rfl, rfl⟩
  | some t =>
    have ht := h t rfl
    have htext : t.text = name := by rw [ht.text, List.append_nil, String.ofList_toList]
    refine ⟨?_, htext, ?_⟩
    · rw [Expr.render, ht.sourceText?, Option.getD_some, htext]
    · rw [Expr.isOpenName, Expr.trailing, ht.layoutAfter]
      rfl

/-- The key of a field and its colon, in front of the value. -/
theorem exists_renderKey {l : Layout} {level : Nat} {f : Field} {new : Expr → Prop}
    {t : List Char} (hf : FieldSourced (Expr.Sourced new) f)
    (hkey : f.key.Sourced new → f.key.Renders l level) (hruns : f.runsOn = false)
    (ht : f.value.StartsLike t) :
    ∃ key s, f.key.render l level = .ok key ∧
      key.toList ++ (keyGap f.separator f.key.hasSpans).toList = s ∧
      KeySpelledAs Expr.SpelledAs f.key s t := by
  cases hf with
  | @fused name span v colon g hname hspan hcolon hg hv =>
    obtain ⟨hkey, -, hopen⟩ := render_fused hspan l level
    refine ⟨name, name.toList ++ ':' :: g, hkey, by simp [hcolon.keyGap], .fused hname hg ?_⟩
    -- the colon is read with the key, so the value must not go on behind it
    by_cases hnil : g = []
    · subst hnil
      have hstart : v.startsInName = false := by
        simpa [Field.runsOn, hopen, hcolon.keyGap] using hruns
      exact ht.delimits hstart
    · exact hg.delimits hnil t
  | @apart k v colon g hk hblank hends hname hcolon hg hv =>
    obtain ⟨a, ha, hspelled, -⟩ := hkey hk
    refine ⟨_, a ++ k.trailing ++ ':' :: g, ha, by simp [hcolon.keyGap],
      .apart hspelled hends hblank hname hg⟩

theorem renderFields_cons {l : Layout} {level : Nat} {f : Field} {fs : List Field} {s : TokenSpans}
    {ss : List TokenSpans} {key : String} {a b t : List Char}
    (hkey : f.key.render l level = .ok key)
    (ha : key.toList ++ (keyGap f.separator f.key.hasSpans).toList = a)
    (hvalue : f.value.render l level = .ok (String.ofList (b ++ f.value.trailing)))
    (hfs : Field.renderAll l level ss fs = .ok (String.ofList t)) :
    Field.renderAll l level (s :: ss) (f :: fs) = .ok (String.ofList
      (a ++ b ++ (f.value.trailing ++ (fieldGap (some s) fs.isEmpty).toList) ++ t)) := by
  obtain ⟨k, v, separator⟩ := f
  subst ha
  rw [Field.renderAll, hkey, hvalue, List.tail_cons, List.head?_cons, hfs]
  simp [bind, Except.bind, pure, Except.pure, ← String.toList_inj]

/-- Only after the last field can there be nothing at all. -/
theorem delimits_of_fieldGap {v : Expr} {fs : List Field} {s : TokenSpans} {t : List Char}
    (hs : s.IsSeparator) (hv : Blank v.trailing) (hnil : fs = [] → t = []) :
    Delimits (v.trailing ++ (fieldGap (some s) fs.isEmpty).toList ++ t) := by
  by_cases hempty : v.trailing ++ (fieldGap (some s) fs.isEmpty).toList = []
  · cases fs with
    | nil =>
      rw [hempty, hnil rfl]
      exact delimits_nil
    | cons f fs =>
      have hgap := (List.append_eq_nil_iff.1 hempty).2
      exact absurd (String.toList_eq_nil_iff.1 hgap) (fieldGap_ne hs)
  · exact (gap_fieldGap hs hv _).delimits hempty t

/-- Fields with their separators. -/
theorem exists_renderFields {l : Layout} {level : Nat} {new : Expr → Prop} {fields : List Field}
    {separators : List TokenSpans}
    (hfields : ∀ f ∈ fields, FieldSourced (Expr.Sourced new) f)
    (hkeys : ∀ f ∈ fields, f.key.Sourced new → f.key.Renders l level)
    (hvalues : ∀ f ∈ fields, f.value.Renders l level)
    (hblank : ∀ f ∈ fields, Blank f.value.trailing) (hseps : ∀ s ∈ separators, s.IsSeparator)
    (hlen : separators.length = fields.length) (hapart : Field.areApart fields = true) :
    ∃ t, Field.renderAll l level separators fields = .ok (String.ofList t) ∧
      Series (fun g _ => Gap g) (fun f : Field => f.value.isName)
        (FieldSpelledAs Expr.SpelledAs) fields t := by
  induction fields generalizing separators with
  | nil => exact ⟨[], rfl, .nil⟩
  | cons f fs ih =>
    obtain ⟨hf, hfs⟩ := List.forall_mem_cons.1 hfields
    obtain ⟨hk, hks⟩ := List.forall_mem_cons.1 hkeys
    obtain ⟨⟨b, hb, hspelled, hhead⟩, hvs⟩ := List.forall_mem_cons.1 hvalues
    obtain ⟨hv, hbs⟩ := List.forall_mem_cons.1 hblank
    cases separators with
    | nil => exact absurd hlen (by simp)
    | cons s ss =>
      obtain ⟨hs, hss⟩ := List.forall_mem_cons.1 hseps
      obtain ⟨k, v, separator⟩ := f
      simp only [Field.areApart, Bool.and_eq_true, Bool.not_eq_true'] at hapart
      obtain ⟨⟨-, hruns⟩, hrest⟩ := hapart
      obtain ⟨key, a, hkey, ha, hkspelled⟩ := exists_renderKey hf hk hruns hhead
      obtain ⟨t, ht, hseries⟩ := ih hfs hks hvs hbs hss (by simpa using hlen) hrest
      have hnil : fs = [] → t = [] := by
        rintro rfl
        cases hseries
        rfl
      exact ⟨_, renderFields_cons hkey ha hb ht, .cons (.mk hkspelled hspelled)
        (gap_fieldGap hs hv _) (fun _ => delimits_of_fieldGap hs hv hnil) hseries⟩

/-! ### Expressions and documents -/

theorem render_items {l : Layout} {level : Nat} {values : List Expr} {o c : TokenSpans}
    {separators : List TokenSpans} {body : String} (enclosure : Enclosure)
    (h : Expr.renderAll l (level + 1) separators values = .ok body) :
    (Expr.items enclosure values ⟨some o, some separators, some c⟩).render l level =
      .ok (sourceBrackets ⟨some o, some separators, some c⟩ enclosure.brackets body) := by
  have hsome : (BracketSpans.mk (some o) (some separators) (some c)).isSome = true := rfl
  rw [Expr.render, if_pos hsome, Option.getD_some, h]
  rfl

theorem render_map {l : Layout} {level : Nat} {fields : List Field} {o c : TokenSpans}
    {separators : List TokenSpans} {body : String}
    (h : Field.renderAll l (level + 1) separators fields = .ok body) :
    (Expr.map fields ⟨some o, some separators, some c⟩).render l level =
      .ok (sourceBrackets ⟨some o, some separators, some c⟩ ("\x7b", "\x7d") body) := by
  have hsome : (BracketSpans.mk (some o) (some separators) (some c)).isSome = true := rfl
  rw [Expr.render, if_pos hsome, Option.getD_some, h]
  rfl

theorem render_brackets {opening closing : TokenSpans} {o c g g' t : List Char}
    (ho : opening.Holds o g) (hc : closing.Holds c g') (separators : Option (List TokenSpans))
    (brackets : String × String) :
    sourceBrackets ⟨some opening, separators, some closing⟩ brackets (String.ofList t) =
      String.ofList (o ++ g ++ t ++ c ++ g') := by
  rw [sourceBrackets, ho.sourceText?, hc.sourceText?, ho.text, hc.text]
  simp [← String.toList_inj]

theorem startsLike_items {enclosure : Enclosure} {o c : TokenSpans} {g : List Char}
    (ho : o.Holds enclosure.brackets.1.toList g) (values : List Expr)
    (separators : List TokenSpans) (s : List Char) :
    (Expr.items enclosure values ⟨some o, some separators, some c⟩).StartsLike
      (enclosure.brackets.1.toList ++ s) := by
  have htext : (Expr.items enclosure values ⟨some o, some separators, some c⟩).text =
      o.text ++ _ ++ _ := rfl
  refine ⟨?_, ?_⟩
  · cases enclosure with
    | group => exact isStart_of_mem (c := '(') (by decide)
    | sequence => exact isStart_of_mem (c := '[') (by decide)
  · rw [htext, ho.text]
    cases enclosure with
    | group => simp [Enclosure.brackets]
    | sequence => simp [Enclosure.brackets]

theorem startsLike_map {o c : TokenSpans} {g : List Char} (ho : o.Holds ['{'] g)
    (fields : List Field) (separators : List TokenSpans) (s : List Char) :
    (Expr.map fields ⟨some o, some separators, some c⟩).StartsLike ('{' :: s) := by
  have htext : (Expr.map fields ⟨some o, some separators, some c⟩).text =
      o.text ++ _ ++ _ := rfl
  refine ⟨isStart_of_mem (c := '{') (by decide), ?_⟩
  rw [htext, ho.text]
  simp

/-- What is written of an expression with its spans is a spelling of it, if no name in it
runs on and the parts that were put in are written so too. -/
theorem Expr.Sourced.renders {l : Layout} {new : Expr → Prop} {e : Expr} (h : e.Sourced new)
    (hnew : ∀ x, new x → ∀ level, x.Renders l level) (hapart : e.isApart = true) (level : Nat) :
    e.Renders l level := by
  induction e using Expr.induction generalizing level with
  | leaf leaf span =>
    cases h with
    | new h => exact hnew _ h level
    | @leaf _ t s g hs ht =>
      refine ⟨s, ?_, .leaf hs, hs.isStart, ?_⟩
      · rw [Expr.render, ht.sourceText?, Expr.trailing, ht.layoutAfter, ht.text]
        rfl
      · rw [Expr.text, ht.text, String.toList_ofList, headD_append (ne_nil_of_isStart hs.isStart)]
  | items enclosure values spans ih =>
    cases h with
    | new h => exact hnew _ h level
    | @items _ _ o c separators g g' ho hg hvalues hblank hseps hlen hc =>
      rw [Expr.isApart, Option.getD_some] at hapart
      obtain ⟨t, ht, hseries, -⟩ := exists_renderAll
        (fun v hv => ih v hv (hvalues v hv) (Expr.isApart_of_mem hapart v hv) (level + 1))
        hblank hseps hlen hapart
      refine ⟨_, ?_, .items hg hseries, ?_⟩
      · rw [render_items _ ht, render_brackets ho hc, Expr.trailing, hc.layoutAfter]
      · rw [List.append_assoc, List.append_assoc]
        exact startsLike_items ho _ _ _
  | map fields spans ih =>
    cases h with
    | new h => exact hnew _ h level
    | @map _ o c separators g g' ho hg hfields hblank hseps hlen hc =>
      rw [Expr.isApart] at hapart
      have hmem := Field.isApart_of_mem hapart
      obtain ⟨t, ht, hseries⟩ := exists_renderFields hfields
        (fun f hf hk => (ih f hf).1 hk (hmem f hf).1 (level + 1))
        (fun f hf => (ih f hf).2 (hfields f hf).value (hmem f hf).2 (level + 1))
        hblank hseps hlen hapart
      refine ⟨_, ?_, .map hg hseries, ?_⟩
      · rw [render_map ht, render_brackets ho hc, Expr.trailing, hc.layoutAfter]
        simp
      · exact startsLike_map ho _ _ _
  | bare mark =>
    cases h with
    | new h => exact hnew _ h level

theorem SourcedText.gapBefore {new : Expr → Prop} {g t : List Char} {es : List Expr}
    (h : SourcedText new g es) (hnil : es = [] → t = [])
    (hstart : es ≠ [] → isStart (t.headD endMark) = true) : GapBefore g t := by
  cases h with
  | nil h =>
    rw [hnil rfl]
    exact h
  | cons hg he h => exact hg.gapBefore (layoutLength_of_isStart (hstart (by simp)))

/-- A name does not end in a blank. -/
theorem endsBlank_append_name {s : List Char} (hs : IsNameToken s) (acc : List Char) :
    endsBlank (String.ofList (acc ++ s)) = false := by
  obtain ⟨t, c, rfl⟩ := (List.eq_nil_or_concat s).resolve_left hs.ne_nil
  have hc : isNameChar c = true := hs.isNameChar c (by simp)
  have hne : ∀ {x : Char}, Text.isSpace x = true → c ≠ x := by
    rintro x hx rfl
    exact absurd hc (by simp [isNameChar_of_isSpace hx])
  have hblank := hne isSpace_blank
  have hnewline := hne isSpace_newline
  have htab := hne (x := '\t') (by decide)
  have hreturn := hne (x := '\r') (by decide)
  simp [endsBlank, hblank, hnewline, htab, hreturn]

/-- What is put in after an expression of a document: nothing after the last one, and
else a blank, unless the text ends in one already. -/
structure GapAfter (text : List Char) (es : List Expr) (gap : List Char) : Prop where
  last : es = [] → gap = []
  blank : Blank gap
  ne_nil : es ≠ [] → gap = [] → endsBlank (String.ofList text) = true

theorem renderAfter_cons {l : Layout} {e : Expr} {s : List Char}
    (he : e.render l 0 = .ok (String.ofList s)) (es : List Expr) (acc : List Char) :
    ∃ gap, renderAfter l (String.ofList acc) (e :: es) =
      renderAfter l (String.ofList (acc ++ s ++ gap)) es ∧ GapAfter (acc ++ s) es gap := by
  rw [renderAfter, he]
  show ∃ gap, renderAfter l (if es.isEmpty || endsBlank (String.ofList acc ++ String.ofList s) then
    String.ofList acc ++ String.ofList s else _) es = _ ∧ _
  rw [← String.ofList_append]
  split_ifs with hif
  · refine ⟨[], by rw [List.append_nil], fun _ => rfl, .nil, fun hne _ => ?_⟩
    simpa [hne] using hif
  · refine ⟨l.gap.toList, by simp [String.ofList_append, String.append_assoc], fun hnil => ?_,
      l.textGap_gap.1, ?_⟩
    · exact absurd hif (by simp [hnil])
    · intro _ hempty
      exact absurd hempty (l.textGap_gap.2 rfl)

theorem GapAfter.sourcedText {new : Expr → Prop} {text g gap : List Char} {es : List Expr}
    (h : GapAfter text es gap) (hes : SourcedText new g es) : SourcedText new (g ++ gap) es := by
  cases hes with
  | nil hg =>
    rw [h.last rfl, List.append_nil]
    exact .nil hg
  | cons hg he hes => exact .cons (hg.append h.blank) he hes

/-- A name ends before what is written after it. -/
theorem GapAfter.delimits {e : Expr} {es : List Expr} {acc s gap t : List Char}
    (h : GapAfter (acc ++ (s ++ e.trailing)) es gap) (hs : e.SpelledAs s) (hname : e.isName = true)
    (hgap : GapBefore (e.trailing ++ gap) t) (hnil : es = [] → t = []) :
    Delimits (e.trailing ++ gap ++ t) := by
  by_cases hempty : e.trailing ++ gap = []
  · obtain ⟨htrail, hgap⟩ := List.append_eq_nil_iff.1 hempty
    by_cases hlast : es = []
    · rw [hempty, hnil hlast]
      exact delimits_nil
    · have hblank := h.ne_nil hlast hgap
      rw [htrail, List.append_nil, endsBlank_append_name (hs.isNameToken hname)] at hblank
      exact absurd hblank (by simp)
  · exact hgap.delimits hempty

/-- The expressions of a document, after a text. -/
theorem exists_renderAfter {l : Layout} {new : Expr → Prop} {g : List Char} {es : List Expr}
    (h : SourcedText new g es) (hnew : ∀ x, new x → ∀ level, x.Renders l level)
    (hapart : ∀ e ∈ es, e.isApart = true) (acc : List Char) :
    ∃ t, renderAfter l (String.ofList acc) es = .ok (String.ofList (acc ++ t)) ∧
      Series GapBefore Expr.isName Expr.SpelledAs es t ∧ (es = [] → t = []) ∧
      (es ≠ [] → isStart (t.headD endMark) = true) := by
  induction h generalizing acc with
  | nil => exact ⟨[], by rw [renderAfter, List.append_nil], .nil, by simp, by simp⟩
  | @cons g e es hg he hes ih =>
    obtain ⟨he', hes'⟩ := List.forall_mem_cons.1 hapart
    obtain ⟨s, hs, hspelled, -⟩ := he.renders hnew he' 0
    obtain ⟨gap, hstep, hafter⟩ := renderAfter_cons hs es acc
    obtain ⟨t, ht, hseries, hnil, hstart⟩ := ih hes' (acc ++ (s ++ e.trailing) ++ gap)
    have hgap := (hafter.sourcedText hes).gapBefore hnil hstart
    refine ⟨s ++ (e.trailing ++ gap) ++ t, ?_, .cons hspelled hgap
      (fun hname => hafter.delimits hspelled hname hgap hnil) hseries, by simp, fun _ => ?_⟩
    · rw [hstep, ht]
      simp
    · rw [List.append_assoc, headD_append hspelled.ne_nil]
      exact hspelled.isStart

/-- A document with its spans is written as one of its spellings, if no name in it runs on. -/
theorem Document.exists_render {l : Layout} {new : Expr → Prop} {d : Document}
    (h : d.Sourced new) (hnew : ∀ x, new x → ∀ level, x.Renders l level)
    (hapart : d.isApart = true) : ∃ text, d.render l = .ok text ∧ d.SpelledAs text.toList := by
  obtain ⟨span, hspan, hes⟩ := h
  obtain ⟨t, ht, hseries, hnil, hstart⟩ :=
    exists_renderAfter hes hnew (List.all_eq_true.1 hapart) span.raw.toList
  refine ⟨String.ofList (span.raw.toList ++ t), ?_, span.raw.toList, t, String.toList_ofList,
    hes.gapBefore hnil hstart, hseries⟩
  rw [Document.render, hspan, ← ht]
  simp

theorem Value.print_of_render (rs : Records) {o : PrintOptions} {l : Layout} {d : Document}
    {text : String} (hl : o.layout = .ok l) (hspans : o.encode.keepSpans = true)
    (htext : d.render l = .ok text) : Value.print rs o (.document d) = .ok text := by
  rw [Value.print, hl, Value.toDocument]
  simp only [hspans]
  show (d.render l).mapError Failure.print = _
  rw [htext]
  rfl

/-- A document that was read with its spans is printed as a text that means the same. -/
theorem Document.parse_print_of_parse {src : String} {d : Document}
    (h : Document.parse src true = .ok d) (rs : Records) {o : PrintOptions}
    (hindent : ∀ n ∈ o.indent, 0 < n) (hwidth : 20 ≤ o.width)
    (hspans : o.encode.keepSpans = true) :
    ∃ text, Value.print rs o (.document d) = .ok text ∧
      Document.parse text false = .ok d.dropSpans ∧ Document.parse src false = .ok d.dropSpans := by
  obtain ⟨l, hl⟩ := o.exists_layout hindent hwidth
  have hread : Document.read src = .ok d := h
  obtain ⟨hsourced, hapart, -⟩ := Document.sourced_of_read hread
  obtain ⟨text, htext, hspelled⟩ := Document.exists_render hsourced (fun _ h => h.elim) hapart
  refine ⟨text, Value.print_of_render rs hl hspans htext,
    Document.readPlain_of_spelledAs hspelled, ?_⟩
  show (Document.read src).map Document.dropSpans = _
  rw [hread]
  rfl

/-- Expressions that touch, fields without a comma, a raw string and a comment that is left
open. -/
theorem Document.parse_print_of_parse_touching :
    ∃ d text, Document.parse "a\"b\"\x7bx: 1 y :[2(c)] \x7d#r\"z\"r ;end" true = .ok d ∧
      Value.print [] ⟨none, 20, ⟨true, [], true⟩⟩ (.document d) = .ok text ∧
      Document.parse text false = .ok d.dropSpans := by
  obtain ⟨d, hd⟩ := Document.exists_of_isOk (show (Document.parse
    "a\"b\"\x7bx: 1 y :[2(c)] \x7d#r\"z\"r ;end" true).isOk = true by decide +kernel)
  obtain ⟨text, hprint, hparse, -⟩ := Document.parse_print_of_parse hd []
    (o := ⟨none, 20, ⟨true, [], true⟩⟩) (by simp) (by decide) rfl
  exact ⟨d, text, hd, hprint, hparse⟩

end Sexpr
