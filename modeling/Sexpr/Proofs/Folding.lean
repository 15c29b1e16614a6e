/-
Expressions over several lines.

A text that is laid out is taken apart into lines and indented, again and again. This
changes ends of lines only, which are white space between the parts of an expression. Of a
string it changes the ends of lines that it keeps as they are, and nothing else.

* `Refolds` — what a step of a layout does with characters;
* `Folded` — a string after such steps;
* `Expr.FoldedAs` — an expression after such steps, `Expr.FoldedAs.refold` — and after one more;
* `Expr.Readable.formatted_inline` — an expression in one line;
* `Expr.FoldedAs.writtenAs` — if no string keeps the end of a line, the expression is written.
-/
import Sexpr.Proofs.Canonical
import Sexpr.Proofs.Indentation

namespace Sexpr

/-! ### Steps of a layout -/

/-- The ends of lines that strings keep as they are. -/
def keptLineEnds : List Char :=
  ['\x0b', '\x0c', '\x1c', '\x1d', '\x1e', '\u0085', '\u2028', '\u2029']

/-- What a step of a layout makes of each character: line ends may be cut and followed by
blanks, all other characters stay. -/
structure Refolds (f : Char → List Char) : Prop where
  keep : ∀ c, Text.isLineEnd c = false → f c = [c]
  newline : ∃ n, f '\n' = '\n' :: List.replicate n ' '
  cut : ∀ c ∈ keptLineEnds, f c = [c] ∨ ∃ n, f c = '\n' :: List.replicate n ' '

theorem refolds_cutChar : Refolds cutChar := by
  refine ⟨fun c hc => if_neg (by simp [hc]), ⟨0, rfl⟩, fun c hc => .inr ⟨0, if_pos ?_⟩⟩
  exact List.contains_iff_mem.2 (List.mem_cons_of_mem _ (List.mem_cons_of_mem _ hc))

theorem Layout.refolds_indentChar (l : Layout) : Refolds l.indentChar := by
  refine ⟨fun c hc => if_neg ?_, ⟨l.indent, ?_⟩, fun c hc => .inl (if_neg ?_)⟩
  · rintro rfl
    exact absurd hc (by decide)
  · rw [indentChar, if_pos rfl, l.toList_margin]
  · rintro rfl
    exact absurd hc (by decide)

section Refolds

variable {f : Char → List Char}

theorem Refolds.flatMap_eq (hf : Refolds f) {s : List Char} (h : OneLine s) : s.flatMap f = s := by
  induction s with
  | nil => rfl
  | cons c s ih =>
    obtain ⟨hc, hs⟩ := List.forall_mem_cons.1 h
    rw [List.flatMap_cons, hf.keep c hc, ih hs]
    rfl

/-- White space of blanks and newlines. -/
def Spaces (g : List Char) : Prop := ∀ c ∈ g, c = ' ' ∨ c = '\n'

instance (g : List Char) : Decidable (Spaces g) :=
  List.decidableBAll (fun c => c = ' ' ∨ c = '\n') g

theorem spaces_newline : Spaces ['\n'] := by decide

theorem spaces_replicate (n : Nat) : Spaces (List.replicate n ' ') := by
  intro c hc
  exact .inl (List.mem_replicate.1 hc).2

theorem Spaces.blank {g : List Char} (h : Spaces g) : Blank g := by
  induction g with
  | nil => exact .nil
  | cons c g ih =>
    obtain ⟨hc, hg⟩ := List.forall_mem_cons.1 h
    refine .space ?_ (ih hg)
    rcases hc with rfl | rfl
    · exact isSpace_blank
    · exact isSpace_newline

theorem Spaces.refold {g : List Char} (h : Spaces g) (hf : Refolds f) : Spaces (g.flatMap f) := by
  intro c hc
  obtain ⟨x, hx, hc⟩ := List.mem_flatMap.1 hc
  rcases h x hx with rfl | rfl
  · rw [hf.keep ' ' (by decide), List.mem_singleton] at hc
    exact .inl hc
  · obtain ⟨n, hn⟩ := hf.newline
    rw [hn, List.mem_cons] at hc
    rcases hc with rfl | hc
    · exact .inr rfl
    · exact spaces_replicate n c hc

theorem Spaces.refold_ne_nil {g : List Char} (h : Spaces g) (hf : Refolds f) (hne : g ≠ []) :
    g.flatMap f ≠ [] := by
  obtain ⟨c, g, rfl⟩ := List.exists_cons_of_ne_nil hne
  rw [List.flatMap_cons]
  rcases h c List.mem_cons_self with rfl | rfl
  · simp [hf.keep ' ' (by decide)]
  · obtain ⟨n, hn⟩ := hf.newline
    simp [hn]

/-! ### Strings -/

/-- The characters of a string in a layout: escaped, or cut where the string keeps the end
of a line. -/
inductive Folded : List Char → List Char → Prop
  | nil : Folded [] []
  | keep (c : Char) {s t : List Char} (h : Folded s t) : Folded (c :: s) (escapeChar c ++ t)
  | cut {c : Char} (hc : c ∈ keptLineEnds) (n : Nat) {s t : List Char} (h : Folded s t) :
      Folded (c :: s) ('\n' :: (List.replicate n ' ' ++ t))

theorem folded_flatMap (s : List Char) : Folded s (s.flatMap escapeChar) := by
  induction s with
  | nil => exact .nil
  | cons c s ih => exact .keep c ih

theorem escapeChar_of_mem {c : Char} (h : c ∈ keptLineEnds) : escapeChar c = [c] := by
  have hall : keptLineEnds.all fun c => escapeChar c = [c] := by decide
  simpa using List.all_eq_true.1 hall c h

theorem oneLine_escapeChar {c : Char} (h : c ∉ keptLineEnds) : OneLine (escapeChar c) := by
  unfold escapeChar
  split_ifs with hslash hnewline htab hreturn hzero hquote
  · decide
  · decide
  · decide
  · decide
  · decide
  · decide
  · rintro x hx
    rw [List.mem_singleton.1 hx, ← Bool.not_eq_true]
    simp only [Text.isLineEnd, List.contains_iff_mem, List.mem_cons, hnewline, hreturn, false_or]
    exact fun hend => h (by simpa [keptLineEnds] using hend)

/-- A string stays folded. -/
theorem Folded.refold {s t : List Char} (h : Folded s t) (hf : Refolds f) :
    Folded s (t.flatMap f) := by
  induction h with
  | nil => exact .nil
  | @keep c s t h ih =>
    rw [List.flatMap_append]
    by_cases hc : c ∈ keptLineEnds
    · rw [escapeChar_of_mem hc, List.flatMap_singleton]
      rcases hf.cut c hc with hsame | ⟨n, hn⟩
      · rw [hsame, ← escapeChar_of_mem hc]
        exact .keep c ih
      · rw [hn]
        exact .cut hc n ih
    · -- any other end of a line is escaped
      rw [hf.flatMap_eq (oneLine_escapeChar hc)]
      exact .keep c ih
  | @cut c hc n s t h ih =>
    obtain ⟨m, hm⟩ := hf.newline
    have hblanks : OneLine (List.replicate n ' ') := fun x hx => by
      rw [(List.mem_replicate.1 hx).2]
      decide
    -- the newline of a cut gets more blanks
    rw [List.flatMap_cons, List.flatMap_append, hm, hf.flatMap_eq hblanks, List.cons_append,
      ← List.append_assoc, List.replicate_append_replicate]
    exact .cut hc (m + n) ih

theorem Folded.return_not_mem {s t : List Char} (h : Folded s t) : '\r' ∉ t := by
  induction h with
  | nil => simp
  | @keep c s t h ih =>
    rw [List.mem_append, not_or]
    refine ⟨fun hmem => ?_, ih⟩
    by_cases hc : c ∈ keptLineEnds
    · rw [escapeChar_of_mem hc, List.mem_singleton] at hmem
      exact absurd (hmem ▸ hc) (by decide)
    · exact absurd (oneLine_escapeChar hc _ hmem) (by decide)
  | cut hc n h ih => simp [ih]

/-- A string that keeps no end of a line is only escaped. -/
theorem Folded.eq_flatMap {s t : List Char} (h : Folded s t) (hs : ∀ c ∈ s, c ∉ keptLineEnds) :
    t = s.flatMap escapeChar := by
  induction h with
  | nil => rfl
  | keep c h ih => rw [List.flatMap_cons, ih (List.forall_mem_cons.1 hs).2]
  | cut hc n h ih => exact absurd hc (List.forall_mem_cons.1 hs).1

/-! ### Expressions -/

/-- What stands after an item of a bracket in a layout: white space, which is not empty unless
the item is the last one, or a comma and white space. -/
inductive LayoutGap (last : Bool) : List Char → Prop
  | spaces {g : List Char} (hg : Spaces g) (hne : last = false → g ≠ []) : LayoutGap last g
  | comma {g : List Char} (hg : Spaces g) : LayoutGap last (',' :: g)

theorem LayoutGap.itemGap {last : Bool} {g : List Char} (h : LayoutGap last g) :
    ItemGap last g := by
  cases h with
  | spaces hg hne => exact .blank ⟨hg.blank, hne⟩
  | comma hg => exact .comma .nil hg.blank

theorem LayoutGap.refold {last : Bool} {g : List Char} (h : LayoutGap last g) (hf : Refolds f) :
    LayoutGap last (g.flatMap f) := by
  cases h with
  | spaces hg hne => exact .spaces (hg.refold hf) fun hlast => hg.refold_ne_nil hf (hne hlast)
  | comma hg =>
    rw [List.flatMap_cons, hf.keep ',' (by decide)]
    exact .comma (hg.refold hf)

/-- A leaf in a layout. -/
inductive Leaf.FoldedAs : Leaf → List Char → Prop
  | name {l : Leaf} (h : ∀ c ∈ l.text.toList, isNameChar c = true) : FoldedAs l l.text.toList
  | string {s : String} {t : List Char} (h : Folded s.toList t) :
      FoldedAs (.string s) ('"' :: t ++ ['"'])

/-- A field is its key, a colon directly after it, a blank and its value. -/
inductive FieldFoldedAs (W : Expr → List Char → Prop) : Field → List Char → Prop
  | mk {k v : Expr} {separator : Option TokenSpans} {s t : List Char} (hk : W k s) (hv : W v t) :
      FieldFoldedAs W ⟨k, v, separator⟩ (s ++ ':' :: [' '] ++ t)

/-- An expression in a layout. -/
inductive Expr.FoldedAs : Expr → List Char → Prop
  | leaf {l : Leaf} {span : Option TokenSpans} {s : List Char} (h : l.FoldedAs s) :
      FoldedAs (.leaf l span) s
  | items {enclosure : Enclosure} {values : List Expr} {spans : BracketSpans} {g t : List Char}
      (hg : Spaces g) (h : Separated LayoutGap FoldedAs values t) :
      FoldedAs (.items enclosure values spans)
        (enclosure.brackets.1.toList ++ g ++ t ++ enclosure.brackets.2.toList)
  | map {fields : List Field} {spans : BracketSpans} {g t : List Char} (hg : Spaces g)
      (h : Separated LayoutGap (FieldFoldedAs FoldedAs) fields t) :
      FoldedAs (.map fields spans) ('{' :: g ++ t ++ ['}'])

theorem isSpace_of_isLineEnd {c : Char} (h : Text.isLineEnd c = true) : Text.isSpace c = true := by
  have hall : ['\n', '\r', '\x0b', '\x0c', '\x1c', '\x1d', '\x1e', '\u0085', '\u2028',
      '\u2029'].all Text.isSpace = true := by decide
  exact List.all_eq_true.1 hall c (List.contains_iff_mem.1 h)

theorem oneLine_of_isNameChar {cs : List Char} (h : ∀ c ∈ cs, isNameChar c = true) :
    OneLine cs := by
  intro c hc
  rw [← Bool.not_eq_true]
  intro hend
  exact absurd (h c hc) (by simp [isNameChar_of_isSpace (isSpace_of_isLineEnd hend)])

theorem Leaf.FoldedAs.refold {l : Leaf} {s : List Char} (h : l.FoldedAs s) (hf : Refolds f) :
    l.FoldedAs (s.flatMap f) := by
  cases h with
  | name h =>
    rw [hf.flatMap_eq (oneLine_of_isNameChar h)]
    exact .name h
  | string h =>
    rw [List.flatMap_append, List.flatMap_cons, hf.keep '"' (by decide), List.flatMap_singleton,
      hf.keep '"' (by decide)]
    exact .string (h.refold hf)

theorem oneLine_brackets (enclosure : Enclosure) :
    OneLine enclosure.brackets.1.toList ∧ OneLine enclosure.brackets.2.toList := by
  cases enclosure <;> decide

/-- Parts that are changed character by character, and the gaps between them. -/
theorem Separated.flatMap {α : Type} {gap gap' : Bool → List Char → Prop}
    {W W' : α → List Char → Prop} {xs : List α} {t : List Char} (h : Separated gap W xs t)
    (hgap : ∀ {last g}, gap last g → gap' last (g.flatMap f))
    (hW : ∀ x ∈ xs, ∀ s, W x s → W' x (s.flatMap f)) : Separated gap' W' xs (t.flatMap f) := by
  induction h with
  | nil => exact .nil
  | @cons x xs s g t hx hg hxs ih =>
    obtain ⟨hhead, htail⟩ := List.forall_mem_cons.1 hW
    rw [List.flatMap_append, List.flatMap_append]
    exact .cons (hhead s hx) (hgap hg) (ih htail)

/-- A layout of an expression is still one after a step. -/
theorem Expr.FoldedAs.refold {e : Expr} {s : List Char} (h : e.FoldedAs s) (hf : Refolds f) :
    e.FoldedAs (s.flatMap f) := by
  induction e using Expr.induction generalizing s with
  | leaf leaf span =>
    cases h with
    | leaf h => exact .leaf (h.refold hf)
  | items enclosure values spans ih =>
    cases h with
    | items hg h =>
      obtain ⟨hopen, hclose⟩ := oneLine_brackets enclosure
      simp only [List.flatMap_append, hf.flatMap_eq hopen, hf.flatMap_eq hclose]
      exact .items (hg.refold hf) (h.flatMap (fun hg => hg.refold hf) fun v hv u hu => ih v hv hu)
  | map fields spans ih =>
    cases h with
    | @map _ _ g t hg h =>
      rw [List.flatMap_append, List.flatMap_append, List.flatMap_cons, hf.keep '{' (by decide),
        List.flatMap_singleton, hf.keep '}' (by decide)]
      refine .map (hg.refold hf) (h.flatMap (fun hg => hg.refold hf) ?_)
      rintro field hfield _ ⟨hk, hv⟩
      rw [List.flatMap_append, List.flatMap_append, hf.flatMap_eq (s := ':' :: [' ']) (by decide)]
      exact .mk ((ih _ hfield).1 hk) ((ih _ hfield).2 hv)
  | bare mark => cases h

end Refolds

theorem Expr.FoldedAs.endsInLine {e : Expr} {s : List Char} (h : e.FoldedAs s) (hne : s ≠ []) :
    EndsInLine s := by
  cases h with
  | leaf h =>
    cases h with
    | name h =>
      refine ⟨_, List.getLast?_eq_some_getLast hne, ?_⟩
      exact oneLine_of_isNameChar h _ (List.getLast_mem hne)
    | string h => exact ⟨'"', List.getLast?_concat, by decide⟩
  | @items enclosure =>
    cases enclosure with
    | group => exact ⟨')', List.getLast?_concat, by decide⟩
    | sequence => exact ⟨']', List.getLast?_concat, by decide⟩
  | map => exact ⟨'}', List.getLast?_concat, by decide⟩

theorem Separated.not_mem {α : Type} {gap : Bool → List Char → Prop} {W : α → List Char → Prop}
    {xs : List α} {t : List Char} (h : Separated gap W xs t) {c : Char}
    (hgap : ∀ {last g}, gap last g → c ∉ g) (hW : ∀ x ∈ xs, ∀ s, W x s → c ∉ s) : c ∉ t := by
  induction h with
  | nil => simp
  | @cons x xs s g t hx hg hxs ih =>
    obtain ⟨hhead, htail⟩ := List.forall_mem_cons.1 hW
    simp only [List.mem_append, not_or]
    exact ⟨⟨hhead s hx, hgap hg⟩, ih htail⟩

theorem Spaces.return_not_mem {g : List Char} (h : Spaces g) : '\r' ∉ g := fun hmem =>
  absurd (h _ hmem) (by decide)

/-- No layout has a carriage return, which strings escape. -/
theorem Expr.FoldedAs.return_not_mem {e : Expr} {s : List Char} (h : e.FoldedAs s) :
    '\r' ∉ s := by
  have hgap : ∀ {last g}, LayoutGap last g → '\r' ∉ g := by
    intro last g hg
    cases hg with
    | spaces hg hne => exact hg.return_not_mem
    | comma hg => simp [hg.return_not_mem]
  induction e using Expr.induction generalizing s with
  | leaf leaf span =>
    cases h with
    | leaf h =>
      cases h with
      | name h => exact fun hmem => absurd (oneLine_of_isNameChar h _ hmem) (by decide)
      | string h => simp [h.return_not_mem]
  | items enclosure values spans ih =>
    cases h with
    | items hg h =>
      obtain ⟨hopen, hclose⟩ := oneLine_brackets enclosure
      simp only [List.mem_append, not_or]
      refine ⟨⟨⟨fun hmem => absurd (hopen _ hmem) (by decide), hg.return_not_mem⟩, ?_⟩,
        fun hmem => absurd (hclose _ hmem) (by decide)⟩
      exact h.not_mem hgap fun v hv u hu => ih v hv hu
  | map fields spans ih =>
    cases h with
    | map hg h =>
      have hfields := h.not_mem hgap fun f hf u hu => by
        obtain ⟨hk, hv⟩ := hu
        simp [(ih _ hf).1 hk, (ih _ hf).2 hv]
      simp [hg.return_not_mem, hfields]
  | bare mark => cases h

/-! ### One line -/

/-- A text that an expression was formatted to. -/
structure Formatted (e : Expr) (t : String) : Prop where
  folded : e.FoldedAs t.toList
  ne_nil : t.toList ≠ []

/-- A leaf that can be read is a string, or its text is a name. -/
theorem Leaf.Readable.isNameToken_or {l : Leaf} (h : l.Readable) :
    (∃ s, l = .string s) ∨ IsNameToken l.text.toList := by
  rcases h.readsBack_reread with ⟨s, hs⟩ | ⟨htoken, -⟩
  · refine .inl ⟨s, ?_⟩
    cases l with
    | real r =>
      rw [Leaf.reread] at hs
      split_ifs at hs
    | _ => exact hs
  · rw [Leaf.text_reread] at htoken
    exact .inr htoken

theorem Leaf.foldedAs_string (s : String) :
    (Leaf.string s).FoldedAs (Leaf.string s).text.toList := by
  rw [Leaf.text, quoteString, String.toList_ofList]
  exact .string (folded_flatMap s.toList)

theorem Expr.IsKeyAtom.foldedAs {e : Expr} (h : e.IsKeyAtom) : e.FoldedAs e.inline.toList := by
  obtain ⟨name, span, rfl, htoken⟩ := h
  exact .leaf (.name fun c hc => htoken.isNameChar c (List.mem_append_left _ hc))

/-- An expression in one line. -/
theorem Expr.Readable.formatted_inline {e : Expr} (h : e.Readable) : Formatted e e.inline := by
  induction e using Expr.induction with
  | leaf leaf span =>
    cases h with
    | leaf h =>
      rcases h.isNameToken_or with ⟨s, rfl⟩ | htoken
      · exact ⟨.leaf (Leaf.foldedAs_string s), by simp [Expr.inline, Leaf.text,
          quoteString]⟩
      · exact ⟨.leaf (.name htoken.isNameChar), htoken.ne_nil⟩
  | items enclosure values spans ih =>
    cases h with
    | items h =>
      have hvalues : List.Forall₂ (fun v t => v.FoldedAs t.toList) values
          (values.map Expr.inline) :=
        List.forall₂_map_right_iff.2
          (List.forall₂_same.2 fun v hv => (ih v hv (h v hv)).folded)
      have hgap : LayoutGap false " ".toList := .spaces (by decide) (by simp)
      have hseparated : Separated LayoutGap Expr.FoldedAs values _ :=
        separated_intercalate hgap (.spaces (by decide) (by simp)) hvalues
      rw [Expr.inline_items]
      constructor
      · rw [String.toList_append, String.toList_append,
          ← List.append_nil enclosure.brackets.1.toList]
        exact .items (by decide) hseparated
      · cases enclosure <;> simp [Enclosure.brackets]
  | map fields spans ih =>
    cases h with
    | map hkeys hvalues =>
      have hfields : List.Forall₂ (fun f t => FieldFoldedAs Expr.FoldedAs f t.toList) fields
          (fields.map fun f => f.key.inline ++ ": " ++ f.value.inline) := by
        refine List.forall₂_map_right_iff.2 (List.forall₂_same.2 fun f hf => ?_)
        -- an atom that is read only with its colon need not be readable by itself
        have hkey : f.key.FoldedAs f.key.inline.toList := by
          by_cases hatom : f.key.IsKeyAtom
          · exact hatom.foldedAs
          · exact ((ih f hf).1 (hkeys f hf hatom)).folded
        have hfield : FieldFoldedAs Expr.FoldedAs f _ :=
          .mk hkey ((ih f hf).2 (hvalues f hf)).folded
        simpa using hfield
      have hgap : LayoutGap false ", ".toList := .comma (by decide)
      have hseparated : Separated LayoutGap (FieldFoldedAs Expr.FoldedAs) fields _ :=
        separated_intercalate hgap (.spaces (by decide) (by simp)) hfields
      rw [Expr.inline_map]
      constructor
      · rw [String.toList_append, String.toList_append]
        exact .map (g := []) (by decide) hseparated
      · simp
  | bare mark => cases h

/-! ### Written expressions -/

/-- A string that is written in one line keeps no end of a line. -/
theorem not_mem_keptLineEnds {s : String} (h : OneLine (quoteString s).toList) :
    ∀ c ∈ s.toList, c ∉ keptLineEnds := by
  intro c hc hkept
  have hmem : c ∈ (quoteString s).toList := by
    rw [quoteString, String.toList_ofList]
    refine List.mem_append_left _ (List.mem_cons_of_mem _ (List.mem_flatMap.2 ⟨c, hc, ?_⟩))
    rw [escapeChar_of_mem hkept]
    exact List.mem_singleton_self c
  have hall : keptLineEnds.all Text.isLineEnd := by decide
  exact absurd (h c hmem) (by simp [List.all_eq_true.1 hall c hkept])

/-- An expression whose leaves are in one line is written by every layout of it. -/
theorem Expr.FoldedAs.writtenAs {e : Expr} {s : List Char} (h : e.FoldedAs s)
    (hleaves : ∀ leaf ∈ e.leaves, OneLine leaf.text.toList) : e.WrittenAs s := by
  induction e using Expr.induction generalizing s with
  | leaf leaf span =>
    cases h with
    | leaf h =>
      cases h with
      | name h => exact .leaf
      | @string s t h =>
        have hone := hleaves (.string s) (by simp [Expr.leaves])
        have htext : (Leaf.string s).text.toList = '"' :: t ++ ['"'] := by
          rw [h.eq_flatMap (not_mem_keptLineEnds hone), Leaf.text, quoteString,
            String.toList_ofList]
        rw [← htext]
        exact .leaf
  | items enclosure values spans ih =>
    cases h with
    | items hg h =>
      refine .items hg.blank (h.imp LayoutGap.itemGap fun v hv u hu => ?_)
      refine ih v hv hu fun leaf hleaf => ?_
      exact hleaves leaf (Expr.mem_leavesAll.2 ⟨v, hv, hleaf⟩)
  | map fields spans ih =>
    cases h with
    | map hg h =>
      refine .map hg.blank (h.imp LayoutGap.itemGap ?_)
      rintro f hf _ ⟨hk, hv⟩
      refine .mk ((ih _ hf).1 hk fun leaf hleaf => ?_) blank_blank (by simp)
        ((ih _ hf).2 hv fun leaf hleaf => ?_)
      · exact hleaves leaf (Field.mem_leavesAll.2 ⟨_, hf, .inl hleaf⟩)
      · exact hleaves leaf (Field.mem_leavesAll.2 ⟨_, hf, .inr hleaf⟩)
  | bare mark => cases h

end Sexpr
