/-
Lists and dictionaries of texts in the concise style.

A list of texts stands in one line if that fits, else each text has a line of its own. Then the
lines of every text are moved to the right, and a quoted text that keeps the end of a line as it is
does not come back as it was: a newline and blanks stand in the place of that end.

* `Layout.rejoin` — the text that comes back from several lines;
* `TextWrittenAs` — a text in a list, and the text that a quoted one comes back as;
* `Layout.exists_format_texts` — the text of a list;
* `Layout.exists_format_entries` — the text of a dictionary.
-/
import Sexpr.Proofs.BareTexts
import Sexpr.Proofs.Strings

namespace Sexpr

/-! ### Texts over several lines -/

/-- What comes back for a character of a quoted text whose lines were moved to the right. -/
def Layout.rejoinChar (l : Layout) (c : Char) : List Char :=
  if c ∈ keptLineEnds then '\n' :: l.margin.toList else [c]

/-- What comes back for a quoted text whose lines were moved to the right. -/
def Layout.rejoin (l : Layout) (s : String) : String :=
  String.ofList (s.toList.flatMap l.rejoinChar)

theorem Layout.not_mem_rejoin (l : Layout) {s : List Char} {c : Char} (hc : c ∈ keptLineEnds) :
    c ∉ s.flatMap l.rejoinChar := by
  intro hmem
  obtain ⟨x, -, hx⟩ := List.mem_flatMap.1 hmem
  unfold rejoinChar at hx
  split_ifs at hx with hkept
  · rcases l.spaces_margin c hx with rfl | rfl
    · exact absurd hc (by decide)
    · exact absurd hc (by decide)
  · rw [List.mem_singleton.1 hx] at hc
    exact hkept hc

/-- A text comes back as it was exactly if it keeps no end of a line. -/
theorem Layout.rejoin_eq_self_iff (l : Layout) {s : String} :
    l.rejoin s = s ↔ ∀ c ∈ s.toList, c ∉ keptLineEnds := by
  constructor
  · intro h c hc hkept
    rw [← h, rejoin, String.toList_ofList] at hc
    exact l.not_mem_rejoin hkept hc
  · intro h
    have hsame : ∀ cs : List Char, (∀ c ∈ cs, c ∉ keptLineEnds) → cs.flatMap l.rejoinChar = cs := by
      intro cs hcs
      induction cs with
      | nil => rfl
      | cons c cs ih =>
        obtain ⟨hc, hcs⟩ := List.forall_mem_cons.1 hcs
        rw [List.flatMap_cons, rejoinChar, if_neg hc, ih hcs]
        rfl
    rw [rejoin, hsame _ h, String.ofList_toList]

theorem oneLine_of_isAtomText {s : String} (h : isAtomText s = true) : OneLine s.toList := by
  intro c hc
  rw [← Bool.not_eq_true]
  intro hend
  have hspace := isSpace_of_isBareChar ((isAtomText_iff.1 h).2 c hc)
  rw [isSpace_of_isLineEnd hend] at hspace
  cases hspace

theorem Layout.rejoin_of_isAtomText (l : Layout) {s : String} (h : isAtomText s = true) :
    l.rejoin s = s := by
  rw [l.rejoin_eq_self_iff]
  intro c hc hkept
  have hall : keptLineEnds.all Text.isLineEnd = true := by decide
  have hline := oneLine_of_isAtomText h c hc
  rw [List.all_eq_true.1 hall c hkept] at hline
  cases hline

/-- A character of a quoted text after the steps of a layout. -/
theorem Layout.refold_escapeChar (l : Layout) (c : Char) :
    ((escapeChar c).flatMap cutChar).flatMap l.indentChar =
      if c ∈ keptLineEnds then '\n' :: l.margin.toList else escapeChar c := by
  split_ifs with hc
  · have hall : keptLineEnds.all Text.isLineEnd = true := by decide
    rw [escapeChar_of_mem hc, List.flatMap_singleton, cutChar,
      if_pos (List.all_eq_true.1 hall c hc), List.flatMap_singleton, indentChar, if_pos rfl]
  · rw [refolds_cutChar.flatMap_eq (oneLine_escapeChar hc),
      l.refolds_indentChar.flatMap_eq (oneLine_escapeChar hc)]

/-- A quoted text is read with newlines and blanks for the ends of lines that it kept. -/
theorem Layout.stringBody_refold (l : Layout) (s r : List Char) :
    stringBody '"' 0 (((s.flatMap escapeChar).flatMap cutChar).flatMap l.indentChar ++ '"' :: r) =
      .found ((((s.flatMap escapeChar).flatMap cutChar).flatMap l.indentChar).length + 1)
        (s.flatMap l.rejoinChar) := by
  induction s with
  | nil => rfl
  | cons c s ih =>
    rw [List.flatMap_cons, List.flatMap_append, List.flatMap_append, l.refold_escapeChar,
      List.append_assoc, List.length_append, List.flatMap_cons, rejoinChar]
    by_cases hc : c ∈ keptLineEnds
    · have hmargin : ∀ x ∈ '\n' :: l.margin.toList, x ≠ '"' ∧ x ≠ endMark ∧ x ≠ '\\' := by
        intro x hx
        rcases l.spaces_margin x hx with rfl | rfl
        · decide
        · decide
      rw [if_pos hc, if_pos hc, stringBody_append hmargin, ih]
      simp [Scanned.after, Scanned.found, Except.map, Nat.add_assoc]
    · rw [if_neg hc, if_neg hc, stringBody_escapeChar, ih]
      simp [Scanned.after, Scanned.found, Except.map, Nat.add_assoc]

/-! ### Texts in lists -/

/-- A text in a list or a dictionary: without quotes, or as a string that is read as the given
one. -/
inductive TextWrittenAs (back : String → String) (s : String) : List Char → Prop
  | bare (h : isAtomText s = true) : TextWrittenAs back s s.toList
  | quoted {u : List Char} (h : isAtomText s = false) (hu : (Leaf.string (back s)).SpelledAs u) :
      TextWrittenAs back s u

/-- The text in one line. -/
theorem textWrittenAs_inline (s : String) :
    TextWrittenAs id s (encodeText false s).inline.toList := by
  cases h : isAtomText s with
  | true =>
    rw [encodeText, h]
    exact .bare h
  | false =>
    rw [encodeText, h]
    exact .quoted h (Leaf.ReadsBack.spelledAs (.inl ⟨s, rfl⟩))

/-- The text after the steps of a layout. -/
theorem Layout.textWrittenAs_refold (l : Layout) (s : String) :
    TextWrittenAs l.rejoin s
      (((encodeText false s).inline.toList.flatMap cutChar).flatMap l.indentChar) := by
  cases h : isAtomText s with
  | true =>
    rw [encodeText, h]
    show TextWrittenAs l.rejoin s ((s.toList.flatMap cutChar).flatMap l.indentChar)
    rw [refolds_cutChar.flatMap_eq (oneLine_of_isAtomText h),
      l.refolds_indentChar.flatMap_eq (oneLine_of_isAtomText h)]
    exact .bare h
  | false =>
    rw [encodeText, h]
    show TextWrittenAs l.rejoin s (((quoteString s).toList.flatMap cutChar).flatMap l.indentChar)
    have hquotes : ((quoteString s).toList.flatMap cutChar).flatMap l.indentChar =
        '"' :: (((s.toList.flatMap escapeChar).flatMap cutChar).flatMap l.indentChar ++ ['"']) := by
      rw [quoteString, String.toList_ofList, List.flatMap_append, List.flatMap_append,
        List.flatMap_cons, List.flatMap_append]
      rfl
    rw [hquotes]
    refine .quoted h (.quoted (q := '"') fun r => ?_)
    rw [stringToken, if_neg (by decide), List.cons_append, if_neg (by simp), List.drop_one,
      List.tail_cons, List.append_assoc, List.singleton_append, l.stringBody_refold]
    simp [Scanned.after, Scanned.found, Except.map, Nat.add_comm, rejoin]

theorem foldedAs_encodeText (s : String) (h : isAtomText s = false) :
    (encodeText false s).FoldedAs (encodeText false s).inline.toList := by
  rw [encodeText, h]
  exact .leaf (Leaf.foldedAs_string s)

/-- The lines of a text in a list, one below the other. -/
theorem below_lines_encodeText (s : String) : below (Text.lines (encodeText false s).inline) =
    '\n' :: (encodeText false s).inline.toList.flatMap cutChar := by
  cases h : isAtomText s with
  | true =>
    have hline := oneLine_of_isAtomText h
    have hne := (isAtomText_iff.1 h).1
    rw [encodeText, h]
    refine below_lines (s := s) (fun hreturn => ?_) ?_
    · exact absurd (hline _ hreturn) (by decide)
    · exact ⟨_, List.getLast?_eq_some_getLast hne, hline _ (List.getLast_mem hne)⟩
  | false =>
    have hfolded := foldedAs_encodeText s h
    refine below_lines hfolded.return_not_mem (hfolded.endsInLine ?_)
    rw [encodeText, h]
    show (quoteString s).toList ≠ []
    simp [quoteString]

/-! ### Lists -/

/-- What comes back for the texts in an expression: they themselves if it fits in one line. -/
def Layout.comesBack (l : Layout) (e : Expr) : String → String :=
  if l.fits 0 e.inline = true then id else l.rejoin

theorem Layout.comesBack_of_isAtomText (l : Layout) (e : Expr) {s : String}
    (h : isAtomText s = true) : l.comesBack e s = s := by
  unfold comesBack
  split_ifs
  · rfl
  · exact l.rejoin_of_isAtomText h

/-- All texts come back if they fit in one line, or none of them keeps the end of a line. -/
theorem Layout.forall_comesBack_iff (l : Layout) (e : Expr) {xs : List String} :
    (∀ s ∈ xs, l.comesBack e s = s) ↔
      l.fits 0 e.inline = true ∨ ∀ s ∈ xs, ∀ c ∈ s.toList, c ∉ keptLineEnds := by
  unfold comesBack
  split_ifs with hfits
  · simp [hfits]
  · simp [hfits, l.rejoin_eq_self_iff]

theorem format_encodeText (l : Layout) (pretty : Bool) (level : Nat) (s : String) :
    (encodeText false s).format l pretty level = .ok (encodeText false s).inline := by
  unfold encodeText
  split_ifs
  · rfl
  · rfl

theorem formatAll_encodeText (l : Layout) (level : Nat) (xs : List String) :
    Expr.formatAll l level (xs.map (encodeText false)) =
      .ok (xs.map fun s => (encodeText false s).inline) := by
  induction xs with
  | nil => rfl
  | cons s xs ih =>
    rw [List.map_cons, Expr.formatAll, format_encodeText, ih]
    rfl

/-- Texts one below the other. -/
theorem Layout.exists_below_texts (l : Layout) {xs : List String} (hne : xs ≠ []) :
    ∃ t, below ((xs.map fun s => (encodeText false s).inline).flatMap fun t =>
        l.indented (Text.lines t)) ++ ['\n'] = '\n' :: l.margin.toList ++ t ∧
      Separated LayoutGap (TextWrittenAs l.rejoin) xs t := by
  induction xs with
  | nil => exact absurd rfl hne
  | cons s xs ih =>
    have hline : below (l.indented (Text.lines (encodeText false s).inline)) =
        '\n' :: l.margin.toList ++
          ((encodeText false s).inline.toList.flatMap cutChar).flatMap l.indentChar := by
      rw [l.below_indented newline_not_mem_lines, below_lines_encodeText, List.flatMap_cons,
        indentChar, if_pos rfl]
    have hs := l.textWrittenAs_refold s
    rw [List.map_cons, List.flatMap_cons, below_append, hline]
    generalize ((encodeText false s).inline.toList.flatMap cutChar).flatMap l.indentChar = u at *
    -- after the last text only the newline is left, after any other one the next margin
    by_cases hxs : xs = []
    · subst hxs
      refine ⟨u ++ ['\n'] ++ [], by simp, .cons hs (.spaces (by decide) (by simp)) .nil⟩
    · obtain ⟨t, htext, ht⟩ := ih hxs
      refine ⟨u ++ ('\n' :: l.margin.toList) ++ t, ?_, .cons hs (.spaces l.spaces_margin ?_) ht⟩
      · rw [List.append_assoc, htext]
        simp
      · simp

/-- A sequence is broken up if it does not fit in one line. -/
theorem format_ofItems (l : Layout) (values : List Expr) :
    (Expr.ofItems values).format l false 0 =
      if l.fits 0 (Expr.ofItems values).inline = true ∨ values = [] then
        .ok (Expr.ofItems values).inline
      else (Expr.formatAll l 1 values).map l.sequence := by
  unfold Expr.ofItems
  cases values with
  | nil => rw [Expr.format, ite_self, if_pos (.inr rfl)]
  | cons value values =>
    rw [Expr.format]
    · simp [bind, Except.bind, Except.map]
      rfl
    · simp

theorem exists_inline_texts (xs : List String) :
    ∃ t, (Expr.ofItems (xs.map (encodeText false))).inline.toList = '[' :: t ++ [']'] ∧
      Separated LayoutGap (TextWrittenAs id) xs t := by
  refine ⟨(" ".intercalate (xs.map fun s => (encodeText false s).inline)).toList, ?_, ?_⟩
  · rw [Expr.ofItems, Expr.inline_items, List.map_map, String.toList_append,
      String.toList_append]
    rfl
  · refine separated_intercalate (.spaces (by decide) (by simp)) (.spaces (by decide) (by simp)) ?_
    exact List.forall₂_map_right_iff.2 (List.forall₂_same.2 fun s _ => textWrittenAs_inline s)

/-- The text of a list of texts: the texts between brackets, with gaps between them. -/
theorem Layout.exists_format_texts (l : Layout) (xs : List String) {e : Expr}
    (he : e = .ofItems (xs.map (encodeText false))) :
    ∃ text g t, e.format l false 0 = .ok text ∧ text.toList = '[' :: g ++ t ++ [']'] ∧ Spaces g ∧
      Separated LayoutGap (TextWrittenAs (l.comesBack e)) xs t := by
  obtain ⟨t, hinline, ht⟩ := exists_inline_texts xs
  rw [← he] at hinline
  have hformat := format_ofItems l (xs.map (encodeText false))
  rw [← he, formatAll_encodeText] at hformat
  by_cases hfits : l.fits 0 e.inline = true
  · rw [if_pos (.inl hfits)] at hformat
    refine ⟨e.inline, [], t, hformat, hinline, by decide, ?_⟩
    rwa [comesBack, if_pos hfits]
  · rw [comesBack, if_neg hfits]
    by_cases hxs : xs = []
    · subst hxs
      cases ht
      rw [if_pos (.inr rfl)] at hformat
      exact ⟨e.inline, [], [], hformat, hinline, by decide, .nil⟩
    · obtain ⟨t, hbelow, ht⟩ := l.exists_below_texts hxs
      rw [if_neg (by simp [hfits, hxs])] at hformat
      refine ⟨_, '\n' :: l.margin.toList, t, hformat, ?_, l.spaces_margin, ht⟩
      rw [sequence, List.cons_append, toList_intercalate_newline, below_append]
      simp [← hbelow]

/-! ### Dictionaries -/

/-- An entry of a dictionary of texts: the key, a colon directly after it, a blank and the value. -/
inductive EntryWrittenAs (back : String → String) (entry : String × String) : List Char → Prop
  | mk {u u' : List Char} (hk : TextWrittenAs id entry.1 u) (hv : TextWrittenAs back entry.2 u') :
      EntryWrittenAs back entry (u ++ ':' :: [' '] ++ u')

/-- The field of a map for an entry of a dictionary of texts. -/
def Field.ofEntry (entry : String × String) : Field :=
  ⟨encodeText false entry.1, encodeText false entry.2, none⟩

/-- The map of a dictionary of texts. -/
def Expr.ofEntries (m : List (String × String)) : Expr := .map (m.map Field.ofEntry) .none

/-- A map is broken up if it does not fit in one line. -/
theorem format_map (l : Layout) (fields : List Field) :
    (Expr.map fields .none).format l false 0 =
      if l.fits 0 (Expr.map fields .none).inline = true ∨ fields = [] then
        .ok (Expr.map fields .none).inline
      else Field.formatAll l 1 fields >>= l.map := by
  cases fields with
  | nil => rw [Expr.format, ite_self, if_pos (.inr rfl)]
  | cons field fields =>
    rw [Expr.format]
    · simp
    · simp

theorem formatAll_entries (l : Layout) (level : Nat) (m : List (String × String)) :
    Field.formatAll l level (m.map Field.ofEntry) =
      .ok (m.map fun entry => ((encodeText false entry.1).inline,
        (encodeText false entry.2).inline)) := by
  induction m with
  | nil => rfl
  | cons entry m ih =>
    rw [List.map_cons, Field.ofEntry, Field.formatAll, format_encodeText, format_encodeText, ih]
    rfl

theorem exists_inline_entries (m : List (String × String)) :
    ∃ t, (Expr.ofEntries m).inline.toList = '{' :: t ++ ['}'] ∧
      Separated LayoutGap (EntryWrittenAs id) m t := by
  refine ⟨(", ".intercalate (m.map fun entry => (encodeText false entry.1).inline ++ ": " ++
    (encodeText false entry.2).inline)).toList, ?_, ?_⟩
  · rw [Expr.ofEntries, Expr.inline_map, List.map_map, String.toList_append,
      String.toList_append]
    rfl
  · refine separated_intercalate (.comma (by decide)) (.spaces (by decide) (by simp)) ?_
    refine List.forall₂_map_right_iff.2 (List.forall₂_same.2 fun entry _ => ?_)
    rw [String.toList_append, String.toList_append]
    have hentry : EntryWrittenAs id entry _ :=
      .mk (textWrittenAs_inline entry.1) (textWrittenAs_inline entry.2)
    simpa using hentry

/-- The text of a dictionary of texts: the entries between braces, with gaps between them. -/
theorem Layout.exists_format_entries (l : Layout) (m : List (String × String)) {e : Expr}
    (he : e = .ofEntries m) :
    ∃ text g t, e.format l false 0 = .ok text ∧ text.toList = '{' :: g ++ t ++ ['}'] ∧ Spaces g ∧
      Separated LayoutGap (EntryWrittenAs (l.comesBack e)) m t := by
  obtain ⟨t, hinline, ht⟩ := exists_inline_entries m
  rw [← he] at hinline
  have hformat := format_map l (m.map Field.ofEntry)
  rw [formatAll_entries, ← Expr.ofEntries, ← he] at hformat
  by_cases hfits : l.fits 0 e.inline = true
  · rw [if_pos (.inl hfits)] at hformat
    refine ⟨e.inline, [], t, hformat, hinline, by decide, ?_⟩
    rwa [comesBack, if_pos hfits]
  · rw [comesBack, if_neg hfits]
    by_cases hm : m = []
    · subst hm
      cases ht
      rw [if_pos (.inr rfl)] at hformat
      exact ⟨e.inline, [], [], hformat, hinline, by decide, .nil⟩
    · have hentries : List.Forall₂ (fun entry texts =>
          below (Text.lines texts.2) = '\n' :: texts.2.toList.flatMap cutChar ∧
            EntryWrittenAs l.rejoin entry (texts.1.toList ++ ':' :: [' '] ++
              (texts.2.toList.flatMap cutChar).flatMap l.indentChar)) m
          (m.map fun entry => ((encodeText false entry.1).inline,
            (encodeText false entry.2).inline)) :=
        List.forall₂_map_right_iff.2 (List.forall₂_same.2 fun entry _ =>
          ⟨below_lines_encodeText entry.2,
            .mk (textWrittenAs_inline entry.1) (l.textWrittenAs_refold entry.2)⟩)
      obtain ⟨lines, t, hlines, hbelow, ht⟩ := l.exists_fields hentries hm
      have hmap : l.map (m.map fun entry => ((encodeText false entry.1).inline,
          (encodeText false entry.2).inline)) =
          .ok ("\n".intercalate ("\x7b" :: lines ++ ["\x7d"])) := by
        rw [map, hlines]
        rfl
      rw [if_neg (by simp [hfits, hm])] at hformat
      refine ⟨_, '\n' :: l.margin.toList, t, hformat.trans hmap, ?_, l.spaces_margin, ht⟩
      rw [List.cons_append, toList_intercalate_newline, below_append]
      simp [← hbelow]

end Sexpr
