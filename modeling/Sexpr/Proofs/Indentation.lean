/-
Lines and their indentation.

A text over several lines is built from texts that are taken apart into lines and put
together again, each line moved to the right. The first makes a newline of every end of a
line, the second puts blanks after the newlines; nothing else is changed.

* `below_lines` — the lines of a text are the text with newlines for all its line ends;
* `Layout.below_indented` — indented lines have blanks after their newlines.
-/
import Mathlib.Tactic.SplitIfs
import Sexpr.Print.Layout

namespace Sexpr

/-! ### Lines -/

/-- Lines one below the other, each after a newline. -/
def below (lines : List String) : List Char := lines.flatMap fun line => '\n' :: line.toList

@[simp]
theorem below_nil : below [] = [] := rfl

@[simp]
theorem below_cons (line : String) (lines : List String) :
    below (line :: lines) = '\n' :: (line.toList ++ below lines) := rfl

@[simp]
theorem below_append (lines lines' : List String) :
    below (lines ++ lines') = below lines ++ below lines' := List.flatMap_append

theorem toList_intercalate_cons (sep text : String) (texts : List String) :
    (sep.intercalate (text :: texts)).toList =
      text.toList ++ texts.flatMap fun t => sep.toList ++ t.toList := by
  induction texts generalizing text with
  | nil => simp
  | cons t texts ih =>
    rw [String.intercalate_cons_cons, String.toList_append, String.toList_append, ih,
      List.flatMap_cons, List.append_assoc, List.append_assoc]

/-- Joined lines are the first line and the others below it. -/
theorem toList_intercalate_newline (line : String) (lines : List String) :
    ("\n".intercalate (line :: lines)).toList = line.toList ++ below lines :=
  toList_intercalate_cons "\n" line lines

/-- A text without line ends. -/
def OneLine (cs : List Char) : Prop := ∀ c ∈ cs, Text.isLineEnd c = false

instance (cs : List Char) : Decidable (OneLine cs) :=
  List.decidableBAll (fun c => Text.isLineEnd c = false) cs

@[simp]
theorem oneLine_append {s t : List Char} : OneLine (s ++ t) ↔ OneLine s ∧ OneLine t := by
  simp [OneLine, or_imp, forall_and]

theorem OneLine.newline_not_mem {cs : List Char} (h : OneLine cs) : '\n' ∉ cs := fun hmem =>
  absurd (h _ hmem) (by decide)

theorem not_mem_intercalate {c : Char} {sep : String} {texts : List String}
    (hsep : c ∉ sep.toList) (h : ∀ t ∈ texts, c ∉ t.toList) :
    c ∉ (sep.intercalate texts).toList := by
  cases texts with
  | nil => simp
  | cons text texts =>
    rw [toList_intercalate_cons, List.mem_append, List.mem_flatMap, not_or]
    refine ⟨h text List.mem_cons_self, ?_⟩
    rintro ⟨t, ht, hc⟩
    rcases List.mem_append.1 hc with hc | hc
    · exact hsep hc
    · exact h t (List.mem_cons_of_mem _ ht) hc

/-- A text that does not end with the end of a line; it is not empty. -/
def EndsInLine (cs : List Char) : Prop := ∃ c, cs.getLast? = some c ∧ Text.isLineEnd c = false

theorem EndsInLine.of_cons {c : Char} {cs : List Char} (h : EndsInLine (c :: cs)) :
    cs = [] ∧ Text.isLineEnd c = false ∨ EndsInLine cs := by
  obtain ⟨x, hx, hline⟩ := h
  cases cs with
  | nil =>
    rw [List.getLast?_singleton, Option.some_inj] at hx
    exact .inl ⟨rfl, hx ▸ hline⟩
  | cons y ys => exact .inr ⟨x, by rwa [List.getLast?_cons_cons] at hx, hline⟩

/-- A character of a text that is taken apart into lines. -/
def cutChar (c : Char) : List Char := if Text.isLineEnd c then ['\n'] else [c]

/-- Each line after a newline gives the text after a newline. -/
theorem flatMap_splitLines {cs : List Char} (hreturn : '\r' ∉ cs) (hend : EndsInLine cs) :
    ((Text.splitLines cs).flatMap fun line => '\n' :: line) = '\n' :: cs.flatMap cutChar := by
  fun_induction Text.splitLines cs with
  | case1 =>
    obtain ⟨c, hc, -⟩ := hend
    exact absurd hc (by simp)
  | case2 cs ih => exact absurd List.mem_cons_self hreturn
  | case3 c cs _ hc ih =>
    rw [List.mem_cons, not_or] at hreturn
    rcases hend.of_cons with ⟨-, hline⟩ | hend
    · exact absurd (hc.symm.trans hline) (by simp)
    · rw [List.flatMap_cons, List.flatMap_cons, ih hreturn.2 hend, cutChar, if_pos hc]
      rfl
  | case4 c cs _ hc ih =>
    rw [List.mem_cons, not_or] at hreturn
    have hcut : (c :: cs).flatMap cutChar = c :: cs.flatMap cutChar := by
      rw [List.flatMap_cons, cutChar, if_neg hc]
      rfl
    rw [hcut]
    rcases hend.of_cons with ⟨rfl, -⟩ | hend
    · rfl
    -- the character goes in front of the first line, which there is
    · have hrest := ih hreturn.2 hend
      cases hlines : Text.splitLines cs with
      | nil =>
        rw [hlines] at hrest
        exact absurd hrest (by simp)
      | cons line lines =>
        rw [hlines, List.flatMap_cons, List.cons_append, List.cons_inj_right] at hrest
        rw [Text.consLine, List.flatMap_cons, List.cons_append, List.cons_append, hrest]

theorem oneLine_of_mem_splitLines {cs line : List Char} (hline : line ∈ Text.splitLines cs) :
    OneLine line := by
  intro c hc
  fun_induction Text.splitLines cs generalizing line with
  | case1 => simp at hline
  | case2 cs ih =>
    rcases List.mem_cons.1 hline with rfl | hline
    · simp at hc
    · exact ih hline hc
  | case3 x cs _ hx ih =>
    rcases List.mem_cons.1 hline with rfl | hline
    · simp at hc
    · exact ih hline hc
  | case4 x cs _ hx ih =>
    rw [Bool.not_eq_true] at hx
    cases hlines : Text.splitLines cs with
    | nil =>
      rw [hlines, Text.consLine, List.mem_singleton] at hline
      subst hline
      rwa [List.mem_singleton.1 hc]
    | cons first lines =>
      rw [hlines, Text.consLine] at hline
      rcases List.mem_cons.1 hline with rfl | hline
      · rcases List.mem_cons.1 hc with rfl | hc
        · exact hx
        · exact ih (by rw [hlines]; simp) hc
      · exact ih (by rw [hlines]; simp [hline]) hc

/-- The lines of a text, one below the other. -/
theorem below_lines {s : String} (hreturn : '\r' ∉ s.toList) (hend : EndsInLine s.toList) :
    below (Text.lines s) = '\n' :: s.toList.flatMap cutChar := by
  rw [← flatMap_splitLines hreturn hend, below, Text.lines, List.flatMap_map]
  simp

theorem oneLine_of_mem_lines {s line : String} (hline : line ∈ Text.lines s) :
    OneLine line.toList := by
  obtain ⟨cs, hcs, rfl⟩ := List.mem_map.1 hline
  rw [String.toList_ofList]
  exact oneLine_of_mem_splitLines hcs

/-! ### Indentation -/

/-- A character of an indented text. -/
def Layout.indentChar (l : Layout) (c : Char) : List Char :=
  if c = '\n' then '\n' :: l.margin.toList else [c]

theorem Layout.flatMap_indentChar (l : Layout) {s : List Char} (h : '\n' ∉ s) :
    s.flatMap l.indentChar = s := by
  induction s with
  | nil => rfl
  | cons c s ih =>
    rw [List.mem_cons, not_or] at h
    rw [List.flatMap_cons, ih h.2, indentChar, if_neg (Ne.symm h.1)]
    rfl

/-- Indented lines are the lines with blanks after each newline. -/
theorem Layout.below_indented (l : Layout) {lines : List String}
    (h : ∀ line ∈ lines, '\n' ∉ line.toList) :
    below (l.indented lines) = (below lines).flatMap l.indentChar := by
  induction lines with
  | nil => rfl
  | cons line lines ih =>
    obtain ⟨hline, hlines⟩ := List.forall_mem_cons.1 h
    rw [indented, List.map_cons, below_cons, ← indented, ih hlines, below_cons, List.flatMap_cons,
      List.flatMap_append, l.flatMap_indentChar hline, indentChar, if_pos rfl,
      String.toList_append]
    simp

theorem Layout.toList_margin (l : Layout) : l.margin.toList = List.replicate l.indent ' ' := by
  rw [margin, String.toList_ofList]

end Sexpr
