/-
Formatting keeps the meaning.

A formatted expression is a layout of it: line breaks and indentation are gaps. The parts
of a broken expression stand one after the other, each after a gap that is not empty
(`Run`), and stay so when the lines they are in are indented once more.

* `Run.refold`, `Run.separated` — parts after gaps, indented and in brackets;
* `Layout.run_argument`, `Layout.run_arguments` — named arguments;
* `Layout.folded_group`, `Layout.folded_sequence`, `Layout.folded_map` — broken brackets;
* `Expr.Readable.formats` — every expression that can be read is formatted;
* `Expr.Printable.exists_format` — one that reads back, in lines of its own, is written by it;
* `Document.parse_of_print` — reading a printed document gives the document back.
-/
import Sexpr.Print
import Sexpr.Proofs.Folding

namespace Sexpr

/-! ### Runs -/

/-- Expressions one after the other, each after a gap that is not empty. -/
inductive Run : List Expr → List Char → Prop
  | nil : Run [] []
  | cons {e : Expr} {es : List Expr} {g s t : List Char} (hg : Spaces g) (hne : g ≠ [])
      (h : e.FoldedAs s) (hes : Run es t) : Run (e :: es) (g ++ s ++ t)

theorem Run.append {es es' : List Expr} {s t : List Char} (h : Run es s) (h' : Run es' t) :
    Run (es ++ es') (s ++ t) := by
  induction h with
  | nil => exact h'
  | cons hg hne h hes ih =>
    rw [List.cons_append, List.append_assoc]
    exact .cons hg hne h ih

theorem Run.refold {es : List Expr} {t : List Char} (h : Run es t) {f : Char → List Char}
    (hf : Refolds f) : Run es (t.flatMap f) := by
  induction h with
  | nil => exact .nil
  | cons hg hne h htail ih =>
    rw [List.flatMap_append, List.flatMap_append]
    exact .cons (hg.refold hf) (hg.refold_ne_nil hf hne) (h.refold hf) ih

/-- Expressions after gaps, and a gap after the last one, are the inside of a bracket. -/
theorem Run.separated {es : List Expr} {t g' : List Char} (h : Run es t) (hg' : Spaces g') :
    ∃ g s, t ++ g' = g ++ s ∧ Spaces g ∧ (es.isEmpty = false → g ≠ []) ∧
      Separated LayoutGap Expr.FoldedAs es s := by
  induction h with
  | nil => exact ⟨g', [], by simp, hg', by simp, .nil⟩
  | @cons e es g s t hg hne h hes ih =>
    obtain ⟨g₁, s₁, htext, hg₁, hne₁, hsep⟩ := ih
    refine ⟨g, s ++ g₁ ++ s₁, ?_, hg, fun _ => hne, .cons h (.spaces hg₁ hne₁) hsep⟩
    rw [List.append_assoc, htext]
    simp

/-- The lines of a formatted expression, one below the other. -/
theorem Formatted.below_lines {e : Expr} {t : String} (h : Formatted e t) :
    below (Text.lines t) = '\n' :: t.toList.flatMap cutChar :=
  Sexpr.below_lines h.folded.return_not_mem (h.folded.endsInLine h.ne_nil)

theorem Formatted.exists_lines {e : Expr} {t : String} (h : Formatted e t) :
    ∃ first rest, Text.lines t = first :: rest ∧
      first.toList ++ below rest = t.toList.flatMap cutChar := by
  have hlines := h.below_lines
  cases hcases : Text.lines t with
  | nil =>
    rw [hcases] at hlines
    exact absurd hlines (by simp)
  | cons first rest =>
    rw [hcases, below_cons, List.cons_inj_right] at hlines
    exact ⟨first, rest, rfl, hlines⟩

theorem newline_not_mem_lines {t : String} : ∀ line ∈ Text.lines t, '\n' ∉ line.toList :=
  fun _ hline => (oneLine_of_mem_lines hline).newline_not_mem

theorem Layout.newline_not_mem_indented (l : Layout) {lines : List String}
    (h : ∀ line ∈ lines, '\n' ∉ line.toList) : ∀ line ∈ l.indented lines, '\n' ∉ line.toList := by
  intro line hline
  obtain ⟨line, hmem, rfl⟩ := List.mem_map.1 hline
  rw [String.toList_append, l.toList_margin, List.mem_append, not_or]
  exact ⟨by simp, h line hmem⟩

/-- Formatted expressions in one line, each after a blank. -/
theorem run_spaced {es : List Expr} {texts : List String} (h : List.Forall₂ Formatted es texts) :
    Run es (texts.flatMap fun t => " ".toList ++ t.toList) := by
  induction h with
  | nil => exact .nil
  | cons he hes ih => exact .cons (by decide) (by simp) he.folded ih

/-- Formatted expressions one below the other, indented. -/
theorem run_indented {es : List Expr} {texts : List String} (h : List.Forall₂ Formatted es texts)
    (l : Layout) : Run es (below (texts.flatMap fun t => l.indented (Text.lines t))) := by
  induction h with
  | nil => exact .nil
  | @cons e t es texts he hes ih =>
    have hgap : Run [e] ('\n' :: t.toList.flatMap cutChar) := by
      simpa using Run.cons spaces_newline (by simp) (he.folded.refold refolds_cutChar) .nil
    rw [List.flatMap_cons, below_append, l.below_indented newline_not_mem_lines, he.below_lines]
    exact (hgap.refold l.refolds_indentChar).append ih

/-! ### Named arguments -/

theorem Expr.keyword?_eq_some {e : Expr} {name : String} (h : e.keyword? = some name) :
    ∃ span, e = .leaf (.atom (":" ++ name)) span := by
  unfold Expr.keyword? at h
  split at h
  · next n span =>
    split at h
    · next cs hcs =>
      refine ⟨span, ?_⟩
      congr 2
      rw [← String.toList_inj, hcs, ← Option.some_inj.1 h]
      simp
    · exact absurd h (by simp)
  · exact absurd h (by simp)

/-- The name of an argument and its values, over one line or several. -/
theorem Layout.run_argument (l : Layout) (level : Nat) {k : Expr} {name : String}
    (hk : k.keyword? = some name) (hread : k.Readable) {vs : List Expr} {texts : List String}
    (h : List.Forall₂ Formatted vs texts) :
    ∃ lines, l.argument level name texts = .ok lines ∧ Run (k :: vs) (below lines) ∧
      ∀ line ∈ lines, '\n' ∉ line.toList := by
  have hkey : k.FoldedAs (":" ++ name).toList ∧ '\n' ∉ (":" ++ name).toList := by
    obtain ⟨span, rfl⟩ := Expr.keyword?_eq_some hk
    cases hread with
    | leaf hl =>
      have hname : ∀ c ∈ (Leaf.atom (":" ++ name)).text.toList, isNameChar c = true :=
        hl.1.isNameChar
      exact ⟨.leaf (.name hname), (oneLine_of_isNameChar hname).newline_not_mem⟩
  unfold argument
  generalize ":" ++ name = key at hkey ⊢
  have hrun : ∀ {t}, Run vs t → Run (k :: vs) ('\n' :: (key.toList ++ t)) := fun ht =>
    .cons spaces_newline (by simp) hkey.1 ht
  cases h with
  | nil => exact ⟨[key], rfl, hrun .nil, by simpa using hkey.2⟩
  | @cons v text vs texts hv hvs =>
    rw [if_neg (by simp)]
    dsimp only
    split_ifs with hline
    · -- all in one line
      rw [Bool.and_eq_true, List.all_eq_true] at hline
      have htexts : ∀ t ∈ text :: texts, '\n' ∉ t.toList := fun t ht => by
        simpa using hline.1 t ht
      refine ⟨_, rfl, ?_, ?_⟩
      · have hbelow : below [key ++ " " ++ " ".intercalate (text :: texts)] =
            '\n' :: (key.toList ++ (text :: texts).flatMap fun t => " ".toList ++ t.toList) := by
          rw [below_cons, String.toList_append, toList_intercalate_cons]
          simp
        rw [hbelow]
        exact hrun (run_spaced (.cons hv hvs))
      · simp only [List.forall_mem_singleton, String.toList_append, List.mem_append, not_or]
        exact ⟨⟨hkey.2, by decide⟩, not_mem_intercalate (by decide) htexts⟩
    · cases hvs with
      | nil =>
        -- one value, which goes on below the name
        obtain ⟨first, rest, hlines, htext⟩ := hv.exists_lines
        have hone : ∀ line ∈ first :: rest, '\n' ∉ line.toList := by
          rw [← hlines]
          exact newline_not_mem_lines
        rw [List.forall_mem_cons] at hone
        simp only [hlines]
        refine ⟨_, rfl, ?_, ?_⟩
        · have hbelow : below ((key ++ " " ++ first) :: rest) =
              '\n' :: (key.toList ++ ([' '] ++ text.toList.flatMap cutChar ++ [])) := by
            simp [← htext]
          rw [hbelow]
          exact hrun (.cons (by decide) (by simp) (hv.folded.refold refolds_cutChar) .nil)
        · simp only [List.forall_mem_cons, String.toList_append, List.mem_append, not_or]
          exact ⟨⟨⟨hkey.2, by decide⟩, hone.1⟩, hone.2⟩
      | @cons w text' vs texts hw hvs =>
        -- several values, all below the name
        refine ⟨_, rfl, hrun (run_indented (.cons hv (.cons hw hvs)) l), ?_⟩
        rw [List.forall_mem_cons]
        refine ⟨hkey.2, fun line hline => ?_⟩
        obtain ⟨t, -, hline⟩ := List.mem_flatMap.1 hline
        exact l.newline_not_mem_indented newline_not_mem_lines line hline

/-- Names of arguments and their values, with the expressions that they are the texts of. -/
inductive Named : List Expr → List (String × List String) → Prop
  | nil : Named [] []
  | cons {k : Expr} {vs es : List Expr} {name : String} {texts : List String}
      {named : List (String × List String)} (hk : k.keyword? = some name) (hread : k.Readable)
      (hvs : List.Forall₂ Formatted vs texts) (hes : Named es named) :
      Named (k :: vs ++ es) ((name, texts) :: named)

/-- The named arguments of a group stand one below the other. -/
theorem Layout.run_arguments (l : Layout) (level : Nat) {es : List Expr}
    {named : List (String × List String)} (h : Named es named) :
    ∃ lines, l.arguments level named = .ok lines ∧ Run es (below lines) := by
  induction h with
  | nil => exact ⟨[], rfl, .nil⟩
  | @cons k vs es name texts named hk hread hvs hes ih =>
    obtain ⟨lines, hlines, hrun, hone⟩ := l.run_argument level hk hread hvs
    obtain ⟨rest, hrest, hruns⟩ := ih
    refine ⟨l.indented lines ++ rest, ?_, ?_⟩
    · rw [arguments, hlines, hrest]
      rfl
    · rw [below_append, l.below_indented hone]
      exact (hrun.refold l.refolds_indentChar).append hruns

/-- A piece of a group is the name or the text of an expression. -/
inductive Piece.Shows : Expr → Piece → Prop
  | name {e : Expr} {name : String} (hk : e.keyword? = some name) (hread : e.Readable) :
      Shows e (.name name)
  | text {e : Expr} {text : String} (h : Formatted e text) : Shows e (.text text)

/-- Gathering keeps the order of the pieces. -/
theorem exists_of_gather {es : List Expr} {pieces : List Piece}
    (h : List.Forall₂ Piece.Shows es pieces) :
    ∃ vs rest, es = vs ++ rest ∧ List.Forall₂ Formatted vs (gather pieces).1 ∧
      Named rest (gather pieces).2 := by
  induction h with
  | nil => exact ⟨[], [], rfl, .nil, .nil⟩
  | @cons e piece es pieces he hes ih =>
    obtain ⟨vs, rest, rfl, hvs, hrest⟩ := ih
    cases he with
    | name hk hread => exact ⟨[], e :: vs ++ rest, rfl, .nil, .cons hk hread hvs hrest⟩
    | text he => exact ⟨e :: vs, rest, rfl, .cons he hvs, hrest⟩

/-! ### Broken brackets -/

/-- A group over several lines. -/
theorem Layout.folded_group (l : Layout) (level : Nat) {head : Expr} {args : List Expr}
    {text : String} {pieces : List Piece} (spans : BracketSpans) (hhead : head.FoldedAs text.toList)
    (h : List.Forall₂ Piece.Shows args pieces) :
    ∃ s, l.group level text pieces = .ok s ∧
      Formatted (Expr.items .group (head :: args) spans) s := by
  obtain ⟨vs, rest, rfl, hvs, hrest⟩ := exists_of_gather h
  rcases hparts : gather pieces with ⟨positional, named⟩
  rw [hparts] at hvs hrest
  obtain ⟨lines, hlines, hruns⟩ := l.run_arguments (level + 1) hrest
  have hrun := (run_spaced hvs).append hruns
  obtain ⟨g, t, htext, hg, hne, ht⟩ := hrun.separated spaces_newline
  have hgroup : l.group level text pieces =
      .ok ("\n".intercalate (("(" ++ " ".intercalate (text :: positional)) :: lines ++ [")"])) := by
    rw [group, hparts]
    dsimp only
    rw [hlines]
    rfl
  -- the head and the positional values stay in the first line, the closing bracket is a line
  have hs : ("\n".intercalate (("(" ++ " ".intercalate (text :: positional)) :: lines ++
      [")"])).toList = ['('] ++ (text.toList ++ ((positional.flatMap fun t =>
        " ".toList ++ t.toList) ++ below lines ++ ['\n'])) ++ [')'] := by
    rw [List.cons_append, toList_intercalate_newline, String.toList_append,
      toList_intercalate_cons, below_append]
    simp
  refine ⟨_, hgroup, ?_, by simp⟩
  have hfolded : (Expr.items .group _ spans).FoldedAs _ :=
    .items (g := []) (by decide) (.cons hhead (.spaces hg hne) ht)
  rw [hs, htext]
  simpa [Enclosure.brackets] using hfolded

/-- A sequence over several lines. -/
theorem Layout.folded_sequence (l : Layout) {values : List Expr} {texts : List String}
    (spans : BracketSpans) (h : List.Forall₂ Formatted values texts) :
    Formatted (Expr.items .sequence values spans) (l.sequence texts) := by
  have hrun := run_indented h l
  obtain ⟨g, t, htext, hg, -, ht⟩ := hrun.separated spaces_newline
  have hs : (l.sequence texts).toList = ['['] ++
      (below (texts.flatMap fun t => l.indented (Text.lines t)) ++ ['\n']) ++ [']'] := by
    rw [sequence, List.cons_append, toList_intercalate_newline, below_append]
    simp
  refine ⟨?_, by simp [hs]⟩
  have hfolded : (Expr.items .sequence values spans).FoldedAs _ := .items hg ht
  rw [hs, htext]
  simpa [Enclosure.brackets] using hfolded

/-- The texts of the key and the value of a field. -/
structure FieldFormatted (f : Field) (entry : String × String) : Prop where
  key : f.key.FoldedAs entry.1.toList
  value : Formatted f.value entry.2

theorem Layout.below_appendLast (l : Layout) (suffix line : String) (lines : List String) :
    below (l.indented (appendLast suffix (line :: lines))) =
      below (l.indented (line :: lines)) ++ suffix.toList := by
  induction lines generalizing line with
  | nil => simp [appendLast, indented]
  | cons line' lines ih =>
    have hnext := ih line'
    simp only [indented, appendLast, List.map_cons, below_cons] at hnext ⊢
    rw [hnext]
    simp

/-- The lines of a field: the margin, the key, and the value indented below it. -/
theorem Layout.below_field (l : Layout) {value first : String} {rest : List String}
    (h : below (Text.lines value) = '\n' :: value.toList.flatMap cutChar)
    (hlines : Text.lines value = first :: rest) (key suffix : String) :
    below (l.indented (appendLast suffix ((key ++ ": " ++ first) :: rest))) =
      '\n' :: l.margin.toList ++ (key.toList ++ ':' :: [' '] ++
        (value.toList.flatMap cutChar).flatMap l.indentChar) ++ suffix.toList := by
  have hone : ∀ line ∈ first :: rest, '\n' ∉ line.toList := by
    rw [← hlines]
    exact newline_not_mem_lines
  obtain ⟨hfirst, hrest⟩ := List.forall_mem_cons.1 hone
  have hvalue : (value.toList.flatMap cutChar).flatMap l.indentChar =
      first.toList ++ below (l.indented rest) := by
    rw [hlines, below_cons, List.cons_inj_right] at h
    rw [← h, List.flatMap_append, l.flatMap_indentChar hfirst, l.below_indented hrest]
  rw [l.below_appendLast, hvalue, indented, List.map_cons, below_cons]
  simp [indented]

theorem Layout.spaces_margin (l : Layout) : Spaces ('\n' :: l.margin.toList) := by
  rw [l.toList_margin]
  exact List.forall_mem_cons.2 ⟨.inr rfl, spaces_replicate l.indent⟩

/-- The fields of a map stand one below the other, with commas between them. -/
theorem Layout.exists_fields (l : Layout) {α : Type} {W : α → List Char → Prop} {xs : List α}
    {entries : List (String × String)}
    (h : List.Forall₂ (fun x entry =>
      below (Text.lines entry.2) = '\n' :: entry.2.toList.flatMap cutChar ∧
        W x (entry.1.toList ++ ':' :: [' '] ++
          (entry.2.toList.flatMap cutChar).flatMap l.indentChar)) xs entries) (hne : xs ≠ []) :
    ∃ lines t, l.fields entries = .ok lines ∧
      below lines ++ ['\n'] = '\n' :: l.margin.toList ++ t ∧ Separated LayoutGap W xs t := by
  induction h with
  | nil => exact absurd rfl hne
  | @cons x entry xs entries hx hxs ih =>
    obtain ⟨key, value⟩ := entry
    obtain ⟨hbelow, hwritten⟩ := hx
    obtain ⟨first, rest, hlines⟩ : ∃ first rest, Text.lines value = first :: rest := by
      refine List.exists_cons_of_ne_nil fun hnil => ?_
      rw [hnil] at hbelow
      exact absurd hbelow (by simp)
    have hfield := l.below_field hbelow hlines key
    generalize key.toList ++ ':' :: [' '] ++
      (value.toList.flatMap cutChar).flatMap l.indentChar = text at *
    -- the last field has no comma; after any other one the comma and the next margin are the gap
    cases hxs with
    | nil =>
      refine ⟨l.indented (appendLast "" ((key ++ ": " ++ first) :: rest)), text ++ ['\n'] ++ [],
        ?_, ?_, .cons hwritten (.spaces (by decide) (by simp)) .nil⟩
      · simp only [fields, hlines]
        simp [bind, Except.bind, pure, Except.pure]
      · rw [hfield]
        simp
    | @cons x' entry' xs entries hx' hxs =>
      obtain ⟨lines, t, hlines', htext, ht⟩ := ih (by simp)
      refine ⟨l.indented (appendLast "," ((key ++ ": " ++ first) :: rest)) ++ lines,
        text ++ (',' :: '\n' :: l.margin.toList) ++ t, ?_, ?_,
        .cons hwritten (.comma l.spaces_margin) ht⟩
      · rw [fields]
        simp only [hlines, hlines']
        rfl
      · rw [below_append, List.append_assoc, htext, hfield]
        simp

/-- A map over several lines. -/
theorem Layout.folded_map (l : Layout) {fs : List Field} {entries : List (String × String)}
    (spans : BracketSpans) (h : List.Forall₂ FieldFormatted fs entries) (hne : fs ≠ []) :
    ∃ s, l.map entries = .ok s ∧ Formatted (Expr.map fs spans) s := by
  have hfields : List.Forall₂ (fun f entry =>
      below (Text.lines entry.2) = '\n' :: entry.2.toList.flatMap cutChar ∧
        FieldFoldedAs Expr.FoldedAs f (entry.1.toList ++ ':' :: [' '] ++
          (entry.2.toList.flatMap cutChar).flatMap l.indentChar)) fs entries :=
    h.imp fun f entry hf => ⟨hf.value.below_lines, .mk hf.key
      ((hf.value.folded.refold refolds_cutChar).refold l.refolds_indentChar)⟩
  obtain ⟨lines, t, hlines, htext, ht⟩ := l.exists_fields hfields hne
  have hs : ("\n".intercalate ("\x7b" :: lines ++ ["\x7d"])).toList =
      '{' :: ('\n' :: l.margin.toList) ++ t ++ ['}'] := by
    rw [List.cons_append, toList_intercalate_newline, below_append]
    simp [← htext]
  refine ⟨_, by rw [map, hlines]; rfl, ?_, by simp⟩
  rw [hs]
  exact .map l.spaces_margin ht

/-! ### Formatting -/

/-- An expression is formatted in every style, at every level. -/
def Formats (l : Layout) (e : Expr) : Prop :=
  ∀ pretty level, ∃ s, e.format l pretty level = .ok s ∧ Formatted e s

theorem exists_formatAll {l : Layout} {es : List Expr} (h : ∀ e ∈ es, Formats l e) (level : Nat) :
    ∃ texts, Expr.formatAll l level es = .ok texts ∧ List.Forall₂ Formatted es texts := by
  induction es with
  | nil => exact ⟨[], rfl, .nil⟩
  | cons e es ih =>
    obtain ⟨he, hes⟩ := List.forall_mem_cons.1 h
    obtain ⟨s, hs, hformatted⟩ := he l.pretty level
    obtain ⟨texts, htexts, hall⟩ := ih hes
    exact ⟨s :: texts, by rw [Expr.formatAll, hs, htexts]; rfl, .cons hformatted hall⟩

theorem exists_formatArgs {l : Layout} {es : List Expr} (hread : ∀ e ∈ es, e.Readable)
    (h : ∀ e ∈ es, Formats l e) (level : Nat) (named : Bool) :
    ∃ pieces, Expr.formatArgs l level named es = .ok pieces ∧
      List.Forall₂ Piece.Shows es pieces := by
  induction es generalizing named with
  | nil => exact ⟨[], rfl, .nil⟩
  | cons e es ih =>
    obtain ⟨hread, hreads⟩ := List.forall_mem_cons.1 hread
    obtain ⟨he, hes⟩ := List.forall_mem_cons.1 h
    rw [Expr.formatArgs]
    split
    · next name hname =>
      obtain ⟨pieces, hpieces, hall⟩ := ih hreads hes true
      exact ⟨.name name :: pieces, by rw [hpieces]; rfl, .cons (.name hname hread) hall⟩
    · obtain ⟨pieces, hpieces, hall⟩ := ih hreads hes named
      cases named with
      | true =>
        obtain ⟨s, hs, hformatted⟩ := he l.pretty (level + 1)
        exact ⟨.text s :: pieces, by simp [hs, hpieces]; rfl, .cons (.text hformatted) hall⟩
      | false =>
        obtain ⟨s, hs, hformatted⟩ := he false level
        exact ⟨.text s :: pieces, by simp [hs, hpieces]; rfl, .cons (.text hformatted) hall⟩

theorem exists_formatFields {l : Layout} {fs : List Field} (level : Nat)
    (hkeys : ∀ f ∈ fs, ∃ s, f.key.format l false level = .ok s ∧ f.key.FoldedAs s.toList)
    (hvalues : ∀ f ∈ fs, Formats l f.value) :
    ∃ entries, Field.formatAll l level fs = .ok entries ∧
      List.Forall₂ FieldFormatted fs entries := by
  induction fs with
  | nil => exact ⟨[], rfl, .nil⟩
  | cons f fs ih =>
    obtain ⟨⟨key, hkey, hfolded⟩, hkeys⟩ := List.forall_mem_cons.1 hkeys
    obtain ⟨hvalue, hvalues⟩ := List.forall_mem_cons.1 hvalues
    obtain ⟨value, hvalue, hformatted⟩ := hvalue l.pretty level
    obtain ⟨entries, hentries, hall⟩ := ih hkeys hvalues
    obtain ⟨k, v, separator⟩ := f
    refine ⟨(key, value) :: entries, ?_, .cons ⟨hfolded, hformatted⟩ hall⟩
    rw [Field.formatAll, hkey, hvalue, hentries]
    rfl

theorem formats_group {l : Layout} {values : List Expr} {spans : BracketSpans}
    (hread : ∀ v ∈ values, v.Readable) (hvalues : ∀ v ∈ values, Formats l v) :
    Formats l (.items .group values spans) := by
  intro pretty level
  have hgroup : (Expr.items .group values spans).Readable := .items hread
  have hinline := hgroup.formatted_inline
  cases values with
  | nil =>
    rw [Expr.format, ite_self]
    exact ⟨_, rfl, hinline⟩
  | cons head args =>
    obtain ⟨hhead, hargs⟩ := List.forall_mem_cons.1 hread
    rw [Expr.format]
    split_ifs
    · exact ⟨_, rfl, hinline⟩
    · obtain ⟨pieces, hpieces, hall⟩ :=
        exists_formatArgs hargs (List.forall_mem_cons.1 hvalues).2 level false
      rw [hpieces]
      exact l.folded_group level spans hhead.formatted_inline.folded hall

theorem formats_sequence {l : Layout} {values : List Expr} {spans : BracketSpans}
    (hread : ∀ v ∈ values, v.Readable) (hvalues : ∀ v ∈ values, Formats l v) :
    Formats l (.items .sequence values spans) := by
  intro pretty level
  have hsequence : (Expr.items .sequence values spans).Readable := .items hread
  have hinline := hsequence.formatted_inline
  cases values with
  | nil =>
    rw [Expr.format, ite_self]
    exact ⟨_, rfl, hinline⟩
  | cons value values =>
    rw [Expr.format]
    · split_ifs
      · exact ⟨_, rfl, hinline⟩
      · obtain ⟨texts, htexts, hall⟩ := exists_formatAll hvalues (level + 1)
        rw [htexts]
        exact ⟨_, rfl, l.folded_sequence spans hall⟩
    · simp

theorem formats_map {l : Layout} {fields : List Field} {spans : BracketSpans}
    (hread : (Expr.map fields spans).Readable)
    (hkeys : ∀ f ∈ fields, f.key.IsKeyAtom ∨ Formats l f.key)
    (hvalues : ∀ f ∈ fields, Formats l f.value) : Formats l (.map fields spans) := by
  intro pretty level
  -- a key that is an atom need not be readable by itself, but it is written as its name
  have hkeys : ∀ f ∈ fields, ∀ level,
      ∃ s, f.key.format l false level = .ok s ∧ f.key.FoldedAs s.toList := by
    intro f hf level
    rcases hkeys f hf with hatom | hkey
    · have hfolded := hatom.foldedAs
      obtain ⟨name, span, hleaf, -⟩ := hatom
      rw [hleaf] at hfolded ⊢
      exact ⟨name, rfl, hfolded⟩
    · obtain ⟨s, hs, hformatted⟩ := hkey false level
      exact ⟨s, hs, hformatted.folded⟩
  have hinline := hread.formatted_inline
  cases fields with
  | nil =>
    rw [Expr.format, ite_self]
    exact ⟨_, rfl, hinline⟩
  | cons f fields =>
    rw [Expr.format]
    · split_ifs
      · exact ⟨_, rfl, hinline⟩
      · obtain ⟨entries, hentries, hall⟩ :=
          exists_formatFields (level + 1) (fun f hf => hkeys f hf (level + 1)) hvalues
        rw [hentries]
        exact l.folded_map spans hall (by simp)
    · simp

/-- Every expression that can be read is formatted. -/
theorem Expr.Readable.formats {e : Expr} (h : e.Readable) (l : Layout) : Formats l e := by
  induction e using Expr.induction with
  | leaf leaf span => exact fun _ _ => ⟨leaf.text, rfl, h.formatted_inline⟩
  | items enclosure values spans ih =>
    cases h with
    | items hread =>
      have hvalues : ∀ v ∈ values, Formats l v := fun v hv => ih v hv (hread v hv)
      cases enclosure with
      | group => exact formats_group hread hvalues
      | sequence => exact formats_sequence hread hvalues
  | map fields spans ih =>
    refine formats_map h (fun f hf => ?_) fun f hf => ?_
    · cases h with
      | map hkeys hvalues =>
        by_cases hatom : f.key.IsKeyAtom
        · exact .inl hatom
        · exact .inr ((ih f hf).1 (hkeys f hf hatom))
    · cases h with
      | map hkeys hvalues => exact (ih f hf).2 (hvalues f hf)
  | bare mark => cases h

/-! ### Documents -/

/-- An expression that reads back and whose leaves are written in one line each. -/
structure Expr.Printable (e : Expr) : Prop where
  readsBack : e.ReadsBack
  oneLine : ∀ leaf ∈ e.leaves, OneLine leaf.text.toList

/-- A string is written in one line, unless it holds the end of a line that is kept. -/
theorem oneLine_quoteString {s : String} (h : ∀ c ∈ s.toList, c ∉ keptLineEnds) :
    OneLine (quoteString s).toList := by
  have hbody : OneLine (s.toList.flatMap escapeChar) := by
    intro x hx
    obtain ⟨c, hc, hx⟩ := List.mem_flatMap.1 hx
    exact oneLine_escapeChar (h c hc) x hx
  rw [quoteString, String.toList_ofList, oneLine_append, ← List.singleton_append, oneLine_append]
  exact ⟨⟨by decide, hbody⟩, by decide⟩

theorem Expr.ReadsBack.printable {e : Expr} (h : e.ReadsBack)
    (hstrings : ∀ s, .string s ∈ e.leaves → ∀ c ∈ s.toList, c ∉ keptLineEnds) : e.Printable := by
  refine ⟨h, fun leaf hleaf => ?_⟩
  rcases h.leaf_of_mem leaf hleaf with ⟨s, rfl⟩ | hname
  · exact oneLine_quoteString (hstrings s hleaf)
  · exact oneLine_of_isNameChar hname

/-- An expression that reads back and whose leaves are in one line is formatted, and written
by it. -/
theorem Expr.Printable.exists_format {e : Expr} (h : e.Printable) (l : Layout) (pretty : Bool)
    (level : Nat) : ∃ s, e.format l pretty level = .ok s ∧ e.WrittenAs s.toList := by
  obtain ⟨s, hs, hformatted⟩ := h.readsBack.readable.formats l pretty level
  exact ⟨s, hs, hformatted.folded.writtenAs h.oneLine⟩

theorem exists_layOutAll (l : Layout) {es : List Expr} (h : ∀ e ∈ es, e.Readable) :
    ∃ texts, Expr.layOutAll l es = .ok texts ∧ List.Forall₂ Formatted es texts := by
  induction es with
  | nil => exact ⟨[], rfl, .nil⟩
  | cons e es ih =>
    obtain ⟨he, hes⟩ := List.forall_mem_cons.1 h
    obtain ⟨s, hs, hformatted⟩ := he.formats l l.pretty 0
    obtain ⟨texts, htexts, hall⟩ := ih hes
    refine ⟨s :: texts, ?_, .cons hformatted hall⟩
    rw [Expr.layOutAll, Expr.layOut, he.hasBare, if_neg (by simp), hs, htexts]
    rfl

theorem Layout.textGap_gap (l : Layout) : TextGap false l.gap.toList := by
  unfold gap
  split_ifs
  · exact ⟨Spaces.blank (by decide), by simp⟩
  · exact ⟨Spaces.blank (by decide), by simp⟩

/-- A document is laid out, and is written by it. -/
theorem Document.exists_layOut (l : Layout) {d : Document} (h : ∀ e ∈ d.exprs, e.Printable) :
    ∃ text, d.layOut l = .ok text ∧ d.WrittenAs text.toList := by
  obtain ⟨texts, htexts, hall⟩ := exists_layOutAll l fun e he => (h e he).readsBack.readable
  refine ⟨l.gap.intercalate texts, by rw [Document.layOut, htexts]; rfl, [], _, .nil, ?_, rfl⟩
  exact separated_intercalate l.textGap_gap textGap_nil
    (((List.forall₂_and_left ..).2 ⟨h, hall⟩).imp fun e t he => he.2.folded.writtenAs he.1.oneLine)

/-- The layout of lines of at least twenty characters and a positive indentation. -/
theorem PrintOptions.exists_layout {o : PrintOptions} (hindent : ∀ n ∈ o.indent, 0 < n)
    (hwidth : 20 ≤ o.width) : ∃ l, o.layout = .ok l := by
  have hpos : ¬o.indent.getD conciseIndent ≤ 0 := by
    cases hcases : o.indent with
    | none => decide
    | some n => exact Int.not_le.2 (hindent n hcases)
  unfold PrintOptions.layout
  dsimp only
  rw [if_neg (by omega), if_neg hpos]
  exact ⟨_, rfl⟩

/-- Printing a document that was read, and reading the text, gives the document again,
whatever the indentation and the length of lines. -/
theorem Document.parse_of_print {src : String} {d : Document}
    (h : Document.parse src false = .ok d) (hkeys : ∀ k ∈ d.keys, k.isNumber = false)
    (hreals : ∀ r, .real r ∈ d.leaves → nameLeaf r.text.toList = .ok (.real r))
    (hstrings : ∀ s, .string s ∈ d.leaves → ∀ c ∈ s.toList, c ∉ keptLineEnds)
    (rs : Records) {o : PrintOptions} (hindent : ∀ n ∈ o.indent, 0 < n) (hwidth : 20 ≤ o.width)
    (hspans : o.encode.keepSpans = false) :
    ∃ text, Value.print rs o (.document d) = .ok text ∧ Document.parse text false = .ok d := by
  obtain ⟨hdrop, hback⟩ := Document.readsBack_of_parse h hkeys hreals
  have hprintable : ∀ e ∈ d.exprs, e.Printable := fun e he =>
    (hback e he).printable fun s hs => hstrings s (Expr.mem_leavesAll.2 ⟨e, he, hs⟩)
  obtain ⟨l, hl⟩ := o.exists_layout hindent hwidth
  obtain ⟨text, htext, hwritten⟩ := Document.exists_layOut l hprintable
  refine ⟨text, ?_, (Document.readPlain_of_writtenAs hback hwritten).trans (congrArg _ hdrop)⟩
  have hbare : Expr.anyHasBare d.exprs = false := by
    rw [Expr.anyHasBare_eq_any, List.any_eq_false]
    intro e he
    simp [(hback e he).hasBare]
  have hplain : d.plain = .ok d := by rw [Document.plain, hbare, if_neg (by simp), hdrop]
  rw [Value.print, hl, Value.toDocument]
  simp only [hspans, hplain]
  show (d.layOut l).mapError Failure.print = _
  rw [htext]
  rfl

/-- A named argument and a sequence that are broken up, since they do not fit. -/
theorem Document.parse_of_print_group :
    ∃ d text, Document.parse "(f \x7ba: 1.5, b: \"x y\"\x7d :k [g 7/3])" false = .ok d ∧
      Value.print [] ⟨some 2, 20, ⟨true, [], false⟩⟩ (.document d) = .ok text ∧
      Document.parse text false = .ok d := by
  obtain ⟨r, hr⟩ : ∃ r, r = Binary64.ofRatio false 3 2 := ⟨_, rfl⟩
  have hread : Document.parse "(f \x7ba: 1.5, b: \"x y\"\x7d :k [g 7/3])" false = .ok ⟨[
      .items .group [.leaf (.atom "f") none,
        .map [⟨.leaf (.atom "a") none, .leaf (.real r) none, none⟩,
          ⟨.leaf (.atom "b") none, .leaf (.string "x y") none, none⟩] .none,
        .leaf (.atom ":k") none, .items .sequence [.leaf (.atom "g") none,
          .leaf (.rational 7 3) none] .none] .none], none⟩ := by
    rw [hr]
    decide +kernel
  obtain ⟨text, htext⟩ := Document.parse_of_print hread (by rw [hr]; decide +kernel)
    (fun x hx => by
      obtain rfl : x = r := by
        simpa [Document.leaves, Expr.leavesAll, Expr.leaves, Field.leavesAll] using hx
      rw [hr]
      decide +kernel)
    (fun x hx => by
      obtain rfl : x = "x y" := by
        simpa [Document.leaves, Expr.leavesAll, Expr.leaves, Field.leavesAll] using hx
      simp [keptLineEnds])
    [] (o := ⟨some 2, 20, ⟨true, [], false⟩⟩) (by decide) (by decide) rfl
  exact ⟨_, text, hread, htext⟩

end Sexpr
