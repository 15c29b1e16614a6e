/-
Ways to write an expression out.

The text of an expression leaves white space, comments and commas open. Leaves are
written in their canonical form and a key is directly followed by its colon; what stands
between the parts of an expression is any of the gaps below.

* `Blank` — white space and comments;
* `TextGap`, `ItemGap` — gaps between the expressions of a text and the items of a bracket;
* `Expr.WrittenAs`, `Document.WrittenAs` — the texts of an expression and of a document;
* `Expr.writtenAs_text`, `Document.writtenAs_text` — the canonical text is one of them.
-/
import Mathlib.Data.List.Forall2
import Sexpr.Proofs.Characters
import Sexpr.Proofs.Parts

namespace Sexpr

/-! ### Gaps -/

/-- White space and comments. A comment goes on up to the end of its line. -/
inductive Blank : List Char → Prop
  | nil : Blank []
  | space {c : Char} {cs : List Char} (hc : Text.isSpace c = true) (h : Blank cs) : Blank (c :: cs)
  | comment {body cs : List Char} (hbody : ∀ c ∈ body, c ≠ '\n' ∧ c ≠ endMark) (h : Blank cs) :
      Blank (';' :: (body ++ '\n' :: cs))

/-- What stands after one of several expressions: a blank, which is not empty unless the
expression is the last one. -/
def TextGap (last : Bool) (g : List Char) : Prop := Blank g ∧ (last = false → g ≠ [])

/-- What stands after an item of a bracket: the same, or a comma between two blanks. -/
inductive ItemGap (last : Bool) : List Char → Prop
  | blank {g : List Char} (h : TextGap last g) : ItemGap last g
  | comma {g g' : List Char} (h : Blank g) (h' : Blank g') : ItemGap last (g ++ ',' :: g')

/-- A comment is gone over up to the end of its line. -/
theorem layoutLength_comment {body : List Char} (h : ∀ c ∈ body, c ≠ '\n' ∧ c ≠ endMark)
    (r : List Char) :
    layoutLength true (body ++ '\n' :: r) = body.length + 1 + layoutLength false r := by
  induction body with
  | nil => rfl
  | cons c body ih =>
    obtain ⟨hc, hbody⟩ := List.forall_mem_cons.1 h
    rw [List.cons_append, layoutLength, if_neg hc.2, if_pos rfl, decide_eq_true hc.1, ih hbody,
      List.length_cons]
    omega

theorem layoutLength_of_ne {c : Char} (hspace : Text.isSpace c = false) (hc : c ≠ ';')
    (cs : List Char) : layoutLength false (c :: cs) = 0 := by
  simp [layoutLength, hspace, hc]

/-- Layout is gone over to its end. -/
theorem Blank.layoutLength_append {g r : List Char} (h : Blank g) (hr : layoutLength false r = 0) :
    layoutLength false (g ++ r) = g.length := by
  induction h with
  | nil => exact hr
  | space hc h ih =>
    rw [List.cons_append, layoutLength, if_neg (ne_endMark_of_isSpace hc), if_neg (by simp),
      if_pos hc, ih, List.length_cons]
    omega
  | @comment body cs hbody h ih =>
    rw [List.cons_append, layoutLength, if_neg (by decide), if_neg (by simp),
      if_neg (by decide), if_pos rfl, List.append_assoc, List.cons_append,
      layoutLength_comment hbody, ih]
    simp only [List.length_cons, List.length_append]
    omega

theorem Blank.append {g g' : List Char} (h : Blank g) (h' : Blank g') : Blank (g ++ g') := by
  induction h with
  | nil => exact h'
  | space hc h ih => exact .space hc ih
  | comment hbody h ih =>
    rw [List.cons_append, List.append_assoc, List.cons_append]
    exact .comment hbody ih

theorem blank_blank : Blank [' '] := .space isSpace_blank .nil

/-- No name goes on over a blank. -/
theorem Blank.delimits {g : List Char} (h : Blank g) (hne : g ≠ []) (r : List Char) :
    Delimits (g ++ r) := by
  cases h with
  | nil => exact absurd rfl hne
  | space hc h => exact isNameChar_of_isSpace hc
  | comment hbody h => exact isNameChar_of_mem_signs (c := ';') (by decide)

/-! ### Expressions -/

/-- Parts one after the other, each written as `W` says and followed by a gap. -/
inductive Separated {α : Type} (gap : Bool → List Char → Prop) (W : α → List Char → Prop) :
    List α → List Char → Prop
  | nil : Separated gap W [] []
  | cons {x : α} {xs : List α} {s g t : List Char} (h : W x s) (hg : gap xs.isEmpty g)
      (hxs : Separated gap W xs t) : Separated gap W (x :: xs) (s ++ g ++ t)

/-- Another way to write the parts and the gaps. -/
theorem Separated.imp {α : Type} {gap gap' : Bool → List Char → Prop}
    {W W' : α → List Char → Prop} {xs : List α} {t : List Char} (h : Separated gap W xs t)
    (hgap : ∀ {last g}, gap last g → gap' last g) (hW : ∀ x ∈ xs, ∀ s, W x s → W' x s) :
    Separated gap' W' xs t := by
  induction h with
  | nil => exact .nil
  | @cons x xs s g t hx hg hxs ih =>
    obtain ⟨hhead, htail⟩ := List.forall_mem_cons.1 hW
    exact .cons (hhead s hx) (hgap hg) (ih htail)

/-- A field is its key, a colon directly after it, a blank and its value. -/
inductive FieldWrittenAs (W : Expr → List Char → Prop) : Field → List Char → Prop
  | mk {k v : Expr} {separator : Option TokenSpans} {s g t : List Char} (hk : W k s)
      (hg : Blank g) (hne : g ≠ []) (hv : W v t) :
      FieldWrittenAs W ⟨k, v, separator⟩ (s ++ ':' :: g ++ t)

/-- An expression can be written as a text: its leaves in their canonical form, with free
gaps between them. -/
inductive Expr.WrittenAs : Expr → List Char → Prop
  | leaf {l : Leaf} {span : Option TokenSpans} : WrittenAs (.leaf l span) l.text.toList
  | items {enclosure : Enclosure} {values : List Expr} {spans : BracketSpans} {g t : List Char}
      (hg : Blank g) (h : Separated ItemGap WrittenAs values t) :
      WrittenAs (.items enclosure values spans)
        (enclosure.brackets.1.toList ++ g ++ t ++ enclosure.brackets.2.toList)
  | map {fields : List Field} {spans : BracketSpans} {g t : List Char}
      (hg : Blank g) (h : Separated ItemGap (FieldWrittenAs WrittenAs) fields t) :
      WrittenAs (.map fields spans) ('{' :: g ++ t ++ ['}'])

/-- A document can be written as a text: its expressions, with blanks around them. -/
def Document.WrittenAs (d : Document) (text : List Char) : Prop :=
  ∃ g t, Blank g ∧ Separated TextGap Expr.WrittenAs d.exprs t ∧ text = g ++ t

/-! ### Canonical texts -/

theorem interleave_nil (gap : String) (texts : List String) :
    interleave gap texts [] = gap.intercalate texts := by
  induction texts with
  | nil => rfl
  | cons s texts ih =>
    cases texts with
    | nil => simp [interleave]
    | cons t texts => rw [interleave, ih, String.intercalate_cons_cons]; simp

/-- Parts with the same gap between any two of them. -/
theorem separated_intercalate {α : Type} {gap : Bool → List Char → Prop}
    {W : α → List Char → Prop} {sep : String} (hsep : gap false sep.toList) (hlast : gap true [])
    {xs : List α} {texts : List String} (h : List.Forall₂ (fun x t => W x t.toList) xs texts) :
    Separated gap W xs (sep.intercalate texts).toList := by
  induction h with
  | nil => exact .nil
  | @cons x text xs texts hx hxs ih =>
    cases hxs with
    | nil =>
      have hone := Separated.cons hx (by exact hlast) .nil
      rwa [List.append_nil, List.append_nil] at hone
    | cons hy hys =>
      have hrest := Separated.cons hx (by exact hsep) ih
      rwa [String.intercalate_cons_cons, String.toList_append, String.toList_append]

theorem textGap_nil : TextGap true [] := ⟨.nil, by simp⟩

theorem textGap_singleton {c : Char} (hc : Text.isSpace c = true) (last : Bool) :
    TextGap last [c] := ⟨.space hc .nil, by simp⟩

theorem fieldWrittenAs_text {W : Expr → List Char → Prop} {f : Field}
    (hk : W f.key f.key.dropSpans.text.toList) (hv : W f.value f.value.dropSpans.text.toList) :
    FieldWrittenAs W f f.dropSpans.text.toList := by
  have hf : FieldWrittenAs W f _ :=
    .mk hk (.space isSpace_blank .nil) (by simp) hv
  simpa [Field.text, Field.dropSpans] using hf

theorem Expr.text_dropSpans_items (enclosure : Enclosure) (values : List Expr)
    (spans : BracketSpans) : (Expr.items enclosure values spans).dropSpans.text =
      enclosure.brackets.1 ++ " ".intercalate (values.map fun v => v.dropSpans.text) ++
        enclosure.brackets.2 := by
  rw [Expr.dropSpans, Expr.dropSpansAll_eq_map, Expr.text, Expr.texts_eq_map, List.map_map]
  simp [bracketed, BracketSpans.none, interleave_nil, Function.comp_def]

theorem Expr.text_dropSpans_map (fields : List Field) (spans : BracketSpans) :
    (Expr.map fields spans).dropSpans.text =
      "\x7b" ++ ", ".intercalate (fields.map fun f => f.dropSpans.text) ++ "\x7d" := by
  rw [Expr.dropSpans, Field.dropSpansAll_eq_map, Expr.text, Field.texts_eq_map, List.map_map]
  simp [bracketed, BracketSpans.none, interleave_nil, Function.comp_def]

/-- The canonical text of an expression is a way to write it. -/
theorem Expr.writtenAs_text {e : Expr} (h : e.hasBare = false) :
    e.WrittenAs e.dropSpans.text.toList := by
  induction e using Expr.induction with
  | leaf l span => exact .leaf
  | items enclosure values spans ih =>
    rw [Expr.hasBare, Expr.anyHasBare_eq_any, List.any_eq_false] at h
    have hvalues : List.Forall₂ (fun v t => v.WrittenAs t.toList) values
        (values.map fun v => v.dropSpans.text) :=
      List.forall₂_map_right_iff.2
        (List.forall₂_same.2 fun v hv => ih v hv (by simpa using h v hv))
    rw [Expr.text_dropSpans_items, String.toList_append, String.toList_append,
      ← List.append_nil enclosure.brackets.1.toList]
    exact .items .nil (separated_intercalate
      (.blank (textGap_singleton isSpace_blank false)) (.blank textGap_nil) hvalues)
  | map fields spans ih =>
    rw [Expr.hasBare, Field.anyHasBare_eq_any, List.any_eq_false] at h
    have hbare : ∀ f ∈ fields, f.key.hasBare = false ∧ f.value.hasBare = false :=
      fun f hf => by simpa using h f hf
    have hfields : List.Forall₂ (fun f t => FieldWrittenAs Expr.WrittenAs f t.toList) fields
        (fields.map fun f : Field => f.dropSpans.text) :=
      List.forall₂_map_right_iff.2 (List.forall₂_same.2 fun f hf =>
        fieldWrittenAs_text ((ih f hf).1 (hbare f hf).1) ((ih f hf).2 (hbare f hf).2))
    rw [Expr.text_dropSpans_map, String.toList_append, String.toList_append]
    exact .map .nil (separated_intercalate
      (.comma .nil (.space isSpace_blank .nil)) (.blank textGap_nil) hfields)
  | bare mark => simp [Expr.hasBare] at h

theorem Document.text_dropSpans (d : Document) :
    d.dropSpans.text = "\n".intercalate (d.exprs.map fun e => e.dropSpans.text) := by
  have hspans : Expr.anyHasSpans (d.exprs.map Expr.dropSpans) = false := by
    simp [Expr.anyHasSpans_eq_any, Expr.hasSpans_dropSpans]
  rw [Document.dropSpans, Document.text, Expr.dropSpansAll_eq_map, hspans, Expr.texts_eq_map,
    List.map_map]
  rfl

/-- The canonical text of a document is a way to write it. -/
theorem Document.writtenAs_text {d : Document} (h : ∀ e ∈ d.exprs, e.hasBare = false) :
    d.WrittenAs d.dropSpans.text.toList := by
  have hexprs : List.Forall₂ (fun e t => e.WrittenAs t.toList) d.exprs
      (d.exprs.map fun e => e.dropSpans.text) :=
    List.forall₂_map_right_iff.2 (List.forall₂_same.2 fun e he => Expr.writtenAs_text (h e he))
  rw [Document.text_dropSpans]
  exact ⟨[], _, .nil, separated_intercalate (textGap_singleton isSpace_newline false)
    textGap_nil hexprs, rfl⟩

end Sexpr
