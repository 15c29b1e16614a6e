/-
Documents in the concise style.

The layout writes an expression in one line from its parts, without looking at spans. The
text of an expression goes by its spans wherever it has some, and by the separators of its
brackets. Where all spans are dropped both give the same, so a document whose expressions
fit in their lines is laid out as its text without spans.

* `Expr.inline_eq_text` — the line of an expression is its text without spans;
* `Document.layOut_of_fits` — a document whose expressions fit in their lines;
* `Value.print_document_concise` — the same for printing with all its options.
-/
import Sexpr.Print
import Sexpr.Proofs.Writing

namespace Sexpr

/-! ### Expressions in one line -/

/-- The line of an expression is its text without spans. -/
theorem Expr.inline_eq_text (e : Expr) : e.inline = e.dropSpans.text := by
  induction e using Expr.induction with
  | leaf l span => rfl
  | items enclosure values spans ih =>
    rw [Expr.inline_items, Expr.text_dropSpans_items, List.map_congr_left ih]
  | map fields spans ih =>
    rw [Expr.inline_map, Expr.text_dropSpans_map]
    congr 3
    refine List.map_congr_left fun f hf => ?_
    rw [(ih f hf).1, (ih f hf).2]
    rfl
  | bare mark => rfl

theorem Expr.inline_dropSpans (e : Expr) : e.dropSpans.inline = e.inline := by
  rw [Expr.inline_eq_text, Expr.inline_eq_text, Expr.dropSpans_dropSpans]

/-- In the concise style an expression that fits is written in its line. -/
theorem Expr.format_of_fits {l : Layout} {level : Nat} {e : Expr} (hbare : e.hasBare = false)
    (hfits : l.fits level e.inline = true) : e.format l false level = .ok e.inline := by
  cases e with
  | leaf leaf span => rfl
  | items enclosure values spans =>
    cases enclosure with
    | group =>
      unfold Expr.format
      exact if_pos hfits
    | sequence =>
      unfold Expr.format
      exact if_pos (by simp [hfits])
  | map fields spans =>
    unfold Expr.format
    exact if_pos (by simp [hfits])
  | bare mark => exact absurd hbare (by simp [Expr.hasBare])

/-! ### Documents -/

theorem Expr.layOutAll_of_fits {l : Layout} {es : List Expr} (hl : l.pretty = false)
    (hbare : ∀ e ∈ es, e.hasBare = false) (hfits : ∀ e ∈ es, l.fits 0 e.inline = true) :
    Expr.layOutAll l es = .ok (es.map Expr.inline) := by
  induction es with
  | nil => rfl
  | cons e es ih =>
    obtain ⟨he, hes⟩ := List.forall_mem_cons.1 hbare
    obtain ⟨hfit, hfitAll⟩ := List.forall_mem_cons.1 hfits
    rw [Expr.layOutAll, Expr.layOut, he, if_neg (by simp), hl, Expr.format_of_fits he hfit,
      ih hes hfitAll]
    rfl

/-- A document whose expressions fit is laid out in one line for each of them. -/
theorem Document.layOut_of_fits {l : Layout} {d : Document} (hl : l.pretty = false)
    (hbare : ∀ e ∈ d.exprs, e.hasBare = false) (hfits : ∀ e ∈ d.exprs, l.fits 0 e.inline = true) :
    d.layOut l = .ok ("\n".intercalate (d.exprs.map Expr.inline)) := by
  rw [Document.layOut, Expr.layOutAll_of_fits hl hbare hfits, Layout.gap, hl]
  rfl

/-- Where spans are not kept, what is printed of a document is its layout without them. -/
theorem Value.print_of_plain (rs : Records) {o : PrintOptions} {l : Layout} {d plain : Document}
    {text : String} (hl : o.layout = .ok l) (hspans : o.encode.keepSpans = false)
    (hplain : d.plain = .ok plain) (htext : plain.layOut l = .ok text) :
    Value.print rs o (.document d) = .ok text := by
  rw [Value.print, hl, Value.toDocument]
  simp only [hspans, hplain]
  show (plain.layOut l).mapError Failure.print = _
  rw [htext]
  rfl

/-- Printing in the concise style without spans gives the text of the document without
spans, for every line length that each of its expressions fits in. -/
theorem Value.print_document_concise (rs : Records) (single : Bool) (first : List String)
    {d : Document} {width : Int} (hbare : Expr.anyHasBare d.exprs = false) (hwidth : 20 ≤ width)
    (hfits : ∀ e ∈ d.exprs, (e.dropSpans.text.length : Int) ≤ width) :
    d.plain = .ok d.dropSpans ∧
      Value.print rs ⟨none, width, ⟨single, first, false⟩⟩ (.document d) =
        .ok d.dropSpans.text := by
  have hplain : d.plain = .ok d.dropSpans := by rw [Document.plain, hbare, if_neg (by simp)]
  refine ⟨hplain, ?_⟩
  rw [Expr.anyHasBare_eq_any, List.any_eq_false] at hbare
  have hexprs : d.dropSpans.exprs = d.exprs.map Expr.dropSpans := Expr.dropSpansAll_eq_map d.exprs
  have hlayout : PrintOptions.layout ⟨none, width, ⟨single, first, false⟩⟩ =
      .ok ⟨false, 2, width.toNat⟩ := by
    rw [PrintOptions.layout, if_neg (by dsimp only; omega)]
    rfl
  refine Value.print_of_plain rs hlayout rfl hplain ?_
  rw [Document.layOut_of_fits rfl, hexprs, List.map_map, Document.text_dropSpans]
  · congr 2
    refine List.map_congr_left fun e _ => ?_
    rw [Function.comp, Expr.inline_dropSpans, Expr.inline_eq_text]
  · intro e he
    rw [hexprs, List.mem_map] at he
    obtain ⟨x, hx, rfl⟩ := he
    rw [Expr.hasBare_dropSpans]
    simpa using hbare x hx
  · intro e he
    rw [hexprs, List.mem_map] at he
    obtain ⟨x, hx, rfl⟩ := he
    have hfit := hfits x hx
    rw [Layout.fits, decide_eq_true_eq, Expr.inline_dropSpans, Expr.inline_eq_text]
    show x.dropSpans.text.length + 2 * 0 ≤ width.toNat
    omega

/-- A group with spans that misrepresent it and a map without, in lines of twenty characters. -/
theorem Value.print_document_concise_mixed :
    Value.print [] ⟨none, 20, ⟨true, [], false⟩⟩ (.document ⟨[
      .items .group [.leaf (.atom "f") (some ⟨some ⟨.origin, .origin, "g"⟩, none⟩),
        .leaf (.string "a \"b\"\n") none, .items .sequence [] ⟨none, some [], none⟩]
        ⟨none, some [⟨none, none⟩], none⟩,
      .map [⟨.leaf (.int (-1)) none, .leaf (.rational 1 2) none, some ⟨none, none⟩⟩,
        ⟨.leaf (.atom "k") none, .leaf (.atom "v") none, none⟩] .none], none⟩) =
      .ok "(f \"a \\\"b\\\"\\n\" [])\n\x7b-1: 1/2, k: v\x7d" :=
  (Value.print_document_concise [] true [] (by decide) (by decide) (by decide +kernel)).2

end Sexpr
