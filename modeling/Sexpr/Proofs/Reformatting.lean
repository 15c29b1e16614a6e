/-
Formatting a formatted text changes nothing.

A document need not be what its formatted text is read as: a key that is a number comes
back as a name. No decision about the layout sees the difference, since a key is only
ever written, never looked into.

* `Expr.format_reread` — an expression and what its text is read as are formatted alike;
* `Document.layOut_reread` — so are documents;
* `Document.print_of_parse_print` — printing, reading and printing again gives the same text.
-/
import Sexpr.Proofs.Canonical
import Sexpr.Proofs.ConciseText
import Sexpr.Proofs.Formatting

namespace Sexpr

/-! ### What the layout looks at -/

theorem Expr.inline_reread (e : Expr) : e.reread.inline = e.inline := by
  rw [Expr.inline_eq_text, Expr.dropSpans_reread, Expr.text_reread, Expr.inline_eq_text]

theorem Expr.hasBare_asKey (e : Expr) : e.asKey.hasBare = e.hasBare := by
  cases e with
  | _ => rfl

theorem Expr.hasBare_reread (e : Expr) : e.reread.hasBare = e.hasBare := by
  induction e using Expr.induction with
  | leaf l span => rfl
  | items enclosure values spans ih =>
    rw [Expr.reread, Expr.hasBare, Expr.hasBare, Expr.rereadAll_eq_map, Expr.anyHasBare_eq_any,
      Expr.anyHasBare_eq_any, List.any_map]
    exact any_congr_of_mem ih
  | map fields spans ih =>
    rw [Expr.reread, Expr.hasBare, Expr.hasBare, Field.rereadAll_eq_map, Field.anyHasBare_eq_any,
      Field.anyHasBare_eq_any, List.any_map]
    refine any_congr_of_mem fun f hf => ?_
    rw [Function.comp, Field.reread, Expr.hasBare_asKey, (ih f hf).1, (ih f hf).2]
  | bare mark => rfl

/-- Strings are read as what they are, wherever they stand. -/
theorem Expr.string_mem_of_reread {s : String} {e : Expr} (h : .string s ∈ e.reread.leaves) :
    .string s ∈ e.leaves := by
  induction e using Expr.induction with
  | leaf l span =>
    rw [Expr.reread, Expr.leaves, List.mem_singleton] at h
    cases l with
    | real r =>
      rw [Leaf.reread] at h
      split_ifs at h
    | _ => exact List.mem_singleton.2 h
  | items enclosure values spans ih =>
    rw [Expr.reread, Expr.rereadAll_eq_map] at h
    obtain ⟨v, hv, hs⟩ := Expr.mem_leavesAll.1 h
    obtain ⟨w, hw, rfl⟩ := List.mem_map.1 hv
    exact Expr.mem_leavesAll.2 ⟨w, hw, ih w hw hs⟩
  | map fields spans ih =>
    rw [Expr.reread, Field.rereadAll_eq_map] at h
    obtain ⟨x, hx, hs⟩ := Field.mem_leavesAll.1 h
    obtain ⟨f, hf, rfl⟩ := List.mem_map.1 hx
    refine Field.mem_leavesAll.2 ⟨f, hf, hs.imp (fun hs => (ih f hf).1 ?_) (ih f hf).2⟩
    -- a key that turns into a name is none of the strings
    cases hkey : f.key with
    | leaf l span =>
      rw [Field.reread, hkey, Expr.reread, Expr.asKey, Expr.leaves, List.mem_singleton,
        Leaf.asKey] at hs
      split_ifs at hs
      rw [hs]
      exact List.mem_singleton.2 rfl
    | _ => rwa [Field.reread, hkey] at hs
  | bare mark => exact h

/-- No number of an expression is infinite. -/
def Expr.Finite (e : Expr) : Prop := ∀ r, .real r ∈ e.leaves → r.isInfinite = false

theorem Expr.Finite.of_mem_items {enclosure : Enclosure} {values : List Expr}
    {spans : BracketSpans} (h : (Expr.items enclosure values spans).Finite) {v : Expr}
    (hv : v ∈ values) : v.Finite :=
  fun r hr => h r (Expr.mem_leavesAll.2 ⟨v, hv, hr⟩)

theorem Expr.Finite.of_mem_map {fields : List Field} {spans : BracketSpans}
    (h : (Expr.map fields spans).Finite) {f : Field} (hf : f ∈ fields) :
    f.key.Finite ∧ f.value.Finite :=
  ⟨fun r hr => h r (Field.mem_leavesAll.2 ⟨f, hf, .inl hr⟩),
    fun r hr => h r (Field.mem_leavesAll.2 ⟨f, hf, .inr hr⟩)⟩

theorem Expr.Finite.reread_leaf {l : Leaf} {span : Option TokenSpans}
    (h : (Expr.leaf l span).Finite) : (Expr.leaf l span).reread = .leaf l span := by
  have hl : l.reread = l := Leaf.reread_eq_iff.2 fun r hr => h r (List.mem_singleton.2 hr.symm)
  rw [Expr.reread, hl]

theorem Expr.keyword?_reread {e : Expr} (h : e.Finite) : e.reread.keyword? = e.keyword? := by
  cases e with
  | leaf l span => rw [h.reread_leaf]
  | _ => rfl

theorem Expr.isLeafLike_reread {e : Expr} (h : e.Finite) (l : Leaf) :
    e.reread.isLeafLike l = e.isLeafLike l := by
  cases e with
  | leaf m span => rw [h.reread_leaf]
  | _ => rfl

theorem areUniform_map_reread {es : List Expr} (h : ∀ e ∈ es, e.Finite) :
    areUniform (es.map Expr.reread) = areUniform es := by
  cases es with
  | nil => rfl
  | cons e es =>
    obtain ⟨he, hes⟩ := List.forall_mem_cons.1 h
    cases e with
    | leaf l span =>
      have hall : (es.map Expr.reread).all (Expr.isLeafLike l) = es.all (Expr.isLeafLike l) := by
        rw [List.all_map, Bool.eq_iff_iff, List.all_eq_true, List.all_eq_true]
        refine forall_congr' fun x => forall_congr' fun hx => ?_
        rw [Function.comp, Expr.isLeafLike_reread (hes x hx)]
      rw [List.map_cons, he.reread_leaf, areUniform, areUniform, hall, List.length_map]
    | _ => rfl

/-! ### Formatting -/

/-- An expression and what its text is read as are formatted alike, in every style and at
every level. -/
def FormatsAlike (l : Layout) (e : Expr) : Prop :=
  ∀ pretty level, e.reread.format l pretty level = e.format l pretty level

theorem formatAll_map_reread {l : Layout} {es : List Expr} (h : ∀ e ∈ es, FormatsAlike l e)
    (level : Nat) : Expr.formatAll l level (es.map Expr.reread) = Expr.formatAll l level es := by
  induction es with
  | nil => rfl
  | cons e es ih =>
    obtain ⟨he, hes⟩ := List.forall_mem_cons.1 h
    rw [List.map_cons, Expr.formatAll, Expr.formatAll, he, ih hes]

theorem formatArgs_map_reread {l : Layout} {es : List Expr} (h : ∀ e ∈ es, FormatsAlike l e)
    (hfinite : ∀ e ∈ es, e.Finite) (level : Nat) (named : Bool) :
    Expr.formatArgs l level named (es.map Expr.reread) = Expr.formatArgs l level named es := by
  induction es generalizing named with
  | nil => rfl
  | cons e es ih =>
    obtain ⟨he, hes⟩ := List.forall_mem_cons.1 h
    obtain ⟨hf, hfs⟩ := List.forall_mem_cons.1 hfinite
    -- the same expressions give names to arguments, so the same ones are grouped together
    rw [List.map_cons, Expr.formatArgs, Expr.formatArgs, Expr.keyword?_reread hf, he, he,
      ih hes hfs, ih hes hfs]

/-- A key is written as its text, be it a number or the name that the number is read as. -/
theorem format_asKey {l : Layout} {k : Expr} (h : FormatsAlike l k) (level : Nat) :
    k.reread.asKey.format l false level = k.format l false level := by
  cases k with
  | leaf leaf span =>
    rw [Expr.reread, Expr.asKey, Expr.format, Expr.format, Leaf.text_asKey, Leaf.text_reread]
  | _ => exact h false level

theorem formatFields_map_reread {l : Layout} {fs : List Field}
    (h : ∀ f ∈ fs, FormatsAlike l f.key ∧ FormatsAlike l f.value) (level : Nat) :
    Field.formatAll l level (fs.map Field.reread) = Field.formatAll l level fs := by
  induction fs with
  | nil => rfl
  | cons f fs ih =>
    obtain ⟨hf, hfs⟩ := List.forall_mem_cons.1 h
    obtain ⟨k, v, separator⟩ := f
    rw [List.map_cons, Field.reread, Field.formatAll, Field.formatAll, format_asKey hf.1, hf.2,
      ih hfs]

/-- No decision about the layout sees whether a key is a number or a name. -/
theorem Expr.format_reread (l : Layout) {e : Expr} (h : e.Finite) : FormatsAlike l e := by
  induction e using Expr.induction with
  | leaf leaf span =>
    intro pretty level
    rw [h.reread_leaf]
  | items enclosure values spans ih =>
    intro pretty level
    have hfinite : ∀ v ∈ values, v.Finite := fun v hv => h.of_mem_items hv
    have halike : ∀ v ∈ values, FormatsAlike l v := fun v hv => ih v hv (hfinite v hv)
    have hinline := (Expr.items enclosure values spans).inline_reread
    rw [Expr.reread, Expr.rereadAll_eq_map] at hinline ⊢
    cases enclosure with
    | group =>
      cases values with
      | nil => rfl
      | cons head args =>
        rw [List.map_cons] at hinline ⊢
        rw [Expr.format, Expr.format, hinline, head.inline_reread,
          formatArgs_map_reread (List.forall_mem_cons.1 halike).2
            (List.forall_mem_cons.1 hfinite).2]
    | sequence =>
      have huniform := areUniform_map_reread hfinite
      have hall := formatAll_map_reread halike (level + 1)
      cases values with
      | nil => rfl
      | cons v values =>
        rw [List.map_cons] at hinline huniform hall ⊢
        rw [Expr.format, Expr.format, hinline, huniform, hall]
        · simp
        · simp
  | map fields spans ih =>
    intro pretty level
    have halike : ∀ f ∈ fields, FormatsAlike l f.key ∧ FormatsAlike l f.value := by
      intro f hf
      exact ⟨(ih f hf).1 (h.of_mem_map hf).1, (ih f hf).2 (h.of_mem_map hf).2⟩
    have hinline := (Expr.map fields spans).inline_reread
    have hall := formatFields_map_reread halike (level + 1)
    have hlength : (fields.map Field.reread).length = fields.length := List.length_map _
    rw [Expr.reread, Field.rereadAll_eq_map] at hinline ⊢
    cases fields with
    | nil => rfl
    | cons f fields =>
      rw [List.map_cons] at hinline hlength hall ⊢
      rw [Expr.format, Expr.format, hinline, hlength, hall]
      · simp
      · simp
  | bare mark =>
    intro pretty level
    rfl

/-! ### Documents -/

theorem Document.layOut_reread (l : Layout) {d : Document} (h : ∀ e ∈ d.exprs, e.Finite) :
    d.reread.layOut l = d.layOut l := by
  obtain ⟨exprs, leading⟩ := d
  have hall : Expr.layOutAll l (exprs.map Expr.reread) = Expr.layOutAll l exprs := by
    induction exprs with
    | nil => rfl
    | cons e es ih =>
      obtain ⟨he, hes⟩ := List.forall_mem_cons.1 h
      rw [List.map_cons, Expr.layOutAll, Expr.layOutAll, Expr.layOut, Expr.layOut,
        Expr.hasBare_reread, Expr.format_reread l he, ih hes]
  rw [Document.layOut, Document.layOut, Document.reread, hall]

/-- Without its spans, a document is printed as it is laid out. -/
theorem Value.print_document (rs : Records) {o : PrintOptions} {l : Layout} {d : Document}
    {text : String} (hl : o.layout = .ok l) (hspans : o.encode.keepSpans = false)
    (hplain : d.plain = .ok d) (htext : d.layOut l = .ok text) :
    Value.print rs o (.document d) = .ok text :=
  Value.print_of_plain rs hl hspans hplain htext

theorem Document.plain_of_dropSpans {d : Document} (hdrop : d.dropSpans = d)
    (hbare : ∀ e ∈ d.exprs, e.hasBare = false) : d.plain = .ok d := by
  have hany : Expr.anyHasBare d.exprs = false := by
    rw [Expr.anyHasBare_eq_any, List.any_eq_false]
    intro e he
    simp [hbare e he]
  rw [Document.plain, hany, if_neg (by simp), hdrop]

/-- A printed document is read as one that is printed the same way, whatever the indentation
and the length of lines, and be its keys names or numbers. -/
theorem Document.print_of_parse_print {src : String} {d : Document}
    (h : Document.parse src false = .ok d)
    (hreals : ∀ r, .real r ∈ d.leaves → r.isInfinite = false)
    (hstrings : ∀ s, .string s ∈ d.leaves → ∀ c ∈ s.toList, c ∉ keptLineEnds)
    (rs : Records) {o : PrintOptions} (hindent : ∀ n ∈ o.indent, 0 < n) (hwidth : 20 ≤ o.width)
    (hspans : o.encode.keepSpans = false) :
    ∃ text d', Value.print rs o (.document d) = .ok text ∧ Document.parse text false = .ok d' ∧
      Value.print rs o (.document d') = .ok text := by
  obtain ⟨hdrop, hread⟩ := Document.readable_of_readPlain h
  obtain ⟨l, hl⟩ := o.exists_layout hindent hwidth
  have hback : ∀ e ∈ d.reread.exprs, e.ReadsBack := by
    rw [Document.reread, List.forall_mem_map]
    exact fun e he => (hread e he).readsBack_reread
  have hprintable : ∀ e ∈ d.reread.exprs, e.Printable := by
    intro e he
    refine (hback e he).printable fun s hs => ?_
    obtain ⟨x, hx, rfl⟩ := List.mem_map.1 he
    exact hstrings s (Expr.mem_leavesAll.2 ⟨x, hx, Expr.string_mem_of_reread hs⟩)
  -- the text is that of the document to be read, which differs in its keys only
  obtain ⟨text, htext, hwritten⟩ := Document.exists_layOut l hprintable
  have hsame : d.layOut l = .ok text := by
    rw [← htext]
    exact (Document.layOut_reread l fun e he r hr =>
      hreals r (Expr.mem_leavesAll.2 ⟨e, he, hr⟩)).symm
  have hdrop' : d.reread.dropSpans = d.reread := by rw [Document.dropSpans_reread, hdrop]
  have hbare : ∀ e ∈ d.reread.exprs, e.hasBare = false := fun e he => (hback e he).hasBare
  have hplain : d.plain = .ok d := by
    refine Document.plain_of_dropSpans hdrop fun e he => ?_
    rw [← Expr.hasBare_reread]
    exact hbare _ (List.mem_map.2 ⟨e, he, rfl⟩)
  refine ⟨text, d.reread, Value.print_document rs hl hspans hplain hsame, ?_,
    Value.print_document rs hl hspans (Document.plain_of_dropSpans hdrop' hbare) htext⟩
  exact (Document.readPlain_of_writtenAs hback hwritten).trans (congrArg _ hdrop')

/-- A key that is a number, in a map that is broken up. -/
theorem Document.print_of_parse_print_number :
    ∃ d text d', Document.parse "\x7b1 : [a 2.5], \"b\": (f \"x y\")\x7d" false = .ok d ∧
      Value.print [] ⟨some 2, 20, ⟨true, [], false⟩⟩ (.document d) = .ok text ∧
      Document.parse text false = .ok d' ∧
      Value.print [] ⟨some 2, 20, ⟨true, [], false⟩⟩ (.document d') = .ok text := by
  obtain ⟨r, hr⟩ : ∃ r, r = Binary64.ofRatio false 5 2 := ⟨_, rfl⟩
  have hread : Document.parse "\x7b1 : [a 2.5], \"b\": (f \"x y\")\x7d" false = .ok ⟨[
      .map [⟨.leaf (.int 1) none, .items .sequence [.leaf (.atom "a") none,
          .leaf (.real r) none] .none, none⟩,
        ⟨.leaf (.string "b") none, .items .group [.leaf (.atom "f") none,
          .leaf (.string "x y") none] .none, none⟩] .none], none⟩ := by
    rw [hr]
    decide +kernel
  obtain ⟨text, d', h⟩ := Document.print_of_parse_print hread
    (fun x hx => by
      obtain rfl : x = r := by
        simpa [Document.leaves, Expr.leavesAll, Expr.leaves, Field.leavesAll] using hx
      rw [hr]
      decide +kernel)
    (fun x hx => by
      obtain rfl | rfl : x = "b" ∨ x = "x y" := by
        simpa [Document.leaves, Expr.leavesAll, Expr.leaves, Field.leavesAll] using hx
      · simp [keptLineEnds]
      · simp [keptLineEnds])
    [] (o := ⟨some 2, 20, ⟨true, [], false⟩⟩) (by decide) (by decide) rfl
  exact ⟨_, text, d', hread, h⟩

end Sexpr
