/-
Edits that keep the form of a source.

An expression that is put into a document is laid out as it is on its own. The text is read
as the edited document, unless a name runs on into the new expression or from it, or a key
in the new expression is a number.

* `Expr.renders_plain` — expressions without spans;
* `Document.parse_print_replace` — which edits are read back;
* `Document.print_replace_merged` — one that is not.
-/
import Sexpr.Proofs.Reformatting
import Sexpr.Proofs.Replacing

namespace Sexpr

/-! ### Expressions without spans -/

theorem hasSpans_of_dropSpans {e : Expr} (h : e.dropSpans = e) : e.hasSpans = false := by
  rw [← h]
  exact e.hasSpans_dropSpans

/-- Expressions without spans are formatted as on their own. -/
theorem Expr.render_plain {e : Expr} (hdrop : e.dropSpans = e) (hbare : e.hasBare = false)
    (l : Layout) (level : Nat) : e.render l level = e.format l l.pretty level := by
  have hnone : ¬BracketSpans.none.isSome = true := by decide
  cases e with
  | leaf leaf span =>
    obtain ⟨-, rfl⟩ := Expr.leaf.inj hdrop
    rfl
  | items enclosure values spans =>
    obtain ⟨-, -, rfl⟩ := Expr.items.inj hdrop
    rw [Expr.render, if_neg hnone, Expr.layOut, hbare, if_neg (by simp)]
  | map fields spans =>
    obtain ⟨-, rfl⟩ := Expr.map.inj hdrop
    rw [Expr.render, if_neg hnone, Expr.layOut, hbare, if_neg (by simp)]
  | bare mark => cases hbare

theorem headD_text_items (enclosure : Enclosure) (values : List Expr) :
    (Expr.items enclosure values .none).text.toList.headD endMark =
      enclosure.brackets.1.toList.headD endMark := by
  have htext : (Expr.items enclosure values .none).text = enclosure.brackets.1 ++ _ ++ _ := rfl
  rw [htext]
  cases enclosure with
  | group => simp [Enclosure.brackets]
  | sequence => simp [Enclosure.brackets]

theorem headD_text_map (fields : List Field) :
    (Expr.map fields .none).text.toList.headD endMark = '{' := by
  have htext : (Expr.map fields .none).text = "\x7b" ++ _ ++ _ := rfl
  rw [htext]
  simp

theorem Expr.WrittenAs.startsLike {e : Expr} {s : List Char} (h : e.WrittenAs s)
    (hback : e.ReadsBack) (hdrop : e.dropSpans = e) : e.StartsLike s := by
  refine ⟨(h.spelledAs hback).isStart, ?_⟩
  cases h with
  | leaf =>
    obtain ⟨-, rfl⟩ := Expr.leaf.inj hdrop
    rfl
  | @items enclosure =>
    obtain ⟨-, -, rfl⟩ := Expr.items.inj hdrop
    rw [headD_text_items]
    cases enclosure with
    | group => rfl
    | sequence => rfl
  | map =>
    obtain ⟨-, rfl⟩ := Expr.map.inj hdrop
    rw [headD_text_map]
    rfl

/-- An expression without spans is written as one of its spellings. In a string that stands
alone a line may end, since nothing is laid out then. -/
theorem Expr.renders_plain {l : Layout} {e : Expr} (hback : e.ReadsBack)
    (hdrop : e.dropSpans = e) (hstrings : ∀ s, .string s ∈ e.leaves → e ≠ .leaf (.string s) none →
      ∀ c ∈ s.toList, c ∉ keptLineEnds) (level : Nat) : e.Renders l level := by
  obtain ⟨s, hs, hwritten⟩ : ∃ s, e.format l l.pretty level = .ok s ∧ e.WrittenAs s.toList := by
    cases e with
    | leaf leaf span => exact ⟨leaf.text, rfl, .leaf⟩
    | _ =>
      have hprintable := hback.printable fun s hs => hstrings s hs (by simp)
      exact hprintable.exists_format l l.pretty level
  refine ⟨s.toList, ?_, hwritten.spelledAs hback, hwritten.startsLike hback hdrop⟩
  rw [Expr.render_plain hdrop hback.hasBare, hs,
    Expr.trailing_of_hasSpans (hasSpans_of_dropSpans hdrop), List.append_nil, String.ofList_toList]

theorem Expr.putIn_of_dropSpans {e : Expr} (hdrop : e.dropSpans = e) (hbare : e.hasBare = false)
    (hleaf : ∀ leaf, e = .leaf leaf none → leaf.ReadsBack) : e.PutIn := by
  refine ⟨hasSpans_of_dropSpans hdrop, fun hstart => ?_, fun name he => ?_⟩
  · cases e with
    | leaf l span =>
      obtain ⟨-, rfl⟩ := Expr.leaf.inj hdrop
      cases l with
      | string s =>
        have hquote : (Expr.leaf (.string s) none).text.toList.headD endMark = '"' := by
          simp [Expr.text, Leaf.text, quoteString]
        rw [Expr.startsInName, hquote] at hstart
        exact absurd hstart (by decide)
      | _ => rfl
    | items enclosure values spans =>
      obtain ⟨-, -, rfl⟩ := Expr.items.inj hdrop
      rw [Expr.startsInName, headD_text_items] at hstart
      cases enclosure with
      | group => exact absurd hstart (by decide)
      | sequence => exact absurd hstart (by decide)
    | map fields spans =>
      obtain ⟨-, rfl⟩ := Expr.map.inj hdrop
      rw [Expr.startsInName, headD_text_map] at hstart
      exact absurd hstart (by decide)
    | bare mark => cases hbare
  · rcases hleaf _ he with ⟨s, hs⟩ | ⟨htoken, -⟩
    · cases hs
    · exact htoken

theorem Expr.ReadsBack.putIn {e : Expr} (h : e.ReadsBack) (hdrop : e.dropSpans = e) : e.PutIn := by
  refine Expr.putIn_of_dropSpans hdrop h.hasBare ?_
  rintro leaf rfl
  cases h with
  | leaf h => exact h

theorem Expr.Readable.putIn {e : Expr} (h : e.Readable) (hfinite : e.Finite)
    (hdrop : e.dropSpans = e) : e.PutIn := by
  have hback := h.readsBack_reread
  refine Expr.putIn_of_dropSpans hdrop (by rw [← Expr.hasBare_reread, hback.hasBare]) ?_
  rintro leaf rfl
  rw [hfinite.reread_leaf] at hback
  cases hback with
  | leaf h => exact h

/-- An expression and what its text is read as are written alike. -/
theorem Expr.rendersAlike_reread {e : Expr} (h : e.Readable) (hfinite : e.Finite)
    (hdrop : e.dropSpans = e) (l : Layout) : e.RendersAlike l e.reread := by
  have hbare := h.readsBack_reread.hasBare
  have hdrop' : e.reread.dropSpans = e.reread := by rw [Expr.dropSpans_reread, hdrop]
  refine ⟨fun level => ?_, ?_⟩
  · rw [Expr.render_plain hdrop (by rw [← Expr.hasBare_reread, hbare]),
      Expr.render_plain hdrop' hbare, Expr.format_reread l hfinite]
  · rw [hasSpans_of_dropSpans hdrop, hasSpans_of_dropSpans hdrop']

/-! ### Edited documents -/

/-- With an expression put in that is read back on its own, a document is read back exactly if
no name runs on in it. -/
theorem Document.Replaces.exists_render {l : Layout} {new : Expr} {path : List PathStep}
    {d d' : Document} (h : Document.Replaces new path d d') (hs : d.Sourced fun _ => False)
    (hapart : d.isApart = true) (hnew : new.PutIn) (hrenders : ∀ level, new.Renders l level)
    (hkey : path.getLast? = some .key → new.isNumber = false) :
    ∃ text, d'.render l = .ok text ∧
      (Document.readPlain text = .ok d'.dropSpans ↔ d'.isApart = true) := by
  obtain ⟨hsourced, htorn⟩ := h.keeps hnew hkey hs hapart
  have hnew' : ∀ x, x = new → ∀ level, x.Renders l level := fun x hx => hx ▸ hrenders
  by_cases hd : d'.isApart = true
  · obtain ⟨text, htext, hspelled⟩ := Document.exists_render hsourced hnew' hd
    exact ⟨text, htext, iff_of_true (Document.readPlain_of_spelledAs hspelled) hd⟩
  · obtain ⟨htorn, hname⟩ := htorn.resolve_left hd
    have hleaf : ∀ x, x = new → ¬x.Torn := by
      rintro x rfl hx
      cases hx with
      | items => cases hname
      | map => cases hname
    obtain ⟨text, htext, hne⟩ := Document.exists_render_torn hsourced
      (fun x hx => ⟨hleaf x hx, hnew' x hx⟩) htorn
    exact ⟨text, htext, iff_of_false hne hd⟩

/-- With an expression put in that is not read back on its own, a document is not read back
either. -/
theorem Document.Replaces.exists_render_reread {l : Layout} {new : Expr} {path : List PathStep}
    {d d' : Document} (h : Document.Replaces new path d d') (hs : d.Sourced fun _ => False)
    (hapart : d.isApart = true) (hnew : new.Readable) (hdrop : new.dropSpans = new)
    (hfinite : new.Finite) (hne : new.reread ≠ new)
    (hstrings : ∀ s, .string s ∈ new.leaves → ∀ c ∈ s.toList, c ∉ keptLineEnds) :
    ∃ text, d'.render l = .ok text ∧ Document.readPlain text ≠ .ok d'.dropSpans := by
  have hdrop' : new.reread.dropSpans = new.reread := by rw [Expr.dropSpans_reread, hdrop]
  have hback := hnew.readsBack_reread
  have hput := hback.putIn hdrop'
  have hname : new.reread.isName = false ∧ new.reread.isNumber = false := by
    cases new with
    | leaf leaf span => exact absurd hfinite.reread_leaf hne
    | _ => exact ⟨rfl, rfl⟩
  -- the text is that of another document, in which the keys are the names that are read
  obtain ⟨d'', hd, hrender, hinj⟩ :=
    h.exists_alike hs (Expr.rendersAlike_reread hnew hfinite hdrop l)
  obtain ⟨text, htext, hiff⟩ := hd.exists_render hs hapart hput
    (Expr.renders_plain hback hdrop' fun s hs _ => hstrings s (Expr.string_mem_of_reread hs))
    fun _ => hname.2
  have hd' : d''.isApart = true :=
    (hd.keeps hput (fun _ => hname.2) hs hapart).2.resolve_right (by simp [hname.1])
  refine ⟨text, hrender.trans htext, fun hread => hne ?_⟩
  have heq := hinj (Except.ok.inj (hread.symm.trans (hiff.2 hd')))
  rw [← hdrop', ← heq, hdrop]

/-- An expression that was read without spans is put into a document that was read with them.
What is printed is read as the edited document exactly if no name runs on in it and no key
of the new expression is a number. A name runs on only where the new expression is one. -/
theorem Document.parse_print_replace {src src' : String} {d d' edited : Document} {e : Expr}
    {path : List PathStep} (h : Document.parse src true = .ok d)
    (h' : Document.parse src' false = .ok d') (he : e ∈ d'.exprs)
    (hreals : ∀ r, .real r ∈ e.leaves → r.isInfinite = false)
    (hstrings : ∀ s, .string s ∈ e.leaves → e ≠ .leaf (.string s) none →
      ∀ c ∈ s.toList, c ∉ keptLineEnds)
    (hkey : path.getLast? = some .key → e.isNumber = false)
    (hedit : d.replace? e path = some edited) (rs : Records) {o : PrintOptions}
    (hindent : ∀ n ∈ o.indent, 0 < n) (hwidth : 20 ≤ o.width)
    (hspans : o.encode.keepSpans = true) :
    ∃ text, Value.print rs o (.document edited) = .ok text ∧
      (Document.parse text false = .ok edited.dropSpans ↔
        edited.isApart = true ∧ ∀ k ∈ e.keys, k.isNumber = false) ∧
      (e.isName = false → edited.isApart = true) := by
  obtain ⟨l, hl⟩ := o.exists_layout hindent hwidth
  have hread : Document.read src = .ok d := h
  obtain ⟨hsourced, hapart, -⟩ := Document.sourced_of_read hread
  obtain ⟨hdrops, hreadable⟩ := Document.readable_of_readPlain h'
  have hdrop : e.dropSpans = e := by
    have hexprs := congrArg Document.exprs hdrops
    rw [Document.dropSpans, Expr.dropSpansAll_eq_map] at hexprs
    exact map_eq_self_iff.1 hexprs e he
  have hput := (hreadable e he).putIn hreals hdrop
  have hreplaces := Document.replaces_of_replace? hedit
  have hnames : e.isName = false → edited.isApart = true := fun hname =>
    (hreplaces.keeps hput hkey hsourced hapart).2.resolve_right (by simp [hname])
  by_cases hsame : e.reread = e
  · have hback := (hreadable e he).readsBack_reread
    rw [hsame] at hback
    obtain ⟨text, htext, hiff⟩ := hreplaces.exists_render hsourced hapart hput
      (Expr.renders_plain hback hdrop hstrings) hkey
    refine ⟨text, Value.print_of_render rs hl hspans htext, ?_, hnames⟩
    exact hiff.trans (and_iff_left (Expr.reread_eq_iff.1 hsame).1).symm
  · have hleaf : ∀ leaf span, e ≠ .leaf leaf span := by
      rintro leaf span rfl
      exact hsame (Expr.Finite.reread_leaf hreals)
    obtain ⟨text, htext, hne⟩ := hreplaces.exists_render_reread hsourced hapart (hreadable e he)
      hdrop hreals hsame fun s hs => hstrings s hs (hleaf _ _)
    refine ⟨text, Value.print_of_render rs hl hspans htext, iff_of_false hne ?_, hnames⟩
    exact fun hkeys => hsame (Expr.reread_eq_iff.2 ⟨hkeys.2, hreals⟩)

/-- A name that is put in the place of a string runs together with the name before it. -/
theorem Document.print_replace_merged :
    ∃ d edited, Document.parse "(a\"b\")" true = .ok d ∧
      Document.parse "x" false = .ok ⟨[.leaf (.atom "x") none], none⟩ ∧
      d.replace? (.leaf (.atom "x") none) [.item 0, .item 1] = some edited ∧
      Value.print [] PrintOptions.concise (.document edited) = .ok "(ax)" ∧
      Document.parse "(ax)" false ≠ .ok edited.dropSpans := by
  obtain ⟨d, hd⟩ := Document.exists_of_isOk
    (show (Document.parse "(a\"b\")" true).isOk = true by decide +kernel)
  have hedit : (Document.parse "(a\"b\")" true).map (fun d =>
      (d.replace? (.leaf (.atom "x") none) [.item 0, .item 1]).map fun d =>
        (Document.render ⟨false, 2, 88⟩ d, d.dropSpans)) =
      .ok (some (.ok "(ax)", ⟨[.items .group [.leaf (.atom "a") none,
        .leaf (.atom "x") none] .none], none⟩)) := by
    decide +kernel
  rw [hd] at hedit
  obtain ⟨edited, hedited, hrender⟩ := Option.map_eq_some_iff.1 (Except.ok.inj hedit)
  obtain ⟨hrender, hdrop⟩ := Prod.mk.inj hrender
  refine ⟨d, edited, hd, by decide +kernel, hedited, Value.print_of_render [] rfl rfl hrender, ?_⟩
  rw [hdrop]
  decide +kernel

/-- A sequence that is put in the place of a key, in a map that touches what stands before it. -/
theorem Document.parse_print_replace_key :
    ∃ d edited text, Document.parse "(a\"b\"\x7bc :1\x7d);d" true = .ok d ∧
      d.replace? (.items .sequence [.leaf (.atom "x") none, .leaf (.string "y") none] .none)
        [.item 0, .item 2, .item 0, .key] = some edited ∧
      Value.print [] PrintOptions.pretty (.document edited) = .ok text ∧
      Document.parse text false = .ok edited.dropSpans := by
  obtain ⟨d, hd⟩ := Document.exists_of_isOk
    (show (Document.parse "(a\"b\"\x7bc :1\x7d);d" true).isOk = true by decide +kernel)
  have hedit : (Document.parse "(a\"b\"\x7bc :1\x7d);d" true).map (fun d =>
      (d.replace? (.items .sequence [.leaf (.atom "x") none, .leaf (.string "y") none] .none)
        [.item 0, .item 2, .item 0, .key]).isSome) = .ok true := by
    decide +kernel
  rw [hd] at hedit
  obtain ⟨edited, hedited⟩ := Option.isSome_iff_exists.1 (Except.ok.inj hedit)
  have hnew : Document.parse "[x \"y\"]" false = .ok ⟨[.items .sequence
      [.leaf (.atom "x") none, .leaf (.string "y") none] .none], none⟩ := by
    decide +kernel
  obtain ⟨text, htext, hiff, hname⟩ := Document.parse_print_replace hd hnew
    (List.mem_singleton.2 rfl) (by simp [Expr.leaves, Expr.leavesAll])
    (by simp [Expr.leaves, Expr.leavesAll, keptLineEnds]) (fun _ => rfl) hedited []
    (o := PrintOptions.pretty) (by decide) (by decide) rfl
  exact ⟨d, edited, text, hd, hedited, htext,
    hiff.2 ⟨hname rfl, by simp [Expr.keys, Expr.keysAll]⟩⟩

end Sexpr
