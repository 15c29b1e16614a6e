/-
Lists and dictionaries of texts that are read.

The texts of a list are read one after the other. As long as all of them are read as they should be,
each one that stands without quotes is a name, so that the next one starts where it was written.

* `Document.exists_read_texts`, `Document.exists_read_entries` — names come back as they are, quoted
  texts as the layout left them;
* `Document.readable_of_read_texts` — a list comes back only if its texts without quotes are names;
* `Document.entryReadable_of_read_entries` — so does a dictionary, and so its keys with their
  colons.
-/
import Sexpr.Proofs.TextLayout

namespace Sexpr

/-! ### Starts and ends of texts -/

/-- A character that no gap starts with. -/
def StartsItem (s : List Char) : Prop :=
  ∃ c u, s = c :: u ∧ Text.isSpace c = false ∧ c ≠ ';' ∧ c ≠ ','

/-- A text starts with no white space, and with no sign but an opening one. -/
theorem TextWrittenAs.exists_cons {back : String → String} {s : String} {u : List Char}
    (h : TextWrittenAs back s u) :
    ∃ c v, u = c :: v ∧ Text.isSpace c = false ∧ ∀ x ∈ [';', ',', '}'], c ≠ x := by
  have hsigns : ∀ x ∈ [';', ',', '}'], x ∈ signs ∧ x ∉ ['"', '(', '[', '{'] := by
    simp only [List.forall_mem_cons, List.not_mem_nil, false_imp_iff, forall_true_iff]
    decide
  cases h with
  | bare hs =>
    obtain ⟨hne, hbare⟩ := isAtomText_iff.1 hs
    obtain ⟨c, t, hcs⟩ := List.exists_cons_of_ne_nil hne
    have hc : isBareChar c = true := hbare c (by rw [hcs]; exact List.mem_cons_self)
    exact ⟨c, t, hcs, isSpace_of_isBareChar hc, fun x hx => ne_of_isBareChar hc (hsigns x hx).1⟩
  | quoted _ hu =>
    have hstart := hu.isStart
    obtain ⟨c, t, rfl⟩ := List.exists_cons_of_ne_nil (ne_nil_of_isStart hstart)
    rw [List.headD_cons] at hstart
    exact ⟨c, t, rfl, isSpace_of_isStart hstart, fun x hx =>
      ne_of_isStart hstart (isStart_of_mem_signs (hsigns x hx).1 (hsigns x hx).2)⟩

theorem TextWrittenAs.startsItem {back : String → String} {s : String} {u : List Char}
    (h : TextWrittenAs back s u) : StartsItem u := by
  obtain ⟨c, v, rfl, hspace, hsigns⟩ := h.exists_cons
  exact ⟨c, v, rfl, hspace, hsigns ';' (by decide), hsigns ',' (by decide)⟩

theorem StartsItem.append {s : List Char} (h : StartsItem s) (r : List Char) :
    StartsItem (s ++ r) := by
  obtain ⟨c, u, rfl, hc⟩ := h
  exact ⟨c, u ++ r, rfl, hc⟩

theorem StartsItem.layoutLength_eq {s : List Char} (h : StartsItem s) :
    layoutLength false s = 0 := by
  obtain ⟨c, u, rfl, hspace, hcomment, -⟩ := h
  exact layoutLength_of_ne hspace hcomment u

theorem StartsItem.headD_ne {s : List Char} (h : StartsItem s) : s.headD endMark ≠ ',' := by
  obtain ⟨c, u, rfl, -, -, hcomma⟩ := h
  exact hcomma

theorem EntryWrittenAs.startsItem {back : String → String} {entry : String × String}
    {u : List Char} (h : EntryWrittenAs back entry u) : StartsItem u := by
  cases h with
  | mk hk hv =>
    rw [List.append_assoc]
    exact hk.startsItem.append _

section

variable {α : Type} {gap : Bool → List Char → Prop} {W : α → List Char → Prop} {xs : List α}
  {g t : List Char} {closing : Char}

/-- What follows some of the parts: other parts, or the closing bracket. -/
theorem Separated.startsItem (hW : ∀ {x s}, W x s → StartsItem s)
    (hclosing : Scan.isClosing closing = true) (h : Separated gap W xs t) (r : List Char) :
    StartsItem (t ++ closing :: r) := by
  cases h with
  | nil =>
    obtain ⟨hsign, -, hcomment, hcomma⟩ := Scan.isClosing_spec hclosing
    exact ⟨closing, r, rfl, isSpace_of_mem_signs hsign, hcomment, hcomma⟩
  | cons hx hg hxs =>
    rw [List.append_assoc, List.append_assoc]
    exact (hW hx).append _

/-- After a part comes white space, a comma or the closing bracket. -/
theorem LayoutGap.exists_stop (hg : LayoutGap xs.isEmpty g)
    (hclosing : closing = ']' ∨ closing = '}') (h : Separated gap W xs t) (r : List Char) :
    ∃ x r', g ++ (t ++ closing :: r) = x :: r' ∧ IsStop x := by
  cases hg with
  | spaces hspaces hne =>
    cases g with
    | nil =>
      cases h with
      | nil =>
        refine ⟨closing, r, rfl, .inr ?_⟩
        rcases hclosing with rfl | rfl
        · decide
        · decide
      | cons => exact absurd rfl (hne rfl)
    | cons c g =>
      refine ⟨c, g ++ (t ++ closing :: r), rfl, .inl ?_⟩
      rcases hspaces c List.mem_cons_self with rfl | rfl
      · exact isSpace_blank
      · exact isSpace_newline
  | @comma g hspaces => exact ⟨',', g ++ (t ++ closing :: r), rfl, .inr (by decide)⟩

theorem LayoutGap.delimits (hg : LayoutGap xs.isEmpty g) (hclosing : Scan.isClosing closing = true)
    (h : Separated gap W xs t) (r : List Char) : Delimits (g ++ (t ++ closing :: r)) := by
  rw [← List.append_assoc]
  exact (delimits_of_itemGap hg.itemGap h).append (Scan.delimits_of_isClosing hclosing r)

end

theorem Leaf.Readable.spelledAs_atom {s : String} (h : (Leaf.atom s).Readable) :
    (Leaf.atom s).SpelledAs s.toList :=
  (h.readsBack fun r heq => by cases heq).spelledAs

/-! ### Names come back -/

/-- The only expression of a text that spells one. -/
theorem Document.exists_read {e : Expr} {text : String} (h : e.SpelledAs text.toList) :
    ∃ doc e', Document.read text = .ok doc ∧ doc.exprs = [e'] ∧ e'.dropSpans = e.dropSpans := by
  have hdoc : (Document.mk [e] none).SpelledAs ([] ++ (text.toList ++ [] ++ [])) :=
    Document.spelledAs_of_separated .nil (.cons h textGap_nil .nil)
  rw [List.nil_append, List.append_nil, List.append_nil] at hdoc
  have hread := Document.readPlain_of_spelledAs hdoc
  unfold Document.readPlain at hread
  cases hdoc : Document.read text with
  | error f =>
    rw [hdoc] at hread
    cases hread
  | ok doc =>
    rw [hdoc] at hread
    have hexprs := congrArg Document.exprs (Except.ok.inj hread)
    simp only [Document.dropSpans, Expr.dropSpansAll_eq_map] at hexprs
    obtain ⟨e', he', hdrop⟩ := List.map_eq_singleton_iff.1 hexprs
    exact ⟨doc, e', rfl, he', hdrop⟩

theorem TextWrittenAs.exists_spelledAs {back : String → String} {s : String} {u : List Char}
    (h : TextWrittenAs back s u) (hback : ∀ s, isAtomText s = true → back s = s)
    (hread : isAtomText s = true → (Leaf.atom s).Readable) :
    ∃ e : Expr, e.SpelledAs u ∧ e.heldText? = some (back s) := by
  cases h with
  | bare hs =>
    refine ⟨.leaf (.atom s) none, .leaf (hread hs).spelledAs_atom, ?_⟩
    rw [hback s hs]
    rfl
  | quoted _ hu => exact ⟨.leaf (.string (back s)) none, .leaf hu, rfl⟩

theorem map_heldText?_dropSpans (es : List Expr) :
    (es.map Expr.dropSpans).map Expr.heldText? = es.map Expr.heldText? := by
  rw [List.map_map]
  exact List.map_congr_left fun e _ => e.heldText?_dropSpans

/-- A list of texts is read, if those without quotes are names. -/
theorem Document.exists_read_texts {back : String → String} {xs : List String} {text : String}
    {g t : List Char} (htext : text.toList = '[' :: g ++ t ++ [']']) (hg : Spaces g)
    (ht : Separated LayoutGap (TextWrittenAs back) xs t)
    (hback : ∀ s, isAtomText s = true → back s = s)
    (hread : ∀ s ∈ xs, isAtomText s = true → (Leaf.atom s).Readable) :
    ∃ doc values bounds, Document.read text = .ok doc ∧
      doc.exprs = [.items .sequence values bounds] ∧
      values.map Expr.heldText? = (xs.map back).map some := by
  obtain ⟨es, hes, hheld⟩ := ht.exists_forall₂ fun s hs u hu =>
    hu.exists_spelledAs hback (hread s hs)
  have hspelled : (Expr.ofItems es).SpelledAs text.toList := by
    rw [htext]
    exact @Expr.SpelledAs.items .sequence es .none g t hg.blank
      ((hes.imp LayoutGap.itemGap fun _ _ _ h => h).series Expr.isName fun _ _ _ h => h)
  obtain ⟨doc, e, hdoc, hexprs, hdrop⟩ := Document.exists_read hspelled
  cases e with
  | items enclosure values bounds =>
    rw [Expr.ofItems, Expr.dropSpans, Expr.dropSpans, Expr.dropSpansAll_eq_map,
      Expr.dropSpansAll_eq_map] at hdrop
    obtain ⟨rfl, hvalues, -⟩ := Expr.items.inj hdrop
    refine ⟨doc, values, bounds, hdoc, hexprs, ?_⟩
    rw [← map_heldText?_dropSpans, hvalues, map_heldText?_dropSpans, List.map_map,
      ← List.forall₂_eq_eq_eq, List.forall₂_map_left_iff, List.forall₂_map_right_iff]
    exact hheld.flip
  | leaf => cases hdrop
  | map => cases hdrop
  | bare => cases hdrop

/-- The texts that the key and the value of a field hold. -/
def Field.HoldsEntry (f : Field) (entry : String × String) : Prop :=
  f.key.heldText? = some entry.1 ∧ f.value.heldText? = some entry.2

theorem Field.holdsEntry_dropSpans {f : Field} {entry : String × String} :
    f.dropSpans.HoldsEntry entry ↔ f.HoldsEntry entry := by
  rw [Field.HoldsEntry, Field.HoldsEntry, ← f.key.heldText?_dropSpans,
    ← f.value.heldText?_dropSpans]
  rfl

/-- What a key that stands without quotes and a value have to be for them to come back. -/
structure EntryReadable (entry : String × String) : Prop where
  key : isAtomText entry.1 = true → IsNameToken (entry.1.toList ++ [':'])
  value : isAtomText entry.2 = true → (Leaf.atom entry.2).Readable

theorem TextWrittenAs.exists_keySpelledAs {k : String} {u : List Char}
    (h : TextWrittenAs id k u) (hkey : isAtomText k = true → IsNameToken (k.toList ++ [':']))
    (t : List Char) :
    ∃ e : Expr, KeySpelledAs Expr.SpelledAs e (u ++ ':' :: [' ']) t ∧ e.heldText? = some k := by
  cases h with
  | bare hk =>
    exact ⟨.leaf (.atom k) none, .fused (hkey hk) blank_blank (blank_blank.delimits (by simp) t),
      rfl⟩
  | quoted _ hu => exact ⟨.leaf (.string k) none, .of_isName rfl (.leaf hu) blank_blank, rfl⟩

theorem EntryWrittenAs.exists_spelledAs {back : String → String} {entry : String × String}
    {u : List Char} (h : EntryWrittenAs back entry u)
    (hback : ∀ s, isAtomText s = true → back s = s) (hread : EntryReadable entry) :
    ∃ f : Field, FieldSpelledAs Expr.SpelledAs f u ∧ f.HoldsEntry (entry.1, back entry.2) := by
  cases h with
  | @mk u u' hk hv =>
    obtain ⟨k, hk, hkey⟩ := hk.exists_keySpelledAs hread.key u'
    obtain ⟨v, hv, hvalue⟩ := hv.exists_spelledAs hback hread.value
    exact ⟨⟨k, v, none⟩, .mk hk hv, hkey, hvalue⟩

/-- A dictionary of texts is read, if those without quotes are names. -/
theorem Document.exists_read_entries {back : String → String} {m : List (String × String)}
    {text : String} {g t : List Char} (htext : text.toList = '{' :: g ++ t ++ ['}'])
    (hg : Spaces g) (ht : Separated LayoutGap (EntryWrittenAs back) m t)
    (hback : ∀ s, isAtomText s = true → back s = s)
    (hread : ∀ entry ∈ m, EntryReadable entry) :
    ∃ doc fields bounds, Document.read text = .ok doc ∧ doc.exprs = [.map fields bounds] ∧
      List.Forall₂ Field.HoldsEntry fields (m.map fun entry => (entry.1, back entry.2)) := by
  obtain ⟨fs, hfs, hheld⟩ := ht.exists_forall₂ fun entry hentry u hu =>
    hu.exists_spelledAs hback (hread entry hentry)
  have hspelled : (Expr.map fs .none).SpelledAs text.toList := by
    rw [htext]
    exact .map hg.blank ((hfs.imp LayoutGap.itemGap fun _ _ _ h => h).series
      (fun f : Field => f.value.isName) fun _ _ _ h => h)
  obtain ⟨doc, e, hdoc, hexprs, hdrop⟩ := Document.exists_read hspelled
  cases e with
  | map fields bounds =>
    rw [Expr.dropSpans, Expr.dropSpans, Field.dropSpansAll_eq_map,
      Field.dropSpansAll_eq_map] at hdrop
    obtain ⟨hfields, -⟩ := Expr.map.inj hdrop
    refine ⟨doc, fields, bounds, hdoc, hexprs, ?_⟩
    have hentries : List.Forall₂ Field.HoldsEntry (fs.map Field.dropSpans)
        (m.map fun entry => (entry.1, back entry.2)) :=
      List.forall₂_map_left_iff.2 (List.forall₂_map_right_iff.2
        (hheld.flip.imp fun f entry h => Field.holdsEntry_dropSpans.2 h))
    rw [← hfields, List.forall₂_map_left_iff] at hentries
    exact hentries.imp fun f entry h => Field.holdsEntry_dropSpans.1 h
  | leaf => cases hdrop
  | items => cases hdrop
  | bare => cases hdrop

/-! ### Only names come back -/

namespace Scan

variable {back : String → String}

/-- Texts that are read in a list are names where they stand without quotes. -/
theorem readable_of_itemsUntil (hback : ∀ s, isAtomText s = true → back s = s) {xs : List String}
    {t : List Char} (h : Separated LayoutGap (TextWrittenAs back) xs t) {depth : Nat}
    (hdepth : t.length ≤ depth) {fuel : Nat} {b r : List Char} {pos : Pos}
    {ys : List (Expr × TokenSpans)} {c' : Cursor}
    (hys : itemsUntil ']' (exprWithin depth) fuel (Cursor.settled b (t ++ ']' :: r) pos) =
      .ok ys c') (hheld : (ys.map Prod.fst).map Expr.heldText? = xs.map some) :
    ∀ s ∈ xs, isAtomText s = true → (Leaf.atom s).Readable := by
  induction h generalizing fuel b pos ys with
  | nil => simp
  | @cons s xs u g t hs hg hxs ih =>
    simp only [List.length_append] at hdepth
    have hclosing : isClosing ']' = true := by decide
    have hrest := hxs.startsItem TextWrittenAs.startsItem hclosing r
    obtain ⟨x, r', hstop, hx⟩ := hg.exists_stop (.inl rfl : ']' = ']' ∨ ']' = '}') hxs r
    rw [List.append_assoc] at hys
    cases fuel with
    | zero => exact absurd hys itemsUntil_zero
    | succ fuel =>
      -- first the text itself, then the others, which start where it ends
      have hread : isAtomText s = true → (Leaf.atom s).Readable := by
        intro hatom
        cases hs with
        | quoted hquoted => exact absurd hatom (by simp [hquoted])
        | bare =>
          rcases itemsUntil_eq_ok.1 hys with ⟨-, rfl, -⟩ | ⟨-, -, y, c₁, _, _, ys, hy, -, -, rfl⟩
          · cases hheld
          · rw [List.append_assoc, hstop] at hy
            exact readable_of_exprWithin_bare hatom hx hy (List.cons.inj hheld).1
      obtain ⟨e, he, -⟩ := hs.exists_spelledAs hback hread
      have hitem : ReadsItem (exprWithin depth) Expr.dropSpans Expr.isName e u :=
        readsItem_expr he (by omega)
      obtain ⟨y, sep, b', p', -, hstep⟩ := itemsUntil_item hclosing hitem hg.itemGap.gap
        (fun _ => hg.delimits hclosing hxs r) hrest.layoutLength_eq hrest.headD_ne b pos
      obtain ⟨zs, hzs, rfl⟩ := (hstep fuel ys c').1 hys
      exact List.forall_mem_cons.2 ⟨hread, ih (by omega) hzs (List.cons.inj hheld).2⟩

/-- A text without quotes that starts like a quoted one. -/
def OpensQuote (s : String) : Prop := isAtomText s = true ∧ s.toList.head? = some '\''

/-- A key is read up to its value, which may be anything. -/
theorem exists_keyOf {k : String} {u r : List Char} (h : TextWrittenAs id k u)
    (hkey : isAtomText k = true → IsNameToken (k.toList ++ [':'])) {depth : Nat}
    (hdepth : u.length < depth) (hr : StartsItem r) (b : List Char) (pos : Pos) :
    ∃ key b' pos', keyOf (exprWithin depth) (Cursor.settled b (u ++ ':' :: [' '] ++ r) pos) =
      .ok key (Cursor.settled b' r pos') := by
  have hgap : GapBefore [' '] r := blank_blank.gapBefore hr.layoutLength_eq
  obtain ⟨depth, rfl⟩ : ∃ n, depth = n + 1 := ⟨depth - 1, by omega⟩
  cases h with
  | bare hk =>
    obtain ⟨key, b', pos', hread, -⟩ := reads_keyOf_fused (hkey hk) hgap
      (blank_blank.delimits (by simp) r) depth b pos
    exact ⟨key, b', pos', hread⟩
  | quoted _ hu =>
    have hcolon : GapBefore [] (':' :: ([' '] ++ r)) :=
      gapBefore_nil.2 (layoutLength_of_ne (by decide) (by decide) _)
    have hstring := reads_of_spelledAs (.leaf (.string (id k)) none) (depth + 1) (.leaf hu)
      (by omega) hcolon (fun h => by cases h)
    rw [List.append_nil] at hstring
    obtain ⟨key, b', pos', hread, -⟩ := reads_keyOf hstring rfl hgap b pos
    exact ⟨key, b', pos', hread⟩

/-- Entries that are read in a map are names where they stand without quotes, if none of them starts
like a quoted text. -/
theorem entryReadable_of_itemsUntil (hback : ∀ s, isAtomText s = true → back s = s)
    {m : List (String × String)} {t : List Char}
    (h : Separated LayoutGap (EntryWrittenAs back) m t)
    (hquote : ∀ entry ∈ m, ¬OpensQuote entry.1 ∧ ¬OpensQuote entry.2) {depth : Nat}
    (hdepth : t.length ≤ depth) {fuel : Nat} {b r : List Char} {pos : Pos}
    {ys : List (Field × TokenSpans)} {c' : Cursor}
    (hys : itemsUntil '}' (fieldOf (exprWithin depth)) fuel
      (Cursor.settled b (t ++ '}' :: r) pos) = .ok ys c')
    (hheld : ∀ y ∈ ys, ∃ entry, y.1.HoldsEntry entry) : ∀ entry ∈ m, EntryReadable entry := by
  induction h generalizing fuel b pos ys with
  | nil => simp
  | @cons entry m u g t hentry hg hm ih =>
    obtain ⟨⟨hkquote, hvquote⟩, hquotes⟩ := List.forall_mem_cons.1 hquote
    simp only [List.length_append] at hdepth
    have hclosing : isClosing '}' = true := by decide
    have hrest := hm.startsItem EntryWrittenAs.startsItem hclosing r
    obtain ⟨x, r', hstop, hx⟩ := hg.exists_stop (.inr rfl : '}' = ']' ∨ '}' = '}') hm r
    rw [List.append_assoc] at hys
    cases fuel with
    | zero => exact absurd hys itemsUntil_zero
    | succ fuel =>
      have hread : EntryReadable entry := by
        obtain ⟨hk, hv⟩ := hentry
        rename_i u u'
        simp only [List.length_append, List.length_cons, List.length_nil] at hdepth
        rcases itemsUntil_eq_ok.1 hys with
          ⟨hcur, -⟩ | ⟨-, -, f, c₁, sep, c₂, zs, hf, hsep, hzs, rfl⟩
        · obtain ⟨c, v, rfl, -, hsigns⟩ := hk.exists_cons
          exact absurd hcur (hsigns '}' (by decide))
        · rw [List.append_assoc, hstop, List.append_assoc] at hf
          have hkey : isAtomText entry.1 = true → IsNameToken (entry.1.toList ++ [':']) := by
            intro hatom
            cases hk with
            | quoted hquoted => exact absurd hatom (by simp [hquoted])
            | bare =>
              rw [List.append_assoc] at hf
              exact isNameToken_of_fieldOf_bare hatom (fun hhead => hkquote ⟨hatom, hhead⟩) hf
          refine ⟨hkey, fun hatom => ?_⟩
          cases hv with
          | quoted hquoted => exact absurd hatom (by simp [hquoted])
          | bare =>
            -- the value is read where the key and the colon end
            have hshort : u.length < depth := by omega
            have hbare : TextWrittenAs id entry.2 entry.2.toList := .bare hatom
            obtain ⟨key, b', pos', hkeyOf⟩ := exists_keyOf hk hkey hshort
              (hbare.startsItem.append (x :: r')) b pos
            obtain ⟨k, colon, c₃, v, hkeyOf', hv, rfl⟩ := fieldOf_eq_ok.1 hf
            obtain ⟨-, rfl⟩ := EStateM.Result.ok.inj (hkeyOf.symm.trans hkeyOf')
            obtain ⟨held, -, hheld⟩ := hheld _ List.mem_cons_self
            exact readable_of_value_bare hatom (fun hhead => hvquote ⟨hatom, hhead⟩) hx hv
              (by rw [hheld]; simp) hsep hzs
      obtain ⟨f, hf, -⟩ := hentry.exists_spelledAs hback hread
      have hitem := readsItem_fieldOf (reads_of_spelledAs f.key depth)
        (reads_of_spelledAs f.value depth) hf (by omega)
      obtain ⟨y, sep, b', p', -, hstep⟩ := itemsUntil_item hclosing hitem hg.itemGap.gap
        (fun _ => hg.delimits hclosing hm r) hrest.layoutLength_eq hrest.headD_ne b pos
      obtain ⟨zs, hzs, rfl⟩ := (hstep fuel ys c').1 hys
      exact List.forall_mem_cons.2
        ⟨hread, ih hquotes (by omega) hzs (List.forall_mem_cons.1 hheld).2⟩

/-- The only expression of a text is read from its first character on. -/
theorem exists_exprOf {x : Char} {cs : List Char} {text : String} (htext : text.toList = x :: cs)
    (hx : isStart x = true) {doc : Document} {e : Expr} (hdoc : Document.read text = .ok doc)
    (hexprs : doc.exprs = [e]) : ∃ c', exprOf (exprWithin (cs.length + 1)) x
      (Cursor.settled [] (x :: cs) Pos.origin) = .ok e c' := by
  have hlayout : layoutLength false (x :: cs) = 0 := layoutLength_of_isStart hx
  have hread := Document.read_append (g := []) hlayout
  rw [List.nil_append, ← htext, String.ofList_toList, hdoc, htext] at hread
  split at hread
  · rename_i es c hes
    obtain rfl : doc = _ := Except.ok.inj hread
    obtain rfl : es = [e] := hexprs
    rcases exprsUntilEnd_eq_ok.1 hes with ⟨-, hnil, -⟩ | ⟨-, e', c₁, es', he, -, hcons⟩
    · cases hnil
    · obtain ⟨rfl, -⟩ := List.cons.inj hcons
      rw [exprWithin_eq_exprOf _ hlayout] at he
      exact ⟨c₁, he⟩
  · cases hread

/-- The items between brackets are read after the gap behind the opening one. -/
theorem exists_itemsUntil {α : Type} {opening closing : Char} {item : Scan α} {g t : List Char}
    (hg : Spaces g) (ht : StartsItem (t ++ [closing])) {pos : Pos} {xs : List α}
    {bounds : BracketSpans} {c' : Cursor}
    (h : between opening closing item
      (Cursor.settled [] (opening :: g ++ t ++ [closing]) pos) = .ok (xs, bounds) c') :
    ∃ fuel b pos' ys c₂, itemsUntil closing item fuel
      (Cursor.settled b (t ++ [closing]) pos') = .ok ys c₂ ∧ ys.map Prod.fst = xs := by
  obtain ⟨-, s, c₁, ys, c₂, s', hopen, hys, -, hxs⟩ := between_eq_ok.1 h
  have hgap := tokenSpans_append (hg.blank.gapBefore ht.layoutLength_eq) [] [opening] pos
    (pos.forward opening)
  rw [List.append_assoc, Cursor.settled, List.cons_append, Cursor.next_cons] at hopen
  obtain ⟨-, rfl⟩ := EStateM.Result.ok.inj (hgap.symm.trans hopen)
  exact ⟨_, _, _, ys, c₂, hys, (Prod.mk.inj hxs).1.symm⟩

end Scan

/-- A list of texts comes back only if those without quotes are names. -/
theorem Document.readable_of_read_texts {back : String → String}
    (hback : ∀ s, isAtomText s = true → back s = s) {xs : List String} {text : String}
    {g t : List Char} (htext : text.toList = '[' :: g ++ t ++ [']']) (hg : Spaces g)
    (ht : Separated LayoutGap (TextWrittenAs back) xs t) {doc : Document} {values : List Expr}
    {bounds : BracketSpans} (hdoc : Document.read text = .ok doc)
    (hexprs : doc.exprs = [.items .sequence values bounds])
    (hheld : values.map Expr.heldText? = xs.map some) :
    ∀ s ∈ xs, isAtomText s = true → (Leaf.atom s).Readable := by
  obtain ⟨c', hread⟩ := Scan.exists_exprOf htext (isStart_of_mem (by decide)) hdoc hexprs
  obtain ⟨values', bounds', hbetween, heq⟩ := Scan.itemsOf_eq_ok.1 hread
  obtain ⟨-, rfl, -⟩ := Expr.items.inj heq
  have hstart := ht.startsItem TextWrittenAs.startsItem (show Scan.isClosing ']' = true by decide) []
  obtain ⟨fuel, b, pos, ys, c₂, hys, rfl⟩ := Scan.exists_itemsUntil hg hstart hbetween
  exact Scan.readable_of_itemsUntil hback ht (by simp; omega) hys hheld

/-- A dictionary of texts comes back only if those without quotes are names, unless one of them
starts like a quoted text. -/
theorem Document.entryReadable_of_read_entries {back : String → String}
    (hback : ∀ s, isAtomText s = true → back s = s) {m : List (String × String)} {text : String}
    {g t : List Char} (htext : text.toList = '{' :: g ++ t ++ ['}']) (hg : Spaces g)
    (ht : Separated LayoutGap (EntryWrittenAs back) m t)
    (hquote : ∀ entry ∈ m, ¬Scan.OpensQuote entry.1 ∧ ¬Scan.OpensQuote entry.2) {doc : Document}
    {fields : List Field} {bounds : BracketSpans} (hdoc : Document.read text = .ok doc)
    (hexprs : doc.exprs = [.map fields bounds])
    (hheld : ∀ f ∈ fields, ∃ entry, f.HoldsEntry entry) : ∀ entry ∈ m, EntryReadable entry := by
  obtain ⟨c', hread⟩ := Scan.exists_exprOf htext (isStart_of_mem (by decide)) hdoc hexprs
  obtain ⟨fields', bounds', hbetween, heq⟩ := Scan.mapOf_eq_ok.1 hread
  obtain ⟨rfl, -⟩ := Expr.map.inj heq
  have hstart := ht.startsItem EntryWrittenAs.startsItem
    (show Scan.isClosing '}' = true by decide) []
  obtain ⟨fuel, b, pos, ys, c₂, hys, rfl⟩ := Scan.exists_itemsUntil hg hstart hbetween
  exact Scan.entryReadable_of_itemsUntil hback ht hquote (by simp; omega) hys
    fun y hy => hheld y.1 (List.mem_map_of_mem hy)

end Sexpr
