/-
Layout does not matter to the reader.

However an expression is spelled, and with whichever gaps, the reader gives the expression
back, up to spans. Each production is followed over the spellings of its construct: it
leaves the cursor after the layout that follows, whatever comes then.

* `Scan.Reads` — a production reads a text and leaves what follows it;
* `Scan.reads_leaf` — leaves;
* `Scan.reads_itemsUntil`, `Scan.reads_between` — brackets, for any gaps;
* `Scan.reads_keyOf_fused`, `Scan.reads_keyOf` — keys;
* `Scan.reads_of_spelledAs` — expressions;
* `Document.readPlain_of_spelledAs` — whole texts.
-/
import Sexpr.Proofs.Cuts
import Sexpr.Proofs.Spelling

namespace Sexpr

namespace Scan

variable {α γ : Type}

/-! ### Leaves -/

/-- At any cursor in front of `s` and `r`, a production succeeds and leaves `r`, with a
result that has the property. -/
def Reads (p : Scan α) (s r : List Char) (P : α → Prop) : Prop :=
  ∀ b pos, ∃ x b' pos', p (Cursor.settled b (s ++ r) pos) = .ok x (Cursor.settled b' r pos') ∧ P x

theorem exprOf_name {expr : Scan Expr} {x : Char} (hx : isNameChar x = true)
    (hquote : x ≠ '\'' ∧ x ≠ '#') : exprOf expr x = name := by
  have hne : ∀ {y : Char}, y ∈ signs → x ≠ y := by
    rintro y hy rfl
    exact absurd hx (by simp [isNameChar_of_mem_signs hy])
  rw [exprOf, if_neg (ne_endMark_of_isNameChar hx), if_neg (hne (by decide)),
    if_neg (hne (by decide)), if_neg, if_neg hquote.2, if_neg (hne (by decide)), if_pos hx]
  simp [hne (show '"' ∈ signs by decide), hquote.1]

/-- A token at which a name starts is read by the production for names. -/
theorem exprWithin_of_isNameToken {token : List Char} (htoken : IsNameToken token) (depth : Nat)
    (b r : List Char) (p : Pos) :
    exprWithin (depth + 1) (Cursor.settled b (token ++ r) p) =
      name (Cursor.settled b (token ++ r) p) := by
  obtain ⟨x, t, rfl⟩ := List.exists_cons_of_ne_nil htoken.ne_nil
  have hx : isNameChar x = true := htoken.isNameChar x (by simp)
  have hlayout : layoutLength false (x :: t ++ r) = 0 :=
    layoutLength_of_isStart (isStart_of_isNameChar hx)
  rw [exprWithin_eq_exprOf depth hlayout, List.cons_append, List.headD_cons,
    exprOf_name hx (htoken.head_ne x rfl)]

/-- A name or a number ends where no name goes on, and its spans are those of its token
and of the layout after it. -/
theorem exprWithin_name {token g r : List Char} {l : Leaf} (htoken : IsNameToken token)
    (hl : nameLeaf token = .ok l) (hg : GapBefore g r) (hstop : Delimits (g ++ r)) (depth : Nat)
    (b : List Char) (p : Pos) :
    exprWithin (depth + 1) (Cursor.settled b (token ++ (g ++ r)) p) =
      .ok (.leaf l (some ⟨some ⟨p, p.forwardOver token, String.ofList token⟩,
          some ⟨p.forwardOver token, (p.forwardOver token).forwardOver g, String.ofList g⟩⟩))
        (Cursor.settled (g.reverse ++ (token.reverse ++ b)) r
          ((p.forwardOver token).forwardOver g)) := by
  rw [exprWithin_of_isNameToken htoken]
  refine name_eq_ok.2 ⟨token, l, _, hstop.takeWhile_append htoken.isNameChar, htoken.ne_nil, hl,
    ?_, rfl⟩
  rw [Cursor.settled, Cursor.advance_append, List.append_nil, tokenSpans_append hg]
  simp

/-- A string is read by its scanner, which stops at the end of the token. -/
theorem reads_leafOf {scan : List Char → Scanned Leaf} {l : Leaf} {s g r : List Char}
    (h : scan (s ++ (g ++ r)) = .found s.length l) (hg : GapBefore g r) :
    Reads (leafOf scan) (s ++ g) r (fun e => e.dropSpans = .leaf l none) := by
  intro b p
  have hspans := tokenSpans_append hg b (s.reverse ++ []) p (p.forwardOver s)
  have hlen : (scan (s ++ (g ++ r))).length = s.length := by rw [h, Scanned.found]
  rw [← Cursor.advance_append, ← hlen] at hspans
  rw [List.append_assoc]
  refine ⟨_, _, _, leafOf_eq_ok.2 ⟨l, _, ?_, hspans, rfl⟩, rfl⟩
  rw [Cursor.settled_rest, h, Scanned.found]

/-- The production for an expression is chosen by its first character. -/
theorem reads_exprOf {depth : Nat} {p : Scan Expr} {s r : List Char} {P : Expr → Prop}
    (hs : isStart (s.headD endMark) = true)
    (hp : exprOf (exprWithin depth) (s.headD endMark) = p) (h : Reads p s r P) :
    Reads (exprWithin (depth + 1)) s r P := by
  intro b pos
  have hhead : (s ++ r).headD endMark = s.headD endMark := headD_append (ne_nil_of_isStart hs) r
  rw [exprWithin_eq_exprOf depth (layoutLength_of_isStart (hhead ▸ hs)), hhead, hp]
  exact h b pos

/-- A leaf is read off each of its tokens, where no name goes on after it. -/
theorem reads_leaf {l : Leaf} {span : Option TokenSpans} {s g r : List Char} (h : l.SpelledAs s)
    (hg : GapBefore g r) (hstop : (Expr.leaf l span).isName = true → Delimits (g ++ r))
    (depth : Nat) :
    Reads (exprWithin (depth + 1)) (s ++ g) r
      (fun e => e.dropSpans = (Expr.leaf l span).dropSpans) := by
  cases h with
  | name htoken hl =>
    intro b p
    rw [List.append_assoc]
    exact ⟨_, _, _, exprWithin_name htoken hl hg (hstop (isName_of_nameLeaf hl span)) depth b p,
      rfl⟩
  | @quoted q s h =>
    obtain ⟨hquote, body, -, -, hs, -⟩ := stringToken_eq_found.1 (h [])
    have hstart := (Leaf.SpelledAs.quoted h).isStart
    obtain rfl : s = q :: body := by simpa using hs
    refine reads_exprOf hstart ?_ (reads_leafOf (h (g ++ r)) hg)
    rcases hquote with rfl | rfl
    · rfl
    · rfl
  | @raw s h =>
    obtain ⟨tag, body, -, -, hs, -⟩ := rawToken_eq_found.1 (h [])
    have hstart := (Leaf.SpelledAs.raw h).isStart
    obtain rfl : s = '#' :: (tag ++ '"' :: body) := by simpa using hs
    exact reads_exprOf hstart rfl (reads_leafOf (h (g ++ r)) hg)

/-! ### Brackets -/

/-- An item is read off a text with the layout after it. If it ends in a name, no name may
go on there. -/
structure ReadsItem (item : Scan α) (view : α → γ) (name : α → Bool) (x : α) (s : List Char) :
    Prop where
  start : isStart (s.headD endMark) = true
  reads : ∀ {g r}, GapBefore g r → (name x = true → Delimits (g ++ r)) →
    Reads item (s ++ g) r (fun y => view y = view x)

/-- The closing brackets. -/
def isClosing (c : Char) : Bool := [')', ']', '}'].contains c

theorem isClosing_spec {c : Char} (hc : isClosing c = true) :
    c ∈ signs ∧ c ∉ ['"', '(', '[', '{'] ∧ c ≠ ';' ∧ c ≠ ',' := by
  rw [isClosing, List.contains_iff_mem, List.mem_cons, List.mem_cons, List.mem_singleton] at hc
  rcases hc with rfl | rfl | rfl
  · decide
  · decide
  · decide

theorem isStart_of_isClosing {c : Char} (hc : isClosing c = true) : isStart c = false :=
  isStart_of_mem_signs (isClosing_spec hc).1 (isClosing_spec hc).2.1

theorem layoutLength_of_isClosing {c : Char} (hc : isClosing c = true) (r : List Char) :
    layoutLength false (c :: r) = 0 :=
  layoutLength_of_ne (isSpace_of_mem_signs (isClosing_spec hc).1) (isClosing_spec hc).2.2.1 r

/-- After an item comes a blank; a comma after that and the blank after the comma are gone
over as the separator. -/
theorem exists_of_gap {gap rest : List Char} (h : Gap gap) (hrest : layoutLength false rest = 0)
    (hcomma : rest.headD endMark ≠ ',') :
    ∃ g r, gap ++ rest = g ++ r ∧ GapBefore g r ∧ ∀ b p, ∃ s b' p',
      tokenSpans (Cursor.settled b r p).skipComma = .ok s (Cursor.settled b' rest p') := by
  cases h with
  | blank h =>
    refine ⟨gap, rest, rfl, h.gapBefore hrest, fun b p => ?_⟩
    rw [Cursor.skipComma_of_ne hcomma]
    exact ⟨_, _, _, tokenSpans_append (gapBefore_nil.2 hrest) b [] p p⟩
  | @comma g g' hg hg' =>
    refine ⟨g, ',' :: (g' ++ rest), by simp, hg.gapBefore ?_, fun b p => ?_⟩
    · exact layoutLength_of_ne (isSpace_of_mem_signs (by decide)) (by decide) _
    · rw [Cursor.skipComma_cons]
      exact ⟨_, _, _, tokenSpans_append (hg'.gapBefore hrest) b [','] p (p.forward ',')⟩

/-- What follows some of the items: other items, or the closing bracket. -/
theorem rest_of_series {gap : List Char → List Char → Prop} {name : α → Bool}
    {W : α → List Char → Prop} (hW : ∀ {x s}, W x s → isStart (s.headD endMark) = true)
    {closing : Char} (hclosing : isClosing closing = true) {xs : List α} {t : List Char}
    (h : Series gap name W xs t) (r : List Char) :
    layoutLength false (t ++ closing :: r) = 0 ∧ (t ++ closing :: r).headD endMark ≠ ',' := by
  rcases h.headD hW (closing :: r) with ⟨rfl, -⟩ | hstart
  · exact ⟨layoutLength_of_isClosing hclosing r, (isClosing_spec hclosing).2.2.2⟩
  · exact ⟨layoutLength_of_isStart hstart,
      ne_of_isStart hstart (isStart_of_mem_signs (by decide) (by decide))⟩

/-- An item is read with the gap after it, and the other items follow. -/
theorem itemsUntil_item {closing : Char} {item : Scan α} {view : α → γ} {name : α → Bool} {x : α}
    {s gap rest : List Char} (hclosing : isClosing closing = true)
    (hx : ReadsItem item view name x s) (hgap : Gap gap)
    (hstop : name x = true → Delimits (gap ++ rest)) (hrest : layoutLength false rest = 0)
    (hcomma : rest.headD endMark ≠ ',') (b : List Char) (p : Pos) :
    ∃ y sep b' p', view y = view x ∧ ∀ fuel ys c',
      itemsUntil closing item (fuel + 1) (Cursor.settled b (s ++ gap ++ rest) p) = .ok ys c' ↔
        ∃ zs, itemsUntil closing item fuel (Cursor.settled b' rest p') = .ok zs c' ∧
          ys = (y, sep) :: zs := by
  obtain ⟨g, r', hsplit, hg, hsep⟩ := exists_of_gap hgap hrest hcomma
  have hstart : isStart ((s ++ gap ++ rest).headD endMark) = true := by
    rw [List.append_assoc, headD_append (ne_nil_of_isStart hx.start)]
    exact hx.start
  obtain ⟨y, b₁, p₁, hy, hview⟩ := hx.reads hg (hsplit ▸ hstop) b p
  rw [List.append_assoc, ← hsplit, ← List.append_assoc] at hy
  obtain ⟨sep, b₂, p₂, hsep⟩ := hsep b₁ p₁
  refine ⟨y, sep, b₂, p₂, hview, fun fuel ys c' => itemsUntil_eq_ok.trans ⟨?_, ?_⟩⟩
  · rintro (⟨hcur, -⟩ | ⟨-, -, x', c₁, sep', c₂, zs, hx', hsep', hzs, rfl⟩)
    · exact absurd hcur (ne_of_isStart hstart (isStart_of_isClosing hclosing))
    · -- a production has one result
      obtain ⟨rfl, rfl⟩ := EStateM.Result.ok.inj (hy.symm.trans hx')
      obtain ⟨rfl, rfl⟩ := EStateM.Result.ok.inj (hsep.symm.trans hsep')
      exact ⟨zs, hzs, rfl⟩
  · rintro ⟨zs, hzs, rfl⟩
    exact .inr ⟨ne_of_isStart hstart (isStart_of_isClosing hclosing),
      ne_of_isStart hstart isStart_endMark, y, _, sep, _, zs, hy, hsep, hzs, rfl⟩

/-- A name at the end of some items ends at the closing bracket. -/
theorem delimits_of_isClosing {closing : Char} (h : isClosing closing = true) (r : List Char) :
    Delimits (closing :: r) := isNameChar_of_mem_signs (isClosing_spec h).1

/-- Items are read one after the other, whatever the gaps between them. -/
theorem reads_itemsUntil {closing : Char} {item : Scan α} {view : α → γ} {name : α → Bool}
    {xs : List α} {t : List Char} (hclosing : isClosing closing = true)
    (h : Series (fun g _ => Gap g) name (ReadsItem item view name) xs t) (r : List Char)
    {fuel : Nat} (hfuel : t.length < fuel) :
    Reads (itemsUntil closing item fuel) t (closing :: r)
      (fun ys => (ys.map Prod.fst).map view = xs.map view) := by
  induction h generalizing fuel with
  | nil =>
    obtain ⟨fuel, rfl⟩ := Nat.exists_eq_succ_of_ne_zero (Nat.ne_of_gt hfuel)
    exact fun b p => ⟨[], b, p, itemsUntil_eq_ok.2 (.inl ⟨rfl, rfl, rfl⟩), rfl⟩
  | @cons x xs s gap t hx hgap hstop hxs ih =>
    obtain ⟨fuel, rfl⟩ := Nat.exists_eq_succ_of_ne_zero (Nat.ne_of_gt (Nat.zero_lt_of_lt hfuel))
    -- every item takes a character, so the fuel for the others is enough
    have hlen : t.length < fuel := by
      have := List.length_pos_iff.2 (ne_nil_of_isStart hx.start)
      simp only [List.length_append] at hfuel
      omega
    obtain ⟨hrest, hcomma⟩ := rest_of_series ReadsItem.start hclosing hxs r
    have hends : name x = true → Delimits (gap ++ (t ++ closing :: r)) := by
      intro hname
      rw [← List.append_assoc]
      exact (hstop hname).append (delimits_of_isClosing hclosing r)
    intro b p
    obtain ⟨y, sep, b₁, p₁, hview, hstep⟩ := itemsUntil_item hclosing hx hgap hends hrest hcomma b p
    obtain ⟨ys, b₂, p₂, hys, hviews⟩ := ih hlen b₁ p₁
    rw [List.append_assoc (s ++ gap)]
    exact ⟨(y, sep) :: ys, b₂, p₂, (hstep fuel _ _).2 ⟨ys, hys, rfl⟩, by simp [hview, ← hviews]⟩

/-- Items between brackets are read, whatever the gaps around them. -/
theorem reads_between (opening : Char) {closing : Char} {item : Scan α} {view : α → γ}
    {name : α → Bool} {xs : List α} {g t g' r : List Char} (hclosing : isClosing closing = true)
    (hg : Blank g) (h : Series (fun g _ => Gap g) name (ReadsItem item view name) xs t)
    (hg' : GapBefore g' r) :
    Reads (between opening closing item) (opening :: g ++ t ++ closing :: g') r
      (fun y => y.1.map view = xs.map view) := by
  intro b p
  have hrest := (rest_of_series ReadsItem.start hclosing h (g' ++ r)).1
  have hopen := tokenSpans_append (hg.gapBefore hrest) b [opening] p (p.forward opening)
  obtain ⟨ys, b₁, p₁, hys, hviews⟩ := reads_itemsUntil hclosing h (g' ++ r)
    (show t.length < (t ++ closing :: (g' ++ r)).length + 1 by rw [List.length_append]; omega)
    (g.reverse ++ ([opening] ++ b)) ((p.forward opening).forwardOver g)
  have hclose := tokenSpans_append hg' b₁ [closing] p₁ (p₁.forward closing)
  rw [show opening :: g ++ t ++ closing :: g' ++ r =
    opening :: (g ++ (t ++ closing :: (g' ++ r))) by simp]
  exact ⟨_, _, _, between_eq_ok.2 ⟨rfl, _, _, ys, _, _, hopen, hys, hclose, rfl⟩, hviews⟩

theorem reads_itemsOf {enclosure : Enclosure} {opening closing : Char} {expr : Scan Expr}
    {values : List Expr} {spans : BracketSpans} {g t g' r : List Char}
    (hclosing : isClosing closing = true) (hg : Blank g)
    (h : Series (fun g _ => Gap g) Expr.isName (ReadsItem expr Expr.dropSpans Expr.isName)
      values t) (hg' : GapBefore g' r) :
    Reads (itemsOf enclosure opening closing expr) (opening :: g ++ t ++ closing :: g') r
      (fun x => x.dropSpans = (Expr.items enclosure values spans).dropSpans) := by
  intro b p
  obtain ⟨⟨es, espans⟩, b', p', hb, hview⟩ := reads_between opening hclosing hg h hg' b p
  refine ⟨_, b', p', itemsOf_eq_ok.2 ⟨es, espans, hb, rfl⟩, ?_⟩
  simp only [Expr.dropSpans, Expr.dropSpansAll_eq_map]
  rw [hview]

theorem reads_mapOf {expr : Scan Expr} {fields : List Field} {spans : BracketSpans}
    {g t g' r : List Char} (hg : Blank g)
    (h : Series (fun g _ => Gap g) (fun f : Field => f.value.isName)
      (ReadsItem (fieldOf expr) Field.dropSpans fun f => f.value.isName) fields t)
    (hg' : GapBefore g' r) :
    Reads (mapOf expr) ('{' :: g ++ t ++ '}' :: g') r
      (fun x => x.dropSpans = (Expr.map fields spans).dropSpans) := by
  intro b p
  obtain ⟨⟨fs, fspans⟩, b', p', hb, hview⟩ :=
    reads_between '{' (show isClosing '}' = true by decide) hg h hg' b p
  refine ⟨_, b', p', mapOf_eq_ok.2 ⟨fs, fspans, hb, rfl⟩, ?_⟩
  simp only [Expr.dropSpans, Field.dropSpansAll_eq_map]
  rw [hview]

/-! ### Fields -/

theorem colonKey?_eq_none {e k : Expr} (he : e.dropSpans = k.dropSpans)
    (hk : k.endsInColon = false) : colonKey? e = none := by
  rw [Option.eq_none_iff_forall_ne_some]
  rintro ⟨cs, spans, token⟩ hsome
  obtain ⟨name, space, rfl, hlast, -⟩ := colonKey?_eq_some.1 hsome
  cases k <;> simp only [Expr.dropSpans] at he <;> cases he
  exact absurd hk (by simp [Expr.endsInColon, hlast])

/-- A key with its colon apart. -/
theorem reads_keyOf {expr : Scan Expr} {k : Expr} {s g r : List Char}
    (h : Reads expr s (':' :: (g ++ r)) (fun e => e.dropSpans = k.dropSpans))
    (hk : k.endsInColon = false) (hg : GapBefore g r) :
    Reads (keyOf expr) (s ++ ':' :: g) r (fun e => e.1.dropSpans = k.dropSpans) := by
  intro b p
  obtain ⟨e, b₁, p₁, he, hdrop⟩ := h b p
  have hcolon := tokenSpans_append hg b₁ [':'] p₁ (p₁.forward ':')
  rw [List.append_assoc, List.cons_append]
  exact ⟨_, _, _, keyOf_eq_ok.2 ⟨e, _, he, .inr ⟨colonKey?_eq_none hdrop hk, rfl, hcolon, rfl⟩⟩,
    hdrop⟩

/-- No number has a colon in it. -/
theorem nameLeaf_of_colon {token : List Char} (h : ':' ∈ token) :
    nameLeaf token = .ok (.atom (String.ofList token)) := by
  have hnone : Numeral.ofToken? token = none := by
    rw [Option.eq_none_iff_forall_ne_some]
    intro n hn
    exact absurd (Numeral.isNumeralChar_of_ofToken? hn ':' h) (by decide)
  rw [nameLeaf, hnone]

/-- The token of a key can be cut, since it stands on one line. -/
theorem exists_cutKey {cs : List Char} (hline : '\n' ∉ cs) (p : Pos) :
    ∃ key gap stop, ∀ spans c, cutKey cs spans ⟨p, p.forwardOver cs, String.ofList cs⟩ c =
      .ok (.leaf (.atom (String.ofList cs.dropLast)) (some ⟨some key, some gap⟩),
        ⟨some stop, spans.space⟩) c := by
  obtain ⟨key, hkey⟩ := Span.exists_slice (p := p) (a := none) (b := some (-1)) hline
    (by simp [Span.offset])
  obtain ⟨gap, hgap⟩ := Span.exists_slice (p := p) (a := some (-1)) (b := some (-1)) hline le_rfl
  obtain ⟨stop, hstop⟩ := Span.exists_slice (p := p) (a := some (-1)) (b := none) hline
    (by rw [Option.getD_none, Span.offset_length]; exact Span.offset_le _ _)
  exact ⟨key, gap, stop, fun spans c =>
    cutKey_eq_ok.2 ⟨rfl, key, gap, stop, hkey, hgap, hstop, rfl, rfl⟩⟩

/-- A key that is an atom is read with its colon, which is cut off again. -/
theorem reads_keyOf_fused {name : String} (hname : IsNameToken (name.toList ++ [':']))
    {g r : List Char} (hg : GapBefore g r) (hstop : Delimits (g ++ r)) (depth : Nat) :
    Reads (keyOf (exprWithin (depth + 1))) (name.toList ++ ':' :: g) r
      (fun e => e.1.dropSpans = .leaf (.atom name) none) := by
  intro b p
  have hleaf := nameLeaf_of_colon (show ':' ∈ name.toList ++ [':'] by simp)
  have hexpr := exprWithin_name hname hleaf hg hstop depth b p
  have hline : '\n' ∉ name.toList ++ [':'] := fun hmem =>
    absurd (hname.isNameChar _ hmem) (by simp [isNameChar_of_isSpace isSpace_newline])
  rw [show name.toList ++ ':' :: g ++ r = name.toList ++ [':'] ++ (g ++ r) by simp]
  obtain ⟨key, gap, stop, hcut⟩ := exists_cutKey hline p
  refine ⟨_, _, _, keyOf_eq_ok.2 ⟨_, _, hexpr, .inl ⟨_, _, _, colonKey?_eq_some.2
    ⟨_, _, rfl, by simp, String.toList_ofList.symm, rfl⟩, hcut _ _⟩⟩, ?_⟩
  simp [Expr.dropSpans]

theorem reads_fieldOf {expr : Scan Expr} {f : Field} {s t r : List Char}
    (hk : Reads (keyOf expr) s (t ++ r) (fun e => e.1.dropSpans = f.key.dropSpans))
    (hv : Reads expr t r (fun e => e.dropSpans = f.value.dropSpans)) :
    Reads (fieldOf expr) (s ++ t) r (fun x => Field.dropSpans x = Field.dropSpans f) := by
  intro b p
  obtain ⟨⟨k, colon⟩, b₁, p₁, hkey, hkdrop⟩ := hk b p
  obtain ⟨v, b₂, p₂, hvalue, hvdrop⟩ := hv b₁ p₁
  rw [List.append_assoc]
  refine ⟨_, b₂, p₂, fieldOf_eq_ok.2 ⟨k, colon, _, v, hkey, hvalue, rfl⟩, ?_⟩
  simp only [Field.dropSpans, hkdrop, hvdrop]

/-! ### Expressions -/

/-- An expression is read off each of its spellings that is no longer than the bound, with
any layout after it. -/
def ReadsExpr (depth : Nat) (e : Expr) : Prop :=
  ∀ {s g r}, e.SpelledAs s → s.length ≤ depth → GapBefore g r →
    (e.isName = true → Delimits (g ++ r)) →
    Reads (exprWithin depth) (s ++ g) r (fun x => x.dropSpans = e.dropSpans)

theorem exists_succ_of_spelledAs {depth : Nat} {e : Expr} {s : List Char} (hs : e.SpelledAs s)
    (hlen : s.length ≤ depth) : ∃ n, depth = n + 1 := by
  have hpos := List.length_pos_iff.2 hs.ne_nil
  exact ⟨depth - 1, by omega⟩

/-- A key is read with its colon, in front of a value. -/
theorem reads_key {depth : Nat} {k : Expr} {s t r : List Char} (hkey : ReadsExpr depth k)
    (hs : KeySpelledAs Expr.SpelledAs k s t) (hlen : s.length ≤ depth)
    (ht : isStart (t.headD endMark) = true) :
    Reads (keyOf (exprWithin depth)) s (t ++ r) (fun e => e.1.dropSpans = k.dropSpans) := by
  have hne := ne_nil_of_isStart ht
  have hlayout : layoutLength false (t ++ r) = 0 :=
    layoutLength_of_isStart (by rwa [headD_append hne])
  cases hs with
  | @fused name span g t htoken hg hstop =>
    simp only [List.length_append, List.length_cons] at hlen
    obtain ⟨depth, rfl⟩ : ∃ n, depth = n + 1 := ⟨depth - 1, by omega⟩
    -- the value starts right after the colon, or a blank does
    have hdelim : Delimits (g ++ (t ++ r)) := by
      rw [← List.append_assoc, Delimits, headD_append (by simp [hne])]
      exact hstop
    exact reads_keyOf_fused htoken (hg.gapBefore hlayout) hdelim depth
  | @apart k s g g' t hk hcolon hg hname hg' =>
    simp only [List.length_append, List.length_cons] at hlen
    have hgap : GapBefore g (':' :: (g' ++ (t ++ r))) :=
      hg.gapBefore (layoutLength_of_ne (by decide) (by decide) _)
    exact reads_keyOf (hkey hk (by omega) hgap fun h => hg.delimits (hname h) _) hcolon
      (hg'.gapBefore hlayout)

/-- A field is read off each of its spellings. -/
theorem readsItem_fieldOf {depth : Nat} {f : Field} {s : List Char}
    (hkey : ReadsExpr depth f.key) (hvalue : ReadsExpr depth f.value)
    (hs : FieldSpelledAs Expr.SpelledAs f s) (hlen : s.length ≤ depth) :
    ReadsItem (fieldOf (exprWithin depth)) Field.dropSpans (fun f => f.value.isName) f s := by
  refine ⟨hs.isStart, fun {g r} hg hends => ?_⟩
  cases hs with
  | @mk k v separator s t hk hv =>
    rw [List.length_append] at hlen
    have hread := reads_key (r := g ++ r) hkey hk (by omega) hv.isStart
    rw [← List.append_assoc] at hread
    rw [List.append_assoc]
    exact reads_fieldOf hread (hvalue hv (by omega) hg hends)

/-- Every spelling of an expression is read as the expression, up to spans. -/
theorem reads_of_spelledAs (e : Expr) (depth : Nat) : ReadsExpr depth e := by
  induction e using Expr.induction generalizing depth with
  | leaf l span =>
    intro s g r hs hlen hg hstop
    obtain ⟨depth, rfl⟩ := exists_succ_of_spelledAs hs hlen
    cases hs with
    | leaf hl => exact reads_leaf hl hg hstop depth
  | items enclosure values spans ih =>
    intro s g r hs hlen hg _
    obtain ⟨depth, rfl⟩ := exists_succ_of_spelledAs hs hlen
    cases hs with
    | @items _ _ _ g' t hg' ht =>
      simp only [List.length_append] at hlen
      have hbracket : 0 < enclosure.brackets.1.toList.length := by cases enclosure <;> decide
      have hitems : Series (fun g _ => Gap g) Expr.isName
          (ReadsItem (exprWithin depth) Expr.dropSpans Expr.isName) values t :=
        ht.imp fun v hv u hu hle =>
          ⟨hu.isStart, fun hg hstop => ih v hv depth hu (by omega) hg hstop⟩
      rw [List.append_assoc _ _ g]
      cases enclosure with
      | group =>
        exact reads_exprOf (isStart_of_mem (c := '(') (by decide)) rfl
          (reads_itemsOf (show isClosing ')' = true by decide) hg' hitems hg)
      | sequence =>
        exact reads_exprOf (isStart_of_mem (c := '[') (by decide)) rfl
          (reads_itemsOf (show isClosing ']' = true by decide) hg' hitems hg)
  | map fields spans ih =>
    intro s g r hs hlen hg _
    obtain ⟨depth, rfl⟩ := exists_succ_of_spelledAs hs hlen
    cases hs with
    | @map _ _ g' t hg' ht =>
      simp only [List.length_append, List.length_cons] at hlen
      have hfields := ht.imp fun f hf u hu hle =>
        readsItem_fieldOf ((ih f hf).1 depth) ((ih f hf).2 depth) hu (by omega)
      rw [List.append_assoc _ _ g]
      exact reads_exprOf (isStart_of_mem (c := '{') (by decide)) rfl
        (reads_mapOf hg' hfields hg)
  | bare mark =>
    intro s g r hs
    cases hs

/-- An item is read off each spelling that is short enough. -/
theorem readsItem_expr {depth : Nat} {e : Expr} {s : List Char} (hs : e.SpelledAs s)
    (hlen : s.length ≤ depth) :
    ReadsItem (exprWithin depth) Expr.dropSpans Expr.isName e s :=
  ⟨hs.isStart, fun hg hstop => reads_of_spelledAs e depth hs hlen hg hstop⟩

/-! ### Documents -/

/-- An expression is read with the layout after it, and the other expressions follow. -/
theorem exprsUntilEnd_expr {e : Expr} {s g rest : List Char} (he : e.SpelledAs s)
    (hg : GapBefore g rest) (hstop : e.isName = true → Delimits (g ++ rest)) (b : List Char)
    (p : Pos) :
    ∃ x b' p', x.dropSpans = e.dropSpans ∧ ∀ fuel xs c',
      exprsUntilEnd (fuel + 1) (Cursor.settled b (s ++ g ++ rest) p) = .ok xs c' ↔
        ∃ zs, exprsUntilEnd fuel (Cursor.settled b' rest p') = .ok zs c' ∧ xs = x :: zs := by
  have hcur : (s ++ g ++ rest).headD endMark ≠ endMark := by
    rw [List.append_assoc, headD_append he.ne_nil]
    exact ne_of_isStart he.isStart isStart_endMark
  obtain ⟨x, b', p', hx, hdrop⟩ := reads_of_spelledAs e ((s ++ g ++ rest).length + 1) he
    (by simp only [List.length_append]; omega) hg hstop b p
  refine ⟨x, b', p', hdrop, fun fuel xs c' => exprsUntilEnd_eq_ok.trans ⟨?_, ?_⟩⟩
  · rintro (⟨hend, -⟩ | ⟨-, x', c₁, zs, hx', hzs, rfl⟩)
    · exact absurd hend hcur
    · obtain ⟨rfl, rfl⟩ := EStateM.Result.ok.inj (hx.symm.trans hx')
      exact ⟨zs, hzs, rfl⟩
  · rintro ⟨zs, hzs, rfl⟩
    exact .inr ⟨hcur, x, _, zs, hx, hzs, rfl⟩

/-- The expressions of a text are read one after the other. -/
theorem reads_exprsUntilEnd {es : List Expr} {t : List Char}
    (h : Series GapBefore Expr.isName Expr.SpelledAs es t) {fuel : Nat} (hfuel : t.length < fuel) :
    Reads (exprsUntilEnd fuel) t [] (fun xs => xs.map Expr.dropSpans = es.map Expr.dropSpans) := by
  induction h generalizing fuel with
  | nil =>
    obtain ⟨fuel, rfl⟩ := Nat.exists_eq_succ_of_ne_zero (Nat.ne_zero_of_lt hfuel)
    exact fun b p => ⟨[], b, p, exprsUntilEnd_eq_ok.2 (.inl ⟨rfl, rfl, rfl⟩), rfl⟩
  | @cons e es s g t he hg hstop hes ih =>
    obtain ⟨fuel, rfl⟩ := Nat.exists_eq_succ_of_ne_zero (Nat.ne_zero_of_lt hfuel)
    have hlen : t.length < fuel := by
      have := List.length_pos_iff.2 he.ne_nil
      simp only [List.length_append] at hfuel
      omega
    intro b p
    rw [List.append_nil]
    obtain ⟨x, b₁, p₁, hdrop, hstep⟩ := exprsUntilEnd_expr he hg hstop b p
    obtain ⟨xs, b₂, p₂, hxs, hdrops⟩ := ih hlen b₁ p₁
    rw [List.append_nil] at hxs
    exact ⟨x :: xs, b₂, p₂, (hstep fuel _ _).2 ⟨xs, hxs, rfl⟩, by simp [hdrop, hdrops]⟩

end Scan

/-- Every spelling of a document is read as the document, up to spans. -/
theorem Document.readPlain_of_spelledAs {d : Document} {text : String}
    (h : d.SpelledAs text.toList) : Document.readPlain text = .ok d.dropSpans := by
  obtain ⟨g, t, htext, hg, ht⟩ := h
  obtain ⟨es, b, p, hes, hdrop⟩ := Scan.reads_exprsUntilEnd ht (Nat.lt_succ_self t.length)
    g.reverse (Pos.origin.forwardOver g)
  rw [List.append_nil] at hes
  rw [← String.ofList_toList (s := text), htext, Document.readPlain, Document.read_append hg, hes]
  simp only [Except.map, Document.dropSpans, Expr.dropSpansAll_eq_map, hdrop]

/-! ### Written documents -/

/-- The expressions of a text, each followed by its gap. -/
theorem Separated.textSeries {es : List Expr} {t : List Char}
    (h : Separated TextGap Expr.SpelledAs es t) :
    Series GapBefore Expr.isName Expr.SpelledAs es t := by
  induction h with
  | nil => exact .nil
  | @cons e es s g t he hg hes ih =>
    refine .cons he (hg.1.gapBefore ?_) (fun _ => ?_) ih
    · rcases ih.headD Expr.SpelledAs.isStart [] with ⟨rfl, -⟩ | hstart
      · rfl
      · rw [List.append_nil] at hstart
        exact layoutLength_of_isStart hstart
    · exact delimits_of_itemGap (.blank hg) hes

/-- Expressions with blanks around them are spelled by a text. -/
theorem Document.spelledAs_of_separated {d : Document} {g t : List Char} (hg : Blank g)
    (ht : Separated TextGap Expr.SpelledAs d.exprs t) : d.SpelledAs (g ++ t) := by
  have hseries := ht.textSeries
  refine ⟨g, t, rfl, hg.gapBefore ?_, hseries⟩
  rcases hseries.headD Expr.SpelledAs.isStart [] with ⟨rfl, -⟩ | hstart
  · rfl
  · rw [List.append_nil] at hstart
    exact layoutLength_of_isStart hstart

/-- Every way to write a document is read as the document, up to spans. -/
theorem Document.readPlain_of_writtenAs {d : Document} (hback : ∀ e ∈ d.exprs, e.ReadsBack)
    {text : String} (hw : d.WrittenAs text.toList) :
    Document.readPlain text = .ok d.dropSpans := by
  obtain ⟨g, t, hg, ht, htext⟩ := hw
  have hspelled : Separated TextGap Expr.SpelledAs d.exprs t :=
    ht.imp id fun e he s hs => hs.spelledAs (hback e he)
  refine Document.readPlain_of_spelledAs ?_
  rw [htext]
  exact Document.spelledAs_of_separated hg hspelled

/-- A document that was read without spans is read again, with whichever gaps it is
written: the leaves in their canonical form decide alone, unless a key is a number or a
real number is not read back. -/
theorem Document.parse_of_writtenAs {src text : String} {d : Document}
    (h : Document.parse src false = .ok d) (hkeys : ∀ k ∈ d.keys, k.isNumber = false)
    (hreals : ∀ r, .real r ∈ d.leaves → nameLeaf r.text.toList = .ok (.real r))
    (hw : d.WrittenAs text.toList) : Document.parse text false = .ok d := by
  obtain ⟨hdrop, hback⟩ := Document.readsBack_of_parse h hkeys hreals
  exact (Document.readPlain_of_writtenAs hback hw).trans (congrArg _ hdrop)

/-- A comment after a colon, commas after items, and white space around brackets. -/
theorem Document.parse_of_writtenAs_comments :
    ∃ d, Document.parse "(f \x7bk: 1.5\x7d)" false = .ok d ∧
      d.WrittenAs "; c\n( f,\t\x7b k:;x\n1.5 , \x7d )".toList ∧
      Document.parse "; c\n( f,\t\x7b k:;x\n1.5 , \x7d )" false = .ok d := by
  obtain ⟨r, hr⟩ : ∃ r, r = Binary64.ofRatio false 3 2 := ⟨_, rfl⟩
  have hread : Document.parse "(f \x7bk: 1.5\x7d)" false = .ok ⟨[.items .group
      [.leaf (.atom "f") none, .map [⟨.leaf (.atom "k") none, .leaf (.real r) none, none⟩] .none]
      .none], none⟩ := by
    rw [hr]
    decide +kernel
  have hspace : ∀ {cs}, Blank cs → Blank (' ' :: cs) := Blank.space isSpace_blank
  have hcomment : Blank (';' :: (['x'] ++ '\n' :: [])) := .comment (by simp [endMark]) .nil
  have hcomment' : Blank (';' :: ([' ', 'c'] ++ '\n' :: [])) := .comment (by simp [endMark]) .nil
  have hfield : FieldWrittenAs Expr.WrittenAs
      ⟨.leaf (.atom "k") none, .leaf (.real r) none, none⟩ "k:;x\n1.5".toList := by
    rw [hr]
    exact .mk (s := "k".toList) (t := "1.5".toList) .leaf hcomment (by decide) .leaf
  have hmap : (Expr.map _ .none).WrittenAs _ :=
    .map (hspace .nil) (.cons hfield (.comma (hspace .nil) (hspace .nil)) .nil)
  have hatom : (Expr.leaf (.atom "f") none).WrittenAs "f".toList := .leaf
  have hgroup : (Expr.items .group _ .none).WrittenAs _ := .items (hspace .nil)
    (.cons hatom (.comma .nil (.space (c := '\t') (by decide) .nil))
      (.cons hmap (.blank ⟨hspace .nil, by simp⟩) .nil))
  have hw : Document.WrittenAs ⟨[_], none⟩ "; c\n( f,\t\x7b k:;x\n1.5 , \x7d )".toList :=
    ⟨"; c\n".toList, _, hcomment', .cons hgroup textGap_nil .nil, by decide +kernel⟩
  refine ⟨_, hread, hw, Document.parse_of_writtenAs hread ?_ (fun x hx => ?_) hw⟩
  · rw [hr]
    decide +kernel
  · obtain rfl : x = r := by
      simpa [Document.leaves, Expr.leavesAll, Expr.leaves, Field.leavesAll] using hx
    rw [hr]
    decide +kernel

end Sexpr
