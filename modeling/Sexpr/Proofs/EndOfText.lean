/-
The character U+0000 ends a text.

A text is read like the part of it before its first U+0000: with the same expressions, spans
and faults. No scanner looks behind this character, and no production goes over it, so that
the two readings stand at the same cursor all the time; only the bounds on their steps
differ, and these are not reached.

* `beforeEnd` — the part of a text that is read;
* `layoutLength_beforeEnd`, `stringToken_beforeEnd`, `rawToken_beforeEnd` — the scanners;
* `Scan.CutsAlike` — a production gives the same in the text that is cut off;
* `Scan.cutsAlike_exprWithin` — expressions, by induction on the length of the text;
* `Document.parse_beforeEnd` — a whole text.
-/
import Sexpr.Proofs.CursorRuns

namespace Sexpr

open EStateM (bind_of_ok bind_of_error)

/-- The part of a text before its first U+0000. -/
def beforeEnd (cs : List Char) : List Char := cs.takeWhile (· ≠ endMark)

theorem beforeEnd_cons {x : Char} (hx : x ≠ endMark) (cs : List Char) :
    beforeEnd (x :: cs) = x :: beforeEnd cs :=
  List.takeWhile_cons_of_pos (by simpa using hx)

theorem beforeEnd_endMark (cs : List Char) : beforeEnd (endMark :: cs) = [] :=
  List.takeWhile_cons_of_neg (by simp)

theorem beforeEnd_append {t : List Char} (ht : endMark ∉ t) (r : List Char) :
    beforeEnd (t ++ r) = t ++ beforeEnd r :=
  List.takeWhile_append_of_pos fun x hx => by
    simpa using fun h : x = endMark => ht (h ▸ hx)

@[simp]
theorem headD_beforeEnd (cs : List Char) : (beforeEnd cs).headD endMark = cs.headD endMark := by
  cases cs with
  | nil => rfl
  | cons x cs =>
    by_cases hx : x = endMark
    · rw [hx, beforeEnd_endMark]
      rfl
    · rw [beforeEnd_cons hx]
      rfl

/-! ### Scanners -/

theorem layoutLength_beforeEnd (comment : Bool) (cs : List Char) :
    layoutLength comment (beforeEnd cs) = layoutLength comment cs := by
  induction cs generalizing comment with
  | nil => rfl
  | cons x cs ih =>
    by_cases hx : x = endMark
    · rw [hx, beforeEnd_endMark, layoutLength, layoutLength, if_pos rfl]
    · rw [beforeEnd_cons hx, layoutLength, layoutLength]
      simp only [ih]

theorem takeWhile_beforeEnd {p : Char → Bool} (hp : p endMark = false) (cs : List Char) :
    (beforeEnd cs).takeWhile p = cs.takeWhile p := by
  induction cs with
  | nil => rfl
  | cons x cs ih =>
    by_cases hx : x = endMark
    · rw [hx, beforeEnd_endMark, List.takeWhile_cons_of_neg (by simp [hp]), List.takeWhile_nil]
    · rw [beforeEnd_cons hx, List.takeWhile_cons, List.takeWhile_cons, ih]

/-- What follows the characters that a test lets through. -/
theorem drop_beforeEnd {p : Char → Bool} (hp : p endMark = false) (cs : List Char) :
    (beforeEnd cs).drop (cs.takeWhile p).length = beforeEnd (cs.drop (cs.takeWhile p).length) := by
  obtain ⟨r, hr⟩ : cs.takeWhile p <+: cs := List.takeWhile_prefix _
  have hend : endMark ∉ cs.takeWhile p := fun h => by
    have := List.mem_takeWhile_imp h
    rw [hp] at this
    exact absurd this (by simp)
  generalize cs.takeWhile p = t at hr hend
  subst hr
  rw [beforeEnd_append hend, List.drop_left, List.drop_left]

theorem codePoint_beforeEnd (cs : List Char) : codePoint (beforeEnd cs) = codePoint cs := by
  have hdigit : isCodePointDigit endMark = false := by decide
  cases cs with
  | nil => rfl
  | cons x cs =>
    by_cases hx : x = endMark
    · rw [hx, beforeEnd_endMark]
      rfl
    · rw [beforeEnd_cons hx]
      by_cases hbrace : x = '{'
      · subst hbrace
        simp only [codePoint, takeWhile_beforeEnd hdigit, drop_beforeEnd hdigit, headD_beforeEnd]
      · unfold codePoint
        split
        · next heq => exact absurd (List.cons.inj heq).1 hbrace
        · split
          · next heq => exact absurd (List.cons.inj heq).1 hbrace
          · rfl

theorem escape_beforeEnd (cs : List Char) : escape (beforeEnd cs) = escape cs := by
  cases cs with
  | nil => rfl
  | cons x cs =>
    by_cases hx : x = endMark
    · rw [hx, beforeEnd_endMark]
      rfl
    · rw [beforeEnd_cons hx]
      by_cases hu : x = 'u'
      · subst hu
        show (codePoint (beforeEnd cs)).after 1 _ = (codePoint cs).after 1 _
        rw [codePoint_beforeEnd]
      · rw [escape_cons hu, escape_cons hu cs]

/-- The characters of an escape that has been read lie before the end. -/
theorem stringBody_beforeEnd {q : Char} (hq : q ≠ endMark) {pending : Nat} {cs : List Char}
    (h : pending ≤ (beforeEnd cs).length) :
    stringBody q pending (beforeEnd cs) = stringBody q pending cs := by
  induction cs generalizing pending with
  | nil => rfl
  | cons x cs ih =>
    by_cases hx : x = endMark
    · rw [hx, beforeEnd_endMark] at h ⊢
      obtain rfl : pending = 0 := Nat.le_zero.1 h
      rw [stringBody, stringBody, if_neg (Ne.symm hq), if_pos rfl]
    · rw [beforeEnd_cons hx] at h ⊢
      cases pending with
      | succ k => rw [stringBody, stringBody, ih (Nat.le_of_succ_le_succ h)]
      | zero =>
        rw [stringBody, stringBody, escape_beforeEnd, ih (Nat.zero_le _)]
        have hesc := within_escape (beforeEnd cs)
        rw [escape_beforeEnd] at hesc
        cases hread : escape cs with
        | mk n outcome =>
          rw [hread] at hesc
          cases outcome with
          | error e => rfl
          | ok xs => simp only [ih hesc.1]

theorem stringToken_beforeEnd (q : Char) (cs : List Char) :
    stringToken q (beforeEnd cs) = stringToken q cs := by
  unfold stringToken
  rw [headD_beforeEnd]
  split_ifs with hq hhead
  · rfl
  · rfl
  · have hend : q ≠ endMark := by
      rintro rfl
      exact hq (by decide)
    obtain ⟨cs, rfl⟩ := exists_cons_of_headD (not_not.1 hhead) hend
    rw [beforeEnd_cons hend, List.drop_one, List.tail_cons, List.drop_one, List.tail_cons,
      stringBody_beforeEnd hend (Nat.zero_le _)]

theorem rawBody_beforeEnd {tag missing : List Char} (htag : endMark ∉ tag)
    (hmissing : endMark ∉ missing) (cs : List Char) :
    rawBody tag missing (beforeEnd cs) = rawBody tag missing cs := by
  induction cs generalizing missing with
  | nil => rfl
  | cons x cs ih =>
    by_cases hx : x = endMark
    · have hmet : missing.head? ≠ some endMark := fun h => hmissing (List.mem_of_mem_head? h)
      rw [hx, beforeEnd_endMark, rawBody, rawBody, if_neg hmet]
      exact (if_pos rfl).symm
    · rw [beforeEnd_cons hx, rawBody, rawBody, ih fun h => hmissing (List.mem_of_mem_tail h),
        ih htag, ih (List.not_mem_nil)]

theorem rawToken_beforeEnd (cs : List Char) : rawToken (beforeEnd cs) = rawToken cs := by
  have halnum : Text.isAlphanumeric endMark = false := by decide
  unfold rawToken
  rw [headD_beforeEnd]
  split_ifs with hhead
  · rfl
  · obtain ⟨cs, rfl⟩ := exists_cons_of_headD (not_not.1 hhead) (by decide)
    have htag : endMark ∉ cs.takeWhile Text.isAlphanumeric := fun h =>
      absurd (List.mem_takeWhile_imp h) (by decide)
    rw [beforeEnd_cons (by decide)]
    simp only [Nat.add_comm 1, List.drop_succ_cons, List.drop_zero, takeWhile_beforeEnd halnum,
      drop_beforeEnd halnum, headD_beforeEnd]
    split_ifs with hquote
    · rfl
    · obtain ⟨r, hr⟩ := exists_cons_of_headD (not_not.1 hquote) (by decide)
      rw [hr, beforeEnd_cons (by decide), List.drop_one, List.drop_one, List.tail_cons,
        List.tail_cons, rawBody_beforeEnd htag (List.not_mem_nil)]

/-! ### Cursors -/

namespace Cursor

/-- The cursor in the text that ends where the next U+0000 stands. -/
def cut (c : Cursor) : Cursor := { c with rest := beforeEnd c.rest }

@[simp]
theorem rest_cut (c : Cursor) : c.cut.rest = beforeEnd c.rest := rfl

@[simp]
theorem current_cut (c : Cursor) : c.cut.current = c.current := headD_beforeEnd c.rest

theorem cut_ofText (cs : List Char) : (ofText cs).cut = ofText (beforeEnd cs) := rfl

theorem next_cut {c : Cursor} (h : c.current ≠ endMark) : c.cut.next = c.next.cut := by
  obtain ⟨b, t, r, m, p⟩ := c
  cases r with
  | nil => exact absurd rfl h
  | cons x r =>
    have hx : x ≠ endMark := h
    rw [cut, beforeEnd_cons hx]
    rfl

theorem skipComma_cut (c : Cursor) : c.cut.skipComma = c.skipComma.cut := by
  unfold skipComma
  rw [current_cut]
  split_ifs with hcomma
  · exact next_cut (by rw [hcomma]; decide)
  · rfl

theorem advance_cut {n : Nat} {c : Cursor} (h : n ≤ (beforeEnd c.rest).length) :
    c.cut.advance n = (c.advance n).cut := by
  induction n generalizing c with
  | zero => rfl
  | succ n ih =>
    obtain ⟨b, t, r, m, p⟩ := c
    cases r with
    | nil => exact absurd h (by simp [beforeEnd])
    | cons x r =>
      by_cases hx : x = endMark
      · rw [hx, beforeEnd_endMark] at h
        exact absurd h (by simp)
      · rw [beforeEnd_cons hx] at h
        rw [advance, advance, next_cut (show (Cursor.mk b t (x :: r) m p).current ≠ endMark from hx)]
        exact ih (Nat.le_of_succ_le_succ h)

end Cursor

namespace Scan

variable {α β : Type} {text : List Char} {c : Cursor}

/-- The same outcome, at the cursor in the text that is cut off. -/
def cutOutcome : EStateM.Result ReadFault Cursor α → EStateM.Result ReadFault Cursor α
  | .ok x c => .ok x c.cut
  | .error e c => .error e c.cut

/-- One production after another. -/
theorem bind_cut {p q : Scan α} {f g : α → Scan β} (h : q c.cut = cutOutcome (p c))
    (hf : ∀ x c₁, q c.cut = .ok x c₁.cut → g x c₁.cut = cutOutcome (f x c₁)) :
    (q >>= g) c.cut = cutOutcome ((p >>= f) c) := by
  cases hp : p c with
  | ok x c₁ =>
    rw [hp] at h
    rw [bind_of_ok hp, bind_of_ok h]
    exact hf x c₁ h
  | error e c₁ =>
    rw [hp] at h
    rw [bind_of_error hp, bind_of_error h]
    rfl

/-! ### Tokens -/

theorem lexeme_cut {scan : List Char → Scanned α} (hwithin : ∀ cs, (scan cs).Within cs)
    (hscan : ∀ cs, scan (beforeEnd cs) = scan cs) (c : Cursor) :
    lexeme scan c.cut = cutOutcome (lexeme scan c) := by
  have hlen := (hwithin (beforeEnd c.rest)).1
  rw [hscan] at hlen
  unfold lexeme
  dsimp only
  rw [Cursor.rest_cut, hscan, Cursor.advance_cut hlen]
  split
  · rfl
  · rfl

theorem layout_cut (c : Cursor) : layout c.cut = cutOutcome (layout c) := by
  refine bind_cut (lexeme_cut (fun cs => ?_) (fun cs => ?_) c) fun _ _ _ => rfl
  · obtain ⟨g, r, rfl, hg, hend, -⟩ := exists_layout false cs
    exact within_of_append hg hend
  · rw [layoutLength_beforeEnd]

theorem tokenSpans_cut (c : Cursor) : tokenSpans c.cut = cutOutcome (tokenSpans c) :=
  bind_cut rfl fun _ c₁ _ => bind_cut (layout_cut c₁) fun _ _ _ => rfl

theorem leafOf_cut {scan : List Char → Scanned Leaf} (hwithin : ∀ cs, (scan cs).Within cs)
    (hscan : ∀ cs, scan (beforeEnd cs) = scan cs) (c : Cursor) :
    leafOf scan c.cut = cutOutcome (leafOf scan c) :=
  bind_cut (lexeme_cut hwithin hscan c) fun _ c₁ _ => bind_cut (tokenSpans_cut c₁) fun _ _ _ => rfl

theorem name_cut (c : Cursor) : name c.cut = cutOutcome (name c) := by
  have htoken : nameToken c.cut = cutOutcome (nameToken c) := by
    refine lexeme_cut (fun cs => ?_) (fun cs => ?_) c
    · obtain ⟨r, hr⟩ : cs.takeWhile isNameChar <+: cs := List.takeWhile_prefix _
      have hend : endMark ∉ cs.takeWhile isNameChar := fun h =>
        absurd (List.mem_takeWhile_imp h) (by decide)
      generalize cs.takeWhile isNameChar = token at hr hend
      subst hr
      dsimp only
      split_ifs
      · exact within_zero _ _
      · exact within_of_append rfl hend
    · rw [takeWhile_beforeEnd (by decide), headD_beforeEnd]
  refine bind_cut htoken fun token c₁ _ => bind_cut (tokenSpans_cut c₁) fun s c₂ _ => ?_
  cases nameLeaf token with
  | ok l => rfl
  | error e => rfl

/-! ### Brackets -/

/-- Two productions that give the same off every text shorter than `n`, the second one where
the text is cut off. -/
def CutsAlike (text : List Char) (n : Nat) (p q : Scan α) : Prop :=
  ∀ ⦃c⦄, c.cut.StandsIn text → c.cut.rest.length < n → q c.cut = cutOutcome (p c)

/-- Items up to the closing bracket, with bounds that the length of the text does not
reach. -/
theorem itemsUntil_cut {P : α → Prop} {closing : Char} {item item' : Scan α} {n fuel fuel' : Nat}
    (hitem : CutsAlike text n item item') (hadvances : Advances text n P item')
    (hc : c.cut.StandsIn text) (hn : c.cut.rest.length < n) (hfuel : c.cut.rest.length < fuel)
    (hfuel' : c.cut.rest.length < fuel') :
    itemsUntil closing item' fuel' c.cut = cutOutcome (itemsUntil closing item fuel c) := by
  induction fuel generalizing c fuel' with
  | zero => exact absurd hfuel (Nat.not_lt_zero _)
  | succ fuel ih =>
    obtain ⟨fuel', rfl⟩ := Nat.exists_eq_succ_of_ne_zero (Nat.ne_zero_of_lt hfuel')
    rw [itemsUntil_succ, itemsUntil_succ, Cursor.current_cut]
    split_ifs
    · rfl
    · rfl
    · refine bind_cut (hitem hc hn) fun x c₁ hx => ?_
      have hstays := hadvances hc hn
      rw [hx] at hstays
      obtain ⟨hc₁, -, hlt⟩ := hstays
      rw [Cursor.skipComma_cut]
      refine bind_cut (tokenSpans_cut _) fun s c₂ hs => ?_
      have hcomma : c₁.skipComma.cut.StandsIn text ∧
          c₁.skipComma.cut.rest.length ≤ c₁.cut.rest.length := by
        rw [← Cursor.skipComma_cut]
        exact hc₁.skipComma
      have hstays := stays_tokenSpans hcomma.1
      rw [hs] at hstays
      obtain ⟨hc₂, -, -, hle⟩ := hstays
      refine bind_cut (ih hc₂ (by omega) (by omega) (by omega)) fun ys c₃ _ => rfl

/-- Items between brackets; neither bracket is U+0000. -/
theorem between_cut {P : α → Prop} {opening closing : Char} {item item' : Scan α} {n : Nat}
    (hopening : opening ≠ endMark) (hclosing : closing ≠ endMark)
    (hitem : CutsAlike text n item item') (hadvances : Advances text n P item')
    (hc : c.cut.StandsIn text) (hn : c.cut.rest.length ≤ n) :
    between opening closing item' c.cut = cutOutcome (between opening closing item c) := by
  rw [between_eq, between_eq, Cursor.current_cut]
  split_ifs with hcurrent
  · have hnext := Cursor.next_cut (c := c) (by rwa [hcurrent])
    have hlen : c.next.cut.rest.length < c.cut.rest.length := by
      obtain ⟨r, hr⟩ := exists_cons_of_headD hcurrent hopening
      rw [← hnext, Cursor.rest_next, Cursor.rest_cut, hr, beforeEnd_cons hopening]
      simp
    rw [hnext]
    refine bind_cut (tokenSpans_cut _) fun s c₁ hs => ?_
    have hstays := stays_tokenSpans (hnext ▸ hc.next)
    rw [hs] at hstays
    obtain ⟨hc₁, -, -, hle⟩ := hstays
    have hshort : c₁.cut.rest.length ≤ c₁.rest.length := (List.takeWhile_prefix _).length_le
    refine bind_cut (itemsUntil_cut hitem hadvances hc₁ (by omega) (by omega) (by omega))
      fun xs c₂ hxs => ?_
    have hclose := current_of_itemsUntil hxs
    rw [Cursor.current_cut] at hclose
    rw [Cursor.next_cut (by rwa [hclose])]
    exact bind_cut (tokenSpans_cut _) fun s' c₃ _ => rfl
  · rfl

/-! ### Fields -/

theorem cutKey_cut (cs : List Char) (spans : TokenSpans) (token : Span) (c : Cursor) :
    cutKey cs spans token c.cut = cutOutcome (cutKey cs spans token c) := by
  have hlift : ∀ {α : Type} (x : Except SpanFault α) (c : Cursor),
      liftSpan x c.cut = cutOutcome (liftSpan x c) := by
    intro α x c
    cases x with
    | ok a => rfl
    | error e => rfl
  exact bind_cut (hlift _ c) fun _ c₁ _ => bind_cut (hlift _ c₁) fun _ c₂ _ =>
    bind_cut (hlift _ c₂) fun _ _ _ => rfl

theorem cutsAlike_keyOf {expr expr' : Scan Expr} {n : Nat}
    (hexpr : CutsAlike text n expr expr') : CutsAlike text n (keyOf expr) (keyOf expr') := by
  intro c hc hn
  have hread := hexpr hc hn
  cases hkey : expr c with
  | error e c₁ =>
    rw [hkey] at hread
    rw [keyOf, keyOf, bind_of_error hkey, bind_of_error hread]
    rfl
  | ok key c₁ =>
    rw [hkey] at hread
    rw [keyOf_of_ok hkey, keyOf_of_ok hread]
    cases colonKey? key with
    | some cut => exact cutKey_cut _ _ _ c₁
    | none =>
      dsimp only
      rw [Cursor.current_cut]
      split_ifs with hcolon
      · rw [Cursor.next_cut (by rw [hcolon]; decide)]
        exact bind_cut (tokenSpans_cut _) fun _ _ _ => rfl
      · rfl

theorem cutsAlike_fieldOf {expr expr' : Scan Expr} {n : Nat}
    (hexpr : CutsAlike text n expr expr') (hadvances : Advances text n (ReadFrom text) expr') :
    CutsAlike text n (fieldOf expr) (fieldOf expr') := by
  intro c hc hn
  refine bind_cut (cutsAlike_keyOf hexpr hc hn) fun k c₁ hk => ?_
  have hstays := advances_keyOf hadvances hc hn
  rw [hk] at hstays
  obtain ⟨hc₁, -, hlt⟩ := hstays
  exact bind_cut (hexpr hc₁ (by omega)) fun _ _ _ => rfl

/-! ### Expressions -/

/-- An expression, with bounds on its depth that the length of the text does not reach. -/
theorem cutsAlike_exprWithin {n depth depth' : Nat} (hdepth : n ≤ depth) (hdepth' : n ≤ depth') :
    CutsAlike text n (exprWithin depth) (exprWithin depth') := by
  induction n generalizing depth depth' with
  | zero => exact fun c _ hn => absurd hn (Nat.not_lt_zero _)
  | succ n ih =>
    obtain ⟨depth, rfl⟩ : ∃ k, depth = k + 1 := ⟨depth - 1, by omega⟩
    obtain ⟨depth', rfl⟩ : ∃ k, depth' = k + 1 := ⟨depth' - 1, by omega⟩
    have hexpr : CutsAlike text n (exprWithin depth) (exprWithin depth') :=
      ih (by omega) (by omega)
    have hadvances : Advances text n (ReadFrom text) (exprWithin depth') :=
      advances_exprWithin (by omega)
    intro c hc hn
    rw [exprWithin_succ, exprWithin_succ]
    refine bind_cut (layout_cut c) fun s c₁ hs => ?_
    have hstays := stays_layout hc
    rw [hs] at hstays
    obtain ⟨hc₁, -, -, hle⟩ := hstays
    rw [Cursor.current_cut]
    have hitems : ∀ enclosure {opening closing}, opening ≠ endMark → closing ≠ endMark →
        itemsOf enclosure opening closing (exprWithin depth') c₁.cut =
          cutOutcome (itemsOf enclosure opening closing (exprWithin depth) c₁) :=
      fun _ _ _ hopening hclosing =>
        bind_cut (between_cut hopening hclosing hexpr hadvances hc₁ (by omega)) fun _ _ _ => rfl
    unfold exprOf
    split_ifs
    · rfl
    · exact hitems .group (by decide) (by decide)
    · exact hitems .sequence (by decide) (by decide)
    · exact leafOf_cut (within_stringToken _) (stringToken_beforeEnd _) c₁
    · exact leafOf_cut within_rawToken rawToken_beforeEnd c₁
    · exact bind_cut (between_cut (by decide) (by decide) (cutsAlike_fieldOf hexpr hadvances)
        (advances_fieldOf hadvances) hc₁ (by omega)) fun _ _ _ => rfl
    · exact name_cut c₁
    · rfl

theorem exprsUntilEnd_cut {fuel fuel' : Nat} (hc : c.cut.StandsIn text)
    (hfuel : c.cut.rest.length < fuel) (hfuel' : c.cut.rest.length < fuel') :
    exprsUntilEnd fuel' c.cut = cutOutcome (exprsUntilEnd fuel c) := by
  induction fuel generalizing c fuel' with
  | zero => exact absurd hfuel (Nat.not_lt_zero _)
  | succ fuel ih =>
    obtain ⟨fuel', rfl⟩ := Nat.exists_eq_succ_of_ne_zero (Nat.ne_zero_of_lt hfuel')
    rw [exprsUntilEnd_succ, exprsUntilEnd_succ, Cursor.current_cut]
    split_ifs
    · rfl
    · have hshort : c.cut.rest.length ≤ c.rest.length := (List.takeWhile_prefix _).length_le
      have hexpr : expr c.cut = cutOutcome (expr c) := by
        rw [expr_eq, expr_eq]
        exact cutsAlike_exprWithin (by omega) le_rfl hc (Nat.lt_succ_self _)
      refine bind_cut hexpr fun e c₁ he => ?_
      rw [expr_eq] at he
      have hstays := advances_exprWithin le_rfl hc (Nat.lt_succ_self _)
      rw [he] at hstays
      obtain ⟨hc₁, -, hlt⟩ := hstays
      exact bind_cut (ih hc₁ (by omega) (by omega)) fun _ _ _ => rfl

theorem document_cut (hc : c.cut.StandsIn text) :
    document c.cut = cutOutcome (document c) := by
  refine bind_cut (layout_cut c) fun leading c₁ hs => ?_
  have hstays := stays_layout hc
  rw [hs] at hstays
  have hshort : c₁.cut.rest.length ≤ c₁.rest.length := (List.takeWhile_prefix _).length_le
  rw [remaining_bind, remaining_bind]
  exact bind_cut (exprsUntilEnd_cut hstays.1 (by omega) (Nat.lt_succ_self _)) fun _ _ _ => rfl

end Scan

theorem Document.read_beforeEnd (src : String) :
    Document.read (String.ofList (beforeEnd src.toList)) = Document.read src := by
  have hcut := Scan.document_cut (c := Cursor.ofText src.toList)
    (Cursor.standsIn_ofText (beforeEnd src.toList))
  rw [Cursor.cut_ofText] at hcut
  rw [Document.read, Document.read, String.toList_ofList, hcut]
  cases Scan.document (Cursor.ofText src.toList) with
  | ok d c => rfl
  | error e c => rfl

/-- A text is read like the part of it before its first U+0000: as the same document with
the same spans, or with the same fault. -/
theorem Document.parse_beforeEnd (src : String) (spans : Bool) :
    Document.parse src spans =
      Document.parse (String.ofList (src.toList.takeWhile (· ≠ endMark))) spans := by
  have hread := Document.read_beforeEnd src
  rw [beforeEnd] at hread
  rw [Document.parse, Document.parse, Document.readPlain, Document.readPlain, hread]

end Sexpr
