/-
What the productions of the grammar do.

A production that succeeds has gone through the productions it is made of; each
equivalence below says which ones, at which cursors. Between two productions the mark
of the cursor is at the cursor (`Cursor.settled`).

* `Scan.lexeme_eq_ok` — a token that is read off the text;
* `Scan.tokenSpans_append` — a token is closed by the white space after it;
* `Scan.itemsUntil_eq_ok`, `Scan.between_eq_ok` — brackets;
* `Scan.keyOf_eq_ok`, `Scan.fieldOf_eq_ok` — fields of a map;
* `Scan.exprWithin_eq_exprOf` — expressions, by their first character;
* `Document.read_append` — a whole text.
-/
import Sexpr.Proofs.Scanners
import Sexpr.Proofs.Sequencing
import Sexpr.Reader.Grammar

namespace Sexpr

open EStateM (bind_eq_ok bind_of_ok bind_of_error)

/-! ### Cursors -/

namespace Cursor

/-- The cursor in front of `rest`, with the mark at the cursor. -/
def settled (before rest : List Char) (pos : Pos) : Cursor := ⟨before, [], rest, pos, pos⟩

@[simp]
theorem settled_rest (b r : List Char) (p : Pos) : (settled b r p).rest = r := rfl

@[simp]
theorem settled_current (b r : List Char) (p : Pos) : (settled b r p).current = r.headD endMark :=
  rfl

/-- The cursor after a comma, if one stands at it. -/
def skipComma (c : Cursor) : Cursor := if c.current = ',' then c.next else c

theorem skipComma_of_ne {b r : List Char} {p : Pos} (h : r.headD endMark ≠ ',') :
    (settled b r p).skipComma = settled b r p := if_neg h

theorem skipComma_cons (b r : List Char) (p : Pos) :
    (settled b (',' :: r) p).skipComma = ⟨b, [','], r, p, p.forward ','⟩ := if_pos rfl

theorem next_cons (b t r : List Char) (x : Char) (m p : Pos) :
    (Cursor.mk b t (x :: r) m p).next = ⟨b, x :: t, r, m, p.forward x⟩ := rfl

theorem advance_append (b t s r : List Char) (m p : Pos) :
    (Cursor.mk b t (s ++ r) m p).advance s.length = ⟨b, s.reverse ++ t, r, m, p.forwardOver s⟩ := by
  induction s generalizing t p with
  | nil => rfl
  | cons x s ih =>
    rw [List.cons_append, List.length_cons, advance, next_cons, ih]
    simp

end Cursor

namespace Scan

variable {α β : Type} {c c' : Cursor}

/-! ### One production after another -/

@[simp]
theorem pure_eq_ok {x y : α} : (pure x : Scan α) c = .ok y c' ↔ x = y ∧ c = c' := by
  show EStateM.Result.ok x c = _ ↔ _
  simp

@[simp]
theorem throw_ne_ok {e : ReadFault} {y : α} : (throw e : Scan α) c ≠ .ok y c' := by
  show EStateM.Result.error e c ≠ _
  simp

@[simp]
theorem peek_bind (f : Char → Scan β) (c : Cursor) : (peek >>= f) c = f c.current c := rfl

@[simp]
theorem remaining_bind (f : Nat → Scan β) (c : Cursor) :
    (remaining >>= f) c = f c.rest.length c := rfl

theorem lexeme_eq_ok {scan : List Char → Scanned α} {x : α} :
    lexeme scan c = .ok x c' ↔
      (scan c.rest).outcome = .ok x ∧ c.advance (scan c.rest).length = c' := by
  unfold lexeme
  dsimp only
  split
  · next y hy => simp [hy]
  · next e he => simp [he]

/-! ### Tokens -/

theorem layout_append {g r : List Char} (h : layoutLength false (g ++ r) = g.length)
    (b t : List Char) (m p : Pos) :
    layout ⟨b, t, g ++ r, m, p⟩ =
      .ok ⟨m, p.forwardOver g, String.ofList (t.reverse ++ g)⟩
        (Cursor.settled (g.reverse ++ t ++ b) r (p.forwardOver g)) := by
  refine bind_eq_ok.2 ⟨(), ⟨b, g.reverse ++ t, r, m, p.forwardOver g⟩, ?_, ?_⟩
  · refine lexeme_eq_ok.2 ⟨rfl, ?_⟩
    rw [← Cursor.advance_append b t g r m p, ← h]
    rfl
  · simp [capture, Cursor.capture, Cursor.settled]

/-- A token that has been gone over is captured together with the white space and the
comments after it. -/
theorem tokenSpans_append {g r : List Char} (h : layoutLength false (g ++ r) = g.length)
    (b t : List Char) (m p : Pos) :
    tokenSpans ⟨b, t, g ++ r, m, p⟩ =
      .ok ⟨some ⟨m, p, String.ofList t.reverse⟩, some ⟨p, p.forwardOver g, String.ofList g⟩⟩
        (Cursor.settled (g.reverse ++ (t ++ b)) r (p.forwardOver g)) := by
  refine bind_eq_ok.2 ⟨⟨m, p, String.ofList t.reverse⟩, ⟨t ++ b, [], g ++ r, p, p⟩, rfl, ?_⟩
  refine bind_eq_ok.2 ⟨_, _, layout_append h (t ++ b) [] p p, ?_⟩
  simp

theorem exists_of_tokenSpans {b t r : List Char} {m p : Pos} {s : TokenSpans}
    (h : tokenSpans ⟨b, t, r, m, p⟩ = .ok s c') :
    ∃ g b' r' p', c' = Cursor.settled b' r' p' ∧ r = g ++ r' ∧ endMark ∉ g ∧
      layoutLength false r' = 0 ∧ s.text.toList = t.reverse ++ g := by
  obtain ⟨g, r', rfl, hg, hm, hr⟩ := exists_layout false r
  rw [tokenSpans_append hg b t m p] at h
  obtain ⟨rfl, rfl⟩ := EStateM.Result.ok.inj h
  refine ⟨g, _, r', _, rfl, rfl, hm, hr, ?_⟩
  simp [TokenSpans.text]

/-- A leaf is read by its scanner and captured with the white space after it. -/
theorem leafOf_eq_ok {scan : List Char → Scanned Leaf} {e : Expr} :
    leafOf scan c = .ok e c' ↔ ∃ l s, (scan c.rest).outcome = .ok l ∧
      tokenSpans (c.advance (scan c.rest).length) = .ok s c' ∧ e = .leaf l (some s) := by
  rw [leafOf, bind_eq_ok]
  constructor
  · rintro ⟨l, c₁, hscan, h⟩
    obtain ⟨hl, rfl⟩ := lexeme_eq_ok.1 hscan
    obtain ⟨s, c₂, hs, h⟩ := bind_eq_ok.1 h
    obtain ⟨rfl, rfl⟩ := pure_eq_ok.1 h
    exact ⟨l, s, hl, hs, rfl⟩
  · rintro ⟨l, s, hl, hs, rfl⟩
    exact ⟨l, _, lexeme_eq_ok.2 ⟨hl, rfl⟩, bind_eq_ok.2 ⟨s, _, hs, pure_eq_ok.2 ⟨rfl, rfl⟩⟩⟩

theorem nameToken_eq_ok {token : List Char} :
    nameToken c = .ok token c' ↔ c.rest.takeWhile isNameChar = token ∧ token ≠ [] ∧
      c.advance token.length = c' := by
  rw [nameToken, lexeme_eq_ok]
  dsimp only
  by_cases h : c.rest.takeWhile isNameChar = []
  · rw [h]
    simp only [List.isEmpty_nil, if_true, Scanned.fail]
    constructor
    · rintro ⟨h, -⟩
      exact absurd h (by simp)
    · rintro ⟨rfl, h, -⟩
      exact absurd rfl h
  · rw [if_neg (by simpa using h)]
    simp only [Scanned.found, Except.ok.injEq]
    constructor
    · rintro ⟨rfl, rfl⟩
      exact ⟨rfl, h, rfl⟩
    · rintro ⟨rfl, -, rfl⟩
      exact ⟨rfl, rfl⟩

theorem name_eq_ok {e : Expr} :
    name c = .ok e c' ↔ ∃ token l s, c.rest.takeWhile isNameChar = token ∧ token ≠ [] ∧
      nameLeaf token = .ok l ∧ tokenSpans (c.advance token.length) = .ok s c' ∧
      e = .leaf l (some s) := by
  rw [name, bind_eq_ok]
  constructor
  · rintro ⟨token, c₁, hread, h⟩
    obtain ⟨htoken, hne, rfl⟩ := nameToken_eq_ok.1 hread
    obtain ⟨s, c₂, hs, h⟩ := bind_eq_ok.1 h
    cases hl : nameLeaf token with
    | ok l =>
      rw [hl] at h
      obtain ⟨rfl, rfl⟩ := pure_eq_ok.1 h
      exact ⟨token, l, s, htoken, hne, hl, hs, rfl⟩
    | error e =>
      rw [hl] at h
      exact absurd h throw_ne_ok
  · rintro ⟨token, l, s, htoken, hne, hl, hs, rfl⟩
    refine ⟨token, _, nameToken_eq_ok.2 ⟨htoken, hne, rfl⟩, bind_eq_ok.2 ⟨s, _, hs, ?_⟩⟩
    rw [hl]
    exact pure_eq_ok.2 ⟨rfl, rfl⟩

/-! ### Brackets -/

/-- The choice whether to go over a comma, before a production. -/
theorem comma_bind (p : Scan β) (c : Cursor) :
    (peek >>= fun x => if x = ',' then next >>= fun _ => p else p) c = p c.skipComma := by
  rw [peek_bind, Cursor.skipComma]
  split_ifs
  · rfl
  · rfl

@[simp]
theorem itemsUntil_zero {closing : Char} {item : Scan α} {xs : List (α × TokenSpans)} :
    itemsUntil closing item 0 c ≠ .ok xs c' := throw_ne_ok

/-- One round of the loop over items, with the choice about the comma moved into the cursor. -/
theorem itemsUntil_succ (closing : Char) (item : Scan α) (fuel : Nat) (c : Cursor) :
    itemsUntil closing item (fuel + 1) c =
      if c.current = closing then .ok [] c
      else if c.current = endMark then .error .endOfInput c
      else (item >>= fun x c₁ => (tokenSpans >>= fun s =>
        itemsUntil closing item fuel >>= fun ys => pure ((x, s) :: ys)) c₁.skipComma) c := by
  rw [itemsUntil, peek_bind]
  split_ifs
  · rfl
  · rfl
  · exact congrArg (fun f => (item >>= f) c) (funext fun x => funext fun c₁ => comma_bind _ c₁)

/-- Items end at the closing bracket; before it there is an item, at most one comma after
it, and more items. -/
theorem itemsUntil_eq_ok {closing : Char} {item : Scan α} {fuel : Nat}
    {xs : List (α × TokenSpans)} :
    itemsUntil closing item (fuel + 1) c = .ok xs c' ↔
      c.current = closing ∧ xs = [] ∧ c = c' ∨
      c.current ≠ closing ∧ c.current ≠ endMark ∧ ∃ x c₁ s c₂ ys, item c = .ok x c₁ ∧
        tokenSpans c₁.skipComma = .ok s c₂ ∧ itemsUntil closing item fuel c₂ = .ok ys c' ∧
        xs = (x, s) :: ys := by
  rw [itemsUntil_succ]
  split_ifs with hclosing hend
  · simp [hclosing, eq_comm]
  · rw [← hend]
    simp [hclosing]
  · constructor
    · intro h
      obtain ⟨x, c₁, hx, h⟩ := bind_eq_ok.1 h
      obtain ⟨s, c₂, hs, h⟩ := bind_eq_ok.1 h
      obtain ⟨ys, c₃, hys, h⟩ := bind_eq_ok.1 h
      obtain ⟨rfl, rfl⟩ := pure_eq_ok.1 h
      exact .inr ⟨hclosing, hend, x, c₁, s, c₂, ys, hx, hs, hys, rfl⟩
    · rintro (⟨h, -⟩ | ⟨-, -, x, c₁, s, c₂, ys, hx, hs, hys, rfl⟩)
      · exact absurd h hclosing
      · exact bind_eq_ok.2 ⟨x, c₁, hx, bind_eq_ok.2 ⟨s, c₂, hs,
          bind_eq_ok.2 ⟨ys, c', hys, pure_eq_ok.2 ⟨rfl, rfl⟩⟩⟩⟩

/-- The test for the opening bracket comes first, so that the rest is a chain of productions. -/
theorem between_eq (opening closing : Char) (item : Scan α) (c : Cursor) :
    between opening closing item c =
      if c.current = opening then
        (tokenSpans >>= fun s c₁ => (itemsUntil closing item (c₁.rest.length + 1) >>= fun xs c₂ =>
          (tokenSpans >>= fun s' =>
            pure (xs.map Prod.fst, ⟨some s, some (xs.map Prod.snd), some s'⟩)) c₂.next) c₁) c.next
      else .error (.noOpening opening c.current) c := by
  rw [between, peek_bind]
  by_cases hopening : c.current = opening
  · rw [if_neg (not_not.2 hopening), if_pos hopening]
    rfl
  · rw [if_pos hopening, if_neg hopening]
    rfl

/-- Brackets: the opening one, the items, and the closing one. -/
theorem between_eq_ok {opening closing : Char} {item : Scan α} {r : List α × BracketSpans} :
    between opening closing item c = .ok r c' ↔ c.current = opening ∧
      ∃ s c₁ xs c₂ s', tokenSpans c.next = .ok s c₁ ∧
        itemsUntil closing item (c₁.rest.length + 1) c₁ = .ok xs c₂ ∧
        tokenSpans c₂.next = .ok s' c' ∧
        r = (xs.map Prod.fst, ⟨some s, some (xs.map Prod.snd), some s'⟩) := by
  rw [between_eq]
  split_ifs with hopening
  · constructor
    · intro h
      obtain ⟨s, c₁, hs, h⟩ := bind_eq_ok.1 h
      obtain ⟨xs, c₂, hxs, h⟩ := bind_eq_ok.1 h
      obtain ⟨s', c₃, hs', h⟩ := bind_eq_ok.1 h
      obtain ⟨rfl, rfl⟩ := pure_eq_ok.1 h
      exact ⟨hopening, s, c₁, xs, c₂, s', hs, hxs, hs', rfl⟩
    · rintro ⟨-, s, c₁, xs, c₂, s', hs, hxs, hs', rfl⟩
      exact bind_eq_ok.2 ⟨s, c₁, hs, bind_eq_ok.2 ⟨xs, c₂, hxs,
        bind_eq_ok.2 ⟨s', c', hs', pure_eq_ok.2 ⟨rfl, rfl⟩⟩⟩⟩
  · simp [hopening]

theorem itemsOf_eq_ok {enclosure : Enclosure} {opening closing : Char} {expr : Scan Expr}
    {e : Expr} :
    itemsOf enclosure opening closing expr c = .ok e c' ↔
      ∃ values spans, between opening closing expr c = .ok (values, spans) c' ∧
        e = .items enclosure values spans := by
  rw [itemsOf, bind_eq_ok]
  constructor
  · rintro ⟨⟨values, spans⟩, c₁, hb, h⟩
    obtain ⟨rfl, rfl⟩ := pure_eq_ok.1 h
    exact ⟨values, spans, hb, rfl⟩
  · rintro ⟨values, spans, hb, rfl⟩
    exact ⟨(values, spans), c', hb, pure_eq_ok.2 ⟨rfl, rfl⟩⟩

theorem mapOf_eq_ok {expr : Scan Expr} {e : Expr} :
    mapOf expr c = .ok e c' ↔
      ∃ fields spans, between '{' '}' (fieldOf expr) c = .ok (fields, spans) c' ∧
        e = .map fields spans := by
  rw [mapOf, bind_eq_ok]
  constructor
  · rintro ⟨⟨fields, spans⟩, c₁, hb, h⟩
    obtain ⟨rfl, rfl⟩ := pure_eq_ok.1 h
    exact ⟨fields, spans, hb, rfl⟩
  · rintro ⟨fields, spans, hb, rfl⟩
    exact ⟨(fields, spans), c', hb, pure_eq_ok.2 ⟨rfl, rfl⟩⟩

/-! ### Fields -/

theorem colonKey?_eq_some {e : Expr} {cs : List Char} {spans : TokenSpans} {token : Span} :
    colonKey? e = some (cs, spans, token) ↔ ∃ name space,
      e = .leaf (.atom name) (some ⟨some token, space⟩) ∧ name.toList.getLast? = some ':' ∧
      cs = name.toList ∧ spans = ⟨some token, space⟩ := by
  unfold colonKey?
  constructor
  · intro h
    split at h
    · next name token' space =>
      split_ifs at h with hlast
      · cases h
        exact ⟨name, space, rfl, hlast, rfl, rfl⟩
    · exact absurd h (by simp)
  · rintro ⟨name, space, rfl, hlast, rfl, rfl⟩
    simp [hlast]

theorem liftSpan_eq_ok {x : Except SpanFault α} {y : α} :
    liftSpan x c = .ok y c' ↔ x = .ok y ∧ c = c' := by
  cases x with
  | ok a => simp [liftSpan]
  | error e => simp [liftSpan]

/-- A key token is cut into the key, nothing, and the colon. -/
theorem cutKey_eq_ok {cs : List Char} {spans : TokenSpans} {token : Span} {k : Expr}
    {colon : TokenSpans} :
    cutKey cs spans token c = .ok (k, colon) c' ↔ c = c' ∧ ∃ key gap stop,
      token.slice none (some (-1)) = .ok key ∧ token.slice (some (-1)) (some (-1)) = .ok gap ∧
      token.slice (some (-1)) none = .ok stop ∧
      k = .leaf (.atom (String.ofList cs.dropLast)) (some ⟨some key, some gap⟩) ∧
      colon = ⟨some stop, spans.space⟩ := by
  constructor
  · intro h
    obtain ⟨key, c₁, hcut, h⟩ := bind_eq_ok.1 h
    obtain ⟨hkey, rfl⟩ := liftSpan_eq_ok.1 hcut
    obtain ⟨gap, c₂, hcut, h⟩ := bind_eq_ok.1 h
    obtain ⟨hgap, rfl⟩ := liftSpan_eq_ok.1 hcut
    obtain ⟨stop, c₃, hcut, h⟩ := bind_eq_ok.1 h
    obtain ⟨hstop, rfl⟩ := liftSpan_eq_ok.1 hcut
    obtain ⟨heq, rfl⟩ := pure_eq_ok.1 h
    cases heq
    exact ⟨rfl, key, gap, stop, hkey, hgap, hstop, rfl, rfl⟩
  · rintro ⟨rfl, key, gap, stop, hkey, hgap, hstop, rfl, rfl⟩
    exact bind_eq_ok.2 ⟨key, c, liftSpan_eq_ok.2 ⟨hkey, rfl⟩, bind_eq_ok.2 ⟨gap, c,
      liftSpan_eq_ok.2 ⟨hgap, rfl⟩, bind_eq_ok.2 ⟨stop, c, liftSpan_eq_ok.2 ⟨hstop, rfl⟩,
      pure_eq_ok.2 ⟨rfl, rfl⟩⟩⟩⟩

/-- The colon of a key that does not end in one is a token of its own. -/
theorem keyOf_of_ok {expr : Scan Expr} {key : Expr} {c₁ : Cursor} (h : expr c = .ok key c₁) :
    keyOf expr c = match colonKey? key with
      | some (cs, spans, token) => cutKey cs spans token c₁
      | none =>
        if c₁.current = ':' then (tokenSpans >>= fun s => pure (key, s)) c₁.next
        else .error (.noColon c₁.current) c₁ := by
  rw [keyOf, bind_of_ok h]
  cases colonKey? key with
  | some cut => rfl
  | none =>
    dsimp only
    rw [peek_bind]
    by_cases hcolon : c₁.current = ':'
    · rw [if_neg (not_not.2 hcolon), if_pos hcolon]
      rfl
    · rw [if_pos hcolon, if_neg hcolon]
      rfl

/-- A key ends in its colon, which is then cut off, or its colon follows. -/
theorem keyOf_eq_ok {expr : Scan Expr} {k : Expr} {colon : TokenSpans} :
    keyOf expr c = .ok (k, colon) c' ↔ ∃ key c₁, expr c = .ok key c₁ ∧
      ((∃ cs spans token, colonKey? key = some (cs, spans, token) ∧
          cutKey cs spans token c₁ = .ok (k, colon) c') ∨
        colonKey? key = none ∧ c₁.current = ':' ∧ tokenSpans c₁.next = .ok colon c' ∧ k = key) := by
  constructor
  · intro h
    obtain ⟨key, c₁, hkey, -⟩ := bind_eq_ok.1 h
    rw [keyOf_of_ok hkey] at h
    refine ⟨key, c₁, hkey, ?_⟩
    cases hcut : colonKey? key with
    | some cut =>
      rw [hcut] at h
      exact .inl ⟨cut.1, cut.2.1, cut.2.2, rfl, h⟩
    | none =>
      rw [hcut] at h
      dsimp only at h
      split_ifs at h with hcolon
      · obtain ⟨s, c₂, hs, h⟩ := bind_eq_ok.1 h
        obtain ⟨heq, rfl⟩ := pure_eq_ok.1 h
        cases heq
        exact .inr ⟨rfl, hcolon, hs, rfl⟩
  · rintro ⟨key, c₁, hkey, ⟨cs, spans, token, hcut, h⟩ | ⟨hcut, hcolon, hs, rfl⟩⟩
    · rw [keyOf_of_ok hkey, hcut]
      exact h
    · rw [keyOf_of_ok hkey, hcut]
      dsimp only
      rw [if_pos hcolon]
      exact bind_eq_ok.2 ⟨colon, c', hs, pure_eq_ok.2 ⟨rfl, rfl⟩⟩

theorem fieldOf_eq_ok {expr : Scan Expr} {f : Field} :
    fieldOf expr c = .ok f c' ↔ ∃ k colon c₁ v, keyOf expr c = .ok (k, colon) c₁ ∧
      expr c₁ = .ok v c' ∧ f = ⟨k, v, some colon⟩ := by
  rw [fieldOf, bind_eq_ok]
  constructor
  · rintro ⟨⟨k, colon⟩, c₁, hk, h⟩
    obtain ⟨v, c₂, hv, h⟩ := bind_eq_ok.1 h
    obtain ⟨rfl, rfl⟩ := pure_eq_ok.1 h
    exact ⟨k, colon, c₁, v, hk, hv, rfl⟩
  · rintro ⟨k, colon, c₁, v, hk, hv, rfl⟩
    exact ⟨(k, colon), c₁, hk, bind_eq_ok.2 ⟨v, c', hv, pure_eq_ok.2 ⟨rfl, rfl⟩⟩⟩

/-! ### Expressions -/

/-- An expression that starts with the given character, whose parts are read by `expr`. -/
def exprOf (expr : Scan Expr) (x : Char) : Scan Expr :=
  if x = endMark then throw .endOfInput
  else if x = '(' then itemsOf .group '(' ')' expr
  else if x = '[' then itemsOf .sequence '[' ']' expr
  else if x = '"' || x = '\'' then string x
  else if x = '#' then raw
  else if x = '{' then mapOf expr
  else if isNameChar x then name
  else throw (.noExpression x)

/-- An expression is read by its first character after white space and comments. -/
theorem exprWithin_append (depth : Nat) {g r : List Char}
    (h : layoutLength false (g ++ r) = g.length) (b t : List Char) (m p : Pos) :
    exprWithin (depth + 1) ⟨b, t, g ++ r, m, p⟩ =
      exprOf (exprWithin depth) (r.headD endMark)
        (Cursor.settled (g.reverse ++ t ++ b) r (p.forwardOver g)) := by
  rw [exprWithin, bind_of_ok (layout_append h b t m p), peek_bind, Cursor.settled_current]
  rfl

theorem exprWithin_eq_exprOf (depth : Nat) {r : List Char} (hr : layoutLength false r = 0)
    (b : List Char) (p : Pos) :
    exprWithin (depth + 1) (Cursor.settled b r p) =
      exprOf (exprWithin depth) (r.headD endMark) (Cursor.settled b r p) :=
  exprWithin_append depth (g := []) hr b [] p p

theorem exists_exprWithin_eq (depth : Nat) (c : Cursor) :
    ∃ c₁, exprWithin (depth + 1) c = exprOf (exprWithin depth) c₁.current c₁ := by
  obtain ⟨b, t, r, m, p⟩ := c
  obtain ⟨g, r', rfl, hg, -, -⟩ := exists_layout false r
  exact ⟨Cursor.settled (g.reverse ++ t ++ b) r' (p.forwardOver g),
    exprWithin_append depth hg b t m p⟩

theorem expr_eq (c : Cursor) : expr c = exprWithin (c.rest.length + 1) c := by
  rw [expr, bounded, remaining_bind, id_eq]

/-! ### Documents -/

@[simp]
theorem exprsUntilEnd_zero {es : List Expr} : exprsUntilEnd 0 c ≠ .ok es c' := throw_ne_ok

theorem exprsUntilEnd_succ (fuel : Nat) (c : Cursor) :
    exprsUntilEnd (fuel + 1) c =
      if c.current = endMark then .ok [] c
      else (expr >>= fun e => exprsUntilEnd fuel >>= fun es => pure (e :: es)) c := by
  rw [exprsUntilEnd, peek_bind]
  split_ifs
  · rfl
  · rfl

theorem exprsUntilEnd_eq_ok {fuel : Nat} {es : List Expr} :
    exprsUntilEnd (fuel + 1) c = .ok es c' ↔
      c.current = endMark ∧ es = [] ∧ c = c' ∨
      c.current ≠ endMark ∧ ∃ e c₁ es', exprWithin (c.rest.length + 1) c = .ok e c₁ ∧
        exprsUntilEnd fuel c₁ = .ok es' c' ∧ es = e :: es' := by
  rw [exprsUntilEnd_succ, ← expr_eq]
  split_ifs with hend
  · simp [hend, eq_comm]
  · constructor
    · intro h
      obtain ⟨e, c₁, he, h⟩ := bind_eq_ok.1 h
      obtain ⟨es', c₂, hes, h⟩ := bind_eq_ok.1 h
      obtain ⟨rfl, rfl⟩ := pure_eq_ok.1 h
      exact .inr ⟨hend, e, c₁, es', he, hes, rfl⟩
    · rintro (⟨h, -⟩ | ⟨-, e, c₁, es', he, hes, rfl⟩)
      · exact absurd h hend
      · exact bind_eq_ok.2 ⟨e, c₁, he, bind_eq_ok.2 ⟨es', c', hes, pure_eq_ok.2 ⟨rfl, rfl⟩⟩⟩

end Scan

/-- A text is read from its first character that is neither white space nor part of a
comment. -/
theorem Document.read_append {g r : List Char} (h : layoutLength false (g ++ r) = g.length) :
    Document.read (String.ofList (g ++ r)) =
      match Scan.exprsUntilEnd (r.length + 1)
          (Cursor.settled g.reverse r (Pos.origin.forwardOver g)) with
      | .ok es _ => .ok ⟨es, some ⟨Pos.origin, Pos.origin.forwardOver g, String.ofList g⟩⟩
      | .error e _ => .error e := by
  rw [Document.read, String.toList_ofList, Cursor.ofText, Scan.document,
    bind_of_ok (Scan.layout_append h [] [] Pos.origin Pos.origin), Scan.remaining_bind]
  simp only [List.reverse_nil, List.nil_append, List.append_nil, Cursor.settled_rest]
  cases hes : Scan.exprsUntilEnd (r.length + 1)
    (Cursor.settled g.reverse r (Pos.origin.forwardOver g)) with
  | ok es c => rw [bind_of_ok hes]; rfl
  | error e c => rw [bind_of_error hes]

theorem Document.exists_of_isOk {src : String} {spans : Bool}
    (h : (Document.parse src spans).isOk = true) : ∃ d, Document.parse src spans = .ok d := by
  cases hparse : Document.parse src spans with
  | ok d => exact ⟨d, rfl⟩
  | error e =>
    rw [hparse] at h
    exact absurd h (by simp [Except.isOk, Except.toBool])

end Sexpr
