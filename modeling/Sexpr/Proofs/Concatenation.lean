/-
Texts one after the other.

A text that can be read, a new line, and a second text are read as the expressions of the
first followed by those of the second; if the second cannot be read, the whole has its
fault. A comment at the end of the first text ends with its line.

* `Scan.continues_exprsUntilEnd` — expressions are read alike wherever they stand;
* `Scan.exprsUntilEnd_append` — the expressions of the first text are read, and then what
  follows;
* `Document.readPlain_eq` — a text is read from any cursor in front of it;
* `Document.parse_append_newline` — two texts.
-/
import Sexpr.Proofs.Continuation

namespace Sexpr

open EStateM (bind_of_ok bind_of_error)

namespace Scan

variable {t r : List Char}

theorem exprsUntilEnd_of_end (fuel : Nat) {r : List Char} (h : r.headD endMark = endMark)
    (b : List Char) (p : Pos) :
    exprsUntilEnd (fuel + 1) (Cursor.settled b r p) = .ok [] (Cursor.settled b r p) :=
  (exprsUntilEnd_succ fuel _).trans (if_pos h)

theorem expr_bind {β : Type} (f : Expr → Scan β) (c : Cursor) :
    (expr >>= f) c = (exprWithin (c.rest.length + 1) >>= f) c := by
  show EStateM.bind expr f c = EStateM.bind _ f c
  rw [EStateM.bind, EStateM.bind, expr_eq]

theorem exprsUntilEnd_of_ne (fuel : Nat) {r : List Char} (h : r.headD endMark ≠ endMark)
    (b : List Char) (p : Pos) :
    exprsUntilEnd (fuel + 1) (Cursor.settled b r p) =
      (exprWithin (r.length + 1) >>= fun e => exprsUntilEnd fuel >>= fun es => pure (e :: es))
        (Cursor.settled b r p) := by
  rw [exprsUntilEnd_succ, if_neg (show ¬(Cursor.settled b r p).current = endMark from h), expr_bind,
    Cursor.settled_rest]

/-- The expressions of a text are read alike wherever it stands, with any bound on their
number that the length of the text does not reach. -/
theorem continues_exprsUntilEnd {fuel fuel' : Nat} (hr : layoutLength false r = 0)
    (hfuel : r.length < fuel) (hfuel' : r.length < fuel') (b b' : List Char) (p p' : Pos) :
    Continues [] (fun es es' _ => es.map Expr.dropSpans = es'.map Expr.dropSpans) r
      (exprsUntilEnd fuel (Cursor.settled b r p)) (exprsUntilEnd fuel' (Cursor.settled b' r p')) := by
  induction fuel generalizing r fuel' b b' p p' with
  | zero => exact absurd hfuel (Nat.not_lt_zero _)
  | succ fuel ih =>
    obtain ⟨fuel', rfl⟩ := Nat.exists_eq_succ_of_ne_zero (Nat.ne_zero_of_lt hfuel')
    have hstay : ∀ {r : List Char}, layoutLength false r = 0 → afterLayout (r ++ []) = r :=
      fun h => by rw [List.append_nil, afterLayout_of_zero h]
    by_cases hend : r.headD endMark = endMark
    · rw [exprsUntilEnd_of_end fuel hend, exprsUntilEnd_of_end fuel' hend]
      have hok : Continues [] (fun es es' _ => es.map Expr.dropSpans = es'.map Expr.dropSpans) r
          (.ok [] (Cursor.settled b r p)) (.ok [] (Cursor.settled b' (afterLayout (r ++ [])) p')) :=
        .ok List.suffix_rfl hr rfl
      rwa [hstay hr] at hok
    · rw [exprsUntilEnd_of_ne fuel hend, exprsUntilEnd_of_ne fuel' hend]
      have hexpr := readsOn_exprWithin (t := []) (.inl rfl) _ _ le_rfl le_rfl hr
        (Nat.lt_succ_self r.length) b b' p p'
      rw [hstay hr] at hexpr
      refine Continues.bind hexpr ?_
      intro e e' r' b b' p p' hr' hlayout ⟨he, hlt⟩
      rw [hstay hlayout]
      refine Continues.bind ((ih hlayout (by omega) (by omega) b b' p p').mono hr' fun _ h => h) ?_
      intro es es' r₂ b b' p p' hr₂ hlayout₂ hes
      exact .ok hr₂ hlayout₂ (by rw [List.map_cons, List.map_cons, he.same, hes])

/-- The expressions of a text are read again when more follows on a new line, and reading
goes on after the layout between. -/
theorem exprsUntilEnd_append (ht : OnNewLine t) {fuel fuel' : Nat} {es : List Expr} {c : Cursor}
    {b : List Char} {p : Pos} (hr : layoutLength false r = 0) (hmark : endMark ∉ r)
    (h : exprsUntilEnd fuel (Cursor.settled b r p) = .ok es c)
    (hfuel' : (afterLayout (r ++ t)).length < fuel') (b' : List Char) (p' : Pos) :
    ∃ es' k b₁ p₁, es'.map Expr.dropSpans = es.map Expr.dropSpans ∧ (afterLayout t).length < k ∧
      (∀ zs c, exprsUntilEnd k (Cursor.settled b₁ (afterLayout t) p₁) = .ok zs c →
        exprsUntilEnd fuel' (Cursor.settled b' (afterLayout (r ++ t)) p') = .ok (es' ++ zs) c) ∧
      ∀ e c, exprsUntilEnd k (Cursor.settled b₁ (afterLayout t) p₁) = .error e c →
        exprsUntilEnd fuel' (Cursor.settled b' (afterLayout (r ++ t)) p') = .error e c := by
  induction fuel generalizing r fuel' es b b' p p' with
  | zero => exact absurd h exprsUntilEnd_zero
  | succ fuel ih =>
    cases r with
    | nil =>
      obtain ⟨-, rfl, -⟩ | ⟨hne, -⟩ := exprsUntilEnd_eq_ok.1 h
      · exact ⟨[], fuel', b', p', rfl, hfuel', fun _ _ h => h, fun _ _ h => h⟩
      · exact absurd rfl hne
    | cons x r =>
      have hx : (x :: r).headD endMark ≠ endMark := by
        rw [List.mem_cons, not_or] at hmark
        exact Ne.symm hmark.1
      obtain ⟨hend, -⟩ | ⟨-, e, c₁, es, he, hes, rfl⟩ := exprsUntilEnd_eq_ok.1 h
      · exact absurd hend hx
      obtain ⟨fuel', rfl⟩ := Nat.exists_eq_succ_of_ne_zero (Nat.ne_zero_of_lt hfuel')
      -- the first expression is read in both texts
      have hexpr := readsOn_exprWithin ht ((x :: r).length + 1) ((x :: r ++ t).length + 1) le_rfl
        (by simp) hr (Nat.lt_succ_self (x :: r).length) b b' p p'
      rw [afterLayout_append_of_ne hr (by simp)] at hexpr hfuel' ⊢
      generalize hB : exprWithin ((x :: r ++ t).length + 1)
        (Cursor.settled b' (x :: r ++ t) p') = B at hexpr
      rw [Cursor.settled_rest] at he
      rw [he] at hexpr
      cases hexpr with
      | @ok _ e' r' b₁ b₁' p₁ p₁' hr' hlayout htwins =>
        have hshort : (afterLayout (r' ++ t)).length < fuel' := by
          have := length_afterLayout_le (r' ++ t)
          have := htwins.2
          simp only [List.length_append, List.length_cons] at *
          omega
        obtain ⟨es', k, b₂, p₂, hsame, hk, hok, herror⟩ := ih hlayout
          (fun hmem => hmark (hr'.subset hmem)) hes hshort b₁' p₁'
        have hx' : (x :: r ++ t).headD endMark ≠ endMark := hx
        refine ⟨e' :: es', k, b₂, p₂, by simp [hsame, htwins.1.same], hk, ?_, ?_⟩
        · intro zs c hzs
          rw [exprsUntilEnd_of_ne fuel' hx', bind_of_ok hB, bind_of_ok (hok zs c hzs)]
          rfl
        · intro e₂ c hzs
          rw [exprsUntilEnd_of_ne fuel' hx', bind_of_ok hB, bind_of_error (herror e₂ c hzs)]

end Scan

/-- What reading a text without spans gives, by the outcome of its expressions. -/
def Document.ofOutcome : EStateM.Result ReadFault Cursor (List Expr) → Except ReadFault Document
  | .ok es _ => .ok ⟨es.map Expr.dropSpans, none⟩
  | .error e _ => .error e

/-- A text is read from any cursor in front of it. -/
theorem Document.readPlain_eq (src : String) {fuel : Nat}
    (hfuel : (afterLayout src.toList).length < fuel) (b : List Char) (p : Pos) :
    Document.readPlain src = Document.ofOutcome
      (Scan.exprsUntilEnd fuel (Cursor.settled b (afterLayout src.toList) p)) := by
  obtain ⟨g, hsplit, hg⟩ := exists_afterLayout src.toList
  generalize hr : afterLayout src.toList = r at *
  have hread := Document.read_append hg
  rw [← hsplit, String.ofList_toList] at hread
  rw [Document.readPlain, hread]
  have hsame := Scan.continues_exprsUntilEnd hg.layoutLength_eq (Nat.lt_succ_self _) hfuel
    g.reverse b (Pos.origin.forwardOver g) p
  generalize Scan.exprsUntilEnd fuel (Cursor.settled b r p) = B at hsame
  cases hA : Scan.exprsUntilEnd (r.length + 1)
      (Cursor.settled g.reverse r (Pos.origin.forwardOver g)) with
  | ok es c =>
    rw [hA] at hsame
    cases hsame with
    | ok _ _ hes =>
      simp only [Except.map, Document.dropSpans, Document.ofOutcome, Expr.dropSpansAll_eq_map, hes]
  | error e c =>
    rw [hA] at hsame
    cases hsame with
    | error _ hsame =>
      obtain ⟨c', rfl⟩ := hsame rfl
      rfl

/-- Two texts on lines of their own are read one after the other. -/
theorem Document.parse_append_newline {s₁ : String} {d₁ : Document} (hmark : endMark ∉ s₁.toList)
    (h : Document.parse s₁ false = .ok d₁) (s₂ : String) :
    Document.parse (s₁ ++ "\n" ++ s₂) false =
      (Document.parse s₂ false).map fun d₂ => ⟨d₁.exprs ++ d₂.exprs, none⟩ := by
  change Document.readPlain s₁ = .ok d₁ at h
  change Document.readPlain (s₁ ++ "\n" ++ s₂) = (Document.readPlain s₂).map _
  obtain ⟨g, hsplit, hg⟩ := exists_afterLayout s₁.toList
  generalize hr : afterLayout s₁.toList = r at *
  have ht : OnNewLine ('\n' :: s₂.toList) := .inr ⟨_, rfl⟩
  -- layout goes on over the end of the first text
  have hrest : afterLayout (s₁ ++ "\n" ++ s₂).toList = afterLayout (r ++ '\n' :: s₂.toList) := by
    rw [← afterLayout_append ht hg, ← List.append_assoc, ← hsplit]
    simp
  rw [Document.readPlain_eq s₁ (Nat.lt_succ_self _) [] Pos.origin, hr] at h
  cases hes : Scan.exprsUntilEnd (r.length + 1) (Cursor.settled [] r Pos.origin) with
  | error e c =>
    rw [hes] at h
    cases h
  | ok es c =>
    rw [hes] at h
    cases h
    have hmark' : endMark ∉ r := fun hmem => hmark (by rw [hsplit]; simp [hmem])
    obtain ⟨es', k, b, p, hsame, hk, hok, herror⟩ := Scan.exprsUntilEnd_append ht
      hg.layoutLength_eq hmark' hes (Nat.lt_succ_self _) [] Pos.origin
    rw [afterLayout_newline] at hk hok herror
    rw [Document.readPlain_eq s₂ hk b p, Document.readPlain_eq _ (Nat.lt_succ_self _) [] Pos.origin,
      hrest]
    cases hzs : Scan.exprsUntilEnd k (Cursor.settled b (afterLayout s₂.toList) p) with
    | ok zs c =>
      rw [hok zs c hzs]
      simp [Document.ofOutcome, Except.map, hsame]
    | error e c =>
      rw [herror e c hzs]
      rfl

/-- The first text ends inside a comment; the second is read, or it starts with no
expression. -/
theorem Document.parse_append_newline_comment :
    endMark ∉ "a ; (b".toList ∧
      Document.parse "a ; (b" false = .ok ⟨[.leaf (.atom "a") none], none⟩ ∧
      Document.parse ("a ; (b" ++ "\n" ++ "c") false =
        .ok ⟨[.leaf (.atom "a") none, .leaf (.atom "c") none], none⟩ ∧
      Document.parse ("a ; (b" ++ "\n" ++ ")") false = .error (.noExpression ')') := by
  have hmark : endMark ∉ "a ; (b".toList := by decide
  have hfirst : Document.parse "a ; (b" false = .ok ⟨[.leaf (.atom "a") none], none⟩ := by
    decide +kernel
  have hsecond : Document.parse "c" false = .ok ⟨[.leaf (.atom "c") none], none⟩ := by
    decide +kernel
  have hfault : Document.parse ")" false = .error (.noExpression ')') := by decide +kernel
  refine ⟨hmark, hfirst, ?_, ?_⟩
  · rw [Document.parse_append_newline hmark hfirst "c", hsecond]
    rfl
  · rw [Document.parse_append_newline hmark hfirst ")", hfault]
    rfl

end Sexpr
