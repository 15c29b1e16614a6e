/-
Reading a text that goes on.

What a production does in front of a text does not depend on where the text stands, nor on
a bound on its steps that is large enough. If it succeeds, it succeeds again when more text
follows on a new line: then only the layout at the end of the text goes on. If it fails,
the text shows why.

* `afterLayout` — the text after white space and comments;
* `Scan.Continues` — the outcomes in front of a text, and in front of the text and more;
* `Scan.continues_itemsUntil`, `Scan.continues_between` — brackets;
* `Scan.readsOn_exprWithin` — expressions, by induction on the length of the text.
-/
import Sexpr.Proofs.Acceptance
import Sexpr.Proofs.ScanFaults
import Sexpr.Proofs.Sourced

namespace Sexpr

open EStateM (bind_of_ok bind_of_error)

/-! ### Layout at the end of a text -/

/-- The text after the white space and the comments in front of it. -/
def afterLayout (cs : List Char) : List Char := cs.drop (layoutLength false cs)

/-- Text that may follow: none, or some on a new line. -/
def OnNewLine (t : List Char) : Prop := t = [] ∨ ∃ s, t = '\n' :: s

theorem afterLayout_of_zero {r : List Char} (h : layoutLength false r = 0) : afterLayout r = r := by
  rw [afterLayout, h, List.drop_zero]

theorem exists_afterLayout (cs : List Char) :
    ∃ g, cs = g ++ afterLayout cs ∧ GapBefore g (afterLayout cs) := by
  obtain ⟨g, r, rfl, hg, -, -⟩ := exists_layout false cs
  have hafter : afterLayout (g ++ r) = r := by rw [afterLayout, hg, List.drop_left]
  exact ⟨g, by rw [hafter], by rw [hafter]; exact hg⟩

theorem layoutLength_afterLayout (cs : List Char) : layoutLength false (afterLayout cs) = 0 := by
  obtain ⟨g, -, hg⟩ := exists_afterLayout cs
  exact hg.layoutLength_eq

theorem length_afterLayout_le (cs : List Char) : (afterLayout cs).length ≤ cs.length := by
  rw [afterLayout, List.length_drop]
  omega

/-- Layout in front of a text that goes on does not depend on what comes later. -/
theorem layoutLength_append_of_ne {comment : Bool} {g r : List Char} (hr : r ≠ [])
    (h : layoutLength comment (g ++ r) = g.length) (t : List Char) :
    layoutLength comment (g ++ (r ++ t)) = g.length := by
  induction g generalizing comment with
  | nil =>
    obtain ⟨c, r, rfl⟩ := List.exists_cons_of_ne_nil hr
    rw [List.nil_append, List.length_nil, layoutLength] at h
    rw [List.nil_append, List.length_nil, List.cons_append, layoutLength]
    split_ifs at h ⊢ <;> omega
  | cons c g ih =>
    obtain ⟨-, comment', hlen, hstep, -⟩ := layoutLength_cons_eq h
    rw [List.cons_append, hstep, ih hlen, List.length_cons]
    omega

/-- A new line ends whatever comment was left open. -/
theorem layoutLength_append_newline {comment : Bool} {g : List Char}
    (h : layoutLength comment g = g.length) (s : List Char) :
    layoutLength comment (g ++ '\n' :: s) = g.length + (1 + layoutLength false s) := by
  induction g generalizing comment with
  | nil =>
    rw [List.nil_append, List.length_nil, Nat.zero_add, layoutLength, if_neg (by decide)]
    cases comment with
    | false => rw [if_neg (by decide), if_pos isSpace_newline]
    | true => rw [if_pos rfl]; rfl
  | cons c g ih =>
    obtain ⟨-, comment', hlen, hstep, -⟩ := layoutLength_cons_eq h
    rw [List.cons_append, hstep, ih hlen, List.length_cons]
    omega

theorem afterLayout_newline (s : List Char) : afterLayout ('\n' :: s) = afterLayout s := by
  have hnewline : layoutLength false ('\n' :: s) = 0 + (1 + layoutLength false s) :=
    layoutLength_append_newline (g := []) rfl s
  rw [afterLayout, hnewline, Nat.zero_add, Nat.add_comm, List.drop_succ_cons, afterLayout]

theorem afterLayout_append_of_ne {r : List Char} (h : layoutLength false r = 0) (hr : r ≠ [])
    (t : List Char) : afterLayout (r ++ t) = r ++ t :=
  afterLayout_of_zero (layoutLength_append_of_ne (g := []) hr h t)

/-- Layout is gone over together with the layout that follows. -/
theorem afterLayout_append {g r t : List Char} (ht : OnNewLine t) (h : GapBefore g r) :
    afterLayout (g ++ (r ++ t)) = afterLayout (r ++ t) := by
  by_cases hr : r = []
  · subst hr
    rw [GapBefore, List.append_nil] at h
    rw [List.nil_append]
    rcases ht with rfl | ⟨s, rfl⟩
    · rw [List.append_nil, afterLayout, h, List.drop_length]
      rfl
    · rw [afterLayout_newline, afterLayout, layoutLength_append_newline h, List.drop_append,
        List.drop_eq_nil_of_le (by omega), List.nil_append, Nat.add_sub_cancel_left, Nat.add_comm,
        List.drop_succ_cons, afterLayout]
  · rw [afterLayout_append_of_ne h.layoutLength_eq hr, afterLayout,
      layoutLength_append_of_ne hr h, List.drop_left]

theorem OnNewLine.delimits {t : List Char} (h : OnNewLine t) : Delimits t := by
  rcases h with rfl | ⟨s, rfl⟩
  · exact delimits_nil
  · exact isNameChar_of_isSpace isSpace_newline

/-! ### Outcomes -/

/-- The span of an atom is that of its name, which stands on one line. -/
def Expr.OwnsToken : Expr → Prop
  | .leaf (.atom name) spans => '\n' ∉ name.toList ∧
      ∃ p space, spans = some ⟨some ⟨p, p.forwardOver name.toList, name⟩, space⟩
  | _ => True

/-- Two readings of one expression, which differ in where it stands. -/
structure Expr.Twins (e e' : Expr) : Prop where
  same : e.dropSpans = e'.dropSpans
  token : e.OwnsToken
  token' : e'.OwnsToken

namespace Scan

variable {α β γ : Type} {t r : List Char}

/-- The outcome of a production in front of `r`, and its outcome when `t` follows. A result
comes back up to `R`, in front of the same text after the layout; a fault is shown in `r`,
and it comes back if nothing follows. -/
inductive Continues (t : List Char) (R : α → α → List Char → Prop) (r : List Char) :
    EStateM.Result ReadFault Cursor α → EStateM.Result ReadFault Cursor α → Prop
  | ok {x x' : α} {r' b b' : List Char} {p p' : Pos} (hr : r' <:+ r)
      (hlayout : layoutLength false r' = 0) (h : R x x' r') :
      Continues t R r (.ok x (Cursor.settled b r' p))
        (.ok x' (Cursor.settled b' (afterLayout (r' ++ t)) p'))
  | error {e : ReadFault} {c : Cursor} {y : EStateM.Result ReadFault Cursor α}
      (he : e.ShownIn r) (h : t = [] → ∃ c', y = .error e c') : Continues t R r (.error e c) y

/-- One production after another. -/
theorem Continues.bind {R : α → α → List Char → Prop} {S : β → β → List Char → Prop}
    {p q : Scan α} {f g : α → Scan β} {c c' : Cursor} (h : Continues t R r (p c) (q c'))
    (hf : ∀ {x x' r' b b' pos pos'}, r' <:+ r → layoutLength false r' = 0 → R x x' r' →
      Continues t S r (f x (Cursor.settled b r' pos))
        (g x' (Cursor.settled b' (afterLayout (r' ++ t)) pos'))) :
    Continues t S r ((p >>= f) c) ((q >>= g) c') := by
  generalize hA : p c = A at h
  generalize hB : q c' = B at h
  cases h with
  | ok hr hlayout hR =>
    rw [bind_of_ok hA, bind_of_ok hB]
    exact hf hr hlayout hR
  | error he hsame =>
    rw [bind_of_error hA]
    refine .error he fun ht => ?_
    obtain ⟨c₁, rfl⟩ := hsame ht
    exact ⟨c₁, bind_of_error hB⟩

/-- The text may be longer at the front. -/
theorem Continues.mono {R S : α → α → List Char → Prop} {r₀ : List Char}
    {A B : EStateM.Result ReadFault Cursor α} (h : Continues t R r A B) (hr : r <:+ r₀)
    (hRS : ∀ {x x' r'}, r' <:+ r → R x x' r' → S x x' r') : Continues t S r₀ A B := by
  cases h with
  | ok hr' hlayout hR => exact .ok (hr'.trans hr) hlayout (hRS hr' hR)
  | error he hsame => exact .error (he.mono hr.isInfix) hsame

/-- A fault of the grammar, which comes back if nothing follows. -/
theorem continues_of_isSyntax {R : α → α → List Char → Prop} {e : ReadFault} {c : Cursor}
    {y : EStateM.Result ReadFault Cursor α} (he : e.isSyntax = true)
    (h : t = [] → ∃ c', y = .error e c') : Continues t R r (.error e c) y :=
  .error (ReadFault.shownIn_of_isSyntax he r) h

/-! ### Tokens -/

/-- The token `k` has been gone over. Its span is captured with the layout after it. -/
theorem continues_tokenSpans (ht : OnNewLine t) (k r b b' : List Char) (m m' p p' : Pos) :
    Continues t (fun s s' _ => s.token = some ⟨m, p, String.ofList k.reverse⟩ ∧
        s'.token = some ⟨m', p', String.ofList k.reverse⟩) r
      (tokenSpans ⟨b, k, r, m, p⟩) (tokenSpans ⟨b', k, r ++ t, m', p'⟩) := by
  obtain ⟨g, r', rfl, hg, -, hr'⟩ := exists_layout false r
  obtain ⟨g', hsplit, hg'⟩ := exists_afterLayout (g ++ r' ++ t)
  rw [tokenSpans_append hg, hsplit, tokenSpans_append hg', List.append_assoc,
    afterLayout_append ht hg]
  exact .ok (List.suffix_append g r') hr' ⟨rfl, rfl⟩

theorem lexeme_of_error {scan : List Char → Scanned α} {c : Cursor} {e : ReadFault}
    (h : (scan c.rest).outcome = .error e) :
    lexeme scan c = .error e (c.advance (scan c.rest).length) := by
  unfold lexeme
  dsimp only
  rw [h]

/-- A token that ends at its own end, whatever follows. -/
theorem continues_leafOf {scan : List Char → Scanned Leaf} (ht : OnNewLine t)
    (hwithin : ∀ cs, (scan cs).Within cs) (hdet : Determined scan)
    (hfault : ∀ {cs e}, (scan cs).outcome = .error e → e.ShownIn cs)
    (hfound : ∀ {cs n l}, scan cs = .found n l → 0 < n ∧ ∃ s, l = .string s)
    (r b b' : List Char) (p p' : Pos) :
    Continues t (fun e e' r' => e.Twins e' ∧ r'.length < r.length) r
      (leafOf scan (Cursor.settled b r p)) (leafOf scan (Cursor.settled b' (r ++ t) p')) := by
  cases hscan : (scan r).outcome with
  | error e =>
    rw [leafOf, bind_of_error (lexeme_of_error hscan)]
    refine .error (hfault hscan) fun ht => ?_
    subst ht
    rw [List.append_nil]
    exact ⟨_, bind_of_error (lexeme_of_error hscan)⟩
  | ok l =>
    obtain ⟨s, r₁, rfl, hlen, -⟩ := (hwithin r).exists_append
    have hs : scan (s ++ r₁) = .found s.length l := by rw [← hlen, Scanned.found, ← hscan]
    obtain ⟨hpos, str, rfl⟩ := hfound hs
    -- the token is found again, and gone over in both texts
    have hread : ∀ r' b p, lexeme scan (Cursor.settled b (s ++ r') p) =
        .ok (.string str) ⟨b, s.reverse ++ [], r', p, p.forwardOver s⟩ := by
      intro r' b p
      rw [lexeme_eq_ok, Cursor.settled_rest, hdet hs r']
      exact ⟨rfl, Cursor.advance_append b [] s r' p p⟩
    rw [List.append_assoc, leafOf, bind_of_ok (hread r₁ b p), bind_of_ok (hread (r₁ ++ t) b' p')]
    refine Continues.bind ((continues_tokenSpans ht _ r₁ b b' p p' _ _).mono
      (List.suffix_append s r₁) (S := fun _ _ r' => r'.length < (s ++ r₁).length) ?_) ?_
    · intro x x' r' hr' _
      have := hr'.length_le
      rw [List.length_append]
      omega
    · intro x x' r' b b' p p' hr' hlayout hlt
      exact .ok hr' hlayout ⟨⟨rfl, trivial, trivial⟩, hlt⟩

theorem continues_string (ht : OnNewLine t) (q : Char) (r b b' : List Char) (p p' : Pos) :
    Continues t (fun e e' r' => e.Twins e' ∧ r'.length < r.length) r
      (string q (Cursor.settled b r p)) (string q (Cursor.settled b' (r ++ t) p')) := by
  refine continues_leafOf ht (within_stringToken q) (determined_stringToken q)
    shownIn_stringToken (fun h => ?_) r b b' p p'
  obtain ⟨-, body, k, xs, -, -, rfl, rfl⟩ := stringToken_eq_found.1 h
  exact ⟨by omega, _, rfl⟩

theorem continues_raw (ht : OnNewLine t) (r b b' : List Char) (p p' : Pos) :
    Continues t (fun e e' r' => e.Twins e' ∧ r'.length < r.length) r
      (raw (Cursor.settled b r p)) (raw (Cursor.settled b' (r ++ t) p')) := by
  refine continues_leafOf ht within_rawToken determined_rawToken shownIn_rawToken (fun h => ?_)
    r b b' p p'
  obtain ⟨tag, body, k, xs, -, -, -, rfl, rfl⟩ := rawToken_eq_found.1 h
  exact ⟨by omega, _, rfl⟩

theorem ownsToken_of_nameLeaf {token : List Char} {l : Leaf} {s : TokenSpans} {p : Pos}
    (hname : ∀ c ∈ token, isNameChar c = true) (hl : nameLeaf token = .ok l)
    (hs : s.token = some ⟨p, p.forwardOver token, String.ofList token⟩) :
    (Expr.leaf l (some s)).OwnsToken := by
  cases l with
  | atom name =>
    obtain rfl := toList_of_nameLeaf hl
    rw [String.ofList_toList] at hs
    refine ⟨fun hline => ?_, p, s.space, ?_⟩
    · exact absurd (hname _ hline) (by simp [isNameChar_of_isSpace isSpace_newline])
    · rw [← hs]
  | _ => trivial

/-- A name ends with the text, or where it ended before. -/
theorem continues_name (ht : OnNewLine t) {x : Char} (hx : isNameChar x = true)
    (r b b' : List Char) (p p' : Pos) :
    Continues t (fun e e' r' => e.Twins e' ∧ r'.length < (x :: r).length) (x :: r)
      (name (Cursor.settled b (x :: r) p)) (name (Cursor.settled b' (x :: r ++ t) p')) := by
  obtain ⟨token, htoken⟩ : ∃ token, (x :: r).takeWhile isNameChar = token := ⟨_, rfl⟩
  have hne : token ≠ [] := by
    rw [← htoken, List.takeWhile_cons_of_pos hx]
    simp
  obtain ⟨r₁, hr₁⟩ : token <+: x :: r := htoken ▸ List.takeWhile_prefix _
  have hname : ∀ c ∈ token, isNameChar c = true := by
    rw [← htoken]
    exact fun c hc => List.mem_takeWhile_imp hc
  have hstop : Delimits (r₁ ++ t) :=
    (delimits_of_takeWhile (by rw [hr₁, htoken])).append ht.delimits
  rw [← hr₁] at htoken ⊢
  have hread : ∀ r' b p, (token ++ r').takeWhile isNameChar = token →
      nameToken (Cursor.settled b (token ++ r') p) =
        .ok token ⟨b, token.reverse ++ [], r', p, p.forwardOver token⟩ := fun r' b p h =>
    nameToken_eq_ok.2 ⟨h, hne, Cursor.advance_append b [] token r' p p⟩
  rw [List.append_assoc, name, bind_of_ok (hread r₁ b p htoken),
    bind_of_ok (hread (r₁ ++ t) b' p' (hstop.takeWhile_append hname))]
  rw [List.append_nil]
  have hspans := continues_tokenSpans ht token.reverse r₁ b b' p p' (p.forwardOver token)
    (p'.forwardOver token)
  rw [List.reverse_reverse] at hspans
  refine Continues.bind (hspans.mono (List.suffix_append token r₁)
    (S := fun s s' r' => r'.length ≤ r₁.length ∧
      s.token = some ⟨p, p.forwardOver token, String.ofList token⟩ ∧
      s'.token = some ⟨p', p'.forwardOver token, String.ofList token⟩)
    fun hr' hs => ⟨hr'.length_le, hs⟩) ?_
  intro s s' r' b b' p₁ p₁' hr' hlayout hs
  cases hl : nameLeaf token with
  | error e =>
    refine .error ((shownIn_nameLeaf hl).mono (List.prefix_append token r₁).isInfix) fun _ => ?_
    exact ⟨_, rfl⟩
  | ok l =>
    refine .ok hr' hlayout ⟨⟨rfl, ownsToken_of_nameLeaf hname hl hs.2.1,
      ownsToken_of_nameLeaf hname hl hs.2.2⟩, ?_⟩
    have := List.length_pos_iff.2 hne
    rw [List.length_append]
    omega

/-! ### Brackets -/

/-- Two productions that read the same off every text shorter than `n`, up to `Q`. Each goes
over a character at least. -/
def ReadsOn (t : List Char) (Q : α → α → Prop) (n : Nat) (p q : Scan α) : Prop :=
  ∀ ⦃r⦄, layoutLength false r = 0 → r.length < n → ∀ b b' pos pos',
    Continues t (fun x x' r' => Q x x' ∧ r'.length < r.length) r
      (p (Cursor.settled b r pos)) (q (Cursor.settled b' (afterLayout (r ++ t)) pos'))

/-- The text ends inside the brackets. -/
theorem itemsUntil_of_end {closing : Char} (hclosing : closing ≠ endMark) (item : Scan α)
    (fuel : Nat) {r : List Char} (h : r.headD endMark = endMark) (b : List Char) (p : Pos) :
    itemsUntil closing item (fuel + 1) (Cursor.settled b r p) =
      .error .endOfInput (Cursor.settled b r p) :=
  (itemsUntil_succ closing item fuel _).trans
    ((if_neg (by rw [Cursor.settled_current, h]; exact Ne.symm hclosing)).trans (if_pos h))

theorem itemsUntil_closing (closing : Char) (item : Scan α) (fuel : Nat) (b r : List Char)
    (p : Pos) : itemsUntil closing item (fuel + 1) (Cursor.settled b (closing :: r) p) =
      .ok [] (Cursor.settled b (closing :: r) p) :=
  (itemsUntil_succ closing item fuel _).trans (if_pos rfl)

/-- A comma after an item is gone over, unless the text ends after the item. -/
theorem continues_skipComma (ht : OnNewLine t) (hr : layoutLength false r = 0)
    (hne : r ≠ [] ∨ t = []) (b b' : List Char) (p p' : Pos) :
    Continues t (fun _ _ _ => True) r (tokenSpans (Cursor.settled b r p).skipComma)
      (tokenSpans (Cursor.settled b' (afterLayout (r ++ t)) p').skipComma) := by
  have hrest : afterLayout (r ++ t) = r ++ t := by
    by_cases hnil : r = []
    · rw [hnil, hne.resolve_left (not_not.2 hnil)]
      rfl
    · exact afterLayout_append_of_ne hr hnil t
  have hhead : (r ++ t).headD endMark = r.headD endMark := by
    by_cases hnil : r = []
    · rw [hne.resolve_left (not_not.2 hnil), List.append_nil]
    · exact headD_append hnil t
  rw [hrest]
  by_cases hcomma : r.headD endMark = ','
  · obtain ⟨r, rfl⟩ := exists_cons_of_headD hcomma (by decide)
    rw [List.cons_append, Cursor.skipComma_cons, Cursor.skipComma_cons]
    exact (continues_tokenSpans ht _ r b b' p p' _ _).mono (List.suffix_cons _ r)
      fun _ _ => trivial
  · rw [Cursor.skipComma_of_ne hcomma, Cursor.skipComma_of_ne (by rwa [hhead])]
    exact (continues_tokenSpans ht [] r b b' p p' p p').mono List.suffix_rfl fun _ _ => trivial

/-- Items up to the closing bracket, which stands in the text. -/
theorem continues_itemsUntil {Q : α → α → Prop} {view : α → γ}
    (hview : ∀ x x', Q x x' → view x = view x') (ht : OnNewLine t) {closing : Char}
    (hclosing : closing ≠ endMark) {n : Nat} {item item' : Scan α}
    (hitem : ReadsOn t Q n item item') {fuel fuel' : Nat} (hr : layoutLength false r = 0)
    (hn : r.length < n) (hfuel : r.length < fuel) (hfuel' : (afterLayout (r ++ t)).length < fuel')
    (b b' : List Char) (p p' : Pos) :
    Continues t (fun xs xs' r' => (xs.map Prod.fst).map view = (xs'.map Prod.fst).map view ∧
        ∃ r₁, r' = closing :: r₁) r
      (itemsUntil closing item fuel (Cursor.settled b r p))
      (itemsUntil closing item' fuel' (Cursor.settled b' (afterLayout (r ++ t)) p')) := by
  induction fuel generalizing r fuel' b b' p p' with
  | zero => exact absurd hfuel (Nat.not_lt_zero _)
  | succ fuel ih =>
    obtain ⟨fuel', rfl⟩ := Nat.exists_eq_succ_of_ne_zero (Nat.ne_zero_of_lt hfuel')
    by_cases hend : r.headD endMark = endMark
    · rw [itemsUntil_of_end hclosing item fuel hend]
      refine continues_of_isSyntax rfl fun ht => ?_
      subst ht
      rw [List.append_nil, afterLayout_of_zero hr]
      exact ⟨_, itemsUntil_of_end hclosing item' fuel' hend b' p'⟩
    obtain ⟨x, r, rfl⟩ : ∃ x r₁, r = x :: r₁ := by
      cases r with
      | nil => exact absurd rfl hend
      | cons x r => exact ⟨x, r, rfl⟩
    by_cases hclose : x = closing
    · subst hclose
      rw [itemsUntil_closing, afterLayout_append_of_ne hr (by simp), List.cons_append,
        itemsUntil_closing, ← List.cons_append, ← afterLayout_append_of_ne hr (by simp) t]
      exact .ok List.suffix_rfl hr ⟨rfl, r, rfl⟩
    -- one item, and then the others
    have hstep : ∀ (item : Scan α) fuel r b p,
        itemsUntil closing item (fuel + 1) (Cursor.settled b (x :: r) p) =
          (item >>= fun x c₁ => (tokenSpans >>= fun s => itemsUntil closing item fuel >>= fun ys =>
            pure ((x, s) :: ys)) c₁.skipComma) (Cursor.settled b (x :: r) p) :=
      fun item fuel r b p =>
        (itemsUntil_succ closing item fuel _).trans ((if_neg hclose).trans (if_neg hend))
    have hread := hitem hr hn b b' p p'
    rw [afterLayout_append_of_ne hr (by simp), List.cons_append] at hread hfuel' ⊢
    rw [hstep, hstep]
    refine Continues.bind hread ?_
    intro y y' r' b b' p p' hr' hlayout ⟨hy, hlt⟩
    simp only [List.length_append, List.length_cons] at hn hfuel hfuel' hlt
    obtain ⟨fuel, rfl⟩ : ∃ k, fuel = k + 1 := ⟨fuel - 1, by omega⟩
    by_cases hnil : r' = [] ∧ t ≠ []
    · -- the text ends inside the brackets, whatever follows
      obtain ⟨rfl, hne⟩ := hnil
      have hspans : tokenSpans (Cursor.settled b [] p).skipComma = .ok _ (Cursor.settled b [] p) :=
        tokenSpans_append (g := []) (r := []) rfl b [] p p
      rw [bind_of_ok hspans, bind_of_error (itemsUntil_of_end hclosing item fuel rfl b p)]
      exact continues_of_isSyntax rfl fun h => absurd h hne
    · have hsep := (continues_skipComma ht hlayout (by tauto) b b' p p').mono hr'
        (S := fun _ _ r₂ => r₂.length ≤ r'.length) fun h _ => h.length_le
      refine Continues.bind hsep ?_
      intro s s' r₂ b b' p p' hr₂ hlayout₂ hle
      have hshort : (afterLayout (r₂ ++ t)).length < fuel' := by
        have := length_afterLayout_le (r₂ ++ t)
        rw [List.length_append] at this
        omega
      refine Continues.bind ((ih hlayout₂ (by omega) (by omega) hshort b b' p p').mono hr₂
        fun _ h => h) ?_
      rintro ys ys' r₃ b b' p p' hr₃ hlayout₃ ⟨hys, hclose⟩
      refine .ok hr₃ hlayout₃ ⟨?_, hclose⟩
      simp only [List.map_cons, hview _ _ hy, hys]

theorem between_cons (opening closing : Char) (item : Scan α) (b r : List Char) (p : Pos) :
    between opening closing item (Cursor.settled b (opening :: r) p) =
      (tokenSpans >>= fun s c₁ => (itemsUntil closing item (c₁.rest.length + 1) >>= fun xs c₂ =>
        (tokenSpans >>= fun s' =>
          pure (xs.map Prod.fst, ⟨some s, some (xs.map Prod.snd), some s'⟩)) c₂.next) c₁)
        ⟨b, [opening], r, p, p.forward opening⟩ :=
  (between_eq opening closing item _).trans (if_pos rfl)

/-- Items between brackets. -/
theorem continues_between {Q : α → α → Prop} {view : α → γ}
    (hview : ∀ x x', Q x x' → view x = view x') (ht : OnNewLine t) (opening : Char)
    {closing : Char} (hclosing : closing ≠ endMark) {n : Nat} {item item' : Scan α}
    (hitem : ReadsOn t Q n item item') (hn : r.length < n) (b b' : List Char) (p p' : Pos) :
    Continues t (fun xs xs' r' => xs.1.map view = xs'.1.map view ∧
        r'.length < (opening :: r).length) (opening :: r)
      (between opening closing item (Cursor.settled b (opening :: r) p))
      (between opening closing item' (Cursor.settled b' (opening :: r ++ t) p')) := by
  rw [between_cons, List.cons_append, between_cons]
  refine Continues.bind ((continues_tokenSpans ht [opening] r b b' p p' _ _).mono
    (List.suffix_cons opening r) (S := fun _ _ r' => r'.length ≤ r.length)
    fun h _ => h.length_le) ?_
  intro s s' r₁ b b' p p' hr₁ hlayout hle
  refine Continues.bind ((continues_itemsUntil hview ht hclosing hitem hlayout (by omega)
    (Nat.lt_succ_self _) (Nat.lt_succ_self _) b b' p p').mono hr₁
    (S := fun xs xs' r' => ((xs.map Prod.fst).map view = (xs'.map Prod.fst).map view ∧
      ∃ r₂, r' = closing :: r₂) ∧ r'.length ≤ r.length)
    fun h hxs => ⟨hxs, h.length_le.trans hle⟩) ?_
  rintro xs xs' r' b b' p p' hr' hlayout ⟨⟨hxs, r₂, rfl⟩, hle⟩
  rw [afterLayout_append_of_ne hlayout (by simp)]
  refine Continues.bind ((continues_tokenSpans ht [closing] r₂ b b' p p' _ _).mono
    ((List.suffix_cons closing r₂).trans hr')
    (S := fun _ _ r' => r'.length ≤ r₂.length) fun h _ => h.length_le) ?_
  intro s₁ s₁' r₃ b b' p p' hr₃ hlayout₃ hle₃
  refine .ok hr₃ hlayout₃ ⟨hxs, ?_⟩
  simp only [List.length_cons] at hle ⊢
  omega

theorem continues_itemsOf (ht : OnNewLine t) (enclosure : Enclosure) (opening : Char)
    {closing : Char} (hclosing : closing ≠ endMark) {n : Nat} {expr expr' : Scan Expr}
    (hexpr : ReadsOn t Expr.Twins n expr expr') (hn : r.length < n) (b b' : List Char)
    (p p' : Pos) :
    Continues t (fun e e' r' => e.Twins e' ∧ r'.length < (opening :: r).length) (opening :: r)
      (itemsOf enclosure opening closing expr (Cursor.settled b (opening :: r) p))
      (itemsOf enclosure opening closing expr' (Cursor.settled b' (opening :: r ++ t) p')) := by
  refine Continues.bind
    (continues_between (fun _ _ h => h.same) ht opening hclosing hexpr hn b b' p p') ?_
  rintro ⟨xs, spans⟩ ⟨xs', spans'⟩ r' b b' p p' hr' hlayout ⟨hxs, hlt⟩
  refine .ok hr' hlayout ⟨⟨?_, trivial, trivial⟩, hlt⟩
  simp only [Expr.dropSpans, Expr.dropSpansAll_eq_map]
  rw [hxs]

/-! ### Fields -/

theorem colonKey?_of_ownsToken {name : String} {spans : Option TokenSpans}
    (h : (Expr.leaf (.atom name) spans).OwnsToken) (hcolon : name.toList.getLast? = some ':') :
    ∃ p s, colonKey? (.leaf (.atom name) spans) =
      some (name.toList, s, ⟨p, p.forwardOver name.toList, String.ofList name.toList⟩) := by
  obtain ⟨-, p, space, rfl⟩ := h
  rw [String.ofList_toList]
  exact ⟨p, _, colonKey?_eq_some.2 ⟨name, space, rfl, hcolon, rfl, rfl⟩⟩

/-- Both readings of a key end in a colon, or neither does. -/
theorem colonKey?_of_twins {e e' : Expr} (h : e.Twins e') :
    colonKey? e = none ∧ colonKey? e' = none ∨ ∃ cs p s p' s', '\n' ∉ cs ∧
      colonKey? e = some (cs, s, ⟨p, p.forwardOver cs, String.ofList cs⟩) ∧
      colonKey? e' = some (cs, s', ⟨p', p'.forwardOver cs, String.ofList cs⟩) := by
  obtain ⟨hsame, htoken, htoken'⟩ := h
  cases hcolon : e.endsInColon with
  | false => exact .inl ⟨colonKey?_eq_none rfl hcolon, colonKey?_eq_none hsame.symm hcolon⟩
  | true =>
    obtain ⟨name, spans, rfl, hlast⟩ : ∃ name spans, e = .leaf (.atom name) spans ∧
        name.toList.getLast? = some ':' := by
      unfold Expr.endsInColon at hcolon
      split at hcolon
      · next name spans => exact ⟨name, spans, rfl, by simpa using hcolon⟩
      · exact absurd hcolon (by simp)
    obtain ⟨spans', rfl⟩ : ∃ spans', e' = .leaf (.atom name) spans' := by
      cases e' <;> simp only [Expr.dropSpans] at hsame <;> cases hsame
      exact ⟨_, rfl⟩
    obtain ⟨p, s, hkey⟩ := colonKey?_of_ownsToken htoken hlast
    obtain ⟨p', s', hkey'⟩ := colonKey?_of_ownsToken htoken' hlast
    exact .inr ⟨name.toList, p, s, p', s', htoken.1, hkey, hkey'⟩

/-- A key with its colon, which is cut off it or stands apart. -/
theorem readsOn_keyOf (ht : OnNewLine t) {n : Nat} {expr expr' : Scan Expr}
    (hexpr : ReadsOn t Expr.Twins n expr expr') :
    ReadsOn t (fun k k' => k.1.dropSpans = k'.1.dropSpans) n (keyOf expr) (keyOf expr') := by
  intro r hr hn b b' pos pos'
  have hread := hexpr hr hn b b' pos pos'
  generalize hA : expr (Cursor.settled b r pos) = A at hread
  generalize hB : expr' (Cursor.settled b' (afterLayout (r ++ t)) pos') = B at hread
  cases hread with
  | error he hsame =>
    rw [keyOf, bind_of_error hA]
    refine .error he fun ht => ?_
    obtain ⟨c₁, rfl⟩ := hsame ht
    exact ⟨c₁, bind_of_error hB⟩
  | @ok e e' r' b b' p p' hr' hlayout htwins =>
    rw [keyOf_of_ok hA, keyOf_of_ok hB]
    obtain ⟨hkey, hkey'⟩ | ⟨cs, q, s, q', s', hline, hkey, hkey'⟩ := colonKey?_of_twins htwins.1
    · rw [hkey, hkey']
      dsimp only
      by_cases hcolon : r'.headD endMark = ':'
      · obtain ⟨r₁, rfl⟩ := exists_cons_of_headD hcolon (by decide)
        rw [afterLayout_append_of_ne hlayout (by simp),
          if_pos (show (Cursor.settled b (':' :: r₁) p).current = ':' from rfl),
          if_pos (show (Cursor.settled b' (':' :: r₁ ++ t) p').current = ':' from rfl)]
        refine Continues.bind ((continues_tokenSpans ht [':'] r₁ b b' p p' _ _).mono
          ((List.suffix_cons ':' r₁).trans hr') (S := fun _ _ r₂ => r₂.length ≤ r₁.length)
          fun h _ => h.length_le) ?_
        intro x x' r₂ b b' p p' hr₂ hlayout₂ hle
        refine .ok hr₂ hlayout₂ ⟨htwins.1.same, ?_⟩
        have := htwins.2
        rw [List.length_cons] at this
        omega
      · rw [if_neg (show ¬(Cursor.settled b r' p).current = ':' from hcolon)]
        refine continues_of_isSyntax rfl fun ht => ?_
        subst ht
        rw [List.append_nil, afterLayout_of_zero hlayout]
        exact ⟨_, if_neg hcolon⟩
    · obtain ⟨key, gap, stop, hcut⟩ := exists_cutKey hline q
      obtain ⟨key', gap', stop', hcut'⟩ := exists_cutKey hline q'
      rw [hkey, hkey']
      dsimp only
      rw [hcut, hcut']
      exact .ok hr' hlayout ⟨rfl, htwins.2⟩

theorem readsOn_fieldOf (ht : OnNewLine t) {n : Nat} {expr expr' : Scan Expr}
    (hexpr : ReadsOn t Expr.Twins n expr expr') :
    ReadsOn t (fun f f' => Field.dropSpans f = Field.dropSpans f') n (fieldOf expr)
      (fieldOf expr') := by
  intro r hr hn b b' pos pos'
  refine Continues.bind (readsOn_keyOf ht hexpr hr hn b b' pos pos') ?_
  rintro ⟨k, colon⟩ ⟨k', colon'⟩ r₁ b b' p p' hr₁ hlayout₁ ⟨hk, hlt₁⟩
  refine Continues.bind ((hexpr hlayout₁ (by omega) b b' p p').mono hr₁ fun _ h => h) ?_
  intro v v' r₂ b b' p p' hr₂ hlayout₂ ⟨hv, hlt₂⟩
  refine .ok hr₂ hlayout₂ ⟨?_, by omega⟩
  simp only [Field.dropSpans, hk, hv.same]

theorem continues_mapOf (ht : OnNewLine t) {n : Nat} {expr expr' : Scan Expr}
    (hexpr : ReadsOn t Expr.Twins n expr expr') (hn : r.length < n) (b b' : List Char)
    (p p' : Pos) :
    Continues t (fun e e' r' => e.Twins e' ∧ r'.length < ('{' :: r).length) ('{' :: r)
      (mapOf expr (Cursor.settled b ('{' :: r) p))
      (mapOf expr' (Cursor.settled b' ('{' :: r ++ t) p')) := by
  refine Continues.bind (continues_between (fun _ _ h => h) ht '{' (by decide)
    (readsOn_fieldOf ht hexpr) hn b b' p p') ?_
  rintro ⟨fs, spans⟩ ⟨fs', spans'⟩ r' b b' p p' hr' hlayout ⟨hfs, hlt⟩
  refine .ok hr' hlayout ⟨⟨?_, trivial, trivial⟩, hlt⟩
  simp only [Expr.dropSpans, Field.dropSpansAll_eq_map]
  rw [hfs]

/-! ### Expressions -/

/-- An expression is read alike wherever it stands, with any bound on its depth that the
length of the text does not reach. -/
theorem readsOn_exprWithin (ht : OnNewLine t) {n : Nat} (depth depth' : Nat) (hdepth : n ≤ depth)
    (hdepth' : n ≤ depth') :
    ReadsOn t Expr.Twins n (exprWithin depth) (exprWithin depth') := by
  induction n generalizing depth depth' with
  | zero => exact fun r _ hn => absurd hn (Nat.not_lt_zero _)
  | succ n ih =>
    obtain ⟨depth, rfl⟩ : ∃ k, depth = k + 1 := ⟨depth - 1, by omega⟩
    obtain ⟨depth', rfl⟩ : ∃ k, depth' = k + 1 := ⟨depth' - 1, by omega⟩
    have hexpr := ih depth depth' (by omega) (by omega)
    intro r hr hn b b' p p'
    rw [exprWithin_eq_exprOf depth hr, exprWithin_eq_exprOf depth' (layoutLength_afterLayout _)]
    by_cases hend : r.headD endMark = endMark
    · rw [hend, exprOf, if_pos rfl]
      refine continues_of_isSyntax rfl fun ht => ?_
      subst ht
      rw [List.append_nil, afterLayout_of_zero hr, hend, exprOf, if_pos rfl]
      exact ⟨_, rfl⟩
    obtain ⟨x, r, rfl⟩ : ∃ x r₁, r = x :: r₁ := by
      cases r with
      | nil => exact absurd rfl hend
      | cons x r => exact ⟨x, r, rfl⟩
    rw [List.length_cons] at hn
    rw [afterLayout_append_of_ne hr (by simp), List.cons_append, List.headD_cons, List.headD_cons,
      ← List.cons_append]
    unfold exprOf
    split_ifs with _ hgroup hsequence _ _ hmap hname
    · exact absurd ‹x = endMark› hend
    · subst hgroup
      exact continues_itemsOf ht .group '(' (by decide) hexpr (by omega) b b' p p'
    · subst hsequence
      exact continues_itemsOf ht .sequence '[' (by decide) hexpr (by omega) b b' p p'
    · exact continues_string ht x (x :: r) b b' p p'
    · exact continues_raw ht (x :: r) b b' p p'
    · subst hmap
      exact continues_mapOf ht hexpr (by omega) b b' p p'
    · exact continues_name ht hname r b b' p p'
    · exact continues_of_isSyntax rfl fun _ => ⟨_, rfl⟩

end Scan
end Sexpr
