/-
Reading with spans loses nothing.

The text of a document that was read with its spans is the source, up to the first
U+0000. Every production gives a result whose text is what the production went over:
the spans of tokens, commas, colons, white space and comments follow one another
without gap or overlap, also where a key is cut off its colon.

* `Scan.Keeps` — the text of the result is what was gone over;
* `Scan.keeps_itemsUntil`, `Scan.keeps_between` — brackets keep what their items keep;
* `Scan.keeps_fieldOf` — cutting a key in two keeps its text;
* `Document.text_of_parse` — a whole text.
-/
import Sexpr.Proofs.Cuts
import Sexpr.Proofs.Parts
import Sexpr.Proofs.Productions

namespace Sexpr

/-- Items and their separators, one after the other. -/
def joinItems {α : Type} (text : α → String) : List (α × TokenSpans) → String
  | [] => ""
  | (x, s) :: xs => text x ++ s.text ++ joinItems text xs

theorem interleave_map {α : Type} (gap : String) (text : α → String)
    (xs : List (α × TokenSpans)) :
    interleave gap ((xs.map Prod.fst).map text) (xs.map Prod.snd) = joinItems text xs := by
  induction xs with
  | nil => rfl
  | cons x xs ih =>
    rw [List.map_cons, List.map_cons, List.map_cons, interleave, ih, joinItems]

namespace Scan

variable {α : Type}

/-- A production that starts where no white space or comment stands gives a result whose
text is what it went over, and ends at such a place again. -/
def Keeps (p : Scan α) (text : α → String) : Prop :=
  ∀ ⦃b r pos x c'⦄, layoutLength false r = 0 → p (Cursor.settled b r pos) = .ok x c' →
    ∃ b' r' pos', c' = Cursor.settled b' r' pos' ∧ r = (text x).toList ++ r' ∧
      endMark ∉ (text x).toList ∧ layoutLength false r' = 0

/-! ### Tokens -/

/-- A token and the white space after it, where the token has been gone over. -/
theorem keeps_tokenSpans {b t r : List Char} {m p : Pos} {s : TokenSpans} {c' : Cursor}
    (ht : endMark ∉ t) (h : tokenSpans ⟨b, t, r, m, p⟩ = .ok s c') :
    ∃ b' r' p', c' = Cursor.settled b' r' p' ∧ t.reverse ++ r = s.text.toList ++ r' ∧
      endMark ∉ s.text.toList ∧ layoutLength false r' = 0 := by
  obtain ⟨g, b', r', p', rfl, rfl, hg, hr', hs⟩ := exists_of_tokenSpans h
  refine ⟨b', r', p', rfl, by rw [hs, List.append_assoc], ?_, hr'⟩
  rw [hs, List.mem_append, List.mem_reverse, not_or]
  exact ⟨ht, hg⟩

theorem keeps_leafOf {scan : List Char → Scanned Leaf} (hscan : ∀ cs, (scan cs).Within cs) :
    Keeps (leafOf scan) Expr.text := by
  intro b r pos x c' _ h
  obtain ⟨l, s, -, hs, rfl⟩ := leafOf_eq_ok.1 h
  obtain ⟨t, r', rfl, hlen, ht⟩ := (hscan r).exists_append
  rw [Cursor.settled, hlen, Cursor.advance_append, List.append_nil] at hs
  have hkeep := keeps_tokenSpans (by rwa [List.mem_reverse]) hs
  rwa [List.reverse_reverse] at hkeep

theorem keeps_name : Keeps name Expr.text := by
  intro b r pos x c' _ h
  obtain ⟨t, l, s, ht, -, -, hs, rfl⟩ := name_eq_ok.1 h
  obtain ⟨r', rfl⟩ : t <+: r := ht ▸ List.takeWhile_prefix _
  rw [Cursor.settled, Cursor.advance_append, List.append_nil] at hs
  have hend : endMark ∉ t := by
    intro hmem
    rw [← ht] at hmem
    exact ne_endMark_of_isNameChar (List.mem_takeWhile_imp hmem) rfl
  have hkeep := keeps_tokenSpans (by rwa [List.mem_reverse]) hs
  rwa [List.reverse_reverse] at hkeep

/-! ### Brackets -/

/-- A comma that is skipped belongs to the token after the item. -/
theorem keeps_skipComma {b r : List Char} {pos : Pos} {s : TokenSpans} {c' : Cursor}
    (h : tokenSpans (Cursor.settled b r pos).skipComma = .ok s c') :
    ∃ b' r' p', c' = Cursor.settled b' r' p' ∧ r = s.text.toList ++ r' ∧
      endMark ∉ s.text.toList ∧ layoutLength false r' = 0 := by
  unfold Cursor.skipComma at h
  split_ifs at h with hcomma
  · obtain ⟨r, rfl⟩ := exists_cons_of_headD hcomma (by decide)
    rw [Cursor.settled, Cursor.next_cons] at h
    exact keeps_tokenSpans (by decide) h
  · exact keeps_tokenSpans (by simp) h

theorem current_of_itemsUntil {closing : Char} {item : Scan α} {fuel : Nat} {c c' : Cursor}
    {xs : List (α × TokenSpans)} (h : itemsUntil closing item fuel c = .ok xs c') :
    c'.current = closing := by
  induction fuel generalizing c xs with
  | zero => exact absurd h itemsUntil_zero
  | succ fuel ih =>
    obtain ⟨hc, -, rfl⟩ | ⟨-, -, x, c₁, s, c₂, ys, -, -, hys, -⟩ := itemsUntil_eq_ok.1 h
    · exact hc
    · exact ih hys

/-- Every item is followed by its separator. -/
theorem keeps_itemsUntil {closing : Char} {item : Scan α} {text : α → String}
    (hitem : Keeps item text) (fuel : Nat) :
    Keeps (itemsUntil closing item fuel) (joinItems text) := by
  induction fuel with
  | zero =>
    intro b r pos xs c' _ h
    exact absurd h itemsUntil_zero
  | succ fuel ih =>
    intro b r pos xs c' hr h
    obtain ⟨-, rfl, rfl⟩ | ⟨-, -, x, c₁, s, c₂, ys, hx, hs, hys, rfl⟩ := itemsUntil_eq_ok.1 h
    · exact ⟨b, r, pos, rfl, by simp [joinItems], by simp [joinItems], hr⟩
    · obtain ⟨b₁, r₁, p₁, rfl, rfl, hxm, hr₁⟩ := hitem hr hx
      -- the separator starts where the item ended, and the other items where it ends
      obtain ⟨b₂, r₂, p₂, rfl, rfl, hsm, hr₂⟩ := keeps_skipComma hs
      obtain ⟨b₃, r₃, p₃, rfl, rfl, hysm, hr₃⟩ := ih hr₂ hys
      refine ⟨b₃, r₃, p₃, rfl, by simp [joinItems], ?_, hr₃⟩
      rw [joinItems, String.toList_append, String.toList_append, List.mem_append, List.mem_append]
      rintro ((h | h) | h)
      · exact hxm h
      · exact hsm h
      · exact hysm h

theorem keeps_between {opening closing : Char} {item : Scan α} {text : α → String}
    (hopening : opening ≠ endMark) (hclosing : closing ≠ endMark) (hitem : Keeps item text)
    (brackets : String × String) (gap : String) :
    Keeps (between opening closing item) (fun x => bracketed brackets gap (x.1.map text) x.2) := by
  intro b r pos x c' _ h
  obtain ⟨hc, s, c₁, xs, c₂, s', hs, hxs, hs', rfl⟩ := between_eq_ok.1 h
  obtain ⟨r, rfl⟩ := exists_cons_of_headD hc hopening
  rw [Cursor.settled, Cursor.next_cons] at hs
  obtain ⟨b₁, r₁, p₁, rfl, hr₁, hsm, hlay₁⟩ := keeps_tokenSpans (by simpa using hopening.symm) hs
  -- the items stop at the closing bracket only, so it can be gone over
  have hclose := current_of_itemsUntil hxs
  obtain ⟨b₂, r₂, p₂, rfl, rfl, hxsm, -⟩ := keeps_itemsUntil hitem _ hlay₁ hxs
  obtain ⟨r₂, rfl⟩ := exists_cons_of_headD hclose hclosing
  rw [Cursor.settled, Cursor.next_cons] at hs'
  obtain ⟨b₃, r₃, p₃, rfl, hr₃, hsm', hlay₃⟩ := keeps_tokenSpans (by simpa using hclosing.symm) hs'
  have htext : (bracketed brackets gap ((xs.map Prod.fst).map text)
      ⟨some s, some (xs.map Prod.snd), some s'⟩).toList =
      s.text.toList ++ ((joinItems text xs).toList ++ s'.text.toList) := by
    simp [bracketed, ← interleave_map gap]
  refine ⟨b₃, r₃, p₃, rfl, ?_, ?_, hlay₃⟩
  · rw [htext, List.append_assoc, List.append_assoc, ← hr₃]
    exact hr₁
  · rw [htext, List.mem_append, List.mem_append]
    rintro (h | h | h)
    · exact hsm h
    · exact hxsm h
    · exact hsm' h

theorem keeps_itemsOf {opening closing : Char} {expr : Scan Expr} (enclosure : Enclosure)
    (hopening : opening ≠ endMark) (hclosing : closing ≠ endMark) (hexpr : Keeps expr Expr.text) :
    Keeps (itemsOf enclosure opening closing expr) Expr.text := by
  intro b r pos x c' hr h
  obtain ⟨values, spans, hb, rfl⟩ := itemsOf_eq_ok.1 h
  have hkeep := keeps_between hopening hclosing hexpr enclosure.brackets " " hr hb
  dsimp only at hkeep
  rwa [← Expr.texts_eq_map] at hkeep

/-! ### Fields -/

theorem keeps_keyOf {expr : Scan Expr} (hexpr : Keeps expr Expr.text) :
    Keeps (keyOf expr) (fun x => x.1.text ++ x.2.text) := by
  rintro b r pos ⟨k, colon⟩ c' hr h
  obtain ⟨key, c₁, hkey, hcut | ⟨-, hcolon, hs, rfl⟩⟩ := keyOf_eq_ok.1 h
  · obtain ⟨cs, spans, token, hc, hcut⟩ := hcut
    obtain ⟨name, space, rfl, -, rfl, rfl⟩ := colonKey?_eq_some.1 hc
    obtain ⟨rfl, key, gap, stop, hkey', hgap, hstop, rfl, rfl⟩ := cutKey_eq_ok.1 hcut
    -- the key, the gap after it and the colon are the token that was read as the key
    have htext : (Expr.leaf (.atom (String.ofList name.toList.dropLast))
        (some ⟨some key, some gap⟩)).text ++ (⟨some stop, space⟩ : TokenSpans).text =
        (Expr.leaf (.atom name) (some ⟨some token, space⟩)).text := by
      simp only [Expr.text, TokenSpans.text, Option.map_some, Option.getD_some]
      rw [← String.append_assoc, Span.raw_append_cuts hkey' hgap hstop]
    have hkeep := hexpr hr hkey
    rwa [← htext] at hkeep
  · obtain ⟨b₁, r₁, p₁, rfl, rfl, hkm, hr₁⟩ := hexpr hr hkey
    -- the colon stands apart from the key
    obtain ⟨r₁, rfl⟩ := exists_cons_of_headD hcolon (by decide)
    rw [Cursor.settled, Cursor.next_cons] at hs
    obtain ⟨b₂, r₂, p₂, rfl, hr₂, hsm, hlay₂⟩ := keeps_tokenSpans (by decide) hs
    refine ⟨b₂, r₂, p₂, rfl, ?_, ?_, hlay₂⟩
    · rw [String.toList_append, List.append_assoc, ← hr₂]
      rfl
    · rw [String.toList_append, List.mem_append, not_or]
      exact ⟨hkm, hsm⟩

theorem keeps_fieldOf {expr : Scan Expr} (hexpr : Keeps expr Expr.text) :
    Keeps (fieldOf expr) Field.text := by
  intro b r pos f c' hr h
  obtain ⟨k, colon, c₁, v, hk, hv, rfl⟩ := fieldOf_eq_ok.1 h
  obtain ⟨b₁, r₁, p₁, rfl, rfl, hkm, hr₁⟩ := keeps_keyOf hexpr hr hk
  obtain ⟨b₂, r₂, p₂, rfl, rfl, hvm, hr₂⟩ := hexpr hr₁ hv
  refine ⟨b₂, r₂, p₂, rfl, by simp [Field.text], ?_, hr₂⟩
  simp only [Field.text, Option.map_some, Option.getD_some]
  rw [String.toList_append, List.mem_append, not_or]
  exact ⟨hkm, hvm⟩

theorem keeps_mapOf {expr : Scan Expr} (hexpr : Keeps expr Expr.text) :
    Keeps (mapOf expr) Expr.text := by
  intro b r pos x c' hr h
  obtain ⟨fields, spans, hb, rfl⟩ := mapOf_eq_ok.1 h
  have hkeep :=
    keeps_between (by decide) (by decide) (keeps_fieldOf hexpr) ("\x7b", "\x7d") ", " hr hb
  dsimp only at hkeep
  rwa [← Field.texts_eq_map] at hkeep

/-! ### Expressions and documents -/

theorem keeps_exprOf {expr : Scan Expr} (hexpr : Keeps expr Expr.text) (x : Char) :
    Keeps (exprOf expr x) Expr.text := by
  unfold exprOf
  split_ifs
  · exact fun b r pos y c' _ h => absurd h throw_ne_ok
  · exact keeps_itemsOf _ (by decide) (by decide) hexpr
  · exact keeps_itemsOf _ (by decide) (by decide) hexpr
  · exact keeps_leafOf (within_stringToken x)
  · exact keeps_leafOf within_rawToken
  · exact keeps_mapOf hexpr
  · exact keeps_name
  · exact fun b r pos y c' _ h => absurd h throw_ne_ok

theorem keeps_exprWithin (depth : Nat) : Keeps (exprWithin depth) Expr.text := by
  induction depth with
  | zero => exact fun b r pos y c' _ h => absurd h throw_ne_ok
  | succ depth ih =>
    intro b r pos x c' hr h
    -- white space in front of an expression would be lost; `hr` says that there is none
    rw [exprWithin_eq_exprOf depth hr] at h
    exact keeps_exprOf ih _ hr h

theorem keeps_exprsUntilEnd (fuel : Nat) :
    Keeps (exprsUntilEnd fuel) (fun es => String.join (Expr.texts es)) := by
  induction fuel with
  | zero => exact fun b r pos y c' _ h => absurd h exprsUntilEnd_zero
  | succ fuel ih =>
    intro b r pos es c' hr h
    obtain ⟨-, rfl, rfl⟩ | ⟨-, e, c₁, es, he, hes, rfl⟩ := exprsUntilEnd_eq_ok.1 h
    · exact ⟨b, r, pos, rfl, by simp [Expr.texts], by simp [Expr.texts], hr⟩
    · obtain ⟨b₁, r₁, p₁, rfl, rfl, hem, hr₁⟩ := keeps_exprWithin _ hr he
      obtain ⟨b₂, r₂, p₂, rfl, rfl, hesm, hr₂⟩ := ih hr₁ hes
      refine ⟨b₂, r₂, p₂, rfl, by simp [Expr.texts], ?_, hr₂⟩
      simp only [Expr.texts]
      rw [String.join_cons, String.toList_append, List.mem_append, not_or]
      exact ⟨hem, hesm⟩

theorem current_of_exprsUntilEnd {fuel : Nat} {c c' : Cursor} {es : List Expr}
    (h : exprsUntilEnd fuel c = .ok es c') : c'.current = endMark := by
  induction fuel generalizing c es with
  | zero => exact absurd h exprsUntilEnd_zero
  | succ fuel ih =>
    obtain ⟨hc, -, rfl⟩ | ⟨-, e, c₁, es, -, hes, -⟩ := exprsUntilEnd_eq_ok.1 h
    · exact hc
    · exact ih hes

end Scan

/-- The text of a document that was read with its spans is its source, up to the first
U+0000. -/
theorem Document.text_of_parse {src : String} {d : Document}
    (h : Document.parse src true = .ok d) :
    d.text = String.ofList (src.toList.takeWhile (· ≠ endMark)) := by
  rw [Document.parse, if_pos rfl] at h
  rw [← String.toList_inj, String.toList_ofList]
  obtain ⟨g, r, hsrc, hg, hgm, hr⟩ := exists_layout false src.toList
  rw [← String.ofList_toList (s := src), hsrc] at h hg
  rw [Document.read_append (by rwa [String.toList_ofList] at hg)] at h
  cases hes : Scan.exprsUntilEnd (r.length + 1)
      (Cursor.settled g.reverse r (Pos.origin.forwardOver g)) with
  | error e c =>
    rw [hes] at h
    exact absurd h (by simp)
  | ok es c =>
    rw [hes] at h
    cases h
    -- the expressions stop at U+0000 or at the end of the text, and none of them holds U+0000
    have hend := Scan.current_of_exprsUntilEnd hes
    obtain ⟨b', r', p', rfl, rfl, hesm, -⟩ := Scan.keeps_exprsUntilEnd _ hr hes
    have htext : (Document.mk es (some ⟨Pos.origin, Pos.origin.forwardOver g,
        String.ofList g⟩)).text.toList = g ++ (String.join (Expr.texts es)).toList := by
      simp [Document.text]
    have hnil : r'.takeWhile (· ≠ endMark) = [] := by
      cases r' with
      | nil => rfl
      | cons x r' => exact List.takeWhile_cons_of_neg (by simpa using hend)
    rw [htext, hsrc, ← List.append_assoc, List.takeWhile_append_of_pos, hnil, List.append_nil]
    intro x hx
    rw [decide_eq_true_eq]
    rintro rfl
    rcases List.mem_append.1 hx with hx | hx
    · exact hgm hx
    · exact hesm hx

/-- White space, comments, commas and a key that is cut off its colon; what follows U+0000
is not read. -/
theorem Document.text_of_parse_map :
    ∃ d, Document.parse " \x7ba: [1 ;x\n, 2,] , \"b\" :3\x7d\t\x00)" true = .ok d ∧
      d.text = " \x7ba: [1 ;x\n, 2,] , \"b\" :3\x7d\t" := by
  obtain ⟨d, hd⟩ := Document.exists_of_isOk (show (Document.parse
    " \x7ba: [1 ;x\n, 2,] , \"b\" :3\x7d\t\x00)" true).isOk = true by decide +kernel)
  refine ⟨d, hd, (Document.text_of_parse hd).trans ?_⟩
  decide +kernel

end Sexpr
