/-
All the ways to spell an expression.

A source may spell a string in either quotes or as a raw string and a number with any
digits; it may put a colon apart from its key, and leave out a gap wherever no name goes
on over it. The relations below say what the source of an expression can be.

* `GapBefore`, `Gap` — white space and comments in front of a text and between two items;
* `Leaf.SpelledAs`, `Expr.SpelledAs`, `Document.SpelledAs` — the spellings;
* `Expr.SpelledAs.isStart` — the characters that a spelling can start with;
* `Expr.WrittenAs.spelledAs` — every way to write an expression is a spelling.
-/
import Sexpr.Proofs.ReadsBack
import Sexpr.Proofs.Sequencing
import Sexpr.Proofs.Writing

namespace Sexpr

/-! ### Gaps -/

/-- The white space and the comments in front of a text are `g`. A comment may be left open
at the end of the text. -/
def GapBefore (g r : List Char) : Prop := layoutLength false (g ++ r) = g.length

theorem Blank.gapBefore {g r : List Char} (h : Blank g) (hr : layoutLength false r = 0) :
    GapBefore g r := h.layoutLength_append hr

theorem gapBefore_nil {r : List Char} : GapBefore [] r ↔ layoutLength false r = 0 := Iff.rfl

/-- One character of layout: inside a comment, white space, or the start of a comment. -/
theorem layoutLength_cons_eq {comment : Bool} {c : Char} {cs : List Char} {n : Nat}
    (h : layoutLength comment (c :: cs) = n + 1) :
    c ≠ endMark ∧ ∃ comment', layoutLength comment' cs = n ∧
      (∀ cs', layoutLength comment (c :: cs') = 1 + layoutLength comment' cs') ∧
      (comment = true ∧ comment' = decide (c ≠ '\n') ∨
        comment = false ∧ Text.isSpace c = true ∧ comment' = false ∨
        comment = false ∧ c = ';' ∧ comment' = true) := by
  rw [layoutLength] at h
  split_ifs at h with hend hcomment hspace hsemi
  · refine ⟨hend, _, by omega, fun cs' => ?_, .inl ⟨hcomment, rfl⟩⟩
    rw [layoutLength, if_neg hend, if_pos hcomment]
  · rw [Bool.not_eq_true] at hcomment
    refine ⟨hend, false, by omega, fun cs' => ?_, .inr (.inl ⟨hcomment, hspace, rfl⟩)⟩
    rw [layoutLength, if_neg hend, hcomment, if_neg (by simp), if_pos hspace]
  · rw [Bool.not_eq_true] at hcomment
    refine ⟨hend, true, by omega, fun cs' => ?_, .inr (.inr ⟨hcomment, hsemi, rfl⟩)⟩
    rw [layoutLength, if_neg hend, hcomment, if_neg (by simp), if_neg hspace, if_pos hsemi]

/-- Where layout ends, no more of it starts. -/
theorem layoutLength_of_append {comment : Bool} {g r : List Char}
    (h : layoutLength comment (g ++ r) = g.length) : layoutLength false r = 0 := by
  induction g generalizing comment with
  | nil =>
    cases r with
    | nil => rfl
    | cons c r =>
      by_cases hend : c = endMark
      · rw [layoutLength, if_pos hend]
      · -- inside a comment the next character would have been gone over
        cases comment with
        | false => exact h
        | true =>
          rw [List.nil_append, layoutLength, if_neg hend, if_pos rfl, List.length_nil] at h
          omega
  | cons c g ih =>
    obtain ⟨-, comment', hlen, -, -⟩ := layoutLength_cons_eq h
    exact ih hlen

theorem GapBefore.layoutLength_eq {g r : List Char} (h : GapBefore g r) :
    layoutLength false r = 0 := layoutLength_of_append h

theorem layoutLength_left {comment : Bool} {g r : List Char}
    (h : layoutLength comment (g ++ r) = g.length) : layoutLength comment g = g.length := by
  induction g generalizing comment with
  | nil => rfl
  | cons c g ih =>
    obtain ⟨-, comment', hlen, hstep, -⟩ := layoutLength_cons_eq h
    rw [hstep, ih hlen, List.length_cons]
    omega

/-- Layout that ends in front of a text would also end with the text. -/
theorem GapBefore.at_end {g r : List Char} (h : GapBefore g r) : GapBefore g [] := by
  rw [GapBefore, List.append_nil]
  exact layoutLength_left h

/-- If the text goes on, no comment was left open. -/
theorem GapBefore.blank {g r : List Char} (h : GapBefore g r) (hr : r.headD endMark ≠ endMark) :
    Blank g := by
  -- a text that starts inside a comment has the rest of that comment in front of the blank
  suffices hboth : ∀ comment, layoutLength comment (g ++ r) = g.length →
      if comment then ∃ body cs, g = body ++ '\n' :: cs ∧
        (∀ c ∈ body, c ≠ '\n' ∧ c ≠ endMark) ∧ Blank cs else Blank g from hboth false h
  clear h
  induction g with
  | nil =>
    intro comment h
    cases comment with
    | false => exact .nil
    | true =>
      obtain ⟨c, r, rfl⟩ : ∃ c r', r = c :: r' := by
        cases r with
        | nil => exact absurd rfl hr
        | cons c r => exact ⟨c, r, rfl⟩
      rw [List.nil_append, layoutLength, if_neg (by simpa using hr), if_pos rfl,
        List.length_nil] at h
      omega
  | cons c g ih =>
    intro comment h
    obtain ⟨hend, comment', hlen, -, ⟨rfl, rfl⟩ | ⟨rfl, hspace, rfl⟩ | ⟨rfl, rfl, rfl⟩⟩ :=
      layoutLength_cons_eq h
    · have hrest := ih _ hlen
      by_cases hnewline : c = '\n'
      · subst hnewline
        exact ⟨[], g, rfl, by simp, hrest⟩
      · rw [decide_eq_true hnewline] at hrest
        obtain ⟨body, cs, rfl, hbody, hblank⟩ := hrest
        exact ⟨c :: body, cs, rfl, List.forall_mem_cons.2 ⟨⟨hnewline, hend⟩, hbody⟩, hblank⟩
    · exact .space hspace (ih _ hlen)
    · obtain ⟨body, cs, rfl, hbody, hblank⟩ := ih _ hlen
      exact .comment hbody hblank

/-- No name goes on over layout. -/
theorem GapBefore.delimits {g r : List Char} (h : GapBefore g r) (hne : g ≠ []) :
    Delimits (g ++ r) := by
  obtain ⟨c, g, rfl⟩ := List.exists_cons_of_ne_nil hne
  obtain ⟨-, -, -, -, ⟨hfalse, -⟩ | ⟨-, hspace, -⟩ | ⟨-, rfl, -⟩⟩ := layoutLength_cons_eq h
  · exact absurd hfalse (by simp)
  · exact isNameChar_of_isSpace hspace
  · exact isNameChar_of_mem_signs (c := ';') (by decide)

/-- What stands between two items of a bracket: a blank, with at most one comma in it. -/
inductive Gap : List Char → Prop
  | blank {g : List Char} (h : Blank g) : Gap g
  | comma {g g' : List Char} (h : Blank g) (h' : Blank g') : Gap (g ++ ',' :: g')

theorem ItemGap.gap {last : Bool} {g : List Char} (h : ItemGap last g) : Gap g := by
  cases h with
  | blank h => exact .blank h.1
  | comma h h' => exact .comma h h'

/-- An empty gap comes after the last item only. -/
theorem ItemGap.last_of_nil {last : Bool} (h : ItemGap last []) : last = true := by
  generalize hg : ([] : List Char) = g at h
  cases h with
  | blank h =>
    rw [← Bool.not_eq_false]
    exact fun hfalse => h.2 hfalse hg.symm
  | comma => exact absurd hg (by simp)

theorem Gap.delimits {g : List Char} (h : Gap g) (hne : g ≠ []) (r : List Char) :
    Delimits (g ++ r) := by
  cases h with
  | blank h => exact h.delimits hne r
  | @comma g g' h h' =>
    by_cases hnil : g = []
    · subst hnil
      exact isNameChar_of_mem_signs (c := ',') (by decide)
    · rw [List.append_assoc]
      exact h.delimits hnil _

/-- No name goes on over a text, or over nothing if it does not go on behind it. -/
theorem Delimits.append {s r : List Char} (hs : Delimits s) (hr : Delimits r) :
    Delimits (s ++ r) := by
  cases s with
  | nil => exact hr
  | cons c s => exact hs

theorem delimits_nil : Delimits [] := by
  show isNameChar endMark = false
  decide

/-! ### First characters -/

/-- The characters that an expression can start with. -/
def isStart (c : Char) : Bool :=
  isNameChar c || ['"', '(', '[', '{'].contains c

theorem isStart_of_isNameChar {c : Char} (h : isNameChar c = true) : isStart c = true := by
  rw [isStart, h, Bool.true_or]

theorem ne_of_isStart {c x : Char} (h : isStart c = true) (hx : isStart x = false) : c ≠ x := by
  rintro rfl
  exact absurd h (by simp [hx])

theorem isStart_of_mem {c : Char} (h : c ∈ ['"', '(', '[', '{']) : isStart c = true := by
  rw [isStart, List.contains_iff_mem.2 h, Bool.or_true]

/-- The signs that close brackets and separate start nothing. -/
theorem isStart_of_mem_signs {c : Char} (h : c ∈ signs) (hc : c ∉ ['"', '(', '[', '{']) :
    isStart c = false := by
  rw [isStart, isNameChar_of_mem_signs h, Bool.false_or, ← Bool.not_eq_true, List.contains_iff_mem]
  exact hc

theorem isSpace_of_isStart {c : Char} (h : isStart c = true) : Text.isSpace c = false := by
  rw [isStart, Bool.or_eq_true, List.contains_iff_mem] at h
  rcases h with hname | hsign
  · rw [← Bool.not_eq_true]
    intro hspace
    exact absurd hname (by simp [isNameChar_of_isSpace hspace])
  · apply isSpace_of_mem_signs
    have hall : ['"', '(', '[', '{'].all signs.contains = true := by decide
    simpa using List.all_eq_true.1 hall c hsign

theorem isStart_endMark : isStart endMark = false := by decide

theorem ne_nil_of_isStart {cs : List Char} (h : isStart (cs.headD endMark) = true) : cs ≠ [] := by
  rintro rfl
  exact absurd h (by simp [isStart_endMark])

theorem headD_append {s : List Char} (h : s ≠ []) (r : List Char) :
    (s ++ r).headD endMark = s.headD endMark := by
  obtain ⟨c, s, rfl⟩ := List.exists_cons_of_ne_nil h
  rfl

/-- An expression starts where no white space or comment stands. -/
theorem layoutLength_of_isStart {cs : List Char} (h : isStart (cs.headD endMark) = true) :
    layoutLength false cs = 0 := by
  generalize hhead : cs.headD endMark = c at h
  obtain ⟨r, rfl⟩ := exists_cons_of_headD hhead (ne_of_isStart h isStart_endMark)
  exact layoutLength_of_ne (isSpace_of_isStart h)
    (ne_of_isStart h (isStart_of_mem_signs (by decide) (by decide))) r

/-! ### Leaves -/

/-- The tokens of a leaf. A string ends at its own end, a name where it does not go on. -/
inductive Leaf.SpelledAs : Leaf → List Char → Prop
  | name {l : Leaf} {s : List Char} (hs : IsNameToken s) (hl : nameLeaf s = .ok l) : SpelledAs l s
  | quoted {l : Leaf} {q : Char} {s : List Char}
      (h : ∀ r, stringToken q (s ++ r) = .found s.length l) : SpelledAs l s
  | raw {l : Leaf} {s : List Char} (h : ∀ r, rawToken (s ++ r) = .found s.length l) :
      SpelledAs l s

theorem Numeral.isNumber_of_toLeaf {n : Numeral} {l : Leaf} (h : n.toLeaf = .ok l) :
    l.isNumber = true := by
  cases n with
  | integer neg ds =>
    obtain ⟨v, -, h⟩ := Except.bind_eq_ok.1 h
    cases h
    rfl
  | rational neg num den =>
    obtain ⟨v, -, h⟩ := Except.bind_eq_ok.1 h
    obtain ⟨d, -, h⟩ := Except.bind_eq_ok.1 h
    change (if d = 0 then .error _ else .ok _ : Except ReadFault Leaf) = _ at h
    split_ifs at h
    cases h
    rfl
  | percent neg whole part =>
    cases h
    rfl
  | real neg whole part eneg e =>
    cases h
    rfl

/-- A name token is a name or a number. -/
theorem isName_of_nameLeaf {token : List Char} {l : Leaf} (h : nameLeaf token = .ok l)
    (span : Option TokenSpans) : (Expr.leaf l span).isName = true := by
  unfold nameLeaf at h
  split at h
  · have hnumber := Numeral.isNumber_of_toLeaf h
    cases l with
    | string s => exact absurd hnumber (by simp [Leaf.isNumber])
    | _ => rfl
  · cases h
    rfl

theorem isName_of_stringToken {q : Char} {cs : List Char} {n : Nat} {l : Leaf}
    (h : stringToken q cs = .found n l) (span : Option TokenSpans) :
    (Expr.leaf l span).isName = false := by
  obtain ⟨-, body, k, xs, -, -, -, rfl⟩ := stringToken_eq_found.1 h
  rfl

theorem isName_of_rawToken {cs : List Char} {n : Nat} {l : Leaf} (h : rawToken cs = .found n l)
    (span : Option TokenSpans) : (Expr.leaf l span).isName = false := by
  obtain ⟨tag, body, k, xs, -, -, -, -, rfl⟩ := rawToken_eq_found.1 h
  rfl

/-- The spelling of a name is a name token, that of a string is none. -/
theorem Leaf.SpelledAs.of_isName {l : Leaf} {s : List Char} (h : l.SpelledAs s)
    {span : Option TokenSpans} (hname : (Expr.leaf l span).isName = true) :
    IsNameToken s ∧ nameLeaf s = .ok l := by
  cases h with
  | name hs hl => exact ⟨hs, hl⟩
  | quoted h => exact absurd hname (by simp [isName_of_stringToken (h [])])
  | raw h => exact absurd hname (by simp [isName_of_rawToken (h [])])

theorem IsNameToken.isStart {s : List Char} (h : IsNameToken s) :
    isStart (s.headD endMark) = true := by
  obtain ⟨c, t, rfl⟩ := List.exists_cons_of_ne_nil h.ne_nil
  exact isStart_of_isNameChar (h.isNameChar c (by simp))

theorem Leaf.SpelledAs.isStart {l : Leaf} {s : List Char} (h : l.SpelledAs s) :
    isStart (s.headD endMark) = true := by
  cases h with
  | name hs hl => exact hs.isStart
  | quoted h =>
    obtain ⟨hquote, body, k, xs, hs, -⟩ := stringToken_eq_found.1 (h [])
    rw [List.append_nil] at hs
    rw [hs, List.headD_cons]
    rcases hquote with rfl | rfl
    · exact isStart_of_mem (by decide)
    · exact isStart_of_isNameChar (by decide)
  | raw h =>
    obtain ⟨tag, body, k, xs, hs, -⟩ := rawToken_eq_found.1 (h [])
    rw [List.append_nil] at hs
    rw [hs]
    exact isStart_of_isNameChar (c := '#') (by decide)

/-! ### Expressions -/

/-- Whether an expression is an atom that ends in a colon. As a key it is cut in two. -/
def Expr.endsInColon : Expr → Bool
  | .leaf (.atom name) _ => name.toList.getLast? = some ':'
  | _ => false

/-- Parts one after the other, each spelled as `W` says and followed by a gap. A name at the
end of a part has to end there. -/
inductive Series {α : Type} (gap : List Char → List Char → Prop) (name : α → Bool)
    (W : α → List Char → Prop) : List α → List Char → Prop
  | nil : Series gap name W [] []
  | cons {x : α} {xs : List α} {s g t : List Char} (h : W x s) (hg : gap g t)
      (hstop : name x = true → Delimits (g ++ t)) (hxs : Series gap name W xs t) :
      Series gap name W (x :: xs) (s ++ g ++ t)

/-- A key, its colon and the layout after it, in front of a value. The colon stands at the
end of the key or apart from it. -/
inductive KeySpelledAs (W : Expr → List Char → Prop) : Expr → List Char → List Char → Prop
  | fused {name : String} {span : Option TokenSpans} {g t : List Char}
      (hkey : IsNameToken (name.toList ++ [':'])) (hg : Blank g) (hstop : Delimits (g ++ t)) :
      KeySpelledAs W (.leaf (.atom name) span) (name.toList ++ ':' :: g) t
  | apart {k : Expr} {s g g' t : List Char} (hk : W k s) (hcolon : k.endsInColon = false)
      (hg : Blank g) (hne : k.isName = true → g ≠ []) (hg' : Blank g') :
      KeySpelledAs W k (s ++ g ++ ':' :: g') t

/-- The colon may stand right after a key that is no name. -/
theorem KeySpelledAs.of_isName {W : Expr → List Char → Prop} {k : Expr} {s g t : List Char}
    (hname : k.isName = false) (hk : W k s) (hg : Blank g) :
    KeySpelledAs W k (s ++ ':' :: g) t := by
  have hcolon : k.endsInColon = false := by
    cases k with
    | leaf l span =>
      cases l with
      | atom name => exact absurd hname (by simp [Expr.isName])
      | _ => rfl
    | _ => rfl
  have happart : KeySpelledAs W k (s ++ [] ++ ':' :: g) t :=
    .apart hk hcolon .nil (fun h => absurd h (by simp [hname])) hg
  rwa [List.append_nil] at happart

/-- A field is its key with the colon, and its value. -/
inductive FieldSpelledAs (W : Expr → List Char → Prop) : Field → List Char → Prop
  | mk {k v : Expr} {separator : Option TokenSpans} {s t : List Char} (hk : KeySpelledAs W k s t)
      (hv : W v t) : FieldSpelledAs W ⟨k, v, separator⟩ (s ++ t)

/-- The spellings of an expression, without the white space after it. -/
inductive Expr.SpelledAs : Expr → List Char → Prop
  | leaf {l : Leaf} {span : Option TokenSpans} {s : List Char} (h : l.SpelledAs s) :
      SpelledAs (.leaf l span) s
  | items {enclosure : Enclosure} {values : List Expr} {spans : BracketSpans} {g t : List Char}
      (hg : Blank g) (h : Series (fun g _ => Gap g) Expr.isName SpelledAs values t) :
      SpelledAs (.items enclosure values spans)
        (enclosure.brackets.1.toList ++ g ++ t ++ enclosure.brackets.2.toList)
  | map {fields : List Field} {spans : BracketSpans} {g t : List Char} (hg : Blank g)
      (h : Series (fun g _ => Gap g) (fun f : Field => f.value.isName)
        (FieldSpelledAs SpelledAs) fields t) :
      SpelledAs (.map fields spans) ('{' :: g ++ t ++ ['}'])

/-- The spellings of a document: its expressions and the white space around them. -/
def Document.SpelledAs (d : Document) (text : List Char) : Prop :=
  ∃ g t, text = g ++ t ∧ GapBefore g t ∧ Series GapBefore Expr.isName Expr.SpelledAs d.exprs t

theorem Expr.SpelledAs.isStart {e : Expr} {s : List Char} (h : e.SpelledAs s) :
    isStart (s.headD endMark) = true := by
  cases h with
  | leaf h => exact h.isStart
  | @items enclosure =>
    cases enclosure with
    | group => exact isStart_of_mem (c := '(') (by decide)
    | sequence => exact isStart_of_mem (c := '[') (by decide)
  | map => exact isStart_of_mem (c := '{') (by decide)

theorem Expr.SpelledAs.ne_nil {e : Expr} {s : List Char} (h : e.SpelledAs s) : s ≠ [] :=
  ne_nil_of_isStart h.isStart

theorem Expr.SpelledAs.isNameToken {e : Expr} {s : List Char} (h : e.SpelledAs s)
    (hname : e.isName = true) : IsNameToken s := by
  cases h with
  | leaf hl => exact (hl.of_isName hname).1
  | items => exact absurd hname (by simp [Expr.isName])
  | map => exact absurd hname (by simp [Expr.isName])

theorem KeySpelledAs.isStart {k : Expr} {s t : List Char}
    (h : KeySpelledAs Expr.SpelledAs k s t) : isStart (s.headD endMark) = true := by
  cases h with
  | @fused name span g t hkey hg hstop =>
    rw [show name.toList ++ ':' :: g = (name.toList ++ [':']) ++ g by simp,
      headD_append hkey.ne_nil]
    exact hkey.isStart
  | apart hk =>
    rw [List.append_assoc, headD_append hk.ne_nil]
    exact hk.isStart

theorem FieldSpelledAs.isStart {f : Field} {s : List Char}
    (h : FieldSpelledAs Expr.SpelledAs f s) : isStart (s.headD endMark) = true := by
  cases h with
  | mk hk hv =>
    rw [headD_append (ne_nil_of_isStart hk.isStart)]
    exact hk.isStart

/-- Another way to spell the parts. -/
theorem Series.imp {α : Type} {gap : List Char → List Char → Prop} {name : α → Bool}
    {W W' : α → List Char → Prop} {xs : List α} {t : List Char} (h : Series gap name W xs t)
    (himp : ∀ x ∈ xs, ∀ s, W x s → s.length ≤ t.length → W' x s) : Series gap name W' xs t := by
  induction h with
  | nil => exact .nil
  | @cons x xs s g t hx hg hstop hxs ih =>
    -- the length of the whole bounds that of every part, which recursion on the length needs
    simp only [List.length_append] at himp
    refine .cons (himp x (by simp) s hx (by omega)) hg hstop (ih fun y hy u hu hlen => ?_)
    exact himp y (by simp [hy]) u hu (by omega)

/-- After a part comes another part, or what follows the last one. -/
theorem Series.headD {α : Type} {gap : List Char → List Char → Prop} {name : α → Bool}
    {W : α → List Char → Prop} (hW : ∀ {x s}, W x s → isStart (s.headD endMark) = true)
    {xs : List α} {t : List Char} (h : Series gap name W xs t) (r : List Char) :
    t = [] ∧ xs = [] ∨ isStart ((t ++ r).headD endMark) = true := by
  cases h with
  | nil => exact .inl ⟨rfl, rfl⟩
  | cons hx hg hstop hxs =>
    refine .inr ?_
    rw [List.append_assoc, List.append_assoc, headD_append (ne_nil_of_isStart (hW hx))]
    exact hW hx

/-! ### Written expressions -/

theorem stringBody_escape {c x : Char} {cs : List Char} (h : escape (x :: cs) = .found 1 [c]) :
    stringBody '"' 0 ('\\' :: x :: cs) = (stringBody '"' 0 cs).after 2 (c :: ·) := by
  rw [stringBody, if_neg (by decide), if_neg (by decide), if_pos rfl, h]
  show ((stringBody '"' 0 cs).after 1 id).after 1 ([c] ++ ·) = _
  obtain ⟨n, xs | e⟩ := stringBody '"' 0 cs
  · simp [Scanned.after, Except.map, ← Nat.add_assoc]
  · simp [Scanned.after, Except.map, ← Nat.add_assoc]

/-- A character of a string is read as what it was escaped from. -/
theorem stringBody_escapeChar (c : Char) (cs : List Char) :
    stringBody '"' 0 (escapeChar c ++ cs) =
      (stringBody '"' 0 cs).after (escapeChar c).length (c :: ·) := by
  unfold escapeChar
  split_ifs with hslash hnewline htab hreturn hzero hquote
  · rw [hslash]
    exact stringBody_escape rfl
  · rw [hnewline]
    exact stringBody_escape rfl
  · rw [htab]
    exact stringBody_escape rfl
  · rw [hreturn]
    exact stringBody_escape rfl
  · rw [hzero]
    exact stringBody_escape rfl
  · rw [hquote]
    exact stringBody_escape rfl
  · rw [List.singleton_append, stringBody, if_neg hquote,
      if_neg (show c ≠ endMark from hzero), if_neg hslash]
    rfl

theorem stringBody_flatMap (s r : List Char) :
    stringBody '"' 0 (s.flatMap escapeChar ++ '"' :: r) =
      .found ((s.flatMap escapeChar).length + 1) s := by
  induction s with
  | nil => rfl
  | cons c s ih =>
    rw [List.flatMap_cons, List.append_assoc, stringBody_escapeChar, ih, List.length_append]
    simp [Scanned.after, Scanned.found, Except.map, Nat.add_assoc]

theorem stringToken_quoteString (s : String) (r : List Char) :
    stringToken '"' ((quoteString s).toList ++ r) =
      .found (quoteString s).toList.length (.string s) := by
  have hbody : (quoteString s).toList = '"' :: (s.toList.flatMap escapeChar ++ ['"']) := by
    simp [quoteString]
  rw [hbody, stringToken, if_neg (by decide), List.cons_append, if_neg (by simp), List.drop_one,
    List.tail_cons, List.append_assoc, List.singleton_append, stringBody_flatMap]
  simp [Scanned.after, Scanned.found, Except.map, Nat.add_comm]

theorem Leaf.ReadsBack.spelledAs {l : Leaf} (h : l.ReadsBack) : l.SpelledAs l.text.toList := by
  rcases h with ⟨s, rfl⟩ | ⟨htoken, hl⟩
  · exact .quoted (stringToken_quoteString s)
  · exact .name htoken hl

/-- Gaps that are not empty let no name go on, and an empty one comes at the end. -/
theorem delimits_of_itemGap {α : Type} {gap : Bool → List Char → Prop}
    {W : α → List Char → Prop} {xs : List α} {g t : List Char} (hg : ItemGap xs.isEmpty g)
    (h : Separated gap W xs t) : Delimits (g ++ t) := by
  by_cases hnil : g = []
  · subst hnil
    have hlast := hg.last_of_nil
    cases h with
    | nil => exact delimits_nil
    | cons => exact absurd hlast (by simp)
  · exact hg.gap.delimits hnil t

theorem Separated.series {α : Type} {W W' : α → List Char → Prop} {xs : List α} {t : List Char}
    (h : Separated ItemGap W xs t) (name : α → Bool) (himp : ∀ x ∈ xs, ∀ s, W x s → W' x s) :
    Series (fun g _ => Gap g) name W' xs t := by
  induction h with
  | nil => exact .nil
  | @cons x xs s g t hx hg hxs ih =>
    obtain ⟨himp, himps⟩ := List.forall_mem_cons.1 himp
    exact .cons (himp s hx) hg.gap (fun _ => delimits_of_itemGap hg hxs) (ih himps)

theorem FieldWrittenAs.spelledAs {f : Field} {s : List Char}
    (h : FieldWrittenAs Expr.WrittenAs f s) (hname : f.key.IsKeyAtom ∨ f.key.isName = false)
    (hk : ∀ {s}, f.key.isName = false → f.key.WrittenAs s → f.key.SpelledAs s)
    (hv : ∀ {s}, f.value.WrittenAs s → f.value.SpelledAs s) :
    FieldSpelledAs Expr.SpelledAs f s := by
  cases h with
  | @mk k v separator s g t hks hg hne hvs =>
    refine .mk ?_ (hv hvs)
    rcases hname with ⟨name, span, hatom, htoken⟩ | hname
    · obtain rfl : k = .leaf (.atom name) span := hatom
      cases hks with
      | leaf => exact .fused htoken hg (hg.delimits hne t)
    · exact .of_isName hname (hk hname hks) hg

/-- Every way to write an expression that reads back is a spelling. -/
theorem Expr.WrittenAs.spelledAs {e : Expr} {s : List Char} (h : e.WrittenAs s)
    (he : e.ReadsBack) : e.SpelledAs s := by
  induction e using Expr.induction generalizing s with
  | leaf l span =>
    cases he with
    | leaf hl =>
      cases h with
      | leaf => exact .leaf hl.spelledAs
  | items enclosure values spans ih =>
    cases he with
    | items hvalues =>
      cases h with
      | items hg ht =>
        exact .items hg (ht.series _ fun v hv u hu => ih v hv hu (hvalues v hv))
  | map fields spans ih =>
    cases he with
    | map hnames hkeys hvalues =>
      cases h with
      | map hg ht =>
        refine .map hg (ht.series _ fun f hf u hu => hu.spelledAs (hnames f hf) ?_ ?_)
        · exact fun hname hk => (ih f hf).1 hk (hkeys f hf hname)
        · exact fun hv => (ih f hf).2 hv (hvalues f hf)
  | bare mark => cases he

end Sexpr
