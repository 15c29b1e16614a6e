/-
Texts that are written without quotes.

In lists and dictionaries a text goes without quotes if it holds no white space, no brackets and
none of the other signs. The reader has its own idea of what stands without quotes: a name token.
A text that is none is read as a quoted string, or cut off at the first character that is in no
name, or not read at all.

* `isBareChar`, `isAtomText_iff` — the characters of such texts;
* `Expr.heldText?` — the text that an expression holds;
* `stringBody_bare` — a quoted string that starts inside such a text is not the text;
* `Scan.exprWithin_bare` — what is read where such a text stands.
-/
import Mathlib.Data.List.Induction
import Sexpr.Print.Encode
import Sexpr.Proofs.Acceptance

namespace Sexpr

/-! ### Characters -/

/-- The characters of texts that are written without quotes. -/
def isBareChar (c : Char) : Bool := !(Text.isSpace c || signs.contains c)

theorem isAtomText_iff {s : String} :
    isAtomText s = true ↔ s.toList ≠ [] ∧ ∀ c ∈ s.toList, isBareChar c = true := by
  simp [isAtomText, isBareChar, signs]

theorem isBareChar_of_isNameChar {c : Char} (h : isNameChar c = true) : isBareChar c = true := by
  rw [isBareChar, Bool.not_eq_true', Bool.or_eq_false_iff]
  constructor
  · rw [← Bool.not_eq_true]
    intro hspace
    exact absurd h (by simp [isNameChar_of_isSpace hspace])
  · rw [← Bool.not_eq_true, List.contains_iff_mem]
    intro hsign
    exact absurd h (by simp [isNameChar_of_mem_signs hsign])

theorem isSpace_of_isBareChar {c : Char} (h : isBareChar c = true) : Text.isSpace c = false := by
  rw [isBareChar, Bool.not_eq_true', Bool.or_eq_false_iff] at h
  exact h.1

theorem ne_of_isBareChar {c x : Char} (h : isBareChar c = true) (hx : x ∈ signs) : c ≠ x := by
  rintro rfl
  rw [isBareChar, Bool.not_eq_true', Bool.or_eq_false_iff, List.contains_iff_mem.2 hx] at h
  exact absurd h.2 (by simp)

/-- What may follow a text without quotes: white space, a comma or a closing bracket. -/
def IsStop (x : Char) : Prop := Text.isSpace x = true ∨ x ∈ [',', ')', ']', '}']

theorem IsStop.isBareChar {x : Char} (h : IsStop x) : isBareChar x = false := by
  rcases h with hspace | hsign
  · simp [Sexpr.isBareChar, hspace]
  · have hall : [',', ')', ']', '}'].all fun c => !Sexpr.isBareChar c := by decide
    simpa using List.all_eq_true.1 hall x hsign

theorem IsStop.isNameChar {x : Char} (h : IsStop x) : isNameChar x = false := by
  rw [← Bool.not_eq_true]
  intro hname
  exact absurd (isBareChar_of_isNameChar hname) (by simp [h.isBareChar])

theorem IsStop.ne {x c : Char} (h : IsStop x) (hspace : Text.isSpace c = false)
    (hc : c ∉ [',', ')', ']', '}']) : x ≠ c := by
  rintro rfl
  rcases h with h | h
  · exact absurd h (by simp [hspace])
  · exact hc h

/-- The text that an expression holds. -/
def Expr.heldText? : Expr → Option String
  | .leaf (.string s) _ => some s
  | .leaf (.atom s) _ => some s
  | _ => none

theorem Expr.heldText?_dropSpans (e : Expr) : e.dropSpans.heldText? = e.heldText? := by
  cases e with
  | leaf l span => cases l <;> rfl
  | _ => rfl

/-! ### Quoted and raw strings -/

theorem escape_stop {x : Char} (hx : IsStop x) (r : List Char) :
    escape (x :: r) = .found 1 ['\\', x] := by
  have hne : ∀ c ∈ [endMark, 'n', 't', 'r', '0', '\\', '\'', '"', 'u'], x ≠ c := by
    have hall : ∀ c ∈ [endMark, 'n', 't', 'r', '0', '\\', '\'', '"', 'u'],
        Text.isSpace c = false ∧ c ∉ [',', ')', ']', '}'] := by
      simp only [List.forall_mem_cons, List.not_mem_nil, false_imp_iff, forall_true_iff]
      decide
    exact fun c hc => hx.ne (hall c hc).1 (hall c hc).2
  simp only [List.forall_mem_cons, List.not_mem_nil, false_imp_iff, forall_true_iff,
    and_true] at hne
  simp [escape, hne]

/-- An escape without braces is a backslash and one character, and stands for two characters at
most. -/
theorem escape_eq_ok {c : Char} {cs ys : List Char} {n : Nat} (hcs : cs.headD endMark ≠ '{')
    (h : escape (c :: cs) = ⟨n, .ok ys⟩) : n = 1 ∧ ys.length ≤ 2 := by
  have hcode : ∀ {k z}, codePoint cs ≠ ⟨k, .ok z⟩ := by
    intro k z hz
    unfold codePoint at hz
    split at hz
    · exact hcs rfl
    · cases hz
  unfold escape at h
  dsimp only at h
  split_ifs at h with hend hn ht hr hzero hsame hu
  · cases h
  · cases h
    exact ⟨rfl, by simp⟩
  · cases h
    exact ⟨rfl, by simp⟩
  · cases h
    exact ⟨rfl, by simp⟩
  · cases h
    exact ⟨rfl, by simp⟩
  · cases h
    exact ⟨rfl, by simp⟩
  · -- a code point would need a brace
    rw [List.drop_one, List.tail_cons] at h
    generalize codePoint cs = scanned at h hcode
    obtain ⟨k, e | z⟩ := scanned
    · cases h
    · exact absurd rfl hcode
  · cases h
    exact ⟨rfl, by simp⟩

theorem Scanned.outcome_after {α β : Type} {n : Nat} {f : α → β} {s : Scanned α} {y : β} :
    (s.after n f).outcome = .ok y ↔ ∃ x, s.outcome = .ok x ∧ f x = y := by
  obtain ⟨k, e | x⟩ := s
  · simp [Scanned.after, Except.map]
  · simp [Scanned.after, Except.map]

/-- One character of a quoted string that is no part of an escape. -/
theorem stringBody_cons_eq_ok {c : Char} {cs xs : List Char} (hslash : c ≠ '\\')
    (h : (stringBody '\'' 0 (c :: cs)).outcome = .ok xs) :
    xs = [] ∨ ∃ ys, (stringBody '\'' 0 cs).outcome = .ok ys ∧ c :: ys = xs := by
  rw [stringBody] at h
  split_ifs at h
  · cases h
    exact .inl rfl
  · cases h
  · exact .inr (Scanned.outcome_after.1 h)

theorem stringBody_stop {x : Char} (hx : IsStop x) {r xs : List Char}
    (h : (stringBody '\'' 0 (x :: r)).outcome = .ok xs) : x ∈ xs := by
  have hslash : x ≠ '\\' := hx.ne (by decide) (by decide)
  have hquote : x ≠ '\'' := hx.ne (by decide) (by decide)
  have hend : x ≠ endMark := hx.ne (by decide) (by decide)
  rw [stringBody, if_neg hquote, if_neg hend, if_neg hslash] at h
  obtain ⟨ys, -, rfl⟩ := Scanned.outcome_after.1 h
  exact List.mem_cons_self

theorem headD_ne_brace {t : List Char} (ht : ∀ c ∈ t, isBareChar c = true) {x : Char}
    (hx : IsStop x) (r : List Char) : (t ++ x :: r).headD endMark ≠ '{' := by
  cases t with
  | nil => exact hx.ne (by decide) (by decide)
  | cons c t => exact ne_of_isBareChar (ht c List.mem_cons_self) (by decide)

/-- A quoted string that starts in front of characters without white space and signs takes in the
character after them, or is shorter than they are. -/
theorem stringBody_bare {t : List Char} (ht : ∀ c ∈ t, isBareChar c = true) {x : Char}
    (hx : IsStop x) {r xs : List Char} (h : (stringBody '\'' 0 (t ++ x :: r)).outcome = .ok xs) :
    (∃ c ∈ xs, isBareChar c = false) ∨ xs.length < t.length := by
  induction t using List.twoStepInduction generalizing xs with
  | nil => exact .inl ⟨x, stringBody_stop hx h, hx.isBareChar⟩
  | singleton c =>
    by_cases hslash : c = '\\'
    · subst hslash
      rw [List.singleton_append, stringBody, if_neg (by decide), if_neg (by decide), if_pos rfl,
        escape_stop hx] at h
      obtain ⟨ys, -, rfl⟩ := Scanned.outcome_after.1 h
      exact .inl ⟨x, by simp, hx.isBareChar⟩
    · rcases stringBody_cons_eq_ok hslash h with rfl | ⟨ys, hys, rfl⟩
      · exact .inr (by simp)
      · exact .inl ⟨x, List.mem_cons_of_mem c (stringBody_stop hx hys), hx.isBareChar⟩
  | cons_cons c c' t ih ih' =>
    obtain ⟨hc, ht'⟩ := List.forall_mem_cons.1 ht
    by_cases hslash : c = '\\'
    · subst hslash
      rw [List.cons_append, stringBody, if_neg (by decide), if_neg (by decide), if_pos rfl] at h
      have ht := (List.forall_mem_cons.1 ht').2
      -- two characters are gone over, and stand for two at most
      split at h
      · rename_i n ys hescape
        obtain ⟨rfl, hlength⟩ := escape_eq_ok (headD_ne_brace ht hx r) hescape
        obtain ⟨zs, hpending, rfl⟩ := Scanned.outcome_after.1 h
        rw [List.cons_append, stringBody] at hpending
        obtain ⟨_, hzs, rfl⟩ := Scanned.outcome_after.1 hpending
        rcases ih ht hzs with ⟨y, hy, hbare⟩ | hlt
        · exact .inl ⟨y, List.mem_append_right ys hy, hbare⟩
        · refine .inr ?_
          simp only [id_eq, List.length_append, List.length_cons]
          omega
      · cases h
    · rcases stringBody_cons_eq_ok hslash h with rfl | ⟨ys, hys, rfl⟩
      · exact .inr (by simp)
      · rcases ih' c' ht' hys with ⟨y, hy, hbare⟩ | hlt
        · exact .inl ⟨y, List.mem_cons_of_mem c hy, hbare⟩
        · refine .inr ?_
          simp only [List.length_cons] at hlt ⊢
          omega

/-- A quoted string is not the text that it starts in. -/
theorem stringToken_bare {s : String} (hs : isAtomText s = true) {x : Char} (hx : IsStop x)
    {r : List Char} {l : Leaf} (h : (stringToken '\'' (s.toList ++ x :: r)).outcome = .ok l) :
    ∃ w, l = .string w ∧ w ≠ s := by
  obtain ⟨hne, hbare⟩ := isAtomText_iff.1 hs
  obtain ⟨c, t, hcs⟩ := List.exists_cons_of_ne_nil hne
  rw [hcs] at hbare
  rw [hcs, stringToken, if_neg (by decide)] at h
  split_ifs at h
  · cases h
  · obtain ⟨xs, hxs, rfl⟩ := Scanned.outcome_after.1 h
    refine ⟨_, rfl, ?_⟩
    rintro rfl
    rw [String.toList_ofList] at hcs
    rcases stringBody_bare (List.forall_mem_cons.1 hbare).2 hx hxs with ⟨y, hy, hyb⟩ | hlt
    · rw [hbare y (hcs ▸ hy)] at hyb
      cases hyb
    · rw [hcs, List.length_cons] at hlt
      omega

/-- No raw string starts in such a text, since no quote stands in it. -/
theorem rawToken_bare {s : String} (hs : isAtomText s = true) {x : Char} (hx : IsStop x)
    (r : List Char) (l : Leaf) : (rawToken (s.toList ++ x :: r)).outcome ≠ .ok l := by
  obtain ⟨hne, hbare⟩ := isAtomText_iff.1 hs
  obtain ⟨c, t, hcs⟩ := List.exists_cons_of_ne_nil hne
  rw [hcs] at hbare ⊢
  have ht := (List.forall_mem_cons.1 hbare).2
  -- the tag ends in front of a character of the text, or of the one after it
  have hquote : ((t ++ x :: r).dropWhile Text.isAlphanumeric).headD endMark ≠ '"' := by
    clear hcs hbare
    induction t with
    | nil =>
      have halpha : Text.isAlphanumeric x = false := by
        have hname := hx.isNameChar
        rw [isNameChar, Bool.and_eq_false_imp] at hname
        have hend : x ≠ endMark := hx.ne (by decide) (by decide)
        exact (Bool.or_eq_false_iff.1 (hname (by simpa using hend))).1
      rw [List.nil_append, List.dropWhile_cons_of_neg (by simp [halpha])]
      exact hx.ne (by decide) (by decide)
    | cons c t ih =>
      obtain ⟨hc, ht⟩ := List.forall_mem_cons.1 ht
      by_cases halpha : Text.isAlphanumeric c = true
      · rw [List.cons_append, List.dropWhile_cons_of_pos halpha]
        exact ih ht
      · rw [List.cons_append, List.dropWhile_cons_of_neg halpha]
        exact ne_of_isBareChar hc (by decide)
  intro h
  unfold rawToken at h
  dsimp only at h
  split_ifs at h with hhash hrest
  · cases h
  · cases h
  · have hdrop := congrArg (List.drop ((t ++ x :: r).takeWhile Text.isAlphanumeric).length)
      (List.takeWhile_append_dropWhile (p := Text.isAlphanumeric) (l := t ++ x :: r))
    rw [List.drop_left] at hdrop
    rw [hdrop] at hquote
    refine hquote (not_not.1 fun hne => hrest ?_)
    rwa [Nat.add_comm]

/-! ### Expressions -/

namespace Scan

theorem exists_name_front (cs : List Char) : ∃ p q, cs = p ++ q ∧
    (∀ c ∈ p, isNameChar c = true) ∧ ∀ c ∈ q.head?, isNameChar c = false := by
  induction cs with
  | nil => exact ⟨[], [], rfl, by simp, by simp⟩
  | cons c cs ih =>
    by_cases hc : isNameChar c = true
    · obtain ⟨p, q, rfl, hp, hq⟩ := ih
      exact ⟨c :: p, q, rfl, List.forall_mem_cons.2 ⟨hc, hp⟩, hq⟩
    · exact ⟨[], c :: cs, rfl, by simp, by simpa using hc⟩

/-- A name goes up to the first character of the text that is in no name. -/
theorem exists_of_name {s : String} (hs : isAtomText s = true) {x : Char} (hx : IsStop x)
    (hhead : ∀ c ∈ s.toList.head?, c ≠ '\'' ∧ c ≠ '#')
    {b r : List Char} {pos : Pos} {y : Expr} {c' : Cursor}
    (h : name (Cursor.settled b (s.toList ++ x :: r) pos) = .ok y c') :
    ∃ p q l span, s.toList = p ++ q ∧ IsNameToken p ∧ nameLeaf p = .ok l ∧ y = .leaf l span ∧
      (∀ c ∈ q.head?, isNameChar c = false) ∧
      (q ≠ [] → ∃ b' pos', c' = Cursor.settled b' (q ++ x :: r) pos') := by
  obtain ⟨-, hbare⟩ := isAtomText_iff.1 hs
  obtain ⟨p, q, hsplit, hp, hq⟩ := exists_name_front s.toList
  obtain ⟨token, l, spans, htake, htoken, hl, hspans, rfl⟩ := name_eq_ok.1 h
  have hdelimits : Delimits (q ++ x :: r) := by
    cases q with
    | nil => exact hx.isNameChar
    | cons c q => exact hq c rfl
  rw [Cursor.settled_rest, hsplit, List.append_assoc, hdelimits.takeWhile_append hp] at htake
  subst htake
  refine ⟨p, q, l, some spans, hsplit, ⟨htoken, hp, fun c hc => hhead c ?_⟩, hl, rfl, hq, ?_⟩
  · rwa [hsplit, List.head?_append_of_ne_nil p htoken]
  · intro hne
    obtain ⟨c, q, rfl⟩ := List.exists_cons_of_ne_nil hne
    -- what is left of the text starts with neither white space nor a comment
    have hc : isBareChar c = true := hbare c (by rw [hsplit]; simp)
    have hlayout : layoutLength false (c :: q ++ x :: r) = 0 :=
      layoutLength_of_ne (isSpace_of_isBareChar hc) (ne_of_isBareChar hc (by decide)) _
    rw [hsplit, List.append_assoc, Cursor.settled, Cursor.advance_append,
      ← List.nil_append (c :: q ++ x :: r), tokenSpans_append hlayout] at hspans
    obtain ⟨-, rfl⟩ := EStateM.Result.ok.inj hspans
    exact ⟨_, _, rfl⟩

/-- Where a text without quotes stands, a quoted string is read that is not the text, or a name: the
text up to the first character that is in no name. -/
theorem exprWithin_bare {s : String} (hs : isAtomText s = true) {x : Char} (hx : IsStop x)
    {depth : Nat} {b r : List Char} {pos : Pos} {y : Expr} {c' : Cursor}
    (h : exprWithin depth (Cursor.settled b (s.toList ++ x :: r) pos) = .ok y c') :
    s.toList.head? = some '\'' ∧ y.heldText? ≠ some s ∨
      ∃ p q l span, s.toList = p ++ q ∧ IsNameToken p ∧ nameLeaf p = .ok l ∧ y = .leaf l span ∧
        (∀ c ∈ q.head?, isNameChar c = false) ∧
        (q ≠ [] → ∃ b' pos', c' = Cursor.settled b' (q ++ x :: r) pos') := by
  obtain ⟨hne, hbare⟩ := isAtomText_iff.1 hs
  obtain ⟨c, t, hcs⟩ := List.exists_cons_of_ne_nil hne
  have hc : isBareChar c = true := hbare c (by rw [hcs]; exact List.mem_cons_self)
  have hsign : ∀ {z}, z ∈ signs → c ≠ z := fun hz => ne_of_isBareChar hc hz
  have hlayout : layoutLength false (s.toList ++ x :: r) = 0 := by
    rw [hcs]
    exact layoutLength_of_ne (isSpace_of_isBareChar hc) (hsign (by decide)) _
  cases depth with
  | zero => exact absurd h throw_ne_ok
  | succ depth =>
    rw [exprWithin_eq_exprOf depth hlayout, show (s.toList ++ x :: r).headD endMark = c by
      rw [hcs]; rfl, exprOf] at h
    split_ifs at h with hend hgroup hseq hquote hhash hmap hname
    · exact absurd h throw_ne_ok
    · exact absurd hgroup (hsign (by decide))
    · exact absurd hseq (hsign (by decide))
    · -- a quoted string; the other quotes do not stand in the text
      have hc' : c = '\'' := by
        rw [Bool.or_eq_true, decide_eq_true_iff, decide_eq_true_iff] at hquote
        exact hquote.resolve_left (hsign (by decide))
      rw [hc'] at h hcs
      obtain ⟨l, spans, hl, -, rfl⟩ := leafOf_eq_ok.1 h
      obtain ⟨w, rfl, hw⟩ := stringToken_bare hs hx hl
      exact .inl ⟨by rw [hcs]; rfl, fun heq => hw (Option.some.inj heq)⟩
    · obtain ⟨l, spans, hl, -⟩ := leafOf_eq_ok.1 h
      exact absurd hl (rawToken_bare hs hx r l)
    · exact absurd hmap (hsign (by decide))
    · refine .inr (exists_of_name hs hx (fun z hz => ?_) h)
      rw [hcs, List.head?_cons, Option.mem_some_iff] at hz
      subst hz
      exact ⟨fun heq => hquote (by simp [heq]), hhash⟩
    · exact absurd h throw_ne_ok

/-- The text of a name token that is read as an atom. -/
theorem eq_of_nameLeaf {token : List Char} {l : Leaf} (h : nameLeaf token = .ok l)
    {span : Option TokenSpans} {w : String} (hw : (Expr.leaf l span).heldText? = some w) :
    w.toList = token ∧ Numeral.ofToken? token = none := by
  unfold nameLeaf at h
  split at h
  · have hnumber := Numeral.isNumber_of_toLeaf h
    cases l with
    | atom name => cases hnumber
    | string value => cases hnumber
    | _ => cases hw
  · rename_i hnone
    cases h
    cases hw
    exact ⟨String.toList_ofList, hnone⟩

/-- A text that is read where it stands without quotes is a name and no number. -/
theorem readable_of_exprWithin_bare {s : String} (hs : isAtomText s = true) {x : Char}
    (hx : IsStop x) {depth : Nat} {b r : List Char} {pos : Pos} {y : Expr} {c' : Cursor}
    (h : exprWithin depth (Cursor.settled b (s.toList ++ x :: r) pos) = .ok y c')
    (hy : y.heldText? = some s) : (Leaf.atom s).Readable := by
  rcases exprWithin_bare hs hx h with ⟨-, hne⟩ | ⟨p, q, l, span, hsplit, hp, hl, rfl, -⟩
  · exact absurd hy hne
  · obtain ⟨rfl, hnone⟩ := eq_of_nameLeaf hl hy
    exact ⟨hp, hnone⟩

/-- Nothing is read in front of a character that is in no name, where a text goes on with it. -/
theorem exprWithin_bare_ne_ok {q : List Char} (hne : q ≠ []) (hq : ∀ c ∈ q, isBareChar c = true)
    (hhead : ∀ c ∈ q.head?, isNameChar c = false) {x : Char} (hx : IsStop x) {depth : Nat}
    {b r : List Char} {pos : Pos} {y : Expr} {c' : Cursor} :
    exprWithin depth (Cursor.settled b (q ++ x :: r) pos) ≠ .ok y c' := by
  intro h
  have hs : isAtomText (String.ofList q) = true := by
    rw [isAtomText_iff, String.toList_ofList]
    exact ⟨hne, hq⟩
  rw [← String.toList_ofList (l := q)] at h
  rcases exprWithin_bare hs hx h with ⟨hquote, -⟩ | ⟨p, q', l, span, hsplit, hp, -⟩
  · rw [String.toList_ofList] at hquote
    exact absurd (hhead _ hquote) (by decide)
  · rw [String.toList_ofList] at hsplit
    obtain ⟨c, p, rfl⟩ := List.exists_cons_of_ne_nil hp.ne_nil
    have hc := hhead c (by rw [hsplit]; rfl)
    rw [hp.isNameChar c List.mem_cons_self] at hc
    cases hc

/-- A key that is read where it stands without quotes is a name together with its colon. -/
theorem isNameToken_of_fieldOf_bare {k : String} (hk : isAtomText k = true)
    (hquote : k.toList.head? ≠ some '\'') {depth : Nat} {b r : List Char} {pos : Pos} {f : Field}
    {c' : Cursor}
    (h : fieldOf (exprWithin depth) (Cursor.settled b (k.toList ++ ':' :: ' ' :: r) pos) =
      .ok f c') : IsNameToken (k.toList ++ [':']) := by
  obtain ⟨hne, hbare⟩ := isAtomText_iff.1 hk
  have hs : isAtomText (k ++ ":") = true := by
    rw [isAtomText_iff, String.toList_append]
    refine ⟨by simp, fun c hc => ?_⟩
    rcases List.mem_append.1 hc with hc | hc
    · exact hbare c hc
    · rw [List.mem_singleton.1 (show c ∈ [':'] from hc)]
      decide
  have htext : k.toList ++ ':' :: ' ' :: r = (k ++ ":").toList ++ ' ' :: r := by
    rw [String.toList_append]
    simp
  obtain ⟨key, colon, c₁, v, hkey, hvalue, -⟩ := fieldOf_eq_ok.1 h
  obtain ⟨e, c₂, he, hcut⟩ := keyOf_eq_ok.1 hkey
  rw [htext] at he
  rcases exprWithin_bare hs (.inl isSpace_blank) he with
    ⟨hhead, -⟩ | ⟨p, q, l, span, hsplit, hp, hl, rfl, hq, hrest⟩
  · rw [String.toList_append, List.head?_append_of_ne_nil _ hne] at hhead
    exact absurd hhead hquote
  · rw [String.toList_append] at hsplit
    by_cases hqne : q = []
    · rw [hqne, List.append_nil] at hsplit
      exact hsplit ▸ hp
    · -- the name ends early: neither a colon nor a value follows it
      obtain ⟨b', pos', rfl⟩ := hrest hqne
      have hqbare : ∀ c ∈ q, isBareChar c = true := fun c hc =>
        (isAtomText_iff.1 hs).2 c (by rw [String.toList_append, hsplit]; simp [hc])
      rcases hcut with ⟨cs, spans, token, -, hcut⟩ | ⟨-, hcolon, -⟩
      · obtain ⟨rfl, -⟩ := cutKey_eq_ok.1 hcut
        exact absurd hvalue (exprWithin_bare_ne_ok hqne hqbare hq (.inl isSpace_blank))
      · obtain ⟨c, q, rfl⟩ := List.exists_cons_of_ne_nil hqne
        rw [Cursor.settled_current, List.cons_append, List.headD_cons] at hcolon
        have hc := hq c rfl
        rw [hcolon] at hc
        exact absurd hc (by decide)

/-- A value that is read where it stands without quotes is a name and no number, if a text was read
and the other fields after it. -/
theorem readable_of_value_bare {v : String} (hv : isAtomText v = true)
    (hquote : v.toList.head? ≠ some '\'') {x : Char} (hx : IsStop x) {depth fuel : Nat}
    {b r : List Char} {pos : Pos} {y : Expr} {c₁ c₂ c' : Cursor} {separator : TokenSpans}
    {fs : List (Field × TokenSpans)}
    (h : exprWithin depth (Cursor.settled b (v.toList ++ x :: r) pos) = .ok y c₁)
    (hy : y.heldText? ≠ none) (hsep : tokenSpans c₁.skipComma = .ok separator c₂)
    (hfs : itemsUntil '}' (fieldOf (exprWithin depth)) fuel c₂ = .ok fs c') :
    (Leaf.atom v).Readable := by
  rcases exprWithin_bare hv hx h with ⟨hhead, -⟩ | ⟨p, q, l, span, hsplit, hp, hl, rfl, hq, hrest⟩
  · exact absurd hhead hquote
  · obtain ⟨w, hw⟩ := Option.ne_none_iff_exists'.1 hy
    obtain ⟨rfl, hnone⟩ := eq_of_nameLeaf hl hw
    by_cases hqne : q = []
    · rw [hqne, List.append_nil] at hsplit
      rw [← hsplit] at hp hnone
      exact ⟨hp, hnone⟩
    · -- the name ends early, and no field starts there
      obtain ⟨b', pos', rfl⟩ := hrest hqne
      have hqbare : ∀ c ∈ q, isBareChar c = true := fun c hc =>
        (isAtomText_iff.1 hv).2 c (by rw [hsplit]; simp [hc])
      obtain ⟨c, q, rfl⟩ := List.exists_cons_of_ne_nil hqne
      have hc := hqbare c List.mem_cons_self
      have hlayout : layoutLength false (c :: q ++ x :: r) = 0 :=
        layoutLength_of_ne (isSpace_of_isBareChar hc) (ne_of_isBareChar hc (by decide)) _
      have hcomma : (c :: q ++ x :: r).headD endMark ≠ ',' := ne_of_isBareChar hc (by decide)
      rw [Cursor.skipComma_of_ne hcomma, Cursor.settled, ← List.nil_append (c :: q ++ x :: r),
        tokenSpans_append hlayout] at hsep
      obtain ⟨-, rfl⟩ := EStateM.Result.ok.inj hsep
      cases fuel with
      | zero => exact absurd hfs itemsUntil_zero
      | succ fuel =>
        obtain ⟨hcur, -⟩ | ⟨-, -, f, c₁, s, c₂, fs', hf, -⟩ := itemsUntil_eq_ok.1 hfs
        · exact absurd hcur (ne_of_isBareChar hc (by decide))
        · obtain ⟨key, colon, c₃, v', hkey, -⟩ := fieldOf_eq_ok.1 hf
          obtain ⟨e, c₄, he, -⟩ := keyOf_eq_ok.1 hkey
          exact absurd he (exprWithin_bare_ne_ok hqne hqbare hq hx)

end Scan
end Sexpr
