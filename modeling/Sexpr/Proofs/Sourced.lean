/-
Expressions as they stand in their source.

An expression that was read with its spans knows its tokens and the layout after each of
them, and no name in it runs on into the token after it. Parts may have been put in since;
what is known about those is left open.

* `TokenSpans.Holds` — the spans of a token and of the layout after it;
* `Expr.Sourced`, `Document.Sourced` — expressions and documents with their spans;
* `Expr.isApart` — no name runs on into the token after it;
* `Scan.readsSource_exprWithin` — what the reader gives and where it stops;
* `Document.sourced_of_read` — a whole text.
-/
import Sexpr.Print.Source
import Sexpr.Proofs.Lossless
import Sexpr.Proofs.Spelling

namespace Sexpr

/-! ### Spans -/

/-- The spans are those of a token and of the layout after it. -/
structure TokenSpans.Holds (t : TokenSpans) (token gap : List Char) : Prop where
  token : t.token.map (·.raw.toList) = some token
  space : t.space.map (·.raw.toList) = some gap

theorem TokenSpans.Holds.exists_eq {t : TokenSpans} {token gap : List Char}
    (h : t.Holds token gap) : ∃ a b, t = ⟨some a, some b⟩ ∧ a.raw.toList = token ∧
      b.raw.toList = gap := by
  obtain ⟨a, ha, htoken⟩ := Option.map_eq_some_iff.1 h.token
  obtain ⟨b, hb, hgap⟩ := Option.map_eq_some_iff.1 h.space
  obtain ⟨a', b'⟩ := t
  exact ⟨a, b, by simp_all, htoken, hgap⟩

theorem TokenSpans.Holds.text {t : TokenSpans} {token gap : List Char} (h : t.Holds token gap) :
    t.text = String.ofList (token ++ gap) := by
  obtain ⟨a, b, rfl, rfl, rfl⟩ := h.exists_eq
  simp [TokenSpans.text]

theorem TokenSpans.Holds.sourceText? {t : TokenSpans} {token gap : List Char}
    (h : t.Holds token gap) : Sexpr.sourceText? (some t) = some t.text := by
  obtain ⟨a, b, rfl, -, -⟩ := h.exists_eq
  rfl

/-- What can stand after an item: nothing, or a comma and a blank. -/
def TokenSpans.IsSeparator (t : TokenSpans) : Prop :=
  t.Holds [] [] ∨ ∃ g, Blank g ∧ t.Holds [','] g

theorem TokenSpans.IsSeparator.sourceText? {t : TokenSpans} (h : t.IsSeparator) :
    Sexpr.sourceText? (some t) = some t.text := by
  rcases h with h | ⟨g, -, h⟩
  · exact h.sourceText?
  · exact h.sourceText?

/-- The layout after a token, if it is known. -/
def layoutAfter (t : Option TokenSpans) : List Char :=
  ((t.bind TokenSpans.space).map (·.raw.toList)).getD []

theorem TokenSpans.Holds.layoutAfter {t : TokenSpans} {token gap : List Char}
    (h : t.Holds token gap) : layoutAfter (some t) = gap := by
  obtain ⟨a, b, rfl, -, rfl⟩ := h.exists_eq
  rfl

/-- The layout after an expression, if it is known. -/
def Expr.trailing : Expr → List Char
  | .leaf _ span => layoutAfter span
  | .items _ _ spans => layoutAfter spans.closing
  | .map _ spans => layoutAfter spans.closing
  | .bare _ => []

/-! ### Expressions -/

/-- A field with the spans of its colon. A key with its colon at its end is the rest of a
token. -/
inductive FieldSourced (W : Expr → Prop) : Field → Prop
  | fused {name : String} {span : Option TokenSpans} {v : Expr} {colon : TokenSpans}
      {g : List Char} (hname : IsNameToken (name.toList ++ [':']))
      (hspan : ∀ t ∈ span, t.Holds name.toList []) (hcolon : colon.Holds [':'] g) (hg : Blank g)
      (hv : W v) : FieldSourced W ⟨.leaf (.atom name) span, v, some colon⟩
  | apart {k v : Expr} {colon : TokenSpans} {g : List Char} (hk : W k) (hblank : Blank k.trailing)
      (hends : k.endsInColon = false) (hne : k.isName = true → k.trailing ≠ [])
      (hcolon : colon.Holds [':'] g) (hg : Blank g) (hv : W v) :
      FieldSourced W ⟨k, v, some colon⟩

theorem FieldSourced.value {W : Expr → Prop} {f : Field} (h : FieldSourced W f) : W f.value := by
  cases h with
  | fused _ _ _ _ hv => exact hv
  | apart _ _ _ _ _ _ hv => exact hv

theorem FieldSourced.exists_colon {W : Expr → Prop} {f : Field} (h : FieldSourced W f) :
    ∃ colon g, f.separator = some colon ∧ colon.Holds [':'] g ∧ Blank g := by
  cases h with
  | fused _ _ hcolon hg => exact ⟨_, _, rfl, hcolon, hg⟩
  | apart _ _ _ _ hcolon hg => exact ⟨_, _, rfl, hcolon, hg⟩

/-- An expression with its spans, in which parts with the property `new` have been put. -/
inductive Expr.Sourced (new : Expr → Prop) : Expr → Prop
  | new {e : Expr} (h : new e) : Sourced new e
  | leaf {l : Leaf} {t : TokenSpans} {s g : List Char} (hs : l.SpelledAs s) (ht : t.Holds s g) :
      Sourced new (.leaf l (some t))
  | items {enclosure : Enclosure} {values : List Expr} {o c : TokenSpans}
      {separators : List TokenSpans} {g g' : List Char}
      (ho : o.Holds enclosure.brackets.1.toList g) (hg : Blank g)
      (hvalues : ∀ v ∈ values, Sourced new v) (hblank : ∀ v ∈ values, Blank v.trailing)
      (hseps : ∀ s ∈ separators, s.IsSeparator) (hlen : separators.length = values.length)
      (hc : c.Holds enclosure.brackets.2.toList g') :
      Sourced new (.items enclosure values ⟨some o, some separators, some c⟩)
  | map {fields : List Field} {o c : TokenSpans} {separators : List TokenSpans}
      {g g' : List Char} (ho : o.Holds ['{'] g) (hg : Blank g)
      (hfields : ∀ f ∈ fields, FieldSourced (Sourced new) f)
      (hblank : ∀ f ∈ fields, Blank f.value.trailing)
      (hseps : ∀ s ∈ separators, s.IsSeparator) (hlen : separators.length = fields.length)
      (hc : c.Holds ['}'] g') : Sourced new (.map fields ⟨some o, some separators, some c⟩)

/-- Expressions of a text with the layout before each of them and at the end. -/
inductive SourcedText (new : Expr → Prop) : List Char → List Expr → Prop
  | nil {g : List Char} (h : GapBefore g []) : SourcedText new g []
  | cons {g : List Char} {e : Expr} {es : List Expr} (hg : Blank g) (he : e.Sourced new)
      (hes : SourcedText new e.trailing es) : SourcedText new g (e :: es)

theorem SourcedText.sourced_of_mem {new : Expr → Prop} {g : List Char} {es : List Expr}
    (h : SourcedText new g es) : ∀ e ∈ es, e.Sourced new := by
  induction h with
  | nil => simp
  | cons _ he _ ih => exact List.forall_mem_cons.2 ⟨he, ih⟩

/-- A document with its spans. -/
def Document.Sourced (new : Expr → Prop) (d : Document) : Prop :=
  ∃ span, d.leading = some span ∧ SourcedText new span.raw.toList d.exprs

/-! ### Names that run on -/

/-- Whether an expression is a name and no layout is known to stand after it. -/
def Expr.isOpenName (e : Expr) : Bool := e.isName && e.trailing.isEmpty

/-- Whether a name goes on over the first character of an expression. -/
def Expr.startsInName (e : Expr) : Bool := isNameChar (e.text.toList.headD endMark)

/-- Whether a name runs on into the item that is written after it. -/
def Expr.runsOn (e : Expr) (separator : Option TokenSpans) (es : List Expr) : Bool :=
  e.isOpenName && (itemGap separator es.isEmpty e.hasSpans).isEmpty &&
    es.head?.any Expr.startsInName

/-- Whether a key runs on, with its colon, into the value. -/
def Field.runsOn (f : Field) : Bool :=
  f.key.isOpenName && keyGap f.separator f.key.hasSpans = ":" && f.value.startsInName

mutual

/-- Whether no name in an expression runs on into the token that is written after it. -/
def Expr.isApart : Expr → Bool
  | .leaf _ _ => true
  | .items _ values spans => Expr.areApart (spans.separators.getD []) values
  | .map fields _ => Field.areApart fields
  | .bare _ => true

/-- The same for items with their separators. -/
def Expr.areApart (separators : List TokenSpans) : List Expr → Bool
  | [] => true
  | e :: es => e.isApart && !e.runsOn separators.head? es && Expr.areApart separators.tail es

/-- The same for fields. -/
def Field.areApart : List (FieldOf Expr) → Bool
  | [] => true
  | ⟨k, v, separator⟩ :: fs =>
    k.isApart && v.isApart && !Field.runsOn ⟨k, v, separator⟩ && Field.areApart fs

end

/-- Whether no name in a document runs on into the token that is written after it. -/
def Document.isApart (d : Document) : Bool := d.exprs.all Expr.isApart

/-- What is known of an expression that was read in front of a text. -/
structure Expr.ReadBefore (e : Expr) (r : List Char) : Prop where
  sourced : e.Sourced (fun _ => False)
  apart : e.isApart = true
  gap : GapBefore e.trailing r
  stop : e.isName = true → Delimits (e.trailing ++ r)

/-- The same of a field. -/
structure Field.ReadBefore (f : Field) (r : List Char) : Prop where
  sourced : FieldSourced (Expr.Sourced fun _ => False) f
  apart : Field.areApart [f] = true
  gap : GapBefore f.value.trailing r

namespace Scan

variable {α : Type}

/-- A production that starts where no layout stands gives a result with a property that
depends on what follows it. -/
def Leaves (p : Scan α) (P : α → List Char → Prop) : Prop :=
  ∀ ⦃b r pos x b' r' pos'⦄, layoutLength false r = 0 →
    p (Cursor.settled b r pos) = .ok x (Cursor.settled b' r' pos') → P x r'

/-! ### Leaves -/

theorem holds_of_tokenSpans {b t r b' r' : List Char} {m p p' : Pos} {s : TokenSpans}
    (h : tokenSpans ⟨b, t, r, m, p⟩ = .ok s (Cursor.settled b' r' p')) :
    ∃ g, r = g ++ r' ∧ GapBefore g r' ∧ s.Holds t.reverse g := by
  obtain ⟨g, r₁, rfl, hg, -, -⟩ := exists_layout false r
  rw [tokenSpans_append hg b t m p] at h
  obtain ⟨rfl, hc⟩ := EStateM.Result.ok.inj h
  obtain rfl : r₁ = r' := congrArg Cursor.rest hc
  exact ⟨g, rfl, hg, by simp, by simp⟩

/-- A string ends at its own end, whatever follows. -/
theorem leaves_leafOf {scan : List Char → Scanned Leaf} (hwithin : ∀ cs, (scan cs).Within cs)
    (hscan : Determined scan)
    (hspell : ∀ {l s}, (∀ r, scan (s ++ r) = .found s.length l) → l.SpelledAs s)
    (hname : ∀ {cs n l}, scan cs = .found n l → ∀ span, (Expr.leaf l span).isName = false) :
    Leaves (leafOf scan) Expr.ReadBefore := by
  intro b r pos e b' r' pos' _ h
  obtain ⟨l, t, hl, ht, rfl⟩ := leafOf_eq_ok.1 h
  rw [Cursor.settled_rest] at hl ht
  obtain ⟨s, r₁, rfl, hlen, -⟩ := (hwithin r).exists_append
  have hfound : scan (s ++ r₁) = .found s.length l := by
    rw [← hlen, Scanned.found, ← hl]
  rw [hlen, Cursor.settled, Cursor.advance_append, List.append_nil] at ht
  obtain ⟨g, rfl, hg, hholds⟩ := holds_of_tokenSpans ht
  rw [List.reverse_reverse] at hholds
  refine ⟨.leaf (hspell fun r => hscan hfound r) hholds, rfl, ?_, fun h => ?_⟩
  · rw [Expr.trailing, hholds.layoutAfter]
    exact hg
  · exact absurd h (by simp [hname hfound])

theorem delimits_of_takeWhile {s r : List Char} (h : (s ++ r).takeWhile isNameChar = s) :
    Delimits r := by
  cases r with
  | nil => exact delimits_nil
  | cons c r =>
    show isNameChar c = false
    rw [← Bool.not_eq_true]
    intro hc
    have hs : ∀ x ∈ s, isNameChar x = true := by
      intro x hx
      rw [← h] at hx
      exact List.mem_takeWhile_imp hx
    rw [List.takeWhile_append_of_pos hs, List.takeWhile_cons_of_pos hc,
      List.append_right_eq_self] at h
    exact absurd h (by simp)

/-- A name goes on as far as it can. -/
theorem readBefore_of_name {b r b' r' : List Char} {pos pos' : Pos} {e : Expr}
    (hr : r.headD endMark ≠ '\'' ∧ r.headD endMark ≠ '#')
    (h : name (Cursor.settled b r pos) = .ok e (Cursor.settled b' r' pos')) :
    e.ReadBefore r' := by
  obtain ⟨s, l, t, htoken, hne, hl, ht, rfl⟩ := name_eq_ok.1 h
  rw [Cursor.settled_rest] at htoken
  obtain ⟨r₁, rfl⟩ : s <+: r := htoken ▸ List.takeWhile_prefix _
  rw [Cursor.settled, Cursor.advance_append, List.append_nil] at ht
  obtain ⟨g, rfl, hg, hholds⟩ := holds_of_tokenSpans ht
  rw [List.reverse_reverse] at hholds
  have hs : IsNameToken s := by
    refine ⟨hne, fun y hy => ?_, fun y hy => ?_⟩
    · rw [← htoken] at hy
      exact List.mem_takeWhile_imp hy
    · obtain ⟨y', s, rfl⟩ := List.exists_cons_of_ne_nil hne
      obtain rfl : y' = y := Option.some_inj.1 hy
      exact hr
  have htrailing : (Expr.leaf l (some t)).trailing = g := hholds.layoutAfter
  refine ⟨.leaf (.name hs hl) hholds, rfl, ?_, fun _ => ?_⟩
  · rw [htrailing]
    exact hg
  · rw [htrailing]
    exact delimits_of_takeWhile htoken

/-! ### Brackets -/

/-- Items that were read one after the other, in front of a text that goes on. -/
def Follows (text : α → String) (P : α → List Char → Prop) :
    List (α × TokenSpans) → List Char → Prop
  | [], _ => True
  | (x, s) :: xs, r =>
    let rest := s.text.toList ++ ((joinItems text xs).toList ++ r)
    s.IsSeparator ∧ rest.headD endMark ≠ endMark ∧ P x rest ∧ Follows text P xs r

theorem current_ne_of_itemsUntil {closing : Char} {item : Scan α} {fuel : Nat} {c c' : Cursor}
    {xs : List (α × TokenSpans)} (hclosing : closing ≠ endMark)
    (h : itemsUntil closing item fuel c = .ok xs c') : c.current ≠ endMark := by
  cases fuel with
  | zero => exact absurd h itemsUntil_zero
  | succ fuel =>
    obtain ⟨hc, -, -⟩ | ⟨-, hend, -⟩ := itemsUntil_eq_ok.1 h
    · rwa [hc]
    · exact hend

/-- A separator is empty, or a comma with the layout after it. -/
theorem isSeparator_of_skipComma {b r b' r' : List Char} {pos pos' : Pos} {s : TokenSpans}
    (hr : layoutLength false r = 0) (hr' : r'.headD endMark ≠ endMark)
    (h : tokenSpans (Cursor.settled b r pos).skipComma = .ok s (Cursor.settled b' r' pos')) :
    s.IsSeparator ∧ r.headD endMark ≠ endMark := by
  unfold Cursor.skipComma at h
  split_ifs at h with hcomma
  · obtain ⟨r, rfl⟩ := exists_cons_of_headD hcomma (by decide)
    rw [Cursor.settled, Cursor.next_cons] at h
    obtain ⟨g, rfl, hg, hs⟩ := holds_of_tokenSpans h
    exact ⟨.inr ⟨g, hg.blank hr', hs⟩, by simp; decide⟩
  · obtain ⟨g, rfl, hg, hs⟩ := holds_of_tokenSpans h
    -- no layout is left where a separator starts
    obtain rfl : g = [] := List.length_eq_zero_iff.1 (hg.symm.trans hr)
    exact ⟨.inl hs, hr'⟩

theorem leaves_itemsUntil {closing : Char} {item : Scan α} {text : α → String}
    {P : α → List Char → Prop} (hclosing : closing ≠ endMark) (hkeep : Keeps item text)
    (hitem : Leaves item P) (fuel : Nat) :
    Leaves (itemsUntil closing item fuel) (Follows text P) := by
  induction fuel with
  | zero =>
    intro b r pos xs b' r' pos' _ h
    exact absurd h itemsUntil_zero
  | succ fuel ih =>
    intro b r pos xs b' r' pos' hr h
    obtain ⟨-, rfl, -⟩ | ⟨-, -, x, c₁, s, c₂, ys, hx, hs, hys, rfl⟩ := itemsUntil_eq_ok.1 h
    · exact trivial
    · obtain ⟨b₁, r₁, p₁, rfl, rfl, -, hr₁⟩ := hkeep hr hx
      have hP := hitem hr hx
      obtain ⟨b₂, r₂, p₂, rfl, rfl, -, hr₂⟩ := keeps_skipComma hs
      -- the items after the separator, or the bracket, show that the text goes on
      have hend := current_ne_of_itemsUntil hclosing hys
      obtain ⟨hsep, hne⟩ := isSeparator_of_skipComma hr₁ hend hs
      obtain ⟨b₃, r₃, p₃, hc, rfl, -, -⟩ := keeps_itemsUntil hkeep fuel hr₂ hys
      obtain rfl : r' = r₃ := congrArg Cursor.rest hc
      exact ⟨hsep, hne, hP, ih hr₂ hys⟩

/-- Brackets with the items between them. -/
theorem leaves_between {opening closing : Char} {item : Scan α} {text : α → String}
    {P : α → List Char → Prop} (hopening : opening ≠ endMark) (hclosing : closing ≠ endMark)
    (hkeep : Keeps item text) (hitem : Leaves item P) :
    Leaves (between opening closing item) (fun x r => ∃ xs o c g g',
      x = (xs.map Prod.fst, ⟨some o, some (xs.map Prod.snd), some c⟩) ∧ o.Holds [opening] g ∧
        Blank g ∧ Follows text P xs (closing :: (g' ++ r)) ∧ c.Holds [closing] g' ∧
        GapBefore g' r) := by
  intro b r pos x b' r' pos' _ h
  obtain ⟨hcur, o, c₁, xs, c₂, c, ho, hxs, hc, rfl⟩ := between_eq_ok.1 h
  obtain ⟨r, rfl⟩ := exists_cons_of_headD hcur hopening
  rw [Cursor.settled, Cursor.next_cons] at ho
  obtain ⟨b₁, r₁, p₁, rfl, -, -, hr₁⟩ := keeps_tokenSpans (by simpa using hopening.symm) ho
  obtain ⟨g, rfl, hg, hopen⟩ := holds_of_tokenSpans ho
  have hend := current_ne_of_itemsUntil hclosing hxs
  have hclose := current_of_itemsUntil hxs
  obtain ⟨b₂, r₂, p₂, rfl, rfl, -, -⟩ := keeps_itemsUntil hkeep _ hr₁ hxs
  have hfollows := leaves_itemsUntil hclosing hkeep hitem _ hr₁ hxs
  obtain ⟨r₂, rfl⟩ := exists_cons_of_headD hclose hclosing
  rw [Cursor.settled, Cursor.next_cons] at hc
  obtain ⟨g', rfl, hg', hclosed⟩ := holds_of_tokenSpans hc
  exact ⟨xs, o, c, g, g', rfl, hopen, hg.blank hend, hfollows, hclosed, hg'⟩

theorem Follows.isSeparator {text : α → String} {P : α → List Char → Prop}
    {xs : List (α × TokenSpans)} {r : List Char} (h : Follows text P xs r) :
    ∀ s ∈ xs.map Prod.snd, s.IsSeparator := by
  induction xs with
  | nil => simp
  | cons x xs ih => exact List.forall_mem_cons.2 ⟨h.1, ih h.2.2.2⟩

/-- What holds of each item in front of a text that goes on, holds of all of them. -/
theorem Follows.forall {text : α → String} {P : α → List Char → Prop} {Q : α → Prop}
    {xs : List (α × TokenSpans)} {r : List Char} (h : Follows text P xs r)
    (himp : ∀ {x r}, P x r → r.headD endMark ≠ endMark → Q x) : ∀ x ∈ xs.map Prod.fst, Q x := by
  induction xs with
  | nil => simp
  | cons x xs ih => exact List.forall_mem_cons.2 ⟨himp h.2.2.1 h.2.1, ih h.2.2.2⟩

theorem Follows.areApart {xs : List (Expr × TokenSpans)} {r : List Char}
    (h : Follows Expr.text Expr.ReadBefore xs r) :
    Expr.areApart (xs.map Prod.snd) (xs.map Prod.fst) = true := by
  induction xs with
  | nil => rfl
  | cons x xs ih =>
    obtain ⟨x, s⟩ := x
    obtain ⟨hsep, -, hx, hxs⟩ := h
    rw [List.map_cons, List.map_cons, Expr.areApart, hx.apart, List.tail_cons, ih hxs,
      Bool.true_and, Bool.and_true, Bool.not_eq_true', ← Bool.not_eq_true]
    intro hruns
    simp only [Expr.runsOn, Bool.and_eq_true, Expr.isOpenName, List.head?_cons] at hruns
    obtain ⟨⟨⟨hname, hnil⟩, hgap⟩, hnext⟩ := hruns
    -- neither layout nor a separator stands after the name, so the next item does
    have hstop := hx.stop hname
    have hempty : s.text.isEmpty = true := by
      rw [itemGap, hsep.sourceText?] at hgap
      dsimp only at hgap
      split_ifs at hgap with hif
      · exact absurd hgap (by decide)
      · exact hgap
    cases xs with
    | nil => exact absurd hnext (by simp)
    | cons y ys =>
      rw [List.isEmpty_iff.1 hnil, String.isEmpty_iff.1 hempty] at hstop
      simp only [List.map_cons, List.head?_cons, Option.any_some, Expr.startsInName] at hnext
      have hne : y.1.text.toList ≠ [] := by
        intro hnil
        rw [hnil] at hnext
        exact absurd hnext (by decide)
      simp only [String.toList_empty, List.nil_append, joinItems, String.toList_append,
        List.append_assoc, Delimits, headD_append hne] at hstop
      rw [hstop] at hnext
      exact absurd hnext (by simp)

/-! ### Fields -/

/-- What is needed of a production for the parts of brackets. -/
structure ReadsSource (expr : Scan Expr) : Prop where
  keeps : Keeps expr Expr.text
  leaves : Leaves expr Expr.ReadBefore
  ne_end : ∀ {b r pos e c'}, layoutLength false r = 0 →
    expr (Cursor.settled b r pos) = .ok e c' → r.headD endMark ≠ endMark

/-- A key and its colon that were read in front of a text. -/
inductive KeyBefore : Expr × TokenSpans → List Char → Prop
  | fused {name : String} {t colon : TokenSpans} {g r : List Char}
      (hname : IsNameToken (name.toList ++ [':'])) (ht : t.Holds name.toList [])
      (hcolon : colon.Holds [':'] g) (hg : GapBefore g r) (hstop : Delimits (g ++ r)) :
      KeyBefore (.leaf (.atom name) (some t), colon) r
  | apart {k : Expr} {colon : TokenSpans} {g r : List Char} (hk : k.ReadBefore (':' :: (g ++ r)))
      (hends : k.endsInColon = false) (hcolon : colon.Holds [':'] g) (hg : GapBefore g r) :
      KeyBefore (k, colon) r

/-- The token of an atom is its name. -/
theorem toList_of_nameLeaf {s : List Char} {name : String} (h : nameLeaf s = .ok (.atom name)) :
    name.toList = s := by
  unfold nameLeaf at h
  split at h
  · exact absurd (Numeral.isNumber_of_toLeaf h) (by simp [Leaf.isNumber])
  · cases h
    exact String.toList_ofList

/-- The three cuts of a token that ends in a colon. -/
theorem cuts_of_slice {token key gap stop : Span} {s : List Char}
    (htoken : token.raw.toList = s ++ [':']) (hkey : token.slice none (some (-1)) = .ok key)
    (hgap : token.slice (some (-1)) (some (-1)) = .ok gap)
    (hstop : token.slice (some (-1)) none = .ok stop) :
    key.raw.toList = s ∧ gap.raw.toList = [] ∧ stop.raw.toList = [':'] := by
  have hcut : Span.offset (s ++ [':']).length (-1) = s.length := by
    simp only [Span.offset, List.length_append, List.length_singleton]
    omega
  have hzero : Span.offset (s ++ [':']).length 0 = 0 := by simp [Span.offset]
  rw [Span.raw_of_slice hkey, Span.raw_of_slice hgap, Span.raw_of_slice hstop, htoken]
  simp only [Option.getD_none, Option.getD_some]
  rw [hcut, hzero, Span.offset_length, List.take_length, List.take_left, List.drop_zero,
    List.drop_left, List.drop_length]
  exact ⟨rfl, rfl, rfl⟩

theorem leaves_keyOf {expr : Scan Expr} (hexpr : ReadsSource expr) :
    Leaves (keyOf expr) KeyBefore := by
  rintro b r pos ⟨k, colon⟩ b' r' pos' hr h
  obtain ⟨key, c₁, hkey, hcut | ⟨hnone, hcolon, hs, rfl⟩⟩ := keyOf_eq_ok.1 h
  · obtain ⟨cs, spans, token, hc, hcut⟩ := hcut
    obtain ⟨name, space, rfl, hlast, rfl, rfl⟩ := colonKey?_eq_some.1 hc
    obtain ⟨rfl, key, gap, stop, hkey', hgap, hstop, rfl, rfl⟩ := cutKey_eq_ok.1 hcut
    have hread := hexpr.leaves hr hkey
    cases hread.sourced with
    | new h => exact h.elim
    | @leaf l t s g hs ht =>
      obtain ⟨htoken, hl⟩ :=
        hs.of_isName (show (Expr.leaf (.atom name) none).isName = true from rfl)
      obtain ⟨a, sp, heq, ha, hsp⟩ := ht.exists_eq
      cases heq
      -- the token is the name, and the last character of the name is the colon
      obtain ⟨ys, hys⟩ := List.getLast?_eq_some_iff.1 hlast
      have hname := toList_of_nameLeaf hl
      obtain ⟨hk, hg, hcolon⟩ := cuts_of_slice (ha.trans (hname.symm.trans hys)) hkey' hgap hstop
      rw [← hname, hys] at htoken
      have hdrop : name.toList.dropLast = ys := by rw [hys, List.dropLast_concat]
      have htrailing : (Expr.leaf (.atom name) (some ⟨some token, some sp⟩)).trailing = g := hsp
      rw [hdrop]
      refine .fused (g := g) ?_ ⟨?_, ?_⟩ ⟨?_, ?_⟩ ?_ ?_
      · rwa [String.toList_ofList]
      · simp [hk]
      · simp [hg]
      · simp [hcolon]
      · simp [hsp]
      · exact htrailing ▸ hread.gap
      · exact htrailing ▸ hread.stop rfl
  · obtain ⟨b₁, r₁, p₁, rfl, rfl, -, hr₁⟩ := hexpr.keeps hr hkey
    obtain ⟨r₁, rfl⟩ := exists_cons_of_headD hcolon (by decide)
    have hread := hexpr.leaves hr hkey
    rw [Cursor.settled, Cursor.next_cons] at hs
    obtain ⟨g, rfl, hg, hholds⟩ := holds_of_tokenSpans hs
    refine .apart hread ?_ hholds hg
    cases hread.sourced with
    | new h => exact h.elim
    | @leaf l t s g hs ht =>
      obtain ⟨a, sp, rfl, -, -⟩ := ht.exists_eq
      cases l with
      | atom name =>
        simp only [colonKey?, ite_eq_right_iff] at hnone
        rw [Expr.endsInColon, decide_eq_false_iff_not]
        intro hlast
        exact absurd (hnone hlast) (by simp)
      | _ => rfl
    | items => rfl
    | map => rfl

end Scan

/-- The colon of a field is written as it stands. -/
theorem TokenSpans.Holds.keyGap {colon : TokenSpans} {g : List Char} (h : colon.Holds [':'] g)
    (hasSpans : Bool) : keyGap (some colon) hasSpans = String.ofList (':' :: g) := by
  rw [Sexpr.keyGap, h.sourceText?, h.text]
  exact if_neg (by simp)

/-- A key with layout after it, in front of its colon, is no open name. -/
theorem Expr.ReadBefore.trailing_ne {k : Expr} {r : List Char} (h : k.ReadBefore (':' :: r))
    (hname : k.isName = true) : k.trailing ≠ [] := by
  intro hnil
  have hstop := h.stop hname
  rw [hnil] at hstop
  exact absurd hstop (show isNameChar ':' ≠ false by decide)

namespace Scan

theorem leaves_fieldOf {expr : Scan Expr} (hexpr : ReadsSource expr) :
    Leaves (fieldOf expr) Field.ReadBefore := by
  intro b r pos f b' r' pos' hr h
  obtain ⟨k, colon, c₁, v, hk, hv, rfl⟩ := fieldOf_eq_ok.1 h
  obtain ⟨b₁, r₁, p₁, rfl, rfl, -, hr₁⟩ := keeps_keyOf hexpr.keeps hr hk
  have hkey := leaves_keyOf hexpr hr hk
  have hvalue := hexpr.leaves hr₁ hv
  have hend := hexpr.ne_end hr₁ hv
  obtain ⟨b₂, r₂, p₂, hc, rfl, -, -⟩ := hexpr.keeps hr₁ hv
  obtain rfl : r' = r₂ := congrArg Cursor.rest hc
  cases hkey with
  | @fused name t colon g r hname ht hcolon hg hstop =>
    refine ⟨.fused hname (fun u hu => ?_) hcolon (hg.blank hend) hvalue.sourced, ?_, hvalue.gap⟩
    · rwa [← Option.some_inj.1 hu]
    · rw [Field.areApart, Field.areApart, Expr.isApart, hvalue.apart, Bool.true_and, Bool.true_and,
        Bool.and_true, Bool.not_eq_true', ← Bool.not_eq_true]
      intro hruns
      simp only [Field.runsOn, Bool.and_eq_true, decide_eq_true_eq, hcolon.keyGap] at hruns
      obtain ⟨⟨-, hgap⟩, hstart⟩ := hruns
      obtain rfl : g = [] := by simpa using congrArg String.toList hgap
      have hne : v.text.toList ≠ [] := by
        intro hnil
        rw [Expr.startsInName, hnil] at hstart
        exact absurd hstart (by decide)
      rw [List.nil_append, Delimits, headD_append hne] at hstop
      rw [Expr.startsInName, hstop] at hstart
      exact absurd hstart (by simp)
  | @apart k colon g r hk hends hcolon hg =>
    have hblank : Blank k.trailing := hk.gap.blank (by simp; decide)
    refine ⟨.apart hk.sourced hblank hends hk.trailing_ne hcolon (hg.blank hend) hvalue.sourced,
      ?_, hvalue.gap⟩
    have hopen : k.isOpenName = false := by
      rw [Expr.isOpenName, Bool.and_eq_false_iff, List.isEmpty_eq_false_iff]
      by_cases hname : k.isName = true
      · exact .inr (hk.trailing_ne hname)
      · exact .inl (by simpa using hname)
    simp [Field.areApart, Field.runsOn, hk.apart, hvalue.apart, hopen]

theorem Follows.areApart_fields {xs : List (Field × TokenSpans)} {r : List Char}
    (h : Follows Field.text Field.ReadBefore xs r) :
    Field.areApart (xs.map Prod.fst) = true := by
  induction xs with
  | nil => rfl
  | cons x xs ih =>
    obtain ⟨⟨k, v, separator⟩, s⟩ := x
    obtain ⟨-, -, hx, hxs⟩ := h
    have hone := hx.apart
    rw [Field.areApart, Field.areApart, Bool.and_true] at hone
    rw [List.map_cons, Field.areApart, hone, ih hxs, Bool.and_true]

/-! ### Expressions -/

theorem leaves_itemsOf {enclosure : Enclosure} {opening closing : Char} {expr : Scan Expr}
    (hopening : enclosure.brackets.1.toList = [opening] ∧ opening ≠ endMark)
    (hclosing : enclosure.brackets.2.toList = [closing] ∧ closing ≠ endMark)
    (hexpr : ReadsSource expr) :
    Leaves (itemsOf enclosure opening closing expr) Expr.ReadBefore := by
  intro b r pos e b' r' pos' hr h
  obtain ⟨values, spans, hb, rfl⟩ := itemsOf_eq_ok.1 h
  obtain ⟨xs, o, c, g, g', heq, ho, hg, hfollows, hc, hg'⟩ :=
    leaves_between hopening.2 hclosing.2 hexpr.keeps hexpr.leaves hr hb
  cases heq
  refine ⟨.items (hopening.1 ▸ ho) hg (hfollows.forall fun h _ => h.sourced)
    (hfollows.forall fun h hr => h.gap.blank hr) hfollows.isSeparator (by simp)
    (hclosing.1 ▸ hc), hfollows.areApart, ?_, fun h => absurd h (by simp [Expr.isName])⟩
  rw [Expr.trailing, hc.layoutAfter]
  exact hg'

theorem leaves_mapOf {expr : Scan Expr} (hexpr : ReadsSource expr) :
    Leaves (mapOf expr) Expr.ReadBefore := by
  intro b r pos e b' r' pos' hr h
  obtain ⟨fields, spans, hb, rfl⟩ := mapOf_eq_ok.1 h
  obtain ⟨xs, o, c, g, g', heq, ho, hg, hfollows, hc, hg'⟩ :=
    leaves_between (by decide) (by decide) (keeps_fieldOf hexpr.keeps) (leaves_fieldOf hexpr) hr hb
  cases heq
  refine ⟨.map ho hg (hfollows.forall fun h _ => h.sourced)
    (hfollows.forall fun h hr => h.gap.blank hr) hfollows.isSeparator (by simp) hc,
    hfollows.areApart_fields, ?_, fun h => absurd h (by simp [Expr.isName])⟩
  rw [Expr.trailing, hc.layoutAfter]
  exact hg'

/-- Every expression is read with its spans, up to where no name in it goes on. -/
theorem readsSource_exprWithin (depth : Nat) : ReadsSource (exprWithin depth) := by
  induction depth with
  | zero =>
    refine ⟨keeps_exprWithin 0, fun b r pos e b' r' pos' _ h => ?_, fun _ h => ?_⟩
    · exact absurd h throw_ne_ok
    · exact absurd h throw_ne_ok
  | succ depth ih =>
    refine ⟨keeps_exprWithin _, fun b r pos e b' r' pos' hr h => ?_, fun hr h => ?_⟩
    · rw [exprWithin_eq_exprOf depth hr] at h
      unfold exprOf at h
      split_ifs at h with hend hgroup hseq hstring hraw hmap hname
      · exact absurd h throw_ne_ok
      · exact leaves_itemsOf ⟨rfl, by decide⟩ ⟨rfl, by decide⟩ ih hr h
      · exact leaves_itemsOf ⟨rfl, by decide⟩ ⟨rfl, by decide⟩ ih hr h
      · exact leaves_leafOf (within_stringToken _) (determined_stringToken _) .quoted
          isName_of_stringToken hr h
      · exact leaves_leafOf within_rawToken determined_rawToken .raw isName_of_rawToken hr h
      · exact leaves_mapOf ih hr h
      · refine readBefore_of_name ⟨fun hquote => hstring ?_, hraw⟩ h
        rw [hquote]
        rfl
      · exact absurd h throw_ne_ok
    · rw [exprWithin_eq_exprOf depth hr] at h
      intro hend
      rw [exprOf, if_pos hend] at h
      exact absurd h throw_ne_ok

/-! ### Documents -/

/-- The expressions of a text with the layout before them. -/
theorem sourcedText_of_exprsUntilEnd {fuel : Nat} {g b r b' r' : List Char} {pos pos' : Pos}
    {es : List Expr} (hg : GapBefore g r)
    (h : exprsUntilEnd fuel (Cursor.settled b r pos) = .ok es (Cursor.settled b' r' pos')) :
    SourcedText (fun _ => False) g es ∧ ∀ e ∈ es, e.isApart = true := by
  induction fuel generalizing g b r pos es with
  | zero => exact absurd h exprsUntilEnd_zero
  | succ fuel ih =>
    obtain ⟨-, rfl, -⟩ | ⟨hend, e, c₁, es, he, hes, rfl⟩ := exprsUntilEnd_eq_ok.1 h
    · exact ⟨.nil hg.at_end, by simp⟩
    · have hr := hg.layoutLength_eq
      obtain ⟨b₁, r₁, p₁, rfl, rfl, -, hr₁⟩ := keeps_exprWithin _ hr he
      have hread := (readsSource_exprWithin _).leaves hr he
      obtain ⟨hsourced, hapart⟩ := ih hread.gap hes
      exact ⟨.cons (hg.blank hend) hread.sourced hsourced,
        List.forall_mem_cons.2 ⟨hread.apart, hapart⟩⟩

end Scan

/-- A text is read as a document with its spans, whose text is that of the source up to
U+0000. -/
theorem Document.sourced_of_read {src : String} {d : Document} (h : Document.read src = .ok d) :
    d.Sourced (fun _ => False) ∧ d.isApart = true ∧ ∃ r, src.toList = d.text.toList ++ r ∧
      r.headD endMark = endMark := by
  obtain ⟨g, r, hsrc, hg, -, hr⟩ := exists_layout false src.toList
  rw [← String.ofList_toList (s := src), hsrc, Document.read_append (hsrc ▸ hg)] at h
  split at h
  · next es c hes =>
    cases h
    have hend := Scan.current_of_exprsUntilEnd hes
    obtain ⟨b', r', p', rfl, rfl, -, -⟩ := Scan.keeps_exprsUntilEnd _ hr hes
    obtain ⟨hsourced, hapart⟩ := Scan.sourcedText_of_exprsUntilEnd (hsrc ▸ hg) hes
    refine ⟨⟨_, rfl, ?_⟩, List.all_eq_true.2 hapart, r', ?_, hend⟩
    · rwa [String.toList_ofList]
    · rw [hsrc]
      simp [Document.text]
  · exact absurd h (by simp)

end Sexpr
