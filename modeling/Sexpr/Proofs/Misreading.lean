/-
Names that run on are not read back.

Where a name runs on into the token after it, the two are read as one name. The text is
then read as another expression, or not at all: of two items only one is left, and a key
that takes in its value is no longer the same key.

* `Expr.Torn` — a name in an expression runs on, and nothing after it does;
* `Scan.Misreads` — a production does not read a text as what is meant;
* `Scan.misreads_merged`, `Scan.misreads_keyOf_colon` — two items, and a key with its value;
* `Expr.Torn.misrenders` — torn expressions are misread;
* `Document.exists_render_torn` — a whole document.
-/
import Sexpr.Proofs.Rendering

namespace Sexpr

/-! ### Torn expressions -/

/-- Items of which one is torn, or one is a name that runs on into the name after it. -/
inductive TornItems (W : Expr → Prop) : List TokenSpans → List Expr → Prop
  | within {ss : List TokenSpans} {e : Expr} {es : List Expr} (he : W e)
      (hes : Expr.areApart ss.tail es = true) : TornItems W ss (e :: es)
  | between {ss : List TokenSpans} {x y : Expr} {es : List Expr} (hx : x.isOpenName = true)
      (hgap : itemGap ss.head? false x.hasSpans = "") (hy : y.isName = true)
      (hes : Expr.areApart ss.tail (y :: es) = true) : TornItems W ss (x :: y :: es)
  | after {ss : List TokenSpans} {e : Expr} {es : List Expr} (he : e.isApart = true)
      (hruns : e.runsOn ss.head? es = false) (hes : TornItems W ss.tail es) :
      TornItems W ss (e :: es)

/-- Fields of which one has a torn key or a torn value, or a key that runs on into its value. -/
inductive TornFields (W : Expr → Prop) : List Field → Prop
  | key {f : Field} {fs : List Field} (hk : W f.key) (hv : f.value.isApart = true)
      (hfs : Field.areApart fs = true) : TornFields W (f :: fs)
  | value {f : Field} {fs : List Field} (hk : f.key.isApart = true) (hruns : f.runsOn = false)
      (hv : W f.value) (hfs : Field.areApart fs = true) : TornFields W (f :: fs)
  | colon {f : Field} {fs : List Field} (hruns : f.runsOn = true) (hv : f.value.isApart = true)
      (hfs : Field.areApart fs = true) : TornFields W (f :: fs)
  | after {f : Field} {fs : List Field} (hf : Field.areApart [f] = true)
      (hfs : TornFields W fs) : TornFields W (f :: fs)

/-- An expression in which a name runs on into the token after it, and none after that. -/
inductive Expr.Torn : Expr → Prop
  | items {enclosure : Enclosure} {values : List Expr} {spans : BracketSpans}
      (h : TornItems Torn (spans.separators.getD []) values) : Torn (.items enclosure values spans)
  | map {fields : List Field} {spans : BracketSpans} (h : TornFields Torn fields) :
      Torn (.map fields spans)

namespace Scan

variable {α γ : Type}

/-! ### Productions -/

/-- Whatever a production reads off a text, it is not what is meant. -/
def Misreads (p : Scan α) (s : List Char) (view : α → γ) (x : γ) : Prop :=
  ∀ ⦃b r pos y c'⦄, p (Cursor.settled b (s ++ r) pos) = .ok y c' → view y ≠ x

theorem Misreads.append {p : Scan α} {s : List Char} {view : α → γ} {x : γ}
    (h : Misreads p s view x) (t : List Char) : Misreads p (s ++ t) view x := by
  intro b r pos y c' hy
  rw [List.append_assoc] at hy
  exact h hy

theorem misreads_exprOf {depth : Nat} {p : Scan Expr} {s : List Char} {view : Expr → γ} {x : γ}
    (hs : isStart (s.headD endMark) = true)
    (hp : exprOf (exprWithin depth) (s.headD endMark) = p) (h : Misreads p s view x) :
    Misreads (exprWithin (depth + 1)) s view x := by
  intro b r pos y c' hy
  have hhead : (s ++ r).headD endMark = s.headD endMark := headD_append (ne_nil_of_isStart hs) r
  rw [exprWithin_eq_exprOf depth (layoutLength_of_isStart (hhead ▸ hs)), hhead, hp] at hy
  exact h hy

/-- The views of items that were read with their separators. -/
def itemViews (view : α → γ) (ys : List (α × TokenSpans)) : List γ := (ys.map Prod.fst).map view

theorem misreads_head {closing : Char} {item : Scan α} {view : α → γ} {x : γ} {s : List Char}
    (h : Misreads item s view x) (fuel : Nat) (xs : List γ) :
    Misreads (itemsUntil closing item fuel) s (itemViews view) (x :: xs) := by
  intro b r pos ys c' hys
  cases fuel with
  | zero => exact absurd hys itemsUntil_zero
  | succ fuel =>
    obtain ⟨-, rfl, -⟩ | ⟨-, -, y, c₁, sep, c₂, zs, hy, -, -, rfl⟩ := itemsUntil_eq_ok.1 hys
    · simp [itemViews]
    · intro heq
      exact h hy (List.cons.inj heq).1

/-- If an item is read as it is meant, the others are not. -/
theorem misreads_tail {closing : Char} {item : Scan α} {view : α → γ} {name : α → Bool} {x : α}
    {s gap t : List Char} {fuel : Nat} {xs : List γ} (hclosing : isClosing closing = true)
    (hx : ReadsItem item view name x s) (hgap : Gap gap)
    (hstop : name x = true → Delimits (gap ++ t)) (ht : isStart (t.headD endMark) = true)
    (h : Misreads (itemsUntil closing item fuel) (t ++ [closing]) (itemViews view) xs) :
    Misreads (itemsUntil closing item (fuel + 1)) (s ++ gap ++ t ++ [closing]) (itemViews view)
      (view x :: xs) := by
  intro b r pos ys c' hys
  have hhead : isStart ((t ++ [closing] ++ r).headD endMark) = true := by
    rwa [List.append_assoc, headD_append (ne_nil_of_isStart ht)]
  have hends : name x = true → Delimits (gap ++ (t ++ [closing] ++ r)) := by
    intro hname
    rw [List.append_assoc, ← List.append_assoc]
    exact (hstop hname).append (delimits_of_isClosing hclosing r)
  obtain ⟨y, sep, b', p', hview, hstep⟩ := itemsUntil_item hclosing hx hgap hends
    (layoutLength_of_isStart hhead)
    (ne_of_isStart hhead (isStart_of_mem_signs (by decide) (by decide))) b pos
  rw [List.append_assoc (s ++ gap), List.append_assoc (s ++ gap)] at hys
  obtain ⟨zs, hzs, rfl⟩ := (hstep fuel ys c').1 hys
  intro heq
  exact h hzs (List.cons.inj heq).2

/-- Two names that touch are read as one, so that one item is missing. -/
theorem misreads_merged {closing : Char} {depth fuel : Nat} {x y : Expr} {es : List Expr}
    {a n g t : List Char} (hclosing : isClosing closing = true) (ha : IsNameToken a)
    (hn : IsNameToken n) (hg : Gap g) (hstop : Delimits (g ++ t))
    (hes : Series (fun g _ => Gap g) Expr.isName Expr.SpelledAs es t)
    (hdepth : (a ++ n ++ g ++ t).length ≤ depth) (hfuel : (a ++ n ++ g ++ t).length < fuel) :
    Misreads (itemsUntil closing (exprWithin depth) fuel) (a ++ n ++ g ++ t ++ [closing])
      (itemViews Expr.dropSpans) (x :: y :: es.map Expr.dropSpans) := by
  intro b r pos ys c' hys heq
  have htoken : IsNameToken (a ++ n) := by
    refine ⟨by simp [ha.ne_nil], fun c hc => ?_, fun c hc => ha.head_ne c ?_⟩
    · rcases List.mem_append.1 hc with hc | hc
      · exact ha.isNameChar c hc
      · exact hn.isNameChar c hc
    · rwa [List.head?_append_of_ne_nil _ ha.ne_nil] at hc
  cases hl : nameLeaf (a ++ n) with
  | ok l =>
    -- the text spells the name that the two make, and the items after it
    have hseries : Series (fun g _ => Gap g) Expr.isName Expr.SpelledAs (.leaf l none :: es)
        (a ++ n ++ g ++ t) := .cons (.leaf (.name htoken hl)) hg (fun _ => hstop) hes
    have hreads := hseries.imp fun v _ u hu hle => readsItem_expr hu (hle.trans hdepth)
    obtain ⟨zs, b', p', hzs, hviews⟩ := reads_itemsUntil hclosing hreads r hfuel b pos
    rw [List.append_assoc, List.singleton_append, hzs] at hys
    obtain ⟨rfl, -⟩ := EStateM.Result.ok.inj hys
    have hlength := congrArg List.length (hviews.symm.trans heq)
    simp at hlength
  | error e =>
    obtain ⟨fuel, rfl⟩ : ∃ k, fuel = k + 1 := ⟨fuel - 1, by omega⟩
    have hpos := List.length_pos_iff.2 htoken.ne_nil
    obtain ⟨depth, rfl⟩ : ∃ k, depth = k + 1 := by
      simp only [List.length_append] at hdepth hpos
      exact ⟨depth - 1, by omega⟩
    obtain ⟨-, rfl, -⟩ | ⟨-, -, z, c₁, sep, c₂, zs, hz, -⟩ := itemsUntil_eq_ok.1 hys
    · exact absurd heq (by simp [itemViews])
    · have hends : Delimits (g ++ t ++ closing :: r) :=
        hstop.append (delimits_of_isClosing hclosing r)
      rw [show a ++ n ++ g ++ t ++ [closing] ++ r = a ++ n ++ (g ++ t ++ closing :: r) by simp,
        exprWithin_of_isNameToken htoken] at hz
      obtain ⟨token, l, s, htake, -, hleaf, -⟩ := name_eq_ok.1 hz
      rw [Cursor.settled_rest, hends.takeWhile_append htoken.isNameChar] at htake
      rw [← htake, hl] at hleaf
      exact absurd hleaf (by simp)

theorem misreads_between {opening closing : Char} {item : Scan α} {view : α → γ} {xs : List γ}
    {g t : List Char} (hg : Blank g) (ht : isStart (t.headD endMark) = true)
    (h : ∀ fuel, t.length < fuel →
      Misreads (itemsUntil closing item fuel) (t ++ [closing]) (itemViews view) xs) :
    Misreads (between opening closing item) (opening :: g ++ t ++ [closing])
      (fun y => y.1.map view) xs := by
  intro b r pos y c' hy
  have hhead : isStart ((t ++ [closing] ++ r).headD endMark) = true := by
    rwa [List.append_assoc, headD_append (ne_nil_of_isStart ht)]
  obtain ⟨-, o, c₁, ys, c₂, c, ho, hys, -, rfl⟩ := between_eq_ok.1 hy
  rw [show opening :: g ++ t ++ [closing] ++ r = opening :: (g ++ (t ++ [closing] ++ r)) by simp,
    Cursor.settled, Cursor.next_cons,
    tokenSpans_append (hg.gapBefore (layoutLength_of_isStart hhead))] at ho
  obtain ⟨-, rfl⟩ := EStateM.Result.ok.inj ho
  exact h _ (by simp only [Cursor.settled_rest, List.length_append]; omega) hys

theorem misreads_itemsOf {enclosure : Enclosure} {opening closing : Char} {expr : Scan Expr}
    {values : List Expr} {spans : BracketSpans} {s : List Char}
    (h : Misreads (between opening closing expr) s (fun y => y.1.map Expr.dropSpans)
      (values.map Expr.dropSpans)) :
    Misreads (itemsOf enclosure opening closing expr) s Expr.dropSpans
      (Expr.items enclosure values spans).dropSpans := by
  intro b r pos y c' hy heq
  obtain ⟨es, espans, hes, rfl⟩ := itemsOf_eq_ok.1 hy
  simp only [Expr.dropSpans, Expr.dropSpansAll_eq_map, Expr.items.injEq, true_and] at heq
  exact h hes heq.1

/-- Brackets around items that are misread, whichever bracket closes them. -/
theorem misreads_items {enclosure : Enclosure} {values : List Expr} {spans : BracketSpans}
    {g t : List Char} {depth : Nat} (hg : Blank g) (hstart : isStart (t.headD endMark) = true)
    (h : ∀ closing fuel, isClosing closing = true → t.length < fuel →
      Misreads (itemsUntil closing (exprWithin depth) fuel) (t ++ [closing])
        (itemViews Expr.dropSpans) (values.map Expr.dropSpans)) :
    Misreads (exprWithin (depth + 1))
      (enclosure.brackets.1.toList ++ g ++ t ++ enclosure.brackets.2.toList) Expr.dropSpans
      (Expr.items enclosure values spans).dropSpans := by
  cases enclosure with
  | group =>
    exact misreads_exprOf (isStart_of_mem (c := '(') (by decide)) rfl
      (misreads_itemsOf (misreads_between hg hstart fun fuel => h ')' fuel (by decide)))
  | sequence =>
    exact misreads_exprOf (isStart_of_mem (c := '[') (by decide)) rfl
      (misreads_itemsOf (misreads_between hg hstart fun fuel => h ']' fuel (by decide)))

theorem misreads_mapOf {expr : Scan Expr} {fields : List Field} {spans : BracketSpans}
    {s : List Char} (h : Misreads (between '{' '}' (fieldOf expr)) s
      (fun y => y.1.map Field.dropSpans) (fields.map Field.dropSpans)) :
    Misreads (mapOf expr) s Expr.dropSpans (Expr.map fields spans).dropSpans := by
  intro b r pos y c' hy heq
  obtain ⟨fs, fspans, hfs, rfl⟩ := mapOf_eq_ok.1 hy
  simp only [Expr.dropSpans, Field.dropSpansAll_eq_map, Expr.map.injEq] at heq
  exact h hfs heq.1

/-! ### Fields -/

/-- A key that takes in the start of its value is not the key that was meant. -/
theorem misreads_keyOf_colon {name : String} {s : List Char} (depth : Nat)
    (hname : IsNameToken (name.toList ++ [':'])) (hs : isNameChar (s.headD endMark) = true) :
    Misreads (keyOf (exprWithin depth)) (name.toList ++ ':' :: s) (fun e => e.1.dropSpans)
      (.leaf (.atom name) none) := by
  rintro b r pos ⟨k, colon⟩ c' hk heq
  obtain ⟨key, c₁, hkey, hcut⟩ := keyOf_eq_ok.1 hk
  cases depth with
  | zero => exact absurd hkey throw_ne_ok
  | succ depth =>
    rw [show name.toList ++ ':' :: s ++ r = name.toList ++ [':'] ++ (s ++ r) by simp,
      exprWithin_of_isNameToken hname] at hkey
    obtain ⟨token, l, spans, htake, -, hl, -, rfl⟩ := name_eq_ok.1 hkey
    -- the name goes on behind the colon
    obtain ⟨x, s, rfl⟩ := List.exists_cons_of_ne_nil
      (ne_nil_of_isStart (isStart_of_isNameChar hs))
    rw [List.headD_cons] at hs
    rw [Cursor.settled_rest, List.takeWhile_append_of_pos hname.isNameChar, List.cons_append,
      List.takeWhile_cons_of_pos hs] at htake
    subst htake
    rw [nameLeaf_of_colon (by simp)] at hl
    cases hl
    rcases hcut with ⟨cs, spans', token, hc, hcut⟩ | ⟨-, -, -, rfl⟩
    · obtain ⟨name', space, heq', -, rfl, -⟩ := colonKey?_eq_some.1 hc
      cases heq'
      obtain ⟨-, key, gap, stop, -, -, -, rfl, -⟩ := cutKey_eq_ok.1 hcut
      have hlength := congrArg (fun e => (Expr.text e).toList.length) heq
      simp [Expr.dropSpans, Expr.text, Leaf.text] at hlength
    · have hlength := congrArg (fun e => (Expr.text e).toList.length) heq
      simp [Expr.dropSpans, Expr.text, Leaf.text] at hlength

/-- A torn key is not read as it is meant, nor is it an atom that its colon was cut off. -/
theorem misreads_keyOf {expr : Scan Expr} {k : Expr} {s : List Char}
    (h : Misreads expr s Expr.dropSpans k.dropSpans) (hk : k.Torn) :
    Misreads (keyOf expr) s (fun e => e.1.dropSpans) k.dropSpans := by
  rintro b r pos ⟨k', colon⟩ c' hk' heq
  obtain ⟨key, c₁, hkey, hcut | ⟨-, -, -, rfl⟩⟩ := keyOf_eq_ok.1 hk'
  · obtain ⟨cs, spans, token, -, hcut⟩ := hcut
    obtain ⟨-, key, gap, stop, -, -, -, rfl, -⟩ := cutKey_eq_ok.1 hcut
    cases hk with
    | items => exact absurd heq (by simp [Expr.dropSpans])
    | map => exact absurd heq (by simp [Expr.dropSpans])
  · exact h hkey heq

theorem misreads_fieldOf_key {expr : Scan Expr} {f : Field} {s : List Char}
    (h : Misreads (keyOf expr) s (fun e => e.1.dropSpans) f.key.dropSpans) :
    Misreads (fieldOf expr) s Field.dropSpans f.dropSpans := by
  intro b r pos f' c' hf heq
  obtain ⟨k, colon, c₁, v, hk, -, rfl⟩ := fieldOf_eq_ok.1 hf
  exact h hk (congrArg FieldOf.key heq)

theorem misreads_fieldOf_value {expr : Scan Expr} {f : Field} {s t : List Char}
    (hk : ∀ r, Reads (keyOf expr) s (t ++ r) (fun e => e.1.dropSpans = f.key.dropSpans))
    (hv : Misreads expr t Expr.dropSpans f.value.dropSpans) :
    Misreads (fieldOf expr) (s ++ t) Field.dropSpans f.dropSpans := by
  intro b r pos f' c' hf heq
  obtain ⟨k, colon, c₁, v, hkey, hvalue, rfl⟩ := fieldOf_eq_ok.1 hf
  obtain ⟨kc, b', p', hread, -⟩ := hk r b pos
  rw [List.append_assoc] at hkey
  obtain ⟨-, rfl⟩ := EStateM.Result.ok.inj (hread.symm.trans hkey)
  exact hv hvalue (congrArg FieldOf.value heq)

end Scan

/-! ### Expressions -/

/-- An expression is written as a text that is not read as the expression. -/
def Expr.Misrenders (l : Layout) (level : Nat) (e : Expr) : Prop :=
  ∃ s, e.render l level = .ok (String.ofList (s ++ e.trailing)) ∧ e.StartsLike s ∧
    ∀ depth, s.length ≤ depth → Scan.Misreads (Scan.exprWithin depth) s Expr.dropSpans e.dropSpans

theorem Expr.isApart_of_isName {e : Expr} (h : e.isName = true) : e.isApart = true := by
  cases e with
  | leaf l span => rfl
  | _ => exact absurd h (by simp [Expr.isName])

/-- Items are written as a text that is not read as the items. -/
def MisrendersItems (l : Layout) (level : Nat) (ss : List TokenSpans) (values : List Expr) :
    Prop :=
  ∃ t, Expr.renderAll l level ss values = .ok (String.ofList t) ∧
    (∀ v ∈ values.head?, v.StartsLike t) ∧ isStart (t.headD endMark) = true ∧
    ∀ closing depth fuel, Scan.isClosing closing = true → t.length ≤ depth → t.length < fuel →
      Scan.Misreads (Scan.itemsUntil closing (Scan.exprWithin depth) fuel) (t ++ [closing])
        (Scan.itemViews Expr.dropSpans) (values.map Expr.dropSpans)

/-- The first item is misread, so that the others do not matter. -/
theorem misrendersItems_head {l : Layout} {level : Nat} {e : Expr} {es : List Expr}
    {s : TokenSpans} {ss : List TokenSpans} {t : List Char} (he : e.Misrenders l level)
    (hes : Expr.renderAll l level ss es = .ok (String.ofList t)) :
    MisrendersItems l level (s :: ss) (e :: es) := by
  obtain ⟨a, ha, hhead, hmis⟩ := he
  refine ⟨_, renderAll_cons ha hes, fun w hw => ?_, ((hhead.append _).append _).isStart,
    fun _ _ _ _ hdepth _ => ?_⟩
  · exact Option.some_inj.1 hw ▸ (hhead.append _).append _
  · simp only [List.length_append] at hdepth
    rw [List.append_assoc, List.append_assoc]
    exact (Scan.misreads_head (hmis _ (by omega)) _ _).append _

/-- The first item runs on into the second one. -/
theorem misrendersItems_merged {l : Layout} {level : Nat} {x y : Expr} {es : List Expr}
    {s : TokenSpans} {ss : List TokenSpans} {t : List Char} (hx : x.Renders l level)
    (hopen : x.isOpenName = true) (hgap : itemGap (some s) false x.hasSpans = "")
    (hy : y.isName = true) (ht : Expr.renderAll l level ss (y :: es) = .ok (String.ofList t))
    (hseries : Series (fun g _ => Gap g) Expr.isName Expr.SpelledAs (y :: es) t) :
    MisrendersItems l level (s :: ss) (x :: y :: es) := by
  obtain ⟨a, ha, hspelled, hhead⟩ := hx
  rw [Expr.isOpenName, Bool.and_eq_true, List.isEmpty_iff] at hopen
  have hrender := renderAll_cons (s := s) ha ht
  rw [hopen.2, List.isEmpty_cons, hgap, String.toList_empty, List.append_nil,
    List.append_nil] at hrender
  cases hseries with
  | @cons _ _ n g u hn hg hstop hrest =>
    refine ⟨_, hrender, fun w hw => ?_, (hhead.append _).isStart,
      fun _ _ _ hclosing hdepth hfuel => ?_⟩
    · exact Option.some_inj.1 hw ▸ hhead.append _
    · rw [← List.append_assoc, ← List.append_assoc] at hdepth hfuel ⊢
      exact Scan.misreads_merged hclosing (hspelled.isNameToken hopen.1) (hn.isNameToken hy) hg
        (hstop hy) hrest hdepth hfuel

/-- The first item is read as it is meant, and the others are not. -/
theorem misrendersItems_tail {l : Layout} {level : Nat} {e : Expr} {es : List Expr}
    {s : TokenSpans} {ss : List TokenSpans} (he : e.Renders l level) (hs : s.IsSeparator)
    (hblank : Blank e.trailing) (hruns : e.runsOn (some s) es = false) (hne : es ≠ [])
    (hes : MisrendersItems l level ss es) : MisrendersItems l level (s :: ss) (e :: es) := by
  obtain ⟨a, ha, hspelled, hhead⟩ := he
  obtain ⟨t, ht, hthead, hstart, hmis⟩ := hes
  refine ⟨_, renderAll_cons ha ht, fun w hw => ?_, ((hhead.append _).append _).isStart,
    fun _ _ fuel hclosing hdepth hfuel => ?_⟩
  · exact Option.some_inj.1 hw ▸ (hhead.append _).append _
  · have hpos := List.length_pos_iff.2 hspelled.ne_nil
    simp only [List.length_append] at hdepth hfuel
    obtain ⟨fuel, rfl⟩ : ∃ k, fuel = k + 1 := ⟨fuel - 1, by omega⟩
    exact Scan.misreads_tail hclosing (Scan.readsItem_expr hspelled (by omega))
      (gap_itemGap hs hblank _ _)
      (fun hname => delimits_of_runsOn hs hblank hruns hname (fun h => absurd h hne) hthead) hstart
      (hmis _ _ _ hclosing (by omega) (by omega))

/-- Torn items are not read as they are meant. -/
theorem TornItems.misrenders {l : Layout} {level : Nat} {ss : List TokenSpans}
    {values : List Expr} (h : TornItems Expr.Torn ss values)
    (htorn : ∀ v ∈ values, v.Torn → v.Misrenders l level)
    (hvalues : ∀ v ∈ values, v.isApart = true → v.Renders l level)
    (hblank : ∀ v ∈ values, Blank v.trailing) (hseps : ∀ s ∈ ss, s.IsSeparator)
    (hlen : ss.length = values.length) : MisrendersItems l level ss values := by
  induction h with
  | @within ss e es he hes =>
    obtain ⟨-, hvs⟩ := List.forall_mem_cons.1 hvalues
    cases ss with
    | nil => exact absurd hlen (by simp)
    | cons s ss =>
      obtain ⟨t, ht, -⟩ := exists_renderAll
        (fun v hv => hvs v hv (Expr.isApart_of_mem hes v hv)) (List.forall_mem_cons.1 hblank).2
        (List.forall_mem_cons.1 hseps).2 (by simpa using hlen) hes
      exact misrendersItems_head (htorn e (by simp) he) ht
  | @between ss x y es hx hgap hy hes =>
    obtain ⟨hx', hvs⟩ := List.forall_mem_cons.1 hvalues
    cases ss with
    | nil => exact absurd hlen (by simp)
    | cons s ss =>
      obtain ⟨t, ht, hseries, -⟩ := exists_renderAll
        (fun v hv => hvs v hv (Expr.isApart_of_mem hes v hv)) (List.forall_mem_cons.1 hblank).2
        (List.forall_mem_cons.1 hseps).2 (by simpa using hlen) hes
      have hname : x.isName = true := (Bool.and_eq_true_iff.1 hx).1
      exact misrendersItems_merged (hx' (Expr.isApart_of_isName hname)) hx hgap hy ht hseries
  | @after ss e es he hruns hes ih =>
    obtain ⟨-, htorns⟩ := List.forall_mem_cons.1 htorn
    obtain ⟨he', hvs⟩ := List.forall_mem_cons.1 hvalues
    obtain ⟨hv, hblanks⟩ := List.forall_mem_cons.1 hblank
    have hne : es ≠ [] := by
      rintro rfl
      cases hes
    cases ss with
    | nil => exact absurd hlen (by simp)
    | cons s ss =>
      obtain ⟨hs, hss⟩ := List.forall_mem_cons.1 hseps
      exact misrendersItems_tail (he' he) hs hv hruns hne
        (ih htorns hvs hblanks hss (by simpa using hlen))

/-- Fields are written as a text that is not read as the fields. -/
def MisrendersFields (l : Layout) (level : Nat) (ss : List TokenSpans) (fields : List Field) :
    Prop :=
  ∃ t, Field.renderAll l level ss fields = .ok (String.ofList t) ∧
    isStart (t.headD endMark) = true ∧
    ∀ depth fuel, t.length ≤ depth → t.length < fuel →
      Scan.Misreads (Scan.itemsUntil '}' (Scan.fieldOf (Scan.exprWithin depth)) fuel)
        (t ++ ['}']) (Scan.itemViews Field.dropSpans) (fields.map Field.dropSpans)

section Fields

variable {l : Layout} {level : Nat} {f : Field} {fs : List Field} {s : TokenSpans}
  {ss : List TokenSpans}

/-- The first field is misread, so that the others do not matter. -/
theorem misrendersFields_head {key : String} {a b t : List Char}
    (hkey : f.key.render l level = .ok key)
    (ha : key.toList ++ (keyGap f.separator f.key.hasSpans).toList = a)
    (hvalue : f.value.render l level = .ok (String.ofList (b ++ f.value.trailing)))
    (hfs : Field.renderAll l level ss fs = .ok (String.ofList t))
    (hstart : isStart (a.headD endMark) = true)
    (hmis : ∀ depth, (a ++ b).length ≤ depth →
      Scan.Misreads (Scan.fieldOf (Scan.exprWithin depth)) (a ++ b) Field.dropSpans f.dropSpans) :
    MisrendersFields l level (s :: ss) (f :: fs) := by
  refine ⟨_, renderFields_cons hkey ha hvalue hfs, ?_, fun depth fuel hdepth _ => ?_⟩
  · rw [List.append_assoc, List.append_assoc, headD_append (ne_nil_of_isStart hstart)]
    exact hstart
  · rw [List.append_assoc (a ++ b)] at hdepth
    rw [List.append_assoc (a ++ b), List.append_assoc (a ++ b)]
    refine (Scan.misreads_head (hmis depth ?_) fuel _).append _
    simp only [List.length_append] at hdepth ⊢
    omega

theorem misrendersFields_key {t : List Char} (hk : f.key.Torn) (hkey : f.key.Misrenders l level)
    (hvalue : f.value.Renders l level)
    (hfs : Field.renderAll l level ss fs = .ok (String.ofList t)) :
    MisrendersFields l level (s :: ss) (f :: fs) := by
  obtain ⟨a, ha, hstarts, hmis⟩ := hkey
  obtain ⟨b, hb, -, -⟩ := hvalue
  refine misrendersFields_head ha rfl hb hfs ?_ fun depth hdepth => ?_
  · rw [String.toList_ofList, List.append_assoc]
    exact (hstarts.append _).isStart
  · rw [String.toList_ofList, List.append_assoc, List.append_assoc] at hdepth ⊢
    simp only [List.length_append] at hdepth
    exact (Scan.misreads_fieldOf_key
      (Scan.misreads_keyOf (hmis depth (by omega)) hk)).append _

theorem misrendersFields_value {new : Expr → Prop} {t : List Char}
    (hf : FieldSourced (Expr.Sourced new) f) (hkey : f.key.Sourced new → f.key.Renders l level)
    (hruns : f.runsOn = false) (hvalue : f.value.Misrenders l level)
    (hfs : Field.renderAll l level ss fs = .ok (String.ofList t)) :
    MisrendersFields l level (s :: ss) (f :: fs) := by
  obtain ⟨b, hb, hstarts, hmis⟩ := hvalue
  obtain ⟨key, a, hkr, ha, hspelled⟩ := exists_renderKey hf hkey hruns hstarts
  refine misrendersFields_head hkr ha hb hfs hspelled.isStart fun depth hdepth => ?_
  rw [List.length_append] at hdepth
  refine Scan.misreads_fieldOf_value (fun r => ?_) (hmis depth (by omega))
  exact Scan.reads_key (Scan.reads_of_spelledAs _ depth) hspelled (by omega) hstarts.isStart

/-- The first key runs on into its value. -/
theorem misrendersFields_colon {new : Expr → Prop} {t : List Char}
    (hf : FieldSourced (Expr.Sourced new) f) (hruns : f.runsOn = true)
    (hvalue : f.value.Renders l level)
    (hfs : Field.renderAll l level ss fs = .ok (String.ofList t)) :
    MisrendersFields l level (s :: ss) (f :: fs) := by
  obtain ⟨b, hb, -, hstarts⟩ := hvalue
  simp only [Field.runsOn, Bool.and_eq_true, decide_eq_true_eq] at hruns
  obtain ⟨⟨hopen, hgap⟩, hstart⟩ := hruns
  cases hf with
  | @fused name span v colon g hname hspan =>
    obtain ⟨hkr, -, -⟩ := render_fused hspan l level
    have hcolon : name.toList ++ (keyGap (some colon) (Expr.leaf (.atom name)
        span).hasSpans).toList = name.toList ++ [':'] := congrArg _ (congrArg _ hgap)
    have hchar : isNameChar (b.headD endMark) = true := hstarts.head ▸ hstart
    refine misrendersFields_head hkr hcolon hb hfs hname.isStart fun depth _ => ?_
    rw [List.append_assoc, List.singleton_append]
    exact Scan.misreads_fieldOf_key (Scan.misreads_keyOf_colon depth hname hchar)
  | apart _ _ _ hne =>
    rw [Expr.isOpenName, Bool.and_eq_true, List.isEmpty_iff] at hopen
    exact absurd hopen.2 (hne hopen.1)

/-- The first field is read as it is meant, and the others are not. -/
theorem misrendersFields_tail {new : Expr → Prop} (hf : FieldSourced (Expr.Sourced new) f)
    (hkey : f.key.Sourced new → f.key.Renders l level) (hruns : f.runsOn = false)
    (hvalue : f.value.Renders l level) (hs : s.IsSeparator) (hblank : Blank f.value.trailing)
    (hne : fs ≠ []) (hfs : MisrendersFields l level ss fs) :
    MisrendersFields l level (s :: ss) (f :: fs) := by
  obtain ⟨b, hb, hspelled, hstarts⟩ := hvalue
  obtain ⟨key, a, hkr, ha, hkspelled⟩ := exists_renderKey hf hkey hruns hstarts
  obtain ⟨t, ht, hstart, hmis⟩ := hfs
  have hfield : FieldSpelledAs Expr.SpelledAs f (a ++ b) := .mk hkspelled hspelled
  refine ⟨_, renderFields_cons hkr ha hb ht, ?_, fun depth fuel hdepth hfuel => ?_⟩
  · rw [List.append_assoc (a ++ b), headD_append (ne_nil_of_isStart hfield.isStart)]
    exact hfield.isStart
  · have hpos := List.length_pos_iff.2 (ne_nil_of_isStart hfield.isStart)
    simp only [List.length_append] at hdepth hfuel hpos
    obtain ⟨fuel, rfl⟩ : ∃ n, fuel = n + 1 := ⟨fuel - 1, by omega⟩
    exact Scan.misreads_tail (by decide)
      (Scan.readsItem_fieldOf (Scan.reads_of_spelledAs _ depth) (Scan.reads_of_spelledAs _ depth)
        hfield (by simp only [List.length_append]; omega))
      (gap_fieldGap hs hblank _) (fun _ => delimits_of_fieldGap hs hblank fun h => absurd h hne)
      hstart (hmis depth fuel (by omega) (by omega))

end Fields

/-- Torn fields are not read as they are meant. -/
theorem TornFields.misrenders {new : Expr → Prop} {l : Layout} {level : Nat}
    {ss : List TokenSpans} {fields : List Field} (h : TornFields Expr.Torn fields)
    (hfields : ∀ f ∈ fields, FieldSourced (Expr.Sourced new) f)
    (htorn : ∀ f ∈ fields, (f.key.Torn → f.key.Misrenders l level) ∧
      (f.value.Torn → f.value.Misrenders l level))
    (hkeys : ∀ f ∈ fields, f.key.isApart = true → f.key.Sourced new → f.key.Renders l level)
    (hvalues : ∀ f ∈ fields, f.value.isApart = true → f.value.Renders l level)
    (hblank : ∀ f ∈ fields, Blank f.value.trailing) (hseps : ∀ s ∈ ss, s.IsSeparator)
    (hlen : ss.length = fields.length) : MisrendersFields l level ss fields := by
  induction fields generalizing ss with
  | nil => cases h
  | cons f fs ih =>
    obtain ⟨hf, hfs⟩ := List.forall_mem_cons.1 hfields
    obtain ⟨⟨hktorn, hvtorn⟩, htorns⟩ := List.forall_mem_cons.1 htorn
    obtain ⟨hkey, hks⟩ := List.forall_mem_cons.1 hkeys
    obtain ⟨hvalue, hvs⟩ := List.forall_mem_cons.1 hvalues
    obtain ⟨hb, hbs⟩ := List.forall_mem_cons.1 hblank
    cases ss with
    | nil => exact absurd hlen (by simp)
    | cons s ss =>
      obtain ⟨hs, hss⟩ := List.forall_mem_cons.1 hseps
      rw [List.length_cons, List.length_cons, Nat.add_right_cancel_iff] at hlen
      -- the fields after the torn one are written, in whichever way
      have hrest : Field.areApart fs = true → ∃ t, Field.renderAll l level ss fs =
          .ok (String.ofList t) := by
        intro hapart
        obtain ⟨t, ht, -⟩ := exists_renderFields hfs
          (fun f hf => hks f hf (Field.isApart_of_mem hapart f hf).1)
          (fun f hf => hvs f hf (Field.isApart_of_mem hapart f hf).2) hbs hss hlen hapart
        exact ⟨t, ht⟩
      cases h with
      | key hk hv hapart =>
        obtain ⟨t, ht⟩ := hrest hapart
        exact misrendersFields_key hk (hktorn hk) (hvalue hv) ht
      | value hk hruns hv hapart =>
        obtain ⟨t, ht⟩ := hrest hapart
        exact misrendersFields_value hf (hkey hk) hruns (hvtorn hv) ht
      | colon hruns hv hapart =>
        obtain ⟨t, ht⟩ := hrest hapart
        exact misrendersFields_colon hf hruns (hvalue hv) ht
      | after hapart hfs' =>
        simp only [Field.areApart, Bool.and_eq_true, Bool.not_eq_true'] at hapart
        obtain ⟨⟨⟨hk, hv⟩, hruns⟩, -⟩ := hapart
        have hne : fs ≠ [] := by
          rintro rfl
          cases hfs'
        exact misrendersFields_tail hf (hkey hk) hruns (hvalue hv) hs hb hne
          (ih hfs' hfs htorns hks hvs hbs hss hlen)

/-- A torn key is not the rest of a token. -/
theorem FieldSourced.torn_key {W : Expr → Prop} {f : Field} (h : FieldSourced W f)
    (hk : f.key.Torn) : W f.key := by
  cases h with
  | fused => cases hk
  | apart h => exact h

/-- What is written of a torn expression is not read as the expression. -/
theorem Expr.Torn.misrenders {l : Layout} {new : Expr → Prop} {e : Expr} (h : e.Torn)
    (hs : e.Sourced new) (hnew : ∀ x, new x → ¬x.Torn ∧ ∀ level, x.Renders l level)
    (level : Nat) : e.Misrenders l level := by
  have hrenders : ∀ {x : Expr}, x.Sourced new → x.isApart = true → ∀ level, x.Renders l level :=
    fun hx hapart => hx.renders (fun y hy => (hnew y hy).2) hapart
  induction e using Expr.induction generalizing level with
  | leaf leaf span => cases h
  | items enclosure values spans ih =>
    cases hs with
    | new hx => exact absurd h (hnew _ hx).1
    | @items _ _ o c separators g g' ho hg hvalues hblank hseps hlen hc =>
      cases h with
      | items h =>
        rw [Option.getD_some] at h
        obtain ⟨t, ht, -, hstart, hmis⟩ := TornItems.misrenders h
          (fun v hv hv' => ih v hv hv' (hvalues v hv) (level + 1))
          (fun v hv hapart => hrenders (hvalues v hv) hapart (level + 1)) hblank hseps hlen
        refine ⟨enclosure.brackets.1.toList ++ g ++ t ++ enclosure.brackets.2.toList, ?_, ?_,
          fun depth hdepth => ?_⟩
        · rw [render_items enclosure ht, render_brackets ho hc, Expr.trailing, hc.layoutAfter]
        · rw [List.append_assoc, List.append_assoc]
          exact startsLike_items ho _ _ _
        · have hbracket : 0 < enclosure.brackets.1.toList.length := by cases enclosure <;> decide
          simp only [List.length_append] at hdepth
          obtain ⟨depth, rfl⟩ : ∃ k, depth = k + 1 := ⟨depth - 1, by omega⟩
          exact Scan.misreads_items hg hstart fun closing fuel hclosing hfuel =>
            hmis closing depth fuel hclosing (by omega) hfuel
  | map fields spans ih =>
    cases hs with
    | new hx => exact absurd h (hnew _ hx).1
    | @map _ o c separators g g' ho hg hfields hblank hseps hlen hc =>
      cases h with
      | map h =>
        obtain ⟨t, ht, hstart, hmis⟩ := TornFields.misrenders h hfields
          (fun f hf => ⟨fun hk => (ih f hf).1 hk ((hfields f hf).torn_key hk) (level + 1),
            fun hv => (ih f hf).2 hv (hfields f hf).value (level + 1)⟩)
          (fun f hf hapart hk => hrenders hk hapart (level + 1))
          (fun f hf hapart => hrenders (hfields f hf).value hapart (level + 1)) hblank hseps hlen
        refine ⟨'{' :: g ++ t ++ ['}'], ?_, startsLike_map ho _ _ _, fun depth hdepth => ?_⟩
        · rw [render_map ht, render_brackets ho hc, Expr.trailing, hc.layoutAfter]
          simp
        · simp only [List.length_append, List.length_cons] at hdepth
          obtain ⟨depth, rfl⟩ : ∃ k, depth = k + 1 := ⟨depth - 1, by omega⟩
          exact Scan.misreads_exprOf (isStart_of_mem (c := '{') (by decide)) rfl
            (Scan.misreads_mapOf (Scan.misreads_between hg hstart fun fuel hfuel =>
              hmis depth fuel (by omega) hfuel))
  | bare mark => cases h

/-! ### Documents -/

/-- Expressions of which one is torn, and none after it. -/
inductive TornText : List Expr → Prop
  | within {e : Expr} {es : List Expr} (he : e.Torn) (hes : ∀ x ∈ es, x.isApart = true) :
      TornText (e :: es)
  | after {e : Expr} {es : List Expr} (he : e.isApart = true) (hes : TornText es) :
      TornText (e :: es)

theorem exists_renderAfter_torn {l : Layout} {new : Expr → Prop} {g : List Char} {es : List Expr}
    (h : SourcedText new g es) (hnew : ∀ x, new x → ¬x.Torn ∧ ∀ level, x.Renders l level)
    (htorn : TornText es) (acc : List Char) :
    ∃ t, renderAfter l (String.ofList acc) es = .ok (String.ofList (acc ++ t)) ∧
      isStart (t.headD endMark) = true ∧ ∀ fuel, t.length < fuel → ∀ b p xs c',
        Scan.exprsUntilEnd fuel (Cursor.settled b t p) = .ok xs c' →
          xs.map Expr.dropSpans ≠ es.map Expr.dropSpans := by
  have hnew' : ∀ x, new x → ∀ level, x.Renders l level := fun x hx => (hnew x hx).2
  induction htorn generalizing g acc with
  | @within e es he hes =>
    cases h with
    | cons _ hs hrest =>
      obtain ⟨s, hs, hstarts, hmis⟩ := he.misrenders hs hnew 0
      obtain ⟨gap, hstep, hafter⟩ := renderAfter_cons hs es acc
      obtain ⟨t, ht, -, -, -⟩ :=
        exists_renderAfter hrest hnew' hes (acc ++ (s ++ e.trailing) ++ gap)
      refine ⟨s ++ (e.trailing ++ gap ++ t), ?_, (hstarts.append _).isStart, ?_⟩
      · rw [hstep, ht]
        simp
      · intro fuel hfuel b p xs c' hxs heq
        obtain ⟨fuel, rfl⟩ := Nat.exists_eq_succ_of_ne_zero (Nat.ne_zero_of_lt hfuel)
        obtain ⟨-, rfl, -⟩ | ⟨-, x, c₁, zs, hx, -, rfl⟩ := Scan.exprsUntilEnd_eq_ok.1 hxs
        · exact absurd heq (by simp)
        · refine hmis _ ?_ hx (List.cons.inj heq).1
          simp only [Cursor.settled_rest, List.length_append]
          omega
  | @after e es he hes ih =>
    cases h with
    | cons _ hs hrest =>
      obtain ⟨s, hs, hspelled, hstarts⟩ := hs.renders hnew' he 0
      obtain ⟨gap, hstep, hafter⟩ := renderAfter_cons hs es acc
      obtain ⟨t, ht, hstart, hmis⟩ := ih hrest (acc ++ (s ++ e.trailing) ++ gap)
      have hne : es ≠ [] := by
        rintro rfl
        cases hes
      have hgap := (hafter.sourcedText hrest).gapBefore (fun hnil => absurd hnil hne)
        (fun _ => hstart)
      have hstop : e.isName = true → Delimits (e.trailing ++ gap ++ t) := fun hname =>
        hafter.delimits hspelled hname hgap (fun hnil => absurd hnil hne)
      refine ⟨s ++ (e.trailing ++ gap) ++ t, ?_, ((hstarts.append _).append _).isStart, ?_⟩
      · rw [hstep, ht]
        simp
      · intro fuel hfuel b p xs c' hxs heq
        obtain ⟨fuel, rfl⟩ := Nat.exists_eq_succ_of_ne_zero (Nat.ne_zero_of_lt hfuel)
        obtain ⟨x, b', p', -, hread⟩ := Scan.exprsUntilEnd_expr hspelled hgap hstop b p
        obtain ⟨zs, hzs, rfl⟩ := (hread fuel xs c').1 hxs
        refine hmis fuel ?_ b' p' zs c' hzs (List.cons.inj heq).2
        have hpos := List.length_pos_iff.2 hspelled.ne_nil
        simp only [List.length_append] at hfuel
        omega

/-- A document in which a name runs on is written as a text that is not read as the document. -/
theorem Document.exists_render_torn {l : Layout} {new : Expr → Prop} {d : Document}
    (h : d.Sourced new) (hnew : ∀ x, new x → ¬x.Torn ∧ ∀ level, x.Renders l level)
    (htorn : TornText d.exprs) :
    ∃ text, d.render l = .ok text ∧ Document.readPlain text ≠ .ok d.dropSpans := by
  obtain ⟨span, hspan, hes⟩ := h
  obtain ⟨t, ht, hstart, hmis⟩ := exists_renderAfter_torn hes hnew htorn span.raw.toList
  have hne : d.exprs ≠ [] := by
    intro hnil
    rw [hnil] at htorn
    cases htorn
  have hgap := hes.gapBefore (fun hnil => absurd hnil hne) (fun _ => hstart)
  refine ⟨String.ofList (span.raw.toList ++ t), ?_, ?_⟩
  · rw [Document.render, hspan, ← ht]
    simp
  · rw [Document.readPlain, Document.read_append hgap]
    cases hread : Scan.exprsUntilEnd (t.length + 1) (Cursor.settled span.raw.toList.reverse t
        (Pos.origin.forwardOver span.raw.toList)) with
    | ok xs c =>
      intro heq
      have hdrop := congrArg Document.exprs (Except.ok.inj heq)
      simp only [Document.dropSpans, Expr.dropSpansAll_eq_map] at hdrop
      exact hmis _ (Nat.lt_succ_self _) _ _ xs c hread hdrop
    | error e c =>
      intro heq
      cases heq

end Sexpr
