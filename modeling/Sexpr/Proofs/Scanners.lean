/-
Scanners stay inside the text.

Every scanner goes over some characters at the front of a text and never over U+0000. What
the scanners of strings find depends on these characters only.

* `exists_layout` — white space and comments end where no more of them follow;
* `Scanned.Within` — what was gone over is part of the text before its end;
* `within_stringToken`, `within_rawToken`, `within_escape` — this holds of the scanners
  of strings and raw strings;
* `Determined` — a scanner looks at nothing behind what it goes over;
* `stringToken_eq_found`, `rawToken_eq_found` — what strings and raw strings are made of.
-/
import Mathlib.Data.List.TakeWhile
import Mathlib.Tactic.Set
import Mathlib.Tactic.SplitIfs
import Sexpr.Proofs.Characters

namespace Sexpr

/-! ### White space and comments -/

/-- White space and comments are a part of the text before its end, and no more of
them follow. -/
theorem exists_layout (comment : Bool) (cs : List Char) :
    ∃ g r, cs = g ++ r ∧ layoutLength comment cs = g.length ∧ endMark ∉ g ∧
      layoutLength false r = 0 := by
  induction cs generalizing comment with
  | nil => exact ⟨[], [], rfl, rfl, by simp, rfl⟩
  | cons c cs ih =>
    by_cases hend : c = endMark
    · exact ⟨[], c :: cs, rfl, by simp [layoutLength, hend], by simp, by simp [layoutLength, hend]⟩
    -- one more character is gone over, inside a comment or outside
    have hgo : ∀ comment', layoutLength comment (c :: cs) = 1 + layoutLength comment' cs →
        ∃ g r, c :: cs = g ++ r ∧ layoutLength comment (c :: cs) = g.length ∧ endMark ∉ g ∧
          layoutLength false r = 0 := by
      intro comment' h
      obtain ⟨g, r, rfl, hg, hm, hr⟩ := ih comment'
      refine ⟨c :: g, r, rfl, by rw [h, hg, List.length_cons]; omega, ?_, hr⟩
      rw [List.mem_cons, not_or]
      exact ⟨Ne.symm hend, hm⟩
    cases comment with
    | true => exact hgo (decide (c ≠ '\n')) (by simp [layoutLength, hend])
    | false =>
      by_cases hspace : Text.isSpace c = true
      · exact hgo false (by simp [layoutLength, hend, hspace])
      · by_cases hsemi : c = ';'
        · subst hsemi
          exact hgo true (by simp [layoutLength, hend, hspace])
        · have hzero : layoutLength false (c :: cs) = 0 := by
            simp [layoutLength, hspace, hsemi]
          exact ⟨[], c :: cs, rfl, hzero, by simp, hzero⟩

/-! ### Scanners -/

/-- What a scanner went over is part of the text before its end. -/
def Scanned.Within {α : Type} (s : Scanned α) (cs : List Char) : Prop :=
  s.length ≤ cs.length ∧ endMark ∉ cs.take s.length

theorem Scanned.Within.exists_append {α : Type} {s : Scanned α} {cs : List Char}
    (h : s.Within cs) : ∃ t r, cs = t ++ r ∧ s.length = t.length ∧ endMark ∉ t :=
  ⟨cs.take s.length, cs.drop s.length, (List.take_append_drop _ _).symm,
    (List.length_take_of_le h.1).symm, h.2⟩

theorem within_of_append {α : Type} {s : Scanned α} {t r : List Char} (hs : s.length = t.length)
    (ht : endMark ∉ t) : s.Within (t ++ r) := by
  refine ⟨by rw [hs, List.length_append]; omega, ?_⟩
  rw [hs, List.take_left]
  exact ht

theorem within_zero {α : Type} (o : Except ReadFault α) (cs : List Char) :
    (⟨0, o⟩ : Scanned α).Within cs :=
  within_of_append (t := []) rfl (by simp)

theorem within_after {α β : Type} {s : Scanned α} {t cs : List Char} (f : α → β)
    (ht : endMark ∉ t) (h : s.Within cs) : (s.after t.length f).Within (t ++ cs) := by
  obtain ⟨u, r, rfl, hu, hm⟩ := h.exists_append
  rw [← List.append_assoc]
  refine within_of_append (by rw [List.length_append, ← hu]; rfl) ?_
  rw [List.mem_append, not_or]
  exact ⟨ht, hm⟩

/-- One character and what was gone over after it. -/
theorem within_after_one {α β : Type} {s : Scanned α} {c : Char} {cs : List Char} (f : α → β)
    (hc : c ≠ endMark) (h : s.Within cs) : (s.after 1 f).Within (c :: cs) :=
  within_after (t := [c]) f (by simpa using Ne.symm hc) h

theorem within_one {α : Type} {c : Char} (hc : c ≠ endMark) (o : Except ReadFault α)
    (cs : List Char) : (⟨1, o⟩ : Scanned α).Within (c :: cs) :=
  within_of_append (t := [c]) rfl (by simpa using Ne.symm hc)

theorem exists_cons_of_headD {cs : List Char} {c : Char} (h : cs.headD endMark = c)
    (hc : c ≠ endMark) : ∃ r, cs = c :: r := by
  cases cs with
  | nil => exact absurd h.symm hc
  | cons x r => exact ⟨r, by rw [← h, List.headD_cons]⟩

/-! ### Strings -/

theorem ne_endMark_of_isCodePointDigit {c : Char} (h : isCodePointDigit c = true) :
    c ≠ endMark := by
  rintro rfl
  exact absurd h (by decide)

theorem within_codePoint (cs : List Char) : (codePoint cs).Within cs := by
  unfold codePoint
  split
  · next rest =>
    set ds := rest.takeWhile isCodePointDigit with hds
    obtain ⟨r, hr⟩ : ds <+: rest := List.takeWhile_prefix _
    have hm : endMark ∉ '{' :: ds := by
      rw [List.mem_cons, not_or]
      refine ⟨by decide, fun h => ?_⟩
      exact ne_endMark_of_isCodePointDigit (List.mem_takeWhile_imp h) rfl
    have hgone : ∀ {α : Type} (o : Except ReadFault α),
        (⟨ds.length + 1, o⟩ : Scanned α).Within ('{' :: rest) := by
      intro α o
      rw [← hr]
      exact within_of_append (t := '{' :: ds) rfl hm
    simp only
    split
    · next hstop =>
      split
      · exact within_one (by decide) _ _
      · rw [← hr, List.drop_left] at hstop
        obtain ⟨r', rfl⟩ := exists_cons_of_headD hstop (by decide)
        rw [← hr, show '{' :: (ds ++ '}' :: r') = ('{' :: ds ++ ['}']) ++ r' by simp]
        refine within_of_append (by simp) ?_
        rw [List.mem_append, not_or]
        exact ⟨hm, by decide⟩
    · split
      · exact hgone _
      · exact hgone _
  · exact within_zero _ _

theorem within_escape (cs : List Char) : (escape cs).Within cs := by
  rw [escape]
  generalize hhead : cs.headD endMark = c
  by_cases hc : c = endMark
  · rw [if_pos hc]
    exact within_zero _ _
  · rw [if_neg hc]
    obtain ⟨cs, rfl⟩ := exists_cons_of_headD hhead hc
    have hone : ∀ xs, (Scanned.found 1 xs : Scanned (List Char)).Within (c :: cs) :=
      fun xs => within_one hc _ cs
    split_ifs
    all_goals first
      | exact hone _
      | exact within_after_one _ hc (within_codePoint cs)

/-- The characters that belong to an escape are in front of the end of the text. -/
theorem within_stringBody {q : Char} (hq : q ≠ endMark) (pending : Nat) (cs : List Char)
    (h : pending ≤ cs.length ∧ endMark ∉ cs.take pending) :
    (stringBody q pending cs).Within cs := by
  induction cs generalizing pending with
  | nil => exact within_zero _ _
  | cons c cs ih =>
    -- `pending` characters of an escape are still to be gone over
    cases pending with
    | succ k =>
      rw [List.take_succ_cons, List.mem_cons, not_or] at h
      exact within_after_one _ (Ne.symm h.2.1) (ih k ⟨Nat.le_of_succ_le_succ h.1, h.2.2⟩)
    | zero =>
      rw [stringBody]
      split_ifs with hcq hend hback
      · exact within_one (hcq ▸ hq) _ _
      · exact within_zero _ _
      · have hesc := within_escape cs
        split
        · next n xs heq =>
          rw [heq] at hesc
          exact within_after_one _ hend (ih n hesc)
        · next n e heq =>
          rw [heq] at hesc
          have := within_after_one (α := List Char) (β := List Char) id hend hesc
          rwa [Scanned.after, Nat.add_comm] at this
      · exact within_after_one _ hend (ih 0 ⟨Nat.zero_le _, by simp⟩)

theorem within_stringToken (q : Char) (cs : List Char) : (stringToken q cs).Within cs := by
  unfold stringToken
  split_ifs with hq hhead
  · exact within_zero _ _
  · exact within_zero _ _
  · have hend : q ≠ endMark := by
      rintro rfl
      exact hq (by decide)
    obtain ⟨cs, rfl⟩ := exists_cons_of_headD (not_not.1 hhead) hend
    exact within_after_one _ hend (within_stringBody hend 0 cs ⟨Nat.zero_le _, by simp⟩)

/-! ### Raw strings -/

theorem within_rawBody {tag : List Char} (htag : endMark ∉ tag) (missing cs : List Char)
    (hmissing : endMark ∉ missing) : (rawBody tag missing cs).Within cs := by
  induction cs generalizing missing with
  | nil => exact within_zero _ _
  | cons c cs ih =>
    rw [rawBody]
    by_cases hmet : missing.head? = some c
    · have hc : c ≠ endMark := fun h => hmissing (h ▸ List.mem_of_mem_head? hmet)
      rw [if_pos hmet]
      split_ifs
      · exact within_one hc _ _
      · exact within_after_one _ hc (ih _ fun h => hmissing (List.mem_of_mem_tail h))
    · rw [if_neg hmet]
      -- what was held back changes the characters found, not how many were gone over
      generalize (if missing.isEmpty then [] else '"' :: tag.take (tag.length - missing.length)) =
        held
      dsimp only
      split_ifs with hend hquote hempty
      · exact within_zero _ _
      · exact within_one hend _ _
      · exact within_after_one _ hend (ih _ htag)
      · exact within_after_one _ hend (ih _ (by simp))

theorem within_rawToken (cs : List Char) : (rawToken cs).Within cs := by
  unfold rawToken
  split_ifs with hhead
  · exact within_zero _ _
  · obtain ⟨cs, rfl⟩ := exists_cons_of_headD (not_not.1 hhead) (by decide)
    obtain ⟨r, hr⟩ : cs.takeWhile Text.isAlphanumeric <+: cs := List.takeWhile_prefix _
    have htag : endMark ∉ cs.takeWhile Text.isAlphanumeric := fun h =>
      absurd (List.mem_takeWhile_imp h) (by decide)
    rw [show ('#' :: cs).drop 1 = cs from rfl]
    generalize cs.takeWhile Text.isAlphanumeric = tag at hr htag ⊢
    subst hr
    dsimp only
    have hgone : endMark ∉ '#' :: tag := by
      rw [List.mem_cons, not_or]
      exact ⟨by decide, htag⟩
    rw [show '#' :: (tag ++ r) = ('#' :: tag) ++ r from rfl,
      show 1 + tag.length = ('#' :: tag).length by simp [Nat.add_comm], List.drop_left]
    split_ifs with hquote
    · exact within_of_append rfl hgone
    · obtain ⟨r, rfl⟩ := exists_cons_of_headD (not_not.1 hquote) (by decide)
      rw [show ('#' :: tag) ++ '"' :: r = ('#' :: tag ++ ['"']) ++ r by simp,
        show tag.length + 2 = ('#' :: tag ++ ['"']).length by simp]
      refine within_after _ ?_ (within_rawBody htag [] r (by simp))
      rw [List.mem_append, not_or]
      exact ⟨hgone, by decide⟩

/-! ### What a scanner looks at -/

/-- What a scanner finds depends only on what it goes over. -/
def Determined {α : Type} (scan : List Char → Scanned α) : Prop :=
  ∀ ⦃s r x⦄, scan (s ++ r) = .found s.length x → ∀ r', scan (s ++ r') = .found s.length x

theorem Scanned.found_inj {α : Type} {m n : Nat} {x y : α} :
    Scanned.found m x = Scanned.found n y ↔ m = n ∧ x = y := by
  simp [Scanned.found]

theorem Scanned.fail_ne_found {α : Type} {m n : Nat} {e : ReadFault} {x : α} :
    Scanned.fail m e ≠ Scanned.found n x := by
  simp [Scanned.fail, Scanned.found]

theorem Scanned.after_eq_found {α β : Type} {s : Scanned α} {f : α → β} {m n : Nat} {y : β} :
    s.after n f = .found m y ↔ ∃ k x, s = .found k x ∧ m = n + k ∧ y = f x := by
  obtain ⟨k, e | x⟩ := s
  · simp [Scanned.after, Scanned.found, Except.map]
  · simp only [Scanned.after, Scanned.found, Except.map, Scanned.mk.injEq, Except.ok.injEq]
    constructor
    · rintro ⟨rfl, rfl⟩
      exact ⟨k, x, ⟨rfl, rfl⟩, rfl, rfl⟩
    · rintro ⟨_, _, ⟨rfl, rfl⟩, rfl, rfl⟩
      exact ⟨rfl, rfl⟩

theorem takeWhile_append_cons {p : Char → Bool} {s : List Char} (hs : ∀ c ∈ s, p c = true)
    {c : Char} (hc : p c = false) (r : List Char) : (s ++ c :: r).takeWhile p = s := by
  rw [List.takeWhile_append_of_pos hs, List.takeWhile_cons_of_neg (by simp [hc]), List.append_nil]

/-- The digits between the braces are converted. -/
theorem codePoint_braces {ds : List Char} (hne : ds ≠ [])
    (hds : ∀ d ∈ ds, isCodePointDigit d = true) (r : List Char) :
    codePoint ('{' :: (ds ++ '}' :: r)) = ⟨ds.length + 2, charOfDigits ds⟩ := by
  simp only [codePoint, takeWhile_append_cons hds (show isCodePointDigit '}' = false by decide) r,
    List.drop_left, List.headD_cons]
  rw [if_pos trivial, if_neg (by simpa using hne)]

theorem codePoint_eq_found {cs : List Char} {n : Nat} {c : Char} :
    codePoint cs = .found n c ↔ ∃ ds r, cs = '{' :: (ds ++ '}' :: r) ∧ n = ds.length + 2 ∧
      ds ≠ [] ∧ (∀ d ∈ ds, isCodePointDigit d = true) ∧ charOfDigits ds = .ok c := by
  constructor
  · intro h
    unfold codePoint at h
    split at h
    · next rest =>
      have hds : ∀ d ∈ rest.takeWhile isCodePointDigit, isCodePointDigit d = true :=
        fun d hd => List.mem_takeWhile_imp hd
      obtain ⟨r, hr⟩ : rest.takeWhile isCodePointDigit <+: rest := List.takeWhile_prefix _
      generalize rest.takeWhile isCodePointDigit = ds at h hds hr
      subst hr
      simp only [List.drop_left] at h
      split_ifs at h with hstop hempty hend
      · exact absurd h Scanned.fail_ne_found
      · obtain ⟨r, rfl⟩ := exists_cons_of_headD hstop (by decide)
        simp only [Scanned.found, Scanned.mk.injEq] at h
        exact ⟨ds, r, rfl, h.1.symm, by simpa using hempty, hds, h.2⟩
      · exact absurd h Scanned.fail_ne_found
      · exact absurd h Scanned.fail_ne_found
    · exact absurd h Scanned.fail_ne_found
  · rintro ⟨ds, r, rfl, rfl, hne, hds, hc⟩
    rw [codePoint_braces hne hds, hc]
    rfl

theorem determined_codePoint : Determined codePoint := by
  intro s r c h r'
  obtain ⟨ds, u, hcs, hlen, hne, hds, hc⟩ := codePoint_eq_found.1 h
  have hsplit : s ++ r = ('{' :: (ds ++ ['}'])) ++ u := by simp [hcs]
  obtain ⟨rfl, -⟩ := List.append_inj hsplit (by simp [hlen])
  exact codePoint_eq_found.2 ⟨ds, r', by simp, by simp, hne, hds, hc⟩

/-- Every escape but that of a code point is one character. -/
theorem escape_cons {c : Char} (hc : c ≠ 'u') (cs : List Char) : escape (c :: cs) = escape [c] := by
  simp [escape, hc]

theorem length_of_escape {c : Char} (hc : c ≠ 'u') {n : Nat} {xs : List Char}
    (h : escape [c] = .found n xs) : n = 1 := by
  rw [escape, List.headD_cons] at h
  split_ifs at h
  · exact absurd h Scanned.fail_ne_found
  all_goals exact (Scanned.found_inj.1 h).1.symm

theorem determined_escape : Determined escape := by
  intro s r xs h r'
  cases s with
  | nil =>
    -- an escape takes at least one character
    cases r with
    | nil => exact absurd h Scanned.fail_ne_found
    | cons c r =>
      by_cases hc : c = 'u'
      · subst hc
        obtain ⟨k, x, -, hlen, -⟩ := Scanned.after_eq_found.1 (show (codePoint r).after 1
          (fun x => [x]) = .found 0 xs from h)
        omega
      · rw [List.nil_append, escape_cons hc] at h
        exact absurd (length_of_escape hc h) (by simp)
  | cons c s =>
    by_cases hc : c = 'u'
    · subst hc
      obtain ⟨k, x, hx, hlen, rfl⟩ := Scanned.after_eq_found.1 (show (codePoint (s ++ r)).after 1
        (fun x => [x]) = .found (s.length + 1) xs from h)
      obtain rfl : k = s.length := by omega
      have hx' := determined_codePoint hx r'
      show (codePoint (s ++ r')).after 1 (fun x => [x]) = .found (s.length + 1) [x]
      rw [hx']
      exact Scanned.found_inj.2 ⟨Nat.add_comm _ _, rfl⟩
    · rw [List.cons_append, escape_cons hc] at h ⊢
      exact h

/-- The closing quote comes after the characters of the escape. -/
theorem lt_of_stringBody {q : Char} {pending n : Nat} {cs xs : List Char}
    (h : stringBody q pending cs = .found n xs) : pending < n := by
  induction cs generalizing pending n xs with
  | nil => exact absurd h Scanned.fail_ne_found
  | cons c cs ih =>
    cases pending with
    | succ k =>
      obtain ⟨m, ys, hm, rfl, -⟩ := Scanned.after_eq_found.1 h
      have := ih hm
      omega
    | zero =>
      rw [stringBody] at h
      split_ifs at h
      · have := (Scanned.found_inj.1 h).1
        omega
      · exact absurd h Scanned.fail_ne_found
      · split at h
        · obtain ⟨m, ys, hm, rfl, -⟩ := Scanned.after_eq_found.1 h
          omega
        · exact absurd h Scanned.fail_ne_found
      · obtain ⟨m, ys, hm, rfl, -⟩ := Scanned.after_eq_found.1 h
        omega

theorem determined_stringBody (q : Char) (pending : Nat) : Determined (stringBody q pending) := by
  intro s r xs h r'
  induction s generalizing pending xs with
  | nil => exact absurd (lt_of_stringBody h) (Nat.not_lt_zero _)
  | cons c s ih =>
    rw [List.cons_append, List.length_cons] at h ⊢
    -- what is found after the first character is found again, and so is the whole
    have hafter : ∀ {p f}, (stringBody q p (s ++ r)).after 1 f = .found (s.length + 1) xs →
        (stringBody q p (s ++ r')).after 1 f = .found (s.length + 1) xs := by
      intro p f hf
      obtain ⟨m, ys, hm, hlen, rfl⟩ := Scanned.after_eq_found.1 hf
      obtain rfl : m = s.length := by omega
      exact Scanned.after_eq_found.2 ⟨_, ys, ih p hm, hlen, rfl⟩
    cases pending with
    | succ k => exact hafter h
    | zero =>
      rw [stringBody] at h ⊢
      split_ifs at h ⊢ with hquote hend hslash
      · exact h
      · exact absurd h Scanned.fail_ne_found
      · -- the escape lies before the closing quote
        cases hesc : escape (s ++ r) with
        | mk n outcome =>
          cases outcome with
          | error e =>
            rw [hesc] at h
            exact absurd h Scanned.fail_ne_found
          | ok ys =>
            rw [hesc] at h
            obtain ⟨m, zs, hm, hlen, -⟩ := Scanned.after_eq_found.1 h
            have hn : n ≤ s.length := by
              have := lt_of_stringBody hm
              omega
            have hsame : escape (s ++ r') = ⟨n, .ok ys⟩ := by
              have htake : (s.take n).length = n := by
                rw [List.length_take]
                omega
              have hdet := determined_escape (s := s.take n) (r := s.drop n ++ r) (x := ys)
                (by rw [← List.append_assoc, List.take_append_drop, hesc, htake]; rfl)
                (s.drop n ++ r')
              rwa [← List.append_assoc, List.take_append_drop, htake] at hdet
            rw [hsame]
            exact hafter h
      · exact hafter h

theorem stringToken_eq_found {q : Char} {cs : List Char} {n : Nat} {l : Leaf} :
    stringToken q cs = .found n l ↔ (q = '"' ∨ q = '\'') ∧ ∃ body k xs, cs = q :: body ∧
      stringBody q 0 body = .found k xs ∧ n = 1 + k ∧ l = .string (String.ofList xs) := by
  constructor
  · intro h
    unfold stringToken at h
    split_ifs at h with hq hhead
    · exact absurd h Scanned.fail_ne_found
    · exact absurd h Scanned.fail_ne_found
    · have hquote : q = '"' ∨ q = '\'' := by
        by_contra hnot
        rw [not_or] at hnot
        exact hq (by simp [hnot.1, hnot.2])
      obtain ⟨body, rfl⟩ := exists_cons_of_headD (not_not.1 hhead) (by
        rcases hquote with rfl | rfl
        · decide
        · decide)
      obtain ⟨k, xs, hbody, rfl, rfl⟩ := Scanned.after_eq_found.1 h
      exact ⟨hquote, body, k, xs, rfl, hbody, rfl, rfl⟩
  · rintro ⟨hquote, body, k, xs, rfl, hbody, rfl, rfl⟩
    rw [stringToken, if_neg (by rcases hquote with rfl | rfl <;> decide), if_neg (by simp),
      List.drop_one, List.tail_cons]
    exact Scanned.after_eq_found.2 ⟨k, xs, hbody, rfl, rfl⟩

theorem determined_stringToken (q : Char) : Determined (stringToken q) := by
  intro s r l h r'
  obtain ⟨hquote, body, k, xs, hcs, hbody, hlen, rfl⟩ := stringToken_eq_found.1 h
  cases s with
  | nil => simp only [List.length_nil] at hlen; omega
  | cons c s =>
    rw [List.cons_append, List.cons.injEq] at hcs
    obtain ⟨rfl, rfl⟩ := hcs
    obtain rfl : k = s.length := by
      rw [List.length_cons] at hlen
      omega
    exact stringToken_eq_found.2
      ⟨hquote, s ++ r', _, xs, rfl, determined_stringBody _ _ hbody r', hlen, rfl⟩

theorem pos_of_rawBody {tag missing cs xs : List Char} {n : Nat}
    (h : rawBody tag missing cs = .found n xs) : 0 < n := by
  cases cs with
  | nil => exact absurd h Scanned.fail_ne_found
  | cons c cs =>
    have hfound : ∀ {ys}, Scanned.found 1 ys = .found n xs → 0 < n := fun h => by
      have := (Scanned.found_inj.1 h).1
      omega
    have hafter : ∀ {m f}, (rawBody tag m cs).after 1 f = .found n xs → 0 < n := fun h => by
      obtain ⟨k, ys, -, rfl, -⟩ := Scanned.after_eq_found.1 h
      omega
    rw [rawBody] at h
    generalize (if missing.isEmpty then [] else '"' :: tag.take (tag.length - missing.length)) =
      held at h
    dsimp only at h
    split_ifs at h
    · exact hfound h
    · exact hafter h
    · exact absurd h Scanned.fail_ne_found
    · exact hfound h
    · exact hafter h
    · exact hafter h

theorem determined_rawBody (tag missing : List Char) : Determined (rawBody tag missing) := by
  intro s r xs h r'
  induction s generalizing missing xs with
  | nil => exact absurd (pos_of_rawBody h) (Nat.lt_irrefl _)
  | cons c s ih =>
    rw [List.cons_append, List.length_cons] at h ⊢
    have hafter : ∀ {m f}, (rawBody tag m (s ++ r)).after 1 f = .found (s.length + 1) xs →
        (rawBody tag m (s ++ r')).after 1 f = .found (s.length + 1) xs := by
      intro m f hf
      obtain ⟨k, ys, hk, hlen, rfl⟩ := Scanned.after_eq_found.1 hf
      obtain rfl : k = s.length := by omega
      exact Scanned.after_eq_found.2 ⟨_, ys, ih m hk, hlen, rfl⟩
    rw [rawBody] at h ⊢
    generalize (if missing.isEmpty then [] else '"' :: tag.take (tag.length - missing.length)) =
      held at h ⊢
    dsimp only at h ⊢
    split_ifs at h ⊢
    · exact h
    · exact hafter h
    · exact absurd h Scanned.fail_ne_found
    · exact h
    · exact hafter h
    · exact hafter h

theorem isAlphanumeric_quote : Text.isAlphanumeric '"' = false := by decide

/-- The scanner of raw strings goes over the opening and scans the string. -/
theorem rawToken_tagged {tag : List Char} (htag : ∀ c ∈ tag, Text.isAlphanumeric c = true)
    (rest : List Char) :
    rawToken ('#' :: (tag ++ '"' :: rest)) = (rawBody tag [] rest).after (tag.length + 2)
      (fun xs => .string (String.ofList xs)) := by
  have hdrop : ('#' :: (tag ++ '"' :: rest)).drop (1 + tag.length) = '"' :: rest := by
    rw [Nat.add_comm, List.drop_succ_cons, List.drop_left]
  rw [rawToken, if_neg (by simp)]
  dsimp only
  rw [show ('#' :: (tag ++ '"' :: rest)).drop 1 = tag ++ '"' :: rest from rfl,
    takeWhile_append_cons htag isAlphanumeric_quote, hdrop, if_neg (by simp)]
  rfl

theorem rawToken_eq_found {cs : List Char} {n : Nat} {l : Leaf} :
    rawToken cs = .found n l ↔ ∃ tag body k xs, cs = '#' :: (tag ++ '"' :: body) ∧
      (∀ c ∈ tag, Text.isAlphanumeric c = true) ∧ rawBody tag [] body = .found k xs ∧
      n = tag.length + 2 + k ∧ l = .string (String.ofList xs) := by
  constructor
  · intro h
    unfold rawToken at h
    split_ifs at h with hhead
    · exact absurd h Scanned.fail_ne_found
    · obtain ⟨cs, rfl⟩ := exists_cons_of_headD (not_not.1 hhead) (by decide)
      have htag : ∀ c ∈ cs.takeWhile Text.isAlphanumeric, Text.isAlphanumeric c = true :=
        fun c hc => List.mem_takeWhile_imp hc
      obtain ⟨r, hr⟩ : cs.takeWhile Text.isAlphanumeric <+: cs := List.takeWhile_prefix _
      rw [show ('#' :: cs).drop 1 = cs from rfl] at h
      generalize cs.takeWhile Text.isAlphanumeric = tag at h htag hr
      subst hr
      have hdrop : ('#' :: (tag ++ r)).drop (1 + tag.length) = r := by
        rw [Nat.add_comm, List.drop_succ_cons, List.drop_left]
      dsimp only at h
      rw [hdrop] at h
      split_ifs at h with hquote
      · exact absurd h Scanned.fail_ne_found
      · obtain ⟨body, rfl⟩ := exists_cons_of_headD (not_not.1 hquote) (by decide)
        obtain ⟨k, xs, hbody, rfl, rfl⟩ := Scanned.after_eq_found.1 h
        exact ⟨tag, body, k, xs, rfl, htag, hbody, rfl, rfl⟩
  · rintro ⟨tag, body, k, xs, rfl, htag, hbody, rfl, rfl⟩
    rw [rawToken_tagged htag]
    exact Scanned.after_eq_found.2 ⟨k, xs, hbody, rfl, rfl⟩

theorem determined_rawToken : Determined rawToken := by
  intro s r l h r'
  obtain ⟨tag, body, k, xs, hcs, htag, hbody, hlen, rfl⟩ := rawToken_eq_found.1 h
  -- the token is the tag between its signs, and as much of the body as was gone over
  obtain ⟨t, rfl, rfl⟩ : ∃ t, s = '#' :: (tag ++ '"' :: t) ∧ body = t ++ r := by
    have hsplit : s ++ r = ('#' :: (tag ++ ['"'])) ++ body := by simp [hcs]
    obtain ⟨t, hs, -⟩ | ⟨t, hs, ht⟩ := List.append_eq_append_iff.1 hsplit
    · have hle := congrArg List.length hs
      have hpos := pos_of_rawBody hbody
      simp only [List.length_append, List.length_cons, List.length_nil] at hle
      omega
    · exact ⟨t, by simp [hs], ht⟩
  obtain rfl : k = t.length := by
    simp only [List.length_append, List.length_cons] at hlen
    omega
  exact rawToken_eq_found.2
    ⟨tag, t ++ r', _, xs, by simp, htag, determined_rawBody _ _ hbody r', hlen, rfl⟩

end Sexpr
