/-
Where raw strings end.

A raw string ends at the first quote that is followed by its tag. The scanner goes over the text
once and never back: after a quote it compares with the tag, and where the tag breaks off it takes
the quote and what it has met of the tag for text. No end is missed in this way, since no quote
stands in a tag, so that no other end can start among the characters that were met.

* `FirstAt` — the first place of a pattern in a text;
* `rawBody_terminator`, `rawBody_cons` — the scanner as a plain search, one character after another;
* `rawBody_of_firstAt`, `rawBody_of_not_infix` — what it finds;
* `Scan.raw_first_terminator` — raw strings at a cursor, and texts that hold no end of their own.
-/
import Mathlib.Data.Nat.Find
import Sexpr.Proofs.Acceptance
import Sexpr.Proofs.EndOfText

namespace Sexpr

/-! ### Patterns -/

/-- The pattern stands in the text after `i` characters, and nowhere before. -/
structure FirstAt (pattern text : List Char) (i : Nat) : Prop where
  here : pattern <+: text.drop i
  first : ∀ j < i, ¬ pattern <+: text.drop j

instance (pattern text : List Char) (i : Nat) : Decidable (FirstAt pattern text i) :=
  decidable_of_iff (pattern <+: text.drop i ∧ ∀ j < i, ¬ pattern <+: text.drop j)
    ⟨fun h => ⟨h.1, h.2⟩, fun h => ⟨h.here, h.first⟩⟩

/-- A pattern that stands in a text has a first place there. -/
theorem exists_firstAt {pattern text : List Char} (h : pattern <:+: text) :
    ∃ i, FirstAt pattern text i := by
  obtain ⟨a, b, rfl⟩ := h
  have hsome : ∃ i, pattern <+: (a ++ pattern ++ b).drop i :=
    ⟨a.length, by rw [List.append_assoc, List.drop_left]; exact List.prefix_append _ _⟩
  exact ⟨Nat.find hsome, Nat.find_spec hsome, fun j hj => Nat.find_min hsome hj⟩

/-- Where a text goes on otherwise than a pattern: what they share, and what follows in each. -/
theorem exists_break {pattern text : List Char} (h : ¬ pattern <+: text) :
    ∃ met missing r, pattern = met ++ missing ∧ text = met ++ r ∧ missing ≠ [] ∧
      missing.head? ≠ r.head? := by
  induction pattern generalizing text with
  | nil => exact absurd List.nil_prefix h
  | cons x pattern ih =>
    cases text with
    | nil => exact ⟨[], x :: pattern, [], rfl, rfl, by simp, by simp⟩
    | cons y text =>
      by_cases hxy : x = y
      · subst hxy
        rw [List.prefix_cons_inj] at h
        obtain ⟨met, missing, r, rfl, rfl, hne, hhead⟩ := ih h
        exact ⟨x :: met, missing, r, rfl, rfl, hne, hhead⟩
      · exact ⟨[], x :: pattern, y :: text, rfl, rfl, by simp, by simpa using hxy⟩

/-- A sign and a tag without the sign, written after a text that does not hold them, stand there
first. -/
theorem firstAt_append {x : Char} {tag s : List Char} (hx : x ∉ tag) (hs : ¬ (x :: tag) <:+: s)
    (r : List Char) : FirstAt (x :: tag) (s ++ x :: (tag ++ r)) s.length := by
  refine ⟨?_, fun j hj hprefix => ?_⟩
  · rw [List.drop_left]
    exact ⟨r, rfl⟩
  · obtain ⟨u, hu⟩ := hprefix
    rw [List.drop_append_of_le_length hj.le] at hu
    obtain ⟨v, hv, -⟩ | ⟨v, hv, hr⟩ := List.append_eq_append_iff.1 hu
    · exact hs ⟨s.take j, v, by rw [List.append_assoc, ← hv, List.take_append_drop]⟩
    · cases v with
      | nil =>
        rw [List.append_nil] at hv
        exact hs ⟨s.take j, [], by rw [List.append_nil, hv, List.take_append_drop]⟩
      | cons y v =>
        -- the earlier place would reach over the sign, which stands in no tag
        obtain rfl : x = y := (List.cons.inj hr).1
        obtain ⟨z, w, hw⟩ : ∃ z w, s.drop j = z :: w :=
          List.exists_cons_of_ne_nil (by simpa using hj)
        rw [hw, List.cons_append, List.cons.injEq] at hv
        exact hx (hv.2 ▸ List.mem_append_right w List.mem_cons_self)

/-! ### The scanner -/

namespace Scanned

variable {α β γ : Type}

theorem after_zero (s : Scanned α) : s.after 0 id = s := by
  obtain ⟨n, o⟩ := s
  cases o with
  | ok a => simp [after, Except.map]
  | error e => simp [after, Except.map]

theorem after_after (m n : Nat) (f : α → β) (g : β → γ) (s : Scanned α) :
    (s.after m f).after n g = s.after (n + m) (g ∘ f) := by
  obtain ⟨k, o⟩ := s
  cases o with
  | ok a => simp [after, Except.map, Nat.add_assoc]
  | error e => simp [after, Except.map, Nat.add_assoc]

end Scanned

section

variable {tag : List Char}

theorem not_mem_of_isAlphanumeric (htag : ∀ c ∈ tag, Text.isAlphanumeric c = true) {x : Char}
    (hx : Text.isAlphanumeric x = false) : x ∉ tag := by
  intro h
  rw [htag x h] at hx
  cases hx

/-- A character that is no quote belongs to the string. -/
theorem rawBody_cons_of_ne {c : Char} (hend : c ≠ endMark) (hquote : c ≠ '"') (cs : List Char) :
    rawBody tag [] (c :: cs) = (rawBody tag [] cs).after 1 (c :: ·) := by
  simp [rawBody, hend, hquote]

/-- Characters that are no quotes belong to the string. -/
theorem rawBody_append {s : List Char} (hs : ∀ c ∈ s, c ≠ endMark ∧ c ≠ '"') (r : List Char) :
    rawBody tag [] (s ++ r) = (rawBody tag [] r).after s.length (s ++ ·) := by
  induction s with
  | nil => exact (Scanned.after_zero _).symm
  | cons c s ih =>
    obtain ⟨⟨hend, hquote⟩, hs⟩ := List.forall_mem_cons.1 hs
    rw [List.cons_append, rawBody_cons_of_ne hend hquote, ih hs, Scanned.after_after,
      List.length_cons, Nat.add_comm]
    rfl

/-- After a quote the characters of the tag are met one by one. -/
theorem rawBody_met {missing : List Char} (hne : missing ≠ []) (met r : List Char) :
    rawBody tag (met ++ missing) (met ++ r) = (rawBody tag missing r).after met.length id := by
  induction met with
  | nil => exact (Scanned.after_zero _).symm
  | cons x met ih =>
    have hmore : ¬ (met ++ missing).isEmpty = true := by simp [hne]
    rw [List.cons_append, List.cons_append, rawBody, if_pos List.head?_cons, List.tail_cons,
      if_neg hmore, ih, Scanned.after_after, List.length_cons, Nat.add_comm]
    rfl

/-- The whole tag ends the string. -/
theorem rawBody_whole {missing : List Char} (hne : missing ≠ []) (r : List Char) :
    rawBody tag missing (missing ++ r) = .found missing.length [] := by
  obtain ⟨met, x, rfl⟩ := (List.eq_nil_or_concat' missing).resolve_left hne
  have hlast : rawBody tag [x] (x :: r) = .found 1 [] := by simp [rawBody]
  rw [List.append_assoc, rawBody_met (by simp), List.singleton_append, hlast, List.length_append]
  rfl

/-- Where the tag breaks off, the quote and what was met of the tag belong to the string. -/
theorem rawBody_break {met missing r : List Char} (htag : tag = met ++ missing)
    (hne : missing ≠ []) (hhead : missing.head? ≠ r.head?) :
    rawBody tag missing r = (rawBody tag [] r).after 0 ('"' :: met ++ ·) := by
  cases r with
  | nil => rfl
  | cons c cs =>
    have hheld : tag.take (tag.length - missing.length) = met := by
      rw [htag, List.length_append, Nat.add_sub_cancel, List.take_left]
    have htagne : tag ≠ [] := by simp [htag, hne]
    rw [List.head?_cons] at hhead
    rw [rawBody, if_neg hhead, rawBody]
    by_cases hend : c = endMark
    · simp [hend, Scanned.fail, Scanned.after, Except.map]
    · by_cases hquote : c = '"'
      · subst hquote
        simp [hend, hheld, hne, htagne, Scanned.after_after, Function.comp_def]
      · simp [hend, hquote, hheld, hne, Scanned.after_after, Function.comp_def]

/-- A quote after which the tag follows ends the string. -/
theorem rawBody_terminator {cs : List Char} (h : ('"' :: tag) <+: cs) :
    rawBody tag [] cs = .found (tag.length + 1) [] := by
  obtain ⟨r, rfl⟩ := h
  rw [List.cons_append, rawBody, if_neg (by simp)]
  by_cases htag : tag = []
  · simp [htag, endMark]
  · have hfound : rawBody tag tag (tag ++ r) = .found tag.length [] := rawBody_whole htag r
    simp [htag, endMark, hfound, Scanned.found, Scanned.after, Except.map, Nat.add_comm]

/-- A quote after which the tag does not follow is a character like the others: what was met of
the tag could have been read without the quote. -/
theorem rawBody_quote (htag : ∀ c ∈ tag, Text.isAlphanumeric c = true) {r : List Char}
    (h : ¬ tag <+: r) : rawBody tag [] ('"' :: r) = (rawBody tag [] r).after 1 ('"' :: ·) := by
  obtain ⟨met, missing, r, htagEq, rfl, hne, hhead⟩ := exists_break h
  have hmet : ∀ c ∈ met, c ≠ endMark ∧ c ≠ '"' := by
    intro c hc
    have hmem : c ∈ tag := htagEq ▸ List.mem_append_left missing hc
    exact ⟨ne_of_mem_of_not_mem hmem (not_mem_of_isAlphanumeric htag (by decide)),
      ne_of_mem_of_not_mem hmem (not_mem_of_isAlphanumeric htag isAlphanumeric_quote)⟩
  have hscan : rawBody tag tag (met ++ r) =
      (rawBody tag [] r).after met.length ('"' :: met ++ ·) := by
    rw [htagEq, rawBody_met hne, ← htagEq, rawBody_break htagEq hne hhead, Scanned.after_after]
    rfl
  have htagne : tag ≠ [] := by simp [htagEq, hne]
  rw [rawBody_append hmet, Scanned.after_after, rawBody, if_neg (by simp)]
  simp [htagne, endMark, hscan, Scanned.after_after, Function.comp_def]

/-- A character at which the string does not end belongs to the string. -/
theorem rawBody_cons (htag : ∀ c ∈ tag, Text.isAlphanumeric c = true) {c : Char} {cs : List Char}
    (hend : c ≠ endMark) (h : ¬ ('"' :: tag) <+: c :: cs) :
    rawBody tag [] (c :: cs) = (rawBody tag [] cs).after 1 (c :: ·) := by
  by_cases hquote : c = '"'
  · subst hquote
    rw [List.prefix_cons_inj] at h
    exact rawBody_quote htag h
  · exact rawBody_cons_of_ne hend hquote cs

/-- The string ends at the first quote that the tag follows. -/
theorem rawBody_of_firstAt (htag : ∀ c ∈ tag, Text.isAlphanumeric c = true) {cs : List Char}
    (hend : endMark ∉ cs) {i : Nat} (h : FirstAt ('"' :: tag) cs i) :
    rawBody tag [] cs = .found (i + (tag.length + 1)) (cs.take i) := by
  -- each character that the scanner takes brings the place one nearer
  induction i generalizing cs with
  | zero =>
    have hhere : ('"' :: tag) <+: cs := h.here
    rw [rawBody_terminator hhere, List.take_zero, Nat.zero_add]
  | succ i ih =>
    cases cs with
    | nil => exact absurd h.here (by simp)
    | cons c cs =>
      rw [List.mem_cons, not_or] at hend
      have hlater : FirstAt ('"' :: tag) cs i :=
        ⟨h.here, fun j hj => h.first (j + 1) (Nat.succ_lt_succ hj)⟩
      rw [rawBody_cons htag (Ne.symm hend.1) (h.first 0 (Nat.succ_pos i)), ih hend.2 hlater,
        List.take_succ_cons]
      exact Scanned.after_eq_found.2 ⟨_, _, rfl, by omega, rfl⟩

/-- If the tag follows no quote, the text ends inside the string. -/
theorem rawBody_of_not_infix (htag : ∀ c ∈ tag, Text.isAlphanumeric c = true) {cs : List Char}
    (hend : endMark ∉ cs) (h : ¬ ('"' :: tag) <:+: cs) :
    rawBody tag [] cs = .fail cs.length .endOfInput := by
  induction cs with
  | nil => rfl
  | cons c cs ih =>
    rw [List.mem_cons, not_or] at hend
    rw [List.infix_cons_iff, not_or] at h
    rw [rawBody_cons htag (Ne.symm hend.1) h.1, ih hend.2 h.2, List.length_cons, Nat.add_comm]
    rfl

end

/-! ### Raw strings -/

section

variable {tag : List Char}

theorem endMark_not_mem_beforeEnd (cs : List Char) : endMark ∉ beforeEnd cs := by
  intro h
  simpa using List.mem_takeWhile_imp h

theorem rawToken_of_firstAt (htag : ∀ c ∈ tag, Text.isAlphanumeric c = true) {rest : List Char}
    {i : Nat} (h : FirstAt ('"' :: tag) (beforeEnd rest) i) :
    rawToken ('#' :: (tag ++ '"' :: rest)) =
      .found (tag.length + 2 + (i + (tag.length + 1))) (.string (String.ofList (rest.take i))) := by
  have htake : (beforeEnd rest).take i = rest.take i := by
    obtain ⟨r, hr⟩ : beforeEnd rest <+: rest := List.takeWhile_prefix _
    have hle : i ≤ (beforeEnd rest).length := by
      by_contra hlt
      have hnil := h.here
      rw [List.drop_eq_nil_of_le (by omega)] at hnil
      exact absurd hnil (by simp)
    conv_rhs => rw [← hr, List.take_append_of_le_length hle]
  rw [rawToken_tagged htag, ← rawBody_beforeEnd (not_mem_of_isAlphanumeric htag (by decide))
    List.not_mem_nil, rawBody_of_firstAt htag (endMark_not_mem_beforeEnd rest) h, htake]
  rfl

theorem rawToken_of_not_infix (htag : ∀ c ∈ tag, Text.isAlphanumeric c = true) {rest : List Char}
    (h : ¬ ('"' :: tag) <:+: beforeEnd rest) :
    (rawToken ('#' :: (tag ++ '"' :: rest))).outcome = .error .endOfInput := by
  rw [rawToken_tagged htag, ← rawBody_beforeEnd (not_mem_of_isAlphanumeric htag (by decide))
    List.not_mem_nil, rawBody_of_not_infix htag (endMark_not_mem_beforeEnd rest) h]
  rfl

/-- A text that does not hold the end of a raw string is one, between its opening and its end. -/
theorem rawToken_enclosed (htag : ∀ c ∈ tag, Text.isAlphanumeric c = true) {s : List Char}
    (hend : endMark ∉ s) (hs : ¬ ('"' :: tag) <:+: s) (r : List Char) :
    rawToken ('#' :: (tag ++ '"' :: (s ++ '"' :: (tag ++ r)))) =
      .found (tag.length + 2 + (s.length + (tag.length + 1))) (.string (String.ofList s)) := by
  have hquote : '"' ∉ tag := not_mem_of_isAlphanumeric htag isAlphanumeric_quote
  have hbefore : beforeEnd (s ++ '"' :: (tag ++ r)) = s ++ '"' :: (tag ++ beforeEnd r) := by
    rw [beforeEnd_append hend, beforeEnd_cons (by decide),
      beforeEnd_append (not_mem_of_isAlphanumeric htag (by decide))]
  have hfirst := firstAt_append hquote hs (beforeEnd r)
  rw [← hbefore] at hfirst
  rw [rawToken_of_firstAt htag hfirst, List.take_left]

/-- A raw string on its own is a document. -/
theorem Document.parse_enclosed (htag : ∀ c ∈ tag, Text.isAlphanumeric c = true) {s : List Char}
    (hend : endMark ∉ s) (hs : ¬ ('"' :: tag) <:+: s) :
    Document.parse (String.ofList ('#' :: (tag ++ '"' :: (s ++ '"' :: tag)))) false =
      .ok ⟨[.leaf (.string (String.ofList s)) none], none⟩ := by
  have hleaf : (Leaf.string (String.ofList s)).SpelledAs
      ('#' :: (tag ++ '"' :: (s ++ '"' :: tag))) := by
    refine .raw fun r => ?_
    have hfound := rawToken_enclosed htag hend hs r
    have hlen : ('#' :: (tag ++ '"' :: (s ++ '"' :: tag))).length =
        tag.length + 2 + (s.length + (tag.length + 1)) := by
      simp only [List.length_cons, List.length_append]
      omega
    rw [hlen, ← hfound]
    simp
  have hdoc : (Document.mk [.leaf (.string (String.ofList s)) none] none).SpelledAs
      ([] ++ ('#' :: (tag ++ '"' :: (s ++ '"' :: tag)) ++ [] ++ [])) :=
    Document.spelledAs_of_separated .nil (.cons (.leaf hleaf) textGap_nil .nil)
  rw [List.nil_append, List.append_nil, List.append_nil] at hdoc
  exact Document.readPlain_of_spelledAs (by rwa [String.toList_ofList])

end

namespace Scan

/-- At the cursor a raw string with the given value is read. Its token ends in front of `r`, and
reading goes on there. -/
def ReadsRaw (c : Cursor) (value r : List Char) : Prop :=
  ∃ n spans c', raw c = .ok (.leaf (.string (String.ofList value)) (some spans)) c' ∧
    (c.advance n).rest = r ∧ tokenSpans (c.advance n) = .ok spans c'

theorem exists_tokenSpans (c : Cursor) : ∃ spans c', tokenSpans c = .ok spans c' := by
  obtain ⟨b, t, rest, m, p⟩ := c
  obtain ⟨g, r, rfl, hg, -, -⟩ := exists_layout false rest
  exact ⟨_, _, tokenSpans_append hg b t m p⟩

theorem readsRaw_of_found {c : Cursor} {n : Nat} {value : List Char}
    (h : rawToken c.rest = .found n (.string (String.ofList value))) :
    ReadsRaw c value (c.rest.drop n) := by
  obtain ⟨spans, c', hspans⟩ := exists_tokenSpans (c.advance n)
  refine ⟨n, spans, c', leafOf_eq_ok.2 ⟨_, spans, ?_, ?_, rfl⟩, Cursor.rest_advance n c, hspans⟩
  · rw [h, Scanned.found]
  · rw [h, Scanned.found]
    exact hspans

theorem raw_of_error {c : Cursor} {f : ReadFault} (h : (rawToken c.rest).outcome = .error f) :
    ∃ c', raw c = .error f c' :=
  ⟨_, EStateM.bind_of_error (lexeme_of_error h)⟩

/-- A raw string ends at the first quote that is followed by its tag, and the text ends inside the
string if there is none before its end. So every text without such a quote, and without U+0000, is
read back from its raw string. -/
theorem raw_first_terminator {tag : List Char}
    (htag : ∀ x ∈ tag, Text.isAlphanumeric x = true) :
    (∀ (c : Cursor) (rest : List Char), c.rest = '#' :: (tag ++ '"' :: rest) →
      (∀ i, FirstAt ('"' :: tag) (beforeEnd rest) i →
        ReadsRaw c (rest.take i) (rest.drop (i + (tag.length + 1)))) ∧
      ((∀ i, ¬ FirstAt ('"' :: tag) (beforeEnd rest) i) →
        ∃ f c', raw c = .error f c' ∧ f = .endOfInput ∧
          f.message = "Unexpected end of input")) ∧
    ∀ s, endMark ∉ s → ¬ ('"' :: tag) <:+: s →
      (∀ (c : Cursor) (r : List Char),
        c.rest = '#' :: (tag ++ '"' :: (s ++ '"' :: (tag ++ r))) → ReadsRaw c s r) ∧
      Document.parse (String.ofList ('#' :: (tag ++ '"' :: (s ++ '"' :: tag)))) false =
        .ok ⟨[.leaf (.string (String.ofList s)) none], none⟩ := by
  have hdrop : ∀ (n : Nat) (rest : List Char),
      ('#' :: (tag ++ '"' :: rest)).drop (tag.length + 2 + n) = rest.drop n := by
    intro n rest
    rw [← List.drop_drop, show tag.length + 2 = (tag.length + 1) + 1 from rfl,
      List.drop_succ_cons, ← List.drop_drop, List.drop_left, List.drop_succ_cons, List.drop_zero]
  constructor
  · intro c rest hc
    constructor
    · intro i hi
      rw [← hdrop, ← hc]
      exact readsRaw_of_found (hc ▸ rawToken_of_firstAt htag hi)
    · intro hnone
      have hinfix : ¬ ('"' :: tag) <:+: beforeEnd rest := by
        intro h
        obtain ⟨i, hi⟩ := exists_firstAt h
        exact hnone i hi
      obtain ⟨c', hc'⟩ := raw_of_error (hc ▸ rawToken_of_not_infix htag hinfix)
      exact ⟨_, c', hc', rfl, rfl⟩
  · intro s hend hs
    refine ⟨?_, Document.parse_enclosed htag hend hs⟩
    intro c r hc
    have hrest : r = c.rest.drop (tag.length + 2 + (s.length + (tag.length + 1))) := by
      rw [hc, hdrop, ← List.drop_drop, List.drop_left, List.drop_succ_cons, List.drop_left]
    rw [hrest]
    exact readsRaw_of_found (hc ▸ rawToken_enclosed htag hend hs r)

/-- The tag breaks off after a quote, the end stands behind U+0000, and a text holds quotes. -/
theorem raw_first_terminator_overlap :
    FirstAt "\"ab".toList (beforeEnd "x\"a\"ab y".toList) 3 ∧
    ReadsRaw (Cursor.ofText "#ab\"x\"a\"ab y".toList) "x\"a".toList " y".toList ∧
    (∃ c', raw (Cursor.ofText "#ab\"x\x00\"ab".toList) = .error .endOfInput c') ∧
    Document.parse "#ab\"a\"a \"b\"ab" false =
      .ok ⟨[.leaf (.string "a\"a \"b") none], none⟩ := by
  have htag : ∀ x ∈ "ab".toList, Text.isAlphanumeric x = true := List.all_eq_true.1 (by decide)
  have hfirst : FirstAt "\"ab".toList (beforeEnd "x\"a\"ab y".toList) 3 := by decide
  obtain ⟨hread, hback⟩ := raw_first_terminator htag
  refine ⟨hfirst, (hread _ _ rfl).1 3 hfirst, ?_, ?_⟩
  · have hnone : ∀ i, ¬ FirstAt "\"ab".toList (beforeEnd "x\x00\"ab".toList) i := by
      intro i hi
      exact absurd (hi.here.isInfix.trans (List.drop_suffix i _).isInfix) (by decide)
    obtain ⟨f, c', hraw, rfl, -⟩ := (hread (Cursor.ofText "#ab\"x\x00\"ab".toList) _ rfl).2 hnone
    exact ⟨c', hraw⟩
  · have hparse := (hback "a\"a \"b".toList (by decide) (by decide +kernel)).2
    rw [String.ofList_toList] at hparse
    rw [← hparse]
    rfl

end Scan

end Sexpr
