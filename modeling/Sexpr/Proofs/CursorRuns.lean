/-
Calls on one cursor.

The productions can be called one after the other on one cursor, in any order and also
after one that failed halfway. Whatever was called before, the cursor stands in its text
with its mark and its positions counted right, all spans of a result are parts of the text,
and no call fails because a span cannot be cut or a bound is reached.

* `Scan.Stays` — what a production leaves, whether it succeeds or fails;
* `Scan.stays_itemsUntil`, `Scan.stays_between`, `Scan.advances_keyOf` — brackets and keys;
* `Scan.advances_exprWithin` — expressions, by induction on the length of the text;
* `Operation.stays` — one call;
* `Operation.isAt_runAll` — any sequence of calls.
-/
import Sexpr.Proofs.Coordinates
import Sexpr.Proofs.ParseFaults

namespace Sexpr

open EStateM (bind_of_ok bind_of_error)

theorem Cursor.StandsIn.skipComma {text : List Char} {c : Cursor} (hc : c.StandsIn text) :
    c.skipComma.StandsIn text ∧ c.skipComma.rest.length ≤ c.rest.length := by
  unfold Cursor.skipComma
  split_ifs
  · exact ⟨hc.next, by simp⟩
  · exact ⟨hc, le_rfl⟩

namespace Scan

variable {α β : Type} {text : List Char} {c : Cursor}

/-- The cursor that is left stands in the text, also after a fault. A result has the
property, and a fault is one of the grammar or of the conversion of digits. -/
def Stays (text : List Char) (P : α → Cursor → Prop) : EStateM.Result ReadFault Cursor α → Prop
  | .ok x c => c.StandsIn text ∧ P x c
  | .error e c => c.StandsIn text ∧ (e.isSyntax = true ∨ e.isConversion = true)

/-- One production after another. -/
theorem Stays.bind {P : α → Cursor → Prop} {Q : β → Cursor → Prop} {p : Scan α} {f : α → Scan β}
    (h : Stays text P (p c))
    (hf : ∀ x c', c'.StandsIn text → P x c' → Stays text Q (f x c')) :
    Stays text Q ((p >>= f) c) := by
  cases hp : p c with
  | ok x c₁ =>
    rw [hp] at h
    rw [bind_of_ok hp]
    exact hf x c₁ h.1 h.2
  | error e c₁ =>
    rw [hp] at h
    rw [bind_of_error hp]
    exact h

theorem Stays.mono {P Q : α → Cursor → Prop} {r : EStateM.Result ReadFault Cursor α}
    (h : Stays text P r) (hPQ : ∀ x c, P x c → Q x c) : Stays text Q r := by
  cases r with
  | ok x c => exact ⟨h.1, hPQ x c h.2⟩
  | error e c => exact h

/-! ### Tokens -/

theorem stays_capture (hc : c.StandsIn text) :
    Stays text (fun s c' => s = c.capture.1 ∧ s.PartOf text ∧ c'.token = [] ∧ c'.rest = c.rest)
      (capture c) :=
  ⟨hc.capture.2, rfl, hc.capture.1, rfl, rfl⟩

theorem stays_lexeme {scan : List Char → Scanned α} (hc : c.StandsIn text)
    (hfault : ∀ e, (scan c.rest).outcome = .error e → e.isSyntax = true ∨ e.isConversion = true) :
    Stays text (fun x c' => scan c.rest = .found (scan c.rest).length x ∧
      c' = c.advance (scan c.rest).length) (lexeme scan c) := by
  cases hscan : (scan c.rest).outcome with
  | ok x =>
    rw [lexeme_eq_ok.2 ⟨hscan, rfl⟩]
    exact ⟨hc.advance _, by rw [Scanned.found, ← hscan], rfl⟩
  | error e =>
    rw [lexeme_of_error hscan]
    exact ⟨hc.advance _, hfault e hscan⟩

theorem stays_layout (hc : c.StandsIn text) :
    Stays text (fun s c' => s.PartOf text ∧ c'.token = [] ∧ c'.rest.length ≤ c.rest.length)
      (layout c) := by
  refine Stays.bind (stays_lexeme hc fun e he => absurd he outcome_found_ne) ?_
  rintro - c₁ hc₁ ⟨-, rfl⟩
  obtain ⟨hstands, -, hpart, htoken, hrest⟩ := stays_capture hc₁
  refine ⟨hstands, hpart, htoken, ?_⟩
  rw [hrest, Cursor.rest_advance, List.length_drop]
  omega

/-- The token that ends at the cursor is captured with the layout after it. -/
theorem stays_tokenSpans (hc : c.StandsIn text) :
    Stays text (fun s c' => s.token = some c.capture.1 ∧ (∀ t ∈ s.spans, t.PartOf text) ∧
      c'.rest.length ≤ c.rest.length) (tokenSpans c) := by
  refine Stays.bind (stays_capture hc) ?_
  rintro token c₁ hc₁ ⟨rfl, htoken, -, hrest⟩
  refine Stays.bind (stays_layout hc₁) ?_
  rintro space c₂ hc₂ ⟨hspace, -, hle⟩
  refine ⟨hc₂, rfl, ?_, hrest ▸ hle⟩
  simp only [TokenSpans.spans, Option.toList_some, List.forall_mem_append,
    List.forall_mem_singleton]
  exact ⟨htoken, hspace⟩

/-- All spans of the expression are parts of the text, and the span of an atom is that of
its name. -/
structure ReadFrom (text : List Char) (e : Expr) : Prop where
  spans : ∀ s ∈ e.spans, s.PartOf text
  token : e.OwnsToken

theorem spans_leaf {l : Leaf} {s : TokenSpans} :
    (Expr.leaf l (some s)).spans = s.spans := by
  simp [Expr.spans]

/-- A production reads off every text shorter than `n` what has the property, and goes over
a character at least. -/
def Advances (text : List Char) (n : Nat) (P : α → Prop) (p : Scan α) : Prop :=
  ∀ ⦃c⦄, c.StandsIn text → c.rest.length < n →
    Stays text (fun x c' => P x ∧ c'.rest.length < c.rest.length) (p c)

theorem stays_leafOf {scan : List Char → Scanned Leaf} (hwithin : ∀ cs, (scan cs).Within cs)
    (hfault : ∀ {cs e}, (scan cs).outcome = .error e → e.ShownIn cs)
    (hfound : ∀ {cs n l}, scan cs = .found n l → 0 < n ∧ ∃ s, l = .string s)
    (hc : c.StandsIn text) :
    Stays text (fun e c' => ReadFrom text e ∧ c'.rest.length < c.rest.length)
      (leafOf scan c) := by
  refine Stays.bind (stays_lexeme hc fun e he => (hfault he).isSyntax_or) ?_
  rintro l c₁ hc₁ ⟨hl, rfl⟩
  obtain ⟨hpos, str, rfl⟩ := hfound hl
  have hle := (hwithin c.rest).1
  refine Stays.bind (stays_tokenSpans hc₁) ?_
  rintro s c₂ hc₂ ⟨-, hspans, hrest⟩
  rw [Cursor.rest_advance, List.length_drop] at hrest
  exact ⟨hc₂, ⟨by rwa [spans_leaf], trivial⟩, by omega⟩

theorem stays_string (q : Char) (hc : c.StandsIn text) :
    Stays text (fun e c' => ReadFrom text e ∧ c'.rest.length < c.rest.length) (string q c) := by
  refine stays_leafOf (within_stringToken q) shownIn_stringToken (fun h => ?_) hc
  obtain ⟨-, body, k, xs, -, -, rfl, rfl⟩ := stringToken_eq_found.1 h
  exact ⟨by omega, _, rfl⟩

theorem stays_raw (hc : c.StandsIn text) :
    Stays text (fun e c' => ReadFrom text e ∧ c'.rest.length < c.rest.length) (raw c) := by
  refine stays_leafOf within_rawToken shownIn_rawToken (fun h => ?_) hc
  obtain ⟨tag, body, k, xs, -, -, -, rfl, rfl⟩ := rawToken_eq_found.1 h
  exact ⟨by omega, _, rfl⟩

theorem stays_nameToken (hc : c.StandsIn text) :
    Stays text (fun token c' => c.rest.takeWhile isNameChar = token ∧ token ≠ [] ∧
      c' = c.advance token.length) (nameToken c) := by
  have hstays : Stays text _ (nameToken c) := stays_lexeme hc (by
    intro e he
    dsimp only at he
    split_ifs at he
    · cases he
      exact .inl rfl
    · exact absurd he outcome_found_ne)
  cases hread : nameToken c with
  | ok token c' =>
    obtain ⟨htoken, hne, rfl⟩ := nameToken_eq_ok.1 hread
    exact ⟨hc.advance _, htoken, hne, rfl⟩
  | error e c' =>
    rw [hread] at hstays
    exact hstays

/-- A name or a number. The span of an atom is that of its name if the mark is at the
cursor; otherwise it starts at the mark. -/
theorem stays_name (hc : c.StandsIn text) :
    Stays text (fun e c' => (∀ s ∈ e.spans, s.PartOf text) ∧ (c.token = [] → e.OwnsToken) ∧
      c'.rest.length < c.rest.length) (name c) := by
  refine Stays.bind (stays_nameToken hc) ?_
  rintro token c₁ hc₁ ⟨htoken, hne, rfl⟩
  refine Stays.bind (stays_tokenSpans hc₁) ?_
  rintro s c₂ hc₂ ⟨hs, hspans, hrest⟩
  have hname : ∀ x ∈ token, isNameChar x = true := by
    rw [← htoken]
    exact fun x hx => List.mem_takeWhile_imp hx
  obtain ⟨r, hr⟩ : token <+: c.rest := htoken ▸ List.takeWhile_prefix _
  cases hl : nameLeaf token with
  | error e => exact ⟨hc₂, (shownIn_nameLeaf hl).isSyntax_or⟩
  | ok l =>
    refine ⟨hc₂, by rwa [spans_leaf], fun hmark => ownsToken_of_nameLeaf (p := c.mark) hname hl ?_,
      ?_⟩
    · obtain ⟨b, t, rest, m, p⟩ := c
      obtain rfl : t = [] := hmark
      obtain rfl : p = m := hc.pos_eq
      obtain rfl : token ++ r = rest := hr
      rw [hs, Cursor.advance_append]
      simp [Cursor.capture]
    · have hpos := List.length_pos_iff.2 hne
      rw [Cursor.rest_advance, ← hr, List.drop_left] at hrest
      rw [← hr, List.length_append]
      omega

/-! ### Brackets -/

/-- Items up to the closing bracket, with what separates them. -/
theorem stays_itemsUntil {P : α → Prop} {closing : Char} {item : Scan α} {n fuel : Nat}
    (hitem : Advances text n P item) (hc : c.StandsIn text) (hn : c.rest.length < n)
    (hfuel : c.rest.length < fuel) :
    Stays text (fun xs c' => (∀ x ∈ xs, P x.1 ∧ ∀ s ∈ x.2.spans, s.PartOf text) ∧
      c'.rest.length ≤ c.rest.length) (itemsUntil closing item fuel c) := by
  induction fuel generalizing c with
  | zero => exact absurd hfuel (Nat.not_lt_zero _)
  | succ fuel ih =>
    rw [itemsUntil_succ]
    split_ifs
    · exact ⟨hc, by simp, le_rfl⟩
    · exact ⟨hc, .inl rfl⟩
    · refine Stays.bind (hitem hc hn) ?_
      rintro x c₁ hc₁ ⟨hx, hlt⟩
      obtain ⟨hcomma, hle₁⟩ := hc₁.skipComma
      refine Stays.bind (stays_tokenSpans hcomma) ?_
      rintro s c₂ hc₂ ⟨-, hs, hle⟩
      refine Stays.bind (ih hc₂ (by omega) (by omega)) ?_
      rintro ys c₃ hc₃ ⟨hys, hle₃⟩
      exact ⟨hc₃, List.forall_mem_cons.2 ⟨⟨hx, hs⟩, hys⟩, by omega⟩

/-- Items between brackets. -/
theorem stays_between {P : α → Prop} {opening closing : Char} {item : Scan α} {n : Nat}
    (hopening : opening ≠ endMark) (hitem : Advances text n P item) (hc : c.StandsIn text)
    (hn : c.rest.length ≤ n) :
    Stays text (fun x c' => ((∀ v ∈ x.1, P v) ∧ ∀ s ∈ x.2.spans, s.PartOf text) ∧
      c'.rest.length < c.rest.length) (between opening closing item c) := by
  rw [between_eq]
  split_ifs with hcurrent
  · obtain ⟨r, hr⟩ := exists_cons_of_headD hcurrent hopening
    have hlen : c.next.rest.length < c.rest.length := by simp [hr]
    refine Stays.bind (stays_tokenSpans hc.next) ?_
    rintro s c₁ hc₁ ⟨-, hs, hle₁⟩
    refine Stays.bind (stays_itemsUntil hitem hc₁ (by omega) (Nat.lt_succ_self _)) ?_
    rintro xs c₂ hc₂ ⟨hxs, hle₂⟩
    refine Stays.bind (stays_tokenSpans hc₂.next) ?_
    rintro s' c₃ hc₃ ⟨-, hs', hle₃⟩
    have hnext : c₂.next.rest.length ≤ c₂.rest.length := by simp
    refine ⟨hc₃, ⟨?_, ?_⟩, by omega⟩
    · simp only [List.forall_mem_map]
      exact fun x hx => (hxs x hx).1
    · simp only [BracketSpans.spans, Option.toList_some, Option.getD_some, List.flatMap_append,
        List.flatMap_singleton, List.forall_mem_append, List.forall_mem_flatMap,
        List.forall_mem_map]
      exact ⟨⟨hs, fun x hx => (hxs x hx).2⟩, hs'⟩
  · exact ⟨hc, .inl rfl⟩

theorem stays_itemsOf (enclosure : Enclosure) {opening closing : Char} {expr : Scan Expr} {n : Nat}
    (hopening : opening ≠ endMark) (hexpr : Advances text n (ReadFrom text) expr)
    (hc : c.StandsIn text) (hn : c.rest.length ≤ n) :
    Stays text (fun e c' => ReadFrom text e ∧ c'.rest.length < c.rest.length)
      (itemsOf enclosure opening closing expr c) := by
  refine Stays.bind (stays_between hopening hexpr hc hn) ?_
  rintro ⟨values, spans⟩ c₁ hc₁ ⟨⟨hvalues, hspans⟩, hlt⟩
  refine ⟨hc₁, ⟨?_, trivial⟩, hlt⟩
  rw [Expr.spans, Expr.spansAll_eq_flatMap, List.forall_mem_append, List.forall_mem_flatMap]
  exact ⟨hspans, fun v hv => (hvalues v hv).spans⟩

/-! ### Fields -/

/-- The token of a key can be cut, and its parts are parts of the text. -/
theorem stays_cutKey {key : Expr} {cs : List Char} {spans : TokenSpans} {token : Span}
    (hkey : ReadFrom text key) (hcut : colonKey? key = some (cs, spans, token))
    (hc : c.StandsIn text) :
    Stays text (fun k c' => ((∀ s ∈ k.1.spans, s.PartOf text) ∧ ∀ s ∈ k.2.spans, s.PartOf text) ∧
      c' = c) (cutKey cs spans token c) := by
  obtain ⟨name, space, rfl, -, rfl, rfl⟩ := colonKey?_eq_some.1 hcut
  obtain ⟨hparts, hline, p, space, heq⟩ := hkey
  cases heq
  simp only [spans_leaf, TokenSpans.spans, Option.toList_some, List.forall_mem_append,
    List.forall_mem_singleton] at hparts
  have hread := exists_cutKey hline p
  rw [String.ofList_toList] at hread
  obtain ⟨key, gap, stop, hread⟩ := hread
  obtain ⟨-, _, _, _, hkey, hgap, hstop, heq, heq'⟩ := cutKey_eq_ok.1 (hread ⟨none, space⟩ c)
  cases heq
  cases heq'
  rw [hread]
  refine ⟨hc, ⟨?_, ?_⟩, rfl⟩
  · simp only [spans_leaf, TokenSpans.spans, Option.toList_some, List.forall_mem_append,
      List.forall_mem_singleton]
    exact ⟨hparts.1.slice hline hkey, hparts.1.slice hline hgap⟩
  · simp only [TokenSpans.spans, Option.toList_some, List.forall_mem_append,
      List.forall_mem_singleton]
    exact ⟨hparts.1.slice hline hstop, hparts.2⟩

/-- A key with its colon, which is cut off it or stands apart. -/
theorem advances_keyOf {expr : Scan Expr} {n : Nat}
    (hexpr : Advances text n (ReadFrom text) expr) :
    Advances text n (fun k => (∀ s ∈ k.1.spans, s.PartOf text) ∧ ∀ s ∈ k.2.spans, s.PartOf text)
      (keyOf expr) := by
  intro c hc hn
  have hkey := hexpr hc hn
  cases hread : expr c with
  | error e c₁ =>
    rw [hread] at hkey
    rw [keyOf, bind_of_error hread]
    exact hkey
  | ok key c₁ =>
    rw [hread] at hkey
    obtain ⟨hc₁, hkey, hlt⟩ := hkey
    rw [keyOf_of_ok hread]
    cases hcut : colonKey? key with
    | some cut =>
      obtain ⟨cs, spans, token⟩ := cut
      refine (stays_cutKey hkey hcut hc₁).mono ?_
      rintro k c₂ ⟨hspans, rfl⟩
      exact ⟨hspans, hlt⟩
    | none =>
      dsimp only
      split_ifs
      · refine Stays.bind (stays_tokenSpans hc₁.next) ?_
        rintro s c₂ hc₂ ⟨-, hs, hle⟩
        refine ⟨hc₂, ⟨hkey.spans, hs⟩, ?_⟩
        rw [Cursor.rest_next, List.length_drop] at hle
        omega
      · exact ⟨hc₁, .inl rfl⟩

theorem advances_fieldOf {expr : Scan Expr} {n : Nat}
    (hexpr : Advances text n (ReadFrom text) expr) :
    Advances text n (fun f : Field => ∀ s ∈ Field.spans f, s.PartOf text) (fieldOf expr) := by
  intro c hc hn
  refine Stays.bind (advances_keyOf hexpr hc hn) ?_
  rintro ⟨k, colon⟩ c₁ hc₁ ⟨⟨hk, hcolon⟩, hlt₁⟩
  refine Stays.bind (hexpr hc₁ (by omega)) ?_
  rintro v c₂ hc₂ ⟨hv, hlt₂⟩
  refine ⟨hc₂, ?_, by omega⟩
  simp only [Field.spans, Option.toList_some, List.flatMap_singleton, List.forall_mem_append]
  exact ⟨⟨hk, hcolon⟩, hv.spans⟩

theorem stays_mapOf {expr : Scan Expr} {n : Nat} (hexpr : Advances text n (ReadFrom text) expr)
    (hc : c.StandsIn text) (hn : c.rest.length ≤ n) :
    Stays text (fun e c' => ReadFrom text e ∧ c'.rest.length < c.rest.length)
      (mapOf expr c) := by
  refine Stays.bind (stays_between (by decide) (advances_fieldOf hexpr) hc hn) ?_
  rintro ⟨fields, spans⟩ c₁ hc₁ ⟨⟨hfields, hspans⟩, hlt⟩
  refine ⟨hc₁, ⟨?_, trivial⟩, hlt⟩
  rw [Expr.spans, Field.spansAll_eq_flatMap, List.forall_mem_append, List.forall_mem_flatMap]
  exact ⟨hspans, hfields⟩

/-! ### Expressions -/

theorem exprWithin_succ (depth : Nat) (c : Cursor) :
    exprWithin (depth + 1) c =
      (layout >>= fun _ c₁ => exprOf (exprWithin depth) c₁.current c₁) c := rfl

/-- An expression, with a bound on its depth that the length of the text does not reach. -/
theorem advances_exprWithin {n depth : Nat} (hdepth : n ≤ depth) :
    Advances text n (ReadFrom text) (exprWithin depth) := by
  induction n generalizing depth with
  | zero => exact fun c _ hn => absurd hn (Nat.not_lt_zero _)
  | succ n ih =>
    obtain ⟨depth, rfl⟩ : ∃ k, depth = k + 1 := ⟨depth - 1, by omega⟩
    have hexpr : Advances text n (ReadFrom text) (exprWithin depth) := ih (by omega)
    intro c hc hn
    rw [exprWithin_succ]
    refine Stays.bind (stays_layout hc) ?_
    rintro - c₁ hc₁ ⟨-, htoken, hle⟩
    -- what is read at the first character ends before the text with its layout does
    suffices h : Stays text (fun e c' => ReadFrom text e ∧ c'.rest.length < c₁.rest.length)
        (exprOf (exprWithin depth) c₁.current c₁) from
      h.mono fun e c₂ he => ⟨he.1, he.2.trans_le hle⟩
    unfold exprOf
    split_ifs
    · exact ⟨hc₁, .inl rfl⟩
    · exact stays_itemsOf .group (by decide) hexpr hc₁ (by omega)
    · exact stays_itemsOf .sequence (by decide) hexpr hc₁ (by omega)
    · exact stays_string _ hc₁
    · exact stays_raw hc₁
    · exact stays_mapOf hexpr hc₁ (by omega)
    · refine (stays_name hc₁).mono ?_
      rintro e c₂ ⟨hspans, howns, hlt⟩
      exact ⟨⟨hspans, howns htoken⟩, hlt⟩
    · exact ⟨hc₁, .inl rfl⟩

end Scan

/-! ### Calls -/

/-- What can be called on a cursor. -/
inductive Operation where
  | next
  | capture
  | layout
  | expr
  | group
  | sequence
  | map
  | name
  | string (quote : Char)
  | raw
  | codePoint
deriving DecidableEq

/-- What a call gives. -/
inductive Reading where
  | nothing
  | span (span : Span)
  | expr (expr : Expr)
  | char (char : Char)

/-- All spans inside what a call gives. -/
def Reading.spans : Reading → List Span
  | nothing => []
  | span s => [s]
  | expr e => e.spans
  | char _ => []

namespace Operation

/-- The production that is called. -/
def scan : Operation → Scan Reading
  | next => do Scan.next; return .nothing
  | capture => return .span (← Scan.capture)
  | layout => return .span (← Scan.layout)
  | expr => return .expr (← Scan.expr)
  | group => return .expr (← Scan.group)
  | sequence => return .expr (← Scan.sequence)
  | map => return .expr (← Scan.map)
  | name => return .expr (← Scan.name)
  | string q => return .expr (← Scan.string q)
  | raw => return .expr (← Scan.raw)
  | codePoint => return .char (← Scan.codePoint)

/-- The outcome of a call, and the cursor that it leaves. -/
def run (o : Operation) (c : Cursor) : Except ReadFault Reading × Cursor :=
  match o.scan c with
  | .ok x c' => (.ok x, c')
  | .error e c' => (.error e, c')

/-- The outcomes of calls on one cursor, with the cursor that each of them leaves; the next
call starts there, also after one that failed. -/
def runAll : List Operation → Cursor → List (Except ReadFault Reading × Cursor)
  | [], _ => []
  | o :: os, c => o.run c :: runAll os (o.run c).2

open Scan in
/-- One call. -/
theorem stays {text : List Char} {c : Cursor} (o : Operation) (hc : c.StandsIn text) :
    Stays text (fun x _ => ∀ s ∈ x.spans, s.PartOf text) (o.scan c) := by
  have hexpr : Advances text (c.rest.length + 1) (ReadFrom text)
    (exprWithin (c.rest.length + 1)) := advances_exprWithin le_rfl
  -- an expression is given as it was read
  have hgive : ∀ {p : Scan Expr} {n}, Stays text (fun e c' => ReadFrom text e ∧
      c'.rest.length < n) (p c) → Stays text (fun x _ => ∀ s ∈ x.spans, s.PartOf text)
        ((do return Reading.expr (← p) : Scan Reading) c) := by
    intro p n h
    refine Stays.bind h ?_
    rintro e c₁ hc₁ ⟨he, -⟩
    exact ⟨hc₁, he.spans⟩
  cases o with
  | next => exact ⟨hc.next, by simp [Reading.spans]⟩
  | capture => exact ⟨hc.capture.2, List.forall_mem_singleton.2 hc.capture.1⟩
  | layout =>
    refine Stays.bind (stays_layout hc) ?_
    rintro s c₁ hc₁ ⟨hs, -⟩
    exact ⟨hc₁, List.forall_mem_singleton.2 hs⟩
  | expr => exact hgive (hexpr hc (Nat.lt_succ_self _))
  | group => exact hgive (stays_itemsOf .group (by decide) hexpr hc (by omega))
  | sequence => exact hgive (stays_itemsOf .sequence (by decide) hexpr hc (by omega))
  | map => exact hgive (stays_mapOf hexpr hc (by omega))
  | name =>
    refine Stays.bind (stays_name hc) ?_
    rintro e c₁ hc₁ ⟨he, -⟩
    exact ⟨hc₁, he⟩
  | string q => exact hgive (stays_string q hc)
  | raw => exact hgive (stays_raw hc)
  | codePoint =>
    refine Stays.bind (p := Scan.codePoint)
      (stays_lexeme hc fun e he => (shownIn_codePoint he).isSyntax_or) ?_
    rintro x c₁ hc₁ -
    exact ⟨hc₁, by simp [Reading.spans]⟩

open Scan in
/-- A call leaves the cursor in the text, so that the next one starts there. -/
theorem standsIn_runAll {text : List Char} {c : Cursor} (os : List Operation)
    (hc : c.StandsIn text) : ∀ r ∈ runAll os c, r.2.StandsIn text ∧
      (∀ x, r.1 = .ok x → ∀ s ∈ x.spans, s.PartOf text) ∧
      ∀ e, r.1 = .error e → e.isSyntax = true ∨ e.isConversion = true := by
  induction os generalizing c with
  | nil => simp [runAll]
  | cons o os ih =>
    have hstays := o.stays hc
    have hrun : (o.run c).2.StandsIn text ∧
        (∀ x, (o.run c).1 = .ok x → ∀ s ∈ x.spans, s.PartOf text) ∧
        ∀ e, (o.run c).1 = .error e → e.isSyntax = true ∨ e.isConversion = true := by
      unfold run
      cases hscan : o.scan c with
      | ok x c₁ =>
        rw [hscan] at hstays
        exact ⟨hstays.1, by rintro _ ⟨⟩; exact hstays.2, by simp⟩
      | error e c₁ =>
        rw [hscan] at hstays
        exact ⟨hstays.1, by simp, by rintro _ ⟨⟩; exact hstays.2⟩
    rw [runAll, List.forall_mem_cons]
    exact ⟨hrun, ih hrun.1⟩

/-- After each of any calls on a text, the cursor is where the text says, and so are the
spans of what was read. No call fails because a span cannot be cut or is not as long as its
ends are apart, and none because a bound on the steps is reached. -/
theorem isAt_runAll (text : String) (os : List Operation) :
    ∀ r ∈ runAll os (Cursor.ofText text.toList), r.2.IsAt text.toList ∧
      (∀ x, r.1 = .ok x → ∀ s ∈ x.spans, s.IsAt text.toList) ∧
      ∀ e, r.1 = .error e → (∀ f, e ≠ .span f) ∧ e ≠ .exhausted := by
  intro r hr
  obtain ⟨hc, hspans, hfault⟩ := standsIn_runAll os (Cursor.standsIn_ofText text.toList) r hr
  refine ⟨hc.isAt, fun x hx s hs => (hspans x hx s hs).isAt, fun e he => ⟨?_, ?_⟩⟩
  · rintro f rfl
    exact absurd (hfault _ he) (by simp [ReadFault.isSyntax, ReadFault.isConversion])
  · rintro rfl
    exact absurd (hfault _ he) (by simp [ReadFault.isSyntax, ReadFault.isConversion])

/-- The mark stays behind when a character is gone over, a group is not found, and the name
takes in what lies between; then a map whose key is cut out of its token. -/
theorem isAt_runAll_cut :
    ∃ r ∈ runAll [.next, .group, .name, .map] (Cursor.ofText "?x\n\x7by: 1 \x7d".toList),
      (r.1.toOption.map fun x => x.spans.map Span.raw) =
        some ["\x7b", "", "", "", "\x7d", "", "y", "", ":", " ", "1", " "] ∧
      (∀ x, r.1 = .ok x → ∀ s ∈ x.spans, s.IsAt "?x\n\x7by: 1 \x7d".toList) ∧
      r.2.IsAt "?x\n\x7by: 1 \x7d".toList := by
  have hmem : some ["\x7b", "", "", "", "\x7d", "", "y", "", ":", " ", "1", " "] ∈
      (runAll [.next, .group, .name, .map] (Cursor.ofText "?x\n\x7by: 1 \x7d".toList)).map
        fun r => r.1.toOption.map fun x => x.spans.map Span.raw := by
    decide +kernel
  obtain ⟨r, hr, hraw⟩ := List.mem_map.1 hmem
  have hat := isAt_runAll "?x\n\x7by: 1 \x7d" _ r hr
  exact ⟨r, hr, hraw, hat.2.1, hat.1⟩

end Operation
end Sexpr
