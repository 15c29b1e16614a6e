/-
What the reader gives.

Expressions that were read are special in what their atoms, keys and numbers can be:
an atom is a name token that is no number, a key may be any name token that ends in a
colon, less the colon, and numbers have at most as many digits as are read.

* `Leaf.Readable`, `Expr.Readable` — leaves and expressions that can be read;
* `readable_of_nameLeaf` — a name token gives such a leaf;
* `Document.readable_of_read` — a text gives such expressions.
-/
import Sexpr.Proofs.Numerals
import Sexpr.Proofs.Parts
import Sexpr.Proofs.Productions

namespace Sexpr

/-! ### Leaves -/

/-- A token that is read as a name or a number: its first character starts no string. -/
structure IsNameToken (cs : List Char) : Prop where
  ne_nil : cs ≠ []
  isNameChar : ∀ c ∈ cs, isNameChar c = true
  head_ne : ∀ c ∈ cs.head?, c ≠ '\'' ∧ c ≠ '#'

instance (cs : List Char) : Decidable (IsNameToken cs) :=
  decidable_of_iff (cs ≠ [] ∧ cs.all isNameChar = true ∧ cs.head? ≠ some '\'' ∧ cs.head? ≠ some '#')
    ⟨fun ⟨hne, hall, hquote, hraw⟩ => ⟨hne, List.all_eq_true.1 hall, fun _ hc =>
        ⟨fun heq => hquote (heq ▸ hc), fun heq => hraw (heq ▸ hc)⟩⟩,
      fun h => ⟨h.ne_nil, List.all_eq_true.2 h.isNameChar, fun hc => (h.head_ne _ hc).1 rfl,
        fun hc => (h.head_ne _ hc).2 rfl⟩⟩

/-- A leaf that can be read. -/
def Leaf.Readable : Leaf → Prop
  | atom name => IsNameToken name.toList ∧ Numeral.ofToken? name.toList = none
  | string _ => True
  | int value => value.natAbs < 10 ^ Numeral.maxDigits
  | real value => ∃ neg code, value = .number neg code
  | rational num den => ∃ d : Nat, den = d ∧ 0 < d ∧ num.natAbs.gcd d = 1 ∧
      num.natAbs < 10 ^ Numeral.maxDigits ∧ d < 10 ^ Numeral.maxDigits

/-- A digit string that is read has a value below the bound. -/
theorem lt_of_digitsValue {ds : List Char} {n : Nat} (hds : ∀ c ∈ ds, c.isDigit = true)
    (h : digitsValue ds = .ok n) : n < 10 ^ Numeral.maxDigits := by
  unfold digitsValue Numeral.boundedNat? at h
  by_cases hlen : Numeral.maxDigits < ds.length
  · rw [if_pos hlen] at h
    exact absurd h (by simp)
  · rw [if_neg hlen] at h
    cases h
    exact (Numeral.natOfDigits_lt hds).trans_le (Nat.pow_le_pow_right (by decide) (by omega))

theorem natAbs_withSign (neg : Bool) (n : Nat) : (Numeral.withSign neg n).natAbs = n := by
  cases neg <;> simp [Numeral.withSign]

theorem Binary64.exists_number_divNat (neg : Bool) (code : Fin (infinityCode + 1)) (k : Nat) :
    ∃ neg' code', (number neg code).divNat k = number neg' code' := by
  rw [divNat]
  split_ifs
  · exact ⟨_, _, rfl⟩
  · exact ⟨_, _, rfl⟩

/-- A rational is reduced when it is read. -/
theorem Numeral.readable_of_rational {neg : Bool} {num den : List Char} {l : Leaf}
    (hnum : ∀ c ∈ num, c.isDigit = true) (hden : ∀ c ∈ den, c.isDigit = true)
    (h : (Numeral.rational neg num den).toLeaf = .ok l) : l.Readable := by
  rw [toLeaf] at h
  cases hn : digitsValue num with
  | error e =>
    rw [hn] at h
    exact absurd h (by simp [bind, Except.bind])
  | ok n =>
    cases hd : digitsValue den with
    | error e =>
      rw [hn, hd] at h
      exact absurd h (by simp [bind, Except.bind])
    | ok d =>
      rw [hn, hd] at h
      change (if d = 0 then .error _ else .ok _ : Except ReadFault Leaf) = _ at h
      split_ifs at h with hzero
      · cases h
        have hg : 0 < n.gcd d := Nat.gcd_pos_of_pos_right n (by omega)
        refine ⟨d / n.gcd d, rfl, Nat.div_pos (Nat.gcd_le_right n (by omega)) hg, ?_, ?_, ?_⟩
        · rw [natAbs_withSign]
          exact Nat.gcd_div_gcd_div_gcd_of_pos_right (by omega)
        · rw [natAbs_withSign]
          exact (Nat.div_le_self _ _).trans_lt (lt_of_digitsValue hnum hn)
        · exact (Nat.div_le_self _ _).trans_lt (lt_of_digitsValue hden hd)

/-- A number token is read as a number that can be written and read again. -/
theorem Numeral.readable_of_toLeaf {token : List Char} {n : Numeral} {l : Leaf}
    (hn : ofToken? token = some n) (h : n.toLeaf = .ok l) : l.Readable := by
  rcases ofToken?_eq_some.1 hn with hn | ⟨-, hn | ⟨-, hn | ⟨-, hn⟩⟩⟩
  · obtain ⟨num, den, -, hnum, hden, rfl⟩ := rational?_eq_some hn
    exact readable_of_rational (isDigit_of_mem_ungroup hnum) (isDigit_of_mem_ungroup hden) h
  · obtain ⟨-, neg, whole, part, rfl⟩ := percent?_eq_some hn
    cases h
    exact Binary64.exists_number_divNat _ _ _
  · obtain ⟨-, neg, whole, part, eneg, e, rfl⟩ := real?_eq_some hn
    cases h
    exact ⟨_, _, rfl⟩
  · obtain ⟨hgrouped, rfl⟩ := integer?_eq_some.1 hn
    cases hv : digitsValue (ungroup (splitSign token).2) with
    | error e =>
      rw [toLeaf, hv] at h
      exact absurd h (by simp [bind, Except.bind])
    | ok v =>
      rw [toLeaf, hv] at h
      cases h
      rw [Leaf.Readable, natAbs_withSign]
      exact lt_of_digitsValue (isDigit_of_mem_ungroup hgrouped) hv

theorem readable_of_nameLeaf {token : List Char} {l : Leaf} (htoken : IsNameToken token)
    (h : nameLeaf token = .ok l) : l.Readable := by
  unfold nameLeaf at h
  split at h
  · next n hn => exact Numeral.readable_of_toLeaf hn h
  · next hn =>
    cases h
    rw [Leaf.Readable, String.toList_ofList]
    exact ⟨htoken, hn⟩

/-! ### Expressions -/

/-- An atom that is a key: its name and a colon are one token. -/
def Expr.IsKeyAtom (e : Expr) : Prop :=
  ∃ name span, e = .leaf (.atom name) span ∧ IsNameToken (name.toList ++ [':'])

/-- An expression that can be read. -/
inductive Expr.Readable : Expr → Prop
  | leaf {l : Leaf} {span : Option TokenSpans} (h : l.Readable) : Readable (.leaf l span)
  | items {enclosure : Enclosure} {values : List Expr} {spans : BracketSpans}
      (h : ∀ v ∈ values, Readable v) : Readable (.items enclosure values spans)
  | map {fields : List Field} {spans : BracketSpans}
      (hkeys : ∀ f ∈ fields, ¬f.key.IsKeyAtom → Readable f.key)
      (hvalues : ∀ f ∈ fields, Readable f.value) : Readable (.map fields spans)

/-- A name token with a colon after it is the token of a key. -/
theorem IsNameToken.append_colon {cs : List Char} (h : IsNameToken cs) :
    IsNameToken (cs ++ [':']) := by
  refine ⟨by simp, fun c hc => ?_, fun c hc => ?_⟩
  · rw [List.mem_append, List.mem_singleton] at hc
    rcases hc with hc | rfl
    · exact h.isNameChar c hc
    · decide
  · rw [List.head?_append, List.head?_eq_some_head h.ne_nil, Option.some_or,
      ← List.head?_eq_some_head h.ne_nil] at hc
    exact h.head_ne c hc

namespace Scan

variable {α : Type} {c c' : Cursor}

/-- What every item has, every one of the items has. -/
theorem forall_of_itemsUntil {closing : Char} {item : Scan α} {P : α → Prop}
    (hitem : ∀ {c c' x}, item c = .ok x c' → P x) {fuel : Nat} {xs : List (α × TokenSpans)}
    (h : itemsUntil closing item fuel c = .ok xs c') : ∀ x ∈ xs, P x.1 := by
  induction fuel generalizing c xs with
  | zero => exact absurd h itemsUntil_zero
  | succ fuel ih =>
    obtain ⟨-, rfl, -⟩ | ⟨-, -, x, c₁, s, c₂, ys, hx, -, hys, rfl⟩ := itemsUntil_eq_ok.1 h
    · simp
    · intro y hy
      rcases List.mem_cons.1 hy with rfl | hy
      · exact hitem hx
      · exact ih hys y hy

theorem forall_of_between {opening closing : Char} {item : Scan α} {P : α → Prop}
    (hitem : ∀ {c c' x}, item c = .ok x c' → P x) {xs : List α} {spans : BracketSpans}
    (h : between opening closing item c = .ok (xs, spans) c') : ∀ x ∈ xs, P x := by
  obtain ⟨-, s, c₁, ys, c₂, s', -, hys, -, heq⟩ := between_eq_ok.1 h
  cases heq
  intro x hx
  obtain ⟨y, hy, rfl⟩ := List.mem_map.1 hx
  exact forall_of_itemsUntil hitem hys y hy

theorem readable_of_name {e : Expr} (hhead : c.current ≠ '\'' ∧ c.current ≠ '#')
    (h : name c = .ok e c') : e.Readable := by
  obtain ⟨token, l, s, htoken, hne, hl, -, rfl⟩ := name_eq_ok.1 h
  refine .leaf (readable_of_nameLeaf ⟨hne, fun x hx => ?_, fun x hx => ?_⟩ hl)
  · rw [← htoken] at hx
    exact List.mem_takeWhile_imp hx
  · obtain ⟨r, hr⟩ : token <+: c.rest := htoken ▸ List.takeWhile_prefix _
    obtain ⟨t, rfl⟩ : ∃ t, token = x :: t := by
      cases token with
      | nil => simp at hx
      | cons y t => exact ⟨t, by rw [← Option.some_inj.1 hx]⟩
    rw [Cursor.current, ← hr] at hhead
    exact hhead

theorem readable_of_leafOf {scan : List Char → Scanned Leaf} {e : Expr}
    (hscan : ∀ {cs l}, (scan cs).outcome = .ok l → l.Readable) (h : leafOf scan c = .ok e c') :
    e.Readable := by
  obtain ⟨l, s, hl, -, rfl⟩ := leafOf_eq_ok.1 h
  exact .leaf (hscan hl)

/-- Every string can be read. -/
theorem readable_of_after {n : Nat} {s : Scanned (List Char)} {l : Leaf}
    (h : (s.after n fun xs => Leaf.string (String.ofList xs)).outcome = .ok l) : l.Readable := by
  obtain ⟨k, xs | e⟩ := s
  · exact absurd h (by simp [Scanned.after, Except.map])
  · cases h
    exact trivial

theorem readable_of_stringToken {q : Char} {cs : List Char} {l : Leaf}
    (h : (stringToken q cs).outcome = .ok l) : l.Readable := by
  unfold stringToken at h
  split_ifs at h
  · cases h
  · cases h
  · exact readable_of_after h

theorem readable_of_rawToken {cs : List Char} {l : Leaf} (h : (rawToken cs).outcome = .ok l) :
    l.Readable := by
  unfold rawToken at h
  dsimp only at h
  split_ifs at h
  · cases h
  · cases h
  · exact readable_of_after h

/-- The key of a field is an atom of a token that ends in a colon, or an expression. -/
theorem readable_of_keyOf {expr : Scan Expr} {k : Expr} {colon : TokenSpans}
    (hexpr : ∀ {c c' e}, expr c = .ok e c' → e.Readable) (h : keyOf expr c = .ok (k, colon) c') :
    ¬k.IsKeyAtom → k.Readable := by
  obtain ⟨key, c₁, hkey, hcut | ⟨-, -, -, rfl⟩⟩ := keyOf_eq_ok.1 h
  · obtain ⟨cs, spans, token, hc, hcut⟩ := hcut
    obtain ⟨name, space, rfl, hlast, rfl, -⟩ := colonKey?_eq_some.1 hc
    obtain ⟨-, key, gap, stop, -, -, -, rfl, -⟩ := cutKey_eq_ok.1 hcut
    -- the token was a name with the colon at its end, so the key is an atom that was cut off
    intro hnot
    refine absurd ⟨_, _, rfl, ?_⟩ hnot
    cases hexpr hkey with
    | leaf hname =>
      obtain ⟨ys, hys⟩ := List.getLast?_eq_some_iff.1 hlast
      rw [String.toList_ofList, hys, List.dropLast_concat, ← hys]
      exact hname.1
  · exact fun _ => hexpr hkey

theorem readable_of_mapOf {expr : Scan Expr} {e : Expr}
    (hexpr : ∀ {c c' e}, expr c = .ok e c' → e.Readable) (h : mapOf expr c = .ok e c') :
    e.Readable := by
  obtain ⟨fields, spans, hb, rfl⟩ := mapOf_eq_ok.1 h
  have hfield : ∀ f ∈ fields, (¬f.key.IsKeyAtom → f.key.Readable) ∧ f.value.Readable := by
    refine forall_of_between (fun {c c' f} hf => ?_) hb
    obtain ⟨k, colon, c₁, v, hk, hv, rfl⟩ := fieldOf_eq_ok.1 hf
    exact ⟨readable_of_keyOf hexpr hk, hexpr hv⟩
  exact .map (fun f hf => (hfield f hf).1) (fun f hf => (hfield f hf).2)

theorem readable_of_itemsOf {enclosure : Enclosure} {opening closing : Char} {expr : Scan Expr}
    {e : Expr} (hexpr : ∀ {c c' e}, expr c = .ok e c' → e.Readable)
    (h : itemsOf enclosure opening closing expr c = .ok e c') : e.Readable := by
  obtain ⟨values, spans, hb, rfl⟩ := itemsOf_eq_ok.1 h
  exact .items (forall_of_between hexpr hb)

theorem readable_of_exprWithin {depth : Nat} {e : Expr} (h : exprWithin depth c = .ok e c') :
    e.Readable := by
  induction depth generalizing c c' e with
  | zero => exact absurd h throw_ne_ok
  | succ depth ih =>
    -- white space first, then the production that the next character calls for
    obtain ⟨c₁, hc₁⟩ := exists_exprWithin_eq depth c
    rw [hc₁] at h
    unfold exprOf at h
    split_ifs at h with hend hgroup hseq hstring hraw hmap hname
    · exact absurd h throw_ne_ok
    · exact readable_of_itemsOf ih h
    · exact readable_of_itemsOf ih h
    · exact readable_of_leafOf readable_of_stringToken h
    · exact readable_of_leafOf readable_of_rawToken h
    · exact readable_of_mapOf ih h
    · refine readable_of_name ⟨fun hq => hstring ?_, hraw⟩ h
      simp [hq]
    · exact absurd h throw_ne_ok

theorem readable_of_exprsUntilEnd {fuel : Nat} {es : List Expr}
    (h : exprsUntilEnd fuel c = .ok es c') : ∀ e ∈ es, e.Readable := by
  induction fuel generalizing c es with
  | zero => exact absurd h exprsUntilEnd_zero
  | succ fuel ih =>
    obtain ⟨-, rfl, -⟩ | ⟨-, e, c₁, es, he, hes, rfl⟩ := exprsUntilEnd_eq_ok.1 h
    · simp
    · intro x hx
      rcases List.mem_cons.1 hx with rfl | hx
      · exact readable_of_exprWithin he
      · exact ih hes x hx

end Scan

theorem Document.readable_of_read {src : String} {d : Document} (h : Document.read src = .ok d) :
    ∀ e ∈ d.exprs, e.Readable := by
  obtain ⟨g, r, hsrc, hg, -, -⟩ := exists_layout false src.toList
  rw [← String.ofList_toList (s := src), hsrc] at h hg
  rw [Document.read_append (by rwa [String.toList_ofList] at hg)] at h
  split at h
  · next es c hes =>
    cases h
    exact Scan.readable_of_exprsUntilEnd hes
  · exact absurd h (by simp)

/-! ### Without spans -/

theorem Expr.isKeyAtom_dropSpans {e : Expr} : e.dropSpans.IsKeyAtom ↔ e.IsKeyAtom := by
  constructor
  · rintro ⟨name, span, he, hname⟩
    cases e <;> simp only [Expr.dropSpans] at he <;> cases he
    exact ⟨name, _, rfl, hname⟩
  · rintro ⟨name, span, rfl, hname⟩
    exact ⟨name, none, rfl, hname⟩

theorem Expr.Readable.dropSpans {e : Expr} (h : e.Readable) : e.dropSpans.Readable := by
  induction e using Expr.induction with
  | leaf l span =>
    cases h with
    | leaf h => exact .leaf h
  | items enclosure values spans ih =>
    cases h with
    | items h =>
      rw [Expr.dropSpans, Expr.dropSpansAll_eq_map]
      refine .items fun v hv => ?_
      obtain ⟨w, hw, rfl⟩ := List.mem_map.1 hv
      exact ih w hw (h w hw)
  | map fields spans ih =>
    cases h with
    | map hkeys hvalues =>
      rw [Expr.dropSpans, Field.dropSpansAll_eq_map]
      refine .map (fun f hf hkey => ?_) (fun f hf => ?_)
      · obtain ⟨g, hg, rfl⟩ := List.mem_map.1 hf
        exact (ih g hg).1 (hkeys g hg fun h => hkey (Expr.isKeyAtom_dropSpans.2 h))
      · obtain ⟨g, hg, rfl⟩ := List.mem_map.1 hf
        exact (ih g hg).2 (hvalues g hg)
  | bare mark => cases h

/-- A document that was read without spans has none, and all its expressions can be
read. -/
theorem Document.readable_of_readPlain {src : String} {d : Document}
    (h : Document.readPlain src = .ok d) :
    d.dropSpans = d ∧ ∀ e ∈ d.exprs, e.Readable := by
  cases hread : Document.read src with
  | error e =>
    rw [Document.readPlain, hread] at h
    exact absurd h (by simp [Except.map])
  | ok full =>
    rw [Document.readPlain, hread] at h
    cases h
    refine ⟨?_, fun e he => ?_⟩
    · simp only [Document.dropSpans, Expr.dropSpansAll_eq_map, List.map_map]
      congr 1
      exact List.map_congr_left fun e _ => e.dropSpans_dropSpans
    · rw [Document.dropSpans, Expr.dropSpansAll_eq_map] at he
      obtain ⟨x, hx, rfl⟩ := List.mem_map.1 he
      exact (Document.readable_of_read hread x hx).dropSpans

end Sexpr
