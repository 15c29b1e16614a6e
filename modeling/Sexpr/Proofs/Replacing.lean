/-
Expressions put into a document that was read with its spans.

The parts around the new expression keep their spans. A separator is put in after the new
expression where the source has none, but not before it: there a name can now run on into
the new one.

* `Expr.Replaces` — one expression in the place of another one;
* `Expr.Replaces.keeps` — what is kept of the expression around it;
* `Expr.Replaces.exists_alike` — two expressions that are written alike, in the same place;
* `Document.Replaces.keeps`, `Document.Replaces.exists_alike` — a whole document.
-/
import Sexpr.Expr.Edit
import Sexpr.Proofs.Misreading

namespace Sexpr

/-! ### Replacements -/

/-- The path leads from `x` to a place, and with `new` in that place it is `y`. -/
inductive Expr.Replaces (new : Expr) : List PathStep → Expr → Expr → Prop
  | here {x : Expr} : Replaces new [] x new
  | item {i : Nat} {path : List PathStep} {enclosure : Enclosure} {values : List Expr}
      {spans : BracketSpans} {x y : Expr} (hi : values[i]? = some x) (h : Replaces new path x y) :
      Replaces new (.item i :: path) (.items enclosure values spans)
        (.items enclosure (values.set i y) spans)
  | key {i : Nat} {path : List PathStep} {fields : List Field} {spans : BracketSpans} {f : Field}
      {k : Expr} (hi : fields[i]? = some f) (h : Replaces new path f.key k) :
      Replaces new (.item i :: .key :: path) (.map fields spans)
        (.map (fields.set i { f with key := k }) spans)
  | value {i : Nat} {path : List PathStep} {fields : List Field} {spans : BracketSpans}
      {f : Field} {v : Expr} (hi : fields[i]? = some f) (h : Replaces new path f.value v) :
      Replaces new (.item i :: .value :: path) (.map fields spans)
        (.map (fields.set i { f with value := v }) spans)

theorem Expr.replaces_of_replace? {new x y : Expr} {path : List PathStep}
    (h : Expr.replace? new path x = some y) : Expr.Replaces new path x y := by
  fun_induction Expr.replace? new path x generalizing y with
  | case1 => exact Option.some_inj.1 h ▸ .here
  | case2 i path fields spans ih =>
    obtain ⟨f, hi, h⟩ := Option.bind_eq_some_iff.1 h
    obtain ⟨k, hk, h⟩ := Option.bind_eq_some_iff.1 h
    exact Option.some_inj.1 h ▸ .key hi (ih f hk)
  | case3 i path fields spans ih =>
    obtain ⟨f, hi, h⟩ := Option.bind_eq_some_iff.1 h
    obtain ⟨v, hv, h⟩ := Option.bind_eq_some_iff.1 h
    exact Option.some_inj.1 h ▸ .value hi (ih f hv)
  | case4 i path enclosure values spans ih =>
    obtain ⟨x, hi, h⟩ := Option.bind_eq_some_iff.1 h
    obtain ⟨v, hv, h⟩ := Option.bind_eq_some_iff.1 h
    exact Option.some_inj.1 h ▸ .item hi (ih x hv)
  | case5 => cases h

/-! ### Spans -/

/-- A field with another value. -/
theorem FieldSourced.set_value {W W' : Expr → Prop} {f : Field} {v : Expr} (h : FieldSourced W f)
    (hk : W f.key → W' f.key) (hv : W' v) : FieldSourced W' { f with value := v } := by
  cases h with
  | fused hname hspan hcolon hg _ => exact .fused hname hspan hcolon hg hv
  | apart hkey hblank hends hne hcolon hg _ =>
    exact .apart (hk hkey) hblank hends hne hcolon hg hv

theorem FieldSourced.blank_key {W : Expr → Prop} {f : Field} (h : FieldSourced W f) :
    Blank f.key.trailing := by
  cases h with
  | @fused name span v colon g hname hspan =>
    cases span with
    | none => exact .nil
    | some t =>
      show Blank (layoutAfter (some t))
      rw [(hspan t rfl).layoutAfter]
      exact .nil
  | apart _ hblank => exact hblank

/-- A field with another key. A name takes the place of the rest of a token. -/
theorem FieldSourced.set_key {W W' : Expr → Prop} {f : Field} {k : Expr} (h : FieldSourced W f)
    (hv : W' f.value) (hk : W' k) (hblank : Blank k.trailing)
    (hname : k.isName = true → ∃ name, k = .leaf (.atom name) none ∧
      IsNameToken (name.toList ++ [':'])) : FieldSourced W' { f with key := k } := by
  obtain ⟨colon, g, hsep, hcolon, hg⟩ := h.exists_colon
  rw [hsep]
  by_cases hkname : k.isName = true
  · obtain ⟨name, rfl, htoken⟩ := hname hkname
    exact .fused htoken (by simp) hcolon hg hv
  · refine .apart hk hblank ?_ (fun h => absurd h hkname) hcolon hg hv
    cases k with
    | leaf l span =>
      cases l with
      | atom name => exact absurd rfl hkname
      | _ => rfl
    | _ => rfl

theorem Expr.Sourced.of_mem_map {fields : List Field} {spans : BracketSpans} {f : Field}
    (h : (Expr.map fields spans).Sourced fun _ => False) (hf : f ∈ fields) :
    FieldSourced (Expr.Sourced fun _ => False) f ∧ Blank f.value.trailing := by
  cases h with
  | new h => exact h.elim
  | map _ _ hfields hblank => exact ⟨hfields f hf, hblank f hf⟩

theorem Expr.Sourced.mono {new new' : Expr → Prop} {e : Expr} (h : e.Sourced new)
    (himp : ∀ x, new x → new' x) : e.Sourced new' := by
  induction e using Expr.induction with
  | leaf l span =>
    cases h with
    | new h => exact .new (himp _ h)
    | leaf hs ht => exact .leaf hs ht
  | items enclosure values spans ih =>
    cases h with
    | new h => exact .new (himp _ h)
    | items ho hg hvalues hblank hseps hlen hc =>
      exact .items ho hg (fun v hv => ih v hv (hvalues v hv)) hblank hseps hlen hc
  | map fields spans ih =>
    cases h with
    | new h => exact .new (himp _ h)
    | map ho hg hfields hblank hseps hlen hc =>
      exact .map ho hg (fun f hf => (hfields f hf).set_value (ih f hf).1
        ((ih f hf).2 (hfields f hf).value)) hblank hseps hlen hc
  | bare mark =>
    cases h with
    | new h => exact .new (himp _ h)

/-! ### Names next to the new expression -/

/-- Some gap is put in after an item without spans, so that it never runs on. -/
theorem Expr.runsOn_of_hasSpans {e : Expr} (h : e.hasSpans = false) (s : Option TokenSpans)
    (es : List Expr) : e.runsOn s es = false := by
  cases es with
  | nil => simp [Expr.runsOn]
  | cons x es =>
    have hgap : (itemGap s false false).isEmpty = false := by
      unfold itemGap
      split
      · split_ifs with hempty
        · rfl
        · simpa using hempty
      · rfl
    rw [Expr.runsOn, List.isEmpty_cons, h, hgap, Bool.and_false, Bool.false_and]

theorem Expr.areApart_of_forall {values : List Expr}
    (h : ∀ v ∈ values, v.isApart = true ∧ v.hasSpans = false) (ss : List TokenSpans) :
    Expr.areApart ss values = true := by
  induction values generalizing ss with
  | nil => rfl
  | cons v vs ih =>
    obtain ⟨⟨hv, hspans⟩, hvs⟩ := List.forall_mem_cons.1 h
    rw [Expr.areApart, hv, Expr.runsOn_of_hasSpans hspans, ih hvs]
    rfl

theorem Field.areApart_of_forall {fields : List Field} (h : ∀ f ∈ fields,
    f.key.isApart = true ∧ f.value.isApart = true ∧ f.separator = none) :
    Field.areApart fields = true := by
  induction fields with
  | nil => rfl
  | cons f fs ih =>
    obtain ⟨⟨hk, hv, hsep⟩, hfs⟩ := List.forall_mem_cons.1 h
    have hgap : keyGap f.separator f.key.hasSpans = ": " := by rw [hsep]; rfl
    have hruns : f.runsOn = false := by simp [Field.runsOn, hgap]
    rw [Field.areApart, hk, hv, hruns, ih hfs]
    rfl

theorem Expr.isApart_of_hasSpans {e : Expr} (h : e.hasSpans = false) : e.isApart = true := by
  induction e using Expr.induction with
  | leaf l span => rfl
  | items enclosure values spans ih =>
    rw [Expr.hasSpans, Bool.or_eq_false_iff, Expr.anyHasSpans_eq_any, List.any_eq_false] at h
    have hspans : ∀ v ∈ values, v.hasSpans = false := fun v hv => by simpa using h.2 v hv
    exact Expr.areApart_of_forall (fun v hv => ⟨ih v hv (hspans v hv), hspans v hv⟩) _
  | map fields spans ih =>
    rw [Expr.hasSpans, Bool.or_eq_false_iff, Field.anyHasSpans_eq_any, List.any_eq_false] at h
    refine Field.areApart_of_forall fun f hf => ?_
    have hspans := h.2 f hf
    simp only [Bool.or_eq_true, not_or, Bool.not_eq_true, Option.isSome_eq_false_iff,
      Option.isNone_iff_eq_none] at hspans
    exact ⟨(ih f hf).1 hspans.1.2, (ih f hf).2 hspans.2, hspans.1.1⟩
  | bare mark => rfl

/-- Items with another one among them. Only the item before it can run on into it. -/
theorem areApart_set {P : Prop} {ss : List TokenSpans} {values : List Expr} {i : Nat} {y : Expr}
    (h : Expr.areApart ss values = true) (hruns : ∀ s es, y.runsOn s es = false)
    (hstart : y.startsInName = true → y.isName = true ∧ P)
    (hy : y.isApart = true ∨ y.Torn ∧ P) :
    Expr.areApart ss (values.set i y) = true ∨
      TornItems Expr.Torn ss (values.set i y) ∧ P := by
  induction values generalizing ss i with
  | nil => exact .inl rfl
  | cons x es ih =>
    simp only [Expr.areApart, Bool.and_eq_true, Bool.not_eq_true'] at h
    obtain ⟨⟨hx, hxruns⟩, hes⟩ := h
    cases i with
    | zero =>
      rw [List.set_cons_zero]
      rcases hy with hy | ⟨hy, hp⟩
      · left
        simp [Expr.areApart, hy, hruns, hes]
      · exact .inr ⟨.within hy hes, hp⟩
    | succ i =>
      rw [List.set_cons_succ]
      by_cases hxruns' : x.runsOn ss.head? (es.set i y) = true
      · cases es with
        | nil => exact absurd hxruns' (by simp [Expr.runsOn])
        | cons z zs =>
          cases i with
          | zero =>
            simp only [Expr.runsOn, Bool.and_eq_true, String.isEmpty_iff] at hxruns'
            obtain ⟨⟨hopen, hgap⟩, hstarts⟩ := hxruns'
            obtain ⟨hname, hp⟩ := hstart hstarts
            simp only [Expr.areApart, Bool.and_eq_true] at hes
            refine .inr ⟨.between hopen hgap hname ?_, hp⟩
            simp [Expr.areApart, Expr.isApart_of_isName hname, hruns, hes.2]
          | succ i =>
            have hsame : x.runsOn ss.head? (z :: zs.set i y) = x.runsOn ss.head? (z :: zs) := rfl
            rw [List.set_cons_succ, hsame, hxruns] at hxruns'
            exact absurd hxruns' (by simp)
      · rw [Bool.not_eq_true] at hxruns'
        rcases ih (i := i) hes with h | ⟨h, hp⟩
        · left
          simp [Expr.areApart, hx, hxruns', h]
        · exact .inr ⟨.after hx hxruns' h, hp⟩

theorem Field.areApart_cons (f : Field) (fs : List Field) :
    Field.areApart (f :: fs) = (Field.areApart [f] && Field.areApart fs) := by
  simp [Field.areApart]

theorem Field.areApart_of_mem {fields : List Field} (h : Field.areApart fields = true) :
    ∀ f ∈ fields, Field.areApart [f] = true := by
  induction fields with
  | nil => simp
  | cons f fs ih =>
    rw [Field.areApart_cons, Bool.and_eq_true] at h
    exact List.forall_mem_cons.2 ⟨h.1, ih h.2⟩

/-- Fields with another one among them. -/
theorem areApart_set_fields {P : Prop} {fields : List Field} {i : Nat} {f : Field}
    (h : Field.areApart fields = true)
    (hf : Field.areApart [f] = true ∨ TornFields Expr.Torn [f] ∧ P) :
    Field.areApart (fields.set i f) = true ∨ TornFields Expr.Torn (fields.set i f) ∧ P := by
  induction fields generalizing i with
  | nil => exact .inl rfl
  | cons x fs ih =>
    rw [Field.areApart_cons, Bool.and_eq_true] at h
    obtain ⟨hx, hfs⟩ := h
    cases i with
    | zero =>
      rw [List.set_cons_zero]
      rcases hf with hf | ⟨hf, hp⟩
      · left
        rw [Field.areApart_cons, hf, hfs, Bool.and_self]
      · refine .inr ⟨?_, hp⟩
        cases hf with
        | key hk hv _ => exact .key hk hv hfs
        | value hk hruns hv _ => exact .value hk hruns hv hfs
        | colon hruns hv _ => exact .colon hruns hv hfs
        | after _ h => cases h
    | succ i =>
      rw [List.set_cons_succ]
      rcases ih hfs with h | ⟨h, hp⟩
      · left
        rw [Field.areApart_cons, hx, h, Bool.and_self]
      · exact .inr ⟨.after hx h, hp⟩

/-! ### Expressions around the new one -/

/-- What is known of an expression without spans that is put in. -/
structure Expr.PutIn (e : Expr) : Prop where
  hasSpans : e.hasSpans = false
  isName : e.startsInName = true → e.isName = true
  isNameToken : ∀ name, e = .leaf (.atom name) none → IsNameToken name.toList

theorem Expr.trailing_of_hasSpans {e : Expr} (h : e.hasSpans = false) : e.trailing = [] := by
  cases e with
  | leaf l span =>
    rw [Expr.hasSpans, Option.isSome_eq_false_iff, Option.isNone_iff_eq_none] at h
    rw [h]
    rfl
  | items enclosure values spans =>
    simp only [Expr.hasSpans, BracketSpans.isSome, Bool.or_eq_false_iff,
      Option.isSome_eq_false_iff, Option.isNone_iff_eq_none] at h
    rw [Expr.trailing, h.1.2]
    rfl
  | map fields spans =>
    simp only [Expr.hasSpans, BracketSpans.isSome, Bool.or_eq_false_iff,
      Option.isSome_eq_false_iff, Option.isNone_iff_eq_none] at h
    rw [Expr.trailing, h.1.2]
    rfl
  | bare mark => rfl

/-- A name that is no number takes the place of a key. -/
theorem Expr.PutIn.exists_atom {e : Expr} (h : e.PutIn) (hname : e.isName = true)
    (hnumber : e.isNumber = false) :
    ∃ name, e = .leaf (.atom name) none ∧ IsNameToken (name.toList ++ [':']) := by
  have hspans := h.hasSpans
  cases e with
  | leaf l span =>
    rw [Expr.hasSpans, Option.isSome_eq_false_iff, Option.isNone_iff_eq_none] at hspans
    subst hspans
    cases l with
    | atom name => exact ⟨name, rfl, (h.isNameToken name rfl).append_colon⟩
    | string s => cases hname
    | _ => cases hnumber
  | _ => cases hname

theorem startsInName_items {enclosure : Enclosure} {o c : TokenSpans} {g : List Char}
    (ho : o.Holds enclosure.brackets.1.toList g) (values : List Expr)
    (separators : List TokenSpans) :
    (Expr.items enclosure values ⟨some o, some separators, some c⟩).startsInName = false := by
  rw [Expr.startsInName, ← (startsLike_items ho values separators []).head]
  cases enclosure <;> decide

theorem startsInName_map {o c : TokenSpans} {g : List Char} (ho : o.Holds ['{'] g)
    (fields : List Field) (separators : List TokenSpans) :
    (Expr.map fields ⟨some o, some separators, some c⟩).startsInName = false := by
  rw [Expr.startsInName, ← (startsLike_map ho fields separators []).head]
  decide

/-- What is known of an expression in which another one was put. -/
structure Expr.Keeps (new : Expr) (path : List PathStep) (x y : Expr) : Prop where
  sourced : y.Sourced (· = new)
  trailing : y.trailing = [] ∨ y.trailing = x.trailing
  whole : path = [] ∧ y = new ∨ y.isName = false ∧ y.startsInName = false
  apart : y.isApart = true ∨ y.Torn ∧ new.isName = true

section Keeps

variable {new x y : Expr} {path : List PathStep}

theorem Expr.Keeps.runsOn (h : Expr.Keeps new path x y) (hnew : new.PutIn)
    (s : Option TokenSpans) (es : List Expr) : y.runsOn s es = false := by
  rcases h.whole with ⟨-, rfl⟩ | ⟨hname, -⟩
  · exact Expr.runsOn_of_hasSpans hnew.hasSpans s es
  · simp [Expr.runsOn, Expr.isOpenName, hname]

theorem Expr.Keeps.isName (h : Expr.Keeps new path x y) (hnew : new.PutIn)
    (hstart : y.startsInName = true) : y.isName = true ∧ new.isName = true := by
  rcases h.whole with ⟨-, rfl⟩ | ⟨-, hstart'⟩
  · exact ⟨hnew.isName hstart, hnew.isName hstart⟩
  · exact absurd hstart (by simp [hstart'])

theorem Expr.Keeps.blank (h : Expr.Keeps new path x y) (hx : Blank x.trailing) :
    Blank y.trailing := by
  rcases h.trailing with hnil | hsame
  · rw [hnil]
    exact .nil
  · rw [hsame]
    exact hx

theorem Expr.keeps_here (hnew : new.PutIn) : Expr.Keeps new [] x new :=
  ⟨.new rfl, .inl (Expr.trailing_of_hasSpans hnew.hasSpans), .inl ⟨rfl, rfl⟩,
    .inl (Expr.isApart_of_hasSpans hnew.hasSpans)⟩

theorem Expr.keeps_item {i : Nat} {enclosure : Enclosure} {values : List Expr}
    {spans : BracketSpans} (hnew : new.PutIn) (hi : values[i]? = some x)
    (h : Expr.Keeps new path x y)
    (hs : (Expr.items enclosure values spans).Sourced fun _ => False)
    (hapart : (Expr.items enclosure values spans).isApart = true) :
    Expr.Keeps new (.item i :: path) (.items enclosure values spans)
      (.items enclosure (values.set i y) spans) := by
  cases hs with
  | new h => exact h.elim
  | @items _ _ o c separators g g' ho hg hvalues hblank hseps hlen hc =>
    have hx := List.mem_of_getElem? hi
    refine ⟨.items ho hg (fun v hv => ?_) (fun v hv => ?_) hseps ?_ hc, .inr rfl,
      .inr ⟨rfl, ?_⟩, ?_⟩
    · rcases List.mem_or_eq_of_mem_set hv with hv | rfl
      · exact (hvalues v hv).mono fun _ h => h.elim
      · exact h.sourced
    · rcases List.mem_or_eq_of_mem_set hv with hv | rfl
      · exact hblank v hv
      · exact h.blank (hblank x hx)
    · rw [List.length_set, hlen]
    · exact startsInName_items ho _ _
    · rw [Expr.isApart] at hapart
      refine (areApart_set hapart (h.runsOn hnew) (h.isName hnew) h.apart).imp id fun h => ?_
      exact ⟨.items h.1, h.2⟩

/-- A map with another field. -/
theorem Expr.keeps_field {i : Nat} {fields : List Field} {spans : BracketSpans} {f' : Field}
    (hs : (Expr.map fields spans).Sourced fun _ => False)
    (hapart : (Expr.map fields spans).isApart = true)
    (hf : FieldSourced (Expr.Sourced (· = new)) f') (hblank : Blank f'.value.trailing)
    (htorn : Field.areApart [f'] = true ∨ TornFields Expr.Torn [f'] ∧ new.isName = true) :
    Expr.Keeps new path (.map fields spans) (.map (fields.set i f') spans) := by
  cases hs with
  | new h => exact h.elim
  | @map _ o c separators g g' ho hg hfields hblanks hseps hlen hc =>
    refine ⟨.map ho hg (fun x hx => ?_) (fun x hx => ?_) hseps ?_ hc, .inr rfl,
      .inr ⟨rfl, startsInName_map ho _ _⟩, ?_⟩
    · rcases List.mem_or_eq_of_mem_set hx with hx | rfl
      · exact (hfields x hx).set_value (fun hk => hk.mono fun _ h => h.elim)
          ((hfields x hx).value.mono fun _ h => h.elim)
      · exact hf
    · rcases List.mem_or_eq_of_mem_set hx with hx | rfl
      · exact hblanks x hx
      · exact hblank
    · rw [List.length_set, hlen]
    · rw [Expr.isApart] at hapart
      exact (areApart_set_fields hapart htorn).imp id fun h => ⟨.map h.1, h.2⟩

/-- A field with another value: a key can run on into it. -/
theorem Expr.Keeps.value_apart {f : Field} (h : Expr.Keeps new path f.value y) (hnew : new.PutIn)
    (hf : Field.areApart [f] = true) :
    Field.areApart [{ f with value := y }] = true ∨
      TornFields Expr.Torn [{ f with value := y }] ∧ new.isName = true := by
  obtain ⟨k, v, separator⟩ := f
  simp only [Field.areApart, Bool.and_eq_true, Bool.not_eq_true'] at hf
  obtain ⟨⟨⟨hk, -⟩, -⟩, -⟩ := hf
  by_cases hruns : Field.runsOn ⟨k, y, separator⟩ = true
  · have hstart : y.startsInName = true := by
      simp only [Field.runsOn, Bool.and_eq_true] at hruns
      exact hruns.2
    obtain ⟨hname, hp⟩ := h.isName hnew hstart
    exact .inr ⟨.colon hruns (Expr.isApart_of_isName hname) rfl, hp⟩
  · rw [Bool.not_eq_true] at hruns
    rcases h.apart with hy | ⟨hy, hp⟩
    · left
      simp [Field.areApart, hk, hy, hruns]
    · exact .inr ⟨.value hk hruns hy rfl, hp⟩

/-- A field with another key: it can run on into the value. -/
theorem Expr.Keeps.key_apart {f : Field} (h : Expr.Keeps new path f.key y)
    (hf : Field.areApart [f] = true) :
    Field.areApart [{ f with key := y }] = true ∨
      TornFields Expr.Torn [{ f with key := y }] ∧ new.isName = true := by
  obtain ⟨k, v, separator⟩ := f
  simp only [Field.areApart, Bool.and_eq_true, Bool.not_eq_true'] at hf
  obtain ⟨⟨⟨-, hv⟩, -⟩, -⟩ := hf
  rcases h.apart with hy | ⟨hy, hp⟩
  · by_cases hruns : Field.runsOn ⟨y, v, separator⟩ = true
    · refine .inr ⟨.colon hruns hv rfl, ?_⟩
      simp only [Field.runsOn, Expr.isOpenName, Bool.and_eq_true] at hruns
      rcases h.whole with ⟨-, rfl⟩ | ⟨hname, -⟩
      · exact hruns.1.1.1
      · exact absurd hruns.1.1.1 (by simp [hname])
    · left
      simp [Field.areApart, hv, hy, hruns]
  · exact .inr ⟨.key hy hv rfl, hp⟩

/-- What is kept of an expression with another one put in: its spans, and the names in it
that do not run on, except in front of the new one. -/
theorem Expr.Replaces.keeps (h : Expr.Replaces new path x y) (hnew : new.PutIn)
    (hkey : path.getLast? = some .key → new.isNumber = false)
    (hs : x.Sourced fun _ => False) (hapart : x.isApart = true) :
    Expr.Keeps new path x y := by
  induction h with
  | here => exact Expr.keeps_here hnew
  | @item i path enclosure values spans x y hi h ih =>
    have hx := List.mem_of_getElem? hi
    refine Expr.keeps_item hnew hi (ih (fun hlast => hkey ?_) ?_ ?_) hs hapart
    · rw [List.getLast?_cons, hlast]
      rfl
    · cases hs with
      | new h => exact h.elim
      | items _ _ hvalues => exact hvalues x hx
    · rw [Expr.isApart] at hapart
      exact Expr.isApart_of_mem hapart x hx
  | @key i path fields spans f k hi h ih =>
    have hf := List.mem_of_getElem? hi
    obtain ⟨hsourced, hblank⟩ := hs.of_mem_map hf
    have hmem := Field.areApart_of_mem hapart f hf
    have hkeeps : Expr.Keeps new path f.key k := by
      -- a key that is the rest of a token has no parts
      cases hsourced with
      | fused =>
        cases h with
        | here => exact Expr.keeps_here hnew
      | apart hk =>
        refine ih (fun hlast => hkey ?_) hk (Field.isApart_of_mem hmem _ (by simp)).1
        rw [List.getLast?_cons, List.getLast?_cons, hlast]
        rfl
    refine Expr.keeps_field hs hapart (hsourced.set_key (hsourced.value.mono fun _ h => h.elim)
      hkeeps.sourced (hkeeps.blank hsourced.blank_key) fun hname => ?_) hblank
      (hkeeps.key_apart hmem)
    rcases hkeeps.whole with ⟨rfl, rfl⟩ | ⟨hname', -⟩
    · exact hnew.exists_atom hname (hkey rfl)
    · exact absurd hname (by simp [hname'])
  | @value i path fields spans f v hi h ih =>
    have hf := List.mem_of_getElem? hi
    obtain ⟨hsourced, hblank⟩ := hs.of_mem_map hf
    have hmem := Field.areApart_of_mem hapart f hf
    have hkeeps : Expr.Keeps new path f.value v := by
      refine ih (fun hlast => hkey ?_) hsourced.value (Field.isApart_of_mem hmem _ (by simp)).2
      rw [List.getLast?_cons, List.getLast?_cons, hlast]
      rfl
    exact Expr.keeps_field hs hapart (hsourced.set_value (fun hk => hk.mono fun _ h => h.elim)
      hkeeps.sourced) (hkeeps.blank hblank) (hkeeps.value_apart hnew hmem)

end Keeps

/-! ### Expressions that are written alike -/

/-- Two expressions are written alike at every level, and so are the gaps after them. -/
structure Expr.RendersAlike (l : Layout) (x y : Expr) : Prop where
  render : ∀ level, x.render l level = y.render l level
  hasSpans : x.hasSpans = y.hasSpans

section Alike

variable {l : Layout}

theorem Expr.RendersAlike.refl (x : Expr) : x.RendersAlike l x := ⟨fun _ => rfl, rfl⟩

theorem isEmpty_set {α : Type} (xs : List α) (i : Nat) (x : α) :
    (xs.set i x).isEmpty = xs.isEmpty := by
  cases xs with
  | nil => rfl
  | cons y ys => cases i <;> rfl

theorem renderAll_set {y y' : Expr} (h : y.RendersAlike l y') (level : Nat)
    (ss : List TokenSpans) (values : List Expr) (i : Nat) :
    Expr.renderAll l level ss (values.set i y) = Expr.renderAll l level ss (values.set i y') := by
  induction values generalizing ss i with
  | nil => rfl
  | cons v vs ih =>
    cases i with
    | zero => simp only [List.set_cons_zero, Expr.renderAll, h.render, h.hasSpans]
    | succ i => simp only [List.set_cons_succ, Expr.renderAll, ih, isEmpty_set]

theorem renderFields_set {k k' v v' : Expr} (hk : k.RendersAlike l k') (hv : v.RendersAlike l v')
    (separator : Option TokenSpans) (level : Nat) (ss : List TokenSpans) (fields : List Field)
    (i : Nat) :
    Field.renderAll l level ss (fields.set i ⟨k, v, separator⟩) =
      Field.renderAll l level ss (fields.set i ⟨k', v', separator⟩) := by
  induction fields generalizing ss i with
  | nil => rfl
  | cons x fs ih =>
    cases i with
    | zero =>
      simp only [List.set_cons_zero, Field.renderAll, hk.render, hk.hasSpans, hv.render]
    | succ i => simp only [List.set_cons_succ, Field.renderAll, ih, isEmpty_set]

theorem rendersAlike_items {enclosure : Enclosure} {values values' : List Expr} {o c : TokenSpans}
    {separators : List TokenSpans}
    (h : ∀ level, Expr.renderAll l level separators values =
      Expr.renderAll l level separators values') :
    (Expr.items enclosure values ⟨some o, some separators, some c⟩).RendersAlike l
      (.items enclosure values' ⟨some o, some separators, some c⟩) := by
  have hsome : (BracketSpans.mk (some o) (some separators) (some c)).isSome = true := rfl
  refine ⟨fun level => ?_, ?_⟩
  · rw [Expr.render, Expr.render, if_pos hsome, if_pos hsome, Option.getD_some, h]
  · rw [Expr.hasSpans, Expr.hasSpans, hsome, Bool.true_or, Bool.true_or]

theorem rendersAlike_map {fields fields' : List Field} {o c : TokenSpans}
    {separators : List TokenSpans}
    (h : ∀ level, Field.renderAll l level separators fields =
      Field.renderAll l level separators fields') :
    (Expr.map fields ⟨some o, some separators, some c⟩).RendersAlike l
      (.map fields' ⟨some o, some separators, some c⟩) := by
  have hsome : (BracketSpans.mk (some o) (some separators) (some c)).isSome = true := rfl
  refine ⟨fun level => ?_, ?_⟩
  · rw [Expr.render, Expr.render, if_pos hsome, if_pos hsome, Option.getD_some, h]
  · rw [Expr.hasSpans, Expr.hasSpans, hsome, Bool.true_or, Bool.true_or]

theorem eq_of_map_set {α β : Type} {f : α → β} {xs : List α} {i : Nat} {x y y' : α}
    (hi : xs[i]? = some x) (h : (xs.set i y).map f = (xs.set i y').map f) : f y = f y' := by
  have hlt : i < xs.length := (List.getElem?_eq_some_iff.1 hi).1
  have hget := congrArg (·[i]?) h
  simpa [hlt] using hget

/-- Two expressions that are written alike are so in the same place, too, and there they are
told apart. -/
theorem Expr.Replaces.exists_alike {new new' x y : Expr} {path : List PathStep}
    (h : Expr.Replaces new path x y) (hs : x.Sourced fun _ => False)
    (hnew : new.RendersAlike l new') :
    ∃ y', Expr.Replaces new' path x y' ∧ y.RendersAlike l y' ∧
      (y.dropSpans = y'.dropSpans → new.dropSpans = new'.dropSpans) := by
  induction h with
  | here => exact ⟨new', .here, hnew, id⟩
  | @item i path enclosure values spans x y hi h ih =>
    cases hs with
    | new h => exact h.elim
    | items _ _ hvalues =>
      obtain ⟨y', hy', halike, hinj⟩ := ih (hvalues x (List.mem_of_getElem? hi))
      refine ⟨_, .item hi hy', rendersAlike_items fun level => renderAll_set halike level _ _ _,
        fun heq => hinj ?_⟩
      simp only [Expr.dropSpans, Expr.dropSpansAll_eq_map, Expr.items.injEq] at heq
      exact eq_of_map_set hi heq.2.1
  | @key i path fields spans f k hi h ih =>
    cases hs with
    | new h => exact h.elim
    | map _ _ hfields =>
      obtain ⟨k', hk', halike, hinj⟩ : ∃ k', Expr.Replaces new' path f.key k' ∧
          k.RendersAlike l k' ∧ (k.dropSpans = k'.dropSpans → new.dropSpans = new'.dropSpans) := by
        cases hfields f (List.mem_of_getElem? hi) with
        | fused =>
          cases h with
          | here => exact ⟨new', .here, hnew, id⟩
        | apart hk => exact ih hk
      refine ⟨_, .key hi hk', rendersAlike_map fun level =>
        renderFields_set halike (.refl _) _ level _ _ _, fun heq => hinj ?_⟩
      simp only [Expr.dropSpans, Field.dropSpansAll_eq_map, Expr.map.injEq] at heq
      exact congrArg FieldOf.key (eq_of_map_set hi heq.1)
  | @value i path fields spans f v hi h ih =>
    cases hs with
    | new h => exact h.elim
    | map _ _ hfields =>
      obtain ⟨v', hv', halike, hinj⟩ := ih (hfields f (List.mem_of_getElem? hi)).value
      refine ⟨_, .value hi hv', rendersAlike_map fun level =>
        renderFields_set (.refl _) halike _ level _ _ _, fun heq => hinj ?_⟩
      simp only [Expr.dropSpans, Field.dropSpansAll_eq_map, Expr.map.injEq] at heq
      exact congrArg FieldOf.value (eq_of_map_set hi heq.1)

end Alike

/-! ### Documents -/

/-- The path leads to a place of a document, and with `new` in that place it is `d'`. -/
def Document.Replaces (new : Expr) (path : List PathStep) (d d' : Document) : Prop :=
  ∃ i path' x y, path = .item i :: path' ∧ d.exprs[i]? = some x ∧ Expr.Replaces new path' x y ∧
    d' = { d with exprs := d.exprs.set i y }

theorem Document.replaces_of_replace? {new : Expr} {path : List PathStep} {d d' : Document}
    (h : Document.replace? new path d = some d') : Document.Replaces new path d d' := by
  unfold Document.replace? at h
  split at h
  · obtain ⟨x, hi, h⟩ := Option.bind_eq_some_iff.1 h
    obtain ⟨y, hy, h⟩ := Option.bind_eq_some_iff.1 h
    exact ⟨_, _, x, y, rfl, hi, Expr.replaces_of_replace? hy, (Option.some_inj.1 h).symm⟩
  · cases h

theorem SourcedText.mono {new new' : Expr → Prop} {g : List Char} {es : List Expr}
    (h : SourcedText new g es) (himp : ∀ x, new x → new' x) : SourcedText new' g es := by
  induction h with
  | nil hg => exact .nil hg
  | cons hg he _ ih => exact .cons hg (he.mono himp) ih

/-- Expressions of a text with another one among them. -/
theorem SourcedText.set {new : Expr → Prop} {g : List Char} {es : List Expr} {i : Nat} {x y : Expr}
    (h : SourcedText (fun _ => False) g es) (hi : es[i]? = some x) (hy : y.Sourced new)
    (htrail : y.trailing = [] ∨ y.trailing = x.trailing) : SourcedText new g (es.set i y) := by
  have hfalse : ∀ x, False → new x := fun _ h => h.elim
  induction h generalizing i with
  | nil => exact absurd hi (by simp)
  | @cons g e es hg he hes ih =>
    cases i with
    | zero =>
      obtain rfl : e = x := by simpa using hi
      refine .cons hg hy ?_
      rcases htrail with hnil | hsame
      · rw [hnil]
        cases hes with
        | nil => exact .nil rfl
        | cons _ he hes => exact .cons .nil (he.mono hfalse) (hes.mono hfalse)
      · rw [hsame]
        exact hes.mono hfalse
    | succ i => exact .cons hg (he.mono hfalse) (ih (by simpa using hi))

theorem isApart_set_text {P : Prop} {es : List Expr} {i : Nat} {y : Expr}
    (h : ∀ e ∈ es, e.isApart = true) (hy : y.isApart = true ∨ y.Torn ∧ P) :
    (∀ e ∈ es.set i y, e.isApart = true) ∨ TornText (es.set i y) ∧ P := by
  induction es generalizing i with
  | nil => exact .inl (by simp)
  | cons e es ih =>
    obtain ⟨he, hes⟩ := List.forall_mem_cons.1 h
    cases i with
    | zero =>
      rcases hy with hy | ⟨hy, hp⟩
      · exact .inl (List.forall_mem_cons.2 ⟨hy, hes⟩)
      · exact .inr ⟨.within hy hes, hp⟩
    | succ i =>
      rcases ih (i := i) hes with h | ⟨h, hp⟩
      · exact .inl (List.forall_mem_cons.2 ⟨he, h⟩)
      · exact .inr ⟨.after he h, hp⟩

section Document

variable {new : Expr} {path : List PathStep} {d d' : Document}

/-- A document with another expression put in keeps its spans. A name can only run on in it
if the new expression is a name. -/
theorem Document.Replaces.keeps (h : Document.Replaces new path d d') (hnew : new.PutIn)
    (hkey : path.getLast? = some .key → new.isNumber = false)
    (hs : d.Sourced fun _ => False) (hapart : d.isApart = true) :
    d'.Sourced (· = new) ∧
      (d'.isApart = true ∨ TornText d'.exprs ∧ new.isName = true) := by
  obtain ⟨i, path, x, y, rfl, hi, hreplaces, rfl⟩ := h
  obtain ⟨span, hspan, hes⟩ := hs
  rw [Document.isApart, List.all_eq_true] at hapart ⊢
  have hkeeps := hreplaces.keeps hnew
    (fun hlast => hkey (by rw [List.getLast?_cons, hlast]; rfl))
    (hes.sourced_of_mem x (List.mem_of_getElem? hi)) (hapart x (List.mem_of_getElem? hi))
  exact ⟨⟨span, hspan, hes.set hi hkeeps.sourced hkeeps.trailing⟩,
    isApart_set_text hapart hkeeps.apart⟩

theorem renderAfter_set {l : Layout} {y y' : Expr} (h : y.RendersAlike l y') (text : String)
    (es : List Expr) (i : Nat) :
    renderAfter l text (es.set i y) = renderAfter l text (es.set i y') := by
  induction es generalizing text i with
  | nil => rfl
  | cons e es ih =>
    cases i with
    | zero => simp only [List.set_cons_zero, renderAfter, h.render]
    | succ i => simp only [List.set_cons_succ, renderAfter, isEmpty_set, ih]

/-- Documents with expressions that are written alike, in the same place. -/
theorem Document.Replaces.exists_alike {l : Layout} {new' : Expr}
    (h : Document.Replaces new path d d') (hs : d.Sourced fun _ => False)
    (hnew : new.RendersAlike l new') :
    ∃ d'', Document.Replaces new' path d d'' ∧ d'.render l = d''.render l ∧
      (d'.dropSpans = d''.dropSpans → new.dropSpans = new'.dropSpans) := by
  obtain ⟨i, path, x, y, rfl, hi, hreplaces, rfl⟩ := h
  obtain ⟨span, hspan, hes⟩ := hs
  obtain ⟨y', hy', halike, hinj⟩ :=
    hreplaces.exists_alike (hes.sourced_of_mem x (List.mem_of_getElem? hi)) hnew
  refine ⟨_, ⟨i, path, x, y', rfl, hi, hy', rfl⟩, renderAfter_set halike _ _ _, fun heq => ?_⟩
  have hexprs := congrArg Document.exprs heq
  simp only [Document.dropSpans, Expr.dropSpansAll_eq_map] at hexprs
  exact hinj (eq_of_map_set hi hexprs)

end Document

end Sexpr
