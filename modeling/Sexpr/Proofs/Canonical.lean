/-
Reading canonical texts.

The canonical text of a document that was read can be read. What it is read as differs
from the document in two places only: a key that is a number is written right before its
colon and becomes a name, and so does an infinite number wherever it stands.

* `Expr.reread` — what the canonical text of an expression is read as;
* `Expr.Readable.readsBack_reread` — it reads back itself;
* `Expr.reread_eq_iff` — when it is the expression;
* `Document.parse_text_iff` — when a document is read from its canonical text.
-/
import Sexpr.Proofs.Acceptance
import Sexpr.Proofs.RealText

namespace Sexpr

open Numeral

/-! ### Leaves -/

/-- What the text of a leaf is read as. The text of infinity is a name. -/
def Leaf.reread : Leaf → Leaf
  | .real r => if r.isInfinite then .atom r.text else .real r
  | l => l

/-- What the text of a leaf is read as right before a colon. -/
def Leaf.asKey (l : Leaf) : Leaf := if l.isNumber then .atom l.text else l

theorem Leaf.text_reread (l : Leaf) : l.reread.text = l.text := by
  cases l with
  | real r =>
    rw [Leaf.reread]
    split
    · rfl
    · rfl
  | _ => rfl

theorem Leaf.text_asKey (l : Leaf) : l.asKey.text = l.text := by
  unfold Leaf.asKey
  split
  · rfl
  · rfl

theorem Leaf.reread_eq_iff {l : Leaf} :
    l.reread = l ↔ ∀ r, l = .real r → r.isInfinite = false := by
  cases l with
  | real r => simp [Leaf.reread]
  | _ => simp [Leaf.reread]

theorem Leaf.asKey_reread_eq_iff {l : Leaf} :
    l.reread.asKey = l ↔ l.isNumber = false ∧ l.reread = l := by
  cases l with
  | real r =>
    rw [Leaf.reread]
    split_ifs
    · simp [Leaf.asKey, Leaf.isNumber]
    · simp [Leaf.asKey, Leaf.isNumber]
  | _ => simp [Leaf.reread, Leaf.asKey, Leaf.isNumber]

theorem Leaf.asKey_of_isNameToken {l : Leaf} (h : IsNameToken l.text.toList) :
    l.asKey = .atom l.text := by
  cases l with
  | string s => exact absurd (Expr.isName_of_isNameToken h none) (by simp [Expr.isName])
  | _ => rfl

theorem Leaf.readsBack_infinity (neg : Bool) :
    (Leaf.atom (Binary64.infinity neg).text).ReadsBack := by
  have htext : (Binary64.infinity neg).text.toList = signed neg ['i', 'n', 'f'] := by
    cases neg <;> decide +kernel
  refine .inr ⟨?_, ?_⟩
  · rw [Leaf.text, htext]
    refine ⟨?_, List.all_eq_true.1 ?_, ?_⟩
    · cases neg <;> decide
    · cases neg <;> decide +kernel
    · cases neg <;> simp [signed]
  · cases neg <;> decide +kernel

/-- What the text of a leaf is read as reads back. -/
theorem Leaf.Readable.readsBack_reread {l : Leaf} (h : l.Readable) : l.reread.ReadsBack := by
  cases l with
  | real r =>
    obtain ⟨neg, code, rfl⟩ := h
    by_cases hinf : code.val = infinityCode
    -- infinity is read as a name, every other number as itself
    · have hcode : code = ⟨infinityCode, Nat.lt_succ_self _⟩ := Fin.ext hinf
      rw [Leaf.reread, if_pos (by simpa [Binary64.isInfinite] using hinf), hcode]
      exact Leaf.readsBack_infinity neg
    · rw [Leaf.reread, if_neg (by simpa [Binary64.isInfinite] using hinf)]
      exact Leaf.readsBack_of_nameLeaf rfl (Binary64.nameLeaf_text neg hinf)
  | _ => exact h.readsBack (by simp)

/-! ### Expressions -/

/-- What the text of a key is read as. -/
def Expr.asKey : Expr → Expr
  | .leaf l span => .leaf l.asKey span
  | e => e

mutual

/-- What the canonical text of an expression is read as. -/
def Expr.reread : Expr → Expr
  | .leaf l span => .leaf l.reread span
  | .items enclosure values spans => .items enclosure (Expr.rereadAll values) spans
  | .map fields spans => .map (Field.rereadAll fields) spans
  | .bare mark => .bare mark

/-- What the texts of expressions are read as. -/
def Expr.rereadAll : List Expr → List Expr
  | [] => []
  | e :: es => e.reread :: Expr.rereadAll es

/-- What the texts of fields are read as. -/
def Field.rereadAll : List (FieldOf Expr) → List (FieldOf Expr)
  | [] => []
  | ⟨k, v, separator⟩ :: fs => ⟨k.reread.asKey, v.reread, separator⟩ :: Field.rereadAll fs

end

/-- What the text of a field is read as. -/
def Field.reread (f : Field) : Field := ⟨f.key.reread.asKey, f.value.reread, f.separator⟩

theorem Expr.rereadAll_eq_map (es : List Expr) : Expr.rereadAll es = es.map Expr.reread := by
  induction es with
  | nil => rfl
  | cons e es ih => rw [Expr.rereadAll, List.map_cons, ih]

theorem Field.rereadAll_eq_map (fs : List Field) : Field.rereadAll fs = fs.map Field.reread := by
  induction fs with
  | nil => rfl
  | cons f fs ih => rw [Field.rereadAll, List.map_cons, ih]; rfl

theorem Expr.text_asKey (e : Expr) : e.asKey.text = e.text := by
  cases e with
  | leaf l span =>
    cases span with
    | none => exact l.text_asKey
    | some span => rfl
  | _ => rfl

/-- The text stays the same. -/
theorem Expr.text_reread (e : Expr) : e.reread.text = e.text := by
  induction e using Expr.induction with
  | leaf l span =>
    cases span with
    | none => exact l.text_reread
    | some span => rfl
  | items enclosure values spans ih =>
    have htexts : (values.map Expr.reread).map Expr.text = values.map Expr.text := by
      rw [List.map_map]
      exact List.map_congr_left ih
    rw [Expr.reread, Expr.text, Expr.text, Expr.rereadAll_eq_map, Expr.texts_eq_map,
      Expr.texts_eq_map, htexts]
  | map fields spans ih =>
    have htexts : (fields.map Field.reread).map Field.text = fields.map Field.text := by
      rw [List.map_map]
      refine List.map_congr_left fun f hf => ?_
      simp only [Function.comp, Field.reread, Field.text, Expr.text_asKey, (ih f hf).1, (ih f hf).2]
    rw [Expr.reread, Expr.text, Expr.text, Field.rereadAll_eq_map, Field.texts_eq_map,
      Field.texts_eq_map, htexts]
  | bare mark => rfl

theorem Expr.dropSpans_asKey (e : Expr) : e.asKey.dropSpans = e.dropSpans.asKey := by
  cases e with
  | _ => rfl

theorem Expr.dropSpans_reread (e : Expr) : e.reread.dropSpans = e.dropSpans.reread := by
  induction e using Expr.induction with
  | leaf l span => rfl
  | items enclosure values spans ih =>
    simp only [Expr.reread, Expr.dropSpans, Expr.rereadAll_eq_map, Expr.dropSpansAll_eq_map,
      List.map_map]
    congr 1
    exact List.map_congr_left ih
  | map fields spans ih =>
    simp only [Expr.reread, Expr.dropSpans, Field.rereadAll_eq_map, Field.dropSpansAll_eq_map,
      List.map_map]
    congr 1
    refine List.map_congr_left fun f hf => ?_
    simp only [Function.comp, Field.dropSpans, Field.reread, Expr.dropSpans_asKey, (ih f hf).1,
      (ih f hf).2]
  | bare mark => rfl

/-- Right before its colon, every key that can be read becomes a name or is none. -/
theorem Expr.Readable.isKeyAtom_asKey {k : Expr} (h : ¬k.IsKeyAtom → k.Readable) :
    k.reread.asKey.IsKeyAtom ∨ k.reread.asKey.isName = false := by
  by_cases hatom : k.IsKeyAtom
  · obtain ⟨name, span, rfl, htoken⟩ := hatom
    exact .inl ⟨name, span, rfl, htoken⟩
  · cases h hatom with
    | @leaf l span hl =>
      rw [Expr.reread, Expr.asKey]
      rcases hl.readsBack_reread with ⟨s, hs⟩ | ⟨htoken, -⟩
      · rw [hs]
        exact .inr rfl
      · exact .inl ⟨_, span, by rw [Leaf.asKey_of_isNameToken htoken], htoken.append_colon⟩
    | items h => exact .inr rfl
    | map hkeys hvalues => exact .inr rfl

theorem Expr.asKey_of_isName {e : Expr} (h : e.asKey.isName = false) : e.asKey = e := by
  cases e with
  | leaf l span =>
    cases l with
    | string s => rfl
    | _ => exact absurd h (by simp [Expr.asKey, Leaf.asKey, Leaf.isNumber, Expr.isName])
  | _ => rfl

/-- What the canonical text of an expression is read as reads back. -/
theorem Expr.Readable.readsBack_reread {e : Expr} (h : e.Readable) : e.reread.ReadsBack := by
  induction e using Expr.induction with
  | leaf l span =>
    cases h with
    | leaf h => exact .leaf h.readsBack_reread
  | items enclosure values spans ih =>
    cases h with
    | items h =>
      rw [Expr.reread, Expr.rereadAll_eq_map]
      refine .items ?_
      rw [List.forall_mem_map]
      exact fun v hv => ih v hv (h v hv)
  | map fields spans ih =>
    cases h with
    | map hkey hvalue =>
      rw [Expr.reread, Field.rereadAll_eq_map]
      refine .map ?_ ?_ ?_
      · rw [List.forall_mem_map]
        exact fun f hf => Expr.Readable.isKeyAtom_asKey (hkey f hf)
      · rw [List.forall_mem_map]
        intro f hf hname
        -- no atom, since it would be a name
        have hread : f.key.Readable := by
          refine hkey f hf ?_
          rintro ⟨name, span, hatom, -⟩
          rw [Field.reread, hatom] at hname
          exact Bool.noConfusion hname
        show f.key.reread.asKey.ReadsBack
        rw [Expr.asKey_of_isName hname]
        exact (ih f hf).1 hread
      · rw [List.forall_mem_map]
        exact fun f hf => (ih f hf).2 (hvalue f hf)
  | bare mark => cases h

theorem Expr.asKey_reread_eq_iff {k : Expr} :
    k.reread.asKey = k ↔ k.isNumber = false ∧ k.reread = k := by
  cases k with
  | leaf l span => simp [Expr.reread, Expr.asKey, Expr.isNumber, Leaf.asKey_reread_eq_iff]
  | _ => simp [Expr.reread, Expr.asKey, Expr.isNumber]

theorem Field.reread_eq_iff {f : Field} : f.reread = f ↔
    f.key.isNumber = false ∧ f.key.reread = f.key ∧ f.value.reread = f.value := by
  obtain ⟨k, v, separator⟩ := f
  simp [Field.reread, Expr.asKey_reread_eq_iff, and_assoc]

theorem map_eq_self_iff {α : Type} {f : α → α} {l : List α} :
    l.map f = l ↔ ∀ x ∈ l, f x = x := by
  conv_lhs => rw [← List.map_id l, List.map_map]
  exact List.map_inj_left

theorem Expr.map_reread_eq_iff {es : List Expr} (ih : ∀ e ∈ es, e.reread = e ↔
      (∀ k ∈ e.keys, k.isNumber = false) ∧ ∀ r, .real r ∈ e.leaves → r.isInfinite = false) :
    es.map Expr.reread = es ↔ (∀ k ∈ Expr.keysAll es, k.isNumber = false) ∧
      ∀ r, .real r ∈ Expr.leavesAll es → r.isInfinite = false := by
  rw [map_eq_self_iff]
  constructor
  · intro h
    refine ⟨fun k hk => ?_, fun r hr => ?_⟩
    · obtain ⟨e, he, hk⟩ := Expr.mem_keysAll.1 hk
      exact ((ih e he).1 (h e he)).1 k hk
    · obtain ⟨e, he, hr⟩ := Expr.mem_leavesAll.1 hr
      exact ((ih e he).1 (h e he)).2 r hr
  · rintro ⟨hkeys, hreals⟩ e he
    exact (ih e he).2 ⟨fun k hk => hkeys k (Expr.mem_keysAll.2 ⟨e, he, hk⟩),
      fun r hr => hreals r (Expr.mem_leavesAll.2 ⟨e, he, hr⟩)⟩

/-- An expression is what its canonical text is read as if no key is a number and no number
is infinite, and only then. -/
theorem Expr.reread_eq_iff {e : Expr} : e.reread = e ↔
    (∀ k ∈ e.keys, k.isNumber = false) ∧ ∀ r, .real r ∈ e.leaves → r.isInfinite = false := by
  induction e using Expr.induction with
  | leaf l span =>
    rw [Expr.reread, Expr.leaf.injEq, eq_self, and_true, Leaf.reread_eq_iff]
    constructor
    · intro h
      exact ⟨by simp [Expr.keys], fun r hr => h r (List.mem_singleton.1 hr).symm⟩
    · rintro ⟨-, h⟩ r rfl
      exact h r (List.mem_singleton.2 rfl)
  | items enclosure values spans ih =>
    rw [Expr.reread, Expr.rereadAll_eq_map, Expr.items.injEq, eq_self, eq_self, true_and, and_true]
    exact Expr.map_reread_eq_iff ih
  | map fields spans ih =>
    rw [Expr.reread, Field.rereadAll_eq_map, Expr.map.injEq, eq_self, and_true, map_eq_self_iff]
    constructor
    · intro h
      refine ⟨fun k hk => ?_, fun r hr => ?_⟩
      · obtain ⟨f, hf, hk⟩ := Field.mem_keysAll.1 hk
        obtain ⟨hnumber, hkey, hvalue⟩ := Field.reread_eq_iff.1 (h f hf)
        rcases hk with rfl | hk | hk
        · exact hnumber
        · exact ((ih f hf).1.1 hkey).1 k hk
        · exact ((ih f hf).2.1 hvalue).1 k hk
      · obtain ⟨f, hf, hr⟩ := Field.mem_leavesAll.1 hr
        obtain ⟨-, hkey, hvalue⟩ := Field.reread_eq_iff.1 (h f hf)
        rcases hr with hr | hr
        · exact ((ih f hf).1.1 hkey).2 r hr
        · exact ((ih f hf).2.1 hvalue).2 r hr
    · rintro ⟨hkeys, hreals⟩ f hf
      refine Field.reread_eq_iff.2 ⟨?_, (ih f hf).1.2 ⟨?_, ?_⟩, (ih f hf).2.2 ⟨?_, ?_⟩⟩
      · exact hkeys _ (Field.mem_keysAll.2 ⟨f, hf, .inl rfl⟩)
      · exact fun k hk => hkeys k (Field.mem_keysAll.2 ⟨f, hf, .inr (.inl hk)⟩)
      · exact fun r hr => hreals r (Field.mem_leavesAll.2 ⟨f, hf, .inl hr⟩)
      · exact fun k hk => hkeys k (Field.mem_keysAll.2 ⟨f, hf, .inr (.inr hk)⟩)
      · exact fun r hr => hreals r (Field.mem_leavesAll.2 ⟨f, hf, .inr hr⟩)
  | bare mark => simp [Expr.reread, Expr.keys, Expr.leaves]

/-! ### Documents -/

/-- What the canonical text of a document is read as. -/
def Document.reread (d : Document) : Document := ⟨d.exprs.map Expr.reread, d.leading⟩

theorem Document.dropSpans_reread (d : Document) : d.reread.dropSpans = d.dropSpans.reread := by
  simp only [Document.reread, Document.dropSpans, Expr.dropSpansAll_eq_map, List.map_map,
    Document.mk.injEq, and_true]
  exact List.map_congr_left fun e _ => e.dropSpans_reread

theorem Document.text_reread (d : Document) : d.reread.dropSpans.text = d.dropSpans.text := by
  rw [Document.text_dropSpans, Document.text_dropSpans, Document.reread, List.map_map]
  congr 1
  refine List.map_congr_left fun e _ => ?_
  simp only [Function.comp, Expr.dropSpans_reread, Expr.text_reread]

/-- The canonical text of a document that was read can be read. -/
theorem Document.readPlain_text {src : String} {d : Document}
    (h : Document.parse src false = .ok d) : Document.readPlain d.text = .ok d.reread := by
  obtain ⟨hdrop, hread⟩ := Document.readable_of_readPlain h
  have hback : ∀ e ∈ d.reread.exprs, e.ReadsBack := by
    rw [Document.reread, List.forall_mem_map]
    exact fun e he => (hread e he).readsBack_reread
  -- what is read has the same text as the document, so that text is a way to write it
  have hdrop' : d.reread.dropSpans = d.reread := by rw [Document.dropSpans_reread, hdrop]
  have hwritten := Document.writtenAs_text fun e he => (hback e he).hasBare
  rw [Document.text_reread, hdrop] at hwritten
  rw [Document.readPlain_of_writtenAs hback hwritten, hdrop']

/-- The canonical text of a document that was read without spans can be read. It gives the
document again if no key is a number and no real number is infinite, and only then. -/
theorem Document.parse_text_iff {src : String} {d : Document}
    (h : Document.parse src false = .ok d) :
    ∃ d', Document.parse d.text false = .ok d' ∧ (d' = d ↔
      (∀ k ∈ d.keys, k.isNumber = false) ∧ ∀ r, .real r ∈ d.leaves → r.isInfinite = false) := by
  refine ⟨d.reread, Document.readPlain_text h, ?_⟩
  obtain ⟨exprs, leading⟩ := d
  rw [Document.reread, Document.mk.injEq, eq_self, and_true]
  exact Expr.map_reread_eq_iff fun e _ => Expr.reread_eq_iff

/-- A key that is a name is read again from before its colon, and one that is a number is not. -/
theorem Document.parse_text_iff_keys :
    (∃ d, Document.parse "[\x7bk : 1.5\x7d -2/4]" false = .ok d ∧
      Document.parse d.text false = .ok d) ∧
    ∃ d d', Document.parse "[\x7b1 : 1.5\x7d -2/4]" false = .ok d ∧
      Document.parse d.text false = .ok d' ∧ d' ≠ d := by
  obtain ⟨r, hr⟩ : ∃ r, r = Binary64.ofRatio false 3 2 := ⟨_, rfl⟩
  have hname : Document.parse "[\x7bk : 1.5\x7d -2/4]" false = .ok ⟨[.items .sequence
      [.map [⟨.leaf (.atom "k") none, .leaf (.real r) none, none⟩] .none,
        .leaf (.rational (-1) 2) none] .none], none⟩ := by
    rw [hr]
    decide +kernel
  have hnumber : Document.parse "[\x7b1 : 1.5\x7d -2/4]" false = .ok ⟨[.items .sequence
      [.map [⟨.leaf (.int 1) none, .leaf (.real r) none, none⟩] .none,
        .leaf (.rational (-1) 2) none] .none], none⟩ := by
    rw [hr]
    decide +kernel
  constructor
  · obtain ⟨d', hparse, hiff⟩ := Document.parse_text_iff hname
    refine ⟨_, hname, ?_⟩
    rw [hparse, hiff.2 ⟨by rw [hr]; decide +kernel, fun x hx => ?_⟩]
    obtain rfl : x = r := by
      simpa [Document.leaves, Expr.leavesAll, Expr.leaves, Field.leavesAll] using hx
    rw [hr]
    decide +kernel
  · obtain ⟨d', hparse, hiff⟩ := Document.parse_text_iff hnumber
    refine ⟨_, d', hnumber, hparse, fun heq => ?_⟩
    have hkey := (hiff.1 heq).1 (.leaf (.int 1) none)
      (by simp [Document.keys, Expr.keysAll, Expr.keys, Field.keysAll])
    exact absurd hkey (by decide)

end Sexpr
