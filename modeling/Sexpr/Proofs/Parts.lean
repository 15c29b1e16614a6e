/-
The parts of an expression.

* `Expr.induction` — what passes from the parts of an expression to the expression holds
  of every expression;
* `Expr.same_iff` — equality of expressions is decided by `Expr.same`;
* `Expr.leaves` — the leaves of an expression, in their order;
* `Expr.keys` — the keys of all its maps;
* `Expr.dropSpans_dropSpans` — spans are dropped at once.
-/
import Sexpr.Expr.Depth
import Sexpr.Expr.Equality

namespace Sexpr

/-- Induction over the items of brackets and the keys and values of maps. -/
@[elab_as_elim]
theorem Expr.induction {P : Expr → Prop} (e : Expr)
    (leaf : ∀ l span, P (.leaf l span))
    (items : ∀ enclosure values spans, (∀ v ∈ values, P v) → P (.items enclosure values spans))
    (map : ∀ fields spans, (∀ f ∈ fields, P f.key ∧ P f.value) → P (.map fields spans))
    (bare : ∀ mark, P (.bare mark)) : P e :=
  match e with
  | .leaf l span => leaf l span
  | .items enclosure values spans =>
    items enclosure values spans fun v _ => Expr.induction v leaf items map bare
  | .map fields spans =>
    map fields spans fun f _ =>
      ⟨Expr.induction f.key leaf items map bare, Expr.induction f.value leaf items map bare⟩
  | .bare mark => bare mark
termination_by e.depth
decreasing_by
  · have := Expr.depth_le_maxDepth ‹v ∈ values›
    rw [Expr.depth]
    omega
  · have := Field.depth_le_maxDepth ‹f ∈ fields›
    rw [Expr.depth]
    omega
  · have := Field.depth_le_maxDepth ‹f ∈ fields›
    rw [Expr.depth]
    omega

/-! ### Equality -/

theorem Expr.sameAll_iff {as bs : List Expr} (ih : ∀ a ∈ as, ∀ b, a.same b = true ↔ a = b) :
    Expr.sameAll as bs = true ↔ as = bs := by
  induction as generalizing bs with
  | nil => cases bs <;> simp [Expr.sameAll]
  | cons a as iha =>
    obtain ⟨ha, has⟩ := List.forall_mem_cons.1 ih
    cases bs with
    | nil => simp [Expr.sameAll]
    | cons b bs => simp [Expr.sameAll, ha, iha has]

theorem Field.sameAll_iff {as bs : List Field}
    (ih : ∀ a ∈ as, (∀ b, a.key.same b = true ↔ a.key = b) ∧
      ∀ b, a.value.same b = true ↔ a.value = b) :
    Field.sameAll as bs = true ↔ as = bs := by
  induction as generalizing bs with
  | nil => cases bs <;> simp [Field.sameAll]
  | cons a as iha =>
    obtain ⟨ha, has⟩ := List.forall_mem_cons.1 ih
    obtain ⟨k, v, s⟩ := a
    cases bs with
    | nil => simp [Field.sameAll]
    | cons b bs =>
      obtain ⟨l, w, t⟩ := b
      simp only [Field.sameAll, Bool.and_eq_true, ha.1, ha.2, iha has, beq_iff_eq]
      simp [and_assoc]

/-- The test for equality tells expressions apart. -/
theorem Expr.same_iff {a b : Expr} : a.same b = true ↔ a = b := by
  induction a using Expr.induction generalizing b with
  | leaf l span => cases b <;> simp [Expr.same]
  | items enclosure values spans ih =>
    cases b with
    | items f bs t => simp [Expr.same, Expr.sameAll_iff fun v hv b => ih v hv, and_assoc]
    | _ => simp [Expr.same]
  | map fields spans ih =>
    cases b with
    | map gs t =>
      simp [Expr.same, Field.sameAll_iff fun f hf => ⟨fun b => (ih f hf).1, fun b => (ih f hf).2⟩]
    | _ => simp [Expr.same]
  | bare mark => cases b <;> simp [Expr.same]

instance : DecidableEq Expr := fun _ _ => decidable_of_iff _ Expr.same_iff

instance : LawfulBEq Expr where
  eq_of_beq := Expr.same_iff.1
  rfl := Expr.same_iff.2 rfl

deriving instance DecidableEq for Document

/-! ### Leaves and keys -/

mutual

/-- The leaves of an expression, in their order. -/
def Expr.leaves : Expr → List Leaf
  | .leaf l _ => [l]
  | .items _ values _ => Expr.leavesAll values
  | .map fields _ => Field.leavesAll fields
  | .bare _ => []

/-- The leaves of expressions. -/
def Expr.leavesAll : List Expr → List Leaf
  | [] => []
  | e :: es => e.leaves ++ Expr.leavesAll es

/-- The leaves of fields. -/
def Field.leavesAll : List (FieldOf Expr) → List Leaf
  | [] => []
  | ⟨k, v, _⟩ :: fs => k.leaves ++ v.leaves ++ Field.leavesAll fs

end

mutual

/-- The keys of all maps of an expression. -/
def Expr.keys : Expr → List Expr
  | .leaf _ _ => []
  | .items _ values _ => Expr.keysAll values
  | .map fields _ => Field.keysAll fields
  | .bare _ => []

/-- The keys of all maps of expressions. -/
def Expr.keysAll : List Expr → List Expr
  | [] => []
  | e :: es => e.keys ++ Expr.keysAll es

/-- The keys of fields, and of all maps of their keys and values. -/
def Field.keysAll : List (FieldOf Expr) → List Expr
  | [] => []
  | ⟨k, v, _⟩ :: fs => k :: (k.keys ++ v.keys ++ Field.keysAll fs)

end

/-- Whether a leaf is a number. -/
def Leaf.isNumber : Leaf → Bool
  | atom _ | string _ => false
  | int _ | real _ | rational _ _ => true

/-- Whether an expression is a number. -/
def Expr.isNumber : Expr → Bool
  | .leaf l _ => l.isNumber
  | _ => false

/-- The leaves of a document, in their order. -/
def Document.leaves (d : Document) : List Leaf := Expr.leavesAll d.exprs

/-- The keys of all maps of a document. -/
def Document.keys (d : Document) : List Expr := Expr.keysAll d.exprs

theorem Expr.mem_leavesAll {l : Leaf} {es : List Expr} :
    l ∈ Expr.leavesAll es ↔ ∃ e ∈ es, l ∈ e.leaves := by
  induction es with
  | nil => simp [Expr.leavesAll]
  | cons e es ih => simp [Expr.leavesAll, ih]

theorem Field.mem_leavesAll {l : Leaf} {fs : List Field} :
    l ∈ Field.leavesAll fs ↔ ∃ f ∈ fs, l ∈ f.key.leaves ∨ l ∈ f.value.leaves := by
  induction fs with
  | nil => simp [Field.leavesAll]
  | cons f fs ih => simp [Field.leavesAll, ih, or_assoc]

theorem Expr.mem_keysAll {k : Expr} {es : List Expr} :
    k ∈ Expr.keysAll es ↔ ∃ e ∈ es, k ∈ e.keys := by
  induction es with
  | nil => simp [Expr.keysAll]
  | cons e es ih => simp [Expr.keysAll, ih]

theorem Field.mem_keysAll {k : Expr} {fs : List Field} :
    k ∈ Field.keysAll fs ↔ ∃ f ∈ fs, k = f.key ∨ k ∈ f.key.keys ∨ k ∈ f.value.keys := by
  induction fs with
  | nil => simp [Field.keysAll]
  | cons f fs ih => simp [Field.keysAll, ih, or_assoc]

/-! ### Texts -/

theorem Expr.texts_eq_map (es : List Expr) : Expr.texts es = es.map Expr.text := by
  induction es with
  | nil => rfl
  | cons e es ih => rw [Expr.texts, List.map_cons, ih]

/-- The text of a field. -/
def Field.text (f : Field) : String :=
  f.key.text ++ (f.separator.map TokenSpans.text).getD ": " ++ f.value.text

theorem Field.texts_eq_map (fs : List Field) : Field.texts fs = fs.map Field.text := by
  induction fs with
  | nil => rfl
  | cons f fs ih =>
    obtain ⟨k, v, s⟩ := f
    rw [Field.texts, List.map_cons, ih]
    rfl

theorem any_congr_of_mem {α : Type} {l : List α} {p q : α → Bool} (h : ∀ x ∈ l, p x = q x) :
    l.any p = l.any q := by
  rw [Bool.eq_iff_iff, List.any_eq_true, List.any_eq_true]
  refine exists_congr fun x => and_congr_right fun hx => ?_
  rw [h x hx]

theorem Expr.anyHasBare_eq_any (es : List Expr) : Expr.anyHasBare es = es.any Expr.hasBare := by
  induction es with
  | nil => rfl
  | cons e es ih => rw [Expr.anyHasBare, List.any_cons, ih]

theorem Field.anyHasBare_eq_any (fs : List Field) :
    Field.anyHasBare fs = fs.any fun f => f.key.hasBare || f.value.hasBare := by
  induction fs with
  | nil => rfl
  | cons f fs ih => rw [Field.anyHasBare, List.any_cons, ih]

/-! ### Spans -/

theorem Expr.dropSpansAll_eq_map (es : List Expr) :
    Expr.dropSpansAll es = es.map Expr.dropSpans := by
  induction es with
  | nil => rfl
  | cons e es ih => rw [Expr.dropSpansAll, List.map_cons, ih]

/-- The same field without spans. -/
def Field.dropSpans (f : Field) : Field := ⟨f.key.dropSpans, f.value.dropSpans, none⟩

theorem Field.dropSpansAll_eq_map (fs : List Field) :
    Field.dropSpansAll fs = fs.map Field.dropSpans := by
  induction fs with
  | nil => rfl
  | cons f fs ih => rw [Field.dropSpansAll, List.map_cons, ih]; rfl

theorem Expr.dropSpans_dropSpans (e : Expr) : e.dropSpans.dropSpans = e.dropSpans := by
  induction e using Expr.induction with
  | leaf l span => rfl
  | items enclosure values spans ih =>
    simp only [Expr.dropSpans, Expr.dropSpansAll_eq_map, List.map_map]
    congr 1
    exact List.map_congr_left ih
  | map fields spans ih =>
    simp only [Expr.dropSpans, Field.dropSpansAll_eq_map, List.map_map]
    congr 1
    refine List.map_congr_left fun f hf => ?_
    simp only [Function.comp, Field.dropSpans, (ih f hf).1, (ih f hf).2]
  | bare mark => rfl

theorem Expr.hasBare_dropSpans (e : Expr) : e.dropSpans.hasBare = e.hasBare := by
  induction e using Expr.induction with
  | leaf l span => rfl
  | items enclosure values spans ih =>
    rw [Expr.dropSpans, Expr.dropSpansAll_eq_map, Expr.hasBare, Expr.hasBare,
      Expr.anyHasBare_eq_any, Expr.anyHasBare_eq_any, List.any_map]
    exact any_congr_of_mem ih
  | map fields spans ih =>
    rw [Expr.dropSpans, Field.dropSpansAll_eq_map, Expr.hasBare, Expr.hasBare,
      Field.anyHasBare_eq_any, Field.anyHasBare_eq_any, List.any_map]
    refine any_congr_of_mem fun f hf => ?_
    simp only [Function.comp, Field.dropSpans, (ih f hf).1, (ih f hf).2]
  | bare mark => rfl

theorem Expr.anyHasSpans_eq_any (es : List Expr) :
    Expr.anyHasSpans es = es.any Expr.hasSpans := by
  induction es with
  | nil => rfl
  | cons e es ih => rw [Expr.anyHasSpans, List.any_cons, ih]

theorem Field.anyHasSpans_eq_any (fs : List Field) : Field.anyHasSpans fs =
    fs.any fun f => f.separator.isSome || f.key.hasSpans || f.value.hasSpans := by
  induction fs with
  | nil => rfl
  | cons f fs ih => rw [Field.anyHasSpans, List.any_cons, ih]

theorem Expr.hasSpans_dropSpans (e : Expr) : e.dropSpans.hasSpans = false := by
  induction e using Expr.induction with
  | leaf l span => rfl
  | items enclosure values spans ih =>
    rw [Expr.dropSpans, Expr.hasSpans, Expr.dropSpansAll_eq_map, Expr.anyHasSpans_eq_any,
      List.any_map]
    show values.any _ = false
    rw [List.any_eq_false]
    intro v hv
    simp [ih v hv]
  | map fields spans ih =>
    rw [Expr.dropSpans, Expr.hasSpans, Field.dropSpansAll_eq_map, Field.anyHasSpans_eq_any,
      List.any_map]
    show fields.any _ = false
    rw [List.any_eq_false]
    intro f hf
    simp [Field.dropSpans, (ih f hf).1, (ih f hf).2]
  | bare mark => rfl

end Sexpr
