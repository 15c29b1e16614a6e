/-
Decoding does not look at spans.

An expression and the same expression without spans are decoded into the same value, or both are
refused, with the same path and the same words. The spans go into what a failure points to, and
into the expressions of its cause, but nowhere else, unless the type asks for expressions.

* `Alike` — results that agree up to where a failure points to and its cause;
* `Mentions`, `ExprFree` — types in which no expressions are asked for;
* `alike_matchTail` — arguments without spans go to the same parameters;
* `Decoders.alike_decodeRecord`, `Decoders.alike_decodeBase` — one level, if the parts are
  decoded alike;
* `Decoders.alike_read` — reading a text with its spans or without them.
-/
import Sexpr.Proofs.Decoding
import Sexpr.Proofs.Parts
import Sexpr.Proofs.Uniqueness

namespace Sexpr

/-! ### Results that agree -/

/-- Results that agree: the same value, or the same failure. Failures to decode agree if they
name the same path, and expected and found the same. -/
inductive Alike {α : Type} : Except Failure α → Except Failure α → Prop
  | ok (a : α) : Alike (.ok a) (.ok a)
  | decode (path expected got : String) {o o' : Option Origin} {c c' : Option Failure}
      {text text' : Option String} :
      Alike (.error (.decode path expected got o c text))
        (.error (.decode path expected got o' c' text'))
  | failure (f : Failure) : Alike (.error f) (.error f)

theorem Alike.refl {α : Type} (x : Except Failure α) : Alike x x := by
  cases x with
  | ok a => exact .ok a
  | error f => exact .failure f

theorem Alike.bind {α β : Type} {x y : Except Failure α} {f g : α → Except Failure β}
    (h : Alike x y) (hf : ∀ a, x = .ok a → Alike (f a) (g a)) : Alike (x >>= f) (y >>= g) := by
  cases h with
  | ok a => exact hf a rfl
  | decode path expected got => exact .decode path expected got
  | failure f => exact .failure f

theorem describe_dropSpans (e : Expr) :
    (Subject.expr e.dropSpans).describe = (Subject.expr e).describe := by
  cases e with
  | items enclosure values spans => cases enclosure <;> rfl
  | _ => rfl

/-- An expression is refused with the same words without its spans. -/
theorem alike_mismatch {α : Type} (path expected : String) (e : Expr) (c c' : Option Failure) :
    Alike (.error (mismatch path expected (.expr e) c) : Except Failure α)
      (.error (mismatch path expected (.expr e.dropSpans) c')) := by
  unfold mismatch
  rw [describe_dropSpans]
  exact .decode path expected _

theorem Expr.values_map {es : List Expr} (h : ∀ e ∈ es, e.dropSpans.value = e.value) :
    Expr.values (es.map Expr.dropSpans) = Expr.values es := by
  induction es with
  | nil => rfl
  | cons e es ih =>
    obtain ⟨he, hes⟩ := List.forall_mem_cons.1 h
    rw [List.map_cons, Expr.values, Expr.values, he, ih hes]

theorem Field.entries_map {fs : List Field}
    (h : ∀ f ∈ fs, f.key.dropSpans.value = f.key.value ∧ f.value.dropSpans.value = f.value.value)
    (es : Entries) : Field.entries (fs.map Field.dropSpans) es = Field.entries fs es := by
  induction fs generalizing es with
  | nil => rfl
  | cons f fs ih =>
    obtain ⟨hf, hfs⟩ := List.forall_mem_cons.1 h
    rw [List.map_cons, Field.dropSpans, Field.entries, Field.entries, hf.1, hf.2]
    simp only [ih hfs]

/-- Spans are not part of the plain value of an expression. -/
theorem Expr.value_dropSpans (e : Expr) : e.dropSpans.value = e.value := by
  induction e using Expr.induction with
  | leaf l span => rfl
  | items enclosure values spans ih =>
    rw [Expr.dropSpans, Expr.dropSpansAll_eq_map, Expr.value, Expr.value, Expr.values_map ih]
  | map fields spans ih =>
    rw [Expr.dropSpans, Field.dropSpansAll_eq_map, Expr.value, Expr.value, Field.entries_map ih]
  | bare mark => rfl

theorem Expr.depth_dropSpans (e : Expr) : e.dropSpans.depth = e.depth := by
  induction e using Expr.induction with
  | leaf l span => rfl
  | items enclosure values spans ih =>
    rw [Expr.dropSpans, Expr.dropSpansAll_eq_map, Expr.depth, Expr.depth]
    congr 1
    induction values with
    | nil => rfl
    | cons v values ihvalues =>
      obtain ⟨hv, hvalues⟩ := List.forall_mem_cons.1 ih
      rw [List.map_cons, Expr.maxDepth, Expr.maxDepth, hv, ihvalues hvalues]
  | map fields spans ih =>
    rw [Expr.dropSpans, Field.dropSpansAll_eq_map, Expr.depth, Expr.depth]
    congr 1
    induction fields with
    | nil => rfl
    | cons f fields ihfields =>
      obtain ⟨hf, hfields⟩ := List.forall_mem_cons.1 ih
      rw [List.map_cons, Field.dropSpans, Field.maxDepth, Field.maxDepth, hf.1, hf.2,
        ihfields hfields]
  | bare mark => rfl

/-! ### Types without expressions -/

/-- A class stands in a type, or in the type of a field of a record that stands in it. -/
inductive Mentions (rs : Records) : Target → ClassName → Prop
  | cls (c : ClassName) : Mentions rs (.cls c) c
  | field {c c' : ClassName} {decl : RecordDecl} {f : FieldDecl} (hdecl : rs.find? c = some decl)
      (hf : f ∈ decl.fields) (h : Mentions rs f.type c') : Mentions rs (.cls c) c'
  | list {item : Target} {c : ClassName} (h : Mentions rs item c) : Mentions rs (.list item) c
  | key {key value : Target} {c : ClassName} (h : Mentions rs key c) :
      Mentions rs (.dict key value) c
  | value {key value : Target} {c : ClassName} (h : Mentions rs value c) :
      Mentions rs (.dict key value) c
  | tuple {items : List Target} {t : Target} {c : ClassName} (ht : t ∈ items)
      (h : Mentions rs t c) : Mentions rs (.tuple items) c
  | quoted {inner : Target} {c : ClassName} (h : Mentions rs inner c) : Mentions rs (.quoted inner) c
  | member {closed : Bool} {members : List Target} {m : Target} {c : ClassName} (hm : m ∈ members)
      (h : Mentions rs m c) : Mentions rs (.unionOf closed members) c
  | annotated {base : Target} {notes : List Note} {c : ClassName} (h : Mentions rs base c) :
      Mentions rs (.annotated base notes) c

/-- The classes whose values hold expressions. -/
def ClassName.holdsExpr : ClassName → Bool
  | .expr _ | .field | .document => true
  | _ => false

/-- No class of expressions stands in a type. -/
def ExprFree (rs : Records) (t : Target) : Prop := ∀ c, Mentions rs t c → c.holdsExpr = false

theorem exprFree_any (rs : Records) : ExprFree rs .any := by
  intro c h
  cases h

theorem ExprFree.unwrap {rs : Records} {t : Target} (h : ExprFree rs t) :
    ExprFree rs t.unwrap.1 := by
  cases t with
  | annotated base notes => exact fun c hc => h c (.annotated hc)
  | _ => exact h

theorem ExprFree.item {rs : Records} {t : Target} (h : ExprFree rs t) :
    ExprFree rs (t.item?.getD .any) := by
  cases t with
  | list item => exact fun c hc => h c (.list hc)
  | _ => exact exprFree_any rs

/-! ### Arguments -/

/-- A field takes one value or any number of them. -/
theorem FieldDecl.isSimple_arity (f : FieldDecl) (marker : Option Marker) :
    (f.arity marker).IsSimple := by
  refine Arity.isSimple_of_mem ?_
  rcases f.arity_cases marker with harity | harity | harity | harity <;> simp [harity]

theorem FieldDecl.isSimple_of_plan {f : FieldDecl} {p : FieldPlan} (h : f.plan = .ok p) :
    p.arity.IsSimple := by
  obtain ⟨label, -, h⟩ := Except.bind_eq_ok.1 h
  dsimp only at h
  split_ifs at h
  · cases h
  · cases h
    exact f.isSimple_arity label.marker

theorem toArgument_dropSpans (e : Expr) :
    e.dropSpans.toArgument = e.toArgument.map Expr.dropSpans := by
  have hkeyword : e.dropSpans.keyword? = e.keyword? := by
    cases e with
    | leaf l span => cases l <;> rfl
    | _ => rfl
  unfold Expr.toArgument
  rw [hkeyword]
  cases e.keyword? with
  | none => rfl
  | some name => rfl

/-- Expressions without spans go to the same parameters, or cannot be matched either. -/
theorem alike_matchTail {params : List Parameter} (hsimple : ∀ p ∈ params, p.arity.IsSimple)
    (args : List Expr) :
    (∃ r, matchTail params args = .ok r ∧
      matchTail params (args.map Expr.dropSpans) = .ok (r.mapValues Expr.dropSpans)) ∨
    (∃ f f', matchTail params args = .error (.arguments f) ∧
      matchTail params (args.map Expr.dropSpans) = .error (.arguments f')) ∨
    ∃ f, matchTail params args = .error (.schema f) ∧
      matchTail params (args.map Expr.dropSpans) = .error (.schema f) := by
  have hmap : (args.map Expr.dropSpans).map Expr.toArgument =
      (args.map Expr.toArgument).map (Argument.map Expr.dropSpans) := by
    rw [List.map_map, List.map_map]
    exact List.map_congr_left fun e _ => toArgument_dropSpans e
  unfold matchTail
  rw [hmap]
  generalize args.map Expr.toArgument = args
  by_cases hnodup : (params.map (·.name)).Nodup
  · have hiff : ∀ r, matchArguments params (args.map (Argument.map Expr.dropSpans)) = .ok r ↔
        ∃ r', matchArguments params args = .ok r' ∧ r = r'.mapValues Expr.dropSpans := fun r =>
      matchArguments_map_eq_ok_iff hnodup hsimple
    by_cases hok : ∃ r, matchArguments params args = .ok r
    · obtain ⟨r, hr⟩ := hok
      exact .inl ⟨r, by rw [hr], by rw [(hiff _).2 ⟨r, hr, rfl⟩]⟩
    · rw [not_exists] at hok
      have hdropped : ∀ r, matchArguments params (args.map (Argument.map Expr.dropSpans)) ≠
          .ok r := by
        intro r hr
        obtain ⟨r', hr', -⟩ := (hiff r).1 hr
        exact hok r' hr'
      obtain ⟨f, hf⟩ := exists_arguments_fault hnodup hsimple hok
      obtain ⟨f', hf'⟩ := exists_arguments_fault hnodup hsimple hdropped
      exact .inr (.inl ⟨f, f', by rw [hf], by rw [hf']⟩)
  · refine .inr (.inr ⟨.duplicateParameters (params.map (·.name)), ?_, ?_⟩)
    · simp [matchArguments, hnodup]
    · simp [matchArguments, hnodup]

namespace Decoders

/-! ### Basic types -/

theorem isWord_dropSpans (words : List String) (e : Expr) :
    isWord words (.expr e.dropSpans) = isWord words (.expr e) := by
  cases e with
  | leaf l span => cases l <;> rfl
  | _ => rfl

theorem alike_decodeStr (e : Expr) (path : String) :
    Alike (decodeStr (.expr e) path) (decodeStr (.expr e.dropSpans) path) := by
  cases e with
  | leaf l span =>
    cases l with
    | string value => exact .ok _
    | atom name => exact .ok _
    | _ => exact alike_mismatch path "str" (.leaf _ span) none none
  | _ => exact alike_mismatch path "str" _ none none

theorem alike_decodeBool (e : Expr) (path : String) :
    Alike (decodeBool (.expr e) path) (decodeBool (.expr e.dropSpans) path) := by
  unfold decodeBool
  rw [isWord_dropSpans, isWord_dropSpans]
  split_ifs
  · exact .ok _
  · exact .ok _
  · exact alike_mismatch path _ e none none

theorem alike_decodeInt (e : Expr) (path : String) :
    Alike (decodeInt (.expr e) path) (decodeInt (.expr e.dropSpans) path) := by
  cases e with
  | leaf l span =>
    cases l with
    | int value => exact .ok _
    | atom name =>
      simp only [decodeInt, Expr.dropSpans]
      cases readInt name with
      | ok i => exact .ok _
      | error f => exact alike_mismatch path "int atom" (.leaf (.atom name) span) _ _
    | _ => exact alike_mismatch path "int atom" (.leaf _ span) none none
  | _ => exact alike_mismatch path "int atom" _ none none

theorem alike_decodeReal (e : Expr) (path : String) :
    Alike (decodeReal (.expr e) path) (decodeReal (.expr e.dropSpans) path) := by
  cases e with
  | leaf l span =>
    cases l with
    | real value => exact .ok _
    | int value => exact .refl _
    | rational num den => exact .refl _
    | atom name =>
      simp only [decodeReal, Expr.dropSpans]
      cases readReal? name with
      | some r => exact .ok _
      | none => exact alike_mismatch path "float atom" (.leaf (.atom name) span) _ _
    | string value => exact alike_mismatch path "float atom" (.leaf (.string value) span) none none
  | _ => exact alike_mismatch path "float atom" _ none none

theorem alike_decodeQuoted {rs : Records} {inner : Target} (h : ExprFree rs (.quoted inner))
    (e : Expr) (path : String) :
    Alike (decodeQuoted inner (.expr e) path) (decodeQuoted inner (.expr e.dropSpans) path) := by
  unfold decodeQuoted
  split
  · have halike := alike_decodeStr e path
    generalize decodeStr (.expr e) path = x, decodeStr (.expr e.dropSpans) path = y at halike
    cases halike with
    | ok v => exact .ok _
    | decode => exact alike_mismatch path "Quoted[str]" e none none
    | failure => exact alike_mismatch path "Quoted[str]" e none none
  · cases h _ (.quoted (.cls _))
  · exact alike_mismatch path _ e none none

/-! ### Lists, dictionaries and records -/

section

variable {rs : Records} {down : DecodeFn}
  (hdown : ∀ t e path, ExprFree rs t → Alike (down t (.expr e) path) (down t (.expr e.dropSpans) path))

include hdown

theorem alike_decodeItems {item : Target} (h : ExprFree rs item) (path : String) (i : Nat)
    (es : List Expr) :
    Alike (decodeItems down item path i es)
      (decodeItems down item path i (es.map Expr.dropSpans)) := by
  induction es generalizing i with
  | nil => exact .ok _
  | cons e es ih =>
    rw [List.map_cons, decodeItems, decodeItems]
    refine (hdown item e _ h).bind fun v _ => ?_
    exact (ih (i + 1)).bind fun vs _ => .ok _

theorem alike_decodeList {item : Target} (h : ExprFree rs item) (e : Expr) (path : String) :
    Alike (decodeList down item (.expr e) path) (decodeList down item (.expr e.dropSpans) path) := by
  cases e with
  | items enclosure values spans =>
    cases enclosure with
    | group => exact alike_mismatch path "sequence []" (.items .group values spans) none none
    | sequence =>
      simp only [decodeList, Expr.dropSpans, Expr.dropSpansAll_eq_map]
      exact (alike_decodeItems hdown h path 0 values).bind fun vs _ => .ok _
  | _ => exact alike_mismatch path "sequence []" _ none none

theorem alike_decodeEntries {key value : Target} (hkey : ExprFree rs key)
    (hvalue : ExprFree rs value) (whole : Expr) (path : String) (i : Nat) (fs : List Field)
    (es : Entries) :
    Alike (decodeEntries down key value (.expr whole) path i fs es)
      (decodeEntries down key value (.expr whole.dropSpans) path i (fs.map Field.dropSpans) es) := by
  induction fs generalizing i es with
  | nil => exact .ok _
  | cons f fs ih =>
    rw [List.map_cons, decodeEntries, decodeEntries]
    refine (hdown key f.key _ hkey).bind fun k _ => ?_
    refine (hdown value f.value _ hvalue).bind fun v _ => ?_
    cases es.put k v with
    | ok es => exact ih (i + 1) es
    | error cause => exact alike_mismatch path "hashable map key" whole _ _

theorem alike_decodeDict {key value : Target} (hkey : ExprFree rs key)
    (hvalue : ExprFree rs value) (e : Expr) (path : String) :
    Alike (decodeDict down key value (.expr e) path)
      (decodeDict down key value (.expr e.dropSpans) path) := by
  cases e with
  | map fields spans =>
    have hentries := alike_decodeEntries hdown hkey hvalue (.map fields spans) path 0 fields []
    simp only [Expr.dropSpans, Field.dropSpansAll_eq_map] at hentries
    simp only [decodeDict, Expr.dropSpans, Field.dropSpansAll_eq_map]
    exact hentries.bind fun es _ => .ok _
  | items enclosure values spans =>
    exact alike_mismatch path "map \x7b\x7d" (.items enclosure values spans) none none
  | _ => exact alike_mismatch path "map \x7b\x7d" _ none none

theorem alike_decodeField {plan : FieldPlan} (h : ExprFree rs plan.field.type) (whole : Expr)
    (path : String) (es : List Expr) :
    Alike (decodeField down plan (.expr whole) path es)
      (decodeField down plan (.expr whole.dropSpans) path (es.map Expr.dropSpans)) := by
  have hone : ∀ e, Alike
      (do return some (← down plan.field.type (.expr e) (path ++ "." ++ plan.field.name)))
      (do return some (← down plan.field.type (.expr e.dropSpans)
        (path ++ "." ++ plan.field.name))) := fun e =>
    (hdown _ e _ h).bind fun v _ => .ok _
  unfold decodeField
  dsimp only
  by_cases hrequired : plan.arity = .required
  · rw [if_pos hrequired, if_pos hrequired]
    match es with
    | [] => exact alike_mismatch path _ whole none none
    | [e] => exact hone e
    | _ :: _ :: _ => exact alike_mismatch path _ whole none none
  rw [if_neg hrequired, if_neg hrequired]
  by_cases hoptional : plan.arity = .optional
  · rw [if_pos hoptional, if_pos hoptional]
    cases es with
    | nil => exact .refl _
    | cons e es => exact hone e
  · rw [if_neg hoptional, if_neg hoptional]
    exact (alike_decodeItems hdown h.unwrap.item _ 0 es).bind fun vs _ => .ok _

theorem alike_decodeFields {plans : List FieldPlan}
    (h : ∀ plan ∈ plans, ExprFree rs plan.field.type) (whole : Expr) (path : String)
    (assigned : Assignment Expr) :
    Alike (decodeFields down (.expr whole) path assigned plans)
      (decodeFields down (.expr whole.dropSpans) path (assigned.mapValues Expr.dropSpans) plans) := by
  induction plans with
  | nil => exact .ok _
  | cons plan plans ih =>
    obtain ⟨hplan, hplans⟩ := List.forall_mem_cons.1 h
    rw [decodeFields, decodeFields, Assignment.getD_mapValues]
    refine (alike_decodeField hdown hplan whole path _).bind fun v _ => ?_
    exact (ih hplans).bind fun rest _ => .ok _

omit hdown in
/-- What is decoded by the tag of a group only looks at groups that start with an atom. -/
theorem alike_of_tag (decode : Expr → Except Failure Value) (path group atom : String)
    (hgroup : ∀ e, (∀ head args spans, e ≠ .items .group (head :: args) spans) →
      decode e = .error (mismatch path group (.expr e) none))
    (hatom : ∀ head args spans, (∀ tag span, head ≠ .leaf (.atom tag) span) →
      decode (.items .group (head :: args) spans) =
        .error (mismatch path atom (.expr head) none))
    (htag : ∀ tag span args spans,
      Alike (decode (.items .group (.leaf (.atom tag) span :: args) spans))
        (decode (.items .group (.leaf (.atom tag) none :: args.map Expr.dropSpans) .none)))
    (e : Expr) : Alike (decode e) (decode e.dropSpans) := by
  by_cases hcons : ∃ head args spans, e = .items .group (head :: args) spans
  · obtain ⟨head, args, spans, rfl⟩ := hcons
    rw [Expr.dropSpans, Expr.dropSpansAll_eq_map, List.map_cons]
    by_cases hleaf : ∃ tag span, head = .leaf (.atom tag) span
    · obtain ⟨tag, span, rfl⟩ := hleaf
      exact htag tag span args spans
    · simp only [not_exists] at hleaf
      rw [hatom head args spans hleaf, hatom head.dropSpans _ _ fun tag span heq => ?_]
      · exact alike_mismatch path atom head none none
      · cases head with
        | leaf l span' =>
          obtain ⟨rfl, -⟩ := Expr.leaf.inj heq
          exact hleaf tag span' rfl
        | _ => cases heq
  · simp only [not_exists] at hcons
    rw [hgroup e hcons, hgroup e.dropSpans fun head args spans heq => ?_]
    · exact alike_mismatch path group e none none
    · cases e with
      | items enclosure values spans' =>
        rw [Expr.dropSpans, Expr.dropSpansAll_eq_map] at heq
        obtain ⟨rfl, hvalues, -⟩ := Expr.items.inj heq
        obtain ⟨head', args', rfl, -, -⟩ := List.map_eq_cons_iff.1 hvalues
        exact hcons head' args' spans' rfl
      | _ => cases heq

/-- A group is decoded into a record alike if the parts of its arguments are. -/
theorem alike_decodeRecord {decl : RecordDecl} (h : ∀ f ∈ decl.fields, ExprFree rs f.type)
    (e : Expr) (path : String) :
    Alike (decodeRecord down decl (.expr e) path)
      (decodeRecord down decl (.expr e.dropSpans) path) := by
  refine alike_of_tag (fun e => decodeRecord down decl (.expr e) path) path
    ("tagged group for " ++ decl.cls.name) ("tag atom for " ++ decl.cls.name) ?_ ?_ ?_ e
  · intro e he
    unfold decodeRecord
    split
    · rename_i hgroup
      exact absurd (Subject.expr.inj hgroup) (he _ _ _)
    · rfl
  · intro head args spans hhead
    simp only [decodeRecord]
  intro tag span args spans
  have hrefuse := fun expected cause cause' => alike_mismatch (α := Value) path expected
    (.items .group (.leaf (.atom tag) span :: args) spans) cause cause'
  simp only [Expr.dropSpans, Expr.dropSpansAll_eq_map, List.map_cons] at hrefuse
  simp only [decodeRecord]
  by_cases htag : tag = decl.tag
  · rw [if_pos htag, if_pos htag]
    refine Alike.bind (.refl _) fun plans hplans => ?_
    obtain ⟨hdeclared, hplan⟩ := FieldDecl.plans_eq_ok (mapError_eq_ok.1 hplans)
    have hfree : ∀ plan ∈ plans, ExprFree rs plan.field.type := fun plan hmem =>
      h _ (hdeclared ▸ List.mem_map_of_mem hmem)
    have hsimple : ∀ p ∈ plans.map fun p => Parameter.mk p.arity p.name, p.arity.IsSimple := by
      simpa using fun p hp => FieldDecl.isSimple_of_plan (hplan p hp)
    rcases alike_matchTail hsimple args with ⟨r, hr, hr'⟩ | ⟨f, f', hf, hf'⟩ | ⟨f, hf, hf'⟩
    · have hfields := alike_decodeFields hdown hfree
        (.items .group (.leaf (.atom tag) span :: args) spans) path r
      simp only [Expr.dropSpans, Expr.dropSpansAll_eq_map, List.map_cons] at hfields
      simp only [hr, hr']
      refine hfields.bind fun given _ => ?_
      cases decl.construct given with
      | ok v => exact .ok v
      | error cause => exact hrefuse _ _ _
    · simp only [hf, hf']
      exact hrefuse _ _ _
    · simp only [hf, hf']
      exact .failure _
  · rw [if_neg htag, if_neg htag]
    exact alike_mismatch path _ (.leaf (.atom tag) span) none none

theorem alike_decodeRecordUnion {decls : List RecordDecl}
    (h : ∀ decl ∈ decls, ∀ f ∈ decl.fields, ExprFree rs f.type) (e : Expr) (path : String) :
    Alike (decodeRecordUnion down decls (.expr e) path)
      (decodeRecordUnion down decls (.expr e.dropSpans) path) := by
  refine alike_of_tag (fun e => decodeRecordUnion down decls (.expr e) path) path
    "tagged group for dataclass union" "tag atom" ?_ ?_ ?_ e
  · intro e he
    unfold decodeRecordUnion
    split
    · rename_i hgroup
      exact absurd (Subject.expr.inj hgroup) (he _ _ _)
    · rfl
  · intro head args spans hhead
    simp only [decodeRecordUnion]
  intro tag span args spans
  simp only [decodeRecordUnion]
  cases sharedTag? [] decls with
  | some shared => exact .failure _
  | none =>
    cases hfind : decls.find? (·.tag = tag) with
    | none => exact alike_mismatch path _ (.leaf (.atom tag) span) none none
    | some decl =>
      have hrecord := alike_decodeRecord hdown (h decl (List.mem_of_find?_eq_some hfind))
        (.items .group (.leaf (.atom tag) span :: args) spans) path
      rwa [Expr.dropSpans, Expr.dropSpansAll_eq_map, List.map_cons, Expr.dropSpans] at hrecord

/-! ### All types -/

theorem alike_decodeClass {c : ClassName} (h : ExprFree rs (.cls c)) (e : Expr) (path : String) :
    Alike (decodeClass ⟨rs, [], []⟩ down c (.expr e) path)
      (decodeClass ⟨rs, [], []⟩ down c (.expr e.dropSpans) path) := by
  unfold decodeClass
  split
  · cases h _ (.cls _)
  · exact alike_decodeStr e path
  · exact alike_decodeBool e path
  · exact alike_decodeInt e path
  · exact alike_decodeReal e path
  · cases hfind : rs.find? c with
    | none => exact alike_mismatch path _ e none none
    | some decl =>
      exact alike_decodeRecord hdown (fun f hf c' hc' => h c' (.field hfind hf hc')) e path

omit hdown in
/-- The members of a union are tried alike if each of them is. -/
theorem alike_decodeMembers {d : Decoders} {members : List Target} {e : Expr} {path : String}
    (h : ∀ m ∈ members,
      Alike (d.decodeBase down m (.expr e) path) (d.decodeBase down m (.expr e.dropSpans) path))
    {first first' : Option Failure} (hfirst : first.isSome = first'.isSome) :
    (∃ v, d.decodeMembers down members first (.expr e) path = .ok (.inr v) ∧
      d.decodeMembers down members first' (.expr e.dropSpans) path = .ok (.inr v)) ∨
    (∃ f f', d.decodeMembers down members first (.expr e) path = .ok (.inl f) ∧
      d.decodeMembers down members first' (.expr e.dropSpans) path = .ok (.inl f') ∧
      f.isSome = f'.isSome) ∨
    ∃ f, d.decodeMembers down members first (.expr e) path = .error f ∧
      d.decodeMembers down members first' (.expr e.dropSpans) path = .error f := by
  induction members generalizing first first' with
  | nil =>
    rw [decodeMembers, decodeMembers]
    exact .inr (.inl ⟨first, first', rfl, rfl, hfirst⟩)
  | cons m ms ih =>
    obtain ⟨hm, hms⟩ := List.forall_mem_cons.1 h
    rw [decodeMembers, decodeMembers]
    by_cases hnone : m.unwrap.1.same .noneType = true
    · rw [if_pos hnone, if_pos hnone]
      exact ih hms hfirst
    rw [if_neg hnone, if_neg hnone]
    -- a failure to decode lets the next member have its turn, any other one is final
    have hnext : ∀ g g' : Failure, (first.or (some g)).isSome = (first'.or (some g')).isSome := by
      intro g g'
      rw [Option.isSome_or, Option.isSome_or, Option.isSome_some, Option.isSome_some, Bool.or_true,
        Bool.or_true]
    generalize d.decodeBase down m (.expr e) path = x,
      d.decodeBase down m (.expr e.dropSpans) path = y at hm
    cases hm with
    | ok v => exact .inl ⟨v, rfl, rfl⟩
    | decode path' expected got => exact ih hms (hnext _ _)
    | failure f =>
      cases f with
      | decode path' expected got o c text => exact ih hms (hnext _ _)
      | _ => exact .inr (.inr ⟨_, rfl, rfl⟩)

/-- What one level makes of an expression and of the same one without spans. -/
theorem alike_decodeBase (t : Target) (h : ExprFree rs t) (e : Expr) (path : String) :
    Alike (decodeBase ⟨rs, [], []⟩ down t (.expr e) path)
      (decodeBase ⟨rs, [], []⟩ down t (.expr e.dropSpans) path) := by
  have hregistered : registered? ⟨rs, [], []⟩ t = none := by
    cases t <;> rfl
  unfold decodeBase
  rw [hregistered]
  dsimp only
  cases t with
  | any =>
    dsimp only
    rw [Expr.value_dropSpans]
    exact .refl _
  | cls c => exact alike_decodeClass hdown h e path
  | bareList => exact alike_decodeList hdown (exprFree_any rs) e path
  | bareDict => exact alike_decodeDict hdown (exprFree_any rs) (exprFree_any rs) e path
  | list item => exact alike_decodeList hdown (fun c hc => h c (.list hc)) e path
  | dict key value =>
    exact alike_decodeDict hdown (fun c hc => h c (.key hc)) (fun c hc => h c (.value hc)) e path
  | tuple items => exact alike_mismatch path _ e none none
  | quoted inner => exact alike_decodeQuoted h e path
  | literal values => exact alike_mismatch path _ e none none
  | unionOf closed members =>
    dsimp only
    cases hmembers : recordMembers? ⟨rs, [], []⟩ members with
    | some decls =>
      refine alike_decodeRecordUnion hdown (fun decl hdecl f hf c hc => ?_) e path
      obtain ⟨m, hm, c', hc', hfind⟩ := mem_of_recordMembers? hmembers hdecl
      exact (ExprFree.unwrap fun c hc => h c (.member hm hc)) c (hc' ▸ .field hfind hf hc)
    | none =>
      dsimp only
      rw [isWord_dropSpans]
      split_ifs
      · exact .ok _
      · have hall : ∀ m ∈ members, Alike (decodeBase ⟨rs, [], []⟩ down m (.expr e) path)
            (decodeBase ⟨rs, [], []⟩ down m (.expr e.dropSpans) path) := fun m hm =>
          alike_decodeBase m (fun c hc => h c (.member hm hc)) e path
        have hfirst : (none : Option Failure).isSome = (none : Option Failure).isSome := rfl
        rcases alike_decodeMembers hall hfirst with
          ⟨v, hv, hv'⟩ | ⟨f, f', hf, hf', hsome⟩ | ⟨f, hf, hf'⟩
        · rw [hv, hv']
          exact .ok v
        · rw [hf, hf']
          cases f with
          | none =>
            cases f' with
            | none => exact alike_mismatch path _ e none none
            | some cause' => cases hsome
          | some cause =>
            cases f' with
            | none => cases hsome
            | some cause' => exact alike_mismatch path _ e _ _
        · rw [hf, hf']
          exact .failure f
  | annotated base notes => exact alike_decodeBase base (fun c hc => h c (.annotated hc)) e path
termination_by t

theorem alike_decodeBy (t : Target) (h : ExprFree rs t) (e : Expr) (path : String) :
    Alike (decodeBy ⟨rs, [], []⟩ down t (.expr e) path)
      (decodeBy ⟨rs, [], []⟩ down t (.expr e.dropSpans) path) := by
  cases t with
  | annotated base notes =>
    have hbase := alike_decodeBase hdown base (fun c hc => h c (.annotated hc)) e path
    rw [decodeBy, decodeBy]
    split
    · exact .failure _
    · exact hbase
    · exact hbase
  | _ => exact alike_decodeBase hdown _ h e path

end

theorem alike_decodeWithin {rs : Records} (n : Nat) (t : Target) (e : Expr) (path : String)
    (h : ExprFree rs t) :
    Alike (decodeWithin ⟨rs, [], []⟩ n t (.expr e) path)
      (decodeWithin ⟨rs, [], []⟩ n t (.expr e.dropSpans) path) := by
  induction n generalizing t e path with
  | zero => exact .failure _
  | succ n ih => exact alike_decodeBy ih t h e path

/-- An expression is decoded like the same one without spans. -/
theorem alike_decode {rs : Records} {t : Target} (h : ExprFree rs t) (e : Expr) (path : String) :
    Alike (decode ⟨rs, [], []⟩ t e path) (decode ⟨rs, [], []⟩ t e.dropSpans path) := by
  have hlevels : levels ⟨rs, [], []⟩ e.dropSpans = levels ⟨rs, [], []⟩ e := by
    rw [levels, levels, Expr.depth_dropSpans]
  unfold decode
  rw [hlevels]
  exact alike_decodeWithin _ t e path h

/-! ### Source texts -/

theorem onlyExpr_dropSpans (doc : Document) :
    onlyExpr doc.dropSpans = (onlyExpr doc).map Expr.dropSpans := by
  unfold onlyExpr
  rw [Document.dropSpans, Expr.dropSpansAll_eq_map]
  match doc.exprs with
  | [] => rfl
  | [e] => rfl
  | _ :: _ :: _ => simp [Except.map]

/-- Reading a text does not depend on whether its spans are kept: the values that come out are the
same, or the failures agree, if no expressions are asked for and no decoders come from outside. -/
theorem alike_read {rs : Records} {t : Target} (h : ExprFree rs t) (src : String) :
    readOne ⟨rs, [], []⟩ t src = read ⟨rs, [], []⟩ (some t) src true ∧
      Alike (read ⟨rs, [], []⟩ (some t) src true) (read ⟨rs, [], []⟩ (some t) src false) := by
  refine ⟨rfl, ?_⟩
  have hparse : ∀ src, Document.parse src false = (Document.parse src true).map Document.dropSpans :=
    fun _ => rfl
  unfold read
  rw [hparse]
  cases Document.parse src true with
  | error f => exact .failure _
  | ok doc =>
    show Alike (onlyExpr doc >>= _) (onlyExpr doc.dropSpans >>= _)
    rw [onlyExpr_dropSpans]
    cases onlyExpr doc with
    | error f => exact .failure f
    | ok e => exact alike_decode h e rootPath

/-- A position whose last part is no integer is refused with its spans as well as without them. -/
theorem alike_read_refused :
    ExprFree [] (.cls .pos) ∧
      readOne ⟨[], [], []⟩ (.cls .pos) "(pos 1 :index a :col 2)" =
        read ⟨[], [], []⟩ (some (.cls .pos)) "(pos 1 :index a :col 2)" true ∧
      Alike (read ⟨[], [], []⟩ (some (.cls .pos)) "(pos 1 :index a :col 2)" true)
        (read ⟨[], [], []⟩ (some (.cls .pos)) "(pos 1 :index a :col 2)" false) := by
  have hint : ExprFree [] (.cls .int) := by
    intro c h
    cases h with
    | cls => rfl
    | field hdecl => cases hdecl
  have hpos : ExprFree [] (.cls .pos) := by
    intro c h
    cases h with
    | cls => rfl
    | field hdecl hf h =>
      cases hdecl
      simp only [RecordDecl.plain, List.mem_cons, List.not_mem_nil, or_false] at hf
      rcases hf with rfl | rfl | rfl <;> exact hint c h
  exact ⟨hpos, alike_read hpos _⟩

end Decoders

end Sexpr
