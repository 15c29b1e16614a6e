/-
Fields without their names.

The options of printing say whether the first field that is written of a record goes without its
name. Its values are then read as its own only if no other field can take one of them: none comes
before it, and none that has room can be reached after it. Else the record is not read at all,
unless the field needs the only value that it has.

* `EncodeOptions.LeadsBare` — whether the first written field goes without its name;
* `OwnsFront` — whether its values can be its own only;
* `RecordDecl.IsPlain.matchTail_front` — how the arguments of such a group are matched.
-/
import Sexpr.Proofs.LeadingValues
import Sexpr.Proofs.RoundTrip
import Sexpr.Proofs.SpanIndependence

namespace Sexpr

/-! ### The first written field -/

/-- Whether the first of the fields that are written goes without its name. -/
def EncodeOptions.LeadsBare (o : EncodeOptions) (labels : FieldDecl → Label) :
    List FieldDecl → Prop
  | [] => False
  | first :: rest => o.singlePositional = true ∧ rest = [] ∨ first.name ∈ o.firstPositional ∨
      (labels first).name ∈ o.firstPositional

/-- Whether the first that has values needs the only one. -/
def NeedsFront : List (Arity × Nat) → Prop
  | [] => True
  | (_, 0) :: rest => NeedsFront rest
  | (a, n + 1) :: _ => a.least = 1 ∧ n = 0

/-- Whether values in front can only be those of the first that has any: it needs the only one,
or it is the very first and all after it are shut. -/
def OwnsFront : List (Arity × Nat) → Prop
  | [] => True
  | (_, 0) :: rest => NeedsFront rest
  | (a, n + 1) :: rest => a.least = 1 ∧ n = 0 ∨ Shut rest

theorem needsFront_append {before after : List (Arity × Nat)} {a : Arity} {n : Nat}
    (hbefore : ∀ x ∈ before, x.2 = 0) (hn : n ≠ 0) :
    NeedsFront (before ++ (a, n) :: after) ↔ a.least = 1 ∧ n = 1 := by
  induction before with
  | nil =>
    obtain ⟨m, rfl⟩ := Nat.exists_eq_succ_of_ne_zero hn
    show a.least = 1 ∧ m = 0 ↔ _
    rw [Nat.succ_eq_add_one, Nat.add_eq_right]
  | cons x before ih =>
    obtain ⟨b, m⟩ := x
    rw [List.forall_mem_cons] at hbefore
    obtain ⟨rfl, hbefore⟩ := hbefore
    exact ih hbefore

theorem ownsFront_append {before after : List (Arity × Nat)} {a : Arity} {n : Nat}
    (hbefore : ∀ x ∈ before, x.2 = 0) (hn : n ≠ 0) :
    OwnsFront (before ++ (a, n) :: after) ↔
      a.least = 1 ∧ n = 1 ∨ before = [] ∧ Shut after := by
  cases before with
  | nil =>
    obtain ⟨m, rfl⟩ := Nat.exists_eq_succ_of_ne_zero hn
    show a.least = 1 ∧ m = 0 ∨ Shut after ↔ _
    rw [Nat.succ_eq_add_one, Nat.add_eq_right]
    simp
  | cons x before =>
    obtain ⟨b, m⟩ := x
    rw [List.forall_mem_cons] at hbefore
    obtain ⟨rfl, hbefore⟩ := hbefore
    show NeedsFront (before ++ (a, n) :: after) ↔ _
    rw [needsFront_append hbefore hn]
    simp

section Written

variable {labels : FieldDecl → Label} {es : FieldDecl → List Expr}

theorem writtenOf_eq_nil {fields : List FieldDecl} (h : ∀ f ∈ fields, es f = []) :
    writtenOf labels es fields = [] :=
  List.flatMap_eq_nil_iff.2 fun f hf => by simp [h f hf]

/-- What is written of fields starts with the first one that has values. -/
theorem writtenOf_append {before after : List FieldDecl} {f : FieldDecl}
    (hbefore : ∀ g ∈ before, es g = []) (hf : es f ≠ []) :
    writtenOf labels es (before ++ f :: after) =
      ⟨f.name, (labels f).name, es f⟩ :: writtenOf labels es after := by
  rw [writtenOf, List.flatMap_append, ← writtenOf, writtenOf_eq_nil hbefore, List.nil_append,
    List.flatMap_cons, if_neg (by simpa using hf)]
  rfl

theorem filter_nonempty_append {before after : List FieldDecl} {f : FieldDecl}
    (hbefore : ∀ g ∈ before, es g = []) (hf : es f ≠ []) :
    (before ++ f :: after).filter (fun g => !(es g).isEmpty) =
      f :: after.filter fun g => !(es g).isEmpty := by
  rw [List.filter_append, List.filter_eq_nil_iff.2, List.nil_append,
    List.filter_cons_of_pos (by simpa using hf)]
  intro g hg
  simp [hbefore g hg]

theorem exists_first (es : FieldDecl → List Expr) (fields : List FieldDecl) :
    (∀ f ∈ fields, es f = []) ∨ ∃ before f after, fields = before ++ f :: after ∧
      (∀ g ∈ before, es g = []) ∧ es f ≠ [] := by
  induction fields with
  | nil => exact .inl (by simp)
  | cons g fields ih =>
    by_cases hg : es g = []
    · rcases ih with hall | ⟨before, f, after, rfl, hbefore, hf⟩
      · exact .inl (List.forall_mem_cons.2 ⟨hg, hall⟩)
      · exact .inr ⟨g :: before, f, after, rfl, List.forall_mem_cons.2 ⟨hg, hbefore⟩, hf⟩
    · exact .inr ⟨[], g, fields, rfl, by simp, hg⟩

theorem writtenOf_eq_nil_iff (labels : FieldDecl → Label) {fields : List FieldDecl} :
    writtenOf labels es fields = [] ↔ fields.filter (fun g => !(es g).isEmpty) = [] := by
  rw [writtenOf, List.flatMap_eq_nil_iff, List.filter_eq_nil_iff]
  refine forall₂_congr fun f _ => ?_
  cases (es f).isEmpty <;> simp

theorem leadsPositional_iff {o : EncodeOptions} {before after : List FieldDecl} {f : FieldDecl}
    (hbefore : ∀ g ∈ before, es g = []) (hf : es f ≠ []) :
    o.leadsPositional ⟨f.name, (labels f).name, es f⟩ (writtenOf labels es after) = true ↔
      o.LeadsBare labels ((before ++ f :: after).filter fun g => !(es g).isEmpty) := by
  rw [filter_nonempty_append hbefore hf, EncodeOptions.LeadsBare, ← writtenOf_eq_nil_iff labels,
    EncodeOptions.leadsPositional]
  simp [or_assoc]

/-- The group of a record whose first written field goes without its name. -/
theorem recordGroup_of_leadsBare {o : EncodeOptions} {before after : List FieldDecl}
    {f : FieldDecl} (hbefore : ∀ g ∈ before, es g = []) (hf : es f ≠ [])
    (h : o.LeadsBare labels ((before ++ f :: after).filter fun g => !(es g).isEmpty))
    (tag : String) :
    recordGroup o tag (writtenOf labels es (before ++ f :: after)) =
      .items .group (.ofName tag ::
        (es f ++ (writtenOf labels es after).flatMap WrittenField.named)) .none := by
  rw [writtenOf_append hbefore hf, recordGroup, (leadsPositional_iff hbefore hf).2 h]
  rfl

/-- The group of a record whose first written field goes with its name, if there is one. -/
theorem recordGroup_of_not_leadsBare {o : EncodeOptions} {fields : List FieldDecl}
    (h : ¬o.LeadsBare labels (fields.filter fun g => !(es g).isEmpty)) (tag : String) :
    recordGroup o tag (writtenOf labels es fields) = .items .group (.ofName tag ::
      (writtenOf labels es fields).flatMap WrittenField.named) .none := by
  rcases exists_first es fields with hall | ⟨before, f, after, rfl, hbefore, hf⟩
  · rw [writtenOf_eq_nil hall]
    rfl
  · rw [← leadsPositional_iff hbefore hf, Bool.not_eq_true] at h
    rw [writtenOf_append hbefore hf, recordGroup, h]
    rfl

end Written

/-! ### Matching -/

section Match

variable {d : RecordDecl} {labels : FieldDecl → Label} {types : FieldDecl → Target}
  {es : FieldDecl → List Expr}

/-- The parameter that a field is. -/
def FieldDecl.param (labels : FieldDecl → Label) (f : FieldDecl) : Parameter :=
  ⟨f.arity (labels f).marker, (labels f).name⟩

theorem params_append {before after : List FieldDecl} {f : FieldDecl}
    (hfields : d.fields = before ++ f :: after) :
    d.params labels = before.map (FieldDecl.param labels) ++ f.param labels ::
      after.map (FieldDecl.param labels) := by
  rw [RecordDecl.params, hfields, List.map_append, List.map_cons]
  rfl

/-- The values in front and those of the blocks after them are what blocks of all fields give. -/
theorem valuesOf_fieldBlocks_append {before after : List FieldDecl} {f : FieldDecl}
    (hbefore : ∀ g ∈ before, es g = []) (name : String) :
    valuesOf (fieldBlocks labels es (before ++ f :: after)) name =
      givenTo (labels f).name (es f) name ++ valuesOf (fieldBlocks labels es after) name := by
  have hnone : fieldBlocks labels es before = [] :=
    List.flatMap_eq_nil_iff.2 fun g hg => by simp only [hbefore g hg]
  rw [fieldBlocks, List.flatMap_append, ← fieldBlocks, hnone, List.nil_append]
  refine (valuesOf_fieldBlocks_cons f after name).trans ?_
  rw [givenTo]
  simp only [eq_comm]

/-- The values of the first written field stand in front of the blocks of the others. -/
theorem RecordDecl.IsPlain.isFront (h : d.IsPlain labels types)
    (hadmits : ∀ f ∈ d.fields, (f.arity (labels f).marker).Admits (es f).length)
    {before after : List FieldDecl} {f : FieldDecl} (hfields : d.fields = before ++ f :: after)
    (hbefore : ∀ g ∈ before, es g = []) (hf : es f ≠ []) :
    IsFront (before.map (FieldDecl.param labels)) (f.param labels)
      (after.map (FieldDecl.param labels)) (es f) (fieldBlocks labels es after) := by
  have hlabels := h.labelNames
  rw [hfields, List.map_append, List.map_cons, List.nodup_middle, List.nodup_cons,
    List.nodup_append, List.mem_append, not_or] at hlabels
  obtain ⟨⟨-, hself⟩, -, hafter, hdisjoint⟩ := hlabels
  rw [hfields, List.forall_mem_append, List.forall_mem_cons] at hadmits
  obtain ⟨hadmitsBefore, hadmitsSelf, hadmitsAfter⟩ := hadmits
  constructor
  case nodup =>
    rw [← params_append hfields]
    exact RecordDecl.nodup_params h.labelNames
  case simple =>
    rw [← params_append hfields]
    intro q hq
    obtain ⟨g, -, rfl⟩ := List.mem_map.1 hq
    exact g.isSimple_arity _
  case fit =>
    intro b hb
    obtain ⟨g, hg, hname, hvalues⟩ := exists_of_mem_fieldBlocks hb
    refine ⟨g.param labels, ?_, hname.symm, ?_⟩
    · exact List.mem_append_right _ (List.mem_cons_of_mem _ (List.mem_map_of_mem hg))
    · rw [hvalues]
      exact (hadmitsAfter g hg).2
  case ne_nil => exact hf
  case before =>
    intro q hq
    obtain ⟨g, hg, rfl⟩ := List.mem_map.1 hq
    have hleast := (hadmitsBefore g hg).1
    rw [hbefore g hg, List.length_nil, Nat.le_zero] at hleast
    refine ⟨hleast, valuesOf_fieldBlocks_of_notMem fun hmem => ?_⟩
    exact hdisjoint _ (List.mem_map_of_mem (f := fun g => (labels g).name) hg) _ hmem rfl
  case self => exact valuesOf_fieldBlocks_of_notMem hself
  case admits => exact hadmitsSelf
  case after =>
    intro q hq
    obtain ⟨g, hg, rfl⟩ := List.mem_map.1 hq
    rw [FieldDecl.param, valuesOf_fieldBlocks hafter hg]
    exact hadmitsAfter g hg

/-- If the first written field goes without its name, the fields are assigned their values if
those in front can be its own only, and otherwise nothing is assigned. -/
theorem RecordDecl.IsPlain.matchTail_front (h : d.IsPlain labels types)
    (hadmits : ∀ f ∈ d.fields, (f.arity (labels f).marker).Admits (es f).length)
    (hvalues : ∀ f ∈ d.fields, ∀ e ∈ es f, e.keyword? = none)
    {before after : List FieldDecl} {f : FieldDecl} (hfields : d.fields = before ++ f :: after)
    (hbefore : ∀ g ∈ before, es g = []) (hf : es f ≠ []) {r : Assignment Expr} :
    matchTail (d.params labels)
        (es f ++ (writtenOf labels es after).flatMap WrittenField.named) = .ok r ↔
      r = d.fields.map (fun g => ((labels g).name, es g)) ∧
        OwnsFront (d.fields.map fun g => (g.arity (labels g).marker, (es g).length)) := by
  have hfront := h.isFront hadmits hfields hbefore hf
  rw [hfields, List.forall_mem_append, List.forall_mem_cons] at hvalues
  have hargs : (es f ++ (writtenOf labels es after).flatMap WrittenField.named).map
      Expr.toArgument = (es f).map .value ++ blockArgs (fieldBlocks labels es after) := by
    rw [List.map_append, map_toArgument hvalues.2.1, map_toArgument_named hvalues.2.2]
  have hlabels : (after.map fun g => (labels g).name).Nodup := by
    have hall := h.labelNames
    rw [hfields] at hall
    exact hall.sublist (((List.sublist_cons_self f after).trans
      (List.sublist_append_right before (f :: after))).map _)
  have hblocks : ∀ g ∈ after, valuesOf (fieldBlocks labels es after) (labels g).name = es g :=
    fun g hg => valuesOf_fieldBlocks hlabels hg
  have hassigned : ∀ g ∈ d.fields, givenTo (labels f).name (es f) (labels g).name ++
      valuesOf (fieldBlocks labels es after) (labels g).name = es g := by
    intro g hg
    rw [← valuesOf_fieldBlocks_append hbefore, ← hfields]
    exact valuesOf_fieldBlocks h.labelNames hg
  have hresult : (d.params labels).map (fun q => (q.name,
      givenTo (f.param labels).name (es f) q.name ++
        valuesOf (fieldBlocks labels es after) q.name)) =
      d.fields.map fun g => ((labels g).name, es g) := by
    rw [RecordDecl.params, List.map_map]
    exact List.map_congr_left fun g hg => congrArg (Prod.mk (labels g).name) (hassigned g hg)
  have hshut : (after.map (FieldDecl.param labels)).map (fun q =>
      (q.arity, (valuesOf (fieldBlocks labels es after) q.name).length)) =
      after.map fun g => (g.arity (labels g).marker, (es g).length) := by
    rw [List.map_map]
    exact List.map_congr_left fun g hg =>
      congrArg (fun values => (g.arity (labels g).marker, values.length)) (hblocks g hg)
  have howns : OwnsFront (d.fields.map fun g => (g.arity (labels g).marker, (es g).length)) ↔
      (f.arity (labels f).marker).least = 1 ∧ (es f).length = 1 ∨
        before = [] ∧ Shut (after.map fun g => (g.arity (labels g).marker, (es g).length)) := by
    rw [hfields, List.map_append, List.map_cons, ownsFront_append (by simpa using hbefore)
      (by simpa using hf), List.map_eq_nil_iff]
  rw [matchTail_eq_ok_iff, hargs, params_append hfields, hfront.matchArguments_eq_ok,
    ← params_append hfields, hresult, hshut, howns, List.map_eq_nil_iff]
  rfl

/-- The values of all fields are among those of the first written one and of the blocks. -/
theorem subset_front {before after : List FieldDecl} {f : FieldDecl}
    (hbefore : ∀ g ∈ before, es g = []) :
    ∀ g ∈ before ++ f :: after,
      es g ⊆ es f ++ (writtenOf labels es after).flatMap WrittenField.named := by
  intro g hg
  rcases List.mem_append.1 hg with hg | hg
  · rw [hbefore g hg]
    exact List.nil_subset _
  · rcases List.mem_cons.1 hg with rfl | hg
    · exact List.subset_append_left _ _
    · exact List.subset_append_of_subset_right _ (subset_named hg)

end Match

/-! ### Decoding -/

theorem DecodesTo.decode {rs : Records} {t : Target} {e : Expr} {v : Value}
    (h : DecodesTo rs t e v) (path : String) : Decoders.decode ⟨rs, [], []⟩ t e path = .ok v := by
  refine h _ path ?_
  rw [Decoders.levels]
  simp

namespace Decoders

/-- Only a group whose arguments are matched is decoded as a record. -/
theorem exists_matchTail_of_decode {rs : Records} {d : RecordDecl} {labels : FieldDecl → Label}
    {types : FieldDecl → Target} (h : d.IsPlain labels types) (hclass : d.cls.isRecord = true)
    (hfind : rs.find? d.cls = some d) {head : Expr} {args : List Expr} {spans : BracketSpans}
    {path : String} {v : Value}
    (hv : decode ⟨rs, [], []⟩ (.cls d.cls) (.items .group (head :: args) spans) path = .ok v) :
    ∃ r, matchTail (d.params labels) args = .ok r := by
  rw [decode_cls hclass hfind] at hv
  obtain ⟨tagSpan, args', spans', plans, assigned, given, hs, hplans, hmatch, -, -⟩ :=
    decodeRecord_eq_ok hv
  cases hs
  obtain rfl := Except.ok.inj (h.plans_eq.symm.trans hplans)
  rw [List.map_map] at hmatch
  exact ⟨assigned, hmatch⟩

end Decoders

section Decode

variable {rs : Records} (hrecords : ∀ d ∈ rs, d.cls.isRecord = true) {d : RecordDecl}
  {labels : FieldDecl → Label} {types : FieldDecl → Target} (h : d.IsPlain labels types)
  (hclass : d.cls.isRecord = true) (hfind : rs.find? d.cls = some d)
  {values : FieldDecl → Value} {parts : FieldDecl → List Value}
  (hholds : ∀ f ∈ d.fields, Holds (labels f).marker (values f) (parts f))
  {es : FieldDecl → List Expr}
  (hes : ∀ f ∈ d.fields, List.Forall₂ (fun e v => e.IsInert ∧ Plain rs (types f) v ∧
    DecodesTo rs (types f) e v) (es f) (parts f))

include h hholds hes

/-- How the arguments of the group of a record are matched whose first written field goes without
its name. -/
theorem matchTail_front_of_holds {before after : List FieldDecl} {f : FieldDecl}
    (hfields : d.fields = before ++ f :: after) (hbefore : ∀ g ∈ before, es g = [])
    (hf : es f ≠ []) {r : Assignment Expr} :
    matchTail (d.params labels)
        (es f ++ (writtenOf labels es after).flatMap WrittenField.named) = .ok r ↔
      r = d.fields.map (fun g => ((labels g).name, es g)) ∧
        OwnsFront (d.fields.map fun g => (g.arity (labels g).marker, (es g).length)) := by
  refine h.matchTail_front (fun g hg => ?_) (fun g hg e he => ?_) hfields hbefore hf
  · rw [(hes g hg).length_eq]
    exact (hholds g hg).admits g
  · exact (((List.forall₂_and_left _ _).1 (hes g hg)).1 e he).keyword?_eq

include hrecords hclass hfind

/-- A record is decoded from its group if the first written field goes without its name, and its
values can be its own only. -/
theorem DecodesTo.front {before after : List FieldDecl} {f : FieldDecl}
    (hfields : d.fields = before ++ f :: after) (hbefore : ∀ g ∈ before, es g = [])
    (hf : es f ≠ [])
    (howns : OwnsFront (d.fields.map fun g => (g.arity (labels g).marker, (es g).length))) :
    DecodesTo rs (.cls d.cls) (.items .group (.ofName d.tag ::
      (es f ++ (writtenOf labels es after).flatMap WrittenField.named)) .none)
      (d.make values) := by
  have hkeys : ((d.fields.map fun g => ((labels g).name, es g)).map Prod.fst).Nodup := by
    rw [List.map_map]
    exact h.labelNames
  refine .record hrecords h hclass hfind hholds hes (hfields ▸ subset_front hbefore)
    ((matchTail_front_of_holds h hholds hes hfields hbefore hf).2 ⟨rfl, howns⟩) fun g hg => ?_
  exact Assignment.getD_of_mem hkeys (List.mem_map_of_mem (f := fun g => ((labels g).name, es g)) hg)

/-- The group of a record is decoded as the record. If the first written field goes without its
name and its values could be those of another field, it is not decoded at all. -/
theorem Decoders.decode_recordGroup (o : EncodeOptions) {path : String} {v : Value} :
    decode ⟨rs, [], []⟩ (.cls d.cls) (recordGroup o d.tag (writtenOf labels es d.fields)) path =
        .ok v ↔
      v = d.make values ∧ (o.LeadsBare labels (d.fields.filter fun f => !(es f).isEmpty) →
        OwnsFront (d.fields.map fun f => (f.arity (labels f).marker, (es f).length))) := by
  by_cases hbare : o.LeadsBare labels (d.fields.filter fun f => !(es f).isEmpty)
  · obtain ⟨before, f, after, hfields, hbefore, hf⟩ : ∃ before f after,
        d.fields = before ++ f :: after ∧ (∀ g ∈ before, es g = []) ∧ es f ≠ [] := by
      refine (exists_first es d.fields).resolve_left fun hall => ?_
      rw [(writtenOf_eq_nil_iff labels).1 (writtenOf_eq_nil hall)] at hbare
      exact hbare
    have hgroup := recordGroup_of_leadsBare hbefore hf (hfields ▸ hbare) d.tag
    rw [← hfields] at hgroup
    rw [hgroup]
    have hread := fun howns => (DecodesTo.front hrecords h hclass hfind hholds hes hfields hbefore
      hf howns).decode path
    constructor
    · intro hv
      obtain ⟨r, hr⟩ := exists_matchTail_of_decode h hclass hfind hv
      have howns := ((matchTail_front_of_holds h hholds hes hfields hbefore hf).1 hr).2
      exact ⟨Except.ok.inj (hv.symm.trans (hread howns)), fun _ => howns⟩
    · rintro ⟨rfl, howns⟩
      exact hread (howns hbare)
  · have hnamed := DecodesTo.named hrecords h hclass hfind hholds hes
    rw [recordGroup_of_not_leadsBare hbare, hnamed.decode path]
    simp [hbare, eq_comm]

end Decode

end Sexpr
