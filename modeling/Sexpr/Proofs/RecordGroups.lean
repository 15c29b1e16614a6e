/-
Records are decoded from their groups.

In the group of a record each written field is a block of its name and its values. However the
arguments stand there, if they are matched so that each field is assigned the values that are
written of it, then the record is decoded from them.

* `RecordDecl.params`, `fieldBlocks` — the parameters of a record and the blocks of its fields;
* `Decoders.decodeField_of_holds` — the value of a field from its values;
* `Decoders.decodeRecord_of_assigned` — the record from an assignment;
* `RecordDecl.matchTail_named` — the assignment, if all fields go with their names.
-/
import Sexpr.Proofs.Blocks
import Sexpr.Proofs.Parts
import Sexpr.Proofs.PlainValues

namespace Sexpr

/-! ### Parameters -/

/-- The parameters that the fields of a record are. -/
def RecordDecl.params (d : RecordDecl) (labels : FieldDecl → Label) : List Parameter :=
  d.fields.map fun f => ⟨f.arity (labels f).marker, (labels f).name⟩

theorem Marker.Wraps.eq_list {t base : Target} {f : FieldDecl} {marker : Option Marker}
    (h : Marker.Wraps t marker base) (hmany : (f.arity marker).isVariadic = true) :
    base = .list t := by
  cases marker with
  | none =>
    unfold FieldDecl.arity at hmany
    split_ifs at hmany
    · cases hmany
    · cases hmany
  | some m =>
    cases m with
    | optionalArg => cases hmany
    | zeroOrMore => exact h
    | oneOrMore => exact h

/-- A field is read by its label, if it is a list where it takes any number of values. -/
theorem FieldDecl.plan_eq {f : FieldDecl} {label : Label} (hlabel : f.label = .ok label)
    (hlist : (f.arity label.marker).isVariadic = true → ∃ t, f.type.unwrap.1.item? = some t) :
    f.plan = .ok ⟨f, label.name, f.arity label.marker⟩ := by
  have hitem : ((f.arity label.marker).isVariadic && f.type.unwrap.1.item?.isNone) = false := by
    rw [Bool.and_eq_false_imp]
    intro hmany
    obtain ⟨t, ht⟩ := hlist hmany
    rw [ht]
    rfl
  unfold FieldDecl.plan
  rw [hlabel]
  show (if _ then _ else _) = _
  rw [hitem]
  rfl

theorem FieldDecl.IsPlain.plan_eq {f : FieldDecl} {label : Label} {t : Target}
    (h : f.IsPlain label t) : f.plan = .ok ⟨f, label.name, f.arity label.marker⟩ :=
  FieldDecl.plan_eq h.labelled fun hmany => ⟨t, by rw [h.type.eq_list hmany]; rfl⟩

theorem RecordDecl.IsPlain.plans_eq {d : RecordDecl} {labels : FieldDecl → Label}
    {types : FieldDecl → Target} (h : d.IsPlain labels types) :
    d.fields.mapM FieldDecl.plan =
      .ok (d.fields.map fun f => ⟨f, (labels f).name, f.arity (labels f).marker⟩) :=
  mapM_eq_ok fun f hf => (h.fields f hf).plan_eq

/-- A field takes as many values as it holds. -/
theorem Holds.admits {marker : Option Marker} {v : Value} {parts : List Value}
    (h : Holds marker v parts) (f : FieldDecl) : (f.arity marker).Admits parts.length := by
  cases h with
  | one v =>
    unfold FieldDecl.arity
    split_ifs
    · exact ⟨by simp [Arity.optional], by simp [Arity.HasRoom, Arity.optional]⟩
    · exact ⟨by simp [Arity.required], by simp [Arity.HasRoom, Arity.required]⟩
  | nothing => exact ⟨by simp [FieldDecl.arity, Arity.optional], Arity.hasRoom_zero _⟩
  | something hv =>
    exact ⟨by simp [FieldDecl.arity, Arity.optional],
      by simp [Arity.HasRoom, FieldDecl.arity, Arity.optional]⟩
  | zeroOrMore =>
    exact ⟨by simp [FieldDecl.arity, Arity.zeroOrMore],
      by simp [Arity.HasRoom, FieldDecl.arity, Arity.zeroOrMore]⟩
  | oneOrMore v vs =>
    exact ⟨by simp [FieldDecl.arity, Arity.oneOrMore],
      by simp [Arity.HasRoom, FieldDecl.arity, Arity.oneOrMore]⟩

/-! ### Decoding records -/

namespace Decoders

variable {down : DecodeFn}

theorem decodeItems_eq_ok {item : Target} {es : List Expr} {vs : List Value}
    (h : List.Forall₂ (fun e v => ∀ path, down item (.expr e) path = .ok v) es vs) (path : String)
    (i : Nat) : decodeItems down item path i es = .ok vs := by
  induction h generalizing i with
  | nil => rfl
  | cons hv _ ih =>
    rw [decodeItems, hv, ih]
    rfl

/-- A field that takes one value is given it. -/
theorem decodeField_single {plan : FieldPlan}
    (hplan : plan.arity = .required ∨ plan.arity = .optional) {e : Expr} {v : Value}
    (hv : ∀ path, down plan.field.type (.expr e) path = .ok v) (whole : Subject) (path : String) :
    decodeField down plan whole path [e] = .ok (some v) := by
  unfold decodeField
  dsimp only
  rw [hv]
  rcases hplan with hrequired | hoptional
  · rw [if_pos hrequired]
    rfl
  · rw [if_neg (by rw [hoptional]; decide), if_pos hoptional]
    rfl

/-- A field that takes any number of values is given the list of them. -/
theorem decodeField_many {plan : FieldPlan} (harity : plan.arity.isVariadic = true) {t : Target}
    (hitem : plan.field.type.unwrap.1.item? = some t) {es : List Expr} {vs : List Value}
    (h : List.Forall₂ (fun e v => ∀ path, down t (.expr e) path = .ok v) es vs)
    (whole : Subject) (path : String) :
    decodeField down plan whole path es = .ok (some (.list vs)) := by
  have hrequired : plan.arity ≠ .required := fun heq => by rw [heq] at harity; cases harity
  have hoptional : plan.arity ≠ .optional := fun heq => by rw [heq] at harity; cases harity
  unfold decodeField
  dsimp only
  rw [if_neg hrequired, if_neg hoptional, hitem]
  show (decodeItems down t _ 0 es >>= _) = _
  rw [decodeItems_eq_ok h]
  rfl

theorem arity_of_isVariadic {f : FieldDecl} {marker : Option Marker}
    (h : (f.arity marker).isVariadic = false) :
    f.arity marker = .required ∨ f.arity marker = .optional := by
  rcases f.arity_cases marker with harity | harity | harity | harity
  · exact .inl harity
  · exact .inr harity
  · rw [harity] at h
    cases h
  · rw [harity] at h
    cases h

/-- The value of a field is decoded from the values that it holds: one of the type of the field, or
some of the type of its items. -/
theorem decodeField_of_holds {f : FieldDecl} {label : Label} {t : Target} (h : f.IsPlain label t)
    {v : Value} {parts : List Value} (hholds : Holds label.marker v parts) {es : List Expr}
    (hone : (f.arity label.marker).isVariadic = false →
      List.Forall₂ (fun e v => ∀ path, down f.type (.expr e) path = .ok v) es parts)
    (hmany : (f.arity label.marker).isVariadic = true →
      List.Forall₂ (fun e v => ∀ path, down t (.expr e) path = .ok v) es parts)
    (whole : Subject) (path : String) :
    decodeField down ⟨f, label.name, f.arity label.marker⟩ whole path es = .ok (some v) := by
  obtain ⟨name, marker⟩ := label
  dsimp only at *
  have hsingle : (f.arity marker).isVariadic = false → parts = [v] →
      decodeField down ⟨f, name, f.arity marker⟩ whole path es = .ok (some v) := by
    rintro harity rfl
    cases hone harity with
    | cons hv htail =>
      cases htail
      exact decodeField_single (arity_of_isVariadic harity) hv whole path
  cases hholds with
  | one v =>
    refine hsingle ?_ rfl
    unfold FieldDecl.arity
    split_ifs <;> rfl
  | nothing =>
    cases hone rfl
    unfold decodeField
    rw [h.default rfl]
    rfl
  | something hv => exact hsingle rfl rfl
  | zeroOrMore =>
    have hbase : f.type.unwrap.1 = .list t := h.type
    exact decodeField_many rfl (by rw [hbase]; rfl) (hmany rfl) whole path
  | oneOrMore v vs =>
    have hbase : f.type.unwrap.1 = .list t := h.type
    exact decodeField_many rfl (by rw [hbase]; rfl) (hmany rfl) whole path

end Decoders

/-! ### Making records -/

/-- A record without a check is made of values for its fields: those that are given can be given,
and those that are not have a default. -/
theorem RecordDecl.construct_of_given {d : RecordDecl} {given : List (String × Value)}
    (hcheck : d.check = none)
    (hknown : ∀ g ∈ given, ∃ f ∈ d.fields, f.name = g.1 ∧ f.given = true)
    (hmissing : ∀ f ∈ d.fields, f.default = none → (given.lookup f.name).isSome = true) :
    d.construct given = .ok ((coreValue? d.cls ((d.filled given).map Prod.snd)).getD
      (.record d.cls (d.filled given))) := by
  have hunknown : given.find? (fun g => !d.fields.any fun f => f.name == g.1 && f.given) =
      none := by
    rw [List.find?_eq_none]
    intro g hg
    obtain ⟨f, hf, hname, hgiven⟩ := hknown g hg
    rw [Bool.not_eq_true, Bool.not_eq_false', List.any_eq_true]
    exact ⟨f, hf, by simp [hname, hgiven]⟩
  have hrequired : (d.fields.filterMap fun f =>
      if f.given && f.default.isNone && (given.lookup f.name).isNone then some f.name
      else none) = [] := by
    rw [List.filterMap_eq_nil_iff]
    intro f hf
    cases hdefault : f.default with
    | some v => simp
    | none =>
      have hsome := hmissing f hf hdefault
      rw [Option.isSome_iff_ne_none, ne_eq, ← Option.isNone_iff_eq_none] at hsome
      simp [hsome]
  unfold RecordDecl.construct
  dsimp only
  rw [hunknown, hrequired, hcheck]
  rfl

theorem coreValue?_eq_none {c : ClassName} (h : c.isRecord = true) (vs : List Value) :
    coreValue? c vs = none := by
  cases c with
  | record name => rfl
  | pos => rfl
  | _ => cases h

/-- A record is made of values for all its fields. -/
theorem RecordDecl.IsPlain.construct_eq {d : RecordDecl} {labels : FieldDecl → Label}
    {types : FieldDecl → Target} (h : d.IsPlain labels types) (hclass : d.cls.isRecord = true)
    (values : FieldDecl → Value) :
    d.construct (d.fields.map fun f => (f.name, values f)) = .ok (d.make values) := by
  have hlookup : ∀ f ∈ d.fields,
      (d.fields.map fun f => (f.name, values f)).lookup f.name = some (values f) := by
    intro f hf
    refine lookup_of_mem ?_ (List.mem_map_of_mem (f := fun f => (f.name, values f)) hf)
    rw [List.map_map]
    exact h.names
  have hfilled : d.filled (d.fields.map fun f => (f.name, values f)) =
      d.fields.map fun f => (f.name, values f) := by
    calc _ = d.fields.filterMap fun f => some (f.name, values f) :=
          List.filterMap_congr fun f hf => by rw [hlookup f hf]; rfl
      _ = _ := congrFun List.filterMap_eq_map' d.fields
  rw [RecordDecl.construct_of_given h.check, coreValue?_eq_none hclass, hfilled]
  · rfl
  · intro g hg
    obtain ⟨f, hf, rfl⟩ := List.mem_map.1 hg
    exact ⟨f, hf, rfl, (h.fields f hf).given⟩
  · intro f hf _
    rw [hlookup f hf]
    rfl

namespace Decoders

variable {down : DecodeFn} {d : RecordDecl} {labels : FieldDecl → Label}
  {types : FieldDecl → Target}

theorem decodeFields_eq_ok {fields : List FieldDecl} {whole : Subject} {path : String}
    {assigned : Assignment Expr} {values : FieldDecl → Value} {plans : FieldDecl → FieldPlan}
    (hplans : ∀ f, (plans f).field = f)
    (h : ∀ f ∈ fields, decodeField down (plans f) whole path (assigned.getD (plans f).name) =
      .ok (some (values f))) :
    decodeFields down whole path assigned (fields.map plans) =
      .ok (fields.map fun f => (f.name, values f)) := by
  induction fields with
  | nil => rfl
  | cons f fields ih =>
    obtain ⟨hf, hfields⟩ := List.forall_mem_cons.1 h
    rw [List.map_cons, decodeFields, hf, ih hfields, hplans]
    rfl

/-- A record is decoded from a group if its arguments are matched, its fields are decoded and it can
be made of them. -/
theorem decodeRecord_of_construct {plans : List FieldPlan}
    (hplans : d.fields.mapM FieldDecl.plan = .ok plans) {args : List Expr}
    {assigned : Assignment Expr}
    (hmatch : matchTail (plans.map fun p => ⟨p.arity, p.name⟩) args = .ok assigned)
    {tagSpan : Option TokenSpans} {spans : BracketSpans} {path : String}
    {given : List (String × Value)}
    (hfields : decodeFields down
      (.expr (.items .group (.leaf (.atom d.tag) tagSpan :: args) spans)) path assigned plans =
        .ok given) {w : Value} (hw : d.construct given = .ok w) :
    decodeRecord down d (.expr (.items .group (.leaf (.atom d.tag) tagSpan :: args) spans)) path =
      .ok w := by
  simp only [decodeRecord, if_true, hplans, Except.mapError, bind, Except.bind, hmatch, hfields, hw]

/-- A record is decoded from a group whose arguments are matched as the values of its fields. -/
theorem decodeRecord_of_assigned (h : d.IsPlain labels types) (hclass : d.cls.isRecord = true)
    {args : List Expr} {assigned : Assignment Expr}
    (hmatch : matchTail (d.params labels) args = .ok assigned) {values : FieldDecl → Value}
    {parts : FieldDecl → List Value}
    (hholds : ∀ f ∈ d.fields, Holds (labels f).marker (values f) (parts f))
    (hone : ∀ f ∈ d.fields, (f.arity (labels f).marker).isVariadic = false →
      List.Forall₂ (fun e v => ∀ path, down f.type (.expr e) path = .ok v)
        (assigned.getD (labels f).name) (parts f))
    (hmany : ∀ f ∈ d.fields, (f.arity (labels f).marker).isVariadic = true →
      List.Forall₂ (fun e v => ∀ path, down (types f) (.expr e) path = .ok v)
        (assigned.getD (labels f).name) (parts f))
    (tagSpan : Option TokenSpans) (spans : BracketSpans) (path : String) :
    decodeRecord down d (.expr (.items .group (.leaf (.atom d.tag) tagSpan :: args) spans)) path =
      .ok (d.make values) := by
  let plan (f : FieldDecl) : FieldPlan := ⟨f, (labels f).name, f.arity (labels f).marker⟩
  have hplans : d.fields.mapM FieldDecl.plan = .ok (d.fields.map plan) := h.plans_eq
  have hmatch : matchTail ((d.fields.map plan).map fun p => Parameter.mk p.arity p.name) args =
      .ok assigned := by
    rw [List.map_map]
    exact hmatch
  have hfields : decodeFields down
      (.expr (.items .group (.leaf (.atom d.tag) tagSpan :: args) spans)) path assigned
      (d.fields.map plan) = .ok (d.fields.map fun f => (f.name, values f)) :=
    decodeFields_eq_ok (fun _ => rfl) fun f hf => decodeField_of_holds (h.fields f hf)
      (hholds f hf) (hone f hf) (hmany f hf) _ path
  exact decodeRecord_of_construct hplans hmatch hfields (h.construct_eq hclass values)

end Decoders

/-! ### Matching -/

theorem toArgument_ofName (name : String) :
    (Expr.ofName (":" ++ name)).toArgument = .named name := by
  have hname : (":" ++ name).toList = ':' :: name.toList := by
    rw [String.toList_append]
    rfl
  rw [Expr.toArgument, Expr.ofName, Expr.keyword?, hname]
  simp

theorem map_toArgument {es : List Expr} (h : ∀ e ∈ es, e.keyword? = none) :
    es.map Expr.toArgument = es.map .value :=
  List.map_congr_left fun e he => by rw [Expr.toArgument, h e he]

/-- The blocks of the fields that have something written. -/
def fieldBlocks (labels : FieldDecl → Label) (es : FieldDecl → List Expr)
    (fields : List FieldDecl) : List (Block Expr) :=
  fields.flatMap fun f =>
    match es f with
    | [] => []
    | e :: more => [⟨(labels f).name, e, more⟩]

section Blocks

variable {labels : FieldDecl → Label} {es : FieldDecl → List Expr}

theorem map_toArgument_named {fields : List FieldDecl}
    (h : ∀ f ∈ fields, ∀ e ∈ es f, e.keyword? = none) :
    ((writtenOf labels es fields).flatMap WrittenField.named).map Expr.toArgument =
      blockArgs (fieldBlocks labels es fields) := by
  induction fields with
  | nil => rfl
  | cons f fields ih =>
    obtain ⟨hf, hfields⟩ := List.forall_mem_cons.1 h
    have ih := ih hfields
    rw [fieldBlocks, List.flatMap_cons, ← fieldBlocks, writtenOf, List.flatMap_cons, ← writtenOf,
      List.flatMap_append, List.map_append, ih]
    cases hes : es f with
    | nil => rfl
    | cons e more =>
      rw [hes] at hf
      show (WrittenField.named ⟨f.name, (labels f).name, e :: more⟩ ++ []).map _ ++ _ = _
      rw [List.append_nil, WrittenField.named, List.map_cons, toArgument_ofName, map_toArgument hf]
      exact (blockArgs_cons ⟨(labels f).name, e, more⟩ _).symm

theorem valuesOf_fieldBlocks_cons (f : FieldDecl) (fields : List FieldDecl) (name : String) :
    valuesOf (fieldBlocks labels es (f :: fields)) name =
      (if (labels f).name = name then es f else []) ++
        valuesOf (fieldBlocks labels es fields) name := by
  rw [fieldBlocks, List.flatMap_cons, ← fieldBlocks]
  cases es f with
  | nil => rw [ite_self]; rfl
  | cons e more => exact valuesOf_cons ⟨(labels f).name, e, more⟩ _ name

theorem valuesOf_fieldBlocks_of_notMem {fields : List FieldDecl} {name : String}
    (h : name ∉ fields.map fun f => (labels f).name) :
    valuesOf (fieldBlocks labels es fields) name = [] := by
  induction fields with
  | nil => rfl
  | cons f fields ih =>
    rw [List.map_cons, List.mem_cons, not_or] at h
    rw [valuesOf_fieldBlocks_cons, if_neg (Ne.symm h.1), List.nil_append, ih h.2]

/-- The block of a field gives it what is written of it. -/
theorem valuesOf_fieldBlocks {fields : List FieldDecl}
    (hnodup : (fields.map fun f => (labels f).name).Nodup) {f : FieldDecl} (hf : f ∈ fields) :
    valuesOf (fieldBlocks labels es fields) (labels f).name = es f := by
  induction fields with
  | nil => simp at hf
  | cons a fields ih =>
    rw [List.map_cons, List.nodup_cons] at hnodup
    rw [valuesOf_fieldBlocks_cons]
    rcases List.mem_cons.1 hf with rfl | hf
    · rw [if_pos rfl, valuesOf_fieldBlocks_of_notMem hnodup.1, List.append_nil]
    · have hne : (labels a).name ≠ (labels f).name := fun heq =>
        hnodup.1 (heq ▸ List.mem_map_of_mem (f := fun f => (labels f).name) hf)
      rw [if_neg hne, List.nil_append, ih hnodup.2 hf]

end Blocks

theorem RecordDecl.nodup_params {d : RecordDecl} {labels : FieldDecl → Label}
    (hnames : (d.fields.map fun f => (labels f).name).Nodup) :
    ((d.params labels).map (·.name)).Nodup := by
  rw [RecordDecl.params, List.map_map]
  exact hnames

theorem exists_of_mem_fieldBlocks {labels : FieldDecl → Label} {es : FieldDecl → List Expr}
    {fields : List FieldDecl} {b : Block Expr} (h : b ∈ fieldBlocks labels es fields) :
    ∃ f ∈ fields, b.name = (labels f).name ∧ b.values = es f := by
  obtain ⟨f, hf, hb⟩ := List.mem_flatMap.1 h
  refine ⟨f, hf, ?_⟩
  split at hb
  · cases hb
  · rename_i hes
    rw [List.mem_singleton.1 hb, hes]
    exact ⟨rfl, rfl⟩

theorem exists_param_of_mem_fieldBlocks {d : RecordDecl} {labels : FieldDecl → Label}
    {es : FieldDecl → List Expr} {fields : List FieldDecl} (hsub : fields ⊆ d.fields) :
    ∀ b ∈ fieldBlocks labels es fields, ∃ p ∈ d.params labels, p.name = b.name := by
  intro b hb
  obtain ⟨f, hf, hname, -⟩ := exists_of_mem_fieldBlocks hb
  exact ⟨_, List.mem_map_of_mem (hsub hf), hname.symm⟩

/-- If all fields go with their names, each is assigned what is written of it. -/
theorem RecordDecl.matchTail_named {d : RecordDecl} {labels : FieldDecl → Label}
    (hnames : (d.fields.map fun f => (labels f).name).Nodup) {es : FieldDecl → List Expr}
    (hadmits : ∀ f ∈ d.fields, (f.arity (labels f).marker).Admits (es f).length)
    (hvalues : ∀ f ∈ d.fields, ∀ e ∈ es f, e.keyword? = none) :
    ∃ assigned, matchTail (d.params labels)
        ((writtenOf labels es d.fields).flatMap WrittenField.named) = .ok assigned ∧
      ∀ f ∈ d.fields, assigned.getD (labels f).name = es f := by
  have hnodup := RecordDecl.nodup_params hnames
  have hparam : ∀ p ∈ d.params labels,
      p.arity.Admits (valuesOf (fieldBlocks labels es d.fields) p.name).length := by
    intro p hp
    obtain ⟨f, hf, rfl⟩ := List.mem_map.1 hp
    rw [valuesOf_fieldBlocks hnames hf]
    exact hadmits f hf
  have hmatch : matchArguments (d.params labels) (blockArgs (fieldBlocks labels es d.fields)) =
      .ok ((d.params labels).map fun p =>
        (p.name, valuesOf (fieldBlocks labels es d.fields) p.name)) := by
    rw [matchArguments_eq_ending hnodup
      (exists_param_of_mem_fieldBlocks (List.Subset.refl _)) fun p hp => (hparam p hp).2,
      ending_map hnodup fun p => valuesOf (fieldBlocks labels es d.fields) p.name,
      if_pos fun p hp => (hparam p hp).1]
    rfl
  refine ⟨_, by rw [matchTail, map_toArgument_named hvalues, hmatch], fun f hf => ?_⟩
  have hp : Parameter.mk (f.arity (labels f).marker) (labels f).name ∈ d.params labels :=
    List.mem_map_of_mem hf
  have hgiven : valuesOf (fieldBlocks labels es d.fields) (labels f).name = es f :=
    valuesOf_fieldBlocks hnames hf
  exact (Assignment.getD_map hnodup _ hp).trans hgiven

end Sexpr
