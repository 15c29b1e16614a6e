/-
Decoded values are of their types.

`Inhabits rs t e v` says that a value is of a type: its items, its keys and values, and the
fields of its records are of theirs. The value was decoded from an expression, which matters for
records only, since it tells which of their fields are left out. A field that is left out holds
its default, or nothing if it has none; one that takes any number of values holds the list of
them, also if there are none and it has a default.

* `Inhabits` — values of a type, by rules that follow the types;
* `Decoders.inhabits_of_decodeRecord`, `Decoders.inhabits_of_decodeBase` — one level, if the
  parts are decoded into values of their types;
* `Decoders.inhabits_of_decode` — decoding gives values of the type, if no decoders come from
  outside.
-/
import Sexpr.Proofs.Decoding

namespace Sexpr

/-! ### Values of a type -/

/-- The values of the class of a record: records, and the expressions, fields and documents that
the records of the notation stand for. -/
inductive Value.IsRecord : ClassName → Value → Prop
  | record (c : ClassName) (fields : List (String × Value)) : IsRecord c (.record c fields)
  | expr {kind : ExprClass} {e : Expr} (h : kind.admits e = true) : IsRecord (.expr kind) (.expr e)
  | field (f : Field) : IsRecord .field (.field f)
  | document (d : Document) : IsRecord .document (.document d)

mutual

/-- The value, decoded from the expression, is of the type. -/
inductive Inhabits (rs : Records) : Target → Expr → Value → Prop
  | any (e : Expr) (v : Value) : Inhabits rs .any e v
  | str (e : Expr) (s : String) : Inhabits rs (.cls .str) e (.str s)
  | int (e : Expr) (i : Int) : Inhabits rs (.cls .int) e (.int i)
  | float (e : Expr) (r : Binary64) : Inhabits rs (.cls .float) e (.real r)
  | bool (e : Expr) (b : Bool) : Inhabits rs (.cls .bool) e (.bool b)
  | nothing (e : Expr) : Inhabits rs (.cls .none) e .nothing
  | expr (e : Expr) {kind : ExprClass} {e' : Expr} (h : kind.admits e' = true) :
      Inhabits rs (.cls (.expr kind)) e (.expr e')
  | quotedStr (e : Expr) (mark : Mark) (s : String) :
      Inhabits rs (.quoted (.cls .str)) e (.quoted mark (.str s))
  | quotedExpr (e : Expr) (mark : Mark) {kind : ExprClass} {e' : Expr}
      (h : kind.admits e' = true) :
      Inhabits rs (.quoted (.cls (.expr kind))) e (.quoted mark (.expr e'))
  | list {item : Target} {es : List Expr} {spans : BracketSpans} {vs : List Value}
      (h : InhabitsAll rs item es vs) :
      Inhabits rs (.list item) (.items .sequence es spans) (.list vs)
  | bareList {es : List Expr} {spans : BracketSpans} {vs : List Value}
      (h : InhabitsAll rs .any es vs) :
      Inhabits rs .bareList (.items .sequence es spans) (.list vs)
  | dict {key value : Target} {fields : List Field} {spans : BracketSpans} {entries : Entries}
      (hkeys : ∀ entry ∈ entries, InhabitsOne rs key (fields.map (·.key)) entry.1)
      (hvalues : ∀ entry ∈ entries, InhabitsOne rs value (fields.map (·.value)) entry.2) :
      Inhabits rs (.dict key value) (.map fields spans) (.dict false entries)
  | bareDict {fields : List Field} {spans : BracketSpans} {entries : Entries}
      (hkeys : ∀ entry ∈ entries, InhabitsOne rs .any (fields.map (·.key)) entry.1)
      (hvalues : ∀ entry ∈ entries, InhabitsOne rs .any (fields.map (·.value)) entry.2) :
      Inhabits rs .bareDict (.map fields spans) (.dict false entries)
  | union {closed : Bool} {members : List Target} {m : Target} {e : Expr} {v : Value}
      (hm : m ∈ members) (h : Inhabits rs m e v) : Inhabits rs (.unionOf closed members) e v
  | annotated {base : Target} {notes : List Note} {e : Expr} {v : Value}
      (h : Inhabits rs base e v) : Inhabits rs (.annotated base notes) e v
  /-- A record of a declared class has a value for each field, in their order. -/
  | record {c : ClassName} {decl : RecordDecl} {tagSpan : Option TokenSpans} {args : List Expr}
      {spans : BracketSpans} {plans : List FieldPlan} {assigned : Assignment Expr}
      {fields : List (String × Value)} {v : Value} (hdecl : rs.find? c = some decl)
      (hplans : decl.fields.mapM FieldDecl.plan = .ok plans)
      (hassigned : matchTail (plans.map fun p => ⟨p.arity, p.name⟩) args = .ok assigned)
      (hfields : InhabitsFields rs assigned plans fields)
      (hvalue : v = (coreValue? c (fields.map Prod.snd)).getD (.record c fields))
      (hclass : v.IsRecord c) :
      Inhabits rs (.cls c) (.items .group (.leaf (.atom decl.tag) tagSpan :: args) spans) v

/-- The values, decoded one by one from the expressions, are of the type. -/
inductive InhabitsAll (rs : Records) : Target → List Expr → List Value → Prop
  | nil {t : Target} : InhabitsAll rs t [] []
  | cons {t : Target} {e : Expr} {es : List Expr} {v : Value} {vs : List Value}
      (h : Inhabits rs t e v) (hs : InhabitsAll rs t es vs) : InhabitsAll rs t (e :: es) (v :: vs)

/-- The value, decoded from one of the expressions, is of the type. -/
inductive InhabitsOne (rs : Records) : Target → List Expr → Value → Prop
  | intro {t : Target} {es : List Expr} {e : Expr} {v : Value} (he : e ∈ es)
      (h : Inhabits rs t e v) : InhabitsOne rs t es v

/-- The value is one of the field, which was given the expressions. -/
inductive InhabitsField (rs : Records) : FieldPlan → List Expr → Value → Prop
  | given {plan : FieldPlan} {e : Expr} {v : Value} (harity : plan.arity.isVariadic = false)
      (h : Inhabits rs plan.field.type e v) : InhabitsField rs plan [e] v
  | default {plan : FieldPlan} {d : Default} (harity : plan.arity = .optional)
      (hd : plan.field.default = some d) : InhabitsField rs plan [] d.value
  | omitted {plan : FieldPlan} (harity : plan.arity = .optional)
      (hd : plan.field.default = none) : InhabitsField rs plan [] .nothing
  | many {plan : FieldPlan} {item : Target} {es : List Expr} {vs : List Value}
      (harity : plan.arity.isVariadic = true)
      (hitem : plan.field.type.unwrap.1.item? = some item) (h : InhabitsAll rs item es vs)
      (hleast : plan.arity.least ≤ vs.length) : InhabitsField rs plan es (.list vs)

/-- The values are ones of the fields, which were assigned expressions by their names. -/
inductive InhabitsFields (rs : Records) :
    Assignment Expr → List FieldPlan → List (String × Value) → Prop
  | nil {assigned : Assignment Expr} : InhabitsFields rs assigned [] []
  | cons {assigned : Assignment Expr} {plan : FieldPlan} {plans : List FieldPlan} {v : Value}
      {fields : List (String × Value)} (h : InhabitsField rs plan (assigned.getD plan.name) v)
      (hs : InhabitsFields rs assigned plans fields) :
      InhabitsFields rs assigned (plan :: plans) ((plan.field.name, v) :: fields)

end

-- a value of another type is none of the type, wherever it stands
example (rs : Records) (e : Expr) : ¬ Inhabits rs (.list (.cls .int)) e (.list [.str "a"]) := by
  intro h
  cases h with
  | list h =>
    cases h with
    | cons h _ =>
      cases h with
      | record _ _ _ _ _ hclass => cases hclass

/-- The notes of a type do not matter. -/
theorem Inhabits.of_unwrap {rs : Records} {t : Target} {e : Expr} {v : Value}
    (h : Inhabits rs t.unwrap.1 e v) : Inhabits rs t e v := by
  cases t with
  | annotated base notes => exact .annotated h
  | _ => exact h

/-- Nothing is of a union with the type of nothing. -/
theorem inhabits_nothing {rs : Records} {closed : Bool} {members : List Target} {e : Expr}
    (h : members.any (·.unwrap.1.same .noneType) = true) :
    Inhabits rs (.unionOf closed members) e .nothing := by
  obtain ⟨m, hm, hsame⟩ := List.any_eq_true.1 h
  refine .union hm (.of_unwrap ?_)
  rw [eq_noneType_of_same hsame]
  exact .nothing e

theorem InhabitsAll.length_eq {rs : Records} {t : Target} {es : List Expr} {vs : List Value}
    (h : InhabitsAll rs t es vs) : es.length = vs.length := by
  induction vs generalizing es with
  | nil =>
    cases h
    rfl
  | cons v vs ih =>
    cases h with
    | cons _ hs => rw [List.length_cons, List.length_cons, ih hs]

/-- What a record of the notation stands for is of its class. -/
theorem isRecord_of_coreValue? {c : ClassName} {values : List Value} {v : Value}
    (h : coreValue? c values = some v) : v.IsRecord c := by
  unfold coreValue? at h
  split at h
  all_goals
    simp only [bind, Option.bind_eq_some_iff, pure, Option.some.injEq, reduceCtorEq] at h
  any_goals (obtain ⟨_, _, rfl⟩ := h; exact .expr rfl)
  any_goals (obtain ⟨_, _, _, _, rfl⟩ := h; exact .expr rfl)
  · obtain ⟨_, _, rfl⟩ := h
    exact .field _
  · obtain ⟨_, _, _, _, rfl⟩ := h
    exact .document _

namespace Decoders

section

variable {rs : Records} {down : DecodeFn}
  (hdown : ∀ t e path v, down t (.expr e) path = .ok v → Inhabits rs t e v)

include hdown

/-! ### Lists and dictionaries -/

theorem inhabitsAll_of_decodeItems {item : Target} {path : String} {i : Nat} {es : List Expr}
    {vs : List Value} (h : decodeItems down item path i es = .ok vs) :
    InhabitsAll rs item es vs := by
  have hitems := forall₂_decodeItems h
  clear h
  induction hitems with
  | nil => exact .nil
  | cons hv _ ih =>
    obtain ⟨p, hv⟩ := hv
    exact .cons (hdown _ _ p _ hv) ih

theorem exists_of_decodeList {item : Target} {e : Expr} {path : String} {v : Value}
    (h : decodeList down item (.expr e) path = .ok v) :
    ∃ es spans vs, e = .items .sequence es spans ∧ v = .list vs ∧ InhabitsAll rs item es vs := by
  unfold decodeList at h
  split at h
  · rename_i es spans he
    obtain ⟨vs, hvs, h⟩ := Except.bind_eq_ok.1 h
    cases h
    cases he
    exact ⟨es, spans, vs, rfl, rfl, inhabitsAll_of_decodeItems hdown hvs⟩
  · cases h

theorem exists_of_decodeDict {key value : Target} {e : Expr} {path : String} {v : Value}
    (h : decodeDict down key value (.expr e) path = .ok v) :
    ∃ fields spans entries, e = .map fields spans ∧ v = .dict false entries ∧
      ∀ entry ∈ entries, InhabitsOne rs key (fields.map (·.key)) entry.1 ∧
        InhabitsOne rs value (fields.map (·.value)) entry.2 := by
  unfold decodeDict at h
  split at h
  · rename_i fields spans he
    obtain ⟨entries, hentries, h⟩ := Except.bind_eq_ok.1 h
    cases h
    cases he
    refine ⟨fields, spans, entries, rfl, rfl, forall_decodeEntries ?_ ?_ (by simp) hentries⟩
    · intro f hf p k hk
      exact .intro (List.mem_map_of_mem hf) (hdown key f.key p k hk)
    · intro f hf p v hv
      exact .intro (List.mem_map_of_mem hf) (hdown value f.value p v hv)
  · cases h

/-! ### Records -/

/-- A field holds a value of its type, or its default, or nothing, or a list. -/
theorem inhabitsField_of_decodeField {plan : FieldPlan} {whole : Subject} {path : String}
    {es : List Expr} {given : Option Value}
    (hplan : plan.arity = .required ∨ plan.arity = .optional ∨
      plan.arity.isVariadic = true ∧ ∃ item, plan.field.type.unwrap.1.item? = some item)
    (hadmits : plan.arity.Admits es.length)
    (h : decodeField down plan whole path es = .ok given) :
    ∃ v, given.or (plan.field.default.map Default.value) = some v ∧
      InhabitsField rs plan es v := by
  unfold decodeField at h
  dsimp only at h
  rcases hplan with hrequired | hoptional | ⟨hvariadic, item, hitem⟩
  · rw [if_pos hrequired] at h
    split at h
    · obtain ⟨v, hv, h⟩ := Except.bind_eq_ok.1 h
      cases h
      exact ⟨v, rfl, .given (by rw [hrequired]; rfl) (hdown _ _ _ v hv)⟩
    · cases h
  · rw [if_neg (by rw [hoptional]; decide), if_pos hoptional] at h
    cases es with
    | nil =>
      cases hd : plan.field.default with
      | none =>
        rw [hd] at h
        cases h
        exact ⟨.nothing, rfl, .omitted hoptional hd⟩
      | some d =>
        rw [hd] at h
        cases h
        exact ⟨d.value, rfl, .default hoptional hd⟩
    | cons e es =>
      -- there is no room for a second value
      have hnil : es = [] := by
        have hroom := hadmits.2
        rw [hoptional] at hroom
        simpa [Arity.HasRoom, Arity.optional] using hroom
      subst hnil
      obtain ⟨v, hv, h⟩ := Except.bind_eq_ok.1 h
      cases h
      exact ⟨v, rfl, .given (by rw [hoptional]; rfl) (hdown _ _ _ v hv)⟩
  · have hrequired : plan.arity ≠ .required := by
      intro heq
      rw [heq] at hvariadic
      cases hvariadic
    have hoptional : plan.arity ≠ .optional := by
      intro heq
      rw [heq] at hvariadic
      cases hvariadic
    rw [if_neg hrequired, if_neg hoptional, hitem] at h
    obtain ⟨vs, hvs, h⟩ := Except.bind_eq_ok.1 h
    cases h
    have hall := inhabitsAll_of_decodeItems hdown hvs
    exact ⟨.list vs, rfl, .many hvariadic hitem hall (hall.length_eq ▸ hadmits.1)⟩

omit hdown in
theorem inhabitsFields_of_forall {assigned : Assignment Expr} {given : List (String × Value)}
    {plans : List FieldPlan}
    (h : ∀ plan ∈ plans, ∃ v,
      (given.lookup plan.field.name).or (plan.field.default.map Default.value) = some v ∧
        InhabitsField rs plan (assigned.getD plan.name) v) :
    InhabitsFields rs assigned plans ((plans.map (·.field)).filterMap fun f =>
      ((given.lookup f.name).or (f.default.map Default.value)).map fun v => (f.name, v)) := by
  induction plans with
  | nil => exact .nil
  | cons plan plans ih =>
    obtain ⟨⟨v, hv, hfield⟩, h⟩ := List.forall_mem_cons.1 h
    rw [List.map_cons, List.filterMap_cons, hv]
    exact .cons hfield (ih h)

/-- A decoded record has its class, and its fields hold values of theirs. -/
theorem inhabits_of_decodeRecord {c : ClassName} {decl : RecordDecl}
    (hdecl : rs.find? c = some decl) (hnodup : (decl.fields.map (·.name)).Nodup) {e : Expr}
    {path : String} {v : Value} (h : decodeRecord down decl (.expr e) path = .ok v) :
    Inhabits rs (.cls c) e v := by
  obtain ⟨tagSpan, args, spans, plans, assigned, given, he, hplans, hassigned, hgiven, hv⟩ :=
    decodeRecord_eq_ok h
  cases he
  obtain ⟨hfields, hplan⟩ := FieldDecl.plans_eq_ok hplans
  have hlookup := lookup_decodeFields
    (by rw [← hfields, List.map_map] at hnodup; exact hnodup) hgiven
  have hinhabits : InhabitsFields rs assigned plans (decl.filled given) := by
    rw [RecordDecl.filled, ← hfields]
    refine inhabitsFields_of_forall fun plan hmem => ?_
    have hadmits := admits_of_matchTail hassigned _ (List.mem_map_of_mem hmem)
    exact inhabitsField_of_decodeField hdown (FieldDecl.plan_eq_ok (hplan plan hmem)).2 hadmits
      (hlookup plan hmem)
  have hvalue := RecordDecl.construct_eq_ok hv
  rw [find?_cls hdecl] at hvalue
  refine .record hdecl hplans hassigned hinhabits hvalue ?_
  rw [hvalue]
  cases hcore : coreValue? c ((decl.filled given).map Prod.snd) with
  | none => exact .record _ _
  | some w => exact isRecord_of_coreValue? hcore

/-! ### All types -/

omit hdown in
theorem inhabits_of_decodeQuoted {inner : Target} {e : Expr} {path : String} {v : Value}
    (h : decodeQuoted inner (.expr e) path = .ok v) : Inhabits rs (.quoted inner) e v := by
  unfold decodeQuoted at h
  split at h
  · split at h
    · rename_i hstr
      cases h
      obtain ⟨s, rfl⟩ := eq_str_of_decodeStr hstr
      exact .quotedStr e none s
    · cases h
  · split at h
    · rename_i he
      cases h
      exact .quotedExpr e none (admits_of_ofClass? he)
    · cases h
  · cases h

variable (hrecords : ∀ decl ∈ rs, (decl.fields.map (·.name)).Nodup)

include hrecords

theorem inhabits_of_decodeClass {c : ClassName} {e : Expr} {path : String} {v : Value}
    (h : decodeClass ⟨rs, [], []⟩ down c (.expr e) path = .ok v) : Inhabits rs (.cls c) e v := by
  unfold decodeClass at h
  split at h
  · split at h
    · cases h
      rename_i he
      exact .expr e (admits_of_ofClass? he)
    · cases h
  · obtain ⟨s, rfl⟩ := eq_str_of_decodeStr h
    exact .str e s
  · unfold decodeBool at h
    split_ifs at h
    · cases h
      exact .bool e true
    · cases h
      exact .bool e false
  · obtain ⟨i, rfl⟩ := eq_int_of_decodeInt h
    exact .int e i
  · obtain ⟨r, rfl⟩ := eq_real_of_decodeReal h
    exact .float e r
  · split at h
    · rename_i decl hdecl
      exact inhabits_of_decodeRecord hdown hdecl (nodup_of_find? hrecords hdecl) h
    · cases h

/-- A record that its tag tells apart from the other members of a union is of the union. -/
theorem inhabits_of_decodeRecordUnion {closed : Bool} {members : List Target}
    {decls : List RecordDecl} (hdecls : recordMembers? ⟨rs, [], []⟩ members = some decls)
    {e : Expr} {path : String} {v : Value}
    (h : decodeRecordUnion down decls (.expr e) path = .ok v) :
    Inhabits rs (.unionOf closed members) e v := by
  obtain ⟨decl, hdecl, h⟩ := decodeRecordUnion_eq_ok h
  obtain ⟨m, hm, c, hc, hfind⟩ := mem_of_recordMembers? hdecls hdecl
  refine .union hm (.of_unwrap ?_)
  rw [hc]
  exact inhabits_of_decodeRecord hdown hfind (nodup_of_find? hrecords hfind) h

/-- One level gives values of the type if the levels below do. -/
theorem inhabits_of_decodeBase (t : Target) (e : Expr) (path : String) (v : Value)
    (h : decodeBase ⟨rs, [], []⟩ down t (.expr e) path = .ok v) : Inhabits rs t e v := by
  have hregistered : registered? ⟨rs, [], []⟩ t = none := by
    cases t <;> rfl
  unfold decodeBase at h
  rw [hregistered] at h
  dsimp only at h
  -- members of a union and the base of a type with notes are tried on the same expression, so
  -- the induction is on the type here; all smaller expressions are left to `down`
  cases t with
  | any => exact .any e v
  | cls c => exact inhabits_of_decodeClass hdown hrecords h
  | bareList =>
    obtain ⟨es, spans, vs, rfl, rfl, hall⟩ := exists_of_decodeList hdown h
    exact .bareList hall
  | bareDict =>
    obtain ⟨fields, spans, entries, rfl, rfl, hall⟩ := exists_of_decodeDict hdown h
    exact .bareDict (fun entry hentry => (hall entry hentry).1)
      (fun entry hentry => (hall entry hentry).2)
  | list item =>
    obtain ⟨es, spans, vs, rfl, rfl, hall⟩ := exists_of_decodeList hdown h
    exact .list hall
  | dict key value =>
    obtain ⟨fields, spans, entries, rfl, rfl, hall⟩ := exists_of_decodeDict hdown h
    exact .dict (fun entry hentry => (hall entry hentry).1)
      (fun entry hentry => (hall entry hentry).2)
  | tuple items => cases h
  | quoted inner => exact inhabits_of_decodeQuoted h
  | literal values => cases h
  | unionOf closed members =>
    dsimp only at h
    split at h
    · rename_i decls hdecls
      exact inhabits_of_decodeRecordUnion hdown hrecords hdecls h
    · split_ifs at h with hnone
      · cases h
        exact inhabits_nothing (Bool.and_eq_true_iff.1 hnone).1
      · obtain ⟨outcome, hmembers, h⟩ := Except.bind_eq_ok.1 h
        cases outcome with
        | inl cause =>
          cases cause with
          | none => cases h
          | some cause => cases h
        | inr w =>
          cases h
          obtain ⟨m, hm, hv⟩ := decodeMembers_eq_ok hmembers
          exact .union hm (inhabits_of_decodeBase m e path v hv)
  | annotated base notes =>
    exact .annotated (inhabits_of_decodeBase base e path v h)
termination_by t

theorem inhabits_of_decodeBy (t : Target) (e : Expr) (path : String) (v : Value)
    (h : decodeBy ⟨rs, [], []⟩ down t (.expr e) path = .ok v) : Inhabits rs t e v := by
  cases t with
  | annotated base notes =>
    rw [decodeBy] at h
    split at h
    · cases h
    · exact .annotated (inhabits_of_decodeBase hdown hrecords base e path v h)
    · exact .annotated (inhabits_of_decodeBase hdown hrecords base e path v h)
  | _ => exact inhabits_of_decodeBase hdown hrecords _ e path v h

end

theorem inhabits_of_decodeWithin {rs : Records}
    (hrecords : ∀ decl ∈ rs, (decl.fields.map (·.name)).Nodup) (n : Nat) (t : Target) (e : Expr)
    (path : String) (v : Value)
    (h : decodeWithin ⟨rs, [], []⟩ n t (.expr e) path = .ok v) : Inhabits rs t e v := by
  induction n generalizing t e path v with
  | zero => cases h
  | succ n ih => exact inhabits_of_decodeBy ih hrecords t e path v h

/-- Decoding gives values of the type, if no decoders come from outside. -/
theorem inhabits_of_decode {rs : Records}
    (hrecords : ∀ decl ∈ rs, (decl.fields.map (·.name)).Nodup) {t : Target} {e : Expr}
    {path : String} {v : Value} (h : decode ⟨rs, [], []⟩ t e path = .ok v) :
    Inhabits rs t e v :=
  inhabits_of_decodeWithin hrecords _ t e path v h

/-- Of the four fields of the record in the list, two are left out: one holds nothing, the other
one its default. -/
theorem inhabits_of_decode_omitted :
    Inhabits
      [⟨.record "Server",
        [⟨"name", some (.annotated (.cls .str) [.fieldName "name"]), none, true⟩,
          ⟨"port", some (.annotated (.cls .int) [.fieldName "port", .marker .optionalArg false]),
            none, true⟩,
          ⟨"tags", some (.annotated (.list (.cls .int))
            [.fieldName "tag", .marker .oneOrMore true]), none, true⟩,
          ⟨"debug", some (.annotated (.cls .bool) [.fieldName "debug"]),
            some (.shared (.bool false)), true⟩],
        some "server", none⟩]
      (.dict (.cls .str) (.list (.cls (.record "Server"))))
      (.map [⟨.leaf (.atom "main") none,
        .items .sequence [.items .group
          [.leaf (.atom "server") none, .leaf (.string "x") none, .leaf (.atom ":tag") none,
            .leaf (.int 1) none, .leaf (.int 2) none] .none] .none, none⟩] .none)
      (.dict false [(.str "main", .list [.record (.record "Server")
        [("name", .str "x"), ("port", .nothing), ("tags", .list [.int 1, .int 2]),
          ("debug", .bool false)]])]) :=
  inhabits_of_decode (by decide) (show decode ⟨_, [], []⟩ _ _ rootPath = .ok _ from rfl)

end Decoders

end Sexpr
