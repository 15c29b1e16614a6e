/-
Values of plain types, and their expressions.

Plain types are built from texts, numbers and truth values by lists, dictionaries, records, and
unions of records with different tags. Each field of such a record holds some values of a plain
type: one, one or none, or a list of them, as its marker says. It is written as these values, and
left out if there are none.

* `Holds` — the values that a field holds;
* `FieldDecl.IsPlain`, `RecordDecl.IsPlain` — records with such fields;
* `Plain` — values of plain types;
* `RecordDecl.IsPlain.encode_make` — the group of a record.
-/
import Sexpr.Print.Encode
import Sexpr.Proofs.Decoding

namespace Sexpr

/-! ### Plain types -/

/-- The values that a field with a marker holds. -/
inductive Holds : Option Marker → Value → List Value → Prop
  | one (v : Value) : Holds none v [v]
  | nothing : Holds (some .optionalArg) .nothing []
  | something {v : Value} (h : v ≠ .nothing) : Holds (some .optionalArg) v [v]
  | zeroOrMore (vs : List Value) : Holds (some .zeroOrMore) (.list vs) vs
  | oneOrMore (v : Value) (vs : List Value) : Holds (some .oneOrMore) (.list (v :: vs)) (v :: vs)

/-- A union of the members of a type and nothing, which may stand anywhere among them. -/
inductive IsOptional (t : Target) : Target → Prop
  | intro (closed : Bool) {front back : List Target} (h : front ++ back = t.members) :
      IsOptional t (.unionOf closed (front ++ .noneType :: back))

/-- The type that a field with a marker has if it holds values of a type. -/
def Marker.Wraps (t : Target) : Option Marker → Target → Prop
  | none, base => base = t
  | some .optionalArg, base => IsOptional t base
  | some .zeroOrMore, base => base = .list t
  | some .oneOrMore, base => base = .list t

/-- A field that holds values of a type, without a decoder of its own. An optional one has no
default. -/
structure FieldDecl.IsPlain (f : FieldDecl) (label : Label) (t : Target) : Prop where
  labelled : f.label = .ok label
  given : f.given = true
  type : Marker.Wraps t label.marker f.type.unwrap.1
  default : label.marker = some .optionalArg → f.default = none
  decoder : ∀ key, .decodeWith key ∉ f.type.unwrap.2

/-- A record whose fields hold values of types, under different names. -/
structure RecordDecl.IsPlain (d : RecordDecl) (labels : FieldDecl → Label)
    (types : FieldDecl → Target) : Prop where
  names : (d.fields.map (·.name)).Nodup
  labelNames : (d.fields.map fun f => (labels f).name).Nodup
  fields : ∀ f ∈ d.fields, f.IsPlain (labels f) (types f)
  check : d.check = none

/-- Whether a class is one of records and nothing else. -/
def ClassName.isRecord : ClassName → Bool
  | .record _ | .pos => true
  | _ => false

/-- The record that has values for its fields. -/
def RecordDecl.make (d : RecordDecl) (values : FieldDecl → Value) : Value :=
  .record d.cls (d.fields.map fun f => (f.name, values f))

/-- Values of plain types. -/
inductive Plain (rs : Records) : Target → Value → Prop
  | str (s : String) : Plain rs (.cls .str) (.str s)
  | int (i : Int) : Plain rs (.cls .int) (.int i)
  | float (r : Binary64) : Plain rs (.cls .float) (.real r)
  | bool (b : Bool) : Plain rs (.cls .bool) (.bool b)
  | list {item : Target} {vs : List Value} (h : ∀ v ∈ vs, Plain rs item v) :
      Plain rs (.list item) (.list vs)
  | dict {value : Target} {entries : List (String × Value)}
      (hkeys : (entries.map Prod.fst).Nodup) (h : ∀ entry ∈ entries, Plain rs value entry.2) :
      Plain rs (.dict (.cls .str) value)
        (.dict false (entries.map fun entry => (.str entry.1, entry.2)))
  | record {d : RecordDecl} {labels : FieldDecl → Label} {types : FieldDecl → Target}
      {values : FieldDecl → Value} {parts : FieldDecl → List Value}
      (hclass : d.cls.isRecord = true) (hfind : rs.find? d.cls = some d)
      (hplain : d.IsPlain labels types)
      (hholds : ∀ f ∈ d.fields, Holds (labels f).marker (values f) (parts f))
      (h : ∀ f ∈ d.fields, ∀ v ∈ parts f, Plain rs (types f) v) :
      Plain rs (.cls d.cls) (d.make values)
  | union {closed : Bool} {ds : List RecordDecl} {d : RecordDecl} {v : Value}
      (hfind : ∀ d ∈ ds, rs.find? d.cls = some d) (hclass : ∀ d ∈ ds, d.cls.isRecord = true)
      (htags : (ds.map RecordDecl.tag).Nodup) (hd : d ∈ ds) (h : Plain rs (.cls d.cls) v) :
      Plain rs (.unionOf closed (ds.map fun d => .cls d.cls)) v

/-! ### Encoding records -/

theorem lookup_of_mem {β : Type} {l : List (String × β)} (hnodup : (l.map Prod.fst).Nodup)
    {k : String} {v : β} (h : (k, v) ∈ l) : l.lookup k = some v := by
  induction l with
  | nil => simp at h
  | cons e l ih =>
    rw [List.map_cons, List.nodup_cons] at hnodup
    rw [List.lookup_cons]
    rcases List.mem_cons.1 h with rfl | h
    · rw [beq_self_eq_true]
    · have hne : k ≠ e.1 := fun heq => hnodup.1 (heq ▸ List.mem_map_of_mem h)
      rw [beq_false_of_ne hne]
      exact ih hnodup.2 h

theorem find?_of_mem {α : Type} {key : α → String} {l : List α} (hnodup : (l.map key).Nodup)
    {a : α} (h : a ∈ l) : l.find? (fun b => key b == key a) = some a := by
  induction l with
  | nil => simp at h
  | cons b l ih =>
    rw [List.map_cons, List.nodup_cons] at hnodup
    rw [List.find?_cons]
    rcases List.mem_cons.1 h with rfl | h
    · rw [beq_self_eq_true]
    · have hne : key b ≠ key a := fun heq => hnodup.1 (heq ▸ List.mem_map_of_mem h)
      rw [beq_false_of_ne hne]
      exact ih hnodup.2 h

/-- All elements have results exactly if as many results are found. -/
theorem forall₂_eq_some_iff {α β : Type} {f : α → Option β} {as : List α} {bs : List β} :
    List.Forall₂ (fun a b => f a = some b) as bs ↔
      as.filterMap f = bs ∧ bs.length = as.length := by
  induction as generalizing bs with
  | nil => simp [eq_comm]
  | cons a as ih =>
    rw [List.forall₂_cons_left_iff]
    cases ha : f a with
    | none =>
      have hlength := List.length_filterMap_le f as
      rw [List.filterMap_cons_none ha]
      constructor
      · rintro ⟨b, _, hb, -⟩
        cases hb
      · rintro ⟨rfl, hbs⟩
        rw [List.length_cons] at hbs
        omega
    | some b =>
      rw [List.filterMap_cons_some ha]
      constructor
      · rintro ⟨b', bs, hb, hbs, rfl⟩
        obtain ⟨rfl, hlength⟩ := ih.1 hbs
        rw [Option.some.inj hb, List.length_cons, hlength, List.length_cons]
        exact ⟨rfl, rfl⟩
      · rintro ⟨rfl, hlength⟩
        rw [List.length_cons, List.length_cons, Nat.add_right_cancel_iff] at hlength
        exact ⟨b, _, rfl, ih.2 ⟨rfl, hlength⟩, rfl⟩

theorem mapM_eq_ok {ε α β : Type} {f : α → Except ε β} {g : α → β} {as : List α}
    (h : ∀ a ∈ as, f a = .ok (g a)) : as.mapM f = .ok (as.map g) := by
  induction as with
  | nil => rfl
  | cons a as ih =>
    obtain ⟨ha, has⟩ := List.forall_mem_cons.1 h
    rw [List.mapM_cons, ha, ih has]
    rfl

/-- What is written of a field with a marker that holds a value. -/
def Value.fieldText (rs : Records) (o : EncodeOptions) (name : String) (marker : Option Marker)
    (v : Value) : FieldText :=
  match marker, v with
  | some .optionalArg, .nothing => .ok none
  | some .zeroOrMore, .list items | some .zeroOrMore, .tuple items =>
    if items.isEmpty then .ok none else do
      return some (← Value.encodeAll rs o true items)
  | some .oneOrMore, .list items | some .oneOrMore, .tuple items =>
    if items.isEmpty then .error (.print (.emptyVariadic name)) else do
      return some (← Value.encodeAll rs o true items)
  | some .zeroOrMore, _ | some .oneOrMore, _ => .error (.print (.variadicValue name))
  | _, v => do return some [← v.encode rs o true]

theorem Value.encodeFields_eq_map (rs : Records) (o : EncodeOptions)
    (labels : List (FieldDecl × Label)) (fields : List (String × Value)) :
    Value.encodeFields rs o labels fields =
      fields.map fun f => (f.1, Value.fieldText rs o f.1 (markerOf labels f.1) f.2) := by
  induction fields with
  | nil => rfl
  | cons f fields ih =>
    rw [Value.encodeFields.eq_def]
    dsimp only
    rw [ih]
    rfl

namespace RecordDecl

variable {d : RecordDecl} {labels : FieldDecl → Label}

theorem labels_eq (h : ∀ f ∈ d.fields, f.label = .ok (labels f)) :
    d.labels = .ok (d.fields.map fun f => (f, labels f)) := by
  refine mapM_eq_ok fun f hf => ?_
  rw [h f hf]
  rfl

theorem markerOf_eq (hnames : (d.fields.map (·.name)).Nodup) {f : FieldDecl} (hf : f ∈ d.fields) :
    markerOf (d.fields.map fun f => (f, labels f)) f.name = (labels f).marker := by
  have hnodup : ((d.fields.map fun f => (f, labels f)).map fun l => l.1.name).Nodup := by
    rw [List.map_map]
    exact hnames
  have hmem : (f, labels f) ∈ d.fields.map fun f => (f, labels f) :=
    List.mem_map_of_mem (f := fun f => (f, labels f)) hf
  rw [markerOf, find?_of_mem hnodup hmem]
  rfl

/-- Each field is written as its marker says. -/
theorem lookup_encodeFields (labels : FieldDecl → Label)
    (hnames : (d.fields.map (·.name)).Nodup) (rs : Records) (o : EncodeOptions)
    (values : FieldDecl → Value) {f : FieldDecl} (hf : f ∈ d.fields) :
    (Value.encodeFields rs o (d.fields.map fun f => (f, labels f))
      (d.fields.map fun f => (f.name, values f))).lookup f.name =
        some (Value.fieldText rs o f.name (labels f).marker (values f)) := by
  rw [Value.encodeFields_eq_map, List.map_map, ← markerOf_eq hnames hf]
  refine lookup_of_mem ?_ (List.mem_map.2 ⟨f, hf, rfl⟩)
  rw [List.map_map]
  exact hnames

/-- A record is written as a group of its tag and of its written fields. -/
theorem encode_make_eq {rs : Records} (hfind : rs.find? d.cls = some d)
    (hlabels : ∀ f ∈ d.fields, f.label = .ok (labels f)) (o : EncodeOptions)
    (values : FieldDecl → Value) (inField : Bool) :
    (d.make values).encode rs o inField =
      (writtenFields d.cls (Value.encodeFields rs o (d.fields.map fun f => (f, labels f))
        (d.fields.map fun f => (f.name, values f))) (d.fields.map fun f => (f, labels f))).map
          (recordGroup o d.tag) := by
  rw [RecordDecl.make, Value.encode, hfind, Option.getD_some, labels_eq hlabels]
  rfl

end RecordDecl

/-- The values of a field are written one after the other, and nothing if there are none. -/
theorem Holds.fieldText_eq {rs : Records} {o : EncodeOptions} {marker : Option Marker}
    {v : Value} {parts : List Value} (h : Holds marker v parts) {es : List Expr}
    (hes : Value.encodeAll rs o true parts = .ok es) (name : String) :
    Value.fieldText rs o name marker v = .ok (if es.isEmpty then none else some es) := by
  have hcons : ∀ v vs, parts = v :: vs → es.isEmpty = false := by
    rintro v vs rfl
    obtain ⟨e, -, hes⟩ := Except.bind_eq_ok.1 hes
    obtain ⟨es, -, hes⟩ := Except.bind_eq_ok.1 hes
    cases hes
    rfl
  unfold Value.fieldText
  cases h with
  | one v =>
    obtain ⟨e, he, hes⟩ := Except.bind_eq_ok.1 hes
    cases hes
    simp only [he]
    rfl
  | nothing =>
    cases hes
    rfl
  | something hv =>
    obtain ⟨e, he, hes⟩ := Except.bind_eq_ok.1 hes
    cases hes
    cases v with
    | nothing => exact absurd rfl hv
    | _ =>
      simp only [he]
      rfl
  | zeroOrMore =>
    simp only [hes]
    cases parts with
    | nil =>
      cases hes
      rfl
    | cons v vs =>
      rw [hcons v vs rfl]
      rfl
  | oneOrMore v vs =>
    simp only [hes]
    rw [hcons v vs rfl]
    rfl

/-- The fields that have something written, with their names in the notation. -/
def writtenOf (labels : FieldDecl → Label) (es : FieldDecl → List Expr)
    (fields : List FieldDecl) : List WrittenField :=
  fields.flatMap fun f => if (es f).isEmpty then [] else [⟨f.name, (labels f).name, es f⟩]

theorem writtenFields_eq_ok (c : ClassName) {texts : List (String × FieldText)}
    {fields : List FieldDecl} (labels : FieldDecl → Label) {es : FieldDecl → List Expr}
    (h : ∀ f ∈ fields,
      texts.lookup f.name = some (.ok (if (es f).isEmpty then none else some (es f)))) :
    writtenFields c texts (fields.map fun f => (f, labels f)) = .ok (writtenOf labels es fields) := by
  induction fields with
  | nil => rfl
  | cons f fields ih =>
    obtain ⟨hf, hfields⟩ := List.forall_mem_cons.1 h
    rw [List.map_cons, writtenFields, hf, ih hfields, writtenOf, writtenOf, List.flatMap_cons]
    cases (es f).isEmpty with
    | true => rfl
    | false => rfl

/-- A record is written as a group of its tag and of the values that its fields hold. -/
theorem RecordDecl.IsPlain.encode_make {rs : Records} {o : EncodeOptions} {d : RecordDecl}
    {labels : FieldDecl → Label} {types : FieldDecl → Target} (h : d.IsPlain labels types)
    (hfind : rs.find? d.cls = some d) {values : FieldDecl → Value}
    {parts : FieldDecl → List Value}
    (hholds : ∀ f ∈ d.fields, Holds (labels f).marker (values f) (parts f))
    {es : FieldDecl → List Expr}
    (hes : ∀ f ∈ d.fields, Value.encodeAll rs o true (parts f) = .ok (es f)) (inField : Bool) :
    (d.make values).encode rs o inField =
      .ok (recordGroup o d.tag (writtenOf labels es d.fields)) := by
  have hlookup : ∀ f ∈ d.fields,
      (Value.encodeFields rs o (d.fields.map fun f => (f, labels f))
        (d.fields.map fun f => (f.name, values f))).lookup f.name =
          some (.ok (if (es f).isEmpty then none else some (es f))) := by
    intro f hf
    rw [RecordDecl.lookup_encodeFields labels h.names rs o values hf,
      (hholds f hf).fieldText_eq (hes f hf) f.name]
  rw [RecordDecl.encode_make_eq hfind (fun f hf => (h.fields f hf).labelled) o values inField,
    writtenFields_eq_ok d.cls labels hlookup]
  rfl

end Sexpr
