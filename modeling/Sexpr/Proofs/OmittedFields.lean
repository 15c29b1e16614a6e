/-
Fields that are left out of a record.

A field is left out of the group of its record if it is optional and holds nothing, or if it takes
any number of values and holds none. When the group is decoded, an optional field that is left out
gets its default, or nothing if it has none, and one that takes any number of values gets an empty
list. So it comes back as it was, unless it had a default other than nothing, or was an empty tuple.

* `LeftOut` — the values of fields that are left out;
* `FieldDecl.refill` — what a field that is left out is decoded into;
* `RecordDecl.Declared` — a record whose declaration makes sense;
* `RecordDecl.Declared.exists_written` — what is written of a record;
* `Decoders.lookup_of_leftOut`, `Decoders.exists_decodeRecord` — what is decoded from it, and that
  it is decoded;
* `Decoders.decode_leftOut` — when a field that is left out comes back as it was.
-/
import Sexpr.Proofs.RoundTrip

namespace Sexpr

/-! ### Writing fields -/

/-- A field with a marker is left out if it holds such a value. -/
inductive LeftOut : Option Marker → Value → Prop
  | nothing : LeftOut (some .optionalArg) .nothing
  | noItems : LeftOut (some .zeroOrMore) (.list [])
  | noParts : LeftOut (some .zeroOrMore) (.tuple [])

theorem length_encodeAll {rs : Records} {o : EncodeOptions} {inField : Bool} {vs : List Value}
    {es : List Expr} (h : Value.encodeAll rs o inField vs = .ok es) : es.length = vs.length := by
  induction vs generalizing es with
  | nil =>
    cases h
    rfl
  | cons v vs ih =>
    obtain ⟨e, -, h⟩ := Except.bind_eq_ok.1 h
    obtain ⟨rest, hrest, h⟩ := Except.bind_eq_ok.1 h
    cases h
    rw [List.length_cons, List.length_cons, ih hrest]

/-- What is written of a field that is not left out: one value, or any number but none of them if
the marker says so. -/
structure WrittenAs (marker : Option Marker) (v : Value) (es : List Expr) : Prop where
  notLeftOut : ¬LeftOut marker v
  ne_nil : es ≠ []
  one : marker = none ∨ marker = some .optionalArg → es.length = 1

theorem exists_writtenAs_of_encode {rs : Records} {o : EncodeOptions} {marker : Option Marker}
    {v : Value} {text : Option (List Expr)} (hout : ¬LeftOut marker v)
    (h : (do return some [← v.encode rs o true]) = Except.ok text) :
    ∃ es, text = some es ∧ WrittenAs marker v es := by
  obtain ⟨e, -, h⟩ := Except.bind_eq_ok.1 h
  cases h
  exact ⟨[e], rfl, hout, List.cons_ne_nil e [], fun _ => rfl⟩

theorem exists_writtenAs_of_encodeAll {rs : Records} {o : EncodeOptions} {marker : Option Marker}
    {v item : Value} {items : List Value} {text : Option (List Expr)} (hout : ¬LeftOut marker v)
    (hmarker : ¬(marker = none ∨ marker = some .optionalArg))
    (h : (do return some (← Value.encodeAll rs o true (item :: items))) = Except.ok text) :
    ∃ es, text = some es ∧ WrittenAs marker v es := by
  obtain ⟨es, hes, h⟩ := Except.bind_eq_ok.1 h
  cases h
  refine ⟨es, rfl, hout, fun hnil => ?_, fun hone => absurd hone hmarker⟩
  have hlength := length_encodeAll hes
  rw [hnil] at hlength
  cases hlength

/-- A field is left out, or something is written of it. -/
theorem Value.fieldText_eq_ok {rs : Records} {o : EncodeOptions} {name : String}
    {marker : Option Marker} {v : Value} {text : Option (List Expr)}
    (h : Value.fieldText rs o name marker v = .ok text) :
    text = none ∧ LeftOut marker v ∨ ∃ es, text = some es ∧ WrittenAs marker v es := by
  cases marker with
  | none => exact .inr (exists_writtenAs_of_encode (by rintro ⟨⟩) h)
  | some m =>
    cases m with
    | optionalArg =>
      cases v with
      | nothing =>
        cases h
        exact .inl ⟨rfl, .nothing⟩
      | _ => exact .inr (exists_writtenAs_of_encode (by rintro ⟨⟩) h)
    | zeroOrMore =>
      -- lists and tuples are written alike
      cases v with
      | list items =>
        cases items with
        | nil =>
          cases h
          exact .inl ⟨rfl, .noItems⟩
        | cons item items => exact .inr (exists_writtenAs_of_encodeAll (by rintro ⟨⟩) (by simp) h)
      | tuple items =>
        cases items with
        | nil =>
          cases h
          exact .inl ⟨rfl, .noParts⟩
        | cons item items => exact .inr (exists_writtenAs_of_encodeAll (by rintro ⟨⟩) (by simp) h)
      | _ => cases h
    | oneOrMore =>
      cases v with
      | list items =>
        cases items with
        | nil => cases h
        | cons item items => exact .inr (exists_writtenAs_of_encodeAll (by rintro ⟨⟩) (by simp) h)
      | tuple items =>
        cases items with
        | nil => cases h
        | cons item items => exact .inr (exists_writtenAs_of_encodeAll (by rintro ⟨⟩) (by simp) h)
      | _ => cases h

/-- The values that are written of a field. -/
def FieldText.values : FieldText → List Expr
  | .ok (some es) => es
  | _ => []

theorem Value.text_eq_of_fieldText {rs : Records} {o : EncodeOptions} {name : String}
    {marker : Option Marker} {v : Value} {text : Option (List Expr)}
    (h : Value.fieldText rs o name marker v = .ok text) :
    text = if (FieldText.values (.ok text)).isEmpty then none
      else some (FieldText.values (.ok text)) := by
  rcases Value.fieldText_eq_ok h with ⟨rfl, -⟩ | ⟨es, rfl, hes⟩
  · rfl
  · rw [if_neg (by simpa [FieldText.values] using hes.ne_nil)]
    rfl

/-- Nothing is written of the fields that are left out, and of no other ones. -/
theorem Value.values_fieldText_eq_nil_iff {rs : Records} {o : EncodeOptions} {name : String}
    {marker : Option Marker} {v : Value} {text : Option (List Expr)}
    (h : Value.fieldText rs o name marker v = .ok text) :
    FieldText.values (.ok text) = [] ↔ LeftOut marker v := by
  rcases Value.fieldText_eq_ok h with ⟨rfl, hout⟩ | ⟨es, rfl, hes⟩
  · exact ⟨fun _ => hout, fun _ => rfl⟩
  · exact ⟨fun hnil => absurd hnil hes.ne_nil, fun hout => absurd hout hes.notLeftOut⟩

/-- A field takes as many values as are written of it. -/
theorem Value.admits_fieldText {rs : Records} {o : EncodeOptions} {name : String}
    {marker : Option Marker} {v : Value} {text : Option (List Expr)}
    (h : Value.fieldText rs o name marker v = .ok text) (f : FieldDecl) :
    (f.arity marker).Admits (FieldText.values (.ok text)).length := by
  rcases Value.fieldText_eq_ok h with ⟨rfl, hout⟩ | ⟨es, rfl, hes⟩
  · refine ⟨?_, Arity.hasRoom_zero _⟩
    cases hout <;> simp [FieldDecl.arity, Arity.optional, Arity.zeroOrMore]
  · show (f.arity marker).Admits es.length
    cases marker with
    | none =>
      rw [hes.one (.inl rfl)]
      exact (Holds.one v).admits f
    | some m =>
      cases m with
      | optionalArg =>
        rw [hes.one (.inr rfl)]
        exact ⟨by simp [FieldDecl.arity, Arity.optional],
          by simp [Arity.HasRoom, FieldDecl.arity, Arity.optional]⟩
      | zeroOrMore =>
        exact ⟨by simp [FieldDecl.arity, Arity.zeroOrMore],
          by simp [Arity.HasRoom, FieldDecl.arity, Arity.zeroOrMore]⟩
      | oneOrMore =>
        exact ⟨by simpa [FieldDecl.arity, Arity.oneOrMore, Nat.one_le_iff_ne_zero] using hes.ne_nil,
          by simp [Arity.HasRoom, FieldDecl.arity, Arity.oneOrMore]⟩

/-! ### Writing records -/

/-- A record whose declaration makes sense: its notes can be read, a field that takes any number of
values is a list, and its fields have different names, in the notation too. -/
structure RecordDecl.Declared (d : RecordDecl) (rs : Records) (labels : FieldDecl → Label) :
    Prop where
  isRecord : d.cls.isRecord = true
  found : rs.find? d.cls = some d
  labelled : ∀ f ∈ d.fields, f.label = .ok (labels f)
  lists : ∀ f ∈ d.fields, (f.arity (labels f).marker).isVariadic = true →
    ∃ item, f.type.unwrap.1.item? = some item
  names : (d.fields.map (·.name)).Nodup
  labelNames : (d.fields.map fun f => (labels f).name).Nodup

theorem ok_of_writtenFields {c : ClassName} {texts : List (String × FieldText)}
    {labels : List (FieldDecl × Label)} {written : List WrittenField}
    (h : writtenFields c texts labels = .ok written) :
    ∀ l ∈ labels, ∃ text, texts.lookup l.1.name = some (.ok text) := by
  induction labels generalizing written with
  | nil => simp
  | cons l labels ih =>
    obtain ⟨f, label⟩ := l
    rw [writtenFields] at h
    cases htext : texts.lookup f.name with
    | none =>
      rw [htext] at h
      cases h
    | some text =>
      rw [htext] at h
      obtain ⟨values, hvalues, h⟩ := Except.bind_eq_ok.1 h
      obtain ⟨others, hothers, -⟩ := Except.bind_eq_ok.1 h
      exact List.forall_mem_cons.2 ⟨⟨values, by rw [htext, hvalues]⟩, ih hothers⟩

/-- What is written of a record: the fields that are not left out, each with values that it can
take. -/
theorem RecordDecl.Declared.exists_written {d : RecordDecl} {rs : Records}
    {labels : FieldDecl → Label} (h : d.Declared rs labels) {o : EncodeOptions}
    {values : FieldDecl → Value} {inField : Bool} {g : Expr}
    (hg : (d.make values).encode rs o inField = .ok g) :
    ∃ es : FieldDecl → List Expr, g = recordGroup o d.tag (writtenOf labels es d.fields) ∧
      ∀ f ∈ d.fields, (es f = [] ↔ LeftOut (labels f).marker (values f)) ∧
        (f.arity (labels f).marker).Admits (es f).length := by
  let text (f : FieldDecl) : FieldText :=
    Value.fieldText rs o f.name (labels f).marker (values f)
  have hlookup := fun f (hf : f ∈ d.fields) =>
    RecordDecl.lookup_encodeFields labels h.names rs o values hf
  rw [RecordDecl.encode_make_eq h.found h.labelled o values inField] at hg
  -- every field has been written, so each of them gives its text
  have htexts : ∀ f ∈ d.fields, ∃ t, text f = .ok t := by
    intro f hf
    cases hwritten : writtenFields d.cls _ _ with
    | error e =>
      rw [hwritten] at hg
      cases hg
    | ok written =>
      obtain ⟨t, ht⟩ := ok_of_writtenFields hwritten (f, labels f)
        (List.mem_map_of_mem (f := fun f => (f, labels f)) hf)
      rw [hlookup f hf] at ht
      exact ⟨t, Option.some.inj ht⟩
  -- what is written is never empty, so that no values mean that nothing is written
  have hes : ∀ f ∈ d.fields, text f =
      .ok (if (text f).values.isEmpty then none else some (text f).values) := by
    intro f hf
    obtain ⟨t, ht⟩ := htexts f hf
    rw [ht, ← Value.text_eq_of_fieldText ht]
  refine ⟨fun f => (text f).values, ?_, fun f hf => ?_⟩
  · rw [writtenFields_eq_ok d.cls labels fun f hf => (hlookup f hf).trans
      (congrArg some (hes f hf))] at hg
    cases hg
    rfl
  · obtain ⟨t, ht⟩ := htexts f hf
    dsimp only
    rw [ht]
    exact ⟨Value.values_fieldText_eq_nil_iff ht, Value.admits_fieldText ht f⟩

theorem RecordDecl.Declared.plans_eq {d : RecordDecl} {rs : Records} {labels : FieldDecl → Label}
    (h : d.Declared rs labels) : d.fields.mapM FieldDecl.plan =
      .ok (d.fields.map fun f => ⟨f, (labels f).name, f.arity (labels f).marker⟩) :=
  mapM_eq_ok fun f hf => FieldDecl.plan_eq (h.labelled f hf) (h.lists f hf)

/-! ### Filling in -/

/-- What a field with a marker is decoded into if it is left out. -/
def FieldDecl.refill (f : FieldDecl) : Option Marker → Value
  | some .zeroOrMore => .list []
  | _ => (f.default.map Default.value).getD .nothing

/-- A field comes back as it was, unless it is an optional one with a default other than nothing,
or was an empty tuple. -/
theorem FieldDecl.refill_eq_iff {f : FieldDecl} {marker : Option Marker} {v : Value}
    (h : LeftOut marker v) :
    f.refill marker = v ↔
      (marker = some .optionalArg → ∀ v', f.default = some v' → v'.value = .nothing) ∧
        v ≠ .tuple [] := by
  cases h with
  | nothing =>
    cases hdefault : f.default with
    | none => simp [FieldDecl.refill, hdefault]
    | some v' => simp [FieldDecl.refill, hdefault]
  | noItems => simp [FieldDecl.refill]
  | noParts => simp [FieldDecl.refill]

theorem lookup_filterMap_name {fields : List FieldDecl} (hnames : (fields.map (·.name)).Nodup)
    (value : FieldDecl → Option Value) {f : FieldDecl} (hf : f ∈ fields) :
    (fields.filterMap fun f => (value f).map fun v => (f.name, v)).lookup f.name = value f := by
  induction fields with
  | nil => cases hf
  | cons a fields ih =>
    rw [List.map_cons, List.nodup_cons] at hnames
    rcases List.mem_cons.1 hf with rfl | hf
    · cases hvalue : value f with
      | some v => simp [hvalue]
      | none =>
        -- no other field has this name
        rw [List.filterMap_cons_none (by rw [hvalue]; rfl), List.lookup_eq_none_iff]
        intro entry hentry
        obtain ⟨b, hb, hentry⟩ := List.mem_filterMap.1 hentry
        obtain ⟨v, -, rfl⟩ := Option.map_eq_some_iff.1 hentry
        rw [bne_iff_ne]
        exact fun heq => hnames.1 (heq ▸ List.mem_map_of_mem hb)
    · have hne : f.name ≠ a.name := fun heq => hnames.1 (heq ▸ List.mem_map_of_mem hf)
      rw [← ih hnames.2 hf]
      cases hvalue : value a with
      | some v => simp [hvalue, List.lookup_cons, beq_false_of_ne hne]
      | none => rw [List.filterMap_cons_none (by rw [hvalue]; rfl)]

/-- The value of a field of a record: the given one, else the default. -/
theorem RecordDecl.lookup_filled {d : RecordDecl} (hnames : (d.fields.map (·.name)).Nodup)
    (given : List (String × Value)) {f : FieldDecl} (hf : f ∈ d.fields) :
    (d.filled given).lookup f.name =
      (given.lookup f.name).or (f.default.map Default.value) :=
  lookup_filterMap_name hnames (fun f => (given.lookup f.name).or (f.default.map Default.value)) hf

namespace Decoders

variable {down : DecodeFn}

/-- An optional field without values is given nothing, or no value at all if a default takes its
place. -/
theorem decodeField_nil {plan : FieldPlan} (h : plan.arity = .optional) (whole : Subject)
    (path : String) : decodeField down plan whole path [] =
      .ok (if plan.field.default.isSome then none else some .nothing) := by
  unfold decodeField
  dsimp only
  rw [if_neg (by rw [h]; decide), if_pos h]

/-- A field that is left out gets its default, or else nothing or an empty list. -/
theorem decodeField_leftOut {f : FieldDecl} {label : Label} {v : Value}
    (h : LeftOut label.marker v) {whole : Subject} {path : String} {r : Option Value}
    (hr : decodeField down ⟨f, label.name, f.arity label.marker⟩ whole path [] = .ok r) :
    r.or (f.default.map Default.value) = some (f.refill label.marker) := by
  obtain ⟨name, marker⟩ := label
  dsimp only at h hr ⊢
  cases h with
  | nothing =>
    rw [decodeField_nil rfl] at hr
    obtain rfl := Except.ok.inj hr
    cases hdefault : f.default with
    | none => simp [FieldDecl.refill, hdefault]
    | some v' => simp [FieldDecl.refill, hdefault]
  | noItems =>
    cases hr
    rfl
  | noParts =>
    cases hr
    rfl

/-- Fields that are assigned no values are filled in, whatever else is decoded. -/
theorem lookup_of_leftOut {rs : Records} {d : RecordDecl} {labels : FieldDecl → Label}
    (h : d.Declared rs labels) {tagSpan : Option TokenSpans} {args : List Expr}
    {spans : BracketSpans} {assigned : Assignment Expr}
    (hmatch : matchTail (d.params labels) args = .ok assigned) {path : String} {w : Value}
    (hw : decodeRecord down d
      (.expr (.items .group (.leaf (.atom d.tag) tagSpan :: args) spans)) path = .ok w) :
    ∃ fields, w = .record d.cls fields ∧ ∀ f ∈ d.fields, ∀ v, LeftOut (labels f).marker v →
      assigned.getD (labels f).name = [] →
      fields.lookup f.name = some (f.refill (labels f).marker) := by
  obtain ⟨tagSpan', args', spans', plans, assigned', given, hs, hplans, hmatch', hgiven, hw⟩ :=
    decodeRecord_eq_ok hw
  cases hs
  obtain rfl := Except.ok.inj (h.plans_eq.symm.trans hplans)
  rw [List.map_map] at hmatch'
  obtain rfl := Except.ok.inj (hmatch.symm.trans hmatch')
  refine ⟨d.filled given, ?_, fun f hf v hout hnil => ?_⟩
  · rw [RecordDecl.construct_eq_ok hw, coreValue?_eq_none h.isRecord]
    rfl
  · have hnames : ((d.fields.map fun f =>
        FieldPlan.mk f (labels f).name (f.arity (labels f).marker)).map (·.field.name)).Nodup := by
      rw [List.map_map]
      exact h.names
    have hfield := lookup_decodeFields hnames hgiven _ (List.mem_map_of_mem hf)
    dsimp only at hfield
    rw [hnil] at hfield
    rw [RecordDecl.lookup_filled h.names given hf]
    exact decodeField_leftOut hout hfield

end Decoders

/-! ### Decoding records -/

/-- The type of the values that are written of a field with a marker. -/
def FieldDecl.partType (f : FieldDecl) (marker : Option Marker) : Target :=
  if (f.arity marker).isVariadic then (f.type.unwrap.1.item?).getD .any else f.type

theorem exists_forall₂ {α β : Type} {R : α → β → Prop} {as : List α} (h : ∀ a ∈ as, ∃ b, R a b) :
    ∃ bs, List.Forall₂ R as bs := by
  induction as with
  | nil => exact ⟨[], .nil⟩
  | cons a as ih =>
    obtain ⟨⟨b, hb⟩, has⟩ := List.forall_mem_cons.1 h
    obtain ⟨bs, hbs⟩ := ih has
    exact ⟨b :: bs, .cons hb hbs⟩

namespace Decoders

variable {down : DecodeFn}

/-- A field is decoded from as many values as it takes, if each of them is. It is only given no
value if it has a default. -/
theorem exists_decodeField {f : FieldDecl} {label : Label}
    (hlist : (f.arity label.marker).isVariadic = true → ∃ t, f.type.unwrap.1.item? = some t)
    {es : List Expr} (hadmits : (f.arity label.marker).Admits es.length)
    (hes : ∀ e ∈ es, ∃ v, ∀ path, down (f.partType label.marker) (.expr e) path = .ok v)
    (whole : Subject) (path : String) :
    ∃ r, decodeField down ⟨f, label.name, f.arity label.marker⟩ whole path es = .ok r ∧
      (r = none → f.default ≠ none) := by
  unfold FieldDecl.partType at hes
  by_cases hmany : (f.arity label.marker).isVariadic = true
  · obtain ⟨t, ht⟩ := hlist hmany
    rw [if_pos hmany, ht] at hes
    obtain ⟨vs, hvs⟩ := exists_forall₂ hes
    exact ⟨_, decodeField_many hmany ht hvs whole path, fun hr => by cases hr⟩
  · rw [if_neg hmany] at hes
    -- one value at most, and none only if the field is optional
    have hone := arity_of_isVariadic (Bool.not_eq_true _ ▸ hmany)
    match es, hadmits, hes with
    | [e], _, hes =>
      obtain ⟨v, hv⟩ := hes e (List.mem_singleton_self e)
      exact ⟨_, decodeField_single hone hv whole path, fun hr => by cases hr⟩
    | [], hadmits, _ =>
      have hoptional : f.arity label.marker = .optional := by
        refine hone.resolve_left fun hrequired => ?_
        have := hadmits.1
        rw [hrequired] at this
        simp [Arity.required] at this
      refine ⟨_, decodeField_nil hoptional whole path, fun hr hdefault => ?_⟩
      rw [hdefault] at hr
      cases hr
    | _ :: _ :: _, hadmits, _ =>
      have := hadmits.2 1 (by rcases hone with h | h <;> rw [h] <;> rfl)
      simp at this

theorem exists_decodeFields {whole : Subject} {path : String} {assigned : Assignment Expr}
    {plans : List FieldPlan}
    (h : ∀ p ∈ plans, ∃ r, decodeField down p whole path (assigned.getD p.name) = .ok r) :
    ∃ given, decodeFields down whole path assigned plans = .ok given ∧
      ∀ g ∈ given, ∃ p ∈ plans, p.field.name = g.1 := by
  induction plans with
  | nil => exact ⟨[], rfl, by simp⟩
  | cons plan plans ih =>
    obtain ⟨⟨r, hr⟩, hplans⟩ := List.forall_mem_cons.1 h
    obtain ⟨given, hgiven, hnames⟩ := ih hplans
    have hlater : ∀ g ∈ given, ∃ p ∈ plan :: plans, p.field.name = g.1 := fun g hg => by
      obtain ⟨p, hp, hname⟩ := hnames g hg
      exact ⟨p, List.mem_cons_of_mem plan hp, hname⟩
    rw [decodeFields, hr, hgiven]
    cases r with
    | none => exact ⟨given, rfl, hlater⟩
    | some v =>
      exact ⟨(plan.field.name, v) :: given, rfl,
        List.forall_mem_cons.2 ⟨⟨plan, List.mem_cons_self, rfl⟩, hlater⟩⟩

/-- A record is decoded if its fields are assigned values that they take, and each of them is
decoded. -/
theorem exists_decodeRecord {rs : Records} {d : RecordDecl} {labels : FieldDecl → Label}
    (h : d.Declared rs labels) (hcheck : d.check = none)
    (hgiven : ∀ f ∈ d.fields, f.given = true) {args : List Expr} {assigned : Assignment Expr}
    (hmatch : matchTail (d.params labels) args = .ok assigned)
    (hes : ∀ f ∈ d.fields, ∀ e ∈ assigned.getD (labels f).name,
      ∃ v, ∀ path, down (f.partType (labels f).marker) (.expr e) path = .ok v)
    (tagSpan : Option TokenSpans) (spans : BracketSpans) (path : String) :
    ∃ w, decodeRecord down d
      (.expr (.items .group (.leaf (.atom d.tag) tagSpan :: args) spans)) path = .ok w := by
  let plan (f : FieldDecl) : FieldPlan := ⟨f, (labels f).name, f.arity (labels f).marker⟩
  let whole : Subject := .expr (.items .group (.leaf (.atom d.tag) tagSpan :: args) spans)
  have hadmits := admits_of_matchTail hmatch
  have hfield : ∀ f ∈ d.fields, ∃ r,
      decodeField down (plan f) whole path (assigned.getD (labels f).name) = .ok r ∧
        (r = none → f.default ≠ none) := fun f hf =>
    exists_decodeField (h.lists f hf) (hadmits _ (List.mem_map_of_mem hf)) (hes f hf) whole path
  have hall : ∀ p ∈ d.fields.map plan, ∃ r,
      decodeField down p whole path (assigned.getD p.name) = .ok r :=
    List.forall_mem_map.2 fun f hf => (hfield f hf).imp fun _ hr => hr.1
  obtain ⟨given, hfields, hknown⟩ := exists_decodeFields hall
  have hmatch : matchTail ((d.fields.map plan).map fun p => Parameter.mk p.arity p.name) args =
      .ok assigned := by
    rw [List.map_map]
    exact hmatch
  have hnames : ((d.fields.map plan).map (·.field.name)).Nodup := by
    rw [List.map_map]
    exact h.names
  refine ⟨_, decodeRecord_of_construct h.plans_eq hmatch hfields
    (RecordDecl.construct_of_given hcheck (fun g hg => ?_) fun f hf hdefault => ?_)⟩
  · obtain ⟨p, hp, hname⟩ := hknown g hg
    obtain ⟨f, hf, rfl⟩ := List.mem_map.1 hp
    exact ⟨f, hf, hname, hgiven f hf⟩
  · -- a field that is given no value would have a default
    obtain ⟨r, hr, hnone⟩ := hfield f hf
    have hlookup := lookup_decodeFields hnames hfields (plan f) (List.mem_map_of_mem hf)
    obtain rfl := Except.ok.inj (hr.symm.trans hlookup)
    rw [Option.isSome_iff_ne_none]
    exact fun heq => hnone heq hdefault

section Named

variable {rs : Records} {d : RecordDecl} {labels : FieldDecl → Label} (h : d.Declared rs labels)
  {es : FieldDecl → List Expr}
  (hadmits : ∀ f ∈ d.fields, (f.arity (labels f).marker).Admits (es f).length)
  (hkeywords : ∀ f ∈ d.fields, ∀ e ∈ es f, e.keyword? = none)

include h hadmits hkeywords

/-- If all written fields go with their names, those that have nothing written are filled in. -/
theorem lookup_of_decode_named {path : String} {w : Value}
    (hw : decode ⟨rs, [], []⟩ (.cls d.cls) (.items .group (.ofName d.tag ::
      (writtenOf labels es d.fields).flatMap WrittenField.named) .none) path = .ok w) :
    ∃ fields, w = .record d.cls fields ∧ ∀ f ∈ d.fields, ∀ v, LeftOut (labels f).marker v →
      es f = [] → fields.lookup f.name = some (f.refill (labels f).marker) := by
  obtain ⟨assigned, hmatch, hassigned⟩ := RecordDecl.matchTail_named h.labelNames hadmits hkeywords
  rw [decode_cls h.isRecord h.found] at hw
  obtain ⟨fields, rfl, hfields⟩ := lookup_of_leftOut h hmatch hw
  exact ⟨fields, rfl, fun f hf v hout hnil =>
    hfields f hf v hout ((hassigned f hf).trans hnil)⟩

/-- The record is decoded if the written values are. -/
theorem exists_decode_named (hcheck : d.check = none) (hgiven : ∀ f ∈ d.fields, f.given = true)
    (hes : ∀ f ∈ d.fields, ∀ e ∈ es f, ∃ v, DecodesTo rs (f.partType (labels f).marker) e v)
    (path : String) :
    ∃ w, decode ⟨rs, [], []⟩ (.cls d.cls) (.items .group (.ofName d.tag ::
      (writtenOf labels es d.fields).flatMap WrittenField.named) .none) path = .ok w := by
  obtain ⟨assigned, hmatch, hassigned⟩ := RecordDecl.matchTail_named h.labelNames hadmits hkeywords
  rw [decode_cls h.isRecord h.found]
  refine exists_decodeRecord h hcheck hgiven hmatch (fun f hf e he => ?_) none .none path
  rw [hassigned f hf] at he
  obtain ⟨v, hv⟩ := hes f hf e he
  refine ⟨v, fun path => hv _ path ?_⟩
  -- the value is one of the items of the group
  have hmem : e ∈ (writtenOf labels es d.fields).flatMap WrittenField.named := subset_named hf he
  have hdepth := Expr.depth_le_maxDepth (List.mem_cons_of_mem (Expr.ofName d.tag) hmem)
  rw [Expr.depth]
  omega

end Named

/-- If all written fields go with their names, and no value of them reads as a name, a field that
is left out comes back as it was exactly if it is an optional field without a default, or with
nothing for a default, or if it takes any number of values and was a list. The group is decoded if
the written values are. -/
theorem decode_leftOut {rs : Records} {d : RecordDecl} {labels : FieldDecl → Label}
    (h : d.Declared rs labels) {o : EncodeOptions} (hsingle : o.singlePositional = false)
    (hfirst : o.firstPositional = []) {values : FieldDecl → Value} {inField : Bool} {g : Expr}
    (hg : (d.make values).encode rs o inField = .ok g) :
    ∃ es : FieldDecl → List Expr,
      g = .items .group (.ofName d.tag ::
        (writtenOf labels es d.fields).flatMap WrittenField.named) .none ∧
      (∀ f ∈ d.fields, es f = [] ↔ LeftOut (labels f).marker (values f)) ∧
      ((∀ f ∈ d.fields, ∀ e ∈ es f, e.keyword? = none) → ∀ path,
        (∀ w, decode ⟨rs, [], []⟩ (.cls d.cls) g path = .ok w →
          ∃ fields, w = .record d.cls fields ∧
            ∀ f ∈ d.fields, LeftOut (labels f).marker (values f) →
              fields.lookup f.name = some (f.refill (labels f).marker) ∧
              (fields.lookup f.name = some (values f) ↔
                ((labels f).marker = some .optionalArg →
                  ∀ v, f.default = some v → v.value = .nothing) ∧ values f ≠ .tuple [])) ∧
        (d.check = none → (∀ f ∈ d.fields, f.given = true) →
          (∀ f ∈ d.fields, ∀ e ∈ es f, ∃ v, DecodesTo rs (f.partType (labels f).marker) e v) →
          ∃ w, decode ⟨rs, [], []⟩ (.cls d.cls) g path = .ok w)) := by
  obtain ⟨es, hwritten, hes⟩ := h.exists_written hg
  rw [recordGroup_named hsingle hfirst] at hwritten
  subst hwritten
  have hadmits : ∀ f ∈ d.fields, (f.arity (labels f).marker).Admits (es f).length := fun f hf =>
    (hes f hf).2
  refine ⟨es, rfl, fun f hf => (hes f hf).1, fun hkeywords path => ⟨fun w hw => ?_, ?_⟩⟩
  · obtain ⟨fields, rfl, hfields⟩ := lookup_of_decode_named h hadmits hkeywords hw
    refine ⟨fields, rfl, fun f hf hout => ?_⟩
    have hlookup := hfields f hf _ hout ((hes f hf).1.2 hout)
    refine ⟨hlookup, ?_⟩
    rw [hlookup, Option.some.injEq]
    exact FieldDecl.refill_eq_iff hout
  · exact fun hcheck hgiven hdecodes =>
      exists_decode_named h hadmits hkeywords hcheck hgiven hdecodes path

end Decoders

/-- A text that has to be given. -/
def entryKey : FieldDecl := ⟨"key", some (.annotated (.cls .str) [.fieldName "key"]), none, true⟩

/-- Any number of texts. -/
def entryTags : FieldDecl :=
  ⟨"tags", some (.annotated (.list (.cls .str)) [.fieldName "tags", .marker .zeroOrMore false]),
    none, true⟩

/-- A text or nothing, perhaps with a default. -/
def entryNote (default : Option Default) : FieldDecl :=
  ⟨"note", some (.annotated (.unionOf false [.cls .str, .noneType])
    [.fieldName "note", .marker .optionalArg false]), default, true⟩

/-- A record of these fields. -/
def entryDecl (note : Option Default) : RecordDecl :=
  ⟨.record "Entry", [entryKey, entryTags, entryNote note], some "entry", none⟩

/-- How a field of an entry is labelled. -/
def entryLabel (f : FieldDecl) : Label :=
  ⟨f.name, if f.name = "tags" then some .zeroOrMore
    else if f.name = "note" then some .optionalArg else none⟩

theorem declared_entryDecl (note : Option Default) :
    (entryDecl note).Declared [entryDecl note] entryLabel where
  isRecord := rfl
  found := rfl
  labelled := by
    intro f hf
    simp only [entryDecl, List.mem_cons, List.not_mem_nil, or_false] at hf
    rcases hf with rfl | rfl | rfl <;> rfl
  lists := by
    intro f hf
    simp only [entryDecl, List.mem_cons, List.not_mem_nil, or_false] at hf
    rcases hf with rfl | rfl | rfl
    · intro hmany
      cases hmany
    · exact fun _ => ⟨.cls .str, rfl⟩
    · intro hmany
      cases hmany
  names := by simp [entryDecl, entryKey, entryTags, entryNote]
  labelNames := by simp [entryDecl, entryLabel, entryKey, entryTags, entryNote]

/-- The values of the fields of an entry without tags and without a note. -/
def entryValue (key : String) (f : FieldDecl) : Value :=
  if f.name = "key" then .str key else if f.name = "tags" then .list [] else .nothing

/-- What is written of them. -/
def entryGroup (key : String) : Expr :=
  .items .group [.ofName "entry", .ofName ":key", .leaf (.string key) none] .none

theorem decodesTo_entryKey (rs : Records) (key : String) :
    DecodesTo rs (entryKey.partType (entryLabel entryKey).marker) (.leaf (.string key) none)
      (.str key) := by
  intro n path hn
  obtain ⟨m, rfl⟩ := Nat.exists_eq_add_of_le' hn
  rfl

namespace Decoders

/-- Without a default the note comes back as nothing, and the tags as an empty list. -/
theorem decode_leftOut_entry :
    Value.encode [entryDecl none] ⟨false, [], false⟩ true
        (.record (.record "Entry") [("key", .str "x"), ("tags", .list []), ("note", .nothing)]) =
          .ok (entryGroup "x") ∧
      ∃ fields, decode ⟨[entryDecl none], [], []⟩ (.cls (.record "Entry")) (entryGroup "x")
          rootPath = .ok (.record (.record "Entry") fields) ∧
        fields.lookup "tags" = some (.list []) ∧ fields.lookup "note" = some .nothing := by
  have hg : ((entryDecl none).make (entryValue "x")).encode [entryDecl none] ⟨false, [], false⟩
      true = .ok (entryGroup "x") := rfl
  obtain ⟨es, hes, hout, hdecode⟩ := decode_leftOut (declared_entryDecl none) rfl rfl hg
  have htags : LeftOut (entryLabel entryTags).marker (entryValue "x" entryTags) := .noItems
  have hnote : LeftOut (entryLabel (entryNote none)).marker (entryValue "x" (entryNote none)) :=
    .nothing
  have hmem : entryTags ∈ (entryDecl none).fields ∧ entryNote none ∈ (entryDecl none).fields := by
    simp [entryDecl]
  have hnoTags : es entryTags = [] := (hout _ hmem.1).2 htags
  have hnoNote : es (entryNote none) = [] := (hout _ hmem.2).2 hnote
  have hkey : es entryKey = [.leaf (.string "x") none] := by
    cases hwritten : es entryKey with
    | nil => simp [entryDecl, entryGroup, writtenOf, hnoTags, hnoNote, hwritten] at hes
    | cons e more =>
      have hargs := hes.symm
      simp only [entryDecl, entryGroup, writtenOf, hnoTags, hnoNote, hwritten, WrittenField.named,
        List.flatMap_cons, List.flatMap_nil, List.isEmpty_nil, List.isEmpty_cons, if_true, if_false,
        Bool.false_eq_true, List.append_nil, Expr.items.injEq, List.cons.injEq] at hargs
      rw [hargs.2.1.2.2.1, hargs.2.1.2.2.2]
  have hall : ∀ f ∈ (entryDecl none).fields, ∀ e ∈ es f,
      f = entryKey ∧ e = .leaf (.string "x") none := by
    intro f hf e he
    simp only [entryDecl, List.mem_cons, List.not_mem_nil, or_false] at hf
    rcases hf with rfl | rfl | rfl
    · rw [hkey] at he
      exact ⟨rfl, List.mem_singleton.1 he⟩
    · rw [hnoTags] at he
      cases he
    · rw [hnoNote] at he
      cases he
  obtain ⟨hback, hexists⟩ := hdecode (fun f hf e he => by rw [(hall f hf e he).2]; rfl) rootPath
  obtain ⟨w, hw⟩ := hexists rfl (by simp [entryDecl, entryKey, entryTags, entryNote])
    fun f hf e he => by
      rw [(hall f hf e he).1, (hall f hf e he).2]
      exact ⟨_, decodesTo_entryKey _ "x"⟩
  obtain ⟨fields, rfl, hfields⟩ := hback w hw
  exact ⟨hg, fields, hw, (hfields _ hmem.1 htags).1, (hfields _ hmem.2 hnote).1⟩

/-- The note that is filled in if there is none. -/
theorem exists_decode_entryGroup (note : Option Default) (key path : String) :
    ∃ fields, decode ⟨[entryDecl note], [], []⟩ (.cls (.record "Entry")) (entryGroup key) path =
        .ok (.record (.record "Entry") fields) ∧
      fields.lookup "note" = some ((entryNote note).refill (some .optionalArg)) := by
  let es (f : FieldDecl) : List Expr := if f.name = "key" then [.leaf (.string key) none] else []
  have hes : ∀ f ∈ (entryDecl note).fields, (f.arity (entryLabel f).marker).Admits (es f).length ∧
      ∀ e ∈ es f, e.keyword? = none ∧
        DecodesTo [entryDecl note] (f.partType (entryLabel f).marker) e (.str key) := by
    intro f hf
    simp only [entryDecl, List.mem_cons, List.not_mem_nil, or_false] at hf
    rcases hf with rfl | rfl | rfl
    · refine ⟨(Holds.one (.str key)).admits entryKey, fun e he => ?_⟩
      rw [List.mem_singleton.1 he]
      exact ⟨rfl, decodesTo_entryKey _ key⟩
    · exact ⟨(Holds.zeroOrMore []).admits entryTags, fun e he => by cases he⟩
    · exact ⟨Holds.nothing.admits (entryNote note), fun e he => by cases he⟩
  have h := declared_entryDecl note
  have hadmits := fun f hf => (hes f hf).1
  have hkeywords := fun f hf e he => ((hes f hf).2 e he).1
  have hmem : entryNote note ∈ (entryDecl note).fields := by simp [entryDecl]
  obtain ⟨w, hw⟩ := exists_decode_named h hadmits hkeywords rfl
    (by simp [entryDecl, entryKey, entryTags, entryNote])
    (fun f hf e he => ⟨_, ((hes f hf).2 e he).2⟩) path
  obtain ⟨fields, rfl, hfields⟩ := lookup_of_decode_named h hadmits hkeywords hw
  exact ⟨fields, hw, hfields _ hmem _ .nothing rfl⟩

/-- With a default the note comes back as the default. -/
theorem decode_leftOut_default :
    Value.encode [entryDecl (some (.shared (.str "y")))] ⟨false, [], false⟩ true
        (.record (.record "Entry") [("key", .str "x"), ("tags", .list []), ("note", .nothing)]) =
          .ok (entryGroup "x") ∧
      ∃ fields, decode ⟨[entryDecl (some (.shared (.str "y")))], [], []⟩
          (.cls (.record "Entry")) (entryGroup "x") rootPath =
            .ok (.record (.record "Entry") fields) ∧
        fields.lookup "note" = some (.str "y") :=
  ⟨rfl, exists_decode_entryGroup (some (.shared (.str "y"))) "x" rootPath⟩

end Decoders

end Sexpr
