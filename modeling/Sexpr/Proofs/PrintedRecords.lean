/-
Printed records are read back.

A record of texts, integers and truth values is printed as a group of its tag and its fields. The
options of printing change which field goes without its name, but not what the text can be read
as: the record itself, or nothing.

* `Target.IsBasic` — the types of texts, integers and truth values;
* `Expr.Printable.items` — groups that are printed and read again;
* `Decoders.exists_print_record` — what is read of a printed record;
* `Decoders.readOne_print_record` — when two ways to print it are read alike.
-/
import Sexpr.Proofs.PositionalFields
import Sexpr.Proofs.SpanIndependence
import Sexpr.Proofs.TextContainers

namespace Sexpr

/-! ### Texts, integers and truth values -/

/-- The types of texts, integers and truth values. -/
def Target.IsBasic (t : Target) : Prop := t = .cls .str ∨ t = .cls .int ∨ t = .cls .bool

/-- A value that is written in one line and read again: a text without line ends that are kept, or
an integer that is not too long. -/
structure Value.IsWritable (v : Value) : Prop where
  text : ∀ s, v = .str s → ∀ c ∈ s.toList, c ∉ keptLineEnds
  int : ∀ i, v = .int i → i.natAbs < 10 ^ Numeral.maxDigits

theorem Leaf.Readable.printable {l : Leaf} (h : l.Readable) (hreal : ∀ r, l ≠ .real r)
    (hstring : ∀ s, l = .string s → ∀ c ∈ s.toList, c ∉ keptLineEnds)
    (span : Option TokenSpans) : (Expr.leaf l span).Printable := by
  refine Expr.ReadsBack.printable (.leaf (h.readsBack fun r hr => absurd hr (hreal r))) ?_
  intro s hs
  exact hstring s (List.mem_singleton.1 hs).symm

theorem Expr.printable_ofName {name : String} (h : (Leaf.atom name).Readable) :
    (Expr.ofName name).Printable :=
  h.printable (by simp) (by simp) none

theorem Expr.Printable.items {enclosure : Enclosure} {values : List Expr} {spans : BracketSpans}
    (h : ∀ v ∈ values, v.Printable) : (Expr.items enclosure values spans).Printable := by
  refine ⟨.items fun v hv => (h v hv).readsBack, fun leaf hleaf => ?_⟩
  obtain ⟨v, hv, hleaf⟩ := Expr.mem_leavesAll.1 hleaf
  exact (h v hv).oneLine leaf hleaf

/-- The name of an argument is a name that is no number. -/
theorem readable_argument {name : String} (h : (Leaf.atom name).Readable) :
    (Leaf.atom (":" ++ name)).Readable := by
  have hname : (":" ++ name).toList = ':' :: name.toList := by
    rw [String.toList_append]
    rfl
  have hcolon : isNameChar ':' = true := by decide +kernel
  refine ⟨⟨by rw [hname]; simp, ?_, ?_⟩, ?_⟩
  · rw [hname]
    exact List.forall_mem_cons.2 ⟨hcolon, h.1.isNameChar⟩
  · rw [hname]
    intro c hc
    cases hc
    decide
  · rw [hname]
    cases htoken : Numeral.ofToken? (':' :: name.toList) with
    | none => rfl
    | some n =>
      have hnumeral := Numeral.isNumeralChar_of_ofToken? htoken ':' List.mem_cons_self
      exact absurd hnumeral (by decide)

/-- A basic value is written as a leaf that is printed and decoded again. -/
theorem Plain.exists_leaf {rs : Records} {t : Target} (ht : t.IsBasic) {v : Value}
    (h : Plain rs t v) (hv : v.IsWritable) (o : EncodeOptions) :
    ∃ e, v.encode rs o true = .ok e ∧ (e.IsInert ∧ Plain rs t v ∧ DecodesTo rs t e v) ∧
      e.Printable ∧ e.dropSpans = e := by
  cases h with
  | str s =>
    have hinert : (Expr.leaf (.string s) none).IsInert := by
      intro name span heq
      cases heq
    refine ⟨.leaf (.string s) none, by rw [Value.encode]; rfl,
      ⟨hinert, .str s, .cls fun _ path => rfl⟩, ?_, rfl⟩
    have hread : (Leaf.string s).Readable := trivial
    refine hread.printable (by simp) (fun s' hs => ?_) none
    exact hv.text s' (congrArg Value.str (Leaf.string.inj hs))
  | int i =>
    have hinert : (Expr.ofInt i).IsInert := by
      intro name span heq
      cases heq
    refine ⟨.ofInt i, by rw [Value.encode], ⟨hinert, .int i, .cls fun _ path => rfl⟩, ?_, rfl⟩
    have hread : (Leaf.int i).Readable := hv.int i rfl
    exact hread.printable (by simp) (by simp) none
  | bool b =>
    refine ⟨.ofName (if b then "true" else "false"), by rw [Value.encode], ⟨?_, .bool b, ?_⟩,
      Expr.printable_ofName ?_, rfl⟩
    · intro name span heq
      cases heq
      cases b
      · exact .inr rfl
      · exact .inl rfl
    · cases b
      · exact .cls fun _ path => rfl
      · exact .cls fun _ path => rfl
    · cases b
      · exact ⟨by decide, by decide⟩
      · exact ⟨by decide, by decide⟩
  | record hclass =>
    rcases ht with ht | ht | ht
    all_goals
      rw [Target.cls.inj ht] at hclass
      cases hclass
  | _ => rcases ht with ht | ht | ht <;> cases ht

/-! ### Types of fields -/

section Types

variable {rs : Records} (hrecords : ∀ d ∈ rs, d.cls.isRecord = true)

include hrecords

/-- A class that is neither of records nor of expressions mentions itself only. -/
theorem exprFree_cls {c : ClassName} (hclass : c.isRecord = false) (hfree : c.holdsExpr = false)
    (hcore : coreRecords.all (fun d => d.cls != c) = true) : ExprFree rs (.cls c) := by
  intro c' hc'
  cases hc' with
  | cls => exact hfree
  | field hdecl =>
    rw [Decoders.find?_eq_none hrecords hclass hcore] at hdecl
    cases hdecl

theorem Target.IsBasic.exprFree {t : Target} (h : t.IsBasic) : ExprFree rs t := by
  rcases h with rfl | rfl | rfl
  · exact exprFree_cls hrecords rfl rfl rfl
  · exact exprFree_cls hrecords rfl rfl rfl
  · exact exprFree_cls hrecords rfl rfl rfl

omit hrecords in
theorem ExprFree.of_mem_members {t m : Target} (h : ExprFree rs t) (hm : m ∈ t.members) :
    ExprFree rs m := by
  cases t with
  | unionOf closed ms => exact fun c hc => h c (.member hm hc)
  | _ =>
    rw [List.mem_singleton.1 hm]
    exact h

omit hrecords in
theorem ExprFree.of_unwrap {t : Target} (h : ExprFree rs t.unwrap.1) : ExprFree rs t := by
  cases t with
  | annotated base notes =>
    intro c hc
    cases hc with
    | annotated hc => exact h c hc
  | _ => exact h

/-- A field that holds values of a type without expressions has such a type itself. -/
theorem ExprFree.of_wraps {t base : Target} {marker : Option Marker} (h : ExprFree rs t)
    (hwraps : Marker.Wraps t marker base) : ExprFree rs base := by
  have hlist : ExprFree rs (.list t) := by
    intro c hc
    cases hc with
    | list hc => exact h c hc
  cases marker with
  | none =>
    rw [show base = t from hwraps]
    exact h
  | some m =>
    cases m with
    | zeroOrMore =>
      rw [show base = .list t from hwraps]
      exact hlist
    | oneOrMore =>
      rw [show base = .list t from hwraps]
      exact hlist
    | optionalArg =>
      obtain ⟨closed, hmembers⟩ := show IsOptional t base from hwraps
      intro c hc
      cases hc with
      | member hm hc =>
        rcases List.mem_append.1 hm with hm | hm
        · exact h.of_mem_members (hmembers ▸ List.mem_append_left _ hm) c hc
        · rcases List.mem_cons.1 hm with rfl | hm
          · exact exprFree_cls hrecords rfl rfl rfl c hc
          · exact h.of_mem_members (hmembers ▸ List.mem_append_right _ hm) c hc

theorem RecordDecl.IsPlain.exprFree {d : RecordDecl} {labels : FieldDecl → Label}
    {types : FieldDecl → Target} (h : d.IsPlain labels types) (hclass : d.cls.isRecord = true)
    (hfind : rs.find? d.cls = some d) (hbasic : ∀ f ∈ d.fields, (types f).IsBasic) :
    ExprFree rs (.cls d.cls) := by
  intro c hc
  cases hc with
  | cls =>
    cases hcls : d.cls with
    | record name => rfl
    | pos => rfl
    | _ => rw [hcls] at hclass; cases hclass
  | field hdecl hf hc =>
    obtain rfl := Option.some.inj (hfind.symm.trans hdecl)
    have htype : ExprFree rs _ :=
      ((hbasic _ hf).exprFree hrecords).of_wraps hrecords (h.fields _ hf).type
    exact htype.of_unwrap c hc

end Types

/-! ### Groups -/

/-- What holds of a tag, of the names of fields and of their values holds of all items of the
group of a record. -/
theorem exists_recordGroup {P : Expr → Prop} {tag : String} {labels : FieldDecl → Label}
    {es : FieldDecl → List Expr} {fields : List FieldDecl} (htag : P (.ofName tag))
    (hlabels : ∀ f ∈ fields, P (.ofName (":" ++ (labels f).name)))
    (hes : ∀ f ∈ fields, ∀ e ∈ es f, P e) (o : EncodeOptions) :
    ∃ items, recordGroup o tag (writtenOf labels es fields) = .items .group items .none ∧
      ∀ e ∈ items, P e := by
  have hvalues : ∀ w ∈ writtenOf labels es fields, ∀ e ∈ w.values, P e := by
    intro w hw
    obtain ⟨f, hf, hw⟩ := List.mem_flatMap.1 hw
    split_ifs at hw
    · cases hw
    · rw [List.mem_singleton.1 hw]
      exact hes f hf
  have hnamed : ∀ w ∈ writtenOf labels es fields, ∀ e ∈ w.named, P e := by
    intro w hw
    refine List.forall_mem_cons.2 ⟨?_, hvalues w hw⟩
    obtain ⟨f, hf, hw⟩ := List.mem_flatMap.1 hw
    split_ifs at hw
    · cases hw
    · rw [List.mem_singleton.1 hw]
      exact hlabels f hf
  generalize writtenOf labels es fields = written at hvalues hnamed
  refine ⟨_, rfl, List.forall_mem_cons.2 ⟨htag, ?_⟩⟩
  cases written with
  | nil => simp
  | cons first rest =>
    obtain ⟨hfirst, hrest⟩ := List.forall_mem_cons.1 hnamed
    refine List.forall_mem_append.2 ⟨?_, fun e he => ?_⟩
    · split_ifs
      · exact hvalues first List.mem_cons_self
      · exact hfirst
    · obtain ⟨w, hw, he⟩ := List.mem_flatMap.1 he
      exact hrest w hw e he

theorem Alike.eq_ok_iff {α : Type} {x y : Except Failure α} (h : Alike x y) {a : α} :
    x = .ok a ↔ y = .ok a := by
  cases h with
  | ok b => exact Iff.rfl
  | decode => simp
  | failure f => exact Iff.rfl

/-! ### Records -/

/-- A record of texts, integers and truth values. Its tag and the names of its fields are names
and no numbers. -/
structure RecordDecl.IsBasic (d : RecordDecl) (labels : FieldDecl → Label)
    (types : FieldDecl → Target) : Prop extends d.IsPlain labels types where
  basic : ∀ f ∈ d.fields, (types f).IsBasic
  tag : (Leaf.atom d.tag).Readable
  labels : ∀ f ∈ d.fields, (Leaf.atom (labels f).name).Readable

/-- The values of the fields of a record, and the parts of each that are written. -/
structure RecordDecl.Fills (rs : Records) (d : RecordDecl) (labels : FieldDecl → Label)
    (types : FieldDecl → Target) (values : FieldDecl → Value) (parts : FieldDecl → List Value) :
    Prop where
  holds : ∀ f ∈ d.fields, Holds (labels f).marker (values f) (parts f)
  typed : ∀ f ∈ d.fields, ∀ v ∈ parts f, Plain rs (types f) v
  writable : ∀ f ∈ d.fields, ∀ v ∈ parts f, v.IsWritable

/-- Whether options leave no doubt whose values stand in front: the first written field goes with
its name, or its values can be its own only. -/
def EncodeOptions.Settles (o : EncodeOptions) (d : RecordDecl) (labels : FieldDecl → Label)
    (parts : FieldDecl → List Value) : Prop :=
  o.LeadsBare labels (d.fields.filter fun f => !(parts f).isEmpty) →
    OwnsFront (d.fields.map fun f => (f.arity (labels f).marker, (parts f).length))

theorem EncodeOptions.settles_iff {o : EncodeOptions} {d : RecordDecl}
    {labels : FieldDecl → Label} {parts : FieldDecl → List Value} {es : FieldDecl → List Expr}
    (h : ∀ f ∈ d.fields, (es f).length = (parts f).length) :
    o.Settles d labels parts ↔
      (o.LeadsBare labels (d.fields.filter fun f => !(es f).isEmpty) →
        OwnsFront (d.fields.map fun f => (f.arity (labels f).marker, (es f).length))) := by
  have hwritten : (d.fields.filter fun f => !(parts f).isEmpty) =
      d.fields.filter fun f => !(es f).isEmpty := by
    refine List.filter_congr fun f hf => congrArg (!·) ?_
    rw [Bool.eq_iff_iff, List.isEmpty_iff_length_eq_zero, List.isEmpty_iff_length_eq_zero, h f hf]
  have hshape : (d.fields.map fun f => (f.arity (labels f).marker, (parts f).length)) =
      d.fields.map fun f => (f.arity (labels f).marker, (es f).length) :=
    List.map_congr_left fun f hf => by rw [h f hf]
  rw [EncodeOptions.Settles, hwritten, hshape]

namespace Decoders

/-- A printed expression is read as what it is decoded as. -/
theorem exists_print_of_printable {rs : Records} {t : Target} (hfree : ExprFree rs t)
    {o : PrintOptions} {l : Layout} (hl : o.layout = .ok l) {v : Value} {e : Expr}
    (hdoc : v.toDocument rs o.encode = .ok ⟨[e], none⟩) (hdrop : e.dropSpans = e)
    (hprint : e.Printable) :
    ∃ text, v.print rs o = .ok text ∧ ∀ w, readOne ⟨rs, [], []⟩ t text = .ok w ↔
      decode ⟨rs, [], []⟩ t e rootPath = .ok w := by
  obtain ⟨text, hformat, hwritten⟩ := hprint.exists_format l l.pretty 0
  obtain ⟨doc, e', hread, hexprs, hsame⟩ :=
    Document.exists_read (hwritten.spelledAs hprint.readsBack)
  refine ⟨text, ?_, fun w => ?_⟩
  · rw [Value.print_eq_format hl hdoc hdrop hprint.readsBack.hasBare, hformat]
    rfl
  · have halike := (alike_decode hfree e' rootPath).eq_ok_iff (a := w)
    rw [hsame, hdrop] at halike
    rw [← halike, show readOne ⟨rs, [], []⟩ t text = read ⟨rs, [], []⟩ (some t) text true from rfl,
      read_eq_ok_iff]
    constructor
    · rintro ⟨doc', e'', hread', hexprs', hv⟩
      obtain rfl := Except.ok.inj (hread.symm.trans hread')
      obtain rfl := (List.cons.inj (hexprs.symm.trans hexprs')).1
      exact hv
    · intro hv
      exact ⟨doc, e', hread, hexprs, hv⟩

/-- What is read of a printed record: the record, or nothing if it is in doubt whose values stand
in front. -/
theorem exists_print_record {rs : Records} (hrecords : ∀ d ∈ rs, d.cls.isRecord = true)
    {d : RecordDecl} {labels : FieldDecl → Label} {types : FieldDecl → Target}
    (h : d.IsBasic labels types) (hclass : d.cls.isRecord = true)
    (hfind : rs.find? d.cls = some d) {values : FieldDecl → Value}
    {parts : FieldDecl → List Value} (hfills : d.Fills rs labels types values parts)
    {o : PrintOptions} {l : Layout} (hl : o.layout = .ok l) :
    ∃ text, (d.make values).print rs o = .ok text ∧ ∀ v,
      readOne ⟨rs, [], []⟩ (.cls d.cls) text = .ok v ↔
        v = d.make values ∧ o.encode.Settles d labels parts := by
  obtain ⟨es, hes⟩ := exists_fieldExprs fun f hf v hv =>
    (hfills.typed f hf v hv).exists_leaf (h.basic f hf) (hfills.writable f hf v hv) o.encode
  have hdecode : ∀ f ∈ d.fields, List.Forall₂ (fun e v => e.IsInert ∧ Plain rs (types f) v ∧
      DecodesTo rs (types f) e v) (es f) (parts f) := fun f hf =>
    (hes f hf).2.imp fun e v hv => hv.1
  have hleaves : ∀ f ∈ d.fields, ∀ e ∈ es f, e.Printable ∧ e.dropSpans = e := by
    intro f hf
    have hall := (hes f hf).2.imp fun e v hv => And.intro hv.2 trivial
    exact ((List.forall₂_and_left _ _).1 hall).1
  -- the group is written in full, whatever the options
  obtain ⟨items, hgroup, hitems⟩ : ∃ items,
      recordGroup o.encode d.tag (writtenOf labels es d.fields) = .items .group items .none ∧
        ∀ e ∈ items, e.Printable ∧ e.dropSpans = e :=
    exists_recordGroup ⟨Expr.printable_ofName h.tag, rfl⟩ (fun f hf =>
      ⟨Expr.printable_ofName (readable_argument (h.labels f hf)), rfl⟩) hleaves o.encode
  have hencode := h.encode_make hfind hfills.holds (fun f hf => (hes f hf).1) true
  have hdrop : (Expr.items .group items .none).dropSpans = .items .group items .none := by
    rw [Expr.dropSpans, Expr.dropSpansAll_eq_map, List.map_congr_left fun e he => (hitems e he).2,
      List.map_id']
  have hdoc : (d.make values).toDocument rs o.encode =
      .ok ⟨[.items .group items .none], none⟩ := by
    show ((d.make values).encode rs o.encode true >>= _) = _
    rw [hencode, hgroup]
    rfl
  obtain ⟨text, htext, hread⟩ := exists_print_of_printable
    (h.exprFree hrecords hclass hfind h.basic) hl hdoc hdrop (.items fun e he => (hitems e he).1)
  refine ⟨text, htext, fun v => ?_⟩
  rw [hread v, ← hgroup, EncodeOptions.settles_iff fun f hf => (hdecode f hf).length_eq]
  exact decode_recordGroup hrecords h.toIsPlain hclass hfind hfills.holds hdecode o.encode

/-- However a record of texts, integers and truth values is printed, nothing else is read of it.
Two ways to print it are both read, and alike, if neither leaves it in doubt whose values stand in
front, and only then. -/
theorem readOne_print_record {rs : Records} (hrecords : ∀ d ∈ rs, d.cls.isRecord = true)
    {d : RecordDecl} {labels : FieldDecl → Label} {types : FieldDecl → Target}
    (h : d.IsBasic labels types) (hclass : d.cls.isRecord = true)
    (hfind : rs.find? d.cls = some d) {values : FieldDecl → Value}
    {parts : FieldDecl → List Value} (hfills : d.Fills rs labels types values parts)
    {o o' : PrintOptions} {l l' : Layout} (hl : o.layout = .ok l) (hl' : o'.layout = .ok l') :
    ∃ text text', (d.make values).print rs o = .ok text ∧
      (d.make values).print rs o' = .ok text' ∧
      (∀ v, readOne ⟨rs, [], []⟩ (.cls d.cls) text = .ok v ∨
        readOne ⟨rs, [], []⟩ (.cls d.cls) text' = .ok v → v = d.make values) ∧
      ((∃ v, readOne ⟨rs, [], []⟩ (.cls d.cls) text = .ok v ∧
          readOne ⟨rs, [], []⟩ (.cls d.cls) text' = .ok v) ↔
        o.encode.Settles d labels parts ∧ o'.encode.Settles d labels parts) := by
  obtain ⟨text, htext, hread⟩ := exists_print_record hrecords h hclass hfind hfills hl
  obtain ⟨text', htext', hread'⟩ := exists_print_record hrecords h hclass hfind hfills hl'
  refine ⟨text, text', htext, htext', ?_, ?_⟩
  · rintro v (hv | hv)
    · exact ((hread v).1 hv).1
    · exact ((hread' v).1 hv).1
  · constructor
    · rintro ⟨v, hv, hv'⟩
      exact ⟨((hread v).1 hv).2, ((hread' v).1 hv').2⟩
    · rintro ⟨hsettles, hsettles'⟩
      exact ⟨_, (hread _).2 ⟨rfl, hsettles⟩, (hread' _).2 ⟨rfl, hsettles'⟩⟩

end Decoders

/-- A pair of texts that may both be left out. -/
def pairDecl : RecordDecl where
  cls := .record "Pair"
  fields :=
    [⟨"a", some (.annotated (.unionOf false [.cls .str, .noneType])
        [.fieldName "a", .marker .optionalArg false]), none, true⟩,
      ⟨"b", some (.annotated (.unionOf false [.cls .str, .noneType])
        [.fieldName "b", .marker .optionalArg false]), none, true⟩]
  ownTag := some "pair"
  check := none

/-- How a field of a pair is labelled. -/
def pairLabel (f : FieldDecl) : Label := ⟨f.name, some .optionalArg⟩

theorem pairDecl_isBasic : pairDecl.IsBasic pairLabel fun _ => .cls .str where
  names := by decide
  labelNames := by decide
  fields := by
    intro f hf
    simp only [pairDecl, List.mem_cons, List.not_mem_nil, or_false] at hf
    rcases hf with rfl | rfl
    · exact ⟨rfl, rfl, @IsOptional.intro _ false [_] [] rfl, fun _ => rfl,
        by simp [FieldDecl.type, Target.unwrap]⟩
    · exact ⟨rfl, rfl, @IsOptional.intro _ false [_] [] rfl, fun _ => rfl,
        by simp [FieldDecl.type, Target.unwrap]⟩
  check := rfl
  basic := fun _ _ => .inl rfl
  tag := ⟨by decide, by decide⟩
  labels := by
    intro f hf
    simp only [pairDecl, List.mem_cons, List.not_mem_nil, or_false] at hf
    rcases hf with rfl | rfl
    · exact ⟨by decide, by decide⟩
    · exact ⟨by decide, by decide⟩

/-- The values of the fields of a pair. -/
def pairValue (a b : Value) (f : FieldDecl) : Value := if f.name = "a" then a else b

theorem Value.isWritable_str {s : String} (h : ∀ c ∈ s.toList, c ∉ keptLineEnds) :
    (Value.str s).IsWritable where
  text := by
    rintro _ ⟨⟩
    exact h
  int := by simp

/-- What a pair of texts is written of. -/
theorem pairDecl_fills {a b : Value} {as bs : List String}
    (ha : Holds (some .optionalArg) a (as.map .str)) (hb : Holds (some .optionalArg) b (bs.map .str))
    (hwritable : ∀ s ∈ as ++ bs, ∀ c ∈ s.toList, c ∉ keptLineEnds) :
    pairDecl.Fills [pairDecl] pairLabel (fun _ => .cls .str) (pairValue a b)
      fun f => (if f.name = "a" then as else bs).map .str where
  holds := by
    intro f hf
    simp only [pairDecl, List.mem_cons, List.not_mem_nil, or_false] at hf
    rcases hf with rfl | rfl
    · exact ha
    · exact hb
  typed := by
    intro f _ v hv
    obtain ⟨s, -, rfl⟩ := List.mem_map.1 hv
    exact .str s
  writable := by
    intro f _ v hv
    obtain ⟨s, hs, rfl⟩ := List.mem_map.1 hv
    refine Value.isWritable_str (hwritable s ?_)
    split_ifs at hs
    · exact List.mem_append_left _ hs
    · exact List.mem_append_right _ hs

namespace Decoders

/-- A pair is read whether its first text goes without its name or with it. -/
theorem readOne_print_record_pair :
    ∃ text text',
      Value.print [pairDecl] ⟨none, 88, ⟨true, ["a"], false⟩⟩
        (.record (.record "Pair") [("a", .str "x"), ("b", .str ":a")]) = .ok text ∧
      Value.print [pairDecl] ⟨none, 20, ⟨false, [], false⟩⟩
        (.record (.record "Pair") [("a", .str "x"), ("b", .str ":a")]) = .ok text' ∧
      ∃ v, readOne ⟨[pairDecl], [], []⟩ (.cls (.record "Pair")) text = .ok v ∧
        readOne ⟨[pairDecl], [], []⟩ (.cls (.record "Pair")) text' = .ok v := by
  have hfills := @pairDecl_fills (.str "x") (.str ":a") ["x"] [":a"] (.something (by simp))
    (.something (by simp)) (by simp [keptLineEnds])
  obtain ⟨text, text', htext, htext', -, hread⟩ := @readOne_print_record [pairDecl] (by decide)
    pairDecl pairLabel (fun _ => .cls .str) pairDecl_isBasic rfl rfl _ _ hfills
    ⟨none, 88, ⟨true, ["a"], false⟩⟩ ⟨none, 20, ⟨false, [], false⟩⟩ _ _ rfl rfl
  refine ⟨text, text', htext, htext', hread.2 ⟨fun _ => ?_, ?_⟩⟩
  · -- the other text has been given its name, so there is no room for the one in front
    exact .inr ⟨fun hroom => absurd (hroom 1 rfl) (by decide), fun _ => trivial⟩
  · rintro (⟨hsingle, -⟩ | hfirst | hfirst)
    · cases hsingle
    · cases hfirst
    · cases hfirst

/-- The only text of a pair goes without its name, and could be the second one as well as the
first. -/
theorem readOne_print_half_pair :
    Value.print [pairDecl] .concise (.record (.record "Pair") [("a", .str "x"), ("b", .nothing)]) =
        .ok "(pair \"x\")" ∧
      ∀ v, readOne ⟨[pairDecl], [], []⟩ (.cls (.record "Pair")) "(pair \"x\")" ≠ .ok v := by
  have hprint : Value.print [pairDecl] .concise
      (.record (.record "Pair") [("a", .str "x"), ("b", .nothing)]) = .ok "(pair \"x\")" := rfl
  have hfills := @pairDecl_fills (.str "x") .nothing ["x"] [] (.something (by simp)) .nothing
    (by simp [keptLineEnds])
  obtain ⟨text, htext, hread⟩ := exists_print_record (by decide) pairDecl_isBasic rfl rfl hfills
    layout_concise
  obtain rfl := Except.ok.inj (hprint.symm.trans htext)
  refine ⟨hprint, fun v hv => ?_⟩
  have howns := ((hread v).1 hv).2 (.inl ⟨rfl, rfl⟩)
  rcases howns with ⟨hneeds, -⟩ | ⟨hfull, -⟩
  · cases hneeds
  · refine hfull fun m hm => ?_
    cases hm
    decide

end Decoders

end Sexpr
