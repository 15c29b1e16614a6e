/-
Values of plain types are decoded from their expressions.

If all fields of records go with their names, then the expression of a value of a plain type is
decoded into the value again. The induction is on how the value is built; what it carries along is
that a value in a field is not written as an atom, truth values apart, so that it is taken neither
for the name of a field nor for a word that stands for nothing.

* `DecodesTo` — an expression is decoded into a value, if decoding may go as deep as it is;
* `Decoders.decodeBase_optional` — an optional type admits what the type admits;
* `DecodesTo.list`, `DecodesTo.dict`, `DecodesTo.record`, `DecodesTo.union` — one level;
* `Decoders.decode_encode` — all levels.
-/
import Sexpr.Proofs.RecordGroups

namespace Sexpr

/-! ### Encoding lists and dictionaries -/

section

variable {rs : Records} {o : EncodeOptions} {P : Expr → Value → Prop}

theorem exists_encodeAll {inField : Bool} {vs : List Value}
    (h : ∀ v ∈ vs, ∃ e, v.encode rs o inField = .ok e ∧ P e v) :
    ∃ es, Value.encodeAll rs o inField vs = .ok es ∧ List.Forall₂ P es vs := by
  induction vs with
  | nil => exact ⟨[], rfl, .nil⟩
  | cons v vs ih =>
    obtain ⟨⟨e, he, hp⟩, hvs⟩ := List.forall_mem_cons.1 h
    obtain ⟨es, hes, hps⟩ := ih hvs
    refine ⟨e :: es, ?_, .cons hp hps⟩
    rw [Value.encodeAll, he, hes]
    rfl

theorem exists_encodeEntries {entries : List (String × Value)}
    (h : ∀ entry ∈ entries, ∃ e, entry.2.encode rs o false = .ok e ∧ P e entry.2) :
    ∃ fs, Value.encodeEntries rs o (entries.map fun entry => (.str entry.1, entry.2)) = .ok fs ∧
      List.Forall₂ (fun f entry => f.key = encodeText false entry.1 ∧ P f.value entry.2)
        fs entries := by
  induction entries with
  | nil => exact ⟨[], rfl, .nil⟩
  | cons entry entries ih =>
    obtain ⟨⟨e, he, hp⟩, hentries⟩ := List.forall_mem_cons.1 h
    obtain ⟨fs, hfs, hps⟩ := ih hentries
    refine ⟨⟨encodeText false entry.1, e, none⟩ :: fs, ?_, .cons ⟨rfl, hp⟩ hps⟩
    rw [List.map_cons, Value.encodeEntries, Value.encode, he, hfs]
    rfl

end

/-! ### Decoding dictionaries and unions -/

namespace Decoders

variable {rs : Records} {down : DecodeFn}

theorem decodeStr_encodeText (inField : Bool) (s path : String) :
    decodeStr (.expr (encodeText inField s)) path = .ok (.str s) := by
  unfold encodeText
  split_ifs
  · rfl
  · rfl

/-- Entries with different texts as keys are added one by one. -/
theorem decodeEntries_eq_ok {value : Target} {fs : List Field} {entries : List (String × Value)}
    (h : List.Forall₂ (fun f entry =>
      (∀ path, down (.cls .str) (.expr f.key) path = .ok (.str entry.1)) ∧
        ∀ path, down value (.expr f.value) path = .ok entry.2) fs entries)
    (hnodup : (entries.map Prod.fst).Nodup) {es : Entries}
    (hnew : ∀ entry ∈ entries, ∀ old ∈ es, old.1.sameKey (.str entry.1) = false)
    (whole : Subject) (path : String) (i : Nat) :
    decodeEntries down (.cls .str) value whole path i fs es =
      .ok (es ++ entries.map fun entry => (.str entry.1, entry.2)) := by
  induction h generalizing es i with
  | nil =>
    rw [decodeEntries, List.map_nil, List.append_nil]
  | @cons f entry fs entries hf _ ih =>
    obtain ⟨hentry, hentries⟩ := List.forall_mem_cons.1 hnew
    rw [List.map_cons, List.nodup_cons] at hnodup
    have hput : es.put (.str entry.1) entry.2 = .ok (es ++ [(.str entry.1, entry.2)]) := by
      have hany : es.any (fun e => e.1.sameKey (.str entry.1)) = false := by
        rw [List.any_eq_false]
        intro old hold
        rw [hentry old hold]
        decide
      show Except.ok (es.set _ _) = _
      rw [Entries.set, hany]
      rfl
    have hfresh : ∀ new ∈ entries, ∀ old ∈ es ++ [(Value.str entry.1, entry.2)],
        old.1.sameKey (.str new.1) = false := by
      intro new hmem old hold
      rcases List.mem_append.1 hold with hold | hold
      · exact hentries new hmem old hold
      · have hne : entry.1 ≠ new.1 := fun heq => hnodup.1 (heq ▸ List.mem_map_of_mem hmem)
        rw [List.mem_singleton.1 hold]
        simpa [Value.sameKey] using hne
    simp only [decodeEntries, hf.1, hf.2, bind, Except.bind, hput]
    rw [ih hnodup.2 hfresh, List.map_cons, List.append_assoc, List.singleton_append]

theorem decodeBase_cls {d : Decoders} {c : ClassName} (hregistered : d.registered? (.cls c) = none)
    (s : Subject) (path : String) :
    decodeBase d down (.cls c) s path = decodeClass d down c s path := by
  unfold decodeBase
  rw [hregistered]

theorem decodeBase_record {c : ClassName} (hclass : c.isRecord = true) {d : RecordDecl}
    (hfind : rs.find? c = some d) (s : Subject) (path : String) :
    decodeBase ⟨rs, [], []⟩ down (.cls c) s path = decodeRecord down d s path := by
  rw [decodeBase_cls rfl]
  unfold decodeClass
  cases c with
  | record name => dsimp only; rw [hfind]
  | pos => dsimp only; rw [hfind]
  | _ => cases hclass

theorem find?_eq_none (hrecords : ∀ d ∈ rs, d.cls.isRecord = true) {c : ClassName}
    (hclass : c.isRecord = false) (hcore : coreRecords.all (fun d => d.cls != c) = true) :
    rs.find? c = none := by
  unfold Records.find?
  rw [List.find?_eq_none]
  intro d hd
  rw [Bool.not_eq_true, beq_eq_false_iff_ne]
  rcases List.mem_append.1 hd with hd | hd
  · rintro rfl
    rw [hrecords d hd] at hclass
    cases hclass
  · exact bne_iff_ne.1 (List.all_eq_true.1 hcore d hd)

/-! ### Unions -/

theorem sharedTag?_eq_none {seen ds : List RecordDecl} (htags : (ds.map RecordDecl.tag).Nodup)
    (hseen : ∀ e ∈ seen, ∀ d ∈ ds, e.tag ≠ d.tag) : sharedTag? seen ds = none := by
  induction ds generalizing seen with
  | nil => rfl
  | cons d ds ih =>
    rw [List.map_cons, List.nodup_cons] at htags
    have hd : (seen.any fun e => e.tag == d.tag && e.cls != d.cls) = false := by
      rw [List.any_eq_false]
      intro e he
      simp [hseen e he d List.mem_cons_self]
    rw [sharedTag?, hd]
    refine ih htags.2 fun e he d' hd' => ?_
    rcases List.mem_cons.1 he with rfl | he
    · exact fun heq => htags.1 (heq ▸ List.mem_map_of_mem hd')
    · exact hseen e he d' (List.mem_cons_of_mem d hd')

/-- Among records with different tags the tag finds the right one. -/
theorem decodeRecordUnion_of_tag {ds : List RecordDecl} (htags : (ds.map RecordDecl.tag).Nodup)
    {d : RecordDecl} (hd : d ∈ ds) (tagSpan : Option TokenSpans) (args : List Expr)
    (spans : BracketSpans) (path : String) :
    decodeRecordUnion down ds (.expr (.items .group (.leaf (.atom d.tag) tagSpan :: args) spans))
        path =
      decodeRecord down d (.expr (.items .group (.leaf (.atom d.tag) tagSpan :: args) spans))
        path := by
  have hfind : ds.find? (·.tag = d.tag) = some d := by
    rw [← find?_of_mem htags hd]
    rfl
  unfold decodeRecordUnion
  dsimp only
  rw [sharedTag?_eq_none htags (by simp)]
  dsimp only
  rw [hfind]

theorem decodeRecordUnion_of_decodeRecord {ds : List RecordDecl}
    (htags : (ds.map RecordDecl.tag).Nodup) {d : RecordDecl} (hd : d ∈ ds) {s : Subject}
    {path : String} {v : Value} (h : decodeRecord down d s path = .ok v) :
    decodeRecordUnion down ds s path = .ok v := by
  obtain ⟨tagSpan, args, spans, _, _, _, rfl, -⟩ := decodeRecord_eq_ok h
  rw [decodeRecordUnion_of_tag htags hd]
  exact h

/-- The record of a type, if the type is a class of records. -/
def recordOf? (d : Decoders) : Target → Option RecordDecl
  | .cls c => d.records.find? c
  | _ => none

theorem recordOf?_eq_some_iff {d : Decoders} {t : Target} {decl : RecordDecl} :
    d.recordOf? t = some decl ↔ ∃ c, t = .cls c ∧ d.records.find? c = some decl := by
  cases t <;> simp [recordOf?]

/-- The records of a union are those of its members, the type of nothing apart. -/
theorem recordMembers?_eq_some_iff {d : Decoders} {members : List Target}
    {decls : List RecordDecl} :
    d.recordMembers? members = some decls ↔ decls ≠ [] ∧
      List.Forall₂ (fun t decl => d.recordOf? t = some decl)
        ((members.map (·.unwrap.1)).filter fun t => !t.same .noneType) decls := by
  have hunfold : d.recordMembers? members =
      let others := (members.map (·.unwrap.1)).filter fun t => !t.same .noneType
      let records := others.filterMap d.recordOf?
      if records.isEmpty || records.length ≠ others.length then none else some records := rfl
  rw [hunfold, forall₂_eq_some_iff]
  dsimp only
  split_ifs with h
  · rw [Bool.or_eq_true, List.isEmpty_iff, decide_eq_true_iff] at h
    constructor
    · intro hnone
      cases hnone
    · rintro ⟨hne, rfl, hlength⟩
      rcases h with h | h
      · exact absurd h hne
      · exact absurd hlength h
  · rw [Bool.or_eq_true, List.isEmpty_iff, decide_eq_true_iff, not_or, not_not] at h
    constructor
    · intro hdecls
      cases hdecls
      exact ⟨h.1, rfl, h.2⟩
    · rintro ⟨-, hdecls, -⟩
      rw [hdecls]

theorem recordMembers?_eq_some {d : Decoders} {ds : List RecordDecl} (hne : ds ≠ [])
    (hfind : ∀ r ∈ ds, d.records.find? r.cls = some r) (hclass : ∀ r ∈ ds, r.cls ≠ .none) :
    recordMembers? d (ds.map fun r => .cls r.cls) = some ds := by
  have hothers : ((ds.map fun r => Target.cls r.cls).map (·.unwrap.1)).filter
      (fun t => !t.same .noneType) = ds.map fun r => .cls r.cls := by
    rw [List.map_map]
    refine List.filter_eq_self.2 fun t ht => ?_
    obtain ⟨r, hr, rfl⟩ := List.mem_map.1 ht
    show (!(Target.cls r.cls).same (.cls .none)) = true
    rw [Target.same, Bool.not_eq_true', beq_eq_false_iff_ne]
    exact hclass r hr
  rw [recordMembers?_eq_some_iff, hothers, List.forall₂_map_left_iff, List.forall₂_same]
  exact ⟨hne, hfind⟩

theorem ne_none_of_isRecord {c : ClassName} (h : c.isRecord = true) : c ≠ .none := by
  rintro rfl
  cases h

/-- The type of nothing is no member that counts. -/
theorem recordMembers?_noneType (d : Decoders) (front back : List Target) :
    d.recordMembers? (front ++ .noneType :: back) = d.recordMembers? (front ++ back) := by
  unfold recordMembers?
  have hnone : Target.noneType.unwrap.1.same .noneType = true := same_noneType_iff.2 rfl
  simp [hnone]

theorem decodeBase_unionOf {d : Decoders} {members : List Target} {ds : List RecordDecl}
    (h : recordMembers? d members = some ds) {closed : Bool}
    (hregistered : d.registered? (.unionOf closed members) = none) (s : Subject) (path : String) :
    decodeBase d down (.unionOf closed members) s path = decodeRecordUnion down ds s path := by
  rw [decodeBase, hregistered, h]

/-- A type that is neither a union nor one of records, and has no notes. -/
structure IsSingle (rs : Records) (t : Target) : Prop where
  members : t.members = [t]
  unwrap : t.unwrap = (t, [])
  something : t.same .noneType = false
  records : recordMembers? ⟨rs, [], []⟩ [t] = none

theorem recordMembers?_single {t : Target} (hunwrap : t.unwrap = (t, []))
    (h : ∀ c, t = .cls c → rs.find? c = none) : recordMembers? ⟨rs, [], []⟩ [t] = none := by
  unfold recordMembers?
  rw [List.map_singleton, hunwrap]
  cases hsame : t.same .noneType with
  | true => simp [hsame]
  | false =>
    cases t with
    | cls c => simp [hsame, h c rfl]
    | _ => simp [hsame]

theorem isSingle_cls {c : ClassName} (hnone : c ≠ .none) (hfind : rs.find? c = none) :
    IsSingle rs (.cls c) where
  members := rfl
  unwrap := rfl
  something := by
    rw [Target.noneType, Target.same]
    exact beq_false_of_ne hnone
  records := recordMembers?_single rfl fun c' heq => by
    cases heq
    exact hfind

theorem isSingle_list (item : Target) : IsSingle rs (.list item) where
  members := rfl
  unwrap := rfl
  something := by simp [Target.noneType, Target.same]
  records := recordMembers?_single rfl fun c' heq => by cases heq

theorem isSingle_dict (key value : Target) : IsSingle rs (.dict key value) where
  members := rfl
  unwrap := rfl
  something := by simp [Target.noneType, Target.same]
  records := recordMembers?_single rfl fun c' heq => by cases heq

theorem decodeMembers_single {t : Target} (h : IsSingle rs t) {front back : List Target}
    (hmembers : front ++ back = [t]) {s : Subject} {path : String} {v : Value}
    (hv : decodeBase ⟨rs, [], []⟩ down t s path = .ok v) (first : Option Failure) :
    decodeMembers ⟨rs, [], []⟩ down (front ++ .noneType :: back) first s path =
      .ok (.inr v) := by
  have hself : ∀ rest, decodeMembers ⟨rs, [], []⟩ down (t :: rest) first s path =
      .ok (.inr v) := by
    intro rest
    have hsome : ¬ t.unwrap.1.same .noneType = true := by rw [h.unwrap, h.something]; decide
    rw [decodeMembers, if_neg hsome, hv]
  rcases List.append_eq_singleton_iff.1 hmembers with ⟨rfl, rfl⟩ | ⟨rfl, rfl⟩
  · have hnone : Target.noneType.unwrap.1.same .noneType = true := same_noneType_iff.2 rfl
    rw [List.nil_append, decodeMembers, if_pos hnone]
    exact hself []
  · exact hself [.noneType]

/-- What is decoded into a value of a type, and is no word for nothing, is decoded into it as one of
the optional type too. -/
theorem decodeBase_optional (hrecords : ∀ d ∈ rs, d.cls.isRecord = true) {t base : Target}
    (hbase : IsOptional t base) {v : Value} (hplain : Plain rs t v) {s : Subject}
    (hword : isWord ["none", "null"] s = false) {path : String}
    (hv : decodeBase ⟨rs, [], []⟩ down t s path = .ok v) :
    decodeBase ⟨rs, [], []⟩ down base s path = .ok v := by
  obtain ⟨closed, hmembers⟩ := hbase
  rename_i front back
  have hsingle : IsSingle rs t → decodeBase ⟨rs, [], []⟩ down
      (.unionOf closed (front ++ .noneType :: back)) s path = .ok v := by
    intro h
    rw [h.members] at hmembers
    rw [decodeBase, recordMembers?_noneType, hmembers, h.records]
    dsimp only
    rw [hword, Bool.and_false, if_neg Bool.false_ne_true, decodeMembers_single h hmembers hv]
    rfl
  have hbasic : ∀ c : ClassName, c.isRecord = false → c ≠ .none →
      coreRecords.all (fun d => d.cls != c) = true → IsSingle rs (.cls c) :=
    fun c hclass hnone hcore => isSingle_cls hnone (find?_eq_none hrecords hclass hcore)
  cases hplain with
  | str => exact hsingle (hbasic .str rfl (by decide) (by decide))
  | int => exact hsingle (hbasic .int rfl (by decide) (by decide))
  | float => exact hsingle (hbasic .float rfl (by decide) (by decide))
  | bool => exact hsingle (hbasic .bool rfl (by decide) (by decide))
  | list => exact hsingle (isSingle_list _)
  | dict => exact hsingle (isSingle_dict _ _)
  | @record d labels types values parts hclass hfind =>
    have hms : recordMembers? ⟨rs, [], []⟩ ([d].map fun d => .cls d.cls) = some [d] :=
      recordMembers?_eq_some (by simp) (by simpa using hfind)
        (by simpa using ne_none_of_isRecord hclass)
    have hds : recordMembers? ⟨rs, [], []⟩ (front ++ .noneType :: back) = some [d] := by
      rw [recordMembers?_noneType, hmembers]
      exact hms
    rw [decodeBase_unionOf hds rfl]
    rw [decodeBase_record hclass hfind] at hv
    exact decodeRecordUnion_of_decodeRecord (by simp) (List.mem_singleton.2 rfl) hv
  | @union closed' ds d v hfind hclass htags hd h =>
    have hms : recordMembers? ⟨rs, [], []⟩ (ds.map fun r => .cls r.cls) = some ds :=
      recordMembers?_eq_some (List.ne_nil_of_mem hd) hfind fun r hr =>
        ne_none_of_isRecord (hclass r hr)
    have hds : recordMembers? ⟨rs, [], []⟩ (front ++ .noneType :: back) = some ds := by
      rw [recordMembers?_noneType, hmembers]
      exact hms
    rw [decodeBase_unionOf hms rfl] at hv
    rw [decodeBase_unionOf hds rfl, hv]

/-! ### Levels -/

theorem decodeWithin_succ {d : Decoders} {t : Target} (h : ∀ key, .decodeWith key ∉ t.unwrap.2)
    (n : Nat) (s : Subject) (path : String) :
    decodeWithin d (n + 1) t s path = decodeBase d (decodeWithin d n) t.unwrap.1 s path := by
  cases t with
  | annotated base notes =>
    have hnote : decoderNote notes = .ok none := by
      unfold decoderNote
      dsimp only
      rw [List.filterMap_eq_nil_iff.2]
      intro note hnote
      cases note with
      | decodeWith key => exact absurd hnote (h key)
      | _ => rfl
    rw [decodeWithin, decodeBy, hnote]
    rfl
  | _ => rfl

/-- A record is decoded by its declaration. -/
theorem decode_cls {rs : Records} {c : ClassName} {d : RecordDecl} (hclass : c.isRecord = true)
    (hfind : rs.find? c = some d) (e : Expr) (path : String) :
    decode ⟨rs, [], []⟩ (.cls c) e path =
      decodeRecord (decodeWithin ⟨rs, [], []⟩ e.depth) d (.expr e) path := by
  have hlevels : levels ⟨rs, [], []⟩ e = e.depth + 1 := by
    simp [levels]
  have hnotes : ∀ key, Note.decodeWith key ∉ (Target.cls c).unwrap.2 := fun key =>
    List.not_mem_nil
  rw [decode, hlevels, decodeWithin_succ hnotes, ← decodeBase_record hclass hfind]
  rfl

end Decoders

theorem Expr.depth_pos (e : Expr) : 0 < e.depth := by
  cases e <;> simp [Expr.depth]

/-- An expression is decoded into a value of a type, if decoding may go as deep as the expression. -/
def DecodesTo (rs : Records) (t : Target) (e : Expr) (v : Value) : Prop :=
  ∀ n path, e.depth ≤ n → Decoders.decodeWithin ⟨rs, [], []⟩ n t (.expr e) path = .ok v

open Decoders in
/-- Decoding goes down one level. -/
theorem decodesTo_iff {rs : Records} {t : Target} (h : ∀ key, .decodeWith key ∉ t.unwrap.2)
    {e : Expr} {v : Value} :
    DecodesTo rs t e v ↔ ∀ n path, e.depth ≤ n + 1 →
      decodeBase ⟨rs, [], []⟩ (decodeWithin ⟨rs, [], []⟩ n) t.unwrap.1 (.expr e) path = .ok v := by
  constructor
  · intro hv n path hn
    rw [← decodeWithin_succ h]
    exact hv (n + 1) path hn
  · intro hv n path hn
    obtain ⟨m, rfl⟩ : ∃ m, n = m + 1 := Nat.exists_eq_succ_of_ne_zero (by
      have := e.depth_pos
      omega)
    rw [decodeWithin_succ h]
    exact hv m path hn

theorem Plain.unwrap {rs : Records} {t : Target} {v : Value} (h : Plain rs t v) :
    t.unwrap = (t, []) := by
  cases h <;> rfl

theorem Plain.noDecoder {rs : Records} {t : Target} {v : Value} (h : Plain rs t v) (key : Nat) :
    .decodeWith key ∉ t.unwrap.2 := by
  rw [h.unwrap]
  exact List.not_mem_nil

/-- An expression that is no atom, truth values apart. -/
def Expr.IsInert (e : Expr) : Prop :=
  ∀ name span, e = .leaf (.atom name) span → name = "true" ∨ name = "false"

theorem Expr.IsInert.keyword?_eq {e : Expr} (h : e.IsInert) : e.keyword? = none := by
  unfold Expr.keyword?
  split
  · rcases h _ _ rfl with rfl | rfl
    · rfl
    · rfl
  · rfl

theorem Expr.IsInert.isWord_eq {e : Expr} (h : e.IsInert) :
    Decoders.isWord ["none", "null"] (.expr e) = false := by
  unfold Decoders.isWord
  split
  · rename_i hs
    cases hs
    rcases h _ _ rfl with rfl | rfl
    · decide
    · decide
  · rfl

/-! ### One level -/

namespace DecodesTo

open Decoders

variable {rs : Records}

theorem cls {c : ClassName} {e : Expr} {v : Value}
    (h : ∀ down path, decodeClass ⟨rs, [], []⟩ down c (.expr e) path = .ok v) :
    DecodesTo rs (.cls c) e v := by
  rw [decodesTo_iff fun key => List.not_mem_nil]
  intro n path _
  exact (decodeBase_cls rfl _ path).trans (h _ path)

theorem list {item : Target} {es : List Expr} {vs : List Value}
    (h : List.Forall₂ (DecodesTo rs item) es vs) :
    DecodesTo rs (.list item) (.ofItems es) (.list vs) := by
  rw [decodesTo_iff fun key => List.not_mem_nil]
  intro n path hn
  have hdepth : ∀ e ∈ es, e.depth ≤ n := by
    intro e he
    have := Expr.depth_le_maxDepth he
    rw [Expr.ofItems, Expr.depth] at hn
    omega
  have hitems : decodeItems (decodeWithin ⟨rs, [], []⟩ n) item path 0 es = .ok vs :=
    decodeItems_eq_ok (((List.forall₂_and_left _ _).2 ⟨hdepth, h⟩).imp
      fun e v hv path => hv.2 n path hv.1) path 0
  unfold decodeBase
  show (decodeItems _ item path 0 es >>= _) = _
  rw [hitems]
  rfl

theorem dict {value : Target} {fs : List Field} {entries : List (String × Value)}
    (hkeys : (entries.map Prod.fst).Nodup)
    (h : List.Forall₂ (fun f entry => DecodesTo rs (.cls .str) f.key (.str entry.1) ∧
      DecodesTo rs value f.value entry.2) fs entries) :
    DecodesTo rs (.dict (.cls .str) value) (.map fs .none)
      (.dict false (entries.map fun entry => (.str entry.1, entry.2))) := by
  rw [decodesTo_iff fun key => List.not_mem_nil]
  intro n path hn
  have hdepth : ∀ f ∈ fs, f.key.depth ≤ n ∧ f.value.depth ≤ n := by
    intro f hf
    have := Field.depth_le_maxDepth hf
    rw [Expr.depth] at hn
    omega
  have hentries := decodeEntries_eq_ok (((List.forall₂_and_left _ _).2 ⟨hdepth, h⟩).imp
    fun f entry hv => ⟨fun path => hv.2.1 n path hv.1.1, fun path => hv.2.2 n path hv.1.2⟩)
    hkeys (fun _ _ _ hold => absurd hold List.not_mem_nil) (.expr (.map fs .none)) path 0
  unfold decodeBase
  show (decodeEntries _ (.cls .str) value _ path 0 fs [] >>= _) = _
  rw [hentries]
  rfl

/-- A value that a field holds is decoded as one of the type of the field. -/
theorem field (hrecords : ∀ d ∈ rs, d.cls.isRecord = true) {f : FieldDecl} {label : Label}
    {t : Target} (hf : f.IsPlain label t) (hsingle : (f.arity label.marker).isVariadic = false)
    {e : Expr} (hinert : e.IsInert) {v : Value} (hplain : Plain rs t v)
    (h : DecodesTo rs t e v) : DecodesTo rs f.type e v := by
  rw [decodesTo_iff hplain.noDecoder, hplain.unwrap] at h
  rw [decodesTo_iff hf.decoder]
  intro n path hn
  have hbase := hf.type
  obtain ⟨name, marker⟩ := label
  cases marker with
  | none =>
    rw [show f.type.unwrap.1 = t from hbase]
    exact h n path hn
  | some marker =>
    cases marker with
    | optionalArg => exact decodeBase_optional hrecords hbase hplain hinert.isWord_eq (h n path hn)
    | zeroOrMore => cases hsingle
    | oneOrMore => cases hsingle

/-- A record is decoded from its group, however its fields go, if they are assigned their values. -/
theorem record (hrecords : ∀ d ∈ rs, d.cls.isRecord = true) {d : RecordDecl}
    {labels : FieldDecl → Label} {types : FieldDecl → Target} (h : d.IsPlain labels types)
    (hclass : d.cls.isRecord = true) (hfind : rs.find? d.cls = some d)
    {values : FieldDecl → Value} {parts : FieldDecl → List Value}
    (hholds : ∀ f ∈ d.fields, Holds (labels f).marker (values f) (parts f))
    {es : FieldDecl → List Expr}
    (hes : ∀ f ∈ d.fields, List.Forall₂ (fun e v => e.IsInert ∧ Plain rs (types f) v ∧
      DecodesTo rs (types f) e v) (es f) (parts f))
    {args : List Expr} (hargs : ∀ f ∈ d.fields, es f ⊆ args) {assigned : Assignment Expr}
    (hmatch : matchTail (d.params labels) args = .ok assigned)
    (hassigned : ∀ f ∈ d.fields, assigned.getD (labels f).name = es f) :
    DecodesTo rs (.cls d.cls) (.items .group (.ofName d.tag :: args) .none) (d.make values) := by
  rw [decodesTo_iff fun key => List.not_mem_nil]
  intro n path hn
  have hdepth : ∀ f ∈ d.fields, ∀ e ∈ es f, e.depth ≤ n := by
    intro f hf e he
    have := Expr.depth_le_maxDepth (List.mem_cons_of_mem (Expr.ofName d.tag) (hargs f hf he))
    rw [Expr.depth] at hn
    omega
  refine (decodeBase_record hclass hfind _ path).trans (decodeRecord_of_assigned h hclass hmatch
    hholds (fun f hf hone => ?_) (fun f hf hmany => ?_) none .none path)
  · rw [hassigned f hf]
    exact ((List.forall₂_and_left _ _).2 ⟨hdepth f hf, hes f hf⟩).imp
      fun e v ⟨he, hinert, hplain, hv⟩ path =>
        field hrecords (h.fields f hf) hone hinert hplain hv n path he
  · rw [hassigned f hf]
    exact ((List.forall₂_and_left _ _).2 ⟨hdepth f hf, hes f hf⟩).imp
      fun e v ⟨he, _, _, hv⟩ path => hv n path he

/-- A record among others with different tags is told apart from them. -/
theorem union {ds : List RecordDecl} (hfind : ∀ d ∈ ds, rs.find? d.cls = some d)
    (hclass : ∀ d ∈ ds, d.cls.isRecord = true) (htags : (ds.map RecordDecl.tag).Nodup)
    {d : RecordDecl} (hd : d ∈ ds) {e : Expr} {v : Value} (h : DecodesTo rs (.cls d.cls) e v)
    (closed : Bool) : DecodesTo rs (.unionOf closed (ds.map fun d => .cls d.cls)) e v := by
  rw [decodesTo_iff fun key => List.not_mem_nil] at h ⊢
  intro n path hn
  have hv := (decodeBase_record (hclass d hd) (hfind d hd) _ path).symm.trans (h n path hn)
  have hds : recordMembers? ⟨rs, [], []⟩ (ds.map fun r => .cls r.cls) = some ds :=
    recordMembers?_eq_some (List.ne_nil_of_mem hd) hfind fun r hr =>
      ne_none_of_isRecord (hclass r hr)
  exact (decodeBase_unionOf hds rfl _ path).trans
    (decodeRecordUnion_of_decodeRecord htags hd hv)

end DecodesTo

/-! ### All levels -/

theorem exists_fieldExprs {rs : Records} {o : EncodeOptions} {fields : List FieldDecl}
    {parts : FieldDecl → List Value} {R : FieldDecl → Expr → Value → Prop}
    (h : ∀ f ∈ fields, ∀ v ∈ parts f, ∃ e, v.encode rs o true = .ok e ∧ R f e v) :
    ∃ es : FieldDecl → List Expr, ∀ f ∈ fields,
      Value.encodeAll rs o true (parts f) = .ok (es f) ∧ List.Forall₂ (R f) (es f) (parts f) := by
  have hparts : ∀ f, ∃ es, f ∈ fields → Value.encodeAll rs o true (parts f) = .ok es ∧
      List.Forall₂ (R f) es (parts f) := by
    intro f
    by_cases hf : f ∈ fields
    · obtain ⟨es, hes⟩ := exists_encodeAll (h f hf)
      exact ⟨es, fun _ => hes⟩
    · exact ⟨[], fun hmem => absurd hmem hf⟩
  choose es hes using hparts
  exact ⟨es, hes⟩

/-- If all fields go with their names, the group of a record holds its fields one after another. -/
theorem recordGroup_named {o : EncodeOptions} (hsingle : o.singlePositional = false)
    (hfirst : o.firstPositional = []) (tag : String) (fields : List WrittenField) :
    recordGroup o tag fields =
      .items .group (.ofName tag :: fields.flatMap WrittenField.named) .none := by
  cases fields with
  | nil => rfl
  | cons first rest =>
    have hnamed : o.leadsPositional first rest = false := by
      simp [EncodeOptions.leadsPositional, hsingle, hfirst]
    simp only [recordGroup, hnamed]
    rfl

theorem subset_named {labels : FieldDecl → Label} {es : FieldDecl → List Expr}
    {fields : List FieldDecl} {f : FieldDecl} (hf : f ∈ fields) :
    es f ⊆ (writtenOf labels es fields).flatMap WrittenField.named := by
  intro e he
  refine List.mem_flatMap.2 ⟨⟨f.name, (labels f).name, es f⟩, List.mem_flatMap.2 ⟨f, hf, ?_⟩,
    List.mem_cons_of_mem _ he⟩
  rw [if_neg (by simpa using List.ne_nil_of_mem he)]
  exact List.mem_singleton.2 rfl

/-- A record is decoded from its group if all fields go with their names. -/
theorem DecodesTo.named {rs : Records} (hrecords : ∀ d ∈ rs, d.cls.isRecord = true)
    {d : RecordDecl} {labels : FieldDecl → Label} {types : FieldDecl → Target}
    (h : d.IsPlain labels types) (hclass : d.cls.isRecord = true)
    (hfind : rs.find? d.cls = some d) {values : FieldDecl → Value}
    {parts : FieldDecl → List Value}
    (hholds : ∀ f ∈ d.fields, Holds (labels f).marker (values f) (parts f))
    {es : FieldDecl → List Expr}
    (hes : ∀ f ∈ d.fields, List.Forall₂ (fun e v => e.IsInert ∧ Plain rs (types f) v ∧
      DecodesTo rs (types f) e v) (es f) (parts f)) :
    DecodesTo rs (.cls d.cls)
      (.items .group (.ofName d.tag :: (writtenOf labels es d.fields).flatMap WrittenField.named)
        .none)
      (d.make values) := by
  have hadmits : ∀ f ∈ d.fields, (f.arity (labels f).marker).Admits (es f).length := by
    intro f hf
    rw [(hes f hf).length_eq]
    exact (hholds f hf).admits f
  have hinert : ∀ f ∈ d.fields, ∀ e ∈ es f, e.IsInert := fun f hf =>
    ((List.forall₂_and_left _ _).1 (hes f hf)).1
  obtain ⟨assigned, hmatch, hassigned⟩ := RecordDecl.matchTail_named h.labelNames hadmits
    fun f hf e he => (hinert f hf e he).keyword?_eq
  exact .record hrecords h hclass hfind hholds hes (fun f hf => subset_named hf) hmatch hassigned

/-- The expression of a value of a plain type is decoded into the value. -/
theorem Plain.decodesTo {rs : Records} (hrecords : ∀ d ∈ rs, d.cls.isRecord = true)
    {o : EncodeOptions} (hsingle : o.singlePositional = false) (hfirst : o.firstPositional = [])
    {t : Target} {v : Value} (h : Plain rs t v) (inField : Bool) :
    ∃ e, v.encode rs o inField = .ok e ∧ (inField = true → e.IsInert) ∧ DecodesTo rs t e v := by
  induction h generalizing inField with
  | str s =>
    refine ⟨encodeText inField s, by rw [Value.encode], ?_, .cls fun _ path =>
      Decoders.decodeStr_encodeText inField s path⟩
    rintro rfl name span heq
    cases heq
  | int i =>
    refine ⟨.ofInt i, by rw [Value.encode], fun _ name span heq => ?_, .cls fun _ path => rfl⟩
    cases heq
  | float r =>
    refine ⟨.leaf (.real r) none, by rw [Value.encode], fun _ name span heq => ?_,
      .cls fun _ path => rfl⟩
    cases heq
  | bool b =>
    refine ⟨.ofName (if b then "true" else "false"), by rw [Value.encode], fun _ name span heq => ?_,
      .cls fun _ path => ?_⟩
    · cases heq
      cases b
      · exact .inr rfl
      · exact .inl rfl
    · cases b
      · rfl
      · rfl
  | @list item vs h ih =>
    obtain ⟨es, hes, hall⟩ := exists_encodeAll fun v hv => ih v hv false
    refine ⟨.ofItems es, by rw [Value.encode, hes]; rfl, ?_, .list (hall.imp fun e v hv => hv.2)⟩
    intro _ name span heq
    cases heq
  | @dict value entries hkeys h ih =>
    obtain ⟨fs, hfs, hall⟩ := exists_encodeEntries (P := DecodesTo rs value) fun entry hentry => by
      obtain ⟨e, he, -, hv⟩ := ih entry hentry false
      exact ⟨e, he, hv⟩
    refine ⟨.map fs .none, by rw [Value.encode, hfs]; rfl, ?_,
      .dict hkeys (hall.imp fun f entry hv => ⟨?_, hv.2⟩)⟩
    · intro _ name span heq
      cases heq
    · rw [hv.1]
      exact .cls fun _ path => Decoders.decodeStr_encodeText false entry.1 path
  | @record d labels types values parts hclass hfind hplain hholds h ih =>
    obtain ⟨es, hes⟩ := exists_fieldExprs fun f hf v hv => by
      obtain ⟨e, he, hinert, hdecode⟩ := ih f hf v hv true
      exact ⟨e, he, And.intro (hinert rfl) (And.intro (h f hf v hv) hdecode)⟩
    refine ⟨_, hplain.encode_make hfind hholds (fun f hf => (hes f hf).1) inField, ?_, ?_⟩
    · intro _ name span heq
      cases heq
    · rw [recordGroup_named hsingle hfirst]
      exact .named hrecords hplain hclass hfind hholds fun f hf => (hes f hf).2
  | @union closed ds d v hfind hclass htags hd h ih =>
    obtain ⟨e, he, hinert, hv⟩ := ih inField
    exact ⟨e, he, hinert, .union hfind hclass htags hd hv closed⟩

/-- If all fields go with their names, the expression of a value of a plain type is decoded into the
value again. -/
theorem Decoders.decode_encode {rs : Records} (hrecords : ∀ d ∈ rs, d.cls.isRecord = true)
    {o : EncodeOptions} (hsingle : o.singlePositional = false) (hfirst : o.firstPositional = [])
    {t : Target} {v : Value} (h : Plain rs t v) (inField : Bool) (path : String) :
    ∃ e, v.encode rs o inField = .ok e ∧ decode ⟨rs, [], []⟩ t e path = .ok v := by
  obtain ⟨e, he, -, hv⟩ := h.decodesTo hrecords hsingle hfirst inField
  refine ⟨e, he, hv _ path ?_⟩
  rw [levels]
  simp

/-- A note: a text, its tags, and the note that follows it. -/
def noteDecl : RecordDecl where
  cls := .record "Note"
  fields :=
    [⟨"text", some (.annotated (.cls .str) [.fieldName "text"]), none, true⟩,
      ⟨"tags", some (.annotated (.list (.cls .str))
        [.fieldName "tag", .marker .zeroOrMore false]), none, true⟩,
      ⟨"next", some (.annotated (.unionOf false [.cls (.record "Note"), .noneType])
        [.fieldName "next", .marker .optionalArg false]), none, true⟩]
  ownTag := some "note"
  check := none

/-- How a field of a note is labelled. -/
def noteLabel (f : FieldDecl) : Label :=
  match f.label with
  | .ok label => label
  | .error _ => ⟨f.name, none⟩

/-- The type of the values that a field of a note holds. -/
def noteType (f : FieldDecl) : Target :=
  if f.name = "next" then .cls (.record "Note") else .cls .str

theorem noteDecl_isPlain : noteDecl.IsPlain noteLabel noteType where
  names := by decide
  labelNames := by decide
  fields := by
    intro f hf
    simp only [noteDecl, List.mem_cons, List.not_mem_nil, or_false] at hf
    rcases hf with rfl | rfl | rfl
    · exact ⟨rfl, rfl, rfl, nofun, by simp [FieldDecl.type, Target.unwrap]⟩
    · exact ⟨rfl, rfl, rfl, nofun, by simp [FieldDecl.type, Target.unwrap]⟩
    · exact ⟨rfl, rfl, @IsOptional.intro _ false [_] [] rfl, fun _ => rfl,
        by simp [FieldDecl.type, Target.unwrap]⟩
  check := rfl

/-- The values of the fields of a note. -/
def noteValue (text : String) (tags : List String) (next : Value) (f : FieldDecl) : Value :=
  if f.name = "text" then .str text
  else if f.name = "tags" then .list (tags.map .str)
  else next

theorem plain_note (text : String) (tags : List String) {next : Value} {rest : List Value}
    (hnext : Holds (some .optionalArg) next rest)
    (hrest : ∀ v ∈ rest, Plain [noteDecl] (.cls (.record "Note")) v) :
    Plain [noteDecl] (.cls (.record "Note")) (noteDecl.make (noteValue text tags next)) := by
  let parts (f : FieldDecl) : List Value :=
    if f.name = "text" then [.str text] else if f.name = "tags" then tags.map .str else rest
  refine @Plain.record _ noteDecl _ _ _ parts rfl rfl noteDecl_isPlain ?_ ?_
  · intro f hf
    simp only [noteDecl, List.mem_cons, List.not_mem_nil, or_false] at hf
    rcases hf with rfl | rfl | rfl
    · exact .one _
    · exact .zeroOrMore _
    · exact hnext
  · intro f hf v hv
    simp only [noteDecl, List.mem_cons, List.not_mem_nil, or_false] at hf
    rcases hf with rfl | rfl | rfl
    · rw [show parts _ = [.str text] from rfl, List.mem_singleton] at hv
      rw [hv]
      exact .str text
    · obtain ⟨tag, -, rfl⟩ := List.mem_map.1 (show v ∈ tags.map .str from hv)
      exact .str tag
    · exact hrest v hv

namespace Decoders

/-- A note whose text and tags look like words of the notation, with a note after it. -/
theorem decode_encode_note :
    ∃ e, Value.encode [noteDecl] ⟨false, [], false⟩ true
        (.record (.record "Note") [("text", .str "none"), ("tags", .list [.str ":text"]),
          ("next", .record (.record "Note")
            [("text", .str ""), ("tags", .list []), ("next", .nothing)])]) = .ok e ∧
      decode ⟨[noteDecl], [], []⟩ (.cls (.record "Note")) e rootPath =
        .ok (.record (.record "Note") [("text", .str "none"), ("tags", .list [.str ":text"]),
          ("next", .record (.record "Note")
            [("text", .str ""), ("tags", .list []), ("next", .nothing)])]) :=
  have hlast := plain_note "" [] .nothing nofun
  have hplain := plain_note "none" [":text"] (.something (by simp [RecordDecl.make]))
    (List.forall_mem_singleton.2 hlast)
  decode_encode (by decide) rfl rfl hplain true rootPath

end Decoders
end Sexpr
