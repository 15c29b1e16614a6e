/-
Unions of records.

If every member of a union but the type of nothing is a record, only the tag of a group decides. So
the words for nothing are not decoded there, even with nothing as a member, and a decoder that is
registered for a member is not asked.

* `Text.Spells` — a word in small letters and capitals;
* `Decoders.OnlyRecords` — every member of a union but the type of nothing is a record;
* `Decoders.decode_none_word` — the unions that decode the words for nothing;
* `Decoders.decode_union_of_tag` — a union and its member on a group with the tag of the member.
-/
import Sexpr.Decode.Custom
import Sexpr.Proofs.RoundTrip

namespace Sexpr

/-! ### Words -/

namespace Text

/-- Whether a text spells a word in small letters and capitals. -/
def Spells (word text : String) : Prop :=
  List.Forall₂ (fun letter c => c = letter ∨ c = letter.toUpper) word.toList text.toList

/-- Characters that become one small letter each. -/
theorem lowerFrom_eq {word cs : List Char}
    (h : List.Forall₂ (fun letter c => lowerChar c = letter ∧ c ≠ 'Σ' ∧ c ≠ 'İ') word cs)
    (before : List Char) : lowerFrom before cs = word := by
  induction h generalizing before with
  | nil => rfl
  | @cons letter c word cs hc _ ih =>
    obtain ⟨hletter, hsigma, hdotted⟩ := hc
    rw [lowerFrom, if_neg hsigma, if_neg hdotted, hletter, ih, List.singleton_append]

/-- The words for nothing are recognised in small letters and capitals. -/
theorem lower_of_spells {word text : String} (hword : word ∈ ["none", "null"])
    (h : Spells word text) : lower text = word := by
  have hletters : ∀ word ∈ ["none", "null"], (word.toList.all fun letter =>
      [letter, letter.toUpper].all fun c => lowerChar c = letter ∧ c ≠ 'Σ' ∧ c ≠ 'İ') = true := by
    decide +kernel
  have hsmall : List.Forall₂ (fun letter c => lowerChar c = letter ∧ c ≠ 'Σ' ∧ c ≠ 'İ')
      word.toList text.toList := by
    refine ((List.forall₂_and_left _ _).2 ⟨List.all_eq_true.1 (hletters word hword), h⟩).imp ?_
    rintro letter c ⟨hletter, hc⟩
    have hmem : c ∈ [letter, letter.toUpper] := by simpa using hc
    exact of_decide_eq_true (List.all_eq_true.1 hletter c hmem)
  rw [lower, lowerFrom_eq hsmall, String.ofList_toList]

end Text

namespace Decoders

variable {d : Decoders} {down : DecodeFn}

theorem isWord_of_spells {word name : String} (hword : word ∈ ["none", "null"])
    (h : Text.Spells word name) (span : Option TokenSpans) :
    isWord ["none", "null"] (.expr (.leaf (.atom name) span)) = true := by
  rw [isWord, Text.lower_of_spells hword h]
  exact List.contains_iff_mem.2 hword

/-! ### Members -/

/-- Every member of a union but the type of nothing is a record, and there are such members. -/
structure OnlyRecords (d : Decoders) (members : List Target) : Prop where
  exists_other : ∃ m ∈ members, m.unwrap.1 ≠ .noneType
  records : ∀ m ∈ members, m.unwrap.1 ≠ .noneType →
    ∃ c decl, m.unwrap.1 = .cls c ∧ d.records.find? c = some decl

theorem mem_others {members : List Target} {t : Target} :
    t ∈ (members.map (·.unwrap.1)).filter (fun t => !t.same .noneType) ↔
      ∃ m ∈ members, m.unwrap.1 ≠ .noneType ∧ m.unwrap.1 = t := by
  rw [List.mem_filter, List.mem_map, Bool.not_eq_true', ← Bool.not_eq_true, same_noneType_iff]
  constructor
  · rintro ⟨⟨m, hm, rfl⟩, hne⟩
    exact ⟨m, hm, hne, rfl⟩
  · rintro ⟨m, hm, hne, rfl⟩
    exact ⟨⟨m, hm, rfl⟩, hne⟩

/-- Only tags decide exactly if every member but the type of nothing is a record. -/
theorem exists_recordMembers?_iff {members : List Target} :
    (∃ decls, d.recordMembers? members = some decls) ↔ d.OnlyRecords members := by
  simp only [recordMembers?_eq_some_iff, forall₂_eq_some_iff]
  constructor
  · rintro ⟨decls, hne, rfl, hlength⟩
    rw [List.length_filterMap_eq_countP, List.countP_eq_length] at hlength
    refine ⟨?_, fun m hm hother => ?_⟩
    · obtain ⟨decl, hdecl⟩ := List.exists_mem_of_ne_nil _ hne
      obtain ⟨t, ht, -⟩ := List.mem_filterMap.1 hdecl
      obtain ⟨m, hm, hother, -⟩ := mem_others.1 ht
      exact ⟨m, hm, hother⟩
    · obtain ⟨decl, hdecl⟩ :=
        Option.isSome_iff_exists.1 (hlength _ (mem_others.2 ⟨m, hm, hother, rfl⟩))
      obtain ⟨c, hc, hfind⟩ := recordOf?_eq_some_iff.1 hdecl
      exact ⟨c, decl, hc, hfind⟩
  · rintro ⟨⟨m, hm, hother⟩, hrecords⟩
    have hfound : ∀ t ∈ (members.map (·.unwrap.1)).filter (fun t => !t.same .noneType),
        (d.recordOf? t).isSome := by
      intro t ht
      obtain ⟨m, hm, hother, rfl⟩ := mem_others.1 ht
      obtain ⟨c, decl, hc, hfind⟩ := hrecords m hm hother
      exact Option.isSome_iff_exists.2 ⟨decl, recordOf?_eq_some_iff.2 ⟨c, hc, hfind⟩⟩
    -- the one member that is known to be there keeps the list of records from being empty
    have hmem := mem_others.2 ⟨m, hm, hother, rfl⟩
    obtain ⟨decl, hdecl⟩ := Option.isSome_iff_exists.1 (hfound _ hmem)
    refine ⟨_, List.ne_nil_of_mem (List.mem_filterMap.2 ⟨_, hmem, hdecl⟩), rfl, ?_⟩
    rw [List.length_filterMap_eq_countP, List.countP_eq_length]
    exact hfound

/-! ### The first level -/

/-- How the parts of an expression are decoded. -/
def below (d : Decoders) (e : Expr) : DecodeFn := d.decodeWithin (d.levels e - 1)

theorem decode_eq_decodeBase {t : Target} (hnotes : ∀ key, .decodeWith key ∉ t.unwrap.2)
    (e : Expr) (path : String) :
    d.decode t e path = d.decodeBase (d.below e) t.unwrap.1 (.expr e) path := by
  have hlevels : d.levels e = (d.levels e - 1) + 1 :=
    (Nat.sub_add_cancel (Nat.mul_pos (Nat.succ_pos _) (Nat.succ_pos _))).symm
  rw [decode, hlevels, decodeWithin_succ hnotes, below]

/-! ### Nothing -/

theorem decodeBase_none_word {closed : Bool} {members : List Target}
    (hregistered : d.registered? (.unionOf closed members) = none)
    (hnone : ∃ m ∈ members, m.unwrap.1 = .noneType) (hmembers : d.recordMembers? members = none)
    {s : Subject} (hword : isWord ["none", "null"] s = true) (path : String) :
    d.decodeBase down (.unionOf closed members) s path = .ok .nothing := by
  have hany : members.any (·.unwrap.1.same .noneType) = true := by
    obtain ⟨m, hm, heq⟩ := hnone
    exact List.any_eq_true.2 ⟨m, hm, same_noneType_iff.2 heq⟩
  rw [decodeBase, hregistered, hmembers, hany, hword]
  rfl

/-- A union with nothing among its members decodes the words for nothing, in small letters and
capitals, unless all its other members are records. Then it fails on them, as on every atom. -/
theorem decode_none_word {t : Target} {closed : Bool} {members : List Target}
    (ht : t.unwrap.1 = .unionOf closed members) (hnotes : ∀ key, .decodeWith key ∉ t.unwrap.2)
    (hregistered : d.registered? (.unionOf closed members) = none)
    (hnone : ∃ m ∈ members, m.unwrap.1 = .noneType) {word name : String}
    (hword : word ∈ ["none", "null"]) (hname : Text.Spells word name)
    (span : Option TokenSpans) (path : String) :
    (d.decode t (.leaf (.atom name) span) path = .ok .nothing ↔ ¬ d.OnlyRecords members) ∧
    (d.OnlyRecords members → d.decode t (.leaf (.atom name) span) path =
      .error (mismatch path "tagged group for dataclass union" (.expr (.leaf (.atom name) span))
        none)) := by
  have hfail : d.OnlyRecords members → d.decode t (.leaf (.atom name) span) path =
      .error (mismatch path "tagged group for dataclass union" (.expr (.leaf (.atom name) span))
        none) := by
    intro h
    obtain ⟨decls, hdecls⟩ := exists_recordMembers?_iff.2 h
    rw [decode_eq_decodeBase hnotes, ht, decodeBase_unionOf hdecls hregistered]
    rfl
  refine ⟨⟨?_, ?_⟩, hfail⟩
  · intro hnothing h
    rw [hfail h] at hnothing
    cases hnothing
  · intro h
    have hmembers : d.recordMembers? members = none :=
      Option.eq_none_iff_forall_ne_some.2 fun decls hdecls =>
        h (exists_recordMembers?_iff.1 ⟨decls, hdecls⟩)
    rw [decode_eq_decodeBase hnotes, ht,
      decodeBase_none_word hregistered hnone hmembers (isWord_of_spells hword hname span)]

/-- A record with a text. -/
def hostDecl : RecordDecl := .plain (.record "Host") [.required "name" (.cls .str)]

/-- A record with a number. -/
def linkDecl : RecordDecl := .plain (.record "Link") [.required "port" (.cls .int)]

/-- A union of a record, texts and nothing. -/
theorem decode_none_word_text :
    Text.Spells "null" "NuLL" ∧
    decode ⟨[linkDecl], [], []⟩ (.unionOf false [.cls (.record "Link"), .cls .str, .noneType])
      (.leaf (.atom "NuLL") none) "$" = .ok .nothing := by
  have hname : Text.Spells "null" "NuLL" := by
    simp [Text.Spells]
  have hmixed : ¬ OnlyRecords ⟨[linkDecl], [], []⟩
      [.cls (.record "Link"), .cls .str, .noneType] := by
    intro h
    obtain ⟨c, decl, hc, hfind⟩ := h.records (.cls .str) (by simp)
      (by simp [Target.unwrap, Target.noneType])
    cases hc
    cases hfind
  exact ⟨hname, (decode_none_word rfl (fun key => List.not_mem_nil) rfl ⟨.noneType, by simp, rfl⟩
    (by simp) hname none "$").1.2 hmixed⟩

/-- A union of a record and nothing does not decode the word for nothing. -/
theorem decode_none_word_record :
    ∃ origin, readOne ⟨[linkDecl], [], []⟩ (.unionOf false [.cls (.record "Link"), .noneType])
      "none" = .error (.decode "$" "tagged group for dataclass union" "atom('none')" origin none
        none) :=
  ⟨_, by with_unfolding_all rfl⟩

/-! ### Tags -/

/-- A class of records is none of the others. -/
theorem ne_of_find? (hrecords : ∀ r ∈ d.records, r.cls.isRecord = true) {c c' : ClassName}
    {decl : RecordDecl} (hfind : d.records.find? c = some decl) (hclass : c'.isRecord = false)
    (hcore : coreRecords.all (fun r => r.cls != c') = true) : c ≠ c' := by
  rintro rfl
  rw [find?_eq_none hrecords hclass hcore] at hfind
  cases hfind

theorem decodeClass_of_find? (hrecords : ∀ r ∈ d.records, r.cls.isRecord = true) {c : ClassName}
    {decl : RecordDecl} (hfind : d.records.find? c = some decl) (hexpr : ∀ kind, c ≠ .expr kind)
    (s : Subject) (path : String) :
    d.decodeClass down c s path = decodeRecord down decl s path := by
  unfold decodeClass
  cases c with
  | expr kind => exact absurd rfl (hexpr kind)
  | str => exact absurd rfl (ne_of_find? hrecords hfind rfl (by decide))
  | bool => exact absurd rfl (ne_of_find? hrecords hfind rfl (by decide))
  | int => exact absurd rfl (ne_of_find? hrecords hfind rfl (by decide))
  | float => exact absurd rfl (ne_of_find? hrecords hfind rfl (by decide))
  | _ => dsimp only; rw [hfind]

theorem decodeBase_of_registered {t : Target} {f : Decoder} (h : d.registered? t = some f)
    (s : Subject) (path : String) : d.decodeBase down t s path = runDecoder f down t s path := by
  unfold decodeBase
  rw [h]

theorem decodeClass_expr_group {kind : ExprClass} (hkind : kind ≠ .expr) (es : List Expr)
    (spans : BracketSpans) (path : String) :
    d.decodeClass down (.expr kind) (.expr (.items .group es spans)) path =
      if kind = .group then .ok (.expr (.items .group es spans))
      else .error (mismatch path kind.name (.expr (.items .group es spans)) none) := by
  unfold decodeClass
  cases kind with
  | expr => exact absurd rfl hkind
  | group => rfl
  | _ => rfl

/-- On a group with the tag of a member, a union of records with different tags follows the rules
for the record. So does the member itself, unless a decoder is registered for it or it is a class
of expressions: the union asks no such decoder and makes an expression out of the arguments. -/
theorem decode_union_of_tag (hrecords : ∀ r ∈ d.records, r.cls.isRecord = true)
    {decls : List RecordDecl} (hfind : ∀ r ∈ decls, d.records.find? r.cls = some r)
    (htags : (decls.map RecordDecl.tag).Nodup) {decl : RecordDecl} (hdecl : decl ∈ decls)
    {closed : Bool} {union : Target}
    (hunion : union = .unionOf closed (decls.map fun r => .cls r.cls))
    {tagSpan : Option TokenSpans} {args : List Expr} {spans : BracketSpans} {e : Expr}
    (he : e = .items .group (.leaf (.atom decl.tag) tagSpan :: args) spans) (path : String) :
    (d.registered? union = none → d.registered? (.cls decl.cls) = none →
      (∀ kind, decl.cls ≠ .expr kind) →
      d.decode union e path = d.decode (.cls decl.cls) e path) ∧
    (d.registered? union = none →
      d.decode union e path = decodeRecord (d.below e) decl (.expr e) path) ∧
    (∀ f, d.registered? union = some f →
      d.decode union e path = runDecoder f (d.below e) union (.expr e) path) ∧
    (∀ f, d.registered? (.cls decl.cls) = some f →
      d.decode (.cls decl.cls) e path = runDecoder f (d.below e) (.cls decl.cls) (.expr e) path) ∧
    ∀ kind, decl.cls = .expr kind → d.registered? (.cls decl.cls) = none →
      d.decode (.cls decl.cls) e path =
        if kind = .group then .ok (.expr e) else .error (mismatch path kind.name (.expr e) none) := by
  have hlevel : ∀ t : Target, t.unwrap = (t, []) →
      d.decode t e path = d.decodeBase (d.below e) t (.expr e) path := by
    intro t ht
    rw [decode_eq_decodeBase (by simp [ht]), ht]
  have hmembers : d.recordMembers? (decls.map fun r => .cls r.cls) = some decls :=
    recordMembers?_eq_some (List.ne_nil_of_mem hdecl) hfind fun r hr =>
      ne_of_find? hrecords (hfind r hr) rfl (by decide)
  have hrules : d.registered? union = none →
      d.decode union e path = decodeRecord (d.below e) decl (.expr e) path := by
    intro hregistered
    rw [hlevel union (by rw [hunion]; rfl), hunion,
      decodeBase_unionOf hmembers (hunion ▸ hregistered), he, decodeRecordUnion_of_tag htags hdecl]
  refine ⟨?_, hrules, ?_, ?_, ?_⟩
  · intro hregistered hmember hexpr
    rw [hrules hregistered, hlevel _ rfl, decodeBase_cls hmember,
      decodeClass_of_find? hrecords (hfind decl hdecl) hexpr]
  · intro f hf
    rw [hlevel union (by rw [hunion]; rfl), decodeBase_of_registered hf]
  · intro f hf
    rw [hlevel _ rfl, decodeBase_of_registered hf]
  · intro kind hkind hmember
    -- expressions of every kind are no record, only those of one kind are
    have hproper : kind ≠ .expr := fun heq =>
      ne_of_find? hrecords (hfind decl hdecl) rfl (by decide) (heq ▸ hkind)
    rw [hlevel _ rfl, decodeBase_cls hmember, hkind, he, decodeClass_expr_group hproper]

/-- A decoder for the type of a field is asked on both ways. -/
theorem decode_union_of_tag_link :
    ∃ (d : Decoders) (e : Expr), d.registry.map Prod.fst = [.cls .int] ∧
      e = .items .group [.ofName "link", .leaf (.int 80) none] .none ∧
      d.decode (.unionOf false [.cls (.record "Host"), .cls (.record "Link")]) e "$" =
        d.decode (.cls (.record "Link")) e "$" ∧
      d.decode (.cls (.record "Link")) e "$" =
        .ok (.record (.record "Link") [("port", .list [.str "$.port", .str "int"])]) := by
  have hfind : ∀ r ∈ [hostDecl, linkDecl], Records.find? [hostDecl, linkDecl] r.cls = some r := by
    simp [hostDecl, linkDecl, RecordDecl.plain, Records.find?]
  have hunion : Target.unionOf false [.cls (.record "Host"), .cls (.record "Link")] =
      .unionOf false ([hostDecl, linkDecl].map fun r => .cls r.cls) := rfl
  have he : Expr.items .group [.ofName "link", .leaf (.int 80) none] .none =
      .items .group (.leaf (.atom linkDecl.tag) none :: [.leaf (.int 80) none]) .none := by
    with_unfolding_all rfl
  have hagree := decode_union_of_tag (d := ⟨[hostDecl, linkDecl], [(.cls .int, .context)], []⟩)
    (by decide) hfind (by decide +kernel) (List.mem_cons_of_mem _ List.mem_cons_self) hunion he "$"
  refine ⟨_, _, rfl, rfl, hagree.1 ?_ ?_ (fun kind h => by cases h), ?_⟩
  · with_unfolding_all rfl
  · with_unfolding_all rfl
  · with_unfolding_all rfl

/-- The decoder for a member is not asked on the way through the union, and a class of expressions
is a record there. -/
theorem decode_union_ne_member :
    (∃ (d : Decoders) (e : Expr), d.registry.map Prod.fst = [.cls (.record "Link")] ∧
      e = .items .group [.ofName "link", .leaf (.int 80) none] .none ∧
      d.decode (.unionOf false [.cls (.record "Host"), .cls (.record "Link")]) e "$" =
        .ok (.record (.record "Link") [("port", .int 80)]) ∧
      d.decode (.cls (.record "Link")) e "$" = .ok (.str "custom")) ∧
    ∃ e : Expr, e = .items .group [.ofName "group-expr", .ofItems [.ofName "a"]] .none ∧
      decode ⟨[], [], []⟩ (.unionOf false [.cls (.expr .group), .cls (.expr .sequence)]) e "$" =
        .ok (.expr (.items .group [.ofName "a"] .none)) ∧
      decode ⟨[], [], []⟩ (.cls (.expr .group)) e "$" = .ok (.expr e) := by
  refine ⟨⟨⟨[hostDecl, linkDecl], [(.cls (.record "Link"), .const (.str "custom"))], []⟩, _, rfl,
    rfl, ?_, ?_⟩, _, rfl, ?_, ?_⟩
  · with_unfolding_all rfl
  · with_unfolding_all rfl
  · with_unfolding_all rfl
  · with_unfolding_all rfl

end Decoders
end Sexpr
