/-
How decoding fails.

What was read is decoded into a well-formed type, or it does not fit the type and the failure
says so. Two failures say something else. Where anything is taken, a map becomes a dictionary as
it stands, so that a bracket as a key stops it; where a dictionary is asked for, the same key is a
failure to decode. And a number beyond all floating point numbers stops it where such a number is
asked for.

* `FailsOnly` — results that fail in given ways only;
* `PartOf`, `Target.WellFormed` — the types that a type is built from, and types that can be
  decoded into without decoders from outside;
* `Failure.Explained` — the ways to fail, each with its reason in the type and in the document;
* `Expr.hashedBy_value` — a plain value is had if no key is a bracket, and only then;
* `Decoders.explained_decodeRecord`, `Decoders.explained_decodeBase` — one level, if the parts
  fail in these ways only;
* `Decoders.readOne_ok_or_explained` — a text.
-/
import Sexpr.Proofs.PositionalFields
import Sexpr.Proofs.Readable
import Sexpr.Proofs.Routing
import Sexpr.Proofs.SpanIndependence

namespace Sexpr

/-! ### Results and their failures -/

section

variable {α β : Type} {P : Failure → Prop}

/-- A result that is a value, or fails in one of the given ways. -/
def FailsOnly (P : Failure → Prop) (x : Except Failure α) : Prop := ∀ f, x = .error f → P f

theorem FailsOnly.ok (a : α) : FailsOnly P (.ok a) := by
  intro f h
  cases h

theorem FailsOnly.error {f : Failure} (h : P f) : FailsOnly P (.error f : Except Failure α) := by
  intro g hg
  cases hg
  exact h

theorem FailsOnly.bind {x : Except Failure α} {f : α → Except Failure β} (hx : FailsOnly P x)
    (hf : ∀ a, x = .ok a → FailsOnly P (f a)) : FailsOnly P (x >>= f) := by
  cases x with
  | ok a => exact hf a rfl
  | error e => exact .error (hx e rfl)

end

/-! ### Plain values -/

/-- Whether an expression is brackets, whatever they hold. -/
def Expr.isBrackets : Expr → Bool
  | .items _ _ _ | .map _ _ => true
  | .leaf _ _ | .bare _ => false

section

variable {α β : Type}

/-- A result that depends on some keys: it is a value if none of them is brackets, else the keys
cannot be put into a dictionary. -/
def HashedBy (x : Except Failure α) (keys : List Expr) : Prop :=
  ((∃ a, x = .ok a) ∧ ∀ k ∈ keys, k.isBrackets = false) ∨
    ((∃ kind, x = .error (.unhashable kind)) ∧ ∃ k ∈ keys, k.isBrackets = true)

theorem HashedBy.ok (a : α) : HashedBy (.ok a) [] := .inl ⟨⟨a, rfl⟩, by simp⟩

theorem HashedBy.bind {x : Except Failure α} {f : α → Except Failure β} {keys keys' : List Expr}
    (hx : HashedBy x keys) (hf : ∀ a, x = .ok a → HashedBy (f a) keys') :
    HashedBy (x >>= f) (keys ++ keys') := by
  rcases hx with ⟨⟨a, rfl⟩, hkeys⟩ | ⟨⟨kind, rfl⟩, k, hk, hbrackets⟩
  · rcases hf a rfl with ⟨hb, hkeys'⟩ | ⟨hb, k, hk, hbrackets⟩
    · exact .inl ⟨hb, List.forall_mem_append.2 ⟨hkeys, hkeys'⟩⟩
    · exact .inr ⟨hb, k, List.mem_append_right _ hk, hbrackets⟩
  · exact .inr ⟨⟨kind, rfl⟩, k, List.mem_append_left _ hk, hbrackets⟩

theorem HashedBy.map {x : Except Failure α} {keys : List Expr} (h : HashedBy x keys) (g : α → β) :
    HashedBy (x >>= fun a => .ok (g a)) keys := by
  have := h.bind fun a _ => HashedBy.ok (g a)
  rwa [List.append_nil] at this

theorem HashedBy.congr {x : Except Failure α} {keys keys' : List Expr} (h : HashedBy x keys)
    (hkeys : ∀ k, k ∈ keys ↔ k ∈ keys') : HashedBy x keys' := by
  simpa only [HashedBy, hkeys] using h

end

/-- Plain values that cannot be keys are those of brackets. -/
theorem Expr.isSome_hashFault?_value {e : Expr} {v : Value} (h : e.value = .ok v) :
    v.hashFault?.isSome = e.isBrackets := by
  cases e with
  | leaf l span =>
    cases h
    cases l <;> rfl
  | items enclosure values spans =>
    obtain ⟨vs, -, h⟩ := Except.bind_eq_ok.1 h
    cases h
    rfl
  | map fields spans =>
    obtain ⟨es, -, h⟩ := Except.bind_eq_ok.1 h
    cases h
    rfl
  | bare mark =>
    cases h
    rfl

theorem hashedBy_put {k : Expr} {key : Value} (h : k.value = .ok key) (es : Entries)
    (value : Value) : HashedBy (es.put key value) [k] := by
  have hkey := Expr.isSome_hashFault?_value h
  unfold Entries.put
  cases hfault : key.hashFault? with
  | none =>
    rw [hfault] at hkey
    exact .inl ⟨⟨_, rfl⟩, by simpa using hkey.symm⟩
  | some kind =>
    rw [hfault] at hkey
    exact .inr ⟨⟨kind, rfl⟩, k, List.mem_singleton_self k, hkey.symm⟩

theorem Expr.hashedBy_values {es : List Expr} (h : ∀ e ∈ es, HashedBy e.value e.keys) :
    HashedBy (Expr.values es) (Expr.keysAll es) := by
  induction es with
  | nil => exact .ok _
  | cons e es ih =>
    obtain ⟨he, hes⟩ := List.forall_mem_cons.1 h
    rw [Expr.values, Expr.keysAll]
    exact he.bind fun v _ => (ih hes).map _

theorem Field.hashedBy_entries {fs : List Field} (h : ∀ f ∈ fs, HashedBy f.key.value f.key.keys ∧
    HashedBy f.value.value f.value.keys) (es : Entries) :
    HashedBy (Field.entries fs es) (Field.keysAll fs) := by
  induction fs generalizing es with
  | nil => exact .ok _
  | cons f fs ih =>
    obtain ⟨⟨hkey, hvalue⟩, hfs⟩ := List.forall_mem_cons.1 h
    obtain ⟨k, v, separator⟩ := f
    rw [Field.entries, Field.keysAll]
    -- the key itself is looked at after both parts
    have hall := hkey.bind fun key hk => hvalue.bind fun value _ =>
      (hashedBy_put hk es value).bind fun es' _ => ih hfs es'
    refine hall.congr fun x => ?_
    simp only [List.mem_append, List.mem_cons, List.not_mem_nil, or_false]
    tauto

/-- An expression has a plain value if no key in it is brackets, and only then. -/
theorem Expr.hashedBy_value (e : Expr) : HashedBy e.value e.keys := by
  induction e using Expr.induction with
  | leaf l span => exact .ok _
  | items enclosure values spans ih => exact (Expr.hashedBy_values ih).map _
  | map fields spans ih => exact (Field.hashedBy_entries ih []).map _
  | bare mark => exact .ok _

/-! ### Types -/

/-- The types that a type is built from, the types of the fields of its records among them.
Lists and dictionaries without a type of their items take anything. -/
inductive PartOf (rs : Records) (t : Target) : Target → Prop
  | whole : PartOf rs t t
  | item {a : Target} (h : PartOf rs t (.list a)) : PartOf rs t a
  | key {k v : Target} (h : PartOf rs t (.dict k v)) : PartOf rs t k
  | value {k v : Target} (h : PartOf rs t (.dict k v)) : PartOf rs t v
  | anyItem (h : PartOf rs t .bareList) : PartOf rs t .any
  | anyEntry (h : PartOf rs t .bareDict) : PartOf rs t .any
  | member {closed : Bool} {members : List Target} {m : Target}
      (h : PartOf rs t (.unionOf closed members)) (hm : m ∈ members) : PartOf rs t m
  | base {b : Target} {notes : List Note} (h : PartOf rs t (.annotated b notes)) : PartOf rs t b
  | field {c : ClassName} {decl : RecordDecl} {f : FieldDecl} (h : PartOf rs t (.cls c))
      (hdecl : rs.find? c = some decl) (hf : f ∈ decl.fields) : PartOf rs t f.type

theorem PartOf.unwrap {rs : Records} {t u : Target} (h : PartOf rs t u) :
    PartOf rs t u.unwrap.1 := by
  cases u with
  | annotated b notes => exact h.base
  | _ => exact h

theorem PartOf.item? {rs : Records} {t u item : Target} (h : PartOf rs t u)
    (hitem : u.item? = some item) : PartOf rs t item := by
  cases u with
  | list a =>
    cases hitem
    exact h.item
  | bareList =>
    cases hitem
    exact h.anyItem
  | _ => cases hitem

/-- A type that can be decoded into without decoders from outside: no part of it carries one, the
notes of the fields of its records make sense, and these fields have different names in the
notation. -/
structure Target.WellFormed (rs : Records) (t : Target) : Prop where
  notes : ∀ b notes, PartOf rs t (.annotated b notes) → decoderNote notes = .ok none
  plans : ∀ c decl, PartOf rs t (.cls c) → rs.find? c = some decl →
    ∃ plans, decl.fields.mapM FieldDecl.plan = .ok plans ∧ (plans.map (·.name)).Nodup

/-! ### Reasons -/

/-- Whether something that does not fit its type is to blame. -/
def Failure.isDecode : Failure → Bool
  | .decode .. => true
  | _ => false

/-- A failure to decode, or another one whose reason stands in the document: a number beyond all
floating point numbers if the type asks for them, or brackets as a key if it takes anything. -/
def Failure.Explained (rs : Records) (t : Target) (doc : Document) : Failure → Prop
  | .number .integerTooLarge =>
    PartOf rs t (.cls .float) ∧ ∃ i, .int i ∈ doc.leaves ∧ Binary64.ofInt? i = none
  | .number .quotientTooLarge =>
    PartOf rs t (.cls .float) ∧
      ∃ num den, .rational num den ∈ doc.leaves ∧ Binary64.ofQuotient? num den = none
  | .unhashable _ => PartOf rs t .any ∧ ∃ k ∈ doc.keys, k.isBrackets = true
  | f => f.isDecode = true

/-- An expression of a document with fewer than so many levels. -/
structure Expr.Within (doc : Document) (n : Nat) (e : Expr) : Prop where
  leaves : e.leaves ⊆ doc.leaves
  keys : e.keys ⊆ doc.keys
  depth : e.depth < n

namespace Expr.Within

variable {doc : Document} {n : Nat}

theorem item {enclosure : Enclosure} {values : List Expr} {spans : BracketSpans}
    (h : (Expr.items enclosure values spans).Within doc (n + 1)) {e : Expr} (he : e ∈ values) :
    e.Within doc n where
  leaves _ hl := h.leaves (Expr.mem_leavesAll.2 ⟨e, he, hl⟩)
  keys _ hk := h.keys (Expr.mem_keysAll.2 ⟨e, he, hk⟩)
  depth := by
    have hlevels := h.depth
    have := Expr.depth_le_maxDepth he
    rw [Expr.depth] at hlevels
    omega

theorem field {fields : List Field} {spans : BracketSpans}
    (h : (Expr.map fields spans).Within doc (n + 1)) {f : Field} (hf : f ∈ fields) :
    f.key.Within doc n ∧ f.value.Within doc n := by
  have hlevels := h.depth
  have hdepth := Field.depth_le_maxDepth hf
  rw [Expr.depth] at hlevels
  refine ⟨⟨fun l hl => ?_, fun k hk => ?_, by omega⟩, ⟨fun l hl => ?_, fun k hk => ?_, by omega⟩⟩
  · exact h.leaves (Field.mem_leavesAll.2 ⟨f, hf, .inl hl⟩)
  · exact h.keys (Field.mem_keysAll.2 ⟨f, hf, .inr (.inl hk)⟩)
  · exact h.leaves (Field.mem_leavesAll.2 ⟨f, hf, .inr hl⟩)
  · exact h.keys (Field.mem_keysAll.2 ⟨f, hf, .inr (.inr hk)⟩)

end Expr.Within

/-! ### Arguments -/

/-- Values are only given to a parameter if they are among the arguments. -/
theorem mem_of_matchTail {params : List Parameter} {args : List Expr} {r : Assignment Expr}
    (h : matchTail params args = .ok r) {p : Parameter} (hp : p ∈ params) {e : Expr}
    (he : e ∈ r.getD p.name) : e ∈ args := by
  have hmatch := matchTail_eq_ok_iff.1 h
  obtain ⟨hnodup, hknown, hfollowed⟩ := checks_of_matchArguments hmatch
  obtain ⟨-, -, routes, hroutes⟩ := (Node.sound_start hknown hfollowed).exists_routing hnodup
    (mem_leaves_of_matchArguments hmatch)
  rw [hroutes.given p hp, Node.start, Assignment.getD_empty, List.nil_append] at he
  obtain ⟨x, hx, hvalue⟩ := List.mem_filterMap.1 he
  split_ifs at hvalue
  obtain ⟨y, hy, harg⟩ := List.mem_map.1 (List.of_mem_zip hx).2
  rw [← harg, Expr.toArgument] at hvalue
  split at hvalue
  · cases hvalue
  · cases hvalue
    exact hy

/-- Parameters with different names are given their arguments, or these are at fault. -/
theorem matchTail_ok_or_fault {params : List Parameter} (hnodup : (params.map (·.name)).Nodup)
    (hsimple : ∀ p ∈ params, p.arity.IsSimple) (args : List Expr) :
    (∃ r, matchTail params args = .ok r) ∨
      ∃ f, matchTail params args = .error (.arguments f) := by
  by_cases hok : ∃ r, matchTail params args = .ok r
  · exact .inl hok
  · simp only [matchTail_eq_ok_iff, not_exists] at hok
    obtain ⟨f, hf⟩ := exists_arguments_fault hnodup hsimple hok
    exact .inr ⟨f, by rw [matchTail, hf]⟩

namespace Decoders

section

variable {rs : Records} {t₀ : Target} {doc : Document}

/-! ### Basic types -/

theorem explained_mismatch {α : Type} (path expected : String) (s : Subject)
    (cause : Option Failure) :
    FailsOnly (α := α) (Failure.Explained rs t₀ doc) (.error (mismatch path expected s cause)) :=
  .error rfl

theorem explained_decodeStr (s : Subject) (path : String) :
    FailsOnly (Failure.Explained rs t₀ doc) (decodeStr s path) := by
  unfold decodeStr
  split
  · exact .ok _
  · exact .ok _
  · exact explained_mismatch _ _ _ _

theorem explained_decodeBool (s : Subject) (path : String) :
    FailsOnly (Failure.Explained rs t₀ doc) (decodeBool s path) := by
  unfold decodeBool
  split_ifs
  · exact .ok _
  · exact .ok _
  · exact explained_mismatch _ _ _ _

theorem explained_decodeInt (s : Subject) (path : String) :
    FailsOnly (Failure.Explained rs t₀ doc) (decodeInt s path) := by
  unfold decodeInt
  split
  · exact .ok _
  · split
    · exact .ok _
    · exact explained_mismatch _ _ _ _
  · exact explained_mismatch _ _ _ _

/-- A floating point number is had but from numbers that are too large, if no quotient has a zero
below the line. -/
theorem explained_decodeReal (hfloat : PartOf rs t₀ (.cls .float))
    (hden : ∀ num den, .rational num den ∈ doc.leaves → den ≠ 0) {e : Expr}
    (he : e.leaves ⊆ doc.leaves) (path : String) :
    FailsOnly (Failure.Explained rs t₀ doc) (decodeReal (.expr e) path) := by
  cases e with
  | leaf l span =>
    have hl : l ∈ doc.leaves := he (List.mem_singleton_self l)
    cases l with
    | real value => exact .ok _
    | int value =>
      show FailsOnly _ (realOfInt value)
      unfold realOfInt
      cases hlarge : Binary64.ofInt? value with
      | some r => exact .ok _
      | none => exact .error ⟨hfloat, value, hl, hlarge⟩
    | rational num den =>
      show FailsOnly _ (realOfQuotient num den)
      unfold realOfQuotient
      rw [if_neg (hden num den hl)]
      cases hlarge : Binary64.ofQuotient? num den with
      | some r => exact .ok _
      | none => exact .error ⟨hfloat, num, den, hl, hlarge⟩
    | atom name =>
      simp only [decodeReal]
      cases readReal? name with
      | some r => exact .ok _
      | none => exact explained_mismatch _ _ _ _
    | string value => exact explained_mismatch _ _ _ _
  | _ => exact explained_mismatch _ _ _ _

theorem explained_decodeQuoted (inner : Target) (s : Subject) (path : String) :
    FailsOnly (Failure.Explained rs t₀ doc) (decodeQuoted inner s path) := by
  unfold decodeQuoted
  split
  · split
    · exact .ok _
    · exact explained_mismatch _ _ _ _
  · split
    · exact .ok _
    · exact explained_mismatch _ _ _ _
  · exact explained_mismatch _ _ _ _

/-! ### Lists, dictionaries and records -/

variable {down : DecodeFn} {n : Nat}
  (hdown : ∀ t e path, PartOf rs t₀ t → Expr.Within doc n e →
    FailsOnly (Failure.Explained rs t₀ doc) (down t (.expr e) path))

include hdown

theorem explained_decodeItems {item : Target} (hitem : PartOf rs t₀ item) {es : List Expr}
    (hes : ∀ e ∈ es, e.Within doc n) (path : String) (i : Nat) :
    FailsOnly (Failure.Explained rs t₀ doc) (decodeItems down item path i es) := by
  induction es generalizing i with
  | nil => exact .ok _
  | cons e es ih =>
    obtain ⟨he, hes⟩ := List.forall_mem_cons.1 hes
    rw [decodeItems]
    refine (hdown item e _ hitem he).bind fun v _ => ?_
    exact (ih hes (i + 1)).bind fun vs _ => .ok _

theorem explained_decodeList {item : Target} (hitem : PartOf rs t₀ item) {e : Expr}
    (he : e.Within doc (n + 1)) (path : String) :
    FailsOnly (Failure.Explained rs t₀ doc) (decodeList down item (.expr e) path) := by
  cases e with
  | items enclosure values spans =>
    cases enclosure with
    | group => exact explained_mismatch _ _ _ _
    | sequence =>
      exact (explained_decodeItems hdown hitem (fun _ => he.item) path 0).bind fun vs _ => .ok _
  | _ => exact explained_mismatch _ _ _ _

theorem explained_decodeEntries {key value : Target} (hkey : PartOf rs t₀ key)
    (hvalue : PartOf rs t₀ value) (whole : Subject) (path : String) (i : Nat) {fs : List Field}
    (hfs : ∀ f ∈ fs, f.key.Within doc n ∧ f.value.Within doc n) (es : Entries) :
    FailsOnly (Failure.Explained rs t₀ doc) (decodeEntries down key value whole path i fs es) := by
  induction fs generalizing i es with
  | nil => exact .ok _
  | cons f fs ih =>
    obtain ⟨hf, hfs⟩ := List.forall_mem_cons.1 hfs
    rw [decodeEntries]
    refine (hdown key f.key _ hkey hf.1).bind fun k _ => ?_
    refine (hdown value f.value _ hvalue hf.2).bind fun v _ => ?_
    -- here a value that cannot be a key is a failure to decode
    cases es.put k v with
    | ok es => exact ih (i + 1) hfs es
    | error cause => exact explained_mismatch _ _ _ _

theorem explained_decodeDict {key value : Target} (hkey : PartOf rs t₀ key)
    (hvalue : PartOf rs t₀ value) {e : Expr} (he : e.Within doc (n + 1)) (path : String) :
    FailsOnly (Failure.Explained rs t₀ doc) (decodeDict down key value (.expr e) path) := by
  cases e with
  | map fields spans =>
    exact (explained_decodeEntries hdown hkey hvalue _ path 0 (fun _ => he.field) []).bind
      fun es _ => .ok _
  | _ => exact explained_mismatch _ _ _ _

theorem explained_decodeField {plan : FieldPlan} (hplan : plan.field.plan = .ok plan)
    (htype : PartOf rs t₀ plan.field.type) (whole : Subject) (path : String) {es : List Expr}
    (hes : ∀ e ∈ es, e.Within doc n) :
    FailsOnly (Failure.Explained rs t₀ doc) (decodeField down plan whole path es) := by
  have hone : ∀ e ∈ es, FailsOnly (Failure.Explained rs t₀ doc)
      (do return some (← down plan.field.type (.expr e) (path ++ "." ++ plan.field.name))) :=
    fun e he => (hdown _ e _ htype (hes e he)).bind fun v _ => .ok _
  obtain ⟨-, harity⟩ := FieldDecl.plan_eq_ok hplan
  unfold decodeField
  dsimp only
  by_cases hrequired : plan.arity = .required
  · rw [if_pos hrequired]
    match es with
    | [] => exact explained_mismatch _ _ _ _
    | [e] => exact hone e (List.mem_singleton_self e)
    | _ :: _ :: _ => exact explained_mismatch _ _ _ _
  rw [if_neg hrequired]
  by_cases hoptional : plan.arity = .optional
  · rw [if_pos hoptional]
    match es with
    | [] => exact .ok _
    | e :: es => exact hone e List.mem_cons_self
  · rw [if_neg hoptional]
    -- what is left are the fields that take any number of values
    obtain ⟨-, item, hitem⟩ := (harity.resolve_left hrequired).resolve_left hoptional
    rw [hitem, Option.getD_some]
    exact (explained_decodeItems hdown (htype.unwrap.item? hitem) hes _ 0).bind fun vs _ => .ok _

theorem explained_decodeFields {plans : List FieldPlan}
    (hplans : ∀ p ∈ plans, p.field.plan = .ok p)
    (htypes : ∀ p ∈ plans, PartOf rs t₀ p.field.type) (whole : Subject) (path : String)
    {assigned : Assignment Expr} (hes : ∀ p ∈ plans, ∀ e ∈ assigned.getD p.name, e.Within doc n) :
    FailsOnly (Failure.Explained rs t₀ doc) (decodeFields down whole path assigned plans) := by
  induction plans with
  | nil => exact .ok _
  | cons plan plans ih =>
    obtain ⟨hplan, hplans⟩ := List.forall_mem_cons.1 hplans
    obtain ⟨htype, htypes⟩ := List.forall_mem_cons.1 htypes
    obtain ⟨hvalues, hes⟩ := List.forall_mem_cons.1 hes
    rw [decodeFields]
    refine (explained_decodeField hdown hplan htype whole path hvalues).bind fun v _ => ?_
    exact (ih hplans htypes hes).bind fun rest _ => .ok _

/-- A record whose fields make sense is decoded, or a failure says why not. -/
theorem explained_decodeRecord {decl : RecordDecl} {plans : List FieldPlan}
    (hplans : decl.fields.mapM FieldDecl.plan = .ok plans) (hnodup : (plans.map (·.name)).Nodup)
    (htypes : ∀ f ∈ decl.fields, PartOf rs t₀ f.type) {e : Expr} (he : e.Within doc (n + 1))
    (path : String) :
    FailsOnly (Failure.Explained rs t₀ doc) (decodeRecord down decl (.expr e) path) := by
  obtain ⟨hdeclared, hplan⟩ := FieldDecl.plans_eq_ok hplans
  unfold decodeRecord
  split
  · rename_i head args spans hgroup
    cases hgroup
    split
    · split_ifs
      · refine FailsOnly.bind (by rw [hplans]; exact .ok _) fun plans' hplans' => ?_
        obtain rfl := Except.ok.inj (hplans.symm.trans (mapError_eq_ok.1 hplans'))
        have hnames : ((plans.map fun p => Parameter.mk p.arity p.name).map (·.name)).Nodup := by
          rwa [List.map_map]
        have hsimple : ∀ p ∈ plans.map fun p => Parameter.mk p.arity p.name,
            p.arity.IsSimple := by
          simpa using fun p hp => FieldDecl.isSimple_of_plan (hplan p hp)
        -- the names are different, so that nothing but the arguments can be at fault
        rcases matchTail_ok_or_fault hnames hsimple args with ⟨assigned, hassigned⟩ | ⟨f, hf⟩
        · simp only [hassigned]
          -- a field is assigned some of the arguments, which are one level down
          have hwithin : ∀ p ∈ plans, ∀ e ∈ assigned.getD p.name, e.Within doc n := by
            intro p hp e hmem
            have hparam : Parameter.mk p.arity p.name ∈ plans.map fun p => ⟨p.arity, p.name⟩ :=
              List.mem_map_of_mem (f := fun p : FieldPlan => Parameter.mk p.arity p.name) hp
            exact he.item (List.mem_cons_of_mem _ (mem_of_matchTail hassigned hparam hmem))
          refine (explained_decodeFields hdown hplan (fun p hp => ?_) _ path hwithin).bind
            fun given _ => ?_
          · exact htypes _ (hdeclared ▸ List.mem_map_of_mem hp)
          · cases decl.construct given with
            | ok v => exact .ok v
            | error cause => exact explained_mismatch _ _ _ _
        · simp only [hf]
          exact explained_mismatch _ _ _ _
      · exact explained_mismatch _ _ _ _
    · exact explained_mismatch _ _ _ _
  · exact explained_mismatch _ _ _ _

theorem explained_decodeRecordUnion {decls : List RecordDecl}
    (h : ∀ decl ∈ decls, (∃ plans, decl.fields.mapM FieldDecl.plan = .ok plans ∧
      (plans.map (·.name)).Nodup) ∧ ∀ f ∈ decl.fields, PartOf rs t₀ f.type)
    {e : Expr} (he : e.Within doc (n + 1)) (path : String) :
    FailsOnly (Failure.Explained rs t₀ doc) (decodeRecordUnion down decls (.expr e) path) := by
  unfold decodeRecordUnion
  split
  · split
    · split
      · exact .error rfl
      · split
        · rename_i decl hfind
          obtain ⟨⟨plans, hplans, hnodup⟩, htypes⟩ := h decl (List.mem_of_find?_eq_some hfind)
          exact explained_decodeRecord hdown hplans hnodup htypes he path
        · exact explained_mismatch _ _ _ _
    · exact explained_mismatch _ _ _ _
  · exact explained_mismatch _ _ _ _

/-! ### All types -/

variable (ht : t₀.WellFormed rs) (hden : ∀ num den, .rational num den ∈ doc.leaves → den ≠ 0)

include ht hden

theorem explained_decodeClass {c : ClassName} (hc : PartOf rs t₀ (.cls c)) {e : Expr}
    (he : e.Within doc (n + 1)) (path : String) :
    FailsOnly (Failure.Explained rs t₀ doc) (decodeClass ⟨rs, [], []⟩ down c (.expr e) path) := by
  unfold decodeClass
  split
  · split
    · exact .ok _
    · exact explained_mismatch _ _ _ _
  · exact explained_decodeStr _ path
  · exact explained_decodeBool _ path
  · exact explained_decodeInt _ path
  · exact explained_decodeReal hc hden he.leaves path
  · cases hfind : rs.find? c with
    | none => exact explained_mismatch _ _ _ _
    | some decl =>
      obtain ⟨plans, hplans, hnodup⟩ := ht.plans c decl hc hfind
      exact explained_decodeRecord hdown hplans hnodup (fun f hf => hc.field hfind hf) he path

omit hdown ht hden in
/-- The members of a union fail together as each of them does. -/
theorem explained_decodeMembers {d : Decoders} {members : List Target} {s : Subject} {path : String}
    (h : ∀ m ∈ members, FailsOnly (Failure.Explained rs t₀ doc) (d.decodeBase down m s path))
    (first : Option Failure) :
    FailsOnly (Failure.Explained rs t₀ doc) (d.decodeMembers down members first s path) := by
  induction members generalizing first with
  | nil =>
    rw [decodeMembers]
    exact .ok _
  | cons m ms ih =>
    obtain ⟨hm, hms⟩ := List.forall_mem_cons.1 h
    rw [decodeMembers]
    split_ifs
    · exact ih hms first
    · split
      · exact .ok _
      · -- a failure to decode lets the next member have its turn
        exact ih hms _
      · rename_i hfault
        exact .error (hm _ hfault)

/-- How one level fails. -/
theorem explained_decodeBase (t : Target) (h : PartOf rs t₀ t) {e : Expr}
    (he : e.Within doc (n + 1)) (path : String) :
    FailsOnly (Failure.Explained rs t₀ doc) (decodeBase ⟨rs, [], []⟩ down t (.expr e) path) := by
  have hregistered : registered? ⟨rs, [], []⟩ t = none := by
    cases t <;> rfl
  unfold decodeBase
  rw [hregistered]
  dsimp only
  cases t with
  | any =>
    rcases e.hashedBy_value with ⟨⟨v, hv⟩, -⟩ | ⟨⟨kind, hkind⟩, k, hk, hbrackets⟩
    · dsimp only
      rw [hv]
      exact .ok v
    · -- the entries are made of plain values, and nothing looks at the keys before
      dsimp only
      rw [hkind]
      exact .error ⟨h, k, he.keys hk, hbrackets⟩
  | cls c => exact explained_decodeClass hdown ht hden h he path
  | bareList => exact explained_decodeList hdown h.anyItem he path
  | bareDict => exact explained_decodeDict hdown h.anyEntry h.anyEntry he path
  | list item => exact explained_decodeList hdown h.item he path
  | dict key value => exact explained_decodeDict hdown h.key h.value he path
  | tuple items => exact explained_mismatch _ _ _ _
  | quoted inner => exact explained_decodeQuoted inner _ path
  | literal values => exact explained_mismatch _ _ _ _
  | unionOf closed members =>
    dsimp only
    cases hmembers : recordMembers? ⟨rs, [], []⟩ members with
    | some decls =>
      refine explained_decodeRecordUnion hdown (fun decl hdecl => ?_) he path
      obtain ⟨m, hm, c, hc, hfind⟩ := mem_of_recordMembers? hmembers hdecl
      have hclass : PartOf rs t₀ (.cls c) := hc ▸ (h.member hm).unwrap
      exact ⟨ht.plans c decl hclass hfind, fun f hf => hclass.field hfind hf⟩
    | none =>
      dsimp only
      split_ifs
      · exact .ok _
      · have hall : ∀ m ∈ members, FailsOnly (Failure.Explained rs t₀ doc)
            (decodeBase ⟨rs, [], []⟩ down m (.expr e) path) := fun m hm =>
          explained_decodeBase m (h.member hm) he path
        refine (explained_decodeMembers hall none).bind fun r _ => ?_
        split
        · exact .ok _
        · exact explained_mismatch _ _ _ _
        · exact explained_mismatch _ _ _ _
  | annotated base notes => exact explained_decodeBase base h.base he path
termination_by t

theorem explained_decodeBy (t : Target) (h : PartOf rs t₀ t) {e : Expr}
    (he : e.Within doc (n + 1)) (path : String) :
    FailsOnly (Failure.Explained rs t₀ doc) (decodeBy ⟨rs, [], []⟩ down t (.expr e) path) := by
  cases t with
  | annotated base notes =>
    rw [decodeBy, ht.notes base notes h]
    exact explained_decodeBase hdown ht hden base h.base he path
  | _ => exact explained_decodeBase hdown ht hden _ h he path

end

/-- The levels of an expression are enough: it is never too deep. -/
theorem explained_decodeWithin {rs : Records} {t₀ : Target} (ht : t₀.WellFormed rs)
    {doc : Document} (hden : ∀ num den, .rational num den ∈ doc.leaves → den ≠ 0) (n : Nat)
    (t : Target) (e : Expr) (path : String) (h : PartOf rs t₀ t) (he : e.Within doc n) :
    FailsOnly (Failure.Explained rs t₀ doc) (decodeWithin ⟨rs, [], []⟩ n t (.expr e) path) := by
  induction n generalizing t e path with
  | zero => exact absurd he.depth (Nat.not_lt_zero _)
  | succ n ih => exact explained_decodeBy ih ht hden t h he path

/-! ### Source texts -/

end Decoders

/-- A quotient that was read has no zero below the line. -/
theorem Expr.Readable.den_ne_zero {e : Expr} (h : e.Readable) {num den : Int}
    (hmem : .rational num den ∈ e.leaves) : den ≠ 0 := by
  induction e using Expr.induction with
  | leaf l span =>
    cases List.mem_singleton.1 hmem
    cases h with
    | leaf h =>
      obtain ⟨d, rfl, hd, -⟩ := h
      omega
  | items enclosure values spans ih =>
    cases h with
    | items h =>
      obtain ⟨v, hv, hmem⟩ := Expr.mem_leavesAll.1 hmem
      exact ih v hv (h v hv) hmem
  | map fields spans ih =>
    cases h with
    | map hkeys hvalues =>
      obtain ⟨f, hf, hmem | hmem⟩ := Field.mem_leavesAll.1 hmem
      · by_cases hatom : f.key.IsKeyAtom
        · obtain ⟨name, span, hkey, -⟩ := hatom
          rw [hkey] at hmem
          cases List.mem_singleton.1 hmem
        · exact (ih f hf).1 (hkeys f hf hatom) hmem
      · exact (ih f hf).2 (hvalues f hf) hmem
  | bare mark => cases h

namespace Decoders

theorem exprs_of_onlyExpr {doc : Document} {e : Expr} (h : onlyExpr doc = .ok e) :
    doc.exprs = [e] := by
  unfold onlyExpr at h
  split at h
  · cases h
    assumption
  · cases h

theorem explained_onlyExpr {rs : Records} {t : Target} (doc : Document) :
    FailsOnly (Failure.Explained rs t doc) (onlyExpr doc) := by
  unfold onlyExpr
  split
  · exact .ok _
  · exact .error rfl

theorem readOne_of_parse (d : Decoders) (t : Target) {src : String} {doc : Document}
    (h : Document.parse src true = .ok doc) :
    d.readOne t src = onlyExpr doc >>= fun e => d.decode t e rootPath := by
  unfold readOne
  rw [h]
  rfl

/-- A text with one expression is decoded as this expression. -/
theorem readOne_of_exprs (d : Decoders) (t : Target) {src : String} {doc : Document} {e : Expr}
    (hparse : Document.parse src true = .ok doc) (he : doc.exprs = [e]) :
    d.readOne t src = d.decode t e rootPath := by
  rw [readOne_of_parse d t hparse, onlyExpr, he]
  rfl

/-- Where anything is taken, the only expression of a text becomes its plain value. -/
theorem hashedBy_readOne_any (rs : Records) {src : String} {doc : Document} {e : Expr}
    (hparse : Document.parse src true = .ok doc) (he : doc.exprs = [e]) :
    HashedBy (readOne ⟨rs, [], []⟩ .any src) doc.keys := by
  have hvalue : readOne ⟨rs, [], []⟩ .any src = e.value := by
    rw [readOne_of_exprs _ _ hparse he]
    rfl
  have hkeys : doc.keys = e.keys := by
    simp [Document.keys, he, Expr.keysAll]
  rw [hvalue, hkeys]
  exact e.hashedBy_value

theorem readOne_float (rs : Records) {src : String} {doc : Document} {e : Expr}
    (hparse : Document.parse src true = .ok doc) (he : doc.exprs = [e]) :
    readOne ⟨rs, [], []⟩ (.cls .float) src = decodeReal (.expr e) rootPath := by
  rw [readOne_of_exprs _ _ hparse he]
  rfl

theorem explained_readOne {rs : Records} {t : Target} (ht : t.WellFormed rs) {src : String}
    {doc : Document} (hparse : Document.parse src true = .ok doc)
    (hden : ∀ num den, .rational num den ∈ doc.leaves → den ≠ 0) :
    FailsOnly (Failure.Explained rs t doc) (readOne ⟨rs, [], []⟩ t src) := by
  rw [readOne_of_parse _ t hparse]
  refine (explained_onlyExpr doc).bind fun e he => ?_
  have hmem : e ∈ doc.exprs := by
    rw [exprs_of_onlyExpr he]
    exact List.mem_singleton_self e
  have hwithin : e.Within doc (levels ⟨rs, [], []⟩ e) := by
    refine ⟨fun l hl => Expr.mem_leavesAll.2 ⟨e, hmem, hl⟩,
      fun k hk => Expr.mem_keysAll.2 ⟨e, hmem, hk⟩, ?_⟩
    simp [levels]
  exact explained_decodeWithin ht hden _ t e rootPath .whole hwithin

/-- A text that can be read is decoded into a value of a well-formed type, or it fails to be
decoded, or the failure is explained by a number that is too large or by brackets as a key. Both
happen: where anything is taken, such a key is always to blame, and where a floating point number
is asked for, such a number is. -/
theorem readOne_ok_or_explained {rs : Records} {t : Target} (ht : t.WellFormed rs) {src : String}
    {doc : Document} (hparse : Document.parse src true = .ok doc) :
    ((∃ v, readOne ⟨rs, [], []⟩ t src = .ok v) ∨
      ∃ f, readOne ⟨rs, [], []⟩ t src = .error f ∧ f.Explained rs t doc) ∧
    (∀ e, doc.exprs = [e] → HashedBy (readOne ⟨rs, [], []⟩ .any src) doc.keys) ∧
    (∀ i span, doc.exprs = [.leaf (.int i) span] → Binary64.ofInt? i = none →
      readOne ⟨rs, [], []⟩ (.cls .float) src = .error (.number .integerTooLarge)) ∧
    ∀ num den span, doc.exprs = [.leaf (.rational num den) span] →
      Binary64.ofQuotient? num den = none →
      readOne ⟨rs, [], []⟩ (.cls .float) src = .error (.number .quotientTooLarge) := by
  have hden : ∀ num den, .rational num den ∈ doc.leaves → den ≠ 0 := by
    intro num den hmem
    obtain ⟨e, he, hmem⟩ := Expr.mem_leavesAll.1 hmem
    exact (Document.readable_of_read hparse e he).den_ne_zero hmem
  refine ⟨?_, fun e he => hashedBy_readOne_any rs hparse he, fun i span he hlarge => ?_,
    fun num den span he hlarge => ?_⟩
  · cases hresult : readOne ⟨rs, [], []⟩ t src with
    | ok v => exact .inl ⟨v, rfl⟩
    | error f => exact .inr ⟨f, rfl, explained_readOne ht hparse hden f hresult⟩
  · rw [readOne_float rs hparse he]
    simp [decodeReal, realOfInt, hlarge]
  · have hne : den ≠ 0 := hden num den (by simp [Document.leaves, he, Expr.leavesAll, Expr.leaves])
    rw [readOne_float rs hparse he]
    simp [decodeReal, realOfQuotient, hlarge, hne]

/-- Lists of numbers or positions, by their names. -/
def samplesType : Target :=
  .dict (.cls .str) (.unionOf false [.list (.cls .float), .cls .pos])

theorem partOf_samplesType {u : Target} (h : PartOf [] samplesType u) :
    u = samplesType ∨ u = .unionOf false [.list (.cls .float), .cls .pos] ∨
      u = .list (.cls .float) ∨ u ∈ [.cls .str, .cls .float, .cls .pos, .cls .int] := by
  induction h with
  | whole => exact .inl rfl
  | field h hdecl hf ih =>
    simp only [samplesType, List.mem_cons, List.not_mem_nil, or_false, reduceCtorEq, false_or,
      Target.cls.injEq] at ih
    rcases ih with rfl | rfl | rfl | rfl
    · cases hdecl
    · cases hdecl
    · cases hdecl
      simp only [RecordDecl.plain, List.mem_cons, List.not_mem_nil, or_false] at hf
      rcases hf with rfl | rfl | rfl <;> simp [FieldDecl.required, FieldDecl.type]
    · cases hdecl
  | member h hm ih =>
    simp only [samplesType, List.mem_cons, List.not_mem_nil, or_false, reduceCtorEq, false_or,
      Target.unionOf.injEq] at ih
    obtain ⟨rfl, rfl⟩ := ih
    simp only [List.mem_cons, List.not_mem_nil, or_false] at hm
    rcases hm with rfl | rfl <;> simp
  | _ => simp_all [samplesType]

theorem wellFormed_samplesType : samplesType.WellFormed [] where
  notes b notes h := by
    simpa [samplesType] using partOf_samplesType h
  plans c decl h hfind := by
    have hc := partOf_samplesType h
    simp only [samplesType, List.mem_cons, List.not_mem_nil, or_false, reduceCtorEq, false_or,
      Target.cls.injEq] at hc
    rcases hc with rfl | rfl | rfl | rfl
    · cases hfind
    · cases hfind
    · cases hfind
      exact ⟨_, rfl, by decide +kernel⟩
    · cases hfind

/-- Brackets as a key of a dictionary: the text can be read and is not decoded. -/
theorem readOne_ok_or_explained_samples :
    samplesType.WellFormed [] ∧
      ∃ doc, Document.parse "\x7ba: [1 2.5] [b]: (pos 1 2 :index 3)\x7d" true = .ok doc ∧
        ∃ f, readOne ⟨[], [], []⟩ samplesType "\x7ba: [1 2.5] [b]: (pos 1 2 :index 3)\x7d" =
            .error f ∧ f.Explained [] samplesType doc := by
  have hreads : (Document.parse "\x7ba: [1 2.5] [b]: (pos 1 2 :index 3)\x7d" true).isOk = true := by
    decide +kernel
  have hfails : (readOne ⟨[], [], []⟩ samplesType
      "\x7ba: [1 2.5] [b]: (pos 1 2 :index 3)\x7d").isOk = false := by
    decide +kernel
  refine ⟨wellFormed_samplesType, ?_⟩
  cases hparse : Document.parse "\x7ba: [1 2.5] [b]: (pos 1 2 :index 3)\x7d" true with
  | error e =>
    rw [hparse] at hreads
    cases hreads
  | ok doc =>
    refine ⟨doc, rfl, (readOne_ok_or_explained wellFormed_samplesType hparse).1.resolve_left ?_⟩
    rintro ⟨v, hv⟩
    rw [hv] at hfails
    cases hfails

/-- Brackets as a key where anything is taken are no failure to decode. -/
theorem readOne_any_brackets_key :
    ∃ kind, readOne ⟨[], [], []⟩ .any "\x7b[1]: 2\x7d" = .error (.unhashable kind) ∧
      (Failure.unhashable kind).isDecode = false := by
  have hshape : (Document.parse "\x7b[1]: 2\x7d" true).map
      (fun doc => (doc.exprs.length, doc.keys.any Expr.isBrackets)) = .ok (1, true) := by
    decide +kernel
  cases hparse : Document.parse "\x7b[1]: 2\x7d" true with
  | error e =>
    rw [hparse] at hshape
    cases hshape
  | ok doc =>
    rw [hparse] at hshape
    obtain ⟨hlength, hany⟩ := Prod.mk.inj (Except.ok.inj hshape)
    obtain ⟨e, he⟩ := List.length_eq_one_iff.1 hlength
    obtain ⟨k, hk, hbrackets⟩ := List.any_eq_true.1 hany
    rcases hashedBy_readOne_any [] hparse he with ⟨-, hkeys⟩ | ⟨⟨kind, hkind⟩, -⟩
    · rw [hkeys k hk] at hbrackets
      cases hbrackets
    · exact ⟨kind, hkind, rfl⟩

end Decoders

end Sexpr
