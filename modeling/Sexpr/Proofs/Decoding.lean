/-
What decoding has done when it gives a value.

One lemma for each rule says which subjects were decoded, into which types, and how the values
were put together. The rules for parts are given by a function `down`, of which nothing is
assumed.

* `Entries.forall_set`, `Decoders.forall_decodeEntries` — keys and values of a dictionary;
* `FieldDecl.plans_eq_ok`, `admits_of_matchTail` — the fields of a record and their arguments;
* `Decoders.lookup_decodeFields` — the values of the fields;
* `Decoders.decodeRecord_eq_ok`, `RecordDecl.construct_eq_ok` — records;
* `Decoders.decodeMembers_eq_ok`, `Decoders.mem_of_recordMembers?` — unions.
-/
import Sexpr.Decode
import Sexpr.Proofs.Routing
import Sexpr.Proofs.Sequencing

namespace Sexpr

theorem mapError_eq_ok {ε ε' α : Type} {x : Except ε α} {f : ε → ε'} {a : α} :
    x.mapError f = .ok a ↔ x = .ok a := by
  cases x with
  | error e => simp [Except.mapError]
  | ok b => simp [Except.mapError]

/-! ### Basic types -/

theorem admits_of_ofClass? {kind : ExprClass} {s : Subject} {e : Expr}
    (h : s.ofClass? kind = some e) : kind.admits e = true := by
  cases s with
  | expr e' =>
    rw [Subject.ofClass?] at h
    split_ifs at h with hadmits
    cases h
    exact hadmits
  | field f => cases h

theorem eq_noneType_of_same {t : Target} (h : t.same .noneType = true) : t = .noneType := by
  cases t with
  | cls c =>
    rw [Target.noneType, Target.same, beq_iff_eq] at h
    rw [h, Target.noneType]
  | _ => simp [Target.noneType, Target.same] at h

theorem same_noneType_iff {t : Target} : t.same .noneType = true ↔ t = .noneType := by
  refine ⟨eq_noneType_of_same, ?_⟩
  rintro rfl
  show (Target.cls .none).same (.cls .none) = true
  rw [Target.same, beq_self_eq_true]

namespace Decoders

variable {s : Subject} {path : String} {v : Value}

theorem eq_str_of_decodeStr (h : decodeStr s path = .ok v) : ∃ text, v = .str text := by
  unfold decodeStr at h
  split at h
  · cases h
    exact ⟨_, rfl⟩
  · cases h
    exact ⟨_, rfl⟩
  · cases h

theorem eq_int_of_decodeInt (h : decodeInt s path = .ok v) : ∃ i, v = .int i := by
  unfold decodeInt at h
  split at h
  · cases h
    exact ⟨_, rfl⟩
  · split at h
    · cases h
      exact ⟨_, rfl⟩
    · cases h
  · cases h

theorem eq_real_of_realOfInt {i : Int} (h : realOfInt i = .ok v) : ∃ r, v = .real r := by
  unfold realOfInt at h
  split at h
  · cases h
    exact ⟨_, rfl⟩
  · cases h

theorem eq_real_of_realOfQuotient {num den : Int} (h : realOfQuotient num den = .ok v) :
    ∃ r, v = .real r := by
  unfold realOfQuotient at h
  split_ifs at h
  split at h
  · cases h
    exact ⟨_, rfl⟩
  · cases h

theorem eq_real_of_decodeReal (h : decodeReal s path = .ok v) : ∃ r, v = .real r := by
  unfold decodeReal at h
  split at h
  · cases h
    exact ⟨_, rfl⟩
  · exact eq_real_of_realOfInt h
  · exact eq_real_of_realOfQuotient h
  · split at h
    · cases h
      exact ⟨_, rfl⟩
    · cases h
  · cases h

end Decoders

/-! ### Dictionaries -/

/-- Setting the value of a key adds no other keys and values. -/
theorem Entries.forall_set {P Q : Value → Prop} {es : Entries} {k v : Value}
    (hes : ∀ entry ∈ es, P entry.1 ∧ Q entry.2) (hk : P k) (hv : Q v) :
    ∀ entry ∈ es.set k v, P entry.1 ∧ Q entry.2 := by
  intro entry hentry
  unfold Entries.set at hentry
  split_ifs at hentry
  · obtain ⟨old, hold, rfl⟩ := List.mem_map.1 hentry
    split_ifs
    · exact ⟨(hes old hold).1, hv⟩
    · exact hes old hold
  · rcases List.mem_append.1 hentry with hold | hnew
    · exact hes entry hold
    · rw [List.mem_singleton.1 hnew]
      exact ⟨hk, hv⟩

namespace Decoders

variable {down : DecodeFn}

/-- The items of a list are decoded one by one. -/
theorem forall₂_decodeItems {item : Target} {path : String} {i : Nat} {es : List Expr}
    {vs : List Value} (h : decodeItems down item path i es = .ok vs) :
    List.Forall₂ (fun e v => ∃ p, down item (.expr e) p = .ok v) es vs := by
  induction es generalizing i vs with
  | nil =>
    cases h
    exact .nil
  | cons e es ih =>
    obtain ⟨v, hv, h⟩ := Except.bind_eq_ok.1 h
    obtain ⟨vs', hvs, h⟩ := Except.bind_eq_ok.1 h
    cases h
    exact .cons ⟨_, hv⟩ (ih hvs)

/-- What holds of every key and every value that is decoded holds of those in the
dictionary. -/
theorem forall_decodeEntries {P Q : Value → Prop} {key value : Target} {whole : Subject}
    {path : String} {i : Nat} {fs : List Field} {es es' : Entries}
    (hkey : ∀ f ∈ fs, ∀ p k, down key (.expr f.key) p = .ok k → P k)
    (hvalue : ∀ f ∈ fs, ∀ p v, down value (.expr f.value) p = .ok v → Q v)
    (hes : ∀ entry ∈ es, P entry.1 ∧ Q entry.2)
    (h : decodeEntries down key value whole path i fs es = .ok es') :
    ∀ entry ∈ es', P entry.1 ∧ Q entry.2 := by
  induction fs generalizing i es with
  | nil =>
    cases h
    exact hes
  | cons f fs ih =>
    obtain ⟨hk, hkey⟩ := List.forall_mem_cons.1 hkey
    obtain ⟨hv, hvalue⟩ := List.forall_mem_cons.1 hvalue
    obtain ⟨k, hdk, h⟩ := Except.bind_eq_ok.1 h
    obtain ⟨v, hdv, h⟩ := Except.bind_eq_ok.1 h
    have hset := Entries.forall_set hes (hk _ k hdk) (hv _ v hdv)
    unfold Entries.put at h
    cases hhash : k.hashFault? with
    | some kind => simp [hhash] at h
    | none =>
      rw [hhash] at h
      exact ih hkey hvalue hset h

end Decoders

/-! ### Fields -/

/-- The arity of a field that its name and its arguments are matched by. -/
theorem FieldDecl.arity_cases (f : FieldDecl) (marker : Option Marker) :
    f.arity marker = .required ∨ f.arity marker = .optional ∨
      f.arity marker = .zeroOrMore ∨ f.arity marker = .oneOrMore := by
  unfold FieldDecl.arity
  split
  · exact .inr (.inl rfl)
  · exact .inr (.inr (.inl rfl))
  · exact .inr (.inr (.inr rfl))
  · split_ifs
    · exact .inr (.inl rfl)
    · exact .inl rfl

/-- A field is read as its declaration says: it takes one value, one or none, or it is a list
and takes any number of them. -/
theorem FieldDecl.plan_eq_ok {f : FieldDecl} {p : FieldPlan} (h : f.plan = .ok p) :
    p.field = f ∧ (p.arity = .required ∨ p.arity = .optional ∨
      p.arity.isVariadic = true ∧ ∃ item, f.type.unwrap.1.item? = some item) := by
  obtain ⟨label, -, h⟩ := Except.bind_eq_ok.1 h
  dsimp only at h
  split_ifs at h with hlist
  · cases h
  · cases h
    refine ⟨rfl, ?_⟩
    rw [Bool.and_eq_true, not_and, Option.isNone_iff_eq_none] at hlist
    have hitem : (f.arity label.marker).isVariadic = true →
        ∃ item, f.type.unwrap.1.item? = some item := fun hvariadic =>
      Option.ne_none_iff_exists'.1 (hlist hvariadic)
    rcases f.arity_cases label.marker with hm | hm | hm | hm
    · exact .inl hm
    · exact .inr (.inl hm)
    · exact .inr (.inr ⟨by rw [hm]; rfl, hitem (by rw [hm]; rfl)⟩)
    · exact .inr (.inr ⟨by rw [hm]; rfl, hitem (by rw [hm]; rfl)⟩)

/-- Each field of a record is read by its plan. -/
theorem FieldDecl.plans_eq_ok {fs : List FieldDecl} {plans : List FieldPlan}
    (h : fs.mapM FieldDecl.plan = .ok plans) :
    plans.map (·.field) = fs ∧ ∀ p ∈ plans, p.field.plan = .ok p := by
  induction fs generalizing plans with
  | nil =>
    cases h
    simp
  | cons f fs ih =>
    rw [List.mapM_cons] at h
    obtain ⟨p, hp, h⟩ := Except.bind_eq_ok.1 h
    obtain ⟨ps, hps, h⟩ := Except.bind_eq_ok.1 h
    cases h
    obtain ⟨hfields, hplans⟩ := ih hps
    have hfield := (FieldDecl.plan_eq_ok hp).1
    rw [List.map_cons, hfields, hfield]
    exact ⟨rfl, List.forall_mem_cons.2 ⟨by rw [hfield, hp], hplans⟩⟩

theorem matchTail_eq_ok_iff {params : List Parameter} {args : List Expr} {r : Assignment Expr} :
    matchTail params args = .ok r ↔ matchArguments params (args.map Expr.toArgument) = .ok r := by
  unfold matchTail
  constructor
  · intro h
    split at h
    · rename_i hr
      rw [hr, Except.ok.inj h]
    · cases h
    · cases h
    · cases h
  · intro h
    rw [h]

/-- Each field gets as many arguments as it takes. -/
theorem admits_of_matchTail {params : List Parameter} {args : List Expr} {r : Assignment Expr}
    (h : matchTail params args = .ok r) :
    ∀ p ∈ params, p.arity.Admits (r.getD p.name).length := by
  have hmatch := matchTail_eq_ok_iff.1 h
  obtain ⟨hnodup, hknown, hfollowed⟩ := checks_of_matchArguments hmatch
  exact ((Node.sound_start hknown hfollowed).exists_routing hnodup
    (mem_leaves_of_matchArguments hmatch)).2.1

namespace Decoders

variable {down : DecodeFn} {whole : Subject} {path : String} {assigned : Assignment Expr}

theorem lookup_decodeFields_eq_none {plans : List FieldPlan} {given : List (String × Value)}
    (h : decodeFields down whole path assigned plans = .ok given) {name : String}
    (hname : name ∉ plans.map (·.field.name)) : given.lookup name = none := by
  induction plans generalizing given with
  | nil =>
    cases h
    rfl
  | cons plan plans ih =>
    rw [List.map_cons, List.mem_cons, not_or] at hname
    obtain ⟨v, -, h⟩ := Except.bind_eq_ok.1 h
    obtain ⟨rest, hrest, h⟩ := Except.bind_eq_ok.1 h
    cases v with
    | none =>
      cases h
      exact ih hrest hname.2
    | some v =>
      cases h
      rw [List.lookup_cons, beq_false_of_ne hname.1]
      exact ih hrest hname.2

/-- The value of each field is decoded from its arguments, and none is given if a default takes
its place. -/
theorem lookup_decodeFields {plans : List FieldPlan} {given : List (String × Value)}
    (hnodup : (plans.map (·.field.name)).Nodup)
    (h : decodeFields down whole path assigned plans = .ok given) :
    ∀ plan ∈ plans, decodeField down plan whole path (assigned.getD plan.name) =
      .ok (given.lookup plan.field.name) := by
  induction plans generalizing given with
  | nil => simp
  | cons plan plans ih =>
    rw [List.map_cons, List.nodup_cons] at hnodup
    obtain ⟨v, hv, h⟩ := Except.bind_eq_ok.1 h
    obtain ⟨rest, hrest, h⟩ := Except.bind_eq_ok.1 h
    have ih := ih hnodup.2 hrest
    refine List.forall_mem_cons.2 ⟨?_, fun other hother => ?_⟩
    · rw [hv]
      cases v with
      | none =>
        cases h
        rw [lookup_decodeFields_eq_none hrest hnodup.1]
      | some v =>
        cases h
        rw [List.lookup_cons_self]
    · rw [ih other hother]
      cases v with
      | none =>
        cases h
        rfl
      | some v =>
        -- the other field has another name
        have hne : other.field.name ≠ plan.field.name := by
          intro heq
          exact hnodup.1 (heq ▸ List.mem_map_of_mem hother)
        cases h
        rw [List.lookup_cons, beq_false_of_ne hne]

end Decoders

/-! ### Records -/

theorem find?_cls {rs : Records} {c : ClassName} {decl : RecordDecl}
    (h : rs.find? c = some decl) : decl.cls = c := by
  simpa using List.find?_some h

/-- The fields of a record have different names if those of the declared records do. -/
theorem nodup_of_find? {rs : Records} (hrecords : ∀ decl ∈ rs, (decl.fields.map (·.name)).Nodup)
    {c : ClassName} {decl : RecordDecl} (h : rs.find? c = some decl) :
    (decl.fields.map (·.name)).Nodup := by
  have hcore : ∀ names ∈ coreRecords.map fun d => d.fields.map (·.name), names.Nodup := by decide
  rcases List.mem_append.1 (List.mem_of_find?_eq_some h) with hdeclared | hmem
  · exact hrecords decl hdeclared
  · exact hcore _ (List.mem_map_of_mem hmem)

/-- The values of the fields of a record: those given, the others by default. -/
def RecordDecl.filled (d : RecordDecl) (given : List (String × Value)) : List (String × Value) :=
  d.fields.filterMap fun f =>
    ((given.lookup f.name).or (f.default.map Default.value)).map fun v => (f.name, v)

/-- A record is made of the values of its fields. -/
theorem RecordDecl.construct_eq_ok {d : RecordDecl} {given : List (String × Value)} {v : Value}
    (h : d.construct given = .ok v) :
    v = (coreValue? d.cls ((d.filled given).map Prod.snd)).getD
      (.record d.cls (d.filled given)) := by
  unfold RecordDecl.construct at h
  dsimp only at h
  split at h
  · cases h
  · split_ifs at h
    · split at h
      · obtain ⟨-, -, h⟩ := Except.bind_eq_ok.1 h
        cases h
        rfl
      · cases h
        rfl
    · cases h

namespace Decoders

variable {down : DecodeFn}

/-- A record is decoded from a group of its tag and the arguments of its fields. -/
theorem decodeRecord_eq_ok {decl : RecordDecl} {s : Subject} {path : String} {v : Value}
    (h : decodeRecord down decl s path = .ok v) :
    ∃ tagSpan args spans plans assigned given,
      s = .expr (.items .group (.leaf (.atom decl.tag) tagSpan :: args) spans) ∧
      decl.fields.mapM FieldDecl.plan = .ok plans ∧
      matchTail (plans.map fun p => ⟨p.arity, p.name⟩) args = .ok assigned ∧
      decodeFields down s path assigned plans = .ok given ∧ decl.construct given = .ok v := by
  unfold decodeRecord at h
  split at h
  · split at h
    · split_ifs at h with htag
      obtain ⟨plans, hplans, h⟩ := Except.bind_eq_ok.1 h
      have hplans := mapError_eq_ok.1 hplans
      dsimp only at h
      split at h
      · cases h
      · cases h
      · rename_i assigned hassigned
        obtain ⟨given, hgiven, h⟩ := Except.bind_eq_ok.1 h
        split at h
        · rename_i hv
          cases h
          subst htag
          exact ⟨_, _, _, plans, assigned, given, rfl, hplans, hassigned, hgiven, hv⟩
        · cases h
    · cases h
  · cases h

theorem decodeRecordUnion_eq_ok {decls : List RecordDecl} {s : Subject} {path : String} {v : Value}
    (h : decodeRecordUnion down decls s path = .ok v) :
    ∃ decl ∈ decls, decodeRecord down decl s path = .ok v := by
  unfold decodeRecordUnion at h
  split at h
  · split at h
    · split at h
      · cases h
      · split at h
        · rename_i hfind
          exact ⟨_, List.mem_of_find?_eq_some hfind, h⟩
        · cases h
    · cases h
  · cases h

/-! ### Unions -/

/-- The records of a union are those of its members. -/
theorem mem_of_recordMembers? {d : Decoders} {members : List Target} {decls : List RecordDecl}
    (h : d.recordMembers? members = some decls) {decl : RecordDecl} (hdecl : decl ∈ decls) :
    ∃ m ∈ members, ∃ c, m.unwrap.1 = .cls c ∧ d.records.find? c = some decl := by
  unfold recordMembers? at h
  dsimp only at h
  split_ifs at h
  cases h
  obtain ⟨t, ht, hfind⟩ := List.mem_filterMap.1 hdecl
  obtain ⟨m, hm, rfl⟩ := List.mem_map.1 (List.mem_filter.1 ht).1
  split at hfind
  · rename_i c hc
    exact ⟨m, hm, c, hc, hfind⟩
  · cases hfind

/-- A value of a union is one of a member. -/
theorem decodeMembers_eq_ok {d : Decoders} {members : List Target} {first : Option Failure}
    {s : Subject} {path : String} {v : Value}
    (h : d.decodeMembers down members first s path = .ok (.inr v)) :
    ∃ m ∈ members, d.decodeBase down m s path = .ok v := by
  induction members generalizing first with
  | nil =>
    rw [decodeMembers] at h
    cases h
  | cons m ms ih =>
    have later : (∃ m' ∈ ms, d.decodeBase down m' s path = .ok v) →
        ∃ m' ∈ m :: ms, d.decodeBase down m' s path = .ok v := by
      rintro ⟨m', hm', hv⟩
      exact ⟨m', List.mem_cons_of_mem m hm', hv⟩
    rw [decodeMembers] at h
    split_ifs at h
    · exact later (ih h)
    · split at h
      · rename_i hv
        cases h
        exact ⟨m, List.mem_cons_self, hv⟩
      · exact later (ih h)
      · cases h

end Decoders
end Sexpr
