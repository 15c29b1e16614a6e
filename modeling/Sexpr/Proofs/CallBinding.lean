/-
Binding the parameters of a call.

The values by position go to the parameters in order, and are taken as the parameters at their
indices say, whichever parameters their expressions were assigned to. Where these are the same,
a call binds every parameter to the values of its own expressions. Else it fails, or some
parameter gets a value that is not its own.

* `FunctionOf.seat`, `FunctionOf.Faithful` — where values by position go, and when they go to
  the parameters that their expressions were assigned to;
* `FunctionOf.bind_eq_ok_iff` — when values can be bound, and to what;
* `FunctionOf.Faithful.bind_eq` — values that go to their own parameters;
* `Evaluator.arguments`, `Evaluator.call_eq` — the part of a call before the function runs;
* `Evaluator.arguments_of_faithful` — what it does if all values go to their own parameters;
* `Misbound`, `Evaluator.misbound_of_not_faithful` — and what it does else.
-/
import Sexpr.Proofs.CallArguments

namespace Sexpr

/-! ### Checks -/

theorem when_throw_eq_ok {ε α : Type} {c : Prop} [Decidable c] {e : ε} {x : Except ε α} {a : α} :
    (do
      if c then throw e
      x : Except ε α) = .ok a ↔ ¬c ∧ x = .ok a := by
  split_ifs with h
  · exact iff_of_false nofun fun h' => h'.1 h
  · exact (and_iff_right h).symm

theorem unless_throw_eq_ok {ε α : Type} {c : Prop} [Decidable c] {e : ε} {x : Except ε α} {a : α} :
    (do
      unless c do throw e
      x : Except ε α) = .ok a ↔ c ∧ x = .ok a := by
  split_ifs with h
  · exact (and_iff_right h).symm
  · exact iff_of_false nofun fun h' => h h'.1

/-! ### Where values go -/

namespace FunctionOf

/-- The parameter that gets the value at an index by position. -/
def seat (f : Function) (i : Nat) : Option Param :=
  f.positional[i]?.or (f.params.find? fun p => p.kind = .rest)

theorem seat_of_lt {f : Function} {i : Nat} (h : i < f.positional.length) :
    f.seat i = some f.positional[i] := by
  rw [seat, List.getElem?_eq_getElem h, Option.some_or]

theorem seat_of_le {f : Function} {i : Nat} (h : f.positional.length ≤ i) :
    f.seat i = f.params.find? fun p => p.kind = .rest := by
  rw [seat, List.getElem?_eq_none h, Option.none_or]

theorem mem_positional {f : Function} {p : Param} :
    p ∈ f.positional ↔ p ∈ f.params ∧ (p.kind = .normal ∨ p.kind = .positionalOnly) := by
  simp [positional]

/-- The rest of the values comes after all parameters that take one by position. -/
theorem le_of_seat {f : Function} {i : Nat} {r : Param} (h : f.seat i = some r)
    (hkind : r.kind = .rest) : f.positional.length ≤ i := by
  by_contra hlt
  rw [Nat.not_le] at hlt
  rw [seat_of_lt hlt, Option.some_inj] at h
  have hkinds := (mem_positional.1 (h ▸ List.getElem_mem hlt)).2
  rw [hkind] at hkinds
  rcases hkinds with hkinds | hkinds <;> cases hkinds

/-- The expressions by position, each with the parameter that it is assigned to. -/
def byPosition (f : Function) (s : Assignment Expr) : List (Param × Expr) :=
  assigned s (f.params.filter (·.kind.byPosition))

/-- The expressions by name, each with the parameter that it is assigned to. -/
def byName (f : Function) (s : Assignment Expr) : List (Param × Expr) :=
  assigned s (f.params.filter fun p => !p.kind.byPosition)

/-- Every value is given to the parameter that its expression is assigned to, and is taken as
that parameter says: no name clashes with those that a callable uses itself, a value by
position goes to its own parameter, and the parameter at its index takes it in the same way. -/
structure Faithful (f : Function) (s : Assignment Expr) : Prop where
  names : ∀ x ∈ f.byName s, x.1.name ≠ "self" ∧ x.1.name ≠ "ctx"
  seats : ∀ (i : Nat) (p : Param) (e : Expr), (f.byPosition s)[i]? = some (p, e) →
    f.seat i = some p
  takings : ∀ (i : Nat) (p : Param) (e : Expr), (f.byPosition s)[i]? = some (p, e) →
    ∃ q : Param, f.params[i]? = some q ∧ q.target.taking e = p.target.taking e

/-! ### Binding values -/

/-- The values by position with the names of the parameters that they go to, without the rest. -/
def seated (f : Function) (args : List Value) : List (String × Value) :=
  (f.positional.zip args).map fun e => (e.1.name, e.2)

/-- Values by name are all given if no name is given twice. -/
theorem giveAll_eq_ok_iff {f : Function} {g g' : Given} {named : List (String × Value)}
    (hnames : ∀ x ∈ named, f.takesName x.1) :
    f.giveAll g named = .ok g' ↔
      ((named.map (·.1)).Nodup ∧ List.Disjoint (g.values.map (·.1)) (named.map (·.1))) ∧
        g' = { g with values := g.values ++ named } := by
  induction named generalizing g with
  | nil => simp [giveAll, eq_comm]
  | cons x named ih =>
    obtain ⟨hx, hnamed⟩ := List.forall_mem_cons.1 hnames
    rw [giveAll, giveNamed, if_pos hx]
    by_cases hgiven : (g.values.lookup x.1).isSome
    · rw [if_pos hgiven]
      refine iff_of_false nofun fun h => ?_
      exact h.1.2 (lookup_isSome_iff.1 hgiven) (by simp)
    · rw [if_neg hgiven]
      rw [lookup_isSome_iff] at hgiven
      refine (ih hnamed).trans ?_
      simp only [List.map_append, List.map_cons, List.map_nil, List.disjoint_append_left,
        List.singleton_disjoint, List.nodup_cons, List.disjoint_cons_right, List.append_assoc,
        List.singleton_append]
      tauto

/-- Values are bound if no parameter gets two, none that needs a value lacks it, and no value
is left over. -/
theorem bind_eq_ok_iff {f : Function} {args : List Value} {named bound : List (String × Value)}
    (hnames : ∀ x ∈ named, f.takesName x.1) :
    f.bind args named = .ok bound ↔
      ((named.map (·.1)).Nodup ∧ List.Disjoint ((f.seated args).map (·.1)) (named.map (·.1))) ∧
      (args.drop f.positional.length = [] ∨ f.hasKind .rest) ∧
      lacking ⟨f.seated args ++ named, []⟩ f.positional = [] ∧
      lacking ⟨f.seated args ++ named, []⟩ (f.params.filter fun p => p.kind = .keywordOnly) = [] ∧
      bound = f.params.map fun p =>
        (p.name, valueOf ⟨f.seated args ++ named, []⟩ (args.drop f.positional.length) p) := by
  rw [bind, Except.bind_eq_ok]
  simp only [giveAll_eq_ok_iff hnames, and_assoc, exists_and_left, exists_eq_left]
  refine and_congr_right fun _ => and_congr_right fun _ => ?_
  -- too many values, values that are lacking by position, and by name
  refine when_throw_eq_ok.trans (and_congr (by simp [or_iff_not_imp_left]) ?_)
  refine unless_throw_eq_ok.trans (and_congr List.isEmpty_iff ?_)
  refine unless_throw_eq_ok.trans (and_congr List.isEmpty_iff ?_)
  exact ⟨fun h => (Except.ok.inj h).symm, fun h => congrArg _ h.symm⟩

/-! ### Values of their own parameters -/

/-- The names of the parameters are distinct, each that does not take the rest of the values
has at most one expression, and a default if it has none. -/
structure Matched (f : Function) (s : Assignment Expr) : Prop where
  nodup : (f.params.map (·.name)).Nodup
  single : ∀ p ∈ f.params, p.kind ≠ .rest → (s.getD p.name).length ≤ 1
  default : ∀ p ∈ f.params, p.kind ≠ .rest → s.getD p.name = [] → p.default.isSome

theorem matched_of_matchTail {f : Function} {tail : List Expr} {s : Assignment Expr}
    (h : matchTail (f.params.map fun p => ⟨p.arity, p.name⟩) tail = .ok s) : f.Matched s := by
  have hnodup := (checks_of_matchArguments (matchTail_eq_ok_iff.1 h)).1
  rw [List.map_map] at hnodup
  have hadmits : ∀ p ∈ f.params, p.arity.Admits (s.getD p.name).length := fun p hp =>
    admits_of_matchTail h ⟨p.arity, p.name⟩ (List.mem_map_of_mem hp)
  refine ⟨hnodup, fun p hp hkind => ?_, fun p hp hkind hnone => ?_⟩
  · have hmost : p.arity.most = some 1 := by
      rw [ParamOf.arity, if_neg hkind]
      split_ifs <;> rfl
    exact (hadmits p hp).2 1 hmost
  · by_contra hdefault
    have hleast := (hadmits p hp).1
    rw [ParamOf.arity, if_neg hkind, if_pos (by simpa using hdefault), hnone] at hleast
    exact absurd hleast (by decide)

variable {f : Function} {s : Assignment Expr}

theorem Matched.eq_of_name_eq (h : f.Matched s) {p q : Param} (hp : p ∈ f.params)
    (hq : q ∈ f.params) (hname : p.name = q.name) : p = q :=
  List.inj_on_of_nodup_map h.nodup hp hq hname

section Signature

variable {front normal named : List Param} {rest : Option Param}

theorem byPosition_eq (hf : Signature f front normal rest named) (s : Assignment Expr) :
    f.byPosition s = assigned s front ++ assigned s rest.toList := by
  rw [byPosition, hf.byPosition, assigned_append]

theorem Matched.single_front (h : f.Matched s) (hf : Signature f front normal rest named) :
    ∀ p ∈ front, (s.getD p.name).length ≤ 1 := by
  intro p hp
  refine h.single p ?_ ?_
  · rw [hf.params]
    simp [hp]
  · rw [hf.front_kind p hp]
    nofun

end Signature

theorem byPosition_mem (f : Function) (s : Assignment Expr) {p : Param} {e : Expr} :
    (p, e) ∈ f.byPosition s ↔ p ∈ f.params ∧ p.kind.byPosition ∧ e ∈ s.getD p.name := by
  rw [byPosition, mem_assigned, List.mem_filter, and_assoc]

theorem byName_mem (f : Function) (s : Assignment Expr) {p : Param} {e : Expr} :
    (p, e) ∈ f.byName s ↔ p ∈ f.params ∧ p.kind.byPosition = false ∧ e ∈ s.getD p.name := by
  rw [byName, mem_assigned, List.mem_filter, and_assoc, Bool.not_eq_true']

/-- Values in the order of the parameters that they go to. -/
theorem map_zip_eq_take {ps : List Param} {xs : List (String × Value)}
    (h : ∀ (i : Nat) (p : Param) (x : String × Value), ps[i]? = some p → xs[i]? = some x →
      p.name = x.1) :
    (ps.zip (xs.map (·.2))).map (fun e => (e.1.name, e.2)) = xs.take ps.length := by
  induction ps generalizing xs with
  | nil => rfl
  | cons p ps ih =>
    cases xs with
    | nil => rfl
    | cons x xs =>
      rw [List.map_cons, List.zip_cons_cons, List.map_cons, List.length_cons, List.take_succ_cons,
        ih fun i q y hq hy => h (i + 1) q y hq hy, h 0 p x rfl rfl]

section Own

variable {front normal named : List Param} {rest : Option Param} {xs ys : List (String × Value)}

/-- The values that are given by position and by name have the names of the parameters that
their expressions are assigned to. -/
structure Evaluated (f : Function) (s : Assignment Expr) (xs ys : List (String × Value)) :
    Prop where
  position : xs.map (·.1) = (f.byPosition s).map (·.1.name)
  name : ys.map (·.1) = (f.byName s).map (·.1.name)

theorem exists_of_mem_named (hys : ys.map (·.1) = (f.byName s).map (·.1.name))
    {y : String × Value} (hy : y ∈ ys) :
    ∃ p ∈ f.params, p.kind.byPosition = false ∧ s.getD p.name ≠ [] ∧ p.name = y.1 := by
  have hname : y.1 ∈ (f.byName s).map (·.1.name) := hys ▸ List.mem_map_of_mem hy
  obtain ⟨⟨p, e⟩, hpe, hname⟩ := List.mem_map.1 hname
  obtain ⟨hp, hkind, he⟩ := (byName_mem f s).1 hpe
  exact ⟨p, hp, hkind, List.ne_nil_of_mem he, hname⟩

theorem takesName_of_mem_named (hf : Signature f front normal rest named)
    (hys : ys.map (·.1) = (f.byName s).map (·.1.name)) : ∀ y ∈ ys, f.takesName y.1 := by
  intro y hy
  obtain ⟨p, hp, hposition, -, hname⟩ := exists_of_mem_named hys hy
  refine List.any_eq_true.2 ⟨p, hp, ?_⟩
  cases hkind : p.kind with
  | keywords => exact absurd hkind (hf.kind_ne_keywords hp)
  | positionalOnly | rest => rw [hkind] at hposition; cases hposition
  | normal | keywordOnly => simp [hname]

theorem Matched.nodup_named (hs : f.Matched s)
    (hys : ys.map (·.1) = (f.byName s).map (·.1.name)) : (ys.map (·.1)).Nodup := by
  rw [hys]
  refine ((names_assigned_sublist fun p hp => ?_).trans (List.filter_sublist.map _)).nodup hs.nodup
  obtain ⟨hp, hposition⟩ := List.mem_filter.1 hp
  refine hs.single p hp fun hkind => ?_
  rw [hkind] at hposition
  cases hposition

/-- Parameters that are given or have defaults do not lack a value. -/
theorem lacking_eq_nil {g : Given} {ps : List Param}
    (h : ∀ p ∈ ps, p.default = none → (g.values.lookup p.name).isSome) : lacking g ps = [] := by
  refine List.filterMap_eq_nil_iff.2 fun p hp => if_neg ?_
  rw [Bool.and_eq_true, Option.isNone_iff_eq_none, Option.isNone_iff_eq_none]
  rintro ⟨hdefault, hnone⟩
  have := h p hp hdefault
  rw [hnone] at this
  cases this

/-- The parameter whose name a value by position has. -/
theorem Evaluated.exists_of_getElem? (hv : f.Evaluated s xs ys) {i : Nat}
    {x : String × Value} (hx : xs[i]? = some x) :
    ∃ p e, (f.byPosition s)[i]? = some (p, e) ∧ p.name = x.1 := by
  have hi : ((f.byPosition s).map (·.1.name))[i]? = some x.1 := by
    rw [← hv.position, List.getElem?_map, hx]
    rfl
  rw [List.getElem?_map] at hi
  obtain ⟨⟨p, e⟩, hpe, hname⟩ := Option.map_eq_some_iff.1 hi
  exact ⟨p, e, hpe, hname⟩

/-- The values that come before the rest go to their own parameters. -/
theorem Faithful.seated_eq (h : f.Faithful s) (hv : f.Evaluated s xs ys) :
    f.seated (xs.map (·.2)) = xs.take f.positional.length := by
  refine map_zip_eq_take fun i p x hp hx => ?_
  obtain ⟨q, e, hq, hname⟩ := hv.exists_of_getElem? hx
  have hseat := h.seats i q e hq
  rw [seat, hp] at hseat
  rw [← hname, Option.some.inj hseat]

/-- The values after these go to the parameter for the rest. -/
theorem Faithful.exists_rest (h : f.Faithful s) (hv : f.Evaluated s xs ys) {x : String × Value}
    (hx : x ∈ xs.drop f.positional.length) :
    ∃ r ∈ f.params, r.kind = .rest ∧ r.name = x.1 := by
  obtain ⟨i, hi⟩ := List.getElem?_of_mem hx
  rw [List.getElem?_drop] at hi
  obtain ⟨r, e, hr, hname⟩ := hv.exists_of_getElem? hi
  have hseat := h.seats _ r e hr
  rw [seat_of_le (Nat.le_add_right ..)] at hseat
  exact ⟨r, List.mem_of_find?_eq_some hseat, by simpa using List.find?_some hseat, hname⟩

/-- A value before the rest has the name of a parameter that takes one by position only. -/
theorem Faithful.exists_front (h : f.Faithful s) (hv : f.Evaluated s xs ys) {x : String × Value}
    (hx : x ∈ xs.take f.positional.length) :
    ∃ p ∈ f.params, p.kind = .positionalOnly ∧ p.name = x.1 := by
  obtain ⟨i, hi⟩ := List.getElem?_of_mem hx
  rw [List.getElem?_take] at hi
  split_ifs at hi with hlt
  obtain ⟨p, e, hpe, hname⟩ := hv.exists_of_getElem? hi
  obtain ⟨hp, hposition, -⟩ := (byPosition_mem f s).1 (List.mem_of_getElem? hpe)
  -- the parameter has a place of its own, so it does not take the rest
  have hseat := h.seats i p e hpe
  rw [seat_of_lt hlt, Option.some_inj] at hseat
  have hkind := (mem_positional.1 (hseat ▸ List.getElem_mem hlt)).2
  refine ⟨p, hp, hkind.resolve_left fun hnormal => ?_, hname⟩
  rw [hnormal] at hposition
  cases hposition

/-- The value of a parameter that does not take the rest is the only one of its name. -/
theorem Faithful.lookup_eq (h : f.Faithful s) (hs : f.Matched s) (hv : f.Evaluated s xs ys)
    {p : Param} (hp : p ∈ f.params) (hkind : p.kind ≠ .rest) :
    (f.seated (xs.map (·.2)) ++ ys).lookup p.name =
      (valuesNamed (xs ++ ys) p.name).head? := by
  have hnone : p.name ∉ (xs.drop f.positional.length).map (·.1) := by
    intro hmem
    obtain ⟨x, hx, hname⟩ := List.mem_map.1 hmem
    obtain ⟨r, hr, hrest, hrname⟩ := h.exists_rest hv hx
    exact hkind (hs.eq_of_name_eq hp hr (hname.symm.trans hrname.symm) ▸ hrest)
  conv_rhs => rw [← List.take_append_drop f.positional.length xs]
  rw [h.seated_eq hv, lookup_eq_head?, valuesNamed_append,
    valuesNamed_append, valuesNamed_append, valuesNamed_eq_nil hnone,
    List.append_nil]

/-- The values of the parameter for the rest. -/
theorem Faithful.valuesNamed_rest (h : f.Faithful s) (hs : f.Matched s)
    (hv : f.Evaluated s xs ys) {r : Param} (hr : r ∈ f.params)
    (hkind : r.kind = .rest) (hone : ∀ q ∈ f.params, q.kind = .rest → q = r) :
    valuesNamed (xs ++ ys) r.name = (xs.map (·.2)).drop f.positional.length := by
  have hbefore : r.name ∉ (xs.take f.positional.length).map (·.1) := by
    intro hmem
    obtain ⟨x, hx, hname⟩ := List.mem_map.1 hmem
    obtain ⟨p, hp, hfront, hpname⟩ := h.exists_front hv hx
    rw [← hs.eq_of_name_eq hr hp (hname.symm.trans hpname.symm), hkind] at hfront
    cases hfront
  have hall : ∀ x ∈ xs.drop f.positional.length, x.1 = r.name := by
    intro x hx
    obtain ⟨q, hq, hrest, hname⟩ := h.exists_rest hv hx
    rw [← hname, hone q hq hrest]
  have hnamed : r.name ∉ ys.map (·.1) := by
    intro hmem
    obtain ⟨y, hy, hname⟩ := List.mem_map.1 hmem
    obtain ⟨p, hp, hposition, -, hpname⟩ := exists_of_mem_named hv.name hy
    rw [← hs.eq_of_name_eq hr hp (hname.symm.trans hpname.symm), hkind] at hposition
    cases hposition
  rw [← List.take_append_drop f.positional.length xs, valuesNamed_append,
    valuesNamed_append, valuesNamed_eq_nil hbefore,
    valuesNamed_eq_map hall, valuesNamed_eq_nil hnamed, List.nil_append,
    List.append_nil, List.take_append_drop, List.map_drop]

/-- A parameter that has an expression has a value. -/
theorem Evaluated.isSome_of_given (hv : f.Evaluated s xs ys) {p : Param} (hp : p ∈ f.params)
    (hgiven : s.getD p.name ≠ []) : (valuesNamed (xs ++ ys) p.name).head?.isSome := by
  obtain ⟨e, he⟩ := List.exists_mem_of_ne_nil _ hgiven
  rw [← lookup_eq_head?, lookup_isSome_iff, List.map_append, hv.position, hv.name, ← List.map_append]
  have hmem : (p, e) ∈ f.byPosition s ++ f.byName s := by
    rw [List.mem_append, byPosition_mem, byName_mem]
    cases p.kind.byPosition <;> simp [hp, he]
  exact List.mem_map_of_mem (f := fun x : Param × Expr => x.1.name) hmem

/-- Values whose parameters take them are bound to these parameters. -/
theorem Faithful.bind_eq (h : f.Faithful s) (hf : Signature f front normal rest named)
    (hs : f.Matched s) (hv : f.Evaluated s xs ys) :
    f.bind (xs.map (·.2)) ys =
      .ok (f.params.map fun p => (p.name, p.hold (valuesNamed (xs ++ ys) p.name))) := by
  have hgiven : ∀ p ∈ f.params, p.kind ≠ .rest → p.default = none →
      ((f.seated (xs.map (·.2)) ++ ys).lookup p.name).isSome := by
    intro p hp hkind hdefault
    rw [h.lookup_eq hs hv hp hkind]
    refine hv.isSome_of_given hp fun hnone => ?_
    have := hs.default p hp hkind hnone
    rw [hdefault] at this
    cases this
  refine (bind_eq_ok_iff (takesName_of_mem_named hf hv.name)).2
    ⟨⟨hs.nodup_named hv.name, ?_⟩, ?_, ?_, ?_, ?_⟩
  · -- a parameter by position takes no name
    rw [h.seated_eq hv]
    intro name hseated hnamed
    obtain ⟨x, hx, rfl⟩ := List.mem_map.1 hseated
    obtain ⟨y, hy, hname⟩ := List.mem_map.1 hnamed
    obtain ⟨p, hp, hfront, hpname⟩ := h.exists_front hv hx
    obtain ⟨q, hq, hposition, -, hqname⟩ := exists_of_mem_named hv.name hy
    rw [hs.eq_of_name_eq hq hp (hqname.trans (hname.trans hpname.symm)), hfront] at hposition
    cases hposition
  · rw [or_iff_not_imp_left, ← List.map_drop]
    intro hne
    obtain ⟨x, hx⟩ := List.exists_mem_of_ne_nil (xs.drop f.positional.length) fun hnil =>
      hne (by rw [hnil, List.map_nil])
    obtain ⟨r, hr, hkind, -⟩ := h.exists_rest hv hx
    exact List.any_eq_true.2 ⟨r, hr, by rw [hkind]; rfl⟩
  · refine lacking_eq_nil fun p hp => ?_
    obtain ⟨hp, hkind⟩ := mem_positional.1 hp
    exact hgiven p hp (by rcases hkind with hkind | hkind <;> rw [hkind] <;> nofun)
  · refine lacking_eq_nil fun p hp => ?_
    obtain ⟨hp, hkind⟩ := List.mem_filter.1 hp
    exact hgiven p hp (by rw [of_decide_eq_true hkind]; nofun)
  · refine List.map_congr_left fun p hp => ?_
    by_cases hkind : p.kind = .rest
    · have hone : ∀ q ∈ f.params, q.kind = .rest → q = p := fun q hq hq' =>
        Option.some.inj ((hf.eq_rest hq hq').symm.trans (hf.eq_rest hp hkind))
      rw [h.valuesNamed_rest hs hv hp hkind hone, ParamOf.hold, valueOf, hkind]
    · have hlookup := h.lookup_eq hs hv hp hkind
      rw [ParamOf.hold, valueOf]
      cases hk : p.kind with
      | rest => exact absurd hk hkind
      | keywords => exact absurd hk (hf.kind_ne_keywords hp)
      | _ => simp only [hlookup]

end Own

/-- If there are values for the rest, then all parameters by position are given before them,
and there is no normal parameter, whose place they would take. -/
theorem Faithful.before_rest {front normal named : List Param} {rest : Option Param}
    (h : f.Faithful s) (hf : Signature f front normal rest named) (hs : f.Matched s) {r : Param}
    (hr : rest = some r) (hgiven : s.getD r.name ≠ []) :
    normal = [] ∧ (assigned s front).length = front.length := by
  obtain ⟨e, es, hes⟩ := List.exists_cons_of_ne_nil hgiven
  have hfirst : (f.byPosition s)[(assigned s front).length]? = some (r, e) := by
    rw [byPosition_eq hf, hr]
    simp [assigned, hes]
  have hlast := le_of_seat (h.seats _ r e hfirst) (hf.rest_kind r hr)
  have hfront := length_assigned_le (hs.single_front hf)
  rw [hf.positional, List.length_append] at hlast
  exact ⟨List.eq_nil_of_length_eq_zero (by omega), by omega⟩

/-- The expressions by position come before those by name also in the order of the
parameters. -/
theorem Faithful.assigned_params {front normal named : List Param} {rest : Option Param}
    (h : f.Faithful s) (hf : Signature f front normal rest named) (hs : f.Matched s) :
    assigned s f.params = f.byPosition s ++ f.byName s := by
  rw [byPosition_eq hf, byName, hf.byName, hf.params, assigned_append, assigned_append,
    assigned_append, assigned_append]
  cases hrest : rest with
  | none => simp [assigned]
  | some r =>
    by_cases hgiven : s.getD r.name = []
    · simp [assigned, hgiven]
    · simp [assigned, (h.before_rest hf hs hrest hgiven).1]

/-! ### Values of other parameters -/

/-- The expressions of some parameters stand at their places up to the first parameter that
has none. -/
theorem eq_or_exists_omitted {ps : List Param} (hsingle : ∀ p ∈ ps, (s.getD p.name).length ≤ 1)
    {xs : List (Param × Expr)} {i : Nat} {x : Param × Expr} (hi : i < ps.length)
    (hx : (assigned s ps ++ xs)[i]? = some x) :
    ps[i]? = some x.1 ∨ ∃ k ≤ i, ∃ q, ps[k]? = some q ∧ s.getD q.name = [] := by
  induction ps generalizing i with
  | nil => cases hi
  | cons p ps ih =>
    obtain ⟨hp, hps⟩ := List.forall_mem_cons.1 hsingle
    rcases assigned_cons_cases hp ps with ⟨hnone, -⟩ | ⟨e, -, heq⟩
    · exact .inr ⟨0, Nat.zero_le i, p, rfl, hnone⟩
    · rw [heq] at hx
      cases i with
      | zero =>
        cases hx
        exact .inl rfl
      | succ i =>
        rcases ih hps (Nat.lt_of_succ_lt_succ hi) hx with ih | ⟨k, hk, q, hq, hnone⟩
        · exact .inl ih
        · exact .inr ⟨k + 1, Nat.succ_le_succ hk, q, hq, hnone⟩

theorem names_seated_sublist (f : Function) (args : List Value) :
    ((f.seated args).map (·.1)).Sublist (f.params.map (·.name)) := by
  have hzip : ∀ ps : List Param,
      (((ps.zip args).map fun e => (e.1.name, e.2)).map (·.1)).Sublist (ps.map (·.name)) := by
    intro ps
    induction ps generalizing args with
    | nil => exact List.Sublist.slnil
    | cons p ps ih =>
      cases args with
      | nil => exact List.nil_sublist _
      | cons v vs => exact (ih vs).cons_cons _
  exact (hzip f.positional).trans (List.filter_sublist.map _)

/-- A value is given to the parameter at its place. -/
theorem Matched.lookup_seated (hs : f.Matched s) {args : List Value} {i : Nat} {q : Param}
    {v : Value} (hq : f.positional[i]? = some q) (hv : args[i]? = some v) :
    (f.seated args).lookup q.name = some v := by
  have hnodup := (f.names_seated_sublist args).nodup hs.nodup
  refine lookup_of_mem hnodup (List.mem_map.2 ⟨(q, v), ?_, rfl⟩)
  exact List.mem_of_getElem? (List.getElem?_zip_eq_some.2 ⟨hq, hv⟩)

/-- If a value does not go to its own parameter, then some parameter with a place has no
expression by position, and there is a value at its place. -/
theorem exists_misplaced {front normal named : List Param} {rest : Option Param}
    (hf : Signature f front normal rest named) (hs : f.Matched s) {i : Nat} {p : Param} {e : Expr}
    (hi : (f.byPosition s)[i]? = some (p, e)) (hseat : f.seat i ≠ some p) :
    ∃ k ≤ i, ∃ q, f.positional[k]? = some q ∧ (s.getD q.name = [] ∨ q.kind = .normal) := by
  have hfront : ∀ (k : Nat) (q : Param), front[k]? = some q → f.positional[k]? = some q := by
    intro k q hq
    rw [hf.positional, List.getElem?_append_left (List.getElem?_eq_some_iff.1 hq).1, hq]
  have hsingle := hs.single_front hf
  rw [byPosition_eq hf] at hi
  by_cases hlt : i < front.length
  · rcases eq_or_exists_omitted hsingle hlt hi with hp | ⟨k, hk, q, hq, hnone⟩
    · exact absurd (by rw [seat, hfront i p hp, Option.some_or]) hseat
    · exact ⟨k, hk, q, hfront k q hq, .inl hnone⟩
  · -- the value belongs to the rest, so its place is that of a normal parameter
    have hlength := length_assigned_le hsingle
    rw [List.getElem?_append_right (by omega)] at hi
    have hp := (mem_assigned.1 (List.mem_of_getElem? hi)).1
    rw [Option.mem_toList] at hp
    cases hq : f.positional[i]? with
    | none => exact absurd (by rw [seat, hq, Option.none_or, hf.find?_rest]; exact hp) hseat
    | some q =>
      refine ⟨i, Nat.le_refl i, q, hq, .inr ?_⟩
      rw [hf.positional, List.getElem?_append_right (by omega)] at hq
      exact hf.normal_kind q (List.mem_of_getElem? hq)

end FunctionOf

/-- Some parameter is not bound to the values of its own expressions. -/
inductive Misbound (eval : Expr → Eval Value) (f : Function) (s : Assignment Expr)
    (bound : List (String × Value)) : Prop where
  /-- A parameter without expressions gets the value of an expression of another one. -/
  | stray {p q : Param} {e : Expr} {t : Target} {v : Value} {env env' : Env}
      (hp : p ∈ f.params) (he : e ∈ s.getD p.name)
      (hv : Evaluator.evalArg eval t e env = .ok v env') (hq : q ∈ f.params)
      (hkind : q.kind ≠ .rest) (hnone : s.getD q.name = []) (hbound : (q.name, v) ∈ bound)
  /-- One of the rest of the values is taken as another parameter says, and in a way in which
  the parameter for the rest does not take it. -/
  | mistaken {r q : Param} {e : Expr} {v : Value} {vs : List Value} {env env' : Env}
      (hr : r ∈ f.params) (hkind : r.kind = .rest) (he : e ∈ s.getD r.name) (hq : q ∈ f.params)
      (htaking : q.target.taking e ≠ r.target.taking e)
      (hv : Evaluator.evalArg eval q.target e env = .ok v env')
      (hbound : (r.name, .tuple vs) ∈ bound) (hmem : v ∈ vs)

namespace Evaluator

variable {eval : Expr → Eval Value} {f : Function} {s : Assignment Expr}

/-- The values that a call of a registered function binds its parameters to. -/
def arguments (eval : Expr → Eval Value) (f : Function) (tail : List Expr) :
    Eval (List (String × Value)) := do
  let c ← Eval.ofExcept (bindTail f tail)
  refuseOwnNames "NativeFunction" c
  let args ← evalPositional eval f.params c.positional
  let named ← evalNamed eval f.params c.named
  Eval.ofExcept ((f.bind args named).mapError Failure.call)

theorem call_eq (w : Evaluator) (eval : Expr → Eval Value) (f : Function) (tail : List Expr) :
    w.call eval (.function true f) tail = arguments eval f tail >>= w.runBody eval f := by
  simp only [call, arguments, apply, bind_assoc]

/-- The names that a callable uses itself are refused. -/
theorem refuseOwnNames_eq_ok_iff {callable : String} {c : CallArgs} {env env' : Env} :
    refuseOwnNames callable c env = .ok () env' ↔
      (∀ x ∈ c.named, x.1 ≠ "self" ∧ x.1 ≠ "ctx") ∧ env = env' := by
  rw [refuseOwnNames]
  cases hfind : c.named.find? fun e => e.1 == "self" || e.1 == "ctx" with
  | none =>
    have hnames : ∀ x ∈ c.named, x.1 ≠ "self" ∧ x.1 ≠ "ctx" := by
      intro x hx
      simpa using List.find?_eq_none.1 hfind x hx
    exact ⟨fun h => ⟨hnames, (EStateM.Result.ok.inj h).2⟩, fun h => h.2 ▸ rfl⟩
  | some x =>
    refine iff_of_false nofun fun h => ?_
    obtain ⟨hself, hctx⟩ := h.1 x (List.mem_of_find?_eq_some hfind)
    simpa [hself, hctx] using List.find?_some hfind

section Matched

variable {front normal named : List Param} {rest : Option Param} {tail : List Expr}

theorem bindTail_eq (hf : Signature f front normal rest named)
    (hs : matchTail (f.params.map fun p => ⟨p.arity, p.name⟩) tail = .ok s) :
    bindTail f tail =
      .ok ⟨(f.byPosition s).map (·.2), (f.byName s).map fun x => (x.1.name, x.2)⟩ := by
  have hkeywords : ¬ f.hasKind .keywords := by
    intro h
    obtain ⟨p, hp, hkind⟩ := List.any_eq_true.1 h
    exact hf.kind_ne_keywords hp (of_decide_eq_true hkind)
  rw [bindTail, if_neg hkeywords, hs]
  exact congrArg _ (giveAssigned_eq (FunctionOf.matched_of_matchTail hs).single)

/-- The expressions by name are evaluated as their own parameters take them. -/
theorem arguments_eq (hf : Signature f front normal rest named)
    (hs : matchTail (f.params.map fun p => ⟨p.arity, p.name⟩) tail = .ok s) :
    arguments eval f tail = (do
      refuseOwnNames "NativeFunction"
        ⟨(f.byPosition s).map (·.2), (f.byName s).map fun x => (x.1.name, x.2)⟩
      let args ← evalPositional eval f.params ((f.byPosition s).map (·.2))
      let named ← evalOwn eval (f.byName s)
      Eval.ofExcept ((f.bind args named).mapError Failure.call)) := by
  have hmem : ∀ x ∈ f.byName s, x.1 ∈ f.params := fun x hx => ((f.byName_mem s).1 hx).1
  rw [arguments, bindTail_eq hf hs]
  simp only [Eval.ofExcept, pure_bind,
    evalNamed_eq (FunctionOf.matched_of_matchTail hs).nodup hmem]

/-- Values that go to their own parameters are bound as these take them. -/
theorem arguments_of_faithful (hf : Signature f front normal rest named)
    (hs : matchTail (f.params.map fun p => ⟨p.arity, p.name⟩) tail = .ok s)
    (h : f.Faithful s) : arguments eval f tail = bindOwn eval s f.params := by
  have hmatched := FunctionOf.matched_of_matchTail hs
  have hnames : refuseOwnNames "NativeFunction"
      ⟨(f.byPosition s).map (·.2), (f.byName s).map fun x => (x.1.name, x.2)⟩ = pure () := by
    funext env
    refine refuseOwnNames_eq_ok_iff.2 ⟨fun x hx => ?_, rfl⟩
    obtain ⟨y, hy, rfl⟩ := List.mem_map.1 hx
    exact h.names y hy
  rw [arguments_eq hf hs, hnames, evalPositional_eq h.takings, bindOwn_eq hmatched.nodup,
    h.assigned_params hf hmatched, evalOwn_append]
  simp only [pure_bind, bind_assoc]
  funext env
  refine EStateM.bind_congr fun xs env₁ hxs => EStateM.bind_congr fun ys env₂ hys => ?_
  rw [h.bind_eq hf hmatched ⟨names_of_evalOwn hxs, names_of_evalOwn hys⟩]
  rfl

theorem exists_of_evalPositional {params : List Param} {es : List Expr} {vs : List Value}
    {env env' : Env} (h : evalPositional eval params es env = .ok vs env') {i : Nat} {e : Expr}
    (hi : es[i]? = some e) :
    ∃ q v env₁ env₂, params[i]? = some q ∧ vs[i]? = some v ∧
      evalArg eval q.target e env₁ = .ok v env₂ := by
  induction es generalizing params env vs i with
  | nil => cases hi
  | cons e' es ih =>
    cases params with
    | nil => cases h
    | cons q params =>
      obtain ⟨v, env₁, hv, h⟩ := EStateM.bind_eq_ok.1 h
      obtain ⟨us, env₂, hus, h⟩ := EStateM.bind_eq_ok.1 h
      cases h
      cases i with
      | zero =>
        cases hi
        exact ⟨q, v, env, env₁, rfl, rfl, hv⟩
      | succ i => exact ih hus hi

/-- The value at the place of a parameter that has no expression by position is bound to it,
unless the parameter is also given by name. -/
theorem misbound_of_misplaced (hs : f.Matched s) {vs : List Value} {ys : List (String × Value)}
    (hys : ys.map (·.1) = (f.byName s).map (·.1.name))
    (hdisjoint : List.Disjoint ((f.seated vs).map (·.1)) (ys.map (·.1))) {i : Nat} {p q : Param}
    {e : Expr} {t : Target} {v : Value} {env env' : Env}
    (hi : (f.byPosition s)[i]? = some (p, e)) (hvi : vs[i]? = some v)
    (hv : evalArg eval t e env = .ok v env') (hq : f.positional[i]? = some q)
    (hgiven : s.getD q.name = [] ∨ q.kind = .normal) :
    Misbound eval f s (f.params.map fun p => (p.name,
      FunctionOf.valueOf ⟨f.seated vs ++ ys, []⟩ (vs.drop f.positional.length) p)) := by
  have hlookup := hs.lookup_seated hq hvi
  obtain ⟨hp, -, he⟩ := (f.byPosition_mem s).1 (List.mem_of_getElem? hi)
  obtain ⟨hparam, hkind⟩ := FunctionOf.mem_positional.1 (List.mem_of_getElem? hq)
  have hnone : s.getD q.name = [] := by
    refine hgiven.elim id fun hnormal => ?_
    by_contra hsome
    -- the parameter would get a second value by its name
    obtain ⟨e', he'⟩ := List.exists_mem_of_ne_nil _ hsome
    have hname : q.name ∈ ys.map (·.1) := by
      rw [hys]
      exact List.mem_map.2 ⟨(q, e'), (f.byName_mem s).2 ⟨hparam, by rw [hnormal]; rfl, he'⟩, rfl⟩
    exact hdisjoint (lookup_isSome_iff.1 (by rw [hlookup]; rfl)) hname
  have hvalue : FunctionOf.valueOf ⟨f.seated vs ++ ys, []⟩ (vs.drop f.positional.length) q = v := by
    rw [FunctionOf.valueOf, List.lookup_append, hlookup]
    rcases hkind with hkind | hkind <;> rw [hkind] <;> rfl
  refine .stray hp he hv hparam ?_ hnone (List.mem_map.2 ⟨q, hparam, by rw [hvalue]⟩)
  rcases hkind with hkind | hkind <;> rw [hkind] <;> nofun

/-- A value that goes to its own parameter but is taken otherwise is one of the rest. -/
theorem misbound_of_taking (hf : Signature f front normal rest named) {vs : List Value}
    {ys : List (String × Value)} {i : Nat} {p q : Param} {e : Expr} {v : Value} {env env' : Env}
    (hi : (f.byPosition s)[i]? = some (p, e)) (hvi : vs[i]? = some v)
    (hv : evalArg eval q.target e env = .ok v env') (hq : f.params[i]? = some q)
    (hseat : f.seat i = some p) (htaking : q.target.taking e ≠ p.target.taking e) :
    Misbound eval f s (f.params.map fun p => (p.name,
      FunctionOf.valueOf ⟨f.seated vs ++ ys, []⟩ (vs.drop f.positional.length) p)) := by
  obtain ⟨hp, -, he⟩ := (f.byPosition_mem s).1 (List.mem_of_getElem? hi)
  by_cases hlt : i < f.positional.length
  · -- the first parameters are those with places, in the same order
    have hplace : f.params[i]? = f.positional[i]? := by
      rw [hf.params, hf.positional, List.append_assoc, List.getElem?_append_left]
      rwa [← hf.positional]
    rw [hplace, List.getElem?_eq_getElem hlt, ← FunctionOf.seat_of_lt hlt, hseat,
      Option.some_inj] at hq
    exact absurd (by rw [hq]) htaking
  · rw [Nat.not_lt] at hlt
    rw [FunctionOf.seat_of_le hlt] at hseat
    have hkind : p.kind = .rest := by simpa using List.find?_some hseat
    have hmem : v ∈ vs.drop f.positional.length := by
      refine List.mem_of_getElem? (i := i - f.positional.length) ?_
      rw [List.getElem?_drop, Nat.add_sub_cancel' hlt, hvi]
    refine .mistaken hp hkind he (List.mem_of_getElem? hq) htaking hv
      (List.mem_map.2 ⟨p, hp, ?_⟩) hmem
    rw [FunctionOf.valueOf, hkind]

/-- A call whose values do not all go to their own parameters, or are taken otherwise, binds
some parameter to what is not its own if it does not fail. -/
theorem misbound_of_not_faithful (hf : Signature f front normal rest named)
    (hs : matchTail (f.params.map fun p => ⟨p.arity, p.name⟩) tail = .ok s)
    (h : ¬ f.Faithful s) {env env' : Env} {bound : List (String × Value)}
    (hbound : arguments eval f tail env = .ok bound env') : Misbound eval f s bound := by
  have hmatched := FunctionOf.matched_of_matchTail hs
  rw [arguments_eq hf hs] at hbound
  obtain ⟨⟨⟩, env₁, hnames, hbound⟩ := EStateM.bind_eq_ok.1 hbound
  obtain ⟨vs, env₂, hvs, hbound⟩ := EStateM.bind_eq_ok.1 hbound
  obtain ⟨ys, env₃, hys, hbound⟩ := EStateM.bind_eq_ok.1 hbound
  have hys := names_of_evalOwn hys
  have hbind := mapError_eq_ok.1 (Eval.ofExcept_eq_ok.1 hbound).1
  obtain ⟨⟨-, hdisjoint⟩, -, -, -, rfl⟩ :=
    (FunctionOf.bind_eq_ok_iff (FunctionOf.takesName_of_mem_named hf hys)).1 hbind
  have hvalues : ∀ {i : Nat} {p : Param} {e : Expr}, (f.byPosition s)[i]? = some (p, e) →
      ∃ q v env₁ env₂, f.params[i]? = some q ∧ vs[i]? = some v ∧
        evalArg eval q.target e env₁ = .ok v env₂ := fun hi =>
    exists_of_evalPositional hvs (by rw [List.getElem?_map, hi]; rfl)
  have hown : ∀ x ∈ f.byName s, x.1.name ≠ "self" ∧ x.1.name ≠ "ctx" := fun x hx =>
    (refuseOwnNames_eq_ok_iff.1 hnames).1 _ (List.mem_map_of_mem hx)
  by_cases hseats : ∀ (i : Nat) (p : Param) (e : Expr), (f.byPosition s)[i]? = some (p, e) →
      f.seat i = some p
  · -- all go to their own parameters, so one is taken otherwise
    by_contra hnot
    refine h ⟨hown, hseats, fun i p e hi => ?_⟩
    obtain ⟨q, v, env₁, env₂, hq, hvi, hv⟩ := hvalues hi
    refine ⟨q, hq, ?_⟩
    by_contra htaking
    exact hnot (misbound_of_taking hf hi hvi hv hq (hseats i p e hi) htaking)
  · push Not at hseats
    obtain ⟨i, p, e, hi, hseat⟩ := hseats
    -- the value at the place of the parameter that is left out goes there
    obtain ⟨k, hk, q, hq, hgiven⟩ := FunctionOf.exists_misplaced hf hmatched hi hseat
    have hlt := (List.getElem?_eq_some_iff.1 hi).1
    obtain ⟨q', v, env₁, env₂, -, hvk, hv⟩ := hvalues
      (List.getElem?_eq_getElem (Nat.lt_of_le_of_lt hk hlt))
    exact misbound_of_misplaced hmatched hys hdisjoint
      (List.getElem?_eq_getElem (Nat.lt_of_le_of_lt hk hlt)) hvk hv hq hgiven

end Matched

end Evaluator
end Sexpr
