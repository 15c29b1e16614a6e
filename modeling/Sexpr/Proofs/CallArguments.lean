/-
The expressions of a call and what is evaluated for them.

A registered function gets the expressions of a call in three steps: they are assigned to its
parameters, split into those that are given by position and those that are given by name, and
each is evaluated, or passed on as it is, as the type of a parameter says. For one that is
given by position this is the parameter at its index, whichever it was assigned to.

* `Signature` — the order of the parameters;
* `assigned`, `giveAssigned_eq` — the expressions that are given by position and by name;
* `Target.taking`, `evalArg_eq` — how a parameter takes an expression;
* `Evaluator.evalOwn` — evaluates expressions as the parameters take them that they were
  assigned to;
* `Evaluator.bindOwn` — and gives each parameter the values of its own ones.
-/
import Sexpr.Eval
import Sexpr.Proofs.PlainValues
import Sexpr.Proofs.Sequencing

namespace Sexpr

/-! ### Signatures -/

/-- The parameters of a function in order: those that are given by position only, normal
ones, at most one that takes the rest of the values by position, and those that are given by
name only. -/
structure Signature (f : Function) (front normal : List Param) (rest : Option Param)
    (named : List Param) : Prop where
  params : f.params = front ++ normal ++ rest.toList ++ named
  front_kind : ∀ p ∈ front, p.kind = .positionalOnly
  normal_kind : ∀ p ∈ normal, p.kind = .normal
  rest_kind : ∀ p ∈ rest, p.kind = .rest
  named_kind : ∀ p ∈ named, p.kind = .keywordOnly

/-- Whether values are given by position and not by name. -/
def ParamKind.byPosition : ParamKind → Bool
  | .positionalOnly | .rest => true
  | _ => false

namespace Signature

variable {f : Function} {front normal named : List Param} {rest : Option Param}

theorem filter_of_kind {ps : List Param} {kind : ParamKind} (h : ∀ p ∈ ps, p.kind = kind)
    (q : ParamKind → Bool) : ps.filter (fun p => q p.kind) = if q kind then ps else [] := by
  split_ifs with hq
  · exact List.filter_eq_self.2 fun p hp => by rw [h p hp, hq]
  · exact List.filter_eq_nil_iff.2 fun p hp => by rw [h p hp]; exact hq

/-- The parameters of some kinds are whole parts of the signature. -/
theorem filter_kind (h : Signature f front normal rest named) (q : ParamKind → Bool) :
    f.params.filter (fun p => q p.kind) =
      (if q .positionalOnly then front else []) ++ (if q .normal then normal else []) ++
        (if q .rest then rest.toList else []) ++ (if q .keywordOnly then named else []) := by
  rw [h.params, List.filter_append, List.filter_append, List.filter_append,
    filter_of_kind h.front_kind, filter_of_kind h.normal_kind,
    filter_of_kind fun p hp => h.rest_kind p (Option.mem_toList.1 hp), filter_of_kind h.named_kind]

theorem positional (h : Signature f front normal rest named) : f.positional = front ++ normal :=
  (h.filter_kind fun k => k = .normal || k = .positionalOnly).trans (by simp)

theorem byPosition (h : Signature f front normal rest named) :
    f.params.filter (·.kind.byPosition) = front ++ rest.toList :=
  (h.filter_kind ParamKind.byPosition).trans (by simp [ParamKind.byPosition])

theorem byName (h : Signature f front normal rest named) :
    f.params.filter (fun p => !p.kind.byPosition) = normal ++ named :=
  (h.filter_kind fun k => !k.byPosition).trans (by simp [ParamKind.byPosition])

theorem find?_rest (h : Signature f front normal rest named) :
    f.params.find? (fun p => p.kind = .rest) = rest := by
  rw [← List.head?_filter, h.filter_kind fun k => k = .rest]
  cases rest <;> simp

theorem kind_ne_keywords (h : Signature f front normal rest named) {p : Param}
    (hp : p ∈ f.params) : p.kind ≠ .keywords := by
  intro hkind
  have hmem : p ∈ f.params.filter fun q => q.kind = .keywords :=
    List.mem_filter.2 ⟨hp, by rw [hkind]; rfl⟩
  rw [h.filter_kind fun k => k = .keywords] at hmem
  simp at hmem

/-- No other parameter takes the rest of the values. -/
theorem eq_rest (h : Signature f front normal rest named) {p : Param} (hp : p ∈ f.params)
    (hkind : p.kind = .rest) : rest = some p := by
  have hmem : p ∈ f.params.filter fun q => q.kind = .rest :=
    List.mem_filter.2 ⟨hp, by rw [hkind]; rfl⟩
  rw [h.filter_kind fun k => k = .rest] at hmem
  simpa using hmem

end Signature

/-! ### Assigned expressions -/

/-- The expressions that are assigned to some parameters, each with its parameter. -/
def assigned (s : Assignment Expr) (ps : List Param) : List (Param × Expr) :=
  ps.flatMap fun p => (s.getD p.name).map fun e => (p, e)

theorem assigned_cons (s : Assignment Expr) (p : Param) (ps : List Param) :
    assigned s (p :: ps) = (s.getD p.name).map (fun e => (p, e)) ++ assigned s ps := rfl

theorem assigned_append (s : Assignment Expr) (ps qs : List Param) :
    assigned s (ps ++ qs) = assigned s ps ++ assigned s qs := List.flatMap_append

theorem mem_assigned {s : Assignment Expr} {ps : List Param} {p : Param} {e : Expr} :
    (p, e) ∈ assigned s ps ↔ p ∈ ps ∧ e ∈ s.getD p.name := by
  rw [assigned, List.mem_flatMap]
  constructor
  · rintro ⟨q, hq, h⟩
    obtain ⟨e', he', h⟩ := List.mem_map.1 h
    cases h
    exact ⟨hq, he'⟩
  · rintro ⟨hp, he⟩
    exact ⟨p, hp, List.mem_map_of_mem he⟩

/-- A parameter that has at most one expression is left out, or comes with it. -/
theorem assigned_cons_cases {s : Assignment Expr} {p : Param} (h : (s.getD p.name).length ≤ 1)
    (ps : List Param) :
    (s.getD p.name = [] ∧ assigned s (p :: ps) = assigned s ps) ∨
      ∃ e, s.getD p.name = [e] ∧ assigned s (p :: ps) = (p, e) :: assigned s ps := by
  rw [assigned_cons]
  match s.getD p.name, h with
  | [], _ => exact .inl ⟨rfl, rfl⟩
  | [e], _ => exact .inr ⟨e, rfl, rfl⟩

/-- Parameters that have at most one expression each come with it at most once. -/
theorem names_assigned_sublist {s : Assignment Expr} {ps : List Param}
    (h : ∀ p ∈ ps, (s.getD p.name).length ≤ 1) :
    ((assigned s ps).map (·.1.name)).Sublist (ps.map (·.name)) := by
  induction ps with
  | nil => exact List.Sublist.slnil
  | cons p ps ih =>
    obtain ⟨hp, hps⟩ := List.forall_mem_cons.1 h
    rcases assigned_cons_cases hp ps with ⟨-, heq⟩ | ⟨e, -, heq⟩
    · rw [heq]
      exact (ih hps).cons _
    · rw [heq]
      exact (ih hps).cons_cons _

theorem length_assigned_le {s : Assignment Expr} {ps : List Param}
    (h : ∀ p ∈ ps, (s.getD p.name).length ≤ 1) : (assigned s ps).length ≤ ps.length := by
  simpa using (names_assigned_sublist h).length_le

/-- The expressions by position are those of the parameters that take no name. -/
theorem giveAssigned_eq {s : Assignment Expr} {ps : List Param}
    (h : ∀ p ∈ ps, p.kind ≠ .rest → (s.getD p.name).length ≤ 1) :
    giveAssigned s ps =
      ⟨(assigned s (ps.filter (·.kind.byPosition))).map (·.2),
        (assigned s (ps.filter fun p => !p.kind.byPosition)).map fun x => (x.1.name, x.2)⟩ := by
  induction ps with
  | nil => rfl
  | cons p ps ih =>
    have hp := h p List.mem_cons_self
    rw [giveAssigned, ih fun q hq => h q (List.mem_cons_of_mem _ hq)]
    cases hkind : p.kind with
    | rest =>
      rw [List.filter_cons_of_pos (by rw [hkind]; rfl),
        List.filter_cons_of_neg (by rw [hkind]; simp [ParamKind.byPosition]), assigned_cons]
      simp [Function.comp_def]
    | positionalOnly =>
      rw [List.filter_cons_of_pos (by rw [hkind]; rfl),
        List.filter_cons_of_neg (by rw [hkind]; simp [ParamKind.byPosition]), assigned_cons]
      match hs : s.getD p.name, hp (by rw [hkind]; simp) with
      | [], _ => simp
      | [e], _ => simp
    | normal | keywordOnly | keywords =>
      rw [List.filter_cons_of_neg (by rw [hkind]; simp [ParamKind.byPosition]),
        List.filter_cons_of_pos (by rw [hkind]; rfl), assigned_cons]
      match hs : s.getD p.name, hp (by rw [hkind]; simp) with
      | [], _ => simp
      | [e], _ => simp

/-! ### Values with names -/

/-- The values of a name. -/
def valuesNamed (xs : List (String × Value)) (name : String) : List Value :=
  xs.filterMap fun x => if name = x.1 then some x.2 else none

theorem valuesNamed_append (xs ys : List (String × Value)) (name : String) :
    valuesNamed (xs ++ ys) name = valuesNamed xs name ++ valuesNamed ys name :=
  List.filterMap_append

theorem valuesNamed_eq_map {xs : List (String × Value)} {name : String}
    (h : ∀ x ∈ xs, x.1 = name) : valuesNamed xs name = xs.map (·.2) := by
  rw [valuesNamed, ← List.filterMap_eq_map]
  exact List.filterMap_congr fun x hx => by rw [if_pos (h x hx).symm]; rfl

theorem valuesNamed_eq_nil {xs : List (String × Value)} {name : String}
    (h : name ∉ xs.map (·.1)) : valuesNamed xs name = [] := by
  refine List.filterMap_eq_nil_iff.2 fun x hx => if_neg ?_
  rintro rfl
  exact h (List.mem_map_of_mem hx)

theorem lookup_isSome_iff {xs : List (String × Value)} {name : String} :
    (xs.lookup name).isSome ↔ name ∈ xs.map (·.1) := by
  simp only [List.lookup_isSome_iff, List.mem_map, beq_iff_eq]
  exact exists_congr fun x => and_congr_right fun _ => eq_comm

theorem lookup_eq_head? (xs : List (String × Value)) (name : String) :
    xs.lookup name = (valuesNamed xs name).head? := by
  rw [List.lookup_eq_findSome?, valuesNamed, List.head?_filterMap]
  simp only [beq_iff_eq]

/-! ### How an expression is taken -/

/-- What a parameter does with an expression. -/
inductive Taking where
  /-- It takes its value. -/
  | value
  /-- It takes the expression itself. -/
  | quoted
  | refused (fault : EvalFault)

/-- How a parameter of a type takes an expression. -/
def Target.taking (t : Target) (e : Expr) : Taking :=
  match t with
  | .quoted (.cls (.expr kind)) =>
    if kind.admits e then .quoted else .refused (.wrongExprClass (ClassName.expr kind).text e.text)
  | .quoted (.cls c) => .refused (.notExprClass c.text)
  | .quoted .any => .refused (.notExprClass Target.any.text)
  | .quoted _ => .refused .notAClass
  | _ => .value

/-- What a parameter is bound to, given the values of its own expressions: a tuple of them if
it takes the rest of the values, and else the only one, or its default. -/
def ParamOf.hold (p : Param) (vs : List Value) : Value :=
  match p.kind with
  | .rest => .tuple vs
  | _ => (vs.head?.or p.default).getD .nothing

namespace Evaluator

variable {eval : Expr → Eval Value}

theorem evalArg_eq (t : Target) (e : Expr) :
    evalArg eval t e =
      match t.taking e with
      | .value => eval e
      | .quoted => do return .quoted (← Eval.newMark) (.expr e)
      | .refused fault => Eval.fault fault := by
  fun_cases evalArg eval t e <;> simp_all [Target.taking]

theorem evalArg_congr {t t' : Target} {e : Expr} (h : t.taking e = t'.taking e) :
    evalArg eval t e = evalArg eval t' e := by
  rw [evalArg_eq, evalArg_eq, h]

/-! ### Values with their parameters -/

/-- Evaluates expressions in order, each as its parameter takes it. -/
def evalOwn (eval : Expr → Eval Value) : List (Param × Expr) → Eval (List (String × Value))
  | [] => return []
  | (p, e) :: xs => do
    let v ← evalArg eval p.target e
    return (p.name, v) :: (← evalOwn eval xs)

theorem evalOwn_append (xs ys : List (Param × Expr)) :
    evalOwn eval (xs ++ ys) = do
      let vs ← evalOwn eval xs
      let us ← evalOwn eval ys
      return vs ++ us := by
  induction xs with
  | nil => simp [evalOwn]
  | cons x xs ih => simp [evalOwn, ih]

theorem evalOwn_single (p : Param) (es : List Expr) :
    evalOwn eval (es.map fun e => (p, e)) = do
      let vs ← es.mapM (evalArg eval p.target)
      return vs.map fun v => (p.name, v) := by
  induction es with
  | nil => simp [evalOwn]
  | cons e es ih => simp [evalOwn, ih]

/-- Expressions by name are evaluated as their own parameters take them. -/
theorem evalNamed_eq {params : List Param} (hnodup : (params.map (·.name)).Nodup)
    {xs : List (Param × Expr)} (hxs : ∀ x ∈ xs, x.1 ∈ params) :
    evalNamed eval params (xs.map fun x => (x.1.name, x.2)) = evalOwn eval xs := by
  induction xs with
  | nil => rfl
  | cons x xs ih =>
    have hfind := find?_of_mem hnodup (hxs x List.mem_cons_self)
    rw [List.map_cons, evalNamed, evalOwn, hfind, ih fun y hy => hxs y (List.mem_cons_of_mem _ hy)]
    rfl

/-- Expressions by position are evaluated as their own parameters take them if the parameters
at their indices take them so. -/
theorem evalPositional_eq {params : List Param} {xs : List (Param × Expr)}
    (h : ∀ (i : Nat) (p : Param) (e : Expr), xs[i]? = some (p, e) →
      ∃ q : Param, params[i]? = some q ∧ q.target.taking e = p.target.taking e) :
    evalPositional eval params (xs.map (·.2)) = do
      let vs ← evalOwn eval xs
      return vs.map (·.2) := by
  induction xs generalizing params with
  | nil => simp [evalPositional, evalOwn]
  | cons x xs ih =>
    obtain ⟨q, hq, htaking⟩ := h 0 x.1 x.2 rfl
    cases params with
    | nil => cases hq
    | cons q' params =>
      cases hq
      have ih := ih fun i p e hi => h (i + 1) p e hi
      simp [evalPositional, evalOwn, ih, evalArg_congr htaking]

/-- Every value has the name of its parameter. -/
theorem names_of_evalOwn {xs : List (Param × Expr)} {env env' : Env}
    {vs : List (String × Value)} (h : evalOwn eval xs env = .ok vs env') :
    vs.map (·.1) = xs.map (·.1.name) := by
  induction xs generalizing env vs with
  | nil => cases h; rfl
  | cons x xs ih =>
    obtain ⟨v, env₁, -, h⟩ := EStateM.bind_eq_ok.1 h
    obtain ⟨us, env₂, hus, h⟩ := EStateM.bind_eq_ok.1 h
    cases h
    rw [List.map_cons, List.map_cons, ih hus]

/-! ### Parameters and their own values -/

/-- Binds parameters in order, each to the values of the expressions assigned to it. -/
def bindOwn (eval : Expr → Eval Value) (s : Assignment Expr) :
    List Param → Eval (List (String × Value))
  | [] => return []
  | p :: ps => do
    let vs ← (s.getD p.name).mapM (evalArg eval p.target)
    return (p.name, p.hold vs) :: (← bindOwn eval s ps)

/-- All expressions can be evaluated before any parameter is bound. -/
theorem bindOwn_eq {s : Assignment Expr} {ps : List Param} (hnodup : (ps.map (·.name)).Nodup) :
    bindOwn eval s ps = do
      let vs ← evalOwn eval (assigned s ps)
      return ps.map fun p : Param => (p.name, p.hold (valuesNamed vs p.name)) := by
  induction ps with
  | nil => simp [bindOwn, assigned, evalOwn]
  | cons p ps ih =>
    rw [List.map_cons, List.nodup_cons] at hnodup
    rw [assigned_cons, evalOwn_append, evalOwn_single, bindOwn, ih hnodup.2]
    simp only [bind_assoc, pure_bind]
    funext env
    refine EStateM.bind_congr fun vs env₁ _ => EStateM.bind_congr fun us env₂ hus => ?_
    -- the values of the first parameter have its name, and no others do
    have hself : valuesNamed (vs.map fun v => (p.name, v)) p.name = vs := by
      rw [valuesNamed_eq_map (by simp), List.map_map]
      exact List.map_id vs
    have hothers : valuesNamed us p.name = [] := by
      refine valuesNamed_eq_nil ?_
      rw [names_of_evalOwn hus]
      intro hmem
      obtain ⟨⟨q, e⟩, hx, hname⟩ := List.mem_map.1 hmem
      exact hnodup.1 (hname ▸ List.mem_map_of_mem (mem_assigned.1 hx).1)
    have hrest : ∀ q ∈ ps, (q.name, q.hold (valuesNamed us q.name)) =
        (q.name, q.hold (valuesNamed (vs.map (fun v => (p.name, v)) ++ us) q.name)) := by
      intro q hq
      have hnone : q.name ∉ (vs.map fun v => (p.name, v)).map (·.1) := by
        intro hmem
        obtain ⟨x, hx, hname⟩ := List.mem_map.1 hmem
        obtain ⟨v, -, rfl⟩ := List.mem_map.1 hx
        have hname : p.name = q.name := hname
        exact hnodup.1 (hname ▸ List.mem_map_of_mem hq)
      rw [valuesNamed_append, valuesNamed_eq_nil hnone, List.nil_append]
    rw [List.map_cons, valuesNamed_append, hself, hothers, List.append_nil,
      List.map_congr_left hrest]

end Evaluator

end Sexpr
