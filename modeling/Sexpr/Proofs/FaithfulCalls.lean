/-
Calls that bind every parameter to its own values.

* `Aligned` — no parameter by position is left out before one that is given, and if there are
  values for the rest, they start at its place and all of them are taken in its way;
* `aligned_iff_faithful` — exactly then values go to their own parameters;
* `Evaluator.evalWithin_call` — what calls of registered functions do.
-/
import Sexpr.Proofs.CallBinding

namespace Sexpr

/-- The expressions that are assigned to the parameters of a signature are all given to their
own ones. -/
structure Aligned (front normal : List Param) (rest : Option Param) (named : List Param)
    (s : Assignment Expr) : Prop where
  /-- No name is one that a callable uses itself. -/
  names : ∀ p ∈ normal ++ named, s.getD p.name ≠ [] → p.name ≠ "self" ∧ p.name ≠ "ctx"
  /-- After a parameter that is left out no other one is given by position only. -/
  in_order : front.Pairwise fun p q => s.getD p.name = [] → s.getD q.name = []
  /-- If there are values for the rest, all parameters by position are given, and none of them
  can be given by name. -/
  rest_start : ∀ r ∈ rest, s.getD r.name ≠ [] → normal = [] ∧ ∀ p ∈ front, s.getD p.name ≠ []
  /-- Each of the rest of the values takes the way of a parameter in turn, which is that of the
  parameter for the rest. -/
  rest_taking : ∀ r ∈ rest, ∀ (i : Nat) (e : Expr), (s.getD r.name)[i]? = some e →
    ∃ q, (r :: named)[i]? = some q ∧ q.target.taking e = r.target.taking e

section Places

variable {s : Assignment Expr} {ps : List Param}

/-- The expressions stand at the places of their parameters if none is left out before one that
is given. -/
theorem getElem?_of_pairwise (hsingle : ∀ p ∈ ps, (s.getD p.name).length ≤ 1)
    (h : ps.Pairwise fun p q => s.getD p.name = [] → s.getD q.name = []) {i : Nat}
    {x : Param × Expr} (hx : (assigned s ps)[i]? = some x) : ps[i]? = some x.1 := by
  induction ps generalizing i with
  | nil => cases hx
  | cons p ps ih =>
    obtain ⟨hp, hps⟩ := List.forall_mem_cons.1 hsingle
    obtain ⟨hafter, h⟩ := List.pairwise_cons.1 h
    rcases assigned_cons_cases hp ps with ⟨hnone, heq⟩ | ⟨e, -, heq⟩
    · -- nothing is given after the first one
      rw [heq] at hx
      obtain ⟨hq, he⟩ := mem_assigned.1 (List.mem_of_getElem? hx)
      rw [hafter x.1 hq hnone] at he
      cases he
    · rw [heq] at hx
      cases i with
      | zero =>
        cases hx
        rfl
      | succ i => exact ih hps h hx

theorem pairwise_of_getElem? (hsingle : ∀ p ∈ ps, (s.getD p.name).length ≤ 1)
    (h : ∀ (i : Nat) (x : Param × Expr), (assigned s ps)[i]? = some x → ps[i]? = some x.1) :
    ps.Pairwise fun p q => s.getD p.name = [] → s.getD q.name = [] := by
  induction ps with
  | nil => exact List.Pairwise.nil
  | cons p ps ih =>
    obtain ⟨hp, hps⟩ := List.forall_mem_cons.1 hsingle
    rcases assigned_cons_cases hp ps with ⟨hnone, heq⟩ | ⟨e, hsome, heq⟩
    · -- an expression of a later parameter would stand at the place of the first one
      have hall : ∀ q ∈ ps, s.getD q.name = [] := by
        cases hassigned : assigned s ps with
        | nil =>
          intro q hq
          refine List.eq_nil_iff_forall_not_mem.2 fun e he => ?_
          have := mem_assigned.2 ⟨hq, he⟩
          rw [hassigned] at this
          cases this
        | cons x xs =>
          have hx := h 0 x (by rw [heq, hassigned]; rfl)
          cases hx
          have he := (mem_assigned.1 (hassigned ▸ List.mem_cons_self)).2
          rw [hnone] at he
          cases he
      exact List.pairwise_cons.2 ⟨fun q hq _ => hall q hq,
        List.pairwise_of_forall_mem_list fun p _ q hq _ => hall q hq⟩
    · refine List.pairwise_cons.2 ⟨fun q _ hnone => ?_, ih hps fun i x hx => ?_⟩
      · rw [hsome] at hnone
        cases hnone
      · exact h (i + 1) x (by rw [heq]; exact hx)

/-- As many expressions as there are parameters: none is left out. -/
theorem length_assigned_eq_iff (hsingle : ∀ p ∈ ps, (s.getD p.name).length ≤ 1) :
    (assigned s ps).length = ps.length ↔ ∀ p ∈ ps, s.getD p.name ≠ [] := by
  induction ps with
  | nil => simp [assigned]
  | cons p ps ih =>
    obtain ⟨hp, hps⟩ := List.forall_mem_cons.1 hsingle
    rw [List.forall_mem_cons]
    rcases assigned_cons_cases hp ps with ⟨hnone, heq⟩ | ⟨e, hsome, heq⟩
    · have hle := length_assigned_le hps
      rw [heq, List.length_cons]
      exact iff_of_false (by omega) fun h => h.1 hnone
    · rw [heq, List.length_cons, List.length_cons, Nat.add_right_cancel_iff, ih hps, hsome]
      simp

end Places

section Signature

variable {f : Function} {front normal named : List Param} {rest : Option Param}
  {s : Assignment Expr}

/-- Where the expressions by position stand. -/
theorem Aligned.place (h : Aligned front normal rest named s)
    (hf : Signature f front normal rest named) (hs : f.Matched s) {i : Nat} {p : Param} {e : Expr}
    (hi : (f.byPosition s)[i]? = some (p, e)) :
    front[i]? = some p ∨
      ∃ j, i = front.length + j ∧ rest = some p ∧ normal = [] ∧ (s.getD p.name)[j]? = some e := by
  rw [FunctionOf.byPosition_eq hf] at hi
  by_cases hlt : i < (assigned s front).length
  · rw [List.getElem?_append_left hlt] at hi
    exact .inl (getElem?_of_pairwise (hs.single_front hf) h.in_order hi)
  · rw [Nat.not_lt] at hlt
    rw [List.getElem?_append_right hlt] at hi
    obtain ⟨hp, he⟩ := mem_assigned.1 (List.mem_of_getElem? hi)
    rw [Option.mem_toList] at hp
    -- nothing before the rest is left out, so it starts right after the front
    obtain ⟨hnormal, hgiven⟩ := h.rest_start p hp (List.ne_nil_of_mem he)
    have hlength := (length_assigned_eq_iff (hs.single_front hf)).2 hgiven
    refine .inr ⟨i - front.length, by omega, hp, hnormal, ?_⟩
    obtain rfl : rest = some p := hp
    rw [hlength] at hi
    simpa [assigned] using hi

theorem Aligned.faithful (h : Aligned front normal rest named s)
    (hf : Signature f front normal rest named) (hs : f.Matched s) : f.Faithful s where
  names := by
    intro x hx
    obtain ⟨hp, he⟩ := mem_assigned.1 hx
    rw [hf.byName] at hp
    exact h.names x.1 hp (List.ne_nil_of_mem he)
  seats := by
    intro i p e hi
    rcases h.place hf hs hi with hp | ⟨j, rfl, hp, hnormal, -⟩
    · have hlt := (List.getElem?_eq_some_iff.1 hp).1
      rw [FunctionOf.seat, hf.positional, List.getElem?_append_left hlt, hp, Option.some_or]
    · rw [FunctionOf.seat_of_le, hf.find?_rest, hp]
      rw [hf.positional, hnormal, List.append_nil]
      exact Nat.le_add_right ..
  takings := by
    intro i p e hi
    rcases h.place hf hs hi with hp | ⟨j, rfl, hp, hnormal, he⟩
    · have hlt := (List.getElem?_eq_some_iff.1 hp).1
      refine ⟨p, ?_, rfl⟩
      rw [hf.params, List.append_assoc, List.append_assoc, List.getElem?_append_left hlt, hp]
    · obtain ⟨q, hq, htaking⟩ := h.rest_taking p hp j e he
      refine ⟨q, ?_, htaking⟩
      rw [hf.params, hnormal, hp, List.append_nil, List.append_assoc,
        List.getElem?_append_right (Nat.le_add_right ..), Nat.add_sub_cancel_left]
      exact hq

theorem FunctionOf.Faithful.aligned (h : f.Faithful s)
    (hf : Signature f front normal rest named) (hs : f.Matched s) :
    Aligned front normal rest named s := by
  have hsingle := hs.single_front hf
  refine ⟨?_, ?_, ?_, ?_⟩
  · intro p hp hgiven
    obtain ⟨e, he⟩ := List.exists_mem_of_ne_nil _ hgiven
    exact h.names (p, e) (mem_assigned.2 ⟨hf.byName ▸ hp, he⟩)
  · -- up to the rest, places are those of the front
    refine pairwise_of_getElem? hsingle fun i x hx => ?_
    have hlt := (List.getElem?_eq_some_iff.1 hx).1
    have hlt' := Nat.lt_of_lt_of_le hlt (length_assigned_le hsingle)
    have hseat := h.seats i x.1 x.2
      (by rw [FunctionOf.byPosition_eq hf, List.getElem?_append_left hlt, hx])
    rwa [FunctionOf.seat, hf.positional, List.getElem?_append_left hlt',
      List.getElem?_eq_getElem hlt', Option.some_or, ← List.getElem?_eq_getElem hlt'] at hseat
  · intro r hr hgiven
    obtain ⟨hnormal, hlength⟩ := h.before_rest hf hs hr hgiven
    exact ⟨hnormal, (length_assigned_eq_iff hsingle).1 hlength⟩
  · intro r hr i e he
    have hgiven := List.ne_nil_of_mem (List.mem_of_getElem? he)
    obtain ⟨hnormal, hlength⟩ := h.before_rest hf hs hr hgiven
    obtain rfl : rest = some r := hr
    obtain ⟨q, hq, htaking⟩ := h.takings (front.length + i) r e (by
      rw [FunctionOf.byPosition_eq hf, List.getElem?_append_right (by omega), hlength,
        Nat.add_sub_cancel_left]
      simp [assigned, he])
    refine ⟨q, ?_, htaking⟩
    rw [hf.params, hnormal, List.append_nil, List.append_assoc,
      List.getElem?_append_right (Nat.le_add_right ..), Nat.add_sub_cancel_left] at hq
    exact hq

/-- Values go to their own parameters, as these take them, exactly if the expressions are
aligned with the signature. -/
theorem aligned_iff_faithful (hf : Signature f front normal rest named) (hs : f.Matched s) :
    Aligned front normal rest named s ↔ f.Faithful s :=
  ⟨fun h => h.faithful hf hs, fun h => h.aligned hf hs⟩

end Signature

/-! ### Calls -/

namespace Evaluator

variable {f : Function} {s : Assignment Expr}

/-- A whole expression is evaluated at the last level. -/
theorem run_expr (w : Evaluator) (e : Expr) :
    w.run false (.expr e) = w.evalWithin (maxLevels + 1) e := rfl

theorem evalWithin_group {w : Evaluator} {n : Nat} {head : Expr} {env env₁ : Env}
    (hhead : w.evalWithin n head env = .ok (.function true f) env₁) (tail : List Expr)
    (spans : BracketSpans) :
    w.evalWithin (n + 1) (.items .group (head :: tail) spans) env =
      (arguments (w.evalWithin n) f tail >>= w.runBody (w.evalWithin n) f) env₁ := by
  show (w.evalWithin n head >>= fun fn => w.call (w.evalWithin n) fn tail) env = _
  rw [EStateM.bind_of_ok hhead, call_eq]

/-- A call, at any level, of a registered function whose parameters are in order and whose
expressions are assigned to them. If these are aligned, the function runs with each parameter
bound to the values of its own expressions, or to its default, and the call fails only as
evaluating one of them or running the function does. Else the call fails, or the function runs
with a parameter that is bound to what is not its own. -/
theorem evalWithin_call (w : Evaluator) (n : Nat) {front normal named : List Param}
    {rest : Option Param} (hf : Signature f front normal rest named) {head : Expr} {env env₁ : Env}
    (hhead : w.evalWithin n head env = .ok (.function true f) env₁) {tail : List Expr}
    (hs : matchTail (f.params.map fun p => ⟨p.arity, p.name⟩) tail = .ok s)
    (spans : BracketSpans) :
    f.Matched s ∧
    (Aligned front normal rest named s →
      w.evalWithin (n + 1) (.items .group (head :: tail) spans) env =
        (bindOwn (w.evalWithin n) s f.params >>= w.runBody (w.evalWithin n) f) env₁) ∧
    (¬ Aligned front normal rest named s →
      w.evalWithin (n + 1) (.items .group (head :: tail) spans) env =
        (arguments (w.evalWithin n) f tail >>= w.runBody (w.evalWithin n) f) env₁ ∧
      ∀ bound env₂, arguments (w.evalWithin n) f tail env₁ = .ok bound env₂ →
        Misbound (w.evalWithin n) f s bound) := by
  have hmatched := FunctionOf.matched_of_matchTail hs
  rw [aligned_iff_faithful hf hmatched, evalWithin_group hhead]
  refine ⟨hmatched, fun h => ?_, fun h => ⟨rfl, fun bound env₂ hbound => ?_⟩⟩
  · rw [arguments_of_faithful hf hs h]
  · exact misbound_of_not_faithful hf hs h hbound

/-- A value by position only, two that are left over for the rest, one by name, and a default. -/
theorem evalWithin_call_rest :
    let a : Param := ⟨"a", .positionalOnly, none, none⟩
    let rest : Param := ⟨"rest", .rest, none, none⟩
    let k : Param := ⟨"k", .keywordOnly, none, none⟩
    let m : Param := ⟨"m", .keywordOnly, none, some (.int 7)⟩
    let f : Function := ⟨"f", [a, rest, k, m], none, .pack⟩
    let int (i : Int) : Expr := .leaf (.int i) none
    let atom (name : String) : Expr := .leaf (.atom name) none
    let env : Env := ⟨[("f", .function true f)], 0⟩
    Signature f [a] [] (some rest) [k, m] ∧
    Aligned [a] [] (some rest) [k, m]
      [("a", [int 1]), ("rest", [int 2, int 3]), ("k", [int 4]), ("m", [])] ∧
    Evaluator.run ⟨[], []⟩ false (.expr
      (.items .group [atom "f", int 1, int 2, int 3, atom ":k", int 4] .none)) env =
      .ok (.list [.str "f", .list [.list [.str "a", .int 1],
        .list [.str "rest", .tuple [.int 2, .int 3]], .list [.str "k", .int 4],
        .list [.str "m", .int 7]]]) env := by
  intro a rest k m f int atom env
  have hf : Signature f [a] [] (some rest) [k, m] := by
    refine ⟨rfl, ?_, ?_, ?_, ?_⟩ <;> simp [a, rest, k, m]
  have haligned : Aligned [a] [] (some rest) [k, m]
      [("a", [int 1]), ("rest", [int 2, int 3]), ("k", [int 4]), ("m", [])] := by
    refine ⟨?_, List.pairwise_singleton _ _, ?_, ?_⟩
    · intro p hp _
      rcases List.mem_pair.1 hp with rfl | rfl <;> exact ⟨by decide, by decide⟩
    · intro r _ _
      exact ⟨rfl, fun p hp => by cases List.mem_singleton.1 hp; nofun⟩
    · rintro r ⟨⟩ i e hi
      match i, hi with
      | 0, rfl => exact ⟨rest, rfl, rfl⟩
      | 1, rfl => exact ⟨k, rfl, rfl⟩
  have hs : matchTail (f.params.map fun p => ⟨p.arity, p.name⟩)
      [int 1, int 2, int 3, atom ":k", int 4] =
        .ok [("a", [int 1]), ("rest", [int 2, int 3]), ("k", [int 4]), ("m", [])] := by
    rfl
  have hhead : Evaluator.evalWithin ⟨[], []⟩ maxLevels (atom "f") env =
    .ok (.function true f) env := rfl
  refine ⟨hf, haligned, ?_⟩
  rw [run_expr, (evalWithin_call ⟨[], []⟩ maxLevels hf hhead hs .none).2.1 haligned]
  rfl

/-- The rest of the values starts at the place of a normal parameter, and the call fails. The
value for a second parameter stands at the place of the first one, and goes there. -/
theorem run_call_misplaced :
    let normal : Param := ⟨"a", .normal, none, none⟩
    let rest : Param := ⟨"rest", .rest, none, none⟩
    let first : Param := ⟨"a", .positionalOnly, none, some (.int 1)⟩
    let second : Param := ⟨"b", .positionalOnly, none, some (.int 2)⟩
    let f : Function := ⟨"f", [normal, rest], none, .pack⟩
    let g : Function := ⟨"g", [first, second], none, .pack⟩
    let int (i : Int) : Expr := .leaf (.int i) none
    let atom (name : String) : Expr := .leaf (.atom name) none
    let env : Env := ⟨[("f", .function true f), ("g", .function true g)], 0⟩
    (Signature f [] [normal] (some rest) [] ∧
      matchTail (f.params.map fun p => ⟨p.arity, p.name⟩) [int 1, int 2, int 3] =
        .ok [("a", [int 1]), ("rest", [int 2, int 3])] ∧
      Evaluator.run ⟨[], []⟩ false (.expr
        (.items .group [atom "f", int 1, int 2, int 3] .none)) env =
        .error (.call (.multipleValues "f" "a")) env) ∧
    (Signature g [first, second] [] none [] ∧
      matchTail (g.params.map fun p => ⟨p.arity, p.name⟩) [atom ":b", int 5] =
        .ok [("a", []), ("b", [int 5])] ∧
      Evaluator.run ⟨[], []⟩ false (.expr (.items .group [atom "g", atom ":b", int 5] .none)) env =
        .ok (.list [.str "g", .list [.list [.str "a", .int 5], .list [.str "b", .int 2]]]) env) := by
  intro normal rest first second f g int atom env
  have hf : Signature f [] [normal] (some rest) [] := by
    refine ⟨rfl, ?_, ?_, ?_, ?_⟩ <;> simp [normal, rest]
  have hg : Signature g [first, second] [] none [] := by
    refine ⟨rfl, ?_, ?_, ?_, ?_⟩ <;> simp [first, second]
  refine ⟨⟨hf, ?_, ?_⟩, hg, ?_, ?_⟩ <;> rfl

end Evaluator
end Sexpr
