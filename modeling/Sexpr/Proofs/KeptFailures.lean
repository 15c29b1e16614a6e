/-
Failures that are kept.

A call that is evaluated on its own can keep its failure as its value. A document does not
pass this on to its expressions: its evaluation ends with the first failure, and what comes
after it is not evaluated.

* `Evaluator.outcomes` — what each expression gives, also after one that failed;
* `Evaluator.evalAll_run_keep` — calls that are evaluated one by one and keep their failures;
* `Evaluator.evalAll_of_outcomes_ok`, `Evaluator.evalAll_of_outcomes_error` — expressions that
  are evaluated up to the first failure;
* `Evaluator.run_document_calls` — so a document of calls gives all outcomes exactly if none
  of them is a failure.
-/
import Sexpr.Eval
import Sexpr.Proofs.Sequencing

namespace Sexpr

/-- Whether an expression is a call: a group that is not empty. -/
def Expr.isCall : Expr → Bool
  | .items .group (_ :: _) _ => true
  | _ => false

theorem Expr.isCall_iff {e : Expr} :
    e.isCall ↔ ∃ head tail spans, e = .items .group (head :: tail) spans := by
  constructor
  · fun_cases Expr.isCall e with
    | case1 head tail spans => exact fun _ => ⟨head, tail, spans, rfl⟩
    | case2 => exact fun h => absurd h Bool.false_ne_true
  · rintro ⟨head, tail, spans, rfl⟩
    rfl

/-- The value that stands for an outcome: that of a failure is the failure itself. -/
def keptValue : Except Failure Value → Value
  | .ok v => v
  | .error f => .failure f

namespace Evaluator

/-- What each expression gives when it is evaluated alone, all in the context that those
before it leave, and the context in the end. A failure does not keep the next one from being
evaluated. -/
def outcomes (w : Evaluator) : List Expr → Env → List (Except Failure Value) × Env
  | [], env => ([], env)
  | e :: es, env =>
    match w.run false (.expr e) env with
    | .ok v env => (.ok v :: (w.outcomes es env).1, (w.outcomes es env).2)
    | .error f env => (.error f :: (w.outcomes es env).1, (w.outcomes es env).2)

variable {w : Evaluator}

theorem outcomes_cons_ok {e : Expr} {env env' : Env} {v : Value}
    (h : w.run false (.expr e) env = .ok v env') (es : List Expr) :
    w.outcomes (e :: es) env = (.ok v :: (w.outcomes es env').1, (w.outcomes es env').2) := by
  rw [outcomes, h]

theorem outcomes_cons_error {e : Expr} {env env' : Env} {f : Failure}
    (h : w.run false (.expr e) env = .error f env') (es : List Expr) :
    w.outcomes (e :: es) env = (.error f :: (w.outcomes es env').1, (w.outcomes es env').2) := by
  rw [outcomes, h]

theorem length_outcomes (es : List Expr) (env : Env) :
    (w.outcomes es env).1.length = es.length := by
  induction es generalizing env with
  | nil => rfl
  | cons e es ih =>
    cases h : w.run false (.expr e) env with
    | ok v env' => rw [outcomes_cons_ok h, List.length_cons, List.length_cons, ih]
    | error f env' => rw [outcomes_cons_error h, List.length_cons, List.length_cons, ih]

/-! ### Expressions one by one -/

theorem evalAll_cons_ok {eval : Expr → Eval Value} {e : Expr} {env env' : Env} {v : Value}
    (h : eval e env = .ok v env') (es : List Expr) :
    evalAll eval (e :: es) env =
      match evalAll eval es env' with
      | .ok vs env => .ok (v :: vs) env
      | .error f env => .error f env := by
  rw [evalAll, EStateM.bind_of_ok h]
  cases hes : evalAll eval es env' with
  | ok vs env => exact EStateM.bind_of_ok hes
  | error f env => exact EStateM.bind_of_error hes

theorem evalAll_cons_error {eval : Expr → Eval Value} {e : Expr} {env env' : Env} {f : Failure}
    (h : eval e env = .error f env') (es : List Expr) :
    evalAll eval (e :: es) env = .error f env' :=
  EStateM.bind_of_error h

/-- A call that keeps its failure, however the expressions in it are evaluated. -/
theorem step_keep_call {e : Expr} (h : e.isCall) (eval : Expr → Eval Value) :
    w.step eval true e = attempt (w.step eval false e) := by
  obtain ⟨head, tail, spans, rfl⟩ := Expr.isCall_iff.1 h
  rfl

theorem run_keep_call {e : Expr} (h : e.isCall) :
    w.run true (.expr e) = attempt (w.run false (.expr e)) := by
  rw [run, run, eval, eval, step_keep_call h]

/-- Calls that are evaluated one by one and keep their failures give all outcomes. -/
theorem evalAll_run_keep {es : List Expr} (hcalls : ∀ e ∈ es, e.isCall) (env : Env) :
    evalAll (fun e => w.run true (.expr e)) es env =
      .ok ((w.outcomes es env).1.map keptValue) (w.outcomes es env).2 := by
  induction es generalizing env with
  | nil => rfl
  | cons e es ih =>
    have hkeep := run_keep_call (w := w) (hcalls e List.mem_cons_self)
    have ih := ih fun e he => hcalls e (List.mem_cons_of_mem _ he)
    cases h : w.run false (.expr e) env with
    | ok v env' =>
      have hrun : w.run true (.expr e) env = .ok v env' := by rw [hkeep, attempt, h]
      rw [evalAll_cons_ok hrun, ih, outcomes_cons_ok h]
      rfl
    | error f env' =>
      have hrun : w.run true (.expr e) env = .ok (.failure f) env' := by rw [hkeep, attempt, h]
      rw [evalAll_cons_ok hrun, ih, outcomes_cons_error h]
      rfl

/-- If no outcome is a failure, evaluating in order gives all of them. -/
theorem evalAll_of_outcomes_ok {es : List Expr} {env : Env}
    (hok : ∀ o ∈ (w.outcomes es env).1, o.isOk) :
    evalAll (w.eval false) es env =
      .ok ((w.outcomes es env).1.map keptValue) (w.outcomes es env).2 := by
  induction es generalizing env with
  | nil => rfl
  | cons e es ih =>
    cases h : w.run false (.expr e) env with
    | ok v env' =>
      rw [outcomes_cons_ok h] at hok ⊢
      rw [evalAll_cons_ok h, ih fun o ho => hok o (List.mem_cons_of_mem _ ho)]
      rfl
    | error f env' =>
      rw [outcomes_cons_error h] at hok
      exact absurd (hok _ List.mem_cons_self) (by simp [Except.isOk, Except.toBool])

/-- Evaluating in order ends with the first failure, in the context that it leaves. -/
theorem evalAll_of_outcomes_error {es : List Expr} {env : Env}
    {before after : List (Except Failure Value)} {f : Failure}
    (houtcomes : (w.outcomes es env).1 = before ++ .error f :: after)
    (hok : ∀ o ∈ before, o.isOk) :
    evalAll (w.eval false) es env =
      .error f (w.outcomes (es.take (before.length + 1)) env).2 := by
  induction es generalizing env before with
  | nil => exact absurd houtcomes (by simp [outcomes])
  | cons e es ih =>
    rw [List.take_succ_cons]
    cases h : w.run false (.expr e) env with
    | ok v env' =>
      rw [outcomes_cons_ok h] at houtcomes
      cases before with
      | nil => cases houtcomes
      | cons o before =>
        obtain ⟨-, houtcomes⟩ := List.cons_eq_cons.1 houtcomes
        rw [evalAll_cons_ok h, ih houtcomes fun o ho => hok o (List.mem_cons_of_mem _ ho),
          outcomes_cons_ok h, List.length_cons]
    | error f' env' =>
      rw [outcomes_cons_error h] at houtcomes ⊢
      cases before with
      | nil =>
        obtain ⟨hf, -⟩ := List.cons_eq_cons.1 houtcomes
        rw [evalAll_cons_error h, Except.error.inj hf, List.length_nil]
        rfl
      | cons o before =>
        -- the first outcome is a failure, so none stands before it
        obtain ⟨rfl, -⟩ := List.cons_eq_cons.1 houtcomes
        exact absurd (hok _ List.mem_cons_self) (by simp [Except.isOk, Except.toBool])

/-! ### Documents -/

theorem run_document_of_ok {keep : Bool} {d : Document} {env env' : Env} {vs : List Value}
    (h : evalAll (w.eval false) d.exprs env = .ok vs env') :
    w.run keep (.document d) env = .ok (.list vs) env' :=
  EStateM.bind_of_ok h

theorem run_document_of_error {keep : Bool} {d : Document} {env env' : Env} {f : Failure}
    (h : evalAll (w.eval false) d.exprs env = .error f env') :
    w.run keep (.document d) env = .error f env' :=
  EStateM.bind_of_error h

/-- Calls that are evaluated one by one and keep their failures give one value for each
outcome. A document of them gives these values if no outcome is a failure; else it fails as
the first one does that is, whether failures are to be kept or not. -/
theorem run_document_calls (w : Evaluator) (keep : Bool) (env : Env) (d : Document)
    (hcalls : ∀ e ∈ d.exprs, e.isCall) :
    (w.outcomes d.exprs env).1.length = d.exprs.length ∧
    evalAll (fun e => w.run true (.expr e)) d.exprs env =
      .ok ((w.outcomes d.exprs env).1.map keptValue) (w.outcomes d.exprs env).2 ∧
    ((∀ o ∈ (w.outcomes d.exprs env).1, o.isOk) →
      w.run keep (.document d) env =
        .ok (.list ((w.outcomes d.exprs env).1.map keptValue)) (w.outcomes d.exprs env).2) ∧
    ∀ before f after, (w.outcomes d.exprs env).1 = before ++ .error f :: after →
      (∀ o ∈ before, o.isOk) →
      w.run keep (.document d) env =
        .error f (w.outcomes (d.exprs.take (before.length + 1)) env).2 := by
  refine ⟨length_outcomes _ _, evalAll_run_keep hcalls env, ?_, ?_⟩
  · intro hok
    exact run_document_of_ok (evalAll_of_outcomes_ok hok)
  · intro before f after houtcomes hok
    exact run_document_of_error (evalAll_of_outcomes_error houtcomes hok)

/-- Nothing has the name of the second call's function. The calls on their own give three
values, the document none. -/
theorem run_document_calls_undefined :
    let call (name : String) : Expr := .items .group [.leaf (.atom name) none] .none
    let calls := [call "one", call "f", call "one"]
    let env : Env := ⟨[("one", .function true ⟨"one", [], none, .const (.int 1)⟩)], 0⟩
    call "f" ∈ calls ∧
    evalAll (fun e => Evaluator.run ⟨[], []⟩ true (.expr e)) calls env =
      .ok [.int 1, .failure (.eval (.undefined "f")), .int 1] env ∧
    Evaluator.run ⟨[], []⟩ true (.document ⟨calls, none⟩) env =
      .error (.eval (.undefined "f")) env := by
  intro call calls env
  obtain ⟨-, hkept, -, herror⟩ := run_document_calls ⟨[], []⟩ true env ⟨calls, none⟩
    (by simp [calls, call, Expr.isCall])
  refine ⟨by simp [calls], hkept, ?_⟩
  exact herror [.ok (.int 1)] _ [.ok (.int 1)] rfl (by simp [Except.isOk, Except.toBool])

/-- Failures are to be kept, but a document with one call fails as the call does. -/
theorem run_document_unkept :
    let call : Expr := .items .group [.leaf (.atom "f") none] .none
    Evaluator.run ⟨[], []⟩ true (.document ⟨[call], none⟩) ⟨[], 0⟩ =
      .error (.eval (.undefined "f")) ⟨[], 0⟩ ∧
    Evaluator.run ⟨[], []⟩ true (.expr call) ⟨[], 0⟩ =
      .ok (.failure (.eval (.undefined "f"))) ⟨[], 0⟩ :=
  ⟨rfl, rfl⟩

end Evaluator
end Sexpr
