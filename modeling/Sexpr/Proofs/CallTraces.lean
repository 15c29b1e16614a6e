/-
What a trace shows.

The lines of a trace are those of a tree of calls: each call has a line that opens it, the
lines of the calls it made, one level deeper, a line with its result or its fault, and a
line that closes it. A traced call adds the lines of one such tree and changes nothing else:
it comes to the same end, and it leaves the depth as it found it, also when a fault passes
through several calls or is caught on its way.

* `CallTrace`, `CallTrace.lines` — a tree of calls and its lines;
* `Tracing.added` — a trace with the lines of some calls more, and nothing else changed;
* `traced_eq` — what one traced call does, given what its body does;
* `Mirrors` — a traced computation does what an untraced one does;
* `Routine.run_eq` — a traced routine comes to the end of the untraced one.
-/
import Sexpr.Proofs.Sequencing
import Sexpr.Trace

namespace Sexpr

/-! ### Trees of calls and their lines -/

/-- A call that has ended: its header, the calls that it made, and the text of its result or
of its fault. -/
inductive CallTrace where
  | call (header : String) (inner : List CallTrace) (ending : Except String String)

namespace CallTrace

/-- The line that shows how a call at a depth ended. A result is shown at the depth of the
calls inside, a fault at the depth of the call. -/
def endingLine (depth : Int) : Except String String → String
  | .ok result => Tracing.indent (depth + 1) ++ "return " ++ result
  | .error fault => Tracing.indent depth ++ "\x7draise " ++ fault

mutual

/-- The lines of a call at a depth. -/
def lines (depth : Int) : CallTrace → List String
  | .call header inner ending =>
    (Tracing.indent depth ++ header ++ " \x7b") :: linesAll (depth + 1) inner ++
      [endingLine depth ending, Tracing.indent depth ++ "\x7d"]

/-- The lines of calls one after the other. -/
def linesAll (depth : Int) : List CallTrace → List String
  | [] => []
  | c :: cs => c.lines depth ++ linesAll depth cs

end

theorem linesAll_append (depth : Int) (cs ds : List CallTrace) :
    linesAll depth (cs ++ ds) = linesAll depth cs ++ linesAll depth ds := by
  induction cs with
  | nil => rfl
  | cons c cs ih => rw [List.cons_append, linesAll, linesAll, ih, List.append_assoc]

theorem linesAll_singleton (depth : Int) (c : CallTrace) : linesAll depth [c] = c.lines depth :=
  List.append_nil _

end CallTrace

/-! ### One traced call -/

section

variable {ε σ α β : Type}

/-- A trace with the lines of some calls more, where the state has become `s`. The depth is
what it was, and so is whether all calls were balanced. -/
def Tracing.added (t : Tracing σ) (s : σ) (calls : List CallTrace) : Tracing σ :=
  { t with state := s, lines := (CallTrace.linesAll t.depth calls).reverse ++ t.lines }

/-- An end, after the lines of some calls. -/
def Tracing.ends (t : Tracing σ) (calls : List CallTrace) :
    EStateM.Result ε σ α → EStateM.Result ε (Tracing σ) α
  | .ok a s => .ok a (t.added s calls)
  | .error e s => .error e (t.added s calls)

theorem Tracing.added_added (t : Tracing σ) (s s' : σ) (calls calls' : List CallTrace) :
    (t.added s calls).added s' calls' = t.added s' (calls ++ calls') := by
  simp [added, CallTrace.linesAll_append]

theorem Tracing.added_ends (t : Tracing σ) (s : σ) (calls calls' : List CallTrace)
    (r : EStateM.Result ε σ α) : (t.added s calls).ends calls' r = t.ends (calls ++ calls') r := by
  cases r <;> simp only [ends, added_added]

/-- What a computation came to, without its state. -/
def outcomeOf : EStateM.Result ε σ α → Except ε α
  | .ok a _ => .ok a
  | .error e _ => .error e

/-- How a call ended, as texts. -/
def endingTexts (result : α → String) (fault : ε → String) : Except ε α → Except String String
  | .ok a => .ok (result a)
  | .error e => .error (fault e)

/-- The trace inside a call that has just been opened. -/
def Tracing.opened (t : Tracing σ) (header : String) : Tracing σ :=
  { t.print (indent t.depth ++ header ++ " \x7b") with depth := t.depth + 1 }

/-- What a traced call does, by what its body does. -/
theorem traced_apply (header : σ → String) (result : α → String) (fault : ε → String)
    (body : Traced ε σ α) (t : Tracing σ) :
    traced header result fault body t =
      match body (t.opened (header t.state)) with
      | .ok a t' =>
        .ok a ((t'.print (Tracing.indent t'.depth ++ "return " ++ result a)).close t.depth)
      | .error e t' =>
        .error e ((t'.print (Tracing.indent t.depth ++ "\x7draise " ++ fault e)).close t.depth) :=
  rfl

/-- A traced call ends as its body does. It adds one call to the trace, with the calls of
its body inside, and ends at the depth at which it started. -/
theorem traced_eq (header : σ → String) (result : α → String) (fault : ε → String)
    {body : Traced ε σ α} {t : Tracing σ} {calls : List CallTrace} {r : EStateM.Result ε σ α}
    (h : body (t.opened (header t.state)) = (t.opened (header t.state)).ends calls r) :
    traced header result fault body t =
      t.ends [.call (header t.state) calls (endingTexts result fault (outcomeOf r))] r := by
  rw [traced_apply, h]
  -- both ends take back the one level that the call went down, so the balance is kept
  cases r with
  | ok a s =>
    simp [Tracing.ends, Tracing.added, Tracing.opened, Tracing.print, Tracing.close,
      CallTrace.lines, CallTrace.linesAll, CallTrace.endingLine, endingTexts, outcomeOf]
  | error e s =>
    simp [Tracing.ends, Tracing.added, Tracing.opened, Tracing.print, Tracing.close,
      CallTrace.lines, CallTrace.linesAll, CallTrace.endingLine, endingTexts, outcomeOf]

/-! ### Computations with and without tracing -/

/-- A traced computation that ends as the untraced one does and adds the lines of some
calls. -/
def Mirrors (p : Traced ε σ α) (q : EStateM ε σ α) : Prop :=
  ∀ t : Tracing σ, ∃ calls, p t = t.ends calls (q t.state)

namespace Mirrors

theorem pure (a : α) : Mirrors (Pure.pure a : Traced ε σ α) (Pure.pure a) :=
  fun _ => ⟨[], rfl⟩

theorem throw (e : ε) : Mirrors (MonadExcept.throw e : Traced ε σ α) (MonadExcept.throw e) :=
  fun _ => ⟨[], rfl⟩

/-- The calls of the first computation come before those of the second. -/
theorem bind {p : Traced ε σ α} {q : EStateM ε σ α} {f : α → Traced ε σ β}
    {g : α → EStateM ε σ β} (h : Mirrors p q) (hf : ∀ a, Mirrors (f a) (g a)) :
    Mirrors (p >>= f) (q >>= g) := by
  intro t
  obtain ⟨calls, hp⟩ := h t
  cases hq : q t.state with
  | error e s =>
    -- neither computation gets to its second part
    rw [hq] at hp
    refine ⟨calls, ?_⟩
    rw [EStateM.bind_of_error hp, EStateM.bind_of_error hq]
    rfl
  | ok a s =>
    rw [hq] at hp
    obtain ⟨calls', hf'⟩ := hf a (t.added s calls)
    refine ⟨calls ++ calls', ?_⟩
    rw [EStateM.bind_of_ok hp, EStateM.bind_of_ok hq]
    exact hf'.trans (Tracing.added_ends t s calls calls' _)

theorem ite {P : Prop} [Decidable P] {p p' : Traced ε σ α} {q q' : EStateM ε σ α}
    (h : Mirrors p q) (h' : Mirrors p' q') :
    Mirrors (if P then p else p') (if P then q else q') := by
  split
  · exact h
  · exact h'

/-- Tracing a computation changes nothing about what it does. -/
theorem traced (header : σ → String) (result : α → String) (fault : ε → String)
    {p : Traced ε σ α} {q : EStateM ε σ α} (h : Mirrors p q) :
    Mirrors (traced header result fault p) q := by
  intro t
  obtain ⟨calls, hp⟩ := h (t.opened (header t.state))
  exact ⟨_, traced_eq header result fault hp⟩

end Mirrors

end

/-! ### Trees of routines -/

namespace Routine

variable {ε α : Type} (result : α → String) (fault : ε → String)

mutual

/-- The calls that a routine makes, with what each of them amounts to. -/
def trace : Routine ε α → CallTrace
  | .call header calls finish =>
    .call header (traces calls) (endingTexts result fault (outcome (.call header calls finish)))

/-- The calls that are made of routines in order. None is made after a fault that is not
caught. -/
def traces : List (Bool × Routine ε α) → List CallTrace
  | [] => []
  | (caught, r) :: rest =>
    match outcome r with
    | .ok _ => trace r :: traces rest
    | .error _ => if caught then trace r :: traces rest else [trace r]

end

/-- An outcome as the end of a computation without a state. -/
def ended {β : Type} : Except ε β → EStateM.Result ε Unit β
  | .ok a => .ok a ()
  | .error e => .error e ()

theorem outcomeOf_ended {β : Type} (o : Except ε β) : outcomeOf (ended o) = o := by
  cases o <;> rfl

/-- The end of a routine's body, once its calls are done. -/
theorem body_eq {p : Traced ε Unit Unit} {t : Tracing Unit} {cs : List CallTrace}
    {o : Except ε Unit} (finish : Except ε α) (h : p t = t.ends cs (ended o)) :
    (do p
        match finish with
        | .ok a => return a
        | .error e => throw e : Traced ε Unit α) t =
      t.ends cs (ended (o.bind fun _ => finish)) := by
  cases o with
  | error e => exact EStateM.bind_of_error h
  | ok u =>
    rw [EStateM.bind_of_ok h]
    cases finish <;> rfl

theorem run_call (header : String) (calls : List (Bool × Routine ε α)) (finish : Except ε α) :
    run result fault (.call header calls finish) =
      traced (fun _ => header) result fault (do
        runAll result fault calls
        match finish with
        | .ok a => return a
        | .error e => throw e) := rfl

theorem runAll_cons (caught : Bool) (r : Routine ε α) (rest : List (Bool × Routine ε α))
    (t : Tracing Unit) :
    runAll result fault ((caught, r) :: rest) t =
      match run result fault r t with
      | .ok _ t' => runAll result fault rest t'
      | .error e t' => if caught then runAll result fault rest t' else .error e t' := rfl

-- The inductions follow the tree of routines: a fault that is not caught ends the second.
mutual

/-- A traced routine comes to what it amounts to without tracing, and adds its calls to
the trace. -/
theorem run_eq (r : Routine ε α) (t : Tracing Unit) :
    run result fault r t = t.ends [trace result fault r] (ended (outcome r)) := by
  obtain ⟨header, calls, finish⟩ := r
  have h := body_eq finish (runAll_eq calls (t.opened header))
  rw [run_call, traced_eq (fun _ => header) result fault h, outcomeOf_ended, trace, outcome]

/-- Traced routines in order come to what they amount to without tracing. -/
theorem runAll_eq (calls : List (Bool × Routine ε α)) (t : Tracing Unit) :
    runAll result fault calls t = t.ends (traces result fault calls) (ended (outcomes calls)) := by
  match calls with
  | [] => rfl
  | (caught, r) :: rest =>
    have hrest := runAll_eq rest (t.added () [trace result fault r])
    rw [Tracing.added_ends] at hrest
    rw [runAll_cons, run_eq r t, outcomes, traces]
    cases outcome r with
    | ok a => exact hrest
    | error e =>
      -- only a fault that is caught lets the rest run
      cases caught with
      | false => rfl
      | true => exact hrest

end

end Routine

end Sexpr
