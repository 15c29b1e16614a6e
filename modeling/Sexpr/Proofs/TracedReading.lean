/-
Reading with a trace reads the same.

Every production with a trace mirrors the one without: it reads the same, or fails with the
same fault, and leaves the cursor at the same place.

* `Scan.WithTrace.exprWithin_mirrors` — the productions of expressions;
* `Document.parseTraced_eq` — a whole text;
* `tracing_transparent` — tracing changes no outcome, and its lines are those of a tree of
  calls.
-/
import Sexpr.Proofs.CallTraces
import Sexpr.Reader.Traced

namespace Sexpr

namespace Scan

theorem untraced_mirrors {α : Type} (p : Scan α) : Mirrors (untraced p) p := by
  intro t
  refine ⟨[], ?_⟩
  unfold untraced
  cases p t.state <;> rfl

theorem tracedAs_mirrors {α : Type} (name : String) (inspect : α → String) (options : String)
    {p : TracedScan α} {q : Scan α} (h : Mirrors p q) :
    Mirrors (tracedAs name inspect p options) q :=
  h.traced _ _ _

namespace WithTrace

theorem layout_mirrors : Mirrors layout Scan.layout :=
  tracedAs_mirrors _ _ _ (untraced_mirrors _)

theorem tokenSpans_mirrors : Mirrors tokenSpans Scan.tokenSpans :=
  (untraced_mirrors capture).bind fun _ => layout_mirrors.bind fun _ => .pure _

theorem leafOf_mirrors (scan : List Char → Scanned Leaf) :
    Mirrors (leafOf scan) (Scan.leafOf scan) :=
  (untraced_mirrors _).bind fun _ => tokenSpans_mirrors.bind fun _ => .pure _

theorem name_mirrors : Mirrors name Scan.name := by
  refine tracedAs_mirrors _ _ _ ((untraced_mirrors _).bind fun token =>
    tokenSpans_mirrors.bind fun spans => ?_)
  cases nameLeaf token with
  | ok l => exact .pure _
  | error e => exact .throw e

/-! ### Brackets -/

/-- One item after the other, by induction on how many there may be. -/
theorem itemsUntil_mirrors {α : Type} (closing : Char) {item : TracedScan α} {item' : Scan α}
    (h : Mirrors item item') (fuel : Nat) :
    Mirrors (itemsUntil closing item fuel) (Scan.itemsUntil closing item' fuel) := by
  induction fuel with
  | zero => exact .throw _
  | succ fuel ih =>
    refine (untraced_mirrors peek).bind fun c => .ite (.pure _) (.ite (.throw _) ?_)
    refine h.bind fun x => (untraced_mirrors peek).bind fun c' => ?_
    -- whether or not there is a comma, the rest is read in the same way
    have hrest : Mirrors
        (do let separator ← tokenSpans
            return (x, separator) :: (← itemsUntil closing item fuel))
        (do let separator ← Scan.tokenSpans
            return (x, separator) :: (← Scan.itemsUntil closing item' fuel)) :=
      tokenSpans_mirrors.bind fun _ => ih.bind fun _ => .pure _
    exact .ite ((untraced_mirrors next).bind fun _ => hrest) hrest

theorem between_mirrors {α : Type} (opening closing : Char) {item : TracedScan α}
    {item' : Scan α} (h : Mirrors item item') :
    Mirrors (between opening closing item) (Scan.between opening closing item') := by
  refine (untraced_mirrors peek).bind fun c => .ite (.throw _) ?_
  refine (untraced_mirrors next).bind fun _ => tokenSpans_mirrors.bind fun _ => ?_
  refine (untraced_mirrors remaining).bind fun n => ?_
  refine (itemsUntil_mirrors closing h _).bind fun _ => (untraced_mirrors next).bind fun _ => ?_
  exact tokenSpans_mirrors.bind fun _ => .pure _

theorem keyOf_mirrors {expr : TracedScan Expr} {expr' : Scan Expr} (h : Mirrors expr expr') :
    Mirrors (keyOf expr) (Scan.keyOf expr') := by
  refine h.bind fun key => ?_
  cases colonKey? key with
  | some k => exact untraced_mirrors _
  | none =>
    refine (untraced_mirrors peek).bind fun c => .ite (.throw _) ?_
    exact (untraced_mirrors next).bind fun _ => tokenSpans_mirrors.bind fun _ => .pure _

theorem fieldOf_mirrors {expr : TracedScan Expr} {expr' : Scan Expr} (h : Mirrors expr expr') :
    Mirrors (fieldOf expr) (Scan.fieldOf expr') :=
  (keyOf_mirrors h).bind fun _ => h.bind fun _ => .pure _

theorem itemsOf_mirrors (name : String) (enclosure : Enclosure) (opening closing : Char)
    {expr : TracedScan Expr} {expr' : Scan Expr} (h : Mirrors expr expr') :
    Mirrors (itemsOf name enclosure opening closing expr)
      (Scan.itemsOf enclosure opening closing expr') :=
  tracedAs_mirrors _ _ _ ((between_mirrors opening closing h).bind fun _ => .pure _)

theorem mapOf_mirrors {expr : TracedScan Expr} {expr' : Scan Expr} (h : Mirrors expr expr') :
    Mirrors (mapOf expr) (Scan.mapOf expr') :=
  tracedAs_mirrors _ _ _ ((between_mirrors _ _ (fieldOf_mirrors h)).bind fun _ => .pure _)

/-! ### Expressions and documents -/

/-- One production inside the other, by induction on how deeply they may nest. -/
theorem exprWithin_mirrors (depth : Nat) :
    Mirrors (exprWithin depth) (Scan.exprWithin depth) := by
  induction depth with
  | zero => exact .throw _
  | succ depth ih =>
    refine tracedAs_mirrors _ _ _ (layout_mirrors.bind fun _ => ?_)
    refine (untraced_mirrors peek).bind fun c => .ite (.throw _) ?_
    refine .ite (itemsOf_mirrors _ _ _ _ ih) (.ite (itemsOf_mirrors _ _ _ _ ih) ?_)
    refine .ite (tracedAs_mirrors _ _ _ (leafOf_mirrors _)) ?_
    refine .ite (tracedAs_mirrors _ _ _ (leafOf_mirrors _)) ?_
    exact .ite (mapOf_mirrors ih) (.ite name_mirrors (.throw _))

theorem exprsUntilEnd_mirrors (fuel : Nat) :
    Mirrors (exprsUntilEnd fuel) (Scan.exprsUntilEnd fuel) := by
  induction fuel with
  | zero => exact .throw _
  | succ fuel ih =>
    refine (untraced_mirrors peek).bind fun c => .ite (.pure _) ?_
    refine Mirrors.bind ?_ fun _ => ih.bind fun _ => .pure _
    exact (untraced_mirrors remaining).bind fun n => exprWithin_mirrors (n + 1)

/-- The body of the call that reads a document. -/
theorem documentBody_mirrors (spans : Bool) :
    Mirrors
      (do let leading ← layout
          let es ← exprsUntilEnd ((← untraced remaining) + 1)
          let d : Document := ⟨es, some leading⟩
          return if spans then d else d.dropSpans)
      (do let d ← Scan.document
          return if spans then d else d.dropSpans) := by
  -- spans are dropped outside of `Scan.document` but inside of the traced call
  unfold Scan.document
  simp only [bind_assoc, pure_bind]
  refine layout_mirrors.bind fun _ => (untraced_mirrors remaining).bind fun n => ?_
  exact (exprsUntilEnd_mirrors (n + 1)).bind fun _ => .pure _

end WithTrace
end Scan

theorem Document.parse_eq_outcomeOf (src : String) (spans : Bool) :
    Document.parse src spans =
      outcomeOf ((do let d ← Scan.document
                     return if spans then d else d.dropSpans : Scan Document)
        (Cursor.ofText src.toList)) := by
  unfold Document.parse Document.readPlain Document.read
  cases hread : Scan.document (Cursor.ofText src.toList) with
  | ok d c =>
    rw [EStateM.bind_of_ok hread]
    cases spans <;> rfl
  | error e c =>
    rw [EStateM.bind_of_error hread]
    cases spans <;> rfl

/-- Nothing is printed before a text is read, so the call that reads it is the trace. -/
theorem Document.parseTraced_of_ends {src : String} {spans : Bool} {c : CallTrace}
    {r : EStateM.Result ReadFault Cursor Document}
    (h : Scan.WithTrace.document src spans (Tracing.start (Cursor.ofText src.toList)) =
      (Tracing.start (Cursor.ofText src.toList)).ends [c] r) :
    Document.parseTraced src spans = (outcomeOf r, c.lines 0) := by
  rw [Document.parseTraced, h]
  cases r <;>
    simp [Tracing.ends, Tracing.added, Tracing.start, CallTrace.linesAll_singleton, outcomeOf]

/-- Reading with a trace comes to what reading comes to, and its trace is one call. -/
theorem Document.parseTraced_eq (src : String) (spans : Bool) :
    ∃ calls, Document.parseTraced src spans = (Document.parse src spans,
      CallTrace.lines 0 (.call (Document.parseHeader src spans) calls
        (endingTexts Document.inspect ReadFault.message (Document.parse src spans)))) := by
  obtain ⟨calls, hbody⟩ := Scan.WithTrace.documentBody_mirrors spans
    ((Tracing.start (Cursor.ofText src.toList)).opened (Document.parseHeader src spans))
  have hcall := traced_eq (fun _ => Document.parseHeader src spans) Document.inspect
    ReadFault.message hbody
  refine ⟨calls, ?_⟩
  rw [Document.parse_eq_outcomeOf]
  exact Document.parseTraced_of_ends hcall

/-- Tracing is transparent and balanced. A traced tree of calls comes to what it amounts to
without tracing, leaves the depth as it was, breaks no balance, and prints exactly the lines
of the calls that it made, each with its own outcome. So reading with a trace comes to what
reading comes to, and prints the lines of one call. -/
theorem tracing_transparent :
    (∀ {ε α : Type} (result : α → String) (fault : ε → String) (r : Routine ε α)
      (t : Tracing Unit), ∃ t' : Tracing Unit,
        r.run result fault t = (match r.outcome with
          | .ok a => .ok a t'
          | .error e => .error e t') ∧
        t'.depth = t.depth ∧ t'.balanced = t.balanced ∧
        t'.lines = ((r.trace result fault).lines t.depth).reverse ++ t.lines) ∧
    ∀ (src : String) (spans : Bool), ∃ calls,
      Document.parseTraced src spans = (Document.parse src spans,
        CallTrace.lines 0 (.call (Document.parseHeader src spans) calls
          (endingTexts Document.inspect ReadFault.message (Document.parse src spans)))) := by
  refine ⟨fun result fault r t => ?_, Document.parseTraced_eq⟩
  refine ⟨t.added () [r.trace result fault], ?_, rfl, rfl, ?_⟩
  · rw [Routine.run_eq]
    cases r.outcome <;> rfl
  · rw [Tracing.added, CallTrace.linesAll_singleton]

end Sexpr
