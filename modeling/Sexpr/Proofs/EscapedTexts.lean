/-
Texts that stand for themselves.

A text is searched from the left for marks of two kinds: an expression in braces after a
dollar sign, and two dollar signs. Both start alike, so a search that were one character
off would take the wrong ones. In a text whose dollar signs are all doubled the search
meets them pair by pair, whatever stands between and behind them.

* `MarkAt`, `SplitsInto` — the marks, and the search for them from the left;
* `textParts_eq_iff` — the parts of a text are what this search gives;
* `escapeDollars`, `splitsInto_escapeDollars` — doubled dollar signs are met pair by pair;
* `Evaluator.run_escapedText` — a text with its dollar signs doubled is evaluated to the
  text, and nothing in it is evaluated.
-/
import Mathlib.Tactic.SplitIfs
import Sexpr.Eval
import Sexpr.Proofs.Sequencing

namespace Sexpr

/-! ### Searching for marks -/

/-- A mark stands at the front of a text, with `rest` behind it. -/
inductive MarkAt : List Char → TextPart → List Char → Prop
  | code {source rest : List Char} (hne : source ≠ []) (hbrace : '}' ∉ source) :
      MarkAt ('$' :: '{' :: (source ++ '}' :: rest)) (.code source) rest
  | dollar {rest : List Char} : MarkAt ('$' :: '$' :: rest) (.char '$') rest

/-- The parts of a text that is searched from the left: behind a mark the search goes on,
and a character at which no mark stands is left as it is. -/
inductive SplitsInto : List Char → List TextPart → Prop
  | nil : SplitsInto [] []
  | mark {cs rest : List Char} {p : TextPart} {ps : List TextPart} (h : MarkAt cs p rest)
      (hrest : SplitsInto rest ps) : SplitsInto cs (p :: ps)
  | char {c : Char} {cs : List Char} {ps : List TextPart} (h : ∀ p rest, ¬MarkAt (c :: cs) p rest)
      (hcs : SplitsInto cs ps) : SplitsInto (c :: cs) (.char c :: ps)

theorem startsCode_iff {cs : List Char} :
    startsCode cs = true ↔
      ∃ source rest, source ≠ [] ∧ '}' ∉ source ∧ cs = source ++ '}' :: rest := by
  constructor
  · intro h
    cases cs with
    | nil => exact absurd h (by simp [startsCode])
    | cons c cs =>
      simp only [startsCode, Bool.and_eq_true, decide_eq_true_eq, List.contains_iff_mem] at h
      obtain ⟨source, rest, rfl, hbrace⟩ := List.eq_append_cons_of_mem h.2
      exact ⟨c :: source, rest, by simp, by simpa [hbrace, eq_comm] using h.1, rfl⟩
  · rintro ⟨source, rest, hne, hbrace, rfl⟩
    cases source with
    | nil => exact absurd rfl hne
    | cons c source =>
      have hc : c ≠ '}' := fun h => hbrace (by simp [h])
      simp [startsCode, hc]

/-- The source of an expression goes up to the first closing brace. -/
theorem textParts_source (before : List Char) {source : List Char} (hbrace : '}' ∉ source)
    (rest : List Char) :
    textParts (some before) (source ++ '}' :: rest) =
      .code (before.reverse ++ source) :: textParts none rest := by
  induction source generalizing before with
  | nil => simp [textParts]
  | cons c source ih =>
    rw [List.mem_cons, not_or] at hbrace
    rw [List.cons_append, textParts, if_neg (Ne.symm hbrace.1), ih (c :: before) hbrace.2]
    simp

theorem MarkAt.textParts_eq {cs rest : List Char} {p : TextPart} (h : MarkAt cs p rest) :
    textParts none cs = p :: textParts none rest := by
  cases h with
  | @code source _ hne hbrace =>
    have hstarts : startsCode (source ++ '}' :: rest) = true :=
      startsCode_iff.2 ⟨source, rest, hne, hbrace, rfl⟩
    rw [textParts, if_pos hstarts, textParts_source [] hbrace rest]
    rfl
  | dollar => rw [textParts]

/-- A character at which no mark stands is a part of its own. -/
theorem textParts_cons_of_not_markAt {c : Char} {cs : List Char}
    (h : ∀ p rest, ¬MarkAt (c :: cs) p rest) :
    textParts none (c :: cs) = .char c :: textParts none cs := by
  by_cases hc : c = '$'
  · subst hc
    cases cs with
    | nil => rfl
    | cons d cs =>
      by_cases hbrace : d = '{'
      · -- an opening brace that no source follows
        subst hbrace
        have hstarts : startsCode cs ≠ true := by
          intro hstarts
          obtain ⟨source, rest, hne, hbrace, rfl⟩ := startsCode_iff.1 hstarts
          exact h _ _ (.code hne hbrace)
        rw [textParts, if_neg hstarts, textParts]
        · simp
        · simp
      · have hdollar : d ≠ '$' := by
          rintro rfl
          exact h _ _ .dollar
        rw [textParts]
        · simpa using hbrace
        · simpa using hdollar
  · rw [textParts]
    · exact fun _ hdollar => absurd hdollar hc
    · exact fun _ hdollar => absurd hdollar hc

theorem MarkAt.head_eq {c : Char} {cs rest : List Char} {p : TextPart}
    (h : MarkAt (c :: cs) p rest) : c = '$' := by
  cases h with
  | code hne hbrace => rfl
  | dollar => rfl

theorem MarkAt.length_lt {cs rest : List Char} {p : TextPart} (h : MarkAt cs p rest) :
    rest.length < cs.length := by
  cases h with
  | code hne hbrace =>
    simp only [List.length_cons, List.length_append]
    omega
  | dollar =>
    simp only [List.length_cons]
    omega

theorem splitsInto_textParts (cs : List Char) : SplitsInto cs (textParts none cs) := by
  induction hn : cs.length using Nat.strongRecOn generalizing cs with
  | ind n ih =>
    subst hn
    by_cases h : ∃ p rest, MarkAt cs p rest
    · obtain ⟨p, rest, hmark⟩ := h
      rw [hmark.textParts_eq]
      exact .mark hmark (ih _ hmark.length_lt rest rfl)
    · cases cs with
      | nil => exact .nil
      | cons c cs =>
        have hnone : ∀ p rest, ¬MarkAt (c :: cs) p rest := fun p rest hmark => h ⟨p, rest, hmark⟩
        rw [textParts_cons_of_not_markAt hnone]
        exact .char hnone (ih _ (Nat.lt_succ_self _) cs rfl)

/-- The parts of a text are those that the search from the left gives. -/
theorem textParts_eq_iff {cs : List Char} {ps : List TextPart} :
    textParts none cs = ps ↔ SplitsInto cs ps := by
  constructor
  · rintro rfl
    exact splitsInto_textParts cs
  · intro h
    induction h with
    | nil => rfl
    | mark h hrest ih => rw [h.textParts_eq, ih]
    | char h hcs ih => rw [textParts_cons_of_not_markAt h, ih]

/-! ### Doubled dollar signs -/

/-- The characters of a text, with every dollar sign doubled. -/
def escapeDollars (cs : List Char) : List Char :=
  cs.flatMap fun c => if c = '$' then ['$', '$'] else [c]

theorem escapeDollars_cons (c : Char) (cs : List Char) :
    escapeDollars (c :: cs) = (if c = '$' then ['$', '$'] else [c]) ++ escapeDollars cs :=
  List.flatMap_cons

/-- Doubled dollar signs are met pair by pair, whatever text follows. -/
theorem splitsInto_escapeDollars {rest : List Char} {ps : List TextPart} (h : SplitsInto rest ps)
    (cs : List Char) : SplitsInto (escapeDollars cs ++ rest) (cs.map TextPart.char ++ ps) := by
  induction cs with
  | nil => exact h
  | cons c cs ih =>
    rw [escapeDollars_cons]
    split_ifs with hc
    · subst hc
      exact .mark .dollar ih
    · exact .char (fun _ _ hmark => hc hmark.head_eq) ih

/-- A text with all its dollar signs doubled. -/
def escapedText (s : String) : String := String.ofList (escapeDollars s.toList)

/-- Its parts are the characters of the text itself. -/
theorem interpolation_escapedText (s : String) :
    interpolation (escapedText s) = s.toList.map TextPart.char := by
  rw [interpolation, escapedText, String.toList_ofList, textParts_eq_iff]
  simpa using splitsInto_escapeDollars .nil s.toList

namespace Evaluator

/-- Characters are no reason to evaluate anything. -/
theorem evalParts_map_char (below : Expr → Eval Value) (cs : List Char) (env : Env) :
    evalParts below (cs.map TextPart.char) env = .ok cs env := by
  induction cs with
  | nil => rfl
  | cons c cs ih =>
    rw [List.map_cons, evalParts, EStateM.bind_of_ok ih]
    rfl

/-- A text with its dollar signs doubled is evaluated to the text, and the environment stays
as it is. No expression is found in it, so the result is the same however the expressions
below are evaluated. -/
theorem run_escapedText (w : Evaluator) (keep : Bool) (s : String) (span : Option TokenSpans)
    (env : Env) :
    w.run keep (.expr (.leaf (.string (escapedText s)) span)) env = .ok (.str s) env ∧
      (∀ below : Expr → Eval Value,
        w.step below keep (.leaf (.string (escapedText s)) span) env = .ok (.str s) env) ∧
      ∀ source, .code source ∉ interpolation (escapedText s) := by
  have hstep : ∀ below : Expr → Eval Value,
      w.step below keep (.leaf (.string (escapedText s)) span) env = .ok (.str s) env := by
    intro below
    have hparts := evalParts_map_char below s.toList env
    rw [← interpolation_escapedText] at hparts
    calc w.step below keep (.leaf (.string (escapedText s)) span) env
        = .ok (.str (String.ofList s.toList)) env := EStateM.bind_of_ok hparts
      _ = .ok (.str s) env := by rw [String.ofList_toList]
  refine ⟨hstep _, hstep, ?_⟩
  intro source hsource
  rw [interpolation_escapedText, List.mem_map] at hsource
  obtain ⟨c, -, hc⟩ := hsource
  cases hc

end Evaluator
end Sexpr
