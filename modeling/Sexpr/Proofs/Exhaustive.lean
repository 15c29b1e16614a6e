/-
Matching is exhaustive.

The search keeps one best end and breaks off at the first ambiguity. It loses nothing by
that: what it comes to depends on the ends of all its branches only.

* `Verdict` — what a list of ends comes to: the only assignment, an ambiguity, or the first of
  the gravest failures;
* `Verdict.kept_weigh` — weighing one more branch gives the verdict on one branch more;
* `Node.Sound.exists_verdict` — the search comes to the verdict on all ends;
* `matchArguments_iff_leaves` — so does the matching of arguments.
-/
import Sexpr.Proofs.Parts
import Sexpr.Proofs.SearchTree

namespace Sexpr

variable {α : Type}

/-! ### Verdicts -/

/-- The assignment of an end, if it is a success. -/
def Branch.result? : Branch α → Option (Assignment α)
  | .success result => some result
  | _ => none

/-- The assignments that are found, in their order. -/
def successes (leaves : List (Branch α)) : List (Assignment α) := leaves.filterMap Branch.result?

@[simp]
theorem successes_append (leaves leaves' : List (Branch α)) :
    successes (leaves ++ leaves') = successes leaves ++ successes leaves' :=
  List.filterMap_append

theorem mem_successes {leaves : List (Branch α)} {r : Assignment α} :
    r ∈ successes leaves ↔ .success r ∈ leaves := by
  rw [successes, List.mem_filterMap]
  constructor
  · rintro ⟨b, hb, hr⟩
    cases b with
    | success result => cases hr; exact hb
    | _ => cases hr
  · intro h
    exact ⟨_, h, rfl⟩

/-- The first of the gravest ends: those before it are less grave, those after it no graver. -/
def IsGravest (leaves : List (Branch α)) (b : Branch α) : Prop :=
  ∃ before after, leaves = before ++ b :: after ∧ (∀ x ∈ before, x.severity < b.severity) ∧
    ∀ x ∈ after, x.severity ≤ b.severity

theorem IsGravest.mem {leaves : List (Branch α)} {b : Branch α} (h : IsGravest leaves b) :
    b ∈ leaves := by
  obtain ⟨before, after, rfl, -, -⟩ := h
  simp

theorem IsGravest.severity_le {leaves : List (Branch α)} {b x : Branch α}
    (h : IsGravest leaves b) (hx : x ∈ leaves) : x.severity ≤ b.severity := by
  obtain ⟨before, after, rfl, hbefore, hafter⟩ := h
  rw [List.mem_append, List.mem_cons] at hx
  rcases hx with hx | rfl | hx
  · exact Nat.le_of_lt (hbefore x hx)
  · exact Nat.le_refl _
  · exact hafter x hx

/-- Of the gravest ends of two lists the graver one counts, of equals the first. -/
theorem IsGravest.append {seen new : List (Branch α)} {b c : Branch α} (hb : IsGravest seen b)
    (hc : IsGravest new c) :
    IsGravest (seen ++ new) (if b.severity < c.severity then c else b) := by
  split_ifs with hlt
  · obtain ⟨before, after, rfl, hbefore, hafter⟩ := hc
    refine ⟨seen ++ before, after, by simp, fun x hx => ?_, hafter⟩
    rcases List.mem_append.1 hx with hx | hx
    · exact Nat.lt_of_le_of_lt (hb.severity_le hx) hlt
    · exact hbefore x hx
  · obtain ⟨before, after, rfl, hbefore, hafter⟩ := hb
    refine ⟨before, after ++ new, by simp, hbefore, fun x hx => ?_⟩
    rcases List.mem_append.1 hx with hx | hx
    · exact hafter x hx
    · exact Nat.le_trans (hc.severity_le hx) (Nat.not_lt.1 hlt)

/-- All ends of the plain search for an assignment of the arguments, in their order. -/
def matchLeaves (params : List Parameter) (args : List (Argument α)) : List (Branch α) :=
  (searchTree params (Node.start params args)).leaves

section Verdict

variable [BEq α]

/-- What the ends of a search come to. -/
inductive Verdict (leaves : List (Branch α)) : Branch α → Prop
  /-- All assignments that are found are the same as the first one. -/
  | success {r : Assignment α} (hfirst : (successes leaves).head? = some r)
      (hall : ∀ r' ∈ successes leaves, (r' == r) = true) : Verdict leaves (.success r)
  /-- Two different assignments are found. -/
  | ambiguous {name : String} {r r' : Assignment α} (h : r ∈ successes leaves)
      (h' : r' ∈ successes leaves) (hne : (r == r') = false) : Verdict leaves (.ambiguous name)
  /-- No assignment is found. -/
  | failure {b : Branch α} (hnone : successes leaves = []) (hb : ∀ name, b ≠ .ambiguous name)
      (hgravest : IsGravest leaves b) : Verdict leaves b

/-- Assignments that equality divides into classes. -/
structure Comparable (rs : List (Assignment α)) : Prop where
  refl : ∀ a ∈ rs, (a == a) = true
  symm : ∀ a ∈ rs, ∀ b ∈ rs, (a == b) = true → (b == a) = true
  trans : ∀ a ∈ rs, ∀ b ∈ rs, ∀ c ∈ rs, (a == b) = true → (b == c) = true → (a == c) = true

theorem Comparable.mono {rs rs' : List (Assignment α)} (h : Comparable rs') (hsub : rs ⊆ rs') :
    Comparable rs :=
  ⟨fun a ha => h.refl a (hsub ha), fun a ha b hb => h.symm a (hsub ha) b (hsub hb),
    fun a ha b hb c hc => h.trans a (hsub ha) b (hsub hb) c (hsub hc)⟩

/-- Assignments that are the same only if they are equal. -/
theorem comparable_of_eq [ReflBEq α] {rs : List (Assignment α)}
    (h : ∀ a ∈ rs, ∀ b ∈ rs, (a == b) = true → a = b) : Comparable rs where
  refl := fun _ _ => BEq.rfl
  symm := by
    intro a ha b hb hab
    rw [h a ha b hb hab]
    exact BEq.rfl
  trans := by
    intro a ha b hb c _ hab hbc
    rwa [h a ha b hb hab]

/-- An ambiguity stays one, whatever else is found. -/
theorem Verdict.of_ambiguous {leaves : List (Branch α)} {name : String}
    (h : Verdict leaves (.ambiguous name)) {all : List (Branch α)} (hsub : leaves ⊆ all)
    (name' : String) : Verdict all (.ambiguous name') := by
  have hmem : ∀ r, r ∈ successes leaves → r ∈ successes all := fun r hr =>
    mem_successes.2 (hsub (mem_successes.1 hr))
  cases h with
  | ambiguous h h' hne => exact .ambiguous (hmem _ h) (hmem _ h') hne
  | failure hnone hb hgravest => exact absurd rfl (hb name)

theorem Verdict.head_of_success {leaves : List (Branch α)} {r : Assignment α}
    (h : Verdict leaves (.success r)) : (successes leaves).head? = some r ∧
      ∀ r' ∈ successes leaves, (r' == r) = true := by
  cases h with
  | success hfirst hall => exact ⟨hfirst, hall⟩
  | failure hnone hb hgravest =>
    have hmem := mem_successes.2 hgravest.mem
    rw [hnone] at hmem
    exact absurd hmem (by simp)

theorem Verdict.gravest_of_failure {leaves : List (Branch α)} {b : Branch α}
    (h : Verdict leaves b) (hb : ∀ name, b ≠ .ambiguous name) (hr : ∀ r, b ≠ .success r) :
    successes leaves = [] ∧ IsGravest leaves b := by
  cases h with
  | success => exact absurd rfl (hr _)
  | ambiguous => exact absurd rfl (hb _)
  | failure hnone hb hgravest => exact ⟨hnone, hgravest⟩

/-- The best end so far is the verdict on the ends seen, and no ambiguity. -/
def Best (seen : List (Branch α)) : Option (Branch α) → Prop
  | none => seen = []
  | some b => (∀ name, b ≠ .ambiguous name) ∧ Verdict seen b

/-- What the search keeps after weighing: it stops at an ambiguity, and else goes on with the
best end. -/
def Kept (seen : List (Branch α)) : Branch α ⊕ Option (Branch α) → Prop
  | .inl stop => ∃ name, stop = .ambiguous name ∧ Verdict seen stop
  | .inr best => best ≠ none ∧ Best seen best

omit [BEq α] in
/-- An end is an assignment, an ambiguity, or a failure. -/
theorem Branch.success_or_ambiguous_or (b : Branch α) :
    (∃ r, b = .success r) ∨ (∃ name, b = .ambiguous name) ∨
      (∀ r, b ≠ .success r) ∧ ∀ name, b ≠ .ambiguous name := by
  cases b with
  | success r => exact .inl ⟨r, rfl⟩
  | ambiguous name => exact .inr (.inl ⟨name, rfl⟩)
  | _ => exact .inr (.inr ⟨by simp, by simp⟩)

theorem weigh_ambiguous (name : String) (best : Option (Branch α)) (name' : String) :
    weigh name best (.ambiguous name') = .inl (.ambiguous name') := by
  cases best with
  | none => rfl
  | some b => cases b <;> rfl

theorem weigh_failure_success (name : String) {b : Branch α} (hb : ∀ r, b ≠ .success r)
    (r : Assignment α) : weigh name (some b) (.success r) = .inr (some (.success r)) := by
  cases b with
  | success r' => exact absurd rfl (hb r')
  | _ => rfl

theorem weigh_success_failure (name : String) (r : Assignment α) {c : Branch α}
    (hc : ∀ r, c ≠ .success r) (hamb : ∀ name, c ≠ .ambiguous name) :
    weigh name (some (.success r)) c = .inr (some (.success r)) := by
  cases c with
  | success r' => exact absurd rfl (hc r')
  | ambiguous name' => exact absurd rfl (hamb name')
  | _ => rfl

theorem weigh_failures (name : String) {b c : Branch α} (hb : ∀ r, b ≠ .success r)
    (hc : ∀ r, c ≠ .success r) (hamb : ∀ name, c ≠ .ambiguous name) :
    weigh name (some b) c = .inr (some (if b.severity < c.severity then c else b)) := by
  cases c with
  | success r' => exact absurd rfl (hc r')
  | ambiguous name' => exact absurd rfl (hamb name')
  | _ =>
    cases b with
    | success r => exact absurd rfl (hb r)
    | _ => rfl

/-- Two assignments are one if they are the same, and else an ambiguity. -/
theorem Verdict.kept_weigh_success {seen new : List (Branch α)} {r r' : Assignment α}
    (hcomp : Comparable (successes (seen ++ new))) (hr : Verdict seen (.success r))
    (hr' : Verdict new (.success r')) (name : String) :
    Kept (seen ++ new) (weigh name (some (.success r)) (.success r')) := by
  obtain ⟨hfirst, hall⟩ := hr.head_of_success
  obtain ⟨hfirst', hall'⟩ := hr'.head_of_success
  rw [successes_append] at hcomp
  have hmem : r ∈ successes seen ++ successes new :=
    List.mem_append_left _ (List.mem_of_head? hfirst)
  have hmem' : r' ∈ successes seen ++ successes new :=
    List.mem_append_right _ (List.mem_of_head? hfirst')
  show Kept _ (if (r' == r) = true then _ else _)
  split_ifs with heq
  · -- every new assignment is the same as the first new one, and that the same as the old
    refine ⟨by simp, by simp, .success ?_ fun x hx => ?_⟩
    · rw [successes_append, List.head?_append, hfirst, Option.some_or]
    · rw [successes_append, List.mem_append] at hx
      rcases hx with hx | hx
      · exact hall x hx
      · exact hcomp.trans x (List.mem_append_right _ hx) r' hmem' r hmem (hall' x hx) heq
  · rw [← successes_append] at hmem hmem'
    exact ⟨name, rfl, .ambiguous hmem' hmem (by simpa using heq)⟩

/-- Weighing one more branch gives the verdict on all ends seen. -/
theorem Verdict.kept_weigh {seen new : List (Branch α)} {b c : Branch α}
    (hcomp : Comparable (successes (seen ++ new))) (hb : Verdict seen b)
    (hne : ∀ name, b ≠ .ambiguous name) (hc : Verdict new c) (name : String) :
    Kept (seen ++ new) (weigh name (some b) c) := by
  rcases c.success_or_ambiguous_or with ⟨r', rfl⟩ | ⟨name', rfl⟩ | ⟨hnew, hamb⟩
  · by_cases hsucc : ∃ r, b = .success r
    · obtain ⟨r, rfl⟩ := hsucc
      exact hb.kept_weigh_success hcomp hc name
    · rw [not_exists] at hsucc
      obtain ⟨hnone, -⟩ := hb.gravest_of_failure hne hsucc
      obtain ⟨hfirst', hall'⟩ := hc.head_of_success
      rw [weigh_failure_success name hsucc]
      refine ⟨by simp, by simp, .success ?_ fun x hx => hall' x ?_⟩
      · rw [successes_append, hnone, List.nil_append, hfirst']
      · simpa [hnone] using hx
  · rw [weigh_ambiguous]
    exact ⟨name', rfl, hc.of_ambiguous (List.subset_append_right _ _) name'⟩
  · obtain ⟨hnone', hgravest'⟩ := hc.gravest_of_failure hamb hnew
    by_cases hsucc : ∃ r, b = .success r
    · obtain ⟨r, rfl⟩ := hsucc
      obtain ⟨hfirst, hall⟩ := hb.head_of_success
      rw [weigh_success_failure name r hnew hamb]
      refine ⟨by simp, hne, .success ?_ fun x hx => hall x ?_⟩
      · rw [successes_append, hnone', List.append_nil, hfirst]
      · simpa [hnone'] using hx
    · rw [not_exists] at hsucc
      obtain ⟨hnone, hgravest⟩ := hb.gravest_of_failure hne hsucc
      rw [weigh_failures name hsucc hnew hamb]
      have hboth : ∀ name, (if b.severity < c.severity then c else b) ≠ .ambiguous name := by
        intro name'
        split_ifs
        · exact hamb name'
        · exact hne name'
      exact ⟨by simp, hboth,
        .failure (by simp [hnone, hnone']) hboth (hgravest.append hgravest')⟩

/-- Weighing one more branch against the best end so far. -/
theorem Best.kept_weigh {seen new : List (Branch α)} {best : Option (Branch α)} {c : Branch α}
    (hcomp : Comparable (successes (seen ++ new))) (hbest : Best seen best) (hc : Verdict new c)
    (name : String) : Kept (seen ++ new) (weigh name best c) := by
  cases best with
  | some b => exact hbest.2.kept_weigh hcomp hbest.1 hc name
  | none =>
    -- the first branch has nothing to be weighed against
    obtain rfl : seen = [] := hbest
    rw [List.nil_append]
    cases c with
    | ambiguous name' => exact ⟨name', rfl, hc⟩
    | _ => exact ⟨by simp, by simp, hc⟩

/-! ### The search -/

/-- Weighing branches one after the other comes to the verdict on all of their ends. -/
theorem exists_outcomeAll {ts : List (SearchTree α)} {seen : List (Branch α)}
    (hcomp : Comparable (successes (seen ++ ts.flatMap SearchTree.leaves)))
    (hts : ∀ t ∈ ts, ∃ b, t.outcome = .ok b ∧ Verdict t.leaves b) (name : String)
    {best : Option (Branch α)} (hbest : Best seen best) (hne : best ≠ none ∨ ts ≠ []) :
    ∃ c, SearchTree.outcomeAll name best ts = .ok c ∧
      Verdict (seen ++ ts.flatMap SearchTree.leaves) c := by
  induction ts generalizing seen best with
  | nil =>
    cases best with
    | none => exact absurd rfl (hne.resolve_right (by simp))
    | some b => exact ⟨b, rfl, by simpa using hbest.2⟩
  | cons t ts ih =>
    obtain ⟨⟨c, hc, hverdict⟩, hts⟩ := List.forall_mem_cons.1 hts
    rw [List.flatMap_cons, ← List.append_assoc] at hcomp ⊢
    have hkept : Kept (seen ++ t.leaves) (weigh name best c) := by
      refine hbest.kept_weigh (hcomp.mono fun r hr => ?_) hverdict name
      rw [successes_append]
      exact List.mem_append_left _ hr
    rw [SearchTree.outcomeAll_cons hc]
    cases hweigh : weigh name best c with
    | inl stop =>
      -- the branches that are left out cannot undo an ambiguity
      rw [hweigh] at hkept
      obtain ⟨name', rfl, hstop⟩ := hkept
      exact ⟨_, rfl, hstop.of_ambiguous (List.subset_append_left _ _) name'⟩
    | inr best' =>
      rw [hweigh] at hkept
      exact ih hcomp hts hkept.2 (.inl hkept.1)

omit [BEq α] in
theorem Node.finish_ne_ambiguous {params : List Parameter} {n : Node α} {b : Branch α}
    (h : n.move params = .finish b) (name : String) : b ≠ .ambiguous name := by
  rcases Node.finish_cases h with ⟨-, rfl⟩ | ⟨v, outOfOrder, rfl⟩ | ⟨name', extra, duplicate, rfl⟩
  · rcases ending_cases params n.result with hend | ⟨names, hend⟩
    · simp [hend]
    · simp [hend]
  · simp
  · simp

/-- One end is its own verdict. -/
theorem verdict_singleton {b : Branch α} (hcomp : Comparable (successes [b]))
    (hb : ∀ name, b ≠ .ambiguous name) : Verdict [b] b := by
  have hgravest : IsGravest [b] b := ⟨[], [], rfl, by simp, by simp⟩
  cases b with
  | success r =>
    have hone : successes [Branch.success r] = [r] := rfl
    refine .success (by simp [hone]) fun r' hr' => ?_
    rw [hone, List.mem_singleton] at hr'
    subst hr'
    exact hcomp.refl r' (by simp [hone])
  | ambiguous name => exact absurd rfl (hb name)
  | _ => exact .failure rfl hb hgravest

/-- From a sound node the search comes to the verdict on all of its ends. -/
theorem Node.Sound.exists_verdict {params : List Parameter} (hnodup : (params.map (·.name)).Nodup)
    {n : Node α} (h : n.Sound params)
    (hcomp : Comparable (successes (searchTree params n).leaves)) :
    ∃ b, (searchTree params n).outcome = .ok b ∧ Verdict (searchTree params n).leaves b := by
  revert hcomp
  refine Node.Sound.induction hnodup ?_ ?_ h
  · intro n b h hmove hcomp
    rw [leaves_finish hmove] at hcomp ⊢
    rw [searchTree_eq, hmove]
    exact ⟨b, rfl, verdict_singleton hcomp (Node.finish_ne_ambiguous hmove)⟩
  · intro n name nodes h hmove _ ih hcomp
    have hts : ∀ t ∈ nodes.map (searchTree params),
        ∃ b, t.outcome = .ok b ∧ Verdict t.leaves b := by
      intro t ht
      obtain ⟨m, hm, rfl⟩ := List.mem_map.1 ht
      refine ih m hm (hcomp.mono fun r hr => ?_)
      rw [mem_successes] at hr ⊢
      exact (mem_leaves_branch hmove).2 ⟨m, hm, hr⟩
    rw [searchTree_eq, hmove, Move.tree, SearchTree.leaves,
      SearchTree.leavesAll_eq_flatMap] at hcomp ⊢
    have hbest : Best ([] : List (Branch α)) none := rfl
    exact exists_outcomeAll hcomp hts name hbest (.inr (by simpa using h.nodes_ne_nil hmove))

/-! ### Matching -/

omit [BEq α] in
theorem Branch.toResult_eq_ok {b : Branch α} {r : Assignment α} :
    b.toResult.mapError MatchFault.arguments = .ok r ↔ b = .success r := by
  cases b <;> simp [Branch.toResult, Except.mapError]

omit [BEq α] in
theorem Branch.toResult_eq_ambiguous {b : Branch α} {name : String} :
    b.toResult.mapError MatchFault.arguments =
        .error (.arguments (.ambiguous (some name) none ArgumentFault.ambiguousDetails)) ↔
      b = .ambiguous name := by
  cases b with
  | tooMany name' extra duplicate =>
    cases duplicate <;> simp [Branch.toResult, Except.mapError]
  | positionalAmongNamed v outOfOrder =>
    cases outOfOrder <;> simp [Branch.toResult, Except.mapError]
  | _ => simp [Branch.toResult, Except.mapError]

/-- Matching comes to the verdict on all ends of the search. -/
theorem exists_verdict_matchArguments {params : List Parameter} {args : List (Argument α)}
    (hnodup : (params.map (·.name)).Nodup) (hknown : unknownNames params args = [])
    (hfollowed : emptyNames args = []) (hcomp : Comparable (successes (matchLeaves params args))) :
    ∃ b, Verdict (matchLeaves params args) b ∧
      matchArguments params args = b.toResult.mapError MatchFault.arguments := by
  obtain ⟨b, hb, hverdict⟩ :=
    (Node.sound_start hknown hfollowed).exists_verdict hnodup hcomp
  refine ⟨b, hverdict, ?_⟩
  rw [matchArguments_eq hnodup hknown hfollowed, hb]

instance partialEquivBEq_list {β : Type} [BEq β] [PartialEquivBEq β] : PartialEquivBEq (List β) where
  symm {as bs} h := by
    induction as generalizing bs with
    | nil => cases bs <;> simp_all
    | cons a as ih =>
      cases bs with
      | nil => simp at h
      | cons b bs =>
        rw [List.cons_beq_cons, Bool.and_eq_true] at h ⊢
        exact ⟨BEq.symm h.1, ih h.2⟩
  trans {as bs cs} h h' := by
    induction as generalizing bs cs with
    | nil => cases bs <;> simp_all
    | cons a as ih =>
      cases bs with
      | nil => simp at h
      | cons b bs =>
        cases cs with
        | nil => simp at h'
        | cons c cs =>
          rw [List.cons_beq_cons, Bool.and_eq_true] at h h' ⊢
          exact ⟨BEq.trans h.1 h'.1, ih h.2 h'.2⟩

instance partialEquivBEq_prod {β γ : Type} [BEq β] [PartialEquivBEq β] [BEq γ]
    [PartialEquivBEq γ] : PartialEquivBEq (β × γ) where
  symm {p q} h := by
    obtain ⟨h₁, h₂⟩ := Bool.and_eq_true_iff.1 h
    exact Bool.and_eq_true_iff.2 ⟨BEq.symm h₁, BEq.symm h₂⟩
  trans {p q r} h h' := by
    obtain ⟨h₁, h₂⟩ := Bool.and_eq_true_iff.1 h
    obtain ⟨h₁', h₂'⟩ := Bool.and_eq_true_iff.1 h'
    exact Bool.and_eq_true_iff.2 ⟨BEq.trans h₁ h₁', BEq.trans h₂ h₂'⟩

/-- Where equality divides values into classes, it does so with assignments. -/
theorem comparable_of_equivBEq [EquivBEq α] (rs : List (Assignment α)) : Comparable rs :=
  ⟨fun _ _ => BEq.rfl, fun _ _ _ _ => BEq.symm, fun _ _ _ _ _ _ => BEq.trans⟩

/-- Matching computes what exhaustive search computes. It gives an assignment if the plain
search finds one, and finds no other; it reports an ambiguity if the search finds two that
differ; and if it finds none, it reports the first of the gravest failures. -/
theorem matchArguments_iff_leaves [EquivBEq α] {params : List Parameter}
    {args : List (Argument α)} (hnodup : (params.map (·.name)).Nodup)
    (hknown : unknownNames params args = []) (hfollowed : emptyNames args = []) :
    (∀ r, matchArguments params args = .ok r ↔
      (successes (matchLeaves params args)).head? = some r ∧
        ∀ r' ∈ successes (matchLeaves params args), (r' == r) = true) ∧
    ((∃ name, matchArguments params args =
        .error (.arguments (.ambiguous (some name) none ArgumentFault.ambiguousDetails))) ↔
      ∃ r ∈ successes (matchLeaves params args), ∃ r' ∈ successes (matchLeaves params args),
        (r == r') = false) ∧
    (successes (matchLeaves params args) = [] →
      ∃ b, IsGravest (matchLeaves params args) b ∧
        matchArguments params args = b.toResult.mapError MatchFault.arguments) := by
  obtain ⟨b, hverdict, hmatch⟩ :=
    exists_verdict_matchArguments hnodup hknown hfollowed (comparable_of_equivBEq _)
  rw [hmatch]
  simp only [Branch.toResult_eq_ok, Branch.toResult_eq_ambiguous]
  generalize matchLeaves params args = leaves at hverdict
  cases hverdict with
  | @success r hfirst hall =>
    refine ⟨fun r' => ?_, ?_, fun hnone => ?_⟩
    · rw [hfirst, Option.some_inj, Branch.success.injEq]
      constructor
      · rintro rfl
        exact ⟨rfl, hall⟩
      · exact fun h => h.1
    · constructor
      · rintro ⟨name, h⟩
        cases h
      · -- both are the same as the first one, hence the same
        rintro ⟨x, hx, y, hy, hne⟩
        have hsame : (x == y) = true := BEq.trans (hall x hx) (BEq.symm (hall y hy))
        rw [hsame] at hne
        exact absurd hne (by simp)
    · rw [hnone] at hfirst
      exact absurd hfirst (by simp)
  | @ambiguous name r r' h h' hne =>
    refine ⟨fun x => ?_, ?_, fun hnone => ?_⟩
    · constructor
      · intro hx
        cases hx
      · rintro ⟨-, hall⟩
        have hsame : (r == r') = true := BEq.trans (hall r h) (BEq.symm (hall r' h'))
        rw [hsame] at hne
        exact absurd hne (by simp)
    · exact ⟨fun _ => ⟨r, h, r', h', hne⟩, fun _ => ⟨name, rfl⟩⟩
    · rw [hnone] at h
      exact absurd h (by simp)
  | failure hnone hb hgravest =>
    refine ⟨fun r => ?_, ?_, fun _ => ⟨b, hgravest, rfl⟩⟩
    · constructor
      · rintro rfl
        have hmem := mem_successes.2 hgravest.mem
        rw [hnone] at hmem
        exact absurd hmem (by simp)
      · rintro ⟨hfirst, -⟩
        rw [hnone] at hfirst
        exact absurd hfirst (by simp)
    · constructor
      · rintro ⟨name, h⟩
        exact absurd h (hb name)
      · rintro ⟨r, hr, -⟩
        rw [hnone] at hr
        exact absurd hr (by simp)

/-- Two lists after a required parameter can share the expressions of a group in more than one
way, and a single expression leaves them nothing to share. -/
theorem matchArguments_iff_leaves_lists :
    (∃ r ∈ successes (matchLeaves [⟨.required, "a"⟩, ⟨.zeroOrMore, "b"⟩, ⟨.zeroOrMore, "c"⟩]
        [.value (Expr.leaf (.int 1) none), .value (.leaf (.atom "x") none)]),
      ∃ r' ∈ successes (matchLeaves [⟨.required, "a"⟩, ⟨.zeroOrMore, "b"⟩, ⟨.zeroOrMore, "c"⟩]
        [.value (Expr.leaf (.int 1) none), .value (.leaf (.atom "x") none)]), (r == r') = false) ∧
    ∀ r ∈ successes (matchLeaves [⟨.required, "a"⟩, ⟨.zeroOrMore, "b"⟩, ⟨.zeroOrMore, "c"⟩]
        [.value (Expr.leaf (.int 1) none)]),
      (r == [("a", [.leaf (.int 1) none]), ("b", []), ("c", [])]) = true :=
  ⟨(matchArguments_iff_leaves (by decide) (by decide) (by decide)).2.1.1 ⟨"b", rfl⟩,
    (((matchArguments_iff_leaves (by decide) (by decide) (by decide)).1 _).1 rfl).2⟩

end Verdict

end Sexpr
