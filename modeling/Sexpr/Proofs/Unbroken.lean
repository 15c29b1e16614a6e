/-
The search never breaks off.

A search could break off on its own account, and not on that of the arguments: by going too
deep, by having no branch to follow, at a name that is no parameter's, or at a parameter with
more values than it takes. None of this ever happens.

* `Node.Visits` — the nodes that a search comes to, with the number of steps to them;
* `Node.Visits.sound` — all of them are sound, and within the depth that is allowed;
* `Node.Sound.exists_outcome` — weighing the branches of a sound node comes to an end;
* `matchArguments_answers` — matching gives an assignment, or says what is wrong with the
  parameters or the arguments.
-/
import Sexpr.Proofs.SearchTree

namespace Sexpr

variable {α : Type}

/-! ### Nodes that are visited -/

/-- The search comes from one node to another in so many steps. -/
inductive Node.Visits (params : List Parameter) (n : Node α) : Nat → Node α → Prop
  | start : n.Visits params 0 n
  | step {d : Nat} {m m' : Node α} {name : String} {nodes : List (Node α)}
      (h : n.Visits params d m) (hmove : m.move params = .branch name nodes) (hm : m' ∈ nodes) :
      n.Visits params (d + 1) m'

/-- What holds at the first node holds wherever the search comes to, and the steps to there
are paid for by the first node's weight. -/
theorem Node.Visits.sound {params : List Parameter} (hnodup : (params.map (·.name)).Nodup)
    {n m : Node α} {d : Nat} (hvisits : n.Visits params d m) (h : n.Sound params) :
    m.Sound params ∧ d + m.weight ≤ n.weight := by
  induction hvisits with
  | start => exact ⟨h, by omega⟩
  | step _ hmove hm ih =>
    obtain ⟨hsound, hdepth⟩ := ih
    obtain ⟨p, taken, values, hstep⟩ := Node.gives_of_mem hsound.place hmove hm
    have hlt := Node.weight_lt hmove hm
    exact ⟨hstep.sound hsound hnodup, by omega⟩

/-! ### Weighing -/

section Weighing

variable [BEq α]

theorem weigh_ne_none (name : String) (best : Option (Branch α)) (c : Branch α) :
    weigh name best c ≠ .inr none := by
  unfold weigh
  split
  · simp
  · split_ifs
    · simp
    · simp
  · simp
  · simp
  · simp
  · simp

/-- Weighing at least one branch comes to an end if each of them does. -/
theorem exists_outcomeAll_eq_ok {ts : List (SearchTree α)}
    (hts : ∀ t ∈ ts, ∃ b, t.outcome = .ok b) (name : String) {best : Option (Branch α)}
    (hne : best ≠ none ∨ ts ≠ []) : ∃ b, SearchTree.outcomeAll name best ts = .ok b := by
  induction ts generalizing best with
  | nil =>
    cases best with
    | none => exact absurd rfl (hne.resolve_right (by simp))
    | some b => exact ⟨b, rfl⟩
  | cons t ts ih =>
    obtain ⟨⟨c, hc⟩, hts⟩ := List.forall_mem_cons.1 hts
    rw [SearchTree.outcomeAll_cons hc]
    cases hweigh : weigh name best c with
    | inl stop => exact ⟨stop, rfl⟩
    | inr best' =>
      have hkept : best' ≠ none := by
        rintro rfl
        exact weigh_ne_none name best c hweigh
      exact ih hts (.inl hkept)

/-- From a sound node there is always a way to go on, so the search comes to an end. -/
theorem Node.Sound.exists_outcome {params : List Parameter}
    (hnodup : (params.map (·.name)).Nodup) {n : Node α} (h : n.Sound params) :
    ∃ b, (searchTree params n).outcome = .ok b := by
  refine Node.Sound.induction hnodup ?_ ?_ h
  · intro n b _ hmove
    rw [searchTree_eq, hmove]
    exact ⟨b, rfl⟩
  · intro n name nodes h hmove _ ih
    have hts : ∀ t ∈ nodes.map (searchTree params), ∃ b, t.outcome = .ok b := by
      rw [List.forall_mem_map]
      exact ih
    rw [searchTree_eq, hmove, Move.tree, SearchTree.outcome]
    exact exists_outcomeAll_eq_ok hts name (.inr (by simpa using h.nodes_ne_nil hmove))

/-! ### Matching -/

omit [BEq α] in
/-- An end is an assignment or a fault of the arguments. -/
theorem Branch.toResult_cases (b : Branch α) :
    (∃ r, b.toResult.mapError MatchFault.arguments = .ok r) ∨
      ∃ fault, b.toResult.mapError MatchFault.arguments = .error (.arguments fault) := by
  cases b.toResult with
  | ok r => exact .inl ⟨r, rfl⟩
  | error fault => exact .inr ⟨fault, rfl⟩

/-- Matching always gives an answer: an assignment, a fault of the arguments, or that two
parameters have one name. Wherever the search comes to, the parameters to come are the last
ones, every parameter has an entry with no more values than it takes, every name is that of a
parameter, and the depth is within the number of parameters and arguments. -/
theorem matchArguments_answers (params : List Parameter) (args : List (Argument α)) :
    ((∃ r, matchArguments params args = .ok r) ∨
      (∃ fault, matchArguments params args = .error (.arguments fault)) ∨
      ¬ (params.map (·.name)).Nodup ∧
        matchArguments params args = .error (.duplicateParameters (params.map (·.name)))) ∧
    ((params.map (·.name)).Nodup → unknownNames params args = [] → emptyNames args = [] →
      ∀ d m, (Node.start params args).Visits params d m →
        m.Sound params ∧ d + m.weight ≤ params.length + args.length) := by
  refine ⟨?_, fun hnodup hknown hfollowed d m hvisits =>
    hvisits.sound hnodup (Node.sound_start hknown hfollowed)⟩
  by_cases hnodup : (params.map (·.name)).Nodup
  · by_cases hknown : unknownNames params args = []
    · by_cases hfollowed : emptyNames args = []
      · obtain ⟨b, hb⟩ := (Node.sound_start hknown hfollowed).exists_outcome hnodup
        rw [matchArguments_eq hnodup hknown hfollowed, hb]
        rcases b.toResult_cases with hok | hfault
        · exact .inl hok
        · exact .inr (.inl hfault)
      · refine .inr (.inl ⟨.requiresValue (emptyNames args), ?_⟩)
        simp [matchArguments, hnodup, hknown, hfollowed]
    · refine .inr (.inl ⟨.unknown (unknownNames params args), ?_⟩)
      simp [matchArguments, hnodup, hknown]
  · exact .inr (.inr ⟨hnodup, by simp [matchArguments, hnodup]⟩)

/-- No smaller depth would do: the value is passed by, and then found to be one too many. -/
example : search [⟨.optional, "a"⟩] 3 (.positional [⟨.optional, "a"⟩]) [.value 1] [("a", [])] =
      .ok (.success [("a", [1])]) ∧
    search [⟨.optional, "a"⟩] 2 (.positional [⟨.optional, "a"⟩]) [.value 1] [("a", [])] =
      .error .tooDeep := by
  constructor <;> rfl

end Weighing

end Sexpr
