/-
Arguments are matched if one assignment of them is found, and no other.

Where every parameter takes one value or any number of them, assignments that are the same are
equal, so matching succeeds if the search ends in one assignment only. What it ends in does not
depend on the values.

* `matchLeaves_map` — the ends of the search with other values;
* `matchArguments_eq_ok_iff` — one assignment is found;
* `matchArguments_map_eq_ok_iff` — other values are matched in the same way;
* `exists_arguments_fault` — all other ways to fail are faults of the arguments.
-/
import Sexpr.Proofs.Relabelling

namespace Sexpr

variable {α β : Type}

/-! ### Other values -/

/-- The ends of a search with other values. -/
theorem Node.Sound.leaves_map {params : List Parameter} (hnodup : (params.map (·.name)).Nodup)
    (f : α → β) {n : Node α} (h : n.Sound params) :
    (searchTree params (n.map f)).leaves = (searchTree params n).leaves.map (Branch.map f) := by
  refine Node.Sound.induction hnodup ?_ ?_ h
  · intro n b _ hmove
    have hmap : (n.map f).move params = .finish (b.map f) := by
      rw [Node.move_map, hmove]
      rfl
    rw [leaves_finish hmap, leaves_finish hmove]
    rfl
  · intro n name nodes _ hmove _ ih
    rw [searchTree_eq, Node.move_map, searchTree_eq params n, hmove]
    simp only [Move.map, Move.tree, SearchTree.leaves, SearchTree.leavesAll_eq_flatMap,
      List.flatMap_map, List.map_flatMap]
    exact List.flatMap_congr ih

/-- The ends of the search for a match with other values. -/
theorem matchLeaves_map {params : List Parameter} (hnodup : (params.map (·.name)).Nodup)
    {args : List (Argument α)} (hknown : unknownNames params args = [])
    (hfollowed : emptyNames args = []) (f : α → β) :
    matchLeaves params (args.map (Argument.map f)) =
      (matchLeaves params args).map (Branch.map f) := by
  have hstart : Node.start params (args.map (Argument.map f)) =
      (Node.start params args).map f := by
    rw [Node.start, Node.map, Node.start, Assignment.empty_mapValues]
  rw [matchLeaves, hstart, (Node.sound_start hknown hfollowed).leaves_map hnodup f, matchLeaves]

theorem mem_map_success {leaves : List (Branch α)} {f : α → β} {r : Assignment β} :
    .success r ∈ leaves.map (Branch.map f) ↔ ∃ r', .success r' ∈ leaves ∧ r = r'.mapValues f := by
  rw [List.mem_map]
  constructor
  · rintro ⟨b, hb, hr⟩
    cases b with
    | success r' => exact ⟨r', hb, (Branch.success.inj hr).symm⟩
    | _ => cases hr
  · rintro ⟨r', hr', rfl⟩
    exact ⟨_, hr', rfl⟩

/-! ### One assignment or two -/

section Match

variable [BEq α] [ReflBEq α] {params : List Parameter} (hnodup : (params.map (·.name)).Nodup)
  (hsimple : ∀ p ∈ params, p.arity.IsSimple) {args : List (Argument α)}
  (hknown : unknownNames params args = []) (hfollowed : emptyNames args = [])

include hnodup hsimple hknown hfollowed

omit [ReflBEq α] in
/-- Two assignments that the search finds are equal if they are the same. -/
theorem eq_of_beq_of_mem_matchLeaves {r r' : Assignment α}
    (hr : .success r ∈ matchLeaves params args) (hr' : .success r' ∈ matchLeaves params args)
    (hbeq : (r == r') = true) : r = r' :=
  (Node.sound_start hknown hfollowed).eq_of_lengths hnodup hsimple hr hr' fun p _ =>
    Assignment.length_getD_of_beq hbeq p.name

theorem exists_verdict_of_isSimple :
    ∃ b, Verdict (matchLeaves params args) b ∧
      matchArguments params args = b.toResult.mapError MatchFault.arguments := by
  refine exists_verdict_matchArguments hnodup hknown hfollowed (comparable_of_eq ?_)
  intro r hr r' hr' hbeq
  exact eq_of_beq_of_mem_matchLeaves hnodup hsimple hknown hfollowed (mem_successes.1 hr)
    (mem_successes.1 hr') hbeq

/-- Arguments are matched by the only assignment that is found. -/
theorem matchArguments_eq_ok_iff {r : Assignment α} :
    matchArguments params args = .ok r ↔ .success r ∈ matchLeaves params args ∧
      ∀ r', .success r' ∈ matchLeaves params args → r' = r := by
  obtain ⟨b, hverdict, hmatch⟩ := exists_verdict_of_isSimple hnodup hsimple hknown hfollowed
  rw [hmatch, Branch.toResult_eq_ok]
  constructor
  · rintro rfl
    obtain ⟨hfirst, hall⟩ := hverdict.head_of_success
    have hr := mem_successes.1 (List.mem_of_head? hfirst)
    refine ⟨hr, fun r' hr' => ?_⟩
    exact eq_of_beq_of_mem_matchLeaves hnodup hsimple hknown hfollowed hr' hr
      (hall r' (mem_successes.2 hr'))
  · rintro ⟨hr, hunique⟩
    cases hverdict with
    | success hfirst _ =>
      rw [hunique _ (mem_successes.1 (List.mem_of_head? hfirst))]
    | ambiguous h h' hne =>
      rw [hunique _ (mem_successes.1 h), hunique _ (mem_successes.1 h'), BEq.rfl] at hne
      cases hne
    | failure hnone _ _ =>
      have hmem := mem_successes.2 hr
      rw [hnone] at hmem
      cases hmem

omit hknown hfollowed in
/-- Arguments that cannot be matched are at fault themselves. -/
theorem exists_arguments_fault (h : ∀ r, matchArguments params args ≠ .ok r) :
    ∃ fault, matchArguments params args = .error (.arguments fault) := by
  by_cases hknown : unknownNames params args = []
  · by_cases hfollowed : emptyNames args = []
    · obtain ⟨b, -, hmatch⟩ := exists_verdict_of_isSimple hnodup hsimple hknown hfollowed
      cases hresult : b.toResult with
      | ok r => exact absurd (by rw [hmatch, hresult]; rfl) (h r)
      | error fault => exact ⟨fault, by rw [hmatch, hresult]; rfl⟩
    · exact ⟨.requiresValue (emptyNames args), by
        simp [matchArguments, hnodup, hknown, hfollowed]⟩
  · exact ⟨.unknown (unknownNames params args), by simp [matchArguments, hnodup, hknown]⟩

end Match

/-- Other values are matched in the same way. -/
theorem matchArguments_map_eq_ok_iff [BEq α] [ReflBEq α] [BEq β] [ReflBEq β]
    {params : List Parameter} (hnodup : (params.map (·.name)).Nodup)
    (hsimple : ∀ p ∈ params, p.arity.IsSimple) {args : List (Argument α)} {f : α → β}
    {r : Assignment β} : matchArguments params (args.map (Argument.map f)) = .ok r ↔
      ∃ r', matchArguments params args = .ok r' ∧ r = r'.mapValues f := by
  by_cases hchecks : unknownNames params args = [] ∧ emptyNames args = []
  · obtain ⟨hknown, hfollowed⟩ := hchecks
    simp only [matchArguments_eq_ok_iff hnodup hsimple hknown hfollowed,
      matchArguments_eq_ok_iff hnodup hsimple ((unknownNames_map params f args).trans hknown)
        ((emptyNames_map f args).trans hfollowed),
      matchLeaves_map hnodup hknown hfollowed, mem_map_success]
    constructor
    · rintro ⟨⟨r', hr', rfl⟩, hunique⟩
      refine ⟨r', ⟨hr', fun r'' hr'' => ?_⟩, rfl⟩
      -- assignments that differ give some parameter another number of values, whatever the values
      refine (Node.sound_start hknown hfollowed).eq_of_lengths hnodup hsimple hr'' hr' fun p _ => ?_
      have hsame := congrArg (fun r => (Assignment.getD r p.name).length) (hunique _ ⟨r'', hr'', rfl⟩)
      simpa using hsame
    · rintro ⟨r', ⟨hr', hunique⟩, rfl⟩
      refine ⟨⟨r', hr', rfl⟩, ?_⟩
      rintro _ ⟨r'', hr'', rfl⟩
      rw [hunique r'' hr'']
  · refine iff_of_false (fun h => ?_) ?_
    · obtain ⟨-, hknown, hfollowed⟩ := checks_of_matchArguments h
      rw [unknownNames_map] at hknown
      rw [emptyNames_map] at hfollowed
      exact hchecks ⟨hknown, hfollowed⟩
    · rintro ⟨r', h, -⟩
      exact hchecks (checks_of_matchArguments h).2

end Sexpr
