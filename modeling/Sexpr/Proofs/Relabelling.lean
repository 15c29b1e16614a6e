/-
Matching does not look at the values.

The search compares the assignments that it finds, and that is the only place where it looks at
values. Where every parameter takes one value or any number of them, two assignments differ in
how many values some parameter gets, so that the comparison says the same whatever the values
are. Changing all values by a function changes what comes out in the same way.

* `Node.map`, `Branch.map`, `MatchFault.map` — nodes, ends and faults with other values;
* `Node.move_map` — a step of the search with other values;
* `Node.Sound.outcome_map` — what comes out of the search;
* `matchArguments_map` — what comes out of matching.
-/
import Sexpr.Proofs.Counts

namespace Sexpr

variable {α β : Type}

/-! ### Other values -/

/-- An argument with another value. -/
def Argument.map (f : α → β) : Argument α → Argument β
  | .named name => .named name
  | .value v => .value (f v)

/-- An assignment of other values. -/
def Assignment.mapValues (f : α → β) (r : Assignment α) : Assignment β :=
  List.map (fun e => (e.1, e.2.map f)) r

/-- A fault with other values. -/
def ArgumentFault.mapValues {ν : Type} (f : α → β) : ArgumentFault ν α → ArgumentFault ν β
  | .tooMany values => .tooMany (values.map f)
  | .missing names => .missing names
  | .duplicate name => .duplicate name
  | .positionalAfterNamed v index namedIndex => .positionalAfterNamed (f v) index namedIndex
  | .unknown names => .unknown names
  | .requiresValue names => .requiresValue names
  | .ambiguous argument candidates details => .ambiguous argument candidates details
  | .valueExpected name found => .valueExpected name found

/-- Why arguments with other values cannot be matched. -/
def MatchFault.map (f : α → β) : MatchFault α → MatchFault β
  | .duplicateParameters names => .duplicateParameters names
  | .arguments fault => .arguments (fault.mapValues f)
  | .search fault => .search fault

/-- An end with other values. -/
def Branch.map (f : α → β) : Branch α → Branch β
  | .success result => .success (result.mapValues f)
  | .missing names => .missing names
  | .tooMany name extra duplicate => .tooMany name (extra.map f) duplicate
  | .positionalAmongNamed v outOfOrder => .positionalAmongNamed (f v) outOfOrder
  | .ambiguous name => .ambiguous name

/-- A node with other values. -/
def Node.map (f : α → β) (n : Node α) : Node β :=
  ⟨n.place, n.args.map (Argument.map f), n.result.mapValues f⟩

/-- An offer of other values. -/
def Offer.map (f : α → β) (offer : Offer α) : Offer β :=
  ⟨offer.values.map f, offer.rest.map (Argument.map f), offer.least, offer.greedy⟩

/-- A move with other values. -/
def Move.map (f : α → β) : Move α → Move β
  | .finish b => .finish (b.map f)
  | .branch name nodes => .branch name (nodes.map (Node.map f))

namespace Assignment

@[simp]
theorem getD_mapValues (f : α → β) (r : Assignment α) (name : String) :
    (r.mapValues f).getD name = (r.getD name).map f := by
  induction r with
  | nil => rfl
  | cons e r ih =>
    rw [mapValues, List.map_cons, getD_cons, getD_cons, ← mapValues, ih]
    split_ifs
    · rfl
    · rfl

theorem put_mapValues (f : α → β) (r : Assignment α) (name : String) (values : List α) :
    (r.put name values).mapValues f = (r.mapValues f).put name (values.map f) := by
  unfold put mapValues
  rw [List.map_map, List.map_map]
  refine List.map_congr_left fun e _ => ?_
  by_cases hname : e.1 = name
  · simp [hname]
  · simp [hname]

theorem empty_mapValues (f : α → β) (params : List Parameter) :
    (empty params : Assignment α).mapValues f = empty params := by
  unfold empty mapValues
  rw [List.map_map]
  rfl

/-- Assignments that are the same give every parameter as many values. -/
theorem length_getD_of_beq [BEq α] {r r' : Assignment α} (h : (r == r') = true) (name : String) :
    (r.getD name).length = (r'.getD name).length := by
  induction r generalizing r' with
  | nil =>
    cases r' with
    | nil => rfl
    | cons e' r' => simp at h
  | cons e r ih =>
    cases r' with
    | nil => simp at h
    | cons e' r' =>
      rw [List.cons_beq_cons, Bool.and_eq_true] at h
      obtain ⟨hname, hvalues⟩ := Bool.and_eq_true_iff.1 h.1
      rw [getD_cons, getD_cons, beq_iff_eq.1 hname]
      split_ifs
      · exact List.length_eq_of_beq hvalues
      · exact ih h.2

end Assignment

theorem leadingValues_map (f : α → β) (args : List (Argument α)) :
    leadingValues (args.map (Argument.map f)) = (leadingValues args).map f := by
  induction args with
  | nil => rfl
  | cons arg args ih =>
    cases arg with
    | named name => rfl
    | value v => exact congrArg (f v :: ·) ih

theorem unknownNames_map (params : List Parameter) (f : α → β) (args : List (Argument α)) :
    unknownNames params (args.map (Argument.map f)) = unknownNames params args := by
  unfold unknownNames
  rw [List.filterMap_map]
  refine List.filterMap_congr fun arg _ => ?_
  cases arg with
  | named name => rfl
  | value v => rfl

theorem emptyNames_map (f : α → β) (args : List (Argument α)) :
    emptyNames (args.map (Argument.map f)) = emptyNames args := by
  induction args with
  | nil => rfl
  | cons arg args ih =>
    cases arg with
    | value v => exact ih
    | named name =>
      cases args with
      | nil => rfl
      | cons next args =>
        cases next with
        | value v => exact ih
        | named name' => exact congrArg (name :: ·) ih

/-! ### Steps -/

theorem ending_mapValues (params : List Parameter) (f : α → β) (result : Assignment α) :
    ending params (result.mapValues f) = (ending params result).map f := by
  unfold ending
  simp only [Assignment.getD_mapValues, List.length_map]
  split_ifs
  · rfl
  · rfl

theorem Offer.counts_map (f : α → β) (offer : Offer α) (left : Arity) :
    (offer.map f).counts left = offer.counts left := by
  unfold Offer.counts Offer.fewest Offer.most
  simp only [Offer.map, List.length_map]

theorem Offer.nodesAt_map (f : α → β) (offer : Offer α) (p : Parameter) (place : Place)
    (result : Assignment α) (k : Nat) :
    (offer.map f).nodesAt p place (result.mapValues f) k =
      (offer.nodesAt p place result k).map (Node.map f) := by
  unfold Offer.nodesAt
  simp only [Offer.map, Assignment.getD_mapValues, List.length_map, List.map_cons, Node.map,
    Assignment.put_mapValues, List.map_append, List.map_take, List.map_drop]
  congr 1
  split_ifs
  · simp only [List.map_cons, List.map_nil, Node.map, Assignment.put_mapValues, List.map_append,
      List.map_take, List.map_drop]
  · rfl

theorem Offer.move_map (f : α → β) (offer : Offer α) (p : Parameter) (place : Place)
    (result : Assignment α) :
    (offer.map f).move p place (result.mapValues f) = (offer.move p place result).map f := by
  unfold Offer.move
  dsimp only
  rw [Assignment.getD_mapValues, List.length_map, Offer.counts_map]
  split_ifs
  · rfl
  · rw [Move.map, List.map_flatMap]
    congr 1
    exact List.flatMap_congr fun k _ => offer.nodesAt_map f p place result k

/-- A step of the search does not depend on the values. -/
theorem Node.move_map (params : List Parameter) (f : α → β) (n : Node α) :
    (n.map f).move params = (n.move params).map f := by
  obtain ⟨place, args, result⟩ := n
  cases args with
  | nil => exact congrArg Move.finish (ending_mapValues params f result)
  | cons arg rest =>
    cases arg with
    | named name =>
      simp only [Node.map, List.map_cons, Argument.map, Node.move]
      cases params.find? (·.name = name) with
      | none => rfl
      | some p =>
        rw [leadingValues_map]
        exact Offer.move_map f ⟨leadingValues rest, rest, 1, true⟩ p _ result
    | value v =>
      cases place with
      | named outOfOrder => rfl
      | positional remaining =>
        cases remaining with
        | nil => rfl
        | cons p ps => exact Offer.move_map f ⟨[v], .value v :: rest, 0, false⟩ p _ result

/-! ### Weighing -/

section Weighing

variable [BEq α] [BEq β]

/-- Weighing two ends does not depend on the values, if comparing their assignments does
not. -/
theorem weigh_map (name : String) {f : α → β} {best : Option (Branch α)} {c : Branch α}
    (hagree : ∀ r r', c = .success r → best = some (.success r') →
      (r.mapValues f == r'.mapValues f) = (r == r')) :
    weigh name (best.map (Branch.map f)) (c.map f) =
      Sum.map (Branch.map f) (Option.map (Branch.map f)) (weigh name best c) := by
  cases c with
  | ambiguous name' =>
    rw [Branch.map, weigh_ambiguous, weigh_ambiguous]
    rfl
  | success r =>
    cases best with
    | none => rfl
    | some b =>
      cases b with
      | success r' =>
        show (if (r.mapValues f == r'.mapValues f) = true then _ else _) =
          Sum.map _ _ (if (r == r') = true then _ else _)
        rw [hagree r r' rfl rfl]
        split_ifs
        · rfl
        · rfl
      | _ => rfl
  | _ =>
    cases best with
    | none => rfl
    | some b => cases b <;> rfl

/-- Weighing branches one after the other does not depend on the values, if comparing the
assignments that come out of them does not. -/
theorem outcomeAll_map {params : List Parameter} {f : α → β} {rs : List (Assignment α)}
    (hagree : ∀ r ∈ rs, ∀ r' ∈ rs, (r.mapValues f == r'.mapValues f) = (r == r'))
    {nodes : List (Node α)}
    (hnodes : ∀ m ∈ nodes, ∀ r, (searchTree params m).outcome = .ok (.success r) → r ∈ rs)
    (hmap : ∀ m ∈ nodes, (searchTree params (m.map f)).outcome =
      (searchTree params m).outcome.map (Branch.map f)) (name : String)
    {best : Option (Branch α)} (hbest : ∀ r, best = some (.success r) → r ∈ rs) :
    SearchTree.outcomeAll name (best.map (Branch.map f))
        ((nodes.map (Node.map f)).map (searchTree params)) =
      (SearchTree.outcomeAll name best (nodes.map (searchTree params))).map (Branch.map f) := by
  induction nodes generalizing best with
  | nil =>
    cases best with
    | none => rfl
    | some b => rfl
  | cons m nodes ih =>
    obtain ⟨hm, hnodes⟩ := List.forall_mem_cons.1 hnodes
    obtain ⟨hmapm, hmap⟩ := List.forall_mem_cons.1 hmap
    rw [List.map_cons, List.map_cons, List.map_cons]
    cases hc : (searchTree params m).outcome with
    | error e =>
      rw [hc] at hmapm
      rw [SearchTree.outcomeAll, hmapm, SearchTree.outcomeAll, hc]
      rfl
    | ok c =>
      rw [hc] at hmapm
      have hweigh : weigh name (best.map (Branch.map f)) (c.map f) =
          Sum.map (Branch.map f) (Option.map (Branch.map f)) (weigh name best c) :=
        weigh_map name fun r r' hr hr' =>
          hagree r (hm r (by rw [hc, hr])) r' (hbest r' hr')
      rw [SearchTree.outcomeAll_cons hmapm, SearchTree.outcomeAll_cons hc, hweigh]
      -- what is kept is the best end so far or the new one
      rcases weigh_cases name best c with ⟨name', hkept⟩ | hkept | hkept
      · rw [hkept]
        rfl
      · rw [hkept]
        exact ih hnodes hmap hbest
      · rw [hkept]
        refine ih hnodes hmap fun r hr => hm r ?_
        rw [hc, Option.some.inj hr]

/-- What comes out of the search from a sound node does not depend on the values, if comparing
the assignments that it finds does not. -/
theorem Node.Sound.outcome_map {params : List Parameter} (hnodup : (params.map (·.name)).Nodup)
    {f : α → β} {n : Node α} (h : n.Sound params)
    (hagree : ∀ r ∈ successes (searchTree params n).leaves,
      ∀ r' ∈ successes (searchTree params n).leaves,
        (r.mapValues f == r'.mapValues f) = (r == r')) :
    (searchTree params (n.map f)).outcome =
      (searchTree params n).outcome.map (Branch.map f) := by
  revert hagree
  refine Node.Sound.induction hnodup ?_ ?_ h
  · intro n b _ hmove _
    rw [searchTree_eq, Node.move_map, searchTree_eq params n, hmove]
    rfl
  · intro n name nodes h hmove hsteps ih hagree
    have hsub : ∀ m ∈ nodes, ∀ r ∈ successes (searchTree params m).leaves,
        r ∈ successes (searchTree params n).leaves := by
      intro m hm r hr
      exact mem_successes.2 ((mem_leaves_branch hmove).2 ⟨m, hm, mem_successes.1 hr⟩)
    have hnodes : ∀ m ∈ nodes, ∀ r, (searchTree params m).outcome = .ok (.success r) →
        r ∈ successes (searchTree params n).leaves := by
      intro m hm r hr
      obtain ⟨p, taken, values, hstep⟩ := hsteps m hm
      rcases (hstep.sound h hnodup).mem_of_outcome hnodup _ hr with hmem | ⟨name', hname⟩
      · exact hsub m hm r (mem_successes.2 hmem)
      · cases hname
    rw [searchTree_eq, Node.move_map, searchTree_eq params n, hmove]
    have hmap : ∀ m ∈ nodes, (searchTree params (m.map f)).outcome =
        (searchTree params m).outcome.map (Branch.map f) := by
      intro m hm
      refine ih m hm fun r hr r' hr' => ?_
      exact hagree r (hsub m hm r hr) r' (hsub m hm r' hr')
    have hbest : ∀ r, (none : Option (Branch α)) = some (.success r) →
        r ∈ successes (searchTree params n).leaves := by
      intro r hr
      cases hr
    exact outcomeAll_map hagree hnodes hmap name hbest

/-! ### Matching -/

omit [BEq α] [BEq β] in
theorem Branch.toResult_map (f : α → β) (b : Branch α) :
    (b.map f).toResult.mapError MatchFault.arguments =
      ((b.toResult.mapError MatchFault.arguments).map (Assignment.mapValues f)).mapError
        (MatchFault.map f) := by
  cases b with
  | tooMany name extra duplicate => cases duplicate <;> rfl
  | positionalAmongNamed v outOfOrder => cases outOfOrder <;> rfl
  | _ => rfl

/-- Matching does not look at the values. If each of them is changed by a function, the
assignment that comes out is changed by it in the same way, or the same fault comes out, with
the values in it changed: so values that look equal never hide an ambiguity. -/
theorem matchArguments_map [ReflBEq α] [ReflBEq β] {params : List Parameter}
    (harities : ∀ p ∈ params,
      p.arity ∈ [Arity.required, Arity.optional, Arity.zeroOrMore, Arity.oneOrMore])
    (args : List (Argument α)) (f : α → β) :
    matchArguments params (args.map (Argument.map f)) =
      ((matchArguments params args).map (Assignment.mapValues f)).mapError (MatchFault.map f) := by
  by_cases hnodup : (params.map (·.name)).Nodup
  · by_cases hknown : unknownNames params args = []
    · by_cases hfollowed : emptyNames args = []
      · have hsound := Node.sound_start hknown hfollowed
        have hsimple : ∀ p ∈ params, p.arity.IsSimple := fun p hp =>
          Arity.isSimple_of_mem (harities p hp)
        -- two assignments that are the same, before or after the change, are equal
        have hagree : ∀ r ∈ successes (searchTree params (Node.start params args)).leaves,
            ∀ r' ∈ successes (searchTree params (Node.start params args)).leaves,
              (r.mapValues f == r'.mapValues f) = (r == r') := by
          intro r hr r' hr'
          have heq := hsound.eq_of_lengths hnodup hsimple (mem_successes.1 hr) (mem_successes.1 hr')
          rw [Bool.eq_iff_iff]
          constructor
          · intro hsame
            have hlengths := Assignment.length_getD_of_beq hsame
            rw [heq fun p _ => by simpa using hlengths p.name]
            exact BEq.rfl
          · intro hsame
            rw [heq fun p _ => Assignment.length_getD_of_beq hsame p.name]
            exact BEq.rfl
        have hstart : Node.start params (args.map (Argument.map f)) =
            (Node.start params args).map f := by
          rw [Node.start, Node.map, Node.start, Assignment.empty_mapValues]
        rw [matchArguments_eq hnodup (by rwa [unknownNames_map]) (by rwa [emptyNames_map]),
          matchArguments_eq hnodup hknown hfollowed, hstart, hsound.outcome_map hnodup hagree]
        cases (searchTree params (Node.start params args)).outcome with
        | error e => rfl
        | ok b => exact b.toResult_map f
      · simp [matchArguments, hnodup, unknownNames_map, emptyNames_map, hknown, hfollowed]
        rfl
    · simp [matchArguments, hnodup, unknownNames_map, hknown]
      rfl
  · simp [matchArguments, hnodup]
    rfl

/-- Three values that differ in a label only: without their labels too it is ambiguous where to
cut them, and after a name it is not. -/
theorem matchArguments_map_snd :
    matchArguments [⟨.oneOrMore, "a"⟩, ⟨.oneOrMore, "b"⟩]
        ([.value (0, 7), .value (1, 7), .value (2, 7)].map (Argument.map Prod.snd)) =
      (.error (.arguments (.ambiguous (some "a") none ArgumentFault.ambiguousDetails)) :
        Except (MatchFault Nat) (Assignment Nat)) ∧
    matchArguments [⟨.optional, "a"⟩, ⟨.required, "b"⟩, ⟨.zeroOrMore, "c"⟩]
        ([.value (0, 7), .named "c", .value (1, 7), .value (2, 7)].map (Argument.map Prod.snd)) =
      (.ok [("a", []), ("b", [7]), ("c", [7, 7])] :
        Except (MatchFault Nat) (Assignment Nat)) := by
  constructor
  · rw [matchArguments_map (show ∀ p ∈ [(⟨.oneOrMore, "a"⟩ : Parameter), ⟨.oneOrMore, "b"⟩],
      p.arity ∈ [Arity.required, Arity.optional, Arity.zeroOrMore, Arity.oneOrMore] by decide)]
    rfl
  · rw [matchArguments_map (show ∀ p ∈ [(⟨.optional, "a"⟩ : Parameter), ⟨.required, "b"⟩,
      ⟨.zeroOrMore, "c"⟩],
      p.arity ∈ [Arity.required, Arity.optional, Arity.zeroOrMore, Arity.oneOrMore] by decide)]
    rfl

-- a parameter that takes up to two values can be given as many in two ways: some of them from
-- before its name, or all of them from after it
example :
    (matchArguments [⟨⟨0, some 2, by simp⟩, "a"⟩, ⟨.optional, "b"⟩]
      [.value 0, .named "a", .value 1, .value 2]).isOk = false ∧
    (matchArguments [⟨⟨0, some 2, by simp⟩, "a"⟩, ⟨.optional, "b"⟩]
      [.value 7, .named "a", .value 7, .value 7]).isOk = true := by
  decide

end Weighing

end Sexpr
