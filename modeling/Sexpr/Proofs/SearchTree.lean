/-
The tree of the search for an assignment.

The search weighs its branches against each other while it goes, and breaks off at the
first ambiguity. Left to itself it is a tree: a node is an end, or the search goes on from it
in one of several ways.

* `searchTree` — the whole search, `SearchTree.leaves` — its ends in their order;
* `Node.Sound.induction` — induction over the search;
* `search_eq_outcome` — the search weighs the branches of this tree and never breaks off;
* `matchArguments_eq` — so does the matching of arguments.
-/
import Sexpr.Proofs.SearchSteps

namespace Sexpr

section Trees

variable {α : Type}

/-! ### Trees -/

/-- All that a search can do: it ends, or a parameter is given values and the search goes on
in one of several ways. -/
inductive SearchTree (α : Type) where
  | leaf (ending : Branch α)
  | fork (name : String) (children : List (SearchTree α))

mutual

/-- The ends of a search, in their order. -/
def SearchTree.leaves : SearchTree α → List (Branch α)
  | .leaf ending => [ending]
  | .fork _ children => SearchTree.leavesAll children

/-- The ends of several searches. -/
def SearchTree.leavesAll : List (SearchTree α) → List (Branch α)
  | [] => []
  | t :: ts => t.leaves ++ SearchTree.leavesAll ts

end

theorem SearchTree.leavesAll_eq_flatMap (ts : List (SearchTree α)) :
    SearchTree.leavesAll ts = ts.flatMap SearchTree.leaves := by
  induction ts with
  | nil => rfl
  | cons t ts ih => rw [SearchTree.leavesAll, List.flatMap_cons, ih]

/-- The search that starts with a move. -/
def Move.tree (grow : Node α → SearchTree α) : Move α → SearchTree α
  | .finish ending => .leaf ending
  | .branch name nodes => .fork name (nodes.map grow)

/-- The whole search from a node, with no branch left out. -/
def searchTree (params : List Parameter) (n : Node α) : SearchTree α :=
  match _h : n.move params with
  | .finish ending => .leaf ending
  | .branch name nodes => .fork name (nodes.attach.map fun m => searchTree params m.1)
termination_by n.weight
decreasing_by exact Node.weight_lt _h m.2

theorem searchTree_eq (params : List Parameter) (n : Node α) :
    searchTree params n = (n.move params).tree (searchTree params) := by
  rw [searchTree]
  split
  · next ending h => rw [h, Move.tree]
  · next name nodes h =>
    rw [h, Move.tree]
    simp

/-- The ends of a search are those of its branches. -/
theorem mem_leaves_branch {params : List Parameter} {n : Node α} {name : String}
    {nodes : List (Node α)} (h : n.move params = .branch name nodes) {b : Branch α} :
    b ∈ (searchTree params n).leaves ↔ ∃ m ∈ nodes, b ∈ (searchTree params m).leaves := by
  rw [searchTree_eq, h, Move.tree, SearchTree.leaves, SearchTree.leavesAll_eq_flatMap,
    List.flatMap_map, List.mem_flatMap]

theorem leaves_finish {params : List Parameter} {n : Node α} {b : Branch α}
    (h : n.move params = .finish b) : (searchTree params n).leaves = [b] := by
  rw [searchTree_eq, h, Move.tree, SearchTree.leaves]

/-- Induction over the search from a sound node. -/
@[elab_as_elim]
theorem Node.Sound.induction {params : List Parameter} (hnodup : (params.map (·.name)).Nodup)
    {P : Node α → Prop}
    (finish : ∀ n b, n.Sound params → n.move params = .finish b → P n)
    (branch : ∀ n name nodes, n.Sound params → n.move params = .branch name nodes →
      (∀ m ∈ nodes, ∃ p taken values, n.Gives params m p taken values) →
      (∀ m ∈ nodes, P m) → P n)
    {n : Node α} (h : n.Sound params) : P n := by
  cases hmove : n.move params with
  | finish b => exact finish n b h hmove
  | branch name nodes =>
    refine branch n name nodes h hmove (fun m hm => Node.gives_of_mem h.place hmove hm) ?_
    intro m hm
    obtain ⟨p, taken, values, hstep⟩ := Node.gives_of_mem h.place hmove hm
    exact Node.Sound.induction hnodup finish branch (hstep.sound h hnodup)
termination_by n.weight
decreasing_by exact Node.weight_lt hmove hm

/-- Behind the last parameter the search goes on with names only. -/
theorem searchTree_behind (params : List Parameter) {args : List (Argument α)} (h : args ≠ [])
    (result : Assignment α) :
    searchTree params ⟨.positional [], args, result⟩ =
      searchTree params ⟨.named false, args, result⟩ := by
  rw [searchTree_eq, searchTree_eq params ⟨.named false, args, result⟩]
  obtain ⟨arg, args, rfl⟩ := List.exists_cons_of_ne_nil h
  cases arg with
  | value v => rfl
  | named name => rfl

theorem lacking_eq {result : Assignment α} {params : List Parameter}
    (hkeys : ∀ p ∈ params, p.name ∈ result.map Prod.fst)
    (hroom : ∀ p ∈ params, p.arity.HasRoom (result.getD p.name).length) :
    lacking result params = .ok ((params.filter fun p =>
      (result.getD p.name).length < p.arity.least).map (·.name)) := by
  induction params with
  | nil => rfl
  | cons p params ih =>
    obtain ⟨hkey, hkeys⟩ := List.forall_mem_cons.1 hkeys
    obtain ⟨hroom, hrooms⟩ := List.forall_mem_cons.1 hroom
    rw [lacking, Assignment.get?_eq_some hkey]
    dsimp only
    rw [Arity.consume_eq hroom, ih hkeys hrooms]
    show (Except.ok (if 0 < p.arity.least - (result.getD p.name).length then _ else _) :
      Except SearchFault (List String)) = _
    by_cases hshort : (result.getD p.name).length < p.arity.least
    · rw [if_pos (by omega), List.filter_cons_of_pos (by simpa using hshort), List.map_cons]
    · rw [if_neg (by omega), List.filter_cons_of_neg (by simpa using hshort)]

end Trees

/-! ### Weighing -/

section Weighing

variable {α : Type} [BEq α]

mutual

/-- What comes out of a search whose branches are weighed against each other. -/
def SearchTree.outcome : SearchTree α → Except SearchFault (Branch α)
  | .leaf ending => .ok ending
  | .fork name children => SearchTree.outcomeAll name none children

/-- What comes out of several branches, with the best end so far. -/
def SearchTree.outcomeAll (name : String) (best : Option (Branch α)) :
    List (SearchTree α) → Except SearchFault (Branch α)
  | [] =>
    match best with
    | none => .error .noBranch
    | some b => .ok b
  | t :: ts => do
    match weigh name best (← t.outcome) with
    | .inl stop => return stop
    | .inr best => SearchTree.outcomeAll name best ts

end

theorem SearchTree.outcomeAll_cons {t : SearchTree α} {c : Branch α} (h : t.outcome = .ok c)
    (name : String) (best : Option (Branch α)) (ts : List (SearchTree α)) :
    SearchTree.outcomeAll name best (t :: ts) =
      match weigh name best c with
      | .inl stop => .ok stop
      | .inr best => SearchTree.outcomeAll name best ts := by
  rw [SearchTree.outcomeAll, h]
  rfl

/-- Trying numbers of values one after the other is weighing the branches they lead to. -/
theorem tryCounts_eq {params : List Parameter} {go : Step α} {place : Place} {p : Parameter}
    {offer : Offer α} {result : Assignment α} {ks : List Nat}
    (hks : ∀ k ∈ ks, (p.arity.rest (result.getD p.name).length).HasRoom k)
    (hgo : ∀ m ∈ ks.flatMap (offer.nodesAt p place result),
      go m.place m.args m.result = (searchTree params m).outcome) (best : Option (Branch α)) :
    tryCounts go place p.name (result.getD p.name) (p.arity.rest (result.getD p.name).length)
        offer result ks best =
      SearchTree.outcomeAll p.name best
        ((ks.flatMap (offer.nodesAt p place result)).map (searchTree params)) := by
  induction ks generalizing best with
  | nil =>
    cases best with
    | none => rfl
    | some b => rfl
  | cons k ks ih =>
    obtain ⟨hk, hks⟩ := List.forall_mem_cons.1 hks
    rw [List.flatMap_cons] at hgo
    have ih := ih hks fun m hm => hgo m (List.mem_append_right _ hm)
    have hgo : ∀ m ∈ offer.nodesAt p place result k,
        go m.place m.args m.result = (searchTree params m).outcome :=
      fun m hm => hgo m (List.mem_append_left _ hm)
    rw [tryCounts, Arity.consume_eq hk, List.flatMap_cons, List.map_append]
    unfold Offer.nodesAt at hgo ⊢
    dsimp only at hgo ⊢
    rw [List.forall_mem_cons] at hgo
    rw [List.map_cons, List.cons_append, SearchTree.outcomeAll, ← hgo.1]
    -- the branch after the parameter comes first, and may end the search
    cases go place.next _ _ with
    | error e => rfl
    | ok first =>
      show (match weigh p.name best first with | .inl stop => _ | .inr best => _) =
        (match weigh p.name best first with | .inl stop => _ | .inr best => _)
      cases weigh p.name best first with
      | inl stop => rfl
      | inr best =>
        dsimp only
        split_ifs at hgo ⊢ with hmore
        · rw [List.map_cons, List.map_nil, List.singleton_append, SearchTree.outcomeAll,
            ← hgo.2 _ (List.mem_singleton_self _)]
          cases go place _ _ with
          | error e => rfl
          | ok second =>
            show (match weigh p.name best second with | .inl stop => _ | .inr best => _) =
              (match weigh p.name best second with | .inl stop => _ | .inr best => _)
            cases weigh p.name best second with
            | inl stop => rfl
            | inr best => exact ih best
        · exact ih best

/-- Giving values to a parameter is weighing the branches of the offer. -/
theorem give_eq {params : List Parameter} {go : Step α} {place : Place} {p : Parameter}
    {offer : Offer α} {result : Assignment α} (hkey : p.name ∈ result.map Prod.fst)
    (hroom : p.arity.HasRoom (result.getD p.name).length)
    (hgo : ∀ name nodes, offer.move p place result = .branch name nodes → ∀ m ∈ nodes,
      go m.place m.args m.result = (searchTree params m).outcome) :
    give go p.arity place p.name offer result =
      ((offer.move p place result).tree (searchTree params)).outcome := by
  unfold give
  rw [Assignment.get?_eq_some hkey]
  dsimp only
  rw [Arity.consume_eq hroom]
  show (if (p.arity.rest (result.getD p.name).length).isFull = true then
      .ok (.tooMany p.name offer.values (p.arity.most == some 1))
    else tryCounts go place p.name (result.getD p.name) _ offer result (offer.counts _) none) = _
  unfold Offer.move at hgo ⊢
  dsimp only at hgo ⊢
  by_cases hfull : (p.arity.rest (result.getD p.name).length).isFull = true
  · rw [if_pos hfull, if_pos hfull]
    rfl
  · rw [if_neg hfull] at hgo
    rw [if_neg hfull, if_neg hfull, Move.tree, SearchTree.outcome]
    exact tryCounts_eq (fun k hk => (Offer.mem_counts hk).2.2) (hgo _ _ rfl) none

/-- At a name the search offers its parameter the values after it. -/
theorem search_named {params : List Parameter} {place : Place} (hplace : place ≠ .positional [])
    {p : Parameter} (hfind : params.find? (·.name = p.name) = some p) (fuel : Nat)
    (rest : List (Argument α)) (result : Assignment α) :
    search params (fuel + 1) place (.named p.name :: rest) result =
      give (search params fuel) p.arity (place.ofName p.name) p.name
        ⟨leadingValues rest, rest, 1, true⟩ result := by
  have harity : arityOf params p.name = .ok p.arity := by rw [arityOf, hfind]
  cases place with
  | named outOfOrder =>
    rw [search]
    dsimp only
    rw [harity]
    rfl
  | positional remaining =>
    cases remaining with
    | nil => exact absurd rfl hplace
    | cons q qs =>
      rw [search]
      dsimp only
      rw [harity]
      rfl

/-- With enough fuel the search from a sound node weighs the branches of its tree. -/
theorem search_eq_outcome {params : List Parameter} (hnodup : (params.map (·.name)).Nodup)
    (fuel : Nat) {n : Node α} (h : n.Sound params) (hfuel : n.weight < fuel) :
    search params fuel n.place n.args n.result = (searchTree params n).outcome := by
  induction fuel generalizing n with
  | zero => omega
  | succ fuel ih =>
    -- every branch has less weight, so the fuel that is left is enough for it
    have hbranch : ∀ name nodes, n.move params = .branch name nodes → ∀ m ∈ nodes,
        search params fuel m.place m.args m.result = (searchTree params m).outcome := by
      intro name nodes hmove m hm
      obtain ⟨p, taken, values, hstep⟩ := Node.gives_of_mem h.place hmove hm
      have := Node.weight_lt hmove hm
      exact ih (hstep.sound h hnodup) (by omega)
    obtain ⟨place, args, result⟩ := n
    cases args with
    | nil =>
      rw [searchTree_eq]
      show (lacking result params >>= fun names => _) = .ok (ending params result)
      rw [lacking_eq (fun p hp => h.mem_keys hp) h.room]
      show (if _ then _ else _) = _
      unfold ending
      dsimp only
      rw [List.isEmpty_map]
      split_ifs
      · rfl
      · rfl
    | cons arg rest =>
      by_cases hplace : place = .positional []
      · subst hplace
        have hsound : Node.Sound params ⟨.named false, arg :: rest, result⟩ :=
          ⟨fun _ hrest => (by cases hrest), h.keys, h.room, h.known, h.followed⟩
        rw [searchTree_behind params (List.cons_ne_nil _ _), search]
        refine ih hsound ?_
        simp only [Node.weight, List.length_cons, List.length_nil] at hfuel ⊢
        omega
      · cases arg with
        | named name =>
          obtain ⟨p, hp, rfl, hfind⟩ := h.exists_find rfl
          have hmove : Node.move params ⟨place, .named p.name :: rest, result⟩ =
              Offer.move ⟨leadingValues rest, rest, 1, true⟩ p (place.ofName p.name) result := by
            simp only [Node.move, hfind]
          rw [searchTree_eq, hmove, search_named hplace hfind]
          exact give_eq (h.mem_keys hp) (h.room p hp) (hmove ▸ hbranch)
        | value v =>
          rw [searchTree_eq]
          cases place with
          | named outOfOrder => rfl
          | positional remaining =>
            obtain ⟨q, qs, rfl⟩ := List.exists_cons_of_ne_nil fun hnil => hplace (hnil ▸ rfl)
            have hq : q ∈ params := (h.place _ rfl).subset List.mem_cons_self
            exact give_eq (h.mem_keys hq) (h.room q hq) hbranch

/-- Arguments whose names are known and have values are matched by weighing all branches of
the search. -/
theorem matchArguments_eq {params : List Parameter} {args : List (Argument α)}
    (hnodup : (params.map (·.name)).Nodup) (hknown : unknownNames params args = [])
    (hfollowed : emptyNames args = []) :
    matchArguments params args =
      match (searchTree params (Node.start params args)).outcome with
      | .error e => .error (.search e)
      | .ok b => b.toResult.mapError MatchFault.arguments := by
  unfold matchArguments
  dsimp only
  rw [if_neg (by simpa using hnodup), hknown, if_neg (by simp), hfollowed, if_neg (by simp),
    ← search_eq_outcome hnodup (params.length + args.length + 1)
      (Node.sound_start hknown hfollowed) (by simp [Node.start, Node.weight])]
  rfl

end Weighing

end Sexpr
