/-
Where the arguments go.

Every step of the search takes some arguments off the front and gives their values to one
parameter. Along a branch that ends in an assignment this sends each argument to a
parameter, so that no value is lost or given twice, and all stay in their order.

* `Routing` — parameters to send the arguments at a node to;
* `Node.Gives.routing` — a step before a routed node;
* `Node.Sound.exists_routing` — the arguments of every assignment that is found are routed;
* `exists_routing_of_matchArguments` — so are those of a match.
-/
import Sexpr.Proofs.SearchTree

namespace Sexpr

variable {α : Type}

/-! ### Routes -/

/-- The values that are sent to a parameter if each argument goes along its route. -/
def sentAlong (routes : List Parameter) (args : List (Argument α)) (p : Parameter) : List α :=
  (routes.zip args).filterMap fun x => if x.1 = p then x.2.value? else none

theorem sentAlong_append {routes : List Parameter} {args : List (Argument α)}
    (h : routes.length = args.length) (routes' : List Parameter) (args' : List (Argument α))
    (p : Parameter) : sentAlong (routes ++ routes') (args ++ args') p =
      sentAlong routes args p ++ sentAlong routes' args' p := by
  rw [sentAlong, List.zip_append h, List.filterMap_append]
  rfl

/-- Arguments that all go to one parameter. -/
theorem sentAlong_replicate (args : List (Argument α)) (p q : Parameter) :
    sentAlong (List.replicate args.length p) args q =
      if q = p then args.filterMap Argument.value? else [] := by
  induction args with
  | nil => simp [sentAlong]
  | cons arg args ih =>
    rw [List.length_cons, List.replicate_succ, sentAlong, List.zip_cons_cons]
    by_cases hqp : q = p
    · subst hqp
      rw [if_pos rfl] at ih ⊢
      cases harg : arg.value? with
      | none =>
        rw [List.filterMap_cons_none (by simpa using harg), List.filterMap_cons_none harg]
        exact ih
      | some v =>
        rw [List.filterMap_cons_some (b := v) (by simpa using harg), List.filterMap_cons_some harg]
        exact congrArg _ ih
    · rw [if_neg hqp] at ih ⊢
      rw [List.filterMap_cons_none (by simp [Ne.symm hqp])]
      exact ih

theorem Taken.filterMap_value? {name : String} {taken : List (Argument α)} {values : List α}
    (h : Taken name taken values) : taken.filterMap Argument.value? = values := by
  cases h with
  | nothing => rfl
  | value v => rfl
  | block v vs =>
    show v :: (vs.map Argument.value).filterMap Argument.value? = v :: vs
    rw [List.filterMap_map]
    exact congrArg _ List.filterMap_some

/-- Parameters that the arguments at a node are sent to, so that `r` comes out. The value
after a name goes to the parameter of that name. -/
structure Routing (params : List Parameter) (n : Node α) (r : Assignment α)
    (routes : List Parameter) : Prop where
  length : routes.length = n.args.length
  mem : ∀ q ∈ routes, q ∈ params
  given : ∀ p ∈ params, r.getD p.name = n.result.getD p.name ++ sentAlong routes n.args p
  named : ∀ i name, n.args[i]? = some (.named name) →
    ∃ v p, n.args[i + 1]? = some (.value v) ∧ routes[i + 1]? = some p ∧ p.name = name

/-- A name that a step takes comes first, and a value after it. -/
theorem Taken.named_at {name name' : String} {taken : List (Argument α)} {values : List α}
    (h : Taken name taken values) {i : Nat} (hi : taken[i]? = some (.named name')) :
    i = 0 ∧ name = name' ∧ ∃ v, taken[1]? = some (.value v) := by
  cases h with
  | nothing => simp at hi
  | value v =>
    rw [List.getElem?_singleton] at hi
    split_ifs at hi
    cases hi
  | block v vs =>
    cases i with
    | zero =>
      rw [List.getElem?_cons_zero, Option.some_inj, Argument.named.injEq] at hi
      exact ⟨rfl, hi, v, rfl⟩
    | succ i =>
      -- all that follows are values
      rw [List.getElem?_cons_succ] at hi
      have hmem := List.mem_of_getElem? hi
      simp at hmem

/-- What a step takes goes to its parameter, and the rest where it goes afterwards. -/
theorem Node.Gives.routing {params : List Parameter} {n m : Node α} {p : Parameter}
    {taken : List (Argument α)} {values : List α} (hstep : n.Gives params m p taken values)
    (h : n.Sound params) (hnodup : (params.map (·.name)).Nodup) {r : Assignment α}
    {routes : List Parameter} (hroutes : Routing params m r routes) :
    Routing params n r (List.replicate taken.length p ++ routes) where
  length := by
    rw [List.length_append, List.length_replicate, hroutes.length, hstep.args, List.length_append]
  mem := by
    intro q hq
    rcases List.mem_append.1 hq with hq | hq
    · exact (List.mem_replicate.1 hq).2 ▸ hstep.mem
    · exact hroutes.mem q hq
  given := by
    intro q hq
    rw [hroutes.given q hq, hstep.getD h hnodup hq, hstep.args,
      sentAlong_append (List.length_replicate ..), sentAlong_replicate,
      hstep.takes.filterMap_value?, List.append_assoc]
  named := by
    intro i name hi
    rw [hstep.args] at hi ⊢
    by_cases hlt : i < taken.length
    · -- a name that this step takes, with the value after it
      rw [List.getElem?_append_left hlt] at hi
      obtain ⟨rfl, hname, v, hv⟩ := hstep.takes.named_at hi
      obtain ⟨hlength, -⟩ := List.getElem?_eq_some_iff.1 hv
      refine ⟨v, p, ?_, ?_, hname⟩
      · rw [List.getElem?_append_left hlength, hv]
      · rw [List.getElem?_append_left (by simpa using hlength), List.getElem?_replicate,
          if_pos hlength]
    · -- a name that is left: both lists start after what the step takes
      rw [Nat.not_lt] at hlt
      rw [List.getElem?_append_right hlt] at hi
      obtain ⟨v, q, hv, hq, hname⟩ := hroutes.named _ name hi
      refine ⟨v, q, ?_, ?_, hname⟩
      · rw [List.getElem?_append_right (by omega), ← hv]
        congr 1
        omega
      · rw [List.getElem?_append_right (by simp; omega), ← hq]
        congr 1
        rw [List.length_replicate]
        omega

/-! ### Assignments that are found -/

/-- An assignment that is found ends the search where no argument is left and no parameter
lacks values. -/
theorem Node.finish_success {params : List Parameter} {n : Node α} {r : Assignment α}
    (h : n.move params = .finish (.success r)) :
    n.args = [] ∧ n.result = r ∧ ∀ p ∈ params, p.arity.least ≤ (r.getD p.name).length := by
  rcases Node.finish_cases h with ⟨hargs, hend⟩ | ⟨v, outOfOrder, hend⟩ |
    ⟨name, extra, duplicate, hend⟩
  · obtain ⟨rfl, hleast⟩ := ending_eq_success.1 hend.symm
    exact ⟨hargs, rfl, hleast⟩
  · cases hend
  · cases hend

/-- The arguments of every assignment that is found are routed, and every parameter gets a
number of values that it takes. -/
theorem Node.Sound.exists_routing {params : List Parameter}
    (hnodup : (params.map (·.name)).Nodup) {n : Node α} (h : n.Sound params) {r : Assignment α}
    (hr : .success r ∈ (searchTree params n).leaves) :
    r.map Prod.fst = params.map (·.name) ∧
      (∀ p ∈ params, p.arity.Admits (r.getD p.name).length) ∧
      ∃ routes, Routing params n r routes := by
  revert hr
  refine Node.Sound.induction hnodup ?_ ?_ h
  · intro n b h hmove hr
    rw [leaves_finish hmove, List.mem_singleton] at hr
    subst hr
    obtain ⟨hargs, rfl, hleast⟩ := Node.finish_success hmove
    refine ⟨h.keys, fun p hp => ⟨hleast p hp, h.room p hp⟩, [], ?_⟩
    exact ⟨by simp [hargs], by simp, by simp [sentAlong], by simp [hargs]⟩
  · intro n name nodes h hmove hsteps ih hr
    obtain ⟨m, hm, hr⟩ := (mem_leaves_branch hmove).1 hr
    obtain ⟨p, taken, values, hstep⟩ := hsteps m hm
    obtain ⟨hkeys, hadmits, routes, hroutes⟩ := ih m hm hr
    exact ⟨hkeys, hadmits, _, hstep.routing h hnodup hroutes⟩

/-! ### Matches -/

/-- The values that are sent to a parameter, in the order of the arguments. -/
def sentTo (args : List (Argument α)) (s : Fin args.length → Parameter) (p : Parameter) :
    List α :=
  (List.finRange args.length).filterMap fun i => if s i = p then args[i].value? else none

theorem sentTo_eq_sentAlong {args : List (Argument α)} {routes : List Parameter}
    (h : routes.length = args.length) (p : Parameter) :
    sentTo args (fun i => routes.get (i.cast h.symm)) p = sentAlong routes args p := by
  have hzip : routes.zip args =
      (List.finRange args.length).map fun i => (routes.get (i.cast h.symm), args[i]) := by
    refine List.ext_getElem (by simp [h]) fun i hi hi' => ?_
    simp
  rw [sentAlong, hzip, List.filterMap_map]
  rfl

section Match

variable [BEq α]

/-- Weighing keeps one of its ends, or stops at an ambiguity. -/
theorem weigh_cases (name : String) (best : Option (Branch α)) (c : Branch α) :
    (∃ name', weigh name best c = .inl (.ambiguous name')) ∨ weigh name best c = .inr best ∨
      weigh name best c = .inr (some c) := by
  unfold weigh
  split
  · exact .inl ⟨_, rfl⟩
  · split_ifs
    · exact .inr (.inl rfl)
    · exact .inl ⟨_, rfl⟩
  · exact .inr (.inl rfl)
  · exact .inr (.inr rfl)
  · exact .inr (.inr rfl)
  · split_ifs
    · exact .inr (.inr rfl)
    · exact .inr (.inl rfl)

theorem mem_of_outcomeAll {name : String} {ts : List (SearchTree α)} {best : Option (Branch α)}
    {b : Branch α}
    (hts : ∀ t ∈ ts, ∀ c, t.outcome = .ok c → c ∈ t.leaves ∨ ∃ name, c = .ambiguous name)
    (h : SearchTree.outcomeAll name best ts = .ok b) :
    best = some b ∨ (∃ t ∈ ts, b ∈ t.leaves) ∨ ∃ name, b = .ambiguous name := by
  induction ts generalizing best with
  | nil =>
    cases best with
    | none => cases h
    | some best => exact .inl (congrArg some (Except.ok.inj h))
  | cons t ts ih =>
    obtain ⟨ht, hts⟩ := List.forall_mem_cons.1 hts
    have ih' := fun best' => @ih best' hts
    cases hc : t.outcome with
    | error e =>
      rw [SearchTree.outcomeAll, hc] at h
      cases h
    | ok c =>
      rw [SearchTree.outcomeAll_cons hc] at h
      rcases weigh_cases name best c with ⟨name', hweigh⟩ | hweigh | hweigh
      · rw [hweigh] at h
        cases h
        exact .inr (.inr ⟨name', rfl⟩)
      · rw [hweigh] at h
        rcases ih' best h with hbest | ⟨t', ht', hb⟩ | hamb
        · exact .inl hbest
        · exact .inr (.inl ⟨t', List.mem_cons_of_mem _ ht', hb⟩)
        · exact .inr (.inr hamb)
      · rw [hweigh] at h
        rcases ih' (some c) h with hbest | ⟨t', ht', hb⟩ | hamb
        · rw [Option.some_inj] at hbest
          subst hbest
          rcases ht c hc with hmem | hamb
          · exact .inr (.inl ⟨t, List.mem_cons_self, hmem⟩)
          · exact .inr (.inr hamb)
        · exact .inr (.inl ⟨t', List.mem_cons_of_mem _ ht', hb⟩)
        · exact .inr (.inr hamb)

/-- What comes out of a search is one of its ends, if it is no ambiguity. -/
theorem Node.Sound.mem_of_outcome {params : List Parameter}
    (hnodup : (params.map (·.name)).Nodup) {n : Node α} (h : n.Sound params) :
    ∀ b, (searchTree params n).outcome = .ok b →
      b ∈ (searchTree params n).leaves ∨ ∃ name, b = .ambiguous name := by
  refine Node.Sound.induction hnodup ?_ ?_ h
  · intro n b h hmove c hc
    rw [searchTree_eq, hmove] at hc
    cases hc
    rw [leaves_finish hmove]
    exact .inl (List.mem_singleton_self b)
  · intro n name nodes h hmove _ ih b hb
    rw [searchTree_eq, hmove, Move.tree, SearchTree.outcome] at hb
    have hts : ∀ t ∈ nodes.map (searchTree params), ∀ c, t.outcome = .ok c →
        c ∈ t.leaves ∨ ∃ name, c = .ambiguous name := by
      rw [List.forall_mem_map]
      exact ih
    rcases mem_of_outcomeAll hts hb with hnone | ⟨t, ht, hmem⟩ | hamb
    · cases hnone
    · obtain ⟨m, hm, rfl⟩ := List.mem_map.1 ht
      exact .inl ((mem_leaves_branch hmove).2 ⟨m, hm, hmem⟩)
    · exact .inr hamb

/-- Only arguments that pass all checks are matched. -/
theorem checks_of_matchArguments {params : List Parameter} {args : List (Argument α)}
    {r : Assignment α} (h : matchArguments params args = .ok r) :
    (params.map (·.name)).Nodup ∧ unknownNames params args = [] ∧ emptyNames args = [] := by
  unfold matchArguments at h
  dsimp only at h
  split_ifs at h with hnodup hknown hfollowed
  simp only [Bool.not_eq_true', decide_eq_false_iff_not, Decidable.not_not,
    Bool.not_eq_false, List.isEmpty_iff] at hnodup hknown hfollowed
  exact ⟨hnodup, hknown, hfollowed⟩

/-- An assignment is found by the search if it comes out of it. -/
theorem mem_leaves_of_matchArguments {params : List Parameter} {args : List (Argument α)}
    {r : Assignment α} (h : matchArguments params args = .ok r) :
    .success r ∈ (searchTree params (Node.start params args)).leaves := by
  obtain ⟨hnodup, hknown, hfollowed⟩ := checks_of_matchArguments h
  rw [matchArguments_eq hnodup hknown hfollowed] at h
  cases houtcome : (searchTree params (Node.start params args)).outcome with
  | error e =>
    rw [houtcome] at h
    cases h
  | ok b =>
    rw [houtcome] at h
    have hb : b = .success r := by
      cases b with
      | success r' => cases h; rfl
      | _ => cases h
    subst hb
    rcases (Node.sound_start hknown hfollowed).mem_of_outcome hnodup _ houtcome with hmem | hamb
    · exact hmem
    · obtain ⟨name, hname⟩ := hamb
      cases hname

/-- The arguments that are matched are all sent somewhere: each value to one parameter, which
gets its values in their order and a number of them that it takes; and the value after a name
to the parameter of that name. -/
theorem exists_routing_of_matchArguments {params : List Parameter} {args : List (Argument α)}
    {r : Assignment α} (h : matchArguments params args = .ok r) :
    ∃ s : Fin args.length → Parameter, (∀ i, s i ∈ params) ∧
      r = params.map (fun p => (p.name, sentTo args s p)) ∧
      (∀ p ∈ params, p.arity.Admits (sentTo args s p).length) ∧
      ∀ (i : Fin args.length) (name : String), args[i] = .named name →
        ∃ (j : Fin args.length) (v : α), j.val = i.val + 1 ∧ args[j] = .value v ∧
          (s j).name = name := by
  obtain ⟨hnodup, hknown, hfollowed⟩ := checks_of_matchArguments h
  obtain ⟨hkeys, hadmits, routes, hroutes⟩ := (Node.sound_start hknown hfollowed).exists_routing
    hnodup (mem_leaves_of_matchArguments h)
  have hlength : routes.length = args.length := hroutes.length
  have hgiven : ∀ p ∈ params,
      r.getD p.name = sentTo args (fun i => routes.get (i.cast hlength.symm)) p := by
    intro p hp
    rw [hroutes.given p hp, sentTo_eq_sentAlong hlength, Node.start, Assignment.getD_empty]
    rfl
  refine ⟨fun i => routes.get (i.cast hlength.symm), fun i => hroutes.mem _ (List.get_mem _ _),
    ?_, ?_, ?_⟩
  · conv_lhs => rw [Assignment.eq_map_getD hnodup hkeys]
    exact List.map_congr_left fun p hp => by rw [hgiven p hp]
  · intro p hp
    rw [← hgiven p hp]
    exact hadmits p hp
  · intro i name hi
    have hat : args[i.val]? = some (.named name) := by rw [← hi]; simp
    obtain ⟨v, p, hv, hp, hname⟩ := hroutes.named i.val name hat
    obtain ⟨hlt, hvalue⟩ := List.getElem?_eq_some_iff.1 hv
    obtain ⟨hlt', hroute⟩ := List.getElem?_eq_some_iff.1 hp
    refine ⟨⟨i.val + 1, hlt⟩, v, rfl, hvalue, ?_⟩
    rw [← hname, ← hroute]
    rfl

/-- A list takes a value in its place and one more after its name. -/
theorem exists_routing_of_matchArguments_names :
    ∃ s : Fin 7 → Parameter,
      (∀ i, s i ∈ [⟨.required, "a"⟩, ⟨.zeroOrMore, "b"⟩, ⟨.optional, "c"⟩]) ∧
      [("a", [0]), ("b", [1, 7]), ("c", [5])] =
        [⟨.required, "a"⟩, ⟨.zeroOrMore, "b"⟩, ⟨.optional, "c"⟩].map (fun p =>
          (p.name, sentTo [.named "a", .value 0, .value 1, .named "c", .value 5, .named "b",
            .value 7] s p)) := by
  obtain ⟨s, hmem, hr, -, -⟩ := exists_routing_of_matchArguments
    (show matchArguments [⟨.required, "a"⟩, ⟨.zeroOrMore, "b"⟩, ⟨.optional, "c"⟩]
        [.named "a", .value 0, .value 1, .named "c", .value 5, .named "b", .value 7] =
      .ok [("a", [0]), ("b", [1, 7]), ("c", [5])] from rfl)
  exact ⟨s, hmem, hr⟩

end Match

end Sexpr
