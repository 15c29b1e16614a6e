/-
How many values each parameter gets says which ones.

If every parameter takes one value or any number of them, a name claims the value after it, or
all values after it, whatever has been given before. The other values are free: they go to the
parameters in order. So a list of parameters in order, one for each free value, says all about
an assignment, and this list is given by how often each parameter occurs in it.

* `claimed` — the values with the parameters that names give them to;
* `dealOut` — what a parameter gets if the free values are dealt out to a list of parameters;
* `Node.Deals` — an assignment deals out the free values in order;
* `Node.Gives.deals` — a step before a node that deals, `Node.Sound.exists_deals` — every
  assignment that is found deals;
* `Node.Sound.eq_of_lengths` — so assignments with the same numbers of values are equal.
-/
import Sexpr.Proofs.Routing
import Sexpr.Proofs.Segmentation

namespace Sexpr

variable {α : Type}

/-! ### Claimed values -/

/-- The parameter that claims the next value after it has got one. -/
def Parameter.further (p : Parameter) : Option Parameter :=
  if p.arity.isVariadic then some p else none

/-- The values, each with the parameter that a name before it gives it to. The parameter `owner`
claims the first value. -/
def claimed (params : List Parameter) :
    Option Parameter → List (Argument α) → List (Option Parameter × α)
  | _, [] => []
  | _, .named name :: args => claimed params (params.find? (·.name = name)) args
  | owner, .value v :: args => (owner, v) :: claimed params (owner.bind Parameter.further) args

/-- What a parameter gets if the free values are dealt out to a list of parameters. -/
def dealOut (p : Parameter) : List (Option Parameter × α) → List Parameter → List α
  | [], _ => []
  | (some q, v) :: values, free => (if q = p then [v] else []) ++ dealOut p values free
  | (none, v) :: values, q :: free => (if q = p then [v] else []) ++ dealOut p values free
  | (none, _) :: _, [] => []

/-- The number of values that are free. -/
def freeCount (values : List (Option Parameter × α)) : Nat := values.countP fun x => x.1.isNone

/-- Nothing is claimed by the parameter before a name. -/
theorem claimed_of_ne {params : List Parameter} {args : List (Argument α)}
    (h : ∀ v rest, args ≠ .value v :: rest) (owner owner' : Option Parameter) :
    claimed params owner args = claimed params owner' args := by
  cases args with
  | nil => rfl
  | cons arg args =>
    cases arg with
    | named name => rfl
    | value v => exact absurd rfl (h v args)

/-- A parameter that takes any number of values claims all that follow. -/
theorem claimed_values {params : List Parameter} {p : Parameter} (hp : p.arity.isVariadic = true)
    (values : List α) (args : List (Argument α)) :
    claimed params (some p) (values.map .value ++ args) =
      values.map (fun v => (some p, v)) ++ claimed params (some p) args := by
  have hfurther : p.further = some p := if_pos hp
  induction values with
  | nil => rfl
  | cons v values ih =>
    rw [List.map_cons, List.cons_append, claimed, Option.bind_some, hfurther, ih]
    rfl

theorem dealOut_claimed (p q : Parameter) (values : List α) (rest : List (Option Parameter × α))
    (free : List Parameter) :
    dealOut q (values.map (fun v => (some p, v)) ++ rest) free =
      (if q = p then values else []) ++ dealOut q rest free := by
  induction values with
  | nil => simp
  | cons v values ih =>
    rw [List.map_cons, List.cons_append, dealOut, ih]
    by_cases hqp : q = p
    · simp [hqp]
    · simp [hqp, Ne.symm hqp]

theorem freeCount_claimed (p : Parameter) (values : List α) (rest : List (Option Parameter × α)) :
    freeCount (values.map (fun v => (some p, v)) ++ rest) = freeCount rest := by
  simp [freeCount, List.countP_append, List.countP_map, Function.comp_def]

/-- What a parameter gets grows with its number among those to whom the free values go. -/
theorem length_dealOut_add_count {p : Parameter} {values : List (Option Parameter × α)}
    {free free' : List Parameter} (h : free.length = freeCount values)
    (h' : free'.length = freeCount values) :
    (dealOut p values free).length + free'.count p =
      (dealOut p values free').length + free.count p := by
  induction values generalizing free free' with
  | nil =>
    rw [List.length_eq_zero_iff.1 h, List.length_eq_zero_iff.1 h']
  | cons x values ih =>
    obtain ⟨owner, v⟩ := x
    cases owner with
    | some q =>
      have hlater : (dealOut p values free).length + free'.count p =
          (dealOut p values free').length + free.count p := ih h h'
      simp only [dealOut, List.length_append]
      omega
    | none =>
      have hcount : freeCount ((none, v) :: values) = freeCount values + 1 := by
        simp [freeCount]
      -- one of the free values goes to the first parameter of either list
      cases free with
      | nil => simp [hcount] at h
      | cons q free =>
        cases free' with
        | nil => simp [hcount] at h'
        | cons q' free' =>
          rw [hcount, List.length_cons, Nat.add_right_cancel_iff] at h h'
          have := ih h h'
          simp only [dealOut, List.length_append, List.count_cons, beq_iff_eq]
          split_ifs <;> simp only [List.length_cons, List.length_nil] <;> omega

/-! ### Dealing in order -/

/-- The parameters that values without a name can go to from a place. -/
def Place.remaining : Place → List Parameter
  | .positional remaining => remaining
  | .named _ => []

/-- The assignment gives the parameters what names claim, and deals out the free values to
parameters that are still to come, in their order. -/
structure Node.Deals (params : List Parameter) (n : Node α) (r : Assignment α)
    (free : List Parameter) : Prop where
  given : ∀ p ∈ params, r.getD p.name =
    n.result.getD p.name ++ dealOut p (claimed params none n.args) free
  length : free.length = freeCount (claimed params none n.args)
  within : ∀ p ∈ free, p ∈ n.place.remaining
  ordered : free.Pairwise fun p q => params.idxOf p ≤ params.idxOf q

theorem Node.Gives.remaining_subset {params : List Parameter} {n m : Node α} {p : Parameter}
    {taken : List (Argument α)} {values : List α} (h : n.Gives params m p taken values) :
    ∀ q ∈ m.place.remaining, q ∈ n.place.remaining := by
  intro q hq
  cases hplace : m.place with
  | named outOfOrder => simp [hplace, Place.remaining] at hq
  | positional rest =>
    obtain ⟨remaining, hremaining, hsuffix⟩ := h.place rest hplace
    rw [hplace] at hq
    rw [hremaining]
    exact hsuffix.subset hq

/-- The first of the last parameters comes before the others. -/
theorem idxOf_le_of_mem_suffix {params ps : List Parameter} {p q : Parameter}
    (hnodup : params.Nodup) (hsuffix : p :: ps <:+ params) (hq : q ∈ p :: ps) :
    params.idxOf p ≤ params.idxOf q := by
  obtain ⟨front, rfl⟩ := hsuffix
  have hfront : ∀ x ∈ p :: ps, x ∉ front := fun x hx hmem =>
    (List.nodup_append.1 hnodup).2.2 x hmem x hx rfl
  rw [List.idxOf_append_of_notMem (hfront p List.mem_cons_self),
    List.idxOf_append_of_notMem (hfront q hq), List.idxOf_cons_self]
  omega

/-- What a name claims at a step: the values that it is given. -/
theorem Node.Gives.claimed_block {params : List Parameter} {n m : Node α} {p : Parameter} {v : α}
    {vs : List α}
    (hstep : n.Gives params m p (.named p.name :: .value v :: vs.map .value) (v :: vs))
    (hnodup : (params.map (·.name)).Nodup) (hsimple : p.arity.IsSimple) :
    claimed params none n.args =
      (v :: vs).map (fun v => (some p, v)) ++ claimed params none m.args := by
  have hargs : n.args = .named p.name :: .value v :: (vs.map .value ++ m.args) := hstep.args
  rw [hargs, claimed, find?_name hnodup hstep.mem, claimed, Option.bind_some]
  cases hmost : p.arity.most with
  | none =>
    -- the parameter takes any number, so a value is left only where a name follows
    have hvariadic : p.arity.isVariadic = true := by simp [Arity.isVariadic, hmost]
    have hnone : ∀ w rest, m.args ≠ .value w :: rest := by
      intro w rest hleft
      exact hstep.full _ _ w rest hargs hleft (by simp [Arity.HasRoom, hmost])
    have hfurther : p.further = some p := if_pos hvariadic
    rw [hfurther, claimed_values hvariadic, claimed_of_ne hnone (some p) none]
    rfl
  | some most =>
    -- the parameter takes one value, so it has been given no more
    have hone := hsimple.most_eq most hmost
    have hfurther : p.further = none := by simp [Parameter.further, Arity.isVariadic, hmost]
    have hleft : (p.arity.rest (n.result.getD p.name).length).most =
        some (most - (n.result.getD p.name).length) := by simp [Arity.rest, hmost]
    have hvs : vs = [] := by
      have := hstep.room _ hleft
      rw [List.length_cons] at this
      rw [← List.length_eq_zero_iff]
      omega
    subst hvs
    rw [hfurther]
    rfl

/-- A step before a node that deals: a value that is taken goes to the first parameter to come,
and what a name is given it claims. -/
theorem Node.Gives.deals {params : List Parameter} {n m : Node α} {p : Parameter}
    {taken : List (Argument α)} {values : List α} (hstep : n.Gives params m p taken values)
    (h : n.Sound params) (hnodup : (params.map (·.name)).Nodup)
    (hsimple : ∀ p ∈ params, p.arity.IsSimple) {r : Assignment α} {free : List Parameter}
    (hdeals : m.Deals params r free) : ∃ free', n.Deals params r free' := by
  have hwithin : ∀ q ∈ free, q ∈ n.place.remaining := fun q hq =>
    hstep.remaining_subset q (hdeals.within q hq)
  have hgiven : ∀ q ∈ params, r.getD q.name = n.result.getD q.name ++
      ((if q = p then values else []) ++ dealOut q (claimed params none m.args) free) := by
    intro q hq
    rw [hdeals.given q hq, hstep.getD h hnodup hq, List.append_assoc]
  have htakes := hstep.takes
  cases htakes with
  | nothing =>
    have hargs : n.args = m.args := hstep.args
    refine ⟨free, fun q hq => ?_, by rw [hargs]; exact hdeals.length, hwithin, hdeals.ordered⟩
    rw [hgiven q hq, hargs]
    simp
  | value v =>
    have hargs : n.args = .value v :: m.args := hstep.args
    obtain ⟨ps, hplace⟩ := hstep.atPlace v rfl
    refine ⟨p :: free, fun q hq => ?_, ?_, ?_, List.Pairwise.cons ?_ hdeals.ordered⟩
    · rw [hgiven q hq, hargs, claimed, Option.bind_none, dealOut]
      by_cases hqp : q = p
      · rw [if_pos hqp, if_pos hqp.symm]
      · rw [if_neg hqp, if_neg (Ne.symm hqp)]
    · rw [hargs, claimed, Option.bind_none, List.length_cons, hdeals.length]
      simp [freeCount]
    · rw [hplace] at hwithin ⊢
      exact List.forall_mem_cons.2 ⟨List.mem_cons_self, hwithin⟩
    · intro q hq
      have hmem := hwithin q hq
      rw [hplace] at hmem
      exact idxOf_le_of_mem_suffix (List.Nodup.of_map _ hnodup) (h.place _ hplace) hmem
  | block v vs =>
    have hclaimed := hstep.claimed_block hnodup (hsimple p hstep.mem)
    refine ⟨free, fun q hq => ?_, ?_, hwithin, hdeals.ordered⟩
    · rw [hgiven q hq, hclaimed, dealOut_claimed]
    · rw [hclaimed, freeCount_claimed]
      exact hdeals.length

/-- Every assignment that is found deals out the free values in order. -/
theorem Node.Sound.exists_deals {params : List Parameter} (hnodup : (params.map (·.name)).Nodup)
    (hsimple : ∀ p ∈ params, p.arity.IsSimple) {n : Node α} (h : n.Sound params)
    {r : Assignment α} (hr : .success r ∈ (searchTree params n).leaves) :
    ∃ free, n.Deals params r free := by
  revert hr
  refine Node.Sound.induction hnodup ?_ ?_ h
  · intro n b h hmove hr
    rw [leaves_finish hmove, List.mem_singleton] at hr
    subst hr
    obtain ⟨hargs, rfl, -⟩ := Node.finish_success hmove
    refine ⟨[], fun p _ => ?_, ?_, by simp, List.Pairwise.nil⟩
    · simp [hargs, claimed, dealOut]
    · simp [hargs, claimed, freeCount]
  · intro n name nodes h hmove hsteps ih hr
    obtain ⟨m, hm, hr⟩ := (mem_leaves_branch hmove).1 hr
    obtain ⟨p, taken, values, hstep⟩ := hsteps m hm
    obtain ⟨free, hdeals⟩ := ih m hm hr
    exact hstep.deals h hnodup hsimple hdeals

/-- Free values that are dealt out in order, and as many to each parameter, are dealt out
alike. -/
theorem Node.Deals.eq_of_lengths {params : List Parameter} {n : Node α} (h : n.Sound params)
    {r r' : Assignment α} {free free' : List Parameter} (hdeals : n.Deals params r free)
    (hdeals' : n.Deals params r' free')
    (hlengths : ∀ p ∈ params, (r.getD p.name).length = (r'.getD p.name).length) :
    free = free' := by
  have hmem : ∀ p ∈ n.place.remaining, p ∈ params := by
    intro p hp
    cases hplace : n.place with
    | named outOfOrder => simp [hplace, Place.remaining] at hp
    | positional remaining =>
      rw [hplace] at hp
      exact (h.place _ hplace).subset hp
  have hcount : ∀ p, free.count p = free'.count p := by
    intro p
    by_cases hp : p ∈ params
    · have hsame := hlengths p hp
      rw [hdeals.given p hp, hdeals'.given p hp, List.length_append, List.length_append] at hsame
      have := length_dealOut_add_count (p := p) hdeals.length hdeals'.length
      omega
    · rw [List.count_eq_zero_of_not_mem fun hfree => hp (hmem p (hdeals.within p hfree)),
        List.count_eq_zero_of_not_mem fun hfree => hp (hmem p (hdeals'.within p hfree))]
  refine List.Perm.eq_of_pairwise ?_ hdeals.ordered hdeals'.ordered (List.perm_iff_count.2 hcount)
  intro p q hp _ hle hge
  exact (List.idxOf_inj (hmem p (hdeals.within p hp))).1 (Nat.le_antisymm hle hge)

/-- Assignments that are found with the same numbers of values are equal. -/
theorem Node.Sound.eq_of_lengths {params : List Parameter}
    (hnodup : (params.map (·.name)).Nodup) (hsimple : ∀ p ∈ params, p.arity.IsSimple)
    {n : Node α} (h : n.Sound params) {r r' : Assignment α}
    (hr : .success r ∈ (searchTree params n).leaves)
    (hr' : .success r' ∈ (searchTree params n).leaves)
    (hlengths : ∀ p ∈ params, (r.getD p.name).length = (r'.getD p.name).length) : r = r' := by
  obtain ⟨free, hdeals⟩ := h.exists_deals hnodup hsimple hr
  obtain ⟨free', hdeals'⟩ := h.exists_deals hnodup hsimple hr'
  obtain rfl := hdeals.eq_of_lengths h hdeals' hlengths
  obtain ⟨hkeys, -⟩ := h.exists_routing hnodup hr
  obtain ⟨hkeys', -⟩ := h.exists_routing hnodup hr'
  rw [Assignment.eq_map_getD hnodup hkeys, Assignment.eq_map_getD hnodup hkeys']
  exact List.map_congr_left fun p hp => by rw [hdeals.given p hp, hdeals'.given p hp]

end Sexpr
