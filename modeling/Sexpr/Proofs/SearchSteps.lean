/-
The steps of the search for an assignment.

The search is at a node: a place among the parameters, the arguments that are left, and what
the parameters have been given. There it ends, or it gives some of the next values to one
parameter, in every number that this may take.

* `Node.move` — what the search does at a node, `Node.move_cases` — all that it can do;
* `Node.Gives` — what one step of it changes, `Node.gives_of_mem` — no step does more;
* `Node.Sound` — what holds at every node of the search, `Node.Gives.sound` — a step keeps it.
-/
import Mathlib.Data.List.Nodup
import Mathlib.Tactic.SplitIfs
import Sexpr.Arguments.Match

namespace Sexpr

/-! ### Arities -/

namespace Arity

/-- Whether so many values are not too many. -/
def HasRoom (a : Arity) (n : Nat) : Prop := ∀ m, a.most = some m → n ≤ m

/-- Whether so many values are neither too few nor too many. -/
def Admits (a : Arity) (n : Nat) : Prop := a.least ≤ n ∧ a.HasRoom n

/-- What is left of an arity after `n` values. -/
def rest (a : Arity) (n : Nat) : Arity :=
  ⟨a.least - n, a.most.map (· - n), by
    intro m h
    obtain ⟨k, hk, rfl⟩ := Option.map_eq_some_iff.1 h
    have := a.least_le k hk
    omega⟩

theorem hasRoom_zero (a : Arity) : a.HasRoom 0 := fun _ _ => Nat.zero_le _

/-- Values for which there is room can be taken. -/
theorem consume_eq {a : Arity} {n : Nat} (h : a.HasRoom n) : a.consume n = .ok (a.rest n) := by
  obtain ⟨least, most, least_le⟩ := a
  unfold consume
  by_cases hn : n = 0
  · -- taking nothing is not checked at all
    subst hn
    cases most <;> simp [rest]
  · rw [if_neg (by omega), if_neg (by omega)]
    cases most with
    | none => simp [rest]
    | some m =>
      have hroom : n ≤ m := h m rfl
      simp only [rest, Option.map_some, Int.toNat_natCast]
      rw [if_neg (by omega)]

/-- Room for more values after some is room for all of them. -/
theorem HasRoom.add {a : Arity} {n k : Nat} (h : a.HasRoom n) (hk : (a.rest n).HasRoom k) :
    a.HasRoom (n + k) := by
  intro m hm
  have hleft : (a.rest n).most = some (m - n) := by simp [rest, hm]
  have := h m hm
  have := hk _ hleft
  omega

theorem isFull_rest_eq_false {a : Arity} {n : Nat} :
    (a.rest n).isFull = false ↔ a.HasRoom (n + 1) := by
  cases hmost : a.most with
  | none => simp [isFull, rest, HasRoom, hmost]
  | some m =>
    simp only [isFull, rest, HasRoom, hmost]
    simp
    omega

theorem rest_rest (a : Arity) (n k : Nat) : (a.rest n).rest k = a.rest (n + k) := by
  simp only [rest, Arity.mk.injEq, Option.map_map]
  refine ⟨by omega, ?_⟩
  congr 1
  funext m
  exact Nat.sub_sub m n k

end Arity

/-! ### Assignments -/

namespace Assignment

variable {α : Type}

theorem get?_cons (e : String × List α) (r : Assignment α) (name : String) :
    Assignment.get? (e :: r) name = if name = e.1 then some e.2 else r.get? name := by
  obtain ⟨key, values⟩ := e
  rw [get?, List.lookup_cons]
  by_cases hname : name = key
  · rw [beq_iff_eq.2 hname, if_pos hname]
  · rw [beq_eq_false_iff_ne.2 hname, if_neg hname]
    rfl

theorem getD_cons (e : String × List α) (r : Assignment α) (name : String) :
    Assignment.getD (e :: r) name = if name = e.1 then e.2 else r.getD name := by
  rw [getD, get?_cons]
  split_ifs
  · rfl
  · rfl

theorem get?_eq_some {r : Assignment α} {name : String} (h : name ∈ r.map Prod.fst) :
    r.get? name = some (r.getD name) := by
  induction r with
  | nil => simp at h
  | cons e r ih =>
    rw [get?_cons, getD_cons]
    by_cases hname : name = e.1
    · rw [if_pos hname, if_pos hname]
    · rw [if_neg hname, if_neg hname]
      exact ih (by simpa [hname] using h)

theorem put_cons (e : String × List α) (r : Assignment α) (name : String) (values : List α) :
    Assignment.put (e :: r) name values =
      (if e.1 = name then (name, values) else e) :: r.put name values := rfl

@[simp]
theorem keys_put (r : Assignment α) (name : String) (values : List α) :
    (r.put name values).map Prod.fst = r.map Prod.fst := by
  rw [put, List.map_map]
  refine List.map_congr_left fun e _ => ?_
  by_cases hname : e.1 = name
  · simp [hname]
  · simp [hname]

@[simp]
theorem keys_empty (params : List Parameter) :
    (empty params : Assignment α).map Prod.fst = params.map (·.name) := by
  simp [empty, Function.comp_def]

theorem getD_put_self {r : Assignment α} {name : String} (h : name ∈ r.map Prod.fst)
    (values : List α) : (r.put name values).getD name = values := by
  induction r with
  | nil => simp at h
  | cons e r ih =>
    rw [put_cons, getD_cons]
    by_cases hkey : e.1 = name
    · rw [if_pos hkey, if_pos rfl]
    · rw [if_neg hkey, if_neg (Ne.symm hkey)]
      exact ih (by simpa [Ne.symm hkey] using h)

theorem getD_put_of_ne {name other : String} (h : other ≠ name) (r : Assignment α)
    (values : List α) : (r.put name values).getD other = r.getD other := by
  induction r with
  | nil => rfl
  | cons e r ih =>
    rw [put_cons, getD_cons, getD_cons, ih]
    by_cases hkey : e.1 = name
    · rw [if_pos hkey, if_neg h, if_neg (hkey ▸ h)]
    · rw [if_neg hkey]

theorem getD_put {r : Assignment α} {name : String} (h : name ∈ r.map Prod.fst)
    (values : List α) (other : String) :
    (r.put name values).getD other = if other = name then values else r.getD other := by
  by_cases hother : other = name
  · rw [if_pos hother, hother, getD_put_self h]
  · rw [if_neg hother, getD_put_of_ne hother]

@[simp]
theorem getD_empty (params : List Parameter) (name : String) :
    (empty params : Assignment α).getD name = [] := by
  induction params with
  | nil => rfl
  | cons p params ih =>
    rw [empty, List.map_cons, getD_cons, ← empty, ih]
    split_ifs
    · rfl
    · rfl

theorem getD_of_mem {r : Assignment α} (hnodup : (r.map Prod.fst).Nodup)
    {e : String × List α} (he : e ∈ r) : r.getD e.1 = e.2 := by
  induction r with
  | nil => simp at he
  | cons e' r ih =>
    rw [List.map_cons, List.nodup_cons] at hnodup
    rw [getD_cons]
    rcases List.mem_cons.1 he with rfl | he
    · rw [if_pos rfl]
    · have hne : e.1 ≠ e'.1 := fun heq => hnodup.1 (heq ▸ List.mem_map_of_mem he)
      rw [if_neg hne, ih hnodup.2 he]

theorem getD_map {params : List Parameter} (hnodup : (params.map (·.name)).Nodup)
    (given : Parameter → List α) {p : Parameter} (hp : p ∈ params) :
    Assignment.getD (params.map fun p => (p.name, given p)) p.name = given p := by
  have hkeys : ((params.map fun p => (p.name, given p)).map Prod.fst).Nodup := by
    rw [List.map_map]
    exact hnodup
  exact getD_of_mem hkeys (List.mem_map_of_mem (f := fun p => (p.name, given p)) hp)

/-- An assignment is given by its keys and the values of each. -/
theorem eq_map_getD {params : List Parameter} {r : Assignment α}
    (hnodup : (params.map (·.name)).Nodup) (hkeys : r.map Prod.fst = params.map (·.name)) :
    r = params.map fun p => (p.name, r.getD p.name) := by
  calc r = r.map fun e => (e.1, r.getD e.1) := by
        conv_lhs => rw [← List.map_id r]
        refine List.map_congr_left fun e he => ?_
        rw [getD_of_mem (hkeys ▸ hnodup) he]
        rfl
    _ = (r.map Prod.fst).map fun name => (name, r.getD name) := by
        rw [List.map_map]
        rfl
    _ = params.map fun p => (p.name, r.getD p.name) := by
        rw [hkeys, List.map_map]
        rfl

end Assignment

/-! ### Nodes -/

/-- The value of an argument, if it is one. -/
def Argument.value? {α : Type} : Argument α → Option α
  | .value v => some v
  | .named _ => none

/-- A place of the search, with the arguments that are left and what has been given. -/
structure Node (α : Type) where
  place : Place
  args : List (Argument α)
  result : Assignment α

/-- What the search does at a node: it ends there, or it gives values to a parameter and
goes on at other nodes. -/
inductive Move (α : Type) where
  | finish (ending : Branch α)
  | branch (name : String) (nodes : List (Node α))

section Moves

variable {α : Type}

/-- The end of the search when no arguments are left. -/
def ending (params : List Parameter) (result : Assignment α) : Branch α :=
  let short := params.filter fun p => (result.getD p.name).length < p.arity.least
  if short.isEmpty then .success result else .missing (short.map (·.name))

theorem ending_eq_success {params : List Parameter} {result r : Assignment α} :
    ending params result = .success r ↔
      result = r ∧ ∀ p ∈ params, p.arity.least ≤ (result.getD p.name).length := by
  unfold ending
  dsimp only
  split_ifs with hshort
  · rw [List.isEmpty_iff, List.filter_eq_nil_iff] at hshort
    simp only [decide_eq_true_eq, Nat.not_lt] at hshort
    rw [Branch.success.injEq]
    exact ⟨fun h => ⟨h, hshort⟩, fun h => h.1⟩
  · refine ⟨fun h => (by cases h), fun h => absurd ?_ hshort⟩
    rw [List.isEmpty_iff, List.filter_eq_nil_iff]
    simpa using h.2

theorem ending_cases (params : List Parameter) (result : Assignment α) :
    ending params result = .success result ∨ ∃ names, ending params result = .missing names := by
  unfold ending
  dsimp only
  split_ifs
  · exact .inl rfl
  · exact .inr ⟨_, rfl⟩

namespace Offer

/-- The greatest number of values that is taken of an offer. -/
def most (offer : Offer α) (left : Arity) : Nat :=
  match left.most with
  | some m => min m offer.values.length
  | none => offer.values.length

/-- The least number of values that is taken of an offer. -/
def fewest (offer : Offer α) (left : Arity) : Nat :=
  let least := max offer.least (min left.least offer.values.length)
  if offer.greedy then max least (offer.most left) else least

/-- All numbers of values that may be taken of an offer. -/
def counts (offer : Offer α) (left : Arity) : List Nat :=
  List.range' (offer.fewest left) (offer.most left + 1 - offer.fewest left)

/-- The nodes after a parameter has taken `k` values: the one after it, and the one at it if
it has taken some and can take more. -/
def nodesAt (offer : Offer α) (p : Parameter) (place : Place) (result : Assignment α) (k : Nat) :
    List (Node α) :=
  let given := result.getD p.name
  let result' := result.put p.name (given ++ offer.values.take k)
  ⟨place.next, offer.rest.drop k, result'⟩ ::
    if !((p.arity.rest given.length).rest k).isFull && 0 < k then
      [⟨place, offer.rest.drop k, result'⟩]
    else []

/-- Gives the values of an offer to a parameter. -/
def move (offer : Offer α) (p : Parameter) (place : Place) (result : Assignment α) : Move α :=
  let left := p.arity.rest (result.getD p.name).length
  if left.isFull then .finish (.tooMany p.name offer.values (p.arity.most == some 1))
  else .branch p.name ((offer.counts left).flatMap (offer.nodesAt p place result))

end Offer

/-- Where a name leads from a place. -/
def Place.ofName (name : String) : Place → Place
  | .positional [] => .named false
  | .positional (p :: ps) => placeOfName name (p :: ps)
  | .named outOfOrder => .named outOfOrder

/-- What the search does at a node. -/
def Node.move (params : List Parameter) (n : Node α) : Move α :=
  match n.args, n.place with
  | [], _ => .finish (ending params n.result)
  | .value v :: rest, .positional (p :: ps) =>
    Offer.move ⟨[v], .value v :: rest, 0, false⟩ p (.positional (p :: ps)) n.result
  | .value v :: _, .positional [] => .finish (.positionalAmongNamed v false)
  | .value v :: _, .named outOfOrder => .finish (.positionalAmongNamed v outOfOrder)
  | .named name :: rest, place =>
    match params.find? (·.name = name) with
    | some p => Offer.move ⟨leadingValues rest, rest, 1, true⟩ p (place.ofName name) n.result
    | none => .branch name []

/-- How far the search can go on from a node: every step leaves a parameter or an argument
behind, and after the last parameter two arguments. -/
def Node.weight (n : Node α) : Nat :=
  match n.place with
  | .positional remaining => remaining.length + n.args.length
  | .named _ => n.args.length - 1

/-- The node that the search starts from. -/
def Node.start (params : List Parameter) (args : List (Argument α)) : Node α :=
  ⟨.positional params, args, Assignment.empty params⟩

/-! ### Steps -/

theorem Offer.most_le (offer : Offer α) (left : Arity) :
    offer.most left ≤ offer.values.length ∧ left.HasRoom (offer.most left) := by
  unfold Offer.most
  cases hmost : left.most with
  | none => exact ⟨Nat.le_refl _, fun m hm => absurd hm (by simp [hmost])⟩
  | some m =>
    refine ⟨Nat.min_le_right _ _, fun k hk => ?_⟩
    rw [hmost, Option.some_inj] at hk
    exact hk ▸ Nat.min_le_left _ _

/-- Values are left over only where there is no room for them. -/
theorem Offer.most_of_lt {offer : Offer α} {left : Arity}
    (h : offer.most left < offer.values.length) : left.most = some (offer.most left) := by
  unfold Offer.most at h ⊢
  cases hmost : left.most with
  | none =>
    simp only [hmost] at h
    omega
  | some m =>
    simp only [hmost] at h ⊢
    exact congrArg some (by omega)

theorem Offer.mem_counts {offer : Offer α} {left : Arity} {k : Nat} (h : k ∈ offer.counts left) :
    offer.least ≤ k ∧ k ≤ offer.values.length ∧ left.HasRoom k := by
  rw [Offer.counts, List.mem_range'_1] at h
  obtain ⟨hvalues, hroom⟩ := offer.most_le left
  have hmost : k ≤ offer.most left := by omega
  have hfewest : offer.least ≤ offer.fewest left := by
    unfold Offer.fewest
    dsimp only
    split_ifs <;> omega
  exact ⟨by omega, by omega, fun m hm => Nat.le_trans hmost (hroom m hm)⟩

/-- If there is room and something is offered, the greatest number is no less than either bound
of the least one. -/
theorem Offer.most_pos {offer : Offer α} {left : Arity} (hleft : left.isFull = false)
    (hvalues : offer.values ≠ []) :
    0 < offer.most left ∧ min left.least offer.values.length ≤ offer.most left := by
  have hlength : 0 < offer.values.length := List.length_pos_iff.2 hvalues
  unfold Offer.most
  cases hcases : left.most with
  | none => exact ⟨hlength, Nat.min_le_right _ _⟩
  | some m =>
    have hm : m ≠ 0 := fun hzero => by simp [Arity.isFull, hcases, hzero] at hleft
    have hbounds := left.least_le m hcases
    dsimp only
    exact ⟨by omega, by omega⟩

/-- If there is room and something is offered, some number of values may be taken. -/
theorem Offer.counts_ne_nil {offer : Offer α} {left : Arity} (hleft : left.isFull = false)
    (hvalues : offer.values ≠ []) (hleast : offer.least ≤ 1) : offer.counts left ≠ [] := by
  have hmost := Offer.most_pos hleft hvalues
  have hfewest : offer.fewest left ≤ offer.most left := by
    unfold Offer.fewest
    dsimp only
    split_ifs <;> omega
  rw [Offer.counts, Ne, List.range'_eq_nil_iff]
  omega

/-- After a name as many values are taken as can be. -/
theorem Offer.counts_of_greedy {offer : Offer α} {left : Arity} (hgreedy : offer.greedy = true)
    (hleft : left.isFull = false) (hvalues : offer.values ≠ []) (hleast : offer.least ≤ 1) :
    offer.counts left = [offer.most left] := by
  have hmost := Offer.most_pos hleft hvalues
  have hfewest : offer.fewest left = offer.most left := by
    unfold Offer.fewest
    dsimp only
    rw [if_pos hgreedy]
    omega
  rw [Offer.counts, hfewest, Nat.add_sub_cancel_left]
  rfl

theorem Offer.mem_nodesAt {offer : Offer α} {p : Parameter} {place : Place}
    {result : Assignment α} {k : Nat} {m : Node α} (h : m ∈ offer.nodesAt p place result k) :
    (m.place = place.next ∨ m.place = place ∧ 0 < k) ∧ m.args = offer.rest.drop k ∧
      m.result = result.put p.name (result.getD p.name ++ offer.values.take k) := by
  unfold Offer.nodesAt at h
  rcases List.mem_cons.1 h with rfl | h
  · exact ⟨.inl rfl, rfl, rfl⟩
  · split_ifs at h with hmore
    · rw [List.mem_singleton] at h
      subst h
      rw [Bool.and_eq_true, decide_eq_true_eq] at hmore
      exact ⟨.inr ⟨rfl, hmore.2⟩, rfl, rfl⟩
    · simp at h

/-- An offer leads to a node: the parameter has taken `k` of its values. -/
structure Offer.Leads (offer : Offer α) (p : Parameter) (place : Place) (result : Assignment α)
    (k : Nat) (m : Node α) : Prop where
  least : offer.least ≤ k
  length : k ≤ offer.values.length
  room : (p.arity.rest (result.getD p.name).length).HasRoom k
  greedy : offer.greedy = true → offer.values ≠ [] → offer.least ≤ 1 →
    k = offer.most (p.arity.rest (result.getD p.name).length)
  place : m.place = place.next ∨ m.place = place ∧ 0 < k
  args : m.args = offer.rest.drop k
  result : m.result = result.put p.name (result.getD p.name ++ offer.values.take k)

theorem Offer.exists_leads {offer : Offer α} {p : Parameter} {place : Place}
    {result : Assignment α} {name : String} {nodes : List (Node α)} {m : Node α}
    (h : offer.move p place result = .branch name nodes) (hm : m ∈ nodes) :
    ∃ k, offer.Leads p place result k m := by
  unfold Offer.move at h
  dsimp only at h
  split_ifs at h with hfull
  cases h
  obtain ⟨k, hk, hm⟩ := List.mem_flatMap.1 hm
  obtain ⟨hleast, hlength, hroom⟩ := Offer.mem_counts hk
  obtain ⟨hplace, hargs, hresult⟩ := Offer.mem_nodesAt hm
  refine ⟨k, hleast, hlength, hroom, fun hgreedy hvalues hone => ?_, hplace, hargs, hresult⟩
  rw [Offer.counts_of_greedy hgreedy (by simpa using hfull) hvalues hone,
    List.mem_singleton] at hk
  exact hk

/-- Unless nothing is offered, there is a way to go on. -/
theorem Offer.nodes_ne_nil {offer : Offer α} {p : Parameter} {place : Place}
    {result : Assignment α} {name : String} {nodes : List (Node α)}
    (h : offer.move p place result = .branch name nodes) (hvalues : offer.values ≠ [])
    (hleast : offer.least ≤ 1) : nodes ≠ [] := by
  unfold Offer.move at h
  dsimp only at h
  split_ifs at h with hfull
  cases h
  obtain ⟨k, ks, hks⟩ := List.exists_cons_of_ne_nil
    (Offer.counts_ne_nil (by simpa using hfull) hvalues hleast)
  rw [hks, List.flatMap_cons, Offer.nodesAt]
  simp

theorem Offer.eq_tooMany_of_finish {offer : Offer α} {p : Parameter} {place : Place}
    {result : Assignment α} {b : Branch α} (h : offer.move p place result = .finish b) :
    b = .tooMany p.name offer.values (p.arity.most == some 1) := by
  unfold Offer.move at h
  dsimp only at h
  split_ifs at h
  cases h
  rfl

/-- All that the search can do at a node: it ends because no arguments are left or because a
value stands where none can, or it offers a parameter the next value, or one the values after
its name, or the name is that of no parameter. -/
theorem Node.move_cases (params : List Parameter) (n : Node α) :
    (n.args = [] ∧ n.move params = .finish (ending params n.result)) ∨
    (∃ v outOfOrder, n.move params = .finish (.positionalAmongNamed v outOfOrder)) ∨
    (∃ v rest p ps, n.args = .value v :: rest ∧ n.place = .positional (p :: ps) ∧
      n.move params = Offer.move ⟨[v], .value v :: rest, 0, false⟩ p n.place n.result) ∨
    (∃ name rest p, n.args = .named name :: rest ∧ params.find? (·.name = name) = some p ∧
      n.move params =
        Offer.move ⟨leadingValues rest, rest, 1, true⟩ p (n.place.ofName name) n.result) ∨
    ∃ name rest, n.args = .named name :: rest ∧ params.find? (·.name = name) = none ∧
      n.move params = .branch name [] := by
  obtain ⟨place, args, result⟩ := n
  cases args with
  | nil => exact .inl ⟨rfl, rfl⟩
  | cons arg rest =>
    cases arg with
    | value v =>
      cases place with
      | named outOfOrder => exact .inr (.inl ⟨v, outOfOrder, rfl⟩)
      | positional remaining =>
        cases remaining with
        | nil => exact .inr (.inl ⟨v, false, rfl⟩)
        | cons p ps => exact .inr (.inr (.inl ⟨v, rest, p, ps, rfl, rfl, rfl⟩))
    | named name =>
      cases hfind : params.find? (·.name = name) with
      | some p =>
        exact .inr (.inr (.inr (.inl ⟨name, rest, p, rfl, hfind, by simp only [Node.move, hfind]⟩)))
      | none =>
        exact .inr (.inr (.inr (.inr ⟨name, rest, rfl, hfind, by simp only [Node.move, hfind]⟩)))

/-- How a search ends. -/
theorem Node.finish_cases {params : List Parameter} {n : Node α} {b : Branch α}
    (h : n.move params = .finish b) :
    (n.args = [] ∧ b = ending params n.result) ∨
    (∃ v outOfOrder, b = .positionalAmongNamed v outOfOrder) ∨
    ∃ name extra duplicate, b = .tooMany name extra duplicate := by
  rcases n.move_cases params with ⟨hargs, hmove⟩ | ⟨v, outOfOrder, hmove⟩ |
    ⟨v, rest, p, ps, -, -, hmove⟩ | ⟨name, rest, p, -, -, hmove⟩ | ⟨name, rest, -, -, hmove⟩
  · cases hmove.symm.trans h
    exact .inl ⟨hargs, rfl⟩
  · cases hmove.symm.trans h
    exact .inr (.inl ⟨v, outOfOrder, rfl⟩)
  · exact .inr (.inr ⟨_, _, _, Offer.eq_tooMany_of_finish (hmove.symm.trans h)⟩)
  · exact .inr (.inr ⟨_, _, _, Offer.eq_tooMany_of_finish (hmove.symm.trans h)⟩)
  · cases hmove.symm.trans h

/-- How a search goes on. -/
theorem Node.branch_cases {params : List Parameter} {n : Node α} {name : String}
    {nodes : List (Node α)} (h : n.move params = .branch name nodes) :
    (∃ v rest p ps, n.args = .value v :: rest ∧ n.place = .positional (p :: ps) ∧
      Offer.move ⟨[v], .value v :: rest, 0, false⟩ p n.place n.result = .branch name nodes) ∨
    (∃ name' rest p, n.args = .named name' :: rest ∧ params.find? (·.name = name') = some p ∧
      Offer.move ⟨leadingValues rest, rest, 1, true⟩ p (n.place.ofName name') n.result =
        .branch name nodes) ∨
    ∃ name' rest, n.args = .named name' :: rest ∧ params.find? (·.name = name') = none ∧
      nodes = [] := by
  rcases n.move_cases params with ⟨-, hmove⟩ | ⟨v, outOfOrder, hmove⟩ |
    ⟨v, rest, p, ps, hargs, hplace, hmove⟩ | ⟨name', rest, p, hargs, hfind, hmove⟩ |
    ⟨name', rest, hargs, hfind, hmove⟩
  · cases hmove.symm.trans h
  · cases hmove.symm.trans h
  · exact .inl ⟨v, rest, p, ps, hargs, hplace, hmove.symm.trans h⟩
  · exact .inr (.inl ⟨name', rest, p, hargs, hfind, hmove.symm.trans h⟩)
  · have hnodes : nodes = [] := by
      cases hmove.symm.trans h
      rfl
    exact .inr (.inr ⟨name', rest, hargs, hfind, hnodes⟩)

theorem leadingValues_isPrefix (args : List (Argument α)) :
    (leadingValues args).map Argument.value <+: args := by
  induction args with
  | nil => exact List.nil_prefix
  | cons arg args ih =>
    cases arg with
    | named name => exact List.nil_prefix
    | value v => exact (List.prefix_cons_inj _).2 ih

/-- What follows the leading values is no value. -/
theorem drop_leadingValues_ne (args : List (Argument α)) (v : α) (rest : List (Argument α)) :
    args.drop (leadingValues args).length ≠ .value v :: rest := by
  induction args with
  | nil => simp
  | cons arg args ih =>
    cases arg with
    | named name => simp [leadingValues]
    | value w => simpa [leadingValues] using ih

theorem placeOfName_eq_positional {name : String} {remaining rest : List Parameter}
    (h : placeOfName name remaining = .positional rest) : rest <:+ remaining := by
  unfold placeOfName at h
  dsimp only at h
  split_ifs at h
  cases h
  exact List.drop_suffix _ _

theorem Place.ofName_eq_positional {name : String} {place : Place} {rest : List Parameter}
    (h : place.ofName name = .positional rest) :
    ∃ remaining, place = .positional remaining ∧ rest <:+ remaining := by
  cases place with
  | named outOfOrder => cases h
  | positional remaining =>
    cases remaining with
    | nil => cases h
    | cons p ps => exact ⟨p :: ps, rfl, placeOfName_eq_positional h⟩

/-- After an offer the parameters to come are among those that were to come before. -/
theorem Offer.Leads.exists_suffix {offer : Offer α} {p : Parameter} {place : Place}
    {result : Assignment α} {k : Nat} {m : Node α} (h : offer.Leads p place result k m)
    {rest : List Parameter} (hrest : m.place = .positional rest) :
    ∃ remaining, place = .positional remaining ∧ rest <:+ remaining := by
  rcases h.place with hplace | ⟨hplace, -⟩
  · have hnext : place.next = .positional rest := hplace.symm.trans hrest
    cases place with
    | named outOfOrder => cases hnext
    | positional remaining =>
      cases hnext
      exact ⟨remaining, rfl, List.tail_suffix _⟩
  · exact ⟨rest, hplace.symm.trans hrest, List.suffix_rfl⟩

/-- So they are when a name has been passed over first. -/
theorem Offer.Leads.exists_suffix_ofName {offer : Offer α} {p : Parameter} {place : Place}
    {name : String} {result : Assignment α} {k : Nat} {m : Node α}
    (h : offer.Leads p (place.ofName name) result k m) {rest : List Parameter}
    (hrest : m.place = .positional rest) :
    ∃ remaining, place = .positional remaining ∧ rest <:+ remaining := by
  obtain ⟨between, hbetween, hsuffix⟩ := h.exists_suffix hrest
  obtain ⟨remaining, hremaining, hsuffix'⟩ := Place.ofName_eq_positional hbetween
  exact ⟨remaining, hremaining, hsuffix.trans hsuffix'⟩

/-- Every step leaves something behind. -/
theorem Node.weight_lt {params : List Parameter} {n m : Node α} {name : String}
    {nodes : List (Node α)} (h : n.move params = .branch name nodes) (hm : m ∈ nodes) :
    m.weight < n.weight := by
  rcases Node.branch_cases h with ⟨v, rest, p, ps, hargs, hplace, hmove⟩ |
    ⟨name', rest, p, hargs, -, hmove⟩ | ⟨name', rest, -, -, rfl⟩
  · -- a value at a parameter is passed by, or taken
    obtain ⟨k, hleads⟩ := Offer.exists_leads hmove hm
    have hcount : k ≤ 1 := hleads.length
    unfold Node.weight
    rw [hplace, hargs, hleads.args]
    rcases hleads.place with hnext | ⟨hstay, hpos⟩
    · simp only [hnext, hplace, Place.next, List.tail_cons, List.length_drop, List.length_cons]
      omega
    · simp only [hstay, hplace, List.length_drop, List.length_cons]
      omega
  · -- a name is left behind with at least one value
    obtain ⟨k, hleads⟩ := Offer.exists_leads hmove hm
    have hpos : 1 ≤ k := hleads.least
    have hlength : k ≤ (leadingValues rest).length := hleads.length
    have hrest : k ≤ rest.length := by
      have := (leadingValues_isPrefix rest).length_le
      rw [List.length_map] at this
      omega
    have hdrop : m.args = rest.drop k := hleads.args
    have hleft : m.args.length + k + 1 = n.args.length := by
      rw [hargs, hdrop, List.length_drop, List.length_cons]
      omega
    unfold Node.weight
    cases hm : m.place with
    | named outOfOrder =>
      dsimp only
      split <;> omega
    | positional remaining' =>
      obtain ⟨remaining, hremaining, hsuffix⟩ := hleads.exists_suffix_ofName hm
      rw [hremaining]
      have := hsuffix.length_le
      dsimp only
      omega
  · simp at hm

/-- What a step takes off the arguments for the parameter of a name: nothing, a value, or the
name itself with the values after it. -/
inductive Taken (name : String) : List (Argument α) → List α → Prop
  | nothing : Taken name [] []
  | value (v : α) : Taken name [.value v] [v]
  | block (v : α) (vs : List α) :
      Taken name (.named name :: .value v :: vs.map .value) (v :: vs)

/-- One step of the search: the arguments `taken` are left behind, and their values are given
to the parameter `p`. A value without a name goes to the parameter at the place, and a name
leaves a value behind only if its parameter has no room for it. -/
structure Node.Gives (params : List Parameter) (n m : Node α) (p : Parameter)
    (taken : List (Argument α)) (values : List α) : Prop where
  mem : p ∈ params
  takes : Taken p.name taken values
  args : n.args = taken ++ m.args
  result : m.result = n.result.put p.name (n.result.getD p.name ++ values)
  room : (p.arity.rest (n.result.getD p.name).length).HasRoom values.length
  place : ∀ rest, m.place = .positional rest →
    ∃ remaining, n.place = .positional remaining ∧ rest <:+ remaining
  atPlace : ∀ v, taken = [.value v] → ∃ ps, n.place = .positional (p :: ps)
  full : ∀ name args v rest, n.args = .named name :: args → m.args = .value v :: rest →
    ¬ p.arity.HasRoom ((n.result.getD p.name).length + values.length + 1)

theorem take_leadingValues {args : List (Argument α)} {k : Nat}
    (h : k ≤ (leadingValues args).length) :
    ((leadingValues args).take k).map Argument.value ++ args.drop k = args := by
  have hprefix : ((leadingValues args).take k).map Argument.value <+: args := by
    rw [List.map_take]
    exact (List.take_prefix _ _).trans (leadingValues_isPrefix args)
  have htake : ((leadingValues args).take k).map Argument.value = args.take k := by
    rw [List.prefix_iff_eq_take.1 hprefix, List.length_map, List.length_take, Nat.min_eq_left h]
  rw [htake, List.take_append_drop]

/-- No step does more than to give values to a parameter. -/
theorem Node.gives_of_mem {params : List Parameter} {n m : Node α} {name : String}
    {nodes : List (Node α)} (hplace : ∀ rest, n.place = .positional rest → rest <:+ params)
    (h : n.move params = .branch name nodes) (hm : m ∈ nodes) :
    ∃ p taken values, n.Gives params m p taken values := by
  rcases Node.branch_cases h with ⟨v, rest, p, ps, hargs, hp, hmove⟩ |
    ⟨name', rest, p, hargs, hfind, hmove⟩ | ⟨name', rest, -, -, rfl⟩
  · obtain ⟨k, hleads⟩ := Offer.exists_leads hmove hm
    have hcount : k ≤ 1 := hleads.length
    have htaken : ∃ taken, Taken p.name taken ([v].take k) ∧ n.args = taken ++ m.args := by
      rw [hargs, hleads.args]
      obtain rfl | rfl : k = 0 ∨ k = 1 := by omega
      · exact ⟨[], .nothing, rfl⟩
      · exact ⟨[.value v], .value v, rfl⟩
    obtain ⟨taken, htaken, happend⟩ := htaken
    refine ⟨p, taken, [v].take k, (hplace _ hp).subset List.mem_cons_self, htaken, happend,
      hleads.result, ?_, fun _ => hleads.exists_suffix, fun _ _ => ⟨ps, hp⟩, ?_⟩
    · rw [List.length_take, Nat.min_eq_left hleads.length]
      exact hleads.room
    · intro name args v' rest' hnamed
      rw [hargs] at hnamed
      cases hnamed
  · obtain ⟨k, hleads⟩ := Offer.exists_leads hmove hm
    have hpos : 1 ≤ k := hleads.least
    have hlength : k ≤ (leadingValues rest).length := hleads.length
    obtain rfl : p.name = name' := by simpa using List.find?_some hfind
    -- a name takes at least one value
    obtain ⟨v, vs, htake⟩ : ∃ v vs, (leadingValues rest).take k = v :: vs := by
      apply List.exists_cons_of_ne_nil
      rw [Ne, List.take_eq_nil_iff, not_or, ← List.length_eq_zero_iff]
      omega
    refine ⟨p, .named p.name :: .value v :: vs.map .value, v :: vs,
      List.mem_of_find?_eq_some hfind, .block v vs, ?_, ?_, ?_, fun _ =>
      hleads.exists_suffix_ofName, fun _ => nofun, ?_⟩
    · have happend := take_leadingValues hlength
      rw [htake] at happend
      rw [hargs, hleads.args]
      exact congrArg _ happend.symm
    · rw [← htake]
      exact hleads.result
    · rw [← htake, List.length_take, Nat.min_eq_left hlength]
      exact hleads.room
    · intro _ _ w rest' _ hleft hroom
      have hne : leadingValues rest ≠ [] := by
        rintro hnil
        simp [hnil] at htake
      have hk := hleads.greedy rfl hne (Nat.le_refl 1)
      -- a value is left, so fewer were taken than offered, since there was no more room
      have hlt : k < (leadingValues rest).length := by
        refine Nat.lt_of_le_of_ne hlength fun heq => ?_
        rw [hleads.args, heq] at hleft
        exact drop_leadingValues_ne rest w rest' hleft
      have hmost := Offer.most_of_lt (hk ▸ hlt)
      rw [← hk] at hmost
      obtain ⟨most, hmost, hsub⟩ := Option.map_eq_some_iff.1 hmost
      have := hroom most hmost
      rw [← htake, List.length_take, Nat.min_eq_left hlength] at this
      omega
  · simp at hm

/-! ### Sound nodes -/

/-- What holds at every node of the search: the parameters to come are the last ones, every
parameter has an entry with no more values than it takes, and every name that is left is that
of a parameter and has a value after it. -/
structure Node.Sound (params : List Parameter) (n : Node α) : Prop where
  place : ∀ rest, n.place = .positional rest → rest <:+ params
  keys : n.result.map Prod.fst = params.map (·.name)
  room : ∀ p ∈ params, p.arity.HasRoom (n.result.getD p.name).length
  known : ∀ name, .named name ∈ n.args → ∃ p ∈ params, p.name = name
  followed : emptyNames n.args = []

theorem emptyNames_of_cons {arg : Argument α} {args : List (Argument α)}
    (h : emptyNames (arg :: args) = []) : emptyNames args = [] := by
  cases arg with
  | value v => exact h
  | named name =>
    cases args with
    | nil => rfl
    | cons next args =>
      cases next with
      | named name' => cases h
      | value v => exact h

theorem emptyNames_of_append {args args' : List (Argument α)}
    (h : emptyNames (args ++ args') = []) : emptyNames args' = [] := by
  induction args with
  | nil => exact h
  | cons arg args ih => exact ih (emptyNames_of_cons h)

theorem leadingValues_ne_nil {name : String} {args : List (Argument α)}
    (h : emptyNames (.named name :: args) = []) : leadingValues args ≠ [] := by
  cases args with
  | nil => cases h
  | cons arg args =>
    cases arg with
    | named name' => cases h
    | value v => exact List.cons_ne_nil _ _

theorem eq_of_name_eq {params : List Parameter} (hnodup : (params.map (·.name)).Nodup)
    {p q : Parameter} (hp : p ∈ params) (hq : q ∈ params) (h : p.name = q.name) : p = q :=
  List.inj_on_of_nodup_map hnodup hp hq h

/-- A parameter is found by its name. -/
theorem find?_name {params : List Parameter} (hnodup : (params.map (·.name)).Nodup)
    {p : Parameter} (hp : p ∈ params) : params.find? (·.name = p.name) = some p := by
  obtain ⟨q, hq⟩ : ∃ q, params.find? (·.name = p.name) = some q := by
    rw [← Option.isSome_iff_exists, List.find?_isSome]
    exact ⟨p, hp, by simp⟩
  have hname : q.name = p.name := by simpa using List.find?_some hq
  rw [hq, eq_of_name_eq hnodup (List.mem_of_find?_eq_some hq) hp hname]

theorem Node.Sound.mem_keys {params : List Parameter} {n : Node α} (h : n.Sound params)
    {p : Parameter} (hp : p ∈ params) : p.name ∈ n.result.map Prod.fst := by
  rw [h.keys]
  exact List.mem_map_of_mem hp

/-- What a step leaves of the values given so far. -/
theorem Node.Gives.getD {params : List Parameter} {n m : Node α} {p : Parameter}
    {taken : List (Argument α)} {values : List α} (hstep : n.Gives params m p taken values)
    (h : n.Sound params) (hnodup : (params.map (·.name)).Nodup) {q : Parameter}
    (hq : q ∈ params) : m.result.getD q.name =
      n.result.getD q.name ++ if q = p then values else [] := by
  rw [hstep.result, Assignment.getD_put (h.mem_keys hstep.mem)]
  by_cases hqp : q = p
  · rw [if_pos (congrArg _ hqp), if_pos hqp, hqp]
  · rw [if_neg fun hname => hqp (eq_of_name_eq hnodup hq hstep.mem hname), if_neg hqp,
      List.append_nil]

/-- A step leads from a sound node to a sound one. -/
theorem Node.Gives.sound {params : List Parameter} {n m : Node α} {p : Parameter}
    {taken : List (Argument α)} {values : List α} (hstep : n.Gives params m p taken values)
    (h : n.Sound params) (hnodup : (params.map (·.name)).Nodup) : m.Sound params where
  place := by
    intro rest hrest
    obtain ⟨remaining, hremaining, hsuffix⟩ := hstep.place rest hrest
    exact hsuffix.trans (h.place remaining hremaining)
  keys := by rw [hstep.result, Assignment.keys_put, h.keys]
  room := by
    intro q hq
    rw [hstep.getD h hnodup hq, List.length_append]
    by_cases hqp : q = p
    · subst hqp
      rw [if_pos rfl]
      exact (h.room q hq).add hstep.room
    · rw [if_neg hqp]
      exact h.room q hq
  known := by
    intro name hname
    exact h.known name (by rw [hstep.args]; exact List.mem_append_right _ hname)
  followed := emptyNames_of_append (hstep.args ▸ h.followed)

theorem Node.sound_start {params : List Parameter} {args : List (Argument α)}
    (hknown : unknownNames params args = []) (hfollowed : emptyNames args = []) :
    (Node.start params args).Sound params where
  place := by
    rintro rest hrest
    cases hrest
    exact List.suffix_rfl
  keys := Assignment.keys_empty params
  room := by
    intro p _
    rw [Node.start, Assignment.getD_empty]
    exact p.arity.hasRoom_zero
  known := by
    intro name hname
    rw [unknownNames, List.filterMap_eq_nil_iff] at hknown
    simpa using hknown _ hname
  followed := hfollowed

/-- A name at a sound node is that of a parameter. -/
theorem Node.Sound.exists_find {params : List Parameter} {n : Node α} (h : n.Sound params)
    {name : String} {rest : List (Argument α)} (hargs : n.args = .named name :: rest) :
    ∃ p ∈ params, p.name = name ∧ params.find? (·.name = name) = some p := by
  obtain ⟨q, hq, hname⟩ := h.known name (by simp [hargs])
  obtain ⟨p, hfind⟩ : ∃ p, params.find? (·.name = name) = some p := by
    rw [← Option.isSome_iff_exists, List.find?_isSome]
    exact ⟨q, hq, by simpa using hname⟩
  exact ⟨p, List.mem_of_find?_eq_some hfind, by simpa using List.find?_some hfind, hfind⟩

/-- At a sound node the search ends, or there is a way to go on. -/
theorem Node.Sound.nodes_ne_nil {params : List Parameter} {n : Node α} (h : n.Sound params)
    {name : String} {nodes : List (Node α)} (hmove : n.move params = .branch name nodes) :
    nodes ≠ [] := by
  rcases Node.branch_cases hmove with ⟨v, rest, p, ps, -, -, hmove⟩ |
    ⟨name', rest, p, hargs, -, hmove⟩ | ⟨name', rest, hargs, hfind, -⟩
  · exact Offer.nodes_ne_nil hmove (by simp) (by simp)
  · have hfollowed := h.followed
    rw [hargs] at hfollowed
    exact Offer.nodes_ne_nil hmove (leadingValues_ne_nil hfollowed) (by simp)
  · obtain ⟨p, -, -, hsome⟩ := h.exists_find hargs
    exact absurd (hsome.symm.trans hfind) (by simp)

end Moves

end Sexpr
