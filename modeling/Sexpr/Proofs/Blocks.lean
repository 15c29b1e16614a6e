/-
Named blocks commute.

A block is a name with the values after it. Where all arguments are blocks, and no parameter
is given more values than it takes, every block goes to its parameter as a whole, wherever the
search stands by then. So all branches of the search end alike, and only the order of the
blocks of each name matters.

* `Block`, `blockArgs`, `valuesOf` — blocks, their arguments, and what they give to a name;
* `exists_move_block` — what the search does at a block;
* `ending_of_mem_leaves` — how the search ends, whatever the place it starts from;
* `matchArguments_blocks` — what blocks are matched as, in whatever order.
-/
import Sexpr.Proofs.Exhaustive

namespace Sexpr

variable {α : Type}

/-! ### Blocks -/

/-- A name with the values after it, of which there is at least one. -/
structure Block (α : Type) where
  name : String
  first : α
  more : List α
deriving DecidableEq

/-- The values of a block. -/
def Block.values (b : Block α) : List α := b.first :: b.more

/-- The arguments that a block is made of. -/
def Block.args (b : Block α) : List (Argument α) := .named b.name :: b.values.map .value

/-- The arguments that blocks are made of. -/
def blockArgs (blocks : List (Block α)) : List (Argument α) := blocks.flatMap Block.args

/-- The values that blocks give to a name, in their order. -/
def valuesOf (blocks : List (Block α)) (name : String) : List α :=
  (blocks.filter (·.name = name)).flatMap Block.values

theorem blockArgs_cons (b : Block α) (blocks : List (Block α)) :
    blockArgs (b :: blocks) = .named b.name :: (b.values.map .value ++ blockArgs blocks) := by
  rw [blockArgs, List.flatMap_cons]
  rfl

theorem valuesOf_cons (b : Block α) (blocks : List (Block α)) (name : String) :
    valuesOf (b :: blocks) name =
      (if b.name = name then b.values else []) ++ valuesOf blocks name := by
  unfold valuesOf
  by_cases hname : b.name = name
  · rw [List.filter_cons_of_pos (by simpa using hname), List.flatMap_cons, if_pos hname]
  · rw [List.filter_cons_of_neg (by simpa using hname), if_neg hname, List.nil_append]

/-- The values of a block end where the next one starts. -/
theorem leadingValues_append_blockArgs (values : List α) (blocks : List (Block α)) :
    leadingValues (values.map .value ++ blockArgs blocks) = values := by
  induction values with
  | nil =>
    cases blocks with
    | nil => rfl
    | cons b blocks => rw [blockArgs_cons]; rfl
  | cons v values ih => exact congrArg (v :: ·) ih

theorem emptyNames_append (values : List α) (args : List (Argument α)) :
    emptyNames (values.map .value ++ args) = emptyNames args := by
  induction values with
  | nil => rfl
  | cons v values ih => exact ih

theorem emptyNames_blockArgs (blocks : List (Block α)) : emptyNames (blockArgs blocks) = [] := by
  induction blocks with
  | nil => rfl
  | cons b blocks ih =>
    rw [blockArgs_cons]
    exact (emptyNames_append b.values _).trans ih

theorem unknownNames_blockArgs {params : List Parameter} {blocks : List (Block α)}
    (h : ∀ b ∈ blocks, ∃ p ∈ params, p.name = b.name) :
    unknownNames params (blockArgs blocks) = [] := by
  unfold unknownNames
  rw [List.filterMap_eq_nil_iff]
  intro arg harg
  obtain ⟨b, hb, harg⟩ := List.mem_flatMap.1 harg
  rcases List.mem_cons.1 harg with rfl | harg
  · obtain ⟨p, hp, hname⟩ := h b hb
    exact if_pos (List.any_eq_true.2 ⟨p, hp, decide_eq_true hname⟩)
  · obtain ⟨v, -, rfl⟩ := List.mem_map.1 harg
    rfl

/-! ### The search -/

/-- Where there is room for all that is offered, all of it is taken. -/
theorem Offer.most_eq_length {offer : Offer α} {left : Arity}
    (h : left.HasRoom offer.values.length) : offer.most left = offer.values.length := by
  unfold Offer.most
  cases hmost : left.most with
  | none => rfl
  | some m => exact Nat.min_eq_right (h m hmost)

/-- At a block its parameter takes all of its values, and the search goes on with the other
blocks, be it after the parameter or at it. -/
theorem exists_move_block {params : List Parameter} {p : Parameter} {b : Block α}
    (hfind : params.find? (·.name = b.name) = some p) {result : Assignment α}
    (hroom : p.arity.HasRoom ((result.getD p.name).length + b.values.length)) (place : Place)
    (blocks : List (Block α)) :
    ∃ nodes, Node.move params ⟨place, blockArgs (b :: blocks), result⟩ = .branch p.name nodes ∧
      nodes ≠ [] ∧ ∀ m ∈ nodes, m.args = blockArgs blocks ∧
        m.result = result.put p.name (result.getD p.name ++ b.values) := by
  let offer : Offer α :=
    ⟨b.values, b.values.map .value ++ blockArgs blocks, 1, true⟩
  have hmove : Node.move params ⟨place, blockArgs (b :: blocks), result⟩ =
      offer.move p (place.ofName b.name) result := by
    rw [blockArgs_cons]
    simp only [Node.move, hfind, leadingValues_append_blockArgs, offer]
  -- the parameter has room for the block, so it is not full, and no number but one is tried
  have hleft : (p.arity.rest (result.getD p.name).length).isFull = false := by
    refine Arity.isFull_rest_eq_false.2 fun m hm => ?_
    have := hroom m hm
    rw [Block.values, List.length_cons] at this
    omega
  have hrest : (p.arity.rest (result.getD p.name).length).HasRoom b.values.length := by
    intro m hm
    obtain ⟨most, hmost, rfl⟩ := Option.map_eq_some_iff.1 hm
    have := hroom most hmost
    omega
  have hcounts : offer.counts (p.arity.rest (result.getD p.name).length) = [b.values.length] := by
    rw [Offer.counts_of_greedy rfl hleft (List.cons_ne_nil _ _) (Nat.le_refl 1),
      Offer.most_eq_length hrest]
  refine ⟨offer.nodesAt p (place.ofName b.name) result b.values.length, ?_,
    List.cons_ne_nil _ _, fun m hm => ?_⟩
  · rw [hmove, Offer.move, if_neg (by simp [hleft]), hcounts, List.flatMap_singleton]
  · obtain ⟨-, hargs, hresult⟩ := Offer.mem_nodesAt hm
    refine ⟨?_, by rw [hresult, List.take_length]⟩
    rw [hargs, List.drop_left' (List.length_map _)]

/-- What a block has given and what the others will give is what all of them give. -/
theorem getD_put_append_valuesOf {result : Assignment α} {key : String} {b : Block α}
    (hkey : key ∈ result.map Prod.fst) (hname : key = b.name) (blocks : List (Block α))
    (name : String) :
    (result.put key (result.getD key ++ b.values)).getD name ++ valuesOf blocks name =
      result.getD name ++ valuesOf (b :: blocks) name := by
  rw [Assignment.getD_put hkey, valuesOf_cons, ← hname]
  by_cases heq : name = key
  · rw [if_pos heq, if_pos heq.symm, heq, List.append_assoc]
  · rw [if_neg heq, if_neg (Ne.symm heq), List.nil_append]

/-- Blocks for which there is room end the search in one way only: every parameter has got the
values of its blocks. The place does not matter, since no value is ever without a name. -/
theorem ending_of_mem_leaves {params : List Parameter} (hnodup : (params.map (·.name)).Nodup)
    {blocks : List (Block α)} (hknown : ∀ b ∈ blocks, ∃ p ∈ params, p.name = b.name)
    {place : Place} {result : Assignment α}
    (hkeys : result.map Prod.fst = params.map (·.name))
    (hroom : ∀ p ∈ params,
      p.arity.HasRoom ((result.getD p.name).length + (valuesOf blocks p.name).length))
    {c : Branch α} (h : c ∈ (searchTree params ⟨place, blockArgs blocks, result⟩).leaves) :
    c = ending params
      (params.map fun p => (p.name, result.getD p.name ++ valuesOf blocks p.name)) := by
  induction blocks generalizing place result with
  | nil =>
    have hend : (searchTree params ⟨place, blockArgs [], result⟩).leaves = [ending params result] :=
      leaves_finish rfl
    rw [hend, List.mem_singleton] at h
    rw [h]
    congr 1
    simpa [valuesOf] using Assignment.eq_map_getD hnodup hkeys
  | cons b blocks ih =>
    obtain ⟨⟨p, hp, hname⟩, hknown⟩ := List.forall_mem_cons.1 hknown
    have hfind : params.find? (·.name = b.name) = some p := hname ▸ find?_name hnodup hp
    have hgiven : ∀ name, (result.put p.name (result.getD p.name ++ b.values)).getD name ++
        valuesOf blocks name = result.getD name ++ valuesOf (b :: blocks) name :=
      getD_put_append_valuesOf (by rw [hkeys]; exact List.mem_map_of_mem hp) hname blocks
    have hfits : p.arity.HasRoom ((result.getD p.name).length + b.values.length) := by
      intro m hm
      have := hroom p hp m hm
      rw [valuesOf_cons, if_pos hname.symm, List.length_append] at this
      omega
    obtain ⟨nodes, hmove, -, hnodes⟩ := exists_move_block hfind hfits place blocks
    obtain ⟨⟨place', args', result'⟩, hm, h⟩ := (mem_leaves_branch hmove).1 h
    obtain ⟨rfl, rfl⟩ := hnodes _ hm
    rw [ih hknown (by rw [Assignment.keys_put, hkeys]) ?_ h]
    · congr 1
      exact List.map_congr_left fun q hq => by rw [hgiven q.name]
    · intro q hq
      rw [← List.length_append, hgiven q.name, List.length_append]
      exact hroom q hq

/-! ### Matching -/

section Match

variable [BEq α] [ReflBEq α]

/-- Where all ends of a search are one, that is the verdict. -/
theorem Verdict.eq_of_forall {leaves : List (Branch α)} {b c : Branch α} (h : Verdict leaves b)
    (hall : ∀ x ∈ leaves, x = c) : b = c := by
  cases h with
  | success hfirst _ => exact hall _ (mem_successes.1 (List.mem_of_head? hfirst))
  | @ambiguous name r r' h h' hne =>
    have hsame : Branch.success r = .success r' :=
      (hall _ (mem_successes.1 h)).trans (hall _ (mem_successes.1 h')).symm
    rw [Branch.success.inj hsame, BEq.rfl] at hne
    exact absurd hne (by simp)
  | failure _ _ hgravest => exact hall _ hgravest.mem

/-- Matching blocks comes to what all branches end in. -/
theorem matchArguments_eq_ending {params : List Parameter} (hnodup : (params.map (·.name)).Nodup)
    {blocks : List (Block α)} (hknown : ∀ b ∈ blocks, ∃ p ∈ params, p.name = b.name)
    (hroom : ∀ p ∈ params, p.arity.HasRoom (valuesOf blocks p.name).length) :
    matchArguments params (blockArgs blocks) =
      (ending params (params.map fun p => (p.name, valuesOf blocks p.name))).toResult.mapError
        MatchFault.arguments := by
  have hall : ∀ x ∈ matchLeaves params (blockArgs blocks),
      x = ending params (params.map fun p => (p.name, valuesOf blocks p.name)) := by
    intro x hx
    have hend := ending_of_mem_leaves hnodup hknown (Assignment.keys_empty params)
      (by simpa using hroom) hx
    simpa using hend
  have hequal : ∀ r ∈ successes (matchLeaves params (blockArgs blocks)),
      ∀ r' ∈ successes (matchLeaves params (blockArgs blocks)), (r == r') = true → r = r' := by
    intro r hr r' hr' _
    exact Branch.success.inj
      ((hall _ (mem_successes.1 hr)).trans (hall _ (mem_successes.1 hr')).symm)
  obtain ⟨b, hverdict, hmatch⟩ := exists_verdict_matchArguments hnodup
    (unknownNames_blockArgs hknown) (emptyNames_blockArgs blocks) (comparable_of_eq hequal)
  rw [hmatch, hverdict.eq_of_forall hall]

omit [BEq α] [ReflBEq α] in
theorem ending_map {params : List Parameter} (hnodup : (params.map (·.name)).Nodup)
    (given : Parameter → List α) :
    ending params (params.map fun p => (p.name, given p)) =
      if ∀ p ∈ params, p.arity.least ≤ (given p).length then
        .success (params.map fun p => (p.name, given p))
      else .missing ((params.filter fun p => (given p).length < p.arity.least).map (·.name)) := by
  have hshort : (params.filter fun p =>
      (Assignment.getD (params.map fun p => (p.name, given p)) p.name).length < p.arity.least) =
        params.filter fun p => (given p).length < p.arity.least :=
    List.filter_congr fun p hp => by rw [Assignment.getD_map hnodup given hp]
  unfold ending
  dsimp only
  rw [hshort]
  refine if_congr ?_ rfl rfl
  rw [List.isEmpty_iff, List.filter_eq_nil_iff]
  simp only [decide_eq_true_eq, Nat.not_lt]

/-- Blocks for which there is room are matched by the total of what they give. If that is
enough for every parameter, each gets the values of its blocks; otherwise those with too few
are missing. So the order of blocks of different names does not matter, and there is never more
than one way to match them. -/
theorem matchArguments_blocks {params : List Parameter} (hnodup : (params.map (·.name)).Nodup)
    {blocks : List (Block α)} (hknown : ∀ b ∈ blocks, ∃ p ∈ params, p.name = b.name)
    (hroom : ∀ p ∈ params, p.arity.HasRoom (valuesOf blocks p.name).length) :
    (matchArguments params (blockArgs blocks) =
      if ∀ p ∈ params, p.arity.least ≤ (valuesOf blocks p.name).length then
        .ok (params.map fun p => (p.name, valuesOf blocks p.name))
      else .error (.arguments (.missing
        ((params.filter fun p => (valuesOf blocks p.name).length < p.arity.least).map (·.name))))) ∧
    (∀ blocks' : List (Block α),
      (∀ name, blocks'.filter (·.name = name) = blocks.filter (·.name = name)) →
        matchArguments params (blockArgs blocks') = matchArguments params (blockArgs blocks)) ∧
    ∀ name candidates details, matchArguments params (blockArgs blocks) ≠
      .error (.arguments (.ambiguous name candidates details)) := by
  have heq : matchArguments params (blockArgs blocks) =
      if ∀ p ∈ params, p.arity.least ≤ (valuesOf blocks p.name).length then
        .ok (params.map fun p => (p.name, valuesOf blocks p.name))
      else .error (.arguments (.missing ((params.filter fun p =>
        (valuesOf blocks p.name).length < p.arity.least).map (·.name)))) := by
    rw [matchArguments_eq_ending hnodup hknown hroom,
      ending_map hnodup fun p => valuesOf blocks p.name]
    split_ifs
    · rfl
    · rfl
  refine ⟨heq, fun blocks' hfilter => ?_, fun name candidates details => ?_⟩
  · -- the same blocks give the same values to every name
    have hmem : ∀ b ∈ blocks', b ∈ blocks := by
      intro b hb
      have hfound : b ∈ blocks'.filter (·.name = b.name) := by simpa using hb
      rw [hfilter] at hfound
      exact List.mem_of_mem_filter hfound
    have hvalues : ∀ name, valuesOf blocks' name = valuesOf blocks name := fun name => by
      rw [valuesOf, hfilter, valuesOf]
    rw [matchArguments_eq_ending hnodup (fun b hb => hknown b (hmem b hb))
      (fun p hp => by rw [hvalues]; exact hroom p hp), matchArguments_eq_ending hnodup hknown hroom]
    simp only [hvalues]
  · rw [heq]
    split_ifs
    · simp
    · simp

/-- Three blocks out of order, two of them for one list: in any order that keeps the two, the
list gets its values in theirs, and the parameter without a block is missing. -/
theorem matchArguments_blocks_lists :
    matchArguments [⟨.required, "a"⟩, ⟨.oneOrMore, "b"⟩, ⟨⟨2, some 3, by simp⟩, "c"⟩]
        [.named "c", .value 7, .named "b", .value 1, .value 2, .named "c", .value 8] =
      .error (.arguments (.missing ["a"])) ∧
    matchArguments [⟨.required, "a"⟩, ⟨.oneOrMore, "b"⟩, ⟨⟨2, some 3, by simp⟩, "c"⟩]
        [.named "b", .value 1, .value 2, .named "c", .value 7, .named "c", .value 8] =
      matchArguments [⟨.required, "a"⟩, ⟨.oneOrMore, "b"⟩, ⟨⟨2, some 3, by simp⟩, "c"⟩]
        [.named "c", .value 7, .named "b", .value 1, .value 2, .named "c", .value 8] := by
  obtain ⟨heq, hreorder, -⟩ := matchArguments_blocks
    (show ([⟨.required, "a"⟩, ⟨.oneOrMore, "b"⟩, ⟨⟨2, some 3, by simp⟩, "c"⟩].map
      Parameter.name).Nodup by decide)
    (show ∀ b ∈ [(⟨"c", 7, []⟩ : Block Nat), ⟨"b", 1, [2]⟩, ⟨"c", 8, []⟩],
      ∃ p ∈ [⟨.required, "a"⟩, ⟨.oneOrMore, "b"⟩, ⟨⟨2, some 3, by simp⟩, "c"⟩],
        Parameter.name p = Block.name b by decide)
    (by
      intro p hp m hm
      simp only [List.mem_cons, List.not_mem_nil, or_false] at hp
      rcases hp with rfl | rfl | rfl
      · exact Nat.zero_le m
      · cases hm
      · cases hm
        decide)
  refine ⟨heq, hreorder [⟨"b", 1, [2]⟩, ⟨"c", 7, []⟩, ⟨"c", 8, []⟩] fun name => ?_⟩
  by_cases hb : name = "b"
  · subst hb
    rfl
  · simp [List.filter_cons, Ne.symm hb]

end Match

end Sexpr
