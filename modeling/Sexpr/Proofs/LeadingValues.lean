/-
Values in front of blocks.

Values without names go to the parameters in order, as far as they reach; none passes over a
parameter that needs a value. The blocks after them go to their parameters, and fail where one
has got its only value already. So there may be several ways to read the values in front, and
that these belong to one parameter is found out only if no other one can take any of them.

* `Spread` — how values are spread over the first parameters;
* `mem_leaves_blocks`, `mem_leaves_values` — the search through blocks, and through the values in
  front of them;
* `success_mem_matchLeaves_iff` — the assignments that are found;
* `IsFront` — values of one parameter in front of the blocks of others, `Shut` — parameters that
  can take none of them;
* `IsFront.matchArguments_eq_ok` — when the values are matched as those of their parameter.
-/
import Sexpr.Proofs.Blocks
import Sexpr.Proofs.Segmentation
import Sexpr.Proofs.Uniqueness

namespace Sexpr

variable {α β : Type}

/-! ### Spreading values -/

/-- Values are spread over parameters: the first ones take what they are given, in order, and
nothing is left for the others. -/
inductive Spread (given : String → List α) : List Parameter → List α → Prop
  | stop {ps : List Parameter} (h : ∀ p ∈ ps, given p.name = []) : Spread given ps []
  | give {p : Parameter} {ps : List Parameter} {rest : List α}
      (hfits : p.arity.Admits (given p.name).length) (h : Spread given ps rest) :
      Spread given (p :: ps) (given p.name ++ rest)

theorem spread_nil {given : String → List α} {values : List α} :
    Spread given [] values ↔ values = [] := by
  constructor
  · intro h
    cases h
    rfl
  · rintro rfl
    exact .stop (by simp)

theorem Spread.congr {given given' : String → List α} {ps : List Parameter} {values : List α}
    (h : Spread given ps values) (heq : ∀ p ∈ ps, given p.name = given' p.name) :
    Spread given' ps values := by
  induction h with
  | stop h => exact .stop fun p hp => by rw [← heq p hp, h p hp]
  | give hfits _ ih =>
    obtain ⟨hp, hps⟩ := List.forall_mem_cons.1 heq
    rw [hp] at hfits ⊢
    exact .give hfits (ih hps)

/-- Parameters that need nothing can be passed over. -/
theorem Spread.skip {given : String → List α} {before ps : List Parameter} {values : List α}
    (hbefore : ∀ p ∈ before, p.arity.least = 0 ∧ given p.name = [])
    (h : Spread given ps values) : Spread given (before ++ ps) values := by
  induction before with
  | nil => exact h
  | cons p before ih =>
    obtain ⟨⟨hleast, hgiven⟩, hbefore⟩ := List.forall_mem_cons.1 hbefore
    have hfits : p.arity.Admits (given p.name).length := by
      rw [hgiven]
      exact ⟨by simp [hleast], Arity.hasRoom_zero _⟩
    have hgive := Spread.give hfits (ih hbefore)
    rwa [hgiven, List.nil_append] at hgive

/-- The first parameter is given a segment and the others the rest, or nothing is left even for
it. -/
theorem exists_spread_cons {p : Parameter} {ps : List Parameter} (hps : p.name ∉ ps.map (·.name))
    {values : List α} {Q : Assignment α → Prop} :
    (∃ given : String → List α, Spread given (p :: ps) values ∧
        Q ((p :: ps).map fun q => (q.name, given q.name))) ↔
      values = [] ∧ Q (Assignment.empty (p :: ps)) ∨
      ∃ segment rest, values = segment ++ rest ∧ p.arity.Admits segment.length ∧
        ∃ given : String → List α, Spread given ps rest ∧
          Q ((p.name, segment) :: ps.map fun q => (q.name, given q.name)) := by
  constructor
  · rintro ⟨given, hspread, hQ⟩
    cases hspread with
    | stop hnone =>
      have hempty : ((p :: ps).map fun q => (q.name, given q.name)) = Assignment.empty (p :: ps) :=
        List.map_congr_left fun q hq => by rw [hnone q hq]
      exact .inl ⟨rfl, hempty ▸ hQ⟩
    | give hfits hspread => exact .inr ⟨_, _, rfl, hfits, given, hspread, hQ⟩
  · rintro (⟨rfl, hQ⟩ | ⟨segment, rest, rfl, hadmits, given, hspread, hQ⟩)
    · exact ⟨fun _ => [], .stop fun _ _ => rfl, hQ⟩
    · -- what the others are given does not depend on the name of the first
      let given' := Function.update given p.name segment
      have hself : given' p.name = segment := Function.update_self p.name segment given
      have hother : ∀ q ∈ ps, given q.name = given' q.name := by
        intro q hq
        have hne : q.name ≠ p.name := fun heq =>
          hps (heq ▸ List.mem_map_of_mem (f := fun q => q.name) hq)
        exact (Function.update_of_ne hne segment given).symm
      have hgive : Spread given' (p :: ps) (given' p.name ++ rest) :=
        .give (by rw [hself]; exact hadmits) (hspread.congr hother)
      have hmap : (ps.map fun q => (q.name, given q.name)) =
          ps.map fun q => (q.name, given' q.name) :=
        List.map_congr_left fun q hq => by rw [hother q hq]
      rw [hself] at hgive
      rw [hmap, ← hself] at hQ
      exact ⟨given', hgive, hQ⟩

/-! ### Blocks -/

/-- An assignment gives each parameter its values, and each takes as many. -/
def IsResult (params : List Parameter) (given : String → List α) (r : Assignment α) : Prop :=
  r = params.map (fun p => (p.name, given p.name)) ∧
    ∀ p ∈ params, p.arity.Admits (given p.name).length

theorem IsResult.congr {params : List Parameter} {given given' : String → List α}
    {r : Assignment α} (h : IsResult params given r)
    (heq : ∀ p ∈ params, given p.name = given' p.name) : IsResult params given' r := by
  refine ⟨h.1.trans (List.map_congr_left fun p hp => by rw [heq p hp]), fun p hp => ?_⟩
  rw [← heq p hp]
  exact h.2 p hp

theorem IsResult.getD_eq {params : List Parameter} {given : String → List α} {r : Assignment α}
    (h : IsResult params given r) (hnodup : (params.map (·.name)).Nodup) {p : Parameter}
    (hp : p ∈ params) : r.getD p.name = given p.name := by
  rw [h.1]
  exact Assignment.getD_map hnodup (fun p => given p.name) hp

/-- Blocks are offered to their parameters only. -/
def BlocksFit (params : List Parameter) (blocks : List (Block α)) : Prop :=
  ∀ b ∈ blocks, ∃ p ∈ params, p.name = b.name ∧ p.arity.HasRoom b.values.length

/-- A block whose parameter has no room left ends the search. -/
theorem success_notMem_of_full {params : List Parameter} {p : Parameter} {b : Block α}
    (hfind : params.find? (·.name = b.name) = some p) {result : Assignment α}
    (hfull : ¬p.arity.HasRoom ((result.getD p.name).length + 1)) (place : Place)
    (blocks : List (Block α)) (r : Assignment α) :
    .success r ∉ (searchTree params ⟨place, blockArgs (b :: blocks), result⟩).leaves := by
  have hleft : (p.arity.rest (result.getD p.name).length).isFull = true := by
    rw [← Bool.not_eq_false, Arity.isFull_rest_eq_false]
    exact hfull
  have hmove : Node.move params ⟨place, blockArgs (b :: blocks), result⟩ =
      .finish (.tooMany p.name b.values (p.arity.most == some 1)) := by
    rw [blockArgs_cons]
    simp only [Node.move, hfind, leadingValues_append_blockArgs, Offer.move, hleft, if_true]
  rw [leaves_finish hmove]
  simp

/-- For a block that fits, a parameter with one value or any number of them has room, or none at
all. -/
theorem Arity.IsSimple.not_hasRoom {a : Arity} (h : a.IsSimple) {n k : Nat} (hk : a.HasRoom k)
    (hroom : ¬a.HasRoom (n + k)) : ¬a.HasRoom (n + 1) := by
  intro hone
  refine hroom fun m hm => ?_
  have hmost := h.most_eq m hm
  have hfits := hk m hm
  have hnext := hone m hm
  omega

/-- The search through blocks succeeds if every parameter gets as many values as it takes. -/
theorem mem_leaves_blocks {params : List Parameter} (hnodup : (params.map (·.name)).Nodup)
    (hsimple : ∀ p ∈ params, p.arity.IsSimple) {blocks : List (Block α)}
    (hblocks : BlocksFit params blocks) {place : Place} {result : Assignment α}
    (hkeys : result.map Prod.fst = params.map (·.name))
    (hroom : ∀ p ∈ params, p.arity.HasRoom (result.getD p.name).length) {r : Assignment α} :
    .success r ∈ (searchTree params ⟨place, blockArgs blocks, result⟩).leaves ↔
      IsResult params (fun name => result.getD name ++ valuesOf blocks name) r := by
  induction blocks generalizing place result with
  | nil =>
    have hend : (searchTree params ⟨place, blockArgs [], result⟩).leaves = [ending params result] :=
      leaves_finish rfl
    have hresult := Assignment.eq_map_getD hnodup hkeys
    rw [hend, List.mem_singleton, eq_comm, ending_eq_success]
    simp only [IsResult, valuesOf, List.filter_nil, List.flatMap_nil, List.append_nil]
    constructor
    · rintro ⟨rfl, hleast⟩
      exact ⟨hresult, fun p hp => ⟨hleast p hp, hroom p hp⟩⟩
    · rintro ⟨rfl, hadmits⟩
      exact ⟨hresult, fun p hp => (hadmits p hp).1⟩
  | cons b blocks ih =>
    obtain ⟨⟨p, hp, hname, hfits⟩, hblocks⟩ := List.forall_mem_cons.1 hblocks
    have hfind : params.find? (·.name = b.name) = some p := hname ▸ find?_name hnodup hp
    have hkey : p.name ∈ result.map Prod.fst := by
      rw [hkeys]
      exact List.mem_map_of_mem hp
    have hgiven := getD_put_append_valuesOf hkey hname blocks
    by_cases hall : p.arity.HasRoom ((result.getD p.name).length + b.values.length)
    · obtain ⟨nodes, hmove, hne, hnodes⟩ := exists_move_block hfind hall place blocks
      have hput : ∀ q ∈ params, q.arity.HasRoom
          ((result.put p.name (result.getD p.name ++ b.values)).getD q.name).length := by
        intro q hq
        rw [Assignment.getD_put hkey]
        split_ifs with hqp
        · have hsame : q = p := List.inj_on_of_nodup_map hnodup hq hp hqp
          rw [hsame, List.length_append]
          exact hall
        · exact hroom q hq
      have hstep : ∀ m ∈ nodes, .success r ∈ (searchTree params m).leaves ↔
          IsResult params (fun name => result.getD name ++ valuesOf (b :: blocks) name) r := by
        rintro ⟨place', args', result'⟩ hm
        obtain ⟨rfl, rfl⟩ := hnodes _ hm
        rw [ih hblocks (by rw [Assignment.keys_put, hkeys]) hput]
        simp only [hgiven]
      obtain ⟨m, hm⟩ := List.exists_mem_of_ne_nil _ hne
      rw [mem_leaves_branch hmove]
      constructor
      · rintro ⟨m, hm, hr⟩
        exact (hstep m hm).1 hr
      · intro hr
        exact ⟨m, hm, (hstep m hm).2 hr⟩
    · -- the parameter has got its only value, and would get another one
      have hfull := (hsimple p hp).not_hasRoom hfits hall
      refine iff_of_false (success_notMem_of_full hfind hfull place blocks r) fun hr => hall ?_
      intro m hm
      have hlength : (result.getD p.name ++ valuesOf (b :: blocks) p.name).length ≤ m :=
        (hr.2 p hp).2 m hm
      rw [valuesOf_cons, if_pos hname.symm, List.length_append, List.length_append] at hlength
      omega

/-! ### Values in front -/

/-- Each parameter has an entry, and room for the values in it. -/
def Within (params : List Parameter) (result : Assignment α) : Prop :=
  List.Forall₂ (fun p e => e.1 = p.name ∧ p.arity.HasRoom e.2.length) params result

theorem within_empty (params : List Parameter) :
    Within params (Assignment.empty params : Assignment α) := by
  refine List.forall₂_map_right_iff.2 (List.forall₂_same.2 fun p _ => ?_)
  exact ⟨rfl, Arity.hasRoom_zero _⟩

theorem Within.append {ps qs : List Parameter} {result result' : Assignment α}
    (h : Within ps result) (h' : Within qs result') : Within (ps ++ qs) (result ++ result') :=
  List.rel_append h h'

theorem Within.keys_eq {params : List Parameter} {result : Assignment α}
    (h : Within params result) : result.map Prod.fst = params.map (·.name) := by
  induction h with
  | nil => rfl
  | cons he _ ih => rw [List.map_cons, List.map_cons, he.1, ih]

theorem Within.hasRoom {params : List Parameter} {result : Assignment α}
    (h : Within params result) (hnodup : (params.map (·.name)).Nodup) :
    ∀ p ∈ params, p.arity.HasRoom (result.getD p.name).length := by
  induction h with
  | nil => simp
  | @cons p e ps result he _ ih =>
    rw [List.map_cons, List.nodup_cons] at hnodup
    intro q hq
    rw [Assignment.getD_cons, he.1]
    rcases List.mem_cons.1 hq with rfl | hq
    · rw [if_pos rfl]
      exact he.2
    · have hne : q.name ≠ p.name := fun heq =>
        hnodup.1 (heq ▸ List.mem_map_of_mem (f := fun p => p.name) hq)
      rw [if_neg hne]
      exact ih hnodup.2 q hq

/-- The ends of the search through values: these have been spread, and the search has gone on
with what follows them. That has to come to the same wherever the values end. -/
theorem mem_leaves_values {params : List Parameter} (hnodup : (params.map (·.name)).Nodup)
    (hsimple : ∀ p ∈ params, p.arity.IsSimple) {tail : List (Argument α)} {b : Branch α}
    (hb : ∀ v outOfOrder, b ≠ .positionalAmongNamed v outOfOrder) {Q : Assignment α → Prop}
    (htail : ∀ place result, Within params result →
      (b ∈ (searchTree params ⟨place, tail, result⟩).leaves ↔ Q result))
    {front remaining : List Parameter} (hparams : params = front ++ remaining)
    {done : Assignment α} (hdone : Within front done) {values : List α} :
    b ∈ (searchTree params (fronting done remaining values tail)).leaves ↔
      ∃ given : String → List α, Spread given remaining values ∧
        Q (done ++ remaining.map fun p => (p.name, given p.name)) := by
  induction remaining generalizing front done values with
  | nil =>
    cases values with
    | nil =>
      have hwithin : Within params (done ++ Assignment.empty []) := by
        rw [hparams]
        exact hdone.append (within_empty [])
      rw [fronting, List.map_nil, List.nil_append, htail _ _ hwithin]
      constructor
      · intro hQ
        exact ⟨fun _ => [], spread_nil.2 rfl, hQ⟩
      · rintro ⟨given, -, hQ⟩
        exact hQ
    | cons v vs =>
      have hend : (searchTree params (fronting done [] (v :: vs) tail)).leaves =
          [.positionalAmongNamed v false] := leaves_finish rfl
      rw [hend, List.mem_singleton]
      refine iff_of_false (hb v false) ?_
      rintro ⟨given, hspread, -⟩
      exact absurd (spread_nil.1 hspread) (by simp)
  | cons p ps ih =>
    have hp : p ∈ params := by simp [hparams]
    have hnames := hnodup
    rw [hparams, List.map_append, ← hdone.keys_eq, List.map_cons, List.nodup_append,
      List.nodup_cons] at hnames
    obtain ⟨-, ⟨hps, -⟩, hdisjoint⟩ := hnames
    have hfront : p.name ∉ done.map Prod.fst := fun hmem =>
      hdisjoint _ hmem _ List.mem_cons_self rfl
    -- where no value is left, what follows does not depend on the place
    have hbehind : ∀ segment : List α, p.arity.HasRoom segment.length → ∀ place,
        (b ∈ (searchTree params
            ⟨place, tail, done ++ (p.name, segment) :: Assignment.empty ps⟩).leaves ↔
          Q (done ++ (p.name, segment) :: Assignment.empty ps)) := by
      intro segment hroom place
      refine htail place _ ?_
      rw [hparams]
      exact hdone.append (.cons ⟨rfl, hroom⟩ (within_empty ps))
    have hstay : ∀ segment : List α, p.arity.HasRoom segment.length →
        (b ∈ (searchTree params (holding done p segment ps [] tail)).leaves ↔
          b ∈ (searchTree params (fronting (done ++ [(p.name, segment)]) ps [] tail)).leaves) := by
      intro segment hroom
      rw [fronting, List.append_assoc]
      exact (hbehind segment hroom _).trans (hbehind segment hroom _).symm
    have hgoes : ∀ segment : List α, p.arity.HasRoom segment.length → ∀ rest,
        (b ∈ (searchTree params (fronting (done ++ [(p.name, segment)]) ps rest tail)).leaves ↔
          ∃ given : String → List α, Spread given ps rest ∧
            Q (done ++ (p.name, segment) :: ps.map fun q => (q.name, given q.name))) := by
      intro segment hroom rest
      have hgo := @ih (front ++ [p]) (by simp [hparams]) (done ++ [(p.name, segment)])
        (hdone.append (.cons ⟨rfl, hroom⟩ .nil)) rest
      simpa only [List.append_assoc, List.singleton_append] using hgo
    have hroom : p.arity.HasRoom (([] : List α).length + 1) := fun m hm =>
      Nat.le_of_eq ((hsimple p hp).most_eq m hm).symm
    refine (mem_leaves_holding hfront hps (hsimple p hp) hstay hroom).trans
      (Iff.trans (or_congr ?_ ?_) (exists_spread_cons (Q := fun r => Q (done ++ r)) hps).symm)
    · rw [← hstay [] (Arity.hasRoom_zero _)]
      exact Iff.trans (and_iff_right rfl)
        (and_congr_right fun _ => hbehind [] (Arity.hasRoom_zero _) _)
    · refine exists_congr fun segment => exists_congr fun rest => and_congr_right fun _ => ?_
      exact and_congr_right fun hadmits => hgoes segment hadmits.2 rest

/-- The assignments that are found for values in front of blocks: the values are spread over the
first parameters, and with the blocks every parameter gets as many values as it takes. -/
theorem success_mem_matchLeaves_iff {params : List Parameter}
    (hnodup : (params.map (·.name)).Nodup) (hsimple : ∀ p ∈ params, p.arity.IsSimple)
    {blocks : List (Block α)} (hblocks : BlocksFit params blocks) {values : List α}
    {r : Assignment α} :
    .success r ∈ matchLeaves params (values.map .value ++ blockArgs blocks) ↔
      ∃ given : String → List α, Spread given params values ∧
        IsResult params (fun name => given name ++ valuesOf blocks name) r := by
  have htail : ∀ place result, Within params result →
      (.success r ∈ (searchTree params ⟨place, blockArgs blocks, result⟩).leaves ↔
        IsResult params (fun name => Assignment.getD result name ++ valuesOf blocks name) r) :=
    fun place result hwithin => mem_leaves_blocks hnodup hsimple hblocks hwithin.keys_eq
      (hwithin.hasRoom hnodup)
  have hnone : Within [] ([] : Assignment α) := .nil
  refine Iff.trans (mem_leaves_values hnodup hsimple (by simp) htail rfl hnone)
    (exists_congr fun given => and_congr_right fun _ => ?_)
  have hgiven : ∀ p ∈ params,
      Assignment.getD ([] ++ params.map fun p => (p.name, given p.name)) p.name =
        given p.name := fun p hp => Assignment.getD_map hnodup (fun p => given p.name) hp
  constructor
  · intro h
    exact h.congr fun p hp => by rw [hgiven p hp]
  · intro h
    exact h.congr fun p hp => by rw [hgiven p hp]

/-! ### The values of one parameter -/

/-- None of some parameters can take one more value without a name, besides those that they have:
the first has no room for it, and if it can be passed over, none after it can take the value. -/
def Shut : List (Arity × Nat) → Prop
  | [] => True
  | (a, n) :: rest => ¬a.HasRoom (n + 1) ∧ (a.least = 0 → Shut rest)

theorem exists_of_not_shut {shape : β → Arity × Nat} {qs : List β}
    (h : ¬Shut (qs.map shape)) :
    ∃ mid q rest, qs = mid ++ q :: rest ∧ (∀ m ∈ mid, (shape m).1.least = 0) ∧
      (shape q).1.HasRoom ((shape q).2 + 1) := by
  induction qs with
  | nil => exact absurd trivial h
  | cons q qs ih =>
    by_cases hroom : (shape q).1.HasRoom ((shape q).2 + 1)
    · exact ⟨[], q, qs, rfl, by simp, hroom⟩
    · have hpassed : ¬((shape q).1.least = 0 → Shut (qs.map shape)) := fun hpassed =>
        h ⟨hroom, hpassed⟩
      rw [Classical.not_imp] at hpassed
      obtain ⟨mid, q', rest, rfl, hmid, hroom'⟩ := ih hpassed.2
      exact ⟨q :: mid, q', rest, rfl, List.forall_mem_cons.2 ⟨hpassed.1, hmid⟩, hroom'⟩

theorem Spread.eq_flatMap {given : String → List α} {ps : List Parameter} {values : List α}
    (h : Spread given ps values) : values = ps.flatMap fun p => given p.name := by
  induction h with
  | stop h => exact (List.flatMap_eq_nil_iff.2 h).symm
  | give _ _ ih => rw [List.flatMap_cons, ← ih]

/-- Parameters that are shut are given nothing. -/
theorem Spread.eq_nil_of_shut {given : String → List α} {count : Parameter → Nat}
    {ps : List Parameter} {values : List α} (h : Spread given ps values)
    (hshut : Shut (ps.map fun p => (p.arity, count p)))
    (hroom : ∀ p ∈ ps, p.arity.HasRoom ((given p.name).length + count p)) :
    ∀ p ∈ ps, given p.name = [] := by
  induction h with
  | stop h => exact h
  | @give p ps rest hfits _ ih =>
    obtain ⟨hself, hrooms⟩ := List.forall_mem_cons.1 hroom
    have hnil : given p.name = [] := by
      by_contra hne
      have hpos := List.length_pos_iff.2 hne
      refine hshut.1 fun m hm => ?_
      have hlength := hself m hm
      omega
    have hleast : p.arity.least = 0 := by
      have hneeds := hfits.1
      rw [hnil, List.length_nil] at hneeds
      omega
    exact List.forall_mem_cons.2 ⟨hnil, ih (hshut.2 hleast) hrooms⟩

/-- Values are spread over two parameters. -/
theorem spread_two {given : String → List α} {before mid after : List Parameter}
    {p q : Parameter} (hbefore : ∀ x ∈ before, x.arity.least = 0 ∧ given x.name = [])
    (hp : p.arity.Admits (given p.name).length)
    (hmid : ∀ x ∈ mid, x.arity.least = 0 ∧ given x.name = [])
    (hq : q.arity.Admits (given q.name).length) (hafter : ∀ x ∈ after, given x.name = []) :
    Spread given (before ++ p :: (mid ++ q :: after)) (given p.name ++ given q.name) := by
  have hlast : Spread given (q :: after) (given q.name ++ []) := .give hq (.stop hafter)
  rw [List.append_nil] at hlast
  exact .skip hbefore (.give hp (.skip hmid hlast))

/-- All values are given to one name. -/
def givenTo (name : String) (values : List α) (other : String) : List α :=
  if other = name then values else []

/-- Some values are given to one name and some to another. -/
def givenBoth (name : String) (values : List α) (name' : String) (values' : List α)
    (other : String) : List α :=
  if other = name' then values' else givenTo name values other

theorem givenBoth_left {name name' : String} (h : name ≠ name') (values values' : List α) :
    givenBoth name values name' values' name = values := by
  rw [givenBoth, if_neg h, givenTo, if_pos rfl]

theorem givenBoth_right (name name' : String) (values values' : List α) :
    givenBoth name values name' values' name' = values' := if_pos rfl

theorem givenBoth_of_ne {name name' other : String} (h : other ≠ name) (h' : other ≠ name')
    (values values' : List α) : givenBoth name values name' values' other = [] := by
  rw [givenBoth, if_neg h', givenTo, if_neg h]

theorem name_ne_of_nodup {l l' : List Parameter} {p : Parameter}
    (h : ((l ++ p :: l').map (·.name)).Nodup) : ∀ q ∈ l ++ l', q.name ≠ p.name := by
  rw [List.map_append, List.map_cons, List.nodup_middle, List.nodup_cons, ← List.map_append] at h
  exact fun q hq heq => h.1 (heq ▸ List.mem_map_of_mem (f := fun q => q.name) hq)

/-- Values of one parameter stand in front of the blocks of others. The parameters before it have
no values and need none, and all others get as many as they take. -/
structure IsFront (before : List Parameter) (p : Parameter) (after : List Parameter)
    (values : List α) (blocks : List (Block α)) : Prop where
  nodup : ((before ++ p :: after).map (·.name)).Nodup
  simple : ∀ q ∈ before ++ p :: after, q.arity.IsSimple
  fit : BlocksFit (before ++ p :: after) blocks
  ne_nil : values ≠ []
  before : ∀ q ∈ before, q.arity.least = 0 ∧ valuesOf blocks q.name = []
  self : valuesOf blocks p.name = []
  admits : p.arity.Admits values.length
  after : ∀ q ∈ after, q.arity.Admits (valuesOf blocks q.name).length

namespace IsFront

variable {before after : List Parameter} {p : Parameter} {values : List α}
  {blocks : List (Block α)}

theorem name_ne_of_mem_before (h : IsFront before p after values blocks) :
    ∀ q ∈ before, q.name ≠ p.name := fun q hq =>
  name_ne_of_nodup h.nodup q (List.mem_append_left _ hq)

theorem name_ne_of_mem_after (h : IsFront before p after values blocks) :
    ∀ q ∈ after, q.name ≠ p.name := fun q hq =>
  name_ne_of_nodup h.nodup q (List.mem_append_right _ hq)

theorem mem_self : p ∈ before ++ p :: after := List.mem_append_right _ List.mem_cons_self

theorem admits_blocks (h : IsFront before p after values blocks) {q : Parameter}
    (hq : q ∈ before ++ p :: after) (hne : q.name ≠ p.name) :
    q.arity.Admits (valuesOf blocks q.name).length := by
  rcases List.mem_append.1 hq with hq | hq
  · obtain ⟨hleast, hnone⟩ := h.before q hq
    rw [hnone]
    exact ⟨by simp [hleast], Arity.hasRoom_zero _⟩
  · rcases List.mem_cons.1 hq with rfl | hq
    · exact absurd rfl hne
    · exact h.after q hq

/-- All parameters get as many values as they take if the one in front does, and others are given
one value at most, where there is room. -/
theorem isResult (h : IsFront before p after values blocks) {given : String → List α}
    (hself : p.arity.Admits (given p.name).length)
    (hothers : ∀ q ∈ before ++ p :: after, q.name ≠ p.name → given q.name = [] ∨
      (given q.name).length = 1 ∧ q.arity.HasRoom ((valuesOf blocks q.name).length + 1)) :
    IsResult (before ++ p :: after) (fun name => given name ++ valuesOf blocks name)
      ((before ++ p :: after).map fun q => (q.name, given q.name ++ valuesOf blocks q.name)) := by
  refine ⟨rfl, fun q hq => ?_⟩
  show q.arity.Admits (given q.name ++ valuesOf blocks q.name).length
  by_cases hname : q.name = p.name
  · have hsame : q = p := List.inj_on_of_nodup_map h.nodup hq mem_self hname
    rw [hsame, h.self, List.append_nil]
    exact hself
  · rcases hothers q hq hname with hnone | ⟨hone, hroom⟩
    · rw [hnone, List.nil_append]
      exact h.admits_blocks hq hname
    · have hleast := (h.simple q hq).least_le
      rw [List.length_append, hone, Nat.add_comm]
      exact ⟨by omega, hroom⟩

/-- It is found that the values in front belong to the parameter. -/
theorem spread (h : IsFront before p after values blocks) :
    Spread (givenTo p.name values) (before ++ p :: after) values := by
  have hself : givenTo p.name values p.name = values := if_pos rfl
  have hgive : Spread (givenTo p.name values) (p :: after) (givenTo p.name values p.name ++ []) := by
    refine .give ?_ (.stop fun q hq => if_neg (h.name_ne_of_mem_after q hq))
    rw [hself]
    exact h.admits
  rw [hself, List.append_nil] at hgive
  exact .skip (fun q hq => ⟨(h.before q hq).1, if_neg (h.name_ne_of_mem_before q hq)⟩) hgive

/-- If the parameter needs the only value, or comes first and those after it are shut, it is
given all of the values. -/
theorem eq_givenTo (h : IsFront before p after values blocks)
    (howns : p.arity.least = 1 ∧ values.length = 1 ∨
      before = [] ∧ Shut (after.map fun q => (q.arity, (valuesOf blocks q.name).length)))
    {given : String → List α} (hspread : Spread given (before ++ p :: after) values)
    (hadmits : ∀ q ∈ before ++ p :: after,
      q.arity.Admits (given q.name ++ valuesOf blocks q.name).length) :
    ∀ q ∈ before ++ p :: after, given q.name = givenTo p.name values q.name := by
  have hvalues := hspread.eq_flatMap
  rw [List.flatMap_append, List.flatMap_cons] at hvalues
  -- it is enough that all others are given nothing
  have hfrom : (before.flatMap fun q => given q.name) = [] →
      (after.flatMap fun q => given q.name) = [] →
        ∀ q ∈ before ++ p :: after, given q.name = givenTo p.name values q.name := by
    intro hbefore hafter q hq
    rw [hbefore, hafter, List.nil_append, List.append_nil] at hvalues
    rw [List.flatMap_eq_nil_iff] at hbefore hafter
    rcases List.mem_append.1 hq with hq | hq
    · rw [hbefore q hq, givenTo, if_neg (h.name_ne_of_mem_before q hq)]
    · rcases List.mem_cons.1 hq with rfl | hq
      · rw [← hvalues, givenTo, if_pos rfl]
      · rw [hafter q hq, givenTo, if_neg (h.name_ne_of_mem_after q hq)]
  rcases howns with ⟨hleast, hone⟩ | ⟨rfl, hshut⟩
  · have hneeds := (hadmits p mem_self).1
    rw [h.self, List.append_nil, hleast] at hneeds
    have hlength := congrArg List.length hvalues
    rw [List.length_append, List.length_append, hone] at hlength
    exact hfrom (List.length_eq_zero_iff.1 (by omega)) (List.length_eq_zero_iff.1 (by omega))
  · refine hfrom rfl (List.flatMap_eq_nil_iff.2 ?_)
    cases hspread with
    | stop hnone => exact absurd rfl h.ne_nil
    | give hfits hspread =>
      refine hspread.eq_nil_of_shut hshut fun q hq => ?_
      rw [← List.length_append]
      exact (hadmits q (List.mem_cons_of_mem _ hq)).2

/-- All values but one leave nothing missing, unless the only one is needed. -/
theorem admits_rest (h : IsFront before p after values blocks)
    (hspare : ¬(p.arity.least = 1 ∧ values.length = 1)) {rest : List α}
    (hrest : rest.length + 1 = values.length) : p.arity.Admits rest.length := by
  have hleast := (h.simple p mem_self).least_le
  refine ⟨by omega, fun m hm => ?_⟩
  have hlength := h.admits.2 m hm
  omega

theorem admits_one (h : IsFront before p after values blocks) {q : Parameter}
    (hq : q ∈ before ++ p :: after) : q.arity.Admits 1 := by
  have hsimple := h.simple q hq
  exact ⟨hsimple.least_le, fun m hm => Nat.le_of_eq (hsimple.most_eq m hm).symm⟩

/-- One of the values is given to another parameter, if that has room for it. -/
theorem isResult_givenBoth (h : IsFront before p after values blocks) {q : Parameter}
    (hq : q ∈ before ++ p :: after) (hne : q.name ≠ p.name)
    (hroom : q.arity.HasRoom ((valuesOf blocks q.name).length + 1)) {rest : List α}
    (hrest : p.arity.Admits rest.length) (v : α) :
    IsResult (before ++ p :: after)
      (fun name => givenBoth p.name rest q.name [v] name ++ valuesOf blocks name)
      ((before ++ p :: after).map fun x =>
        (x.name, givenBoth p.name rest q.name [v] x.name ++ valuesOf blocks x.name)) := by
  refine h.isResult ?_ fun x hx hname => ?_
  · rw [givenBoth_left (Ne.symm hne)]
    exact hrest
  · by_cases hxq : x.name = q.name
    · have hsame : x = q := List.inj_on_of_nodup_map h.nodup hx hq hxq
      rw [hsame, givenBoth_right]
      exact .inr ⟨rfl, hroom⟩
    · exact .inl (givenBoth_of_ne hname hxq rest [v])

/-- The first value can go to a parameter before the one that has it. -/
theorem spread_before {q : Parameter} {rest : List α} {v : α}
    (h : IsFront (q :: before) p after (v :: rest) blocks) (hrest : p.arity.Admits rest.length) :
    Spread (givenBoth p.name rest q.name [v]) (q :: before ++ p :: after) (v :: rest) := by
  have hqp : q.name ≠ p.name := h.name_ne_of_mem_before q List.mem_cons_self
  have hnames : ∀ x ∈ [] ++ (before ++ p :: after), x.name ≠ q.name := name_ne_of_nodup h.nodup
  have hleft : givenBoth p.name rest q.name [v] p.name = rest := givenBoth_left (Ne.symm hqp) ..
  have hright : givenBoth p.name rest q.name [v] q.name = [v] := givenBoth_right ..
  have hspread : Spread (givenBoth p.name rest q.name [v]) ([] ++ q :: (before ++ p :: after))
      (givenBoth p.name rest q.name [v] q.name ++ givenBoth p.name rest q.name [v] p.name) := by
    refine spread_two (by simp) ?_ (fun x hx => ?_) ?_ fun x hx => ?_
    · rw [hright]
      exact h.admits_one List.mem_cons_self
    · have hx' : x ∈ q :: before := List.mem_cons_of_mem q hx
      exact ⟨(h.before x hx').1,
        givenBoth_of_ne (h.name_ne_of_mem_before x hx') (hnames x (by simp [hx])) _ _⟩
    · rw [hleft]
      exact hrest
    · exact givenBoth_of_ne (h.name_ne_of_mem_after x hx) (hnames x (by simp [hx])) _ _
  rw [hright, hleft] at hspread
  exact hspread

/-- The last value can go to a parameter after the one that has it, if those in between can be
passed over. -/
theorem spread_after {q : Parameter} {mid last : List Parameter} {rest : List α} {v : α}
    (h : IsFront before p (mid ++ q :: last) (rest ++ [v]) blocks)
    (hmid : ∀ x ∈ mid, x.arity.least = 0) (hrest : p.arity.Admits rest.length) :
    Spread (givenBoth p.name rest q.name [v]) (before ++ p :: (mid ++ q :: last))
      (rest ++ [v]) := by
  have hqp : q.name ≠ p.name := h.name_ne_of_mem_after q (by simp)
  have hnames : ∀ x ∈ (before ++ p :: mid) ++ last, x.name ≠ q.name :=
    name_ne_of_nodup (by simpa using h.nodup)
  have hleft : givenBoth p.name rest q.name [v] p.name = rest := givenBoth_left (Ne.symm hqp) ..
  have hright : givenBoth p.name rest q.name [v] q.name = [v] := givenBoth_right ..
  have hspread : Spread (givenBoth p.name rest q.name [v]) (before ++ p :: (mid ++ q :: last))
      (givenBoth p.name rest q.name [v] p.name ++ givenBoth p.name rest q.name [v] q.name) := by
    refine spread_two (fun x hx => ?_) ?_ (fun x hx => ?_) ?_ fun x hx => ?_
    · exact ⟨(h.before x hx).1,
        givenBoth_of_ne (h.name_ne_of_mem_before x hx) (hnames x (by simp [hx])) _ _⟩
    · rw [hleft]
      exact hrest
    · exact ⟨hmid x hx,
        givenBoth_of_ne (h.name_ne_of_mem_after x (by simp [hx])) (hnames x (by simp [hx])) _ _⟩
    · rw [hright]
      exact h.admits_one (by simp)
    · exact givenBoth_of_ne (h.name_ne_of_mem_after x (by simp [hx])) (hnames x (by simp [hx])) _ _
  rw [hright, hleft] at hspread
  exact hspread

/-- If the parameter does not need the only value, and does not come first or one after it is not
shut, then one of the values can be given to another parameter as well. -/
theorem exists_other (h : IsFront before p after values blocks)
    (howns : ¬(p.arity.least = 1 ∧ values.length = 1 ∨
      before = [] ∧ Shut (after.map fun q => (q.arity, (valuesOf blocks q.name).length)))) :
    ∃ given r, Spread given (before ++ p :: after) values ∧
      IsResult (before ++ p :: after) (fun name => given name ++ valuesOf blocks name) r ∧
      (given p.name).length < values.length := by
  rw [not_or] at howns
  obtain ⟨hspare, hshut⟩ := howns
  cases before with
  | cons q before =>
    obtain ⟨v, rest, rfl⟩ := List.exists_cons_of_ne_nil h.ne_nil
    have hqp : q.name ≠ p.name := h.name_ne_of_mem_before q List.mem_cons_self
    have hrest : p.arity.Admits rest.length := h.admits_rest hspare rfl
    have hroom : q.arity.HasRoom ((valuesOf blocks q.name).length + 1) := by
      rw [(h.before q List.mem_cons_self).2]
      exact (h.admits_one List.mem_cons_self).2
    refine ⟨_, _, h.spread_before hrest,
      h.isResult_givenBoth List.mem_cons_self hqp hroom hrest v, ?_⟩
    rw [givenBoth_left (Ne.symm hqp)]
    exact Nat.lt_succ_self _
  | nil =>
    obtain ⟨mid, q, last, rfl, hmid, hroom⟩ := exists_of_not_shut fun hall => hshut ⟨rfl, hall⟩
    obtain ⟨rest, v, rfl⟩ : ∃ rest v, values = rest ++ [v] :=
      ⟨_, _, (List.dropLast_append_getLast h.ne_nil).symm⟩
    have hqp : q.name ≠ p.name := h.name_ne_of_mem_after q (by simp)
    have hrest : p.arity.Admits rest.length := h.admits_rest hspare (by simp)
    refine ⟨_, _, h.spread_after hmid hrest,
      h.isResult_givenBoth (by simp) hqp hroom hrest v, ?_⟩
    rw [givenBoth_left (Ne.symm hqp), List.length_append]
    exact Nat.lt_succ_self _

theorem unknownNames_eq (h : IsFront before p after values blocks) :
    unknownNames (before ++ p :: after) (values.map .value ++ blockArgs blocks) = [] := by
  have hblocks : unknownNames (before ++ p :: after) (blockArgs blocks) = [] :=
    unknownNames_blockArgs fun b hb => by
      obtain ⟨q, hq, hname, -⟩ := h.fit b hb
      exact ⟨q, hq, hname⟩
  unfold unknownNames at hblocks ⊢
  rw [List.filterMap_append, hblocks, List.append_nil, List.filterMap_map]
  exact List.filterMap_eq_nil_iff.2 fun _ _ => rfl

/-- Values in front of blocks are matched if they can be those of their parameter only, and then
as its own. -/
theorem matchArguments_eq_ok [BEq α] [ReflBEq α] (h : IsFront before p after values blocks)
    {r : Assignment α} :
    matchArguments (before ++ p :: after) (values.map .value ++ blockArgs blocks) = .ok r ↔
      r = (before ++ p :: after).map (fun q =>
        (q.name, givenTo p.name values q.name ++ valuesOf blocks q.name)) ∧
      (p.arity.least = 1 ∧ values.length = 1 ∨
        before = [] ∧ Shut (after.map fun q => (q.arity, (valuesOf blocks q.name).length))) := by
  have hself : givenTo p.name values p.name = values := if_pos rfl
  have hfound : IsResult (before ++ p :: after)
      (fun name => givenTo p.name values name ++ valuesOf blocks name)
      ((before ++ p :: after).map fun q =>
        (q.name, givenTo p.name values q.name ++ valuesOf blocks q.name)) := by
    refine h.isResult ?_ fun q _ hname => .inl (if_neg hname)
    rw [hself]
    exact h.admits
  rw [matchArguments_eq_ok_iff h.nodup h.simple h.unknownNames_eq
    ((emptyNames_append values _).trans (emptyNames_blockArgs blocks))]
  simp only [success_mem_matchLeaves_iff h.nodup h.simple h.fit]
  constructor
  · rintro ⟨-, hunique⟩
    refine ⟨(hunique _ ⟨_, h.spread, hfound⟩).symm, ?_⟩
    by_contra howns
    obtain ⟨given, r', hspread, hr', hless⟩ := h.exists_other howns
    -- both are the only assignment, but the parameter has fewer values in one
    have hall := hfound.getD_eq h.nodup mem_self
    have hfewer := hr'.getD_eq h.nodup mem_self
    rw [hunique _ ⟨_, h.spread, hfound⟩, hself] at hall
    rw [hunique _ ⟨given, hspread, hr'⟩, hall] at hfewer
    rw [List.append_cancel_right hfewer] at hless
    exact Nat.lt_irrefl _ hless
  · rintro ⟨rfl, howns⟩
    refine ⟨⟨_, h.spread, hfound⟩, ?_⟩
    rintro r' ⟨given, hspread, hr'⟩
    have hsame : IsResult (before ++ p :: after)
        (fun name => givenTo p.name values name ++ valuesOf blocks name) r' :=
      hr'.congr fun q hq => by rw [h.eq_givenTo howns hspread hr'.2 q hq]
    exact hsame.1

end IsFront

end Sexpr
