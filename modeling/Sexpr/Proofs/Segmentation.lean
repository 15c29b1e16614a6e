/-
Positional values are cut into segments.

Values without names among them go to the parameters in order, so an assignment is a way to
cut the list of values into consecutive segments, one for each parameter. The search decides
on one value at a time; if every parameter takes one value or any number of them, and needs
at most one, it finds exactly these cuts.

* `IsCut` — a cut of values into segments that the parameters take;
* `fronting`, `holding` — the nodes of the search, `exists_move_holding` — what it does there;
* `Stops` — how the search for a cut ends, `mem_leaves_fronting` — it ends in these ways only;
* `matchArguments_iff_cut` — values are matched if there is one cut, and only then.
-/
import Mathlib.Algebra.GroupWithZero.Nat
import Mathlib.Data.List.Forall2
import Sexpr.Proofs.Exhaustive

namespace Sexpr

variable {α : Type}

/-! ### Cuts -/

/-- A cut of values into consecutive segments, one for each parameter, of lengths that the
parameters take. -/
structure IsCut (params : List Parameter) (values : List α) (segments : List (List α)) : Prop where
  flatten : segments.flatten = values
  fits : List.Forall₂ (fun p segment => p.arity.Admits segment.length) params segments

theorem isCut_nil {values : List α} {segments : List (List α)} :
    IsCut [] values segments ↔ values = [] ∧ segments = [] := by
  constructor
  · rintro ⟨hflatten, hfits⟩
    cases hfits
    exact ⟨hflatten.symm, rfl⟩
  · rintro ⟨rfl, rfl⟩
    exact ⟨rfl, .nil⟩

theorem isCut_cons {p : Parameter} {ps : List Parameter} {values segment : List α}
    {segments : List (List α)} : IsCut (p :: ps) values (segment :: segments) ↔
      p.arity.Admits segment.length ∧
        ∃ rest, values = segment ++ rest ∧ IsCut ps rest segments := by
  constructor
  · rintro ⟨hflatten, hfits⟩
    cases hfits with
    | cons hfit hfits => exact ⟨hfit, _, hflatten.symm, rfl, hfits⟩
  · rintro ⟨hfit, rest, rfl, hflatten, hfits⟩
    exact ⟨congrArg _ hflatten, .cons hfit hfits⟩

theorem IsCut.exists_cons {p : Parameter} {ps : List Parameter} {values : List α}
    {segments : List (List α)} (h : IsCut (p :: ps) values segments) :
    ∃ segment segments' rest, segments = segment :: segments' ∧ values = segment ++ rest ∧
      p.arity.Admits segment.length ∧ IsCut ps rest segments' := by
  obtain ⟨rfl, hfits⟩ := h
  cases hfits with
  | cons hfit hfits => exact ⟨_, _, _, rfl, rfl, hfit, rfl, hfits⟩

/-- The assignment of segments to parameters. -/
def assign (params : List Parameter) (segments : List (List α)) : Assignment α :=
  (params.map (·.name)).zip segments

theorem IsCut.assign_eq_empty {params : List Parameter} {segments : List (List α)}
    (h : IsCut params [] segments) : assign params segments = Assignment.empty params := by
  induction params generalizing segments with
  | nil => rfl
  | cons p ps ih =>
    obtain ⟨segment, segments, rest, rfl, hvalues, -, hcut⟩ := h.exists_cons
    obtain ⟨rfl, rfl⟩ := List.append_eq_nil_iff.1 hvalues.symm
    exact congrArg _ (ih hcut)

/-- Segments of the same list are told apart by their lengths. -/
theorem IsCut.eq_of_beq [BEq α] {params : List Parameter} {values : List α}
    {segments segments' : List (List α)} (h : IsCut params values segments)
    (h' : IsCut params values segments')
    (hbeq : (assign params segments == assign params segments') = true) :
    segments = segments' := by
  induction params generalizing values segments segments' with
  | nil => rw [(isCut_nil.1 h).2, (isCut_nil.1 h').2]
  | cons p ps ih =>
    obtain ⟨segment, segments, rest, rfl, hvalues, -, hcut⟩ := h.exists_cons
    obtain ⟨segment', segments', rest', rfl, hvalues', -, hcut'⟩ := h'.exists_cons
    rw [assign, assign, List.map_cons, List.zip_cons_cons, List.zip_cons_cons,
      List.cons_beq_cons, Bool.and_eq_true] at hbeq
    obtain ⟨hhead, htail⟩ := hbeq
    -- equality of the values need not be lawful, but equal lists have equal lengths
    have hlength : segment.length = segment'.length :=
      List.length_eq_of_beq (Bool.and_eq_true_iff.1 hhead).2
    obtain ⟨rfl, rfl⟩ := List.append_inj (hvalues.symm.trans hvalues') hlength
    rw [ih hcut hcut' htail]

theorem IsCut.least_le {params : List Parameter} {values : List α} {segments : List (List α)}
    (h : IsCut params values segments) : (params.map (·.arity.least)).sum ≤ values.length := by
  obtain ⟨rfl, hfits⟩ := h
  induction hfits with
  | nil => simp
  | cons hfit hfits ih =>
    simp only [List.map_cons, List.sum_cons, List.flatten_cons, List.length_append]
    have := hfit.1
    omega

theorem IsCut.le_most {params : List Parameter} {values : List α} {segments : List (List α)}
    (h : IsCut params values segments) {ms : List Nat}
    (hms : params.map (·.arity.most) = ms.map some) : values.length ≤ ms.sum := by
  obtain ⟨rfl, hfits⟩ := h
  induction hfits generalizing ms with
  | nil => simp
  | cons hfit hfits ih =>
    cases ms with
    | nil => simp at hms
    | cons m ms =>
      rw [List.map_cons, List.map_cons, List.cons.injEq] at hms
      simp only [List.sum_cons, List.flatten_cons, List.length_append]
      have := hfit.2 m hms.1
      have := ih hms.2
      omega

theorem sum_least_le {params : List Parameter} {ms : List Nat}
    (h : params.map (·.arity.most) = ms.map some) :
    (params.map (·.arity.least)).sum ≤ ms.sum := by
  induction params generalizing ms with
  | nil => simp
  | cons p ps ih =>
    cases ms with
    | nil => simp at h
    | cons m ms =>
      rw [List.map_cons, List.map_cons, List.cons.injEq] at h
      have := p.arity.least_le m h.1
      have := ih h.2
      rw [List.map_cons, List.sum_cons, List.sum_cons]
      omega

/-- Enough values, and not too many, can be cut. -/
theorem exists_isCut {params : List Parameter} {values : List α}
    (hleast : (params.map (·.arity.least)).sum ≤ values.length)
    (hmost : ∀ ms : List Nat, params.map (·.arity.most) = ms.map some → values.length ≤ ms.sum) :
    ∃ segments, IsCut params values segments := by
  induction params generalizing values with
  | nil =>
    have hvalues : values = [] := by
      have := hmost [] rfl
      rw [List.sum_nil, Nat.le_zero, List.length_eq_zero_iff] at this
      exact this
    exact ⟨[], isCut_nil.2 ⟨hvalues, rfl⟩⟩
  | cons p ps ih =>
    rw [List.map_cons, List.sum_cons] at hleast
    -- the first parameter takes as much as it can without leaving too little for the others
    obtain ⟨k, hk, hadmits, hrest⟩ : ∃ k, k + (ps.map (·.arity.least)).sum ≤ values.length ∧
        p.arity.Admits k ∧ ∀ ms : List Nat, ps.map (·.arity.most) = ms.map some →
          values.length - k ≤ ms.sum := by
      by_cases hall : p.arity.HasRoom (values.length - (ps.map (·.arity.least)).sum)
      · refine ⟨_, by omega, ⟨by omega, hall⟩, fun ms hms => ?_⟩
        have := sum_least_le hms
        omega
      · obtain ⟨m, hm, hlt⟩ : ∃ m, p.arity.most = some m ∧
            m < values.length - (ps.map (·.arity.least)).sum := by
          simpa only [Arity.HasRoom, not_forall, Nat.not_le, exists_prop] using hall
        refine ⟨m, by omega, ⟨p.arity.least_le m hm, fun m' hm' => ?_⟩, fun ms hms => ?_⟩
        · rw [hm, Option.some_inj] at hm'
          omega
        · have := hmost (m :: ms) (by rw [List.map_cons, List.map_cons, hm, hms])
          rw [List.sum_cons] at this
          omega
    have hlength : (values.drop k).length = values.length - k := List.length_drop
    obtain ⟨segments, hsegments⟩ := ih (by rw [hlength]; omega) (hlength ▸ hrest)
    refine ⟨values.take k :: segments, isCut_cons.2 ⟨?_, _, (List.take_append_drop k _).symm,
      hsegments⟩⟩
    rwa [List.length_take, Nat.min_eq_left (by omega)]

/-! ### Simple arities -/

/-- One value or any number of them, of which at most one is needed. -/
structure Arity.IsSimple (a : Arity) : Prop where
  least_le : a.least ≤ 1
  most_eq : ∀ m, a.most = some m → m = 1

theorem Arity.isSimple_of_mem {a : Arity}
    (h : a ∈ [Arity.required, Arity.optional, Arity.zeroOrMore, Arity.oneOrMore]) : a.IsSimple := by
  simp only [List.mem_cons, List.not_mem_nil, or_false] at h
  rcases h with rfl | rfl | rfl | rfl
  · exact ⟨by decide, by simp [Arity.required]⟩
  · exact ⟨by decide, by simp [Arity.optional]⟩
  · exact ⟨by decide, by simp [Arity.zeroOrMore]⟩
  · exact ⟨by decide, by simp [Arity.oneOrMore]⟩

/-! ### Nodes of the search -/

/-- The node in front of the next parameters, with values and then other arguments to come. -/
def fronting (done : Assignment α) (remaining : List Parameter) (values : List α)
    (tail : List (Argument α)) : Node α :=
  ⟨.positional remaining, values.map .value ++ tail, done ++ Assignment.empty remaining⟩

/-- The node at a parameter that has taken some values, with others to come. -/
def holding (done : Assignment α) (p : Parameter) (given : List α) (ps : List Parameter)
    (values : List α) (tail : List (Argument α)) : Node α :=
  ⟨.positional (p :: ps), values.map .value ++ tail,
    done ++ (p.name, given) :: Assignment.empty ps⟩

theorem Assignment.put_append_cons {done rest : Assignment α} {name : String}
    (hdone : name ∉ done.map Prod.fst) (hrest : name ∉ rest.map Prod.fst) (old new : List α) :
    Assignment.put (done ++ (name, old) :: rest) name new = done ++ (name, new) :: rest := by
  have hsame : ∀ {r : Assignment α}, name ∉ r.map Prod.fst →
      r.map (fun e => if e.1 = name then (name, new) else e) = r := by
    intro r hr
    conv_rhs => rw [← List.map_id r]
    refine List.map_congr_left fun e he => if_neg ?_
    exact fun heq => hr (heq ▸ List.mem_map_of_mem he)
  rw [Assignment.put, List.map_append, List.map_cons, hsame hdone, hsame hrest, if_pos rfl]

theorem Assignment.getD_append_cons {done rest : Assignment α} {name : String}
    (hdone : name ∉ done.map Prod.fst) (values : List α) :
    Assignment.getD (done ++ (name, values) :: rest) name = values := by
  induction done with
  | nil => rw [List.nil_append, Assignment.getD_cons, if_pos rfl]
  | cons e done ih =>
    rw [List.map_cons, List.mem_cons, not_or] at hdone
    rw [List.cons_append, Assignment.getD_cons, if_neg hdone.1, ih hdone.2]

/-- The offer of the next value. -/
def Offer.next (v : α) (vs : List α) : Offer α := ⟨[v], (v :: vs).map .value, 0, false⟩

/-- One value is taken, or left to the next parameter if nothing is needed. -/
theorem Offer.counts_next (v : α) (vs : List α) {left : Arity} (h : left.isFull = false) :
    (Offer.next v vs).counts left = if left.least = 0 then [0, 1] else [1] := by
  have hmost : (Offer.next v vs).most left = 1 := by
    unfold Offer.most
    cases hcases : left.most with
    | none => rfl
    | some m =>
      have hm : m ≠ 0 := fun hzero => by simp [Arity.isFull, hcases, hzero] at h
      simp only [Offer.next, List.length_singleton]
      omega
  rw [Offer.counts, hmost]
  simp only [Offer.fewest, Offer.next, List.length_singleton, Nat.zero_max, Bool.false_eq_true,
    if_false]
  split_ifs with hleast
  · rw [hleast]
    rfl
  · rw [Nat.min_eq_right (by omega)]
    rfl

section Holding

variable {params : List Parameter} {done : Assignment α} {p : Parameter} {ps : List Parameter}

/-- What the search does at a parameter that has room for the next value, whatever follows: it
leaves the value to the next parameter, takes it and goes on there, or takes it and stays. -/
theorem exists_move_holding (hdone : p.name ∉ done.map Prod.fst) (hps : p.name ∉ ps.map (·.name))
    {given : List α} (hroom : p.arity.HasRoom (given.length + 1)) (v : α) (vs : List α)
    (tail : List (Argument α)) :
    ∃ nodes, (holding done p given ps (v :: vs) tail).move params = .branch p.name nodes ∧
      ∀ m, m ∈ nodes ↔
        p.arity.least ≤ given.length ∧ m = fronting (done ++ [(p.name, given)]) ps (v :: vs) tail ∨
        m = fronting (done ++ [(p.name, given ++ [v])]) ps vs tail ∨
        p.arity.HasRoom (given.length + 2) ∧ m = holding done p (given ++ [v]) ps vs tail := by
  let offer : Offer α := ⟨[v], .value v :: (vs.map .value ++ tail), 0, false⟩
  let result : Assignment α := done ++ (p.name, given) :: Assignment.empty ps
  have hgiven : result.getD p.name = given := Assignment.getD_append_cons hdone given
  have hput : ∀ new : List α,
      result.put p.name new = done ++ (p.name, new) :: Assignment.empty ps :=
    Assignment.put_append_cons hdone (by rwa [Assignment.keys_empty]) given
  have hfull : (p.arity.rest given.length).isFull = false := Arity.isFull_rest_eq_false.2 hroom
  have hmove : (holding done p given ps (v :: vs) tail).move params = .branch p.name
      ((if (p.arity.rest given.length).least = 0 then [0, 1] else [1]).flatMap
        (offer.nodesAt p (.positional (p :: ps)) result)) := by
    have hcounts : offer.counts (p.arity.rest given.length) =
        if (p.arity.rest given.length).least = 0 then [0, 1] else [1] :=
      Offer.counts_next v [] hfull
    show offer.move p _ result = _
    unfold Offer.move
    dsimp only
    rw [hgiven, hfull, if_neg (by simp), hcounts]
  have hzero : offer.nodesAt p (.positional (p :: ps)) result 0 =
      [fronting (done ++ [(p.name, given)]) ps (v :: vs) tail] := by
    rw [Offer.nodesAt, hgiven, hput]
    simp [fronting, Place.next, offer]
  have hone : ∀ m, m ∈ offer.nodesAt p (.positional (p :: ps)) result 1 ↔
      m = fronting (done ++ [(p.name, given ++ [v])]) ps vs tail ∨
        p.arity.HasRoom (given.length + 2) ∧ m = holding done p (given ++ [v]) ps vs tail := by
    intro m
    rw [Offer.nodesAt, hgiven, hput, List.mem_cons, Arity.rest_rest,
      ← Arity.isFull_rest_eq_false]
    cases hfull : (p.arity.rest (given.length + 1)).isFull <;>
      simp [fronting, holding, Place.next, offer]
  refine ⟨_, hmove, fun m => ?_⟩
  by_cases hleast : p.arity.least ≤ given.length
  · have hnone : (p.arity.rest given.length).least = 0 := Nat.sub_eq_zero_of_le hleast
    rw [if_pos hnone, List.flatMap_cons, List.flatMap_singleton, List.mem_append, hzero,
      List.mem_singleton, hone]
    simp [hleast]
  · have hsome : (p.arity.rest given.length).least ≠ 0 := Nat.sub_ne_zero_of_lt (by omega)
    rw [if_neg hsome, List.flatMap_singleton, hone]
    simp [hleast]

/-- The ends of the search at a parameter: it takes some of the values, and the search goes on
after it. Behind the last value it does not matter whether the search stays at the parameter. -/
theorem mem_leaves_holding (hdone : p.name ∉ done.map Prod.fst) (hps : p.name ∉ ps.map (·.name))
    (hsimple : p.arity.IsSimple) {tail : List (Argument α)} {b : Branch α}
    (hstay : ∀ segment : List α, p.arity.HasRoom segment.length →
      (b ∈ (searchTree params (holding done p segment ps [] tail)).leaves ↔
        b ∈ (searchTree params (fronting (done ++ [(p.name, segment)]) ps [] tail)).leaves))
    {given values : List α} (hroom : p.arity.HasRoom (given.length + 1)) :
    b ∈ (searchTree params (holding done p given ps values tail)).leaves ↔
      given = [] ∧ values = [] ∧
        b ∈ (searchTree params (fronting (done ++ [(p.name, [])]) ps [] tail)).leaves ∨
      ∃ more rest, values = more ++ rest ∧ p.arity.Admits (given ++ more).length ∧
        b ∈ (searchTree params
          (fronting (done ++ [(p.name, given ++ more)]) ps rest tail)).leaves := by
  have hgiven : p.arity.HasRoom given.length := fun m hm => Nat.le_of_succ_le (hroom m hm)
  have hleast := hsimple.least_le
  -- by induction on the values, since the search stays at the parameter after taking one
  induction values generalizing given with
  | nil =>
    rw [hstay given hgiven]
    constructor
    · intro hb
      by_cases hnil : given = []
      · subst hnil
        exact .inl ⟨rfl, rfl, hb⟩
      · -- a parameter that has taken a value lacks none
        have hpos := List.length_pos_iff.2 hnil
        refine .inr ⟨[], [], rfl, ?_, ?_⟩
        · rw [List.append_nil]
          exact ⟨by omega, hgiven⟩
        · rwa [List.append_nil]
    · rintro (⟨rfl, -, hb⟩ | ⟨more, rest, hvalues, -, hb⟩)
      · exact hb
      · obtain ⟨rfl, rfl⟩ := List.append_eq_nil_iff.1 hvalues.symm
        rwa [List.append_nil] at hb
  | cons v vs ih =>
    obtain ⟨nodes, hmove, hnodes⟩ := exists_move_holding hdone hps hroom v vs tail
    rw [mem_leaves_branch hmove]
    constructor
    · rintro ⟨m, hm, hb⟩
      rcases (hnodes m).1 hm with ⟨henough, rfl⟩ | rfl | ⟨hmore, rfl⟩
      · refine .inr ⟨[], v :: vs, rfl, ?_⟩
        rw [List.append_nil]
        exact ⟨⟨henough, hgiven⟩, hb⟩
      · refine .inr ⟨[v], vs, rfl, ?_, hb⟩
        rw [List.length_append, List.length_singleton]
        exact ⟨by omega, hroom⟩
      · have htaken : p.arity.HasRoom ((given ++ [v]).length + 1) := by simpa using hmore
        have hsegment : p.arity.HasRoom (given ++ [v]).length := by simpa using hroom
        rcases (ih htaken hsegment).1 hb with ⟨hnil, -⟩ | ⟨more, rest, rfl, hadmits, hb⟩
        · simp at hnil
        · rw [List.append_assoc, List.singleton_append] at hadmits hb
          exact .inr ⟨v :: more, rest, rfl, hadmits, hb⟩
    · rintro (⟨-, hvalues, -⟩ | ⟨more, rest, hvalues, hadmits, hb⟩)
      · simp at hvalues
      · cases more with
        | nil =>
          rw [List.nil_append] at hvalues
          rw [List.append_nil] at hadmits hb
          subst hvalues
          exact ⟨_, (hnodes _).2 (.inl ⟨hadmits.1, rfl⟩), hb⟩
        | cons w more =>
          rw [List.cons_append, List.cons.injEq] at hvalues
          obtain ⟨rfl, rfl⟩ := hvalues
          -- the last value of the segment is taken on the way to the next parameter
          by_cases hlast : more = []
          · subst hlast
            exact ⟨_, (hnodes _).2 (.inr (.inl rfl)), hb⟩
          · have hmore : p.arity.HasRoom (given.length + 2) := by
              intro m hm
              have hlength := hadmits.2 m hm
              have hpos := List.length_pos_iff.2 hlast
              rw [List.length_append, List.length_cons] at hlength
              omega
            have htaken : p.arity.HasRoom ((given ++ [v]).length + 1) := by simpa using hmore
            have hsegment : p.arity.HasRoom (given ++ [v]).length := by simpa using hroom
            refine ⟨_, (hnodes _).2 (.inr (.inr ⟨hmore, rfl⟩)), ?_⟩
            refine (ih htaken hsegment).2 (.inr ⟨more, rest, rfl, ?_⟩)
            rw [List.append_assoc, List.singleton_append]
            exact ⟨hadmits, hb⟩

end Holding

/-! ### Ends -/

/-- How the search for a cut ends: the values have been cut among the first parameters and
none is left for the others, or they have been cut among all parameters and some are left. -/
inductive Stops (params : List Parameter) (done : Assignment α) (remaining : List Parameter)
    (values : List α) : Branch α → Prop
  | short {ps ps' : List Parameter} {segments : List (List α)} {r : Assignment α}
      (hremaining : remaining = ps ++ ps') (hcut : IsCut ps values segments)
      (hr : r = done ++ (assign ps segments ++ Assignment.empty ps')) :
      Stops params done remaining values (ending params r)
  | surplus {front rest : List α} {v : α} {segments : List (List α)}
      (hvalues : values = front ++ v :: rest) (hcut : IsCut remaining front segments) :
      Stops params done remaining values (.positionalAmongNamed v false)

theorem stops_nil {params remaining : List Parameter} {done : Assignment α} {b : Branch α} :
    Stops params done remaining [] b ↔
      b = ending params (done ++ Assignment.empty remaining) := by
  constructor
  · intro h
    cases h with
    | short hremaining hcut hr =>
      rw [hr, hremaining, hcut.assign_eq_empty, Assignment.empty, Assignment.empty,
        Assignment.empty, List.map_append]
    | surplus hvalues hcut => simp at hvalues
  · rintro rfl
    have hcut : IsCut [] ([] : List α) [] := isCut_nil.2 ⟨rfl, rfl⟩
    exact .short (List.nil_append remaining).symm hcut rfl

/-- The first parameter takes a segment, or nothing is left even for it. -/
theorem stops_cons {params ps : List Parameter} {p : Parameter} {done : Assignment α}
    {values : List α} {b : Branch α} :
    Stops params done (p :: ps) values b ↔
      values = [] ∧ b = ending params (done ++ Assignment.empty (p :: ps)) ∨
      ∃ segment rest, values = segment ++ rest ∧ p.arity.Admits segment.length ∧
        Stops params (done ++ [(p.name, segment)]) ps rest b := by
  constructor
  · intro h
    cases h with
    | @short ps₁ ps₂ segments r hremaining hcut hr =>
      cases ps₁ with
      | nil =>
        obtain ⟨hvalues, rfl⟩ := isCut_nil.1 hcut
        rw [List.nil_append] at hremaining
        exact .inl ⟨hvalues, by rw [hr, hremaining]; rfl⟩
      | cons q qs =>
        rw [List.cons_append, List.cons.injEq] at hremaining
        obtain ⟨rfl, hps⟩ := hremaining
        obtain ⟨segment, segments, rest, rfl, hvalues, hadmits, htail⟩ := hcut.exists_cons
        refine .inr ⟨segment, rest, hvalues, hadmits, .short hps htail ?_⟩
        rw [hr, List.append_assoc]
        rfl
    | @surplus front rest v segments hvalues hcut =>
      obtain ⟨segment, segments, rest', rfl, rfl, hadmits, htail⟩ := hcut.exists_cons
      refine .inr ⟨segment, rest' ++ v :: rest, by rw [hvalues, List.append_assoc], hadmits, ?_⟩
      exact .surplus rfl htail
  · rintro (⟨rfl, rfl⟩ | ⟨segment, rest, rfl, hadmits, hstops⟩)
    · exact stops_nil.2 rfl
    · cases hstops with
      | @short ps₁ ps₂ segments r hremaining hcut hr =>
        have hcons : IsCut (p :: ps₁) (segment ++ rest) (segment :: segments) :=
          isCut_cons.2 ⟨hadmits, rest, rfl, hcut⟩
        refine .short (congrArg (p :: ·) hremaining) hcons ?_
        rw [hr, List.append_assoc]
        rfl
      | @surplus front rest' v segments hvalues hcut =>
        have hcons : IsCut (p :: ps) (segment ++ front) (segment :: segments) :=
          isCut_cons.2 ⟨hadmits, front, rfl, hcut⟩
        exact .surplus (by rw [hvalues, List.append_assoc]) hcons

theorem leaves_of_args_nil (params : List Parameter) (place : Place) (result : Assignment α) :
    (searchTree params ⟨place, [], result⟩).leaves = [ending params result] :=
  leaves_finish rfl

/-- The ends of the search at a parameter where nothing follows the values. -/
theorem mem_leaves_holding_nil {params ps : List Parameter} {done : Assignment α} {p : Parameter}
    (hdone : p.name ∉ done.map Prod.fst) (hps : p.name ∉ ps.map (·.name))
    (hsimple : p.arity.IsSimple)
    (hnext : ∀ values segment b,
      b ∈ (searchTree params (fronting (done ++ [(p.name, segment)]) ps values [])).leaves ↔
        Stops params (done ++ [(p.name, segment)]) ps values b)
    {given values : List α} (hroom : p.arity.HasRoom (given.length + 1)) {b : Branch α} :
    b ∈ (searchTree params (holding done p given ps values [])).leaves ↔
      given = [] ∧ values = [] ∧ b = ending params (done ++ Assignment.empty (p :: ps)) ∨
      ∃ more rest, values = more ++ rest ∧ p.arity.Admits (given ++ more).length ∧
        Stops params (done ++ [(p.name, given ++ more)]) ps rest b := by
  have hstay : ∀ segment : List α, p.arity.HasRoom segment.length →
      (b ∈ (searchTree params (holding done p segment ps [] [])).leaves ↔
        b ∈ (searchTree params (fronting (done ++ [(p.name, segment)]) ps [] [])).leaves) := by
    intro segment _
    rw [holding, fronting, List.map_nil, List.nil_append, leaves_of_args_nil, leaves_of_args_nil,
      List.append_assoc]
    rfl
  rw [mem_leaves_holding hdone hps hsimple hstay hroom]
  simp only [hnext, stops_nil, List.append_assoc]
  rfl

/-- The ends of the search for a cut. -/
theorem mem_leaves_fronting {params remaining : List Parameter} {done : Assignment α}
    {values : List α} (hnodup : (done.map Prod.fst ++ remaining.map (·.name)).Nodup)
    (hsimple : ∀ p ∈ remaining, p.arity.IsSimple) {b : Branch α} :
    b ∈ (searchTree params (fronting done remaining values [])).leaves ↔
      Stops params done remaining values b := by
  induction remaining generalizing done values b with
  | nil =>
    cases values with
    | nil =>
      rw [stops_nil, fronting, List.map_nil, List.nil_append, leaves_of_args_nil,
        List.mem_singleton]
    | cons v vs =>
      have hend : (searchTree params (fronting done [] (v :: vs) [])).leaves =
          [.positionalAmongNamed v false] := leaves_finish rfl
      rw [hend, List.mem_singleton]
      constructor
      · rintro rfl
        have hcut : IsCut [] ([] : List α) [] := isCut_nil.2 ⟨rfl, rfl⟩
        exact .surplus (List.nil_append (v :: vs)).symm hcut
      · intro h
        cases h with
        | short hremaining hcut hr =>
          obtain ⟨rfl, -⟩ := List.append_eq_nil_iff.1 hremaining.symm
          exact absurd (isCut_nil.1 hcut).1 (by simp)
        | surplus hvalues hcut =>
          rw [(isCut_nil.1 hcut).1, List.nil_append, List.cons.injEq] at hvalues
          rw [hvalues.1]
  | cons p ps ih =>
    obtain ⟨hsimple, hsimples⟩ := List.forall_mem_cons.1 hsimple
    have hsplit : ∀ segment : List α,
        ((done ++ [(p.name, segment)]).map Prod.fst ++ ps.map (·.name)).Nodup := by
      intro segment
      simpa using hnodup
    have hdone : p.name ∉ done.map Prod.fst := fun hmem =>
      (List.nodup_append.1 hnodup).2.2 _ hmem _ List.mem_cons_self rfl
    have hps : p.name ∉ ps.map (·.name) :=
      (List.nodup_cons.1 (List.nodup_append.1 hnodup).2.1).1
    have hroom : p.arity.HasRoom (([] : List α).length + 1) := fun m hm =>
      Nat.le_of_eq (hsimple.most_eq m hm).symm
    show b ∈ (searchTree params (holding done p [] ps values [])).leaves ↔ _
    rw [mem_leaves_holding_nil hdone hps hsimple
      (fun _ segment _ => ih (hsplit segment) hsimples) hroom, stops_cons]
    simp

/-! ### Matching -/

theorem keys_assign {params : List Parameter} {segments : List (List α)}
    (h : params.length = segments.length) :
    (assign params segments).map Prod.fst = params.map (·.name) := by
  rw [assign, List.map_fst_zip (by simp [h])]

theorem IsCut.exists_mem_assign {params : List Parameter} {values : List α}
    {segments : List (List α)} (h : IsCut params values segments) {p : Parameter}
    (hp : p ∈ params) :
    ∃ segment, (p.name, segment) ∈ assign params segments ∧ p.arity.Admits segment.length := by
  induction params generalizing values segments with
  | nil => simp at hp
  | cons q qs ih =>
    obtain ⟨segment, segments, rest, rfl, -, hadmits, hcut⟩ := h.exists_cons
    rcases List.mem_cons.1 hp with rfl | hp
    · exact ⟨segment, List.mem_cons_self, hadmits⟩
    · obtain ⟨segment', hmem, hadmits'⟩ := ih hcut hp
      exact ⟨segment', List.mem_cons_of_mem _ hmem, hadmits'⟩

/-- Parameters that need nothing may follow. -/
theorem IsCut.append_empty {ps ps' : List Parameter} {values : List α}
    {segments : List (List α)} (h : IsCut ps values segments)
    (hleast : ∀ p ∈ ps', p.arity.least = 0) :
    ∃ segments', IsCut (ps ++ ps') values segments' ∧
      assign (ps ++ ps') segments' = assign ps segments ++ Assignment.empty ps' := by
  have hempty : List.Forall₂ (fun p (segment : List α) => p.arity.Admits segment.length) ps'
      (ps'.map fun _ => []) := by
    rw [List.forall₂_map_right_iff, List.forall₂_same]
    exact fun p hp => ⟨Nat.le_of_eq (hleast p hp), p.arity.hasRoom_zero⟩
  refine ⟨segments ++ ps'.map fun _ => [], ⟨?_, List.rel_append h.fits hempty⟩, ?_⟩
  · have hnothing : (ps'.map fun _ => ([] : List α)).flatten = [] := by simp
    rw [List.flatten_append, h.flatten, hnothing, List.append_nil]
  · rw [assign, List.map_append, List.zip_append (by simp [h.fits.length_eq])]
    congr 1
    rw [Assignment.empty, List.zip_map']

/-- The assignments that are found are the cuts. -/
theorem stops_success {params : List Parameter} (hnodup : (params.map (·.name)).Nodup)
    {values : List α} {r : Assignment α} :
    Stops params [] params values (.success r) ↔
      ∃ segments, IsCut params values segments ∧ r = assign params segments := by
  constructor
  · intro h
    generalize hb : Branch.success r = b at h
    cases h with
    | surplus hvalues hcut => cases hb
    | @short ps ps' segments r' hparams hcut hr =>
      obtain ⟨rfl, hleast⟩ := ending_eq_success.1 hb.symm
      rw [List.nil_append] at hr
      subst hr
      have hkeys : ((assign ps segments ++ Assignment.empty ps').map Prod.fst).Nodup := by
        rwa [List.map_append, keys_assign hcut.fits.length_eq, Assignment.keys_empty,
          ← List.map_append, ← hparams]
      have hzero : ∀ p ∈ ps', p.arity.least = 0 := by
        intro p hp
        have hmem : (p.name, []) ∈ assign ps segments ++ Assignment.empty ps' :=
          List.mem_append_right _ (List.mem_map_of_mem (f := fun p => (p.name, [])) hp)
        have := hleast p (by rw [hparams]; exact List.mem_append_right _ hp)
        rw [Assignment.getD_of_mem hkeys hmem] at this
        exact Nat.le_zero.1 this
      obtain ⟨segments', hcut', hassign⟩ := hcut.append_empty hzero
      rw [← hparams] at hcut' hassign
      exact ⟨segments', hcut', hassign.symm⟩
  · rintro ⟨segments, hcut, rfl⟩
    have hstops : Stops params [] params values (ending params (assign params segments)) :=
      .short (List.append_nil params).symm hcut (List.append_nil _).symm
    have hend : ending params (assign params segments) = .success (assign params segments) := by
      refine ending_eq_success.2 ⟨rfl, fun p hp => ?_⟩
      obtain ⟨segment, hmem, hadmits⟩ := hcut.exists_mem_assign hp
      have hkeys : ((assign params segments).map Prod.fst).Nodup := by
        rwa [keys_assign hcut.fits.length_eq]
      rw [Assignment.getD_of_mem hkeys hmem]
      exact hadmits.1
    rwa [hend] at hstops

theorem unknownNames_values (params : List Parameter) (values : List α) :
    unknownNames params (values.map .value) = [] := by
  simp [unknownNames]

theorem emptyNames_values (values : List α) : emptyNames (values.map .value) = [] := by
  induction values with
  | nil => rfl
  | cons v values ih => exact ih

/-- The ends of the search for a match of positional values. -/
theorem mem_matchLeaves_values {params : List Parameter} (hnodup : (params.map (·.name)).Nodup)
    (hsimple : ∀ p ∈ params, p.arity.IsSimple) {values : List α} {b : Branch α} :
    b ∈ matchLeaves params (values.map .value) ↔ Stops params [] params values b := by
  have hkeys : (([] : Assignment α).map Prod.fst ++ params.map (·.name)).Nodup := hnodup
  have hstops : b ∈ (searchTree params (fronting [] params values [])).leaves ↔
      Stops params [] params values b := mem_leaves_fronting hkeys hsimple
  rwa [fronting, List.append_nil] at hstops

/-- The assignments that are found are the cuts. -/
theorem mem_successes_values {params : List Parameter} (hnodup : (params.map (·.name)).Nodup)
    (hsimple : ∀ p ∈ params, p.arity.IsSimple) {values : List α} {r : Assignment α} :
    r ∈ successes (matchLeaves params (values.map .value)) ↔
      ∃ segments, IsCut params values segments ∧ r = assign params segments := by
  rw [mem_successes, mem_matchLeaves_values hnodup hsimple, stops_success hnodup]

/-- Values are left over only where every parameter has what it needs. -/
theorem Stops.cases {params : List Parameter} {values : List α} {b : Branch α}
    (h : Stops params [] params values b) :
    (∃ r, b = .success r) ∨ (∃ names, b = .missing names) ∨
      (∃ v, b = .positionalAmongNamed v false) ∧
        (params.map (·.arity.least)).sum < values.length := by
  cases h with
  | @short ps ps' segments r hparams hcut hr =>
    rcases ending_cases params r with hend | ⟨names, hend⟩
    · exact .inl ⟨_, hend⟩
    · exact .inr (.inl ⟨names, hend⟩)
  | surplus hvalues hcut =>
    refine .inr (.inr ⟨⟨_, rfl⟩, ?_⟩)
    have := hcut.least_le
    rw [hvalues, List.length_append, List.length_cons]
    omega

/-- If there are too many values, some are left over. -/
theorem exists_stops_surplus {params : List Parameter} {values : List α} {mosts : List Nat}
    (hmosts : params.map (·.arity.most) = mosts.map some) (hlt : mosts.sum < values.length) :
    ∃ v, Stops params [] params values (.positionalAmongNamed v false) := by
  have htake : (values.take mosts.sum).length = mosts.sum := by
    rw [List.length_take]
    omega
  obtain ⟨segments, hcut⟩ : ∃ segments, IsCut params (values.take mosts.sum) segments := by
    refine exists_isCut (by rw [htake]; exact sum_least_le hmosts) fun ms hms => ?_
    have hsame : mosts = ms :=
      List.map_inj_right (fun _ _ => Option.some.inj) |>.1 (hmosts.symm.trans hms)
    exact Nat.le_of_eq (htake.trans (congrArg _ hsame))
  obtain ⟨v, rest, hrest⟩ : ∃ v rest, values.drop mosts.sum = v :: rest := by
    apply List.exists_cons_of_ne_nil
    rw [Ne, List.drop_eq_nil_iff]
    omega
  have hvalues : values = values.take mosts.sum ++ v :: rest := by
    rw [← hrest, List.take_append_drop]
  exact ⟨v, .surplus hvalues hcut⟩

section Match

variable [BEq α] [ReflBEq α]

/-- Positional values are matched by their cuts. -/
theorem exists_branch_of_cuts {params : List Parameter} (hnodup : (params.map (·.name)).Nodup)
    (hsimple : ∀ p ∈ params, p.arity.IsSimple) (values : List α) :
    ∃ b : Branch α, matchArguments params (values.map .value) =
        b.toResult.mapError MatchFault.arguments ∧
      ((∃ segments, b = .success (assign params segments) ∧ IsCut params values segments ∧
          ∀ segments', IsCut params values segments' → segments' = segments) ∨
        (∃ name, b = .ambiguous name) ∧ (∃ segments segments', IsCut params values segments ∧
          IsCut params values segments' ∧ segments ≠ segments') ∨
        (∃ names, b = .missing names) ∧ values.length < (params.map (·.arity.least)).sum ∨
        (∃ v, b = .positionalAmongNamed v false) ∧
          ∃ mosts : List Nat, params.map (·.arity.most) = mosts.map some ∧
            mosts.sum < values.length) := by
  have hsuccess : ∀ r, r ∈ successes (matchLeaves params (values.map .value)) ↔
      ∃ segments, IsCut params values segments ∧ r = assign params segments :=
    fun r => mem_successes_values hnodup hsimple
  have heq : ∀ r ∈ successes (matchLeaves params (values.map .value)),
      ∀ r' ∈ successes (matchLeaves params (values.map .value)), (r == r') = true → r = r' := by
    intro r hr r' hr' hbeq
    obtain ⟨segments, hcut, rfl⟩ := (hsuccess r).1 hr
    obtain ⟨segments', hcut', rfl⟩ := (hsuccess r').1 hr'
    rw [hcut.eq_of_beq hcut' hbeq]
  obtain ⟨b, hverdict, hmatch⟩ := exists_verdict_matchArguments hnodup
    (unknownNames_values params values) (emptyNames_values values) (comparable_of_eq heq)
  refine ⟨b, hmatch, ?_⟩
  cases hverdict with
  | @success r hfirst hall =>
    obtain ⟨segments, hcut, rfl⟩ := (hsuccess r).1 (List.mem_of_head? hfirst)
    refine .inl ⟨segments, rfl, hcut, fun segments' hcut' => ?_⟩
    exact hcut'.eq_of_beq hcut (hall _ ((hsuccess _).2 ⟨segments', hcut', rfl⟩))
  | @ambiguous name r r' h h' hne =>
    obtain ⟨segments, hcut, rfl⟩ := (hsuccess r).1 h
    obtain ⟨segments', hcut', rfl⟩ := (hsuccess r').1 h'
    refine .inr (.inl ⟨⟨name, rfl⟩, segments, segments', hcut, hcut', ?_⟩)
    rintro rfl
    rw [BEq.rfl] at hne
    exact absurd hne (by simp)
  | failure hnone hb hgravest =>
    have hnocut : ∀ segments, ¬ IsCut params values segments := by
      intro segments hcut
      have hmem := (hsuccess _).2 ⟨segments, hcut, rfl⟩
      rw [hnone] at hmem
      exact absurd hmem (by simp)
    have hstops := (mem_matchLeaves_values hnodup hsimple).1 hgravest.mem
    by_cases hleast : values.length < (params.map (·.arity.least)).sum
    · -- nothing is left over, so all branches lack values
      rcases hstops.cases with ⟨r, rfl⟩ | hmissing | ⟨-, hlt⟩
      · have hmem := mem_successes.2 hgravest.mem
        rw [hnone] at hmem
        exact absurd hmem (by simp)
      · exact .inr (.inr (.inl ⟨hmissing, hleast⟩))
      · omega
    · -- a branch with values left over is graver than all that lack some
      obtain ⟨mosts, hmosts, hlt⟩ : ∃ mosts : List Nat,
          params.map (·.arity.most) = mosts.map some ∧ mosts.sum < values.length := by
        by_contra hall
        refine (exists_isCut (Nat.not_lt.1 hleast) fun ms hms => ?_).elim hnocut
        exact Nat.not_lt.1 fun hlt => hall ⟨ms, hms, hlt⟩
      obtain ⟨v, hover⟩ := exists_stops_surplus hmosts hlt
      have hsevere := hgravest.severity_le ((mem_matchLeaves_values hnodup hsimple).2 hover)
      rcases hstops.cases with ⟨r, rfl⟩ | ⟨names, rfl⟩ | ⟨hextra, -⟩
      · exact absurd hsevere (by simp [Branch.severity])
      · exact absurd hsevere (by simp [Branch.severity])
      · exact .inr (.inr (.inr ⟨hextra, mosts, hmosts, hlt⟩))

/-- Positional values are matched if there is one cut of them, and only then. Two cuts are an
ambiguity; if there is none, values are missing, or there are too many. -/
theorem matchArguments_iff_cut {params : List Parameter} (hnodup : (params.map (·.name)).Nodup)
    (harities : ∀ p ∈ params,
      p.arity ∈ [Arity.required, Arity.optional, Arity.zeroOrMore, Arity.oneOrMore])
    (values : List α) :
    (∀ r, matchArguments params (values.map .value) = .ok r ↔
      ∃ segments, r = assign params segments ∧ IsCut params values segments ∧
        ∀ segments', IsCut params values segments' → segments' = segments) ∧
    ((∃ name, matchArguments params (values.map .value) =
        .error (.arguments (.ambiguous (some name) none ArgumentFault.ambiguousDetails))) ↔
      ∃ segments segments', IsCut params values segments ∧ IsCut params values segments' ∧
        segments ≠ segments') ∧
    ((∃ names, matchArguments params (values.map .value) = .error (.arguments (.missing names))) ↔
      values.length < (params.map (·.arity.least)).sum) ∧
    ((∃ extra, matchArguments params (values.map .value) = .error (.arguments (.tooMany extra))) ↔
      ∃ mosts : List Nat, params.map (·.arity.most) = mosts.map some ∧
        mosts.sum < values.length) := by
  obtain ⟨b, hmatch, hcases⟩ := exists_branch_of_cuts hnodup
    (fun p hp => Arity.isSimple_of_mem (harities p hp)) values
  -- the four cases exclude each other, by the number of values or of cuts
  have hleast : ∀ segments, IsCut params values segments →
      ¬ values.length < (params.map (·.arity.least)).sum :=
    fun segments hcut => Nat.not_lt.2 hcut.least_le
  have hmost : ∀ segments, IsCut params values segments → ¬ ∃ mosts : List Nat,
      params.map (·.arity.most) = mosts.map some ∧ mosts.sum < values.length := by
    rintro segments hcut ⟨mosts, hmosts, hlt⟩
    exact Nat.not_lt.2 (hcut.le_most hmosts) hlt
  simp only [hmatch, Branch.toResult_eq_ok, Branch.toResult_eq_ambiguous]
  rcases hcases with ⟨segments, rfl, hcut, hunique⟩ |
    ⟨⟨name, rfl⟩, segments, segments', hcut, hcut', hne⟩ | ⟨⟨names, rfl⟩, hlt⟩ |
    ⟨⟨v, rfl⟩, mosts, hmosts, hlt⟩
  · refine ⟨fun r => ⟨fun h => ?_, ?_⟩, iff_of_false (by simp) ?_,
      iff_of_false (by simp [Branch.toResult, Except.mapError]) (hleast _ hcut),
      iff_of_false (by simp [Branch.toResult, Except.mapError]) (hmost _ hcut)⟩
    · exact ⟨segments, (Branch.success.inj h).symm, hcut, hunique⟩
    · rintro ⟨segments', rfl, hcut', -⟩
      rw [hunique _ hcut']
    · rintro ⟨s, s', h, h', hne⟩
      exact hne ((hunique s h).trans (hunique s' h').symm)
  · refine ⟨fun r => iff_of_false (by simp) ?_,
      iff_of_true ⟨name, rfl⟩ ⟨segments, segments', hcut, hcut', hne⟩,
      iff_of_false (by simp [Branch.toResult, Except.mapError]) (hleast _ hcut),
      iff_of_false (by simp [Branch.toResult, Except.mapError]) (hmost _ hcut)⟩
    rintro ⟨s, -, -, hunique⟩
    exact hne ((hunique _ hcut).trans (hunique _ hcut').symm)
  · refine ⟨fun r => iff_of_false (by simp) ?_, iff_of_false (by simp) ?_,
      iff_of_true ⟨names, rfl⟩ hlt,
      iff_of_false (by simp [Branch.toResult, Except.mapError]) ?_⟩
    · rintro ⟨s, -, hcut, -⟩
      exact hleast s hcut hlt
    · rintro ⟨s, s', hcut, -⟩
      exact hleast s hcut hlt
    · rintro ⟨mosts, hmosts, hlt'⟩
      have := sum_least_le hmosts
      omega
  · have hover : ∃ mosts : List Nat, params.map (·.arity.most) = mosts.map some ∧
        mosts.sum < values.length := ⟨mosts, hmosts, hlt⟩
    refine ⟨fun r => iff_of_false (by simp) ?_, iff_of_false (by simp) ?_,
      iff_of_false (by simp [Branch.toResult, Except.mapError]) ?_,
      iff_of_true ⟨[v], rfl⟩ hover⟩
    · rintro ⟨s, -, hcut, -⟩
      exact hmost s hcut hover
    · rintro ⟨s, s', hcut, -⟩
      exact hmost s hcut hover
    · have := sum_least_le hmosts
      omega

/-- A value after which none is left goes to the list if that may not be empty, and otherwise
may go to the optional parameter as well. -/
theorem matchArguments_iff_cut_optional :
    (∃ segments, [("a", []), ("b", [4])] =
        assign [⟨.optional, "a"⟩, ⟨.oneOrMore, "b"⟩] segments ∧
      IsCut [⟨.optional, "a"⟩, ⟨.oneOrMore, "b"⟩] [4] segments ∧
      ∀ segments', IsCut [⟨.optional, "a"⟩, ⟨.oneOrMore, "b"⟩] [4] segments' →
        segments' = segments) ∧
    ∃ segments segments', IsCut [⟨.optional, "a"⟩, ⟨.zeroOrMore, "b"⟩] [4] segments ∧
      IsCut [⟨.optional, "a"⟩, ⟨.zeroOrMore, "b"⟩] [4] segments' ∧ segments ≠ segments' :=
  ⟨((matchArguments_iff_cut (by decide) (by decide) [4]).1 _).1 rfl,
    (matchArguments_iff_cut (by decide) (by decide) [4]).2.1.1 ⟨"a", rfl⟩⟩

end Match

end Sexpr
