/-
Matching arguments with parameters.

Arguments are positional values, with names between them; a name gives the values
after it to its parameter, as many as that takes. Positional values go to the
parameters in order, where a parameter may take fewer values than it can. A match is
an assignment of all values that gives every parameter a number of values it takes;
it has to be the only one.

* `Argument`, `Parameter`, `Assignment` — what is matched and what comes out;
* `search` — all ways to go on from a place in both lists, weighed against each other;
* `matchArguments` — the only assignment, or why there is none.
-/
import Sexpr.Arguments.Fault

namespace Sexpr

/-- An argument: a name, or a value. -/
inductive Argument (α : Type) where
  | named (name : String)
  | value (value : α)
deriving DecidableEq

/-- A parameter. -/
structure Parameter where
  arity : Arity
  name : String
deriving DecidableEq

/-- The values given to each parameter so far, in the order of the parameters. -/
abbrev Assignment (α : Type) := List (String × List α)

namespace Assignment

variable {α : Type}

/-- Nothing is given to any parameter. -/
def empty (params : List Parameter) : Assignment α := params.map fun p => (p.name, [])

/-- The values given to a parameter. -/
def get? (r : Assignment α) (name : String) : Option (List α) := List.lookup name r

/-- The values given to a parameter, none if there is no such parameter. -/
def getD (r : Assignment α) (name : String) : List α := (r.get? name).getD []

/-- Sets the values given to a parameter. -/
def put (r : Assignment α) (name : String) (values : List α) : Assignment α :=
  r.map fun e => if e.1 = name then (name, values) else e

end Assignment

/-! ### The search -/

/-- Where the next argument goes: to the first of the remaining parameters, or only to
parameters that are named, after the last one or after a name out of order. -/
inductive Place where
  | positional (remaining : List Parameter)
  | named (outOfOrder : Bool)

/-- The place after the parameter at a place. -/
def Place.next : Place → Place
  | positional remaining => positional remaining.tail
  | named b => named b

/-- How a branch of the search ends. -/
inductive Branch (α : Type) where
  | success (result : Assignment α)
  | missing (names : List String)
  | tooMany (name : String) (extra : List α) (duplicate : Bool)
  | positionalAmongNamed (value : α) (outOfOrder : Bool)
  | ambiguous (name : String)
deriving DecidableEq

/-- How much an end says against the arguments; of two failures the graver one is kept. -/
def Branch.severity {α : Type} : Branch α → Nat
  | success _ => 0
  | tooMany _ _ _ => 1
  | missing _ => 2
  | positionalAmongNamed _ _ => 5
  | ambiguous _ => 10

/-- Why the search itself breaks off; see `matchArguments` for the faults of arguments. -/
inductive SearchFault where
  /-- More steps than there are parameters and arguments. -/
  | tooDeep
  /-- No branch was tried. -/
  | noBranch
  /-- A name that is not a parameter's. -/
  | noParameter (name : String)
  /-- A parameter has more values than it takes. -/
  | arity (fault : ArityFault)
deriving DecidableEq

/-- The text of a fault. -/
def SearchFault.message : SearchFault → String
  | tooDeep => "Recursion depth exceeded"
  | noBranch => "Expected at least one branch result"
  | noParameter name => name
  | arity f => f.message

section Search

variable {α : Type} [BEq α]

/-- The best end so far and one more: `.inl` ends the search at once. A success stands
against failures, two different successes are an ambiguity, and the first of the
gravest failures stays. -/
def weigh (name : String) (best : Option (Branch α)) (case : Branch α) :
    Branch α ⊕ Option (Branch α) :=
  match case, best with
  | .ambiguous n, _ => .inl (.ambiguous n)
  | .success r, some (.success r') => if r == r' then .inr best else .inl (.ambiguous name)
  | _, some (.success _) => .inr best
  | .success r, _ => .inr (some (.success r))
  | case, none => .inr (some case)
  | case, some b => .inr (some (if b.severity < case.severity then case else b))

/-- A branch of the search that goes on at a place with the remaining arguments. -/
abbrev Step (α : Type) := Place → List (Argument α) → Assignment α → Except SearchFault (Branch α)

/-- What a parameter is offered: the values, the arguments that follow its name, and how
many values it has to take at least. -/
structure Offer (α : Type) where
  values : List α
  rest : List (Argument α)
  least : Nat
  greedy : Bool

/-- Tries to give a parameter each of the given numbers of values, going on after it and,
if it can take more, at it. -/
def tryCounts (go : Step α) (place : Place) (name : String) (given : List α) (left : Arity)
    (offer : Offer α) (result : Assignment α) :
    List Nat → Option (Branch α) → Except SearchFault (Branch α)
  | [], none => .error .noBranch
  | [], some best => .ok best
  | k :: ks, best => do
    let final ← (left.consume k).mapError SearchFault.arity
    let result' := result.put name (given ++ offer.values.take k)
    let rest := offer.rest.drop k
    match weigh name best (← go place.next rest result') with
    | .inl stop => return stop
    | .inr best =>
      if !final.isFull && 0 < k then
        match weigh name best (← go place rest result') with
        | .inl stop => return stop
        | .inr best => tryCounts go place name given left offer result ks best
      else tryCounts go place name given left offer result ks best

/-- Gives values to a parameter, in all numbers that it may take. -/
def give (go : Step α) (arity : Arity) (place : Place) (name : String) (offer : Offer α)
    (result : Assignment α) : Except SearchFault (Branch α) := do
  let some given := result.get? name | throw (.noParameter name)
  let left ← (arity.consume given.length).mapError SearchFault.arity
  if left.isFull then return .tooMany name offer.values (arity.most == some 1)
  let offered := offer.values.length
  let most := match left.most with
    | some m => min m offered
    | none => offered
  let least := max offer.least (min left.least offered)
  let least := if offer.greedy then max least most else least
  tryCounts go place name given left offer result (List.range' least (most + 1 - least)) none

/-- The values at the front of the arguments, up to the next name. -/
def leadingValues : List (Argument α) → List α
  | .value v :: args => v :: leadingValues args
  | _ => []

/-- The parameters that lack values. -/
def lacking (result : Assignment α) : List Parameter → Except SearchFault (List String)
  | [] => .ok []
  | p :: ps => do
    let some given := result.get? p.name | throw (.noParameter p.name)
    let left ← (p.arity.consume given.length).mapError SearchFault.arity
    let names ← lacking result ps
    return if 0 < left.least then p.name :: names else names

/-- The arity of a parameter. -/
def arityOf (params : List Parameter) (name : String) : Except SearchFault Arity :=
  match params.find? (·.name = name) with
  | some p => .ok p.arity
  | none => .error (.noParameter name)

/-- Where a name leads: to its own parameter if it is the next one, or lies further on
with only nullable parameters before it, else out of order. -/
def placeOfName (name : String) (remaining : List Parameter) : Place :=
  let skipped := remaining.takeWhile (·.name ≠ name)
  let from' := remaining.drop skipped.length
  if from'.isEmpty || !skipped.all (·.arity.isNullable) then .named true else .positional from'

/-- All ways to go on from a place, at most `fuel` steps deep. -/
def search (params : List Parameter) : Nat → Step α
  | 0 => fun _ _ _ => .error .tooDeep
  | fuel + 1 => fun place args result =>
    match args with
    | [] => do
      let names ← lacking result params
      if names.isEmpty then return .success result else return .missing names
    | arg :: rest =>
      match place, arg with
      | .positional [], _ => search params fuel (.named false) args result
      | .positional (p :: ps), .value v =>
        give (search params fuel) p.arity (.positional (p :: ps)) p.name ⟨[v], args, 0, false⟩ result
      | .named b, .value v => .ok (.positionalAmongNamed v b)
      | .positional (p :: ps), .named name => do
        give (search params fuel) (← arityOf params name) (placeOfName name (p :: ps)) name
          ⟨leadingValues rest, rest, 1, true⟩ result
      | .named b, .named name => do
        give (search params fuel) (← arityOf params name) (.named b) name
          ⟨leadingValues rest, rest, 1, true⟩ result

end Search

/-! ### Matching -/

/-- Why arguments cannot be matched. -/
inductive MatchFault (α : Type) where
  /-- Two parameters have the same name. -/
  | duplicateParameters (names : List String)
  /-- The arguments do not fit. -/
  | arguments (fault : ArgumentFault String α)
  /-- The search broke off. -/
  | search (fault : SearchFault)

section Match

variable {α : Type}

/-- The names among the arguments that are not followed by a value. -/
def emptyNames : List (Argument α) → List String
  | .named _ :: .value v :: args => emptyNames (.value v :: args)
  | .named n :: args => n :: emptyNames args
  | .value _ :: args => emptyNames args
  | [] => []

/-- The names among the arguments that are no parameter's. -/
def unknownNames (params : List Parameter) (args : List (Argument α)) : List String :=
  args.filterMap fun
    | .named n => if params.any (·.name = n) then none else some n
    | .value _ => none

/-- The result of a search. -/
def Branch.toResult : Branch α → Except (ArgumentFault String α) (Assignment α)
  | success r => .ok r
  | missing names => .error (.missing names)
  | tooMany name extra duplicate =>
    .error (if duplicate then .duplicate name else .tooMany extra)
  | ambiguous name => .error (.ambiguous (some name) none ArgumentFault.ambiguousDetails)
  | positionalAmongNamed v outOfOrder =>
    .error (if outOfOrder then .positionalAfterNamed v 0 0 else .tooMany [v])

/-- The only assignment of the arguments to the parameters. -/
def matchArguments [BEq α] (params : List Parameter) (args : List (Argument α)) :
    Except (MatchFault α) (Assignment α) :=
  let names := params.map (·.name)
  if !(decide names.Nodup) then .error (.duplicateParameters names)
  else if !(unknownNames params args).isEmpty then
    .error (.arguments (.unknown (unknownNames params args)))
  else if !(emptyNames args).isEmpty then .error (.arguments (.requiresValue (emptyNames args)))
  else
    match search params (params.length + args.length + 1) (.positional params) args
        (Assignment.empty params) with
    | .error e => .error (.search e)
    | .ok b => b.toResult.mapError MatchFault.arguments

end Match
end Sexpr
