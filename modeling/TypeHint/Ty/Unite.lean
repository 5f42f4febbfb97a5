import TypeHint.Error
import TypeHint.Order
import TypeHint.Traced

/-!
# Canonical unions

`Ty.unite` unites types.  The members are flattened, a member that repeats kind and name of an
earlier one is dropped, the rest is sorted, and of two members one of which accepts the other only
the accepting one is kept.  A single survivor stands for itself.

Order of members: first what is not primitive, then primitive types, `null` last; by name within
each rank.
-/

namespace TypeHint

namespace Union

/-- non-primitive types first, `null` last -/
def rank (t : Ty) : Nat :=
  if t.isNull then 2 else if t.isPrimitive then 1 else 0

/-- canonical order of members -/
def before (a b : Ty) : Bool :=
  decide (rank a < rank b) || rank a == rank b && decide (a.name < b.name)

/-- the members to choose from: flattened, the first of each kind and name, sorted -/
def candidates (ts : List Ty) : List Ty :=
  sortBy before (freshBy (fun t => (t.kind, t.name)) [] (ts.flatMap Ty.members))

def ask (h : Hierarchy) (t c : Ty) : Traced HintError Bool :=
  .ofExcept ((assignable h t c).mapError .contradiction)

/-- some type of the list accepts `c` -/
def covered (h : Hierarchy) (c : Ty) : List Ty → Traced HintError Bool
  | [] => pure false
  | t :: ts => do if ← ask h t c then pure true else covered h c ts

/-- drops what `c` accepts -/
def uncovered (h : Hierarchy) (c : Ty) : List Ty → Traced HintError (List Ty)
  | [] => pure []
  | t :: ts => do
    if ← ask h c t then
      .emit (.memberReplaced t.name c.name)
      uncovered h c ts
    else return t :: (← uncovered h c ts)

/-- adds a candidate to the members kept so far, in order -/
def keep (h : Hierarchy) (kept : List Ty) (c : Ty) : Traced HintError (List Ty) := do
  if ← covered h c kept then
    .emit (.memberCovered c.name)
    return kept
  else return (← uncovered h c kept) ++ [c]

def reduce (h : Hierarchy) : List Ty → List Ty → Traced HintError (List Ty)
  | kept, [] => pure kept
  | kept, c :: cs => do reduce h (← keep h kept c) cs

/-- the type with these members -/
def collapse : List Ty → Traced HintError Ty
  | [t] => pure t
  | ts => do
    .emit (.unionBuilt (Ty.union ts).name)
    return .union ts

end Union

/-- the union of the given types, in canonical form -/
def Ty.unite (h : Hierarchy) : List Ty → Traced HintError Ty
  | [] => .fail .noMembers
  | ts => do Union.collapse (← Union.reduce h [] (Union.candidates ts))

/-- allows `t` to be null -/
def Ty.orNull (h : Hierarchy) (t : Ty) : Traced HintError Ty := Ty.unite h [t, .null]

end TypeHint
