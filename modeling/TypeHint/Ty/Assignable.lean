import TypeHint.Hierarchy
import TypeHint.Ty

/-!
# Assignability

* `assignable h t c`   a value of type `c` may be used where `t` is expected
* `equal h a b`        `a` and `b` are assignable to each other

Arrays are invariant: their keys and their items must be equal.  Equality is checked against the
canonical names of the two types; where the check fails the answer is a `Contradiction`, and it
ends every question that asked for it.  So an answer is a `Verdict`, and a disjunction or
conjunction of verdicts is decided from left to right.
-/

namespace TypeHint

/-- two types whose names say one thing and whose assignability says another -/
structure Contradiction where
  left : String
  right : String
  mutuallyAssignable : Bool
  sameName : Bool
deriving DecidableEq, Repr

namespace Contradiction

def message (c : Contradiction) : String :=
  let a := c.left
  let b := c.right
  let relation := if c.mutuallyAssignable then "mutually assignable" else "not mutually assignable"
  let names := if c.sameName then "match" else "differ"
  s!"type algebra invariant violated: `{a}` and `{b}` are {relation} but their names {names}"

end Contradiction

abbrev Verdict := Except Contradiction Bool

namespace Verdict

/-- both hold; the second is not asked if the first does not -/
@[macro_inline]
def both (x y : Verdict) : Verdict := do if ← x then y else pure false

/-- some verdict is true before any is a contradiction -/
def any : List Verdict → Verdict
  | [] => pure false
  | v :: vs => do if ← v then pure true else any vs

/-- no verdict is false or a contradiction, or the first such one is false -/
def all : List Verdict → Verdict
  | [] => pure true
  | v :: vs => do if ← v then all vs else pure false

end Verdict

open Verdict

/-- compares the mutual assignability of two types with their names, unless a generic parameter
occurs in one of them -/
def settle (a b : Ty) (v : Verdict) : Verdict := do
  let e ← v
  let sameName := a.name == b.name
  if a.hasGeneric || b.hasGeneric || e == sameName then pure e
  else throw ⟨a.name, b.name, e, sameName⟩

/-- what may stand for a primitive type: itself, and more for `mixed`, `object` and `callable` -/
def Primitive.covers (h : Hierarchy) (p : Primitive) (c : Ty) : Bool :=
  c.primitive? == some p ||
    match p with
    | .mixed => true
    | .object => c.members.all Ty.isObject
    | .callable => c.objectName?.any h.isCallable
    | _ => false

def assignable (h : Hierarchy) : Ty → Ty → Verdict
  | .primitive p, c => pure (p.covers h c)
  | .array k i, .array k' i' =>
    both (settle i i' (both (assignable h i i') (assignable h i' i)))
      (settle k k' (both (assignable h k k') (assignable h k' k)))
  | .cls n, .cls m => pure (m == n || h.isBelow m n)
  | .iface n, .iface m => pure (m == n || h.isBelow m n)
  | .iface n, .cls m => pure (h.implements m n)
  | .union ts, .union cs => all (cs.map fun c => any (ts.map fun t => assignable h t c))
  | .union ts, c => any (ts.map fun t => assignable h t c)
  | _, _ => pure false
termination_by t c => sizeOf t + sizeOf c
decreasing_by
  all_goals simp only [Ty.array.sizeOf_spec, Ty.union.sizeOf_spec]
  all_goals try have := List.sizeOf_lt_of_mem ‹_ ∈ ts›
  all_goals try have := List.sizeOf_lt_of_mem ‹_ ∈ cs›
  all_goals omega

def equal (h : Hierarchy) (a b : Ty) : Verdict :=
  settle a b (both (assignable h a b) (assignable h b a))

theorem assignable_array_array (h : Hierarchy) (k i k' i' : Ty) :
    assignable h (.array k i) (.array k' i') = both (equal h i i') (equal h k k') := by
  rw [assignable]; rfl

end TypeHint
