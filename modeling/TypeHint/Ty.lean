import TypeHint.Name
import TypeHint.Primitive

/-!
# Types

* `Ty`            primitive types, arrays, classes, interfaces, unions and generic parameters
* `Ty.name`       the canonical name of a type
* `Ty.members`    a type seen as the list of its union members
* `Ty.kind`       the constructor a type was built with

Equality of types is decidable; it compares structure, not names.
-/

namespace TypeHint

inductive Ty where
  | primitive (p : Primitive)
  | array (key item : Ty)
  | cls (name : String)
  | iface (name : String)
  | union (members : List Ty)
  | generic (name : String) (declaring : Ty)
deriving Repr

namespace Ty

instance : Inhabited Ty := ⟨.primitive .mixed⟩

/-! ## structural equality -/

mutual

def decEq : (a b : Ty) → Decidable (a = b)
  | .primitive p, b => match b with
    | .primitive q => decidable_of_iff (p = q) (by simp)
    | .array .. | .cls _ | .iface _ | .union _ | .generic .. => .isFalse nofun
  | .array k i, b => match b with
    | .array k' i' =>
      have := decEq k k'
      have := decEq i i'
      decidable_of_iff (k = k' ∧ i = i') (by simp)
    | .primitive _ | .cls _ | .iface _ | .union _ | .generic .. => .isFalse nofun
  | .cls n, b => match b with
    | .cls m => decidable_of_iff (n = m) (by simp)
    | .primitive _ | .array .. | .iface _ | .union _ | .generic .. => .isFalse nofun
  | .iface n, b => match b with
    | .iface m => decidable_of_iff (n = m) (by simp)
    | .primitive _ | .array .. | .cls _ | .union _ | .generic .. => .isFalse nofun
  | .union ms, b => match b with
    | .union ms' =>
      have := decEqList ms ms'
      decidable_of_iff (ms = ms') (by simp)
    | .primitive _ | .array .. | .cls _ | .iface _ | .generic .. => .isFalse nofun
  | .generic n d, b => match b with
    | .generic m e =>
      have := decEq d e
      decidable_of_iff (n = m ∧ d = e) (by simp)
    | .primitive _ | .array .. | .cls _ | .iface _ | .union _ => .isFalse nofun

def decEqList : (as bs : List Ty) → Decidable (as = bs)
  | [], [] => .isTrue rfl
  | [], _ :: _ => .isFalse nofun
  | _ :: _, [] => .isFalse nofun
  | a :: as, b :: bs =>
    have := decEq a b
    have := decEqList as bs
    decidable_of_iff (a = b ∧ as = bs) (by simp)

end

instance : DecidableEq Ty := decEq

/-! ## constructors and views -/

def mixed : Ty := .primitive .mixed

def null : Ty := .primitive .null

/-- an array with `mixed` keys -/
def arrayOf (item : Ty) : Ty := .array mixed item

/-- the members of a union; any other type is its own only member -/
def members : Ty → List Ty
  | .union ms => ms
  | t => [t]

def isPrimitive : Ty → Bool
  | .primitive _ => true
  | _ => false

def isObject : Ty → Bool
  | .cls _ | .iface _ => true
  | _ => false

def primitive? : Ty → Option Primitive
  | .primitive p => some p
  | _ => none

def item? : Ty → Option Ty
  | .array _ i => some i
  | _ => none

def unionSize? : Ty → Option Nat
  | .union ms => some ms.length
  | _ => none

/-- the full name of a class or interface -/
def objectName? : Ty → Option String
  | .cls n | .iface n => some n
  | _ => none

def isNull (t : Ty) : Bool := t.primitive? == some .null

def isMixed (t : Ty) : Bool := t.primitive? == some .mixed

/-- how a type was built -/
inductive Kind where
  | primitive | array | cls | iface | union | generic
deriving DecidableEq, Repr

def kind : Ty → Kind
  | .primitive _ => .primitive
  | .array .. => .array
  | .cls _ => .cls
  | .iface _ => .iface
  | .union _ => .union
  | .generic .. => .generic

mutual

/-- whether a generic parameter occurs, also inside arrays and unions -/
def hasGeneric : Ty → Bool
  | .generic .. => true
  | .array k i => hasGeneric k || hasGeneric i
  | .union ms => anyHasGeneric ms
  | .primitive _ | .cls _ | .iface _ => false

def anyHasGeneric : List Ty → Bool
  | [] => false
  | t :: ts => hasGeneric t || anyHasGeneric ts

end

/-! ## canonical names -/

/-- the name of an array type, from the names of its parts -/
def arrayName (key item : Ty) (keyName itemName : String) : String :=
  if !key.isMixed then "array<" ++ keyName ++ "," ++ itemName ++ ">"
  else if item.isMixed then "array"
  else if item.kind = .union then "(" ++ itemName ++ ")[]"
  else itemName ++ "[]"

mutual

/-- the canonical name; a generic parameter goes by its own name -/
def name : Ty → String
  | .primitive p => p.name
  | .array k i => arrayName k i (name k) (name i)
  | .cls n | .iface n => n
  | .union ms => "|".intercalate (memberNames ms)
  | .generic n _ => n

def memberNames : List Ty → List String
  | [] => []
  | t :: ts => name t :: memberNames ts

end

theorem anyHasGeneric_eq (ts : List Ty) : anyHasGeneric ts = ts.any hasGeneric := by
  induction ts with
  | nil => rfl
  | cons t ts ih => rw [anyHasGeneric, ih, List.any_cons]

theorem memberNames_eq (ts : List Ty) : memberNames ts = ts.map name := by
  induction ts with
  | nil => rfl
  | cons t ts ih => rw [memberNames, ih, List.map_cons]

end Ty

end TypeHint
