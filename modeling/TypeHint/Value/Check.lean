import TypeHint.Hint.Meaning
import TypeHint.Value

/-!
# Values against types

* `accepts h t v`    the value `v` is a member of the type `t`
* `classify h v`     the type by which `v` is classified; the items of an array are not looked at
-/

namespace TypeHint

/-- the values of a primitive type -/
def Primitive.admits (h : Hierarchy) : Primitive → Value → Bool
  | .mixed, _ => true
  | .integer, .int _ => true
  | .float, .float _ => true
  | .string, .text _ => true
  | .boolean, .bool _ => true
  | .resource, .resource _ => true
  | .null, .null => true
  | .object, .object _ => true
  | .object, .closure => true
  | .callable, .closure => true
  | .callable, .object c => h.isCallable c
  | _, _ => false

/-- whether a value is an instance of the class or interface `name` -/
def isInstance (h : Hierarchy) (name : String) : Value → Bool
  | .object c => h.instanceOf c name
  | .closure => h.instanceOf Hierarchy.functionClass name
  | _ => false

mutual

def accepts (h : Hierarchy) : Ty → Value → Bool
  | .primitive p, v => p.admits h v
  | .array key item, v => match v with
    | .array entries => entries.all fun e => accepts h item e.2 && accepts h key e.1.toValue
    | _ => false
  | .cls n, v => isInstance h n v
  | .iface n, v => isInstance h n v
  | .union ms, v => someAccepts h ms v
  | .generic .., _ => false

def someAccepts (h : Hierarchy) : List Ty → Value → Bool
  | [], _ => false
  | t :: ts, v => accepts h t v || someAccepts h ts v

end

theorem someAccepts_eq (h : Hierarchy) (ts : List Ty) (v : Value) :
    someAccepts h ts v = ts.any (accepts h · v) := by
  induction ts with
  | nil => rfl
  | cons t ts ih => rw [someAccepts, ih, List.any_cons]

def classify (h : Hierarchy) : Value → Except HintError Ty
  | .null => .ok (.primitive .null)
  | .bool _ => .ok (.primitive .boolean)
  | .int _ => .ok (.primitive .integer)
  | .float _ => .ok (.primitive .float)
  | .text _ => .ok (.primitive .string)
  | .resource _ => .ok (.primitive .resource)
  | .array _ => .ok (.arrayOf .mixed)
  | .object c => lookUp h c
  | .closure =>
    if h.isClass Hierarchy.functionClass then .ok (.cls Hierarchy.functionClass)
    else .ok (.primitive .callable)

end TypeHint
