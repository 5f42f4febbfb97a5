import TypeHint.Name

/-!
# Runtime values

A `Value` is a dynamic value as far as types can tell.  Arrays are ordered maps with integer and
text keys.
-/

namespace TypeHint

/-- key of an array entry -/
inductive Key where
  | int (i : Int)
  | text (s : String)
deriving DecidableEq, Repr

inductive Value where
  | null
  | bool (b : Bool)
  | int (i : Int)
  | float (x : Float)
  | text (s : String)
  | array (entries : List (Key × Value))
  /-- an instance of the class with this full name -/
  | object (className : String)
  | resource (id : Nat)
  /-- an anonymous function -/
  | closure

namespace Value

instance : Inhabited Value := ⟨.null⟩

/-- an array with the keys 0, 1, 2, … -/
def list (items : List Value) : Value :=
  .array (items.mapIdx fun i v => (.int i, v))

/-- an instance of a class whose name may be written as an absolute name -/
def ofClass (name : String) : Value := .object (Name.strip name)

def kindName : Value → String
  | null => "null"
  | bool _ => "bool"
  | int _ => "int"
  | float _ => "float"
  | text _ => "string"
  | array _ => "array"
  | object _ => "object"
  | resource _ => "resource"
  | closure => "closure"

end Value

def Key.toValue : Key → Value
  | .int i => .int i
  | .text s => .text s

end TypeHint
