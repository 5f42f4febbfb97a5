/-!
# Primitive types

The nine primitive types, their names and the aliases under which they may be written.
Names are case-sensitive.
-/

namespace TypeHint

inductive Primitive where
  | integer | float | string | boolean | mixed | resource | object | null | callable
deriving DecidableEq, Repr

namespace Primitive

/-- the catalog, in its order -/
def all : List Primitive :=
  [integer, float, string, boolean, mixed, resource, object, null, callable]

def name : Primitive → String
  | integer => "integer"
  | float => "float"
  | string => "string"
  | boolean => "boolean"
  | mixed => "mixed"
  | resource => "resource"
  | object => "object"
  | null => "null"
  | callable => "callable"

def aliases : List (String × Primitive) :=
  [("int", integer), ("bool", boolean), ("double", float), ("real", float), ("long", integer)]

/-- the primitive with this name or alias -/
def ofName? (s : String) : Option Primitive :=
  (all.map (fun p => (p.name, p)) ++ aliases).lookup s

theorem mem_all (p : Primitive) : p ∈ all := by cases p <;> decide

theorem ofName?_name (p : Primitive) : ofName? p.name = some p := by cases p <;> decide

end Primitive

end TypeHint
