/-!
# JSON trees

An object holds its fields in the order in which they are written, a repeated name included.
`Json.canonical` orders the fields of every object by name and keeps the last of each name.

Whole numbers of the signed 64-bit range are integers, all other numbers are floating-point.
-/

namespace TypeHint

inductive Json where
  | null
  | bool (b : Bool)
  | int (i : Int)
  | float (x : Float)
  | text (s : String)
  | array (items : List Json)
  | object (fields : List (String × Json))

namespace Json

/-- sets a field in a list that is ordered by name -/
def setField (name : String) (j : Json) : List (String × Json) → List (String × Json)
  | [] => [(name, j)]
  | f :: fs =>
    if f.1 = name then (name, j) :: fs
    else if f.1 < name then f :: setField name j fs
    else (name, j) :: f :: fs

mutual

def canonical : Json → Json
  | .array items => .array (canonicalItems items)
  | .object fields => .object (canonicalFields [] fields)
  | .null => .null
  | .bool b => .bool b
  | .int i => .int i
  | .float x => .float x
  | .text s => .text s

def canonicalItems : List Json → List Json
  | [] => []
  | j :: js => canonical j :: canonicalItems js

/-- sets the given fields one after the other -/
def canonicalFields (ordered : List (String × Json)) : List (String × Json) → List (String × Json)
  | [] => ordered
  | (name, j) :: fs => canonicalFields (setField name (canonical j) ordered) fs

end

end Json

end TypeHint
