import TypeHint.Json.Token

/-!
# Reading JSON

`Json.ofText?` reads a text that holds exactly one value.  The reader takes one token at a time.
It keeps the arrays and objects that are still open, the innermost first; fewer than 128 of them
may be open at once.
-/

namespace TypeHint.Json

/-- an array or object that is still open, its contents in reverse -/
inductive Frame where
  | array (items : List Json)
  /-- the value of the field `name` is being read -/
  | object (fields : List (String × Json)) (name : String)

/-- what may come next -/
inductive Reading where
  | value (outer : List Frame)
  /-- an item or the end of the array -/
  | firstItem (outer : List Frame)
  /-- a name or the end of the object -/
  | firstName (outer : List Frame)
  | name (fields : List (String × Json)) (outer : List Frame)
  | colon (fields : List (String × Json)) (name : String) (outer : List Frame)
  /-- a value is complete -/
  | done (j : Json) (outer : List Frame)

/-- the number of arrays and objects that may not be open at once -/
def depthLimit : Nat := 128

/-- takes the first token of a value -/
def startValue (outer : List Frame) : Token → Option Reading
  | .plain j => some (.done j outer)
  | .text s => some (.done (.text s) outer)
  | .openArray => if outer.length + 1 < depthLimit then some (.firstItem outer) else none
  | .openObject => if outer.length + 1 < depthLimit then some (.firstName outer) else none
  | _ => none

/-- takes the token after a complete value -/
def afterValue (j : Json) : List Frame → Token → Option Reading
  | .array items :: outer, .comma => some (.value (.array (j :: items) :: outer))
  | .array items :: outer, .closeArray => some (.done (.array (j :: items).reverse) outer)
  | .object fields n :: outer, .comma => some (.name ((n, j) :: fields) outer)
  | .object fields n :: outer, .closeObject =>
    some (.done (.object ((n, j) :: fields).reverse) outer)
  | _, _ => none

def Reading.step : Reading → Token → Option Reading
  | .value outer, t => startValue outer t
  | .firstItem outer, .closeArray => some (.done (.array []) outer)
  | .firstItem outer, t => startValue (.array [] :: outer) t
  | .firstName outer, .closeObject => some (.done (.object []) outer)
  | .firstName outer, .text s => some (.colon [] s outer)
  | .name fields outer, .text s => some (.colon fields s outer)
  | .colon fields n outer, .colon => some (.value (.object fields n :: outer))
  | .done j outer, t => afterValue j outer t
  | _, _ => none

def ofTokens? (ts : List Token) : Option Json :=
  match ts.foldlM Reading.step (.value []) with
  | some (.done j []) => some j
  | _ => none

def ofText? (s : String) : Option Json := do ofTokens? (← tokens? s)

end TypeHint.Json
