import TypeHint.Json.Reader
import TypeHint.Text.Quoted
import TypeHint.Value

/-!
# Values written in JSON

* `Value.ofJson`    an object with the single field `$class` is an instance of that class, any other
                    object an array keyed by its field names
* `Value.ofText`    the value that a JSON text denotes
* `Key.label`       a key as text

A field name that is the canonical decimal text of a signed 64-bit integer becomes an integer key.
-/

namespace TypeHint

inductive ValueError where
  | invalidJson (text : String)
  /-- `$class` stands beside other fields -/
  | mixedClass
  /-- `$class` holds no text -/
  | classNotText
deriving DecidableEq, Repr

namespace ValueError

def message : ValueError → String
  | invalidJson text => s!"invalid JSON value `{text}`"
  | mixedClass => "an object with `$class` must have no other properties"
  | classNotText => "`$class` must be a string"

end ValueError

/-- the integer written as a minus sign, if any, and digits -/
def decimal? : List Char → Option Int
  | '-' :: ds => if ds.all Char.isDigit then some (-(Json.digitsValue ds : Int)) else none
  | ds => if ds.all Char.isDigit then some (Json.digitsValue ds) else none

/-- an integer key for the canonical text of an integer, else a text key -/
def Key.ofText (s : String) : Key :=
  match decimal? s.toList with
  | some i => if Json.fitsInt64 i && toString i == s then .int i else .text s
  | none => .text s

/-- an integer in decimal, a text in quotes -/
def Key.label : Key → String
  | .int i => toString i
  | .text s => Text.quote s

namespace Value

/-- name of the field that makes an object an instance -/
def classField : String := "$class"

mutual

def ofJson : Json → Except ValueError Value
  | .null => .ok .null
  | .bool b => .ok (.bool b)
  | .int i => .ok (.int i)
  | .float x => .ok (.float x)
  | .text s => .ok (.text s)
  | .array items => do return .list (← ofItems items)
  | .object fields => match fields.lookup classField with
    | none => do return .array (← ofFields fields)
    | some c =>
      if fields.length ≠ 1 then .error .mixedClass
      else match c with
        | .text s => .ok (.ofClass s)
        | _ => .error .classNotText

def ofItems : List Json → Except ValueError (List Value)
  | [] => .ok []
  | j :: js => do
    let v ← ofJson j
    return v :: (← ofItems js)

def ofFields : List (String × Json) → Except ValueError (List (Key × Value))
  | [] => .ok []
  | (name, j) :: fs => do
    let v ← ofJson j
    return (.ofText name, v) :: (← ofFields fs)

end

/-- fields count in order of their names, and the last of each name counts -/
def ofText (s : String) : Except ValueError Value :=
  match Json.ofText? s with
  | none => .error (.invalidJson s)
  | some j => ofJson j.canonical

end Value

end TypeHint
