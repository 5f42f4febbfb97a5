import TypeHint.Text.Pieces

/-!
# Names of classes and interfaces

A full name is a sequence of identifiers joined by the namespace separator.

* `strip`        drops the leading separators that mark a name as absolute
* `namespaceOf`  everything before the last separator
* `isValid`      every segment is an identifier

Outside ASCII every character may occur in an identifier.
-/

namespace TypeHint.Name

open Text

def separator : Char := '\\'

def strip (name : String) : String := stripLeading separator name

/-- the part before the last separator, empty for a name without one -/
def namespaceOf (name : String) : String :=
  String.ofList (((name.toList.reverse.dropWhile (· != separator)).drop 1).reverse)

def startsIdentifier (c : Char) : Bool := c == '_' || c.isAlpha || decide (0x80 ≤ c.toNat)

def continuesIdentifier (c : Char) : Bool := startsIdentifier c || c.isDigit

def isIdentifier : List Char → Bool
  | [] => false
  | c :: cs => startsIdentifier c && cs.all continuesIdentifier

/-- a sequence of identifiers: no empty segment, so no separator at either end -/
def isValid (name : List Char) : Bool := (pieces separator name).all isIdentifier

end TypeHint.Name
