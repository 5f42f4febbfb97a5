/-!
# Cutting a text at a character

* `pieces`        the parts of a text between the occurrences of a separator, at least one
* `stripLeading`  a text without the leading occurrences of a character
* `foldCase`      ASCII letters to lower case, all else unchanged
-/

namespace TypeHint.Text

/-- puts a character in front of the first piece -/
def consPiece (c : Char) : List (List Char) → List (List Char)
  | [] => [[c]]
  | p :: ps => (c :: p) :: ps

def pieces (sep : Char) : List Char → List (List Char)
  | [] => [[]]
  | c :: cs => if c = sep then [] :: pieces sep cs else consPiece c (pieces sep cs)

def stripLeading (c : Char) (s : String) : String :=
  String.ofList (s.toList.dropWhile (· == c))

/-- ASCII case folding: other letters have no case here -/
def foldCase (s : String) : String := String.ofList (s.toList.map Char.toLower)

end TypeHint.Text
