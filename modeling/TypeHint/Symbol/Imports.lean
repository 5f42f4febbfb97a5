import TypeHint.Hint.Meaning
import TypeHint.Symbol

/-!
# Relative names inside a declaration

The first segment of a relative name is looked up among the import aliases of the declaring type,
without regard to ASCII case.  An alias is replaced by its target; any other name is placed in the
namespace of the declaring type.

Every look-up asks for the alias table, and says so.
-/

namespace TypeHint.Symbol

open Text

/-- folded aliases with the full names they stand for -/
def aliases (s : Symbol) : List (String × String) :=
  s.imports.map fun i => (foldCase i.1, Name.strip i.2)

/-- the full name of a relative name with a non-empty first segment -/
def expand (s : Symbol) (first rest : String) : String :=
  match s.aliases.lookup (foldCase first) with
  | some target => target ++ rest
  | none =>
    let space := Name.namespaceOf s.name
    if space = "" then first ++ rest
    else space ++ String.singleton Name.separator ++ first ++ rest

def resolver (s : Symbol) : Resolver := fun short =>
  let first := short.toList.takeWhile (· != Name.separator)
  let rest := short.toList.dropWhile (· != Name.separator)
  if first.isEmpty then .fail s!"`{short}` does not start with an identifier"
  else do
    .emit (.aliasTableBuilt s.name s.imports.length)
    return s.expand (String.ofList first) (String.ofList rest)

end TypeHint.Symbol
