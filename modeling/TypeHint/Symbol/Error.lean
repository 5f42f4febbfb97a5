import TypeHint.Error
import TypeHint.Symbol

/-!
# Failures of the symbol table
-/

namespace TypeHint

inductive SymbolError where
  | nameTaken (kind : Symbol.Kind) (name : String)
  | notRegistered (name : String)
  | noMember (owner member : String)
  | missingSupertype (name supertype : String) (expected : Symbol.Kind)
  | cyclic (name : String)
  | invalidManifest
  | unreadableManifest (path : String)
  /-- the type of a member cannot be told -/
  | type (e : HintError)
deriving DecidableEq, Repr

namespace SymbolError

def message : SymbolError → String
  | nameTaken kind name =>
    let k := kind.name
    s!"{k} `{name}` is already registered"
  | notRegistered name => s!"type `{name}` is not registered"
  | noMember owner member => s!"`{owner}` has no member `{member}`"
  | missingSupertype name supertype expected =>
    let k := expected.name
    s!"`{name}` refers to {k} `{supertype}`, which is not registered"
  | cyclic name => s!"inheritance of `{name}` is cyclic"
  | invalidManifest => "invalid symbol manifest"
  | unreadableManifest path => s!"failed to read symbol manifest `{path}`"
  | type e => e.message

end SymbolError

end TypeHint
