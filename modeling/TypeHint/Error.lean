import TypeHint.Ty.Assignable

/-!
# Failures of the type algebra

`HintError` lists why a text or a list of types denotes no type, and `HintError.message` says it in
words.
-/

namespace TypeHint

/-- what is wrong with a text that should denote a type -/
inductive Flaw where
  | tooDeep
  | unbalanced (closing : Char)
  | unclosed (opening : Char)
  | emptyType
  | emptyPart (separator : Char)
  | suffixWithoutItem
  | invalidArguments
  | argumentCount
  | invalidName
deriving DecidableEq, Repr

namespace Flaw

def message : Flaw → String
  | tooDeep => "type nesting too deep"
  | unbalanced c => s!"unbalanced `{c}`"
  | unclosed c => s!"unclosed `{c}`"
  | emptyType => "empty type"
  | emptyPart c => s!"empty part around `{c}`"
  | suffixWithoutItem => "array suffix without item type"
  | invalidArguments => "invalid array type arguments"
  | argumentCount => "array takes one or two type arguments"
  | invalidName => "invalid class or interface name"

end Flaw

inductive HintError where
  | malformed (text : String) (flaw : Flaw)
  | unknownName (name : String)
  | noMembers
  | notAnObject (name : String)
  | notAClass (name : String)
  | notAnInterface (name : String)
  /-- the resolver could not expand `name`, for the reason that it gave -/
  | unresolved (name reason : String)
  | contradiction (c : Contradiction)
deriving DecidableEq, Repr

namespace HintError

def message : HintError → String
  | malformed text flaw =>
    let reason := flaw.message
    s!"malformed type annotation `{text}`: {reason}"
  | unknownName name => s!"type `{name}` does not exist"
  | noMembers => "union type must contain at least one type"
  | notAnObject name => s!"`{name}` does not describe a class or interface"
  | notAClass name => s!"`{name}` does not describe a class"
  | notAnInterface name => s!"`{name}` does not describe an interface"
  | unresolved name _ => s!"failed to resolve type name `{name}`"
  | contradiction c => c.message

end HintError

end TypeHint
