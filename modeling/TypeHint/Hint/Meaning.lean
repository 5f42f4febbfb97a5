import TypeHint.Hint
import TypeHint.Ty.Unite

/-!
# The type that a text denotes

* `Hint.meaning`   the type of a hint: names are expanded and looked up, members united
* `Ty.ofText`      the type of a text

A `Resolver` expands relative names.  Without one a relative name is taken as a full name.
-/

namespace TypeHint

/-- expands a relative name, or tells why it cannot -/
abbrev Resolver := String → Traced String String

/-- the class or interface with this full name -/
def lookUp (h : Hierarchy) (name : String) : Except HintError Ty :=
  if h.isInterface name then .ok (.iface name)
  else if h.isClass name then .ok (.cls name)
  else .error (.unknownName name)

/-- the full name meant by a name as written -/
def expandName (resolver : Option Resolver) (text : String) : Traced HintError String :=
  if text.toList.head? = some Name.separator then pure (String.ofList (text.toList.drop 1))
  else match resolver with
    | none => pure text
    | some resolve => do
      let full ← (resolve text).mapError (.unresolved text)
      .emit (.nameExpanded text full)
      return Name.strip full

/-- the class or interface that a name as written denotes -/
def namedType (h : Hierarchy) (resolver : Option Resolver) (text : String) :
    Traced HintError Ty := do
  let name ← expandName resolver text
  let type ← .ofExcept (lookUp h name)
  .emit (.objectFound text type.name)
  return type

namespace Hint

mutual

def meaning (h : Hierarchy) (resolver : Option Resolver) : Hint → Traced HintError Ty
  | .primitive p => pure (.primitive p)
  | .named text => namedType h resolver text
  | .array key item => do
    let k ← meaning h resolver key
    let i ← meaning h resolver item
    return .array k i
  | .union parts => do Ty.unite h (← meanings h resolver parts)
  | .malformed text flaw => .fail (.malformed text flaw)

/-- the types of several hints, in order; the first failure counts -/
def meanings (h : Hierarchy) (resolver : Option Resolver) : List Hint → Traced HintError (List Ty)
  | [] => pure []
  | hint :: hints => do
    let t ← meaning h resolver hint
    return t :: (← meanings h resolver hints)

end

end Hint

def Ty.ofText (h : Hierarchy) (resolver : Option Resolver) (text : String) : Traced HintError Ty :=
  (Hint.ofText text).meaning h resolver

/-! ## types that must be objects -/

/-- the type of a text, if `accepts` takes it; else `refusal` tells why not -/
def Ty.ofTextWhere (h : Hierarchy) (accepts : Ty → Bool) (refusal : String → HintError)
    (text : String) : Traced HintError Ty := do
  let type ← Ty.ofText h none text
  if accepts type then return type else .fail (refusal text)

def Ty.objectOfText (h : Hierarchy) : String → Traced HintError Ty :=
  Ty.ofTextWhere h Ty.isObject .notAnObject

def Ty.classOfText (h : Hierarchy) : String → Traced HintError Ty :=
  Ty.ofTextWhere h (fun t => t.kind == .cls) .notAClass

def Ty.interfaceOfText (h : Hierarchy) : String → Traced HintError Ty :=
  Ty.ofTextWhere h (fun t => t.kind == .iface) .notAnInterface

end TypeHint
