import TypeHint.CommandLine.Arguments
import TypeHint.Session
import TypeHint.Symbol.Manifest
import TypeHint.Value.Check
import TypeHint.Value.Json

/-!
# Running a command

`run` answers a command with the text to print.  A `Failure` is told as a chain of causes, from the
outermost to the innermost; a contradiction of the type algebra is no failure of the input.
-/

namespace TypeHint.CommandLine

inductive Failure where
  | causes (chain : List String)
  | contradiction (c : Contradiction)
deriving DecidableEq, Repr

namespace Failure

/-- puts a cause around a failure -/
def within (outer : String) : Failure → Failure
  | causes chain => causes (outer :: chain)
  | contradiction c => contradiction c

def ofHintError : HintError → Failure
  | .contradiction c => contradiction c
  | .unresolved name reason => causes [(HintError.unresolved name reason).message, reason]
  | e => causes [e.message]

def ofSymbolError : SymbolError → Failure
  | .type e => ofHintError e
  | e => causes [e.message]

def message : Failure → String
  | causes chain => ": ".intercalate chain
  | contradiction c => c.message

end Failure

def ofExcept {ε α : Type} (wrap : ε → Failure) (r : Except ε α) : Except Failure α :=
  r.mapError wrap

/-- the table in the file at `path`, whose contents are nothing if it cannot be read -/
def tableAt (path : String) (contents : Option String) : Except Failure Table :=
  let table := match contents with
    | none => .error (.unreadableManifest path)
    | some text => (Table.ofText text).result
  let outer := s!"failed to load symbols from `{path}`"
  ofExcept (fun e => (Failure.ofSymbolError e).within outer) table

/-- what expands relative names in the type `name`, if one is given -/
def resolverIn (t : Table) : Option String → Except Failure (Option Resolver)
  | none => pure none
  | some name => do
    let s ← ofExcept (fun e => (Failure.ofSymbolError e).within s!"invalid context `{name}`")
      (t.context name)
    return some s.resolver

def readType (h : Hierarchy) (resolver : Option Resolver) (text : String) : Except Failure Ty :=
  ofExcept (fun e => (Failure.ofHintError e).within s!"cannot parse type `{text}`")
    (Ty.ofText h resolver text).result

def showBool (b : Bool) : String := if b then "true" else "false"

/-! ## descriptions -/

/-- the text with something in front, unless it is empty -/
def unlessEmpty (front text : String) : String := if text = "" then "" else front ++ text

def parameterText (p : String × Session.SlotReport Ty) : String :=
  "\n@param " ++ p.2.type.name ++ " $" ++ p.1 ++ unlessEmpty " " p.2.description

def resultText (r : Session.SlotReport Ty) : String :=
  "\n@return " ++ r.type.name ++ unlessEmpty " " r.description

def methodText (m : Session.MethodReport Ty) : String :=
  m.declaring ++ "::" ++ m.name ++ "()" ++ unlessEmpty "\n" m.description ++
    String.join (m.parameters.map parameterText) ++ m.result.elim "" resultText

def propertyText (p : Session.PropertyReport Ty) : String :=
  p.declaring ++ "::$" ++ p.name ++ unlessEmpty "\n" p.info.description ++
    "\n@var " ++ p.info.type.name

/-- the description of a member: of a property, if its name starts with `$` -/
def describe (type member : String) : SessionM String := do
  let t := (← get).table
  match member.toList with
  | '$' :: name =>
    let p ← Session.ofExcept (t.property type (String.ofList name))
    return propertyText (← Session.reportProperty t.hierarchy id p)
  | _ =>
    let m ← Session.ofExcept (t.method type member)
    return methodText (← Session.reportMethod t.hierarchy id m)

/-! ## commands -/

def run (t : Table) : Command → Except Failure String
  | .name text context => do
    let resolver ← resolverIn t context
    return (← readType t.hierarchy resolver text).name
  | .check target candidate context => do
    let resolver ← resolverIn t context
    let target ← readType t.hierarchy resolver target
    let candidate ← readType t.hierarchy resolver candidate
    return showBool (← ofExcept .contradiction (assignable t.hierarchy target candidate))
  | .accepts text json context => do
    let resolver ← resolverIn t context
    let type ← readType t.hierarchy resolver text
    let value ← ofExcept (fun e => .causes [e.message]) (Value.ofText json)
    return showBool (TypeHint.accepts t.hierarchy type value)
  | .describe type member =>
    ofExcept .ofSymbolError ((describe (Name.strip type) member).run (.ofTable t)).1

/-- runs a command with the symbols at a path, if one is given; `contents` is what the file there
holds -/
def execute (path : Option String) (contents : Option String) (c : Command) :
    Except Failure String := do
  let t ← match path with
    | none => pure .empty
    | some p => tableAt p contents
  run t c

/-! ## fixed texts -/

def versionText : String := "docty 0.0.1"

def usageText : String :=
  "Usage: docty [--symbols PATH] name TYPE [--context TYPE]\n" ++
  "       docty [--symbols PATH] check TARGET CANDIDATE [--context TYPE]\n" ++
  "       docty [--symbols PATH] accepts TYPE JSON [--context TYPE]\n" ++
  "       docty [--symbols PATH] describe TYPE MEMBER"

end TypeHint.CommandLine
