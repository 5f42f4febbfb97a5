import TypeHint.Symbol.Imports
import TypeHint.Symbol.Table

/-!
# Members of a type

A type has the members that it declares and those of its supertypes.  Of several members with one
name the nearest counts; names of methods are compared without regard to ASCII case.

`Table.hierarchy` is what the table knows, as the algebra of types sees it.
-/

namespace TypeHint

/-- a member together with the symbol that declares it -/
structure Member (α : Type) where
  owner : Symbol
  decl : α

namespace Table

open Text

/-- the symbol whose imports resolve names written in the type `name` -/
def context (t : Table) (name : String) : Except SymbolError Symbol :=
  match t.find? (Name.strip name) with
  | some s => .ok s
  | none => .error (.notRegistered (Name.strip name))

def getClass (t : Table) (name : String) : Except SymbolError Class :=
  match t.findClass? name with
  | some c => .ok c
  | none => .error (.notRegistered name)

def isAbstract (t : Table) (name : String) : Bool :=
  (t.findClass? name).any Class.isAbstract

def parent (t : Table) (name : String) : Except SymbolError (Option String) := do
  return (← t.getClass name).parent

/-- nearest first -/
def interfacesOf (t : Table) (name : String) : Except SymbolError (List String) := do
  let _ ← t.getClass name
  return (t.properAncestors name).filter t.isInterface

/-- a registered type and its supertypes -/
def searchOrder (t : Table) (name : String) : Except SymbolError (List String) :=
  if (t.find? name).isSome then .ok (name :: t.properAncestors name)
  else .error (.notRegistered name)

def declaredMethods (t : Table) (name : String) : List (Member Method) :=
  (t.find? name).elim [] fun s => s.methods.map (⟨s, ·⟩)

def declaredProperties (t : Table) (name : String) : List (Member Property) :=
  (t.find? name).elim [] fun s => s.properties.map (⟨s, ·⟩)

def methods (t : Table) (name : String) : Except SymbolError (List (Member Method)) := do
  let ms := (← t.searchOrder name).flatMap t.declaredMethods
  return freshBy (fun m => foldCase m.decl.name) [] ms

def method (t : Table) (name method : String) : Except SymbolError (Member Method) := do
  let ms := (← t.searchOrder name).flatMap t.declaredMethods
  match ms.find? fun m => foldCase m.decl.name == foldCase method with
  | some m => pure m
  | none => throw (.noMember name method)

def properties (t : Table) (name : String) : Except SymbolError (List (Member Property)) := do
  let _ ← t.getClass name
  let ps := (← t.searchOrder name).flatMap t.declaredProperties
  return freshBy (·.decl.bareName) [] ps

def property (t : Table) (name property : String) : Except SymbolError (Member Property) := do
  let bare := stripLeading sigil property
  match (← t.properties name).find? (·.decl.bareName == bare) with
  | some p => pure p
  | none => throw (.noMember name (String.singleton sigil ++ bare))

/-- name of the method by which an object is called like a function -/
def callMethod : String := "__invoke"

def isCallable (t : Table) (name : String) : Bool :=
  (t.method name callMethod).isOk

def hierarchy (t : Table) : Hierarchy where
  isClass := t.isClass
  isInterface := t.isInterface
  isBelow := t.isBelow
  implements := t.implements
  isCallable := t.isCallable

end Table

/-- the parameter with this name, and its place; the name may have any number of `$` in front -/
def Member.parameter (m : Member Method) (name : String) : Except SymbolError (String × Nat) :=
  let bare := Text.stripLeading sigil name
  match m.decl.parameterNames.zipIdx.find? (·.1 == bare) with
  | some p => .ok p
  | none =>
    .error (.noMember (m.owner.name ++ "::" ++ m.decl.name) (String.singleton sigil ++ bare))

end TypeHint
