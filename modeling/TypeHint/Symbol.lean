import TypeHint.Name

/-!
# Declarations of classes and interfaces

A `Symbol` is a class or an interface with its supertypes, its imports and its members, as declared.
Its names are full names; `Symbol.normal` drops the separators in front of them.
-/

namespace TypeHint

structure Method where
  name : String
  /-- names of the parameters, with or without `$` -/
  parameters : List String
  doc : Option String
deriving DecidableEq, Repr

structure Property where
  /-- with or without `$` -/
  name : String
  doc : Option String
deriving DecidableEq, Repr

structure Class where
  name : String
  parent : Option String
  interfaces : List String
  isAbstract : Bool
  /-- local aliases and the full names they stand for, no alias twice -/
  imports : List (String × String)
  methods : List Method
  properties : List Property
deriving DecidableEq, Repr

structure Interface where
  name : String
  parents : List String
  imports : List (String × String)
  methods : List Method
deriving DecidableEq, Repr

inductive Symbol where
  | ofClass (c : Class)
  | ofInterface (i : Interface)
deriving DecidableEq, Repr

/-- the mark of a variable -/
def sigil : Char := '$'

def Method.parameterNames (m : Method) : List String := m.parameters.map (Text.stripLeading sigil)

def Property.bareName (p : Property) : String := Text.stripLeading sigil p.name

namespace Symbol

inductive Kind where
  | «class» | interface
deriving DecidableEq, Repr

def Kind.name : Kind → String
  | .class => "class"
  | .interface => "interface"

def kind : Symbol → Kind
  | ofClass _ => .class
  | ofInterface _ => .interface

def name : Symbol → String
  | ofClass c => c.name
  | ofInterface i => i.name

/-- parent first, then interfaces in order of declaration -/
def supertypes : Symbol → List String
  | ofClass c => c.parent.toList ++ c.interfaces
  | ofInterface i => i.parents

def imports : Symbol → List (String × String)
  | ofClass c => c.imports
  | ofInterface i => i.imports

def methods : Symbol → List Method
  | ofClass c => c.methods
  | ofInterface i => i.methods

/-- interfaces declare none -/
def properties : Symbol → List Property
  | ofClass c => c.properties
  | ofInterface _ => []

def class? : Symbol → Option Class
  | ofClass c => some c
  | ofInterface _ => none

def interface? : Symbol → Option Interface
  | ofClass _ => none
  | ofInterface i => some i

/-- drops the separators in front of its own name and of the names of its supertypes -/
def normal : Symbol → Symbol
  | ofClass c => ofClass { c with
      name := Name.strip c.name
      parent := c.parent.map Name.strip
      interfaces := c.interfaces.map Name.strip }
  | ofInterface i => ofInterface { i with
      name := Name.strip i.name
      parents := i.parents.map Name.strip }

end Symbol

end TypeHint
