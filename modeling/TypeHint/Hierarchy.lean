/-!
# What is known about classes and interfaces

A `Hierarchy` answers the questions the algebra of types asks about names: which names are
classes or interfaces, how they are ordered, and which of them can be called like a function.
`Hierarchy.empty` knows no name.
-/

namespace TypeHint

structure Hierarchy where
  isClass : String → Bool
  isInterface : String → Bool
  /-- `isBelow a b`: `a` is a proper subtype of `b` -/
  isBelow : String → String → Bool
  /-- `implements c i`: the class `c` implements the interface `i` -/
  implements : String → String → Bool
  isCallable : String → Bool

namespace Hierarchy

def empty : Hierarchy where
  isClass _ := false
  isInterface _ := false
  isBelow _ _ := false
  implements _ _ := false
  isCallable _ := false

/-- whether an object of class `a` is an instance of `b` -/
def instanceOf (h : Hierarchy) (a b : String) : Bool := a == b || h.isBelow a b

/-- name of the class of anonymous functions -/
def functionClass : String := "Closure"

end Hierarchy

end TypeHint
