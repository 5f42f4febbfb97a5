import TypeHint.Hierarchy
import TypeHint.Order
import TypeHint.Symbol.Error
import TypeHint.Traced

/-!
# The symbol table

A `Table` holds symbols with distinct names: a class and an interface cannot share one either.

* `Table.register`          adds a symbol, unless its name is taken
* `Table.hasAncestor`       a search upwards for one name
* `Table.properAncestors`   all names above a name, nearest first
* `Table.check`             every supertype is registered, and no type is its own ancestor

Supertypes need not be registered when a symbol is added, so a table may hold dangling names and
cycles until it is checked.
-/

namespace TypeHint

structure Table where
  symbols : List Symbol
  nodup : (symbols.map Symbol.name).Nodup

namespace Table

def empty : Table := ⟨[], List.nodup_nil⟩

def names (t : Table) : List String := t.symbols.map Symbol.name

def find? (t : Table) (name : String) : Option Symbol := t.symbols.find? (·.name == name)

def findClass? (t : Table) (name : String) : Option Class := (t.find? name).bind Symbol.class?

def isClass (t : Table) (name : String) : Bool := (t.findClass? name).isSome

def isInterface (t : Table) (name : String) : Bool :=
  ((t.find? name).bind Symbol.interface?).isSome

def classes (t : Table) : List Class := t.symbols.filterMap Symbol.class?

def interfaces (t : Table) : List Interface := t.symbols.filterMap Symbol.interface?

/-! ## registration -/

theorem nodup_append {t : Table} {s : Symbol} (h : s.name ∉ t.names) :
    ((t.symbols ++ [s]).map Symbol.name).Nodup := by
  rw [List.map_append, List.nodup_append]
  refine ⟨t.nodup, by simp, ?_⟩
  rintro a ha b hb rfl
  rw [List.map_singleton, List.mem_singleton] at hb
  exact h (hb ▸ ha)

/-- adds a symbol in its normal form -/
def register (t : Table) (s : Symbol) : Except SymbolError Table :=
  let s := s.normal
  if h : s.name ∈ t.names then .error (.nameTaken s.kind s.name)
  else .ok ⟨t.symbols ++ [s], nodup_append h⟩

def registered (s : Symbol) : Event :=
  match s.kind with
  | .class => .registeredClass s.normal.name
  | .interface => .registeredInterface s.normal.name

/-- registers a symbol and tells of it -/
def registerTraced (t : Table) (s : Symbol) : Traced SymbolError Table := do
  let t ← .ofExcept (t.register s)
  .emit (registered s)
  return t

/-! ## ancestors -/

def parents (t : Table) (name : String) : List String :=
  (t.find? name).elim [] Symbol.supertypes

/-- number of supertypes that the symbols outside `seen` declare -/
def declaredOutside (seen : List String) : List Symbol → Nat
  | [] => 0
  | s :: ss => (if s.name ∈ seen then 0 else s.supertypes.length) + declaredOutside seen ss

theorem declaredOutside_cons_le (x : String) (seen : List String) (ss : List Symbol) :
    declaredOutside (x :: seen) ss ≤ declaredOutside seen ss := by
  induction ss with
  | nil => exact Nat.le_refl 0
  | cons s ss ih =>
    simp only [declaredOutside]
    by_cases hs : s.name ∈ seen
    · rw [if_pos hs, if_pos (List.mem_cons_of_mem x hs)]
      omega
    · rw [if_neg hs]
      split <;> omega

/-- the supertypes of a name are queued once, when it is first seen -/
theorem length_parents_add_declaredOutside_le {t : Table} {x : String} {seen : List String}
    (hx : x ∉ seen) : (t.parents x).length + declaredOutside (x :: seen) t.symbols ≤
      declaredOutside seen t.symbols := by
  unfold parents find?
  induction t.symbols with
  | nil => exact Nat.le_refl 0
  | cons s ss ih =>
    have hle := declaredOutside_cons_le x seen ss
    simp only [declaredOutside]
    by_cases hs : s.name = x
    · rw [List.find?_cons_of_pos (by simpa using hs), if_pos (by simp [hs]), if_neg (hs ▸ hx)]
      simp only [Option.elim]
      omega
    · rw [List.find?_cons_of_neg (by simpa using hs)]
      simp only [List.mem_cons, hs, false_or] at ih ⊢
      omega

-- Both searches stay open to evaluation, so that a question to a given table can be decided.

/-- takes names from the queue until one is `target`; a name that is new is put among the seen ones
and its direct supertypes at the end of the queue -/
@[semireducible]
def finds (t : Table) (target : String) (seen : List String) : List String → Bool
  | [] => false
  | next :: queue =>
    if next = target then true
    else if next ∈ seen then finds t target seen queue
    else finds t target (next :: seen) (queue ++ t.parents next)
termination_by queue => queue.length + declaredOutside seen t.symbols
decreasing_by
  · exact Nat.add_lt_add_right (Nat.lt_succ_self _) _
  · have := length_parents_add_declaredOutside_le (t := t) ‹next ∉ seen›
    simp only [List.length_append, List.length_cons]
    omega

/-- the names that are new when they are taken from the queue, in that order; unlike `finds` it
never goes on from `name` -/
@[semireducible]
def collect (t : Table) (name : String) (seen : List String) : List String → List String
  | [] => []
  | next :: queue =>
    if next = name ∨ next ∈ seen then collect t name seen queue
    else next :: collect t name (next :: seen) (queue ++ t.parents next)
termination_by queue => queue.length + declaredOutside seen t.symbols
decreasing_by
  · exact Nat.add_lt_add_right (Nat.lt_succ_self _) _
  · have hnew : ¬ (next = name ∨ next ∈ seen) := ‹_›
    have := length_parents_add_declaredOutside_le (t := t) (not_or.mp hnew).2
    simp only [List.length_append, List.length_cons]
    omega

/-- whether one or more steps to a direct supertype lead from `a` to `b` -/
def hasAncestor (t : Table) (a b : String) : Bool := t.finds b [] (t.parents a)

/-- all names above `name` but itself, each once and nearest first -/
def properAncestors (t : Table) (name : String) : List String :=
  t.collect name [] (t.parents name)

def isBelow (t : Table) (a b : String) : Bool := a != b && t.hasAncestor a b

def implements (t : Table) (c i : String) : Bool :=
  t.isClass c && t.isInterface i && t.isBelow c i

/-! ## validity -/

/-- names in the order of their code points -/
def byName {α : Type} (name : α → String) (a b : α) : Bool := decide (name a < name b)

def classFaults (t : Table) (c : Class) : List SymbolError :=
  (c.parent.toList.filter (!t.isClass ·)).map (.missingSupertype c.name · .class) ++
    (c.interfaces.filter (!t.isInterface ·)).map (.missingSupertype c.name · .interface)

def interfaceFaults (t : Table) (i : Interface) : List SymbolError :=
  (i.parents.filter (!t.isInterface ·)).map (.missingSupertype i.name · .interface)

/-- all that is wrong: first supertypes of classes, then supertypes of interfaces, then cycles, each
in order of names -/
def faults (t : Table) : List SymbolError :=
  (sortBy (byName Class.name) t.classes).flatMap t.classFaults ++
    (sortBy (byName Interface.name) t.interfaces).flatMap t.interfaceFaults ++
    ((sortBy (byName id) t.names).filter fun n => t.hasAncestor n n).map .cyclic

/-- reports the first fault -/
def check (t : Table) : Except SymbolError Unit :=
  match t.faults with
  | [] => .ok ()
  | e :: _ => .error e

end Table

end TypeHint
