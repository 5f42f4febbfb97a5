import TypeHint.Json.Reader
import TypeHint.Symbol.Table

/-!
# Symbols written in JSON

A manifest lists classes and interfaces.  A record is an object with its fields by name, or an array
of its fields in order, of which those at the end may be left out.  No field is given twice and none
is unknown.  Every field but `name` is optional.

`Table.ofManifest` registers the interfaces, then the classes, and checks the table.
-/

namespace TypeHint

structure Manifest where
  classes : List Class
  interfaces : List Interface

namespace Manifest

/-- the fields of a record with the given field names -/
def record? (names : List String) : Json → Option (List (String × Json))
  | .array items => if items.length ≤ names.length then some (names.zip items) else none
  | .object fields =>
    let given := fields.map Prod.fst
    if given.all names.contains && decide given.Nodup then some fields else none
  | _ => none

def text? : Json → Option String
  | .text s => some s
  | _ => none

/-- a text or `null` -/
def nullableText? : Json → Option (Option String)
  | .null => some none
  | .text s => some (some s)
  | _ => none

def bool? : Json → Option Bool
  | .bool b => some b
  | _ => none

def list? {α : Type} (read : Json → Option α) : Json → Option (List α)
  | .array items => items.mapM read
  | _ => none

/-- sets the target of an alias -/
def setAlias (short target : String) : List (String × String) → List (String × String)
  | [] => [(short, target)]
  | a :: as => if a.1 = short then (short, target) :: as else a :: setAlias short target as

/-- aliases with their targets; of an alias that is given twice the last target counts -/
def imports? : Json → Option (List (String × String))
  | .object fields => fields.foldlM (fun as f => do return setAlias f.1 (← text? f.2) as) []
  | _ => none

/-- a field that must be given -/
def required {α : Type} (fields : List (String × Json)) (name : String) (read : Json → Option α) :
    Option α := do read (← fields.lookup name)

/-- a field that may be missing -/
def optional {α : Type} (fields : List (String × Json)) (name : String) (read : Json → Option α)
    (missing : α) : Option α :=
  match fields.lookup name with
  | some j => read j
  | none => some missing

def method? (j : Json) : Option Method := do
  let fs ← record? ["name", "parameters", "doc"] j
  return {
    name := ← required fs "name" text?
    parameters := ← optional fs "parameters" (list? text?) []
    doc := ← optional fs "doc" nullableText? none }

def property? (j : Json) : Option Property := do
  let fs ← record? ["name", "doc"] j
  return {
    name := ← required fs "name" text?
    doc := ← optional fs "doc" nullableText? none }

def class? (j : Json) : Option Class := do
  let fs ← record?
    ["name", "extends", "implements", "abstract", "imports", "methods", "properties"] j
  return {
    name := ← required fs "name" text?
    parent := ← optional fs "extends" nullableText? none
    interfaces := ← optional fs "implements" (list? text?) []
    isAbstract := ← optional fs "abstract" bool? false
    imports := ← optional fs "imports" imports? []
    methods := ← optional fs "methods" (list? method?) []
    properties := ← optional fs "properties" (list? property?) [] }

def interface? (j : Json) : Option Interface := do
  let fs ← record? ["name", "extends", "imports", "methods"] j
  return {
    name := ← required fs "name" text?
    parents := ← optional fs "extends" (list? text?) []
    imports := ← optional fs "imports" imports? []
    methods := ← optional fs "methods" (list? method?) [] }

def ofJson? (j : Json) : Option Manifest := do
  let fs ← record? ["classes", "interfaces"] j
  return {
    classes := ← optional fs "classes" (list? class?) []
    interfaces := ← optional fs "interfaces" (list? interface?) [] }

def ofText (s : String) : Except SymbolError Manifest :=
  match (Json.ofText? s).bind ofJson? with
  | some m => .ok m
  | none => .error .invalidManifest

end Manifest

namespace Table

def registerAll (t : Table) : List Symbol → Traced SymbolError Table
  | [] => pure t
  | s :: ss => do registerAll (← t.registerTraced s) ss

def ofManifest (m : Manifest) : Traced SymbolError Table := do
  let t ← empty.registerAll (m.interfaces.map .ofInterface)
  let t ← t.registerAll (m.classes.map .ofClass)
  .ofExcept t.check
  .emit (.tableLoaded t.classes.length t.interfaces.length)
  return t

def ofText (s : String) : Traced SymbolError Table := do
  ofManifest (← .ofExcept (Manifest.ofText s))

end Table

end TypeHint
