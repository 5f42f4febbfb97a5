import TypeHint.Error
import TypeHint.Text.Blank

/-!
# Type hints

A `Hint` is what a text says before any name in it is looked up.  Reading never fails: where the
text is malformed the hint holds the flaw in the place where it was found, and giving the hint a
meaning meets it there, after the flaws and unknown names that stand before it.

Rules for reading, first match wins:

* parts between `|` outside all brackets are the members of a union;
* `( … )` groups;
* a primitive name or alias;
* `T[]`, an array with `mixed` keys;
* `array`, `array<V>` and `array<K,V>`;
* anything else is the name of a class or interface.

Groups and arrays may be nested 64 levels deep.
-/

namespace TypeHint

inductive Hint where
  | primitive (p : Primitive)
  /-- a well-formed name, as written -/
  | named (text : String)
  | array (key item : Hint)
  | union (parts : List Hint)
  | malformed (text : String) (flaw : Flaw)
deriving Repr

namespace Hint

open Text

/-! ## splitting outside brackets -/

/-- the bracket that a closing bracket closes -/
def opening? (c : Char) : Option Char :=
  if c = '>' then some '<' else if c = ')' then some '(' else none

/-- the parts of a text between the separators outside all brackets; `stack` holds the brackets that
are open, the last one first -/
def split (sep : Char) (stack : List Char) : List Char → Except Flaw (List (List Char))
  | [] => match stack with
    | [] => .ok [[]]
    | o :: _ => .error (.unclosed o)
  | c :: cs =>
    if c = '<' ∨ c = '(' then consPiece c <$> split sep (c :: stack) cs
    else match opening? c with
      | some o => match stack with
        | o' :: stack' =>
          if o' = o then consPiece c <$> split sep stack' cs else .error (.unbalanced c)
        | [] => .error (.unbalanced c)
      | none =>
        if c = sep ∧ stack = [] then ([] :: ·) <$> split sep stack cs
        else consPiece c <$> split sep stack cs

/-- the trimmed parts of a text, none of them empty -/
def parts (sep : Char) (text : List Char) : Except Flaw (List (List Char)) := do
  let ps := (← split sep [] text).map trim
  if ps.all (!·.isEmpty) then pure ps
  else throw (if ps.length = 1 then .emptyType else .emptyPart sep)

/-! ## forms of a single type -/

/-- every `)` of the text closes an earlier `(`, where `depth` are open at its start, and none stays
open -/
def balanced : Nat → List Char → Bool
  | depth, [] => depth == 0
  | depth, c :: cs =>
    if c = '(' then balanced (depth + 1) cs
    else if c = ')' then
      match depth with
      | 0 => false
      | d + 1 => balanced d cs
    else balanced depth cs

/-- what stands between two texts that enclose the whole -/
def between? (left right text : List Char) : Option (List Char) := do
  right.isSuffixOf? (← left.isPrefixOf? text)

/-- the text inside one pair of parentheses around the whole -/
def inner? (text : List Char) : Option (List Char) :=
  (between? ['('] [')'] text).filter (balanced 0)

/-- the text before the array suffix -/
def item? (text : List Char) : Option (List Char) := ['[', ']'].isSuffixOf? text

/-- the text between the angle brackets of an array -/
def arguments? (text : List Char) : Option (List Char) := between? "array<".toList ['>'] text

/-- the hint of a name, as written: a separator in front makes it absolute -/
def ofName (text : List Char) : Hint :=
  let name := match text with
    | [] => []
    | c :: cs => if c = Name.separator then cs else c :: cs
  if Name.isValid name then .named (String.ofList text)
  else .malformed (String.ofList text) .invalidName

/-- the hint of an array with arguments, each of which `read` reads -/
def ofArguments (read : List Char → Hint) (text arguments : List Char) : Hint :=
  match parts ',' arguments with
  | .error _ => .malformed (String.ofList text) .invalidArguments
  | .ok [item] => .array (.primitive .mixed) (read item)
  | .ok [key, item] => .array (read key) (read item)
  | .ok _ => .malformed (String.ofList text) .argumentCount

/-- the hint of one part of a union, where `read` reads what is nested in it -/
def ofSingle (read : List Char → Hint) (text : List Char) : Hint :=
  match inner? text with
  | some inner => read inner
  | none => match Primitive.ofName? (String.ofList text) with
    | some p => .primitive p
    | none => match item? text with
      | some item =>
        if (trim item).isEmpty then .malformed (String.ofList text) .suffixWithoutItem
        else .array (.primitive .mixed) (read item)
      | none =>
        if text = "array".toList then .array (.primitive .mixed) (.primitive .mixed)
        else match arguments? text with
          | some arguments => ofArguments read text arguments
          | none => ofName text

/-! ## reading -/

/-- reads a text in which `levels - 1` more levels may be nested -/
def read : Nat → List Char → Hint
  | 0, text => .malformed (String.ofList text) .tooDeep
  | levels + 1, text => match parts '|' text with
    | .error flaw => .malformed (String.ofList text) flaw
    | .ok [single] => ofSingle (read levels) single
    | .ok ps => .union (ps.map (ofSingle (read levels)))

/-- deepest nesting of arrays and groups -/
def nestingLimit : Nat := 64

def ofText (text : String) : Hint := read (nestingLimit + 1) text.toList

end Hint

end TypeHint
