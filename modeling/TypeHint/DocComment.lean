import TypeHint.Event
import TypeHint.Text.Blank
import TypeHint.Text.Pieces

/-!
# Documentation comments

A comment holds a description and tags.  Three kinds of tag carry types:

* `@param TYPE $NAME DESCRIPTION`, where a missing type means `mixed`
* `@return TYPE DESCRIPTION`
* `@var TYPE DESCRIPTION`

The description is the first run of lines with text in front of all tags.  A tag ends where the next
one begins; its lines are joined by single spaces.  The text of a type ends at the first blank
outside brackets and is kept as written.

* `DocComment.ofText`   what a comment says
* `DocComment.events`   what is told while it is read
-/

namespace TypeHint

structure TypeTag where
  type : String
  description : String
deriving DecidableEq, Repr

structure ParamTag where
  /-- without the `$` -/
  name : String
  type : String
  description : String
deriving DecidableEq, Repr

structure DocComment where
  description : String
  params : List ParamTag
  result : Option TypeTag
  var : Option TypeTag
deriving DecidableEq, Repr

namespace DocComment

open Text

def empty : DocComment := ⟨"", [], none, none⟩

/-! ## lines -/

/-- drops a text in front, if it is there -/
def dropFront (front s : List Char) : List Char := (front.isPrefixOf? s).getD s

/-- drops a text at the end, if it is there -/
def dropBack (back s : List Char) : List Char := (back.isSuffixOf? s).getD s

/-- what stands between the delimiters -/
def body (comment : List Char) : List Char :=
  dropBack ['*', '/'] (dropFront ['/', '*', '*'] (trim comment))

/-- a line without blanks and without the star that decorates it -/
def undecorate (line : List Char) : List Char := trim (dropFront ['*'] (trim line))

def lines (comment : String) : List (List Char) :=
  (pieces '\n' (body comment.toList)).map undecorate

def startsTag (line : List Char) : Bool := line.head? == some '@'

/-- joins lines by single spaces -/
def joinLines (ls : List (List Char)) : List Char := [' '].intercalate ls

def descriptionOf (ls : List (List Char)) : List Char :=
  let front := ls.takeWhile (!startsTag ·)
  joinLines ((front.dropWhile List.isEmpty).takeWhile (!·.isEmpty))

/-- the lines with text in front of all tags, and the tags -/
def gather : List (List Char) → List (List Char) × List (List Char)
  | [] => ([], [])
  | l :: ls =>
    let (front, tags) := gather ls
    if startsTag l then ([], joinLines (l :: front) :: tags)
    else if l.isEmpty then (front, tags)
    else (l :: front, tags)

def tagTexts (ls : List (List Char)) : List (List Char) := (gather ls).2

/-! ## tags -/

/-- cuts a text at the first blank outside brackets, where `depth` brackets are open at its start; a
closing bracket that closes nothing is ignored -/
def cutType : Nat → List Char → List Char × List Char
  | _, [] => ([], [])
  | depth, c :: cs =>
    if c = '<' ∨ c = '(' then
      let (t, rest) := cutType (depth + 1) cs
      (c :: t, rest)
    else if c = '>' ∨ c = ')' then
      let (t, rest) := cutType (depth - 1) cs
      (c :: t, rest)
    else if isBlank c ∧ depth = 0 then ([], c :: cs)
    else
      let (t, rest) := cutType depth cs
      (c :: t, rest)

/-- the type in front of a text and what follows it -/
def firstType (s : List Char) : List Char × List Char :=
  let (t, rest) := cutType 0 (trimStart s)
  (t, trimStart rest)

inductive Tag where
  | param (p : ParamTag)
  /-- a `@param` tag that names no variable, with its whole text -/
  | unnamedParam (text : String)
  /-- a `@return` tag, with nothing if it has no type -/
  | result (t : Option TypeTag)
  | var (t : Option TypeTag)
  | other (name : String)

def param? (s : List Char) : Option ParamTag :=
  let (type, rest) := if s.head? = some '$' then ("mixed".toList, s) else firstType s
  let (word, description) := firstWord rest
  match word with
  | '$' :: c :: name =>
    some ⟨String.ofList (c :: name), String.ofList type, String.ofList description⟩
  | _ => none

def typeTag? (s : List Char) : Option TypeTag :=
  let (type, description) := firstType s
  if type.isEmpty then none else some ⟨String.ofList type, String.ofList description⟩

/-- reads a tag from its text, which starts with `@` -/
def Tag.ofText (text : List Char) : Tag :=
  let (name, rest) := firstWord (text.drop 1)
  if name = "param".toList then
    match param? rest with
    | some p => .param p
    | none => .unnamedParam (String.ofList text)
  else if name = "return".toList then .result (typeTag? rest)
  else if name = "var".toList then .var (typeTag? rest)
  else .other (String.ofList name)

/-- what is told about a tag that counts for nothing -/
def Tag.events : Tag → List Event
  | .unnamedParam text => [.unnamedParam text]
  | .other name => [.ignoredTag name]
  | _ => []

/-- the place of a parameter is that of its first tag, its contents are those of the last -/
def setParam (p : ParamTag) : List ParamTag → List ParamTag
  | [] => [p]
  | q :: qs => if q.name = p.name then p :: qs else q :: setParam p qs

/-- of several `@return` or `@var` tags the first with a type counts -/
def addTag (d : DocComment) : Tag → DocComment
  | .param p => ⟨d.description, setParam p d.params, d.result, d.var⟩
  | .result t => ⟨d.description, d.params, d.result.or t, d.var⟩
  | .var t => ⟨d.description, d.params, d.result, d.var.or t⟩
  | .unnamedParam _ => d
  | .other _ => d

/-! ## comments -/

def tags (comment : String) : List Tag := (tagTexts (lines comment)).map Tag.ofText

def ofText (comment : String) : DocComment :=
  (tags comment).foldl addTag ⟨String.ofList (descriptionOf (lines comment)), [], none, none⟩

def events (comment : String) : List Event := (tags comment).flatMap Tag.events

/-- the tag of a parameter, which may be named with a `$` in front -/
def find? (d : DocComment) (name : String) : Option ParamTag :=
  let bare := String.ofList (dropFront ['$'] name.toList)
  d.params.find? (·.name == bare)

end DocComment

end TypeHint
