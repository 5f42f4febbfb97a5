import TypeHint.Json.Numeral

/-!
# The tokens of a JSON text

`tokens?` cuts a text into punctuation, texts and plain words.  A plain word is `true`, `false`,
`null` or a number.  Only space, tab, line feed and carriage return may stand between tokens.
-/

namespace TypeHint.Json

inductive Token where
  | openArray | closeArray | openObject | closeObject | comma | colon
  | text (s : String)
  | plain (j : Json)

/-! ## texts -/

def hexDigit? (c : Char) : Option Nat :=
  if c.isDigit then some (c.toNat - '0'.toNat)
  else if 'a' ≤ c ∧ c ≤ 'f' then some (c.toNat - 'a'.toNat + 10)
  else if 'A' ≤ c ∧ c ≤ 'F' then some (c.toNat - 'A'.toNat + 10)
  else none

def codeUnit? (a b c d : Char) : Option Nat := do
  return 4096 * (← hexDigit? a) + 256 * (← hexDigit? b) + 16 * (← hexDigit? c) + (← hexDigit? d)

def isHighSurrogate (n : Nat) : Bool := decide (0xD800 ≤ n) && decide (n < 0xDC00)

def isLowSurrogate (n : Nat) : Bool := decide (0xDC00 ≤ n) && decide (n < 0xE000)

/-- the character of a letter escape -/
def escape? (c : Char) : Option Char :=
  [('"', '"'), ('\\', '\\'), ('/', '/'), ('b', '\x08'), ('f', '\x0c'), ('n', '\n'), ('r', '\r'),
    ('t', '\t')].lookup c

/-- decodes what stands between the quotes of a text; a surrogate counts only as one of a pair -/
def decode? : List Char → Option (List Char)
  | [] => some []
  | '\\' :: 'u' :: a :: b :: c :: d :: s => do
    let n ← codeUnit? a b c d
    if isHighSurrogate n then
      match s with
      | '\\' :: 'u' :: a :: b :: c :: d :: s =>
        let m ← codeUnit? a b c d
        if isLowSurrogate m then
          return Char.ofNat (0x10000 + 1024 * (n - 0xD800) + (m - 0xDC00)) :: (← decode? s)
        else none
      | _ => none
    else if isLowSurrogate n then none
    else return Char.ofNat n :: (← decode? s)
  | '\\' :: c :: s => do return (← escape? c) :: (← decode? s)
  | c :: s => if c = '\\' ∨ c.toNat < 0x20 then none else do return c :: (← decode? s)

/-! ## cutting -/

def isSpace (c : Char) : Bool := c == ' ' || c == '\t' || c == '\n' || c == '\r'

def punctuation? : Char → Option Token
  | '[' => some .openArray
  | ']' => some .closeArray
  | '\x7b' => some .openObject
  | '\x7d' => some .closeObject
  | ',' => some .comma
  | ':' => some .colon
  | _ => none

/-- the value of a plain word, given from its last character to its first -/
def plain? (reversed : List Char) : Option Token :=
  let word := reversed.reverse
  if word = "null".toList then some (.plain .null)
  else if word = "true".toList then some (.plain (.bool true))
  else if word = "false".toList then some (.plain (.bool false))
  else (ofNumeral? word).map .plain

/-- where in a text the cutting stands; what was read of a token is kept in reverse -/
inductive Cut where
  | between
  | inWord (read : List Char)
  | inText (read : List Char)
  /-- after a backslash -/
  | inEscape (read : List Char)

def textToken? (reversed : List Char) : Option Token :=
  (decode? reversed.reverse).map fun s => .text (String.ofList s)

def cut : Cut → List Char → Option (List Token)
  | .between, [] => some []
  | .inWord read, [] => do return [← plain? read]
  | .inText _, [] => none
  | .inEscape _, [] => none
  | .between, c :: s =>
    if isSpace c then cut .between s
    else if c = '"' then cut (.inText []) s
    else match punctuation? c with
      | some t => do return t :: (← cut .between s)
      | none => cut (.inWord [c]) s
  | .inWord read, c :: s =>
    if isSpace c then do
      let word ← plain? read
      return word :: (← cut .between s)
    else if c = '"' then do
      let word ← plain? read
      return word :: (← cut (.inText []) s)
    else match punctuation? c with
      | some t => do
        let word ← plain? read
        return word :: t :: (← cut .between s)
      | none => cut (.inWord (c :: read)) s
  | .inText read, c :: s =>
    if c = '"' then do
      let text ← textToken? read
      return text :: (← cut .between s)
    else if c = '\\' then cut (.inEscape (c :: read)) s
    else cut (.inText (c :: read)) s
  | .inEscape read, c :: s => cut (.inText (c :: read)) s

def tokens? (s : String) : Option (List Token) := cut .between s.toList

end TypeHint.Json
