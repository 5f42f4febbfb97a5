import TypeHint.Text.Blank

/-!
# Quoted text

`quote` shows a text between double quotes.  The quote and the backslash are escaped with a
backslash, the usual control characters have a letter or digit, every other control character and
every blank but the space is written by its code point in hexadecimal.
-/

namespace TypeHint.Text

/-- control characters (C0, delete and C1) and blanks other than the space -/
def isInvisible (c : Char) : Bool :=
  decide (c.toNat < 0x20) || decide (0x7F ≤ c.toNat) && decide (c.toNat < 0xA0) ||
    isBlank c && c != ' '

def escapeChar (c : Char) : List Char :=
  if c = '"' then ['\\', '"']
  else if c = '\\' then ['\\', '\\']
  else if c = '\n' then ['\\', 'n']
  else if c = '\r' then ['\\', 'r']
  else if c = '\t' then ['\\', 't']
  else if c.toNat = 0 then ['\\', '0']
  else if isInvisible c then
    ['\\', 'u', '\x7b'] ++ Nat.toDigits 16 c.toNat ++ ['\x7d']
  else [c]

def quote (s : String) : String :=
  String.ofList (['"'] ++ s.toList.flatMap escapeChar ++ ['"'])

end TypeHint.Text
