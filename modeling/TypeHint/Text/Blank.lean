/-!
# Blank characters

* `isBlank`                        the characters of the Unicode property White_Space
* `trimStart`, `trimEnd`, `trim`   a text without the blanks at its ends
* `firstWord`                      the first word of a text and what follows it

Texts are lists of characters: every reader of the library recurses on such a list.
-/

namespace TypeHint.Text

/-- the code points with the property White_Space, as closed ranges -/
def blankRanges : List (Nat × Nat) :=
  [(0x09, 0x0D), (0x20, 0x20), (0x85, 0x85), (0xA0, 0xA0), (0x1680, 0x1680), (0x2000, 0x200A),
    (0x2028, 0x2029), (0x202F, 0x202F), (0x205F, 0x205F), (0x3000, 0x3000)]

def isBlank (c : Char) : Bool :=
  blankRanges.any fun r => decide (r.1 ≤ c.toNat) && decide (c.toNat ≤ r.2)

def trimStart (s : List Char) : List Char := s.dropWhile isBlank

def trimEnd (s : List Char) : List Char := (trimStart s.reverse).reverse

def trim (s : List Char) : List Char := trimEnd (trimStart s)

/-- the first word and the rest, with the blanks before each of them dropped -/
def firstWord (s : List Char) : List Char × List Char :=
  let s := trimStart s
  (s.takeWhile fun c => !isBlank c, trimStart (s.dropWhile fun c => !isBlank c))

end TypeHint.Text
