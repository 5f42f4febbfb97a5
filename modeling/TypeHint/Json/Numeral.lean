import TypeHint.Json

/-!
# Numbers in JSON

`Json.ofNumeral?` reads a number: an optional minus sign, digits without leading zeros, an optional
fraction and an optional exponent.

A floating-point number is the product of its leading digits, as many as fit in 64 bits, and a
power of ten.  A product beyond the floating-point range is no number.
-/

namespace TypeHint.Json

/-- the parts of a number as written -/
structure Numeral where
  negative : Bool
  whole : List Char
  fraction : List Char
  exponent : Int
  /-- written with neither fraction nor exponent -/
  isWhole : Bool

/-- the digits in front of a text, and the rest -/
def digits (s : List Char) : List Char × List Char :=
  (s.takeWhile Char.isDigit, s.dropWhile Char.isDigit)

def digitsValue (ds : List Char) : Nat := ds.foldl (fun n c => 10 * n + (c.toNat - '0'.toNat)) 0

/-- no leading zero in front of another digit -/
def isWholePart : List Char → Bool
  | [] => false
  | ['0'] => true
  | c :: _ => c != '0'

/-- the fraction in front of a text, if there is one, and the rest -/
def fraction? : List Char → Option (Option (List Char) × List Char)
  | '.' :: s =>
    let (ds, rest) := digits s
    if ds.isEmpty then none else some (some ds, rest)
  | s => some (none, s)

/-- the exponent that makes up a text, if the text is not empty -/
def exponent? : List Char → Option (Option Int)
  | [] => some none
  | e :: s =>
    let (negative, s) := match s with
      | '-' :: s => (true, s)
      | '+' :: s => (false, s)
      | s => (false, s)
    if (e = 'e' ∨ e = 'E') ∧ !s.isEmpty ∧ s.all Char.isDigit then
      some (some (if negative then -digitsValue s else digitsValue s))
    else none

def Numeral.ofText? (s : List Char) : Option Numeral := do
  let (negative, s) := match s with
    | '-' :: s => (true, s)
    | s => (false, s)
  let (whole, s) := digits s
  if !isWholePart whole then none
  let (fraction, s) ← fraction? s
  let exponent ← exponent? s
  return {
    negative, whole
    fraction := fraction.getD []
    exponent := exponent.getD 0
    isWhole := fraction.isNone && exponent.isNone }

/-- the leading digits that fit in 64 bits and the number of digits after them -/
def significand (n : Nat) : List Char → Nat × Nat
  | [] => (n, 0)
  | d :: ds =>
    let n' := 10 * n + (d.toNat - '0'.toNat)
    if n' < 2 ^ 64 then significand n' ds else (n, ds.length + 1)

/-- largest exponent of a power of ten in the floating-point range -/
def maxExponent : Nat := 308

def powerOfTen (e : Nat) : Float := Float.ofScientific 1 false e

/-- the magnitude, unless it is beyond the floating-point range -/
def Numeral.magnitude? (n : Numeral) : Option Float :=
  let (m, dropped) := significand 0 (n.whole ++ n.fraction)
  let e : Int := n.exponent - n.fraction.length + dropped
  let x := m.toUInt64.toFloat
  if m = 0 then some 0
  else if e > maxExponent then none
  else if 0 ≤ e then
    let y := x * powerOfTen e.toNat
    if y.isInf then none else some y
  else if -e ≤ maxExponent then some (x / powerOfTen (-e).toNat)
  else if -e ≤ 2 * maxExponent then
    some (x / powerOfTen maxExponent / powerOfTen ((-e).toNat - maxExponent))
  else some 0

/-- the integers of the signed 64-bit range -/
def fitsInt64 (i : Int) : Bool :=
  decide (-9223372036854775808 ≤ i) && decide (i ≤ 9223372036854775807)

/-- a negative zero is a floating-point number -/
def Numeral.toJson? (n : Numeral) : Option Json :=
  let m := digitsValue n.whole
  let i : Int := if n.negative then -m else m
  if n.isWhole && fitsInt64 i && !(n.negative && m == 0) then some (.int i)
  else do
    let x ← n.magnitude?
    return .float (if n.negative then -x else x)

def ofNumeral? (s : List Char) : Option Json := do (← Numeral.ofText? s).toJson?

end TypeHint.Json
