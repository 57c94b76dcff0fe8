import Redaction.Text.Digits

/-!
# Numerals with a point and a power of ten

The written form that decimals and binary floating-point numbers share: an optional minus sign,
digits with at most one point among them, and an optional power of ten.
-/

namespace Redaction.Number

/-- The number `± digits * 10 ^ exponent` as its digits were written. -/
structure Numeral where
  negative : Bool
  digits : List Char
  exponent : Int
deriving Repr, DecidableEq

/-- The power of ten after the letter, with an optional sign. -/
def exponent? : List Char → Option Int
  | [] => some 0
  | '+' :: cs => (Text.ofNumeral? cs).map Int.ofNat
  | cs => Text.ofSigned? cs

/-- Reads the digits and the power of ten of a numeral without sign. -/
def Numeral.unsigned? (negative : Bool) (cs : List Char) : Option Numeral :=
  let isPower := fun c : Char => c = 'e' || c = 'E'
  let body := cs.takeWhile fun c => !isPower c
  let power := (cs.dropWhile fun c => !isPower c).drop 1
  let whole := body.takeWhile (· ≠ '.')
  let fraction := (body.dropWhile (· ≠ '.')).drop 1
  if Text.isNumeral (whole ++ fraction) then
    (exponent? power).map fun e => ⟨negative, whole ++ fraction, e - fraction.length⟩
  else none

def Numeral.ofChars? : List Char → Option Numeral
  | '-' :: cs => unsigned? true cs
  | cs => unsigned? false cs

/-- Digits with a point after the first `point` of them: the whole part and the fraction. A point
outside the digits is reached by writing zeros, and the whole part is never empty. -/
def splitAtPoint (digits : List Char) (point : Int) : List Char × List Char :=
  if point ≤ 0 then (['0'], List.replicate (-point).toNat '0' ++ digits)
  else
    let whole := digits.take point.toNat
    (whole ++ List.replicate (point.toNat - digits.length) '0', digits.drop point.toNat)

/-- A whole part and a fraction with a point between them when there is a fraction. -/
def pointed (parts : List Char × List Char) : String :=
  if parts.2.isEmpty then String.ofList parts.1
  else String.ofList (parts.1 ++ '.' :: parts.2)

def sign (negative : Bool) : String := if negative then "-" else ""

def powerSign (e : Int) : String := if e < 0 then "-" else "+"

end Redaction.Number
