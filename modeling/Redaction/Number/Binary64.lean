import Redaction.Number.Exact
import Redaction.Number.Numeral

/-!
# Binary floating-point numbers

A finite 64-bit floating-point number is held as the shortest decimal that reads back as it. Its
text is positional from `0.0001` up to below `10 ^ 16`, and has a power of ten of at least two
digits elsewhere. Its exact value is the multiple of a power of two that lies nearest to the
decimal.
-/

namespace Redaction.Number

/-- A 64-bit floating-point number. What is not a number is told apart by a mark: such a value is
the same only as itself. -/
inductive Binary64 where
  | nan (mark : Nat)
  | infinite (negative : Bool)
  | finite (negative : Bool) (digits : Nat) (exponent : Int)
deriving Repr, DecidableEq

/-- The quotient rounded to the nearest integer, a tie to the even one. -/
def roundQuotient (num den : Nat) : Nat :=
  let q := num / den
  let twice := 2 * (num % den)
  if den < twice || (twice = den && q % 2 = 1) then q + 1 else q

/-- The number `m * 2 ^ k` with `m` below `2 ^ 53` that lies nearest to `digits * 10 ^ exponent`,
or nothing beyond the largest number. The smallest `k` is `-1074`. -/
def nearestBinary (digits : Nat) (exponent : Int) : Option (Nat × Int) :=
  let size := (Nat.toDigits 10 digits).length + exponent
  if digits = 0 || size < -400 then some (0, 0)
  else if 400 < size then none
  else
    let num := digits * Nat.pow 10 exponent.toNat
    let den := Nat.pow 10 (-exponent).toNat
    let guess : Int := num.log2 - den.log2
    let isBelow := num * Nat.pow 2 (-guess).toNat < den * Nat.pow 2 guess.toNat
    let top := if isBelow then guess - 1 else guess
    let k := max (top - 52) (-1074)
    let m := roundQuotient (num * Nat.pow 2 (-k).toNat) (den * Nat.pow 2 k.toNat)
    if Nat.pow 2 53 ≤ m && 971 ≤ k || 971 < k then none else some (m, k)

/-- The number `± m * 2 ^ k` in decimal normal form. -/
def exactBinary (negative : Bool) (m : Nat) (k : Int) : Exact :=
  let signedMantissa : Int := if negative then -(m : Int) else m
  if 0 ≤ k then Exact.of (signedMantissa * Int.pow 2 k.toNat) 0
  else Exact.of (signedMantissa * Int.pow 5 (-k).toNat) k

/-- The value of the floating-point number nearest to `± digits * 10 ^ exponent`. -/
def nearestExact (negative : Bool) (digits : Nat) (exponent : Int) : Option Exact :=
  (nearestBinary digits exponent).map fun (m, k) => exactBinary negative m k

namespace Binary64

def value? : Binary64 → Option Exact
  | finite negative digits exponent => nearestExact negative digits exponent
  | _ => none

/-- The mantissa with at least two characters of power, after its first digit. -/
def scientific (digits : List Char) (power : Int) : String :=
  pointed (digits.take 1, digits.drop 1) ++ "e" ++ powerSign power ++ Text.decimal 2 power.natAbs

/-- A positional numeral, with one zero after the point when there is no fraction. -/
def positional (digits : List Char) (point : Int) : String :=
  let parts := splitAtPoint digits point
  if parts.2.isEmpty then pointed (parts.1, ['0']) else pointed parts

def text : Binary64 → String
  | nan _ => "nan"
  | infinite negative => sign negative ++ "inf"
  | finite negative digits exponent =>
    let cs := Nat.toDigits 10 digits
    let point := cs.length + exponent
    sign negative ++
      (if digits = 0 then "0.0"
      else if -4 < point && point ≤ 16 then positional cs point
      else scientific cs (point - 1))

/-- Reads the text of a number; the mark is for what is not a number. -/
def ofText? (mark : Nat) (s : String) : Option Binary64 :=
  match s with
  | "nan" => some (nan mark)
  | "inf" => some (infinite false)
  | "-inf" => some (infinite true)
  | _ => (Numeral.ofChars? s.toList).map fun numeral =>
    let (digits, zeros) := trimZeros (numeral.digits.length) (Nat.ofDigitChars 10 numeral.digits 0)
    if digits = 0 then finite numeral.negative 0 0
    else finite numeral.negative digits (numeral.exponent + zeros)

end Redaction.Number.Binary64
