/-!
# Digits

Numerals of a fixed width, and the reading of decimal numerals made of the ten ASCII digits. Longer
decimal numerals than `numeralLimit` are neither read nor written.
-/

namespace Redaction

/-- The most digits of a decimal numeral that is turned into a number, or that a number is turned
into. -/
def numeralLimit : Nat := 4300

namespace Text

/-- The text filled up on the left with zeros to the given width. -/
def zeroPadded (width : Nat) (digits : List Char) : String :=
  String.ofList (List.replicate (width - digits.length) '0' ++ digits)

/-- A decimal numeral of at least `width` digits. -/
def decimal (width n : Nat) : String := zeroPadded width (Nat.toDigits 10 n)

/-- A lower-case hexadecimal numeral of at least `width` digits. -/
def hexadecimal (width n : Nat) : String := zeroPadded width (Nat.toDigits 16 n)

/-- A decimal numeral with a leading minus sign when the number is negative. -/
def signed (n : Int) : String :=
  if n < 0 then "-" ++ decimal 1 n.natAbs else decimal 1 n.natAbs

/-- The numeral of the number is not too long to be written. -/
def isShort (n : Int) : Bool := (Nat.toDigits 10 n.natAbs).length ≤ numeralLimit

/-- A decimal numeral: at least one character, and ASCII digits only. -/
def isNumeral (cs : List Char) : Bool := !cs.isEmpty && cs.all Char.isDigit

/-- The number that a decimal numeral denotes; leading zeros are allowed. -/
def ofNumeral? (cs : List Char) : Option Nat :=
  if isNumeral cs then some (Nat.ofDigitChars 10 cs 0) else none

/-- The signed number that a decimal numeral with an optional minus sign denotes. -/
def ofSigned? : List Char → Option Int
  | '-' :: cs => (ofNumeral? cs).map fun n => -(n : Int)
  | cs => (ofNumeral? cs).map Int.ofNat

end Text

end Redaction
