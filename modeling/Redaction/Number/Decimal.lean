import Redaction.Number.Exact
import Redaction.Number.Numeral

/-!
# Decimal numbers

A decimal number is a coefficient and a power of ten, so that `1.0` and `1.00` are two decimals
with one value. Its text is the scientific string of general decimal arithmetic: positional when
the power is not positive and the first digit stands no lower than the sixth place after the
point.
-/

namespace Redaction.Number

/-- A decimal number. What is not a number has a payload, and is told apart by a mark. -/
inductive Decimal where
  | nan (negative signaling : Bool) (payload mark : Nat)
  | infinite (negative : Bool)
  | finite (negative : Bool) (coefficient : Nat) (exponent : Int)
deriving Repr, DecidableEq

namespace Decimal

def value? : Decimal → Option Exact
  | finite negative coefficient exponent =>
    some (Exact.of (if negative then -(coefficient : Int) else coefficient) exponent)
  | _ => none

def text : Decimal → String
  | nan negative signaling payload _ =>
    sign negative ++ (if signaling then "sNaN" else "NaN") ++
      (if payload = 0 then "" else Text.decimal 1 payload)
  | infinite negative => sign negative ++ "Infinity"
  | finite negative coefficient exponent =>
    let cs := Nat.toDigits 10 coefficient
    let point := cs.length + exponent
    if exponent ≤ 0 && -6 < point then sign negative ++ pointed (splitAtPoint cs point)
    else
      sign negative ++ pointed (cs.take 1, cs.drop 1) ++
        (if point = 1 then ""
        else "E" ++ powerSign (point - 1) ++ Text.decimal 1 (point - 1).natAbs)

/-- Reads what is not a number after its sign: the word and an optional payload. -/
def ofWord? (mark : Nat) (negative : Bool) (cs : List Char) : Option Decimal :=
  let payload? := fun rest : List Char =>
    if rest.isEmpty then some 0 else Text.ofNumeral? rest
  if cs = "Infinity".toList then some (infinite negative)
  else if cs.take 3 = "NaN".toList then
    (payload? (cs.drop 3)).map fun payload => nan negative false payload mark
  else if cs.take 4 = "sNaN".toList then
    (payload? (cs.drop 4)).map fun payload => nan negative true payload mark
  else none

/-- Reads the text of a number; the mark is for what is not a number. -/
def ofText? (mark : Nat) (s : String) : Option Decimal :=
  match Numeral.ofChars? s.toList with
  | some numeral =>
    some (finite numeral.negative (Nat.ofDigitChars 10 numeral.digits 0) numeral.exponent)
  | none =>
    match s.toList with
    | '-' :: cs => ofWord? mark true cs
    | cs => ofWord? mark false cs

end Redaction.Number.Decimal
