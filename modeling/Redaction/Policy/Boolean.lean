import Redaction.Failure
import Redaction.Value.Basic

/-!
# Lenient booleans

Which values are read as a boolean: the booleans themselves, the numbers zero and one of any type,
and a few words in any case, as a text or as bytes. A word that is not one of them, or another
integer of 64 bits, is called unreadable; anything else is no boolean at all.
-/

namespace Redaction.Policy

def wordOf (b : Bool) : List String :=
  if b then ["1", "on", "t", "true", "y", "yes"] else ["0", "off", "f", "false", "n", "no"]

def booleanOfWord (cs : List Char) : Except Complaint Bool :=
  let word := String.ofList (cs.map Char.toLower)
  if (wordOf true).contains word then .ok true
  else if (wordOf false).contains word then .ok false
  else .error .unreadableBoolean

def booleanOfInt (n : Int) : Except Complaint Bool :=
  if n = 0 then .ok false
  else if n = 1 then .ok true
  else if -Int.pow 2 63 ≤ n && n < Int.pow 2 63 then .error .unreadableBoolean
  else .error .notBoolean

/-- Reads the value of a floating-point number, which has to be an integer between the bounds of
64 bits and different from them. -/
def booleanOfExact (x : Option Number.Exact) : Except Complaint Bool :=
  match x.bind Number.Exact.toInt? with
  | some n => if n = -Int.pow 2 63 then .error .notBoolean else booleanOfInt n
  | none => .error .notBoolean

/-- Reads an atom. A decimal number is read as the floating-point number nearest to it. -/
def booleanOfAtom : Atom → Except Complaint Bool
  | .bool b => .ok b
  | .int n => booleanOfInt n
  | .text s => booleanOfWord s.toList
  | .bytes bytes => booleanOfWord (bytes.map fun b => Char.ofNat b.toNat)
  | .binary x => booleanOfExact x.value?
  | .decimal (.finite negative coefficient exponent) =>
    booleanOfExact (Number.nearestExact negative coefficient exponent)
  | _ => .error .notBoolean

def booleanOf : Value → Except Complaint Bool
  | .scalar (.atom a) => booleanOfAtom a
  | _ => .error .notBoolean

end Redaction.Policy
