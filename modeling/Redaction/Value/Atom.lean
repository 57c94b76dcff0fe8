import Redaction.Calendar.Moment
import Redaction.Number.Binary64
import Redaction.Number.Decimal
import Redaction.Text.Quoted

/-!
# Atoms

The immutable values without parts. Each has a text and a literal. `Atom.token` says when two atoms
are the same as keys: numbers by their value, whatever their type, moments with an offset by their
instant, times of day with an offset by their instant and their fraction of a second, and objects
and what is not a number only by identity.
-/

namespace Redaction

/-- What tells two containers or objects apart that hold the same. -/
abbrev Ident := Nat

/-- The two markers of the library: writing `remove` deletes a slot, and `missing` stands for
nothing found. -/
inductive Sentinel where
  | remove
  | missing
deriving Repr, DecidableEq

def Sentinel.text : Sentinel → String
  | remove => "REMOVE"
  | missing => "MISSING"

/-- A sentinel counts as false where a condition is asked for. -/
def Sentinel.isTruthy : Sentinel → Bool
  | remove | missing => false

/-- An immutable value without parts. The sentinel itself has identity zero, its copies have
others. -/
inductive Atom where
  | null
  | bool (b : Bool)
  | int (n : Int)
  | binary (x : Number.Binary64)
  | text (s : String)
  | bytes (bytes : List UInt8)
  | decimal (x : Number.Decimal)
  | duration (d : Calendar.Duration)
  | date (d : Calendar.Date)
  | moment (m : Calendar.Moment)
  | clock (t : Calendar.Clock)
  | object (text : String) (id : Ident)
  | sentinel (which : Sentinel) (id : Ident)
deriving Repr, DecidableEq

inductive Token where
  | null
  | number (x : Number.Exact)
  | infinite (negative : Bool)
  | unordered (mark : Nat)
  | text (s : String)
  | bytes (bytes : List UInt8)
  | duration (micros : Int)
  | date (d : Calendar.Date)
  | moment (aware : Bool) (universal : Int)
  | clock (aware : Bool) (universal : Int) (micros : Nat)
  | object (id : Ident)
  | sentinel (which : Sentinel) (id : Ident)
  | tuple (length : Nat)
  | frozen (inhabited : Bool)
deriving Repr, DecidableEq

namespace Atom

def binaryToken : Number.Binary64 → Token
  | .nan mark => .unordered mark
  | .infinite negative => .infinite negative
  | x => .number (x.value?.getD (.of 0 0))

def decimalToken : Number.Decimal → Token
  | .nan _ _ _ mark => .unordered mark
  | .infinite negative => .infinite negative
  | x => .number (x.value?.getD (.of 0 0))

def token : Atom → Token
  | null => .null
  | bool b => .number (.of b.toInt 0)
  | int n => .number (.of n 0)
  | binary x => binaryToken x
  | text s => .text s
  | bytes b => .bytes b
  | decimal x => decimalToken x
  | duration d => .duration d.length
  | date d => .date d
  | moment m => .moment m.clock.offset.isSome m.universal
  | clock t => .clock t.offset.isSome t.universal t.micros
  | object _ id => .object id
  | sentinel which id => .sentinel which id

def literal : Atom → String
  | null => "None"
  | bool b => if b then "True" else "False"
  | int n => Text.signed n
  | binary x => x.text
  | text s => Text.literal s
  | bytes b => Text.bytesLiteral b
  | decimal x => "Decimal(" ++ Text.literal x.text ++ ")"
  | duration d => d.literal
  | date d => d.literal
  | moment m => m.literal
  | clock t => t.literal
  | object s _ => "<Opaque " ++ s ++ ">"
  | sentinel which _ => which.text

/-- The text of an atom; that of an integer has all its digits, however many. -/
def wording : Atom → String
  | text s => s
  | decimal x => x.text
  | duration d => d.text
  | date d => d.text
  | moment m => m.text " "
  | clock t => t.text
  | object s _ => s
  | a => a.literal

/-- The atom has a text: it is no integer with too many digits. -/
def hasText : Atom → Bool
  | int n => Text.isShort n
  | _ => true

/-- The atom is an object with an identity of its own. -/
def isObject : Atom → Bool
  | object _ _ | sentinel _ _ => true
  | _ => false

/-- The atom as a copy made of a whole structure holds it: objects are new ones. -/
def shift (offset : Ident) : Atom → Atom
  | object s id => object s (id + offset)
  | sentinel which id => sentinel which (id + offset)
  | a => a

def isTemporal : Atom → Bool
  | date _ | moment _ | clock _ => true
  | _ => false

end Redaction.Atom
