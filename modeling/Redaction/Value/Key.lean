import Redaction.Failure
import Redaction.Value.Atom

/-!
# Keys

A key names a slot of a container. Keys are atoms, tuples of keys and frozen sets of at most one
key. Two keys are the same when their tokens are, which makes sameness an equivalence relation.
-/

namespace Redaction

inductive TupleForm where
  | plain
  | point
deriving Repr, DecidableEq

inductive Key where
  | atom (a : Atom)
  | tuple (form : TupleForm) (items : List Key)
  | frozen (item : Option Key)

/-- The literal of a plain tuple with the given items. -/
def tupleLiteral : List String → String
  | [item] => "(" ++ item ++ ",)"
  | items => "(" ++ String.intercalate ", " items ++ ")"

/-- The literal of a pair with named fields, under the name of its class. -/
def pointLiteral (className : String) (items : List String) : String :=
  className ++ "(" ++
    String.intercalate ", " (List.zipWith (fun field item => field ++ "=" ++ item) ["x", "y"] items)
    ++ ")"

/-- The literal of a set under the name of its class; an empty set is written as a call. -/
def setLiteral (className : String) (isFrozen : Bool) : Option String → String
  | none => className ++ "()"
  | some item =>
    let braces := "\x7b" ++ item ++ "\x7d"
    if isFrozen then className ++ "(" ++ braces ++ ")" else braces

namespace Key

def text (s : String) : Key := atom (.text s)

def index (i : Nat) : Key := atom (.int i)

mutual

/-- The description by which keys are compared. A tuple is the same whatever its form. -/
def tokens : Key → List Token
  | atom a => [a.token]
  | tuple _ items => .tuple items.length :: tokensOfList items
  | frozen item => .frozen item.isSome :: tokensOfOption item

def tokensOfList : List Key → List Token
  | [] => []
  | k :: rest => k.tokens ++ tokensOfList rest

/-- The description of a key that may be absent. -/
def tokensOfOption : Option Key → List Token
  | none => []
  | some k => k.tokens

end

def same (a b : Key) : Bool := a.tokens = b.tokens

@[simp] theorem same_refl (k : Key) : k.same k = true := by simp [same]

theorem same_comm (a b : Key) : a.same b = b.same a := by simp [same, eq_comm]

theorem same_trans {a b c : Key} (hab : a.same b = true) (hbc : b.same c = true) :
    a.same c = true := by
  simp only [same, decide_eq_true_eq] at *
  exact hab.trans hbc

mutual

def literal : Key → String
  | atom a => a.literal
  | tuple .plain items => tupleLiteral (literals items)
  | tuple .point items => pointLiteral "Point" (literals items)
  | frozen item => setLiteral "frozenset" true (literalOfOption item)

def literals : List Key → List String
  | [] => []
  | k :: rest => k.literal :: literals rest

def literalOfOption : Option Key → Option String
  | none => none
  | some k => some k.literal

end

/-- The text of a key; its integers have all their digits, however many. -/
def wording : Key → String
  | atom a => a.wording
  | k => k.literal

mutual

/-- No integer in the key has too many digits for a text. -/
def hasText : Key → Bool
  | atom a => a.hasText
  | tuple _ items => allHaveText items
  | frozen item => optionHasText item

def allHaveText : List Key → Bool
  | [] => true
  | k :: rest => k.hasText && allHaveText rest

def optionHasText : Option Key → Bool
  | none => true
  | some k => k.hasText

end

def display (k : Key) : Except Failure String :=
  if k.hasText then .ok k.wording else .error .longInteger

mutual

/-- An object with an identity of its own is part of the key. -/
def holdsObject : Key → Bool
  | atom a => a.isObject
  | tuple _ items => anyHoldsObject items
  | frozen item => optionHoldsObject item

/-- Some key of the list has an object as a part. -/
def anyHoldsObject : List Key → Bool
  | [] => false
  | k :: rest => k.holdsObject || anyHoldsObject rest

/-- A key is there and has an object as a part. -/
def optionHoldsObject : Option Key → Bool
  | none => false
  | some k => k.holdsObject

end

mutual

/-- The key with new objects for those that are parts of it. -/
def shift (offset : Ident) : Key → Key
  | atom a => atom (a.shift offset)
  | tuple form items => tuple form (shiftList offset items)
  | frozen item => frozen (shiftOption offset item)

def shiftList (offset : Ident) : List Key → List Key
  | [] => []
  | k :: rest => k.shift offset :: shiftList offset rest

/-- A key that may be absent, with new objects. -/
def shiftOption (offset : Ident) : Option Key → Option Key
  | none => none
  | some k => some (k.shift offset)

end

end Redaction.Key
