import Redaction.Failure
import Redaction.Value.Basic

/-!
# Texts and literals of values

The literal of a value shows its whole structure. Its text is the literal, but for an atom, whose
text may be shorter, and for a view, whose text is that of the mapping it shows. A value has no text
if it shows an integer with too many digits.
-/

namespace Redaction

/-- The class of a container of this shape that cannot be restored. -/
def Shape.baseClass : Shape → String
  | mapping .plain => "dict"
  | mapping .tagged => "TagDict"
  | mapping .ordered => "OrderedDict"
  | mapping (.defaulting _) => "defaultdict"
  | mapping .wrapped => "UserDict"
  | mapping (.slotted own) | mapping (.produced own) => own.name
  | sequence .plain => "list"
  | sequence (.bounded _) => "deque"
  | sequence .wrapped => "UserList"
  | sequence (.produced own) => own.name
  | tuple .plain => "tuple"
  | tuple .point => "Point"
  | view => "mappingproxy"

/-- The class of a container of this shape that can be restored. -/
def Shape.restorableClass : Shape → String
  | mapping .plain => "RedactedDict"
  | sequence .plain => "RedactedList"
  | shape => "Redacted" ++ shape.baseClass

def Shape.className (shape : Shape) (isRestorable : Bool) : String :=
  if isRestorable then shape.restorableClass else shape.baseClass

def Atom.className : Atom → String
  | null => "NoneType"
  | bool _ => "bool"
  | int _ => "int"
  | binary _ => "float"
  | text _ => "str"
  | bytes _ => "bytes"
  | decimal _ => "Decimal"
  | duration _ => "timedelta"
  | date _ => "date"
  | moment _ => "datetime"
  | clock _ => "time"
  | object _ _ => "Opaque"
  | sentinel _ _ => "_Sentinel"

def Scalar.className : Scalar → String
  | atom a => a.className
  | buffer _ => "bytearray"
  | set _ => "set"
  | frozen _ => "frozenset"

def Scalar.literal : Scalar → String
  | atom a => a.literal
  | buffer bytes => Text.bufferLiteral bytes
  | set item => setLiteral "set" false (item.map Key.literal)
  | frozen item => setLiteral "frozenset" true (item.map Key.literal)

/-- The text of a scalar; its integers have all their digits, however many. -/
def Scalar.wording : Scalar → String
  | atom a => a.wording
  | s => s.literal

/-- No integer in the scalar has too many digits for a text. -/
def Scalar.hasText : Scalar → Bool
  | atom a => a.hasText
  | buffer _ => true
  | set item | frozen item => Key.optionHasText item

def Scalar.display (s : Scalar) : Except Failure String :=
  if s.hasText then .ok s.wording else .error .longInteger

/-- The literal of the factory of a defaulting mapping. -/
def Factory.literal : Factory → String
  | list => "<class 'list'>"
  | int => "<class 'int'>"
  | none => "None"

/-- The literal of a plain list with the given items. -/
def listLiteral (items : List String) : String := "[" ++ String.intercalate ", " items ++ "]"

/-- The literal of a plain mapping with the given members. -/
def dictLiteral (members : List (String × String)) : String :=
  "\x7b" ++ String.intercalate ", " (members.map fun (k, v) => k ++ ": " ++ v) ++ "\x7d"

/-- The literal of an ordered mapping: a call with the pairs, if there are any. -/
def orderedLiteral (className : String) (members : List (String × String)) : String :=
  if members.isEmpty then className ++ "()"
  else className ++ "(" ++
    listLiteral (members.map fun (k, v) => "(" ++ k ++ ", " ++ v ++ ")") ++ ")"

/-- The literal of a bounded sequence: a call with the items and the limit, if there is one. -/
def boundedLiteral (className : String) (limit : Option Nat) (items : List String) : String :=
  className ++ "(" ++ listLiteral items ++
    (limit.map fun n => ", maxlen=" ++ Text.decimal 1 n).getD "" ++ ")"

/-- The literal of a container of a foreign class, around that of what it holds. -/
def Foreign.literal (own : Foreign) (className inner : String) : String :=
  own.word.getD className ++ "(" ++ inner ++ ")"

/-- The literal of a container of a shape and class with the given literals of keys and values. -/
def Shape.literal (shape : Shape) (className : String) (members : List (String × String)) :
    String :=
  let items := members.map Prod.snd
  match shape with
  | mapping .plain | mapping .tagged | mapping .wrapped => dictLiteral members
  | mapping .ordered => orderedLiteral className members
  | mapping (.defaulting factory) =>
    className ++ "(" ++ factory.literal ++ ", " ++ dictLiteral members ++ ")"
  | mapping (.slotted own) | mapping (.produced own) =>
    own.literal className (dictLiteral members)
  | sequence .plain | sequence .wrapped => listLiteral items
  | sequence (.bounded limit) => boundedLiteral className limit items
  | sequence (.produced own) => own.literal className (listLiteral items)
  | tuple .plain => tupleLiteral items
  | tuple .point => pointLiteral className items
  | view => "mappingproxy(" ++ dictLiteral members ++ ")"

/-- The literal of a container of this shape shows its keys. -/
def Shape.showsKeys : Shape → Bool
  | mapping _ | view => true
  | sequence _ | tuple _ => false

namespace Value

def className : Value → String
  | scalar s => s.className
  | node _ shape _ snapshot _ => shape.className snapshot.isSome

mutual

def literal : Value → String
  | scalar s => s.literal
  | node _ shape _ snapshot slots =>
    shape.literal (shape.className snapshot.isSome) (literals slots)

def literals : List (Key × Value) → List (String × String)
  | [] => []
  | (k, v) :: rest => (k.literal, v.literal) :: literals rest

end

/-- The text of a value; its integers have all their digits, however many. -/
def wording : Value → String
  | scalar s => s.wording
  | node _ .view _ _ slots => dictLiteral (literals slots)
  | v => v.literal

mutual

/-- No integer that the literal of the value shows has too many digits for a text. -/
def hasText : Value → Bool
  | scalar s => s.hasText
  | node _ shape _ _ slots => slotsHaveText shape.showsKeys slots

/-- The values in slots have a text, and so do the keys where they are shown. -/
def slotsHaveText (showsKeys : Bool) : List (Key × Value) → Bool
  | [] => true
  | (k, v) :: rest => (!showsKeys || k.hasText) && v.hasText && slotsHaveText showsKeys rest

end

def display (v : Value) : Except Failure String :=
  if v.hasText then .ok v.wording else .error .longInteger

end Redaction.Value
