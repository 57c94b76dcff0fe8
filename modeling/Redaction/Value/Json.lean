import Redaction.Value.Display

/-!
# JSON texts of values

Built-in mappings become objects and lists and tuples become arrays; numbers, booleans, texts and
the absent value become themselves. Any other value becomes the string of its text, but dates and
times that of their written form. The name of an object member is the text of its key, in JSON's
spelling. An integer with too many digits has no text, and what holds it cannot be written.

A built-in mapping with a key that is not a text, a number, a boolean or the absent value has no
object as it stands. The value that holds it is then written in its plain form: every mapping an
object with texts for such keys, every sequence and tuple an array.
-/

namespace Redaction

/-- The spelling of a floating-point number in JSON. -/
def Number.Binary64.json : Number.Binary64 → String
  | .nan _ => "NaN"
  | .infinite negative => Number.sign negative ++ "Infinity"
  | x => x.text

def jsonBool (b : Bool) : String := if b then "true" else "false"

/-- The name of an object member for an atomic key. -/
def Atom.jsonName : Atom → Except Failure String
  | null => .ok "null"
  | bool b => .ok (jsonBool b)
  | int n => Text.integer n
  | binary x => .ok x.json
  | text s => .ok s
  | _ => .error .unwritableName

def Key.jsonName : Key → Except Failure String
  | atom a => a.jsonName
  | _ => .error .unwritableName

def Key.isName : Key → Bool
  | atom .null | atom (.bool _) | atom (.int _) | atom (.binary _) | atom (.text _) => true
  | _ => false

/-- The key itself if JSON can hold it, else its text. -/
def Key.plain (k : Key) : Key := if k.isName then k else .text k.wording

def Atom.json : Atom → Except Failure String
  | null => .ok "null"
  | bool b => .ok (jsonBool b)
  | int n => Text.integer n
  | binary x => .ok x.json
  | moment m => .ok (Text.jsonString (m.text "T"))
  | a => .ok (Text.jsonString a.wording)

def Scalar.json : Scalar → Except Failure String
  | atom a => a.json
  | s => s.display.map Text.jsonString

def jsonArray (items : List String) : String := "[" ++ String.intercalate ", " items ++ "]"

def jsonObject (members : List (String × String)) : String :=
  "\x7b" ++ String.intercalate ", " (members.map fun (name, text) =>
    Text.jsonString name ++ ": " ++ text) ++ "\x7d"

namespace Value

mutual

/-- The JSON text of a value as it stands. Members are encoded one after another, the name before
the value, up to the first that cannot be. -/
def encode : Value → Except Failure String
  | scalar s => s.json
  | v@(node _ shape _ _ slots) =>
    match shape with
    | .tuple _ => (encodeItems slots).map jsonArray
    | .sequence .plain => (encodeItems slots).map jsonArray
    | .sequence _ => v.display.map Text.jsonString
    | .view => v.display.map Text.jsonString
    | .mapping form =>
      if (Shape.mapping form).isBuiltIn then (encodeMembers slots).map jsonObject
      else v.display.map Text.jsonString

def encodeItems : List (Key × Value) → Except Failure (List String)
  | [] => .ok []
  | (_, v) :: rest => do pure ((← v.encode) :: (← encodeItems rest))

/-- The names and JSON texts of object members. -/
def encodeMembers : List (Key × Value) → Except Failure (List (String × String))
  | [] => .ok []
  | (k, v) :: rest => do pure ((← k.jsonName, ← v.encode) :: (← encodeMembers rest))

end

mutual

/-- The plain form of a value: mappings and lists of the plain kind, with keys that JSON can hold.
Of two keys with one text the first stays in its place and the last value wins. -/
def plain : Value → Value
  | scalar s => scalar s
  | node id shape tag snapshot slots =>
    match shape with
    | .view => node id .view tag snapshot slots
    | .mapping _ => dict id (Slots.ofPairs (plainSlots Key.plain slots))
    | .sequence _ => node id (.sequence .plain) none none (plainSlots (fun k => k) slots)
    | .tuple _ => node id (.sequence .plain) none none (plainSlots (fun k => k) slots)

/-- Slots with their values in plain form and their keys changed by `name`. -/
def plainSlots (name : Key → Key) : List (Key × Value) → List (Key × Value)
  | [] => []
  | (k, v) :: rest => (name k, v.plain) :: plainSlots name rest

end

mutual

/-- The keys that texts take the place of in the plain form have a text. -/
def hasPlain : Value → Bool
  | scalar _ => true
  | node _ shape _ _ slots =>
    match shape with
    | .view => true
    | .mapping _ => slotsHavePlain (fun k => k.isName || k.hasText) slots
    | .sequence _ => slotsHavePlain (fun _ => true) slots
    | .tuple _ => slotsHavePlain (fun _ => true) slots

/-- Slots have a plain form where that of their keys is there if `named` holds. -/
def slotsHavePlain (named : Key → Bool) : List (Key × Value) → Bool
  | [] => true
  | (k, v) :: rest => named k && v.hasPlain && slotsHavePlain named rest

end

/-- The JSON text of the plain form of a value. -/
def encodePlain (v : Value) : Except Failure String :=
  if v.hasPlain then v.plain.encode else .error .longInteger

def json (v : Value) : Except Failure String :=
  match v.encode with
  | .error .unwritableName => v.encodePlain
  | outcome => outcome

end Redaction.Value
