import Redaction.Failure
import Redaction.Path.Scan
import Redaction.Value.Write

/-!
# Following segments

A segment names the slot whose key is that text, or else, when the segment is a decimal numeral, the
slot whose key is that number. A numeral of more than `numeralLimit` digits is refused where its
number is needed. Overwriting follows segments too and never makes a slot.
-/

namespace Redaction

/-- The number that a segment denotes when it is a decimal numeral. -/
def Path.index? (segment : String) : Except Failure (Option Nat) :=
  let cs := segment.toList
  if Text.isNumeral cs && numeralLimit < cs.length then .error (.longNumeral cs.length)
  else .ok (Text.ofNumeral? cs)

namespace Value

/-- The slot of a value that a segment names. The key is the one by which the slot was found. -/
def slot? (v : Value) (segment : String) : Except Failure (Option Slot) :=
  match Slots.get? (Key.text segment) v.children with
  | some child => .ok (some (Key.text segment, child))
  | none =>
    if v.kind.isTraversable then
      (Path.index? segment).map fun index => index.bind fun i =>
        (Slots.get? (Key.index i) v.children).map fun child => (Key.index i, child)
    else .ok none

def walk (v : Value) : List String → Except Failure (Option Value)
  | [] => .ok (some v)
  | segment :: rest =>
    match v.slot? segment with
    | .error failure => .error failure
    | .ok none => .ok none
    | .ok (some (_, child)) => child.walk rest

/-- The value that segments lead to; the marker for nothing found is never found. -/
def find? (v : Value) (segments : List String) : Except Failure (Option Value) :=
  (v.walk segments).map fun found => found.filter fun x => !x.isMissing

/-- What a slot of a container of the given kind holds once a value was written to it: the marker
`remove` empties the slot of a sequence and deletes that of a mapping. -/
def settled (kind : Kind) (v : Value) : Option Value :=
  if v.isRemove then (if kind = .mapping then none else some null) else some v

/-- The write of a value to one slot of a container. -/
def writeTo (container : Value) (key : Key) (v : Value) : Option Write :=
  match container with
  | scalar _ => none
  | node id shape _ _ _ =>
    if shape.kind.isWritable then some ⟨id, key, settled shape.kind v⟩ else none

/-- A key as a container is asked for it: a negative index of a sequence counts from its end. -/
def ownKey (container : Value) (key : Key) : Key :=
  match container.kind, key with
  | .sequence, .atom (.int n) =>
    if n < 0 then .atom (.int (n + container.slots.length)) else key
  | _, _ => key

/-- The container after a value was written to one of its slots. -/
def store (container : Value) (key : Key) (v : Value) : Value :=
  match container.writeTo (container.ownKey key) v with
  | some w => container.after w
  | none => container

/-- The writes that overwrite the slot of a container which a segment names, or all its slots for a
wildcard. There are none to make where the container cannot be written or has no such slot. -/
def writesAt (container : Value) (last : String) (v : Value) :
    Except Failure (Option (List Write)) :=
  if !container.kind.isWritable then .ok none
  else if last = Path.wildcard then
    .ok (some (container.keys.filterMap fun key => container.writeTo key v))
  else
    (container.slot? last).map fun slot => slot.map fun (key, _) =>
      (container.writeTo key v).toList

/-- The writes that overwrite what segments lead to. -/
def overwrite (root : Value) (segments : List String) (v : Value) :
    Except Failure (Option (List Write)) :=
  match segments.getLast? with
  | none => .error .noSegments
  | some last =>
    match root.walk segments.dropLast with
    | .error failure => .error failure
    | .ok none => .ok none
    | .ok (some container) => container.writesAt last v

end Redaction.Value
