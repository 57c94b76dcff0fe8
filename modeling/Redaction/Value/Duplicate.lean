import Redaction.Failure
import Redaction.Value.Write

/-!
# Duplicates

A duplicate holds the same as a value and shares no container with it that paths lead to. Thawing
turns the tuples on the way into lists, so that every container of the duplicate can be written.

Built-in containers are copied slot by slot and keep their tag and their snapshot, but for defaulting
mappings, whose copies are made of their factory and their slots alone. Tuples are made anew of their
items. Any other container is copied as a whole first, with its keys and its snapshot; such a copy
makes new objects, so a slot whose key is an object by identity stands there twice, under the new
object and under the old one. A view cannot be part of a copy made as a whole.
-/

namespace Redaction

/-- A copy of a container of this shape has none of its attributes: no tag, and no snapshot, though
it still can be restored. -/
def Shape.losesAttributes : Shape → Bool
  | mapping (.defaulting _) | tuple _ => true
  | _ => false

/-- The tag that a copy of a container of this shape has. -/
def Shape.copiedTag (shape : Shape) (tag : Option Value) : Option Value :=
  if shape.losesAttributes then none else tag

/-- The snapshot that is left when a copy has lost it. -/
def Value.lost (snapshot : Option Value) : Option Value := snapshot.map fun _ => null

/-- The scalar as a copy made of a whole structure holds it: objects are new ones. -/
def Scalar.shift (offset : Ident) : Scalar → Scalar
  | atom a => atom (a.shift offset)
  | buffer bytes => buffer bytes
  | set item => set (Key.shiftOption offset item)
  | frozen item => frozen (Key.shiftOption offset item)

namespace Value

mutual

/-- The value as a copy made of a whole structure holds it: all containers and objects are new ones,
and containers that were one stay one. -/
def shift (offset : Ident) : Value → Value
  | scalar s => scalar (s.shift offset)
  | node id shape tag snapshot slots =>
    node (id + offset) shape (shape.copiedTag (shiftOption offset tag))
      (if shape.losesAttributes then lost snapshot else shiftOption offset snapshot)
      (shiftSlots offset slots)

/-- A value that may be absent, as part of a copy. -/
def shiftOption (offset : Ident) : Option Value → Option Value
  | none => none
  | some v => some (v.shift offset)

def shiftSlots (offset : Ident) : List (Key × Value) → List (Key × Value)
  | [] => []
  | (k, v) :: rest => (k.shift offset, v.shift offset) :: shiftSlots offset rest

end

mutual

/-- A view is part of what a copy of the value as a whole takes along. -/
def holdsView : Value → Bool
  | scalar _ => false
  | node _ shape tag snapshot slots =>
    shape = .view || !shape.losesAttributes && (optionHoldsView tag || optionHoldsView snapshot) ||
      slotsHoldView slots

def optionHoldsView : Option Value → Bool
  | none => false
  | some v => v.holdsView

def slotsHoldView : List (Key × Value) → Bool
  | [] => false
  | (_, v) :: rest => v.holdsView || slotsHoldView rest

end

mutual

/-- No container of the value that has to be copied as a whole takes a view along. -/
def canDuplicate : Value → Bool
  | scalar _ => true
  | v@(node _ shape _ _ slots) =>
    match shape with
    | .view => true
    | .tuple _ => slotsCanDuplicate slots
    | shape => if shape.isBuiltIn then slotsCanDuplicate slots else !v.holdsView

def slotsCanDuplicate : List (Key × Value) → Bool
  | [] => true
  | (_, v) :: rest => v.canDuplicate && slotsCanDuplicate rest

end

/-- The slots of a container that was copied as a whole and then filled with the duplicates: each
duplicate is stored under the old key, beside the copied slot when the key is an object. -/
def refill (offset : Ident) (old duplicates : List Slot) : List Slot :=
  List.zipWith (fun (k, v) duplicate =>
    if k.holdsObject then (k.shift offset, v.shift offset) else duplicate) old duplicates ++
    duplicates.filter fun (k, _) => k.holdsObject

mutual

/-- The duplicate of a value, and the first identity unused after it. -/
def renew (thaw : Bool) : Value → Ident → Value × Ident
  | scalar s, next => (scalar s, next)
  | node id shape tag snapshot slots, next =>
    match shape with
    | .view => (node id .view tag snapshot slots, next)
    | .tuple form =>
      let (items, after) := renewSlots thaw slots (next + 1)
      if thaw then (node next (.sequence .plain) none none items, after)
      else (node next (.tuple form) none (lost snapshot) items, after)
    | shape =>
      if shape.isBuiltIn then
        let (items, after) := renewSlots thaw slots (next + 1)
        (node next shape (shape.copiedTag tag)
          (if shape.losesAttributes then lost snapshot else snapshot) items, after)
      else
        let copied := if snapshot.isSome || slots.any fun (k, _) => k.holdsObject then 2 * next
          else next
        let (items, after) := renewSlots thaw slots (copied + 1)
        (node copied shape tag (shiftOption next snapshot) (refill next slots items), after)

/-- The duplicates of slots, under the same keys. -/
def renewSlots (thaw : Bool) : List (Key × Value) → Ident → List (Key × Value) × Ident
  | [], next => ([], next)
  | (k, v) :: rest, next =>
    let (duplicate, between) := renew thaw v next
    let (duplicates, after) := renewSlots thaw rest between
    ((k, duplicate) :: duplicates, after)

end

/-- Duplicates a value, with identities from `next` on. -/
def duplicate (thaw : Bool) (v : Value) (next : Ident) : Except Failure (Value × Ident) :=
  if v.canDuplicate then .ok (v.renew thaw next) else .error .uncopyableView

def snapshot? : Value → Option Value
  | scalar _ => none
  | node _ _ _ snapshot _ => snapshot

/-- A fresh copy of what a restorable value was before it was redacted. -/
def restore (v : Value) (next : Ident) : Except Failure (Value × Ident) :=
  match v.snapshot? with
  | some snapshot => snapshot.duplicate false next
  | none => .error .notRestorable

end Redaction.Value
