import Redaction.Value.Display
import Redaction.Value.Duplicate

/-!
# Reductions

A container tells how it can be built again: what makes an empty one, the state that is put back
into it, and the items to be added. This is its reduction. A container becomes restorable by being
built from its reduction, with a class under its own in the place of that class. Where the reduction
does not name the class, a plain mapping or list takes the entries over.

The state can bring back an earlier snapshot, so the new one is stored at the end. Attributes that
the state leaves out are lost: those of defaulting mappings, and those of a container whose class is
not named.
-/

namespace Redaction

/-- What all containers of one class have in common of their shape: neither the factory nor the
limit. -/
def Shape.family : Shape → Shape
  | mapping (.defaulting _) => mapping (.defaulting .none)
  | sequence (.bounded _) => sequence (.bounded none)
  | shape => shape

/-- A class of containers: that of a family, or one made under another class whose containers can be
restored. -/
inductive ContainerClass where
  | own (family : Shape)
  | restorable (base : ContainerClass)
deriving Repr, DecidableEq

namespace ContainerClass

def name : ContainerClass → String
  | own family => family.baseClass
  | restorable (own (.mapping .plain)) => "RedactedDict"
  | restorable (own (.sequence .plain)) => "RedactedList"
  | restorable base => "Redacted" ++ base.name

def isRestorable : ContainerClass → Bool
  | own _ => false
  | restorable _ => true

/-- A class stands under itself and, if it was made under another one, under all that this one
stands under. -/
def isUnder (c other : ContainerClass) : Bool :=
  c = other || match c with
    | own _ => false
    | restorable base => base.isUnder other

/-- The class that stands for a class where containers are to be restored: itself if they can be, or
else the one made under it. -/
def toRestorable (c : ContainerClass) : ContainerClass := if c.isRestorable then c else restorable c

/-- The family whose containers those of a class are. -/
def family : ContainerClass → Shape
  | own family => family
  | restorable base => base.family

end ContainerClass

inductive Arguments where
  | none
  | factory (factory : Factory)
  | limit (limit : Nat)
  | items (items : List Slot)

/-- What makes the container that a reduction describes: the making of a new object, which is given
the class, a call of the class itself, or some function. -/
inductive Maker where
  | newObject (made : ContainerClass) (arguments : Arguments)
  | call (made : ContainerClass) (arguments : Arguments)
  | function

abbrev Attributes := List (String × Value)

structure State where
  attributes : Attributes := []
  places : Attributes := []

structure Reduction where
  maker : Maker
  state : State := {}
  /-- The items of a sequence that are to be added, under their indices. -/
  items : Option (List Slot) := none
  /-- The entries of a mapping that are to be stored. -/
  entries : Option (List Slot) := none

/-- An empty container of a class, made under a new identity. A class whose containers can be
restored has an absent snapshot to begin with. -/
def ContainerClass.make (c : ContainerClass) (arguments : Arguments) (id : Ident) : Value :=
  let blank : Option Value := if c.isRestorable then some .null else none
  match c.family, arguments with
  | .mapping (.defaulting _), .factory factory =>
    .node id (.mapping (.defaulting factory)) none blank []
  | .sequence (.bounded _), .limit limit =>
    .node id (.sequence (.bounded (some limit))) none blank []
  | .tuple form, .items items => .node id (.tuple form) none blank items
  | family, _ => .node id family none blank []

namespace Value

def containerClass : Value → ContainerClass
  | scalar _ => .own .view
  | node _ shape _ snapshot _ =>
    if snapshot.isSome then .restorable (.own shape.family) else .own shape.family

/-- The container with an attribute set. A wrapped or slotted one keeps its slots in an attribute. -/
def setAttribute (v : Value) (named : String × Value) : Value :=
  match v with
  | scalar s => scalar s
  | node id shape tag snapshot slots =>
    match named.1 with
    | "_snapshot" => node id shape tag (some named.2) slots
    | "tag" => node id shape (some named.2) snapshot slots
    | "data" | "_data" => node id shape tag snapshot named.2.slots
    | _ => node id shape tag snapshot slots

/-- The container with items added at its end. The items of a reduction come to stand under their
own indices, since they are added to an empty container, and within its limit, which is that of the
container they come from. -/
def extend (v : Value) (items : List Slot) : Value :=
  match v with
  | scalar s => scalar s
  | node id shape tag snapshot slots => node id shape tag snapshot (slots ++ items)

def setEntry (v : Value) (entry : Slot) : Value :=
  match v with
  | scalar s => scalar s
  | node id shape tag snapshot slots =>
    node id shape tag snapshot (Slots.put entry.1 entry.2 slots)

/-- The attributes of a container that it has beside its slots. -/
def ownAttributes : Value → Attributes
  | scalar _ => []
  | node _ _ tag snapshot _ =>
    (tag.map fun tag => ("tag", tag)).toList ++
      (snapshot.map fun snapshot => ("_snapshot", snapshot)).toList

def reduction (v : Value) : Reduction :=
  let c := v.containerClass
  let attributes := v.ownAttributes
  match v with
  | scalar _ => { maker := .function }
  | node id shape _ _ slots =>
    match shape with
    | .mapping .plain | .mapping .tagged =>
      { maker := .newObject c .none, state := { attributes }, entries := some slots }
    | .mapping .ordered =>
      { maker := .call c .none, state := { attributes }, entries := some slots }
    -- the only container that leaves its attributes out
    | .mapping (.defaulting .none) => { maker := .call c .none, entries := some slots }
    | .mapping (.defaulting factory) =>
      { maker := .call c (.factory factory), entries := some slots }
    | .mapping .wrapped =>
      { maker := .newObject c .none
        state := { attributes := attributes ++ [("data", .dict id slots)] } }
    | .mapping (.slotted _) =>
      { maker := .newObject c .none, state := { attributes, places := [("_data", .dict id slots)] } }
    | .sequence .plain =>
      { maker := .newObject c .none, state := { attributes }, items := some slots }
    | .sequence (.bounded none) =>
      { maker := .call c .none, state := { attributes }, items := some slots }
    | .sequence (.bounded (some limit)) =>
      { maker := .call c (.limit limit), state := { attributes }, items := some slots }
    | .sequence .wrapped =>
      { maker := .newObject c .none
        state := { attributes := attributes ++
          [("data", .node id (.sequence .plain) none none slots)] } }
    | .tuple _ => { maker := .newObject c (.items slots), state := { attributes } }
    | .mapping (.produced _) | .sequence (.produced _) | .view => { maker := .function }

/-- Puts state, items and entries into a container that was made, and stores the snapshot. -/
def fill (made : Value) (reduction : Reduction) (snapshot : Value) : Value :=
  let stated := (reduction.state.attributes ++ reduction.state.places).foldl setAttribute made
  let extended := match reduction.items with
    | some items => stated.extend items
    | none => stated
  let entered := match reduction.entries with
    | some entries => entries.foldl setEntry extended
    | none => extended
  entered.setAttribute ("_snapshot", snapshot)

/-- The plain container that takes over the slots of one whose reduction does not name its class. -/
def fallback (v snapshot : Value) (id : Ident) : Value :=
  match v.kind with
  | .mapping => node id (.mapping .plain) none (some snapshot) (Slots.ofPairs v.slots)
  | _ => node id (.sequence .plain) none (some snapshot) v.slots

/-- The container built again from its reduction, in a class that can be restored, so that it gives
back the snapshot. -/
def withRestore (v snapshot : Value) (id : Ident) : Value :=
  let c := v.containerClass
  match v.reduction.maker with
  | .newObject made arguments =>
    if made = c then (c.toRestorable.make arguments id).fill v.reduction snapshot
    else v.fallback snapshot id
  | .call made arguments =>
    if made = c then (c.toRestorable.make arguments id).fill v.reduction snapshot
    else v.fallback snapshot id
  | .function => v.fallback snapshot id

end Redaction.Value
