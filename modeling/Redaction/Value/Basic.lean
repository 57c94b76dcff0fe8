import Redaction.Value.Key

/-!
# Values

A value is a scalar or a node: a container with an identity, a shape and a row of slots. The slots
of a sequence or a tuple are named by their indices, those of a mapping by its keys.

Values are shared: the same container may stand in several slots of one value or of several. It is
then written out at each place under one identity, and all its occurrences hold the same. Writing
into a container changes all of them, which is what `Value.after` in `Redaction.Value.Write` does.
-/

namespace Redaction

inductive Factory where
  | list
  | int
  | none
deriving Repr, DecidableEq

/-- The class of a container that is known by no more than its name and its text. The text begins
with a word of its own, or else with the name of the class that the container is of. -/
structure Foreign where
  name : String
  word : Option String := none
deriving Repr, DecidableEq

/-- The kinds of mapping. The first four are built-in mappings, which are copied slot by slot; the
others keep their slots in a store of their own and are copied as a whole. -/
inductive MappingForm where
  | plain
  /-- Carries a tag that copies carry too. -/
  | tagged
  | ordered
  | defaulting (factory : Factory)
  | wrapped
  | slotted (own : Foreign)
  /-- Made by a function instead of its class, so that nothing can be rebuilt in its class. -/
  | produced (own : Foreign)
deriving Repr, DecidableEq

inductive SequenceForm where
  | plain
  | bounded (limit : Option Nat)
  | wrapped
  /-- Made by a function instead of its class, so that nothing can be rebuilt in its class. -/
  | produced (own : Foreign)
deriving Repr, DecidableEq

/-- What a node is. A view shows a mapping that cannot be written through it. -/
inductive Shape where
  | mapping (form : MappingForm)
  | sequence (form : SequenceForm)
  | tuple (form : TupleForm)
  | view
deriving Repr, DecidableEq

inductive Scalar where
  | atom (a : Atom)
  | buffer (bytes : List UInt8)
  | set (item : Option Key)
  | frozen (item : Option Key)

/-- A value. A tagged mapping has a tag, and a node that can be restored has a snapshot. -/
inductive Value where
  | scalar (s : Scalar)
  | node (id : Ident) (shape : Shape) (tag snapshot : Option Value) (slots : List (Key × Value))

abbrev Slot := Key × Value

/-- A property of all values holds if it holds of scalars and of every node whose tag, snapshot and
stored values have it. -/
theorem Value.induction {P : Value → Prop} (scalar : ∀ s, P (.scalar s))
    (node : ∀ id shape tag snapshot slots, (∀ v ∈ tag, P v) → (∀ v ∈ snapshot, P v) →
      (∀ slot ∈ slots, P slot.2) → P (.node id shape tag snapshot slots)) :
    (v : Value) → P v := by
  intro v
  refine Value.rec (motive_1 := P) (motive_2 := fun o => ∀ v ∈ o, P v)
    (motive_3 := fun slots => ∀ slot ∈ slots, P slot.2) (motive_4 := fun slot => P slot.2)
    scalar node ?_ ?_ ?_ ?_ ?_ v
  · simp
  · intro v h
    simpa using h
  · simp
  · intro slot rest hslot hrest
    exact List.forall_mem_cons.2 ⟨hslot, hrest⟩
  · exact fun _ _ h => h

inductive Kind where
  | sequence
  | tuple
  | mapping
  | temporal
  | scalar
deriving Repr, DecidableEq

namespace Kind

def name : Kind → String
  | sequence => "sequence"
  | tuple => "tuple"
  | mapping => "mapping"
  | temporal => "temporal"
  | scalar => "scalar"

def isTraversable : Kind → Bool
  | sequence | tuple | mapping => true
  | temporal | scalar => false

/-- The slots of a value of this kind can be written. -/
def isWritable : Kind → Bool
  | sequence | mapping => true
  | tuple | temporal | scalar => false

end Kind

/-- The kind of a node. A view is a scalar: paths do not lead through it. -/
def Shape.kind : Shape → Kind
  | mapping _ => .mapping
  | sequence _ => .sequence
  | tuple _ => .tuple
  | view => .scalar

/-- A container of this shape is a built-in mapping or list. -/
def Shape.isBuiltIn : Shape → Bool
  | mapping .plain | mapping .tagged | mapping .ordered | mapping (.defaulting _) => true
  | sequence .plain => true
  | _ => false

namespace Value

def atom (a : Atom) : Value := scalar (.atom a)

def text (s : String) : Value := atom (.text s)

def null : Value := atom .null

def remove : Value := atom (.sentinel .remove 0)

def missing : Value := atom (.sentinel .missing 0)

def isRemove : Value → Bool
  | scalar (.atom (.sentinel .remove 0)) => true
  | _ => false

def isMissing : Value → Bool
  | scalar (.atom (.sentinel .missing 0)) => true
  | _ => false

def kind : Value → Kind
  | scalar (.atom a) => if a.isTemporal then .temporal else .scalar
  | scalar _ => .scalar
  | node _ shape _ _ _ => shape.kind

/-- The slots that a value has, of whatever kind it is. -/
def slots : Value → List Slot
  | scalar _ => []
  | node _ _ _ _ slots => slots

/-- The slots that paths lead to: those of a sequence, a tuple or a mapping. -/
def children (v : Value) : List Slot := if v.kind.isTraversable then v.slots else []

/-- The keys of the slots that paths lead to, in order. -/
def keys (v : Value) : List Key := v.children.map Prod.fst

end Value

def indexed (items : List Value) : List Slot :=
  items.zipIdx.map fun (v, i) => (Key.index i, v)

namespace Slots

def get? (k : Key) : List Slot → Option Value
  | [] => none
  | (name, v) :: rest => if name.same k then some v else get? k rest

/-- Stores a value under a key: in its slot, whose own key stays, or in a new slot at the end. -/
def put (k : Key) (v : Value) : List Slot → List Slot
  | [] => [(k, v)]
  | (name, old) :: rest => if name.same k then (name, v) :: rest else (name, old) :: put k v rest

def erase (k : Key) : List Slot → List Slot
  | [] => []
  | (name, v) :: rest => if name.same k then rest else (name, v) :: erase k rest

/-- Slots from pairs in which keys may repeat: the first key stays, the last value wins. -/
def ofPairs (pairs : List Slot) : List Slot :=
  pairs.foldl (fun slots (k, v) => put k v slots) []

theorem get?_put_self (k : Key) (v : Value) (slots : List Slot) :
    get? k (put k v slots) = some v := by
  induction slots with
  | nil => simp [put, get?]
  | cons slot rest ih =>
    obtain ⟨name, old⟩ := slot
    by_cases h : name.same k = true
    · simp [put, get?, h]
    · simp [put, get?, h, ih]

theorem get?_put_of_not_same {j k : Key} (v : Value) (slots : List Slot) (h : k.same j = false) :
    get? j (put k v slots) = get? j slots := by
  induction slots with
  | nil => simp [put, get?, h]
  | cons slot rest ih =>
    obtain ⟨name, old⟩ := slot
    by_cases hk : name.same k = true
    · have hj : name.same j = false := by
        simp only [Key.same, decide_eq_true_eq, decide_eq_false_iff_not] at *
        rwa [hk]
      simp [put, get?, hk, hj]
    · simp [put, get?, hk, ih]

theorem map_fst_put {k : Key} (v : Value) {slots : List Slot} (h : (get? k slots).isSome) :
    (put k v slots).map Prod.fst = slots.map Prod.fst := by
  induction slots with
  | nil => simp [get?] at h
  | cons slot rest ih =>
    obtain ⟨name, old⟩ := slot
    by_cases hk : name.same k = true
    · simp [put, hk]
    · simp only [get?, hk] at h
      simp [put, hk, ih h]

end Slots

def Value.list (id : Ident) (items : List Value) : Value :=
  .node id (.sequence .plain) none none (indexed items)

def Value.dict (id : Ident) (slots : List Slot) : Value :=
  .node id (.mapping .plain) none none slots

end Redaction
