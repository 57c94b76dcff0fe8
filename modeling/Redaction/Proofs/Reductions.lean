import Redaction.Value.Reduction
import Redaction.Proofs.Addressing

/-!
# Containers built again

The interpretation of a reduction goes through a step for each of its parts. All of them together
change the class, the identity and the snapshot. The slots stay, and so does the tag unless the
reduction leaves it out: `Value.restorable` does the same in one step. Only where two entries of a
mapping have the same key, which no mapping allows, would they become one.

Main statements: `Value.withRestore_node` and `Value.withRestore_eq_restorable`.
-/

namespace Redaction

namespace ContainerClass

@[simp] theorem isRestorable_toRestorable (c : ContainerClass) :
    c.toRestorable.isRestorable = true := by
  unfold toRestorable
  split
  · assumption
  · rfl

@[simp] theorem family_toRestorable (c : ContainerClass) : c.toRestorable.family = c.family := by
  unfold toRestorable
  split <;> rfl

section

variable {c : ContainerClass} {id : Ident}

theorem make_none (h : c.isRestorable = true) :
    c.make .none id = .node id c.family none (some .null) [] := by
  unfold make
  split <;> simp_all

theorem make_factory (h : c.isRestorable = true) (hfamily : c.family = .mapping (.defaulting .none))
    (factory : Factory) : c.make (.factory factory) id =
      .node id (.mapping (.defaulting factory)) none (some .null) [] := by
  simp [make, h, hfamily]

theorem make_limit (h : c.isRestorable = true) (hfamily : c.family = .sequence (.bounded none))
    (limit : Nat) : c.make (.limit limit) id =
      .node id (.sequence (.bounded (some limit))) none (some .null) [] := by
  simp [make, h, hfamily]

theorem make_items {form : TupleForm} (h : c.isRestorable = true) (hfamily : c.family = .tuple form)
    (items : List Slot) : c.make (.items items) id =
      .node id (.tuple form) none (some .null) items := by
  simp [make, h, hfamily]

end

end ContainerClass

namespace Shape

/-- The shape in which a container can be rebuilt: its own, if nothing but its class makes it. -/
def rebuilt : Shape → Shape
  | mapping (.produced _) => mapping .plain
  | sequence (.produced _) => sequence .plain
  | shape => shape

/-- A container of this shape still has its tag once it is built again. -/
def rebuildsTag : Shape → Bool
  | mapping (.defaulting _) | mapping (.produced _) | sequence (.produced _) => false
  | _ => true

/-- The tag of a container of this shape once it is built again. -/
def rebuiltTag (shape : Shape) (tag : Option Value) : Option Value :=
  if shape.rebuildsTag then tag else none

/-- The slots of a container of this shape are stored one after another when it is built again, and
not taken over in a row. -/
def storesEntries : Shape → Bool
  | mapping .wrapped | mapping (.slotted _) => false
  | mapping _ => true
  | _ => false

/-- The slots of a container of this shape once it is built again. -/
def rebuiltSlots (shape : Shape) (slots : List Slot) : List Slot :=
  if shape.storesEntries then Slots.ofPairs slots else slots

theorem kind_rebuilt (shape : Shape) : shape.rebuilt.kind = shape.kind := by
  unfold rebuilt
  split <;> rfl

/-- A copy of a container is built again with the tag that a copy of the rebuilt container has. -/
theorem copiedTag_rebuilt (shape : Shape) (tag : Option Value) :
    shape.rebuilt.copiedTag (shape.rebuiltTag tag) = shape.rebuiltTag (shape.copiedTag tag) := by
  cases shape with
  | mapping form | sequence form => cases form <;> rfl
  | tuple form | view => rfl

theorem rebuiltTag_subset (shape : Shape) (tag : Option Value) :
    ∀ v ∈ shape.rebuiltTag tag, v ∈ tag := by
  unfold rebuiltTag
  split <;> simp

theorem rebuiltSlots_eq_self {shape : Shape} {slots : List Slot}
    (h : shape.storesEntries = true → Slots.Distinct slots) : shape.rebuiltSlots slots = slots := by
  unfold rebuiltSlots
  split
  · exact Slots.ofPairs_of_distinct (h ‹_›)
  · rfl

theorem kind_of_storesEntries {shape : Shape} (h : shape.storesEntries = true) :
    shape.kind = .mapping := by
  cases shape <;> first | rfl | cases h

/-- A value that stands in a slot of the rebuilt container stood in one before. -/
theorem mem_rebuiltSlots {shape : Shape} {slots : List Slot} {slot : Slot}
    (h : slot ∈ shape.rebuiltSlots slots) : ∃ old ∈ slots, old.2 = slot.2 := by
  unfold rebuiltSlots at h
  split at h
  · exact (Slots.forall_ofPairs (P := fun _ => True) (Q := fun v => ∃ old ∈ slots, old.2 = v)
      (fun old mem => ⟨trivial, old, mem, rfl⟩) slot h).2
  · exact ⟨slot, h, rfl⟩

end Shape

namespace Value

/-- What `withRestore` makes of a container without two slots of the same key. -/
def restorable (container snapshot : Value) (id : Ident) : Value :=
  match container with
  | scalar s => scalar s
  | node _ shape tag _ slots => node id shape.rebuilt (shape.rebuiltTag tag) (some snapshot) slots

section

variable {id other : Ident} {shape : Shape} {tag snapshot blank : Option Value}
  {slots held : List Slot}

@[simp] theorem family_containerClass :
    (node id shape tag snapshot slots).containerClass.family = shape.family := by
  cases snapshot <;> rfl

theorem foldl_setEntry (entries : List Slot) :
    entries.foldl setEntry (node id shape tag snapshot slots) =
      node id shape tag snapshot
        (entries.foldl (fun slots slot => Slots.put slot.1 slot.2 slots) slots) := by
  induction entries generalizing slots with
  | nil => rfl
  | cons entry rest ih => exact ih

/-- The attributes of a container bring back its tag, and the snapshot that it had. -/
theorem foldl_setAttribute :
    (node other shape tag snapshot slots).ownAttributes.foldl setAttribute
      (node id shape none blank held) = node id shape tag (snapshot.or blank) held := by
  cases tag <;> cases snapshot <;> rfl

theorem setAttribute_snapshot (v : Value) : (node id shape tag snapshot slots).setAttribute
    ("_snapshot", v) = node id shape tag (some v) slots := rfl

end

section

variable {i id : Ident} {shape : Shape} {tag old : Option Value} {slots : List Slot}
  {snapshot : Value} {maker : Maker}

/-- Entries are put into an empty mapping, beside the attributes that the old one had. -/
theorem fill_entries : (node id shape none (some null) []).fill
    { maker, state := { attributes := (node i shape tag old slots).ownAttributes }
      entries := some slots } snapshot =
      node id shape tag (some snapshot) (Slots.ofPairs slots) := by
  simp only [fill, List.append_nil, foldl_setAttribute, foldl_setEntry, setAttribute_snapshot]
  rfl

theorem fill_items : (node id shape none (some null) []).fill
    { maker, state := { attributes := (node i shape tag old slots).ownAttributes }
      items := some slots } snapshot = node id shape tag (some snapshot) slots := by
  simp only [fill, List.append_nil, foldl_setAttribute, extend, List.nil_append,
    setAttribute_snapshot]

theorem withRestore_node (ht : shape.kind.isTraversable = true) :
    (node i shape tag old slots).withRestore snapshot id =
      node id shape.rebuilt (shape.rebuiltTag tag) (some snapshot) (shape.rebuiltSlots slots) := by
  have hclass := (node i shape tag old slots).containerClass.isRestorable_toRestorable
  have hfamily := (node i shape tag old slots).containerClass.family_toRestorable
  rw [family_containerClass] at hfamily
  cases shape with
  | view => simp [Shape.kind, Kind.isTraversable] at ht
  | tuple form =>
    simp only [withRestore, reduction, if_true, ContainerClass.make_items hclass hfamily, fill,
      List.append_nil, foldl_setAttribute, setAttribute_snapshot]
    rfl
  | mapping form =>
    cases form with
    | plain | tagged | ordered =>
      simp only [withRestore, reduction, if_true, ContainerClass.make_none hclass, hfamily,
        Shape.family, fill_entries]
      rfl
    | defaulting factory =>
      cases factory with
      | none =>
        simp only [withRestore, reduction, if_true, ContainerClass.make_none hclass, hfamily,
          Shape.family, fill, List.append_nil, List.foldl_nil, foldl_setEntry,
          setAttribute_snapshot]
        rfl
      | list | int =>
        simp only [withRestore, reduction, if_true, ContainerClass.make_factory hclass hfamily,
          fill, List.append_nil, List.foldl_nil, foldl_setEntry, setAttribute_snapshot]
        rfl
    | wrapped | slotted own =>
      simp only [withRestore, reduction, if_true, ContainerClass.make_none hclass, hfamily,
        Shape.family, fill, List.append_nil, List.foldl_append, foldl_setAttribute]
      rfl
    | produced own =>
      simp only [withRestore, reduction, fallback, kind, Shape.kind, Value.slots]
      rfl
  | sequence form =>
    cases form with
    | plain =>
      simp only [withRestore, reduction, if_true, ContainerClass.make_none hclass, hfamily,
        Shape.family, fill_items]
      rfl
    | bounded limit =>
      cases limit with
      | none =>
        simp only [withRestore, reduction, if_true, ContainerClass.make_none hclass, hfamily,
          Shape.family, fill_items]
        rfl
      | some limit =>
        simp only [withRestore, reduction, if_true, ContainerClass.make_limit hclass hfamily,
          fill_items]
        rfl
    | wrapped =>
      simp only [withRestore, reduction, if_true, ContainerClass.make_none hclass, hfamily,
        Shape.family, fill, List.append_nil, List.foldl_append, foldl_setAttribute]
      rfl
    | produced own =>
      simp only [withRestore, reduction, fallback, kind, Shape.kind, Value.slots]
      rfl

end

/-- A container without two slots of the same key is built again as it is, under a new identity and
with the snapshot. -/
theorem withRestore_eq_restorable {v : Value} (hkind : v.kind.isTraversable = true)
    (hkeys : v.kind = .mapping → Slots.Distinct v.slots) (snapshot : Value) (id : Ident) :
    v.withRestore snapshot id = v.restorable snapshot id := by
  cases v with
  | scalar s => simp [isTraversable_scalar] at hkind
  | node i shape tag old slots =>
    have hslots : shape.rebuiltSlots slots = slots :=
      Shape.rebuiltSlots_eq_self fun h => hkeys (Shape.kind_of_storesEntries h)
    rw [withRestore_node hkind, restorable, hslots]

theorem withRestore_of_isWellKeyed {v : Value} (hkind : v.kind.isTraversable = true)
    (hkeys : v.isWellKeyed = true) (snapshot : Value) (id : Ident) :
    v.withRestore snapshot id = v.restorable snapshot id := by
  refine withRestore_eq_restorable hkind (fun _ => ?_) snapshot id
  cases v with
  | scalar s => simp [isTraversable_scalar] at hkind
  | node i shape tag old slots => exact keysDiffer_iff.mp ((everywhere_node hkind).mp hkeys).1

end Value

end Redaction
