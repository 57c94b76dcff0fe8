import Redaction.Value.Restorable
import Redaction.Proofs.Layers
import Redaction.Proofs.Siblings

/-!
# Rebuilt containers

Building a container again from its reduction loses nothing that the reduction tells. That is
everything a container of its shape can hold, but for the attributes of a defaulting mapping and of
a container that is made by a function.

Main statement: `Restorable.ofValue_rebuilds`.
-/

namespace Redaction

namespace ContainerClass

variable {c other : ContainerClass}

theorem isUnder_refl (c : ContainerClass) : c.isUnder c = true := by
  cases c <;> simp [isUnder]

theorem toRestorable_of_isRestorable (h : c.isRestorable = true) : c.toRestorable = c := by
  rw [toRestorable, if_pos h]

theorem isUnder_toRestorable (c : ContainerClass) : c.toRestorable.isUnder c = true := by
  unfold toRestorable
  split
  · exact isUnder_refl c
  · simp [isUnder, isUnder_refl]

end ContainerClass

namespace Value

/-- The container is rebuilt in a class under its own, since nothing but its class makes it. -/
def isRebuilt : Value → Bool
  | scalar _ => false
  | node _ shape _ _ _ => shape.rebuilt = shape

def tag? : Value → Option Value
  | scalar _ => none
  | node _ _ tag _ _ => tag

/-- The reduction of the container tells its tag. -/
def rebuildsTag (v : Value) : Bool := v.shape?.any Shape.rebuildsTag

/-- The class of the plain containers of the same kind that can be restored. -/
def plainClass (v : Value) : ContainerClass :=
  .restorable (.own (if v.kind = .mapping then .mapping .plain else .sequence .plain))

/-- The container `r` holds what `v` holds, in a class that can be restored, and gives back the
snapshot. -/
structure Rebuilds (v snapshot r : Value) : Prop where
  slots : r.slots = v.slots
  tag : v.rebuildsTag = true → r.tag? = v.tag?
  lostTag : v.rebuildsTag = false → r.tag? = none
  /-- The shape tells the factory and the limit too. -/
  shape : v.isRebuilt = true → r.shape? = v.shape?
  ownClass : v.isRebuilt = true → r.containerClass = v.containerClass.toRestorable
  plainClass : v.isRebuilt = false → r.containerClass = v.plainClass
  restore : ∀ next, r.restore next = snapshot.duplicate false next

theorem rebuilds_restorable {v : Value} (hkind : v.kind.isWritable = true) (snapshot : Value)
    (id : Ident) : v.Rebuilds snapshot (v.restorable snapshot id) := by
  have ht := isTraversable_of_isWritable hkind
  cases v with
  | scalar s => simp [isTraversable_scalar] at ht
  | node i shape tag old slots =>
    refine ⟨rfl, fun h => if_pos h, fun h => ?_, fun h => ?_, fun h => ?_, fun h => ?_,
      fun next => rfl⟩
    · have hloses : ¬shape.rebuildsTag = true := by simpa [rebuildsTag, shape?] using h
      exact if_neg hloses
    · have hshape : shape.rebuilt = shape := by simpa [isRebuilt] using h
      rw [restorable, hshape]
      rfl
    · have hshape : shape.rebuilt = shape := by simpa [isRebuilt] using h
      rw [restorable, hshape]
      cases old <;> rfl
    · have hshape : shape.rebuilt ≠ shape := by simpa [isRebuilt] using h
      cases shape with
      | mapping form => cases form <;> first | rfl | exact absurd rfl hshape
      | sequence form => cases form <;> first | rfl | exact absurd rfl hshape
      | tuple form | view => exact absurd rfl hshape

end Value

namespace Restorable

variable {v snapshot : Value} {id : Ident}

/-- Making a container restorable loses nothing that its reduction tells. It always succeeds for a
mapping or a sequence and keeps the slots in their order, the factory, the limit and, where the
reduction tells it, the tag. The class is the one that stands for that of the container: it stands
under it, stands for itself, and is the same if the container could be restored before. A container
that is made by a function gets a plain class instead. Whatever snapshot there was, restoring gives
a duplicate of the new one. -/
theorem ofValue_rebuilds (hkind : v.kind.isWritable = true)
    (hkeys : v.kind = .mapping → Slots.Distinct v.slots) :
    ∃ r, ofValue v snapshot id = .ok (container r) ∧ v.Rebuilds snapshot r ∧
      (v.isRebuilt = true → r.containerClass.isUnder v.containerClass = true) ∧
      r.containerClass.toRestorable = r.containerClass ∧
      (v.isRebuilt = true → v.containerClass.isRestorable = true →
        r.containerClass = v.containerClass) := by
  have ht := Value.isTraversable_of_isWritable hkind
  have hrebuilds := Value.rebuilds_restorable hkind snapshot id
  refine ⟨v.restorable snapshot id, ?_, hrebuilds, fun h => ?_, ?_, fun h hclass => ?_⟩
  · rw [← Value.withRestore_eq_restorable ht hkeys]
    cases v with
    | scalar s => simp [Value.isTraversable_scalar] at ht
    | node i shape tag old slots =>
      have hopen : (Value.node i shape tag old slots).isSealed = false := by
        cases shape <;> simp_all [Value.isSealed, Value.kind, Shape.kind, Kind.isWritable]
      simp only [ofValue, hopen, Bool.false_eq_true, if_false]
  · rw [hrebuilds.ownClass h]
    exact ContainerClass.isUnder_toRestorable _
  · refine ContainerClass.toRestorable_of_isRestorable ?_
    cases v with
    | scalar s => simp [Value.isTraversable_scalar] at ht
    | node i shape tag old slots => rfl
  · rw [hrebuilds.ownClass h]
    exact ContainerClass.toRestorable_of_isRestorable hclass

end Restorable

namespace Sample

/-- A bounded sequence that gives back a text already. -/
def backlog : Value := .node 0 (.sequence (.bounded (some 3))) none (some (.text "old"))
  (indexed [.null, .list 1 [.text "a"]])

/-- A defaulting mapping with a tag that gives back a text already. -/
def counted : Value := .node 0 (.mapping (.defaulting .int)) (some (.text "t"))
  (some (.text "old")) [(.text "a", .atom (.int 1))]

end Sample

theorem Restorable.ofValue_rebuilds_backlog :
    Sample.backlog.kind.isWritable = true ∧ Sample.backlog.rebuildsTag = true ∧
      ∃ r, ofValue Sample.backlog (.text "new") 2 = .ok (container r) ∧
        Sample.backlog.Rebuilds (.text "new") r ∧
        r.containerClass = Sample.backlog.containerClass := by
  obtain ⟨r, hr, hrebuilds, _, _, hclass⟩ :=
    @ofValue_rebuilds Sample.backlog (.text "new") 2 rfl fun hmapping => by cases hmapping
  exact ⟨rfl, rfl, r, hr, hrebuilds, hclass rfl rfl⟩

/-- The reduction of a defaulting mapping does not tell its tag, so the tag is lost. -/
theorem Restorable.ofValue_counted_loses_tag :
    ∃ r, ofValue Sample.counted (.text "new") 2 = .ok (container r) ∧
      Sample.counted.tag? = some (.text "t") ∧ r.tag? = none :=
  ⟨_, rfl, rfl, rfl⟩

end Redaction
