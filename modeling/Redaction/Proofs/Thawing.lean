import Redaction.Proofs.Ascent

/-!
# Thawed values

Segments lead through texts and indices, never to what stands under an object. A value is thawed
when every container that they could lead to can be written. The working copy of a call is thawed to
begin with, and it stays so as long as what is written into it is thawed too.

Main statements: `Value.isThawed_renew` and `Value.isThawed_afterAll`.
-/

namespace Redaction.Value

mutual

/-- Every container that segments could lead to can be written. -/
def isThawed : Value → Bool
  | scalar _ => true
  | node _ shape _ _ slots =>
    !shape.kind.isTraversable || (shape.kind.isWritable && slotsThawed slots)

/-- What stands in slots is thawed, except under keys with an object. -/
def slotsThawed : List (Key × Value) → Bool
  | [] => true
  | (k, v) :: rest => (k.holdsObject || v.isThawed) && slotsThawed rest

end

@[simp] theorem slotsThawed_eq_all (slots : List Slot) :
    slotsThawed slots = slots.all fun slot => slot.1.holdsObject || slot.2.isThawed := by
  induction slots with
  | nil => rfl
  | cons slot rest ih => simp [slotsThawed, ih]

variable {v u child : Value} {id : Ident} {shape : Shape} {tag snapshot : Option Value}
  {slots : List Slot} {segment : String} {segments : List String} {w : Write} {ws : List Write}

theorem isThawed_of_not_traversable (h : v.kind.isTraversable = false) : v.isThawed = true := by
  cases v with
  | scalar s => rfl
  | node id shape tag snapshot slots =>
    have hshape : shape.kind.isTraversable = false := h
    simp [isThawed, hshape]

theorem isThawed_node (ht : shape.kind.isTraversable = true) :
    (node id shape tag snapshot slots).isThawed = true ↔ shape.kind.isWritable = true ∧
      ∀ slot ∈ slots, slot.1.holdsObject = false → slot.2.isThawed = true := by
  simp only [isThawed, ht, Bool.not_true, Bool.false_or, Bool.and_eq_true, slotsThawed_eq_all,
    List.all_eq_true, Bool.or_eq_true]
  refine and_congr_right fun _ => forall₂_congr fun slot _ => ?_
  cases slot.1.holdsObject <;> simp

theorem isWritable_of_isThawed (h : v.isThawed = true) (ht : v.kind.isTraversable = true) :
    v.kind.isWritable = true := by
  cases v with
  | scalar s => simp [isTraversable_scalar] at ht
  | node id shape tag snapshot slots => exact ((isThawed_node ht).mp h).1

/-! ## Following segments -/

theorem isThawed_slot? {k : Key} (h : v.isThawed = true)
    (hslot : v.slot? segment = .ok (some (k, child))) : child.isThawed = true := by
  obtain ⟨hget, hk⟩ := slot?_eq_some.mp hslot
  obtain ⟨j, hj, mem⟩ := get?_mem hget
  obtain ⟨id, shape, tag, snapshot, slots, rfl, ht, mem⟩ := exists_node mem
  refine ((isThawed_node ht).mp h).2 _ mem ?_
  rw [Key.holdsObject_congr hj]
  rcases hk with rfl | ⟨_, i, _, rfl⟩ <;> rfl

theorem isThawed_walk (h : v.isThawed = true) (hwalk : v.walk segments = .ok (some u)) :
    u.isThawed = true := by
  induction segments generalizing v with
  | nil =>
    obtain rfl : v = u := by simpa [walk] using hwalk
    exact h
  | cons segment rest ih =>
    unfold walk at hwalk
    split at hwalk
    · cases hwalk
    · cases hwalk
    · rename_i k child hslot
      exact ih (isThawed_slot? h hslot) hwalk

/-! ## Writes -/

theorem isThawed_settled {kind : Kind} {x : Value} (h : x.isThawed = true) :
    ∀ y ∈ settled kind x, y.isThawed = true := by
  intro y hy
  unfold settled at hy
  split at hy
  · split at hy
    · cases hy
    · obtain rfl := Option.some.inj hy
      rfl
  · obtain rfl := Option.some.inj hy
    exact h

/-- A write of what is thawed keeps a value thawed, wherever its target occurs. -/
theorem isThawed_after (hv : v.isThawed = true) (hw : ∀ x ∈ w.content, x.isThawed = true) :
    (v.after w).isThawed = true := by
  induction v using Value.induction with
  | scalar s => rfl
  | node id shape tag snapshot slots _ _ ihSlots =>
    by_cases ht : shape.kind.isTraversable = true
    · obtain ⟨hshape, hslots⟩ := (isThawed_node ht).mp hv
      rw [after, isThawed_node ht]
      refine ⟨hshape, fun slot mem hk => ?_⟩
      rcases mem_slots_after mem with hx | ⟨old, memOld, rfl⟩
      · exact hw _ hx
      · exact ihSlots old memOld (hslots old memOld hk)
    · refine isThawed_of_not_traversable ?_
      simpa [after, kind] using ht

theorem isThawed_afterAll (hv : v.isThawed = true)
    (hws : ∀ w ∈ ws, ∀ x ∈ w.content, x.isThawed = true) : (v.afterAll ws).isThawed = true := by
  induction ws generalizing v with
  | nil => exact hv
  | cons w rest ih =>
    obtain ⟨hw, hrest⟩ := List.forall_mem_cons.mp hws
    exact ih (isThawed_after hv hw) hrest

/-! ## Working copies -/

/-- Thawing reaches every container that segments could lead to. Where a container is copied as a
whole, what the copy holds as it was stands under new objects. -/
theorem isThawed_renew (v : Value) (next : Ident) : (v.renew true next).1.isThawed = true := by
  induction v using Value.induction generalizing next with
  | scalar s => rfl
  | node id shape tag snapshot slots _ _ ihSlots =>
    by_cases ht : shape.kind.isTraversable = true
    · obtain ⟨i, shape', tag', snapshot', slots', _, ht', hshape, hrenewed, heq⟩ :=
        renew_node true ht next
      rw [heq, isThawed_node ht']
      refine ⟨hshape rfl, fun slot mem hk => ?_⟩
      obtain ⟨old, memOld, m, _, rfl⟩ := hrenewed.mem mem hk
      exact ihSlots old memOld m
    · have ht : (node id shape tag snapshot slots).kind.isTraversable = false := by
        simpa [kind] using ht
      rw [renew_of_not_traversable ht]
      exact isThawed_of_not_traversable ht

end Redaction.Value
