import Redaction.Proofs.Ascent

/-!
# What can be seen of a value

`Value.shown` is a value without the identities of its containers, views and the attributes that
copies carry included, and with the mere fact that a snapshot is there. Values that show the same
are equal for a caller and are restorable at the same places; objects are still told apart.

Duplicates show what their source shows, and so does a copy made of a whole structure as long as no
object is part of it. Both can be duplicated when their source can.
-/

namespace Redaction

/-- An object with an identity of its own is part of the scalar. -/
def Scalar.holdsObject : Scalar → Bool
  | atom a => a.isObject
  | buffer _ => false
  | set item | frozen item => Key.optionHoldsObject item

theorem Atom.shift_eq_self {a : Atom} (h : a.isObject = false) (offset : Ident) :
    a.shift offset = a := by
  cases a <;> simp_all [isObject, shift]

namespace Key

mutual

theorem shift_eq_self (offset : Ident) :
    ∀ k : Key, k.holdsObject = false → k.shift offset = k
  | atom _, h => congrArg atom (Atom.shift_eq_self h offset)
  | tuple form items, h => congrArg (tuple form) (shiftList_eq_self offset items h)
  | frozen item, h => congrArg frozen (shiftOption_eq_self offset item h)

theorem shiftList_eq_self (offset : Ident) :
    ∀ ks : List Key, anyHoldsObject ks = false → shiftList offset ks = ks
  | [], _ => rfl
  | k :: rest, h => by
    obtain ⟨hk, hrest⟩ := Bool.or_eq_false_iff.mp h
    rw [shiftList, shift_eq_self offset k hk, shiftList_eq_self offset rest hrest]

theorem shiftOption_eq_self (offset : Ident) :
    ∀ k : Option Key, optionHoldsObject k = false → shiftOption offset k = k
  | none, _ => rfl
  | some k, h => congrArg some (shift_eq_self offset k h)

end

end Key

theorem Scalar.shift_eq_self {s : Scalar} (h : s.holdsObject = false) (offset : Ident) :
    s.shift offset = s := by
  cases s with
  | atom a => exact congrArg atom (Atom.shift_eq_self h offset)
  | buffer bytes => rfl
  | set item => exact congrArg set (Key.shiftOption_eq_self offset item h)
  | frozen item => exact congrArg frozen (Key.shiftOption_eq_self offset item h)

namespace Value

mutual

def shown : Value → Value
  | scalar s => scalar s
  | node _ shape tag snapshot slots =>
    node 0 shape (shape.copiedTag (shownOption tag)) (lost snapshot) (shownSlots slots)

/-- What can be seen of a value that may be absent. -/
def shownOption : Option Value → Option Value
  | none => none
  | some v => some v.shown

/-- What can be seen of slots, under the same keys. -/
def shownSlots : List (Key × Value) → List (Key × Value)
  | [] => []
  | (k, v) :: rest => (k, v.shown) :: shownSlots rest

end

mutual

/-- An object with an identity of its own can be seen in the value. -/
def holdsObject : Value → Bool
  | scalar s => s.holdsObject
  | node _ shape tag _ slots =>
    !shape.losesAttributes && optionHoldsObject tag || slotsHoldObject slots

/-- A value is there and an object can be seen in it. -/
def optionHoldsObject : Option Value → Bool
  | none => false
  | some v => v.holdsObject

/-- An object is part of a key or can be seen in a stored value. -/
def slotsHoldObject : List (Key × Value) → Bool
  | [] => false
  | (k, v) :: rest => k.holdsObject || v.holdsObject || slotsHoldObject rest

end

@[simp] theorem shownSlots_eq_map (slots : List Slot) :
    shownSlots slots = slots.map fun slot => (slot.1, slot.2.shown) := by
  induction slots with
  | nil => rfl
  | cons slot rest ih => simp [shownSlots, ih]

@[simp] theorem slotsHoldObject_eq_any (slots : List Slot) :
    slotsHoldObject slots = slots.any fun slot => slot.1.holdsObject || slot.2.holdsObject := by
  induction slots with
  | nil => rfl
  | cons slot rest ih => simp [slotsHoldObject, ih]

theorem shownOption_copiedTag (shape : Shape) (tag : Option Value) :
    shownOption (shape.copiedTag tag) = shape.copiedTag (shownOption tag) := by
  cases h : shape.losesAttributes <;> simp [Shape.copiedTag, h, shownOption]

theorem shown_content (v : Value) : v.content.shown = v.shown := by
  induction v using Value.induction with
  | scalar s => rfl
  | node id shape tag snapshot slots _ _ ihSlots =>
    by_cases ht : shape.kind.isTraversable = true
    · have hslots : shownSlots (likenessSlots false slots) = shownSlots slots := by
        rw [shownSlots_eq_map, shownSlots_eq_map, likenessSlots_eq_map, List.map_map]
        refine List.map_congr_left fun slot mem => ?_
        rw [Function.comp_apply, ← ihSlots slot mem]
      rw [content, likeness_node ht (.inl rfl), shown, shown, hslots, lost_lost,
        shownOption_copiedTag, copiedTag_copiedTag]
    · rw [content, likeness_untraversed (by simpa using ht)]

theorem shown_congr {u v : Value} (h : u.content = v.content) : u.shown = v.shown := by
  rw [← shown_content u, h, shown_content]

theorem holdsObject_shown (v : Value) : v.shown.holdsObject = v.holdsObject := by
  induction v using Value.induction with
  | scalar s => rfl
  | node id shape tag snapshot slots ihTag _ ihSlots =>
    have htag : optionHoldsObject (shownOption tag) = optionHoldsObject tag := by
      cases tag with
      | none => rfl
      | some u => exact ihTag u rfl
    have hslots : slotsHoldObject (shownSlots slots) = slotsHoldObject slots := by
      rw [slotsHoldObject_eq_any, slotsHoldObject_eq_any, shownSlots_eq_map, List.any_map,
        Bool.eq_iff_iff, List.any_eq_true, List.any_eq_true]
      exact exists_congr fun slot => and_congr_right fun mem => by
        rw [Function.comp_apply, ihSlots slot mem]
    rw [shown, holdsObject, holdsObject, hslots]
    cases hloses : shape.losesAttributes <;> simp [Shape.copiedTag, hloses, htag]

theorem holdsObject_congr {u v : Value} (h : u.shown = v.shown) :
    u.holdsObject = v.holdsObject := by
  rw [← holdsObject_shown u, h, holdsObject_shown]

/-! ## Copies of whole structures -/

section

variable (offset : Ident)

theorem shown_shift {v : Value} (h : v.holdsObject = false) : (v.shift offset).shown = v.shown := by
  induction v using Value.induction with
  | scalar s => exact congrArg scalar (Scalar.shift_eq_self h offset)
  | node id shape tag snapshot slots ihTag _ ihSlots =>
    obtain ⟨hold, hslots⟩ := Bool.or_eq_false_iff.mp h
    have htag : shape.copiedTag (shownOption (shape.copiedTag (shiftOption offset tag))) =
        shape.copiedTag (shownOption tag) := by
      rw [shownOption_copiedTag, copiedTag_copiedTag]
      unfold Shape.copiedTag
      split
      · rfl
      · rename_i hkeeps
        cases tag with
        | none => rfl
        | some u =>
          exact congrArg some (ihTag u rfl (by simpa [hkeeps, optionHoldsObject] using hold))
    have hsnapshot : lost (if shape.losesAttributes then lost snapshot
        else shiftOption offset snapshot) = lost snapshot := by
      split
      · exact lost_lost snapshot
      · exact lost_shiftOption offset snapshot
    have hslots : shownSlots (shiftSlots offset slots) = shownSlots slots := by
      rw [slotsHoldObject_eq_any] at hslots
      rw [shownSlots_eq_map, shownSlots_eq_map, shiftSlots_eq_map, List.map_map]
      refine List.map_congr_left fun slot mem => ?_
      have hslot := List.any_eq_false.mp hslots slot mem
      simp only [Bool.or_eq_true, not_or, Bool.not_eq_true] at hslot
      rw [Function.comp_apply, Key.shift_eq_self offset _ hslot.1, ihSlots slot mem hslot.2]
    rw [shift, shown, shown, htag, hslots, hsnapshot]

theorem holdsView_shift (v : Value) : (v.shift offset).holdsView = v.holdsView := by
  induction v using Value.induction with
  | scalar s => rfl
  | node id shape tag snapshot slots ihTag ihSnapshot ihSlots =>
    have hoption : ∀ o : Option Value,
        (∀ u ∈ o, (u.shift offset).holdsView = u.holdsView) →
          optionHoldsView (shiftOption offset o) = optionHoldsView o := by
      intro o ih
      cases o with
      | none => rfl
      | some u => exact ih u rfl
    have hslots : slotsHoldView (shiftSlots offset slots) = slotsHoldView slots := by
      rw [slotsHoldView_eq_any, slotsHoldView_eq_any, shiftSlots_eq_map, List.any_map,
        Bool.eq_iff_iff, List.any_eq_true, List.any_eq_true]
      exact exists_congr fun slot => and_congr_right fun mem => by
        rw [Function.comp_apply, ihSlots slot mem]
    rw [shift, holdsView, holdsView, hslots]
    cases hloses : shape.losesAttributes
    · simp [Shape.copiedTag, hloses, hoption tag ihTag, hoption snapshot ihSnapshot]
    · rfl

theorem canDuplicate_shift (v : Value) : (v.shift offset).canDuplicate = v.canDuplicate := by
  induction v using Value.induction with
  | scalar s => rfl
  | node id shape tag snapshot slots _ _ ihSlots =>
    have hview := holdsView_shift offset (node id shape tag snapshot slots)
    have hslots : slotsCanDuplicate (shiftSlots offset slots) = slotsCanDuplicate slots := by
      rw [slotsCanDuplicate_eq_all, slotsCanDuplicate_eq_all, shiftSlots_eq_map, List.all_map,
        Bool.eq_iff_iff, List.all_eq_true, List.all_eq_true]
      exact forall₂_congr fun slot mem => by rw [Function.comp_apply, ihSlots slot mem]
    rw [shift] at hview ⊢
    cases shape <;> simp only [canDuplicate, hslots, hview]

theorem isKeyedByValue_shift (v : Value) : (v.shift offset).isKeyedByValue = v.isKeyedByValue := by
  induction v using Value.induction with
  | scalar s => rfl
  | node id shape tag snapshot slots _ _ ihSlots =>
    by_cases ht : shape.kind.isTraversable = true
    · rw [shift, Bool.eq_iff_iff, isKeyedByValue, isKeyedByValue, everywhere_node ht,
        everywhere_node ht, shiftSlots_eq_map]
      simp only [keysSurvive, List.all_map, List.forall_mem_map, Function.comp_def,
        Key.holdsObject_shift]
      exact and_congr_right fun _ => forall₂_congr fun slot mem => by
        rw [← isKeyedByValue, ← isKeyedByValue, ihSlots slot mem]
    · simp [isKeyedByValue, everywhere, shift, ht]

end

/-! ## Duplicates -/

section

variable {thaw : Bool} {v : Value} {n : Ident}

theorem shown_renew (h : v.isKeyedByValue = true) : (v.renew false n).1.shown = v.shown :=
  shown_congr (content_renew h)

theorem isKeyedByValue_renew (h : v.isKeyedByValue = true) :
    (v.renew false n).1.isKeyedByValue = true := by
  rw [isKeyedByValue_congr (content_renew h), h]

theorem holdsView_eq_false {id : Ident} {shape : Shape} {tag snapshot : Option Value}
    {slots : List Slot} : (node id shape tag snapshot slots).holdsView = false ↔
      shape ≠ .view ∧ (shape.losesAttributes = false →
        optionHoldsView tag = false ∧ optionHoldsView snapshot = false) ∧
        ∀ slot ∈ slots, slot.2.holdsView = false := by
  simp only [holdsView, Bool.or_eq_false_iff, slotsHoldView_eq_any, List.any_eq_false,
    Bool.not_eq_true, decide_eq_false_iff_not, and_assoc]
  cases shape.losesAttributes <;> simp

theorem holdsView_renew (h : v.holdsView = false) : (v.renew thaw n).1.holdsView = false := by
  induction v using Value.induction generalizing n with
  | scalar s => rfl
  | node id shape tag snapshot slots _ _ ihSlots =>
    obtain ⟨hshape, hattributes, hslots⟩ := holdsView_eq_false.mp h
    have hrenewed : ∀ m, ∀ slot ∈ (renewSlots thaw slots m).1, slot.2.holdsView = false := by
      intro m slot mem
      obtain ⟨old, memOld, k, _, rfl⟩ := mem_renewSlots mem
      exact ihSlots old memOld (hslots old memOld)
    rcases Shape.copying shape with rfl | ⟨form, rfl⟩ | hb | hw
    · exact absurd rfl hshape
    · rw [renew_tuple]
      cases thaw with
      | true => exact holdsView_eq_false.mpr ⟨nofun, fun _ => ⟨rfl, rfl⟩, hrenewed _⟩
      | false => exact holdsView_eq_false.mpr ⟨hshape, nofun, hrenewed _⟩
    · rw [renew_builtIn hb]
      refine holdsView_eq_false.mpr ⟨hshape, fun hkeeps => ?_, hrenewed _⟩
      simpa [Shape.copiedTag, hkeeps] using hattributes hkeeps
    · rw [renew_whole hw]
      refine holdsView_eq_false.mpr ⟨hshape, fun hkeeps => ?_, fun slot mem => ?_⟩
      · obtain ⟨htag, hsnapshot⟩ := hattributes hkeeps
        cases snapshot with
        | none => exact ⟨htag, rfl⟩
        | some u => exact ⟨htag, (holdsView_shift n u).trans hsnapshot⟩
      · rcases mem_refill mem with mem | ⟨old, memOld, _, rfl⟩
        · exact hrenewed _ slot mem
        · rw [holdsView_shift]
          exact hslots old memOld

theorem canDuplicate_builtIn {id : Ident} {shape : Shape} {tag snapshot : Option Value}
    {slots : List Slot} (hb : shape.isBuiltIn = true) :
    (node id shape tag snapshot slots).canDuplicate = slotsCanDuplicate slots := by
  cases shape <;> simp_all [canDuplicate, Shape.isBuiltIn]

theorem canDuplicate_whole {id : Ident} {shape : Shape} {tag snapshot : Option Value}
    {slots : List Slot} (hw : shape.isCopiedWhole = true) :
    (node id shape tag snapshot slots).canDuplicate =
      !(node id shape tag snapshot slots).holdsView := by
  cases shape <;> simp_all [canDuplicate, Shape.isCopiedWhole, Shape.kind, Kind.isWritable]

theorem canDuplicate_renew (h : v.canDuplicate = true) :
    (v.renew thaw n).1.canDuplicate = true := by
  induction v using Value.induction generalizing n with
  | scalar s => rfl
  | node id shape tag snapshot slots _ _ ihSlots =>
    have hrenewed : slotsCanDuplicate slots = true → ∀ m,
        slotsCanDuplicate (renewSlots thaw slots m).1 = true := by
      intro hslots m
      rw [slotsCanDuplicate_eq_all, List.all_eq_true] at hslots ⊢
      intro slot mem
      obtain ⟨old, memOld, k, _, rfl⟩ := mem_renewSlots mem
      exact ihSlots old memOld (hslots old memOld)
    rcases Shape.copying shape with rfl | ⟨form, rfl⟩ | hb | hw
    · rfl
    · rw [renew_tuple]
      have hslots := hrenewed h (n + 1)
      cases thaw with
      | true => exact hslots
      | false => exact hslots
    · rw [renew_builtIn hb, canDuplicate_builtIn hb]
      exact hrenewed (by rwa [canDuplicate_builtIn hb] at h) _
    · have hview : ((node id shape tag snapshot slots).renew thaw n).1.holdsView = false :=
        holdsView_renew (by simpa [canDuplicate_whole hw] using h)
      rw [renew_whole hw] at hview ⊢
      rw [canDuplicate_whole hw, hview]
      rfl

end

end Value

end Redaction
