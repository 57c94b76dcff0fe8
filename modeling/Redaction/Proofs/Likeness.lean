import Redaction.Proofs.Freshness

/-!
# What duplicates hold

The likeness of a value is what its duplicates hold, without the identities of the containers that
paths lead to and without their snapshots. Two values are equal as far as a caller can tell by
their kinds, keys, scalars and the tags that copies carry when their contents, the likenesses
without thawing, agree.

A duplicate has the likeness of its source as long as no container that is copied as a whole has an
object as a key: there each such key stands twice in the copy. `Value.isKeyedByValue` rules that
out.
-/

namespace Redaction.Value

mutual

def likeness (thaw : Bool) : Value → Value
  | scalar s => scalar s
  | node id shape tag snapshot slots =>
    if !shape.kind.isTraversable then node id shape tag snapshot slots
    else if thaw && shape.kind = .tuple then
      node 0 (.sequence .plain) none none (likenessSlots thaw slots)
    else node 0 shape (shape.copiedTag tag) (lost snapshot) (likenessSlots thaw slots)

/-- What the duplicates of slots hold, under the same keys. -/
def likenessSlots (thaw : Bool) : List (Key × Value) → List (Key × Value)
  | [] => []
  | (k, v) :: rest => (k, v.likeness thaw) :: likenessSlots thaw rest

end

/-- What a value holds, whatever the identities of its containers. -/
abbrev content (v : Value) : Value := v.likeness false

abbrev thawed (v : Value) : Value := v.likeness true

@[simp] theorem likenessSlots_eq_map (thaw : Bool) (slots : List Slot) :
    likenessSlots thaw slots = slots.map fun slot => (slot.1, slot.2.likeness thaw) := by
  induction slots with
  | nil => rfl
  | cons slot rest ih => simp [likenessSlots, ih]

theorem likeness_untraversed {thaw : Bool} {id : Ident} {shape : Shape}
    {tag snapshot : Option Value} {slots : List Slot} (ht : shape.kind.isTraversable = false) :
    (node id shape tag snapshot slots).likeness thaw = node id shape tag snapshot slots := by
  simp [likeness, ht]

theorem likeness_of_not_traversable {thaw : Bool} {v : Value}
    (h : v.kind.isTraversable = false) : v.likeness thaw = v := by
  cases v with
  | scalar s => rfl
  | node id shape tag snapshot slots => exact likeness_untraversed h

theorem likeness_tuple {id : Ident} {form : TupleForm} {tag snapshot : Option Value}
    {slots : List Slot} : (node id (.tuple form) tag snapshot slots).likeness true =
      node 0 (.sequence .plain) none none (likenessSlots true slots) := by
  simp [likeness, Shape.kind, Kind.isTraversable]

theorem likeness_node {thaw : Bool} {id : Ident} {shape : Shape} {tag snapshot : Option Value}
    {slots : List Slot} (ht : shape.kind.isTraversable = true)
    (hkeep : thaw = false ∨ shape.kind ≠ .tuple) :
    (node id shape tag snapshot slots).likeness thaw =
      node 0 shape (shape.copiedTag tag) (lost snapshot) (likenessSlots thaw slots) := by
  rcases hkeep with rfl | hkeep <;> simp [likeness, *]

/-- A container becomes one of its own shape or, if it is a tuple that thaws, a list. Its slots do
not matter for that. -/
theorem exists_likeness (thaw : Bool) (id : Ident) (shape : Shape) (tag snapshot : Option Value)
    (ht : shape.kind.isTraversable = true) :
    ∃ shape' tag' snapshot', (shape' = shape ∨ shape' = .sequence .plain ∧ shape.kind = .tuple) ∧
      shape'.kind.isTraversable = true ∧
      ∀ slots, (node id shape tag snapshot slots).likeness thaw =
        node 0 shape' tag' snapshot' (likenessSlots thaw slots) := by
  by_cases htuple : thaw = true ∧ shape.kind = .tuple
  · obtain ⟨rfl, hkind⟩ := htuple
    obtain ⟨form, rfl⟩ : ∃ form, shape = .tuple form := by
      cases shape <;> simp_all [Shape.kind]
    exact ⟨_, _, _, .inr ⟨rfl, rfl⟩, rfl, fun slots => likeness_tuple⟩
  · have hkeep : thaw = false ∨ shape.kind ≠ .tuple := by
      cases thaw <;> simp_all
    exact ⟨shape, shape.copiedTag tag, lost snapshot, .inl rfl, ht,
      fun slots => likeness_node ht hkeep⟩

theorem slots_likeness {thaw : Bool} {id : Ident} {shape : Shape} {tag snapshot : Option Value}
    {slots : List Slot} (ht : shape.kind.isTraversable = true) :
    ((node id shape tag snapshot slots).likeness thaw).slots = likenessSlots thaw slots := by
  obtain ⟨shape', tag', snapshot', _, _, heq⟩ := exists_likeness thaw id shape tag snapshot ht
  rw [heq]
  rfl

mutual

/-- Every container that paths lead to, the value itself included, satisfies `p`. -/
def everywhere (p : Value → Bool) : Value → Bool
  | scalar _ => true
  | node id shape tag snapshot slots => !shape.kind.isTraversable ||
    (p (node id shape tag snapshot slots) && everywhereSlots p slots)

/-- Every container that paths lead to in slots satisfies `p`. -/
def everywhereSlots (p : Value → Bool) : List (Key × Value) → Bool
  | [] => true
  | (_, v) :: rest => v.everywhere p && everywhereSlots p rest

end

@[simp] theorem everywhereSlots_iff {p : Value → Bool} {slots : List Slot} :
    everywhereSlots p slots = true ↔ ∀ slot ∈ slots, slot.2.everywhere p = true := by
  induction slots with
  | nil => simp [everywhereSlots]
  | cons slot rest ih => simp [everywhereSlots, ih]

theorem everywhere_node {p : Value → Bool} {id : Ident} {shape : Shape}
    {tag snapshot : Option Value} {slots : List Slot} (ht : shape.kind.isTraversable = true) :
    (node id shape tag snapshot slots).everywhere p = true ↔
      p (node id shape tag snapshot slots) = true ∧ ∀ slot ∈ slots, slot.2.everywhere p = true := by
  simp [everywhere, ht]

theorem everywhere_of_not_traversable {p : Value → Bool} {v : Value}
    (h : v.kind.isTraversable = false) : v.everywhere p = true := by
  cases v with
  | scalar s => rfl
  | node id shape tag snapshot slots =>
    simp only [kind] at h
    simp [everywhere, h]

/-- A container that is copied as a whole has no object as a part of a key. -/
def keysSurvive : Value → Bool
  | scalar _ => true
  | node _ shape _ _ slots => !shape.isCopiedWhole || slots.all fun slot => !slot.1.holdsObject

/-- No container that is copied as a whole, at any depth, has an object as a part of a key. -/
def isKeyedByValue (v : Value) : Bool := v.everywhere keysSurvive

/-- No container that paths lead to has a snapshot. -/
def isPristine (v : Value) : Bool := v.everywhere fun u => u.snapshot?.isNone

theorem lost_lost (snapshot : Option Value) : lost (lost snapshot) = lost snapshot := by
  cases snapshot <;> rfl

theorem copiedTag_copiedTag (shape : Shape) (tag : Option Value) :
    shape.copiedTag (shape.copiedTag tag) = shape.copiedTag tag := by
  cases h : shape.losesAttributes <;> simp [Shape.copiedTag, h]

theorem lost_shiftOption (offset : Ident) (snapshot : Option Value) :
    lost (shiftOption offset snapshot) = lost snapshot := by
  cases snapshot <;> rfl

theorem refill_eq {offset : Ident} {old duplicates : List Slot}
    (hfst : duplicates.map Prod.fst = old.map Prod.fst)
    (hkeys : ∀ slot ∈ old, slot.1.holdsObject = false) :
    refill offset old duplicates = duplicates := by
  induction old generalizing duplicates with
  | nil =>
    obtain rfl : duplicates = [] := by simpa using hfst
    rfl
  | cons slot rest ih =>
    cases duplicates with
    | nil => simp at hfst
    | cons duplicate others =>
      simp only [List.map_cons, List.cons.injEq] at hfst
      have hslot := hkeys slot List.mem_cons_self
      have hrest := ih hfst.2 fun slot mem => hkeys slot (List.mem_cons_of_mem _ mem)
      unfold refill at hrest ⊢
      simp [hslot, hfst.1, hrest]

theorem map_likeness_renewSlots {thaw : Bool} {slots : List Slot} {n : Ident}
    (h : ∀ slot ∈ slots, ∀ m, (slot.2.renew thaw m).1.content = slot.2.likeness thaw) :
    likenessSlots false (renewSlots thaw slots n).1 = likenessSlots thaw slots := by
  induction slots generalizing n with
  | nil => rfl
  | cons slot rest ih =>
    obtain ⟨k, v⟩ := slot
    have hv := h (k, v) List.mem_cons_self n
    have hrest := @ih (v.renew thaw n).2 fun slot mem => h slot (List.mem_cons_of_mem _ mem)
    simp only [renewSlots, likenessSlots]
    rw [hrest, ← hv]

theorem keys_of_isKeyedByValue {id : Ident} {shape : Shape} {tag snapshot : Option Value}
    {slots : List Slot} (hw : shape.isCopiedWhole = true)
    (h : (node id shape tag snapshot slots).isKeyedByValue = true) :
    ∀ slot ∈ slots, slot.1.holdsObject = false := by
  have hkeys := ((everywhere_node (isTraversable_of_isCopiedWhole hw)).mp h).1
  simpa [keysSurvive, hw] using hkeys

theorem content_renew {thaw : Bool} {v : Value} {n : Ident} (h : v.isKeyedByValue = true) :
    (v.renew thaw n).1.content = v.likeness thaw := by
  induction v using Value.induction generalizing n with
  | scalar s => rfl
  | node id shape tag snapshot slots _ _ ihSlots =>
    have hslots : shape.kind.isTraversable = true → ∀ m,
        likenessSlots false (renewSlots thaw slots m).1 = likenessSlots thaw slots := by
      intro ht m
      have hkeyed := ((everywhere_node ht).mp h).2
      exact map_likeness_renewSlots fun slot mem k => ihSlots slot mem (hkeyed slot mem)
    rcases Shape.copying shape with rfl | ⟨form, rfl⟩ | hb | hw
    · rw [renew_view]
      rfl
    · have hslots := hslots rfl
      rw [renew_tuple]
      cases thaw with
      | true =>
        rw [likeness_tuple, content, if_pos rfl, likeness_node rfl (.inl rfl), hslots]
        rfl
      | false =>
        rw [likeness_node rfl (.inl rfl), content, if_neg Bool.false_ne_true,
          likeness_node rfl (.inl rfl), hslots, lost_lost]
        rfl
    · have ht := isTraversable_of_isBuiltIn hb
      have hkind : shape.kind ≠ .tuple := by
        cases shape <;> simp_all [Shape.isBuiltIn, Shape.kind]
      rw [renew_builtIn hb, content, likeness_node ht (.inl rfl), likeness_node ht (.inr hkind),
        hslots ht, copiedTag_copiedTag]
      split
      · rw [lost_lost]
      · rfl
    · have ht := isTraversable_of_isCopiedWhole hw
      have hkind : shape.kind ≠ .tuple := by
        cases shape <;> simp_all [Shape.isCopiedWhole, Shape.kind, Kind.isWritable]
      rw [renew_whole hw, refill_eq (renewSlots_fst thaw slots _) (keys_of_isKeyedByValue hw h),
        content,
        likeness_node ht (.inl rfl), likeness_node ht (.inr hkind), hslots ht, lost_shiftOption]

theorem holdsObject_of_length {offset : Ident} {old duplicates : List Slot}
    (hfst : duplicates.map Prod.fst = old.map Prod.fst)
    (h : (refill offset old duplicates).length = old.length) :
    ∀ slot ∈ old, slot.1.holdsObject = false := by
  have hlength : duplicates.length = old.length := by simpa using congrArg List.length hfst
  simp only [refill, List.length_append, List.length_zipWith, hlength, Nat.min_self,
    Nat.add_eq_left, List.length_eq_zero_iff, List.filter_eq_nil_iff] at h
  intro slot mem
  have hkey : slot.1 ∈ duplicates.map Prod.fst := hfst ▸ List.mem_map_of_mem mem
  obtain ⟨duplicate, memDuplicate, heq⟩ := List.mem_map.mp hkey
  rw [← heq]
  simpa using h duplicate memDuplicate

theorem of_map_likeness_renewSlots {thaw : Bool} {slots : List Slot} {n : Ident}
    (h : likenessSlots false (renewSlots thaw slots n).1 = likenessSlots thaw slots) :
    ∀ slot ∈ slots, ∃ m, (slot.2.renew thaw m).1.content = slot.2.likeness thaw := by
  induction slots generalizing n with
  | nil => simp
  | cons slot rest ih =>
    obtain ⟨k, v⟩ := slot
    simp only [renewSlots, likenessSlots, List.cons.injEq, Prod.mk.injEq, true_and] at h
    intro slot mem
    rcases List.mem_cons.mp mem with rfl | mem
    · exact ⟨n, h.1⟩
    · exact ih h.2 slot mem

theorem content_renew_iff {thaw : Bool} {v : Value} {n : Ident} :
    (v.renew thaw n).1.content = v.likeness thaw ↔ v.isKeyedByValue = true := by
  refine ⟨fun h => ?_, content_renew⟩
  induction v using Value.induction generalizing n with
  | scalar s => rfl
  | node id shape tag snapshot slots _ _ ihSlots =>
    have hbelow : ∀ {m},
        likenessSlots false (renewSlots thaw slots m).1 = likenessSlots thaw slots →
          ∀ slot ∈ slots, slot.2.isKeyedByValue = true := fun hslots slot mem => by
      obtain ⟨m, hm⟩ := of_map_likeness_renewSlots hslots slot mem
      exact ihSlots slot mem hm
    rcases Shape.copying shape with rfl | ⟨form, rfl⟩ | hb | hw
    · exact everywhere_of_not_traversable rfl
    · have hslots : likenessSlots false (renewSlots thaw slots (n + 1)).1 =
          likenessSlots thaw slots := by
        have hheld := congrArg Value.slots h
        rw [renew_tuple, slots_likeness rfl] at hheld
        cases thaw with
        | true => exact (slots_likeness rfl).symm.trans hheld
        | false => exact (slots_likeness rfl).symm.trans hheld
      refine (everywhere_node rfl).mpr ⟨?_, hbelow hslots⟩
      simp [keysSurvive, Shape.isCopiedWhole, Shape.kind, Kind.isWritable]
    · have ht := isTraversable_of_isBuiltIn hb
      have hslots : likenessSlots false (renewSlots thaw slots (n + 1)).1 =
          likenessSlots thaw slots := by
        have hheld := congrArg Value.slots h
        rwa [renew_builtIn hb, slots_likeness ht, slots_likeness ht] at hheld
      refine (everywhere_node ht).mpr ⟨?_, hbelow hslots⟩
      simp [keysSurvive, Shape.isCopiedWhole, hb]
    · have ht := isTraversable_of_isCopiedWhole hw
      have hfst := renewSlots_fst thaw slots (wholeIdent snapshot slots n + 1)
      have hslots : likenessSlots false
          (refill n slots (renewSlots thaw slots (wholeIdent snapshot slots n + 1)).1) =
          likenessSlots thaw slots := by
        have hheld := congrArg Value.slots h
        rwa [renew_whole hw, slots_likeness ht, slots_likeness ht] at hheld
      -- each object among the keys would add a slot
      have hkeys := holdsObject_of_length hfst (by simpa using congrArg List.length hslots)
      rw [refill_eq hfst hkeys] at hslots
      refine (everywhere_node ht).mpr ⟨?_, hbelow hslots⟩
      simpa [keysSurvive, hw] using hkeys

/-- A property of containers that a duplicate shares with its source holds everywhere in the one if
it does in the other. -/
theorem everywhere_likeness {p : Value → Bool} {thaw : Bool}
    (hp : ∀ id shape tag snapshot slots, shape.kind.isTraversable = true →
      p ((node id shape tag snapshot slots).likeness thaw) = p (node id shape tag snapshot slots))
    (v : Value) : (v.likeness thaw).everywhere p = v.everywhere p := by
  induction v using Value.induction with
  | scalar s => rfl
  | node id shape tag snapshot slots _ _ ihSlots =>
    by_cases ht : shape.kind.isTraversable = true
    · have hslots : (∀ slot ∈ likenessSlots thaw slots, slot.2.everywhere p = true) ↔
          ∀ slot ∈ slots, slot.2.everywhere p = true := by
        rw [likenessSlots_eq_map]
        simp only [List.forall_mem_map]
        exact forall₂_congr fun slot mem => by rw [ihSlots slot mem]
      have hhere := hp id shape tag snapshot slots ht
      obtain ⟨shape', tag', snapshot', _, ht', heq⟩ := exists_likeness thaw id shape tag snapshot ht
      rw [heq] at hhere ⊢
      rw [Bool.eq_iff_iff, everywhere_node ht', everywhere_node ht, hhere, hslots]
    · have ht : shape.kind.isTraversable = false := by simpa using ht
      rw [likeness_untraversed ht]

theorem isKeyedByValue_likeness (thaw : Bool) (v : Value) :
    (v.likeness thaw).isKeyedByValue = v.isKeyedByValue := by
  refine everywhere_likeness (fun id shape tag snapshot slots ht => ?_) v
  obtain ⟨shape', tag', snapshot', hshape, _, heq⟩ := exists_likeness thaw id shape tag snapshot ht
  have hwhole : shape'.isCopiedWhole = shape.isCopiedWhole := by
    rcases hshape with rfl | ⟨rfl, hkind⟩
    · rfl
    · simp [Shape.isCopiedWhole, Shape.isBuiltIn, hkind, Kind.isWritable]
  rw [heq]
  simp [keysSurvive, hwhole, Function.comp_def]

theorem isPristine_content (v : Value) : v.content.isPristine = v.isPristine := by
  refine everywhere_likeness (fun id shape tag snapshot slots ht => ?_) v
  rw [likeness_node ht (.inl rfl)]
  cases snapshot <;> rfl

theorem isPristine_congr {u v : Value} (h : u.content = v.content) :
    u.isPristine = v.isPristine := by
  rw [← isPristine_content u, h, isPristine_content]

theorem isKeyedByValue_congr {u v : Value} (h : u.content = v.content) :
    u.isKeyedByValue = v.isKeyedByValue := by
  rw [← isKeyedByValue_likeness false u, ← isKeyedByValue_likeness false v]
  exact congrArg isKeyedByValue h

theorem snapshot_of_isPristine {id : Ident} {shape : Shape} {tag snapshot : Option Value}
    {slots : List Slot} (ht : shape.kind.isTraversable = true)
    (h : (node id shape tag snapshot slots).isPristine = true) :
    snapshot = none ∧ ∀ slot ∈ slots, slot.2.isPristine = true := by
  obtain ⟨hsnapshot, hslots⟩ := (everywhere_node ht).mp h
  exact ⟨by simpa [snapshot?] using hsnapshot, hslots⟩

@[simp] theorem slotsHoldView_eq_any (slots : List Slot) :
    slotsHoldView slots = slots.any fun slot => slot.2.holdsView := by
  induction slots with
  | nil => rfl
  | cons slot rest ih => simp [slotsHoldView, ih]

@[simp] theorem slotsCanDuplicate_eq_all (slots : List Slot) :
    slotsCanDuplicate slots = slots.all fun slot => slot.2.canDuplicate := by
  induction slots with
  | nil => rfl
  | cons slot rest ih => simp [slotsCanDuplicate, ih]

theorem holdsView_content {v : Value} (h : v.isPristine = true) :
    v.content.holdsView = v.holdsView := by
  induction v using Value.induction with
  | scalar s => rfl
  | node id shape tag snapshot slots _ _ ihSlots =>
    by_cases ht : shape.kind.isTraversable = true
    · obtain ⟨rfl, hslots⟩ := snapshot_of_isPristine ht h
      rw [content, likeness_node ht (.inl rfl)]
      have hany : (slots.any fun slot => (slot.2.likeness false).holdsView) =
          slots.any fun slot => slot.2.holdsView := by
        rw [Bool.eq_iff_iff, List.any_eq_true, List.any_eq_true]
        exact exists_congr fun slot => and_congr_right fun mem => by
          rw [← ihSlots slot mem (hslots slot mem)]
      simp only [holdsView, slotsHoldView_eq_any, likenessSlots_eq_map, lost, Option.map_none,
        List.any_map, Function.comp_def, hany]
      -- a tag that copies leave out takes no view along
      cases hloses : shape.losesAttributes <;> simp [Shape.copiedTag, hloses]
    · have ht : shape.kind.isTraversable = false := by simpa using ht
      rw [content, likeness_untraversed ht]

theorem canDuplicate_content {v : Value} (h : v.isPristine = true) :
    v.content.canDuplicate = v.canDuplicate := by
  induction v using Value.induction with
  | scalar s => rfl
  | node id shape tag snapshot slots _ _ ihSlots =>
    by_cases ht : shape.kind.isTraversable = true
    · have hview := holdsView_content h
      obtain ⟨rfl, hslots⟩ := snapshot_of_isPristine ht h
      have hall : (slots.all fun slot => (slot.2.likeness false).canDuplicate) =
          slots.all fun slot => slot.2.canDuplicate := by
        rw [Bool.eq_iff_iff, List.all_eq_true, List.all_eq_true]
        exact forall₂_congr fun slot mem => by rw [← ihSlots slot mem (hslots slot mem)]
      rw [content, likeness_node ht (.inl rfl), likenessSlots_eq_map] at hview ⊢
      cases shape <;> simp only [canDuplicate, slotsCanDuplicate_eq_all, List.all_map,
        Function.comp_def, hall, hview]
    · have ht : shape.kind.isTraversable = false := by simpa using ht
      rw [content, likeness_untraversed ht]

theorem canDuplicate_congr {u v : Value} (h : u.content = v.content) (hv : v.isPristine = true) :
    u.canDuplicate = v.canDuplicate := by
  rw [← canDuplicate_content (isPristine_congr h ▸ hv), h, canDuplicate_content hv]

end Redaction.Value
