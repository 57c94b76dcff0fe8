import Redaction.Proofs.Layers

/-!
# Faithful duplicates

When a value can be duplicated, and what its duplicates hold. Both are said of the containers in
it: a duplicate fails to be made just when a container that is copied as a whole has a view among
its parts, and it holds what its source holds just when no such container has an object as a key.
Duplicates of duplicates add nothing, but that thawing once is thawing for good.

Main statement: `Value.duplicate_mirrors`.
-/

namespace Redaction.Value

mutual

/-- The values that paths lead to, the value itself first. -/
def within : Value → List Value
  | scalar s => [scalar s]
  | node id shape tag snapshot slots => node id shape tag snapshot slots ::
    if shape.kind.isTraversable then withinSlots slots else []

def withinSlots : List (Key × Value) → List Value
  | [] => []
  | (_, v) :: rest => v.within ++ withinSlots rest

end

mutual

/-- All that a value is made of, the value itself first: what its slots hold, whether paths lead to
them or not, its tag if copies carry it, and its snapshot, at any depth. -/
def parts : Value → List Value
  | scalar s => [scalar s]
  | node id shape tag snapshot slots => node id shape tag snapshot slots ::
    ((if shape.losesAttributes then [] else partsOption tag) ++ partsOption snapshot ++
      partsSlots slots)

def partsOption : Option Value → List Value
  | none => []
  | some v => v.parts

def partsSlots : List (Key × Value) → List Value
  | [] => []
  | (_, v) :: rest => v.parts ++ partsSlots rest

end

@[simp] theorem withinSlots_eq_flatMap (slots : List Slot) :
    withinSlots slots = slots.flatMap fun slot => slot.2.within := by
  induction slots with
  | nil => rfl
  | cons slot rest ih => simp [withinSlots, ih]

@[simp] theorem partsSlots_eq_flatMap (slots : List Slot) :
    partsSlots slots = slots.flatMap fun slot => slot.2.parts := by
  induction slots with
  | nil => rfl
  | cons slot rest ih => simp [partsSlots, ih]

theorem mem_partsOption {u : Value} {o : Option Value} :
    u ∈ partsOption o ↔ ∃ v ∈ o, u ∈ v.parts := by
  cases o <;> simp [partsOption]

theorem self_mem_within (v : Value) : v ∈ v.within := by
  cases v <;> simp [within]

theorem self_mem_parts (v : Value) : v ∈ v.parts := by
  cases v <;> simp [parts]

section

variable {u v : Value} {id : Ident} {shape : Shape} {tag snapshot : Option Value}
  {slots : List Slot}

theorem mem_within_node : u ∈ (node id shape tag snapshot slots).within ↔
    u = node id shape tag snapshot slots ∨
      shape.kind.isTraversable = true ∧ ∃ slot ∈ slots, u ∈ slot.2.within := by
  by_cases ht : shape.kind.isTraversable = true <;> simp [within, ht]

theorem mem_parts_node : u ∈ (node id shape tag snapshot slots).parts ↔
    u = node id shape tag snapshot slots ∨ (∃ v ∈ shape.copiedTag tag, u ∈ v.parts) ∨
      (∃ v ∈ snapshot, u ∈ v.parts) ∨ ∃ slot ∈ slots, u ∈ slot.2.parts := by
  cases hloses : shape.losesAttributes <;>
    simp [parts, mem_partsOption, Shape.copiedTag, hloses]

theorem everywhere_iff {p : Value → Bool} : v.everywhere p = true ↔
    ∀ u ∈ v.within, u.kind.isTraversable = true → p u = true := by
  induction v using Value.induction with
  | scalar s => simp [everywhere, within, isTraversable_scalar]
  | node id shape tag snapshot slots _ _ ihSlots =>
    by_cases ht : shape.kind.isTraversable = true
    · have hslots : (∀ slot ∈ slots, slot.2.everywhere p = true) ↔
          ∀ u, (∃ slot ∈ slots, u ∈ slot.2.within) → u.kind.isTraversable = true → p u = true := by
        constructor
        · rintro h u ⟨slot, mem, hu⟩
          exact (ihSlots slot mem).mp (h slot mem) u hu
        · intro h slot mem
          exact (ihSlots slot mem).mpr fun u hu => h u ⟨slot, mem, hu⟩
      rw [everywhere_node ht, hslots]
      simp only [mem_within_node, ht, true_and, or_imp, forall_and, forall_eq]
      exact and_congr_left fun _ => ⟨fun h _ => h, fun h => h ht⟩
    · have hnot : (node id shape tag snapshot slots).kind.isTraversable = false := by
        simpa [kind] using ht
      rw [everywhere_of_not_traversable hnot]
      simp [mem_within_node, ht, hnot]

end

theorem parts_subset_of_mem_within {u v x : Value} (hu : u ∈ v.within) (hx : x ∈ u.parts) :
    x ∈ v.parts := by
  induction v using Value.induction with
  | scalar s =>
    obtain rfl : u = scalar s := by simpa [within] using hu
    exact hx
  | node id shape tag snapshot slots _ _ ihSlots =>
    rcases mem_within_node.mp hu with rfl | ⟨_, slot, mem, hslot⟩
    · exact hx
    · exact mem_parts_node.mpr (.inr (.inr (.inr ⟨slot, mem, ihSlots slot mem hslot⟩)))

/-! ## Which values can be duplicated -/

section

variable {v w : Value}

theorem exists_view_of_holdsView (h : v.holdsView = true) :
    ∃ w ∈ v.parts, w.shape? = some .view := by
  induction v using Value.induction with
  | scalar s => cases h
  | node id shape tag snapshot slots ihTag ihSnapshot ihSlots =>
    have hoption : ∀ o : Option Value,
        (∀ v ∈ o, v.holdsView = true → ∃ w ∈ v.parts, w.shape? = some .view) →
          optionHoldsView o = true → ∃ v ∈ o, ∃ w ∈ v.parts, w.shape? = some .view := by
      intro o ih ho
      cases o with
      | none => cases ho
      | some v => exact ⟨v, rfl, ih v rfl ho⟩
    simp only [holdsView, slotsHoldView_eq_any, Bool.or_eq_true, Bool.and_eq_true,
      Bool.not_eq_true', List.any_eq_true, decide_eq_true_eq] at h
    rcases h with (rfl | ⟨hkeeps, htag | hsnapshot⟩) | ⟨slot, mem, hslot⟩
    · exact ⟨_, self_mem_parts _, rfl⟩
    · obtain ⟨u, hu, w, hw, hview⟩ := hoption tag ihTag htag
      have hu : u ∈ shape.copiedTag tag := by simpa [Shape.copiedTag, hkeeps] using hu
      exact ⟨w, mem_parts_node.mpr (.inr (.inl ⟨u, hu, hw⟩)), hview⟩
    · obtain ⟨u, hu, w, hw, hview⟩ := hoption snapshot ihSnapshot hsnapshot
      exact ⟨w, mem_parts_node.mpr (.inr (.inr (.inl ⟨u, hu, hw⟩))), hview⟩
    · obtain ⟨w, hw, hview⟩ := ihSlots slot mem hslot
      exact ⟨w, mem_parts_node.mpr (.inr (.inr (.inr ⟨slot, mem, hw⟩))), hview⟩

/-- Where nothing has a snapshot that a copy might lose, every view is taken along. -/
theorem holdsView_of_mem_parts (hplain : ∀ u ∈ v.parts, u.snapshot?.isNone = true)
    (hw : w ∈ v.parts) (hview : w.shape? = some .view) : v.holdsView = true := by
  induction v using Value.induction with
  | scalar s =>
    obtain rfl : w = scalar s := by simpa [parts] using hw
    cases hview
  | node id shape tag snapshot slots ihTag _ ihSlots =>
    have hnone : snapshot = none := by
      simpa [snapshot?] using hplain _ (self_mem_parts _)
    subst hnone
    simp only [holdsView, slotsHoldView_eq_any, Bool.or_eq_true, Bool.and_eq_true,
      Bool.not_eq_true', List.any_eq_true, decide_eq_true_eq]
    rcases mem_parts_node.mp hw with rfl | ⟨u, hu, hwu⟩ | ⟨u, hu, _⟩ | ⟨slot, mem, hwslot⟩
    · exact .inl (.inl (by simpa [shape?] using hview))
    · have hbelow := ihTag u (mem_of_mem_copiedTag hu) (fun x hx =>
        hplain x (mem_parts_node.mpr (.inr (.inl ⟨u, hu, hx⟩)))) hwu
      obtain rfl := Option.mem_def.mp (mem_of_mem_copiedTag hu)
      refine .inl (.inr ⟨?_, .inl hbelow⟩)
      by_contra hloses
      simp [Shape.copiedTag, hloses] at hu
    · cases hu
    · have hbelow := ihSlots slot mem (fun x hx =>
        hplain x (mem_parts_node.mpr (.inr (.inr (.inr ⟨slot, mem, hx⟩))))) hwslot
      exact .inr ⟨slot, mem, hbelow⟩

theorem holdsView_of_mem_within {u : Value} (h : v.holdsView = false) (hu : u ∈ v.within) :
    u.holdsView = false := by
  induction v using Value.induction with
  | scalar s =>
    obtain rfl : u = scalar s := by simpa [within] using hu
    rfl
  | node id shape tag snapshot slots _ _ ihSlots =>
    rcases mem_within_node.mp hu with rfl | ⟨_, slot, mem, hslot⟩
    · exact h
    · exact ihSlots slot mem ((holdsView_eq_false.mp h).2.2 slot mem) hslot

/-- A value can be duplicated if no container in it that is copied as a whole takes a view along. -/
theorem canDuplicate_iff : v.canDuplicate = true ↔
    ∀ u ∈ v.within, u.isCopiedWhole = true → u.holdsView = false := by
  induction v using Value.induction with
  | scalar s => simp [canDuplicate, within, isCopiedWhole, shape?]
  | node id shape tag snapshot slots _ _ ihSlots =>
    have hslots : slotsCanDuplicate slots = true ↔
        ∀ u, (∃ slot ∈ slots, u ∈ slot.2.within) → u.isCopiedWhole = true →
          u.holdsView = false := by
      rw [slotsCanDuplicate_eq_all, List.all_eq_true]
      constructor
      · rintro h u ⟨slot, mem, hu⟩
        exact (ihSlots slot mem).mp (h slot mem) u hu
      · intro h slot mem
        exact (ihSlots slot mem).mpr fun u hu => h u ⟨slot, mem, hu⟩
    have hself : (node id shape tag snapshot slots).isCopiedWhole = shape.isCopiedWhole := rfl
    simp only [mem_within_node, or_imp, forall_and, forall_eq, hself]
    rcases Shape.copying shape with rfl | ⟨form, rfl⟩ | hb | hw
    · simp [canDuplicate, Shape.isCopiedWhole, Shape.kind, Kind.isWritable, Kind.isTraversable]
    · rw [canDuplicate, hslots]
      simp [Shape.isCopiedWhole, Shape.kind, Kind.isWritable, Kind.isTraversable]
    · rw [canDuplicate_builtIn hb, hslots]
      simp [Shape.isCopiedWhole, hb, isTraversable_of_isBuiltIn hb]
    · rw [canDuplicate_whole hw, Bool.not_eq_true']
      refine ⟨fun h => ⟨fun _ => h, ?_⟩, fun h => h.1 hw⟩
      rintro u ⟨-, slot, mem, hu⟩ -
      exact holdsView_of_mem_within ((holdsView_eq_false.mp h).2.2 slot mem) hu

/-- A value is duplicated unless a container that is copied as a whole has a view among its
parts. -/
theorem duplicate_isOk_iff (hplain : ∀ u ∈ v.parts, u.snapshot?.isNone = true) (thaw : Bool)
    (n : Ident) : (∃ r, v.duplicate thaw n = .ok r) ↔
      ∀ u ∈ v.within, u.isCopiedWhole = true → ∀ w ∈ u.parts, w.shape? ≠ some .view := by
  have hcan : (∃ r, v.duplicate thaw n = .ok r) ↔ v.canDuplicate = true := by
    rw [duplicate]
    by_cases h : v.canDuplicate = true <;> simp [h]
  rw [hcan, canDuplicate_iff]
  refine forall₂_congr fun u hu => ?_
  refine forall_congr' fun _ => ?_
  have hparts : ∀ x ∈ u.parts, x.snapshot?.isNone = true := fun x hx =>
    hplain x (parts_subset_of_mem_within hu hx)
  rw [← Bool.not_eq_true]
  constructor
  · intro h w hw hview
    exact h (holdsView_of_mem_parts hparts hw hview)
  · intro h hview
    obtain ⟨w, hw, hshape⟩ := exists_view_of_holdsView hview
    exact h w hw hshape

end

/-! ## What duplicates of duplicates hold -/

section

variable {v : Value}

theorem likeness_likeness (thaw again : Bool) (v : Value) :
    (v.likeness thaw).likeness again = v.likeness (thaw || again) := by
  induction v using Value.induction with
  | scalar s => rfl
  | node id shape tag snapshot slots _ _ ihSlots =>
    by_cases ht : shape.kind.isTraversable = true
    · have hslots : likenessSlots again (likenessSlots thaw slots) =
          likenessSlots (thaw || again) slots := by
        simp only [likenessSlots_eq_map, List.map_map]
        exact List.map_congr_left fun slot mem => by simp [ihSlots slot mem]
      by_cases htuple : shape.kind = .tuple
      · obtain ⟨form, rfl⟩ : ∃ form, shape = .tuple form := by
          cases shape <;> simp_all [Shape.kind]
        cases thaw with
        | true =>
          rw [likeness_tuple, likeness_node rfl (.inr (by decide)), hslots, Bool.true_or,
            likeness_tuple]
          rfl
        | false =>
          rw [likeness_node rfl (.inl rfl), Bool.false_or]
          rw [Bool.false_or] at hslots
          cases again with
          | true => rw [likeness_tuple, likeness_tuple, hslots]
          | false =>
            rw [likeness_node rfl (.inl rfl), likeness_node rfl (.inl rfl), hslots, lost_lost,
              copiedTag_copiedTag]
      · rw [likeness_node ht (.inr htuple), likeness_node ht (.inr htuple),
          likeness_node ht (.inr htuple), hslots, lost_lost, copiedTag_copiedTag]
    · have ht : shape.kind.isTraversable = false := by simpa using ht
      rw [likeness_untraversed ht, likeness_untraversed ht, likeness_untraversed ht]

theorem content_renew_renew (hkeyed : v.isKeyedByValue = true) (thaw again : Bool) (n k : Ident) :
    (((v.renew thaw n).1.renew again k).1).content = v.likeness (thaw || again) := by
  have hcontent : (v.renew thaw n).1.content = v.likeness thaw := content_renew hkeyed
  have hrenewed : (v.renew thaw n).1.isKeyedByValue = true := by
    rw [← isKeyedByValue_likeness false, ← content, hcontent, isKeyedByValue_likeness, hkeyed]
  rw [content_renew hrenewed, ← Bool.false_or again, ← likeness_likeness, ← content, hcontent,
    likeness_likeness, Bool.false_or]

end

/-- A value without restorable containers is duplicated unless a container that is copied as a whole
has a view among its parts. The duplicate holds what the value does, each tuple as a list where it
thaws, just when no container that is copied as a whole has an object as a key. Duplicates of the
duplicate then hold what one duplicate does. -/
theorem duplicate_mirrors {v : Value} (hplain : ∀ u ∈ v.parts, u.snapshot?.isNone = true)
    (thaw : Bool) (n : Ident) :
    ((∃ r, v.duplicate thaw n = .ok r) ↔
      ∀ u ∈ v.within, u.isCopiedWhole = true → ∀ w ∈ u.parts, w.shape? ≠ some .view) ∧
    ∀ u m, v.duplicate thaw n = .ok (u, m) →
      (u.content = v.likeness thaw ↔ v.isKeyedByValue = true) ∧
      (v.isKeyedByValue = true → ∀ again k, ∃ w l, u.duplicate again k = .ok (w, l) ∧
        w.content = v.likeness (thaw || again)) := by
  refine ⟨duplicate_isOk_iff hplain thaw n, fun u m hu => ?_⟩
  unfold duplicate at hu
  split at hu
  · rename_i hcan
    obtain rfl : (v.renew thaw n).1 = u := congrArg Prod.fst (Except.ok.inj hu)
    refine ⟨content_renew_iff, fun hkeyed again k => ?_⟩
    refine ⟨((v.renew thaw n).1.renew again k).1, ((v.renew thaw n).1.renew again k).2, ?_,
      content_renew_renew hkeyed thaw again n k⟩
    rw [duplicate, if_pos (canDuplicate_renew hcan)]
  · cases hu

section

/-- A mapping of a pair under a tuple, of a store with a bounded sequence and of a tagged mapping. -/
def assorted : Value := .dict 0
  [(.tuple .plain [.index 1, .text "k"],
      .node 1 (.tuple .point) none none (indexed [.atom (.int 1), .list 2 []])),
    (.text "store", .node 3 (.mapping (.slotted { name := "SlotStore" })) none none
      [(.text "rows", .node 4 (.sequence (.bounded (some 3))) none none
        (indexed [.node 5 (.tuple .plain) none none (indexed [.text "a"])]))]),
    (.text "tagged", .node 6 (.mapping .tagged) (some (.list 7 [])) none [(.text "x", .null)])]

/-- The same with lists in the places of the tuples. -/
def assortedThawed : Value := .dict 0
  [(.tuple .plain [.index 1, .text "k"], .list 0 [.atom (.int 1), .list 0 []]),
    (.text "store", .node 0 (.mapping (.slotted { name := "SlotStore" })) none none
      [(.text "rows", .node 0 (.sequence (.bounded (some 3))) none none
        (indexed [.list 0 [.text "a"]]))]),
    (.text "tagged", .node 0 (.mapping .tagged) (some (.list 7 [])) none [(.text "x", .null)])]

theorem duplicate_mirrors_assorted :
    (∀ u ∈ assorted.parts, u.snapshot?.isNone = true) ∧ assorted.isKeyedByValue = true ∧
      ∃ u m, assorted.duplicate true 8 = .ok (u, m) ∧ u.content = assortedThawed ∧
        ∃ w l, u.duplicate false m = .ok (w, l) ∧ w.content = assortedThawed := by
  have hplain : ∀ u ∈ assorted.parts, u.snapshot?.isNone = true := by decide
  have hkeyed : assorted.isKeyedByValue = true := by decide
  obtain ⟨hmade, hholds⟩ := duplicate_mirrors hplain true 8
  obtain ⟨⟨u, m⟩, hu⟩ := hmade.mpr (by decide)
  obtain ⟨hcontent, hagain⟩ := hholds u m hu
  obtain ⟨w, l, hw, hsame⟩ := hagain hkeyed false m
  exact ⟨hplain, hkeyed, u, m, hu, hcontent.mpr hkeyed, w, l, hw, hsame⟩

/-- An object as a key of a mapping that is copied as a whole stands twice in the copy. -/
example : (((Value.node 0 (.mapping .wrapped) none none
    [(.atom (.object "k" 1), .null)]).renew false 2).1.keys.map Key.wording) = ["k", "k"] := by
  decide

end

end Redaction.Value
