import Redaction.Proofs.Unshared

/-!
# Unshared copies

The working copy of a value in which each container that can be written stands in one place has this
property too. Its containers are new, and each is made before those in its slots. Only a container
that is copied as a whole takes the values under new objects along as they are: they were made
before the container, and are as unshared as their source.

Main statement: `Value.unshared_renew`.
-/

namespace Redaction

namespace Value

section

variable {offset id n : Ident} {v : Value} {o : Option Value}

theorem mem_idsOption_shift (h : id ∈ idsOption (shiftOption offset o)) :
    ∃ old ∈ idsOption o, id = old + offset := by
  obtain ⟨u, hu, hid⟩ := mem_idsOption.mp h
  obtain ⟨w, hw, rfl⟩ := mem_shiftOption.mp hu
  obtain ⟨old, hold, rfl⟩ := mem_ids_shift hid
  exact ⟨old, mem_idsOption.mpr ⟨w, hw, hold⟩, rfl⟩

theorem mutables_shift (offset : Ident) (v : Value) :
    (v.shift offset).mutables = v.mutables.map (· + offset) := by
  induction v using Value.induction with
  | scalar s => rfl
  | node id shape tag snapshot slots _ _ ihSlots =>
    have hslots : (shiftSlots offset slots).flatMap (fun slot => slot.2.mutables) =
        (slots.flatMap fun slot => slot.2.mutables).map (· + offset) := by
      rw [shiftSlots_eq_map, List.flatMap_map, List.map_flatMap]
      exact List.flatMap_congr fun slot mem => ihSlots slot mem
    simp only [shift, mutables, mutablesSlots_eq_flatMap, hslots]
    by_cases hw : shape.kind.isWritable = true <;> by_cases ht : shape.kind.isTraversable = true <;>
      simp [hw, ht]

theorem mem_fixed_shift (h : id ∈ (v.shift offset).fixed) : ∃ old ∈ v.fixed, id = old + offset := by
  induction v using Value.induction with
  | scalar s => simp [shift, fixed] at h
  | node i shape tag snapshot slots _ _ ihSlots =>
    by_cases ht : shape.kind.isTraversable = true
    swap
    · have ht : (node i shape tag snapshot slots).kind.isTraversable = false := by
        simpa [kind] using ht
      rw [fixed_of_not_traversable ht]
      exact mem_ids_shift (fixed_subset_ids h)
    rw [shift, shiftSlots_eq_map, mem_fixed_node ht] at h
    rcases h with ⟨hw, rfl⟩ | hid | hid | ⟨slot, mem, hid⟩
    · exact ⟨i, (mem_fixed_node ht).mpr (.inl ⟨hw, rfl⟩), rfl⟩
    · obtain ⟨old, hold, rfl⟩ := mem_idsOption_shift (idsOption_copiedTag_subset _ _ hid)
      exact ⟨old, (mem_fixed_node ht).mpr (.inr (.inl hold)), rfl⟩
    · split at hid
      · simp [idsOption_lost] at hid
      · obtain ⟨old, hold, rfl⟩ := mem_idsOption_shift hid
        exact ⟨old, (mem_fixed_node ht).mpr (.inr (.inr (.inl hold))), rfl⟩
    · obtain ⟨source, memSource, rfl⟩ := List.mem_map.mp mem
      obtain ⟨old, hold, rfl⟩ := ihSlots source memSource hid
      exact ⟨old, (mem_fixed_node ht).mpr (.inr (.inr (.inr ⟨source, memSource, hold⟩))), rfl⟩

/-- The slots of a container that was copied as a whole are the duplicates, and beside them the
copies that stand under new objects. -/
theorem refill_perm {old duplicates : List Slot}
    (hfst : duplicates.map Prod.fst = old.map Prod.fst) :
    (refill n old duplicates).Perm (duplicates ++
      (old.filter fun slot => slot.1.holdsObject).map fun slot =>
        (slot.1.shift n, slot.2.shift n)) := by
  induction old generalizing duplicates with
  | nil => simp_all [refill]
  | cons slot rest ih =>
    cases duplicates with
    | nil => simp at hfst
    | cons duplicate others =>
      obtain ⟨hhead, htail⟩ := List.cons.inj hfst
      have hrest := ih htail
      by_cases hk : slot.1.holdsObject = true
      · have hkey : duplicate.1.holdsObject = true := by rw [hhead, hk]
        simp only [refill, List.zipWith_cons_cons, hk, if_true, List.filter_cons, hkey,
          List.map_cons, List.cons_append] at hrest ⊢
        refine (List.perm_middle.cons _).trans ((List.Perm.swap _ _ _).trans (.cons _ ?_))
        exact (hrest.cons _).trans List.perm_middle.symm
      · have hkey : ¬duplicate.1.holdsObject = true := by rw [hhead]; exact hk
        simp only [refill, List.zipWith_cons_cons, hk, List.filter_cons, hkey, List.cons_append,
          Bool.false_eq_true, if_false] at hrest ⊢
        exact hrest.cons _

/-- The containers in the slots that can be written were made from `m` on and stand in one place
each, and what else the slots hold was there before `n` or was made from `m` on. -/
structure MadeFrom (n m : Ident) (slots : List Slot) : Prop where
  nodup : (slots.flatMap fun slot => slot.2.mutables).Nodup
  mutables : ∀ i ∈ slots.flatMap fun slot => slot.2.mutables,
    m ≤ i ∧ i ∉ slots.flatMap fun slot => slot.2.fixed
  fixed : ∀ i ∈ slots.flatMap fun slot => slot.2.fixed, i < n ∨ m ≤ i

section

variable {m : Ident} {shape : Shape} {tag snapshot : Option Value} {slots items : List Slot}

/-- A container apart from what its slots hold, whose slots are apart from each other. -/
theorem unshared_node (ht : shape.kind.isTraversable = true)
    (hnodup : (slots.flatMap fun slot => slot.2.mutables).Nodup)
    (hapart : ∀ i ∈ slots.flatMap fun slot => slot.2.mutables, i ≠ id ∧ i ∉ idsOption tag ∧
      i ∉ idsOption snapshot ∧ i ∉ slots.flatMap fun slot => slot.2.fixed)
    (hid : id ∉ idsOption tag ∧ id ∉ idsOption snapshot ∧
      id ∉ slots.flatMap fun slot => slot.2.fixed) :
    (node id shape tag snapshot slots).Unshared := by
  constructor
  · simp only [Value.mutables, ht, if_true, mutablesSlots_eq_flatMap]
    split
    · exact List.nodup_cons.mpr ⟨fun hin => (hapart id hin).1 rfl, hnodup⟩
    · exact hnodup
  · intro i hi hin
    rw [mem_fixed_node ht, ← List.mem_flatMap] at hin
    rcases mem_mutables_node.mp hi with ⟨hw, rfl⟩ | ⟨_, hi⟩
    · simp only [hw, Bool.true_eq_false, false_and, false_or] at hin
      tauto
    · have := hapart i (List.mem_flatMap.mpr hi)
      tauto

/-- A container made just before its slots, which hides what was there before. -/
theorem MadeFrom.unshared (h : MadeFrom n (n + 1) items) (ht : shape.kind.isTraversable = true)
    (htag : ∀ i ∈ idsOption tag, i < n) (hsnapshot : ∀ i ∈ idsOption snapshot, i < n) :
    (node n shape tag snapshot items).Unshared := by
  refine unshared_node ht h.nodup (fun i hi => ?_) ⟨fun hin => ?_, fun hin => ?_, fun hin => ?_⟩
  · obtain ⟨hfrom, hnot⟩ := h.mutables i hi
    refine ⟨by lia, fun hin => ?_, fun hin => ?_, hnot⟩
    · have := htag i hin
      lia
    · have := hsnapshot i hin
      lia
  · have := htag n hin
    lia
  · have := hsnapshot n hin
    lia
  · have := h.fixed n hin
    lia

theorem shifted_apart (hv : (node id shape tag snapshot slots).Unshared)
    (ht : shape.kind.isTraversable = true) (hids : ∀ slot ∈ slots, ∀ i ∈ slot.2.ids, i < n) :
    let copies := (slots.filter fun slot => slot.1.holdsObject).map fun slot =>
      (slot.1.shift n, slot.2.shift n)
    (copies.flatMap fun slot => slot.2.mutables).Nodup ∧
      (∀ i ∈ copies.flatMap fun slot => slot.2.mutables, n ≤ i ∧
        i < wholeIdent snapshot slots n ∧ i ∉ idsOption (shiftOption n snapshot) ∧
        i ∉ copies.flatMap fun slot => slot.2.fixed) ∧
      ∀ i ∈ copies.flatMap fun slot => slot.2.fixed, n ≤ i ∧ i < wholeIdent snapshot slots n := by
  intro copies
  have hmutables : copies.flatMap (fun slot => slot.2.mutables) =
      ((slots.filter fun slot => slot.1.holdsObject).flatMap fun slot => slot.2.mutables).map
        (· + n) := by
    simp only [copies, List.flatMap_map, mutables_shift, List.map_flatMap]
  have hsource : ∀ {i}, i ∈ copies.flatMap (fun slot => slot.2.mutables) →
      ∃ slot ∈ slots, slot.1.holdsObject = true ∧ ∃ old ∈ slot.2.mutables, i = old + n := by
    intro i hi
    rw [hmutables] at hi
    obtain ⟨old, hold, rfl⟩ := List.mem_map.mp hi
    obtain ⟨slot, mem, hold⟩ := List.mem_flatMap.mp hold
    obtain ⟨mem, hobject⟩ := List.mem_filter.mp mem
    exact ⟨slot, mem, hobject, old, hold, rfl⟩
  have hfixed : ∀ {i}, i ∈ copies.flatMap (fun slot => slot.2.fixed) →
      ∃ slot ∈ slots, slot.1.holdsObject = true ∧ ∃ old ∈ slot.2.fixed, i = old + n := by
    intro i hi
    obtain ⟨copy, mem, hi⟩ := List.mem_flatMap.mp hi
    obtain ⟨slot, memSource, rfl⟩ := List.mem_map.mp mem
    obtain ⟨memSlots, hobject⟩ := List.mem_filter.mp memSource
    exact ⟨slot, memSlots, hobject, mem_fixed_shift hi⟩
  have hmutable : ∀ {slot : Slot} {i}, slot ∈ slots → i ∈ slot.2.mutables →
      i ∈ (node id shape tag snapshot slots).mutables := fun mem hi =>
    mem_mutables_node.mpr (.inr ⟨ht, _, mem, hi⟩)
  have hbetween : ∀ slot ∈ slots, slot.1.holdsObject = true → ∀ old ∈ slot.2.ids,
      n ≤ old + n ∧ old + n < wholeIdent snapshot slots n := by
    intro slot mem hobject old hold
    have hwhole : wholeIdent snapshot slots n = 2 * n := wholeIdent_eq (.inr ⟨slot, mem, hobject⟩)
    have := hids slot mem old hold
    constructor <;> lia
  refine ⟨?_, fun i hi => ?_, fun i hi => ?_⟩
  · have hnodup := hv.nodup
    simp only [Value.mutables, ht, if_true, mutablesSlots_eq_flatMap] at hnodup
    rw [hmutables]
    refine List.Nodup.map (fun a b hab => by lia) ?_
    exact hnodup.of_append_right.sublist (List.filter_sublist.flatMap _)
  · obtain ⟨slot, mem, hobject, old, hold, rfl⟩ := hsource hi
    obtain ⟨hfrom, hto⟩ := hbetween slot mem hobject old (mutables_subset_ids hold)
    refine ⟨hfrom, hto, fun hin => ?_, fun hin => ?_⟩
    · obtain ⟨other, hother, heq⟩ := mem_idsOption_shift hin
      obtain rfl : old = other := by lia
      exact hv.apart old (hmutable mem hold)
        ((mem_fixed_node ht).mpr (.inr (.inr (.inl hother))))
    · obtain ⟨slot', mem', _, other, hother, heq⟩ := hfixed hin
      obtain rfl : old = other := by lia
      exact hv.apart old (hmutable mem hold)
        ((mem_fixed_node ht).mpr (.inr (.inr (.inr ⟨slot', mem', hother⟩))))
  · obtain ⟨slot, mem, hobject, old, hold, rfl⟩ := hfixed hi
    exact hbetween slot mem hobject old (fixed_subset_ids hold)

/-- A container that was copied as a whole and then filled with the duplicates of its slots. -/
theorem MadeFrom.unshared_whole (h : MadeFrom n (wholeIdent snapshot slots n + 1) items)
    (hv : (node id shape tag snapshot slots).Unshared) (ht : shape.kind.isTraversable = true)
    (hfst : items.map Prod.fst = slots.map Prod.fst)
    (hids : ∀ slot ∈ slots, ∀ i ∈ slot.2.ids, i < n) (htag : ∀ i ∈ idsOption tag, i < n)
    (hsnapshot : ∀ i ∈ idsOption snapshot, i < n) :
    (node (wholeIdent snapshot slots n) shape tag (shiftOption n snapshot)
      (refill n slots items)).Unshared := by
  obtain ⟨hnodup, hmutables, hfixed⟩ := shifted_apart hv ht hids
  have hwhole : n ≤ wholeIdent snapshot slots n := le_wholeIdent
  have hcopied : ∀ i ∈ idsOption (shiftOption n snapshot),
      n ≤ i ∧ i < wholeIdent snapshot slots n := by
    intro i hi
    obtain ⟨old, hold, rfl⟩ := mem_idsOption_shift hi
    obtain ⟨u, hu, _⟩ := mem_idsOption.mp hold
    have : wholeIdent snapshot slots n = 2 * n := wholeIdent_eq (.inl (Option.isSome_of_mem hu))
    have := hsnapshot old hold
    constructor <;> lia
  have hperm := fun f : Slot → List Ident => (refill_perm (n := n) hfst).flatMap_right f
  simp only [List.flatMap_append] at hperm
  refine unshared_node ht ?_ (fun i hi => ?_) ⟨fun hin => ?_, fun hin => ?_, fun hin => ?_⟩
  · rw [(hperm _).nodup_iff, List.nodup_append]
    refine ⟨h.nodup, hnodup, fun i hi j hj heq => ?_⟩
    have := (h.mutables i hi).1
    have := (hmutables j hj).2.1
    lia
  · rw [(hperm _).mem_iff, List.mem_append] at hi
    rw [(hperm _).mem_iff, List.mem_append]
    rcases hi with hi | hi
    · obtain ⟨hfrom, hnot⟩ := h.mutables i hi
      refine ⟨by lia, fun hin => ?_, fun hin => ?_, ?_⟩
      · have := htag i hin
        lia
      · have := hcopied i hin
        lia
      · rintro (hin | hin)
        · exact hnot hin
        · have := hfixed i hin
          lia
    · obtain ⟨hfrom, hto, hnotSnapshot, hnot⟩ := hmutables i hi
      refine ⟨by lia, fun hin => ?_, hnotSnapshot, ?_⟩
      · have := htag i hin
        lia
      · rintro (hin | hin)
        · have := h.fixed i hin
          lia
        · exact hnot hin
  · have := htag _ hin
    lia
  · have := hcopied _ hin
    lia
  · rw [(hperm _).mem_iff, List.mem_append] at hin
    rcases hin with hin | hin
    · have := h.fixed _ hin
      lia
    · have := hfixed _ hin
      lia

end

theorem unshared_renew (hv : v.Unshared) (h : ∀ id ∈ v.ids, id < n) :
    (v.renew true n).1.Unshared := by
  induction v using Value.induction generalizing n with
  | scalar s => exact hv
  | node id shape tag snapshot slots _ _ ihSlots =>
    by_cases ht : shape.kind.isTraversable = true
    swap
    · rw [renew_of_not_traversable (by simpa [kind] using ht)]
      exact hv
    have htag : ∀ i ∈ idsOption tag, i < n := fun i hi =>
      h i (mem_ids_node.mpr (.inr (.inl (mem_idsOption.mp hi))))
    have hsnapshot : ∀ i ∈ idsOption snapshot, i < n := fun i hi =>
      h i (mem_ids_node.mpr (.inr (.inr (.inl (mem_idsOption.mp hi)))))
    have hids : ∀ slot ∈ slots, ∀ i ∈ slot.2.ids, i < n := fun slot mem i hi =>
      h i (mem_ids_node.mpr (.inr (.inr (.inr ⟨slot, mem, hi⟩))))
    have hmade : ∀ i, n ≤ i → MadeFrom n (i + 1) (renewSlots true slots (i + 1)).1 := by
      intro i hi
      obtain ⟨hnodup, hmutables, hfixed⟩ := renewSlots_apart (fun _ => mutables_subset_reach)
        (fun _ => fixed_subset_ids) (by lia : n ≤ i + 1) hids fun slot mem m hm =>
          have hslot := ihSlots slot mem (hv.child (by rw [children_node ht]; exact mem))
            fun j hj => lt_of_lt_of_le (hids slot mem j hj) hm
          ⟨hslot.nodup, hslot.apart⟩
      exact ⟨hnodup, hmutables, hfixed⟩
    rcases Shape.copying shape with rfl | ⟨form, rfl⟩ | hb | hw
    · simp [Shape.kind, Kind.isTraversable] at ht
    · rw [renew_tuple]
      exact (hmade n le_rfl).unshared rfl (by simp [idsOption]) (by simp [idsOption])
    · rw [renew_builtIn hb]
      refine (hmade n le_rfl).unshared ht
        (fun i hi => htag i (idsOption_copiedTag_subset _ _ hi)) fun i hi => ?_
      split at hi
      · simp [idsOption_lost] at hi
      · exact hsnapshot i hi
    · rw [renew_whole hw]
      exact (hmade _ le_wholeIdent).unshared_whole hv ht (renewSlots_fst true slots _) hids htag
        hsnapshot

end

end Value

end Redaction
