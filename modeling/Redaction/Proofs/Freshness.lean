import Redaction.Value.Duplicate
import Redaction.Proofs.Reach

/-!
# Fresh duplicates

A duplicate is made from identities that were unused before. Everything within reach of it is new;
of its hidden containers, those that are not new are hidden in the source too, where copies share
them. Main statement: `Value.renew_fresh`.
-/

namespace Redaction

/-- A container of this shape is copied as a whole before its slots are filled. -/
def Shape.isCopiedWhole (shape : Shape) : Bool := shape.kind.isWritable && !shape.isBuiltIn

namespace Value

section

variable {thaw : Bool} {id n : Ident} {shape : Shape} {tag snapshot : Option Value}
  {slots : List Slot}

theorem renew_view : (node id .view tag snapshot slots).renew thaw n =
    (node id .view tag snapshot slots, n) := by
  simp [renew]

theorem renew_tuple {form : TupleForm} : (node id (.tuple form) tag snapshot slots).renew thaw n =
    (if thaw then node n (.sequence .plain) none none (renewSlots thaw slots (n + 1)).1
      else node n (.tuple form) none (lost snapshot) (renewSlots thaw slots (n + 1)).1,
      (renewSlots thaw slots (n + 1)).2) := by
  cases thaw <;> simp [renew]

theorem renew_builtIn (h : shape.isBuiltIn = true) :
    (node id shape tag snapshot slots).renew thaw n =
      (node n shape (shape.copiedTag tag)
        (if shape.losesAttributes then lost snapshot else snapshot)
        (renewSlots thaw slots (n + 1)).1, (renewSlots thaw slots (n + 1)).2) := by
  cases shape with
  | mapping form => simp [renew, h]
  | sequence form => simp [renew, h]
  | tuple form => simp [Shape.isBuiltIn] at h
  | view => simp [Shape.isBuiltIn] at h

/-- The identity that a container copied as a whole gets: identities below it may be taken by what
was copied along. -/
def wholeIdent (snapshot : Option Value) (slots : List Slot) (n : Ident) : Ident :=
  if snapshot.isSome || slots.any fun slot => slot.1.holdsObject then 2 * n else n

theorem wholeIdent_eq (h : snapshot.isSome = true ∨ ∃ slot ∈ slots, slot.1.holdsObject = true) :
    wholeIdent snapshot slots n = 2 * n := by
  unfold wholeIdent
  rw [if_pos]
  simpa only [Bool.or_eq_true, List.any_eq_true] using h

theorem le_wholeIdent : n ≤ wholeIdent snapshot slots n := by
  unfold wholeIdent
  split <;> lia

theorem renew_whole (h : shape.isCopiedWhole = true) :
    (node id shape tag snapshot slots).renew thaw n =
      (node (wholeIdent snapshot slots n) shape tag (shiftOption n snapshot)
        (refill n slots (renewSlots thaw slots (wholeIdent snapshot slots n + 1)).1),
        (renewSlots thaw slots (wholeIdent snapshot slots n + 1)).2) := by
  cases shape with
  | mapping form =>
    have hb : (Shape.mapping form).isBuiltIn = false := by
      simpa [Shape.isCopiedWhole, Shape.kind, Kind.isWritable] using h
    simp [renew, hb, wholeIdent]
  | sequence form =>
    have hb : (Shape.sequence form).isBuiltIn = false := by
      simpa [Shape.isCopiedWhole, Shape.kind, Kind.isWritable] using h
    simp [renew, hb, wholeIdent]
  | tuple form => simp [Shape.isCopiedWhole, Shape.kind, Kind.isWritable] at h
  | view => simp [Shape.isCopiedWhole, Shape.kind, Kind.isWritable] at h

end

theorem Shape.copying (shape : Shape) : shape = .view ∨ (∃ form, shape = .tuple form) ∨
    shape.isBuiltIn = true ∨ shape.isCopiedWhole = true := by
  cases shape with
  | view => exact .inl rfl
  | tuple form => exact .inr (.inl ⟨form, rfl⟩)
  | mapping form => cases form <;> simp [Shape.isBuiltIn, Shape.isCopiedWhole, Shape.kind,
      Kind.isWritable]
  | sequence form => cases form <;> simp [Shape.isBuiltIn, Shape.isCopiedWhole, Shape.kind,
      Kind.isWritable]

section

variable {id : Ident} {shape : Shape} {tag snapshot : Option Value} {slots : List Slot}

theorem idsOption_tag_subset (ht : shape.kind.isTraversable = true) :
    idsOption tag ⊆ (node id shape tag snapshot slots).hidden := fun _ hi =>
  (mem_hidden_node ht).mpr (.inl (mem_idsOption.mp hi))

theorem idsOption_snapshot_subset (ht : shape.kind.isTraversable = true) :
    idsOption snapshot ⊆ (node id shape tag snapshot slots).hidden := fun _ hi =>
  (mem_hidden_node ht).mpr (.inr (.inl (mem_idsOption.mp hi)))

theorem hiddenSlots_subset (ht : shape.kind.isTraversable = true) :
    hiddenSlots slots ⊆ (node id shape tag snapshot slots).hidden := fun i hi => by
  rw [hiddenSlots_eq_flatMap] at hi
  exact (mem_hidden_node ht).mpr (.inr (.inr (List.mem_flatMap.mp hi)))

end

/-- What a value has within reach was unused between `n` and `m`, and so was what it hides unless
it is one of the identities `old`. -/
structure FreshIn (old : List Ident) (n m : Ident) (u : Value) : Prop where
  reach : ∀ id ∈ u.reach, n ≤ id ∧ id < m
  hidden : ∀ id ∈ u.hidden, id ∈ old ∨ n ≤ id ∧ id < m

theorem FreshIn.mono {old old' : List Ident} {n n' m m' : Ident} {u : Value}
    (h : u.FreshIn old n m) (ho : old ⊆ old') (hn : n' ≤ n) (hm : m ≤ m') :
    u.FreshIn old' n' m' := by
  constructor
  · intro id hid
    exact ⟨le_trans hn (h.reach id hid).1, lt_of_lt_of_le (h.reach id hid).2 hm⟩
  · intro id hid
    refine (h.hidden id hid).imp (fun h => ho h) fun h => ?_
    exact ⟨le_trans hn h.1, lt_of_lt_of_le h.2 hm⟩

theorem FreshIn.ids_lt {old : List Ident} {n m : Ident} {u : Value} (h : u.FreshIn old n m)
    (hold : ∀ id ∈ old, id < m) : ∀ id ∈ u.ids, id < m := by
  intro id hid
  rcases mem_ids.mp hid with hid | hid
  · exact (h.reach id hid).2
  · rcases h.hidden id hid with hid | hid
    · exact hold id hid
    · exact hid.2

theorem shiftSlots_eq_map (offset : Ident) (slots : List Slot) :
    shiftSlots offset slots =
      slots.map fun slot => (slot.1.shift offset, slot.2.shift offset) := by
  induction slots with
  | nil => rfl
  | cons slot rest ih => simp [shiftSlots, ih]

theorem mem_shiftOption {offset : Ident} {o : Option Value} {v : Value} :
    v ∈ shiftOption offset o ↔ ∃ w ∈ o, w.shift offset = v := by
  cases o <;> simp [shiftOption]

theorem mem_of_mem_copiedTag {shape : Shape} {tag : Option Value} {v : Value}
    (h : v ∈ shape.copiedTag tag) : v ∈ tag := by
  unfold Shape.copiedTag at h
  split at h
  · cases h
  · exact h

theorem idsOption_copiedTag_subset (shape : Shape) (tag : Option Value) :
    idsOption (shape.copiedTag tag) ⊆ idsOption tag := by
  intro i hi
  obtain ⟨v, hv, hi⟩ := mem_idsOption.mp hi
  exact mem_idsOption.mpr ⟨v, mem_of_mem_copiedTag hv, hi⟩

theorem idsOption_lost (snapshot : Option Value) : idsOption (lost snapshot) = [] := by
  cases snapshot <;> simp [lost, idsOption, null, atom, ids]

/-- The identities of a copy made of a whole structure are those of its source, all moved. -/
theorem mem_ids_shift {offset id : Ident} {v : Value} (h : id ∈ (v.shift offset).ids) :
    ∃ old ∈ v.ids, id = old + offset := by
  induction v using Value.induction with
  | scalar s => simp [shift, ids] at h
  | node i shape tag snapshot slots ihTag ihSnapshot ihSlots =>
    rw [shift, mem_ids_node, shiftSlots_eq_map] at h
    rcases h with rfl | ⟨u, mem, hid⟩ | ⟨u, mem, hid⟩ | ⟨slot, mem, hid⟩
    · exact ⟨i, mem_ids_node.mpr (.inl rfl), rfl⟩
    · obtain ⟨w, hw, rfl⟩ := mem_shiftOption.mp (mem_of_mem_copiedTag mem)
      obtain ⟨old, hold, rfl⟩ := ihTag w hw hid
      exact ⟨old, mem_ids_node.mpr (.inr (.inl ⟨w, hw, hold⟩)), rfl⟩
    · split at mem
      · have hnone := mem_idsOption.mpr ⟨u, mem, hid⟩
        simp [idsOption_lost] at hnone
      · obtain ⟨w, hw, rfl⟩ := mem_shiftOption.mp mem
        obtain ⟨old, hold, rfl⟩ := ihSnapshot w hw hid
        exact ⟨old, mem_ids_node.mpr (.inr (.inr (.inl ⟨w, hw, hold⟩))), rfl⟩
    · obtain ⟨slot, hslot, rfl⟩ := List.mem_map.mp mem
      obtain ⟨old, hold, rfl⟩ := ihSlots slot hslot hid
      exact ⟨old, mem_ids_node.mpr (.inr (.inr (.inr ⟨slot, hslot, hold⟩))), rfl⟩

/-- A slot of a container that was copied as a whole holds a duplicate, or a copy that was made
along with the container and stands under the copy of an object. -/
theorem mem_refill {offset : Ident} {old duplicates : List Slot} {slot : Slot}
    (h : slot ∈ refill offset old duplicates) : slot ∈ duplicates ∨
      ∃ u ∈ old, u.1.holdsObject = true ∧ slot = (u.1.shift offset, u.2.shift offset) := by
  unfold refill at h
  rcases List.mem_append.mp h with h | h
  · obtain ⟨i, hi, rfl⟩ := List.mem_iff_getElem.mp h
    simp only [List.length_zipWith, Nat.lt_min] at hi
    rw [List.getElem_zipWith]
    by_cases hk : (old[i].1.holdsObject) = true
    · simp only [hk, if_true]
      exact .inr ⟨old[i], List.getElem_mem _, hk, rfl⟩
    · simp only [hk]
      exact .inl (List.getElem_mem _)
  · exact .inl (List.mem_of_mem_filter h)

theorem renewSlots_fst (thaw : Bool) (slots : List Slot) (n : Ident) :
    (renewSlots thaw slots n).1.map Prod.fst = slots.map Prod.fst := by
  induction slots generalizing n with
  | nil => rfl
  | cons slot rest ih =>
    obtain ⟨k, v⟩ := slot
    simp [renewSlots, ih]

theorem renewSlots_fresh {thaw : Bool} {slots : List Slot} {n : Ident}
    (h : ∀ slot ∈ slots, ∀ m, n ≤ m → m ≤ (slot.2.renew thaw m).2 ∧
      (slot.2.renew thaw m).1.FreshIn slot.2.hidden m (slot.2.renew thaw m).2) :
    n ≤ (renewSlots thaw slots n).2 ∧ ∀ slot ∈ (renewSlots thaw slots n).1,
      slot.2.FreshIn (hiddenSlots slots) n (renewSlots thaw slots n).2 := by
  induction slots generalizing n with
  | nil => simp [renewSlots]
  | cons slot rest ih =>
    obtain ⟨k, v⟩ := slot
    obtain ⟨hle, hfresh⟩ := h (k, v) List.mem_cons_self n le_rfl
    obtain ⟨hrest, hslots⟩ := @ih (v.renew thaw n).2 fun slot mem m hm =>
      h slot (List.mem_cons_of_mem _ mem) m (le_trans hle hm)
    simp only [renewSlots]
    refine ⟨le_trans hle hrest, fun slot mem => ?_⟩
    rcases List.mem_cons.mp mem with rfl | mem
    · refine hfresh.mono ?_ le_rfl hrest
      simp [hiddenSlots]
    · refine (hslots slot mem).mono ?_ hle le_rfl
      simp only [hiddenSlots]
      exact List.subset_append_right _ _

/-- Slots of a container that paths lead to, all fresh, make the container fresh. -/
theorem FreshIn.node {old : List Ident} {n m id : Ident} {shape : Shape}
    {tag snapshot : Option Value} {slots : List Slot} (ht : shape.kind.isTraversable = true)
    (hid : n ≤ id ∧ id < m) (hslots : ∀ slot ∈ slots, slot.2.FreshIn old n m)
    (htag : ∀ i ∈ idsOption tag, i ∈ old ∨ n ≤ i ∧ i < m)
    (hsnapshot : ∀ i ∈ idsOption snapshot, i ∈ old ∨ n ≤ i ∧ i < m) :
    (node id shape tag snapshot slots).FreshIn old n m := by
  constructor
  · intro i hi
    obtain ⟨_, rfl | ⟨slot, mem, hi⟩⟩ := mem_reach_node.mp hi
    · exact hid
    · exact (hslots slot mem).reach i hi
  · intro i hi
    rcases (mem_hidden_node ht).mp hi with h | h | ⟨slot, mem, hi⟩
    · exact htag i (mem_idsOption.mpr h)
    · exact hsnapshot i (mem_idsOption.mpr h)
    · exact (hslots slot mem).hidden i hi

theorem isTraversable_of_isWritable {kind : Kind} (h : kind.isWritable = true) :
    kind.isTraversable = true := by
  cases kind <;> simp_all [Kind.isWritable, Kind.isTraversable]

theorem isTraversable_of_isBuiltIn {shape : Shape} (h : shape.isBuiltIn = true) :
    shape.kind.isTraversable = true := by
  cases shape <;> simp_all [Shape.isBuiltIn, Shape.kind, Kind.isTraversable]

theorem isTraversable_of_isCopiedWhole {shape : Shape} (h : shape.isCopiedWhole = true) :
    shape.kind.isTraversable = true := by
  simp only [Shape.isCopiedWhole, Bool.and_eq_true] at h
  exact isTraversable_of_isWritable h.1

section

variable {thaw : Bool} {n m id : Ident} {shape shape' : Shape}
  {tag tag' snapshot snapshot' : Option Value} {slots : List Slot}

/-- A container made before the duplicates of its slots, with nothing else but what its source
hides. -/
theorem duplicate_fresh (ht : shape.kind.isTraversable = true)
    (ht' : shape'.kind.isTraversable = true)
    (hslots : n + 1 ≤ (renewSlots thaw slots (n + 1)).2 ∧ ∀ slot ∈ (renewSlots thaw slots (n + 1)).1,
      slot.2.FreshIn (hiddenSlots slots) (n + 1) (renewSlots thaw slots (n + 1)).2)
    (htag : idsOption tag' ⊆ idsOption tag) (hsnapshot : idsOption snapshot' ⊆ idsOption snapshot) :
    n ≤ (renewSlots thaw slots (n + 1)).2 ∧
      (node n shape' tag' snapshot' (renewSlots thaw slots (n + 1)).1).FreshIn
        (node id shape tag snapshot slots).hidden n (renewSlots thaw slots (n + 1)).2 := by
  obtain ⟨hle, hfresh⟩ := hslots
  refine ⟨by lia, FreshIn.node ht' ⟨le_rfl, by lia⟩ (fun slot mem => ?_) (fun i hi => .inl ?_)
    fun i hi => .inl ?_⟩
  · exact (hfresh slot mem).mono (hiddenSlots_subset ht) (by lia) le_rfl
  · exact idsOption_tag_subset ht (htag hi)
  · exact idsOption_snapshot_subset ht (hsnapshot hi)

/-- What is copied along with a container lies below the identity of the container. -/
theorem shift_between {u : Value} (hu : ∀ i ∈ u.ids, i < n)
    (hwhole : wholeIdent snapshot slots n = 2 * n) (hm : wholeIdent snapshot slots n < m) :
    ∀ i ∈ (u.shift n).ids, n ≤ i ∧ i < m := by
  intro i hi
  obtain ⟨old, hold, rfl⟩ := mem_ids_shift hi
  have := hu old hold
  constructor <;> lia

theorem renew_whole_fresh (hw : shape.isCopiedWhole = true)
    (h : ∀ i ∈ (node id shape tag snapshot slots).ids, i < n)
    (hslots : ∀ m, n ≤ m → m ≤ (renewSlots thaw slots m).2 ∧ ∀ slot ∈ (renewSlots thaw slots m).1,
      slot.2.FreshIn (hiddenSlots slots) m (renewSlots thaw slots m).2) :
    n ≤ ((node id shape tag snapshot slots).renew thaw n).2 ∧
      ((node id shape tag snapshot slots).renew thaw n).1.FreshIn
        (node id shape tag snapshot slots).hidden n
        ((node id shape tag snapshot slots).renew thaw n).2 := by
  have ht := isTraversable_of_isCopiedWhole hw
  have hwhole : n ≤ wholeIdent snapshot slots n := le_wholeIdent
  obtain ⟨hle, hfresh⟩ := hslots (wholeIdent snapshot slots n + 1) (by lia)
  rw [renew_whole hw]
  refine ⟨by lia, FreshIn.node ht ⟨hwhole, by lia⟩ (fun slot mem => ?_) (fun i hi => ?_)
    (fun i hi => .inr ?_)⟩
  · rcases mem_refill mem with mem | ⟨u, memOld, hobject, rfl⟩
    · exact (hfresh slot mem).mono (hiddenSlots_subset ht) (by lia) le_rfl
    · have hu : ∀ i ∈ u.2.ids, i < n := fun i hi =>
        h i (mem_ids_node.mpr (.inr (.inr (.inr ⟨u, memOld, hi⟩))))
      have hbetween := shift_between hu (wholeIdent_eq (.inr ⟨u, memOld, hobject⟩)) hle
      exact ⟨fun i hi => hbetween i (reach_subset_ids hi),
        fun i hi => .inr (hbetween i (hidden_subset_ids hi))⟩
  · exact .inl (idsOption_tag_subset ht hi)
  · obtain ⟨u, hu, hi⟩ := mem_idsOption.mp hi
    obtain ⟨w, hw, rfl⟩ := mem_shiftOption.mp hu
    have hids : ∀ i ∈ w.ids, i < n := fun i hi =>
      h i (mem_ids_node.mpr (.inr (.inr (.inl ⟨w, hw, hi⟩))))
    have hsome : snapshot.isSome = true := by simp [Option.mem_def.mp hw]
    exact shift_between hids (wholeIdent_eq (.inl hsome)) hle i hi

end

/-- The duplicate of a value is fresh, and the identities from the returned one on stay unused. -/
theorem renew_fresh (thaw : Bool) {v : Value} {n : Ident} (h : ∀ id ∈ v.ids, id < n) :
    n ≤ (v.renew thaw n).2 ∧ (v.renew thaw n).1.FreshIn v.hidden n (v.renew thaw n).2 := by
  induction v using Value.induction generalizing n with
  | scalar s => exact ⟨le_rfl, by simp [renew, reach], by simp [renew, hidden]⟩
  | node id shape tag snapshot slots _ _ ihSlots =>
    have hids : ∀ slot ∈ slots, ∀ i ∈ slot.2.ids, i < n := fun slot mem i hi =>
      h i (mem_ids_node.mpr (.inr (.inr (.inr ⟨slot, mem, hi⟩))))
    have hslots : ∀ m, n ≤ m → m ≤ (renewSlots thaw slots m).2 ∧
        ∀ slot ∈ (renewSlots thaw slots m).1,
          slot.2.FreshIn (hiddenSlots slots) m (renewSlots thaw slots m).2 := fun m hm =>
      renewSlots_fresh fun slot mem k hk => ihSlots slot mem fun i hi =>
        lt_of_lt_of_le (hids slot mem i hi) (le_trans hm hk)
    rcases Shape.copying shape with rfl | ⟨form, rfl⟩ | hb | hw
    · rw [renew_view]
      refine ⟨le_rfl, ?_, fun i hi => .inl hi⟩
      simp [reach, Shape.kind, Kind.isTraversable]
    · have ht : (Shape.tuple form).kind.isTraversable = true := rfl
      have hrenewed := hslots (n + 1) (by lia)
      rw [renew_tuple]
      cases thaw with
      | true =>
        rw [if_pos rfl]
        exact duplicate_fresh ht rfl hrenewed (List.nil_subset _) (List.nil_subset _)
      | false =>
        rw [if_neg Bool.false_ne_true]
        refine duplicate_fresh ht ht hrenewed (List.nil_subset _) ?_
        rw [idsOption_lost]
        exact List.nil_subset _
    · have ht := isTraversable_of_isBuiltIn hb
      have hsnapshot : idsOption (if shape.losesAttributes then lost snapshot else snapshot) ⊆
          idsOption snapshot := by
        split
        · simp [idsOption_lost]
        · exact List.Subset.refl _
      rw [renew_builtIn hb]
      exact duplicate_fresh ht ht (hslots (n + 1) (by lia)) (idsOption_copiedTag_subset shape tag)
        hsnapshot
    · exact renew_whole_fresh hw h hslots

end Value

end Redaction
