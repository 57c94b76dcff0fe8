import Redaction.Proofs.Aftermath
import Redaction.Proofs.Addressing

/-!
# What a path does to the working copy

In the working copy of a call each container stands in one place only, and all of them can be
written. There writes into different branches do not meet, and all that a run does for one path
amounts to `Value.redactAlong`.
-/

namespace Redaction

namespace Value

/-- Each container within reach stands in one place only, and no two of its slots have the same
key. -/
structure IsTree (v : Value) : Prop where
  nodup : v.reach.Nodup
  apart : ∀ id ∈ v.reach, id ∉ v.hidden
  keyed : v.isWellKeyed = true

structure Editable (v : Value) : Prop extends IsTree v where
  writable : v.everywhere (fun u => u.kind.isWritable) = true

section

variable {id : Ident} {shape : Shape} {tag snapshot : Option Value} {slots : List Slot}

theorem IsTree.slot (h : (node id shape tag snapshot slots).IsTree)
    (ht : shape.kind.isTraversable = true) {slot : Slot} (mem : slot ∈ slots) :
    slot.2.IsTree := by
  have hnodup := h.nodup
  simp only [reach, ht, if_true, List.nodup_cons, reachSlots_eq_flatMap,
    List.nodup_flatMap] at hnodup
  refine ⟨hnodup.2.1 slot mem, fun i hi hin => ?_, ((everywhere_node ht).mp h.keyed).2 slot mem⟩
  exact h.apart i (mem_reach_node.mpr ⟨ht, .inr ⟨slot, mem, hi⟩⟩)
    ((mem_hidden_node ht).mpr (.inr (.inr ⟨slot, mem, hin⟩)))

theorem Editable.slot (h : (node id shape tag snapshot slots).Editable)
    (ht : shape.kind.isTraversable = true) {slot : Slot} (mem : slot ∈ slots) :
    slot.2.Editable :=
  ⟨h.toIsTree.slot ht mem, ((everywhere_node ht).mp h.writable).2 slot mem⟩

theorem IsTree.slots_apart (h : (node id shape tag snapshot slots).IsTree)
    (ht : shape.kind.isTraversable = true) :
    slots.Pairwise fun a b => (∀ i ∈ a.2.reach, i ∉ b.2.ids) ∧ ∀ i ∈ b.2.reach, i ∉ a.2.ids := by
  have hnodup := h.nodup
  simp only [reach, ht, if_true, List.nodup_cons, reachSlots_eq_flatMap,
    List.nodup_flatMap] at hnodup
  have hhidden : ∀ a ∈ slots, ∀ b ∈ slots, ∀ i ∈ a.2.reach, i ∉ b.2.hidden :=
    fun a ha b hb i hi hin => h.apart i (mem_reach_node.mpr ⟨ht, .inr ⟨a, ha, hi⟩⟩)
      ((mem_hidden_node ht).mpr (.inr (.inr ⟨b, hb, hin⟩)))
  refine hnodup.2.2.imp_of_mem fun {a b} ha hb hdisjoint => ⟨fun i hi hin => ?_, fun i hi hin => ?_⟩
  · rcases mem_ids.mp hin with hin | hin
    · exact hdisjoint hi hin
    · exact hhidden a ha b hb i hi hin
  · rcases mem_ids.mp hin with hin | hin
    · exact hdisjoint hin hi
    · exact hhidden b hb a ha i hi hin

theorem IsTree.ident_not_mem (h : (node id shape tag snapshot slots).IsTree)
    (ht : shape.kind.isTraversable = true) {slot : Slot} (mem : slot ∈ slots) :
    id ∉ slot.2.ids := by
  intro hid
  have hnodup := h.nodup
  simp only [reach, ht, if_true, List.nodup_cons, reachSlots_eq_flatMap] at hnodup
  rcases mem_ids.mp hid with hid | hid
  · exact hnodup.1 (List.mem_flatMap.mpr ⟨slot, mem, hid⟩)
  · exact h.apart id (mem_reach_node.mpr ⟨ht, .inl rfl⟩)
      ((mem_hidden_node ht).mpr (.inr (.inr ⟨slot, mem, hid⟩)))

theorem IsTree.not_mem_options (h : (node id shape tag snapshot slots).IsTree)
    (ht : shape.kind.isTraversable = true) {i : Ident}
    (hi : i ∈ (node id shape tag snapshot slots).reach) :
    i ∉ idsOption tag ∧ i ∉ idsOption snapshot :=
  ⟨fun hin => h.apart i hi ((mem_hidden_node ht).mpr (.inl (mem_idsOption.mp hin))),
    fun hin => h.apart i hi ((mem_hidden_node ht).mpr (.inr (.inl (mem_idsOption.mp hin))))⟩

theorem afterOption_of_not_mem {w : Write} {o : Option Value} (h : w.target ∉ idsOption o) :
    afterOption w o = o := by
  cases o with
  | none => rfl
  | some v => rw [afterOption, after_of_not_mem w v h]

theorem afterAll_own {ws : List Write} (hws : ∀ w ∈ ws, w.target = id)
    (htag : id ∉ idsOption tag) (hsnapshot : id ∉ idsOption snapshot)
    (hslots : ∀ slot ∈ slots, id ∉ slot.2.ids)
    (hcontent : ∀ w ∈ ws, ∀ x ∈ w.content, id ∉ x.ids) :
    (node id shape tag snapshot slots).afterAll ws =
      node id shape tag snapshot (ws.foldl (fun slots w => w.apply slots) slots) := by
  induction ws generalizing slots with
  | nil => rfl
  | cons w rest ih =>
    have hw := hws w List.mem_cons_self
    have hsame : afterSlots w slots = slots := by
      rw [afterSlots_eq_map]
      refine (List.map_congr_left fun slot mem => ?_).trans (List.map_id slots)
      rw [after_of_not_mem w slot.2 (hw ▸ hslots slot mem)]
      rfl
    rw [afterAll_cons, after, afterOption_of_not_mem (hw ▸ htag),
      afterOption_of_not_mem (hw ▸ hsnapshot), if_pos hw.symm, hsame, List.foldl_cons]
    refine ih (fun u mem => hws u (List.mem_cons_of_mem _ mem)) (fun slot mem => ?_)
      fun u mem => hcontent u (List.mem_cons_of_mem _ mem)
    rcases mem_apply mem with hx | mem
    · exact hcontent w List.mem_cons_self _ hx
    · exact hslots slot mem

theorem afterAll_below {ws : List Write} (hws : ∀ w ∈ ws, w.target ≠ id)
    (htag : ∀ w ∈ ws, w.target ∉ idsOption tag)
    (hsnapshot : ∀ w ∈ ws, w.target ∉ idsOption snapshot) :
    (node id shape tag snapshot slots).afterAll ws =
      node id shape tag snapshot (slots.map fun slot => (slot.1, slot.2.afterAll ws)) := by
  induction ws generalizing slots with
  | nil => simp
  | cons w rest ih =>
    have hw := hws w List.mem_cons_self
    rw [afterAll_cons, after, afterOption_of_not_mem (htag w List.mem_cons_self),
      afterOption_of_not_mem (hsnapshot w List.mem_cons_self), if_neg (Ne.symm hw),
      ih (fun u mem => hws u (List.mem_cons_of_mem _ mem))
        (fun u mem => htag u (List.mem_cons_of_mem _ mem))
        (fun u mem => hsnapshot u (List.mem_cons_of_mem _ mem)),
      afterSlots_eq_map, List.map_map]
    rfl

/-- Writes that land within reach of a tree's slots leave its root as it is, but for the slots. They
may have changed on the way. -/
theorem IsTree.afterAll_slots {ws : List Write} {slots' : List Slot}
    (h : (node id shape tag snapshot slots).IsTree) (ht : shape.kind.isTraversable = true)
    (hws : ∀ w ∈ ws, ∃ slot ∈ slots, w.target ∈ slot.2.reach) :
    (node id shape tag snapshot slots').afterAll ws =
      node id shape tag snapshot (slots'.map fun slot => (slot.1, slot.2.afterAll ws)) := by
  have hreach : ∀ w ∈ ws, w.target ∈ (node id shape tag snapshot slots).reach := fun w hw =>
    mem_reach_node.mpr ⟨ht, .inr (hws w hw)⟩
  refine afterAll_below (fun w hw heq => ?_) (fun w hw => (h.not_mem_options ht (hreach w hw)).1)
    fun w hw => (h.not_mem_options ht (hreach w hw)).2
  obtain ⟨slot, mem, hin⟩ := hws w hw
  exact h.ident_not_mem ht mem (heq ▸ reach_subset_ids hin)

end

/-- Where the writes of each slot land in that slot alone, each slot shows its own writes only. -/
theorem map_afterAll_flatMap {slots : List Slot} {writes : Slot → List Write}
    (htarget : ∀ slot ∈ slots, ∀ w ∈ writes slot, w.target ∈ slot.2.reach)
    (hapart : slots.Pairwise fun a b =>
      (∀ i ∈ a.2.reach, i ∉ b.2.ids) ∧ ∀ i ∈ b.2.reach, i ∉ a.2.ids)
    (hcontent : ∀ a ∈ slots, ∀ b ∈ slots, ∀ w ∈ writes a, ∀ x ∈ w.content,
      ∀ i ∈ b.2.reach, i ∉ x.ids) :
    (slots.map fun slot => (slot.1, slot.2.afterAll (slots.flatMap writes))) =
      slots.map fun slot => (slot.1, slot.2.afterAll (writes slot)) := by
  induction slots with
  | nil => rfl
  | cons a rest ih =>
    obtain ⟨hfirst, hrest⟩ := List.pairwise_cons.mp hapart
    have hothers : ∀ w ∈ rest.flatMap writes, ∃ b ∈ rest, w.target ∈ b.2.reach := by
      intro w mem
      obtain ⟨b, hb, hw⟩ := List.mem_flatMap.mp mem
      exact ⟨b, hb, htarget b (List.mem_cons_of_mem _ hb) w hw⟩
    have hhead : (a.2.afterAll (writes a)).afterAll (rest.flatMap writes) =
        a.2.afterAll (writes a) := by
      refine afterAll_of_not_mem fun w mem => ?_
      obtain ⟨b, hb, hw⟩ := hothers w mem
      have hbound : a.2.Admits (fun _ => True) fun i => i ≠ w.target :=
        ⟨fun _ _ => trivial, fun i hi heq => (hfirst b hb).2 _ hw (heq ▸ hi)⟩
      intro hin
      refine (hbound.afterAll fun u hu x hx => ⟨fun _ _ => trivial, fun i hi heq => ?_⟩).ids
        _ hin rfl
      exact hcontent a List.mem_cons_self b (List.mem_cons_of_mem _ hb) u hu x hx _ hw (heq ▸ hi)
    have htail : ∀ b ∈ rest, b.2.afterAll (writes a) = b.2 := by
      intro b hb
      refine afterAll_of_not_mem fun w mem => ?_
      exact (hfirst b hb).1 _ (htarget a List.mem_cons_self w mem)
    have hrest := ih (fun b hb => htarget b (List.mem_cons_of_mem _ hb)) hrest
      fun b hb d hd => hcontent b (List.mem_cons_of_mem _ hb) d (List.mem_cons_of_mem _ hd)
    rw [List.map_cons, List.map_cons, List.flatMap_cons, ← hrest]
    simp only [afterAll_append, hhead]
    congr 1
    exact List.map_congr_left fun b hb => by rw [htail b hb]

end Value

namespace Slots

theorem foldl_apply_cons {ws : List Write} {k : Key} {v : Value} {rest : List Slot}
    (h : ∀ w ∈ ws, k.same w.key = false) :
    ws.foldl (fun slots w => w.apply slots) ((k, v) :: rest) =
      (k, v) :: ws.foldl (fun slots w => w.apply slots) rest := by
  induction ws generalizing rest with
  | nil => rfl
  | cons w others ih =>
    have hw := h w List.mem_cons_self
    have happly : w.apply ((k, v) :: rest) = (k, v) :: w.apply rest := by
      unfold Write.apply
      cases w.content with
      | none => simp [erase, hw]
      | some x => simp [put, hw]
    rw [List.foldl_cons, List.foldl_cons, happly]
    exact ih fun u mem => h u (List.mem_cons_of_mem _ mem)

theorem foldl_apply {slots : List Slot} (h : Distinct slots) {edit : Slot → Option Write}
    (hedit : ∀ slot ∈ slots, ∀ w ∈ edit slot, slot.1.same w.key = true) :
    (slots.filterMap edit).foldl (fun slots w => w.apply slots) slots =
      slots.filterMap fun slot => ((edit slot).elim (some slot.2) Write.content).map
        fun u => (slot.1, u) := by
  induction slots with
  | nil => rfl
  | cons slot rest ih =>
    obtain ⟨k, v⟩ := slot
    obtain ⟨hfirst, hrest⟩ := List.pairwise_cons.mp h
    have hothers : ∀ w ∈ rest.filterMap edit, k.same w.key = false := by
      intro w mem
      obtain ⟨other, memOther, hw⟩ := List.mem_filterMap.mp mem
      by_contra hsame
      have hkey := hedit other (List.mem_cons_of_mem _ memOther) w hw
      have := Key.same_trans (Bool.not_eq_false _ ▸ hsame) (Key.same_comm _ _ ▸ hkey)
      simp [hfirst other memOther] at this
    have hrest := ih hrest fun other mem => hedit other (List.mem_cons_of_mem _ mem)
    rw [List.filterMap_cons, List.filterMap_cons]
    cases hw : edit (k, v) with
    | none =>
      simp only [Option.elim_none, Option.map_some]
      rw [foldl_apply_cons hothers, hrest]
    | some w =>
      have hkey := hedit (k, v) List.mem_cons_self w hw
      simp only [Option.elim_some, List.foldl_cons]
      cases hx : w.content with
      | none =>
        have happly : w.apply ((k, v) :: rest) = rest := by
          simp [Write.apply, hx, erase, hkey]
        rw [happly]
        exact hrest
      | some x =>
        have happly : w.apply ((k, v) :: rest) = (k, x) :: rest := by
          simp [Write.apply, hx, put, hkey]
        rw [happly, foldl_apply_cons hothers, hrest]
        rfl

end Slots

namespace Value

/-- The writes that a path makes, in order: those along its strides, as long as nothing is written
meanwhile. -/
def writesAlong : List Stride → (Option Key → Value) → Value → List Write
  | [], _, _ => []
  | [stride], x, v => v.children.filterMap fun slot =>
    (stride.finds? v slot.1).bind fun found => v.writeTo found (stride.pick x slot.1 none)
  | stride :: next :: rest, x, v => v.children.flatMap fun slot =>
    if stride.leads v slot.1 then writesAlong (next :: rest) (stride.pick x slot.1) slot.2 else []

theorem settled_ids {kind : Kind} {x y : Value} (h : y ∈ settled kind x) : y.ids ⊆ x.ids := by
  unfold settled at h
  split at h
  · split at h
    · simp at h
    · obtain rfl := Option.some.inj h
      simp [null, atom, ids]
  · obtain rfl := Option.some.inj h
    exact List.Subset.refl _

/-- The writes along strides store replacements. What holds of a container and each write into it,
and of a container and a write if it holds of one of the values in it, holds of them. -/
theorem writesAlong_induction {P : Value → Write → Prop}
    (own : ∀ {v y k w}, v.writeTo k y = some w → P v w)
    (up : ∀ {v slot w}, slot ∈ v.children → P slot.2 w → P v w) {strides : List Stride}
    {x : Option Key → Value} {v : Value} {w : Write} (h : w ∈ writesAlong strides x v) :
    P v w ∧ ∃ l kind, w.content = settled kind (x l) := by
  induction strides generalizing x v with
  | nil => simp [writesAlong] at h
  | cons stride rest ih =>
    cases rest with
    | nil =>
      obtain ⟨slot, _, hw⟩ := List.mem_filterMap.mp h
      obtain ⟨found, _, hw⟩ := Option.bind_eq_some_iff.mp hw
      obtain ⟨shape, _, _, _, _, _, _, hcontent⟩ := writeTo_eq_some hw
      obtain ⟨l, hl⟩ := stride.pick_mem x slot.1 none
      exact ⟨own hw, l, shape.kind, hl ▸ hcontent⟩
    | cons next rest =>
      obtain ⟨slot, mem, hw⟩ := List.mem_flatMap.mp h
      split at hw
      · obtain ⟨hbelow, l, kind, hcontent⟩ := ih hw
        obtain ⟨j, hj⟩ := stride.pick_mem x slot.1 l
        exact ⟨up mem hbelow, j, kind, hj ▸ hcontent⟩
      · cases hw

theorem mem_writesAlong {strides : List Stride} {x : Option Key → Value} {v : Value} {w : Write}
    (h : w ∈ writesAlong strides x v) :
    w.target ∈ v.reach ∧ ∀ y ∈ w.content, ∃ l, y.ids ⊆ (x l).ids := by
  obtain ⟨htarget, l, kind, hcontent⟩ :=
    @writesAlong_induction (fun v w => w.target ∈ v.reach) (fun {v y k w} hw => by
      obtain ⟨shape, tag, snapshot, slots, rfl, hshape, _, _⟩ := writeTo_eq_some hw
      exact mem_reach_node.mpr ⟨isTraversable_of_isWritable hshape, .inl rfl⟩)
    (fun mem htarget => (child_subset mem).1 htarget) _ _ _ _ h
  exact ⟨htarget, fun y hy => ⟨l, settled_ids (hcontent ▸ hy)⟩⟩

section

variable {id : Ident} {shape : Shape} {tag snapshot : Option Value} {slots : List Slot}
  {stride next : Stride} {rest : List Stride} {x : Option Key → Value}

theorem afterAll_writesAlong_last (hv : (node id shape tag snapshot slots).Editable)
    (ht : shape.kind.isTraversable = true) (hx : ∀ l, id ∉ (x l).ids) :
    (node id shape tag snapshot slots).afterAll
        (writesAlong [stride] x (node id shape tag snapshot slots)) =
      redactAlong [stride] x (node id shape tag snapshot slots) := by
  have hid : id ∈ (node id shape tag snapshot slots).reach := mem_reach_node.mpr ⟨ht, .inl rfl⟩
  have hwritable : shape.kind.isWritable = true := ((everywhere_node ht).mp hv.writable).1
  have hdistinct : Slots.Distinct slots := keysDiffer_iff.mp ((everywhere_node ht).mp hv.keyed).1
  let edit : Slot → Option Write := fun slot =>
    (stride.finds? (node id shape tag snapshot slots) slot.1).map fun found =>
      ⟨id, found, settled shape.kind (stride.pick x slot.1 none)⟩
  have hwrites : writesAlong [stride] x (node id shape tag snapshot slots) =
      slots.filterMap edit := by
    simp only [writesAlong, children_node ht, writeTo, hwritable, if_true]
    exact List.filterMap_congr fun slot _ => Option.map_eq_bind.symm
  have hown : ∀ w ∈ slots.filterMap edit, w.target = id := by
    intro w mem
    obtain ⟨slot, _, hw⟩ := List.mem_filterMap.mp mem
    obtain ⟨found, _, rfl⟩ := Option.map_eq_some_iff.mp hw
    rfl
  have hcontent : ∀ w ∈ slots.filterMap edit, ∀ y ∈ w.content, id ∉ y.ids := by
    intro w mem y hy hin
    rw [← hwrites] at mem
    obtain ⟨l, hl⟩ := (mem_writesAlong mem).2 y hy
    exact hx l (hl hin)
  have hedit : ∀ slot ∈ slots, ∀ w ∈ edit slot, slot.1.same w.key = true := by
    intro slot _ w hw
    obtain ⟨found, hfound, rfl⟩ := Option.map_eq_some_iff.mp hw
    exact Key.same_comm _ _ ▸ Stride.same_of_finds? hfound
  rw [hwrites, afterAll_own hown (hv.not_mem_options ht hid).1 (hv.not_mem_options ht hid).2
    (fun slot mem => hv.ident_not_mem ht mem) hcontent, Slots.foldl_apply hdistinct hedit,
    redactAlong, withSlots, if_pos ht]
  congr 1
  refine List.filterMap_congr fun slot _ => ?_
  rcases Option.eq_none_or_eq_some (stride.finds? (node id shape tag snapshot slots) slot.1) with
    hnone | ⟨found, hfound⟩
  · simp [edit, Stride.leads, hnone]
  · simp [edit, Stride.leads, hfound, kind]

/-- Below a container, the writes along strides are those of each slot that the first stride leads
into. -/
theorem afterAll_writesAlong_below (hv : (node id shape tag snapshot slots).Editable)
    (ht : shape.kind.isTraversable = true)
    (hx : ∀ l, ∀ i ∈ (node id shape tag snapshot slots).reach, i ∉ (x l).ids) :
    (node id shape tag snapshot slots).afterAll
        (writesAlong (stride :: next :: rest) x (node id shape tag snapshot slots)) =
      (node id shape tag snapshot slots).withSlots fun k child =>
        some (if stride.leads (node id shape tag snapshot slots) k then
          child.afterAll (writesAlong (next :: rest) (stride.pick x k) child) else child) := by
  let writes : Slot → List Write := fun slot =>
    if stride.leads (node id shape tag snapshot slots) slot.1 then
      writesAlong (next :: rest) (stride.pick x slot.1) slot.2 else []
  have hwrites : writesAlong (stride :: next :: rest) x (node id shape tag snapshot slots) =
      slots.flatMap writes := by
    rw [writesAlong, children_node ht]
  have hmem : ∀ slot ∈ slots, ∀ w ∈ writes slot, w.target ∈ slot.2.reach ∧
      ∀ y ∈ w.content, ∃ l, y.ids ⊆ (x l).ids := by
    intro slot _ w hw
    simp only [writes] at hw
    split at hw
    · obtain ⟨htarget, hcontent⟩ := mem_writesAlong hw
      refine ⟨htarget, fun y hy => ?_⟩
      obtain ⟨l, hl⟩ := hcontent y hy
      obtain ⟨j, hj⟩ := stride.pick_mem x slot.1 l
      exact ⟨j, hj ▸ hl⟩
    · simp at hw
  have hbelow : ∀ w ∈ slots.flatMap writes, ∃ slot ∈ slots, w.target ∈ slot.2.reach := by
    intro w mem
    obtain ⟨slot, memSlot, hw⟩ := List.mem_flatMap.mp mem
    exact ⟨slot, memSlot, (hmem slot memSlot w hw).1⟩
  rw [hwrites, hv.toIsTree.afterAll_slots ht hbelow,
    map_afterAll_flatMap (fun slot mem w hw => (hmem slot mem w hw).1) (hv.slots_apart ht)]
  · rw [withSlots, if_pos ht, ← List.filterMap_eq_map]
    congr 1
    refine List.filterMap_congr fun slot _ => ?_
    simp only [writes, Function.comp_apply, Option.map_some]
    split <;> rfl
  · intro a ha b hb w hw y hy i hi hin
    obtain ⟨l, hl⟩ := (hmem a ha w hw).2 y hy
    exact hx l i (mem_reach_node.mpr ⟨ht, .inr ⟨b, hb, hi⟩⟩) (hl hin)

end

/-- In an editable value the writes along strides replace what the strides address. -/
theorem afterAll_writesAlong {strides : List Stride} {x : Option Key → Value} {v : Value}
    (hv : v.Editable) (hx : ∀ l, ∀ id ∈ v.reach, id ∉ (x l).ids) :
    v.afterAll (writesAlong strides x v) = v.redactAlong strides x := by
  induction strides generalizing x v with
  | nil => rfl
  | cons stride rest ih =>
    by_cases ht : v.kind.isTraversable = true
    · cases v with
      | scalar s => simp [isTraversable_scalar] at ht
      | node id shape tag snapshot slots =>
        cases rest with
        | nil =>
          exact afterAll_writesAlong_last hv ht fun l => hx l id (mem_reach_node.mpr ⟨ht, .inl rfl⟩)
        | cons next rest =>
          rw [afterAll_writesAlong_below hv ht hx, redactAlong]
          refine withSlots_congr fun slot mem => ?_
          rw [children_node ht] at mem
          rw [ih (hv.slot ht mem)]
          intro l i hi hin
          obtain ⟨j, hj⟩ := stride.pick_mem x slot.1 l
          exact hx j i (mem_reach_node.mpr ⟨ht, .inr ⟨slot, mem, hi⟩⟩) (hj ▸ hin)
    · have ht : v.kind.isTraversable = false := by simpa using ht
      cases rest <;>
        simp [writesAlong, redactAlong, withSlots_of_not_traversable ht,
          children_of_not_traversable ht]

/-! ## Editable values stay editable -/

section

variable {f : Key → Value → Option Value} {v : Value}

theorem reach_withSlots
    (h : ∀ slot ∈ v.children, ∀ u ∈ f slot.1 slot.2, u.reach.Sublist slot.2.reach) :
    (v.withSlots f).reach.Sublist v.reach := by
  cases v with
  | scalar s => exact List.Sublist.refl _
  | node id shape tag snapshot slots =>
    by_cases ht : shape.kind.isTraversable = true
    · rw [children_node ht] at h
      simp only [withSlots, reach, ht, if_true, reachSlots_eq_flatMap]
      refine List.Sublist.cons_cons id ?_
      clear ht
      induction slots with
      | nil => exact List.Sublist.refl _
      | cons slot rest ih =>
        have hrest := ih fun other mem => h other (List.mem_cons_of_mem _ mem)
        rw [List.filterMap_cons, List.flatMap_cons]
        cases hf : f slot.1 slot.2 with
        | none => exact hrest.trans (List.sublist_append_right _ _)
        | some u => exact (h slot List.mem_cons_self u hf).append hrest
    · simp [withSlots, ht]

theorem mem_hidden_withSlots {i : Ident} (h : i ∈ (v.withSlots f).hidden) :
    i ∈ v.hidden ∨ ∃ slot ∈ v.children, ∃ u ∈ f slot.1 slot.2, i ∈ u.hidden := by
  cases v with
  | scalar s => exact .inl h
  | node id shape tag snapshot slots =>
    by_cases ht : shape.kind.isTraversable = true
    · rw [withSlots, mem_hidden_node ht] at h
      rcases h with h | h | ⟨slot, mem, hi⟩
      · exact .inl ((mem_hidden_node ht).mpr (.inl h))
      · exact .inl ((mem_hidden_node ht).mpr (.inr (.inl h)))
      · rw [if_pos ht] at mem
        obtain ⟨old, memOld, hold⟩ := List.mem_filterMap.mp mem
        obtain ⟨u, hu, rfl⟩ := Option.map_eq_some_iff.mp hold
        exact .inr ⟨old, by rwa [children_node ht], u, hu, hi⟩
    · have hsame : (node id shape tag snapshot slots).withSlots f =
          node id shape tag snapshot slots := by simp [withSlots, ht]
      exact .inl (hsame ▸ h)

end

section

variable {strides : List Stride} {x : Option Key → Value} {v : Value}

theorem reach_redactAlong (hx : ∀ l, (x l).kind.isTraversable = false) :
    (v.redactAlong strides x).reach.Sublist v.reach := by
  refine redactAlong_induction (fun y => y.kind.isTraversable = false)
    (fun v u => u.reach.Sublist v.reach) (fun v => List.Sublist.refl _) (fun v f h => ?_) hx
  refine reach_withSlots fun slot mem u hu => ?_
  rcases h slot mem u hu with hkept | ⟨y, kind, hy, hsettled⟩
  · exact hkept
  · rw [reach_of_not_traversable (isTraversable_settled hy hsettled)]
    exact List.nil_sublist _

theorem mem_hidden_redactAlong {i : Ident} (h : i ∈ (v.redactAlong strides x).hidden) :
    i ∈ v.hidden ∨ ∃ l, i ∈ (x l).ids := by
  revert h
  refine redactAlong_induction (fun y => ∃ l, y = x l)
    (fun v u => i ∈ u.hidden → i ∈ v.hidden ∨ ∃ l, i ∈ (x l).ids) (fun v => .inl)
    (fun v f h hi => ?_) fun l => ⟨l, rfl⟩
  rcases mem_hidden_withSlots hi with hi | ⟨slot, mem, u, hu, hi⟩
  · exact .inl hi
  · rcases h slot mem u hu with hkept | ⟨y, kind, ⟨l, rfl⟩, hsettled⟩
    · exact (hkept hi).imp_left fun hold => hidden_child mem hold
    · exact .inr ⟨l, settled_ids hsettled (hidden_subset_ids hi)⟩

theorem everywhere_redactAlong {p : Value → Bool} (hx : ∀ l, (x l).kind.isTraversable = false)
    (hp : ∀ v f, p v = true → p (v.withSlots f) = true) (hv : v.everywhere p = true) :
    (v.redactAlong strides x).everywhere p = true := by
  revert hv
  refine redactAlong_induction (fun y => y.kind.isTraversable = false)
    (fun v u => v.everywhere p = true → u.everywhere p = true) (fun v h => h)
    (fun v f h hv => ?_) hx
  refine everywhere_withSlots (hp v f) hv fun slot mem u hu => ?_
  rcases h slot mem u hu with hkept | ⟨y, kind, hy, hsettled⟩
  · exact hkept (everywhere_child hv mem)
  · exact everywhere_of_not_traversable (isTraversable_settled hy hsettled)

/-- Replacements that paths do not lead into leave an editable value editable. -/
theorem Editable.redactAlong (h : v.Editable) (hx : ∀ l, (x l).kind.isTraversable = false)
    (hfresh : ∀ l, ∀ id ∈ v.reach, id ∉ (x l).ids) : (v.redactAlong strides x).Editable := by
  have hsub : (v.redactAlong strides x).reach.Sublist v.reach := reach_redactAlong hx
  refine ⟨⟨h.nodup.sublist hsub, fun i hi hin => ?_, ?_⟩, ?_⟩
  · rcases mem_hidden_redactAlong hin with hin | ⟨l, hin⟩
    · exact h.apart i (hsub.subset hi) hin
    · exact hfresh l i (hsub.subset hi) hin
  · exact everywhere_redactAlong hx (fun v f => keysDiffer_withSlots) h.keyed
  · refine everywhere_redactAlong hx (fun v f hv => ?_) h.writable
    rw [kind_withSlots]
    exact hv

end

end Value

end Redaction
