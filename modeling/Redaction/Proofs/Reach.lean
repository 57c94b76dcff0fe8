import Mathlib
import Redaction.Value.Lookup

/-!
# Containers within reach

Paths lead to a container when it stands in a slot of a sequence, a tuple or a mapping that they
lead to. The other containers of a value are hidden: they are part of a tag or of a snapshot, or
they are a view or stand inside one. Copies share hidden containers with their source, so the two
are kept apart here. `Value.Admits` bounds what a value holds within reach and in all; walking and
writing keep such bounds.
-/

namespace Redaction.Value

mutual

/-- The identities of the containers that paths lead to. -/
def reach : Value → List Ident
  | scalar _ => []
  | node id shape _ _ slots => if shape.kind.isTraversable then id :: reachSlots slots else []

def reachSlots : List (Key × Value) → List Ident
  | [] => []
  | (_, v) :: rest => v.reach ++ reachSlots rest

end

mutual

/-- The identities of the containers that a value holds where no path leads. -/
def hidden : Value → List Ident
  | scalar _ => []
  | node id shape tag snapshot slots =>
    if shape.kind.isTraversable then idsOption tag ++ idsOption snapshot ++ hiddenSlots slots
    else id :: (idsOption tag ++ idsOption snapshot ++ idsSlots slots)

def hiddenSlots : List (Key × Value) → List Ident
  | [] => []
  | (_, v) :: rest => v.hidden ++ hiddenSlots rest

end

@[simp] theorem reachSlots_eq_flatMap (slots : List Slot) :
    reachSlots slots = slots.flatMap fun slot => slot.2.reach := by
  induction slots with
  | nil => rfl
  | cons slot rest ih => simp [reachSlots, ih]

@[simp] theorem hiddenSlots_eq_flatMap (slots : List Slot) :
    hiddenSlots slots = slots.flatMap fun slot => slot.2.hidden := by
  induction slots with
  | nil => rfl
  | cons slot rest ih => simp [hiddenSlots, ih]

theorem mem_idsOption {id : Ident} {o : Option Value} :
    id ∈ idsOption o ↔ ∃ v ∈ o, id ∈ v.ids := by
  cases o <;> simp [idsOption]

section

variable {id i : Ident} {shape : Shape} {tag snapshot : Option Value} {slots : List Slot}

theorem mem_ids_node : id ∈ (node i shape tag snapshot slots).ids ↔
    id = i ∨ (∃ v ∈ tag, id ∈ v.ids) ∨ (∃ v ∈ snapshot, id ∈ v.ids) ∨
      ∃ slot ∈ slots, id ∈ slot.2.ids := by
  simp only [ids, idsSlots_eq_flatMap, List.mem_cons, List.mem_append, List.mem_flatMap,
    mem_idsOption, or_assoc]

theorem mem_reach_node : id ∈ (node i shape tag snapshot slots).reach ↔
    shape.kind.isTraversable = true ∧ (id = i ∨ ∃ slot ∈ slots, id ∈ slot.2.reach) := by
  by_cases ht : shape.kind.isTraversable = true
  · simp only [reach, ht, if_true, reachSlots_eq_flatMap, List.mem_cons, List.mem_flatMap,
      true_and]
  · simp [reach, ht]

theorem mem_hidden_node (ht : shape.kind.isTraversable = true) :
    id ∈ (node i shape tag snapshot slots).hidden ↔
      (∃ v ∈ tag, id ∈ v.ids) ∨ (∃ v ∈ snapshot, id ∈ v.ids) ∨
        ∃ slot ∈ slots, id ∈ slot.2.hidden := by
  simp only [hidden, ht, if_true, hiddenSlots_eq_flatMap, List.mem_append, List.mem_flatMap,
    mem_idsOption, or_assoc]

theorem hidden_node_of_not_traversable (ht : shape.kind.isTraversable = false) :
    (node i shape tag snapshot slots).hidden = (node i shape tag snapshot slots).ids := by
  simp [hidden, ids, ht]

end

theorem isTraversable_scalar (s : Scalar) : (scalar s).kind.isTraversable = false := by
  cases s with
  | atom a =>
    simp only [kind]
    split <;> rfl
  | buffer bytes => rfl
  | set item => rfl
  | frozen item => rfl

theorem reach_of_not_traversable {v : Value} (h : v.kind.isTraversable = false) :
    v.reach = [] := by
  cases v with
  | scalar s => rfl
  | node id shape tag snapshot slots =>
    simp only [kind] at h
    simp [reach, h]

theorem mem_ids {id : Ident} {v : Value} : id ∈ v.ids ↔ id ∈ v.reach ∨ id ∈ v.hidden := by
  induction v using Value.induction with
  | scalar s => simp [ids, reach, hidden]
  | node i shape tag snapshot slots _ _ ihSlots =>
    by_cases ht : shape.kind.isTraversable = true
    · have hslots : (∃ slot ∈ slots, id ∈ slot.2.ids) ↔
          (∃ slot ∈ slots, id ∈ slot.2.reach) ∨ ∃ slot ∈ slots, id ∈ slot.2.hidden := by
        rw [← exists_or]
        refine exists_congr fun slot => ?_
        rw [← and_or_left]
        exact and_congr_right fun mem => ihSlots slot mem
      rw [mem_ids_node, mem_reach_node, mem_hidden_node ht, hslots]
      simp only [ht, true_and]
      grind
    · have ht : shape.kind.isTraversable = false := by simpa using ht
      rw [hidden_node_of_not_traversable ht, mem_reach_node]
      simp [ht]

theorem reach_subset_ids {v : Value} : v.reach ⊆ v.ids := fun _ h => mem_ids.mpr (.inl h)

theorem hidden_subset_ids {v : Value} : v.hidden ⊆ v.ids := fun _ h => mem_ids.mpr (.inr h)

@[simp] theorem children_scalar (s : Scalar) : (scalar s).children = [] := by
  simp [children, slots]

theorem children_node {id : Ident} {shape : Shape} {tag snapshot : Option Value}
    {slots : List Slot} (h : shape.kind.isTraversable = true) :
    (node id shape tag snapshot slots).children = slots := by
  simp [children, kind, h, Value.slots]

theorem children_of_not_traversable {v : Value} (h : v.kind.isTraversable = false) :
    v.children = [] := by
  simp [children, h]

theorem exists_node {v : Value} {slot : Slot} (h : slot ∈ v.children) :
    ∃ id shape tag snapshot slots, v = node id shape tag snapshot slots ∧
      shape.kind.isTraversable = true ∧ slot ∈ slots := by
  cases v with
  | scalar s => simp at h
  | node id shape tag snapshot slots =>
    by_cases ht : shape.kind.isTraversable = true
    · rw [children_node ht] at h
      exact ⟨id, shape, tag, snapshot, slots, rfl, ht, h⟩
    · rw [children_of_not_traversable (by simpa [kind] using ht)] at h
      simp at h

theorem get?_mem {k : Key} {slots : List Slot} {v : Value} (h : Slots.get? k slots = some v) :
    ∃ j, j.same k = true ∧ (j, v) ∈ slots := by
  induction slots with
  | nil => simp [Slots.get?] at h
  | cons slot rest ih =>
    obtain ⟨name, u⟩ := slot
    by_cases hk : name.same k = true
    · simp only [Slots.get?, hk, if_true, Option.some.injEq] at h
      exact ⟨name, hk, by simp [h]⟩
    · simp only [Slots.get?, hk] at h
      obtain ⟨j, hj, mem⟩ := ih h
      exact ⟨j, hj, List.mem_cons_of_mem _ mem⟩

theorem child_subset {v : Value} {slot : Slot} (h : slot ∈ v.children) :
    slot.2.reach ⊆ v.reach ∧ slot.2.ids ⊆ v.ids := by
  obtain ⟨id, shape, tag, snapshot, slots, rfl, ht, mem⟩ := exists_node h
  constructor
  · intro i hi
    exact mem_reach_node.mpr ⟨ht, .inr ⟨slot, mem, hi⟩⟩
  · intro i hi
    exact mem_ids_node.mpr (.inr (.inr (.inr ⟨slot, mem, hi⟩)))

theorem hidden_child {v : Value} {slot : Slot} (h : slot ∈ v.children) :
    slot.2.hidden ⊆ v.hidden := by
  obtain ⟨id, shape, tag, snapshot, slots, rfl, ht, mem⟩ := exists_node h
  exact fun i hi => (mem_hidden_node ht).mpr (.inr (.inr ⟨slot, mem, hi⟩))

theorem slot?_mem {v : Value} {segment : String} {k : Key} {child : Value}
    (h : v.slot? segment = .ok (some (k, child))) :
    ∃ j, j.same k = true ∧ (j, child) ∈ v.children := by
  unfold slot? at h
  split at h
  · rename_i found
    simp only [Except.ok.injEq, Option.some.injEq, Prod.mk.injEq] at h
    obtain ⟨rfl, rfl⟩ := h
    exact get?_mem found
  · split at h
    · cases hi : Path.index? segment with
      | error e => simp [hi, Except.map] at h
      | ok index =>
        cases index with
        | none => simp [hi, Except.map] at h
        | some i =>
          simp only [hi, Except.map, Option.bind_some, Except.ok.injEq, Option.map_eq_some_iff,
            Prod.mk.injEq] at h
          obtain ⟨u, found, rfl, rfl⟩ := h
          exact get?_mem found
    · simp at h

theorem walk_subset {v u : Value} {segments : List String} (h : v.walk segments = .ok (some u)) :
    u.reach ⊆ v.reach ∧ u.ids ⊆ v.ids := by
  induction segments generalizing v with
  | nil =>
    simp only [walk, Except.ok.injEq, Option.some.injEq] at h
    simp [h]
  | cons segment rest ih =>
    unfold walk at h
    split at h
    · simp at h
    · simp at h
    · rename_i k child found
      obtain ⟨j, _, mem⟩ := slot?_mem found
      have hc := child_subset mem
      have hu := ih h
      exact ⟨List.Subset.trans hu.1 hc.1, List.Subset.trans hu.2 hc.2⟩

theorem find?_eq_some {v u : Value} {segments : List String} :
    v.find? segments = .ok (some u) ↔ v.walk segments = .ok (some u) ∧ u.isMissing = false := by
  unfold find?
  cases h : v.walk segments with
  | error e => simp [Except.map]
  | ok found =>
    cases found with
    | none => simp [Except.map]
    | some x =>
      simp only [Except.map, Except.ok.injEq, Option.some.injEq]
      by_cases hx : x.isMissing = true
      · simp only [Option.filter, hx]
        constructor
        · simp
        · rintro ⟨rfl, h⟩
          simp [hx] at h
      · simp only [Option.filter, hx]
        constructor
        · intro h
          simp only [Bool.not_false, if_true, Option.some.injEq] at h
          subst h
          exact ⟨rfl, by simpa using hx⟩
        · rintro ⟨rfl, _⟩
          rfl

/-! ## Writes -/

theorem mem_put {k : Key} {v : Value} {slots : List Slot} {slot : Slot}
    (h : slot ∈ Slots.put k v slots) : slot.2 = v ∨ slot ∈ slots := by
  induction slots with
  | nil =>
    simp only [Slots.put, List.mem_singleton] at h
    exact .inl (by rw [h])
  | cons head rest ih =>
    obtain ⟨name, old⟩ := head
    by_cases hk : name.same k = true
    · simp only [Slots.put, hk, if_true, List.mem_cons] at h
      rcases h with rfl | h
      · exact .inl rfl
      · exact .inr (List.mem_cons_of_mem _ h)
    · simp only [Slots.put, hk, Bool.false_eq_true, if_false, List.mem_cons] at h
      rcases h with rfl | h
      · exact .inr List.mem_cons_self
      · exact (ih h).imp_right (List.mem_cons_of_mem _)

theorem erase_subset (k : Key) (slots : List Slot) : Slots.erase k slots ⊆ slots := by
  induction slots with
  | nil => simp [Slots.erase]
  | cons head rest ih =>
    obtain ⟨name, old⟩ := head
    by_cases hk : name.same k = true
    · simp [Slots.erase, hk]
    · simp only [Slots.erase, hk]
      exact List.cons_subset_cons _ ih

theorem mem_apply {w : Write} {slots : List Slot} {slot : Slot} (h : slot ∈ w.apply slots) :
    slot.2 ∈ w.content ∨ slot ∈ slots := by
  unfold Write.apply at h
  split at h
  · rename_i v hv
    exact (mem_put h).imp_left fun e => by simp [hv, e]
  · exact .inr (erase_subset _ _ h)

/-- A slot after a write holds what was written or what it held, after the write. -/
theorem mem_slots_after {w : Write} {id : Ident} {slots : List Slot} {slot : Slot}
    (h : slot ∈ if id = w.target then w.apply (afterSlots w slots) else afterSlots w slots) :
    slot.2 ∈ w.content ∨ ∃ old ∈ slots, slot = (old.1, old.2.after w) := by
  rw [afterSlots_eq_map] at h
  have old : slot ∈ slots.map (fun slot => (slot.1, slot.2.after w)) →
      ∃ old ∈ slots, slot = (old.1, old.2.after w) := fun h => by
    obtain ⟨old, mem, rfl⟩ := List.mem_map.mp h
    exact ⟨old, mem, rfl⟩
  split at h
  · exact (mem_apply h).imp_right old
  · exact .inr (old h)

theorem mem_afterOption {w : Write} {o : Option Value} {v : Value} :
    v ∈ afterOption w o ↔ ∃ u ∈ o, u.after w = v := by
  cases o <;> simp [afterOption]

/-- A write brings nothing within reach but what its content has within reach. -/
theorem mem_reach_after {w : Write} {v : Value} {id : Ident} (h : id ∈ (v.after w).reach) :
    id ∈ v.reach ∨ ∃ x ∈ w.content, id ∈ x.reach := by
  induction v using Value.induction with
  | scalar s => simp [after, reach] at h
  | node i shape tag snapshot slots _ _ ihSlots =>
    rw [after, mem_reach_node] at h
    obtain ⟨ht, rfl | ⟨slot, mem, hid⟩⟩ := h
    · exact .inl (mem_reach_node.mpr ⟨ht, .inl rfl⟩)
    · rcases mem_slots_after mem with hx | ⟨old, memOld, rfl⟩
      · exact .inr ⟨_, hx, hid⟩
      · refine (ihSlots old memOld hid).imp_left fun hold => ?_
        exact mem_reach_node.mpr ⟨ht, .inr ⟨old, memOld, hold⟩⟩

theorem mem_ids_after {w : Write} {v : Value} {id : Ident} (h : id ∈ (v.after w).ids) :
    id ∈ v.ids ∨ ∃ x ∈ w.content, id ∈ x.ids := by
  induction v using Value.induction with
  | scalar s => simp [after, ids] at h
  | node i shape tag snapshot slots ihTag ihSnapshot ihSlots =>
    rw [after, mem_ids_node] at h
    rcases h with rfl | ⟨u, mem, hid⟩ | ⟨u, mem, hid⟩ | ⟨slot, mem, hid⟩
    · exact .inl (mem_ids_node.mpr (.inl rfl))
    · obtain ⟨old, memOld, rfl⟩ := mem_afterOption.mp mem
      refine (ihTag old memOld hid).imp_left fun hold => ?_
      exact mem_ids_node.mpr (.inr (.inl ⟨old, memOld, hold⟩))
    · obtain ⟨old, memOld, rfl⟩ := mem_afterOption.mp mem
      refine (ihSnapshot old memOld hid).imp_left fun hold => ?_
      exact mem_ids_node.mpr (.inr (.inr (.inl ⟨old, memOld, hold⟩)))
    · rcases mem_slots_after mem with hx | ⟨old, memOld, rfl⟩
      · exact .inr ⟨_, hx, hid⟩
      · refine (ihSlots old memOld hid).imp_left fun hold => ?_
        exact mem_ids_node.mpr (.inr (.inr (.inr ⟨old, memOld, hold⟩)))

@[simp] theorem afterAll_nil (v : Value) : v.afterAll [] = v := rfl

@[simp] theorem afterAll_cons (w : Write) (ws : List Write) (v : Value) :
    v.afterAll (w :: ws) = (v.after w).afterAll ws := rfl

theorem afterAll_append (ws us : List Write) (v : Value) :
    v.afterAll (ws ++ us) = (v.afterAll ws).afterAll us := List.foldl_append

theorem afterAll_of_not_mem {ws : List Write} {v : Value} (h : ∀ w ∈ ws, w.target ∉ v.ids) :
    v.afterAll ws = v := by
  induction ws with
  | nil => rfl
  | cons w rest ih =>
    rw [afterAll_cons, after_of_not_mem w v (h w List.mem_cons_self)]
    exact ih fun w mem => h w (List.mem_cons_of_mem _ mem)

theorem writeTo_eq_some {v x : Value} {k : Key} {w : Write} (h : v.writeTo k x = some w) :
    ∃ shape tag snapshot slots, v = node w.target shape tag snapshot slots ∧
      shape.kind.isWritable = true ∧ w.key = k ∧ w.content = settled shape.kind x := by
  cases v with
  | scalar s => cases h
  | node id shape tag snapshot slots =>
    simp only [writeTo] at h
    split at h
    · rename_i hshape
      obtain rfl := Option.some.inj h
      exact ⟨shape, tag, snapshot, slots, rfl, hshape, rfl, rfl⟩
    · cases h

/-! ## Bounds on what a value holds -/

/-- Everything within reach satisfies `P`, and everything the value holds at all satisfies `Q`. -/
structure Admits (P Q : Ident → Prop) (v : Value) : Prop where
  reach : ∀ id ∈ v.reach, P id
  ids : ∀ id ∈ v.ids, Q id

namespace Admits

variable {P Q : Ident → Prop} {v : Value}

theorem scalar (s : Scalar) : (Value.scalar s).Admits P Q :=
  ⟨by simp [Value.reach], by simp [Value.ids]⟩

theorem child (h : v.Admits P Q) {slot : Slot} (mem : slot ∈ v.children) :
    slot.2.Admits P Q :=
  ⟨fun id hid => h.reach id ((child_subset mem).1 hid),
    fun id hid => h.ids id ((child_subset mem).2 hid)⟩

theorem walk (h : v.Admits P Q) {u : Value} {segments : List String}
    (hu : v.walk segments = .ok (some u)) : u.Admits P Q :=
  ⟨fun id hid => h.reach id ((walk_subset hu).1 hid),
    fun id hid => h.ids id ((walk_subset hu).2 hid)⟩

theorem after (h : v.Admits P Q) {w : Write} (hw : ∀ x ∈ w.content, x.Admits P Q) :
    (v.after w).Admits P Q := by
  constructor
  · intro id hid
    rcases mem_reach_after hid with hid | ⟨x, hx, hid⟩
    · exact h.reach id hid
    · exact (hw x hx).reach id hid
  · intro id hid
    rcases mem_ids_after hid with hid | ⟨x, hx, hid⟩
    · exact h.ids id hid
    · exact (hw x hx).ids id hid

theorem target (h : v.Admits P Q) {k : Key} {x : Value} {w : Write}
    (hw : v.writeTo k x = some w) : P w.target := by
  obtain ⟨shape, tag, snapshot, slots, rfl, hshape, _, _⟩ := writeTo_eq_some hw
  refine h.reach _ (mem_reach_node.mpr ⟨?_, .inl rfl⟩)
  cases hk : shape.kind <;> simp_all [Kind.isWritable, Kind.isTraversable]

end Admits

end Redaction.Value
