import Redaction.Proofs.Orderliness

/-!
# Slots that are there

A write meets a slot when its target is a container that paths lead to and has a slot of its key.
In an orderly value a container stays where it is when something is written into it or below it,
for it does not stand in what the write replaces. So the writes that overwrite one place all meet
slots, one after another, even where each of them deletes what it meets.

Main statement: `Value.Takes.meets`.
-/

namespace Redaction

namespace Slots

theorem get?_isSome_of_mem {slots : List Slot} {k : Key} (mem : k ∈ slots.map Prod.fst) :
    (get? k slots).isSome = true := by
  obtain ⟨slot, memSlot, rfl⟩ := List.mem_map.mp mem
  cases hget : get? slot.1 slots with
  | some u => rfl
  | none =>
    have := get?_eq_none.mp hget slot memSlot
    simp at this

theorem mem_apply_of_not_same {slots : List Slot} {slot : Slot} {w : Write} (mem : slot ∈ slots)
    (h : slot.1.same w.key = false) : slot ∈ w.apply slots := by
  unfold Write.apply
  split <;> induction slots with
  | nil => cases mem
  | cons first rest ih =>
    rcases List.mem_cons.mp mem with rfl | mem
    · simp [put, erase, h]
    · by_cases hfirst : first.1.same w.key = true
      · simp [put, erase, hfirst, mem]
      · simp [put, erase, hfirst, ih mem]

end Slots

namespace Value

section

variable {u v : Value} {w : Write} {ws us : List Write} {id : Ident} {keys : List Key}

/-! ## Containers under writes -/

/-- A container stays where it is when something is written into it or below it. -/
theorem after_mem_within (hv : v.isOrderly = true) (hu : u ∈ v.within) (hw : w.target ∈ u.reach) :
    u.after w ∈ (v.after w).within := by
  induction v using Value.induction with
  | scalar s =>
    obtain rfl : u = scalar s := by simpa [within] using hu
    exact self_mem_within _
  | node id shape tag snapshot slots _ _ ihSlots =>
    rcases mem_within_node.mp hu with rfl | ⟨ht, slot, mem, hslot⟩
    · exact self_mem_within _
    · obtain ⟨⟨hloop, _⟩, horderly⟩ := (isOrderly_node ht).mp hv
      -- the write is not made here, or the container would stand inside itself
      have hid : id ≠ w.target := fun hid =>
        hloop slot mem (reach_subset_of_mem_within hslot (hid ▸ hw))
      rw [after, if_neg hid, afterSlots_eq_map]
      exact mem_within_node.mpr (.inr ⟨ht, _, List.mem_map_of_mem mem,
        ihSlots slot mem (horderly slot mem) hslot⟩)

/-- Among the containers that paths lead to is one of this identity that can be written and has a
slot for each of the keys. -/
def Has (v : Value) (id : Ident) (keys : List Key) : Prop :=
  ∃ shape tag snapshot slots, node id shape tag snapshot slots ∈ v.within ∧
    shape.kind.isWritable = true ∧ ∀ k ∈ keys, (Slots.get? k slots).isSome = true

/-- The same, and these are the keys of the slots themselves. -/
def HasKeys (v : Value) (id : Ident) (keys : List Key) : Prop :=
  ∃ shape tag snapshot slots, node id shape tag snapshot slots ∈ v.within ∧
    shape.kind.isWritable = true ∧ ∀ k ∈ keys, k ∈ slots.map Prod.fst

inductive Meets : Value → List Write → Prop where
  | nil {v : Value} : Meets v []
  | cons {v : Value} {w : Write} {ws : List Write} (hw : v.Has w.target [w.key])
      (hws : Meets (v.after w) ws) : Meets v (w :: ws)

structure Takes (v : Value) (id : Ident) (ws : List Write) : Prop where
  target : ∀ w ∈ ws, w.target = id
  keys : ws.Pairwise fun a b => a.key.same b.key = false
  slots : v.Has id (ws.map Write.key)

theorem Meets.append (h : v.Meets ws) (hus : (v.afterAll ws).Meets us) : v.Meets (ws ++ us) := by
  induction h with
  | nil => exact hus
  | cons hw _ ih => exact .cons hw (ih hus)

theorem Has.mono {others : List Key} (h : v.Has id keys) (hkeys : ∀ k ∈ others, k ∈ keys) :
    v.Has id others := by
  obtain ⟨shape, tag, snapshot, slots, mem, hw, hget⟩ := h
  exact ⟨shape, tag, snapshot, slots, mem, hw, fun k hk => hget k (hkeys k hk)⟩

theorem HasKeys.has (h : v.HasKeys id keys) : v.Has id keys := by
  obtain ⟨shape, tag, snapshot, slots, mem, hw, hkeys⟩ := h
  exact ⟨shape, tag, snapshot, slots, mem, hw, fun k hk => Slots.get?_isSome_of_mem (hkeys k hk)⟩

theorem HasKeys.mono {others : List Key} (h : v.HasKeys id keys) (hkeys : ∀ k ∈ others, k ∈ keys) :
    v.HasKeys id others := by
  obtain ⟨shape, tag, snapshot, slots, mem, hw, hown⟩ := h
  exact ⟨shape, tag, snapshot, slots, mem, hw, fun k hk => hown k (hkeys k hk)⟩

theorem Has.takes (h : v.Has id keys) (hkeys : keys.Pairwise fun a b => a.same b = false)
    (content : Option Value) : v.Takes id (keys.map fun k => ⟨id, k, content⟩) := by
  refine ⟨by simp, List.pairwise_map.mpr hkeys, h.mono fun k mem => ?_⟩
  simpa using mem

theorem Has.after (hv : v.isOrderly = true) (h : v.Has w.target keys)
    (hkeys : ∀ k ∈ keys, w.key.same k = false) : (v.after w).Has w.target keys := by
  obtain ⟨shape, tag, snapshot, slots, mem, hw, hget⟩ := h
  have hreach : w.target ∈ (node w.target shape tag snapshot slots).reach :=
    mem_reach_node.mpr ⟨isTraversable_of_isWritable hw, .inl rfl⟩
  have hafter := after_mem_within hv mem hreach
  rw [Value.after, if_pos rfl, afterSlots_eq_map] at hafter
  refine ⟨shape, _, _, _, hafter, hw, fun k hk => ?_⟩
  rw [Slots.get?_apply (hkeys k hk), Slots.get?_map, Option.isSome_map]
  exact hget k hk

theorem HasKeys.after (hv : v.isOrderly = true) (h : v.HasKeys w.target keys)
    (hkeys : ∀ k ∈ keys, w.key.same k = false) : (v.after w).HasKeys w.target keys := by
  obtain ⟨shape, tag, snapshot, slots, mem, hw, hown⟩ := h
  have hreach : w.target ∈ (node w.target shape tag snapshot slots).reach :=
    mem_reach_node.mpr ⟨isTraversable_of_isWritable hw, .inl rfl⟩
  have hafter := after_mem_within hv mem hreach
  rw [Value.after, if_pos rfl, afterSlots_eq_map] at hafter
  refine ⟨shape, _, _, _, hafter, hw, fun k hk => ?_⟩
  obtain ⟨slot, memSlot, rfl⟩ := List.mem_map.mp (hown k hk)
  have hother : slot.1.same w.key = false := Key.same_comm w.key slot.1 ▸ hkeys slot.1 hk
  exact List.mem_map.mpr ⟨_, Slots.mem_apply_of_not_same (List.mem_map_of_mem memSlot) hother, rfl⟩

theorem Takes.after (hv : v.isOrderly = true) (h : v.Takes id (w :: ws)) :
    (v.after w).Takes id ws := by
  obtain ⟨hfirst, hrest⟩ := List.pairwise_cons.mp h.keys
  obtain rfl := h.target w List.mem_cons_self
  refine ⟨fun u mem => h.target u (List.mem_cons_of_mem _ mem), hrest, ?_⟩
  refine Has.after hv (h.slots.mono fun k mem => List.mem_cons_of_mem _ mem) fun k mem => ?_
  obtain ⟨u, memRest, rfl⟩ := List.mem_map.mp mem
  exact hfirst u memRest

theorem Takes.meets (hv : v.isOrderly = true) (hkeeps : v.keepsOrder ws = true)
    (h : v.Takes id ws) : v.Meets ws := by
  induction ws generalizing v with
  | nil => exact .nil
  | cons w rest ih =>
    obtain ⟨hstep, hrest⟩ := keepsOrder_cons.mp hkeeps
    refine .cons ?_ (ih (hstep hv) hrest (h.after hv))
    rw [h.target w List.mem_cons_self]
    exact h.slots.mono fun k mem => by simp [List.mem_singleton.mp mem]

end

/-! ## The writes that overwrite a place -/

section

variable {root v x : Value} {ws : List Write} {last : String}

theorem writeTo_node {id : Ident} {shape : Shape} {tag snapshot : Option Value} {slots : List Slot}
    (hw : shape.kind.isWritable = true) (k : Key) (x : Value) :
    (node id shape tag snapshot slots).writeTo k x = some ⟨id, k, settled shape.kind x⟩ :=
  if_pos hw

theorem exists_node_of_isWritable (h : v.kind.isWritable = true) :
    ∃ id shape tag snapshot slots, v = node id shape tag snapshot slots ∧
      shape.kind.isWritable = true := by
  cases v with
  | scalar s =>
    have ht := isTraversable_of_isWritable h
    rw [isTraversable_scalar] at ht
    cases ht
  | node id shape tag snapshot slots => exact ⟨id, shape, tag, snapshot, slots, rfl, h⟩

end

end Value

end Redaction
