import Redaction.Proofs.TreeWrites

/-!
# Unshared containers

The containers of a value that can be written, each noted for every place where it stands. Where
none stands in two places, a write changes one slot of the whole value and no other, and storing
what is new keeps it so. Tuples may stand in several places, and so may anything that paths do not
lead to, as long as no container that can be written is among it.

Main statements: `Value.Unshared.after` and `Value.unchangedOff_afterAll`.
-/

namespace Redaction

namespace Value

mutual

/-- The identities of the containers that can be written, one for each place where paths lead to
them. -/
def mutables : Value → List Ident
  | scalar _ => []
  | node id shape _ _ slots =>
    (if shape.kind.isWritable then [id] else []) ++
      if shape.kind.isTraversable then mutablesSlots slots else []

/-- The identities of the containers that can be written, in slots. -/
def mutablesSlots : List (Key × Value) → List Ident
  | [] => []
  | (_, v) :: rest => v.mutables ++ mutablesSlots rest

end

mutual

/-- The identities at all other places: of tuples, and of all that no path leads to. -/
def fixed : Value → List Ident
  | scalar _ => []
  | node id shape tag snapshot slots =>
    if shape.kind.isTraversable then
      (if shape.kind.isWritable then [] else [id]) ++
        (idsOption tag ++ idsOption snapshot ++ fixedSlots slots)
    else id :: (idsOption tag ++ idsOption snapshot ++ idsSlots slots)

/-- The identities at all other places, in slots. -/
def fixedSlots : List (Key × Value) → List Ident
  | [] => []
  | (_, v) :: rest => v.fixed ++ fixedSlots rest

end

/-- Each container that can be written stands in one place. -/
structure Unshared (v : Value) : Prop where
  nodup : v.mutables.Nodup
  apart : ∀ id ∈ v.mutables, id ∉ v.fixed

@[simp] theorem mutablesSlots_eq_flatMap (slots : List Slot) :
    mutablesSlots slots = slots.flatMap fun slot => slot.2.mutables := by
  induction slots with
  | nil => rfl
  | cons slot rest ih => simp [mutablesSlots, ih]

@[simp] theorem fixedSlots_eq_flatMap (slots : List Slot) :
    fixedSlots slots = slots.flatMap fun slot => slot.2.fixed := by
  induction slots with
  | nil => rfl
  | cons slot rest ih => simp [fixedSlots, ih]

section

variable {id i : Ident} {shape : Shape} {tag snapshot : Option Value} {slots : List Slot}
  {u v w : Value} {slot : Slot} {position other : List Key}

theorem mem_mutables_node : id ∈ (node i shape tag snapshot slots).mutables ↔
    shape.kind.isWritable = true ∧ id = i ∨
      shape.kind.isTraversable = true ∧ ∃ slot ∈ slots, id ∈ slot.2.mutables := by
  by_cases hw : shape.kind.isWritable = true <;> by_cases ht : shape.kind.isTraversable = true <;>
    simp [mutables, hw, ht]

theorem mem_fixed_node (ht : shape.kind.isTraversable = true) :
    id ∈ (node i shape tag snapshot slots).fixed ↔
      shape.kind.isWritable = false ∧ id = i ∨ id ∈ idsOption tag ∨ id ∈ idsOption snapshot ∨
        ∃ slot ∈ slots, id ∈ slot.2.fixed := by
  by_cases hw : shape.kind.isWritable = true <;> simp [fixed, hw, ht]

theorem fixed_of_not_traversable (h : v.kind.isTraversable = false) : v.fixed = v.ids := by
  cases v with
  | scalar s => rfl
  | node id shape tag snapshot slots =>
    simp only [kind] at h
    simp [fixed, ids, h]

theorem mutables_of_not_traversable (h : v.kind.isTraversable = false) : v.mutables = [] := by
  cases v with
  | scalar s => rfl
  | node id shape tag snapshot slots =>
    have hw : ¬shape.kind.isWritable = true := fun hw => by
      simp [kind, isTraversable_of_isWritable hw] at h
    simp only [kind] at h
    simp [mutables, h, hw]

theorem mutables_subset_reach : v.mutables ⊆ v.reach := by
  induction v using Value.induction with
  | scalar s => simp [mutables]
  | node i shape tag snapshot slots _ _ ihSlots =>
    intro id hid
    rcases mem_mutables_node.mp hid with ⟨hw, rfl⟩ | ⟨ht, slot, mem, hid⟩
    · exact mem_reach_node.mpr ⟨isTraversable_of_isWritable hw, .inl rfl⟩
    · exact mem_reach_node.mpr ⟨ht, .inr ⟨slot, mem, ihSlots slot mem hid⟩⟩

theorem mem_ids_iff : id ∈ v.ids ↔ id ∈ v.mutables ∨ id ∈ v.fixed := by
  induction v using Value.induction with
  | scalar s => simp [ids, mutables, fixed]
  | node i shape tag snapshot slots _ _ ihSlots =>
    by_cases ht : shape.kind.isTraversable = true
    · have hslots : (∃ slot ∈ slots, id ∈ slot.2.ids) ↔
          (∃ slot ∈ slots, id ∈ slot.2.mutables) ∨ ∃ slot ∈ slots, id ∈ slot.2.fixed := by
        rw [← exists_or]
        refine exists_congr fun slot => ?_
        rw [← and_or_left]
        exact and_congr_right fun mem => ihSlots slot mem
      rw [mem_ids_node, mem_mutables_node, mem_fixed_node ht, hslots, ← mem_idsOption,
        ← mem_idsOption]
      cases hw : shape.kind.isWritable <;> simp only [ht, true_and, false_and, reduceCtorEq] <;>
        grind
    · have ht : (node i shape tag snapshot slots).kind.isTraversable = false := by
        simpa [kind] using ht
      rw [fixed_of_not_traversable ht, mutables_of_not_traversable ht]
      simp

theorem mutables_subset_ids : v.mutables ⊆ v.ids := fun _ h => mem_ids_iff.mpr (.inl h)

theorem fixed_subset_ids : v.fixed ⊆ v.ids := fun _ h => mem_ids_iff.mpr (.inr h)

theorem mutables_child (mem : slot ∈ v.children) : slot.2.mutables ⊆ v.mutables := by
  obtain ⟨i, shape, tag, snapshot, slots, rfl, ht, mem⟩ := exists_node mem
  exact fun id hid => mem_mutables_node.mpr (.inr ⟨ht, slot, mem, hid⟩)

theorem fixed_child (mem : slot ∈ v.children) : slot.2.fixed ⊆ v.fixed := by
  obtain ⟨i, shape, tag, snapshot, slots, rfl, ht, mem⟩ := exists_node mem
  exact fun id hid => (mem_fixed_node ht).mpr (.inr (.inr (.inr ⟨slot, mem, hid⟩)))

theorem mem_mutables_of_ident? (hw : v.kind.isWritable = true) (h : v.ident? = some id) :
    id ∈ v.mutables := by
  cases v with
  | scalar s => cases h
  | node i shape tag snapshot slots =>
    obtain rfl := Option.some.inj h
    exact mem_mutables_node.mpr (.inl ⟨hw, rfl⟩)

theorem mem_fixed_of_ident? (hw : v.kind.isWritable = false) (h : v.ident? = some id) :
    id ∈ v.fixed := by
  cases v with
  | scalar s => cases h
  | node i shape tag snapshot slots =>
    obtain rfl := Option.some.inj h
    by_cases ht : shape.kind.isTraversable = true
    · exact (mem_fixed_node ht).mpr (.inl ⟨hw, rfl⟩)
    · rw [fixed_of_not_traversable (by simpa [kind] using ht)]
      exact mem_ids_node.mpr (.inl rfl)

theorem fixed_at? (h : v.at? position = some u) : u.fixed ⊆ v.fixed := by
  induction position generalizing v with
  | nil =>
    obtain rfl := Option.some.inj h
    exact List.Subset.refl _
  | cons k rest ih =>
    obtain ⟨j, child, _, mem, hbelow⟩ := exists_child h
    exact List.Subset.trans (ih hbelow) (fixed_child mem)

theorem mutables_at? (h : v.at? position = some u) : u.mutables ⊆ v.mutables := by
  induction position generalizing v with
  | nil =>
    obtain rfl := Option.some.inj h
    exact List.Subset.refl _
  | cons k rest ih =>
    obtain ⟨j, child, _, mem, hbelow⟩ := exists_child h
    exact List.Subset.trans (ih hbelow) (mutables_child mem)

/-! ## Places -/

theorem Unshared.child (h : v.Unshared) (mem : slot ∈ v.children) : slot.2.Unshared := by
  refine ⟨?_, fun i hi hin => h.apart i (mutables_child mem hi) (fixed_child mem hin)⟩
  obtain ⟨i, shape, tag, snapshot, slots, rfl, ht, mem⟩ := exists_node mem
  have hnodup := h.nodup
  simp only [mutables, ht, if_true, mutablesSlots_eq_flatMap] at hnodup
  exact (List.nodup_flatMap.mp (List.Nodup.of_append_right hnodup)).1 slot mem

theorem Unshared.slots_apart (h : v.Unshared) : v.children.Pairwise fun a b =>
    (∀ i ∈ a.2.mutables, i ∉ b.2.ids) ∧ ∀ i ∈ b.2.mutables, i ∉ a.2.ids := by
  have hdisjoint : v.children.Pairwise fun a b => List.Disjoint a.2.mutables b.2.mutables := by
    have hnodup := h.nodup
    cases v with
    | scalar s => simp
    | node i shape tag snapshot slots =>
      by_cases ht : shape.kind.isTraversable = true
      · simp only [mutables, ht, if_true, mutablesSlots_eq_flatMap] at hnodup
        rw [children_node ht]
        exact (List.nodup_flatMap.mp (List.Nodup.of_append_right hnodup)).2
      · rw [children_of_not_traversable (by simpa [kind] using ht)]
        exact .nil
  refine hdisjoint.imp_of_mem fun {a b} ha hb hab => ⟨fun i hi hin => ?_, fun i hi hin => ?_⟩
  · rcases mem_ids_iff.mp hin with hin | hin
    · exact hab hi hin
    · exact h.apart i (mutables_child ha hi) (fixed_child hb hin)
  · rcases mem_ids_iff.mp hin with hin | hin
    · exact hab hin hi
    · exact h.apart i (mutables_child hb hi) (fixed_child ha hin)

theorem Unshared.eq_of_mem (h : v.Unshared) {a b : Slot} (ha : a ∈ v.children)
    (hb : b ∈ v.children) (hida : id ∈ a.2.ids) (hidb : id ∈ b.2.mutables) : a = b := by
  have hsymm : Std.Symm fun a b : Slot =>
      (∀ i ∈ a.2.mutables, i ∉ b.2.ids) ∧ ∀ i ∈ b.2.mutables, i ∉ a.2.ids :=
    ⟨fun _ _ hapart => hapart.symm⟩
  by_contra hne
  exact (h.slots_apart.forall hb ha (Ne.symm hne)).1 id hidb hida

theorem Unshared.ident_not_mem (h : v.Unshared) (hid : id ∈ v.mutables) (hv : v.ident? = some id)
    (mem : slot ∈ v.children) : id ∉ slot.2.ids := by
  intro hin
  have hnodup := h.nodup
  obtain ⟨i, shape, tag, snapshot, slots, rfl, ht, memSlots⟩ := exists_node mem
  obtain rfl := Option.some.inj hv
  have hw : shape.kind.isWritable = true := by
    by_contra hw
    exact h.apart i hid (mem_fixed_of_ident? (by simpa [kind] using hw) rfl)
  simp only [mutables, hw, ht, if_true, List.singleton_append, List.nodup_cons,
    mutablesSlots_eq_flatMap] at hnodup
  rcases mem_ids_iff.mp hin with hin | hin
  · exact hnodup.1 (List.mem_flatMap.mpr ⟨slot, memSlots, hin⟩)
  · exact h.apart i hid (fixed_child mem hin)

theorem Unshared.same_position (h : v.Unshared) (hid : id ∈ v.mutables)
    (hu : v.at? position = some u) (hw : v.at? other = some w) (hidu : u.ident? = some id)
    (hidw : w.ident? = some id) : Same position other := by
  have hmutable : ∀ {x : Value} {p : List Key}, v.at? p = some x → x.ident? = some id →
      x.kind.isWritable = true := by
    intro x p hx hidx
    by_contra hkind
    exact h.apart id hid (fixed_at? hx (mem_fixed_of_ident? (by simpa using hkind) hidx))
  have hu' := hmutable hu hidu
  have hw' := hmutable hw hidw
  clear hmutable
  induction position generalizing v other with
  | nil =>
    obtain rfl := Option.some.inj hu
    cases other with
    | nil => exact .nil
    | cons k rest =>
      obtain ⟨j, child, _, mem, hbelow⟩ := exists_child hw
      exact absurd ((at?_subset hbelow).2 (mem_ids_of_ident? hidw)) (h.ident_not_mem hid hidu mem)
  | cons k rest ih =>
    obtain ⟨j, child, hj, mem, hbelow⟩ := exists_child hu
    have hin := mutables_at? hbelow (mem_mutables_of_ident? hu' hidu)
    cases other with
    | nil =>
      obtain rfl := Option.some.inj hw
      exact absurd (mutables_subset_ids hin) (h.ident_not_mem hid hidw mem)
    | cons k' rest' =>
      obtain ⟨j', child', hj', mem', hbelow'⟩ := exists_child hw
      have hin' := (at?_subset hbelow').2 (mem_ids_of_ident? hidw)
      obtain ⟨rfl, rfl⟩ := Prod.mk.inj (h.eq_of_mem mem' mem hin' hin)
      have hkey := Key.same_trans (Key.same_comm j' k ▸ hj) hj'
      exact .cons hkey (ih (h.child mem) hin hbelow hbelow')

end

/-! ## Writes -/

section

variable {id : Ident} {v : Value} {w : Write} {ws : List Write} {k : Key} {slots : List Slot}

theorem count_put (x : Value) : (mutablesSlots (Slots.put k x slots)).count id ≤
    (mutablesSlots slots).count id + x.mutables.count id := by
  induction slots with
  | nil => simp [Slots.put]
  | cons slot rest ih =>
    obtain ⟨name, old⟩ := slot
    by_cases hk : name.same k = true
    · simp only [Slots.put, hk, if_true, mutablesSlots, List.count_append]
      lia
    · simp only [Slots.put, hk, mutablesSlots, List.count_append, Bool.false_eq_true, if_false]
      lia

theorem count_erase : (mutablesSlots (Slots.erase k slots)).count id ≤
    (mutablesSlots slots).count id := by
  induction slots with
  | nil => simp [Slots.erase]
  | cons slot rest ih =>
    obtain ⟨name, old⟩ := slot
    by_cases hk : name.same k = true
    · simp only [Slots.erase, hk, if_true, mutablesSlots, List.count_append]
      lia
    · simp only [Slots.erase, hk, mutablesSlots, List.count_append, Bool.false_eq_true, if_false]
      lia

theorem count_apply : (mutablesSlots (w.apply slots)).count id ≤
    (mutablesSlots slots).count id + (w.content.elim [] mutables).count id := by
  unfold Write.apply
  cases w.content with
  | none => simpa using count_erase
  | some x => exact count_put x

/-- Containers that can be written come to stand in no other places than they did, but for those in
what is stored, which come to stand wherever the container does that is written. -/
theorem count_mutables_after (hw : w.target ∉ v.fixed) : (v.after w).mutables.count id ≤
    v.mutables.count id +
      v.mutables.count w.target * (w.content.elim [] mutables).count id := by
  induction v using Value.induction with
  | scalar s => simp [after, mutables]
  | node i shape tag snapshot slots _ _ ihSlots =>
    by_cases ht : shape.kind.isTraversable = true
    swap
    · rw [mutables_of_not_traversable (by simpa [after, kind] using ht)]
      simp
    have hfixed : ∀ slot ∈ slots, w.target ∉ slot.2.fixed := fun slot mem hin =>
      hw ((mem_fixed_node ht).mpr (.inr (.inr (.inr ⟨slot, mem, hin⟩))))
    have hslots : (mutablesSlots (afterSlots w slots)).count id ≤ (mutablesSlots slots).count id +
        (mutablesSlots slots).count w.target * (w.content.elim [] mutables).count id := by
      clear hw
      induction slots with
      | nil => simp [afterSlots, mutablesSlots]
      | cons slot rest ih =>
        obtain ⟨k, u⟩ := slot
        have hhead := ihSlots (k, u) List.mem_cons_self (hfixed _ List.mem_cons_self)
        have hrest := ih (fun slot mem => ihSlots slot (List.mem_cons_of_mem _ mem))
          fun slot mem => hfixed slot (List.mem_cons_of_mem _ mem)
        simp only [afterSlots, mutablesSlots, List.count_append, Nat.add_mul] at hhead hrest ⊢
        lia
    simp only [after, mutables, ht, if_true, List.count_append, Nat.add_mul]
    by_cases hid : i = w.target
    · -- the container is written itself, so it stands here as one that can be written
      have hwritable : shape.kind.isWritable = true := by
        by_contra hkind
        exact hw ((mem_fixed_node ht).mpr (.inl ⟨by simpa using hkind, hid.symm⟩))
      have happly := @count_apply id w (afterSlots w slots)
      simp only [hwritable, if_true, hid, List.count_singleton_self, Nat.one_mul]
      lia
    · simp only [hid, if_false]
      lia

theorem mem_mutables_after (hw : w.target ∉ v.fixed) (h : id ∈ (v.after w).mutables) :
    id ∈ v.mutables ∨ ∃ x ∈ w.content, id ∈ x.mutables := by
  have hcount := @count_mutables_after id v w hw
  have hpos := List.count_pos_iff.mpr h
  by_cases hv : id ∈ v.mutables
  · exact .inl hv
  · rw [List.count_eq_zero_of_not_mem hv] at hcount
    have hx : id ∈ w.content.elim [] mutables := by
      by_contra hx
      rw [List.count_eq_zero_of_not_mem hx] at hcount
      lia
    cases hcontent : w.content with
    | none => simp [hcontent] at hx
    | some x => exact .inr ⟨x, rfl, by simpa [hcontent] using hx⟩

theorem mem_fixed_after (hw : w.target ∉ v.fixed) (h : id ∈ (v.after w).fixed) :
    id ∈ v.fixed ∨ ∃ x ∈ w.content, id ∈ x.fixed := by
  induction v using Value.induction with
  | scalar s => simp [after, fixed] at h
  | node i shape tag snapshot slots _ _ ihSlots =>
    by_cases ht : shape.kind.isTraversable = true
    swap
    · have ht : (node i shape tag snapshot slots).kind.isTraversable = false := by
        simpa [kind] using ht
      rw [fixed_of_not_traversable ht] at hw
      rw [after_of_not_mem w _ hw] at h
      exact .inl h
    have hoption : ∀ {o : Option Value}, w.target ∉ idsOption o → afterOption w o = o :=
      afterOption_of_not_mem
    rw [mem_fixed_node ht, not_or, not_or, not_or] at hw
    obtain ⟨_, htag, hsnapshot, hslots⟩ := hw
    rw [after, hoption htag, hoption hsnapshot] at h
    rcases (mem_fixed_node ht).mp h with hself | hin | hin | ⟨slot, mem, hin⟩
    · exact .inl ((mem_fixed_node ht).mpr (.inl hself))
    · exact .inl ((mem_fixed_node ht).mpr (.inr (.inl hin)))
    · exact .inl ((mem_fixed_node ht).mpr (.inr (.inr (.inl hin))))
    · rcases mem_slots_after mem with hx | ⟨old, memOld, rfl⟩
      · exact .inr ⟨_, hx, hin⟩
      · refine (ihSlots old memOld (fun hold => hslots ⟨old, memOld, hold⟩) hin).imp_left
          fun hold => ?_
        exact (mem_fixed_node ht).mpr (.inr (.inr (.inr ⟨old, memOld, hold⟩)))

/-- Storing what is new keeps every container that can be written in one place. -/
theorem Unshared.after (h : v.Unshared) (hw : w.target ∉ v.fixed)
    (hx : ∀ x ∈ w.content, x.Unshared ∧ (∀ id ∈ x.mutables, id ∉ v.ids) ∧
      ∀ id ∈ x.fixed, id ∉ v.mutables) : (v.after w).Unshared := by
  constructor
  · refine List.nodup_iff_count_le_one.mpr fun id => ?_
    have hcount := @count_mutables_after id v w hw
    have hold := List.nodup_iff_count_le_one.mp h.nodup
    cases hcontent : w.content with
    | none =>
      simp only [hcontent, Option.elim_none, List.count_nil, Nat.mul_zero] at hcount
      exact le_trans hcount (hold id)
    | some x =>
      obtain ⟨hunshared, hnew, _⟩ := hx x hcontent
      simp only [hcontent, Option.elim_some] at hcount
      by_cases hid : id ∈ x.mutables
      · have hnone : v.mutables.count id = 0 :=
          List.count_eq_zero_of_not_mem fun hin => hnew id hid (mutables_subset_ids hin)
        have honce := Nat.mul_le_mul (hold w.target)
          (List.nodup_iff_count_le_one.mp hunshared.nodup id)
        lia
      · rw [List.count_eq_zero_of_not_mem hid, Nat.mul_zero] at hcount
        exact le_trans hcount (hold id)
  · intro id hid hin
    rcases mem_mutables_after hw hid with hid | ⟨x, hcontent, hid⟩ <;>
      rcases mem_fixed_after hw hin with hin | ⟨y, hcontent', hin⟩
    · exact h.apart id hid hin
    · exact (hx y hcontent').2.2 id hin hid
    · exact (hx x hcontent).2.1 id hid (fixed_subset_ids hin)
    · obtain rfl := Option.some.inj (hcontent.symm.trans hcontent')
      exact (hx x hcontent).1.apart id hid hin

theorem isWellKeyed_after (hv : v.isWellKeyed = true) (hx : ∀ x ∈ w.content, x.isWellKeyed = true) :
    (v.after w).isWellKeyed = true := by
  induction v using Value.induction with
  | scalar s => rfl
  | node id shape tag snapshot slots _ _ ihSlots =>
    by_cases ht : shape.kind.isTraversable = true
    swap
    · exact everywhere_of_not_traversable (by simpa [after, kind] using ht)
    obtain ⟨hdistinct, hbelow⟩ := (everywhere_node ht).mp hv
    have hmap : Slots.Distinct (afterSlots w slots) := by
      rw [afterSlots_eq_map]
      exact List.pairwise_map.mpr (keysDiffer_iff.mp hdistinct)
    rw [after, isWellKeyed, everywhere_node ht, keysDiffer_iff]
    refine ⟨?_, fun slot mem => ?_⟩
    · simp only [Value.slots]
      split
      · exact hmap.apply w
      · exact hmap
    · rcases mem_slots_after mem with hcontent | ⟨old, memOld, rfl⟩
      · exact hx _ hcontent
      · exact ihSlots old memOld (hbelow old memOld)

theorem isWellKeyed_afterAll {ws : List Write} (hv : v.isWellKeyed = true)
    (hws : ∀ w ∈ ws, ∀ x ∈ w.content, x.isWellKeyed = true) :
    (v.afterAll ws).isWellKeyed = true := by
  induction ws generalizing v with
  | nil => exact hv
  | cons w rest ih =>
    exact ih (isWellKeyed_after hv (hws w List.mem_cons_self))
      fun u mem => hws u (List.mem_cons_of_mem _ mem)

end

/-! ## Slots that a write leaves alone -/

/-- The value without its slots: which container or scalar it is. -/
def shell : Value → Value
  | scalar s => scalar s
  | node id shape tag snapshot _ => node id shape tag snapshot []

/-- Where no chosen position leads to or through, the same container or scalar stands in both
values, or nothing does. -/
def UnchangedOff (chosen : List Key → Prop) (v v' : Value) : Prop :=
  ∀ position, (∀ place, place ≠ [] → place <+: position → ¬chosen place) →
    (v'.at? position).map shell = (v.at? position).map shell

section

variable {u v : Value} {w : Write} {ws : List Write} {k : Key} {position : List Key}
  {chosen : List Key → Prop}

theorem UnchangedOff.refl (v : Value) : UnchangedOff chosen v v := fun _ _ => rfl

theorem UnchangedOff.bind_ident? {v' : Value} (h : UnchangedOff chosen v v') (position : List Key)
    (hposition : ∀ place ∈ position.inits, place ≠ [] → ¬chosen place) :
    (v'.at? position).bind ident? = (v.at? position).bind ident? := by
  have hshell : ∀ o : Option Value, (o.map shell).bind ident? = o.bind ident? := by
    rintro (_ | _ | _) <;> rfl
  have hplace := h position fun place hne hpre =>
    hposition place ((List.mem_inits _ _).mpr hpre) hne
  rw [← hshell, hplace, hshell]

theorem ident?_after : (v.after w).ident? = v.ident? := by
  cases v <;> rfl

theorem children_after : (v.after w).children =
    if v.ident? = some w.target then
      (if v.kind.isTraversable then w.apply (v.children.map fun slot => (slot.1, slot.2.after w))
        else [])
    else v.children.map fun slot => (slot.1, slot.2.after w) := by
  cases v with
  | scalar s => simp [after, ident?]
  | node i shape tag snapshot slots =>
    by_cases ht : shape.kind.isTraversable = true
    · simp only [after, children_node ht, kind, ht, ident?, afterSlots_eq_map, if_true,
        Option.some.injEq]
    · simp [after, children, kind, ht]

theorem get?_children_after (h : v.ident? = some w.target → w.key.same k = false) :
    Slots.get? k (v.after w).children = (Slots.get? k v.children).map fun u => u.after w := by
  rw [children_after]
  by_cases hid : v.ident? = some w.target
  · rw [if_pos hid]
    by_cases ht : v.kind.isTraversable = true
    · rw [if_pos ht, Slots.get?_apply (h hid), Slots.get?_map]
    · rw [if_neg ht, children_of_not_traversable (by simpa using ht)]
      rfl
  · rw [if_neg hid, Slots.get?_map]

theorem get?_children_after_cases (hkeys : Slots.Distinct v.children)
    (h : Slots.get? k (v.after w).children = some u) :
    u ∈ w.content ∨ ∃ old, Slots.get? k v.children = some old ∧ u = old.after w := by
  obtain ⟨j, hj, mem⟩ := get?_mem h
  have hold : (j, u) ∈ v.children.map (fun slot => (slot.1, slot.2.after w)) →
      ∃ old, Slots.get? k v.children = some old ∧ u = old.after w := by
    intro mem
    obtain ⟨⟨i, old⟩, memOld, heq⟩ := List.mem_map.mp mem
    obtain ⟨rfl, rfl⟩ := Prod.mk.inj heq
    exact ⟨old, Slots.get?_of_mem hkeys memOld hj, rfl⟩
  rw [children_after] at mem
  split at mem
  · split at mem
    · exact (mem_apply mem).imp_right hold
    · cases mem
  · exact .inr (hold mem)

theorem shell_after (hw : w.target ∉ v.fixed) : (v.after w).shell = v.shell := by
  cases v with
  | scalar s => rfl
  | node i shape tag snapshot slots =>
    have hoptions : w.target ∉ idsOption tag ∧ w.target ∉ idsOption snapshot := by
      by_cases ht : shape.kind.isTraversable = true
      · rw [mem_fixed_node ht] at hw
        tauto
      · rw [fixed_of_not_traversable (by simpa [kind] using ht)] at hw
        simp only [ids, List.mem_cons, List.mem_append] at hw
        tauto
    rw [after, shell, shell, afterOption_of_not_mem hoptions.1, afterOption_of_not_mem hoptions.2]

theorem at?_cons_eq (v : Value) (k : Key) (rest : List Key) :
    v.at? (k :: rest) = (Slots.get? k v.children).bind fun child => child.at? rest := rfl

/-- Positions that do not lead through the slot that is written lead where they did. -/
theorem shell_at?_after (hw : w.target ∉ v.fixed)
    (h : ∀ before k rest, position = before ++ k :: rest → ∀ u, v.at? before = some u →
      u.ident? = some w.target → k.same w.key = false) :
    ((v.after w).at? position).map shell = (v.at? position).map shell := by
  induction position generalizing v with
  | nil =>
    rw [at?, at?, Option.map_some, Option.map_some, shell_after hw]
  | cons k rest ih =>
    have hfirst : v.ident? = some w.target → w.key.same k = false := fun hid => by
      rw [Key.same_comm]
      exact h [] k rest rfl v rfl hid
    rw [at?_cons_eq, at?_cons_eq, get?_children_after hfirst]
    cases hget : Slots.get? k v.children with
    | none => rfl
    | some child =>
      obtain ⟨j, _, mem⟩ := get?_mem hget
      refine ih (fun hin => hw (fixed_child mem hin)) fun before j rest' heq u hu => ?_
      refine h (k :: before) j rest' (congrArg (k :: ·) heq) u ?_
      rw [at?_cons_eq, hget]
      exact hu

/-- What stands somewhere after a write stood there before, or is part of what was stored. -/
theorem at?_after_cases (hkeys : v.isWellKeyed = true) (h : (v.after w).at? position = some u) :
    (∃ old, v.at? position = some old ∧ old.ident? = u.ident?) ∨
      ∃ x ∈ w.content, u.ids ⊆ x.ids := by
  induction position generalizing v with
  | nil =>
    obtain rfl := Option.some.inj h
    exact .inl ⟨v, rfl, ident?_after.symm⟩
  | cons k rest ih =>
    obtain ⟨child, hchild, hu⟩ := Option.bind_eq_some_iff.mp h
    rcases get?_children_after_cases (distinct_children hkeys) hchild with hx | ⟨old, hold, rfl⟩
    · exact .inr ⟨child, hx, (at?_subset hu).2⟩
    · obtain ⟨j, _, mem⟩ := get?_mem hold
      refine (ih (everywhere_child hkeys mem) hu).imp_left fun ⟨before, hbefore, hid⟩ => ?_
      exact ⟨before, by rw [at?_cons_eq, hold]; exact hbefore, hid⟩

/-- Writes that land where the written slot is chosen, and store nothing that any of them is made
into, leave all other slots as they were. -/
theorem unchangedOff_afterAll (hkeys : v.isWellKeyed = true)
    (hfixed : ∀ w ∈ ws, w.target ∉ v.fixed)
    (hnew : ∀ w ∈ ws, ∀ x ∈ w.content, x.isWellKeyed = true ∧ ∀ w' ∈ ws, w'.target ∉ x.ids)
    (hchosen : ∀ w ∈ ws, ∀ position u, v.at? position = some u → u.ident? = some w.target →
      ∀ k, k.same w.key = true → chosen (position ++ [k])) :
    UnchangedOff chosen v (v.afterAll ws) := by
  induction ws generalizing v with
  | nil => exact .refl v
  | cons w rest ih =>
    have hw := hfixed w List.mem_cons_self
    have hstored := hnew w List.mem_cons_self
    have hrest : UnchangedOff chosen (v.after w) ((v.after w).afterAll rest) := by
      refine ih (isWellKeyed_after hkeys fun x hx => (hstored x hx).1) (fun w' mem hin => ?_)
        (fun w' mem x hx => ⟨(hnew w' (List.mem_cons_of_mem _ mem) x hx).1, fun w'' mem' =>
          (hnew w' (List.mem_cons_of_mem _ mem) x hx).2 w'' (List.mem_cons_of_mem _ mem')⟩)
        fun w' mem position u hu hid => ?_
      · rcases mem_fixed_after hw hin with hin | ⟨x, hx, hin⟩
        · exact hfixed w' (List.mem_cons_of_mem _ mem) hin
        · exact (hstored x hx).2 w' (List.mem_cons_of_mem _ mem) (fixed_subset_ids hin)
      · rcases at?_after_cases hkeys hu with ⟨old, hold, hident⟩ | ⟨x, hx, hids⟩
        · exact hchosen w' (List.mem_cons_of_mem _ mem) position old hold (hident.trans hid)
        · exact absurd (hids (mem_ids_of_ident? hid))
            ((hstored x hx).2 w' (List.mem_cons_of_mem _ mem))
    intro position hposition
    rw [afterAll_cons, hrest position hposition]
    refine shell_at?_after hw fun before k rest heq u hu hid => ?_
    by_contra hsame
    refine hposition (before ++ [k]) (by simp) ?_ (hchosen w List.mem_cons_self before u hu hid k
      (by simpa using hsame))
    rw [heq]
    exact ⟨rest, by simp⟩

/-- In a value whose containers stand in one place each, a write changes one slot only. -/
theorem Unshared.unchangedOff_after (h : v.Unshared) (hu : v.at? position = some u)
    (hw : u.kind.isWritable = true) (hid : u.ident? = some w.target) :
    UnchangedOff (Same · (position ++ [w.key])) v (v.after w) := by
  have hmem : w.target ∈ v.mutables := mutables_at? hu (mem_mutables_of_ident? hw hid)
  intro other hother
  refine shell_at?_after (h.apart _ hmem) fun before k rest heq u' hu' hid' => ?_
  by_contra hsame
  refine hother (before ++ [k]) (by simp) ⟨rest, by simp [heq]⟩ ?_
  exact List.rel_append (h.same_position hmem hu' hu hid' hid) (.cons (by simpa using hsame) .nil)

end

end Value

end Redaction
