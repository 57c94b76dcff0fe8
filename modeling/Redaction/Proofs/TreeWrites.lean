import Redaction.Proofs.Endings
import Redaction.Proofs.Noninterference

/-!
# Writes into trees

In a tree a container stands at one position, so what writes into it do to the whole is to set that
position anew, whatever they store. A container of the tree may be part of what is stored. Writes
that follow then change it there too, and the slot goes on to hold what was stored in it, as it
stands: `Standing` says what that is.
-/

namespace Redaction

namespace Slots

/-- Storing under a key that is there, or taking its slot out, changes that slot only. -/
theorem apply_eq {slots : List Slot} (h : Distinct slots) {w : Write}
    (hget : (get? w.key slots).isSome = true) : w.apply slots = slots.filterMap fun slot =>
      (if slot.1.same w.key then w.content else some slot.2).map fun u => (slot.1, u) := by
  induction slots with
  | nil => simp [get?] at hget
  | cons slot rest ih =>
    obtain ⟨k, v⟩ := slot
    obtain ⟨hfirst, hrest⟩ := List.pairwise_cons.mp h
    by_cases hk : k.same w.key = true
    · have hothers : rest.filterMap (fun slot => (if slot.1.same w.key then w.content
          else some slot.2).map fun u => (slot.1, u)) = rest := by
        refine (List.filterMap_congr fun slot mem => ?_).trans List.filterMap_some
        have hslot : slot.1.same w.key = false := by
          by_contra hsame
          have := Key.same_trans hk (Key.same_comm _ _ ▸ Bool.not_eq_false _ ▸ hsame)
          simp [hfirst slot mem] at this
        simp [hslot]
      rw [List.filterMap_cons, hothers]
      cases hx : w.content <;> simp [Write.apply, hx, put, erase, hk]
    · simp only [get?, hk] at hget
      have hstep : w.apply ((k, v) :: rest) = (k, v) :: w.apply rest := by
        cases hx : w.content <;> simp [Write.apply, hx, put, erase, hk]
      rw [hstep, ih hrest hget, List.filterMap_cons]
      simp [hk]

end Slots

/-- Items have their writes made one after another. What was stored for each is held as it stands
after the writes for the items behind it. -/
def Standing {α : Type} (writes : α → List Write) (stored held : α → Value) : List α → Prop
  | [] => True
  | a :: rest =>
    held a = (stored a).afterAll (rest.flatMap writes) ∧ Standing writes stored held rest

theorem Standing.congr {α : Type} {writes : α → List Write} {stored held held' : α → Value}
    {items : List α} (h : Standing writes stored held items)
    (heq : ∀ a ∈ items, held a = held' a) : Standing writes stored held' items := by
  induction items with
  | nil => trivial
  | cons a rest ih =>
    obtain ⟨hhead, hrest⟩ := List.forall_mem_cons.mp heq
    exact ⟨hhead ▸ h.1, ih h.2 hrest⟩

theorem Standing.exists_afterAll {α : Type} {writes : α → List Write} {stored held : α → Value}
    {items : List α} (h : Standing writes stored held items) {a : α} (mem : a ∈ items) :
    ∃ ws, held a = (stored a).afterAll ws := by
  induction items with
  | nil => cases mem
  | cons b rest ih =>
    rcases List.mem_cons.mp mem with rfl | mem
    · exact ⟨_, h.1⟩
    · exact ih h.2 mem

theorem standing_map {α β : Type} {g : α → β} {writes : β → List Write} {stored held : β → Value}
    {items : List α} : Standing writes stored held (items.map g) ↔
      Standing (writes ∘ g) (stored ∘ g) (held ∘ g) items := by
  induction items with
  | nil => exact Iff.rfl
  | cons a rest ih => simp only [List.map_cons, Standing, ih, List.flatMap_map, Function.comp_def]

theorem Standing.held_eq {α : Type} {writes : α → List Write} {stored held : α → Value}
    {before after : List α} {a : α} (h : Standing writes stored held (before ++ a :: after)) :
    held a = (stored a).afterAll (after.flatMap writes) := by
  induction before with
  | nil => exact h.1
  | cons b rest ih => exact ih h.2

/-- What is stored for one item more changes what is held for the items before it. -/
theorem Standing.concat {α : Type} {writes : α → List Write} {stored held held' : α → Value}
    {items : List α} {a : α} (h : Standing writes stored held (items ++ [a]))
    (h' : Standing writes stored held' items) :
    held a = stored a ∧ ∀ b ∈ items, held b = (held' b).afterAll (writes a) := by
  induction items with
  | nil => exact ⟨h.1, by simp⟩
  | cons b rest ih =>
    obtain ⟨hlast, hothers⟩ := ih h.2 h'.2
    refine ⟨hlast, List.forall_mem_cons.mpr ⟨?_, hothers⟩⟩
    have hhead : held b = (stored b).afterAll ((rest ++ [a]).flatMap writes) := h.1
    rw [hhead, h'.1, List.flatMap_append, List.flatMap_singleton, Value.afterAll_append]

theorem exists_standing {α : Type} (label : α → Key) {items : List α}
    (h : items.Pairwise fun a b => (label a).same (label b) = false) (writes : α → List Write)
    (stored : α → Value) : ∃ held : Key → Value, Standing writes stored (held ∘ label) items := by
  induction items with
  | nil => exact ⟨fun _ => .null, trivial⟩
  | cons a rest ih =>
    obtain ⟨hfirst, hrest⟩ := List.pairwise_cons.mp h
    obtain ⟨held, hheld⟩ := ih hrest
    refine ⟨fun k => if (label a).same k then (stored a).afterAll (rest.flatMap writes) else held k,
      by simp, hheld.congr fun b mem => ?_⟩
    simp [hfirst b mem]

theorem Standing.eq {α : Type} {writes : α → List Write} {stored held : α → Value} {items : List α}
    (h : Standing writes stored held items)
    (hfree : ∀ a ∈ items, ∀ b ∈ items, ∀ w ∈ writes b, w.target ∉ (stored a).ids) :
    ∀ a ∈ items, held a = stored a := by
  induction items with
  | nil => simp
  | cons a rest ih =>
    refine List.forall_mem_cons.mpr ⟨?_, ih h.2 fun b hb c hc =>
      hfree b (List.mem_cons_of_mem _ hb) c (List.mem_cons_of_mem _ hc)⟩
    rw [h.1]
    refine Value.afterAll_of_not_mem fun w hw => ?_
    obtain ⟨b, hb, hw⟩ := List.mem_flatMap.mp hw
    exact hfree a List.mem_cons_self b (List.mem_cons_of_mem _ hb) w hw

namespace Value

def trail (v : Value) : List String → List Key
  | [] => []
  | segment :: rest =>
    match v.slot? segment with
    | .ok (some slot) => slot.1 :: slot.2.trail rest
    | _ => []

/-- The container once `x` was assigned to the slots of some keys: the marker `remove` deletes slots
of a mapping and empties those of a sequence. -/
def assign (h : Value) (keys : List Key) (x : Key → Value) : Value :=
  h.withSlots fun k child =>
    if keys.any fun j => j.same k then settled h.kind (x k) else some child

/-! ## Following segments -/

section

variable {v u child y : Value} {segment : String} {segments : List String} {k : Key}

theorem exists_slot_of_walk {rest : List String} (h : v.walk (segment :: rest) = .ok (some u)) :
    ∃ k child, v.slot? segment = .ok (some (k, child)) ∧ child.walk rest = .ok (some u) ∧
      v.trail (segment :: rest) = k :: child.trail rest := by
  unfold walk at h
  split at h
  · cases h
  · cases h
  · rename_i k child hslot
    exact ⟨k, child, hslot, h, by rw [trail, hslot]⟩

theorem at?_trail (h : v.walk segments = .ok (some u)) : v.at? (v.trail segments) = some u := by
  induction segments generalizing v with
  | nil => simpa [walk, trail, at?] using h
  | cons segment rest ih =>
    obtain ⟨k, child, hslot, hwalk, htrail⟩ := exists_slot_of_walk h
    rw [htrail, at?, (slot?_eq_some.mp hslot).1]
    exact ih hwalk

theorem slot?_putAt {found : Key} (hkeys : Slots.Distinct v.children)
    (hslot : v.slot? segment = .ok (some (found, child))) (hk : k.same found = true) :
    (putAt k u v).slot? segment = .ok (some (found, u)) := by
  obtain ⟨hget, hname⟩ := slot?_eq_some.mp hslot
  obtain ⟨j, hj, mem⟩ := get?_mem hget
  have hjk : j.same k = true := Key.same_trans hj (Key.same_comm k found ▸ hk)
  refine slot?_eq_some.mpr ⟨get?_withSlots hkeys mem (by simp [hjk]) hj, ?_⟩
  exact hname.imp_right fun ⟨hnone, rest⟩ => ⟨get?_withSlots_of_none hnone, rest⟩

theorem walk_setAt (hkeys : v.isWellKeyed = true) (h : v.walk segments = .ok (some u)) :
    (v.setAt (v.trail segments) y).walk segments = .ok (some y) := by
  induction segments generalizing v with
  | nil => rfl
  | cons segment rest ih =>
    obtain ⟨k, child, hslot, hwalk, htrail⟩ := exists_slot_of_walk h
    obtain ⟨j, hj, mem⟩ := get?_mem (slot?_eq_some.mp hslot).1
    have hdistinct := distinct_children hkeys
    rw [htrail, setAt_cons hdistinct mem hj, walk, slot?_putAt hdistinct hslot (Key.same_refl k)]
    exact ih (everywhere_child hkeys mem) hwalk

end

/-! ## Assigned slots -/

section

variable {h x : Value} {keys : List Key} {f : Key → Value → Option Value} {y : Key → Value}

theorem keys_withSlots : (h.withSlots f).keys =
    (h.children.filter fun slot => (f slot.1 slot.2).isSome).map Prod.fst := by
  rw [Value.keys, children_withSlots, ← List.filterMap_eq_filter, List.map_filterMap,
    List.map_filterMap]
  refine List.filterMap_congr fun slot _ => ?_
  cases hf : f slot.1 slot.2 <;> simp [Option.guard, hf]

theorem keys_assign : (h.assign keys y).keys = h.keys.filter fun k =>
    !(keys.any fun j => j.same k) || (settled h.kind (y k)).isSome := by
  rw [assign, keys_withSlots, Value.keys, List.filter_map]
  congr 1
  refine List.filter_congr fun slot _ => ?_
  by_cases hk : (keys.any fun j => j.same slot.1) = true <;> simp [hk]

theorem assign_congr {j k : Key} (h' : j.same k = true) : h.assign [j] y = h.assign [k] y := by
  refine withSlots_congr fun slot _ => ?_
  have hsame : j.same slot.1 = k.same slot.1 := by
    rw [Bool.eq_iff_iff]
    exact ⟨fun hs => Key.same_trans (Key.same_comm j k ▸ h') hs, Key.same_trans h'⟩
  simp [hsame]

theorem assign_singleton {k : Key} (hx : x.isRemove = false) :
    h.assign [k] (fun _ => x) = putAt k x h := by
  refine withSlots_congr fun slot _ => ?_
  rw [Key.same_comm slot.1]
  by_cases hk : k.same slot.1 = true <;> simp [hk, settled, hx]

end

section

variable {v x : Value} {w : Write} {ws : List Write} {kind : Kind}

theorem isRemove_after : (v.after w).isRemove = v.isRemove := by
  cases v <;> rfl

theorem settled_after : (settled kind x).map (after w) = settled kind (x.after w) := by
  unfold settled
  rw [isRemove_after]
  split
  · split <;> rfl
  · rfl

theorem settled_afterAll : (settled kind x).map (afterAll ws) = settled kind (x.afterAll ws) := by
  induction ws generalizing x with
  | nil => cases hx : settled kind x <;> simp [hx]
  | cons w rest ih =>
    rw [afterAll_cons, ← ih, ← settled_after, Option.map_map]
    rfl

theorem settled_afterAll_isSome :
    (settled kind (x.afterAll ws)).isSome = (settled kind x).isSome := by
  rw [← settled_afterAll, Option.isSome_map]

end

/-! ## Writes elsewhere -/

section

variable {v h y : Value} {w : Write} {ws : List Write} {f : Key → Value → Option Value}
  {position : List Key} {keys : List Key} {x : Key → Value}

/-- A write that does not land in a value changes what is put in its slots only. -/
theorem after_withSlots (hw : w.target ∉ v.ids) :
    (v.withSlots f).after w = v.withSlots fun k child => (f k child).map (after w) := by
  cases v with
  | scalar s => rfl
  | node id shape tag snapshot slots =>
    by_cases ht : shape.kind.isTraversable = true
    swap
    · have hsame : ∀ g, (node id shape tag snapshot slots).withSlots g =
          node id shape tag snapshot slots := fun g =>
        withSlots_of_not_traversable (by simpa [kind] using ht)
      rw [hsame, hsame, after_of_not_mem w _ hw]
    simp only [ids, List.mem_cons, List.mem_append, not_or] at hw
    obtain ⟨hid, ⟨htag, hsnapshot⟩, _⟩ := hw
    simp only [withSlots, ht, if_true, after, afterOption_of_not_mem htag,
      afterOption_of_not_mem hsnapshot, if_neg (Ne.symm hid), afterSlots_eq_map,
      List.map_filterMap]
    congr 1
    refine List.filterMap_congr fun slot _ => ?_
    cases f slot.1 slot.2 <;> rfl

theorem child_not_mem {slot : Slot} (hw : w.target ∉ v.ids) (mem : slot ∈ v.children) :
    w.target ∉ slot.2.ids := fun hin => hw ((child_subset mem).2 hin)

theorem after_setAt (hw : w.target ∉ v.ids) :
    (v.setAt position y).after w = v.setAt position (y.after w) := by
  induction position generalizing v with
  | nil => rfl
  | cons k rest ih =>
    rw [setAt, after_withSlots hw, setAt]
    refine withSlots_congr fun slot mem => ?_
    have hchild := child_not_mem hw mem
    by_cases hs : slot.1.same k = true
    · simp [hs, ih hchild]
    · simp [hs, after_of_not_mem w _ hchild]

theorem after_assign (hw : w.target ∉ h.ids) :
    (h.assign keys x).after w = h.assign keys fun k => (x k).after w := by
  rw [assign, after_withSlots hw, assign]
  refine withSlots_congr fun slot mem => ?_
  by_cases hs : (keys.any fun j => j.same slot.1) = true
  · simp [hs, settled_after]
  · simp [hs, after_of_not_mem w _ (child_not_mem hw mem)]

/-- Writes that do not land in a value change what is assigned inside it only. -/
theorem afterAll_setAt_assign (hv : ∀ w ∈ ws, w.target ∉ v.ids) (hh : h.ids ⊆ v.ids) :
    (v.setAt position (h.assign keys x)).afterAll ws =
      v.setAt position (h.assign keys fun k => (x k).afterAll ws) := by
  induction ws generalizing x with
  | nil => rfl
  | cons w rest ih =>
    have hw := hv w List.mem_cons_self
    rw [afterAll_cons, after_setAt hw, after_assign fun hin => hw (hh hin),
      ih fun w mem => hv w (List.mem_cons_of_mem _ mem)]
    rfl

end

/-! ## Writes into one part -/

theorem IsTree.afterAll_at {v u : Value} {position : List Key} {ws : List Write} (hv : v.IsTree)
    (hu : v.at? position = some u) (hws : ∀ w ∈ ws, w.target ∈ u.reach) :
    v.afterAll ws = v.setAt position (u.afterAll ws) := by
  induction position generalizing v with
  | nil =>
    obtain rfl := Option.some.inj hu
    rfl
  | cons k rest ih =>
    obtain ⟨j, child, hj, mem, hbelow⟩ := exists_child hu
    obtain ⟨id, shape, tag, snapshot, slots, rfl, ht, mem⟩ := exists_node mem
    have hin : ∀ w ∈ ws, w.target ∈ child.reach := fun w hw => (at?_subset hbelow).1 (hws w hw)
    have hdistinct : Slots.Distinct slots := keysDiffer_iff.mp ((everywhere_node ht).mp hv.keyed).1
    rw [hv.afterAll_branch ht mem hin, setAt, withSlots, if_pos ht, ← List.filterMap_eq_map]
    congr 1
    refine List.filterMap_congr fun slot memSlot => ?_
    by_cases hs : slot.1.same k = true
    · have hsame : slot.1.same j = true := Key.same_trans hs (Key.same_comm _ _ ▸ hj)
      obtain rfl := Slots.eq_of_same hdistinct memSlot mem hsame
      simp [hs, ih (hv.slot ht mem) hbelow]
    · have hne : (j, child) ≠ slot := fun heq => hs (heq ▸ hj)
      have hleft : slot.2.afterAll ws = slot.2 := afterAll_of_not_mem fun w hw =>
        hv.branches_apart ht mem memSlot hne _ (hin w hw)
      simp [hs, hleft]

/-! ## Writes into one container -/

theorem ident?_of_writeTo {v x : Value} {k : Key} {w : Write} (hw : v.writeTo k x = some w) :
    v.ident? = some w.target ∧ w.target ∈ v.reach := by
  obtain ⟨shape, tag, snapshot, slots, rfl, hshape, _, _⟩ := writeTo_eq_some hw
  exact ⟨rfl, mem_reach_node.mpr ⟨isTraversable_of_isWritable hshape, .inl rfl⟩⟩

section

variable {id : Ident} {shape : Shape} {tag snapshot : Option Value} {slots done todo : List Slot}

theorem afterSlots_of_not_mem {w : Write} (h : ∀ slot ∈ slots, w.target ∉ slot.2.ids) :
    afterSlots w slots = slots := by
  rw [afterSlots_eq_map]
  refine (List.map_congr_left fun slot mem => ?_).trans (List.map_id slots)
  rw [after_of_not_mem w slot.2 (h slot mem)]
  rfl

theorem IsTree.after_own (h : (node id shape tag snapshot slots).IsTree)
    (ht : shape.kind.isTraversable = true) {w : Write} (hw : w.target = id) :
    (node id shape tag snapshot slots).after w =
      node id shape tag snapshot (w.apply slots) := by
  obtain ⟨htag, hsnapshot⟩ := h.not_mem_options ht (mem_reach_node.mpr ⟨ht, .inl rfl⟩)
  rw [after, afterOption_of_not_mem (hw ▸ htag), afterOption_of_not_mem (hw ▸ hsnapshot),
    if_pos hw.symm, afterSlots_of_not_mem fun slot mem => hw ▸ h.ident_not_mem ht mem]

theorem IsTree.after_writeTo {v x child : Value} {k : Key} {w : Write} (h : v.IsTree)
    (hget : Slots.get? k v.children = some child) (hw : v.writeTo k x = some w) :
    v.after w = v.assign [k] fun _ => x := by
  obtain ⟨j, _, mem⟩ := get?_mem hget
  obtain ⟨id, shape, tag, snapshot, slots, rfl, ht, _⟩ := exists_node mem
  obtain ⟨_, rfl⟩ : shape.kind.isWritable = true ∧
      (⟨id, k, settled shape.kind x⟩ : Write) = w := by simpa [writeTo] using hw
  have hdistinct : Slots.Distinct slots := keysDiffer_iff.mp ((everywhere_node ht).mp h.keyed).1
  rw [children_node ht] at hget
  rw [h.after_own ht rfl, Slots.apply_eq hdistinct (by simp [hget]), assign, withSlots, if_pos ht]
  congr 1
  refine List.filterMap_congr fun slot _ => ?_
  simp [Key.same_comm k, kind]

/-- Where the writes for each slot land in what it holds, each shows those for itself, and what they
store as it stands after those for the slots behind it. -/
theorem IsTree.afterAll_branches (h : (node id shape tag snapshot slots).IsTree)
    (ht : shape.kind.isTraversable = true) {writes : Slot → List Write} (result : Slot → Value)
    (hws : ∀ slot ∈ slots, ∀ w ∈ writes slot, w.target ∈ slot.2.reach)
    (hresult : ∀ before slot after, slots = before ++ slot :: after →
      (slot.2.afterAll (writes slot)).afterAll (after.flatMap writes) = result slot) :
    (node id shape tag snapshot slots).afterAll (slots.flatMap writes) =
      (node id shape tag snapshot slots).withSlots fun k child => some (result (k, child)) := by
  rw [h.afterAll_slots ht, withSlots, if_pos ht, ← List.filterMap_eq_map]
  · congr 1
    refine List.filterMap_congr fun slot mem => ?_
    obtain ⟨before, after, heq⟩ := List.append_of_mem mem
    have hbefore : slot.2.afterAll (before.flatMap writes) = slot.2 := by
      refine afterAll_of_not_mem fun w hw => ?_
      obtain ⟨other, memOther, hw⟩ := List.mem_flatMap.mp hw
      have hother : other ∈ slots := heq ▸ List.mem_append_left _ memOther
      have hapart := h.slots_apart ht
      rw [heq] at hapart
      exact ((List.pairwise_append.mp hapart).2.2 other memOther slot List.mem_cons_self).1 _
        (hws other hother w hw)
    have hall : slot.2.afterAll (slots.flatMap writes) = result slot := by
      rw [← hresult before slot after heq, heq, List.flatMap_append, List.flatMap_cons,
        afterAll_append, afterAll_append, hbefore]
    simp [hall]
  · intro w hw
    obtain ⟨slot, mem, hw⟩ := List.mem_flatMap.mp hw
    exact ⟨slot, mem, hws slot mem w hw⟩

/-- A write into a slot of a container that does not stand in its own tag or snapshot. -/
theorem after_slot {w : Write} (hw : w.target = id) (htag : id ∉ idsOption tag)
    (hsnapshot : id ∉ idsOption snapshot) (hdistinct : Slots.Distinct slots)
    (hthere : (Slots.get? w.key slots).isSome = true) :
    (node id shape tag snapshot slots).after w = node id shape tag snapshot
      (slots.filterMap fun slot => (if slot.1.same w.key then w.content
        else some (slot.2.after w)).map fun u => (slot.1, u)) := by
  have hkeys : Slots.Distinct (slots.map fun slot => (slot.1, slot.2.after w)) := by
    rw [Slots.distinct_iff, List.map_map]
    exact Slots.distinct_iff.mp hdistinct
  rw [after, afterOption_of_not_mem (hw ▸ htag), afterOption_of_not_mem (hw ▸ hsnapshot),
    if_pos hw.symm, afterSlots_eq_map, Slots.apply_eq hkeys, List.filterMap_map]
  · rfl
  · rw [Slots.get?_map, Option.isSome_map, hthere]

/-- Slots of a container are written, one after another. They hold what was stored in them, as it
stands, and the others are as they were. -/
theorem afterAll_chosen {keys : List Key} {stored held : Key → Value}
    (ht : shape.kind.isTraversable = true) (htag : id ∉ idsOption tag)
    (hsnapshot : id ∉ idsOption snapshot) (hslots : ∀ slot ∈ slots, id ∉ slot.2.ids)
    (hdistinct : Slots.Distinct slots) (hkeys : keys.Pairwise fun j k => j.same k = false)
    (hthere : keys ⊆ slots.map Prod.fst)
    (hheld : Standing (fun k => [⟨id, k, settled shape.kind (stored k)⟩]) stored held keys) :
    (node id shape tag snapshot slots).afterAll
        (keys.map fun k => ⟨id, k, settled shape.kind (stored k)⟩) =
      (node id shape tag snapshot slots).assign keys held := by
  induction keys using List.reverseRecOn generalizing held with
  | nil => exact withSlots_self.symm
  | append_singleton before k ih =>
    obtain ⟨hbefore, _, hlast⟩ := List.pairwise_append.mp hkeys
    obtain ⟨held', hheld'⟩ : ∃ held', Standing (fun k => [⟨id, k, settled shape.kind (stored k)⟩])
        stored held' before := exists_standing (fun k => k) hbefore _ stored
    obtain ⟨hown, hothers⟩ := hheld.concat hheld'
    obtain ⟨⟨k, child⟩, mem, rfl⟩ := List.mem_map.mp
      (hthere (List.mem_append_right before List.mem_cons_self))
    -- the slot of the last key is still as it was, for no key before it is the same
    have hfree : (before.any fun j => j.same k) = false :=
      List.any_eq_false.mpr fun j memKey => by simp [hlast j memKey k List.mem_cons_self]
    have hassigned : (k, child) ∈ slots.filterMap fun slot =>
        (if before.any fun j => j.same slot.1 then settled shape.kind (held' slot.1)
          else some slot.2).map fun u => (slot.1, u) :=
      List.mem_filterMap.mpr ⟨(k, child), mem, by simp [hfree]⟩
    rw [List.map_append, afterAll_append,
      ih hbefore (fun j mem => hthere (List.mem_append_left _ mem)) hheld', List.map_singleton,
      afterAll_cons, afterAll_nil]
    simp only [assign, withSlots, kind, ht, if_true]
    rw [after_slot (w := ⟨id, k, _⟩) rfl htag hsnapshot (hdistinct.filterMap fun k v =>
        if before.any fun j => j.same k then settled shape.kind (held' k) else some v)
      (Slots.get?_isSome_of_mem (List.mem_map_of_mem hassigned)), List.filterMap_filterMap]
    congr 1
    refine List.filterMap_congr fun slot memSlot => ?_
    by_cases hk : slot.1.same k = true
    · obtain rfl := Slots.eq_of_same hdistinct memSlot mem hk
      simp [hfree, hown]
    · have hany : ((before ++ [k]).any fun j => j.same slot.1) =
          before.any fun j => j.same slot.1 := by
        simp [Key.same_comm k, hk]
      rw [hany]
      by_cases hs : (before.any fun j => j.same slot.1) = true
      · obtain ⟨j, memKey, hj⟩ := List.any_eq_true.mp hs
        obtain ⟨other, memOther, rfl⟩ := List.mem_map.mp (hthere (List.mem_append_left _ memKey))
        obtain rfl := Slots.eq_of_same hdistinct memOther memSlot hj
        have hsettled : settled shape.kind (held other.1) = (settled shape.kind (held' other.1)).map
            (after ⟨id, k, settled shape.kind (stored k)⟩) := by
          rw [hothers _ memKey, settled_after]
          rfl
        rw [if_pos hs, if_pos hs, hsettled]
        cases settled shape.kind (held' other.1) <;> simp [hk]
      · have hkept := after_of_not_mem ⟨id, k, settled shape.kind (stored k)⟩ slot.2
          (hslots slot memSlot)
        simp [hs, hk, hkept]

theorem IsTree.afterAll_own (h : (node id shape tag snapshot slots).IsTree)
    (ht : shape.kind.isTraversable = true) {stored held : Key → Value}
    (hheld : Standing (fun k => [⟨id, k, settled shape.kind (stored k)⟩]) stored held
      (slots.map Prod.fst)) :
    (node id shape tag snapshot slots).afterAll
        (slots.map fun slot => ⟨id, slot.1, settled shape.kind (stored slot.1)⟩) =
      (node id shape tag snapshot slots).assign (slots.map Prod.fst) held := by
  obtain ⟨htag, hsnapshot⟩ := h.not_mem_options ht (mem_reach_node.mpr ⟨ht, .inl rfl⟩)
  have hdistinct : Slots.Distinct slots := keysDiffer_iff.mp ((everywhere_node ht).mp h.keyed).1
  have hchosen := afterAll_chosen ht htag hsnapshot (fun slot mem => h.ident_not_mem ht mem)
    hdistinct (Slots.distinct_iff.mp hdistinct) (List.Subset.refl _) hheld
  rwa [List.map_map] at hchosen

end

end Value

end Redaction
