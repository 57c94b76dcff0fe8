import Redaction.Proofs.PathRun
import Redaction.Proofs.Restoration

/-!
# Walks in duplicates

A duplicate takes its identities in the order in which its containers are made, so along any walk in
it identities rise. A write lands below the containers with smaller identities, and a walk that
leads no further than to its target leads there after the write too. Walks ask for texts and
numbers, and find in a duplicate what they find in its source, duplicated.

Main statements: `Value.walk_renew` and `Value.Rises.walk_after`.
-/

namespace Redaction

def Token.isObject : Token → Bool
  | object _ | sentinel _ _ => true
  | _ => false

namespace Key

theorem isObject_token (a : Atom) : a.token.isObject = a.isObject := by
  cases a with
  | binary x => cases x <;> rfl
  | decimal x => cases x <;> rfl
  | _ => rfl

mutual

theorem holdsObject_eq_any : ∀ k : Key, k.holdsObject = k.tokens.any Token.isObject
  | atom a => by simp [holdsObject, tokens, isObject_token]
  | tuple form items => by
    rw [holdsObject, tokens, List.any_cons, anyHoldsObject_eq_any items]
    rfl
  | frozen item => by
    rw [holdsObject, tokens, List.any_cons, optionHoldsObject_eq_any item]
    rfl

theorem anyHoldsObject_eq_any :
    ∀ ks : List Key, anyHoldsObject ks = (tokensOfList ks).any Token.isObject
  | [] => rfl
  | k :: rest => by
    rw [anyHoldsObject, tokensOfList, List.any_append, holdsObject_eq_any k,
      anyHoldsObject_eq_any rest]

theorem optionHoldsObject_eq_any :
    ∀ k : Option Key, optionHoldsObject k = (tokensOfOption k).any Token.isObject
  | none => rfl
  | some k => holdsObject_eq_any k

end

theorem holdsObject_congr {j k : Key} (h : j.same k = true) : j.holdsObject = k.holdsObject := by
  simp only [same, decide_eq_true_eq] at h
  rw [holdsObject_eq_any, holdsObject_eq_any, h]

theorem isObject_shift (offset : Ident) (a : Atom) : (a.shift offset).isObject = a.isObject := by
  cases a <;> rfl

mutual

theorem holdsObject_shift (offset : Ident) : ∀ k : Key, (k.shift offset).holdsObject = k.holdsObject
  | atom a => isObject_shift offset a
  | tuple _ items => anyHoldsObject_shiftList offset items
  | frozen item => optionHoldsObject_shiftOption offset item

theorem anyHoldsObject_shiftList (offset : Ident) :
    ∀ ks : List Key, anyHoldsObject (shiftList offset ks) = anyHoldsObject ks
  | [] => rfl
  | k :: rest => by
    rw [shiftList, anyHoldsObject, anyHoldsObject, holdsObject_shift offset k,
      anyHoldsObject_shiftList offset rest]

theorem optionHoldsObject_shiftOption (offset : Ident) :
    ∀ k : Option Key, optionHoldsObject (shiftOption offset k) = optionHoldsObject k
  | none => rfl
  | some k => holdsObject_shift offset k

end

@[simp] theorem holdsObject_text (s : String) : (text s).holdsObject = false := rfl

@[simp] theorem holdsObject_index (i : Nat) : (index i).holdsObject = false := rfl

end Key

namespace Slots

variable {j : Key}

theorem get?_append (a b : List Slot) : get? j (a ++ b) = (get? j a).or (get? j b) := by
  induction a with
  | nil => rfl
  | cons slot rest ih =>
    obtain ⟨k, v⟩ := slot
    by_cases hk : k.same j = true
    · simp [get?, hk]
    · simp only [List.cons_append, get?, hk]
      exact ih

theorem get?_refill {offset : Ident} {old duplicates : List Slot} (hj : j.holdsObject = false)
    (hfst : duplicates.map Prod.fst = old.map Prod.fst) :
    get? j (Value.refill offset old duplicates) = get? j duplicates := by
  have hother : ∀ k : Key, k.holdsObject = true → k.same j = false := by
    intro k hk
    by_contra hsame
    rw [Key.holdsObject_congr (Bool.not_eq_false _ ▸ hsame), hj] at hk
    exact Bool.false_ne_true hk
  have hfiltered : get? j (duplicates.filter fun slot => slot.1.holdsObject) = none :=
    get?_eq_none.mpr fun slot mem => hother _ (List.mem_filter.mp mem).2
  have hzipped : get? j (List.zipWith (fun slot duplicate => if slot.1.holdsObject then
      (slot.1.shift offset, slot.2.shift offset) else duplicate) old duplicates) =
        get? j duplicates := by
    clear hfiltered
    induction old generalizing duplicates with
    | nil =>
      obtain rfl : duplicates = [] := by simpa using hfst
      rfl
    | cons slot rest ih =>
      cases duplicates with
      | nil => simp at hfst
      | cons duplicate others =>
        obtain ⟨hhead, htail⟩ := List.cons.inj hfst
        obtain ⟨k, v⟩ := slot
        obtain ⟨k', u⟩ := duplicate
        obtain rfl : k' = k := hhead
        rw [List.zipWith_cons_cons]
        by_cases hk : k'.holdsObject = true
        · have hshift : (k'.shift offset).same j = false :=
            hother _ (by rw [Key.holdsObject_shift, hk])
          simp only [hk, if_true, get?, hshift, hother k' hk]
          exact ih htail
        · simp only [hk, get?, ih htail]
          rfl
  have hsplit := get?_append (j := j) (List.zipWith (fun slot duplicate =>
    if slot.1.holdsObject then (slot.1.shift offset, slot.2.shift offset) else duplicate) old
      duplicates) (duplicates.filter fun slot => slot.1.holdsObject)
  rw [hzipped, hfiltered, Option.or_none] at hsplit
  exact hsplit

end Slots

namespace Value

/-! ## Duplicates -/

/-- The slots of a duplicate: the duplicates of the slots, and what a copy made as a whole adds. -/
def IsRenewed (thaw : Bool) (slots : List Slot) (m : Ident) (renewed : List Slot) : Prop :=
  renewed = (renewSlots thaw slots m).1 ∨
    ∃ offset, renewed = refill offset slots (renewSlots thaw slots m).1

/-- A container is made before what its slots hold, and can be written once it is thawed. -/
theorem renew_node (thaw : Bool) {id : Ident} {shape : Shape} {tag snapshot : Option Value}
    {slots : List Slot} (ht : shape.kind.isTraversable = true) (n : Ident) :
    ∃ i shape' tag' snapshot' renewed, n ≤ i ∧ shape'.kind.isTraversable = true ∧
      (thaw = true → shape'.kind.isWritable = true) ∧ IsRenewed thaw slots (i + 1) renewed ∧
      (node id shape tag snapshot slots).renew thaw n =
        (node i shape' tag' snapshot' renewed, (renewSlots thaw slots (i + 1)).2) := by
  rcases Shape.copying shape with rfl | ⟨form, rfl⟩ | hb | hw
  · simp [Shape.kind, Kind.isTraversable] at ht
  · cases thaw with
    | true => exact ⟨n, _, _, _, _, le_rfl, rfl, fun _ => rfl, .inl rfl, renew_tuple⟩
    | false => exact ⟨n, _, _, _, _, le_rfl, ht, by simp, .inl rfl, renew_tuple⟩
  · refine ⟨n, _, _, _, _, le_rfl, ht, fun _ => ?_, .inl rfl, renew_builtIn hb⟩
    cases shape <;> simp_all [Shape.isBuiltIn, Shape.kind, Kind.isWritable]
  · refine ⟨_, _, _, _, _, le_wholeIdent, ht, fun _ => ?_, .inr ⟨_, rfl⟩, renew_whole hw⟩
    simp only [Shape.isCopiedWhole, Bool.and_eq_true] at hw
    exact hw.1

theorem renew_of_not_traversable {thaw : Bool} {v : Value} {n : Ident}
    (h : v.kind.isTraversable = false) : v.renew thaw n = (v, n) := by
  cases v with
  | scalar s => rfl
  | node id shape tag snapshot slots =>
    obtain rfl : shape = .view := by cases shape <;> simp_all [kind, Shape.kind, Kind.isTraversable]
    exact renew_view

theorem isTraversable_renew (thaw : Bool) (v : Value) (n : Ident) :
    (v.renew thaw n).1.kind.isTraversable = v.kind.isTraversable := by
  by_cases ht : v.kind.isTraversable = true
  · cases v with
    | scalar s => rfl
    | node id shape tag snapshot slots =>
      obtain ⟨i, shape', tag', snapshot', renewed, _, ht', _, _, heq⟩ := renew_node thaw ht n
      rw [heq, ht]
      exact ht'
  · rw [renew_of_not_traversable (by simpa using ht)]

theorem isMissing_renew (thaw : Bool) (v : Value) (n : Ident) :
    (v.renew thaw n).1.isMissing = v.isMissing := by
  by_cases ht : v.kind.isTraversable = true
  · cases v with
    | scalar s => rfl
    | node id shape tag snapshot slots =>
      obtain ⟨i, shape', tag', snapshot', renewed, _, _, _, _, heq⟩ := renew_node thaw ht n
      rw [heq]
      rfl
  · rw [renew_of_not_traversable (by simpa using ht)]

theorem le_renewSlots {thaw : Bool} {slots : List Slot}
    (h : ∀ slot ∈ slots, ∀ m, m ≤ (slot.2.renew thaw m).2) (n : Ident) :
    n ≤ (renewSlots thaw slots n).2 := by
  induction slots generalizing n with
  | nil => exact le_rfl
  | cons slot rest ih =>
    obtain ⟨k, v⟩ := slot
    exact le_trans (h (k, v) List.mem_cons_self n)
      (ih (fun slot mem => h slot (List.mem_cons_of_mem _ mem)) _)

theorem le_renew (thaw : Bool) (v : Value) (n : Ident) : n ≤ (v.renew thaw n).2 := by
  induction v using Value.induction generalizing n with
  | scalar s => exact le_rfl
  | node id shape tag snapshot slots _ _ ihSlots =>
    by_cases ht : shape.kind.isTraversable = true
    · obtain ⟨i, shape', tag', snapshot', renewed, hi, _, _, _, heq⟩ := renew_node thaw ht n
      rw [heq]
      exact le_trans (le_trans hi (Nat.le_succ i)) (le_renewSlots ihSlots (i + 1))
    · rw [renew_of_not_traversable (by simpa [kind] using ht)]

section

variable {thaw : Bool} {slots renewed : List Slot} {n : Ident} {j : Key}

theorem mem_renewSlots {slot : Slot} (h : slot ∈ (renewSlots thaw slots n).1) :
    ∃ old ∈ slots, ∃ m, n ≤ m ∧ slot = (old.1, (old.2.renew thaw m).1) := by
  induction slots generalizing n with
  | nil => simp [renewSlots] at h
  | cons head rest ih =>
    obtain ⟨k, v⟩ := head
    rcases List.mem_cons.mp h with rfl | h
    · exact ⟨(k, v), List.mem_cons_self, n, le_rfl, rfl⟩
    · obtain ⟨old, mem, m, hm, rfl⟩ := ih h
      exact ⟨old, List.mem_cons_of_mem _ mem, m, le_trans (le_renew thaw v n) hm, rfl⟩

theorem IsRenewed.mem (h : IsRenewed thaw slots n renewed) {slot : Slot} (mem : slot ∈ renewed)
    (hk : slot.1.holdsObject = false) :
    ∃ old ∈ slots, ∃ m, n ≤ m ∧ slot = (old.1, (old.2.renew thaw m).1) := by
  rcases h with rfl | ⟨offset, rfl⟩
  · exact mem_renewSlots mem
  · rcases mem_refill mem with mem | ⟨u, _, hobject, rfl⟩
    · exact mem_renewSlots mem
    · rw [Key.holdsObject_shift, hobject] at hk
      simp at hk

theorem get?_renewSlots : ∃ m, n ≤ m ∧ Slots.get? j (renewSlots thaw slots n).1 =
    (Slots.get? j slots).map fun u => (u.renew thaw m).1 := by
  induction slots generalizing n with
  | nil => exact ⟨n, le_rfl, rfl⟩
  | cons slot rest ih =>
    obtain ⟨k, v⟩ := slot
    by_cases hk : k.same j = true
    · exact ⟨n, le_rfl, by simp [renewSlots, Slots.get?, hk]⟩
    · obtain ⟨m, hm, hget⟩ := @ih (v.renew thaw n).2
      refine ⟨m, le_trans (le_renew thaw v n) hm, ?_⟩
      simp only [renewSlots, Slots.get?, hk]
      exact hget

/-- What stands under a key without objects is duplicated, whatever is added beside it. -/
theorem IsRenewed.get? (h : IsRenewed thaw slots n renewed) (hj : j.holdsObject = false) :
    ∃ m, n ≤ m ∧ Slots.get? j renewed = (Slots.get? j slots).map fun u => (u.renew thaw m).1 := by
  rcases h with rfl | ⟨offset, rfl⟩
  · exact get?_renewSlots
  · rw [Slots.get?_refill hj (renewSlots_fst thaw slots n)]
    exact get?_renewSlots

theorem IsRenewed.eq (h : IsRenewed thaw slots n renewed)
    (hkeys : ∀ slot ∈ slots, slot.1.holdsObject = false) :
    renewed = (renewSlots thaw slots n).1 := by
  rcases h with rfl | ⟨offset, rfl⟩
  · rfl
  · exact refill_eq (renewSlots_fst thaw slots n) hkeys

end

section

variable (thaw : Bool) (v : Value) (n : Ident)

theorem get?_children_renew {j : Key} (hj : j.holdsObject = false) :
    ∃ m, n ≤ m ∧ Slots.get? j (v.renew thaw n).1.children =
      (Slots.get? j v.children).map fun u => (u.renew thaw m).1 := by
  by_cases ht : v.kind.isTraversable = true
  · cases v with
    | scalar s => simp [isTraversable_scalar] at ht
    | node id shape tag snapshot slots =>
      obtain ⟨i, shape', tag', snapshot', renewed, hi, ht', _, hrenewed, heq⟩ :=
        renew_node thaw ht n
      obtain ⟨m, hm, hget⟩ := hrenewed.get? hj
      rw [heq, children_node ht', children_node ht]
      exact ⟨m, le_trans (le_trans hi (Nat.le_succ i)) hm, hget⟩
  · have ht : v.kind.isTraversable = false := by simpa using ht
    rw [renew_of_not_traversable ht, children_of_not_traversable ht]
    exact ⟨n, le_rfl, rfl⟩

/-- A segment names in a duplicate the duplicate of what it names in the source. -/
theorem slot?_renew (segment : String) : ∃ m, n ≤ m ∧ (v.renew thaw n).1.slot? segment =
    (v.slot? segment).map (Option.map fun slot => (slot.1, (slot.2.renew thaw m).1)) := by
  obtain ⟨m, hm, htext⟩ := get?_children_renew thaw v n (Key.holdsObject_text segment)
  unfold slot?
  rw [htext]
  cases hfound : Slots.get? (Key.text segment) v.children with
  | some u => exact ⟨m, hm, rfl⟩
  | none =>
    rw [isTraversable_renew]
    by_cases ht : v.kind.isTraversable = true
    · simp only [Option.map_none, ht, if_true]
      rcases Path.index? segment with failure | _ | i
      · exact ⟨n, le_rfl, rfl⟩
      · exact ⟨n, le_rfl, rfl⟩
      · obtain ⟨k, hk, hindex⟩ := get?_children_renew thaw v n (Key.holdsObject_index i)
        refine ⟨k, hk, ?_⟩
        simp only [Except.map, Option.bind_some, hindex, Option.map_map]
        rfl
    · simp only [Option.map_none, ht]
      exact ⟨n, le_rfl, rfl⟩

/-- Segments lead in a duplicate to the duplicate of what they lead to in the source. -/
theorem walk_renew (segments : List String) : ∃ m, n ≤ m ∧ (v.renew thaw n).1.walk segments =
    (v.walk segments).map (Option.map fun u => (u.renew thaw m).1) := by
  induction segments generalizing v n with
  | nil => exact ⟨n, le_rfl, rfl⟩
  | cons segment rest ih =>
    obtain ⟨m, hm, hslot⟩ := slot?_renew thaw v n segment
    simp only [walk, hslot]
    cases hfound : v.slot? segment with
    | error failure => exact ⟨n, le_rfl, rfl⟩
    | ok found =>
      cases found with
      | none => exact ⟨n, le_rfl, rfl⟩
      | some slot =>
        obtain ⟨m', hm', hwalk⟩ := ih slot.2 m
        exact ⟨m', le_trans hm hm', hwalk⟩

theorem find?_renew (segments : List String) : ∃ m, n ≤ m ∧ (v.renew thaw n).1.find? segments =
    (v.find? segments).map (Option.map fun u => (u.renew thaw m).1) := by
  obtain ⟨m, hm, hwalk⟩ := walk_renew thaw v n segments
  refine ⟨m, hm, ?_⟩
  rw [find?, find?, hwalk]
  rcases v.walk segments with failure | _ | u
  · rfl
  · rfl
  · simp only [Except.map, Option.map_some, Option.filter, isMissing_renew]
    split <;> rfl

end

/-! ## Rising identities -/

/-- Along every walk identities rise, the first of them being no less than `low`, and all
containers on the way can be written. Walks do not ask for objects. -/
inductive Rises : Ident → Value → Prop where
  | leaf {low v} (ht : v.kind.isTraversable = false) : Rises low v
  | node {low id shape tag snapshot slots} (hid : low ≤ id) (hw : shape.kind.isWritable = true)
      (hslots : ∀ slot ∈ slots, slot.1.holdsObject = false → Rises (id + 1) slot.2) :
      Rises low (.node id shape tag snapshot slots)

namespace Rises

variable {low : Ident} {v u : Value} {w : Write}

theorem mono (h : Rises low v) {low' : Ident} (hle : low' ≤ low) : Rises low' v := by
  cases h with
  | leaf ht => exact leaf ht
  | node hid hw hslots => exact node (le_trans hle hid) hw hslots

theorem exists_node (h : Rises low v) (ht : v.kind.isTraversable = true) :
    ∃ id shape tag snapshot slots, v = .node id shape tag snapshot slots ∧ low ≤ id ∧
      shape.kind.isWritable = true ∧
      ∀ slot ∈ slots, slot.1.holdsObject = false → Rises (id + 1) slot.2 := by
  cases h with
  | leaf hnot => simp [hnot] at ht
  | node hid hw hslots => exact ⟨_, _, _, _, _, rfl, hid, hw, hslots⟩

theorem isWritable (h : Rises low v) (ht : v.kind.isTraversable = true) :
    v.kind.isWritable = true := by
  obtain ⟨id, shape, tag, snapshot, slots, rfl, _, hw, _⟩ := h.exists_node ht
  exact hw

theorem isTraversable_eq (h : Rises low v) : v.kind.isTraversable = v.kind.isWritable := by
  rw [Bool.eq_iff_iff]
  exact ⟨h.isWritable, isTraversable_of_isWritable⟩

theorem after (h : Rises low v) (hw : ∀ x ∈ w.content, x.kind.isTraversable = false) :
    Rises low (v.after w) := by
  induction h with
  | leaf ht =>
    refine leaf ?_
    rw [kind_after]
    exact ht
  | node hid hshape _ ih =>
    refine node hid hshape fun slot mem hk => ?_
    rcases mem_slots_after mem with hx | ⟨old, memOld, rfl⟩
    · exact leaf (hw _ hx)
    · exact ih old memOld hk

theorem afterAll (h : Rises low v) {ws : List Write}
    (hws : ∀ w ∈ ws, ∀ x ∈ w.content, x.kind.isTraversable = false) : Rises low (v.afterAll ws) := by
  induction ws generalizing v with
  | nil => exact h
  | cons w rest ih =>
    exact ih (h.after (hws w List.mem_cons_self)) fun u mem => hws u (List.mem_cons_of_mem _ mem)

end Rises

theorem rises_renew (v : Value) (n : Ident) : Rises n (v.renew true n).1 := by
  induction v using Value.induction generalizing n with
  | scalar s => exact .leaf (isTraversable_scalar s)
  | node id shape tag snapshot slots _ _ ihSlots =>
    by_cases ht : shape.kind.isTraversable = true
    · obtain ⟨i, shape', tag', snapshot', renewed, hi, _, hw, hrenewed, heq⟩ :=
        renew_node true ht n
      rw [heq]
      refine .node hi (hw rfl) fun slot mem hk => ?_
      obtain ⟨old, memOld, m, hm, rfl⟩ := hrenewed.mem mem hk
      exact (ihSlots old memOld m).mono hm
    · have ht : (node id shape tag snapshot slots).kind.isTraversable = false :=
        Bool.eq_false_of_not_eq_true ht
      rw [renew_of_not_traversable ht]
      exact .leaf ht

/-- A write elsewhere changes no slot that a segment names, but in what it holds. -/
theorem slot?_after {w : Write} {id : Ident} {shape : Shape} {tag snapshot : Option Value}
    {slots : List Slot} (h : id ≠ w.target) (segment : String) :
    ((node id shape tag snapshot slots).after w).slot? segment =
      ((node id shape tag snapshot slots).slot? segment).map
        (Option.map fun slot => (slot.1, slot.2.after w)) := by
  have hget : ∀ j, Slots.get? j ((node id shape tag snapshot slots).after w).children =
      (Slots.get? j (node id shape tag snapshot slots).children).map fun u => u.after w := by
    intro j
    by_cases ht : shape.kind.isTraversable = true
    · rw [after, if_neg h, children_node ht, children_node ht, afterSlots_eq_map, Slots.get?_map]
    · have ht : (node id shape tag snapshot slots).kind.isTraversable = false :=
        Bool.eq_false_of_not_eq_true ht
      rw [children_of_not_traversable ht, children_of_not_traversable (by rwa [kind_after])]
      rfl
  unfold slot?
  rw [hget, kind_after]
  cases Slots.get? (Key.text segment) (node id shape tag snapshot slots).children with
  | some u => rfl
  | none =>
    by_cases ht : (node id shape tag snapshot slots).kind.isTraversable = true
    · simp only [Option.map_none, ht, if_true]
      rcases Path.index? segment with failure | _ | i
      · rfl
      · rfl
      · simp only [Except.map, Option.bind_some, hget, Option.map_map]
        rfl
    · simp only [Option.map_none, ht]
      rfl

namespace Rises

variable {low : Ident} {v u child : Value} {w : Write} {segment : String} {segments : List String}
  {k : Key}

theorem slot? (h : Rises low v) (hs : v.slot? segment = .ok (some (k, child))) :
    ∃ id shape tag snapshot slots, v = .node id shape tag snapshot slots ∧ low ≤ id ∧
      Rises (id + 1) child := by
  obtain ⟨hget, hfound⟩ := slot?_eq_some.mp hs
  have hk : k.holdsObject = false := by
    rcases hfound with rfl | ⟨_, i, _, rfl⟩ <;> rfl
  obtain ⟨j, hj, mem⟩ := get?_mem hget
  have ht : v.kind.isTraversable = true := by
    by_contra hnot
    rw [children_of_not_traversable (by simpa using hnot)] at mem
    simp at mem
  obtain ⟨id, shape, tag, snapshot, slots, rfl, hid, hw, hslots⟩ := h.exists_node ht
  rw [children_node (isTraversable_of_isWritable hw)] at mem
  exact ⟨id, shape, tag, snapshot, slots, rfl, hid,
    hslots _ mem (by rw [Key.holdsObject_congr hj, hk])⟩

theorem walk (h : Rises low v) (hu : v.walk segments = .ok (some u)) : Rises low u := by
  induction segments generalizing v low with
  | nil =>
    obtain rfl : v = u := by simpa [Value.walk] using hu
    exact h
  | cons segment rest ih =>
    unfold Value.walk at hu
    split at hu
    · simp at hu
    · simp at hu
    · rename_i k child hslot
      obtain ⟨id, _, _, _, _, _, hid, hchild⟩ := h.slot? hslot
      exact (ih hchild hu).mono (le_trans hid (Nat.le_succ id))

/-- A walk that leads no further than to the target of a write leads there after the write too. -/
theorem walk_after (h : Rises low v) {id : Ident} {shape : Shape} {tag snapshot : Option Value}
    {slots : List Slot} (hu : v.walk segments = .ok (some (.node id shape tag snapshot slots)))
    (ht : shape.kind.isTraversable = true) (hw : id ≤ w.target) :
    (v.after w).walk segments = .ok (some ((Value.node id shape tag snapshot slots).after w)) := by
  induction segments generalizing v low with
  | nil =>
    obtain rfl : v = .node id shape tag snapshot slots := by simpa [Value.walk] using hu
    rfl
  | cons segment rest ih =>
    unfold Value.walk at hu
    split at hu
    · simp at hu
    · simp at hu
    · rename_i k child hslot
      obtain ⟨i, _, _, _, _, rfl, _, hchild⟩ := h.slot? hslot
      obtain ⟨_, _, _, _, _, heq, hlow, _⟩ := (hchild.walk hu).exists_node ht
      obtain ⟨rfl, _⟩ := Value.node.inj heq
      have hi : i ≠ w.target := by lia
      rw [Value.walk, slot?_after hi, hslot]
      exact ih hchild hu

theorem walk_afterAll (h : Rises low v) {id : Ident} {shape : Shape} {tag snapshot : Option Value}
    {slots : List Slot} (hu : v.walk segments = .ok (some (.node id shape tag snapshot slots)))
    (ht : shape.kind.isTraversable = true) {ws : List Write} (hws : ∀ w ∈ ws, id ≤ w.target ∧
      ∀ x ∈ w.content, x.kind.isTraversable = false) : (v.afterAll ws).walk segments =
        .ok (some ((Value.node id shape tag snapshot slots).afterAll ws)) := by
  induction ws generalizing v tag snapshot slots with
  | nil => exact hu
  | cons w rest ih =>
    obtain ⟨hw, hcontent⟩ := hws w List.mem_cons_self
    exact ih (h.after hcontent) (h.walk_after hu ht hw) fun u mem =>
      hws u (List.mem_cons_of_mem _ mem)

end Rises

variable {v u child x : Value} {before rest : List String} {segment last : String} {k : Key}

/-! ## Segments in two parts -/

theorem walk_append (v : Value) (before rest : List String) :
    v.walk (before ++ rest) = match v.walk before with
      | .error failure => .error failure
      | .ok none => .ok none
      | .ok (some u) => u.walk rest := by
  induction before generalizing v with
  | nil => rfl
  | cons segment others ih =>
    simp only [List.cons_append, walk]
    split <;> simp_all

theorem find?_append (hu : v.walk before = .ok (some u)) (rest : List String) :
    v.find? (before ++ rest) = u.find? rest := by
  rw [find?, walk_append, hu, find?]

theorem overwrite_append (hu : v.walk before = .ok (some u)) (hrest : rest ≠ []) (x : Value) :
    v.overwrite (before ++ rest) x = u.overwrite rest x := by
  rw [overwrite, List.getLast?_append_of_ne_nil _ hrest, List.dropLast_append_of_ne_nil hrest,
    walk_append, hu, overwrite]

theorem find?_cons (hslot : v.slot? segment = .ok (some (k, child))) (rest : List String) :
    v.find? (segment :: rest) = child.find? rest := by
  rw [find?, walk, hslot, find?]

theorem overwrite_cons (hslot : v.slot? segment = .ok (some (k, child))) (hrest : rest ≠ [])
    (x : Value) : v.overwrite (segment :: rest) x = child.overwrite rest x := by
  have hwalk : v.walk [segment] = .ok (some child) := by simp [walk, hslot]
  exact overwrite_append hwalk hrest x

theorem slot?_isOk (v : Value) {segment : String} (h : ∃ i, Path.index? segment = .ok i) :
    ∃ slot, v.slot? segment = .ok slot := by
  obtain ⟨i, hi⟩ := h
  unfold slot?
  split
  · exact ⟨_, rfl⟩
  · split
    · exact ⟨_, by rw [hi]; rfl⟩
    · exact ⟨_, rfl⟩

theorem walk_isOk (v : Value) {segments : List String}
    (h : ∀ segment ∈ segments, ∃ i, Path.index? segment = .ok i) :
    ∃ found, v.walk segments = .ok found := by
  induction segments generalizing v with
  | nil => exact ⟨_, rfl⟩
  | cons segment rest ih =>
    obtain ⟨_ | ⟨k, child⟩, hslot⟩ := v.slot?_isOk (h segment List.mem_cons_self)
    · exact ⟨none, by rw [walk, hslot]⟩
    · obtain ⟨found, hfound⟩ := ih child fun s mem => h s (List.mem_cons_of_mem _ mem)
      exact ⟨found, by rw [walk, hslot]; exact hfound⟩

/-! ## Writes below a container -/

theorem Rises.writesAt {low : Ident} {ws : List Write} (h : Rises low v)
    (hx : x.kind.isTraversable = false) (hws : v.writesAt last x = .ok (some ws)) :
    ∀ w ∈ ws, low ≤ w.target ∧ ∀ y ∈ w.content, y.kind.isTraversable = false := by
  have hwrite : ∀ k, ∀ w ∈ v.writeTo k x, low ≤ w.target ∧
      ∀ y ∈ w.content, y.kind.isTraversable = false := by
    intro k w hw
    obtain ⟨shape, tag, snapshot, slots, rfl, hwritable, _, hcontent⟩ := writeTo_eq_some hw
    obtain ⟨_, _, _, _, _, heq, hlow, _⟩ := h.exists_node (isTraversable_of_isWritable hwritable)
    obtain ⟨rfl, _⟩ := node.inj heq
    exact ⟨hlow, fun y hy => isTraversable_settled hx (hcontent ▸ hy)⟩
  unfold Value.writesAt at hws
  split at hws
  · simp at hws
  · split at hws
    · obtain rfl := Option.some.inj (Except.ok.inj hws)
      intro w mem
      obtain ⟨k, _, hw⟩ := List.mem_filterMap.mp mem
      exact hwrite k w hw
    · cases hslot : v.slot? last with
      | error failure => simp [hslot, Except.map] at hws
      | ok slot =>
        rcases slot with _ | ⟨k, child⟩
        · simp [hslot, Except.map] at hws
        · simp only [hslot, Except.map, Option.map_some, Except.ok.injEq, Option.some.injEq] at hws
          subst hws
          exact fun w mem => hwrite k w (by simpa using mem)

theorem Rises.overwrite {low : Ident} {segments : List String} {ws : List Write} (h : Rises low v)
    (hx : x.kind.isTraversable = false) (hws : v.overwrite segments x = .ok (some ws)) :
    ∀ w ∈ ws, low ≤ w.target ∧ ∀ y ∈ w.content, y.kind.isTraversable = false := by
  unfold Value.overwrite at hws
  split at hws
  · simp at hws
  · split at hws
    · simp at hws
    · simp at hws
    · rename_i container hwalk
      exact (h.walk hwalk).writesAt hx hws

/-- Writes elsewhere change what the slots of a container hold, not which slots there are. -/
theorem exists_afterAll {ws : List Write} {id : Ident} {shape : Shape}
    {tag snapshot : Option Value} {slots : List Slot} (h : ∀ w ∈ ws, id ≠ w.target) :
    ∃ tag' snapshot' slots', (node id shape tag snapshot slots).afterAll ws =
        node id shape tag' snapshot' slots' ∧ slots'.map Prod.fst = slots.map Prod.fst := by
  induction ws generalizing tag snapshot slots with
  | nil => exact ⟨_, _, _, rfl, rfl⟩
  | cons w rest ih =>
    rw [afterAll_cons, after, if_neg (h w List.mem_cons_self)]
    obtain ⟨tag', snapshot', slots', heq, hkeys⟩ := ih fun u mem => h u (List.mem_cons_of_mem _ mem)
    refine ⟨tag', snapshot', slots', heq, ?_⟩
    rw [hkeys, afterSlots_eq_map, List.map_map]
    rfl

end Value

end Redaction
