import Redaction.Value.Basic

/-!
# Writes

A write changes one slot of one container. It shows wherever that container occurs: `v.after w` is
the value that `v` has become by the write `w`, whether `w` was made through `v` or through another
value that shares the container.
-/

namespace Redaction

structure Write where
  target : Ident
  key : Key
  content : Option Value

/-- What a write does to the slots of its target. -/
def Write.apply (w : Write) (slots : List Slot) : List Slot :=
  match w.content with
  | some v => Slots.put w.key v slots
  | none => Slots.erase w.key slots

namespace Value

mutual

/-- The value after a write, at every occurrence of the container that was written. -/
def after (w : Write) : Value → Value
  | scalar s => scalar s
  | node id shape tag snapshot slots =>
    node id shape (afterOption w tag) (afterOption w snapshot)
      (if id = w.target then w.apply (afterSlots w slots) else afterSlots w slots)

def afterOption (w : Write) : Option Value → Option Value
  | none => none
  | some v => some (v.after w)

/-- Slots after a write into one of their values. -/
def afterSlots (w : Write) : List (Key × Value) → List (Key × Value)
  | [] => []
  | (k, v) :: rest => (k, v.after w) :: afterSlots w rest

end

/-- The value after several writes, the first one made first. -/
def afterAll (ws : List Write) (v : Value) : Value := ws.foldl (fun v w => v.after w) v

mutual

/-- The identities of all containers in a value, in its tags and its snapshots. -/
def ids : Value → List Ident
  | scalar _ => []
  | node id _ tag snapshot slots => id :: (idsOption tag ++ idsOption snapshot ++ idsSlots slots)

/-- The identities in a value that may be absent. -/
def idsOption : Option Value → List Ident
  | none => []
  | some v => v.ids

def idsSlots : List (Key × Value) → List Ident
  | [] => []
  | (_, v) :: rest => v.ids ++ idsSlots rest

end

@[simp] theorem afterSlots_eq_map (w : Write) (slots : List Slot) :
    afterSlots w slots = slots.map fun slot => (slot.1, slot.2.after w) := by
  induction slots with
  | nil => rfl
  | cons slot rest ih => simp [afterSlots, ih]

@[simp] theorem idsSlots_eq_flatMap (slots : List Slot) :
    idsSlots slots = slots.flatMap fun slot => slot.2.ids := by
  induction slots with
  | nil => rfl
  | cons slot rest ih => simp [idsSlots, ih]

def bound (v : Value) : Ident := v.ids.foldl (fun bound id => max bound (id + 1)) 0

theorem after_of_not_mem (w : Write) (v : Value) (h : w.target ∉ v.ids) : v.after w = v := by
  induction v using Value.induction with
  | scalar s => rfl
  | node id shape tag snapshot slots ihTag ihSnapshot ihSlots =>
    simp only [ids, idsSlots_eq_flatMap, List.mem_cons, List.mem_append, List.mem_flatMap,
      not_or, not_exists, not_and] at h
    have hTag : afterOption w tag = tag := by
      cases tag with
      | none => rfl
      | some v => rw [afterOption, ihTag v rfl (by simpa [idsOption] using h.2.1.1)]
    have hSnapshot : afterOption w snapshot = snapshot := by
      cases snapshot with
      | none => rfl
      | some v => rw [afterOption, ihSnapshot v rfl (by simpa [idsOption] using h.2.1.2)]
    have hSlots : afterSlots w slots = slots := by
      rw [afterSlots_eq_map]
      refine (List.map_congr_left fun slot mem => ?_).trans (List.map_id slots)
      simp [ihSlots slot mem (h.2.2 slot mem)]
    rw [after, hTag, hSnapshot, hSlots, if_neg (Ne.symm h.1)]

end Redaction.Value
