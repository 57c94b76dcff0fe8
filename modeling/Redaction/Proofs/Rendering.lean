import Redaction.Value.Json
import Redaction.Proofs.Likeness

/-!
# Texts of values

Literals, texts and JSON texts show what a value holds and nothing of the identities of its
containers, so a value and its content have the same ones.
-/

namespace Redaction

namespace Slots

theorem put_map (g : Value → Value) (k : Key) (v : Value) (slots : List Slot) :
    put k (g v) (slots.map fun slot => (slot.1, g slot.2)) =
      (put k v slots).map fun slot => (slot.1, g slot.2) := by
  induction slots with
  | nil => rfl
  | cons slot rest ih =>
    by_cases hk : slot.1.same k = true
    · simp [put, hk]
    · simp [put, hk, ih]

theorem ofPairs_map (g : Value → Value) (pairs : List Slot) :
    ofPairs (pairs.map fun slot => (slot.1, g slot.2)) =
      (ofPairs pairs).map fun slot => (slot.1, g slot.2) := by
  have hfold : ∀ slots : List Slot,
      (pairs.map fun slot => (slot.1, g slot.2)).foldl (fun slots slot => put slot.1 slot.2 slots)
          (slots.map fun slot => (slot.1, g slot.2)) =
        (pairs.foldl (fun slots slot => put slot.1 slot.2 slots) slots).map
          fun slot => (slot.1, g slot.2) := by
    induction pairs with
    | nil => exact fun slots => rfl
    | cons slot rest ih =>
      intro slots
      rw [List.map_cons, List.foldl_cons, List.foldl_cons, put_map, ih]
  exact hfold []

end Slots

namespace Value

@[simp] theorem literals_eq_map (slots : List Slot) :
    literals slots = slots.map fun slot => (slot.1.literal, slot.2.literal) := by
  induction slots with
  | nil => rfl
  | cons slot rest ih => simp [literals, ih]

@[simp] theorem plainSlots_eq_map (name : Key → Key) (slots : List Slot) :
    plainSlots name slots = slots.map fun slot => (name slot.1, slot.2.plain) := by
  induction slots with
  | nil => rfl
  | cons slot rest ih => simp [plainSlots, ih]

theorem literal_content (v : Value) : v.content.literal = v.literal := by
  induction v using Value.induction with
  | scalar s => rfl
  | node id shape tag snapshot slots _ _ ihSlots =>
    by_cases ht : shape.kind.isTraversable = true
    · have hlost : (lost snapshot).isSome = snapshot.isSome := by cases snapshot <;> rfl
      have hslots : literals (likenessSlots false slots) = literals slots := by
        rw [likenessSlots_eq_map, literals_eq_map, literals_eq_map, List.map_map]
        exact List.map_congr_left fun slot mem => by rw [← ihSlots slot mem]; rfl
      rw [content, likeness_node ht (.inl rfl), literal, literal, hlost, hslots]
    · have ht : shape.kind.isTraversable = false := by simpa using ht
      rw [content, likeness_untraversed ht]

theorem wording_content (v : Value) : v.content.wording = v.wording := by
  cases v with
  | scalar s => rfl
  | node id shape tag snapshot slots =>
    by_cases ht : shape.kind.isTraversable = true
    · have hliteral := literal_content (node id shape tag snapshot slots)
      rw [content, likeness_node ht (.inl rfl)] at hliteral ⊢
      cases shape with
      | view => simp [Shape.kind, Kind.isTraversable] at ht
      | _ => exact hliteral
    · have ht : shape.kind.isTraversable = false := by simpa using ht
      rw [content, likeness_untraversed ht]

@[simp] theorem slotsHaveText_eq_all (showsKeys : Bool) (slots : List Slot) :
    slotsHaveText showsKeys slots =
      slots.all fun slot => (!showsKeys || slot.1.hasText) && slot.2.hasText := by
  induction slots with
  | nil => rfl
  | cons slot rest ih => simp [slotsHaveText, ih]

@[simp] theorem slotsHavePlain_eq_all (named : Key → Bool) (slots : List Slot) :
    slotsHavePlain named slots = slots.all fun slot => named slot.1 && slot.2.hasPlain := by
  induction slots with
  | nil => rfl
  | cons slot rest ih => simp [slotsHavePlain, ih]

/-- What holds of all slots by their keys and their values is told by the contents. -/
theorem all_likenessSlots {p : Value → Bool} {slots : List Slot} (named : Key → Bool)
    (h : ∀ slot ∈ slots, p slot.2.content = p slot.2) :
    ((likenessSlots false slots).all fun slot => named slot.1 && p slot.2) =
      slots.all fun slot => named slot.1 && p slot.2 := by
  rw [likenessSlots_eq_map, List.all_map, Bool.eq_iff_iff, List.all_eq_true, List.all_eq_true]
  exact forall₂_congr fun slot mem => by rw [Function.comp_apply, ← h slot mem]

theorem hasText_content (v : Value) : v.content.hasText = v.hasText := by
  induction v using Value.induction with
  | scalar s => rfl
  | node id shape tag snapshot slots _ _ ihSlots =>
    by_cases ht : shape.kind.isTraversable = true
    · rw [content, likeness_node ht (.inl rfl), hasText, hasText, slotsHaveText_eq_all,
        slotsHaveText_eq_all]
      exact all_likenessSlots (fun k => !shape.showsKeys || k.hasText) ihSlots
    · have ht : shape.kind.isTraversable = false := by simpa using ht
      rw [content, likeness_untraversed ht]

theorem display_content (v : Value) : v.content.display = v.display := by
  rw [display, display, hasText_content, wording_content]

theorem encodeItems_content {slots : List Slot}
    (h : ∀ slot ∈ slots, slot.2.content.encode = slot.2.encode) :
    encodeItems (likenessSlots false slots) = encodeItems slots := by
  induction slots with
  | nil => rfl
  | cons slot rest ih =>
    obtain ⟨k, v⟩ := slot
    have hv := h (k, v) List.mem_cons_self
    have hrest := ih fun slot mem => h slot (List.mem_cons_of_mem _ mem)
    rw [likenessSlots, encodeItems, encodeItems, hrest, ← hv]

theorem encodeMembers_content {slots : List Slot}
    (h : ∀ slot ∈ slots, slot.2.content.encode = slot.2.encode) :
    encodeMembers (likenessSlots false slots) = encodeMembers slots := by
  induction slots with
  | nil => rfl
  | cons slot rest ih =>
    obtain ⟨k, v⟩ := slot
    have hv := h (k, v) List.mem_cons_self
    have hrest := ih fun slot mem => h slot (List.mem_cons_of_mem _ mem)
    rw [likenessSlots, encodeMembers, encodeMembers, hrest, ← hv]

theorem encode_content (v : Value) : v.content.encode = v.encode := by
  induction v using Value.induction with
  | scalar s => rfl
  | node id shape tag snapshot slots _ _ ihSlots =>
    by_cases ht : shape.kind.isTraversable = true
    · have hdisplay := display_content (node id shape tag snapshot slots)
      have hitems := encodeItems_content ihSlots
      have hmembers := encodeMembers_content ihSlots
      rw [content, likeness_node ht (.inl rfl)] at hdisplay ⊢
      cases shape with
      | view => simp [Shape.kind, Kind.isTraversable] at ht
      | tuple form => rw [encode, encode, hitems]
      | mapping form => rw [encode, encode, hmembers, hdisplay]
      | sequence form =>
        cases form with
        | plain => rw [encode, encode, hitems]
        | _ => exact congrArg (Except.map Text.jsonString) hdisplay
    · have ht : shape.kind.isTraversable = false := by simpa using ht
      rw [content, likeness_untraversed ht]

theorem hasPlain_content (v : Value) : v.content.hasPlain = v.hasPlain := by
  induction v using Value.induction with
  | scalar s => rfl
  | node id shape tag snapshot slots _ _ ihSlots =>
    by_cases ht : shape.kind.isTraversable = true
    · rw [content, likeness_node ht (.inl rfl)]
      cases shape with
      | view => simp [Shape.kind, Kind.isTraversable] at ht
      | mapping form =>
        rw [hasPlain, hasPlain, slotsHavePlain_eq_all, slotsHavePlain_eq_all]
        exact all_likenessSlots (fun k => k.isName || k.hasText) ihSlots
      | sequence form | tuple form =>
        rw [hasPlain, hasPlain, slotsHavePlain_eq_all, slotsHavePlain_eq_all]
        exact all_likenessSlots (fun _ => true) ihSlots
    · have ht : shape.kind.isTraversable = false := by simpa using ht
      rw [content, likeness_untraversed ht]

theorem plain_content (v : Value) : v.content.plain = v.plain.content := by
  induction v using Value.induction with
  | scalar s => rfl
  | node id shape tag snapshot slots _ _ ihSlots =>
    by_cases ht : shape.kind.isTraversable = true
    · have hslots : ∀ name, plainSlots name (likenessSlots false slots) =
          (plainSlots name slots).map fun slot => (slot.1, slot.2.content) := by
        intro name
        rw [likenessSlots_eq_map, plainSlots_eq_map, plainSlots_eq_map, List.map_map, List.map_map]
        exact List.map_congr_left fun slot mem => by
          simp only [Function.comp_apply]
          rw [← ihSlots slot mem]
      rw [content, likeness_node ht (.inl rfl)]
      cases shape with
      | view => simp [Shape.kind, Kind.isTraversable] at ht
      | mapping form =>
        rw [plain, plain, dict, dict, content, likeness_node rfl (.inl rfl), hslots,
          Slots.ofPairs_map, likenessSlots_eq_map]
        rfl
      | sequence form =>
        rw [plain, plain, content, likeness_node rfl (.inl rfl), hslots, likenessSlots_eq_map]
        rfl
      | tuple form =>
        rw [plain, plain, content, likeness_node rfl (.inl rfl), hslots, likenessSlots_eq_map]
        rfl
    · have hview : shape = .view := by
        cases shape <;> simp_all [Shape.kind, Kind.isTraversable]
      subst hview
      rfl

theorem json_content (v : Value) : v.content.json = v.json := by
  rw [json, json, encodePlain, encodePlain, encode_content, hasPlain_content, plain_content,
    encode_content]

end Value

end Redaction
