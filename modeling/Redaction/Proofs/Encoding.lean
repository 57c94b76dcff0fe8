import Redaction.Proofs.Siblings

/-!
# What the encoder opens

The encoder writes out the slots of built-in mappings, lists and tuples. Any other container is a
string to it, whatever stands inside. So it can be stopped by a key only in a built-in mapping that
it gets to through such containers. The plain form opens more: the other mappings and sequences are
written out too, and with them come mappings that were part of a string before. All of these have
been given keys that JSON can hold, so the second encoding is never stopped.

Main statement: `Value.json_returns`.
-/

namespace Redaction

namespace Value

mutual

/-- The containers of a value whose slots the encoder writes out, the outermost one first. -/
def opened : Value → List Value
  | scalar _ => []
  | node id shape tag snapshot slots =>
    if shape.isOpened then node id shape tag snapshot slots :: openedSlots slots else []

/-- The containers in slots whose slots the encoder writes out. -/
def openedSlots : List (Key × Value) → List Value
  | [] => []
  | (_, v) :: rest => v.opened ++ openedSlots rest

end

@[simp] theorem openedSlots_eq_flatMap (slots : List Slot) :
    openedSlots slots = slots.flatMap fun slot => slot.2.opened := by
  induction slots with
  | nil => rfl
  | cons slot rest ih => simp [openedSlots, ih]

/-- JSON can hold the keys of the value, if it is a mapping. -/
def HasNames (v : Value) : Prop :=
  v.kind = .mapping → ∀ slot ∈ v.slots, slot.1.isName = true

section

variable {u v : Value} {id : Ident} {shape : Shape} {tag snapshot : Option Value}
  {slots : List Slot}

theorem mem_opened_node (ho : shape.isOpened = true) :
    u ∈ (node id shape tag snapshot slots).opened ↔
      u = node id shape tag snapshot slots ∨ ∃ slot ∈ slots, u ∈ slot.2.opened := by
  simp [opened, ho]

/-- An opened container is encoded if its values are and, in a mapping, its keys have names. -/
theorem isOk_encode_node (ho : shape.isOpened = true)
    (h : (node id shape tag snapshot slots).hasText = true) :
    (node id shape tag snapshot slots).encode.isOk = true ↔
      (node id shape tag snapshot slots).HasNames ∧
        ∀ slot ∈ slots, slot.2.encode.isOk = true := by
  have hitems := @isOk_encodeItems slots
  rw [hasText, slotsHaveText_eq_all, List.all_eq_true] at h
  cases shape with
  | view => cases ho
  | tuple form => simp [encode, isOk_map, HasNames, kind, Shape.kind, hitems]
  | sequence form =>
    cases form with
    | plain => simp [encode, isOk_map, HasNames, kind, Shape.kind, hitems]
    | _ => cases ho
  | mapping form =>
    have hbuiltIn : (Shape.mapping form).isBuiltIn = true := ho
    have hname : ∀ slot ∈ slots, (slot.1.jsonName.isOk = true ↔ slot.1.isName = true) := by
      intro slot mem
      have hboth := (Bool.and_eq_true _ _).mp (h slot mem)
      have hkey : slot.1.hasText = true := by simpa [Shape.showsKeys] using hboth.1
      exact ⟨Key.isName_of_isOk_jsonName, fun hname => Key.isOk_jsonName hname hkey⟩
    rw [encode, if_pos hbuiltIn, isOk_map, isOk_encodeMembers]
    simp only [HasNames, kind, Shape.kind, Value.slots, forall_const, ← forall₂_and]
    exact forall₂_congr fun slot mem => and_congr_left fun _ => hname slot mem

/-- A value without long integers is encoded as it stands exactly if JSON can hold the keys of all
mappings that the encoder opens. -/
theorem isOk_encode_iff (h : v.hasText = true) :
    v.encode.isOk = true ↔ ∀ m ∈ v.opened, m.HasNames := by
  induction v using Value.induction with
  | scalar s => simp [opened, encode, isOk_scalar h]
  | node id shape tag snapshot slots _ _ ihSlots =>
    by_cases ho : shape.isOpened = true
    · have hbelow : ∀ slot ∈ slots, slot.2.hasText = true := by
        rw [hasText, slotsHaveText_eq_all, List.all_eq_true] at h
        exact fun slot mem => ((Bool.and_eq_true _ _).mp (h slot mem)).2
      have hslots : (∀ slot ∈ slots, slot.2.encode.isOk = true) ↔
          ∀ m, (∃ slot ∈ slots, m ∈ slot.2.opened) → m.HasNames := by
        constructor
        · rintro hok m ⟨slot, mem, hm⟩
          exact (ihSlots slot mem (hbelow slot mem)).mp (hok slot mem) m hm
        · intro hnames slot mem
          exact (ihSlots slot mem (hbelow slot mem)).mpr fun m hm => hnames m ⟨slot, mem, hm⟩
      simp only [isOk_encode_node ho h, hslots, mem_opened_node ho, or_imp, forall_and, forall_eq]
    · have ho : shape.isOpened = false := by simpa using ho
      simp [encode_of_not_opened ho, isOk_map, isOk_display h, opened, ho]

theorem hasText_plain (h : v.hasText = true) : v.plain.hasText = true := by
  induction v using Value.induction with
  | scalar s => exact h
  | node id shape tag snapshot slots _ _ ihSlots =>
    have hview := h
    rw [hasText, slotsHaveText_eq_all, List.all_eq_true] at h
    have hslot : ∀ slot ∈ slots, slot.2.plain.hasText = true := fun slot mem =>
      ihSlots slot mem ((Bool.and_eq_true _ _).mp (h slot mem)).2
    cases shape with
    | view => exact hview
    | sequence form | tuple form =>
      rw [plain, hasText, slotsHaveText_eq_all, plainSlots_eq_map, List.all_map, List.all_eq_true]
      exact fun slot mem => by simp [Shape.showsKeys, hslot slot mem]
    | mapping form =>
      rw [plain, dict, hasText, slotsHaveText_eq_all, List.all_eq_true]
      have hall : ∀ slot ∈ Slots.ofPairs (plainSlots Key.plain slots),
          slot.1.hasText = true ∧ slot.2.hasText = true := by
        refine Slots.forall_ofPairs (P := fun k => k.hasText = true)
          (Q := fun v => v.hasText = true) ?_
        rw [plainSlots_eq_map, List.forall_mem_map]
        intro slot mem
        have hboth := (Bool.and_eq_true _ _).mp (h slot mem)
        exact ⟨Key.hasText_plain (by simpa [Shape.showsKeys] using hboth.1), hslot slot mem⟩
      exact fun slot mem => by simp [hall slot mem]

end

/-- The encoder returns for every value without integers of too many digits. Encoding the value as it
stands fails exactly if JSON cannot hold some key of a mapping that the encoder opens, and for no
other reason. In the plain form it can hold every key of every mapping that the encoder opens there,
so the text of the plain form is what is returned then. -/
theorem json_returns {v : Value} (h : v.hasText = true) : ∃ text, v.json = .ok text ∧
    (v.encode = .error .unwritableName ↔ ∃ m ∈ v.opened, m.kind = .mapping ∧
      ∃ slot ∈ m.slots, slot.1.isName = false) ∧
    (v.encode = .ok text ∨
      v.encode = .error .unwritableName ∧ v.encodePlain = .ok text) ∧
    ∀ m ∈ v.plain.opened, m.kind = .mapping → ∀ slot ∈ m.slots, slot.1.isName = true := by
  obtain ⟨text, htext⟩ := json_isOk h
  refine ⟨text, htext, ?_, json_eq_ok htext, ?_⟩
  · have hfails : v.encode = .error .unwritableName ↔ ¬v.encode.isOk = true := by
      cases hencode : v.encode with
      | ok direct => simp [Except.toBool]
      | error failure =>
        obtain rfl := (encode_eq_error hencode).resolve_left (by simp [h])
        simp [Except.toBool]
    rw [hfails, isOk_encode_iff h]
    simp [HasNames]
  · exact (isOk_encode_iff (hasText_plain h)).mp (isOk_encode_plain h)

/-- A mapping with a pair as a key, and below it a wrapped mapping with such a key. -/
def paired : Value := .dict 0
  [(.tuple .plain [.index 1, .index 2], node 1 (.mapping .wrapped) none none
    [(.tuple .plain [.index 3], .atom (.int 4))])]

theorem json_returns_paired : paired.hasText = true ∧ ∃ text, paired.json = .ok text ∧
    paired.encode = .error .unwritableName ∧ paired.encodePlain = .ok text := by
  have hshort : paired.hasText = true := by decide
  obtain ⟨text, htext, hfails, hform, _⟩ := json_returns hshort
  have hunnamed : paired.encode = .error .unwritableName :=
    hfails.mpr ⟨paired, by simp [paired, dict, opened, Shape.isOpened, Shape.isBuiltIn], rfl,
      _, List.mem_cons_self, rfl⟩
  refine ⟨hshort, text, htext, hunnamed, ?_⟩
  exact (hform.resolve_left fun hok => by simp [hunnamed] at hok).2

/-- A wrapped mapping in a bounded sequence is no obstacle before the plain form opens both. -/
example : (node 0 (.sequence (.bounded none)) none none
      [(.index 0, node 1 (.mapping .wrapped) none none [(.tuple .plain [], .null)])]).opened = [] ∧
    ((node 0 (.sequence (.bounded none)) none none [(.index 0, node 1 (.mapping .wrapped) none none
      [(.tuple .plain [], .null)])]).plain.opened.map Value.kind) = [.sequence, .mapping] := by
  decide

end Value

end Redaction
