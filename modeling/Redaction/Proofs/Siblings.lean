import Redaction.Proofs.Layers
import Redaction.Proofs.Rendering

/-!
# JSON texts of lists

The JSON text of a list is made of those of its items, each written as it would be alone. A single
item with a key that JSON cannot hold has the whole list written in its plain form. That changes
nothing for the others as long as all their containers are built-in mappings, lists and tuples; any
other container stands in the text as a string of its literal, but is written out in the plain form.

A value without integers of too many digits has a JSON text, since its plain form has one.

Main statement: `Value.json_list`.
-/

namespace Redaction

theorem isOk_iff {α : Type} {outcome : Except Failure α} :
    outcome.isOk = true ↔ ∃ a, outcome = .ok a := by
  cases outcome <;> simp [Except.toBool]

theorem isOk_map {α β : Type} (f : α → β) (outcome : Except Failure α) :
    (outcome.map f).isOk = outcome.isOk := by
  cases outcome <;> rfl

theorem map_eq_ok {α β : Type} {f : α → β} {outcome : Except Failure α} {b : β} :
    outcome.map f = .ok b ↔ ∃ a, outcome = .ok a ∧ f a = b := by
  cases outcome <;> simp [Except.map]

theorem map_eq_error {α β : Type} {f : α → β} {outcome : Except Failure α} {failure : Failure} :
    outcome.map f = .error failure ↔ outcome = .error failure := by
  cases outcome <;> simp [Except.map]

theorem isOk_integer (n : Int) : (Text.integer n).isOk = Text.isShort n := by
  unfold Text.integer
  split <;> simp_all [Except.toBool]

theorem integer_eq_error {n : Int} {failure : Failure} (h : Text.integer n = .error failure) :
    failure = .longInteger ∧ Text.isShort n = false := by
  unfold Text.integer at h
  split at h <;> simp_all

namespace Key

theorem isName_plain (k : Key) : k.plain.isName = true := by
  unfold plain
  split
  · assumption
  · rfl

theorem isName_of_isOk_jsonName {k : Key} (h : k.jsonName.isOk = true) : k.isName = true := by
  cases k with
  | atom a => cases a <;> first | rfl | cases h
  | _ => cases h

theorem jsonName_of_not_isName {k : Key} (h : ¬k.isName = true) :
    k.jsonName = .error .unwritableName := by
  cases k with
  | atom a => cases a <;> first | rfl | exact absurd rfl h
  | _ => rfl

theorem isOk_jsonName {k : Key} (hname : k.isName = true) (h : k.hasText = true) :
    k.jsonName.isOk = true := by
  unfold isName at hname
  split at hname
  case h_3 n => exact (isOk_integer n).trans h
  all_goals first | rfl | cases hname

theorem jsonName_eq_error {k : Key} {failure : Failure} (h : k.jsonName = .error failure) :
    failure = .longInteger ∧ k.hasText = false ∨ failure = .unwritableName ∧ k.isName = false := by
  cases k with
  | atom a =>
    cases a with
    | int n => exact .inl (integer_eq_error h)
    | _ => simp_all [jsonName, Atom.jsonName, isName]
  | _ => exact .inr ⟨(Except.error.inj h).symm, rfl⟩

theorem jsonName_plain_eq_error {k : Key} {failure : Failure}
    (h : k.plain.jsonName = .error failure) : failure = .longInteger ∧ k.hasText = false := by
  unfold plain at h
  split at h
  · rename_i hname
    simpa [hname] using jsonName_eq_error h
  · cases h

theorem hasText_plain {k : Key} (h : k.hasText = true) : k.plain.hasText = true := by
  unfold plain
  split
  · exact h
  · rfl

end Key

/-- The encoder writes out the slots of a container of this shape. -/
def Shape.isOpened : Shape → Bool
  | tuple _ => true
  | shape => shape.isBuiltIn

namespace Value

/-- Only built-in mappings, lists and tuples are among the containers that paths lead to. -/
def isNative (v : Value) : Bool := v.everywhere fun u => !u.isCopiedWhole

section

variable {v : Value} {slots : List Slot} {text : String} {failure : Failure}

theorem encode_of_not_opened {id : Ident} {shape : Shape} {tag snapshot : Option Value}
    (h : shape.isOpened = false) : (node id shape tag snapshot slots).encode =
      (node id shape tag snapshot slots).display.map Text.jsonString := by
  cases shape with
  | view => rfl
  | tuple form => cases h
  | sequence form => cases form <;> first | rfl | cases h
  | mapping form => cases form <;> first | rfl | cases h

theorem encodeItems_eq_ok {texts : List String} : encodeItems slots = .ok texts ↔
    slots.map (fun slot => slot.2.encode) = texts.map .ok := by
  induction slots generalizing texts with
  | nil => cases texts <;> simp [encodeItems]
  | cons slot rest ih =>
    cases texts with
    | nil => cases hv : slot.2.encode <;> cases hrest : encodeItems rest <;>
        simp [encodeItems, hv, hrest, bind, Except.bind, pure, Except.pure]
    | cons first others =>
      rw [List.map_cons, List.map_cons, List.cons.injEq, ← ih]
      cases hv : slot.2.encode <;> cases hrest : encodeItems rest <;>
        simp [encodeItems, hv, hrest, bind, Except.bind, pure, Except.pure]

theorem encodeMembers_eq_ok {members : List (String × String)} :
    encodeMembers slots = .ok members ↔
      slots.map (fun slot => (slot.1.jsonName, slot.2.encode)) =
        members.map fun member => (.ok member.1, .ok member.2) := by
  induction slots generalizing members with
  | nil => cases members <;> simp [encodeMembers]
  | cons slot rest ih =>
    cases members with
    | nil => cases hk : slot.1.jsonName <;> cases hv : slot.2.encode <;>
        cases hrest : encodeMembers rest <;>
        simp [encodeMembers, hk, hv, hrest, bind, Except.bind, pure, Except.pure]
    | cons first others =>
      rw [List.map_cons, List.map_cons, List.cons.injEq, ← ih]
      cases hk : slot.1.jsonName <;> cases hv : slot.2.encode <;>
        cases hrest : encodeMembers rest <;>
        simp [encodeMembers, hk, hv, hrest, bind, Except.bind, pure, Except.pure, Prod.ext_iff]

theorem isOk_encodeItems :
    (encodeItems slots).isOk = true ↔ ∀ slot ∈ slots, slot.2.encode.isOk = true := by
  induction slots with
  | nil => simp [encodeItems, Except.toBool]
  | cons slot rest ih =>
    rw [List.forall_mem_cons, ← ih]
    cases hv : slot.2.encode <;> cases hrest : encodeItems rest <;>
      simp [encodeItems, hv, hrest, bind, Except.bind, pure, Except.pure, Except.toBool]

theorem isOk_encodeMembers : (encodeMembers slots).isOk = true ↔
    ∀ slot ∈ slots, slot.1.jsonName.isOk = true ∧ slot.2.encode.isOk = true := by
  induction slots with
  | nil => simp [encodeMembers, Except.toBool]
  | cons slot rest ih =>
    rw [List.forall_mem_cons, ← ih]
    cases hk : slot.1.jsonName <;> cases hv : slot.2.encode <;>
      cases hrest : encodeMembers rest <;>
      simp [encodeMembers, hk, hv, hrest, bind, Except.bind, pure, Except.pure, Except.toBool]

theorem encodeItems_eq_error (h : encodeItems slots = .error failure) :
    ∃ slot ∈ slots, slot.2.encode = .error failure := by
  induction slots with
  | nil => cases h
  | cons slot rest ih =>
    rw [List.exists_mem_cons_iff]
    cases hv : slot.2.encode <;> cases hrest : encodeItems rest <;>
      simp_all [encodeItems, bind, Except.bind, pure, Except.pure]

theorem encodeMembers_eq_error (h : encodeMembers slots = .error failure) :
    ∃ slot ∈ slots, slot.1.jsonName = .error failure ∨ slot.2.encode = .error failure := by
  induction slots with
  | nil => cases h
  | cons slot rest ih =>
    rw [List.exists_mem_cons_iff]
    cases hk : slot.1.jsonName <;> cases hv : slot.2.encode <;>
      cases hrest : encodeMembers rest <;>
      simp_all [encodeMembers, bind, Except.bind, pure, Except.pure]

/-! ## Plain forms -/

theorem encodePlain_eq_ok :
    v.encodePlain = .ok text ↔ v.hasPlain = true ∧ v.plain.encode = .ok text := by
  unfold encodePlain
  split <;> simp_all

theorem json_of_encode (h : v.encode = .ok text) : v.json = .ok text := by
  rw [json, h]

theorem json_of_encodePlain (h : v.encode = .error .unwritableName) : v.json = v.encodePlain := by
  rw [json, h]

/-- A JSON text is that of the value as it stands, or else that of its plain form. -/
theorem json_eq_ok (h : v.json = .ok text) : v.encode = .ok text ∨
    v.encode = .error .unwritableName ∧ v.encodePlain = .ok text := by
  unfold json at h
  split at h
  · exact .inr ⟨‹_›, h⟩
  · exact .inl h

theorem encodeItems_plain (h : ∀ slot ∈ slots, slot.2.plain.encode = slot.2.encode) :
    encodeItems (plainSlots (fun k => k) slots) = encodeItems slots := by
  induction slots with
  | nil => rfl
  | cons slot rest ih =>
    obtain ⟨hslot, hrest⟩ := List.forall_mem_cons.mp h
    rw [plainSlots, encodeItems, encodeItems, hslot, ih hrest]

/-- Keys that JSON can hold are the same in plain form, so members stay apart there. -/
theorem encodeMembers_plain (hdistinct : Slots.Distinct slots)
    (hkeys : ∀ slot ∈ slots, slot.1.isName = true)
    (h : ∀ slot ∈ slots, slot.2.plain.encode = slot.2.encode) :
    encodeMembers (Slots.ofPairs (plainSlots Key.plain slots)) = encodeMembers slots := by
  have hplain : plainSlots Key.plain slots = slots.map fun slot => (slot.1, slot.2.plain) := by
    rw [plainSlots_eq_map]
    exact List.map_congr_left fun slot mem => by rw [Key.plain, if_pos (hkeys slot mem)]
  rw [hplain, Slots.ofPairs_map, Slots.ofPairs_of_distinct hdistinct]
  clear hdistinct hkeys hplain
  induction slots with
  | nil => rfl
  | cons slot rest ih =>
    obtain ⟨hslot, hrest⟩ := List.forall_mem_cons.mp h
    rw [List.map_cons, encodeMembers, encodeMembers, hslot, ih hrest]

/-- A value of built-in containers that has a JSON text as it stands has the same in plain form. -/
theorem encodePlain_of_isNative (hnative : v.isNative = true) (hkeys : v.isWellKeyed = true)
    (h : v.encode = .ok text) : v.encodePlain = .ok text := by
  rw [encodePlain_eq_ok]
  induction v using Value.induction generalizing text with
  | scalar s => exact ⟨rfl, h⟩
  | node id shape tag snapshot slots _ _ ihSlots =>
    have hslots : shape.kind.isTraversable = true → ∀ slot ∈ slots, slot.2.encode.isOk = true →
        slot.2.hasPlain = true ∧ slot.2.plain.encode = slot.2.encode := by
      intro ht slot mem hok
      obtain ⟨direct, hdirect⟩ := isOk_iff.mp hok
      have hbelow := ((everywhere_node ht).mp hnative).2 slot mem
      rw [hdirect]
      exact ihSlots slot mem hbelow (((everywhere_node ht).mp hkeys).2 slot mem) hdirect
    have hitems : ∀ texts, shape.kind.isTraversable = true → encodeItems slots = .ok texts →
        slotsHavePlain (fun _ => true) slots = true ∧
          encodeItems (plainSlots (fun k => k) slots) = .ok texts := by
      intro texts ht htexts
      have hok := isOk_encodeItems.mp (isOk_iff.mpr ⟨texts, htexts⟩)
      rw [slotsHavePlain_eq_all, List.all_eq_true,
        encodeItems_plain fun slot mem => (hslots ht slot mem (hok slot mem)).2]
      exact ⟨fun slot mem => (hslots ht slot mem (hok slot mem)).1, htexts⟩
    rcases Shape.copying shape with rfl | ⟨form, rfl⟩ | hb | hw
    · exact ⟨rfl, h⟩
    · obtain ⟨texts, htexts, rfl⟩ := map_eq_ok.mp h
      obtain ⟨hhave, hplain⟩ := hitems texts rfl htexts
      rw [plain, encode, hplain]
      exact ⟨hhave, rfl⟩
    · cases shape with
      | view => cases hb
      | tuple form => cases hb
      | sequence form =>
        obtain rfl : form = .plain := by cases form <;> simp_all [Shape.isBuiltIn]
        obtain ⟨texts, htexts, rfl⟩ := map_eq_ok.mp h
        obtain ⟨hhave, hplain⟩ := hitems texts rfl htexts
        rw [plain, encode, hplain]
        exact ⟨hhave, rfl⟩
      | mapping form =>
        have hplain : (Shape.mapping .plain).isBuiltIn = true := rfl
        have hdistinct : Slots.Distinct slots :=
          keysDiffer_iff.mp ((everywhere_node rfl).mp hkeys).1
        rw [encode, if_pos hb] at h
        obtain ⟨members, hmembers, rfl⟩ := map_eq_ok.mp h
        have hok := isOk_encodeMembers.mp (isOk_iff.mpr ⟨members, hmembers⟩)
        have hnames : ∀ slot ∈ slots, slot.1.isName = true := fun slot mem =>
          Key.isName_of_isOk_jsonName (hok slot mem).1
        have hbelow := fun slot mem => hslots rfl slot mem (hok slot mem).2
        rw [plain, dict, encode, if_pos hplain, encodeMembers_plain hdistinct hnames
          (fun slot mem => (hbelow slot mem).2), hmembers, hasPlain, slotsHavePlain_eq_all,
          List.all_eq_true]
        exact ⟨fun slot mem => by simp [hnames slot mem, (hbelow slot mem).1], rfl⟩
    · have hwhole := ((everywhere_node (isTraversable_of_isCopiedWhole hw)).mp hnative).1
      simp [isCopiedWhole, shape?, hw] at hwhole

end

/-! ## Values without long integers -/

section

variable {v : Value} {slots : List Slot} {failure : Failure}

theorem isOk_display (h : v.hasText = true) : v.display.isOk = true := by
  rw [display, if_pos h]
  rfl

theorem display_eq_error (h : v.display = .error failure) :
    failure = .longInteger ∧ v.hasText = false := by
  unfold display at h
  split at h <;> simp_all

theorem isOk_scalar {s : Scalar} (h : s.hasText = true) : s.json.isOk = true := by
  have hdisplay := @isOk_display (scalar s) h
  cases s with
  | atom a =>
    cases a with
    | int n => exact (isOk_integer n).trans h
    | _ => rfl
  | _ => exact (isOk_map _ _).trans hdisplay

theorem scalar_eq_error {s : Scalar} (h : s.json = .error failure) :
    failure = .longInteger ∧ s.hasText = false := by
  have hdisplay := @display_eq_error (scalar s) failure
  cases s with
  | atom a =>
    cases a with
    | int n => exact integer_eq_error h
    | _ => cases h
  | _ => exact hdisplay (map_eq_error.mp h)

theorem hasText_eq_false {id : Ident} {shape : Shape} {tag snapshot : Option Value} {slot : Slot}
    (mem : slot ∈ slots)
    (h : shape.showsKeys = true ∧ slot.1.hasText = false ∨ slot.2.hasText = false) :
    (node id shape tag snapshot slots).hasText = false := by
  rw [hasText, slotsHaveText_eq_all, List.all_eq_false]
  refine ⟨slot, mem, ?_⟩
  rcases h with ⟨hshows, hkey⟩ | hvalue
  · simp [hshows, hkey]
  · simp [hvalue]

/-- Only integers of too many digits and keys that JSON cannot hold keep a value from being
encoded. -/
theorem encode_eq_error (hfails : v.encode = .error failure) :
    failure = .longInteger ∧ v.hasText = false ∨ failure = .unwritableName := by
  induction v using Value.induction generalizing failure with
  | scalar s => exact .inl (scalar_eq_error hfails)
  | node id shape tag snapshot slots _ _ ihSlots =>
    by_cases ho : shape.isOpened = true
    swap
    · rw [encode_of_not_opened (by simpa using ho), map_eq_error] at hfails
      exact .inl (display_eq_error hfails)
    have hslot : ∀ slot ∈ slots, slot.2.encode = .error failure →
        failure = .longInteger ∧ (node id shape tag snapshot slots).hasText = false ∨
          failure = .unwritableName := fun slot mem hslotFails =>
      (ihSlots slot mem hslotFails).imp_left fun h => ⟨h.1, hasText_eq_false mem (.inr h.2)⟩
    have hitems : encodeItems slots = .error failure →
        failure = .longInteger ∧ (node id shape tag snapshot slots).hasText = false ∨
          failure = .unwritableName := fun herror => by
      obtain ⟨slot, mem, hslotFails⟩ := encodeItems_eq_error herror
      exact hslot slot mem hslotFails
    cases shape with
    | view => cases ho
    | tuple form => exact hitems (map_eq_error.mp hfails)
    | sequence form =>
      obtain rfl : form = .plain := by cases form <;> first | rfl | cases ho
      exact hitems (map_eq_error.mp hfails)
    | mapping form =>
      have hbuiltIn : (Shape.mapping form).isBuiltIn = true := ho
      rw [encode, if_pos hbuiltIn, map_eq_error] at hfails
      obtain ⟨slot, mem, hname | hvalue⟩ := encodeMembers_eq_error hfails
      · exact (Key.jsonName_eq_error hname).imp
          (fun h => ⟨h.1, hasText_eq_false mem (.inl ⟨rfl, h.2⟩)⟩) And.left
      · exact hslot slot mem hvalue

theorem hasPlain_of_hasText (h : v.hasText = true) : v.hasPlain = true := by
  induction v using Value.induction with
  | scalar s => rfl
  | node id shape tag snapshot slots _ _ ihSlots =>
    rw [hasText, slotsHaveText_eq_all, List.all_eq_true] at h
    cases shape with
    | view => rfl
    | mapping form =>
      rw [hasPlain, slotsHavePlain_eq_all, List.all_eq_true]
      intro slot mem
      have hslot := h slot mem
      simp only [Shape.showsKeys, Bool.not_true, Bool.false_or, Bool.and_eq_true] at hslot
      simp [hslot.1, ihSlots slot mem hslot.2]
    | sequence form | tuple form =>
      rw [hasPlain, slotsHavePlain_eq_all, List.all_eq_true]
      intro slot mem
      have hslot := h slot mem
      simp only [Shape.showsKeys, Bool.not_false, Bool.true_or, Bool.true_and] at hslot
      simp [ihSlots slot mem hslot]

/-- Only integers of too many digits keep the plain form of a value from being encoded. -/
theorem encode_plain_eq_error (hfails : v.plain.encode = .error failure) :
    failure = .longInteger ∧ v.hasText = false := by
  induction v using Value.induction generalizing failure with
  | scalar s => exact scalar_eq_error hfails
  | node id shape tag snapshot slots _ _ ihSlots =>
    have hslot : ∀ slot ∈ slots, slot.2.plain.encode = .error failure →
        failure = .longInteger ∧ (node id shape tag snapshot slots).hasText = false :=
      fun slot mem hslotFails =>
        (ihSlots slot mem hslotFails).imp_right fun h => hasText_eq_false mem (.inr h)
    have hitems : encodeItems (plainSlots (fun k => k) slots) = .error failure →
        failure = .longInteger ∧ (node id shape tag snapshot slots).hasText = false :=
      fun herror => by
        obtain ⟨item, memItem, hitemFails⟩ := encodeItems_eq_error herror
        rw [plainSlots_eq_map] at memItem
        obtain ⟨slot, mem, rfl⟩ := List.mem_map.mp memItem
        exact hslot slot mem hitemFails
    cases shape with
    | view => exact display_eq_error (map_eq_error.mp hfails)
    | sequence form | tuple form => exact hitems (map_eq_error.mp hfails)
    | mapping form =>
      have hplain : (Shape.mapping .plain).isBuiltIn = true := rfl
      rw [plain, dict, encode, if_pos hplain, map_eq_error] at hfails
      obtain ⟨member, memMember, hmember⟩ := encodeMembers_eq_error hfails
      have hkey : ∀ slot ∈ slots, slot.1.plain.jsonName = .error failure →
          failure = .longInteger ∧ (node id (.mapping form) tag snapshot slots).hasText = false :=
        fun slot mem hname => (Key.jsonName_plain_eq_error hname).imp_right fun h =>
          hasText_eq_false mem (.inl ⟨rfl, h⟩)
      have hall : ∀ pair ∈ plainSlots Key.plain slots,
          (pair.1.jsonName = .error failure → failure = .longInteger ∧
            (node id (.mapping form) tag snapshot slots).hasText = false) ∧
          (pair.2.encode = .error failure → failure = .longInteger ∧
            (node id (.mapping form) tag snapshot slots).hasText = false) := by
        rw [plainSlots_eq_map, List.forall_mem_map]
        exact fun slot mem => ⟨hkey slot mem, hslot slot mem⟩
      obtain ⟨hname, hvalue⟩ := Slots.forall_ofPairs (P := fun k => k.jsonName = _ → _)
        (Q := fun v => v.encode = _ → _) hall member memMember
      exact hmember.elim hname hvalue

theorem isOk_encode_plain (h : v.hasText = true) : v.plain.encode.isOk = true := by
  cases hencode : v.plain.encode with
  | ok text => rfl
  | error failure => simp [(encode_plain_eq_error hencode).2] at h

/-- A JSON text is missing for a value only where an integer has too many digits. -/
theorem json_eq_error (hfails : v.json = .error failure) :
    failure = .longInteger ∧ v.hasText = false := by
  cases hencode : v.encode with
  | ok text => simp [json_of_encode hencode] at hfails
  | error reason =>
    rcases encode_eq_error hencode with ⟨rfl, hlong⟩ | rfl
    · rw [json, hencode] at hfails
      exact ⟨(Except.error.inj hfails).symm, hlong⟩
    · rw [json_of_encodePlain hencode, encodePlain] at hfails
      split at hfails
      · exact encode_plain_eq_error hfails
      · rename_i hplain
        refine ⟨(Except.error.inj hfails).symm, Bool.eq_false_iff.mpr ?_⟩
        exact fun h => hplain (hasPlain_of_hasText h)

/-- A value without long integers has a JSON text: as it stands, or else in plain form. -/
theorem json_isOk (h : v.hasText = true) : ∃ text, v.json = .ok text := by
  cases hjson : v.json with
  | ok text => exact ⟨text, rfl⟩
  | error failure => simp [(json_eq_error hjson).2] at h

end

/-! ## Lists -/

section

variable {id : Ident} {vs : List Value} {texts : List String}

theorem map_snd_indexed (vs : List Value) : (indexed vs).map Prod.snd = vs := by
  rw [indexed, List.map_map]
  exact List.zipIdx_map_fst 0 vs

theorem map_indexed {α : Type} (g : Value → α) (vs : List Value) :
    (indexed vs).map (fun slot => g slot.2) = vs.map g := by
  conv_rhs => rw [← map_snd_indexed vs, List.map_map]
  rfl

theorem encode_list (h : vs.map encode = texts.map .ok) :
    (Value.list id vs).encode = .ok (jsonArray texts) := by
  have hitems : encodeItems (indexed vs) = .ok texts :=
    encodeItems_eq_ok.mpr ((map_indexed encode vs).trans h)
  rw [Value.list, encode, hitems]
  rfl

theorem encodePlain_list (h : vs.map encodePlain = texts.map .ok) :
    (Value.list id vs).encodePlain = .ok (jsonArray texts) := by
  have hplain : ∀ v ∈ vs, v.hasPlain = true ∧ v.encodePlain = v.plain.encode := by
    intro v mem
    have hmem : v.encodePlain ∈ texts.map .ok := h ▸ List.mem_map_of_mem mem
    obtain ⟨text, _, htext⟩ := List.mem_map.mp hmem
    obtain ⟨hhave, hencode⟩ := encodePlain_eq_ok.mp htext.symm
    exact ⟨hhave, htext.symm.trans hencode.symm⟩
  have hvalues : ∀ slot ∈ indexed vs, slot.2 ∈ vs := fun slot mem =>
    map_snd_indexed vs ▸ List.mem_map_of_mem mem
  rw [encodePlain_eq_ok, Value.list]
  constructor
  · rw [hasPlain, slotsHavePlain_eq_all, List.all_eq_true]
    exact fun slot mem => by simp [(hplain slot.2 (hvalues slot mem)).1]
  · have hitems : encodeItems (plainSlots (fun k => k) (indexed vs)) = .ok texts := by
      rw [encodeItems_eq_ok, plainSlots_eq_map, List.map_map, ← h]
      refine (map_indexed (fun v => v.plain.encode) vs).trans ?_
      exact List.map_congr_left fun v mem => (hplain v mem).2.symm
    rw [plain, encode, hitems]
    rfl

theorem encode_list_eq_error {failure : Failure}
    (h : (Value.list id vs).encode = .error failure) : ∃ v ∈ vs, v.encode = .error failure := by
  obtain ⟨slot, mem, hslot⟩ := encodeItems_eq_error (map_eq_error.mp h)
  exact ⟨slot.2, map_snd_indexed vs ▸ List.mem_map_of_mem mem, hslot⟩

/-- The JSON text of a list is made of the texts of its items if all of them have one as they stand,
or if those that do are made of built-in containers. Items without long integers have texts. -/
theorem json_list (hkeys : ∀ v ∈ vs, v.isWellKeyed = true)
    (hforms : (∀ v ∈ vs, v.encode.isOk = true) ∨
      ∀ v ∈ vs, v.encode.isOk = true → v.isNative = true) :
    (∀ texts, vs.map json = texts.map .ok →
      (Value.list id vs).json = .ok ("[" ++ String.intercalate ", " texts ++ "]")) ∧
    ((∀ v ∈ vs, v.hasText = true) → ∃ texts : List String, vs.map json = texts.map .ok) := by
  refine ⟨fun texts htexts => ?_, fun hshort => ?_⟩
  · have hitem : ∀ v ∈ vs, ∃ text, v.json = .ok text := by
      intro v mem
      have hmem : v.json ∈ texts.map .ok := htexts ▸ List.mem_map_of_mem mem
      obtain ⟨text, _, htext⟩ := List.mem_map.mp hmem
      exact ⟨text, htext.symm⟩
    cases hdirect : (Value.list id vs).encode with
    | ok direct =>
      have hitems : ∀ v ∈ vs, v.json = v.encode := by
        intro v mem
        have hok := isOk_encodeItems.mp ((isOk_map _ _).symm.trans
          (isOk_iff.mpr ⟨direct, hdirect⟩))
        rw [← map_snd_indexed vs] at mem
        obtain ⟨slot, memSlot, rfl⟩ := List.mem_map.mp mem
        obtain ⟨text, hencode⟩ := isOk_iff.mp (hok slot memSlot)
        rw [hencode, json_of_encode hencode]
      rw [List.map_congr_left hitems] at htexts
      exact json_of_encode (encode_list htexts)
    | error failure =>
      obtain ⟨v, mem, hfails⟩ := encode_list_eq_error hdirect
      obtain ⟨text, htext⟩ := hitem v mem
      have hfailure : failure = .unwritableName := by
        rcases json_eq_ok htext with hencode | ⟨hencode, _⟩
        · simp [hencode] at hfails
        · exact Except.error.inj (hfails.symm.trans hencode)
      subst hfailure
      have hnative := hforms.resolve_left fun hall => by
        simpa [hfails, Except.toBool] using hall v mem
      rw [json_of_encodePlain hdirect]
      refine encodePlain_list (htexts ▸ List.map_congr_left fun u memU => ?_)
      obtain ⟨text, htext⟩ := hitem u memU
      rcases json_eq_ok htext with hencode | ⟨_, hplain⟩
      · have hok : u.encode.isOk = true := isOk_iff.mpr ⟨text, hencode⟩
        rw [htext]
        exact encodePlain_of_isNative (hnative u memU hok) (hkeys u memU) hencode
      · rw [htext, hplain]
  · choose! text htext using fun v mem => json_isOk (hshort v mem)
    refine ⟨vs.map text, ?_⟩
    rw [List.map_map]
    exact List.map_congr_left htext

/-- A list of pairs, a mapping with a tuple as a key and a wrapped mapping below it, and a mapping
with texts as keys. -/
def mixed : List Value :=
  [.list 1 [.node 2 (.tuple .point) none none (indexed [.atom (.int 1), .null])],
    .dict 3 [(.tuple .plain [.index 1], .node 4 (.mapping .wrapped) none none
      [(.text "a", .atom (.int 1))])],
    .dict 5 [(.text "b", .atom (.bool true))]]

theorem json_list_mixed : (∀ v ∈ mixed, v.isWellKeyed = true) ∧
    (∀ v ∈ mixed, v.encode.isOk = true → v.isNative = true) ∧
    (∀ v ∈ mixed, v.hasText = true) ∧ ∃ texts : List String, mixed.map json = texts.map .ok ∧
      (Value.list 0 mixed).json = .ok ("[" ++ String.intercalate ", " texts ++ "]") := by
  have hkeys : ∀ v ∈ mixed, v.isWellKeyed = true := by decide
  have hnative : ∀ v ∈ mixed, v.encode.isOk = true → v.isNative = true := by decide
  have hshort : ∀ v ∈ mixed, v.hasText = true := by decide
  obtain ⟨hlist, hexists⟩ := @json_list 0 mixed hkeys (.inr hnative)
  obtain ⟨texts, htexts⟩ := hexists hshort
  exact ⟨hkeys, hnative, hshort, texts, htexts, hlist texts htexts⟩

/-- A wrapped mapping is written out beside a key that JSON cannot hold. Alone it is a string. -/
example : (Value.node 1 (.mapping .wrapped) none none [(.text "a", .null)]).json =
      .ok "\"\x7b'a': None\x7d\"" ∧
    (Value.list 0 [.node 1 (.mapping .wrapped) none none [(.text "a", .null)],
      .dict 2 [(.tuple .plain [], .null)]]).json =
      .ok "[\x7b\"a\": null\x7d, \x7b\"()\": null\x7d]" := by
  decide

end

end Value

end Redaction
