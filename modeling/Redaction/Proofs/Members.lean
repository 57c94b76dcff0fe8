import Redaction.Proofs.Siblings

/-!
# Entries and members

A mapping with scalar values is written as a JSON object with one member for each of its entries, in
order. A key that JSON cannot hold is written as its text. When another entry has that very text as
its key, or is written under it too, the plain form holds the two as one, and the object has a
member less than the mapping has entries. Where JSON can hold all keys no such entry is lost, even
if several keys have the same name.

Main statement: `Value.json_entries_iff`.
-/

namespace Redaction

/-- The name under which an entry is written: JSON's spelling of the key, or else its text. -/
def Key.memberName (k : Key) : Except Failure String := if k.isName then k.jsonName else k.display

/-- An entry as a member of a JSON object, for a key with a name and a value with a text. -/
def Slot.member (slot : Slot) : String := Text.jsonString (slot.1.memberName.toOption.getD "") ++
  ": " ++ slot.2.encode.toOption.getD ""

/-- The length of the members of all slots, with what stands between two of them. -/
def Slots.extent (slots : List Slot) : Nat := (slots.map fun slot => slot.member.length + 2).sum

theorem Key.memberName_of_isName {k : Key} (h : k.isName = true) : k.memberName = k.jsonName := by
  rw [memberName, if_pos h]

theorem Key.memberName_plain {k : Key} {name : String} (h : k.memberName = .ok name) :
    k.plain.memberName = .ok name := by
  unfold plain
  split
  · exact h
  · rename_i hname
    rw [memberName, if_neg hname, display] at h
    split at h
    · exact h
    · cases h

/-- Where one key in plain form is a text in place of the key itself, only that text is the same. -/
theorem Key.plain_eq_of_same {j k : Key} (hj : j.isName = false)
    (h : j.plain.same k.plain = true) : j.plain = k.plain := by
  have htext : j.plain = .text j.wording := by simp [plain, hj]
  rw [htext] at h ⊢
  rw [Key.same_comm] at h
  exact (eq_text_of_same h).symm

namespace Slots

variable {k : Key} {v : Value} {slots pairs : List Slot}

/-- Slots with the same key are written under the same name. -/
def AgreeOnNames (slots : List Slot) : Prop :=
  ∀ a ∈ slots, ∀ b ∈ slots, a.1.same b.1 = true → a.1.memberName = b.1.memberName

theorem extent_append (a b : List Slot) : extent (a ++ b) = extent a + extent b := by
  simp [extent]

theorem extent_cons (slot : Slot) (rest : List Slot) :
    extent (slot :: rest) = slot.member.length + 2 + extent rest := by
  simp [extent]

/-- Storing a value under a key that is there makes the members shorter than one more member
would. -/
theorem extent_put (hname : ∀ slot ∈ slots, slot.1.same k = true →
      slot.1.memberName = k.memberName)
    (hsame : ∃ slot ∈ slots, slot.1.same k = true) :
    extent (put k v slots) < extent slots + extent [(k, v)] := by
  induction slots with
  | nil => simp at hsame
  | cons slot rest ih =>
    obtain ⟨name, old⟩ := slot
    obtain ⟨hslot, hrest⟩ := List.forall_mem_cons.mp hname
    by_cases hk : name.same k = true
    · have hmember : Slot.member (name, v) = Slot.member (k, v) := by
        simp only [Slot.member, hslot hk]
      simp only [put, hk, if_true, extent_cons, hmember]
      omega
    · have hlater : ∃ slot ∈ rest, slot.1.same k = true := by
        obtain ⟨other, mem, hother⟩ := hsame
        rcases List.mem_cons.mp mem with rfl | mem
        · exact absurd hother hk
        · exact ⟨other, mem, hother⟩
      have hshorter := ih hrest hlater
      simp only [put, hk, Bool.false_eq_true, if_false, extent_cons] at hshorter ⊢
      omega

/-- The keys of slots after storing are those before, and the one that was stored. -/
theorem AgreeOnNames.put (h : AgreeOnNames (slots ++ (k, v) :: pairs)) :
    AgreeOnNames (Slots.put k v slots ++ pairs) := by
  have hkey : ∀ slot ∈ Slots.put k v slots ++ pairs,
      ∃ old ∈ slots ++ (k, v) :: pairs, old.1 = slot.1 := by
    intro slot mem
    rcases List.mem_append.mp mem with mem | mem
    · have hput := forall_put (P := fun j => ∃ old ∈ slots ++ (k, v) :: pairs, old.1 = j)
        (Q := fun _ => True) (v := v) ⟨(k, v), by simp, rfl⟩ trivial
        (fun old memOld => ⟨⟨old, List.mem_append_left _ memOld, rfl⟩, trivial⟩)
      exact (hput slot mem).1
    · exact ⟨slot, by simp [mem], rfl⟩
  intro a ha b hb hsame
  obtain ⟨a', memA, hkeyA⟩ := hkey a ha
  obtain ⟨b', memB, hkeyB⟩ := hkey b hb
  rw [← hkeyA, ← hkeyB] at hsame ⊢
  exact h a' memA b' memB hsame

/-- Making slots of pairs never lengthens the members, and shortens them if two keys are the same. -/
theorem extent_foldl (hnames : AgreeOnNames (slots ++ pairs)) :
    extent (pairs.foldl (fun slots slot => Slots.put slot.1 slot.2 slots) slots) ≤
        extent (slots ++ pairs) ∧
      (Distinct slots → ¬Distinct (slots ++ pairs) →
        extent (pairs.foldl (fun slots slot => Slots.put slot.1 slot.2 slots) slots) <
          extent (slots ++ pairs)) := by
  induction pairs generalizing slots with
  | nil => simp
  | cons pair rest ih =>
    obtain ⟨k, v⟩ := pair
    obtain ⟨hle, hlt⟩ := ih hnames.put
    rw [List.foldl_cons]
    by_cases hsame : ∃ slot ∈ slots, slot.1.same k = true
    · have hshorter := @extent_put k v slots (fun slot mem hk =>
        hnames slot (List.mem_append_left _ mem) (k, v) (by simp) hk) hsame
      simp only [extent_append, extent_cons] at hshorter hle ⊢
      have hnil : extent [] = 0 := rfl
      omega
    · have hnew : ∀ slot ∈ slots, slot.1.same k = false := by simpa using hsame
      rw [put_of_not_same hnew] at hle hlt ⊢
      simp only [List.append_assoc, List.singleton_append] at hle hlt ⊢
      refine ⟨hle, fun hdistinct => hlt ?_⟩
      exact List.pairwise_append.mpr ⟨hdistinct, List.pairwise_singleton _ _, by simpa using hnew⟩

theorem extent_ofPairs_lt (hnames : AgreeOnNames pairs) (h : ¬Distinct pairs) :
    extent (ofPairs pairs) < extent pairs :=
  (@extent_foldl [] pairs hnames).2 .nil h

/-- Different keys may become the same in plain form, but then they have the same name. -/
theorem agreeOnNames_plain (h : Distinct slots) :
    AgreeOnNames (slots.map fun slot => (slot.1.plain, slot.2.plain)) := by
  simp only [AgreeOnNames, List.forall_mem_map]
  intro a ha b hb hsame
  cases hkeyA : a.1.isName with
  | false => rw [Key.plain_eq_of_same hkeyA hsame]
  | true =>
    cases hkeyB : b.1.isName with
    | false => rw [Key.plain_eq_of_same hkeyB (Key.same_comm _ _ ▸ hsame)]
    | true =>
      have hown : a.1.same b.1 = true := by simpa [Key.plain, hkeyA, hkeyB] using hsame
      rw [eq_of_same h ha hb hown]

end Slots

/-! ## Lengths of texts -/

theorem length_intercalate_le (l : List String) :
    (String.intercalate ", " l).length ≤ (l.map fun s => s.length + 2).sum - 2 := by
  induction l with
  | nil => simp
  | cons s rest ih =>
    cases rest with
    | nil => simp
    | cons t rest =>
      have hsep : (", " : String).length = 2 := rfl
      simp only [String.intercalate_cons_cons, String.length_append, hsep, List.map_cons,
        List.sum_cons] at ih ⊢
      omega

theorem le_length_intercalate (l : List String) :
    (l.map fun s => s.length + 2).sum ≤ (String.intercalate ", " l).length + 2 := by
  induction l with
  | nil => simp
  | cons s rest ih =>
    cases rest with
    | nil => simp
    | cons t rest =>
      have hsep : (", " : String).length = 2 := rfl
      simp only [String.intercalate_cons_cons, String.length_append, hsep, List.map_cons,
        List.sum_cons] at ih ⊢
      omega

namespace Value

variable {id : Ident} {slots : List Slot}

/-- A mapping whose keys have names and whose values have JSON texts is written member by member. -/
theorem encode_dict (h : ∀ slot ∈ slots, slot.1.jsonName.isOk = true ∧
    slot.2.encode.isOk = true) : (Value.dict id slots).encode =
      .ok ("\x7b" ++ String.intercalate ", " (slots.map Slot.member) ++ "\x7d") := by
  have hmembers : encodeMembers slots = .ok (slots.map fun slot =>
      (slot.1.memberName.toOption.getD "", slot.2.encode.toOption.getD "")) := by
    rw [encodeMembers_eq_ok, List.map_map]
    refine List.map_congr_left fun slot mem => ?_
    obtain ⟨hok, htext⟩ := h slot mem
    obtain ⟨name, hname⟩ := isOk_iff.mp hok
    obtain ⟨text, htext⟩ := isOk_iff.mp htext
    simp [Key.memberName_of_isName (Key.isName_of_isOk_jsonName hok), hname, htext,
      Except.toOption]
  have hplain : (Shape.mapping .plain).isBuiltIn = true := rfl
  rw [dict, encode, if_pos hplain, hmembers, Except.map, jsonObject, List.map_map]
  rfl

theorem members_ne {few many : List Slot} (h : Slots.extent few < Slots.extent many) :
    String.intercalate ", " (few.map Slot.member) ≠
      String.intercalate ", " (many.map Slot.member) := by
  intro heq
  have hfew := length_intercalate_le (few.map Slot.member)
  have hmany := le_length_intercalate (many.map Slot.member)
  have hleast : 4 ≤ Slots.extent many := by
    cases many with
    | nil => simp [Slots.extent] at h
    | cons slot rest =>
      have hsep : (": " : String).length = 2 := rfl
      simp only [Slots.extent_cons, Slot.member, String.length_append, hsep]
      omega
  simp only [List.map_map, Function.comp_def, heq] at hfew hmany
  unfold Slots.extent at h hleast
  omega

def ofEntries (id : Ident) (entries : List (Key × Scalar)) : Value :=
  .dict id (entries.map fun entry => (entry.1, .scalar entry.2))

section

variable {entries : List (Key × Scalar)} {members : List (String × String)}

/-- The names and texts with which all entries are written. -/
def Written (entries : List (Key × Scalar)) (members : List (String × String)) : Prop :=
  entries.map (fun entry => (entry.1.memberName, entry.2.json)) =
    members.map fun member => (.ok member.1, .ok member.2)

theorem Written.exists (h : Written entries members) {entry : Key × Scalar}
    (mem : entry ∈ entries) :
    ∃ name text, entry.1.memberName = .ok name ∧ entry.2.json = .ok text := by
  have hmem : (entry.1.memberName, entry.2.json) ∈
      members.map fun member => (.ok member.1, .ok member.2) := h ▸ List.mem_map_of_mem mem
  obtain ⟨member, _, hmember⟩ := List.mem_map.mp hmem
  obtain ⟨hname, htext⟩ := Prod.mk.inj hmember
  exact ⟨member.1, member.2, hname.symm, htext.symm⟩

theorem encode_ofEntries (h : Written entries members)
    (hnames : ∀ entry ∈ entries, entry.1.isName = true) :
    (ofEntries id entries).encode = .ok (jsonObject members) := by
  have hplain : (Shape.mapping .plain).isBuiltIn = true := rfl
  have hmembers : encodeMembers (entries.map fun entry => (entry.1, .scalar entry.2)) =
      .ok members := by
    rw [encodeMembers_eq_ok, List.map_map, ← h]
    refine List.map_congr_left fun entry mem => ?_
    rw [Key.memberName_of_isName (hnames entry mem)]
    rfl
  rw [ofEntries, dict, encode, if_pos hplain, hmembers]
  rfl

theorem encode_ofEntries_eq_error (h : Written entries members)
    (hnames : ¬∀ entry ∈ entries, entry.1.isName = true) :
    (ofEntries id entries).encode = .error .unwritableName := by
  have hplain : (Shape.mapping .plain).isBuiltIn = true := rfl
  rw [ofEntries, dict, encode, if_pos hplain, map_eq_error]
  cases hmembers : encodeMembers (entries.map fun entry => (entry.1, .scalar entry.2)) with
  | ok encoded =>
    have hok := isOk_encodeMembers.mp (isOk_iff.mpr ⟨encoded, hmembers⟩)
    exact absurd (fun entry mem => Key.isName_of_isOk_jsonName
      (hok _ (List.mem_map_of_mem mem)).1) hnames
  | error failure =>
    obtain ⟨slot, mem, hfails⟩ := encodeMembers_eq_error hmembers
    obtain ⟨entry, memEntry, rfl⟩ := List.mem_map.mp mem
    obtain ⟨name, text, hname, htext⟩ := h.exists memEntry
    rcases hfails with hfails | hfails
    · by_cases hkey : entry.1.isName = true
      · rw [Key.memberName_of_isName hkey, hfails] at hname
        cases hname
      · rw [Key.jsonName_of_not_isName hkey] at hfails
        obtain rfl := Except.error.inj hfails
        rfl
    · have hfails : entry.2.json = .error failure := hfails
      rw [htext] at hfails
      cases hfails

theorem hasPlain_ofEntries (h : Written entries members) :
    (ofEntries id entries).hasPlain = true := by
  rw [ofEntries, dict, hasPlain, slotsHavePlain_eq_all, List.all_map, List.all_eq_true]
  intro entry mem
  obtain ⟨name, _, hname, _⟩ := h.exists mem
  by_cases hkey : entry.1.isName = true
  · simp [hkey, hasPlain]
  · rw [Key.memberName, if_neg hkey, Key.display] at hname
    split at hname
    · simp [*, hasPlain]
    · cases hname

/-- The plain form of a mapping of scalars holds each of them under the plain form of its key, and
is written with the members of what is left of the entries there. -/
theorem encode_plain_ofEntries (h : Written entries members) :
    (ofEntries id entries).plain.encode = .ok ("\x7b" ++ String.intercalate ", "
      ((Slots.ofPairs (entries.map fun entry => (entry.1.plain, .scalar entry.2))).map
        Slot.member) ++ "\x7d") := by
  have hplain : (ofEntries id entries).plain = .dict id (Slots.ofPairs
      (entries.map fun entry => (entry.1.plain, .scalar entry.2))) := by
    rw [ofEntries, dict, plain, plainSlots_eq_map, List.map_map]
    rfl
  rw [hplain]
  refine encode_dict (Slots.forall_ofPairs (P := fun k => k.jsonName.isOk = true)
    (Q := fun v => v.encode.isOk = true) ?_)
  refine List.forall_mem_map.mpr fun entry mem => ?_
  obtain ⟨name, text, hname, htext⟩ := h.exists mem
  have hname := Key.memberName_plain hname
  rw [Key.memberName_of_isName entry.1.isName_plain] at hname
  exact ⟨isOk_iff.mpr ⟨name, hname⟩, isOk_iff.mpr ⟨text, htext⟩⟩

theorem map_member_plain (h : Written entries members) :
    (entries.map fun entry => ((entry.1.plain, .scalar entry.2) : Slot)).map Slot.member =
      members.map fun (name, text) => Text.jsonString name ++ ": " ++ text := by
  have hplain : entries.map (fun entry => (entry.1.plain.memberName, entry.2.json)) =
      members.map fun member => (.ok member.1, .ok member.2) := by
    rw [← h]
    refine List.map_congr_left fun entry mem => ?_
    obtain ⟨name, _, hname, _⟩ := h.exists mem
    rw [hname, Key.memberName_plain hname]
  have hmember := congrArg (List.map fun written : Except Failure String × Except Failure String =>
    Text.jsonString (written.1.toOption.getD "") ++ ": " ++ written.2.toOption.getD "") hplain
  rw [List.map_map, List.map_map] at hmember
  rw [List.map_map]
  exact hmember

/-- A mapping with scalar values is written as an object with exactly one member for each entry, in
order, if JSON can hold all its keys or if the texts of those that it cannot hold are different from
each other and from the other keys. Otherwise it is not. -/
theorem json_entries_iff (hkeys : entries.Pairwise fun a b => a.1.same b.1 = false)
    (hmembers : entries.map (fun entry => (entry.1.memberName, entry.2.json)) =
      members.map fun member => (.ok member.1, .ok member.2)) (id : Ident) :
    (ofEntries id entries).json = .ok ("\x7b" ++ String.intercalate ", "
        (members.map fun (name, text) => Text.jsonString name ++ ": " ++ text) ++ "\x7d") ↔
      (∀ entry ∈ entries, entry.1.isName = true) ∨
        entries.Pairwise fun a b => a.1.plain.same b.1.plain = false := by
  by_cases hnames : ∀ entry ∈ entries, entry.1.isName = true
  · exact iff_of_true (json_of_encode (encode_ofEntries hmembers hnames)) (.inl hnames)
  · let pairs : List Slot := entries.map fun entry => (entry.1.plain, .scalar entry.2)
    have hjson : (ofEntries id entries).json = .ok ("\x7b" ++ String.intercalate ", "
        ((Slots.ofPairs pairs).map Slot.member) ++ "\x7d") := by
      rw [json_of_encodePlain (encode_ofEntries_eq_error hmembers hnames), encodePlain_eq_ok]
      exact ⟨hasPlain_ofEntries hmembers, encode_plain_ofEntries hmembers⟩
    have hdistinct : Slots.Distinct pairs ↔
        entries.Pairwise fun a b => a.1.plain.same b.1.plain = false := List.pairwise_map
    rw [hjson, ← map_member_plain hmembers, ← hdistinct, or_iff_right hnames]
    constructor
    · intro htext
      by_contra hmerged
      have hagree : Slots.AgreeOnNames pairs := by
        have hslots : Slots.Distinct (entries.map fun entry =>
            ((entry.1, .scalar entry.2) : Slot)) := List.pairwise_map.mpr hkeys
        have hagree := Slots.agreeOnNames_plain hslots
        rw [List.map_map] at hagree
        exact hagree
      have hne := members_ne (Slots.extent_ofPairs_lt hagree hmerged)
      simp only [Except.ok.injEq, String.append_left_inj, String.append_right_inj] at htext
      exact hne htext
    · intro hapart
      rw [Slots.ofPairs_of_distinct hapart]

theorem json_entries_pair_and_text :
    [(Key.tuple .plain [.index 1, .index 2], (Scalar.atom (.int 1))),
        (.text "(1, 2)", .atom (.int 2))].Pairwise (fun a b => a.1.same b.1 = false) ∧
      (ofEntries 0 [(.tuple .plain [.index 1, .index 2], .atom (.int 1)),
        (.text "(1, 2)", .atom (.int 2))]).json ≠
        .ok "\x7b\"(1, 2)\": 1, \"(1, 2)\": 2\x7d" := by
  have hkeys : [(Key.tuple .plain [.index 1, .index 2], (Scalar.atom (.int 1))),
      (.text "(1, 2)", .atom (.int 2))].Pairwise (fun a b => a.1.same b.1 = false) := by decide
  have hmembers : [(Key.tuple .plain [.index 1, .index 2], (Scalar.atom (.int 1))),
      (.text "(1, 2)", .atom (.int 2))].map (fun entry => (entry.1.memberName, entry.2.json)) =
      [("(1, 2)", "1"), ("(1, 2)", "2")].map fun member => (.ok member.1, .ok member.2) := by
    decide
  exact ⟨hkeys, fun htext => absurd ((json_entries_iff hkeys hmembers 0).mp htext) (by decide)⟩

end

end Value

end Redaction
