import Redaction.Proofs.Aftermath
import Redaction.Proofs.Likeness

/-!
# Restoring

A live result holds a snapshot of the input that nobody else can reach, so whatever is written in
place after the call, restoring gives back what the input was. Attributes and views are shared by
all copies: restoring gives them back as the objects they are, which `Value.outline` tells by their
identities, and with what they held as long as nothing is written into them.

Main statement: `Engine.run_then_restore`.
-/

namespace Redaction

namespace Value

/-- A value told by its identity alone, if it has one. -/
def handle : Value → Value
  | scalar s => scalar s
  | node id shape _ _ _ => node id shape none none []

mutual

/-- What a value holds, where views and the attributes that copies carry are told by their
identities. -/
def outline : Value → Value
  | scalar s => scalar s
  | node id shape tag snapshot slots =>
    if shape.kind.isTraversable then
      node 0 shape ((shape.copiedTag tag).map handle) (lost snapshot) (outlineSlots slots)
    else handle (node id shape tag snapshot slots)

/-- The outlines of slots, under the same keys. -/
def outlineSlots : List (Key × Value) → List (Key × Value)
  | [] => []
  | (k, v) :: rest => (k, v.outline) :: outlineSlots rest

end

@[simp] theorem outlineSlots_eq_map (slots : List Slot) :
    outlineSlots slots = slots.map fun slot => (slot.1, slot.2.outline) := by
  induction slots with
  | nil => rfl
  | cons slot rest ih => simp [outlineSlots, ih]

theorem outline_content (v : Value) : v.content.outline = v.outline := by
  induction v using Value.induction with
  | scalar s => rfl
  | node id shape tag snapshot slots _ _ ihSlots =>
    by_cases ht : shape.kind.isTraversable = true
    · have hslots : (likenessSlots false slots).map (fun slot => (slot.1, slot.2.outline)) =
          slots.map fun slot => (slot.1, slot.2.outline) := by
        rw [likenessSlots_eq_map, List.map_map]
        refine List.map_congr_left fun slot mem => ?_
        rw [Function.comp_apply, ← ihSlots slot mem]
      rw [content, likeness_node ht (.inl rfl)]
      simp only [outline, ht, if_true, outlineSlots_eq_map, hslots, lost_lost, copiedTag_copiedTag]
    · have ht : shape.kind.isTraversable = false := by simpa using ht
      rw [content, likeness_untraversed ht]

theorem outline_congr {u v : Value} (h : u.content = v.content) : u.outline = v.outline := by
  rw [← outline_content u, h, outline_content]

theorem hiddenSlots_renewSlots {slots : List Slot} {n : Ident}
    (h : ∀ slot ∈ slots, ∀ m, (slot.2.renew false m).1.hidden ⊆ slot.2.hidden) :
    hiddenSlots (renewSlots false slots n).1 ⊆ hiddenSlots slots := by
  induction slots generalizing n with
  | nil => exact List.Subset.refl _
  | cons slot rest ih =>
    obtain ⟨k, v⟩ := slot
    have hv := h (k, v) List.mem_cons_self n
    have hrest := @ih (v.renew false n).2 fun slot mem => h slot (List.mem_cons_of_mem _ mem)
    simp only [renewSlots, hiddenSlots]
    exact List.append_subset.mpr ⟨List.Subset.trans hv (List.subset_append_left _ _),
      List.Subset.trans hrest (List.subset_append_right _ _)⟩

theorem hidden_renew_subset {v : Value} {n : Ident} (h : v.isPristine = true)
    (hkeyed : v.isKeyedByValue = true) : (v.renew false n).1.hidden ⊆ v.hidden := by
  induction v using Value.induction generalizing n with
  | scalar s => exact List.Subset.refl _
  | node id shape tag snapshot slots _ _ ihSlots =>
    by_cases ht : shape.kind.isTraversable = true
    · obtain ⟨rfl, hslots⟩ := snapshot_of_isPristine ht h
      have hbelow : ∀ m, hiddenSlots (renewSlots false slots m).1 ⊆ hiddenSlots slots := fun m =>
        hiddenSlots_renewSlots fun slot mem _ =>
          ihSlots slot mem (hslots slot mem) (((everywhere_node ht).mp hkeyed).2 slot mem)
      have hcopy : ∀ {i m tag'}, idsOption tag' ⊆ idsOption tag →
          (node i shape tag' none (renewSlots false slots m).1).hidden ⊆
            (node id shape tag none slots).hidden := by
        intro i m tag' htag
        simp only [hidden, ht, if_true, idsOption, List.append_nil]
        exact List.append_subset.mpr ⟨List.Subset.trans htag (List.subset_append_left _ _),
          List.Subset.trans (hbelow m) (List.subset_append_right _ _)⟩
      rcases Shape.copying shape with rfl | ⟨form, rfl⟩ | hb | hw
      · exact List.Subset.refl _
      · rw [renew_tuple, if_neg Bool.false_ne_true]
        exact hcopy (List.nil_subset _)
      · rw [renew_builtIn hb]
        have hnone : (if shape.losesAttributes then lost none else none) = (none : Option Value) :=
          ite_self none
        rw [hnone]
        exact hcopy (idsOption_copiedTag_subset shape tag)
      · rw [renew_whole hw,
          refill_eq (renewSlots_fst false slots _) (keys_of_isKeyedByValue hw hkeyed)]
        exact hcopy (List.Subset.refl _)
    · obtain rfl : shape = .view := by
        cases shape <;> simp_all [Shape.kind, Kind.isTraversable]
      exact List.Subset.refl _

/-! ## Writes that do not land within reach -/

section

variable {w : Write} {v : Value}

theorem kind_after (w : Write) (v : Value) : (v.after w).kind = v.kind := by
  cases v <;> rfl

theorem kind_afterAll (ws : List Write) (v : Value) : (v.afterAll ws).kind = v.kind := by
  induction ws generalizing v with
  | nil => rfl
  | cons w rest ih => rw [afterAll_cons, ih, kind_after]

theorem snapshot?_after (w : Write) (v : Value) :
    (v.after w).snapshot? = v.snapshot?.map fun u => u.after w := by
  cases v with
  | scalar s => rfl
  | node id shape tag snapshot slots => cases snapshot <;> rfl

/-- A write that lands elsewhere changes the slots of a container only in what they hold. -/
theorem after_node {id : Ident} {shape : Shape} {tag snapshot : Option Value}
    {slots : List Slot} (ht : shape.kind.isTraversable = true)
    (h : w.target ∉ (node id shape tag snapshot slots).reach) :
    (node id shape tag snapshot slots).after w = node id shape (afterOption w tag)
        (afterOption w snapshot) (slots.map fun slot => (slot.1, slot.2.after w)) ∧
      ∀ slot ∈ slots, w.target ∉ slot.2.reach := by
  have hid : id ≠ w.target := fun hid => h (mem_reach_node.mpr ⟨ht, .inl hid.symm⟩)
  refine ⟨?_, fun slot mem hslot => h (mem_reach_node.mpr ⟨ht, .inr ⟨slot, mem, hslot⟩⟩)⟩
  rw [after, if_neg hid, afterSlots_eq_map]

theorem reach_after (h : w.target ∉ v.reach) : (v.after w).reach = v.reach := by
  induction v using Value.induction with
  | scalar s => rfl
  | node id shape tag snapshot slots _ _ ihSlots =>
    by_cases ht : shape.kind.isTraversable = true
    · obtain ⟨hafter, hslots⟩ := after_node ht h
      rw [hafter]
      simp only [reach, ht, if_true, reachSlots_eq_flatMap, List.flatMap_map]
      congr 1
      exact List.flatMap_congr fun slot mem => ihSlots slot mem (hslots slot mem)
    · simp [reach, after, ht]

theorem outline_after (h : w.target ∉ v.reach) : (v.after w).outline = v.outline := by
  induction v using Value.induction with
  | scalar s => rfl
  | node id shape tag snapshot slots _ _ ihSlots =>
    by_cases ht : shape.kind.isTraversable = true
    · obtain ⟨hafter, hslots⟩ := after_node ht h
      have htag : (shape.copiedTag (afterOption w tag)).map handle =
          (shape.copiedTag tag).map handle := by
        unfold Shape.copiedTag
        split
        · rfl
        · rcases tag with _ | ⟨_ | _⟩ <;> rfl
      have hsnapshot : lost (afterOption w snapshot) = lost snapshot := by
        cases snapshot <;> rfl
      rw [hafter]
      simp only [outline, ht, if_true, htag, hsnapshot, outlineSlots_eq_map, List.map_map]
      congr 1
      refine List.map_congr_left fun slot mem => ?_
      rw [Function.comp_apply, ihSlots slot mem (hslots slot mem)]
    · simp [outline, after, ht, handle]

theorem isKeyedByValue_after (h : w.target ∉ v.reach) :
    (v.after w).isKeyedByValue = v.isKeyedByValue := by
  induction v using Value.induction with
  | scalar s => rfl
  | node id shape tag snapshot slots _ _ ihSlots =>
    by_cases ht : shape.kind.isTraversable = true
    · obtain ⟨hafter, hslots⟩ := after_node ht h
      rw [hafter, Bool.eq_iff_iff, isKeyedByValue, isKeyedByValue, everywhere_node ht,
        everywhere_node ht]
      simp only [keysSurvive, List.all_map, List.forall_mem_map, Function.comp_def]
      exact and_congr_right fun _ => forall₂_congr fun slot mem => by
        rw [← isKeyedByValue, ← isKeyedByValue, ihSlots slot mem (hslots slot mem)]
    · simp [isKeyedByValue, everywhere, after, ht]

theorem holdsView_after (hw : ∀ x ∈ w.content, x.holdsView = false) (h : v.holdsView = false) :
    (v.after w).holdsView = false := by
  induction v using Value.induction with
  | scalar s => rfl
  | node id shape tag snapshot slots ihTag ihSnapshot ihSlots =>
    simp only [holdsView, Bool.or_eq_false_iff, slotsHoldView_eq_any, List.any_eq_false,
      Bool.not_eq_true] at h
    obtain ⟨⟨hshape, hattributes⟩, hslots⟩ := h
    have hoption : ∀ o : Option Value, (∀ u ∈ o, u.holdsView = false → (u.after w).holdsView =
        false) → optionHoldsView o = false → optionHoldsView (afterOption w o) = false := by
      intro o ih ho
      cases o with
      | none => rfl
      | some u => exact ih u rfl ho
    simp only [after, holdsView, Bool.or_eq_false_iff, slotsHoldView_eq_any, List.any_eq_false,
      Bool.not_eq_true]
    refine ⟨⟨hshape, ?_⟩, fun slot mem => ?_⟩
    · cases hloses : shape.losesAttributes
      · simp only [hloses, Bool.not_false, Bool.true_and, Bool.or_eq_false_iff] at hattributes ⊢
        exact ⟨hoption tag ihTag hattributes.1, hoption snapshot ihSnapshot hattributes.2⟩
      · rfl
    · rcases mem_slots_after mem with hx | ⟨old, memOld, rfl⟩
      · exact hw _ hx
      · exact ihSlots old memOld (hslots old memOld)

/-- Writes into attributes do not keep a value from being duplicated, unless they bring in a
view. -/
theorem canDuplicate_after (h : w.target ∉ v.reach)
    (hw : w.target ∈ v.ids → ∀ x ∈ w.content, x.holdsView = false)
    (hv : v.canDuplicate = true) : (v.after w).canDuplicate = true := by
  induction v using Value.induction with
  | scalar s => rfl
  | node id shape tag snapshot slots _ _ ihSlots =>
    by_cases ht : shape.kind.isTraversable = true
    · have hafter := (after_node ht h).1
      have hslots : slotsCanDuplicate slots = true →
          slotsCanDuplicate (slots.map fun slot => (slot.1, slot.2.after w)) = true := by
        intro hslots
        simp only [slotsCanDuplicate_eq_all, List.all_map, List.all_eq_true] at hslots ⊢
        intro slot mem
        have hin : w.target ∈ slot.2.ids → w.target ∈ (node id shape tag snapshot slots).ids :=
          fun hin => mem_ids_node.mpr (.inr (.inr (.inr ⟨slot, mem, hin⟩)))
        exact ihSlots slot mem ((after_node ht h).2 slot mem) (fun hid => hw (hin hid))
          (hslots slot mem)
      have hview : (node id shape tag snapshot slots).holdsView = false →
          ((node id shape tag snapshot slots).after w).holdsView = false := by
        intro hview
        by_cases hin : w.target ∈ (node id shape tag snapshot slots).ids
        · exact holdsView_after (hw hin) hview
        · rw [after_of_not_mem w _ hin]
          exact hview
      rw [hafter] at hview ⊢
      cases shape with
      | view => rfl
      | tuple form => exact hslots hv
      | mapping form | sequence form =>
        simp only [canDuplicate] at hv ⊢
        split at hv
        · rename_i hb
          rw [if_pos hb]
          exact hslots hv
        · rename_i hb
          rw [if_neg hb, hview (by simpa using hv)]
          rfl
    · obtain rfl : shape = .view := by
        cases shape <;> simp_all [Shape.kind, Kind.isTraversable]
      rfl

end

end Value

def Deed.writes : List Deed → List Write
  | [] => []
  | write _ w :: rest => w :: writes rest
  | restore _ _ :: rest => writes rest

namespace Aftermath

/-- The caller can get hold of the container: it is one of the attributes and views `shared` that
the input came with, or one of the values leads to it. -/
def Grants (shared : List Ident) (s : Aftermath) (id : Ident) : Prop :=
  id ∈ shared ∨ ∃ u ∈ s.values, id ∈ u.reach

/-- A write goes into a container that the caller can get hold of, and what it stores is made of
such containers and of new ones. Into attributes that the snapshot shares goes no view, as these
cannot be copied. -/
def Allows (shared : List Ident) (s : Aftermath) : Deed → Prop
  | .write _ w => s.Grants shared w.target ∧
      (w.target ∈ s.result.hidden → ∀ x ∈ w.content, x.holdsView = false) ∧
      ∀ x ∈ w.content, ∀ id ∈ x.reach, s.Grants shared id ∨ ∀ u ∈ s.values, id ∉ u.ids
  | .restore _ next => s.Unused next

instance (shared : List Ident) (s : Aftermath) (id : Ident) : Decidable (s.Grants shared id) :=
  inferInstanceAs (Decidable (id ∈ shared ∨ ∃ u ∈ s.values, id ∈ u.reach))

def AllowsAll (shared : List Ident) (s : Aftermath) : List Deed → Prop
  | [] => True
  | deed :: rest => s.Allows shared deed ∧ (s.step deed).AllowsAll shared rest

structure Keeps (v : Value) (s : Aftermath) (snapshot : Value) : Prop where
  held : s.result.snapshot? = some snapshot
  duplicable : snapshot.canDuplicate = true
  keyed : snapshot.isKeyedByValue = true
  outline : snapshot.outline = v.outline
  guarded : ∀ id, s.Grants v.hidden id → id ∉ snapshot.reach

variable {v snapshot : Value} {s : Aftermath}

/-- After a call the result keeps the duplicate of the input that was made for it, if nobody else
got hold of that. -/
theorem Keeps.start {root : Value} {n : Ident} (hroot : root.kind.isWritable = true)
    (hcontent : snapshot.content = v.content) (hpristine : v.isPristine = true)
    (hcan : v.canDuplicate = true) (hkeyed : v.isKeyedByValue = true)
    (hold : ∀ id ∈ v.ids, id ∉ snapshot.reach)
    (hnew : (root.withRestore snapshot n).Admits (fun id => id ∉ snapshot.reach) fun _ => True) :
    (Aftermath.start v (root.withRestore snapshot n)).Keeps v snapshot := by
  refine ⟨?_, ?_, ?_, Value.outline_congr hcontent, ?_⟩
  · have ht := Value.isTraversable_of_isWritable hroot
    cases root with
    | scalar s => simp [Value.isTraversable_scalar] at ht
    | node id shape tag snap slots =>
      rw [Aftermath.start, Value.withRestore_node ht]
      rfl
  · rw [Value.canDuplicate_congr hcontent hpristine]
    exact hcan
  · rw [Value.isKeyedByValue_congr hcontent]
    exact hkeyed
  · rintro id (hid | ⟨u, mem, hid⟩)
    · exact hold id (Value.hidden_subset_ids hid)
    · simp only [values, outcomes, Aftermath.start, List.mem_cons, List.not_mem_nil,
        or_false] at mem
      rcases mem with rfl | rfl
      · exact hold id (Value.reach_subset_ids hid)
      · exact hnew.reach id hid

theorem Keeps.snapshot_subset (h : s.Keeps v snapshot) : snapshot.ids ⊆ s.result.hidden :=
  Value.snapshot?_subset h.held

theorem Keeps.not_mem_of_new (h : s.Keeps v snapshot) {id : Ident}
    (hid : ∀ u ∈ s.values, id ∉ u.ids) : id ∉ snapshot.reach := by
  intro hreach
  refine hid s.result (by simp [values, outcomes]) ?_
  exact Value.hidden_subset_ids (h.snapshot_subset (Value.reach_subset_ids hreach))

theorem values_after (s : Aftermath) (w : Write) :
    (s.after w).values = s.values.map fun u => u.after w := rfl

/-- A write that the caller can make leaves the snapshot as it is, up to shared attributes. -/
theorem Keeps.write (h : s.Keeps v snapshot) {side : Side} {w : Write}
    (hw : s.Allows v.hidden (.write side w)) : (s.after w).Keeps v (snapshot.after w) := by
  obtain ⟨htarget, hview, hcontent⟩ := hw
  have hout : w.target ∉ snapshot.reach := h.guarded _ htarget
  constructor
  · have hheld : (s.after w).result.snapshot? = s.result.snapshot?.map fun u => u.after w :=
      Value.snapshot?_after w s.result
    rw [hheld, h.held]
    rfl
  · exact Value.canDuplicate_after hout (fun hid => hview (h.snapshot_subset hid)) h.duplicable
  · rw [Value.isKeyedByValue_after hout]
    exact h.keyed
  · rw [Value.outline_after hout]
    exact h.outline
  · intro id hid
    rw [Value.reach_after hout]
    rcases hid with hid | ⟨u, mem, hid⟩
    · exact h.guarded id (.inl hid)
    · rw [values_after] at mem
      obtain ⟨old, memOld, rfl⟩ := List.mem_map.mp mem
      rcases Value.mem_reach_after hid with hid | ⟨x, hx, hid⟩
      · exact h.guarded id (.inr ⟨old, memOld, hid⟩)
      · exact (hcontent x hx id hid).elim (h.guarded id) h.not_mem_of_new

theorem Keeps.restore (h : s.Keeps v snapshot) {index : Nat} {next : Ident}
    (hnext : s.Unused next) : (s.step (.restore index next)).Keeps v snapshot := by
  simp only [step]
  split
  case h_2 => exact h
  case h_1 u m hrestore =>
    obtain ⟨source, mem, hrestore⟩ := mem_of_restore hrestore
    obtain ⟨copied, hcopied, _, rfl⟩ := Value.restore_eq_ok hrestore
    have hsource : ∀ id ∈ source.ids, id < next := hnext source (List.mem_cons_of_mem _ mem)
    have hfresh := (Value.renew_fresh false fun id hid =>
      hsource id (Value.hidden_subset_ids (Value.snapshot?_subset hcopied hid))).2
    refine ⟨h.held, h.duplicable, h.keyed, h.outline, fun id hid => ?_⟩
    rcases hid with hid | ⟨u, memU, hid⟩
    · exact h.guarded id (.inl hid)
    · simp only [values, outcomes, List.mem_cons, List.mem_append, List.not_mem_nil,
        or_false] at memU
      rcases memU with rfl | rfl | memU | rfl
      · exact h.guarded id (.inr ⟨s.input, by simp [values], hid⟩)
      · exact h.guarded id (.inr ⟨s.result, by simp [values, outcomes], hid⟩)
      · exact h.guarded id (.inr ⟨u, by simp [values, outcomes, memU], hid⟩)
      · refine h.not_mem_of_new fun u memU hin => ?_
        have := hnext u memU id hin
        have := (hfresh.reach id hid).1
        lia

/-- Whatever the caller does, the result keeps the snapshot, which shows no writes but those into
shared attributes. -/
theorem Keeps.run (h : s.Keeps v snapshot) {deeds : List Deed}
    (hd : s.AllowsAll v.hidden deeds) :
    (s.run deeds).Keeps v (snapshot.afterAll (Deed.writes deeds)) ∧
      ∀ w ∈ Deed.writes deeds, w.target ∉ snapshot.reach := by
  induction deeds generalizing s snapshot with
  | nil => exact ⟨h, by simp [Deed.writes]⟩
  | cons deed rest ih =>
    obtain ⟨hdeed, hrest⟩ := hd
    match deed with
    | .write side w =>
      have hout : w.target ∉ snapshot.reach := h.guarded _ hdeed.1
      obtain ⟨hkeeps, htargets⟩ := ih (h.write hdeed) hrest
      refine ⟨hkeeps, fun u mem => ?_⟩
      rcases List.mem_cons.mp mem with rfl | mem
      · exact hout
      · rw [← Value.reach_after hout]
        exact htargets u mem
    | .restore index next => exact ih (h.restore hdeed) hrest

theorem Keeps.restore_result (h : s.Keeps v snapshot) (n : Ident) :
    ∃ u m, s.result.restore n = .ok (u, m) ∧ u.content = snapshot.content := by
  refine ⟨(snapshot.renew false n).1, (snapshot.renew false n).2, ?_, ?_⟩
  · rw [Value.restore, h.held]
    simp only [Value.duplicate, h.duplicable, if_true]
  · exact Value.content_renew h.keyed

end Aftermath

/-- The censor answers with what was there before `start`, with new containers, from `made` on, or
with containers that it was told. -/
def Censor.Discreet (start made : Ident) : Censor → Prop
  | .literal x => ∀ id ∈ x.ids, id < start
  | .function f => ∀ history question next x, made ≤ next → f history question next = .ok x →
      ∀ id ∈ x.reach, id < start ∨ made ≤ id ∨ ∃ c ∈ question :: history, id ∈ c.value.reach

/-- What lies between the identities that were used before and those that are unused is kept from
the answers of a discreet censor. -/
theorem Censor.Discreet.respects {start made : Ident} {censor : Censor}
    (h : censor.Discreet start made) (hle : start ≤ made) {secret : List Ident}
    (hsecret : ∀ id ∈ secret, start ≤ id ∧ id < made) :
    censor.Respects (fun id => id ∉ secret) (fun _ => True) made := by
  cases censor with
  | literal x =>
    constructor
    · intro id hid hin
      have := h id (Value.reach_subset_ids hid)
      have := (hsecret id hin).1
      lia
    · intro id hid
      exact ⟨trivial, lt_of_lt_of_le (h id hid) hle⟩
  | function f =>
    intro history question next x hn htold hx
    refine ⟨fun id hid hin => ?_, fun _ _ => trivial⟩
    obtain ⟨hfrom, hto⟩ := hsecret id hin
    rcases h history question next x hn hx id hid with hlt | hle | ⟨c, mem, hc⟩
    · lia
    · lia
    · exact (htold c mem).reach id hc hin

theorem Censor.discreet_wrap (start made : Ident) : Censor.wrap.Discreet start made := by
  intro history question next x hn hx id hid
  obtain rfl := Except.ok.inj hx
  obtain ⟨_, rfl | ⟨slot, mem, hid⟩⟩ := Value.mem_reach_node.mp hid
  · exact .inr (.inl hn)
  · simp only [List.mem_cons, List.not_mem_nil, or_false] at mem
    rcases mem with rfl | rfl
    · simp [Value.text, Value.atom, Value.reach] at hid
    · exact .inr (.inr ⟨question, List.mem_cons_self, hid⟩)

theorem Value.isWritable_renew {v : Value} (h : v.kind.isTraversable = true) (n : Ident) :
    (v.renew true n).1.kind.isWritable = true := by
  cases v with
  | scalar s => simp [isTraversable_scalar] at h
  | node id shape tag snapshot slots =>
    rcases Shape.copying shape with rfl | ⟨form, rfl⟩ | hb | hw
    · simp [kind, Shape.kind, Kind.isTraversable] at h
    · rw [renew_tuple]
      rfl
    · rw [renew_builtIn hb]
      cases shape <;> simp_all [Shape.isBuiltIn, kind, Shape.kind, Kind.isWritable]
    · rw [renew_whole hw]
      simp only [Shape.isCopiedWhole, Bool.and_eq_true] at hw
      exact hw.1

namespace Engine

variable {engine : Engine} {v r : Value} {next : Ident}

theorem run_keeps (hkind : v.kind.isTraversable = true) (hpristine : v.isPristine = true)
    (hkeyed : v.isKeyedByValue = true) (hnext : ∀ id ∈ v.ids, id < next)
    (hlive : engine.policy.output = .live)
    (hcensor : ∀ working snapshot m, engine.prepare v next = .ok (working, snapshot, m) →
      engine.policy.applied.Discreet next m)
    (hr : (engine.run v next).result = .ok r) :
    ∃ snapshot, snapshot.content = v.content ∧ snapshot.hidden ⊆ v.hidden ∧
      (Aftermath.start v r).Keeps v snapshot := by
  have hpass : (engine.policy.strict && !v.kind.isTraversable) = false := by simp [hkind]
  cases hprepare : engine.prepare v next with
  | error failure => simp [run, hpass, hprepare] at hr
  | ok begun =>
    obtain ⟨working, snapshot?, m⟩ := begun
    obtain ⟨hcan, rfl, ⟨_, rfl, rfl⟩ | ⟨hother, _⟩⟩ := prepare_eq_ok hprepare
    swap
    · exact absurd hlive hother
    obtain ⟨hle, hworking⟩ := Value.renew_fresh true hnext
    have hlater : ∀ id ∈ v.ids, id < (v.renew true next).2 := fun id hid =>
      lt_of_lt_of_le (hnext id hid) hle
    obtain ⟨hle', hcopy⟩ := Value.renew_fresh false hlater
    set snapshot := (v.renew false (v.renew true next).2).1 with hsnapshot
    set m := (v.renew false (v.renew true next).2).2
    have hcontent : snapshot.content = v.content := Value.content_renew hkeyed
    have hbound : ∀ id ∈ (v.renew true next).1.ids, id < m := fun id hid =>
      lt_of_lt_of_le (hworking.ids_lt (fun id hid => hlater id (Value.hidden_subset_ids hid))
        id hid) hle'
    have hstart : (Workspace.start (v.renew true next).1 m).Confined
        (fun id => id ∉ snapshot.reach) (fun _ => True) (v.renew true next).1 m := by
      refine ⟨rfl, ⟨fun id hid hin => ?_, fun id hid => ⟨trivial, hbound id hid⟩⟩,
        by simp [Workspace.start], by simp [Workspace.start], le_rfl⟩
      have := (hworking.reach id hid).2
      have := (hcopy.reach id hin).1
      lia
    have hsecret : ∀ id ∈ snapshot.reach, next ≤ id ∧ id < m := fun id hid =>
      ⟨le_trans hle (hcopy.reach id hid).1, (hcopy.reach id hid).2⟩
    have hrespects := (hcensor _ _ _ hprepare).respects (le_trans hle hle') hsecret
    rcases run_leaves hpass hprepare (applyPaths_confined hstart hrespects) with
      ⟨_, _, _, hfails⟩ | ⟨s, hs, _, hresult⟩
    · exact absurd hr (hfails r)
    rw [hresult] at hr
    have hwritable : s.root.kind.isWritable = true := by
      rw [hs.edits, Value.kind_afterAll]
      exact Value.isWritable_renew hkind next
    simp only [close, hwritable, if_true, Except.ok.injEq] at hr
    subst hr
    refine ⟨snapshot, hcontent, Value.hidden_renew_subset hpristine hkeyed,
      Aftermath.Keeps.start hwritable hcontent hpristine hcan hkeyed (fun id hid hin => ?_) ?_⟩
    · have := hlater id hid
      have := (hcopy.reach id hin).1
      lia
    · refine Value.Admits.withRestore hwritable (hs.root.mono fun _ _ => trivial)
        (fun hin => ?_) trivial fun _ _ => trivial
      have := (hcopy.reach _ hin).2
      have := hs.next
      lia

/-- Restoring undoes redaction. After a call with a live result, whatever is written in place into
input, result and restored values and whatever is restored in between, restoring the result
succeeds and gives what the input was at the call: of the same kinds, keys, scalars, attributes and
views, and with attributes and views holding the same unless they were written into. -/
theorem run_then_restore (hkind : v.kind.isTraversable = true) (hpristine : v.isPristine = true)
    (hkeyed : v.isKeyedByValue = true) (hnext : ∀ id ∈ v.ids, id < next)
    (hlive : engine.policy.output = .live)
    (hcensor : ∀ working snapshot m, engine.prepare v next = .ok (working, snapshot, m) →
      engine.policy.applied.Discreet next m)
    (hr : (engine.run v next).result = .ok r) {deeds : List Deed}
    (hdeeds : (Aftermath.start v r).AllowsAll v.hidden deeds) (n : Ident) :
    ∃ u m, ((Aftermath.start v r).run deeds).result.restore n = .ok (u, m) ∧
      u.outline = v.outline ∧
      ((∀ w ∈ Deed.writes deeds, w.target ∉ v.hidden) → u.content = v.content) := by
  obtain ⟨snapshot, hcontent, hhidden, hkeeps⟩ :=
    run_keeps hkind hpristine hkeyed hnext hlive hcensor hr
  obtain ⟨hlater, htargets⟩ := hkeeps.run hdeeds
  obtain ⟨u, m, hrestore, hu⟩ := hlater.restore_result n
  refine ⟨u, m, hrestore, ?_, fun hclean => ?_⟩
  · rw [← hlater.outline]
    exact Value.outline_congr hu
  · have hsame : snapshot.afterAll (Deed.writes deeds) = snapshot := by
      refine Value.afterAll_of_not_mem fun w mem hid => ?_
      rcases Value.mem_ids.mp hid with hid | hid
      · exact htargets w mem hid
      · exact hclean w mem (hhidden hid)
    rw [hu, hsame, hcontent]

/-- The result of a censor that makes containers, restored after writes on both sides. -/
theorem restore_sample :
    Sample.input.kind.isTraversable = true ∧ Sample.input.isPristine = true ∧
      Sample.input.isKeyedByValue = true ∧ (∀ id ∈ Sample.input.ids, id < 3) ∧
      Sample.wrapping.policy.output = .live ∧
      (Sample.wrapping.run Sample.input 3).result = .ok Sample.wrapped ∧
      ∃ u m, ((Aftermath.start Sample.input Sample.wrapped).run Sample.deeds).result.restore 40 =
          .ok (u, m) ∧ u.outline = Sample.input.outline ∧
        ((∀ w ∈ Deed.writes Sample.deeds, w.target ∉ Sample.input.hidden) →
          u.content = Sample.input.content) := by
  have hids : ∀ id ∈ Sample.input.ids, id < 3 := by decide
  refine ⟨rfl, rfl, rfl, hids, rfl, rfl, ?_⟩
  refine @run_then_restore Sample.wrapping Sample.input Sample.wrapped 3 rfl rfl rfl hids rfl
    (fun _ _ m _ => Censor.discreet_wrap 3 m) rfl Sample.deeds ?_ 40
  refine ⟨⟨by decide, fun _ x hx => ?_, fun x hx => ?_⟩, ?_, ⟨by decide, fun _ x hx => ?_,
    fun x hx => ?_⟩, ⟨by decide, fun _ x hx => ?_, fun x hx => ?_⟩, trivial⟩
  · exact Option.some.inj hx ▸ rfl
  · obtain rfl := Option.some.inj hx
    simp [Value.null, Value.atom, Value.reach]
  · change Aftermath.Unused _ 20
    decide
  · cases hx
  · cases hx
  · exact Option.some.inj hx ▸ rfl
  · obtain rfl := Option.some.inj hx
    decide

end Engine

end Redaction
