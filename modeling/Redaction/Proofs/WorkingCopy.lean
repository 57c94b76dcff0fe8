import Redaction.Proofs.PathRun
import Redaction.Proofs.Restoration

/-!
# The working copy of a call

A call begins with a duplicate in which every container is new and stands in one place, and whose
tuples are lists, so it can be edited. For a censor that looks at paths only, the call turns it
into what `Value.redactAll` makes of the thawed input.
-/

namespace Redaction

namespace Value

/-- Slots whose containers were made one after another have none in common. This is so for any part
`p` of what paths lead to and any part `q` of all that is held, if it is so in each slot. -/
theorem renewSlots_apart {p q : Value → List Ident} (hp : ∀ v, p v ⊆ v.reach)
    (hq : ∀ v, q v ⊆ v.ids) {thaw : Bool} {slots : List Slot} {n m : Ident} (hm : n ≤ m)
    (hids : ∀ slot ∈ slots, ∀ id ∈ slot.2.ids, id < n)
    (h : ∀ slot ∈ slots, ∀ m, n ≤ m → (p (slot.2.renew thaw m).1).Nodup ∧
      ∀ id ∈ p (slot.2.renew thaw m).1, id ∉ q (slot.2.renew thaw m).1) :
    ((renewSlots thaw slots m).1.flatMap fun slot => p slot.2).Nodup ∧
      (∀ id ∈ (renewSlots thaw slots m).1.flatMap fun slot => p slot.2,
        m ≤ id ∧ id ∉ (renewSlots thaw slots m).1.flatMap fun slot => q slot.2) ∧
      ∀ id ∈ (renewSlots thaw slots m).1.flatMap fun slot => q slot.2, id < n ∨ m ≤ id := by
  induction slots generalizing m with
  | nil => simp [renewSlots]
  | cons slot rest ih =>
    obtain ⟨k, v⟩ := slot
    have hlt : ∀ id ∈ v.ids, id < m := fun id hid =>
      lt_of_lt_of_le (hids (k, v) List.mem_cons_self id hid) hm
    obtain ⟨hle, hfresh⟩ := renew_fresh thaw hlt
    obtain ⟨hnodup, hapart⟩ := h (k, v) List.mem_cons_self m hm
    obtain ⟨hrest, hreach, hhidden⟩ := ih (le_trans hm hle)
      (fun slot mem => hids slot (List.mem_cons_of_mem _ mem))
      fun slot mem => h slot (List.mem_cons_of_mem _ mem)
    have hnew : ∀ id ∈ p (v.renew thaw m).1, m ≤ id ∧ id < (v.renew thaw m).2 := fun id hid =>
      hfresh.reach id (hp _ hid)
    have hold : ∀ id ∈ q (v.renew thaw m).1, id < n ∨ m ≤ id ∧ id < (v.renew thaw m).2 := by
      intro id hid
      rcases mem_ids.mp (hq _ hid) with hin | hin
      · exact .inr (hfresh.reach id hin)
      · exact (hfresh.hidden id hin).imp_left fun hin =>
          hids (k, v) List.mem_cons_self id (hidden_subset_ids hin)
    simp only [renewSlots, List.flatMap_cons, List.mem_append, List.nodup_append]
    refine ⟨⟨hnodup, hrest, fun i hi j hj heq => ?_⟩, fun id hid => ?_, fun id hid => ?_⟩
    · have := (hnew i hi).2
      have := (hreach j hj).1
      lia
    · rcases hid with hid | hid
      · obtain ⟨hfrom, hto⟩ := hnew id hid
        refine ⟨hfrom, ?_⟩
        rintro (hin | hin)
        · exact hapart id hid hin
        · rcases hhidden id hin with hlow | hhigh <;> lia
      · obtain ⟨hfrom, hnot⟩ := hreach id hid
        refine ⟨le_trans hle hfrom, ?_⟩
        rintro (hin | hin)
        · rcases hold id hin with hlow | hrange <;> lia
        · exact hnot hin
    · rcases hid with hid | hid
      · exact (hold id hid).imp_right And.left
      · exact (hhidden id hid).imp_right (le_trans hle)

/-- A container made before all that its slots hold, and after what it hides beside them. -/
theorem node_apart {id : Ident} {shape : Shape} {tag snapshot : Option Value} {slots : List Slot}
    (ht : shape.kind.isTraversable = true) (hnodup : (reachSlots slots).Nodup)
    (hreach : ∀ i ∈ reachSlots slots, id + 1 ≤ i ∧ i ∉ hiddenSlots slots)
    (htag : ∀ i ∈ idsOption tag, i < id) (hsnapshot : ∀ i ∈ idsOption snapshot, i < id)
    (hid : id ∉ hiddenSlots slots) :
    (node id shape tag snapshot slots).reach.Nodup ∧
      ∀ i ∈ (node id shape tag snapshot slots).reach,
        i ∉ (node id shape tag snapshot slots).hidden := by
  simp only [reach, hidden, ht, if_true, List.nodup_cons, List.mem_cons, List.mem_append]
  refine ⟨⟨fun hin => ?_, hnodup⟩, ?_⟩
  · have := (hreach id hin).1
    lia
  · rintro i hi ((hin | hin) | hin)
    · have := htag i hin
      rcases hi with rfl | hi
      · lia
      · have := (hreach i hi).1
        lia
    · have := hsnapshot i hin
      rcases hi with rfl | hi
      · lia
      · have := (hreach i hi).1
        lia
    · rcases hi with rfl | hi
      · exact hid hin
      · exact (hreach i hi).2 hin

theorem renew_apart (thaw : Bool) {v : Value} {n : Ident} (h : ∀ id ∈ v.ids, id < n)
    (hkeyed : v.isKeyedByValue = true) :
    (v.renew thaw n).1.reach.Nodup ∧
      ∀ id ∈ (v.renew thaw n).1.reach, id ∉ (v.renew thaw n).1.hidden := by
  induction v using Value.induction generalizing n with
  | scalar s => simp [renew, reach]
  | node id shape tag snapshot slots _ _ ihSlots =>
    by_cases ht : shape.kind.isTraversable = true
    swap
    · obtain rfl : shape = .view := by
        cases shape <;> simp_all [Shape.kind, Kind.isTraversable]
      rw [renew_view]
      simp [reach, Shape.kind, Kind.isTraversable]
    have htag : ∀ i ∈ idsOption tag, i < n := fun i hi =>
      h i (mem_ids_node.mpr (.inr (.inl (mem_idsOption.mp hi))))
    have hsnapshot : ∀ i ∈ idsOption snapshot, i < n := fun i hi =>
      h i (mem_ids_node.mpr (.inr (.inr (.inl (mem_idsOption.mp hi)))))
    have hids : ∀ slot ∈ slots, ∀ i ∈ slot.2.ids, i < n := fun slot mem i hi =>
      h i (mem_ids_node.mpr (.inr (.inr (.inr ⟨slot, mem, hi⟩))))
    have hslots : ∀ i, n ≤ i → (reachSlots (renewSlots thaw slots (i + 1)).1).Nodup ∧
        (∀ j ∈ reachSlots (renewSlots thaw slots (i + 1)).1,
          i + 1 ≤ j ∧ j ∉ hiddenSlots (renewSlots thaw slots (i + 1)).1) ∧
        i ∉ hiddenSlots (renewSlots thaw slots (i + 1)).1 := by
      intro i hi
      have hkeyedSlots := ((everywhere_node ht).mp hkeyed).2
      obtain ⟨hnodup, hreach, hhidden⟩ := renewSlots_apart (fun _ => List.Subset.refl _)
        (fun _ => hidden_subset_ids) (by lia : n ≤ i + 1) hids
        fun slot mem m hm => ihSlots slot mem
          (fun j hj => lt_of_lt_of_le (hids slot mem j hj) hm) (hkeyedSlots slot mem)
      simp only [← reachSlots_eq_flatMap, ← hiddenSlots_eq_flatMap] at hnodup hreach hhidden
      refine ⟨hnodup, hreach, fun hin => ?_⟩
      rcases hhidden i hin with hlow | hhigh <;> lia
    rcases Shape.copying shape with rfl | ⟨form, rfl⟩ | hb | hw
    · simp [Shape.kind, Kind.isTraversable] at ht
    · obtain ⟨hnodup, hreach, hid⟩ := hslots n le_rfl
      rw [renew_tuple]
      cases thaw with
      | true => exact node_apart rfl hnodup hreach (by simp [idsOption]) (by simp [idsOption]) hid
      | false =>
        exact node_apart rfl hnodup hreach (by simp [idsOption]) (by simp [idsOption_lost]) hid
    · obtain ⟨hnodup, hreach, hid⟩ := hslots n le_rfl
      rw [renew_builtIn hb]
      have hcopied : ∀ i ∈ idsOption (shape.copiedTag tag), i < n := fun i hi =>
        htag i (idsOption_copiedTag_subset shape tag hi)
      refine node_apart ht hnodup hreach hcopied (fun i hi => ?_) hid
      split at hi
      · simp [idsOption_lost] at hi
      · exact hsnapshot i hi
    · have hwhole : n ≤ wholeIdent snapshot slots n := le_wholeIdent
      obtain ⟨hnodup, hreach, hid⟩ := hslots _ hwhole
      have hkeys := keys_of_isKeyedByValue hw hkeyed
      rw [renew_whole hw, refill_eq (renewSlots_fst thaw slots _) hkeys]
      refine node_apart ht hnodup hreach (fun i hi => lt_of_lt_of_le (htag i hi) hwhole)
        (fun i hi => ?_) hid
      obtain ⟨u, hu, hi⟩ := mem_idsOption.mp hi
      obtain ⟨w, hsome, rfl⟩ := mem_shiftOption.mp hu
      obtain ⟨old, hold, rfl⟩ := mem_ids_shift hi
      have hlt := hsnapshot old (mem_idsOption.mpr ⟨w, hsome, hold⟩)
      have heq : wholeIdent snapshot slots n = 2 * n :=
        wholeIdent_eq (.inl (by simp [Option.mem_def.mp hsome]))
      lia

/-! ## What the working copy holds -/

theorem isWellKeyed_likeness (thaw : Bool) (v : Value) :
    (v.likeness thaw).isWellKeyed = v.isWellKeyed := by
  refine everywhere_likeness (fun id shape tag snapshot slots ht => ?_) v
  have hdistinct : Slots.Distinct (likenessSlots thaw slots) ↔ Slots.Distinct slots := by
    rw [likenessSlots_eq_map]
    exact List.pairwise_map
  rw [Bool.eq_iff_iff, keysDiffer_iff, keysDiffer_iff]
  obtain ⟨shape', tag', snapshot', _, _, heq⟩ := exists_likeness thaw id shape tag snapshot ht
  rw [heq]
  exact hdistinct

theorem isWritable_thawed (v : Value) :
    v.thawed.everywhere (fun u => u.kind.isWritable) = true := by
  induction v using Value.induction with
  | scalar s => rfl
  | node id shape tag snapshot slots _ _ ihSlots =>
    have hslots : ∀ slot ∈ likenessSlots true slots,
        slot.2.everywhere (fun u => u.kind.isWritable) = true := by
      rw [likenessSlots_eq_map]
      simp only [List.forall_mem_map]
      exact ihSlots
    by_cases ht : shape.kind.isTraversable = true
    · by_cases hkind : shape.kind = .tuple
      · obtain ⟨form, rfl⟩ : ∃ form, shape = .tuple form := by
          cases shape <;> simp_all [Shape.kind]
        rw [thawed, likeness_tuple, everywhere_node rfl]
        exact ⟨rfl, hslots⟩
      · rw [thawed, likeness_node ht (.inr hkind), everywhere_node ht]
        refine ⟨?_, hslots⟩
        cases shape <;> simp_all [kind, Shape.kind, Kind.isWritable, Kind.isTraversable]
    · have ht : shape.kind.isTraversable = false := by simpa using ht
      rw [thawed, likeness_untraversed ht]
      exact everywhere_of_not_traversable ht

theorem renew_editable {v : Value} {n : Ident} (h : ∀ id ∈ v.ids, id < n)
    (hkeyed : v.isKeyedByValue = true) (hkeys : v.isWellKeyed = true) :
    (v.renew true n).1.Editable := by
  obtain ⟨hnodup, hapart⟩ := renew_apart true h hkeyed
  have hcontent : (v.renew true n).1.content = v.thawed := content_renew hkeyed
  refine ⟨⟨hnodup, hapart, ?_⟩, ?_⟩
  · rw [← isWellKeyed_likeness false, ← content, hcontent, isWellKeyed_likeness]
    exact hkeys
  · have hsame : (v.renew true n).1.content.everywhere (fun u => u.kind.isWritable) =
        (v.renew true n).1.everywhere fun u => u.kind.isWritable :=
      everywhere_likeness (fun id shape tag snapshot slots ht => by
        rw [likeness_node ht (.inl rfl)]
        rfl) _
    rw [← hsame, hcontent]
    exact isWritable_thawed v

/-- The value redacted along one path, with the answers to what is asked about it. -/
def redactBy (answer : Value → String → Value) (path : CompiledPath) (v : Value) : Value :=
  v.redactAlong (Path.strides path.segments) (v.answersTo answer path.text path.segments)

/-- The value redacted along several paths, one after another. -/
def redactAllBy (answer : Value → String → Value) (paths : List CompiledPath) (v : Value) : Value :=
  paths.foldl (fun v path => v.redactBy answer path) v

/-- What is asked while several paths are applied, one after another. -/
def asksAll (answer : Value → String → Value) : List CompiledPath → Value → List Consultation
  | [], _ => []
  | path :: rest, v => v.asks path.text path.segments ++ (v.redactBy answer path).asksAll answer rest

/-- The value redacted along several paths, one after another, with answers that depend on the path
alone. -/
def redactAll (answer : String → Value) (paths : List CompiledPath) (v : Value) : Value :=
  paths.foldl (fun v path =>
    v.redactAlong (Path.strides path.segments) (Censor.answersAt answer path.text)) v

section

variable {answer : Value → String → Value} {path : CompiledPath} {paths more : List CompiledPath}
  {v : Value}

theorem redactAllBy_cons : v.redactAllBy answer (path :: paths) =
    (v.redactBy answer path).redactAllBy answer paths := rfl

theorem redactAllBy_append : v.redactAllBy answer (paths ++ more) =
    (v.redactAllBy answer paths).redactAllBy answer more := List.foldl_append

/-- The questions along some paths and more are those along the former, and then those along the
latter where the former have led. -/
theorem asksAll_append : v.asksAll answer (paths ++ more) =
    v.asksAll answer paths ++ (v.redactAllBy answer paths).asksAll answer more := by
  induction paths generalizing v with
  | nil => rfl
  | cons path rest ih =>
    rw [List.cons_append, asksAll, asksAll, ih, List.append_assoc]
    rfl

theorem kind_redactAlong {strides : List Stride} {x : Option Key → Value} :
    (v.redactAlong strides x).kind = v.kind := by
  match strides with
  | [] => rfl
  | [stride] => exact kind_withSlots
  | stride :: next :: rest => exact kind_withSlots

theorem kind_redactAllBy : (v.redactAllBy answer paths).kind = v.kind := by
  induction paths generalizing v with
  | nil => rfl
  | cons path rest ih => rw [redactAllBy_cons, ih, redactBy, kind_redactAlong]

end

section

variable {answer : String → Value} {path : CompiledPath} {paths : List CompiledPath} {v : Value}

theorem answersAt_mem (answer : String → Value) (path : String) (l : Option Key) :
    ∃ text, Censor.answersAt answer path l = answer text := by
  cases l with
  | none => exact ⟨path, rfl⟩
  | some k => exact ⟨Path.instantiate path k.wording, rfl⟩

theorem redactAll_cons : v.redactAll answer (path :: paths) =
    (v.redactAlong (Path.strides path.segments)
      (Censor.answersAt answer path.text)).redactAll answer paths := rfl

theorem redactAllBy_blind :
    v.redactAllBy (fun _ path => answer path) paths = v.redactAll answer paths := by
  induction paths generalizing v with
  | nil => rfl
  | cons path rest ih => rw [redactAllBy_cons, ih, redactBy, answersTo_blind, redactAll_cons]

theorem answersAt_not_traversable (hx : ∀ text, (answer text).kind.isTraversable = false)
    (path : String) (l : Option Key) :
    (Censor.answersAt answer path l).kind.isTraversable = false := by
  obtain ⟨text, htext⟩ := answersAt_mem answer path l
  rw [htext]
  exact hx text

theorem content_redactAll (hx : ∀ text, (answer text).kind.isTraversable = false) :
    (v.redactAll answer paths).content = v.content.redactAll answer paths := by
  induction paths generalizing v with
  | nil => rfl
  | cons path rest ih =>
    rw [redactAll_cons, redactAll_cons, ih, content_redactAlong]
    exact answersAt_not_traversable hx path.text

end

end Value

namespace Engine

open Run

section

variable {answer : Value → String → Value} {censor : Censor} {s : Workspace}

theorem applyPath_redacted {path : CompiledPath} (h : censor.AnswersBy answer)
    (hroot : s.root.Editable) :
    Leaves (applyPath censor path) s
      (fun _ s' => s.Redacted censor (Value.writesAlong (Path.strides path.segments)
        (s.root.answersTo answer path.text path.segments) s.root)
        (s.root.asks path.text path.segments) s')
      (fun _ => True) := by
  unfold applyPath
  split
  · exact expand_redacted h hroot
  · rename_i hw
    refine replaceAt_redacted h hroot ?_
    simpa [CompiledPath.hasWildcard] using hw

theorem close_live {engine : Engine} {root snapshot : Value} {n : Ident}
    (hwritable : root.kind.isWritable = true) (hkeys : root.isWellKeyed = true) :
    engine.close (some snapshot) root n = (.ok (root.restorable snapshot n), n + 1) := by
  have hkind := Value.isTraversable_of_isWritable hwritable
  rw [close, if_pos hwritable, Value.withRestore_of_isWellKeyed hkind hkeys]

/-- The write is made while some path is applied, after those before it. -/
def MadeBy (answer : Value → String → Value) (paths : List CompiledPath) (v : Value) (w : Write) :
    Prop :=
  ∃ done path rest, paths = done ++ path :: rest ∧
    w ∈ Value.writesAlong (Path.strides path.segments)
      ((v.redactAllBy answer done).answersTo answer path.text path.segments)
      (v.redactAllBy answer done)

structure Applied (answer : Value → String → Value) (censor : Censor) (paths : List CompiledPath)
    (s s' : Workspace) : Prop where
  root : s'.root = s.root.redactAllBy answer paths
  editable : s'.root.Editable
  consultations : s'.consultations =
    (censor.recorded (s.root.asksAll answer paths)).reverse ++ s.consultations
  writes : ∀ w ∈ s'.writes, w ∈ s.writes ∨ MadeBy answer paths s.root w

theorem applyPaths_applied {paths : List CompiledPath} (h : censor.AnswersBy answer)
    (hx : ∀ v text, (answer v text).kind.isTraversable = false) (hroot : s.root.Editable)
    (hfresh : ∀ v text, ∀ id ∈ s.root.reach, id ∉ (answer v text).ids) :
    Leaves (applyPaths censor paths) s (fun _ s' => Applied answer censor paths s s')
      (fun _ => True) := by
  induction paths generalizing s with
  | nil => exact ⟨rfl, hroot, by cases censor <;> rfl, fun w mem => .inl mem⟩
  | cons path rest ih =>
    have hkind : ∀ l, (s.root.answersTo answer path.text path.segments l).kind.isTraversable =
        false := fun l => hx _ _
    have hnew : ∀ l, ∀ id ∈ s.root.reach,
        id ∉ (s.root.answersTo answer path.text path.segments l).ids := fun l => hfresh _ _
    rw [applyPaths, leaves_bind]
    refine (applyPath_redacted h hroot).mono fun _ t ht => ?_
    have hstep : t.root = s.root.redactBy answer path := by
      rw [ht.root, Value.afterAll_writesAlong hroot hnew]
      rfl
    have hedit : t.root.Editable := hstep ▸ hroot.redactAlong hkind hnew
    have hsub : t.root.reach.Sublist s.root.reach := hstep ▸ Value.reach_redactAlong hkind
    rw [leaves_bind]
    refine (ih hedit fun v text id hid => hfresh v text id (hsub.subset hid)).mono
      fun _ t' ht' => ⟨?_, ht'.editable, ?_, fun w mem => ?_⟩
    · rw [ht'.root, hstep]
      rfl
    · rw [ht'.consultations, ht.consultations, hstep, Value.asksAll, Censor.recorded_append,
        List.reverse_append, List.append_assoc]
    · rcases ht'.writes w mem with mem | ⟨done, other, later, rfl, hw⟩
      · rw [ht.writes, List.mem_append, List.mem_reverse] at mem
        exact mem.symm.imp_right fun hw => ⟨[], path, rest, rfl, hw⟩
      · refine .inr ⟨path :: done, other, later, rfl, ?_⟩
        rw [Value.redactAllBy_cons, ← hstep]
        exact hw

variable {engine : Engine} {v r : Value} {next : Ident}

/-- A call whose censor looks at contents and paths only gives the working copy, redacted along one
path after another, and the censor was asked about what the paths led to. -/
theorem run_applies (hkind : v.kind.isTraversable = true) (hnext : ∀ id ∈ v.ids, id < next)
    (hkeyed : v.isKeyedByValue = true) (hkeys : v.isWellKeyed = true)
    (h : engine.policy.applied.AnswersBy answer)
    (hx : ∀ v text, (answer v text).kind.isTraversable = false)
    (hold : ∀ v text, ∀ id ∈ (answer v text).ids, id < next)
    (hr : (engine.run v next).result = .ok r) :
    ∃ root snapshot n, (engine.close snapshot root n).1 = .ok r ∧
      (engine.policy.output = .live ↔ snapshot ≠ none) ∧ root.kind.isWritable = true ∧
      root.isWellKeyed = true ∧ root = (v.renew true next).1.redactAllBy answer engine.paths ∧
      (engine.run v next).consultations =
        engine.policy.applied.recorded ((v.renew true next).1.asksAll answer engine.paths) ∧
      ∀ w ∈ (engine.run v next).writes, MadeBy answer engine.paths (v.renew true next).1 w := by
  have hpass : (engine.policy.strict && !v.kind.isTraversable) = false := by simp [hkind]
  cases hprepare : engine.prepare v next with
  | error failure => simp [run, hpass, hprepare] at hr
  | ok begun =>
    obtain ⟨working, snapshot, m⟩ := begun
    obtain ⟨_, rfl, hcases⟩ := prepare_eq_ok hprepare
    have hsnapshot : engine.policy.output = .live ↔ snapshot ≠ none := by
      rcases hcases with ⟨hlive, rfl, _⟩ | ⟨hother, rfl, _⟩
      · simp [hlive]
      · simp [hother]
    have hroot := Value.renew_editable hnext hkeyed hkeys
    have hreach := (Value.renew_fresh true hnext).2.reach
    have hfresh : ∀ u text, ∀ id ∈ (v.renew true next).1.reach, id ∉ (answer u text).ids := by
      intro u text id hid hin
      exact absurd (hold u text id hin) (Nat.not_lt_of_le (hreach id hid).1)
    obtain ⟨s, hwrites, hasked, ⟨failure, _, hfails⟩ | ⟨hs, hresult⟩⟩ :=
      run_ends hpass hprepare (leaves_iff.mp (applyPaths_applied h hx hroot hfresh))
    · simp [hfails] at hr
    refine ⟨s.root, snapshot, s.next, hresult ▸ hr, hsnapshot, ?_, hs.editable.keyed, hs.root, ?_,
      fun w mem => ?_⟩
    · have hkindRoot : s.root.kind = (v.renew true next).1.kind := by
        rw [hs.root]
        exact Value.kind_redactAllBy
      rw [hkindRoot]
      exact Value.isWritable_renew hkind next
    · rw [hasked, hs.consultations]
      simp [Workspace.start]
    · rw [hwrites, List.mem_reverse] at mem
      exact (hs.writes w mem).resolve_left (by simp [Workspace.start])

end

variable {answer : String → Value} {engine : Engine} {v r : Value} {next : Ident}

/-- The write is made while some path is applied, after those before it, with an answer that depends
on the path alone. -/
def MadeAlong (answer : String → Value) (paths : List CompiledPath) (v : Value) (w : Write) :
    Prop :=
  ∃ done path rest, paths = done ++ path :: rest ∧
    w ∈ Value.writesAlong (Path.strides path.segments) (Censor.answersAt answer path.text)
      (v.redactAll answer done)

/-- A call whose censor looks at paths only gives the thawed input, redacted along one path after
another. What it wrote, it wrote along these paths. -/
theorem run_redacts (hkind : v.kind.isTraversable = true) (hnext : ∀ id ∈ v.ids, id < next)
    (hkeyed : v.isKeyedByValue = true) (hkeys : v.isWellKeyed = true)
    (h : engine.policy.applied.IsBlind answer)
    (hx : ∀ text, (answer text).kind.isTraversable = false)
    (hold : ∀ text, ∀ id ∈ (answer text).ids, id < next)
    (hr : (engine.run v next).result = .ok r) :
    ∃ root snapshot n, (engine.close snapshot root n).1 = .ok r ∧
      (engine.policy.output = .live ↔ snapshot ≠ none) ∧ root.kind.isWritable = true ∧
      root.isWellKeyed = true ∧ root.content = v.thawed.redactAll answer engine.paths ∧
      ∀ w ∈ (engine.run v next).writes,
        MadeAlong answer engine.paths (v.renew true next).1 w := by
  obtain ⟨root, snapshot, n, hclose, hlive, hwritable, hkeyedRoot, rfl, _, hmade⟩ :=
    run_applies hkind hnext hkeyed hkeys h.answersBy (fun _ => hx) (fun _ => hold) hr
  refine ⟨_, snapshot, n, hclose, hlive, hwritable, hkeyedRoot, ?_, fun w mem => ?_⟩
  · rw [Value.redactAllBy_blind, Value.content_redactAll hx]
    exact congrArg _ (Value.content_renew hkeyed)
  · obtain ⟨done, path, rest, hpaths, hw⟩ := hmade w mem
    rw [Value.answersTo_blind, Value.redactAllBy_blind] at hw
    exact ⟨done, path, rest, hpaths, hw⟩

end Engine

end Redaction
