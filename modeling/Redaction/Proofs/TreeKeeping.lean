import Redaction.Proofs.Turns

/-!
# The working copy stays a tree

A censor that builds something new for each answer brings no container into the working copy that
stands there already, so each one that can be written goes on to stand in one place. Then a path
changes the slots that it leads to and no others. Only where a second wildcard at the end of a path
fills a container does one answer come to stand in several slots. So such an answer must not hold
a container that can be written.

The invariant of a run is `Workspace.Tended`, that of the turns of one path `Workspace.Turned`.

Main statement: `Engine.run_keeps_tree`.
-/

namespace Redaction

/-! ## Answers -/

/-- The containers of the value that can be written were made from `next` on and stand in one place
each. What else it holds was there before `start` or was made from `next` on. -/
structure Value.BuiltAt (start next : Ident) (x : Value) : Prop extends x.Unshared where
  keyed : x.isWellKeyed = true
  mutables : ∀ id ∈ x.mutables, next ≤ id
  fixed : ∀ id ∈ x.fixed, id < start ∨ next ≤ id

theorem Value.BuiltAt.ids {start next : Ident} {x : Value} (h : x.BuiltAt start next) :
    ∀ id ∈ x.ids, id < start ∨ next ≤ id := fun id hid =>
  (Value.mem_ids_iff.mp hid).elim (fun hin => .inr (h.mutables id hin)) (h.fixed id)

/-- The censor builds a new value for each answer. A literal value, which is the same for all
places, holds no container that can be written. -/
def Censor.BuildsNew (start : Ident) : Censor → Prop
  | .literal x => x.mutables = [] ∧ x.isWellKeyed = true ∧ ∀ id ∈ x.ids, id < start
  | .function f => ∀ asked question next x, start ≤ next → f asked question next = .ok x →
      x.BuiltAt start next

/-- Asked on the way of a path about a container with several slots, the censor function gives a
value without containers that can be written. -/
def Censor.FillsPlainly (path : CompiledPath) : Censor → Prop
  | .literal _ => True
  | .function f => ∀ asked (question : Consultation) next x,
      (∃ k : Key, question.path = Path.instantiate path.text k.wording) →
      1 < question.value.children.length → f asked question next = .ok x → x.mutables = []

section

variable {censor : Censor} {start : Ident} {s t : Workspace} {v x : Value} {text : String}

theorem Censor.BuildsNew.answer (h : censor.BuildsNew start) (hstart : start ≤ s.next)
    (hx : censor.replacement v text s = .ok x t) :
    x.BuiltAt start s.next ∧ (∀ id ∈ x.ids, id < t.next) ∧ t.root = s.root ∧
      t.writes = s.writes ∧ s.next ≤ t.next := by
  rcases Run.replacement_cases hx with ⟨rfl, rfl⟩ | ⟨f, rfl, hf, rfl⟩
  · obtain ⟨hnone, hkeyed, hold⟩ := h
    refine ⟨⟨⟨by simp [hnone], by simp [hnone]⟩, hkeyed, by simp [hnone], fun id hid => .inl ?_⟩,
      fun id hid => lt_of_lt_of_le (hold id hid) hstart, rfl, rfl, le_rfl⟩
    exact hold id (Value.fixed_subset_ids hid)
  · refine ⟨h _ _ _ _ hstart hf, fun id hid => ?_, rfl, rfl, le_max_left _ _⟩
    exact lt_of_lt_of_le (Value.lt_bound hid) (le_max_right _ _)

theorem Censor.FillsPlainly.answer {path : CompiledPath} (h : censor.FillsPlainly path)
    (hnew : censor.BuildsNew start) {k : Key} (hlength : 1 < v.children.length)
    (hx : censor.replacement v (Path.instantiate path.text k.wording) s = .ok x t) :
    x.mutables = [] := by
  rcases Run.replacement_cases hx with ⟨rfl, rfl⟩ | ⟨f, rfl, hf, rfl⟩
  · exact hnew.1
  · exact h _ _ _ _ ⟨k, rfl⟩ hlength hf

theorem Run.replacement_error {failure : Failure}
    (h : censor.replacement v text s = .error failure t) :
    t.root = s.root ∧ t.writes = s.writes ∧ t.next = s.next := by
  cases censor with
  | literal y => cases h
  | function f =>
    simp only [Censor.replacement, bind, EStateM.bind, get, getThe, MonadStateOf.get, EStateM.get,
      set, EStateM.set] at h
    cases hf : f s.consultations ⟨v, text⟩ s.next with
    | error e =>
      rw [hf] at h
      obtain ⟨_, rfl⟩ := EStateM.Result.error.inj h
      exact ⟨rfl, rfl, rfl⟩
    | ok y =>
      rw [hf] at h
      cases h

end

namespace Value

variable {v x y snapshot : Value} {ws : List Write} {id : Ident}

theorem eq_or_eq_of_settled {kind : Kind} (h : y ∈ settled kind x) : y = x ∨ y = null := by
  unfold settled at h
  split at h
  · split at h
    · cases h
    · exact .inr (Option.some.inj h).symm
  · exact .inl (Option.some.inj h).symm

/-- Storing an answer that is new in one slot, or one without containers that can be written in
several, keeps each container that can be written in one place. -/
theorem Unshared.stored (hv : v.Unshared) (hx : x.Unshared)
    (hnew : ∀ id ∈ x.mutables, id ∉ v.ids) (hold : ∀ id ∈ x.fixed, id ∉ v.mutables)
    (hws : ∀ w ∈ ws, (w.target ∉ v.fixed ∧ w.target ∉ x.fixed) ∧ ∃ kind, w.content = settled kind x)
    (honce : ws.length ≤ 1 ∨ x.mutables = []) :
    (v.afterAll ws).Unshared ∧
      (∀ id ∈ (v.afterAll ws).mutables, id ∈ v.mutables ∨ id ∈ x.mutables) ∧
      ∀ id ∈ (v.afterAll ws).fixed, id ∈ v.fixed ∨ id ∈ x.fixed := by
  induction ws generalizing v with
  | nil => exact ⟨hv, fun _ => .inl, fun _ => .inl⟩
  | cons w rest ih =>
    obtain ⟨⟨htarget, _⟩, kind, hcontent⟩ := hws w List.mem_cons_self
    have hstored : ∀ y ∈ w.content, y = x ∨ y = null := fun y hy =>
      eq_or_eq_of_settled (hcontent ▸ hy)
    have hmutables : ∀ id ∈ (v.after w).mutables, id ∈ v.mutables ∨ id ∈ x.mutables := by
      intro id hid
      refine (mem_mutables_after htarget hid).imp_right fun ⟨y, hy, hin⟩ => ?_
      rcases hstored y hy with rfl | rfl
      · exact hin
      · cases hin
    have hfixed : ∀ id ∈ (v.after w).fixed, id ∈ v.fixed ∨ id ∈ x.fixed := by
      intro id hid
      refine (mem_fixed_after htarget hid).imp_right fun ⟨y, hy, hin⟩ => ?_
      rcases hstored y hy with rfl | rfl
      · exact hin
      · cases hin
    have hafter : (v.after w).Unshared := by
      refine hv.after htarget fun y hy => ?_
      rcases hstored y hy with rfl | rfl
      · exact ⟨hx, hnew, hold⟩
      · exact ⟨⟨.nil, by simp [null, atom, Value.mutables]⟩, by simp [null, atom, Value.mutables],
          by simp [null, atom, Value.fixed]⟩
    rcases List.eq_nil_or_concat' rest with rfl | ⟨_, _, hrest⟩
    · exact ⟨hafter, hmutables, hfixed⟩
    have hplain : x.mutables = [] := honce.resolve_left (by simp [hrest])
    obtain ⟨hunshared, hmutables', hfixed'⟩ := ih hafter (by simp [hplain])
      (fun id hid hin => (hmutables id hin).elim (hold id hid) (by simp [hplain]))
      (fun w' mem => by
        obtain ⟨⟨htarget', hx'⟩, hcontent'⟩ := hws w' (List.mem_cons_of_mem _ mem)
        exact ⟨⟨fun hin => (hfixed _ hin).elim htarget' hx', hx'⟩, hcontent'⟩)
      (.inr hplain)
    exact ⟨hunshared, fun id hid => (hmutables' id hid).elim (hmutables id) .inr,
      fun id hid => (hfixed' id hid).elim (hfixed id) .inr⟩

/-- Rebuilding a container so that it can be restored keeps it unshared, if its identity is new and
the snapshot is apart from it. -/
theorem Unshared.restorable (h : v.Unshared) (hw : v.kind.isWritable = true) (hid : id ∉ v.ids)
    (hsnapshot : id ∉ snapshot.ids) (hkept : ∀ i ∈ v.mutables, i ∉ snapshot.ids) :
    (v.restorable snapshot id).Unshared := by
  obtain ⟨old, shape, tag, snap, slots, rfl, hshape⟩ := exists_node_of_isWritable hw
  have ht := isTraversable_of_isWritable hshape
  have hslots : ∀ i ∈ slots.flatMap fun slot => slot.2.mutables,
      i ∈ (node old shape tag snap slots).mutables := fun i hi =>
    mem_mutables_node.mpr (.inr ⟨ht, List.mem_flatMap.mp hi⟩)
  have htag : ∀ {i}, i ∈ idsOption (shape.rebuiltTag tag) → i ∈ idsOption tag := fun hi => by
    obtain ⟨u, hu, hi⟩ := mem_idsOption.mp hi
    exact mem_idsOption.mpr ⟨u, shape.rebuiltTag_subset tag u hu, hi⟩
  have hfixed : ∀ {i}, i ∈ idsOption tag ∨ i ∈ slots.flatMap (fun slot => slot.2.fixed) →
      i ∈ (node old shape tag snap slots).fixed := fun hi => (mem_fixed_node ht).mpr
    (.inr (hi.imp_right fun hi => .inr (List.mem_flatMap.mp hi)))
  have hnodup := h.nodup
  simp only [Value.mutables, ht, if_true, mutablesSlots_eq_flatMap] at hnodup
  refine unshared_node (by rwa [Shape.kind_rebuilt]) hnodup.of_append_right (fun i hi => ?_)
    ⟨fun hin => ?_, fun hin => ?_, fun hin => ?_⟩
  · have hi' := hslots i hi
    refine ⟨fun heq => hid (heq ▸ mutables_subset_ids hi'), fun hin => ?_, hkept i hi',
      fun hin => ?_⟩
    · exact h.apart i hi' (hfixed (.inl (htag hin)))
    · exact h.apart i hi' (hfixed (.inr hin))
  · exact hid (fixed_subset_ids (hfixed (.inl (htag hin))))
  · exact hsnapshot hin
  · exact hid (fixed_subset_ids (hfixed (.inr hin)))

end Value

/-! ## Runs -/

/-- In every version so far of the value under edit, each container that can be written stands in
one place. Now it holds no unused identity, and its containers that can be written were made for
this call and are not among those that are kept. -/
structure Workspace.Tended (origin : Value) (start made : Ident) (kept : List Ident)
    (s : Workspace) : Prop where
  edits : s.root = origin.afterAll s.writes.reverse
  unshared : ∀ ws, ws <+: s.writes.reverse → (origin.afterAll ws).Unshared
  keyed : s.root.isWellKeyed = true
  below : ∀ id ∈ s.root.ids, id < s.next
  mutables : ∀ id ∈ s.root.mutables, start ≤ id ∧ id ∉ kept
  next : made ≤ s.next

/-- Some turns of a path that was applied to `s` have led to `t`. What they wrote they wrote where
the path led to, and what they stored holds none of the containers that they could write into. -/
structure Workspace.Turned (origin : Value) (start made : Ident) (kept : List Ident)
    (path : CompiledPath) (s t : Workspace) : Prop extends t.Tended origin start made kept where
  later : s.next ≤ t.next
  free : ∀ id ∈ s.root.mutables, id ∉ t.root.fixed
  wrote : ∃ ws, s.Wrote ws t ∧ ∀ w ∈ ws,
    (∃ x, w ∈ Value.writesAlong (Path.strides path.segments) (fun _ => x) s.root) ∧
      ∀ y ∈ w.content, y.isWellKeyed = true ∧ ∀ id ∈ y.ids, id < start ∨ s.next ≤ id

namespace Workspace

open Value

variable {origin : Value} {start made : Ident} {kept : List Ident} {path : CompiledPath}
  {s t u : Workspace} {x : Value} {ws : List Write} {question : Consultation} {censor : Censor}
  {next : Ident}

theorem Tended.root_unshared (h : s.Tended origin start made kept) : s.root.Unshared :=
  h.edits ▸ h.unshared _ (List.prefix_refl _)

theorem Tended.congr (h : t.Tended origin start made kept) (hroot : u.root = t.root)
    (hwrites : u.writes = t.writes) (hnext : t.next ≤ u.next) :
    u.Tended origin start made kept := by
  refine ⟨?_, ?_, ?_, ?_, ?_, le_trans h.next hnext⟩
  · rw [hroot, hwrites]
    exact h.edits
  · rw [hwrites]
    exact h.unshared
  · rw [hroot]
    exact h.keyed
  · rw [hroot]
    exact fun id hid => lt_of_lt_of_le (h.below id hid) hnext
  · rw [hroot]
    exact h.mutables

/-- An answer that was built later holds no container that can be written here. -/
theorem Tended.not_mem_answer (h : s.Tended origin start made kept) (hlater : s.next ≤ next)
    (hx : x.BuiltAt start next) : ∀ id ∈ s.root.mutables, id ∉ x.ids := by
  intro id hid hin
  have := (h.mutables id hid).1
  have := h.below id (mutables_subset_ids hid)
  have := hx.ids id hin
  lia

/-- A prefix of a row and its continuation is one of the row, or the row with one of the
continuation. -/
theorem prefix_append_cases {α : Type} {l a b : List α} (h : l <+: a ++ b) :
    l <+: a ∨ ∃ c, c <+: b ∧ l = a ++ c := by
  rcases List.prefix_or_prefix_of_prefix h (List.prefix_append a b) with hl | ⟨c, rfl⟩
  · exact .inl hl
  · exact .inr ⟨c, (List.prefix_append_right_inj a).mp h, rfl⟩

/-- Writes go on with what is kept of a run if each version on the way is unshared. -/
theorem Tended.written (h : u.Tended origin start made kept)
    (hunshared : ∀ us, us <+: ws → (u.root.afterAll us).Unshared)
    (hmutables : ∀ id ∈ (u.root.afterAll ws).mutables, start ≤ id ∧ id ∉ kept)
    (hcontent : ∀ w ∈ ws, ∀ y ∈ w.content, y.isWellKeyed = true ∧ ∀ id ∈ y.ids, id < u.next) :
    (Run.written ws u).Tended origin start made kept := by
  refine ⟨?_, ?_, isWellKeyed_afterAll h.keyed fun w mem y hy => (hcontent w mem y hy).1, ?_,
    hmutables, h.next⟩
  · rw [writes_written, afterAll_append, ← h.edits]
    rfl
  · rw [writes_written]
    intro vs hvs
    rcases prefix_append_cases hvs with hvs | ⟨rest, hrest, rfl⟩
    · exact h.unshared vs hvs
    · rw [afterAll_append, ← h.edits]
      exact hunshared rest hrest
  · exact (Admits.afterAll (P := fun _ => True) ⟨by simp, h.below⟩ fun w mem y hy =>
      ⟨by simp, (hcontent w mem y hy).2⟩).ids

theorem Turned.refl (h : s.Tended origin start made kept) :
    s.Turned origin start made kept path s :=
  ⟨h, le_rfl, h.root_unshared.apart, [], .refl s, by simp⟩

theorem Turned.congr (h : s.Turned origin start made kept path t) (hroot : u.root = t.root)
    (hwrites : u.writes = t.writes) (hnext : t.next ≤ u.next) :
    s.Turned origin start made kept path u := by
  obtain ⟨ws, hwrote, hws⟩ := h.wrote
  refine ⟨h.toTended.congr hroot hwrites hnext, le_trans h.later hnext, ?_, ws,
    ⟨hroot.trans hwrote.root, hwrites.trans hwrote.writes⟩, hws⟩
  rw [hroot]
  exact h.free

theorem Turned.written (hs : s.Tended origin start made kept)
    (h : s.Turned origin start made kept path t) (hstart : start ≤ made)
    (hkept : ∀ id ∈ kept, id < made) (hx : x.BuiltAt start t.next)
    (hbelow : ∀ id ∈ x.ids, id < u.next) (hroot : u.root = t.root)
    (hwrites : u.writes = t.writes) (hnext : t.next ≤ u.next)
    (hws : path.Stores s.root question x ws) (honce : ws.length ≤ 1 ∨ x.mutables = []) :
    s.Turned origin start made kept path (Run.written ws u) := by
  have hu := h.congr hroot hwrites hnext
  -- what is written was there when the path was applied, so it is part of no answer
  have hnot := hs.not_mem_answer h.later hx
  have htarget : ∀ w ∈ ws, w.target ∈ s.root.mutables ∧ ∃ kind, w.content = settled kind x := by
    intro w mem
    obtain ⟨hin, _, kind, hcontent⟩ := mutable_of_mem_writesAlong (hws.along w mem)
    exact ⟨hin, kind, hcontent⟩
  have hstored : ∀ us, us <+: ws → (u.root.afterAll us).Unshared ∧
      (∀ id ∈ (u.root.afterAll us).mutables, id ∈ u.root.mutables ∨ id ∈ x.mutables) ∧
      ∀ id ∈ (u.root.afterAll us).fixed, id ∈ u.root.fixed ∨ id ∈ x.fixed := by
    intro us hus
    refine hu.root_unshared.stored hx.toUnshared (fun id hid hin => ?_) (fun id hid hin => ?_)
      (fun w mem => ?_) (honce.imp_left fun hlength => le_trans hus.length_le hlength)
    · have := hx.mutables id hid
      have := h.below id (hroot ▸ hin)
      lia
    · exact h.not_mem_answer le_rfl hx id (hroot ▸ hin) (fixed_subset_ids hid)
    · obtain ⟨hin, hcontent⟩ := htarget w (hus.subset mem)
      exact ⟨⟨hu.free _ hin, fun hfixed => hnot _ hin (fixed_subset_ids hfixed)⟩, hcontent⟩
  have hcontent : ∀ w ∈ ws, ∀ y ∈ w.content, y.isWellKeyed = true ∧ y.ids ⊆ x.ids := by
    intro w mem y hy
    obtain ⟨kind, hkind⟩ := (htarget w mem).2
    rcases eq_or_eq_of_settled (hkind ▸ hy) with rfl | rfl
    · exact ⟨hx.keyed, List.Subset.refl _⟩
    · exact ⟨rfl, List.nil_subset _⟩
  obtain ⟨_, hmutables, hfixed⟩ := hstored ws (List.prefix_refl ws)
  obtain ⟨us, hwrote, hus⟩ := hu.wrote
  have hversions : ∀ us, us <+: ws → (u.root.afterAll us).Unshared := fun us hus =>
    (hstored us hus).1
  refine ⟨hu.toTended.written hversions (fun id hid => ?_) fun w mem y hy =>
      ⟨(hcontent w mem y hy).1, fun id hid => hbelow id ((hcontent w mem y hy).2 hid)⟩,
    hu.later, fun id hid hin => ?_, us ++ ws, hwrote.trans ⟨rfl, rfl⟩, fun w mem => ?_⟩
  · refine (hmutables id hid).elim (hu.mutables id) fun hin => ?_
    have hfrom := hx.mutables id hin
    have hmade := h.next
    refine ⟨by lia, fun hin => ?_⟩
    have := hkept id hin
    lia
  · rcases hfixed id hin with hin | hin
    · exact hu.free id hid hin
    · exact hnot id hid (fixed_subset_ids hin)
  · rcases List.mem_append.mp mem with mem | mem
    · exact hus w mem
    · exact ⟨⟨x, hws.along w mem⟩, fun y hy => ⟨(hcontent w mem y hy).1, fun id hid =>
        (hx.ids id ((hcontent w mem y hy).2 hid)).imp_right (le_trans h.later)⟩⟩

theorem Tended.turned_keeps (hs : s.Tended origin start made kept) (hnew : censor.BuildsNew start)
    (hplain : path.fills = true → censor.FillsPlainly path) (hstart : start ≤ made)
    (hkept : ∀ id ∈ kept, id < made) :
    censor.Keeps path s.root (s.Turned origin start made kept path) where
  fails h hreplace := by
    obtain ⟨hroot, hwrites, hnext⟩ := Run.replacement_error hreplace
    exact h.congr hroot hwrites hnext.ge
  stores h hreplace hws := by
    obtain ⟨hx, hbelow, hroot, hwrites, hnext⟩ := hnew.answer (le_trans hstart h.next) hreplace
    refine .written hs h hstart hkept hx hbelow hroot hwrites hnext hws ?_
    refine hws.single.imp_right fun ⟨hfills, hlength, k, hk⟩ => ?_
    rw [hk] at hreplace
    exact (hplain hfills).answer hnew hlength hreplace

/-- What a path leaves as it was: all but the slots that it addressed when it was applied. -/
theorem Turned.unchangedOff (hs : s.Tended origin start made kept)
    (h : s.Turned origin start made kept path t) :
    UnchangedOff (fun position => s.root.addresses (Path.strides path.segments) position = true)
      s.root t.root := by
  obtain ⟨ws, hwrote, hws⟩ := h.wrote
  have htarget : ∀ w ∈ ws, w.target ∈ s.root.mutables := fun w mem => by
    obtain ⟨x, hx⟩ := (hws w mem).1
    exact (mutable_of_mem_writesAlong hx).1
  rw [hwrote.root]
  refine unchangedOff_afterAll hs.keyed (fun w mem => hs.root_unshared.apart _ (htarget w mem))
    (fun w mem y hy => ⟨((hws w mem).2 y hy).1, fun w' mem' hin => ?_⟩)
    fun w mem position u hu hid k hk => ?_
  · have := (hs.mutables _ (htarget w' mem')).1
    have := hs.below _ (mutables_subset_ids (htarget w' mem'))
    have := ((hws w mem).2 y hy).2 _ hin
    lia
  · obtain ⟨x, hx⟩ := (hws w mem).1
    obtain ⟨found, _, j, hfound, _, hidFound, hj, haddressed⟩ := exists_addressed hs.keyed hx
    have hplace := hs.root_unshared.same_position (htarget w mem) hu hfound hid hidFound
    have hsame : Same (position ++ [k]) (found ++ [j]) :=
      List.rel_append hplace (.cons (Key.same_trans hk (Key.same_comm j w.key ▸ hj)) .nil)
    exact (addresses_congr hsame).trans haddressed

end Workspace

namespace Engine

open Value

variable {engine : Engine} {censor : Censor} {path : CompiledPath} {paths : List CompiledPath}
  {origin v : Value} {start made next : Ident} {kept : List Ident} {s : Workspace}

theorem applyPath_turned (hs : s.Tended origin start made kept) (hnew : censor.BuildsNew start)
    (hplain : path.fills = true → censor.FillsPlainly path) (hstart : start ≤ made)
    (hkept : ∀ id ∈ kept, id < made) :
    Run.Ends (applyPath censor path) s (fun _ => s.Turned origin start made kept path)
      fun _ => s.Turned origin start made kept path :=
  applyPath_keeps (hs.turned_keeps hnew hplain hstart hkept) hs.root_unshared hs.keyed (.refl hs)

theorem applyPaths_tended (hs : s.Tended origin start made kept) (hnew : censor.BuildsNew start)
    (hplain : ∀ path ∈ paths, path.fills = true → censor.FillsPlainly path) (hstart : start ≤ made)
    (hkept : ∀ id ∈ kept, id < made) :
    Run.Ends (applyPaths censor paths) s (fun _ t => t.Tended origin start made kept)
      fun _ t => t.Tended origin start made kept := by
  induction paths generalizing s with
  | nil => exact hs
  | cons path rest ih =>
    obtain ⟨hfirst, hrest⟩ := List.forall_mem_cons.mp hplain
    rw [applyPaths, Run.ends_bind]
    refine (applyPath_turned hs hnew hfirst hstart hkept).imp (fun _ t ht => ?_)
      fun _ _ ht => ht.toTended
    rw [Run.ends_bind]
    exact ih ht.toTended hrest

theorem prepare_tended {working : Value} {snapshot : Option Value} {m : Ident}
    (hv : v.Unshared) (horderly : v.isOrderly = true) (hids : ∀ id ∈ v.ids, id < next)
    (hkeys : v.keysBelow next = true)
    (hprepare : engine.prepare v next = .ok (working, snapshot, m)) :
    (Workspace.start working m).Tended working next m (idsOption snapshot) ∧ next ≤ m ∧
      ∀ id ∈ idsOption snapshot, id < m := by
  obtain ⟨_, rfl, hcases⟩ := prepare_eq_ok hprepare
  obtain ⟨hle, hfresh⟩ := renew_fresh true hids
  have hbelow := hfresh.ids_lt fun id hid => lt_of_lt_of_le (hids id (hidden_subset_ids hid)) hle
  have hunshared := unshared_renew hv hids
  have hkeyed : (v.renew true next).1.isWellKeyed = true :=
    isWellKeyed_of_isOrderly (isOrderly_renew true horderly hids hkeys)
  have hstart : ∀ snapshot : Option Value, (∀ id ∈ (v.renew true next).1.mutables,
      id ∉ idsOption snapshot) → ∀ m, (v.renew true next).2 ≤ m →
        (Workspace.start (v.renew true next).1 m).Tended (v.renew true next).1 next m
          (idsOption snapshot) := fun snapshot hsnapshot m hm => by
    refine ⟨rfl, fun ws hws => ?_, hkeyed, fun id hid => lt_of_lt_of_le (hbelow id hid) hm,
      fun id hid => ⟨(hfresh.reach id (mutables_subset_reach hid)).1, hsnapshot id hid⟩, le_rfl⟩
    obtain rfl := List.prefix_nil.mp hws
    exact hunshared
  rcases hcases with ⟨_, rfl, rfl⟩ | ⟨_, rfl, rfl⟩
  · obtain ⟨hle', hfresh'⟩ := renew_fresh false fun id hid => lt_of_lt_of_le (hids id hid) hle
    refine ⟨hstart _ (fun id hid hin => ?_) _ hle', le_trans hle hle', hfresh'.ids_lt fun id hid =>
      lt_of_lt_of_le (hids id (hidden_subset_ids hid)) (le_trans hle hle')⟩
    have hnew := hfresh.reach id (mutables_subset_reach hid)
    rcases mem_ids.mp hin with hin | hin
    · have := (hfresh'.reach id hin).1
      lia
    · have := (hfresh'.hidden id hin).imp_left fun hin => hids id (hidden_subset_ids hin)
      lia
  · exact ⟨hstart none (by simp [idsOption]) _ le_rfl, hle, by simp [idsOption]⟩

theorem close_unshared {snapshot : Option Value} {r : Value}
    (hs : s.Tended origin start made (idsOption snapshot))
    (hsnapshot : ∀ id ∈ idsOption snapshot, id < made) (hlive : engine.policy.output = .live)
    (hr : (engine.close snapshot s.root s.next).1 = .ok r) : r.Unshared := by
  unfold close at hr
  cases snapshot with
  | none =>
    obtain rfl : s.root = r := by simpa [hlive, finish] using hr
    exact hs.root_unshared
  | some snapshot =>
    dsimp only at hr
    split at hr
    · rename_i hw
      obtain rfl := Except.ok.inj hr
      rw [withRestore_of_isWellKeyed (isTraversable_of_isWritable hw) hs.keyed]
      refine hs.root_unshared.restorable hw (fun hid => ?_) (fun hid => ?_) fun id hid =>
        (hs.mutables id hid).2
      · exact absurd (hs.below _ hid) (lt_irrefl _)
      · have := hsnapshot _ hid
        have := hs.next
        lia
    · obtain rfl := Except.ok.inj hr
      exact hs.root_unshared

/-- A call keeps its working copy a tree. The input is a tree, and the censor builds something new
for each answer, without containers that can be written where it is to fill a container with
several slots. Then each container that can be written stands in one place after each write, each
path changes only the slots that it addresses in the working copy that it finds, and in a live
result a write changes only the slot that is written. -/
theorem run_keeps_tree (hkind : v.kind.isTraversable = true) (hv : v.Unshared)
    (horderly : v.isOrderly = true) (hids : ∀ id ∈ v.ids, id < next)
    (hkeys : v.keysBelow next = true) (hnew : engine.policy.applied.BuildsNew next)
    (hplain : ∀ path ∈ engine.paths, path.fills = true →
      engine.policy.applied.FillsPlainly path) :
    (∀ ws, ws <+: (engine.run v next).writes →
        ((v.renew true next).1.afterAll ws).Unshared) ∧
      (∀ working snapshot m done path rest count s,
        engine.prepare v next = .ok (working, snapshot, m) →
        engine.paths = done ++ path :: rest →
        applyPaths engine.policy.applied done (.start working m) = .ok count s →
        Run.Leaves (applyPath engine.policy.applied path) s
          (fun _ t => UnchangedOff
            (fun position => s.root.addresses (Path.strides path.segments) position = true)
            s.root t.root)
          fun t => UnchangedOff
            (fun position => s.root.addresses (Path.strides path.segments) position = true)
            s.root t.root) ∧
      (engine.policy.output = .live → ∀ r, (engine.run v next).result = .ok r → r.Unshared ∧
        ∀ position u w, r.at? position = some u → u.kind.isWritable = true →
          u.ident? = some w.target →
          UnchangedOff (Same · (position ++ [w.key])) r (r.after w)) := by
  have hpass : (engine.policy.strict && !v.kind.isTraversable) = false := by simp [hkind]
  refine ⟨fun ws hws => ?_,
    fun working snapshot m done path rest count s hprepare hpaths happly => ?_,
    fun hlive r hr => ?_⟩
  · cases hprepare : engine.prepare v next with
    | error failure =>
      obtain rfl : ws = [] := by simpa [run, hpass, hprepare] using hws
      exact unshared_renew hv hids
    | ok begun =>
      obtain ⟨working, snapshot, m⟩ := begun
      obtain ⟨hs, hm, hkept⟩ := prepare_tended hv horderly hids hkeys hprepare
      obtain ⟨_, rfl, _⟩ := prepare_eq_ok hprepare
      obtain ⟨t, hwrites, _, ⟨_, ht, _⟩ | ⟨ht, _⟩⟩ :=
        run_ends hpass hprepare (applyPaths_tended hs hnew hplain hm hkept)
      all_goals exact ht.unshared ws (hwrites ▸ hws)
  · obtain ⟨hs, hm, hkept⟩ := prepare_tended hv horderly hids hkeys hprepare
    have hbefore : ∀ path ∈ done, path.fills = true → engine.policy.applied.FillsPlainly path :=
      fun path mem => hplain path (by simp [hpaths, mem])
    have hdone := applyPaths_tended hs hnew hbefore hm hkept
    rw [Run.Ends, happly] at hdone
    rw [Run.leaves_iff]
    exact (applyPath_turned hdone hnew (hplain path (by simp [hpaths])) hm hkept).imp
      (fun _ _ ht => ht.unchangedOff hdone) fun _ _ ht => ht.unchangedOff hdone
  · cases hprepare : engine.prepare v next with
    | error failure => simp [run, hpass, hprepare] at hr
    | ok begun =>
      obtain ⟨working, snapshot, m⟩ := begun
      obtain ⟨hs, hm, hkept⟩ := prepare_tended hv horderly hids hkeys hprepare
      obtain ⟨t, _, _, ⟨failure, _, hresult⟩ | ⟨ht, hresult⟩⟩ :=
        run_ends hpass hprepare (applyPaths_tended hs hnew hplain hm hkept)
      · simp [hresult] at hr
      have hresultUnshared := close_unshared ht hkept hlive (hresult ▸ hr)
      exact ⟨hresultUnshared, fun position u w hu hw hid =>
        hresultUnshared.unchangedOff_after hu hw hid⟩

end Engine

namespace Sample

/-- Tells the path where there are several slots, and makes a new structure elsewhere. -/
def thrifty : Censor := .stateless fun v path next =>
  if 1 < v.children.length then .ok (.text path)
  else .ok (.dict next [(.text "b", .list (next + 1) [.null])])

theorem thrifty_buildsNew (start : Ident) : thrifty.BuildsNew start := by
  intro asked question next x _ hx
  dsimp only at hx
  split at hx
  · obtain rfl := Except.ok.inj hx
    exact ⟨⟨.nil, nofun⟩, rfl, nofun, nofun⟩
  · obtain rfl := Except.ok.inj hx
    refine ⟨⟨?_, nofun⟩, rfl, fun id (hid : id ∈ [next, next + 1]) => ?_, nofun⟩
    · change [next, next + 1].Nodup
      simp
    · simp only [List.mem_cons, List.not_mem_nil, or_false] at hid
      lia

theorem thrifty_fillsPlainly (path : CompiledPath) : thrifty.FillsPlainly path := by
  intro asked question next x _ hlength hx
  simp only [hlength, if_true] at hx
  obtain rfl := Except.ok.inj hx
  rfl

/-- A mapping with two slots, and one with one slot. -/
def rooms : Value := .dict 0
  [(.text "a", .dict 1 [(.text "x", .atom (.int 1)), (.text "y", .atom (.int 2))]),
    (.text "c", .dict 2 [(.text "z", .atom (.int 3))])]

/-- Fills both mappings, then leads into what the second one was filled with. -/
def furnishing : Engine := ⟨{
  paths := ["*.*", "c.z.b[0]"], censor := thrifty, output := .live
  strict := true, remove := false, debug := false, given := [] }⟩

def furnished : Value := .node 13 (.mapping .plain) none
  (some (.dict 6 [
    (.text "a", .dict 7 [(.text "x", .atom (.int 1)), (.text "y", .atom (.int 2))]),
    (.text "c", .dict 8 [(.text "z", .atom (.int 3))])]))
  [(.text "a", .dict 4 [(.text "x", .text "a.*"), (.text "y", .text "a.*")]),
    (.text "c", .dict 5 [(.text "z", .dict 9
      [(.text "b", .list 10 [.dict 11 [(.text "b", .list 12 [.null])]])])])]

end Sample

theorem Engine.run_keeps_tree_rooms :
    Sample.rooms.kind.isTraversable = true ∧ Sample.rooms.Unshared ∧
      Sample.rooms.isOrderly = true ∧ (∀ id ∈ Sample.rooms.ids, id < 3) ∧
      Sample.rooms.keysBelow 3 = true ∧ Sample.furnishing.policy.applied.BuildsNew 3 ∧
      (∀ path ∈ Sample.furnishing.paths, path.fills = true →
        Sample.furnishing.policy.applied.FillsPlainly path) ∧
      (∃ path ∈ Sample.furnishing.paths, path.fills = true) ∧
      ((Sample.rooms.renew true 3).1.afterAll
        (Sample.furnishing.run Sample.rooms 3).writes).Unshared ∧
      ∃ r, (Sample.furnishing.run Sample.rooms 3).result = .ok r ∧ r.Unshared ∧
        Value.UnchangedOff (Value.Same · [.text "c", .text "z", .text "b", .index 0]) r
          (r.after ⟨10, .index 0, none⟩) := by
  have hv : Sample.rooms.Unshared := ⟨by decide, by decide⟩
  have horderly : Sample.rooms.isOrderly = true := by decide
  have hids : ∀ id ∈ Sample.rooms.ids, id < 3 := by decide
  have hkeys : Sample.rooms.keysBelow 3 = true := by decide
  have hnew : Sample.furnishing.policy.applied.BuildsNew 3 := Sample.thrifty_buildsNew 3
  have hplain : ∀ path ∈ Sample.furnishing.paths, path.fills = true →
      Sample.furnishing.policy.applied.FillsPlainly path :=
    fun path _ _ => Sample.thrifty_fillsPlainly path
  obtain ⟨hmoments, _, hresult⟩ := run_keeps_tree rfl hv horderly hids hkeys hnew hplain
  have hr : (Sample.furnishing.run Sample.rooms 3).result = .ok Sample.furnished := by cbv
  obtain ⟨hunshared, hwrite⟩ := hresult rfl _ hr
  exact ⟨rfl, hv, horderly, hids, hkeys, hnew, hplain, by decide,
    hmoments _ (List.prefix_refl _), _, hr, hunshared,
    hwrite [.text "c", .text "z", .text "b"] (.list 10 [.dict 11 [(.text "b", .list 12 [.null])]])
      ⟨10, .index 0, none⟩ rfl rfl rfl⟩

theorem Censor.fresh_buildsNew (start : Ident) : Censor.fresh.BuildsNew start := by
  intro asked question next x _ hx
  obtain rfl := Except.ok.inj hx
  refine ⟨⟨?_, nofun⟩, rfl, fun id (hid : id ∈ [next, next + 1, next + 2]) => ?_, nofun⟩
  · change [next, next + 1, next + 2].Nodup
    simp
  · simp only [List.mem_cons, List.not_mem_nil, or_false] at hid
    lia

namespace Sample

def couple : Value := .dict 0
  [(.text "a", .dict 1 [(.text "x", .atom (.int 1)), (.text "y", .atom (.int 2))])]

/-- Fills both slots with one new structure, and leads into it by way of the first slot. -/
def doubling : Engine := ⟨{
  paths := ["*.*", "a.x.x"], censor := .fresh, output := .live
  strict := true, remove := false, debug := false, given := [] }⟩

/-- A structure as the censor makes it, but for what its last slot holds. -/
def structured (n : Ident) (path : String) (x : Value) : Value := .dict n
  [(.text "a", .list (n + 1) [.atom (.int 1), .dict (n + 2) [(.text "b", .text path)]]),
    (.text "x", x)]

def doubled (x : Value) : Value := .dict 2
  [(.text "a", .dict 3 [(.text "x", structured 6 "a.*" x), (.text "y", structured 6 "a.*" x)])]

end Sample

/-- An answer that fills two slots stands in both. So the working copy is no longer a tree, the
next path changes a slot that it does not address, and a write into the result shows in another
slot of it. -/
theorem Engine.run_shares_answer :
    Sample.couple.kind.isTraversable = true ∧ Sample.couple.Unshared ∧
      Sample.couple.isOrderly = true ∧ (∀ id ∈ Sample.couple.ids, id < 2) ∧
      Sample.couple.keysBelow 2 = true ∧ Sample.doubling.policy.applied.BuildsNew 2 ∧
      ¬((Sample.couple.renew true 2).1.afterAll
        (Sample.doubling.run Sample.couple 2).writes).Unshared ∧
      (∃ working snapshot m first second count s,
        Sample.doubling.prepare Sample.couple 2 = .ok (working, snapshot, m) ∧
        Sample.doubling.paths = [first, second] ∧
        applyPaths Sample.doubling.policy.applied [first] (.start working m) = .ok count s ∧
        Run.Ends (applyPath Sample.doubling.policy.applied second) s
          (fun _ t => ¬Value.UnchangedOff
            (fun position => s.root.addresses (Path.strides second.segments) position = true)
            s.root t.root)
          fun _ _ => False) ∧
      ∃ r position u w, (Sample.doubling.run Sample.couple 2).result = .ok r ∧
        r.at? position = some u ∧ u.kind.isWritable = true ∧ u.ident? = some w.target ∧
        ¬Value.UnchangedOff (Value.Same · (position ++ [w.key])) r (r.after w) := by
  have hv : Sample.couple.Unshared := ⟨by decide, by decide⟩
  have hruns : Run.Ends (applyPaths .fresh [⟨"*.*", ["*", "*"]⟩])
      (.start (Sample.couple.renew true 2).1 6)
      (fun _ s => Run.Ends (applyPath .fresh ⟨"a.x.x", ["a", "x", "x"]⟩) s
        (fun _ t => s.root = Sample.doubled .null ∧
          t.root = Sample.doubled (Sample.structured 9 "a.x.x" .null))
        fun _ _ => False)
      fun _ _ => False := by cbv
  have hwrites : (Sample.couple.renew true 2).1.afterAll
      (Sample.doubling.run Sample.couple 2).writes =
        Sample.doubled (Sample.structured 9 "a.x.x" .null) := by cbv
  have hresult : (Sample.doubling.run Sample.couple 2).result =
      .ok ((Sample.doubled (Sample.structured 9 "a.x.x" .null)).restorable
        (Sample.couple.renew false 4).1 12) := by cbv
  refine ⟨rfl, hv, by decide, by decide, by decide, Censor.fresh_buildsNew 2, fun h => ?_, ?_,
    ⟨_, [.text "a", .text "x"], _, ⟨6, .text "x", none⟩, hresult, rfl, rfl, rfl, fun h => ?_⟩⟩
  · rw [hwrites] at h
    exact absurd h.nodup (by decide)
  · unfold Run.Ends at hruns
    cases hfirst : applyPaths .fresh [⟨"*.*", ["*", "*"]⟩]
        (.start (Sample.couple.renew true 2).1 6) with
    | error failure s =>
      rw [hfirst] at hruns
      exact hruns.elim
    | ok count s =>
      rw [hfirst] at hruns
      refine ⟨_, _, 6, _, _, count, s, by cbv, by cbv, hfirst,
        Run.Ends.imp hruns (fun _ t ht => ?_) fun _ _ => id⟩
      rw [ht.1, ht.2]
      intro h
      exact absurd (h.bind_ident? [.text "a", .text "y", .text "x"] (by decide)) (by decide)
  · exact absurd (h.bind_ident? [.text "a", .text "y", .text "x"] (by decide)) (by decide)

end Redaction
